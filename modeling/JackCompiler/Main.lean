import JackCompiler.Build.CommandLine
import JackCompiler.Build.Console

/-!
The program on the files of a machine. `RUST_LOG` names the least important level that is logged.
-/

namespace JackCompiler.Machine

def faultOfError : IO.Error → IoFault
  | .noFileOrDirectory _ code details
  | .permissionDenied _ code details
  | .alreadyExists _ code details
  | .inappropriateType _ code details
  | .invalidArgument _ code details
  | .resourceExhausted _ code details => .system details code.toNat
  | .otherError code details
  | .hardwareFault code details
  | .unsatisfiedConstraints code details
  | .resourceBusy code details => .system details code.toNat
  | error => .system error.toString 0

def attempt {α : Type} (action : IO α) : IO (Except IoFault α) :=
  tryCatch (.ok <$> action) fun error => return .error (faultOfError error)

/-- What a run on a machine keeps in mind. -/
structure State where
  verbosity : Verbosity := .silent
  /-- When the clock was started. -/
  started : Nat := 0

abbrev Run := StateT State IO

instance : Host Run where
  entry? path := do
    let place : IO.FS.DirEntry := { root := path, fileName := "" }
    match ← attempt place.root.metadata with
    | .ok found =>
      match found.type with
      | .dir => return some .directory
      | .file => return some .file
      | _ => return none
    | .error _ => return none
  names directory := do
    let place : IO.FS.DirEntry := { root := directory, fileName := "" }
    return (← place.root.readDir).toList.map (·.fileName)
  read path := attempt (IO.FS.readBinFile path)
  create path := attempt (IO.FS.writeBinFile path .empty)
  write path bytes := attempt (IO.FS.writeBinFile path bytes)
  remove path := attempt (IO.FS.removeFile path)
  print text := IO.print text
  openLog verbosity := modify ({ · with verbosity })
  log record := do
    if record.isShown (← get).verbosity then IO.print record.line
  startClock := do
    let started ← IO.monoNanosNow
    modify ({ · with started })
  elapsed? := do
    return some ((← IO.monoNanosNow) - (← get).started)

end JackCompiler.Machine

def main (arguments : List String) : IO UInt32 := do
  let level ← IO.getEnv "RUST_LOG"
  let verbosity :=
    (level.bind fun level => JackCompiler.Verbosity.ofText? level.toLower).getD
      (.upTo .info)
  let run : JackCompiler.Machine.Run UInt32 := JackCompiler.CommandLine.run verbosity arguments
  run.run' {}
