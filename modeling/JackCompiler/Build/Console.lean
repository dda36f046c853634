import JackCompiler.Log

/-!
Records on a console, where the log of a run is shown one record after the other. What a log does
with its records is up to the machine; a run only hands them over.
-/

namespace JackCompiler

def Level.text : Level → String
  | error => "ERROR"
  | warn => "WARN"
  | info => "INFO"
  | debug => "DEBUG"
  | trace => "TRACE"

/-- The verbosity of this name. -/
def Verbosity.ofText? : String → Option Verbosity
  | "off" => some silent
  | "error" => some (upTo .error)
  | "warn" => some (upTo .warn)
  | "info" => some (upTo .info)
  | "debug" => some (upTo .debug)
  | "trace" => some (upTo .trace)
  | _ => none

namespace LogRecord

def isShown (record : LogRecord) (verbosity : Verbosity) : Bool :=
  record.level.rank ≤ verbosity.rank

/-- The level in five columns, the target in brackets and the message. -/
def line (record : LogRecord) : String :=
  let level := record.level.text
  level ++ String.ofList (List.replicate (5 - level.length) ' ') ++ " [" ++ record.target ++ "] " ++
    record.message ++ "\n"

end LogRecord

end JackCompiler
