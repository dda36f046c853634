import JackCompiler.Build.Host
import JackCompiler.Transcript

/-!
The commands of the program. `build` compiles a source file, or every source file directly inside a
directory, each into a file next to it; a file that fails leaves no output and does not stop the
others. `tokens` lists the tokens of a file.
-/

namespace JackCompiler

inductive CommandLine where
  | build (path : String)
  | tokens (path : String)
deriving DecidableEq

namespace CommandLine

/-- Words after the path are ignored. -/
def parse? : List String → Option CommandLine
  | "build" :: path :: _ => some (build path)
  | "tokens" :: path :: _ => some (tokens path)
  | _ => none

def usage : String :=
  String.join (List.map (· ++ "\n")
    ["Jack Compiler v0.5.0",
      "",
      "usage: jackc CMD PATH",
      "",
      "commands:",
      "    build   Compile a source file, or every source file in a directory,",
      "            into VM code written next to each source",
      "    tokens  Print the tokens of the target source file",
      "",
      "examples:",
      "    jackc build Square",
      "    jackc build Square/Main.jack",
      "    jackc tokens Square/Main.jack",
      "",
      "Log verbosity is controlled with RUST_LOG, eg. RUST_LOG=debug",
      ""])

/-! Source files and their outputs. -/

/-- What follows the last dot of the last name of the path, unless the name starts with it. -/
def extension? (path : String) : Option String :=
  let name := path.toList.reverse.takeWhile (· != '/')
  match name.dropWhile (· != '.') with
  | _ :: _ :: _ => some (String.ofList (name.takeWhile (· != '.')).reverse)
  | _ => none

def isSource (path : String) : Bool :=
  extension? path = some "jack"

/-- The path with another extension, for a path that has one. -/
def outputPath (path : String) : String :=
  String.ofList (path.toList.reverse.dropWhile (· != '.')).reverse ++ "vm"

def join (directory name : String) : String :=
  if directory.toList.getLast? = some '/' then directory ++ name
  else directory ++ "/" ++ name

/-! Listing tokens. -/

def padLeft (width : Nat) (text : String) : String :=
  String.ofList (List.replicate (width - text.length) ' ') ++ text

def padRight (width : Nat) (text : String) : String :=
  text ++ String.ofList (List.replicate (width - text.length) ' ')

def capitalize (text : String) : String :=
  match text.toList with
  | c :: rest => String.ofList (c.toUpper :: rest)
  | [] => ""

def symbolName : Symbol → String
  | .leftBrace => "LeftBrace"
  | .rightBrace => "RightBrace"
  | .leftParen => "LeftParen"
  | .rightParen => "RightParen"
  | .leftBracket => "LeftBracket"
  | .rightBracket => "RightBracket"
  | .dot => "Dot"
  | .comma => "Comma"
  | .semicolon => "Semicolon"
  | .plus => "Plus"
  | .minus => "Minus"
  | .star => "Star"
  | .slash => "Slash"
  | .amp => "Amp"
  | .pipe => "Pipe"
  | .less => "Less"
  | .greater => "Greater"
  | .equal => "Eq"
  | .tilde => "Tilde"

def kindName : TokenKind → String
  | .keyword word => "Keyword(" ++ capitalize word.text ++ ")"
  | .symbol mark => "Symbol(" ++ symbolName mark ++ ")"
  | .identifier => "Ident"
  | .integer value => "Int(" ++ toString value ++ ")"
  | .string => "Str"
  | .endOfFile => "EOF"

def header : String :=
  "offset | len | line | token                | fragment \n"

/-- Offset, size, line, kind and text of a token. The end of the text has no text of its own. -/
def row (source : String) (token : Token) : String :=
  padLeft 7 (toString token.span.index) ++ ":" ++ padRight 3 (toString token.span.size) ++ " " ++
    padLeft 6 (toString (token.span.lineNumber source)) ++ " " ++
    match token.kind with
    | .endOfFile => kindName token.kind ++ "\n"
    | kind => padRight 22 (kindName kind) ++ " \"" ++ token.text ++ "\"\n"

variable {m : Type → Type} [Monad m] [Host m]

/-- Prints the rows of the tokens before the first error, and tells whether there was none. -/
def printRows (source : String) : List (Except LexicalError Token) → m Bool
  | [] => return true
  | .error _ :: _ => return false
  | .ok token :: rest => do
    Host.print (row source token)
    printRows source rest

/-- Lists the tokens of a file and gives the exit code. -/
def listTokens (path : String) : m UInt32 := do
  match ← Host.read path with
  | .error _ => return 1
  | .ok bytes =>
    match Utf8.decode bytes with
    | .error _ => return 1
    | .ok source =>
      Host.print header
      return if ← printRows source (Scanner.results source) then 0 else 1

/-! Building. -/

def say (level : Level) (message : String) : m Unit :=
  Host.log ⟨level, "jackc", message⟩

/-- The sources at a path: the file itself, or those directly inside the directory, by name. -/
def sources (path : String) : m (List String) := do
  match ← Host.entry? path with
  | some .directory =>
    let names := (← Host.names path).mergeSort (· ≤ ·)
    (names.map (join path)).filterM fun source => do
      return isSource source && (← Host.entry? source) = some .file
  | some .file => return if isSource path then [path] else []
  | none => return []

/-- Removes an output that is not complete. -/
def discard (path : String) : m Unit := do
  match ← Host.remove path with
  | .ok () => return ()
  | .error fault => say .warn ("failed to remove " ++ path ++ ": " ++ fault.message)

/-- Compiles a text into a file. The file is made before the text is looked at, and goes away again
if the text has no code. -/
def compileTo (source output : String) : m (Option Diagnostic) := do
  match ← Host.create output with
  | .error fault => return some (.io fault)
  | .ok () =>
    let transcript := compile source
    transcript.records.forM Host.log
    match transcript.failure with
    | some failure =>
      discard output
      return some failure
    | none =>
      match ← Host.write output transcript.output.toUTF8 with
      | .ok () => return none
      | .error fault =>
        discard output
        return some (.io fault)

/-- Compiles a source file into its output. -/
def compileFile (path : String) : m (Option Diagnostic) := do
  match ← Host.read path with
  | .error fault => return some (.io fault)
  | .ok bytes =>
    match Utf8.decode bytes with
    | .error fault => return some (.encoding fault)
    | .ok source => compileTo source (outputPath path)

/-- Compiles files one after the other and gives the number of those that failed. -/
def compileFiles : List String → m Nat
  | [] => return 0
  | path :: rest => do
    match ← compileFile path with
    | none =>
      say .info (path ++ " -> " ++ outputPath path)
      compileFiles rest
    | some failure =>
      say .error (path ++ "\n" ++ failure.message)
      return (← compileFiles rest) + 1

/-- Milliseconds with as many decimal places as the nanoseconds need. -/
def milliseconds (nanoseconds : Nat) : String :=
  let digits := (toString (1000000 + nanoseconds % 1000000)).toList.drop 1
  let decimals := (digits.reverse.dropWhile (· == '0')).reverse
  let whole := toString (nanoseconds / 1000000)
  if decimals.isEmpty then whole else whole ++ "." ++ String.ofList decimals

/-- How a summary tells the time that a build has taken. -/
def duration : Option Nat → String
  | some nanoseconds => " in " ++ milliseconds nanoseconds ++ "ms"
  | none => ""

/-- Builds everything at a path and gives the exit code. -/
def buildAll (path : String) : m UInt32 := do
  match ← sources path with
  | [] =>
    say .warn ("no .jack files found at " ++ path)
    return 0
  | files =>
    Host.startClock
    let failed ← compileFiles files
    say .info
      ("compiled " ++ toString (files.length - failed) ++ " of " ++ toString files.length ++
        " files" ++ duration (← Host.elapsed?))
    return if failed > 0 then 1 else 0

/-- Runs the program and gives its exit code. -/
def run (verbosity : Verbosity) (arguments : List String) : m UInt32 := do
  Host.openLog verbosity
  match parse? arguments with
  | some (build path) => buildAll path
  | some (tokens path) => listTokens path
  | none =>
    Host.print usage
    return 64

end CommandLine

end JackCompiler
