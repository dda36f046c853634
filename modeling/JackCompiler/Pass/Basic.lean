import JackCompiler.Token.Offsets
import JackCompiler.Transcript

/-!
A single pass over the tokens of a class, which writes every command as soon as it is known. A pass
has an output that may fail at any command, and it ends with the first one that does. It ends at a
token that does not fit or at a name without a variable too, and it has no result where it would
take a text from a place that has none.
-/

namespace JackCompiler

namespace Pass

/-- What a pass knows of the names, and what it has done so far. -/
structure Work (ω : Type) where
  source : String
  className : String := ""
  scopes : Scopes := {}
  /-- The records so far, latest first. -/
  records : List LogRecord := []
  output : ω

inductive Cause where
  | failed (failure : Failure)
  | io (fault : IoFault)

/-- The end of a pass that cannot go on. -/
structure Stop (ω : Type) where
  cause : Cause
  records : List LogRecord
  output : ω

/-- Work that needs no further tokens. -/
abbrev Job (ω α : Type) := StateT (Work ω) (ExceptT (Stop ω) Option) α

/-- Where a pass stands. -/
structure Place where
  input : Reader
  /-- How many labels have been handed out. -/
  labels : Nat := 0

namespace Place

/-- The place behind the current token. There is none behind the end. -/
def skip (place : Place) : Place :=
  match place.input.next? with
  | some (_, input) => { place with input }
  | none => place

/-- Whether the current token is of the given kind, and the place behind it if it is. -/
def accept (kind : TokenKind) (place : Place) : Bool × Place :=
  match place.input.accept? kind with
  | some (_, input) => (true, { place with input })
  | none => (false, place)

end Place

end Pass

abbrev Pass (ω α : Type) := StateT Pass.Place (Pass.Job ω) α

namespace Pass

variable {ω α : Type}

namespace Job

/-- There is no result at all. -/
def abort : Job ω α := fun _ => (none : Option (Except (Stop ω) (α × Work ω)))

def stop (cause : Cause) : Job ω α := do
  let work ← get
  throw ⟨cause, work.records, work.output⟩

/-- The text at the place of a token. -/
def text (token : Token) : Job ω String := do
  match token.span.keptText? (← get).source with
  | some text => return text
  | none => abort

/-- Stops at a token. A message about a string constant has its text in it. -/
def refuse (refusal : Refusal) : Job ω α := do
  match refusal with
  | ⟨.unexpected expected .string _, token⟩ =>
    let text ← text token
    stop (.failed (.refused ⟨.unexpected expected .string text, token⟩))
  | refusal => stop (.failed (.refused refusal))

def log (level : Level) (target message : String) : Job ω Unit :=
  modify fun work => { work with records := ⟨level, target, message⟩ :: work.records }

/-- Declares a name; the token is where a failure is reported. -/
def declare (kind : VariableKind) (type name : String) (token : Token) : Job ω Unit := do
  match (← get).scopes.define? name type kind with
  | some (index, scopes) =>
    modify ({ · with scopes })
    log .trace "jackc::symbol"
      ("define " ++ kind.text ++ " " ++ type ++ " " ++ name ++ " " ++ toString index)
  | none => refuse ⟨.tooManyDeclarations kind, token⟩

def resolve (name : Token) : Job ω Variable := do
  match (← get).scopes.lookup? name.text with
  | some entry => return entry
  | none => stop (.failed (.undefinedName name))

/-- The full name of a subroutine of the class. -/
def qualify (name : String) : Job ω String :=
  return (← get).className ++ "." ++ name

def openClass (name : String) : Job ω Unit := do
  modify ({ · with className := name })
  log .debug "jackc::compile::class" ("compiling class " ++ name)

/-- A subroutine starts with a scope of its own, in which a method has its receiver. -/
def openSubroutine (kind : SubroutineKind) (keyword : Token) : Job ω Unit := do
  modify fun work => { work with scopes := work.scopes.startSubroutine }
  if kind = .method then declare .argument (← get).className "this" keyword

def nameSubroutine (kind : SubroutineKind) (name : String) : Job ω Unit := do
  log .debug "jackc::compile::subroutine" ("compiling " ++ kind.text ++ " " ++ (← qualify name))

variable [Output ω]

/-- Writes a command. If the output fails, this is the end. -/
def write (command : Command) : Job ω Unit := do
  let work ← get
  match Output.issue work.output command with
  | (none, output) => set { work with output }
  | (some fault, output) => throw ⟨.io fault, work.records, output⟩

def push (entry : Variable) : Job ω Unit :=
  write (.push entry.kind.segment entry.index)

def pop (entry : Variable) : Job ω Unit :=
  write (.pop entry.kind.segment entry.index)

/-- Pushes the value of a variable. -/
def load (name : Token) : Job ω Unit := do
  push (← resolve name)

/-- All variables of a subroutine are declared. A constructor makes its object and a method is given
one; both bind it before their first statement. -/
def openBody (kind : SubroutineKind) (name : String) : Job ω Unit := do
  write (.function (← qualify name) ((← get).scopes.count .local_))
  match kind with
  | .constructor =>
    write (.push .constant ((← get).scopes.count .field))
    write (.call "Memory.alloc" 1)
    write (.pop .pointer 0)
  | .method =>
    write (.push .argument 0)
    write (.pop .pointer 0)
  | .function => return ()

/-- Appends characters to the string on the stack. -/
def appendAll : List Char → Job ω Unit
  | [] => return ()
  | c :: rest => do
    write (.push .constant c.toNat)
    write (.call "String.appendChar" 2)
    appendAll rest

/-- Makes a string object and appends the characters to it one by one. -/
def build (string : Token) : Job ω Unit := do
  let chars := (← text string).toList
  match chars.find? (0xFFFF < ·.toNat) with
  | some c => refuse ⟨.unstorableCharacter c, string⟩
  | none =>
    if chars.length ≤ maxInteger then
      write (.push .constant chars.length)
      write (.call "String.new" 1)
      appendAll chars
    else refuse ⟨.stringTooLong, string⟩

/-- What is called as `owner.member`, and how many arguments come before those in the text. The
owner is pushed if it is a variable. -/
def receiver (owner : Token) (member : String) : Job ω (String × Nat) := do
  match (← get).scopes.lookup? owner.text with
  | some entry =>
    push entry
    return (entry.type ++ "." ++ member, 1)
  | none => return (owner.text ++ "." ++ member, 0)

/-- The same for a method of the current object, which is pushed. -/
def ownReceiver (method : Token) : Job ω (String × Nat) := do
  write (.push .pointer 0)
  return (← qualify method.text, 1)

/-- Calls a subroutine; the token is where a call with too many arguments is reported. -/
def call (callee : String × Nat) (arguments : Nat) (token : Token) : Job ω Unit :=
  let total := arguments + callee.2
  if total ≤ maxInteger then write (.call callee.1 total)
  else refuse ⟨.callTooWide callee.1, token⟩

end Job

/-- Does work without taking a token. -/
def job (work : Job ω α) : Pass ω α :=
  StateT.lift work

def write [Output ω] (command : Command) : Pass ω Unit :=
  job (.write command)

/-! Tokens. -/

def kind : Pass ω TokenKind :=
  return (← get).input.peek.kind

/-- The kind of the token after the current one. -/
def followingKind : Pass ω TokenKind :=
  return ((← get).input.peekNth 1).kind

/-- Takes the current token, unless it is the end. -/
def advance : Pass ω Unit :=
  modify Place.skip

/-- Takes the current token if it is of the given kind, and tells whether it is. -/
def accept (kind : TokenKind) : Pass ω Bool :=
  modifyGet (·.accept kind)

def unexpected (expected : String) : Pass ω α := do
  job (.refuse ((← get).input.unexpected expected))

/-- Takes the current token, which must be of one of the given kinds. -/
def expectAny (kinds : List TokenKind) : Pass ω Token := do
  let place ← get
  match place.input.consumeAny kinds with
  | .ok (token, input) =>
    set { place with input }
    return token
  | .error refusal => job (.refuse refusal)

def expect (kind : TokenKind) : Pass ω Token :=
  expectAny [kind]

/-- What a name starts a call of, which may go on with a dot and the name of a member. -/
def receiver [Output ω] (name : Token) : Pass ω (String × Nat) := do
  if ← accept (.symbol .dot) then
    let member ← expect .identifier
    job (.receiver name member.text)
  else job (.ownReceiver name)

/-- Labels are counted without a bound. A count in 32 bits would do for fewer than `2 ^ 31` choices
and loops, since each takes two. -/
def newLabel : Pass ω String :=
  modifyGet fun place => (labelName place.labels, { place with labels := place.labels + 1 })

end Pass

end JackCompiler
