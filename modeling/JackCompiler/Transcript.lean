import JackCompiler.Directive.Reading
import JackCompiler.Log
import JackCompiler.Vm.Device

/-!
What the compilation of a class does, as data: the commands it issues and the records it logs, in
order, and the failure that ends it, if one does. Directives are carried out one by one against the
names declared so far, and the first that fails ends the run; the commands before it stand. A
transcript is then played on an output, which may fail earlier.
-/

namespace JackCompiler

inductive Effect where
  | issued (command : Command)
  | logged (record : LogRecord)
deriving DecidableEq

/-- Why a directive cannot be carried out. -/
inductive Failure where
  | refused (refusal : Refusal)
  | undefinedName (name : Token)
deriving DecidableEq

def Failure.locate (source : String) : Failure → Diagnostic
  | refused refusal =>
    .grammatical (.locate source refusal.token.span refusal.fault.message)
  | undefinedName name => .undefinedName name.text (name.span.lineNumber source)

/-- The state in which directives are carried out. -/
structure Generator where
  className : String := ""
  scopes : Scopes := {}
  /-- What has been done so far, latest first. -/
  effects : List Effect := []

namespace Generator

abbrev Outcome (α : Type) := Except (Failure × Generator) α

def issue (g : Generator) (command : Command) : Generator :=
  { g with effects := .issued command :: g.effects }

def log (g : Generator) (level : Level) (target message : String) : Generator :=
  { g with effects := .logged ⟨level, target, message⟩ :: g.effects }

def reject {α : Type} (g : Generator) (fault : SyntaxFault) (token : Token) : Outcome α :=
  .error (.refused ⟨fault, token⟩, g)

/-- The full name of a subroutine of the class. -/
def qualify (g : Generator) (name : String) : String :=
  g.className ++ "." ++ name

/-- Declares a name; the token is where a failure is reported. -/
def declare (g : Generator) (kind : VariableKind) (type name : String) (token : Token) :
    Outcome Generator :=
  match g.scopes.define? name type kind with
  | some (index, scopes) =>
    .ok ({ g with scopes }.log .trace "jackc::symbol"
      ("define " ++ kind.text ++ " " ++ type ++ " " ++ name ++ " " ++ toString index))
  | none => g.reject (.tooManyDeclarations kind) token

def resolve (g : Generator) (name : Token) : Outcome Variable :=
  match g.scopes.lookup? name.text with
  | some entry => .ok entry
  | none => .error (.undefinedName name, g)

def push (g : Generator) (entry : Variable) : Generator :=
  g.issue (.push entry.kind.segment entry.index)

/-- A constructor makes its object and a method is given one; both bind it before their first
statement. -/
def openBody (g : Generator) (kind : SubroutineKind) (name : String) : Generator :=
  let g := g.issue (.function (g.qualify name) (g.scopes.count .local_))
  match kind with
  | .constructor =>
    ((g.issue (.push .constant (g.scopes.count .field))).issue
      (.call "Memory.alloc" 1)).issue (.pop .pointer 0)
  | .method => (g.issue (.push .argument 0)).issue (.pop .pointer 0)
  | .function => g

/-- Makes a string object and appends the characters to it one by one. -/
def build (g : Generator) (string : Token) : Outcome Generator :=
  let chars := string.text.toList
  match chars.find? (0xFFFF < ·.toNat) with
  | some c => g.reject (.unstorableCharacter c) string
  | none =>
    if chars.length ≤ maxInteger then
      let made := (g.issue (.push .constant chars.length)).issue (.call "String.new" 1)
      .ok (chars.foldl
        (fun g c => (g.issue (.push .constant c.toNat)).issue (.call "String.appendChar" 2)) made)
    else g.reject .stringTooLong string

/-- Calls a subroutine; the token is where a call with too many arguments is reported. -/
def call (g : Generator) (callee : String) (arguments : Nat) (token : Token) : Outcome Generator :=
  if arguments ≤ maxInteger then .ok (g.issue (.call callee arguments))
  else g.reject (.callTooWide callee) token

def perform (g : Generator) : Directive → Outcome Generator
  | .openClass name =>
    .ok ({ g with className := name }.log .debug "jackc::compile::class"
      ("compiling class " ++ name))
  | .openSubroutine kind keyword =>
    let g := { g with scopes := g.scopes.startSubroutine }
    if kind = .method then g.declare .argument g.className "this" keyword else .ok g
  | .nameSubroutine kind name =>
    .ok (g.log .debug "jackc::compile::subroutine"
      ("compiling " ++ kind.text ++ " " ++ g.qualify name))
  | .openBody kind name => .ok (g.openBody kind name)
  | .declare kind type name => g.declare kind type name.text name
  | .emit command => .ok (g.issue command)
  | .require name => (g.resolve name).map fun _ => g
  | .load name => (g.resolve name).map g.push
  | .store name =>
    (g.resolve name).map fun entry => g.issue (.pop entry.kind.segment entry.index)
  | .build string => g.build string
  | .receiver owner =>
    match g.scopes.lookup? owner.text with
    | some entry => .ok (g.push entry)
    | none => .ok g
  | .invoke owner member arguments =>
    match g.scopes.lookup? owner.text with
    | some entry => g.call (entry.type ++ "." ++ member) (arguments + 1) owner
    | none => g.call (owner.text ++ "." ++ member) arguments owner
  | .invokeOwn method arguments => g.call (g.qualify method.text) (arguments + 1) method

def run (g : Generator) (directives : List Directive) : Outcome Generator :=
  directives.foldlM perform g

end Generator

structure Transcript where
  effects : List Effect
  failure : Option Diagnostic

namespace Transcript

/-- Carries out the directives of a text, and then reports the refusal that ended them. -/
def ofDirectives (source : String) (directives : List Directive) (refusal : Option Refusal) :
    Transcript :=
  match ({} : Generator).run directives with
  | .ok g => ⟨g.effects.reverse, refusal.map fun refusal => (Failure.refused refusal).locate source⟩
  | .error (failure, g) => ⟨g.effects.reverse, some (failure.locate source)⟩

def commands (transcript : Transcript) : List Command :=
  transcript.effects.filterMap fun
    | .issued command => some command
    | .logged _ => none

def records (transcript : Transcript) : List LogRecord :=
  transcript.effects.filterMap fun
    | .issued _ => none
    | .logged record => some record

/-- The text of all commands, one on a line. -/
def output (transcript : Transcript) : String :=
  String.join (transcript.commands.map Command.line)

/-- What is known after a transcript was played on an output. -/
structure Delivery where
  device : Device
  records : List LogRecord
  failure : Option Diagnostic

/-- Plays the effects until the device fails. -/
def play (records : List LogRecord) (device : Device) :
    List Effect → Option IoFault × List LogRecord × Device
  | [] => (none, records.reverse, device)
  | .logged record :: rest => play (record :: records) device rest
  | .issued command :: rest =>
    match device.issue command with
    | (none, device) => play records device rest
    | (some fault, device) => (some fault, records.reverse, device)

/-- Plays the transcript on the device and flushes it at the end of a successful compilation. -/
def deliver (transcript : Transcript) (device : Device) : Delivery :=
  match play [] device transcript.effects with
  | (some fault, records, device) => ⟨device, records, some (.io fault)⟩
  | (none, records, device) =>
    match transcript.failure with
    | some failure => ⟨device, records, some failure⟩
    | none => ⟨device, records, device.flush.map .io⟩

end Transcript

/-- Compiles the text of one class. All of it is split into tokens first. -/
def compile (source : String) : Transcript :=
  match Reader.ofSource source with
  | .error error => ⟨[], some (.lexical error)⟩
  | .ok reader =>
    let (directives, refusal) := reader.directives
    .ofDirectives source directives refusal

/-- Compiles a text into the text of its code, which is written first and read back whole. -/
def compileText (source : String) : Except Diagnostic String :=
  let delivery := (compile source).deliver {}
  match delivery.failure with
  | some failure => .error failure
  | none =>
    match Utf8.decode delivery.device.written with
    | .ok text => .ok text
    | .error fault => .error (.encoding fault)

/-- Compiles a text given in UTF-8. -/
def compileBytes (bytes : ByteArray) : Transcript :=
  match Utf8.decode bytes with
  | .error fault => ⟨[], some (.encoding fault)⟩
  | .ok source => compile source

end JackCompiler
