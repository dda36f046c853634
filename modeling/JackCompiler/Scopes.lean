import Std.Data.TreeMap
import JackCompiler.Vm.Command

/-!
The names a subroutine can use: its own arguments and local variables, and behind them the static
variables and fields of its class. Each name is kept with its type and with its number among the
names of the same kind.
-/

namespace JackCompiler

inductive VariableKind where
  | static | field | argument | local_
deriving DecidableEq

namespace VariableKind

def all : List VariableKind :=
  [static, field, argument, local_]

def text : VariableKind → String
  | static => "static"
  | field => "field"
  | argument => "argument"
  | local_ => "local"

/-- The kind of this name. -/
def ofText? (text : String) : Option VariableKind :=
  all.find? (·.text = text)

theorem ofText?_text (kind : VariableKind) : ofText? kind.text = some kind := by
  cases kind <;> decide

/-- Where variables of the kind are stored. -/
def segment : VariableKind → Segment
  | static => .static
  | field => .this
  | argument => .argument
  | local_ => .local_

/-- Whether the kind is declared by the class and not by a subroutine. -/
def inClass : VariableKind → Bool
  | static | field => true
  | argument | local_ => false

end VariableKind

structure Variable where
  type : String
  kind : VariableKind
  index : Nat
deriving DecidableEq

/-- How many names of each kind have been declared. -/
structure Counts where
  static : Nat := 0
  field : Nat := 0
  argument : Nat := 0
  local_ : Nat := 0
deriving DecidableEq

namespace Counts

def get (counts : Counts) : VariableKind → Nat
  | .static => counts.static
  | .field => counts.field
  | .argument => counts.argument
  | .local_ => counts.local_

def increment (counts : Counts) : VariableKind → Counts
  | .static => { counts with static := counts.static + 1 }
  | .field => { counts with field := counts.field + 1 }
  | .argument => { counts with argument := counts.argument + 1 }
  | .local_ => { counts with local_ := counts.local_ + 1 }

theorem get_increment (counts : Counts) (kind other : VariableKind) :
    (counts.increment kind).get other = counts.get other + if other = kind then 1 else 0 := by
  cases kind <;> cases other <;> rfl

end Counts

structure Scopes where
  ofClass : Std.TreeMap String Variable := {}
  ofSubroutine : Std.TreeMap String Variable := {}
  counts : Counts := {}

namespace Scopes

/-- Forgets all arguments and local variables. -/
def startSubroutine (scopes : Scopes) : Scopes :=
  { scopes with
    ofSubroutine := {}
    counts := { scopes.counts with argument := 0, local_ := 0 } }

/-- How many names of the kind have been declared in the current scope of the kind. A name counts
as often as it is declared. -/
def count (scopes : Scopes) (kind : VariableKind) : Nat :=
  scopes.counts.get kind

def insert (scopes : Scopes) (name : String) (entry : Variable) : Scopes :=
  if entry.kind.inClass then
    { scopes with ofClass := scopes.ofClass.insert name entry }
  else { scopes with ofSubroutine := scopes.ofSubroutine.insert name entry }

/-- Declares a name and gives it the next number of its kind. A second declaration in a scope
replaces the first. Counts are used as integer constants, so a kind with `maxInteger` names takes
no more. -/
def define? (scopes : Scopes) (name type : String) (kind : VariableKind) :
    Option (Nat × Scopes) :=
  let index := scopes.count kind
  if index < maxInteger then
    let counted := { scopes with counts := scopes.counts.increment kind }
    some (index, counted.insert name { type, kind, index })
  else none

/-- The variable that a name means: the subroutine's own, else the class's. -/
def lookup? (scopes : Scopes) (name : String) : Option Variable :=
  scopes.ofSubroutine[name]? <|> scopes.ofClass[name]?

def kindOf? (scopes : Scopes) (name : String) : Option VariableKind :=
  (scopes.lookup? name).map Variable.kind

def typeOf? (scopes : Scopes) (name : String) : Option String :=
  (scopes.lookup? name).map Variable.type

def indexOf? (scopes : Scopes) (name : String) : Option Nat :=
  (scopes.lookup? name).map Variable.index

end Scopes

end JackCompiler
