import JackCompiler.Diagnostic

/-!
Code with names in place of storage. Reading a class turns its text into a list of directives, in
the order of the text: commands that are already complete, and steps that need to know what has
been declared so far.
-/

namespace JackCompiler

inductive SubroutineKind where
  | constructor | function | method
deriving DecidableEq

def SubroutineKind.text : SubroutineKind → String
  | .constructor => "constructor"
  | .function => "function"
  | .method => "method"

inductive Directive where
  /-- The class has this name. -/
  | openClass (name : String)
  /-- A subroutine starts, with a scope of its own. -/
  | openSubroutine (kind : SubroutineKind) (keyword : Token)
  /-- The subroutine has this name. -/
  | nameSubroutine (kind : SubroutineKind) (name : String)
  /-- All variables of the subroutine are declared, and its code starts. -/
  | openBody (kind : SubroutineKind) (name : String)
  | declare (kind : VariableKind) (type : String) (name : Token)
  | emit (command : Command)
  /-- The name must be that of a variable. -/
  | require (name : Token)
  /-- Push the value of a variable. -/
  | load (name : Token)
  /-- Pop a value into a variable. -/
  | store (name : Token)
  /-- Build a string constant. -/
  | build (string : Token)
  /-- Push the receiver of a call `owner.member(…)`, if there is one. -/
  | receiver (owner : Token)
  /-- Call `owner.member` on the receiver, if there is one, and this many arguments. -/
  | invoke (owner : Token) (member : String) (arguments : Nat)
  /-- Call a method of the current object, which is already pushed. -/
  | invokeOwn (method : Token) (arguments : Nat)
deriving DecidableEq

/-- The name of the label with this number. -/
def labelName (n : Nat) : String :=
  "L" ++ toString n

/-- Operators between two terms. Multiplication and division are library routines. -/
def Symbol.binary? : Symbol → Option Command
  | .plus => some (.operate .add)
  | .minus => some (.operate .sub)
  | .star => some (.call "Math.multiply" 2)
  | .slash => some (.call "Math.divide" 2)
  | .amp => some (.operate .and)
  | .pipe => some (.operate .or)
  | .less => some (.operate .lt)
  | .greater => some (.operate .gt)
  | .equal => some (.operate .eq)
  | _ => none

end JackCompiler
