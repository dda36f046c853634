/-!
Commands of the stack machine that compiled programs run on, and the line of text for each. A
command does not restrict its names and numbers; what the compiler puts into them is its business.
-/

namespace JackCompiler

/-- The largest integer constant. The machine computes on 16-bit words, and a negative number is
written as the negation of a positive constant. -/
def maxInteger : Nat := 32767

/-- Memory regions. -/
inductive Segment where
  | constant | argument | local_ | static | this | that | pointer | temp
deriving DecidableEq

namespace Segment

def all : List Segment :=
  [constant, argument, local_, static, this, that, pointer, temp]

def text : Segment → String
  | constant => "constant"
  | argument => "argument"
  | local_ => "local"
  | static => "static"
  | this => "this"
  | that => "that"
  | pointer => "pointer"
  | temp => "temp"

def ofText? (text : String) : Option Segment :=
  all.find? (·.text = text)

theorem ofText?_text (s : Segment) : ofText? s.text = some s := by
  cases s <;> decide +kernel

end Segment

/-- Operations on the top of the stack. -/
inductive Operation where
  | add | sub | neg | eq | gt | lt | and | or | not
deriving DecidableEq

namespace Operation

def all : List Operation :=
  [add, sub, neg, eq, gt, lt, and, or, not]

def text : Operation → String
  | add => "add"
  | sub => "sub"
  | neg => "neg"
  | eq => "eq"
  | gt => "gt"
  | lt => "lt"
  | and => "and"
  | or => "or"
  | not => "not"

def ofText? (text : String) : Option Operation :=
  all.find? (·.text = text)

theorem ofText?_text (o : Operation) : ofText? o.text = some o := by
  cases o <;> decide +kernel

end Operation

inductive Command where
  | push (segment : Segment) (index : Nat)
  | pop (segment : Segment) (index : Nat)
  | operate (operation : Operation)
  | label (name : String)
  | goto (name : String)
  | ifGoto (name : String)
  | call (name : String) (arguments : Nat)
  | function (name : String) (locals : Nat)
  | ret
deriving DecidableEq

namespace Command

def text : Command → String
  | push segment index => "push " ++ segment.text ++ " " ++ toString index
  | pop segment index => "pop " ++ segment.text ++ " " ++ toString index
  | operate operation => operation.text
  | label name => "label " ++ name
  | goto name => "goto " ++ name
  | ifGoto name => "if-goto " ++ name
  | call name arguments => "call " ++ name ++ " " ++ toString arguments
  | function name locals => "function " ++ name ++ " " ++ toString locals
  | ret => "return"

def line (command : Command) : String :=
  command.text ++ "\n"

end Command

end JackCompiler
