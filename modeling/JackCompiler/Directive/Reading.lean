import JackCompiler.Directive.Basic
import JackCompiler.Token.Reader

/-!
Reading a class. Every rule of the grammar takes the tokens of its production and adds their
directives; what follows the production is left to the caller. A rule that succeeds has fewer tokens
left than it started with, which is part of its type and makes the mutual recursion of expressions
and of statements well founded. A rule that fails keeps the directives of everything before the
token that it stops at.
-/

namespace JackCompiler

structure Reading where
  input : Reader
  /-- How many labels have been handed out. -/
  labels : Nat := 0
  /-- The directives so far, latest first. -/
  code : List Directive := []

namespace Reading

/-- The end of a reading that cannot go on. -/
structure Stop where
  refusal : Refusal
  code : List Directive

abbrev Outcome (α : Type) := Except Stop α

def left (s : Reading) : Nat :=
  s.input.left

/-- A reading with fewer than `n` tokens left. -/
abbrev Below (n : Nat) := { s : Reading // s.left < n }

/-- A token that was taken when there were `n` left. -/
structure Taken (n : Nat) where
  token : Token
  next : Reading
  shorter : next.left < n

def emit (s : Reading) (directive : Directive) : Reading :=
  { s with code := directive :: s.code }

def command (s : Reading) (command : Command) : Reading :=
  s.emit (.emit command)

/-- Hands out two labels. Their numbers are `s.labels` and the one after it. -/
def takeLabels (s : Reading) : Reading :=
  { s with labels := s.labels + 2 }

@[simp] theorem left_emit (s : Reading) (directive : Directive) :
    (s.emit directive).left = s.left :=
  rfl

@[simp] theorem left_command (s : Reading) (command : Command) :
    (s.command command).left = s.left :=
  rfl

@[simp] theorem left_takeLabels (s : Reading) : s.takeLabels.left = s.left :=
  rfl

/-- Stops at a token that has been taken already. -/
def reject {α : Type} (s : Reading) (fault : SyntaxFault) (token : Token) : Outcome α :=
  .error ⟨⟨fault, token⟩, s.code⟩

/-- Stops at the current token. -/
def unexpected {α : Type} (s : Reading) (expected : String) : Outcome α :=
  .error ⟨s.input.unexpected expected, s.code⟩

def kind (s : Reading) : TokenKind :=
  s.input.peek.kind

def next? (s : Reading) : Option (Taken s.left) :=
  match h : s.input.next? with
  | some (token, after) => some ⟨token, { s with input := after }, Reader.left_of_next? h⟩
  | none => none

def accept? (s : Reading) (kind : TokenKind) : Option (Taken s.left) :=
  match h : s.input.accept? kind with
  | some (token, after) =>
    some ⟨token, { s with input := after }, Reader.left_of_next? (Reader.next?_of_accept? h)⟩
  | none => none

def expectAny (s : Reading) (kinds : List TokenKind) : Outcome (Taken s.left) :=
  match h : s.input.consumeAny kinds with
  | .ok (token, after) =>
    .ok ⟨token, { s with input := after }, Reader.left_of_next? (Reader.next?_of_consumeAny h)⟩
  | .error refusal => .error ⟨refusal, s.code⟩

def expect (s : Reading) (kind : TokenKind) : Outcome (Taken s.left) :=
  s.expectAny [kind]

def expectSymbol (s : Reading) (mark : Symbol) : Outcome (Taken s.left) :=
  s.expect (.symbol mark)

/-- Takes an operator and gives the command that applies it. -/
def operator? (s : Reading) : Option (Command × Taken s.left) :=
  match s.next? with
  | some taken =>
    match taken.token.kind with
    | .symbol mark => mark.binary?.map (·, taken)
    | _ => none
  | none => none

/-- The number of arguments read, and the reading after them. -/
abbrev Counted (n : Nat) := Nat × Below n

mutual

/-- A term, then any number of operators and terms. There is no precedence: each operator is
applied to everything before it. -/
def expression (s : Reading) : Outcome (Below s.left) := do
  let ⟨t, ht⟩ ← s.term
  t.operations ht
termination_by 8 * s.left + 3

def operations {n : Nat} (s : Reading) (hs : s.left < n) : Outcome (Below n) :=
  match s.operator? with
  | some (apply, ⟨_, t, ht⟩) => do
    let ⟨u, hu⟩ ← t.term
    (u.command apply).operations (Nat.lt_trans hu (Nat.lt_trans ht hs))
  | none => .ok ⟨s, hs⟩
termination_by 8 * s.left

/-- A constant, a variable, an array element, a call, an expression in parentheses, or a prefix
operator and its term. A name is told apart by the token after it. -/
def term (s : Reading) : Outcome (Below s.left) :=
  match s.next? with
  | none => s.unexpected "an expression"
  | some ⟨token, t, ht⟩ =>
    match token.kind with
    | .integer value => .ok ⟨t.command (.push .constant value), ht⟩
    | .string => .ok ⟨t.emit (.build token), ht⟩
    | .keyword .true_ => .ok ⟨(t.command (.push .constant 0)).command (.operate .not), ht⟩
    | .keyword .false_ | .keyword .null_ => .ok ⟨t.command (.push .constant 0), ht⟩
    | .keyword .this_ => .ok ⟨t.command (.push .pointer 0), ht⟩
    | .symbol .leftParen => do
      let ⟨u, hu⟩ ← t.expression
      let ⟨_, v, hv⟩ ← u.expectSymbol .rightParen
      .ok ⟨v, by omega⟩
    | .symbol .minus => do
      let ⟨u, hu⟩ ← t.term
      .ok ⟨u.command (.operate .neg), Nat.lt_trans hu ht⟩
    | .symbol .tilde => do
      let ⟨u, hu⟩ ← t.term
      .ok ⟨u.command (.operate .not), Nat.lt_trans hu ht⟩
    | .identifier =>
      match t.kind with
      | .symbol .leftBracket => do
        let ⟨u, hu⟩ ← (t.emit (.load token)).index
        let v := (u.command (.pop .pointer 1)).command (.push .that 0)
        .ok ⟨v, Nat.lt_trans hu ht⟩
      | .symbol .leftParen | .symbol .dot => do
        let ⟨u, hu⟩ ← t.call token
        .ok ⟨u, Nat.lt_trans hu ht⟩
      | _ => .ok ⟨t.emit (.load token), ht⟩
    | _ => s.unexpected "an expression"
termination_by 8 * s.left + 2

/-- The index of an array, in brackets, added to the base address on the stack. -/
def index (s : Reading) : Outcome (Below s.left) := do
  let ⟨_, t, ht⟩ ← s.expectSymbol .leftBracket
  let ⟨u, hu⟩ ← t.expression
  let ⟨_, v, hv⟩ ← u.expectSymbol .rightBracket
  .ok ⟨v.command (.operate .add), by simp only [left_command]; omega⟩
termination_by 8 * s.left + 2

/-- A call, after the name it starts with. A single name is a method of the current object; of two
names the second is the subroutine. -/
def call (s : Reading) (name : Token) : Outcome (Below s.left) :=
  match s.accept? (.symbol .dot) with
  | some ⟨_, t, ht⟩ => do
    let ⟨member, u, hu⟩ ← t.expect .identifier
    let ⟨count, v, hv⟩ ← (u.emit (.receiver name)).arguments
    .ok ⟨v.emit (.invoke name member.text count),
      by simp only [left_emit] at hv ⊢; omega⟩
  | none => do
    let ⟨count, t, ht⟩ ← (s.command (.push .pointer 0)).arguments
    .ok ⟨t.emit (.invokeOwn name count), ht⟩
termination_by 8 * s.left + 3

/-- Arguments in parentheses. -/
def arguments (s : Reading) : Outcome (Counted s.left) := do
  let ⟨_, t, ht⟩ ← s.expectSymbol .leftParen
  if t.kind = .symbol .rightParen then
    let ⟨_, u, hu⟩ ← t.expectSymbol .rightParen
    .ok (0, ⟨u, Nat.lt_trans hu ht⟩)
  else
    let ⟨u, hu⟩ ← t.expression
    let ⟨count, v, hv⟩ ← u.moreArguments 1 hu
    let ⟨_, w, hw⟩ ← v.expectSymbol .rightParen
    .ok (count, ⟨w, by omega⟩)
termination_by 8 * s.left + 2

/-- Further arguments, each after a comma. -/
def moreArguments {n : Nat} (s : Reading) (count : Nat) (hs : s.left < n) : Outcome (Counted n) :=
  match s.accept? (.symbol .comma) with
  | some ⟨_, t, ht⟩ =>
    if maxInteger ≤ count then t.reject .tooManyArguments t.input.peek
    else do
      let ⟨u, hu⟩ ← t.expression
      u.moreArguments (count + 1) (Nat.lt_trans hu (Nat.lt_trans ht hs))
  | none => .ok (count, ⟨s, hs⟩)
termination_by 8 * s.left

end

/-- An assignment, after `let`. An array element is assigned through its address, which waits on the
stack until the value is in `temp 0`. -/
def assignment (s : Reading) : Outcome (Below s.left) := do
  let ⟨name, t, ht⟩ ← s.expect .identifier
  let t' := t.emit (.require name)
  if t'.kind = .symbol .leftBracket then
    let ⟨u, hu⟩ ← (t'.emit (.load name)).index
    let ⟨_, v, hv⟩ ← u.expectSymbol .equal
    let ⟨w, hw⟩ ← v.expression
    let ⟨_, x, hx⟩ ← w.expectSymbol .semicolon
    let y := (((x.command (.pop .temp 0)).command (.pop .pointer 1)).command
      (.push .temp 0)).command (.pop .that 0)
    .ok ⟨y, by simp only [y, t', left_command, left_emit] at *; omega⟩
  else
    let ⟨_, u, hu⟩ ← t'.expectSymbol .equal
    let ⟨v, hv⟩ ← u.expression
    let ⟨_, w, hw⟩ ← v.expectSymbol .semicolon
    .ok ⟨w.emit (.store name), by simp only [t', left_emit] at *; omega⟩

/-- A call whose value is dropped, after `do`. -/
def invocation (s : Reading) : Outcome (Below s.left) := do
  let ⟨name, t, ht⟩ ← s.expect .identifier
  let ⟨u, hu⟩ ← t.call name
  let ⟨_, v, hv⟩ ← u.expectSymbol .semicolon
  .ok ⟨v.command (.pop .temp 0), by simp only [left_command]; omega⟩

/-- The rest of a statement, after `return`. Without a value it returns zero. -/
def returning (s : Reading) : Outcome (Below s.left) :=
  if s.kind = .symbol .semicolon then do
    let ⟨_, t, ht⟩ ← (s.command (.push .constant 0)).expectSymbol .semicolon
    .ok ⟨t.command .ret, ht⟩
  else do
    let ⟨t, ht⟩ ← s.expression
    let ⟨_, u, hu⟩ ← t.expectSymbol .semicolon
    .ok ⟨u.command .ret, Nat.lt_trans hu ht⟩

/-- A condition in parentheses, and a jump to the label where it does not hold. -/
def condition (s : Reading) (otherwise : String) : Outcome (Below s.left) := do
  let ⟨_, t, ht⟩ ← s.expectSymbol .leftParen
  let ⟨u, hu⟩ ← t.expression
  let ⟨_, v, hv⟩ ← u.expectSymbol .rightParen
  .ok ⟨(v.command (.operate .not)).command (.ifGoto otherwise),
    by simp only [left_command]; omega⟩

mutual

/-- Statements, as many as there are. -/
def statements {n : Nat} (s : Reading) (hs : s.left < n) : Outcome (Below n) :=
  match s.next? with
  | none => .ok ⟨s, hs⟩
  | some ⟨token, t, ht⟩ =>
    match token.kind with
    | .keyword .let_ => do
      let ⟨u, hu⟩ ← t.assignment
      u.statements (Nat.lt_trans hu (Nat.lt_trans ht hs))
    | .keyword .if_ => do
      let ⟨u, hu⟩ ← t.choice
      u.statements (Nat.lt_trans hu (Nat.lt_trans ht hs))
    | .keyword .while_ => do
      let ⟨u, hu⟩ ← t.loop
      u.statements (Nat.lt_trans hu (Nat.lt_trans ht hs))
    | .keyword .do_ => do
      let ⟨u, hu⟩ ← t.invocation
      u.statements (Nat.lt_trans hu (Nat.lt_trans ht hs))
    | .keyword .return_ => do
      let ⟨u, hu⟩ ← t.returning
      u.statements (Nat.lt_trans hu (Nat.lt_trans ht hs))
    | _ => .ok ⟨s, hs⟩
termination_by 4 * s.left

/-- A choice, after `if`. The first label stands before the `else` block, if there is one, and the
second at the end. -/
def choice (s : Reading) : Outcome (Below s.left) := do
  let otherwise := labelName s.labels
  let done := labelName (s.labels + 1)
  let ⟨t, ht⟩ ← s.takeLabels.condition otherwise
  have : t.left < s.left := ht
  let ⟨u, hu⟩ ← t.block
  let u' := (u.command (.goto done)).command (.label otherwise)
  match u'.accept? (.keyword .else_) with
  | some ⟨_, v, hv⟩ => do
    have hvs : v.left < s.left := Nat.lt_trans hv (Nat.lt_trans hu ht)
    let ⟨w, hw⟩ ← v.block
    .ok ⟨w.command (.label done), Nat.lt_trans hw hvs⟩
  | none => .ok ⟨u'.command (.label done), Nat.lt_trans hu ht⟩
termination_by 4 * s.left + 2

/-- A loop, after `while`. The first label stands before the condition and the second at the end. -/
def loop (s : Reading) : Outcome (Below s.left) := do
  let top := labelName s.labels
  let done := labelName (s.labels + 1)
  let ⟨t, ht⟩ ← (s.takeLabels.command (.label top)).condition done
  have : t.left < s.left := ht
  let ⟨u, hu⟩ ← t.block
  .ok ⟨(u.command (.goto top)).command (.label done), Nat.lt_trans hu ht⟩
termination_by 4 * s.left + 2

/-- Statements in braces. -/
def block (s : Reading) : Outcome (Below s.left) := do
  let ⟨_, t, ht⟩ ← s.expectSymbol .leftBrace
  let ⟨u, hu⟩ ← t.statements ht
  let ⟨_, v, hv⟩ ← u.expectSymbol .rightBrace
  .ok ⟨v, Nat.lt_trans hv hu⟩
termination_by 4 * s.left + 1

end

/-- A primitive type or the name of a class, as it is written. -/
def type (s : Reading) : Outcome (Taken s.left) :=
  match s.next? with
  | none => s.unexpected "a type"
  | some taken =>
    match taken.token.kind with
    | .keyword .int_ | .keyword .char_ | .keyword .boolean_ | .identifier => .ok taken
    | _ => s.unexpected "a type"

/-- A type, or `void`. -/
def returnType (s : Reading) : Outcome (Taken s.left) :=
  match s.next? with
  | none => s.unexpected "a type or 'void'"
  | some taken =>
    match taken.token.kind with
    | .keyword .int_ | .keyword .char_ | .keyword .boolean_ | .keyword .void_ | .identifier =>
      .ok taken
    | _ => s.unexpected "a type or 'void'"

/-- Names of one type and kind, with commas between them. -/
def names {n : Nat} (s : Reading) (kind : VariableKind) (type : String) (hs : s.left < n) :
    Outcome (Below n) := do
  let ⟨name, t, ht⟩ ← s.expect .identifier
  let t' := t.emit (.declare kind type name)
  match t'.accept? (.symbol .comma) with
  | some ⟨_, u, hu⟩ =>
    have : u.left < s.left := Nat.lt_trans hu ht
    u.names kind type (Nat.lt_trans this hs)
  | none => .ok ⟨t', Nat.lt_trans ht hs⟩
termination_by s.left

/-- A declaration of variables, after its first keyword. -/
def declaration (s : Reading) (kind : VariableKind) : Outcome (Below s.left) := do
  let ⟨type, t, ht⟩ ← s.type
  let ⟨u, hu⟩ ← t.names kind type.text ht
  let ⟨_, v, hv⟩ ← u.expectSymbol .semicolon
  .ok ⟨v, Nat.lt_trans hv hu⟩

/-- The declarations at the start of a class. -/
def classVariables {n : Nat} (s : Reading) (hs : s.left < n) : Outcome (Below n) :=
  match s.next? with
  | none => .ok ⟨s, hs⟩
  | some ⟨token, t, ht⟩ =>
    match token.kind with
    | .keyword .static_ => do
      let ⟨u, hu⟩ ← t.declaration .static
      u.classVariables (Nat.lt_trans hu (Nat.lt_trans ht hs))
    | .keyword .field_ => do
      let ⟨u, hu⟩ ← t.declaration .field
      u.classVariables (Nat.lt_trans hu (Nat.lt_trans ht hs))
    | _ => .ok ⟨s, hs⟩
termination_by s.left

/-- The declarations at the start of a subroutine body. -/
def localVariables {n : Nat} (s : Reading) (hs : s.left < n) : Outcome (Below n) :=
  match s.accept? (.keyword .var_) with
  | some ⟨_, t, ht⟩ => do
    let ⟨u, hu⟩ ← t.declaration .local_
    u.localVariables (Nat.lt_trans hu (Nat.lt_trans ht hs))
  | none => .ok ⟨s, hs⟩
termination_by s.left

/-- Parameters, each with its type and with commas between them. -/
def moreParameters {n : Nat} (s : Reading) (hs : s.left < n) : Outcome (Below n) := do
  let ⟨type, t, ht⟩ ← s.type
  let ⟨name, u, hu⟩ ← t.expect .identifier
  let u' := u.emit (.declare .argument type.text name)
  match u'.accept? (.symbol .comma) with
  | some ⟨_, v, hv⟩ =>
    have : v.left < s.left := Nat.lt_trans hv (Nat.lt_trans hu ht)
    v.moreParameters (Nat.lt_trans this hs)
  | none => .ok ⟨u', Nat.lt_trans hu (Nat.lt_trans ht hs)⟩
termination_by s.left

/-- Parameters in parentheses. -/
def parameters (s : Reading) : Outcome (Below s.left) := do
  let ⟨_, t, ht⟩ ← s.expectSymbol .leftParen
  let ⟨u, hu⟩ ← if t.kind = .symbol .rightParen then .ok ⟨t, ht⟩ else t.moreParameters ht
  let ⟨_, v, hv⟩ ← u.expectSymbol .rightParen
  .ok ⟨v, Nat.lt_trans hv hu⟩

/-- The body of a subroutine, in braces. -/
def body (s : Reading) (kind : SubroutineKind) (name : String) : Outcome (Below s.left) := do
  let ⟨_, t, ht⟩ ← s.expectSymbol .leftBrace
  let ⟨u, hu⟩ ← t.localVariables ht
  let ⟨v, hv⟩ ← (u.emit (.openBody kind name)).statements hu
  let ⟨_, w, hw⟩ ← v.expectSymbol .rightBrace
  .ok ⟨w, Nat.lt_trans hw hv⟩

/-- A subroutine, after its first keyword. -/
def subroutine (s : Reading) (kind : SubroutineKind) (keyword : Token) :
    Outcome (Below s.left) := do
  let ⟨_, t, ht⟩ ← (s.emit (.openSubroutine kind keyword)).returnType
  let ⟨name, u, hu⟩ ← t.expect .identifier
  let ⟨v, hv⟩ ← (u.emit (.nameSubroutine kind name.text)).parameters
  let ⟨w, hw⟩ ← v.body kind name.text
  .ok ⟨w, by simp only [left_emit] at *; omega⟩

/-- The subroutines of a class. -/
def subroutines {n : Nat} (s : Reading) (hs : s.left < n) : Outcome (Below n) :=
  match s.next? with
  | none => .ok ⟨s, hs⟩
  | some ⟨token, t, ht⟩ =>
    match token.kind with
    | .keyword .constructor_ => do
      let ⟨u, hu⟩ ← t.subroutine .constructor token
      u.subroutines (Nat.lt_trans hu (Nat.lt_trans ht hs))
    | .keyword .function_ => do
      let ⟨u, hu⟩ ← t.subroutine .function token
      u.subroutines (Nat.lt_trans hu (Nat.lt_trans ht hs))
    | .keyword .method_ => do
      let ⟨u, hu⟩ ← t.subroutine .method token
      u.subroutines (Nat.lt_trans hu (Nat.lt_trans ht hs))
    | _ => .ok ⟨s, hs⟩
termination_by s.left

/-- A class, which is all there is in a text. -/
def wholeClass (s : Reading) : Outcome Reading := do
  let ⟨_, t, _⟩ ← s.expect (.keyword .class_)
  let ⟨name, u, _⟩ ← t.expect .identifier
  let ⟨_, v, hv⟩ ← (u.emit (.openClass name.text)).expectSymbol .leftBrace
  let ⟨w, hw⟩ ← v.classVariables hv
  let ⟨x, _⟩ ← w.subroutines hw
  let ⟨_, y, _⟩ ← x.expectSymbol .rightBrace
  if y.kind = .endOfFile then .ok y else y.unexpected "end-of-file"

end Reading

/-- The directives of a class, in order. Where the tokens are not those of a class, these are the
directives before the token that does not fit, and the refusal of that token. -/
def Reader.directives (input : Reader) : List Directive × Option Refusal :=
  match ({ input } : Reading).wholeClass with
  | .ok s => (s.code.reverse, none)
  | .error stop => (stop.code.reverse, some stop.refusal)

end JackCompiler
