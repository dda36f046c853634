import JackCompiler.Proofs.Declarations
import JackCompiler.Proofs.TreeDirectives
import JackCompiler.Proofs.Uses

/-!
The code of a tree, once all declarations are known. It is defined by recursion on the tree: the
names of a subroutine are looked up in its declarations and those of the class, whole, and nothing
depends on what has been generated before. What the declarations do not allow has no code that means
anything.
-/

namespace JackCompiler

namespace Context

/-- What a tree may ask for where these declarations hold. -/
def Allows (c : Context) : Tree.Use → Prop
  | .value name => (c.lookup? name).isSome
  | .call none arguments => arguments + 1 ≤ maxInteger
  | .call (some owner) arguments =>
    arguments + (if (c.lookup? owner).isSome then 1 else 0) ≤ maxInteger
  | .literal text => text.length ≤ maxInteger ∧ ∀ character ∈ text.toList, character.toNat ≤ 0xFFFF

def AllowsAll (c : Context) (uses : List Tree.Use) : Prop :=
  ∀ use ∈ uses, c.Allows use

/-- Pushes the value of a variable. -/
def load (c : Context) (name : String) : List Command :=
  (c.lookup? name).elim [] fun entry => [.push entry.kind.segment entry.index]

/-- Pops a value into a variable. -/
def store (c : Context) (name : String) : List Command :=
  (c.lookup? name).elim [] fun entry => [.pop entry.kind.segment entry.index]

theorem allowsAll_cons {c : Context} {use : Tree.Use} {uses : List Tree.Use} :
    c.AllowsAll (use :: uses) ↔ c.Allows use ∧ c.AllowsAll uses :=
  List.forall_mem_cons

theorem allowsAll_append {c : Context} {x y : List Tree.Use} :
    c.AllowsAll (x ++ y) ↔ c.AllowsAll x ∧ c.AllowsAll y :=
  List.forall_mem_append

/-- What is allowed can be counted while it is read. -/
theorem AllowsAll.countable {c : Context} {uses : List Tree.Use} (h : c.AllowsAll uses) :
    Tree.CountableCalls uses := by
  intro owner arguments hmem
  have hallowed := h _ hmem
  cases owner with
  | none => exact Nat.le_of_succ_le hallowed
  | some owner => exact Nat.le_trans (Nat.le_add_right _ _) hallowed

end Context

namespace Tree

/-- Makes a string object and appends its characters in order. -/
def stringCode (text : String) : List Command :=
  .push .constant text.length :: .call "String.new" 1 ::
    text.toList.flatMap fun c => [.push .constant c.toNat, .call "String.appendChar" 2]

mutual

def Expression.code (c : Context) : Expression → List Command
  | .mk first rest => first.code c ++ rest.code c

/-- Each operator is applied to everything before it. -/
def Operations.code (c : Context) : Operations → List Command
  | .nil => []
  | .cons operator operand rest => operand.code c ++ operator.command :: rest.code c

def Term.code (c : Context) : Term → List Command
  | .integer value => [.push .constant value]
  | .string text => stringCode text
  | .constant word => word.code
  | .variable_ name => c.load name
  | .element array index =>
    c.load array ++ (index.code c ++ [.operate .add, .pop .pointer 1, .push .that 0])
  | .call call => call.code c
  | .group inner => inner.code c
  | .unary operator operand => operand.code c ++ [operator.command]

/-- A variable before the dot is the receiver and its type the class; any other name is a class. -/
def Call.code (c : Context) : Call → List Command
  | .own name arguments =>
    .push .pointer 0 ::
      (arguments.code c ++ [.call (c.className ++ "." ++ name) (arguments.count + 1)])
  | .member owner name arguments =>
    match c.lookup? owner with
    | some entry =>
      .push entry.kind.segment entry.index ::
        (arguments.code c ++ [.call (entry.type ++ "." ++ name) (arguments.count + 1)])
    | none => arguments.code c ++ [.call (owner ++ "." ++ name) arguments.count]

def Arguments.code (c : Context) : Arguments → List Command
  | .nil => []
  | .cons first rest => first.code c ++ rest.code c

end

mutual

/-- The code of a statement that is number `k` among the choices and loops, if it is one. -/
def Statement.code (c : Context) (k : Nat) : Statement → List Command
  | .assign name value => value.code c ++ c.store name
  | .assignElement array index value =>
    c.load array ++ (index.code c ++ .operate .add :: (value.code c ++
      [.pop .temp 0, .pop .pointer 1, .push .temp 0, .pop .that 0]))
  | .choice condition body =>
    condition.code c ++ .operate .not :: .ifGoto (labelName (2 * k)) ::
      (body.code c (k + 1) ++ [.goto (labelName (2 * k + 1)), .label (labelName (2 * k)),
        .label (labelName (2 * k + 1))])
  | .choiceElse condition body otherwise =>
    condition.code c ++ .operate .not :: .ifGoto (labelName (2 * k)) ::
      (body.code c (k + 1) ++ .goto (labelName (2 * k + 1)) :: .label (labelName (2 * k)) ::
        (otherwise.code c (k + 1 + body.branches) ++ [.label (labelName (2 * k + 1))]))
  | .loop condition body =>
    .label (labelName (2 * k)) :: (condition.code c ++
      .operate .not :: .ifGoto (labelName (2 * k + 1)) ::
        (body.code c (k + 1) ++ [.goto (labelName (2 * k)), .label (labelName (2 * k + 1))]))
  | .invoke call => call.code c ++ [.pop .temp 0]
  | .returnNothing => [.push .constant 0, .ret]
  | .returnValue value => value.code c ++ [.ret]

def Statements.code (c : Context) (k : Nat) : Statements → List Command
  | .nil => []
  | .cons first rest => first.code c k ++ rest.code c (k + first.branches)

end

/-! ### Declarations -/

def Variables.declarations (kind : VariableKind) (line : Variables) : List Declaration :=
  line.names.map fun name => ⟨kind, line.type.text, name⟩

def ClassVariables.declarations (line : ClassVariables) : List Declaration :=
  line.toVariables.declarations line.scope.kind

def Parameter.declaration (parameter : Parameter) : Declaration :=
  ⟨.argument, parameter.type.text, parameter.name⟩

/-- The object that a method is called on is its first argument. -/
def receiverDeclarations (className : String) : SubroutineKind → List Declaration
  | .method => [⟨.argument, className, "this"⟩]
  | .constructor | .function => []

/-- The declarations of a subroutine of the class, in order. -/
def Subroutine.declarations (className : String) (subroutine : Subroutine) : List Declaration :=
  receiverDeclarations className subroutine.kind ++
    (subroutine.parameters.map Parameter.declaration ++
      subroutine.locals.flatMap (Variables.declarations .local_))

def Class.declarations (tree : Class) : List Declaration :=
  tree.classVariables.flatMap ClassVariables.declarations

/-- What can be named in the class outside of its subroutines. -/
def Class.context (tree : Class) : Context :=
  { className := tree.name, ofClass := tree.declarations.reverse }

/-- What can be named in a subroutine of the class. -/
def Subroutine.context (tree : Class) (subroutine : Subroutine) : Context :=
  { tree.context with ofSubroutine := (subroutine.declarations tree.name).reverse }

/-! ### Subroutines and classes -/

/-- A constructor makes its object and a method is given one. -/
def prologue (fields : Nat) : SubroutineKind → List Command
  | .constructor => [.push .constant fields, .call "Memory.alloc" 1, .pop .pointer 0]
  | .method => [.push .argument 0, .pop .pointer 0]
  | .function => []

/-- The code of a subroutine whose first choice or loop has number `k`. -/
def Subroutine.code (c : Context) (k : Nat) (subroutine : Subroutine) : List Command :=
  .function (c.className ++ "." ++ subroutine.name) (c.count .local_) ::
    (prologue (c.count .field) subroutine.kind ++ subroutine.body.code c k)

/-- Subroutines with the number of their first choice or loop. -/
def numbered (k : Nat) : List Subroutine → List (Nat × Subroutine)
  | [] => []
  | first :: rest => (k, first) :: numbered (k + first.body.branches) rest

theorem mem_of_numbered {list : List Subroutine} {k n : Nat} {subroutine : Subroutine}
    (h : (k, subroutine) ∈ numbered n list) : subroutine ∈ list := by
  induction list generalizing n with
  | nil => cases h
  | cons first rest ih =>
    rcases List.mem_cons.1 h with heq | hrest
    · cases heq
      exact List.mem_cons_self
    · exact List.mem_cons_of_mem first (ih hrest)

def Class.code (tree : Class) : List Command :=
  (numbered 0 tree.subroutines).flatMap fun (k, subroutine) =>
    subroutine.code (subroutine.context tree) k

end Tree

end JackCompiler
