import JackCompiler.Proofs.ControlFlow
import JackCompiler.Proofs.WordMachine

/-!
The values of expressions. They are defined by recursion on the tree, without a stack: operators are
applied from left to right, and operands, bases and receivers are evaluated in the order of the
text. The code of an expression pushes its value and nothing else, and the code of an assignment
puts it where the variable or the element is.
-/

namespace JackCompiler.Tree

/-! ### Values -/

def UnaryOperator.apply : UnaryOperator → Word → Word
  | negate, x => -x
  | complement, x => ~~~x

def KeywordConstant.value (σ : Store) : KeywordConstant → Word
  | true_ => .allOnes 16
  | false_ | null_ => 0
  | this_ => σ.this

/-- An operator gives this word for `x` and `y`. Products and quotients are calls. -/
def BinaryOperator.Gives (calls : Calls) (x y : Word) (σ : Store) (word : Word) (τ : Store) :
    BinaryOperator → Prop
  | add => word = x + y ∧ τ = σ
  | subtract => word = x - y ∧ τ = σ
  | multiply => calls.Gives "Math.multiply" [x, y] σ word τ
  | divide => calls.Gives "Math.divide" [x, y] σ word τ
  | and => word = x &&& y ∧ τ = σ
  | or => word = x ||| y ∧ τ = σ
  | less => word = truth (x.slt y) ∧ τ = σ
  | greater => word = truth (y.slt x) ∧ τ = σ
  | equal => word = truth (x == y) ∧ τ = σ

/-- Characters are appended to a string one by one, each to what the call before it gave. -/
def Appends (calls : Calls) : List Char → Word → Store → Word → Store → Prop
  | [], string, σ, word, τ => word = string ∧ τ = σ
  | character :: rest, string, σ, word, τ =>
    ∃ next ρ, calls.Gives "String.appendChar" [string, .ofNat 16 character.toNat] σ next ρ ∧
      Appends calls rest next ρ word τ

mutual

/-- In the memory `σ` the expression has this value, and `τ` is the memory after it. -/
def Expression.Evaluates (calls : Calls) (c : Context) :
    Expression → Store → Word → Store → Prop
  | .mk first rest, σ, word, τ =>
    ∃ x ρ, first.Evaluates calls c σ x ρ ∧ rest.Evaluates calls c x ρ word τ

/-- The operators are applied to everything before them, of which `x` is the value. -/
def Operations.Evaluates (calls : Calls) (c : Context) :
    Operations → Word → Store → Word → Store → Prop
  | .nil, x, σ, word, τ => word = x ∧ τ = σ
  | .cons operator operand rest, x, σ, word, τ =>
    ∃ y ρ, operand.Evaluates calls c σ y ρ ∧
      ∃ z υ, operator.Gives calls x y ρ z υ ∧ rest.Evaluates calls c z υ word τ

/-- An element is found through `pointer 1`, which is left at it. -/
def Term.Evaluates (calls : Calls) (c : Context) : Term → Store → Word → Store → Prop
  | .integer value, σ, word, τ => word = .ofNat 16 value ∧ τ = σ
  | .string text, σ, word, τ =>
    ∃ string ρ, calls.Gives "String.new" [.ofNat 16 text.length] σ string ρ ∧
      Appends calls text.toList string ρ word τ
  | .constant constant, σ, word, τ => word = constant.value σ ∧ τ = σ
  | .variable_ name, σ, word, τ =>
    ∃ entry, c.lookup? name = some entry ∧ word = σ.get entry ∧ τ = σ
  | .element array index, σ, word, τ =>
    ∃ entry i ρ, c.lookup? array = some entry ∧ index.Evaluates calls c σ i ρ ∧
      word = ρ.heap (σ.get entry + i) ∧ τ = { ρ with that := σ.get entry + i }
  | .call call, σ, word, τ => call.Evaluates calls c σ word τ
  | .group inner, σ, word, τ => inner.Evaluates calls c σ word τ
  | .unary operator operand, σ, word, τ =>
    ∃ x, operand.Evaluates calls c σ x τ ∧ word = operator.apply x

/-- A receiver is the first argument and is evaluated first. -/
def Call.Evaluates (calls : Calls) (c : Context) : Call → Store → Word → Store → Prop
  | .own name arguments, σ, word, τ =>
    ∃ words ρ, arguments.Evaluates calls c σ words ρ ∧
      calls.Gives (c.className ++ "." ++ name) (σ.this :: words) ρ word τ
  | .member owner name arguments, σ, word, τ =>
    ∃ words ρ, arguments.Evaluates calls c σ words ρ ∧
      match c.lookup? owner with
      | some entry => calls.Gives (entry.type ++ "." ++ name) (σ.get entry :: words) ρ word τ
      | none => calls.Gives (owner ++ "." ++ name) words ρ word τ

def Arguments.Evaluates (calls : Calls) (c : Context) :
    Arguments → Store → List Word → Store → Prop
  | .nil, σ, words, τ => words = [] ∧ τ = σ
  | .cons first rest, σ, words, τ =>
    ∃ x ρ, first.Evaluates calls c σ x ρ ∧
      ∃ others, rest.Evaluates calls c ρ others τ ∧ words = x :: others

end

theorem Arguments.length_eq {calls : Calls} {c : Context} {x : Arguments} {σ τ : Store}
    {words : List Word} (h : x.Evaluates calls c σ words τ) : words.length = x.count := by
  cases x with
  | nil =>
    obtain ⟨rfl, -⟩ := h
    rfl
  | cons first rest =>
    obtain ⟨word, ρ, -, others, hothers, rfl⟩ := h
    rw [List.length_cons, Arguments.length_eq hothers, Arguments.count]
termination_by x

/-! ### Operators and constants -/

variable {calls : Calls} {c : Context} {stack : List Word} {σ : Store} {t : State Store}

/-- What is given without a call leaves the memory as it is. -/
theorem runs_value_iff (value : Word) (rest : List Command) :
    (∃ word τ, (word = value ∧ τ = σ) ∧ calls.machine.Runs rest ⟨word :: stack, τ⟩ t) ↔
      calls.machine.Runs rest ⟨value :: stack, σ⟩ t := by
  constructor
  · rintro ⟨word, τ, ⟨rfl, rfl⟩, h⟩
    exact h
  · intro h
    exact ⟨value, σ, ⟨rfl, rfl⟩, h⟩

theorem BinaryOperator.runs_command (operator : BinaryOperator) (x y : Word)
    (rest : List Command) :
    calls.machine.Runs (operator.command :: rest) ⟨y :: x :: stack, σ⟩ t ↔
      ∃ word τ, operator.Gives calls x y σ word τ ∧
        calls.machine.Runs rest ⟨word :: stack, τ⟩ t := by
  have hcall : ∀ name, calls.machine.Runs (.call name 2 :: rest) ⟨y :: x :: stack, σ⟩ t ↔
      ∃ word τ, calls.Gives name [x, y] σ word τ ∧
        calls.machine.Runs rest ⟨word :: stack, τ⟩ t :=
    fun name => Calls.runs_call [x, y] rfl rest
  cases operator with
  | multiply => exact hcall "Math.multiply"
  | divide => exact hcall "Math.divide"
  | _ => exact (Calls.runs_operate rfl rest).trans (runs_value_iff _ rest).symm

theorem UnaryOperator.runs_command (operator : UnaryOperator) (x : Word) (rest : List Command) :
    calls.machine.Runs (operator.command :: rest) ⟨x :: stack, σ⟩ t ↔
      calls.machine.Runs rest ⟨operator.apply x :: stack, σ⟩ t := by
  cases operator with
  | negate => exact Calls.runs_operate rfl rest
  | complement => exact Calls.runs_operate rfl rest

theorem KeywordConstant.runs_code (constant : KeywordConstant) (rest : List Command) :
    calls.machine.Runs (constant.code ++ rest) ⟨stack, σ⟩ t ↔
      calls.machine.Runs rest ⟨constant.value σ :: stack, σ⟩ t := by
  cases constant with
  | true_ =>
    -- the complement of zero is all ones
    exact (Calls.runs_push rfl (.operate .not :: rest)).trans (Calls.runs_operate rfl rest)
  | false_ => exact Calls.runs_push rfl rest
  | null_ => exact Calls.runs_push rfl rest
  | this_ => exact Calls.runs_push rfl rest

/-! ### Variables and strings -/

theorem runs_load {name : String} {entry : Variable} (h : c.lookup? name = some entry)
    (rest : List Command) :
    calls.machine.Runs (c.load name ++ rest) ⟨stack, σ⟩ t ↔
      calls.machine.Runs rest ⟨σ.get entry :: stack, σ⟩ t := by
  rw [Context.load, h]
  exact Calls.runs_push (σ.read_variable entry) rest

theorem runs_store {name : String} {entry : Variable} (h : c.lookup? name = some entry)
    (word : Word) (rest : List Command) :
    calls.machine.Runs (c.store name ++ rest) ⟨word :: stack, σ⟩ t ↔
      calls.machine.Runs rest ⟨stack, σ.set entry word⟩ t := by
  rw [Context.store, h]
  exact Calls.runs_pop (σ.write_variable entry word) rest

theorem runs_appends (characters : List Char) (string : Word) (σ : Store)
    (rest : List Command) :
    calls.machine.Runs (characters.flatMap (fun character =>
        [.push .constant character.toNat, .call "String.appendChar" 2]) ++ rest)
        ⟨string :: stack, σ⟩ t ↔
      ∃ word τ, Appends calls characters string σ word τ ∧
        calls.machine.Runs rest ⟨word :: stack, τ⟩ t := by
  induction characters generalizing string σ with
  | nil => exact (runs_value_iff string rest).symm
  | cons character others ih =>
    rw [List.flatMap_cons, List.append_assoc]
    refine (Calls.runs_push rfl _).trans ?_
    refine (Calls.runs_call [string, .ofNat 16 character.toNat] rfl _).trans ?_
    constructor
    · rintro ⟨next, ρ, hcall, hruns⟩
      rcases (ih next ρ).1 hruns with ⟨word, τ, happends, hrest⟩
      exact ⟨word, τ, ⟨next, ρ, hcall, happends⟩, hrest⟩
    · rintro ⟨word, τ, ⟨next, ρ, hcall, happends⟩, hrest⟩
      exact ⟨next, ρ, hcall, (ih next ρ).2 ⟨word, τ, happends, hrest⟩⟩

theorem runs_stringCode (text : String) (rest : List Command) :
    calls.machine.Runs (stringCode text ++ rest) ⟨stack, σ⟩ t ↔
      ∃ word τ, (Term.string text).Evaluates calls c σ word τ ∧
        calls.machine.Runs rest ⟨word :: stack, τ⟩ t := by
  refine (Calls.runs_push rfl _).trans ?_
  refine (Calls.runs_call [.ofNat 16 text.length] rfl _).trans ?_
  constructor
  · rintro ⟨string, ρ, hcall, hruns⟩
    rcases (runs_appends _ string ρ rest).1 hruns with ⟨word, τ, happends, hrest⟩
    exact ⟨word, τ, ⟨string, ρ, hcall, happends⟩, hrest⟩
  · rintro ⟨word, τ, ⟨string, ρ, hcall, happends⟩, hrest⟩
    exact ⟨string, ρ, hcall, (runs_appends _ string ρ rest).2 ⟨word, τ, happends, hrest⟩⟩

/-- The element at an address that is on the stack. -/
theorem runs_element (base i : Word) (rest : List Command) :
    calls.machine.Runs (.operate .add :: .pop .pointer 1 :: .push .that 0 :: rest)
        ⟨i :: base :: stack, σ⟩ t ↔
      calls.machine.Runs rest
        ⟨σ.heap (base + i) :: stack, { σ with that := base + i }⟩ t := by
  have hread : Store.read { σ with that := base + i } .that 0 = some (σ.heap (base + i)) := by
    have haddress : base + i + .ofNat 16 0 = base + i := BitVec.add_zero (base + i)
    exact congrArg (fun address => some (σ.heap address)) haddress
  refine (Calls.runs_operate rfl _).trans ?_
  refine (Calls.runs_pop rfl _).trans ?_
  exact Calls.runs_push hread rest

/-! ### Expressions -/

/-- A call takes what its arguments leave on the stack and what is below them of its own. -/
theorem runs_arguments_call {arguments : Arguments} {n : Nat} (before : List Word)
    (hcode : ∀ stack rest, calls.machine.Runs (arguments.code c ++ rest) ⟨stack, σ⟩ t ↔
      ∃ words τ, arguments.Evaluates calls c σ words τ ∧
        calls.machine.Runs rest ⟨words.reverse ++ stack, τ⟩ t)
    (hn : before.length + arguments.count = n) (name : String) (rest : List Command) :
    calls.machine.Runs (arguments.code c ++ .call name n :: rest)
        ⟨before.reverse ++ stack, σ⟩ t ↔
      ∃ word τ, (∃ words ρ, arguments.Evaluates calls c σ words ρ ∧
          calls.Gives name (before ++ words) ρ word τ) ∧
        calls.machine.Runs rest ⟨word :: stack, τ⟩ t := by
  rw [hcode]
  have hcall : ∀ words ρ, arguments.Evaluates calls c σ words ρ →
      (calls.machine.Runs (.call name n :: rest)
        ⟨words.reverse ++ (before.reverse ++ stack), ρ⟩ t ↔
      ∃ word τ, calls.Gives name (before ++ words) ρ word τ ∧
        calls.machine.Runs rest ⟨word :: stack, τ⟩ t) := by
    intro words ρ hwords
    have hlength : (before ++ words).length = n := by
      rw [List.length_append, Arguments.length_eq hwords, hn]
    rw [← List.append_assoc, ← List.reverse_append]
    exact Calls.runs_call (before ++ words) hlength rest
  constructor
  · rintro ⟨words, ρ, hwords, hruns⟩
    rcases (hcall words ρ hwords).1 hruns with ⟨word, τ, hgives, hrest⟩
    exact ⟨word, τ, ⟨words, ρ, hwords, hgives⟩, hrest⟩
  · rintro ⟨word, τ, ⟨words, ρ, hwords, hgives⟩, hrest⟩
    exact ⟨words, ρ, hwords, (hcall words ρ hwords).2 ⟨word, τ, hgives, hrest⟩⟩

mutual

/-- The code of an expression pushes its value, and then the commands after it run. -/
theorem Expression.runs_code (e : Expression) (h : c.AllowsAll e.uses) (stack : List Word)
    (σ : Store) (rest : List Command) :
    calls.machine.Runs (e.code c ++ rest) ⟨stack, σ⟩ t ↔
      ∃ word τ, e.Evaluates calls c σ word τ ∧
        calls.machine.Runs rest ⟨word :: stack, τ⟩ t := by
  cases e with
  | mk first operations =>
    have hallowed := Context.allowsAll_append.1 h
    rw [Expression.code, List.append_assoc, first.runs_code hallowed.1]
    constructor
    · rintro ⟨x, ρ, hfirst, hruns⟩
      rcases (operations.runs_code hallowed.2 x stack ρ rest).1 hruns with
        ⟨word, τ, hoperations, hrest⟩
      exact ⟨word, τ, ⟨x, ρ, hfirst, hoperations⟩, hrest⟩
    · rintro ⟨word, τ, ⟨x, ρ, hfirst, hoperations⟩, hrest⟩
      have hruns := (operations.runs_code hallowed.2 x stack ρ rest).2
        ⟨word, τ, hoperations, hrest⟩
      exact ⟨x, ρ, hfirst, hruns⟩
termination_by structural e

theorem Operations.runs_code (operations : Operations) (h : c.AllowsAll operations.uses)
    (x : Word) (stack : List Word) (σ : Store) (rest : List Command) :
    calls.machine.Runs (operations.code c ++ rest) ⟨x :: stack, σ⟩ t ↔
      ∃ word τ, operations.Evaluates calls c x σ word τ ∧
        calls.machine.Runs rest ⟨word :: stack, τ⟩ t := by
  cases operations with
  | nil => exact (runs_value_iff x rest).symm
  | cons operator operand others =>
    have hallowed := Context.allowsAll_append.1 h
    rw [Operations.code, List.append_assoc, operand.runs_code hallowed.1, List.cons_append]
    constructor
    · rintro ⟨y, ρ, hoperand, hruns⟩
      rcases (operator.runs_command x y _).1 hruns with ⟨z, υ, hoperator, hothers⟩
      rcases (others.runs_code hallowed.2 z stack υ rest).1 hothers with ⟨word, τ, hlast, hrest⟩
      exact ⟨word, τ, ⟨y, ρ, hoperand, z, υ, hoperator, hlast⟩, hrest⟩
    · rintro ⟨word, τ, ⟨y, ρ, hoperand, z, υ, hoperator, hlast⟩, hrest⟩
      have hothers := (others.runs_code hallowed.2 z stack υ rest).2 ⟨word, τ, hlast, hrest⟩
      exact ⟨y, ρ, hoperand, (operator.runs_command x y _).2 ⟨z, υ, hoperator, hothers⟩⟩
termination_by structural operations

theorem Term.runs_code (e : Term) (h : c.AllowsAll e.uses) (stack : List Word) (σ : Store)
    (rest : List Command) :
    calls.machine.Runs (e.code c ++ rest) ⟨stack, σ⟩ t ↔
      ∃ word τ, e.Evaluates calls c σ word τ ∧
        calls.machine.Runs rest ⟨word :: stack, τ⟩ t := by
  cases e with
  | integer value =>
    exact (Calls.runs_push rfl rest).trans (runs_value_iff _ rest).symm
  | string text => exact runs_stringCode text rest
  | constant constant =>
    exact (constant.runs_code rest).trans (runs_value_iff _ rest).symm
  | variable_ name =>
    obtain ⟨entry, hentry⟩ := Option.isSome_iff_exists.1 (h _ List.mem_cons_self)
    rw [Term.code, runs_load hentry, ← runs_value_iff]
    simp only [Term.Evaluates, hentry, Option.some.injEq, exists_eq_left']
  | element array index =>
    obtain ⟨harray, hindex⟩ := Context.allowsAll_cons.1 h
    obtain ⟨entry, hentry⟩ := Option.isSome_iff_exists.1 harray
    rw [Term.code, List.append_assoc, List.append_assoc, runs_load hentry,
      index.runs_code hindex]
    constructor
    · rintro ⟨i, ρ, hi, hruns⟩
      exact ⟨_, _, ⟨entry, i, ρ, hentry, hi, rfl, rfl⟩, (runs_element _ i rest).1 hruns⟩
    · rintro ⟨word, τ, ⟨entry', i, ρ, hentry', hi, rfl, rfl⟩, hrest⟩
      obtain rfl := Option.some.inj (hentry.symm.trans hentry')
      exact ⟨i, ρ, hi, (runs_element _ i rest).2 hrest⟩
  | call call => exact call.runs_code h stack σ rest
  | group inner => exact inner.runs_code h stack σ rest
  | unary operator operand =>
    rw [Term.code, List.append_assoc, operand.runs_code h]
    constructor
    · rintro ⟨x, τ, hoperand, hruns⟩
      exact ⟨_, τ, ⟨x, hoperand, rfl⟩, (operator.runs_command x rest).1 hruns⟩
    · rintro ⟨word, τ, ⟨x, hoperand, rfl⟩, hrest⟩
      exact ⟨x, τ, hoperand, (operator.runs_command x rest).2 hrest⟩
termination_by structural e

/-- A call has its arguments on the stack, and the receiver below them if there is one. -/
theorem Call.runs_code (call : Call) (h : c.AllowsAll call.uses) (stack : List Word) (σ : Store)
    (rest : List Command) :
    calls.machine.Runs (call.code c ++ rest) ⟨stack, σ⟩ t ↔
      ∃ word τ, call.Evaluates calls c σ word τ ∧
        calls.machine.Runs rest ⟨word :: stack, τ⟩ t := by
  cases call with
  | own name arguments =>
    have hallowed := (Context.allowsAll_cons.1 h).2
    rw [Call.code, List.cons_append, List.append_assoc]
    refine (Calls.runs_push rfl _).trans ?_
    exact runs_arguments_call [σ.this]
      (fun stack rest => arguments.runs_code hallowed stack σ rest) (Nat.add_comm 1 _) _ rest
  | member owner name arguments =>
    have hallowed := (Context.allowsAll_cons.1 h).2
    have hcode : ∀ stack rest, calls.machine.Runs (arguments.code c ++ rest) ⟨stack, σ⟩ t ↔ _ :=
      fun stack rest => arguments.runs_code hallowed stack σ rest
    simp only [Call.code, Call.Evaluates]
    cases hlookup : c.lookup? owner with
    | some entry =>
      rw [List.cons_append, List.append_assoc]
      refine (Calls.runs_push (σ.read_variable entry) _).trans ?_
      exact runs_arguments_call [σ.get entry] hcode (Nat.add_comm 1 _) _ rest
    | none =>
      rw [List.append_assoc]
      exact runs_arguments_call [] hcode (Nat.zero_add _) _ rest
termination_by structural call

theorem Arguments.runs_code (arguments : Arguments) (h : c.AllowsAll arguments.uses)
    (stack : List Word) (σ : Store) (rest : List Command) :
    calls.machine.Runs (arguments.code c ++ rest) ⟨stack, σ⟩ t ↔
      ∃ words τ, arguments.Evaluates calls c σ words τ ∧
        calls.machine.Runs rest ⟨words.reverse ++ stack, τ⟩ t := by
  cases arguments with
  | nil =>
    constructor
    · intro hruns
      exact ⟨[], σ, ⟨rfl, rfl⟩, hruns⟩
    · rintro ⟨words, τ, ⟨rfl, rfl⟩, hruns⟩
      exact hruns
  | cons first others =>
    have hallowed := Context.allowsAll_append.1 h
    rw [Arguments.code, List.append_assoc, first.runs_code hallowed.1]
    have hstack : ∀ (x : Word) words, (x :: words).reverse ++ stack =
        words.reverse ++ x :: stack := by
      intro x words
      rw [List.reverse_cons, List.append_assoc, List.singleton_append]
    constructor
    · rintro ⟨x, ρ, hfirst, hruns⟩
      rcases (others.runs_code hallowed.2 (x :: stack) ρ rest).1 hruns with
        ⟨words, τ, hothers, hrest⟩
      rw [← hstack] at hrest
      exact ⟨x :: words, τ, ⟨x, ρ, hfirst, words, hothers, rfl⟩, hrest⟩
    · rintro ⟨words, τ, ⟨x, ρ, hfirst, others', hothers, rfl⟩, hrest⟩
      rw [hstack] at hrest
      have hruns := (others.runs_code hallowed.2 (x :: stack) ρ rest).2
        ⟨others', τ, hothers, hrest⟩
      exact ⟨x, ρ, hfirst, hruns⟩
termination_by structural arguments

end

/-- What an assignment does to memory. The base of an element is read before the index is evaluated,
and the index before the value. -/
def Statement.Assigns (calls : Calls) (c : Context) : Statement → Store → Store → Prop
  | .assign name value, σ, τ =>
    ∃ entry word ρ, c.lookup? name = some entry ∧ value.Evaluates calls c σ word ρ ∧
      τ = ρ.set entry word
  | .assignElement array index value, σ, τ =>
    ∃ entry i ρ word υ, c.lookup? array = some entry ∧ index.Evaluates calls c σ i ρ ∧
      value.Evaluates calls c ρ word υ ∧ τ = υ.setElement (σ.get entry + i) word
  | _, _, _ => False

def Statement.isAssignment : Statement → Bool
  | .assign _ _ | .assignElement _ _ _ => true
  | _ => false

/-- The word on top goes to the element whose address is below it. -/
theorem runs_storeElement (word address : Word) :
    calls.machine.Runs [.pop .temp 0, .pop .pointer 1, .push .temp 0, .pop .that 0]
        ⟨word :: address :: stack, σ⟩ t ↔ t = ⟨stack, σ.setElement address word⟩ := by
  have hread : ∀ ρ : Store, ρ.temp = Function.update σ.temp 0 word →
      ρ.read .temp 0 = some word := by
    intro ρ htemp
    rw [Store.read, htemp, Function.update_self]
  have hwrite : ∀ ρ : Store, ρ.that = address → ρ.write .that 0 word =
      some { ρ with heap := Function.update ρ.heap address word } := by
    intro ρ hthat
    have haddress : ρ.that + .ofNat 16 0 = address := (BitVec.add_zero ρ.that).trans hthat
    rw [Store.write, haddress]
  refine (Calls.runs_pop rfl _).trans ?_
  refine (Calls.runs_pop rfl _).trans ?_
  refine (Calls.runs_push (hread _ rfl) _).trans ?_
  exact (Calls.runs_pop (hwrite _ rfl) _).trans eq_comm

/-- The code of an assignment leaves the stack as it was. -/
theorem Statement.runs_code (x : Statement) (hx : x.isAssignment) (h : c.AllowsAll x.uses)
    (k : Nat) : calls.machine.Runs (x.code c k) ⟨stack, σ⟩ t ↔
      ∃ τ, x.Assigns calls c σ τ ∧ t = ⟨stack, τ⟩ := by
  cases x with
  | assign name value =>
    obtain ⟨hname, hvalue⟩ := Context.allowsAll_cons.1 h
    obtain ⟨entry, hentry⟩ := Option.isSome_iff_exists.1 hname
    have hstore : ∀ word ρ, calls.machine.Runs (c.store name) ⟨word :: stack, ρ⟩ t ↔
        t = ⟨stack, ρ.set entry word⟩ := by
      intro word ρ
      rw [← List.append_nil (c.store name)]
      exact (runs_store hentry word []).trans eq_comm
    rw [Statement.code, value.runs_code hvalue]
    constructor
    · rintro ⟨word, ρ, hword, hruns⟩
      exact ⟨_, ⟨entry, word, ρ, hentry, hword, rfl⟩, (hstore word ρ).1 hruns⟩
    · rintro ⟨τ, ⟨entry', word, ρ, hentry', hword, rfl⟩, ht⟩
      obtain rfl := Option.some.inj (hentry.symm.trans hentry')
      exact ⟨word, ρ, hword, (hstore word ρ).2 ht⟩
  | assignElement array index value =>
    obtain ⟨harray, hparts⟩ := Context.allowsAll_cons.1 h
    obtain ⟨hindex, hvalue⟩ := Context.allowsAll_append.1 hparts
    obtain ⟨entry, hentry⟩ := Option.isSome_iff_exists.1 harray
    rw [Statement.code, runs_load hentry, index.runs_code hindex]
    constructor
    · rintro ⟨i, ρ, hi, hruns⟩
      have hafter := (Calls.runs_operate rfl _).1 hruns
      rcases (value.runs_code hvalue _ ρ _).1 hafter with ⟨word, υ, hword, hlast⟩
      exact ⟨_, ⟨entry, i, ρ, word, υ, hentry, hi, hword, rfl⟩,
        (runs_storeElement word _).1 hlast⟩
    · rintro ⟨τ, ⟨entry', i, ρ, word, υ, hentry', hi, hword, rfl⟩, ht⟩
      obtain rfl := Option.some.inj (hentry.symm.trans hentry')
      have hlast : calls.machine.Runs _ _ t := (runs_storeElement word _).2 ht
      have hafter := (value.runs_code hvalue _ ρ _).2 ⟨word, υ, hword, hlast⟩
      exact ⟨i, ρ, hi, (Calls.runs_operate rfl _).2 hafter⟩
  | _ => cases hx

/-! ### Values exist -/

theorem BinaryOperator.gives (operator : BinaryOperator) (hcalls : calls.Return) (x y : Word)
    (σ : Store) : ∃ word τ, operator.Gives calls x y σ word τ := by
  cases operator with
  | multiply => exact hcalls _ _ σ
  | divide => exact hcalls _ _ σ
  | _ => exact ⟨_, σ, rfl, rfl⟩

theorem appends (hcalls : calls.Return) (characters : List Char) (string : Word) (σ : Store) :
    ∃ word τ, Appends calls characters string σ word τ := by
  induction characters generalizing string σ with
  | nil => exact ⟨string, σ, rfl, rfl⟩
  | cons character rest ih =>
    have ⟨next, ρ, hnext⟩ := hcalls "String.appendChar" [string, .ofNat 16 character.toNat] σ
    have ⟨word, τ, hrest⟩ := ih next ρ
    exact ⟨word, τ, next, ρ, hnext, hrest⟩

mutual

/-- Where calls give words, every expression has a value. -/
theorem Expression.evaluates (e : Expression) (hcalls : calls.Return) (h : c.AllowsAll e.uses)
    (σ : Store) : ∃ word τ, e.Evaluates calls c σ word τ := by
  cases e with
  | mk first rest =>
    have hallowed := Context.allowsAll_append.1 h
    have ⟨x, ρ, hfirst⟩ := first.evaluates hcalls hallowed.1 σ
    have ⟨word, τ, hrest⟩ := rest.evaluates hcalls hallowed.2 x ρ
    exact ⟨word, τ, x, ρ, hfirst, hrest⟩
termination_by structural e

theorem Operations.evaluates (operations : Operations) (hcalls : calls.Return)
    (h : c.AllowsAll operations.uses) (x : Word) (σ : Store) :
    ∃ word τ, operations.Evaluates calls c x σ word τ := by
  cases operations with
  | nil => exact ⟨x, σ, rfl, rfl⟩
  | cons operator operand rest =>
    have hallowed := Context.allowsAll_append.1 h
    have ⟨y, ρ, hoperand⟩ := operand.evaluates hcalls hallowed.1 σ
    have ⟨z, υ, hoperator⟩ := operator.gives hcalls x y ρ
    have ⟨word, τ, hrest⟩ := rest.evaluates hcalls hallowed.2 z υ
    exact ⟨word, τ, y, ρ, hoperand, z, υ, hoperator, hrest⟩
termination_by structural operations

theorem Term.evaluates (e : Term) (hcalls : calls.Return) (h : c.AllowsAll e.uses)
    (σ : Store) : ∃ word τ, e.Evaluates calls c σ word τ := by
  cases e with
  | integer value => exact ⟨_, σ, rfl, rfl⟩
  | string text =>
    have ⟨string, ρ, hnew⟩ := hcalls "String.new" [.ofNat 16 text.length] σ
    have ⟨word, τ, happends⟩ := appends hcalls text.toList string ρ
    exact ⟨word, τ, string, ρ, hnew, happends⟩
  | constant constant => exact ⟨_, σ, rfl, rfl⟩
  | variable_ name =>
    have ⟨entry, hentry⟩ := Option.isSome_iff_exists.1 (h _ List.mem_cons_self)
    exact ⟨_, σ, entry, hentry, rfl, rfl⟩
  | element array index =>
    have hallowed := Context.allowsAll_cons.1 h
    have ⟨entry, hentry⟩ := Option.isSome_iff_exists.1 hallowed.1
    have ⟨i, ρ, hindex⟩ := index.evaluates hcalls hallowed.2 σ
    exact ⟨_, _, entry, i, ρ, hentry, hindex, rfl, rfl⟩
  | call call => exact call.evaluates hcalls h σ
  | group inner => exact inner.evaluates hcalls h σ
  | unary operator operand =>
    have ⟨x, τ, hoperand⟩ := operand.evaluates hcalls h σ
    exact ⟨_, τ, x, hoperand, rfl⟩
termination_by structural e

theorem Call.evaluates (call : Call) (hcalls : calls.Return) (h : c.AllowsAll call.uses)
    (σ : Store) : ∃ word τ, call.Evaluates calls c σ word τ := by
  cases call with
  | own name arguments =>
    have ⟨words, ρ, hwords⟩ := arguments.evaluates hcalls (Context.allowsAll_cons.1 h).2 σ
    have ⟨word, τ, hcall⟩ := hcalls (c.className ++ "." ++ name) (σ.this :: words) ρ
    exact ⟨word, τ, words, ρ, hwords, hcall⟩
  | member owner name arguments =>
    have ⟨words, ρ, hwords⟩ := arguments.evaluates hcalls (Context.allowsAll_cons.1 h).2 σ
    simp only [Call.Evaluates]
    cases c.lookup? owner with
    | some entry =>
      have ⟨word, τ, hcall⟩ := hcalls (entry.type ++ "." ++ name) (σ.get entry :: words) ρ
      exact ⟨word, τ, words, ρ, hwords, hcall⟩
    | none =>
      have ⟨word, τ, hcall⟩ := hcalls (owner ++ "." ++ name) words ρ
      exact ⟨word, τ, words, ρ, hwords, hcall⟩
termination_by structural call

theorem Arguments.evaluates (arguments : Arguments) (hcalls : calls.Return)
    (h : c.AllowsAll arguments.uses) (σ : Store) :
    ∃ words τ, arguments.Evaluates calls c σ words τ := by
  cases arguments with
  | nil => exact ⟨[], σ, rfl, rfl⟩
  | cons first rest =>
    have hallowed := Context.allowsAll_append.1 h
    have ⟨x, ρ, hfirst⟩ := first.evaluates hcalls hallowed.1 σ
    have ⟨others, τ, hrest⟩ := rest.evaluates hcalls hallowed.2 ρ
    exact ⟨_, τ, x, ρ, hfirst, others, hrest, rfl⟩
termination_by structural arguments

end

end JackCompiler.Tree
