import JackCompiler.Proofs.ReferenceCode

/-!
What the commands of a body can be. A constant stands for something in the text, a place in storage
is that of a variable or one of the few that are used for intermediate values, and a call counts no
more than can be counted. What is to be shown of every command of a body follows from these forms.
-/

namespace JackCompiler

/-- What a constant in a body with these lexemes stands for. -/
inductive BodyConstant (lexemes : List Lexeme) : Nat → Prop where
  /-- A truth value, `null`, or what is returned where nothing is. -/
  | zero : BodyConstant lexemes 0
  | integer {value : Nat} (h : .integer value ∈ lexemes) : BodyConstant lexemes value
  | length {text : String} (h : .string text ∈ lexemes) (hlength : text.length ≤ maxInteger) :
      BodyConstant lexemes text.length
  | character {text : String} {character : Char} (h : .string text ∈ lexemes)
      (hmem : character ∈ text.toList) (hstorable : character.toNat ≤ 0xFFFF) :
      BodyConstant lexemes character.toNat

/-- This is where a variable is stored. -/
def Context.Stores (c : Context) (segment : Segment) (i : Nat) : Prop :=
  ∃ name entry, c.lookup? name = some entry ∧ entry.kind.segment = segment ∧ entry.index = i

/-- What a command can be in a body with these lexemes. -/
def Command.InBody (c : Context) (lexemes : List Lexeme) : Command → Prop
  | push .constant n => BodyConstant lexemes n
  | push .pointer i => i = 0
  | pop .pointer i => i = 1
  | push .that i | pop .that i | push .temp i | pop .temp i => i = 0
  | push segment i | pop segment i => c.Stores segment i
  | call _ arguments => arguments ≤ maxInteger
  | function _ _ => False
  | operate _ | label _ | goto _ | ifGoto _ | ret => True

/-- What the commands of a body can be. -/
def AllInBody (c : Context) (lexemes : List Lexeme) (code : List Command) : Prop :=
  ∀ command ∈ code, command.InBody c lexemes

variable {c : Context} {lexemes : List Lexeme} {x y : List Command}

theorem allInBody_nil : AllInBody c lexemes [] :=
  fun _ h => by cases h

theorem allInBody_cons {command : Command} :
    AllInBody c lexemes (command :: x) ↔ command.InBody c lexemes ∧ AllInBody c lexemes x :=
  List.forall_mem_cons

theorem allInBody_append :
    AllInBody c lexemes (x ++ y) ↔ AllInBody c lexemes x ∧ AllInBody c lexemes y :=
  List.forall_mem_append

/-! ### Expressions -/

theorem Context.push_inBody {name : String} {entry : Variable} (h : c.lookup? name = some entry) :
    (Command.push entry.kind.segment entry.index).InBody c lexemes := by
  have hstores : c.Stores entry.kind.segment entry.index := ⟨name, entry, h, rfl, rfl⟩
  cases hkind : entry.kind <;> rwa [hkind] at hstores

theorem Context.pop_inBody {name : String} {entry : Variable} (h : c.lookup? name = some entry) :
    (Command.pop entry.kind.segment entry.index).InBody c lexemes := by
  have hstores : c.Stores entry.kind.segment entry.index := ⟨name, entry, h, rfl, rfl⟩
  cases hkind : entry.kind <;> rwa [hkind] at hstores

theorem Context.load_inBody (name : String) : AllInBody c lexemes (c.load name) := by
  unfold Context.load
  cases hentry : c.lookup? name with
  | none => exact allInBody_nil
  | some entry => exact allInBody_cons.2 ⟨Context.push_inBody hentry, allInBody_nil⟩

theorem Context.store_inBody (name : String) : AllInBody c lexemes (c.store name) := by
  unfold Context.store
  cases hentry : c.lookup? name with
  | none => exact allInBody_nil
  | some entry => exact allInBody_cons.2 ⟨Context.pop_inBody hentry, allInBody_nil⟩

namespace Tree

theorem stringCode_inBody {text : String} (h : .string text ∈ lexemes)
    (hallowed : c.Allows (.literal text)) : AllInBody c lexemes (stringCode text) := by
  obtain ⟨hlength, hstorable⟩ := hallowed
  refine allInBody_cons.2 ⟨.length h hlength, allInBody_cons.2 ⟨?_, ?_⟩⟩
  · exact (by decide : 1 ≤ maxInteger)
  · intro command hmem
    obtain ⟨character, hcharacter, hmem⟩ := List.mem_flatMap.1 hmem
    simp only [List.mem_cons, List.not_mem_nil, or_false] at hmem
    rcases hmem with rfl | rfl
    · exact .character h hcharacter (hstorable character hcharacter)
    · exact (by decide : 2 ≤ maxInteger)

theorem BinaryOperator.command_inBody (operator : BinaryOperator) :
    operator.command.InBody c lexemes := by
  cases operator with
  | multiply => exact (by decide : 2 ≤ maxInteger)
  | divide => exact (by decide : 2 ≤ maxInteger)
  | _ => trivial

theorem UnaryOperator.command_inBody (operator : UnaryOperator) :
    operator.command.InBody c lexemes := by
  cases operator <;> trivial

theorem KeywordConstant.code_inBody (word : KeywordConstant) :
    AllInBody c lexemes word.code := by
  have hzero : (Command.push .constant 0).InBody c lexemes := .zero
  cases word with
  | true_ => exact allInBody_cons.2 ⟨hzero, allInBody_cons.2 ⟨trivial, allInBody_nil⟩⟩
  | false_ => exact allInBody_cons.2 ⟨hzero, allInBody_nil⟩
  | null_ => exact allInBody_cons.2 ⟨hzero, allInBody_nil⟩
  | this_ => exact allInBody_cons.2 ⟨rfl, allInBody_nil⟩

mutual

theorem Expression.code_inBody (e : Expression) (hyield : e.yield ⊆ lexemes)
    (huses : c.AllowsAll e.uses) : AllInBody c lexemes (e.code c) := by
  cases e with
  | mk first rest =>
    obtain ⟨hfirst, hrest⟩ := List.append_subset.1 hyield
    obtain ⟨hfirstUses, hrestUses⟩ := Context.allowsAll_append.1 huses
    exact allInBody_append.2 ⟨first.code_inBody hfirst hfirstUses, rest.code_inBody hrest hrestUses⟩
termination_by structural e

theorem Operations.code_inBody (x : Operations) (hyield : x.yield ⊆ lexemes)
    (huses : c.AllowsAll x.uses) : AllInBody c lexemes (x.code c) := by
  cases x with
  | nil => exact allInBody_nil
  | cons operator operand rest =>
    obtain ⟨-, hparts⟩ := List.cons_subset.1 hyield
    obtain ⟨hoperand, hrest⟩ := List.append_subset.1 hparts
    obtain ⟨hoperandUses, hrestUses⟩ := Context.allowsAll_append.1 huses
    refine allInBody_append.2 ⟨operand.code_inBody hoperand hoperandUses, ?_⟩
    exact allInBody_cons.2 ⟨operator.command_inBody, rest.code_inBody hrest hrestUses⟩
termination_by structural x

theorem Term.code_inBody (e : Term) (hyield : e.yield ⊆ lexemes) (huses : c.AllowsAll e.uses) :
    AllInBody c lexemes (e.code c) := by
  cases e with
  | integer value =>
    exact allInBody_cons.2 ⟨.integer (hyield List.mem_cons_self), allInBody_nil⟩
  | string text =>
    exact stringCode_inBody (hyield List.mem_cons_self) (huses _ List.mem_cons_self)
  | constant word => exact word.code_inBody
  | variable_ name => exact c.load_inBody name
  | element array index =>
    obtain ⟨-, hrest⟩ := List.cons_subset.1 hyield
    obtain ⟨-, hparts⟩ := List.cons_subset.1 hrest
    have hindex := index.code_inBody (List.append_subset.1 hparts).1
      (Context.allowsAll_cons.1 huses).2
    refine allInBody_append.2 ⟨c.load_inBody array, allInBody_append.2 ⟨hindex, ?_⟩⟩
    simp [AllInBody, Command.InBody]
  | call call => exact call.code_inBody hyield huses
  | group inner =>
    obtain ⟨-, hparts⟩ := List.cons_subset.1 hyield
    exact inner.code_inBody (List.append_subset.1 hparts).1 huses
  | unary operator operand =>
    obtain ⟨-, hoperand⟩ := List.cons_subset.1 hyield
    refine allInBody_append.2 ⟨operand.code_inBody hoperand huses, ?_⟩
    exact allInBody_cons.2 ⟨operator.command_inBody, allInBody_nil⟩
termination_by structural e

theorem Call.code_inBody (call : Call) (hyield : call.yield ⊆ lexemes)
    (huses : c.AllowsAll call.uses) : AllInBody c lexemes (call.code c) := by
  have hend : ∀ callee {n}, n ≤ maxInteger → AllInBody c lexemes [.call callee n] :=
    fun _ _ h => allInBody_cons.2 ⟨h, allInBody_nil⟩
  cases call with
  | own name arguments =>
    obtain ⟨hcall, hrest⟩ := Context.allowsAll_cons.1 huses
    have hwords := arguments.code_inBody (fun _ hmem => hyield (by simp [Call.yield, hmem])) hrest
    exact allInBody_cons.2 ⟨rfl, allInBody_append.2 ⟨hwords, hend _ hcall⟩⟩
  | member owner name arguments =>
    obtain ⟨hcall, hrest⟩ := Context.allowsAll_cons.1 huses
    have hwords := arguments.code_inBody (fun _ hmem => hyield (by simp [Call.yield, hmem])) hrest
    rw [Context.Allows] at hcall
    rw [Call.code]
    cases hentry : c.lookup? owner with
    | some entry =>
      rw [hentry] at hcall
      exact allInBody_cons.2 ⟨Context.push_inBody hentry,
        allInBody_append.2 ⟨hwords, hend _ hcall⟩⟩
    | none =>
      rw [hentry] at hcall
      exact allInBody_append.2 ⟨hwords, hend _ hcall⟩
termination_by structural call

theorem Arguments.code_inBody (x : Arguments) (hyield : x.yield ⊆ lexemes)
    (huses : c.AllowsAll x.uses) : AllInBody c lexemes (x.code c) := by
  cases x with
  | nil => exact allInBody_nil
  | cons first rest =>
    obtain ⟨hfirst, hrest⟩ := List.append_subset.1 hyield
    obtain ⟨hfirstUses, hrestUses⟩ := Context.allowsAll_append.1 huses
    have hothers := List.Subset.trans rest.yield_subset_further hrest
    exact allInBody_append.2 ⟨first.code_inBody hfirst hfirstUses,
      rest.code_inBody hothers hrestUses⟩
termination_by structural x

end

/-! ### Statements -/

/-- A condition and the jump on it. -/
theorem guard_inBody {condition rest : List Command} (h : AllInBody c lexemes condition)
    (name : String) (hrest : AllInBody c lexemes rest) :
    AllInBody c lexemes (condition ++ .operate .not :: .ifGoto name :: rest) :=
  allInBody_append.2 ⟨h, allInBody_cons.2 ⟨trivial, allInBody_cons.2 ⟨trivial, hrest⟩⟩⟩

mutual

theorem Statement.code_inBody (x : Statement) (hyield : x.yield ⊆ lexemes)
    (huses : c.AllowsAll x.uses) (k : Nat) : AllInBody c lexemes (x.code c k) := by
  cases x with
  | assign name value =>
    have hvalue := value.code_inBody (fun _ hmem => hyield (by simp [Statement.yield, hmem]))
      (Context.allowsAll_cons.1 huses).2
    exact allInBody_append.2 ⟨hvalue, c.store_inBody name⟩
  | assignElement array index value =>
    obtain ⟨hindexUses, hvalueUses⟩ :=
      Context.allowsAll_append.1 (Context.allowsAll_cons.1 huses).2
    have hindex := index.code_inBody (fun _ hmem => hyield (by simp [Statement.yield, hmem]))
      hindexUses
    have hvalue := value.code_inBody (fun _ hmem => hyield (by simp [Statement.yield, hmem]))
      hvalueUses
    refine allInBody_append.2 ⟨c.load_inBody array, allInBody_append.2 ⟨hindex, ?_⟩⟩
    refine allInBody_cons.2 ⟨trivial, allInBody_append.2 ⟨hvalue, ?_⟩⟩
    simp [AllInBody, Command.InBody]
  | choice condition body =>
    obtain ⟨hconditionUses, hbodyUses⟩ := Context.allowsAll_append.1 huses
    have hcondition := condition.code_inBody
      (fun _ hmem => hyield (by simp [Statement.yield, hmem])) hconditionUses
    have hbody := body.code_inBody (fun _ hmem => hyield (by simp [Statement.yield, hmem]))
      hbodyUses (k + 1)
    refine guard_inBody hcondition _ (allInBody_append.2 ⟨hbody, ?_⟩)
    simp [AllInBody, Command.InBody]
  | choiceElse condition body otherwise =>
    obtain ⟨hconditionUses, hblocks⟩ := Context.allowsAll_append.1 huses
    obtain ⟨hbodyUses, hotherwiseUses⟩ := Context.allowsAll_append.1 hblocks
    have hcondition := condition.code_inBody
      (fun _ hmem => hyield (by simp [Statement.yield, hmem])) hconditionUses
    have hbody := body.code_inBody (fun _ hmem => hyield (by simp [Statement.yield, hmem]))
      hbodyUses (k + 1)
    have hotherwise := otherwise.code_inBody
      (fun _ hmem => hyield (by simp [Statement.yield, hmem])) hotherwiseUses
      (k + 1 + body.branches)
    refine guard_inBody hcondition _ (allInBody_append.2 ⟨hbody, ?_⟩)
    refine allInBody_cons.2 ⟨trivial, allInBody_cons.2 ⟨trivial, allInBody_append.2 ?_⟩⟩
    exact ⟨hotherwise, allInBody_cons.2 ⟨trivial, allInBody_nil⟩⟩
  | loop condition body =>
    obtain ⟨hconditionUses, hbodyUses⟩ := Context.allowsAll_append.1 huses
    have hcondition := condition.code_inBody
      (fun _ hmem => hyield (by simp [Statement.yield, hmem])) hconditionUses
    have hbody := body.code_inBody (fun _ hmem => hyield (by simp [Statement.yield, hmem]))
      hbodyUses (k + 1)
    refine allInBody_cons.2 ⟨trivial, guard_inBody hcondition _ (allInBody_append.2 ⟨hbody, ?_⟩)⟩
    simp [AllInBody, Command.InBody]
  | invoke call =>
    have hcall := call.code_inBody (fun _ hmem => hyield (by simp [Statement.yield, hmem])) huses
    exact allInBody_append.2 ⟨hcall, allInBody_cons.2 ⟨rfl, allInBody_nil⟩⟩
  | returnNothing =>
    exact allInBody_cons.2 ⟨.zero, allInBody_cons.2 ⟨trivial, allInBody_nil⟩⟩
  | returnValue value =>
    have hvalue := value.code_inBody (fun _ hmem => hyield (by simp [Statement.yield, hmem])) huses
    exact allInBody_append.2 ⟨hvalue, allInBody_cons.2 ⟨trivial, allInBody_nil⟩⟩
termination_by structural x

theorem Statements.code_inBody (x : Statements) (hyield : x.yield ⊆ lexemes)
    (huses : c.AllowsAll x.uses) (k : Nat) : AllInBody c lexemes (x.code c k) := by
  cases x with
  | nil => exact allInBody_nil
  | cons first rest =>
    obtain ⟨hfirst, hrest⟩ := List.append_subset.1 hyield
    obtain ⟨hfirstUses, hrestUses⟩ := Context.allowsAll_append.1 huses
    exact allInBody_append.2 ⟨first.code_inBody hfirst hfirstUses k,
      rest.code_inBody hrest hrestUses (k + first.branches)⟩
termination_by structural x

end

end Tree

end JackCompiler
