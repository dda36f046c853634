import JackCompiler.Proofs.ControlFlow

/-!
Where choices and loops stand in a text. Each starts with a keyword that has no other use, so that
the number of a choice or loop is the number of these keywords before its own.
-/

namespace JackCompiler

/-- The lexeme starts a choice or a loop. -/
def Lexeme.isBranch : Lexeme → Bool
  | .keyword .if_ | .keyword .while_ => true
  | _ => false

/-- No choice or loop starts among the lexemes. -/
def BranchFree (lexemes : List Lexeme) : Prop :=
  ∀ lexeme ∈ lexemes, lexeme.isBranch = false

section Lists

variable {lexeme : Lexeme} {x y before after : List Lexeme}

theorem branchFree_nil : BranchFree [] :=
  fun _ h => by cases h

theorem branchFree_cons : BranchFree (lexeme :: x) ↔ lexeme.isBranch = false ∧ BranchFree x :=
  List.forall_mem_cons

theorem branchFree_append : BranchFree (x ++ y) ↔ BranchFree x ∧ BranchFree y :=
  List.forall_mem_append

theorem branchFree_flatMap {α : Type} {f : α → List Lexeme} {list : List α}
    (h : ∀ a ∈ list, BranchFree (f a)) : BranchFree (list.flatMap f) := by
  intro lexeme hmem
  obtain ⟨a, ha, hlexeme⟩ := List.mem_flatMap.1 hmem
  exact h a ha lexeme hlexeme

theorem BranchFree.countP_eq (h : BranchFree x) : x.countP Lexeme.isBranch = 0 :=
  List.countP_eq_zero.2 fun lexeme hmem => by simp [h lexeme hmem]

theorem countP_between {left right : List Lexeme} (hleft : BranchFree left)
    (hright : BranchFree right) :
    (left ++ (y ++ right)).countP Lexeme.isBranch = y.countP Lexeme.isBranch := by
  rw [List.countP_append, List.countP_append, hleft.countP_eq, hright.countP_eq, Nat.zero_add,
    Nat.add_zero]

/-- A lexeme of two lists, one after the other, is in the first or in the second. -/
theorem split_append (h : x ++ y = before ++ lexeme :: after) :
    (∃ rest, x = before ++ lexeme :: rest ∧ after = rest ++ y) ∨
      ∃ later, before = x ++ later ∧ y = later ++ lexeme :: after := by
  rcases List.append_eq_append_iff.1 h with ⟨later, hbefore, hy⟩ | ⟨rest, hx, hrest⟩
  · exact .inr ⟨later, hbefore, hy⟩
  · cases rest with
    | nil => exact .inr ⟨[], by simpa using hx.symm, by simpa using hrest.symm⟩
    | cons first rest =>
      obtain ⟨rfl, hafter⟩ := List.cons_eq_cons.1 hrest
      exact .inl ⟨rest, hx, hafter⟩

/-- The start of a choice or loop is behind the lexemes among which none starts. -/
theorem split_branchFree (hx : BranchFree x) (hlexeme : lexeme.isBranch = true)
    (h : x ++ y = before ++ lexeme :: after) :
    ∃ later, before = x ++ later ∧ y = later ++ lexeme :: after := by
  rcases split_append h with ⟨rest, rfl, -⟩ | hlater
  · have hnot := hx lexeme (by simp)
    rw [hlexeme] at hnot
    cases hnot
  · exact hlater

/-- The start of a choice or loop is between the lexemes among which none starts. -/
theorem split_between {left right : List Lexeme} (hleft : BranchFree left)
    (hright : BranchFree right) (hlexeme : lexeme.isBranch = true)
    (h : left ++ (y ++ right) = before ++ lexeme :: after) :
    ∃ later rest, before = left ++ later ∧ y = later ++ lexeme :: rest ∧ after = rest ++ right := by
  obtain ⟨later, hbefore, hy⟩ := split_branchFree hleft hlexeme h
  rcases split_append hy with ⟨rest, hinner, hafter⟩ | ⟨later', -, hbehind⟩
  · exact ⟨later, rest, hbefore, hinner, hafter⟩
  · have hnot := hright lexeme (by simp [hbehind])
    rw [hlexeme] at hnot
    cases hnot

end Lists

namespace Tree

/-! ### Lexemes without choices and loops -/

theorem KeywordConstant.not_branch (word : KeywordConstant) :
    (Lexeme.keyword word.keyword).isBranch = false := by
  cases word <;> rfl

theorem TypeName.not_branch (type : TypeName) : type.lexeme.isBranch = false := by
  cases type <;> rfl

mutual

theorem Expression.branchFree (e : Expression) : BranchFree e.yield := by
  cases e with
  | mk first rest => exact branchFree_append.2 ⟨first.branchFree, rest.branchFree⟩
termination_by structural e

theorem Operations.branchFree (x : Operations) : BranchFree x.yield := by
  cases x with
  | nil => exact branchFree_nil
  | cons operator operand rest =>
    exact branchFree_cons.2 ⟨rfl, branchFree_append.2 ⟨operand.branchFree, rest.branchFree⟩⟩
termination_by structural x

theorem Term.branchFree (e : Term) : BranchFree e.yield := by
  cases e with
  | integer value => exact branchFree_cons.2 ⟨rfl, branchFree_nil⟩
  | string text => exact branchFree_cons.2 ⟨rfl, branchFree_nil⟩
  | constant word => exact branchFree_cons.2 ⟨word.not_branch, branchFree_nil⟩
  | variable_ name => exact branchFree_cons.2 ⟨rfl, branchFree_nil⟩
  | element array index =>
    refine branchFree_cons.2 ⟨rfl, branchFree_cons.2 ⟨rfl, ?_⟩⟩
    exact branchFree_append.2 ⟨index.branchFree, branchFree_cons.2 ⟨rfl, branchFree_nil⟩⟩
  | call call => exact call.branchFree
  | group inner =>
    refine branchFree_cons.2 ⟨rfl, ?_⟩
    exact branchFree_append.2 ⟨inner.branchFree, branchFree_cons.2 ⟨rfl, branchFree_nil⟩⟩
  | unary operator operand => exact branchFree_cons.2 ⟨rfl, operand.branchFree⟩
termination_by structural e

theorem Call.branchFree (call : Call) : BranchFree call.yield := by
  cases call with
  | own name arguments =>
    have hwords : BranchFree arguments.yield := fun lexeme hmem =>
      arguments.branchFree_further lexeme (arguments.yield_subset_further hmem)
    simpa [Call.yield, BranchFree, or_imp, forall_and, Lexeme.isBranch] using hwords
  | member owner name arguments =>
    have hwords : BranchFree arguments.yield := fun lexeme hmem =>
      arguments.branchFree_further lexeme (arguments.yield_subset_further hmem)
    simpa [Call.yield, BranchFree, or_imp, forall_and, Lexeme.isBranch] using hwords
termination_by structural call

theorem Arguments.branchFree_further (x : Arguments) : BranchFree x.further := by
  cases x with
  | nil => exact branchFree_nil
  | cons first rest =>
    refine branchFree_cons.2 ⟨rfl, ?_⟩
    exact branchFree_append.2 ⟨first.branchFree, rest.branchFree_further⟩
termination_by structural x

end

theorem Variables.branchFree (line : Variables) : BranchFree line.yield := by
  have hnames : BranchFree (furtherNames line.others) :=
    branchFree_flatMap fun _ _ => branchFree_cons.2 ⟨rfl, branchFree_cons.2 ⟨rfl, branchFree_nil⟩⟩
  refine branchFree_cons.2 ⟨line.type.not_branch, branchFree_cons.2 ⟨rfl, ?_⟩⟩
  exact branchFree_append.2 ⟨hnames, branchFree_cons.2 ⟨rfl, branchFree_nil⟩⟩

theorem ClassVariables.branchFree (line : ClassVariables) : BranchFree line.yield := by
  refine branchFree_cons.2 ⟨?_, line.toVariables.branchFree⟩
  cases line.scope <;> rfl

theorem Parameter.branchFree (parameter : Parameter) : BranchFree parameter.yield :=
  branchFree_cons.2 ⟨parameter.type.not_branch, branchFree_cons.2 ⟨rfl, branchFree_nil⟩⟩

theorem parametersYield_branchFree (parameters : List Parameter) :
    BranchFree (parametersYield parameters) := by
  cases parameters with
  | nil => exact branchFree_nil
  | cons first rest =>
    refine branchFree_append.2 ⟨first.branchFree, ?_⟩
    exact branchFree_flatMap fun other _ => branchFree_cons.2 ⟨rfl, other.branchFree⟩

theorem localsYield_branchFree (locals : List Variables) : BranchFree (localsYield locals) :=
  branchFree_flatMap fun line _ => branchFree_cons.2 ⟨rfl, line.branchFree⟩

/-! ### Statements -/

/-- The lexemes between the keyword of a choice or loop and its block. -/
def guardYield (condition : Expression) : List Lexeme :=
  .symbol .leftParen :: (condition.yield ++ [.symbol .rightParen, .symbol .leftBrace])

/-- The lexemes between the two blocks of a choice. -/
def elseYield : List Lexeme :=
  [.symbol .rightBrace, .keyword .else_, .symbol .leftBrace]

theorem guardYield_branchFree (condition : Expression) : BranchFree (guardYield condition) := by
  refine branchFree_cons.2 ⟨rfl, branchFree_append.2 ⟨condition.branchFree, ?_⟩⟩
  exact branchFree_cons.2 ⟨rfl, branchFree_cons.2 ⟨rfl, branchFree_nil⟩⟩

/-- The start of a choice or loop counts itself and what starts in its block. -/
theorem countP_guarded {keyword : Lexeme} (h : keyword.isBranch = true) (k : Nat)
    (condition : Expression) (later : List Lexeme) :
    k + (keyword :: (guardYield condition ++ later)).countP Lexeme.isBranch =
      k + 1 + later.countP Lexeme.isBranch := by
  rw [List.countP_cons_of_pos h, List.countP_append, (guardYield_branchFree condition).countP_eq]
  omega

theorem elseYield_branchFree : BranchFree elseYield := by
  simp [BranchFree, elseYield, Lexeme.isBranch]

theorem rightBrace_branchFree : BranchFree [.symbol .rightBrace] :=
  branchFree_cons.2 ⟨rfl, branchFree_nil⟩

theorem choice_yield (condition : Expression) (body : Statements) :
    (Statement.choice condition body).yield =
      .keyword .if_ :: (guardYield condition ++ (body.yield ++ [.symbol .rightBrace])) := by
  simp [Statement.yield, guardYield]

theorem choiceElse_yield (condition : Expression) (body otherwise : Statements) :
    (Statement.choiceElse condition body otherwise).yield =
      .keyword .if_ :: (guardYield condition ++ (body.yield ++
        (elseYield ++ (otherwise.yield ++ [.symbol .rightBrace])))) := by
  simp [Statement.yield, guardYield, elseYield]

theorem loop_yield (condition : Expression) (body : Statements) :
    (Statement.loop condition body).yield =
      .keyword .while_ :: (guardYield condition ++ (body.yield ++ [.symbol .rightBrace])) := by
  simp [Statement.yield, guardYield]

/-- Only choices and loops have lexemes that start one. -/
theorem Statement.branchFree (x : Statement) (h : x.isBranch = false) : BranchFree x.yield := by
  have hend : BranchFree [.symbol .semicolon] := branchFree_cons.2 ⟨rfl, branchFree_nil⟩
  cases x with
  | assign name value =>
    refine branchFree_cons.2 ⟨rfl, branchFree_cons.2 ⟨rfl, branchFree_cons.2 ⟨rfl, ?_⟩⟩⟩
    exact branchFree_append.2 ⟨value.branchFree, hend⟩
  | assignElement array index value =>
    refine branchFree_cons.2 ⟨rfl, branchFree_cons.2 ⟨rfl, branchFree_cons.2 ⟨rfl, ?_⟩⟩⟩
    refine branchFree_append.2 ⟨index.branchFree, branchFree_cons.2 ⟨rfl, ?_⟩⟩
    exact branchFree_cons.2 ⟨rfl, branchFree_append.2 ⟨value.branchFree, hend⟩⟩
  | invoke call =>
    exact branchFree_cons.2 ⟨rfl, branchFree_append.2 ⟨call.branchFree, hend⟩⟩
  | returnNothing => exact branchFree_cons.2 ⟨rfl, hend⟩
  | returnValue value =>
    exact branchFree_cons.2 ⟨rfl, branchFree_append.2 ⟨value.branchFree, hend⟩⟩
  | choice condition body => cases h
  | choiceElse condition body otherwise => cases h
  | loop condition body => cases h

theorem Statement.isBranch_of_mem {x : Statement} {lexeme : Lexeme} (hmem : lexeme ∈ x.yield)
    (hlexeme : lexeme.isBranch = true) : x.isBranch = true := by
  cases hbranch : x.isBranch with
  | true => rfl
  | false => exact (x.branchFree hbranch lexeme hmem).symm.trans hlexeme

mutual

theorem Statement.countP_yield (x : Statement) : x.yield.countP Lexeme.isBranch = x.branches := by
  cases x with
  | choice condition body =>
    rw [choice_yield, List.countP_cons_of_pos rfl,
      countP_between (guardYield_branchFree condition) rightBrace_branchFree, body.countP_yield,
      Statement.branches]
  | choiceElse condition body otherwise =>
    rw [choiceElse_yield, List.countP_cons_of_pos rfl, List.countP_append,
      (guardYield_branchFree condition).countP_eq, List.countP_append, body.countP_yield,
      countP_between elseYield_branchFree rightBrace_branchFree, otherwise.countP_yield,
      Nat.zero_add, Statement.branches]
  | loop condition body =>
    rw [loop_yield, List.countP_cons_of_pos rfl,
      countP_between (guardYield_branchFree condition) rightBrace_branchFree, body.countP_yield,
      Statement.branches]
  | _ => exact (Statement.branchFree _ rfl).countP_eq
termination_by structural x

theorem Statements.countP_yield (x : Statements) :
    x.yield.countP Lexeme.isBranch = x.branches := by
  cases x with
  | nil => rfl
  | cons first rest =>
    rw [Statements.yield, List.countP_append, first.countP_yield, rest.countP_yield,
      Statements.branches]
termination_by structural x

end

/-- Among the statements `x`, whose first choice or loop has number `k`, the one with number `j`
starts with these lexemes, which go on to the end of the text. -/
def Statements.StartsAt (k : Nat) (x : Statements) (j : Nat) (lexemes : List Lexeme) : Prop :=
  ∃ statement rest tail, statement.isBranch = true ∧ Inside k x j (.cons statement rest) ∧
    lexemes = statement.yield ++ tail

theorem Statements.StartsAt.append {k j : Nat} {x : Statements} {lexemes : List Lexeme}
    (h : x.StartsAt k j lexemes) (more : List Lexeme) : x.StartsAt k j (lexemes ++ more) := by
  obtain ⟨statement, rest, tail, hbranch, hinside, rfl⟩ := h
  exact ⟨statement, rest, tail ++ more, hbranch, hinside, List.append_assoc _ _ _⟩

theorem Statements.StartsAt.within {k n j : Nat} {x y : Statements} {lexemes : List Lexeme}
    (h : y.StartsAt n j lexemes)
    (hinside : ∀ j z, Inside n y j z → Inside k x j z) : x.StartsAt k j lexemes := by
  obtain ⟨statement, rest, tail, hbranch, hin, hlexemes⟩ := h
  exact ⟨statement, rest, tail, hbranch, hinside _ _ hin, hlexemes⟩

mutual

theorem Statement.startsAt (x : Statement) (rest : Statements) (k : Nat) {lexeme : Lexeme}
    {before after : List Lexeme} (hlexeme : lexeme.isBranch = true)
    (h : x.yield = before ++ lexeme :: after) :
    (Statements.cons x rest).StartsAt k (k + before.countP Lexeme.isBranch) (lexeme :: after) := by
  have hbranch : x.isBranch = true := Statement.isBranch_of_mem (by simp [h]) hlexeme
  cases before with
  | nil => exact ⟨x, rest, [], hbranch, .refl, by rw [h, List.append_nil, List.nil_append]⟩
  | cons keyword before =>
    cases x with
    | choice condition body =>
      obtain ⟨rfl, hbehind⟩ := List.cons_eq_cons.1 ((choice_yield condition body).symm.trans h)
      obtain ⟨later, behind, rfl, hbody, rfl⟩ :=
        split_between (guardYield_branchFree condition) rightBrace_branchFree hlexeme hbehind
      rw [countP_guarded rfl]
      exact ((body.startsAt (k + 1) hlexeme hbody).append _).within fun _ _ => .choice
    | choiceElse condition body otherwise =>
      obtain ⟨rfl, hbehind⟩ :=
        List.cons_eq_cons.1 ((choiceElse_yield condition body otherwise).symm.trans h)
      obtain ⟨later, rfl, hblocks⟩ :=
        split_branchFree (guardYield_branchFree condition) hlexeme hbehind
      rw [countP_guarded rfl]
      rcases split_append hblocks with ⟨behind, hbody, rfl⟩ | ⟨later, rfl, hsecond⟩
      · exact ((body.startsAt (k + 1) hlexeme hbody).append _).within fun _ _ => .choiceThen
      · -- all that starts in the first block comes before the second one
        obtain ⟨last, behind, rfl, hotherwise, rfl⟩ :=
          split_between elseYield_branchFree rightBrace_branchFree hlexeme hsecond
        rw [List.countP_append, body.countP_yield, List.countP_append,
          elseYield_branchFree.countP_eq, Nat.zero_add, ← Nat.add_assoc]
        exact ((otherwise.startsAt _ hlexeme hotherwise).append _).within fun _ _ => .choiceElse
    | loop condition body =>
      obtain ⟨rfl, hbehind⟩ := List.cons_eq_cons.1 ((loop_yield condition body).symm.trans h)
      obtain ⟨later, behind, rfl, hbody, rfl⟩ :=
        split_between (guardYield_branchFree condition) rightBrace_branchFree hlexeme hbehind
      rw [countP_guarded rfl]
      exact ((body.startsAt (k + 1) hlexeme hbody).append _).within fun _ _ => .loop
    | _ => cases hbranch
termination_by structural x

/-- Every start of a choice or loop has as its number that of the starts before it. -/
theorem Statements.startsAt (x : Statements) (k : Nat) {lexeme : Lexeme}
    {before after : List Lexeme} (hlexeme : lexeme.isBranch = true)
    (h : x.yield = before ++ lexeme :: after) :
    x.StartsAt k (k + before.countP Lexeme.isBranch) (lexeme :: after) := by
  cases x with
  | nil => simp [Statements.yield] at h
  | cons first rest =>
    rcases split_append h with ⟨behind, hfirst, rfl⟩ | ⟨later, rfl, hrest⟩
    · exact (first.startsAt rest k hlexeme hfirst).append _
    · rw [List.countP_append, first.countP_yield, ← Nat.add_assoc]
      exact (rest.startsAt (k + first.branches) hlexeme hrest).within fun _ _ => .rest
termination_by structural x

end

/-! ### Subroutines and classes -/

/-- The lexemes of a subroutine before its body. -/
def Subroutine.header (subroutine : Subroutine) : List Lexeme :=
  .keyword (subroutineKeyword subroutine.kind) :: returnLexeme subroutine.returnType ::
    .identifier subroutine.name :: .symbol .leftParen ::
      (parametersYield subroutine.parameters ++ .symbol .rightParen :: .symbol .leftBrace ::
        localsYield subroutine.locals)

theorem Subroutine.yield_eq (subroutine : Subroutine) :
    subroutine.yield =
      subroutine.header ++ (subroutine.body.yield ++ [.symbol .rightBrace]) := by
  simp [Subroutine.yield, Subroutine.header]

theorem Subroutine.header_branchFree (subroutine : Subroutine) : BranchFree subroutine.header := by
  have hkeyword : (Lexeme.keyword (subroutineKeyword subroutine.kind)).isBranch = false := by
    cases subroutine.kind <;> rfl
  have htype : (returnLexeme subroutine.returnType).isBranch = false := by
    cases subroutine.returnType with
    | none => rfl
    | some type => exact type.not_branch
  refine branchFree_cons.2 ⟨hkeyword, branchFree_cons.2 ⟨htype, branchFree_cons.2 ⟨rfl, ?_⟩⟩⟩
  refine branchFree_cons.2 ⟨rfl, branchFree_append.2 ⟨parametersYield_branchFree _, ?_⟩⟩
  exact branchFree_cons.2 ⟨rfl, branchFree_cons.2 ⟨rfl, localsYield_branchFree _⟩⟩

theorem Subroutine.countP_yield (subroutine : Subroutine) :
    subroutine.yield.countP Lexeme.isBranch = subroutine.body.branches := by
  rw [subroutine.yield_eq, countP_between subroutine.header_branchFree rightBrace_branchFree,
    subroutine.body.countP_yield]

theorem countP_subroutines (list : List Subroutine) :
    (list.flatMap Subroutine.yield).countP Lexeme.isBranch = subroutineBranches list := by
  induction list with
  | nil => rfl
  | cons first rest ih =>
    rw [List.flatMap_cons, List.countP_append, first.countP_yield, ih, subroutineBranches]

theorem startsAt_of_subroutines (list : List Subroutine) (k : Nat) {lexeme : Lexeme}
    {before after : List Lexeme} (hlexeme : lexeme.isBranch = true)
    (h : list.flatMap Subroutine.yield = before ++ lexeme :: after) :
    ∃ n subroutine, (n, subroutine) ∈ numbered k list ∧
      subroutine.body.StartsAt n (k + before.countP Lexeme.isBranch) (lexeme :: after) := by
  induction list generalizing k before with
  | nil => simp at h
  | cons first rest ih =>
    rw [List.flatMap_cons] at h
    rcases split_append h with ⟨behind, hfirst, rfl⟩ | ⟨later, rfl, hrest⟩
    · rw [first.yield_eq] at hfirst
      obtain ⟨later, behind, rfl, hbody, rfl⟩ :=
        split_between first.header_branchFree rightBrace_branchFree hlexeme hfirst
      refine ⟨k, first, List.mem_cons_self, ?_⟩
      rw [List.countP_append, first.header_branchFree.countP_eq, Nat.zero_add]
      exact ((first.body.startsAt k hlexeme hbody).append _).append _
    · obtain ⟨n, subroutine, hmem, hstarts⟩ := ih (k + first.body.branches) hrest
      refine ⟨n, subroutine, List.mem_cons_of_mem _ hmem, ?_⟩
      rw [List.countP_append, first.countP_yield, ← Nat.add_assoc]
      exact hstarts

/-- The lexemes of a class before its subroutines. -/
def Class.header (tree : Class) : List Lexeme :=
  .keyword .class_ :: .identifier tree.name :: .symbol .leftBrace ::
    tree.classVariables.flatMap ClassVariables.yield

theorem Class.yield_eq (tree : Class) :
    tree.yield =
      tree.header ++ (tree.subroutines.flatMap Subroutine.yield ++ [.symbol .rightBrace]) := by
  simp [Class.yield, Class.header]

theorem Class.header_branchFree (tree : Class) : BranchFree tree.header := by
  refine branchFree_cons.2 ⟨rfl, branchFree_cons.2 ⟨rfl, branchFree_cons.2 ⟨rfl, ?_⟩⟩⟩
  exact branchFree_flatMap fun line _ => line.branchFree

/-- A class has as many choices and loops as its text has keywords that start one. -/
theorem Class.countP_yield (tree : Class) :
    tree.yield.countP Lexeme.isBranch = subroutineBranches tree.subroutines := by
  rw [tree.yield_eq, countP_between tree.header_branchFree rightBrace_branchFree,
    countP_subroutines]

/-- The choice or loop that starts at a keyword of the text has as its number that of such keywords
before it. -/
theorem Class.startsAt (tree : Class) {lexeme : Lexeme} {before after : List Lexeme}
    (hlexeme : lexeme.isBranch = true) (h : tree.yield = before ++ lexeme :: after) :
    ∃ k subroutine, (k, subroutine) ∈ numbered 0 tree.subroutines ∧
      subroutine.body.StartsAt k (before.countP Lexeme.isBranch) (lexeme :: after) := by
  rw [tree.yield_eq] at h
  obtain ⟨later, behind, rfl, hinner, rfl⟩ :=
    split_between tree.header_branchFree rightBrace_branchFree hlexeme h
  obtain ⟨k, subroutine, hmem, hstarts⟩ :=
    startsAt_of_subroutines tree.subroutines 0 hlexeme hinner
  rw [Nat.zero_add] at hstarts
  refine ⟨k, subroutine, hmem, ?_⟩
  rw [List.countP_append, tree.header_branchFree.countP_eq, Nat.zero_add]
  exact hstarts.append _

end Tree

end JackCompiler
