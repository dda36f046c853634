import JackCompiler.Proofs.SyntaxTrees

/-!
No two trees have the same lexemes. A tree inside a larger one is found by its lexemes and by the
one after them, so each statement is about two trees with lexemes to come: if the whole sequences
agree, so do the trees and what follows them.
-/

namespace JackCompiler.Tree

/-- What follows an expression. -/
def Closes : List Lexeme → Prop
  | .symbol .rightParen :: _ | .symbol .rightBracket :: _ => True
  | .symbol .semicolon :: _ | .symbol .comma :: _ => True
  | _ => False

/-- What follows a term: something, but nothing that makes a variable an array or a call. -/
def NameEnds : List Lexeme → Prop
  | [] => False
  | .symbol .leftBracket :: _ | .symbol .leftParen :: _ | .symbol .dot :: _ => False
  | _ => True

/-- What follows the statements of a block. -/
def BlockEnds : List Lexeme → Prop
  | .symbol .rightBrace :: _ => True
  | _ => False

/-- What follows a statement: not the second block of a choice. -/
def StatementEnds : List Lexeme → Prop
  | .keyword .else_ :: _ => False
  | _ => True

theorem NameEnds.of_closes {rest : List Lexeme} (h : Closes rest) : NameEnds rest := by
  unfold Closes at h
  split at h <;> trivial

theorem BinaryOperator.symbol_injective {o p : BinaryOperator} (h : o.symbol = p.symbol) :
    o = p := by
  cases o <;> cases p <;> first | rfl | cases h

theorem UnaryOperator.symbol_injective {o p : UnaryOperator} (h : o.symbol = p.symbol) :
    o = p := by
  cases o <;> cases p <;> first | rfl | cases h

theorem KeywordConstant.keyword_injective {v w : KeywordConstant} (h : v.keyword = w.keyword) :
    v = w := by
  cases v <;> cases w <;> first | rfl | cases h

theorem not_closes_operator (o : BinaryOperator) (rest : List Lexeme) :
    ¬Closes (.symbol o.symbol :: rest) := by
  cases o <;> exact id

theorem nameEnds_operator (o : BinaryOperator) (rest : List Lexeme) :
    NameEnds (.symbol o.symbol :: rest) := by
  cases o <;> trivial

/-- Whatever closes the operations closes the term before them. -/
theorem Operations.nameEnds (operations : Operations) {rest : List Lexeme} (h : Closes rest) :
    NameEnds (operations.yield ++ rest) := by
  cases operations with
  | nil => exact NameEnds.of_closes h
  | cons operator operand others => exact nameEnds_operator operator _

/-- Further arguments start with a comma, and a parenthesis ends them. -/
theorem Arguments.closes (arguments : Arguments) (rest : List Lexeme) :
    Closes (arguments.further ++ .symbol .rightParen :: rest) := by
  cases arguments <;> trivial

/-- The lexemes that no expression starts with. -/
def StartsExpression : List Lexeme → Prop
  | .integer _ :: _ | .string _ :: _ | .identifier _ :: _ => True
  | .keyword word :: _ => ∃ constant : KeywordConstant, word = constant.keyword
  | .symbol mark :: _ => mark = .leftParen ∨ ∃ operator : UnaryOperator, mark = operator.symbol
  | _ => False

theorem Term.starts (term : Term) (rest : List Lexeme) :
    StartsExpression (term.yield ++ rest) := by
  cases term with
  | integer | string | variable_ | element => trivial
  | constant word => exact ⟨word, rfl⟩
  | call call => cases call <;> trivial
  | group inner => exact Or.inl rfl
  | unary operator operand => exact Or.inr ⟨operator, rfl⟩

theorem Expression.starts (expression : Expression) (rest : List Lexeme) :
    StartsExpression (expression.yield ++ rest) := by
  cases expression with
  | mk first operations =>
    rw [Expression.yield, List.append_assoc]
    exact first.starts _

theorem not_starts_rightParen (rest : List Lexeme) :
    ¬StartsExpression (.symbol .rightParen :: rest) := by
  rintro (h | ⟨operator, h⟩)
  · cases h
  · cases operator <;> cases h

theorem not_starts_semicolon (rest : List Lexeme) :
    ¬StartsExpression (.symbol .semicolon :: rest) := by
  rintro (h | ⟨operator, h⟩)
  · cases h
  · cases operator <;> cases h

/-- A name that nothing continues is a variable. -/
theorem Term.eq_variable (term : Term) {name : String} {r r' : List Lexeme}
    (h : .identifier name :: r = term.yield ++ r') (hr : NameEnds r) :
    term = .variable_ name ∧ r = r' := by
  cases term with
  | variable_ other =>
    obtain ⟨hname, hrest⟩ := List.cons.inj h
    cases hname
    exact ⟨rfl, hrest⟩
  | element array index =>
    obtain ⟨-, rfl⟩ := List.cons.inj h
    exact hr.elim
  | call call =>
    cases call <;>
    · obtain ⟨-, rfl⟩ := List.cons.inj h
      exact hr.elim
  | _ => simp [Term.yield] at h

mutual

theorem Expression.yield_unique (e f : Expression) {r r' : List Lexeme}
    (h : e.yield ++ r = f.yield ++ r') (hr : Closes r) (hr' : Closes r') : e = f ∧ r = r' := by
  cases e with
  | mk first rest =>
    cases f with
    | mk first' rest' =>
      simp only [Expression.yield, List.append_assoc] at h
      obtain ⟨rfl, hrest⟩ :=
        Term.yield_unique first first' h (rest.nameEnds hr) (rest'.nameEnds hr')
      obtain ⟨rfl, rfl⟩ := Operations.yield_unique rest rest' hrest hr hr'
      exact ⟨rfl, rfl⟩
termination_by structural e

theorem Operations.yield_unique (x y : Operations) {r r' : List Lexeme}
    (h : x.yield ++ r = y.yield ++ r') (hr : Closes r) (hr' : Closes r') : x = y ∧ r = r' := by
  cases x with
  | nil =>
    cases y with
    | nil => exact ⟨rfl, h⟩
    | cons operator operand rest =>
      rw [Operations.yield, List.nil_append] at h
      exact absurd (h ▸ hr) (not_closes_operator operator _)
  | cons operator operand rest =>
    cases y with
    | nil =>
      rw [Operations.yield.eq_1, List.nil_append] at h
      exact absurd (h ▸ hr') (not_closes_operator operator _)
    | cons operator' operand' rest' =>
      simp only [Operations.yield, List.cons_append, List.append_assoc, List.cons.injEq,
        Lexeme.symbol.injEq] at h
      obtain ⟨hoperator, h⟩ := h
      obtain rfl := BinaryOperator.symbol_injective hoperator
      obtain ⟨rfl, hrest⟩ :=
        Term.yield_unique operand operand' h (rest.nameEnds hr) (rest'.nameEnds hr')
      obtain ⟨rfl, rfl⟩ := Operations.yield_unique rest rest' hrest hr hr'
      exact ⟨rfl, rfl⟩
termination_by structural x

theorem Term.yield_unique (t u : Term) {r r' : List Lexeme}
    (h : t.yield ++ r = u.yield ++ r') (hr : NameEnds r) (hr' : NameEnds r') : t = u ∧ r = r' := by
  cases t with
  | integer value =>
    cases u with
    | integer other => simpa [Term.yield] using h
    | call call => cases call <;> simp [Term.yield, Call.yield] at h
    | _ => simp [Term.yield] at h
  | string text =>
    cases u with
    | string other => simpa [Term.yield] using h
    | call call => cases call <;> simp [Term.yield, Call.yield] at h
    | _ => simp [Term.yield] at h
  | constant word =>
    cases u with
    | constant other =>
      simp only [Term.yield, List.cons_append, List.nil_append, List.cons.injEq,
        Lexeme.keyword.injEq] at h
      exact ⟨congrArg Term.constant (KeywordConstant.keyword_injective h.1), h.2⟩
    | call call => cases call <;> simp [Term.yield, Call.yield] at h
    | _ => simp [Term.yield] at h
  | variable_ name =>
    obtain ⟨rfl, rfl⟩ := Term.eq_variable u h hr
    exact ⟨rfl, rfl⟩
  | element array index =>
    cases u with
    | element array' index' =>
      simp only [Term.yield, List.cons_append, List.append_assoc, List.nil_append,
        List.cons.injEq, Lexeme.identifier.injEq, true_and] at h
      obtain ⟨rfl, h⟩ := h
      obtain ⟨rfl, hrest⟩ := Expression.yield_unique index index' h trivial trivial
      exact ⟨rfl, (List.cons.inj hrest).2⟩
    | variable_ name =>
      obtain ⟨heq, -⟩ := Term.eq_variable (.element array index) h.symm hr'
      cases heq
    | call call => cases call <;> simp [Term.yield, Call.yield] at h
    | _ => simp [Term.yield] at h
  | call call =>
    cases u with
    | call call' =>
      obtain ⟨rfl, rfl⟩ := Call.yield_unique call call' h
      exact ⟨rfl, rfl⟩
    | variable_ name =>
      obtain ⟨heq, -⟩ := Term.eq_variable (.call call) h.symm hr'
      cases heq
    | _ => cases call <;> simp [Term.yield, Call.yield] at h
  | group inner =>
    cases u with
    | group inner' =>
      simp only [Term.yield, List.cons_append, List.append_assoc, List.nil_append,
        List.cons.injEq, true_and] at h
      obtain ⟨rfl, hrest⟩ := Expression.yield_unique inner inner' h trivial trivial
      exact ⟨rfl, (List.cons.inj hrest).2⟩
    | call call => cases call <;> simp [Term.yield, Call.yield] at h
    | unary operator operand => cases operator <;> simp [Term.yield, UnaryOperator.symbol] at h
    | _ => simp [Term.yield] at h
  | unary operator operand =>
    cases u with
    | unary operator' operand' =>
      simp only [Term.yield, List.cons_append, List.cons.injEq, Lexeme.symbol.injEq] at h
      obtain ⟨hoperator, h⟩ := h
      obtain rfl := UnaryOperator.symbol_injective hoperator
      obtain ⟨rfl, rfl⟩ := Term.yield_unique operand operand' h hr hr'
      exact ⟨rfl, rfl⟩
    | call call => cases call <;> simp [Term.yield, Call.yield] at h
    | group inner => cases operator <;> simp [Term.yield, UnaryOperator.symbol] at h
    | _ => simp [Term.yield] at h
termination_by structural t

theorem Call.yield_unique (c d : Call) {r r' : List Lexeme}
    (h : c.yield ++ r = d.yield ++ r') : c = d ∧ r = r' := by
  cases c with
  | own name arguments =>
    cases d with
    | own name' arguments' =>
      simp only [Call.yield, List.cons_append, List.append_assoc, List.nil_append,
        List.cons.injEq, Lexeme.identifier.injEq, true_and] at h
      obtain ⟨rfl, h⟩ := h
      obtain ⟨rfl, rfl⟩ := Arguments.yield_unique arguments arguments' h
      exact ⟨rfl, rfl⟩
    | member owner name' arguments' => simp [Call.yield] at h
  | member owner name arguments =>
    cases d with
    | own name' arguments' => simp [Call.yield] at h
    | member owner' name' arguments' =>
      simp only [Call.yield, List.cons_append, List.append_assoc, List.nil_append,
        List.cons.injEq, Lexeme.identifier.injEq, true_and] at h
      obtain ⟨rfl, rfl, h⟩ := h
      obtain ⟨rfl, rfl⟩ := Arguments.yield_unique arguments arguments' h
      exact ⟨rfl, rfl⟩
termination_by structural c

theorem Arguments.yield_unique (x y : Arguments) {r r' : List Lexeme}
    (h : x.yield ++ .symbol .rightParen :: r = y.yield ++ .symbol .rightParen :: r') :
    x = y ∧ r = r' := by
  cases x with
  | nil =>
    cases y with
    | nil => exact ⟨rfl, (List.cons.inj h).2⟩
    | cons first rest =>
      rw [Arguments.yield, Arguments.yield, List.nil_append, List.append_assoc] at h
      exact absurd (h ▸ first.starts _) (not_starts_rightParen r)
  | cons first rest =>
    cases y with
    | nil =>
      rw [Arguments.yield, Arguments.yield, List.nil_append, List.append_assoc] at h
      exact absurd (h ▸ first.starts _) (not_starts_rightParen r')
    | cons first' rest' =>
      simp only [Arguments.yield, List.append_assoc] at h
      obtain ⟨rfl, hrest⟩ :=
        Expression.yield_unique first first' h (rest.closes r) (rest'.closes r')
      obtain ⟨rfl, rfl⟩ := Arguments.further_unique rest rest' hrest
      exact ⟨rfl, rfl⟩
termination_by structural x

theorem Arguments.further_unique (x y : Arguments) {r r' : List Lexeme}
    (h : x.further ++ .symbol .rightParen :: r = y.further ++ .symbol .rightParen :: r') :
    x = y ∧ r = r' := by
  cases x with
  | nil =>
    cases y with
    | nil => exact ⟨rfl, (List.cons.inj h).2⟩
    | cons first rest => simp [Arguments.further] at h
  | cons first rest =>
    cases y with
    | nil => simp [Arguments.further] at h
    | cons first' rest' =>
      simp only [Arguments.further, List.cons_append, List.append_assoc, List.cons.injEq,
        true_and] at h
      obtain ⟨rfl, hrest⟩ :=
        Expression.yield_unique first first' h (rest.closes r) (rest'.closes r')
      obtain ⟨rfl, rfl⟩ := Arguments.further_unique rest rest' hrest
      exact ⟨rfl, rfl⟩
termination_by structural x

end

/-- The lexemes that statements start with. -/
def StartsStatement : List Lexeme → Prop
  | .keyword .let_ :: _ | .keyword .if_ :: _ | .keyword .while_ :: _ => True
  | .keyword .do_ :: _ | .keyword .return_ :: _ => True
  | _ => False

theorem Statement.starts (statement : Statement) (rest : List Lexeme) :
    StartsStatement (statement.yield ++ rest) := by
  cases statement <;> trivial

theorem BlockEnds.not_starts {rest : List Lexeme} (h : BlockEnds rest) :
    ¬StartsStatement rest := by
  unfold BlockEnds at h
  split at h
  · exact id
  · cases h

theorem Statements.ends (statements : Statements) {rest : List Lexeme} (h : BlockEnds rest) :
    StatementEnds (statements.yield ++ rest) := by
  cases statements with
  | nil =>
    unfold BlockEnds at h
    split at h
    · trivial
    · cases h
  | cons first others => cases first <;> trivial

/-- A condition and its block, the block's own trees being unique. -/
private theorem guarded_unique {c c' : Expression} {b b' : Statements} {r r' : List Lexeme}
    (h : c.yield ++ .symbol .rightParen :: .symbol .leftBrace ::
        (b.yield ++ .symbol .rightBrace :: r) =
      c'.yield ++ .symbol .rightParen :: .symbol .leftBrace ::
        (b'.yield ++ .symbol .rightBrace :: r'))
    (unique : ∀ {t t' : List Lexeme}, b.yield ++ t = b'.yield ++ t' →
      BlockEnds t → BlockEnds t' → b = b' ∧ t = t') : c = c' ∧ b = b' ∧ r = r' := by
  obtain ⟨rfl, hblock⟩ := Expression.yield_unique c c' h trivial trivial
  simp only [List.cons.injEq, true_and] at hblock
  obtain ⟨rfl, hrest⟩ := unique hblock trivial trivial
  exact ⟨rfl, rfl, (List.cons.inj hrest).2⟩

mutual

theorem Statement.yield_unique (s t : Statement) {r r' : List Lexeme}
    (h : s.yield ++ r = t.yield ++ r') (hr : StatementEnds r) (hr' : StatementEnds r') :
    s = t ∧ r = r' := by
  cases s with
  | assign name value =>
    cases t with
    | assign name' value' =>
      simp only [Statement.yield, List.cons_append, List.append_assoc, List.nil_append,
        List.cons.injEq, Lexeme.identifier.injEq, true_and] at h
      obtain ⟨rfl, hvalue⟩ := h
      obtain ⟨rfl, hrest⟩ := Expression.yield_unique value value' hvalue trivial trivial
      exact ⟨rfl, (List.cons.inj hrest).2⟩
    | _ => simp [Statement.yield] at h
  | assignElement array index value =>
    cases t with
    | assignElement array' index' value' =>
      simp only [Statement.yield, List.cons_append, List.append_assoc, List.nil_append,
        List.cons.injEq, Lexeme.identifier.injEq, true_and] at h
      obtain ⟨rfl, hindex⟩ := h
      obtain ⟨rfl, hvalue⟩ := Expression.yield_unique index index' hindex trivial trivial
      simp only [List.cons.injEq, true_and] at hvalue
      obtain ⟨rfl, hrest⟩ := Expression.yield_unique value value' hvalue trivial trivial
      exact ⟨rfl, (List.cons.inj hrest).2⟩
    | _ => simp [Statement.yield] at h
  | choice condition body =>
    cases t with
    | choice condition' body' =>
      simp only [Statement.yield, List.cons_append, List.append_assoc, List.nil_append,
        List.cons.injEq, true_and] at h
      obtain ⟨rfl, rfl, rfl⟩ := guarded_unique h (Statements.yield_unique body body')
      exact ⟨rfl, rfl⟩
    | choiceElse condition' body' otherwise =>
      simp only [Statement.yield, List.cons_append, List.append_assoc, List.nil_append,
        List.cons.injEq, true_and] at h
      obtain ⟨-, -, rfl⟩ := guarded_unique h (Statements.yield_unique body body')
      exact hr.elim
    | _ => simp [Statement.yield] at h
  | choiceElse condition body otherwise =>
    cases t with
    | choice condition' body' =>
      simp only [Statement.yield, List.cons_append, List.append_assoc, List.nil_append,
        List.cons.injEq, true_and] at h
      obtain ⟨-, -, rfl⟩ := guarded_unique h (Statements.yield_unique body body')
      exact hr'.elim
    | choiceElse condition' body' otherwise' =>
      simp only [Statement.yield, List.cons_append, List.append_assoc, List.nil_append,
        List.cons.injEq, true_and] at h
      obtain ⟨rfl, rfl, hrest⟩ := guarded_unique h (Statements.yield_unique body body')
      simp only [List.cons.injEq, true_and] at hrest
      obtain ⟨rfl, hend⟩ := Statements.yield_unique otherwise otherwise' hrest trivial trivial
      exact ⟨rfl, (List.cons.inj hend).2⟩
    | _ => simp [Statement.yield] at h
  | loop condition body =>
    cases t with
    | loop condition' body' =>
      simp only [Statement.yield, List.cons_append, List.append_assoc, List.nil_append,
        List.cons.injEq, true_and] at h
      obtain ⟨rfl, rfl, rfl⟩ := guarded_unique h (Statements.yield_unique body body')
      exact ⟨rfl, rfl⟩
    | _ => simp [Statement.yield] at h
  | invoke call =>
    cases t with
    | invoke call' =>
      simp only [Statement.yield, List.cons_append, List.append_assoc, List.nil_append,
        List.cons.injEq, true_and] at h
      obtain ⟨rfl, hrest⟩ := Call.yield_unique call call' h
      exact ⟨rfl, (List.cons.inj hrest).2⟩
    | _ => simp [Statement.yield] at h
  | returnNothing =>
    cases t with
    | returnNothing => simpa [Statement.yield] using h
    | returnValue value =>
      simp only [Statement.yield, List.cons_append, List.append_assoc, List.nil_append,
        List.cons.injEq, true_and] at h
      exact absurd (h ▸ value.starts _) (not_starts_semicolon r)
    | _ => simp [Statement.yield] at h
  | returnValue value =>
    cases t with
    | returnNothing =>
      simp only [Statement.yield, List.cons_append, List.append_assoc, List.nil_append,
        List.cons.injEq, true_and] at h
      exact absurd (h ▸ value.starts _) (not_starts_semicolon r')
    | returnValue value' =>
      simp only [Statement.yield, List.cons_append, List.append_assoc, List.nil_append,
        List.cons.injEq, true_and] at h
      obtain ⟨rfl, hrest⟩ := Expression.yield_unique value value' h trivial trivial
      exact ⟨rfl, (List.cons.inj hrest).2⟩
    | _ => simp [Statement.yield] at h
termination_by structural s

theorem Statements.yield_unique (x y : Statements) {r r' : List Lexeme}
    (h : x.yield ++ r = y.yield ++ r') (hr : BlockEnds r) (hr' : BlockEnds r') :
    x = y ∧ r = r' := by
  cases x with
  | nil =>
    cases y with
    | nil => exact ⟨rfl, h⟩
    | cons first rest =>
      rw [Statements.yield, Statements.yield, List.nil_append, List.append_assoc] at h
      exact absurd (h ▸ first.starts _) hr.not_starts
  | cons first rest =>
    cases y with
    | nil =>
      rw [Statements.yield, Statements.yield, List.nil_append, List.append_assoc] at h
      exact absurd (h ▸ first.starts _) hr'.not_starts
    | cons first' rest' =>
      simp only [Statements.yield, List.append_assoc] at h
      obtain ⟨rfl, hrest⟩ :=
        Statement.yield_unique first first' h (rest.ends hr) (rest'.ends hr')
      obtain ⟨rfl, rfl⟩ := Statements.yield_unique rest rest' hrest hr hr'
      exact ⟨rfl, rfl⟩
termination_by structural x

end

/-- A sequence of parts that each show where they end, followed by what no part starts with. -/
theorem flatMap_unique {α : Type} {part : α → List Lexeme} (Starts : List Lexeme → Prop)
    (starts : ∀ a rest, Starts (part a ++ rest))
    (unique : ∀ a b r r', part a ++ r = part b ++ r' → a = b ∧ r = r')
    {xs ys : List α} {r r' : List Lexeme} (h : xs.flatMap part ++ r = ys.flatMap part ++ r')
    (hr : ¬Starts r) (hr' : ¬Starts r') : xs = ys ∧ r = r' := by
  induction xs generalizing ys with
  | nil =>
    cases ys with
    | nil => exact ⟨rfl, h⟩
    | cons y ys =>
      rw [List.flatMap_nil, List.nil_append, List.flatMap_cons, List.append_assoc] at h
      exact absurd (h ▸ starts y _) hr
  | cons x xs ih =>
    cases ys with
    | nil =>
      rw [List.flatMap_nil, List.nil_append, List.flatMap_cons, List.append_assoc] at h
      exact absurd (h ▸ starts x _) hr'
    | cons y ys =>
      simp only [List.flatMap_cons, List.append_assoc] at h
      obtain ⟨rfl, hrest⟩ := unique x y _ _ h
      obtain ⟨rfl, rfl⟩ := ih hrest
      exact ⟨rfl, rfl⟩

/-- The keywords that declarations start with. -/
def StartsWith (words : List Keyword) : List Lexeme → Prop
  | .keyword word :: _ => word ∈ words
  | _ => False

def StartsComma : List Lexeme → Prop
  | .symbol .comma :: _ => True
  | _ => False

theorem TypeName.lexeme_injective {t u : TypeName} (h : t.lexeme = u.lexeme) : t = u := by
  cases t <;> cases u <;> simp_all [TypeName.lexeme]

theorem returnLexeme_injective {t u : Option TypeName} (h : returnLexeme t = returnLexeme u) :
    t = u := by
  cases t with
  | none =>
    cases u with
    | none => rfl
    | some type => cases type <;> cases h
  | some type =>
    cases u with
    | none => cases type <;> cases h
    | some type' => exact congrArg some (TypeName.lexeme_injective h)

theorem Variables.yield_unique (v w : Variables) (r r' : List Lexeme)
    (h : v.yield ++ r = w.yield ++ r') : v = w ∧ r = r' := by
  obtain ⟨type, first, others⟩ := v
  obtain ⟨type', first', others'⟩ := w
  simp only [Variables.yield, List.cons_append, List.append_assoc, List.nil_append,
    List.cons.injEq, Lexeme.identifier.injEq] at h
  obtain ⟨htype, rfl, hothers⟩ := h
  obtain rfl := TypeName.lexeme_injective htype
  obtain ⟨rfl, hrest⟩ := flatMap_unique StartsComma (by intros; trivial)
    (by simp) hothers id id
  exact ⟨rfl, (List.cons.inj hrest).2⟩

theorem ClassVariables.yield_unique (v w : ClassVariables) (r r' : List Lexeme)
    (h : v.yield ++ r = w.yield ++ r') : v = w ∧ r = r' := by
  obtain ⟨line, scope⟩ := v
  obtain ⟨line', scope'⟩ := w
  simp only [ClassVariables.yield, List.cons_append, List.cons.injEq, Lexeme.keyword.injEq] at h
  obtain ⟨hscope, hrest⟩ := h
  obtain ⟨rfl, rfl⟩ := Variables.yield_unique line line' r r' hrest
  cases scope <;> cases scope' <;> first | exact ⟨rfl, rfl⟩ | cases hscope

theorem Parameter.yield_unique (p q : Parameter) (r r' : List Lexeme)
    (h : p.yield ++ r = q.yield ++ r') : p = q ∧ r = r' := by
  obtain ⟨type, name⟩ := p
  obtain ⟨type', name'⟩ := q
  simp only [Parameter.yield, List.cons_append, List.nil_append, List.cons.injEq,
    Lexeme.identifier.injEq] at h
  obtain ⟨htype, rfl, rfl⟩ := h
  obtain rfl := TypeName.lexeme_injective htype
  exact ⟨rfl, rfl⟩

theorem TypeName.lexeme_ne_symbol (type : TypeName) (mark : Symbol) :
    type.lexeme ≠ .symbol mark := by
  cases type <;> simp [TypeName.lexeme]

theorem parametersYield_unique (xs ys : List Parameter) (r r' : List Lexeme)
    (h : parametersYield xs ++ .symbol .rightParen :: r =
      parametersYield ys ++ .symbol .rightParen :: r') : xs = ys ∧ r = r' := by
  cases xs with
  | nil =>
    cases ys with
    | nil => exact ⟨rfl, (List.cons.inj h).2⟩
    | cons y ys => exact absurd (List.cons.inj h).1.symm (y.type.lexeme_ne_symbol _)
  | cons x xs =>
    cases ys with
    | nil => exact absurd (List.cons.inj h).1 (x.type.lexeme_ne_symbol _)
    | cons y ys =>
      simp only [parametersYield, List.append_assoc] at h
      obtain ⟨rfl, hrest⟩ := Parameter.yield_unique x y _ _ h
      obtain ⟨rfl, hend⟩ := flatMap_unique StartsComma (by intros; trivial)
        (fun a b t t' hab => Parameter.yield_unique a b t t' (List.cons.inj hab).2) hrest id id
      exact ⟨rfl, (List.cons.inj hend).2⟩

theorem Statements.not_startsWith_var (statements : Statements) (rest : List Lexeme) :
    ¬StartsWith [.var_] (statements.yield ++ .symbol .rightBrace :: rest) := by
  cases statements with
  | nil => exact id
  | cons first others => cases first <;> simp [StartsWith, Statements.yield, Statement.yield]

theorem Subroutine.yield_unique (s t : Subroutine) (r r' : List Lexeme)
    (h : s.yield ++ r = t.yield ++ r') : s = t ∧ r = r' := by
  obtain ⟨kind, returnType, name, parameters, locals, body⟩ := s
  obtain ⟨kind', returnType', name', parameters', locals', body'⟩ := t
  simp only [Subroutine.yield, localsYield, List.cons_append, List.append_assoc, List.nil_append,
    List.cons.injEq, Lexeme.identifier.injEq, Lexeme.keyword.injEq, true_and] at h
  obtain ⟨hkind, hreturn, rfl, hparameters⟩ := h
  obtain rfl := returnLexeme_injective hreturn
  obtain rfl : kind = kind' := by cases kind <;> cases kind' <;> first | rfl | cases hkind
  obtain ⟨rfl, hlocals⟩ := parametersYield_unique parameters parameters' _ _ hparameters
  simp only [List.cons.injEq, true_and] at hlocals
  obtain ⟨rfl, hbody⟩ := flatMap_unique (StartsWith [.var_])
    (fun _ _ => by simp [StartsWith])
    (fun v w t t' hvw => Variables.yield_unique v w t t' (List.cons.inj hvw).2) hlocals
    (body.not_startsWith_var r) (body'.not_startsWith_var r')
  obtain ⟨rfl, hend⟩ := Statements.yield_unique body body' hbody trivial trivial
  exact ⟨rfl, (List.cons.inj hend).2⟩

theorem Subroutine.startsWith (subroutine : Subroutine) (rest : List Lexeme) :
    StartsWith [.constructor_, .function_, .method_] (subroutine.yield ++ rest) := by
  obtain ⟨kind, returnType, name, parameters, locals, body⟩ := subroutine
  cases kind <;> simp [StartsWith, Subroutine.yield, subroutineKeyword]

theorem ClassVariables.startsWith (line : ClassVariables) (rest : List Lexeme) :
    StartsWith [.static_, .field_] (line.yield ++ rest) := by
  obtain ⟨line, scope⟩ := line
  cases scope <;> simp [StartsWith, ClassVariables.yield, ClassScope.keyword]

theorem not_startsWith_classVariables (subroutines : List Subroutine) (rest : List Lexeme) :
    ¬StartsWith [.static_, .field_]
      (subroutines.flatMap Subroutine.yield ++ .symbol .rightBrace :: rest) := by
  cases subroutines with
  | nil => exact id
  | cons first others =>
    obtain ⟨kind, returnType, name, parameters, locals, body⟩ := first
    cases kind <;> simp [StartsWith, Subroutine.yield, subroutineKeyword]

theorem Class.yield_injective {c d : Class} (h : c.yield = d.yield) : c = d := by
  obtain ⟨name, lines, subroutines⟩ := c
  obtain ⟨name', lines', subroutines'⟩ := d
  simp only [Class.yield, List.cons.injEq, Lexeme.identifier.injEq, true_and] at h
  obtain ⟨rfl, hvariables⟩ := h
  obtain ⟨rfl, hsubroutines⟩ := flatMap_unique (StartsWith [.static_, .field_])
    ClassVariables.startsWith ClassVariables.yield_unique hvariables
    (not_startsWith_classVariables subroutines [])
    (not_startsWith_classVariables subroutines' [])
  obtain ⟨rfl, -⟩ := flatMap_unique (StartsWith [.constructor_, .function_, .method_])
    Subroutine.startsWith Subroutine.yield_unique hsubroutines id id
  rfl

end JackCompiler.Tree
