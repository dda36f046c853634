import JackCompiler.Proofs.Evaluation
import JackCompiler.Proofs.SinglePassTrees

/-!
Expressions and assignments where they stand in a text. Any expression of a statement, nested ones
included, has its code in that of the statement, and is allowed wherever the statement is. So in a
text that a single pass accepts all of them compute what they should.
-/

namespace JackCompiler

namespace Tree

mutual

/-- The expression and all those inside it. -/
def Expression.parts : Expression → List Expression
  | .mk first rest => .mk first rest :: (first.parts ++ rest.parts)

def Operations.parts : Operations → List Expression
  | .nil => []
  | .cons _ operand rest => operand.parts ++ rest.parts

def Term.parts : Term → List Expression
  | .integer _ | .string _ | .constant _ | .variable_ _ => []
  | .element _ index => index.parts
  | .call call => call.parts
  | .group inner => inner.parts
  | .unary _ operand => operand.parts

def Call.parts : Call → List Expression
  | .own _ arguments | .member _ _ arguments => arguments.parts

def Arguments.parts : Arguments → List Expression
  | .nil => []
  | .cons first rest => first.parts ++ rest.parts

end

/-- The expressions of a statement, without those of other statements inside it. A call that is
made as a statement is one of them. -/
def Statement.expressions : Statement → List Expression
  | .assign _ value | .returnValue value => value.parts
  | .assignElement _ index value => index.parts ++ value.parts
  | .choice condition _ | .choiceElse condition _ _ | .loop condition _ => condition.parts
  | .invoke call => (Expression.mk (.call call) .nil).parts
  | .returnNothing => []

/-! ### Parts and their code -/

/-- The expression is a part of what has this code and these uses. -/
structure Expression.PartOf (c : Context) (code : List Command) (uses : List Use)
    (e : Expression) : Prop where
  code_isInfix : e.code c <:+: code
  uses_subset : e.uses ⊆ uses

variable {c : Context}

theorem Expression.PartOf.mono {x y : List Command} {u v : List Use} {e : Expression}
    (h : e.PartOf c x u) (hcode : x <:+: y) (huses : u ⊆ v) : e.PartOf c y v :=
  ⟨h.code_isInfix.trans hcode, fun _ hmem => huses (h.uses_subset hmem)⟩

theorem Expression.PartOf.left {x y : List Command} {u v : List Use} {e : Expression}
    (h : e.PartOf c x u) : e.PartOf c (x ++ y) (u ++ v) :=
  h.mono (List.prefix_append x y).isInfix (List.subset_append_left u v)

theorem Expression.PartOf.right {x y : List Command} {u v : List Use} {e : Expression}
    (h : e.PartOf c y v) : e.PartOf c (x ++ y) (u ++ v) :=
  h.mono (List.suffix_append x y).isInfix (List.subset_append_right u v)

mutual

theorem Expression.partOf_of_mem (x : Expression) {e : Expression} (h : e ∈ x.parts) :
    e.PartOf c (x.code c) x.uses := by
  cases x with
  | mk first rest =>
    rcases List.mem_cons.1 h with rfl | hmem
    · exact ⟨List.infix_rfl, List.Subset.refl _⟩
    · rcases List.mem_append.1 hmem with hfirst | hrest
      · exact (first.partOf_of_mem hfirst).left
      · exact (rest.partOf_of_mem hrest).right
termination_by structural x

theorem Operations.partOf_of_mem (x : Operations) {e : Expression} (h : e ∈ x.parts) :
    e.PartOf c (x.code c) x.uses := by
  cases x with
  | nil => cases h
  | cons operator operand rest =>
    rcases List.mem_append.1 h with hoperand | hrest
    · exact (operand.partOf_of_mem hoperand).left
    · have hpart := rest.partOf_of_mem hrest
      exact (hpart.mono (List.suffix_cons _ _).isInfix (List.Subset.refl _)).right
termination_by structural x

theorem Term.partOf_of_mem (x : Term) {e : Expression} (h : e ∈ x.parts) :
    e.PartOf c (x.code c) x.uses := by
  cases x with
  | integer value => cases h
  | string text => cases h
  | constant word => cases h
  | variable_ name => cases h
  | element array index =>
    have hpart := index.partOf_of_mem h
    have hcode : index.code c <:+: (Term.element array index).code c :=
      List.infix_append' _ _ _
    exact hpart.mono hcode (List.subset_cons_self _ _)
  | call call => exact call.partOf_of_mem h
  | group inner => exact inner.partOf_of_mem h
  | unary operator operand =>
    exact (operand.partOf_of_mem h).mono (List.prefix_append _ _).isInfix (List.Subset.refl _)
termination_by structural x

theorem Call.partOf_of_mem (x : Call) {e : Expression} (h : e ∈ x.parts) :
    e.PartOf c (x.code c) x.uses := by
  cases x with
  | own name arguments =>
    have hpart := arguments.partOf_of_mem h
    exact hpart.mono (List.infix_cons (List.prefix_append _ _).isInfix)
      (List.subset_cons_self _ _)
  | member owner name arguments =>
    have hpart := arguments.partOf_of_mem h
    refine hpart.mono ?_ (List.subset_cons_self _ _)
    rw [Call.code]
    cases c.lookup? owner with
    | some entry => exact List.infix_cons (List.prefix_append _ _).isInfix
    | none => exact (List.prefix_append _ _).isInfix
termination_by structural x

theorem Arguments.partOf_of_mem (x : Arguments) {e : Expression} (h : e ∈ x.parts) :
    e.PartOf c (x.code c) x.uses := by
  cases x with
  | nil => cases h
  | cons first rest =>
    rcases List.mem_append.1 h with hfirst | hrest
    · exact (first.partOf_of_mem hfirst).left
    · exact (rest.partOf_of_mem hrest).right
termination_by structural x

end

theorem Statement.partOf_of_mem (x : Statement) (k : Nat) {e : Expression}
    (h : e ∈ x.expressions) : e.PartOf c (x.code c k) x.uses := by
  cases x with
  | assign name value =>
    exact (value.partOf_of_mem h).mono (List.prefix_append _ _).isInfix
      (List.subset_cons_self _ _)
  | assignElement array index value =>
    rcases List.mem_append.1 h with hindex | hvalue
    · refine (index.partOf_of_mem hindex).mono (List.infix_append' (c.load array) _ _) ?_
      exact List.subset_cons_of_subset _ (List.subset_append_left _ _)
    · refine (value.partOf_of_mem hvalue).mono ?_ ?_
      · refine List.IsInfix.trans ?_ (List.suffix_append (c.load array) _).isInfix
        refine List.IsInfix.trans ?_ (List.suffix_append (index.code c) _).isInfix
        exact List.infix_cons (List.prefix_append _ _).isInfix
      · exact List.subset_cons_of_subset _ (List.subset_append_right _ _)
  | choice condition body => exact (condition.partOf_of_mem h).left
  | choiceElse condition body otherwise => exact (condition.partOf_of_mem h).left
  | loop condition body =>
    exact (condition.partOf_of_mem h).mono (List.infix_cons (List.prefix_append _ _).isInfix)
      (List.subset_append_left _ _)
  | invoke call =>
    have hpart := (Expression.mk (.call call) .nil).partOf_of_mem (c := c) h
    have hcode : (Expression.mk (.call call) .nil).code c = call.code c := List.append_nil _
    have huses : (Expression.mk (.call call) .nil).uses = call.uses := List.append_nil _
    rw [hcode, huses] at hpart
    exact hpart.mono (List.prefix_append _ _).isInfix (List.Subset.refl _)
  | returnNothing => cases h
  | returnValue value =>
    exact (value.partOf_of_mem h).mono (List.prefix_append _ _).isInfix (List.Subset.refl _)

/-- What holds of the uses of statements holds of those inside them. -/
theorem Inside.uses_subset {k j : Nat} {x y : Statements} (h : Inside k x j y) :
    y.uses ⊆ x.uses := by
  induction h with
  | refl => exact List.Subset.refl _
  | rest _ ih => exact fun _ hmem => List.mem_append_right _ (ih hmem)
  | choice _ ih =>
    exact fun _ hmem => List.mem_append_left _ (List.mem_append_right _ (ih hmem))
  | choiceThen _ ih =>
    exact fun _ hmem => List.mem_append_left _
      (List.mem_append_right _ (List.mem_append_left _ (ih hmem)))
  | choiceElse _ ih =>
    exact fun _ hmem => List.mem_append_left _
      (List.mem_append_right _ (List.mem_append_right _ (ih hmem)))
  | loop _ ih =>
    exact fun _ hmem => List.mem_append_left _ (List.mem_append_right _ (ih hmem))

end Tree

/-! ### Places -/

namespace Tree

variable {code : List Command} {a : Nat} {c : Context}

theorem Statement.code_straight (x : Statement) (hx : x.isAssignment) (k : Nat) :
    AllStraight (x.code c k) := by
  cases x with
  | assign name value => exact assign_straight c k name value
  | assignElement array index value => exact assignElement_straight c k array index value
  | _ => cases hx

end Tree

end JackCompiler
