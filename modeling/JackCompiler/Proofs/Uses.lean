import JackCompiler.Proofs.SyntaxTrees

/-!
What the code of a tree asks of the declarations around it and of the limits of the machine: the
names whose values it needs, the calls it makes and the strings it builds, in the order of the text.
-/

namespace JackCompiler.Tree

inductive Use where
  /-- The name must be that of a variable. -/
  | value (name : String)
  /-- A call with this many arguments. Without an owner it is made on the current object. -/
  | call (owner : Option String) (arguments : Nat)
  | literal (text : String)
deriving DecidableEq

mutual

def Expression.uses : Expression → List Use
  | .mk first rest => first.uses ++ rest.uses

def Operations.uses : Operations → List Use
  | .nil => []
  | .cons _ operand rest => operand.uses ++ rest.uses

def Term.uses : Term → List Use
  | .integer _ | .constant _ => []
  | .string text => [.literal text]
  | .variable_ name => [.value name]
  | .element array index => .value array :: index.uses
  | .call call => call.uses
  | .group inner => inner.uses
  | .unary _ operand => operand.uses

def Call.uses : Call → List Use
  | .own _ arguments => .call none arguments.count :: arguments.uses
  | .member owner _ arguments => .call (some owner) arguments.count :: arguments.uses

def Arguments.uses : Arguments → List Use
  | .nil => []
  | .cons first rest => first.uses ++ rest.uses

end

mutual

def Statement.uses : Statement → List Use
  | .assign name value => .value name :: value.uses
  | .assignElement array index value => .value array :: (index.uses ++ value.uses)
  | .choice condition body => condition.uses ++ body.uses
  | .choiceElse condition body otherwise => condition.uses ++ (body.uses ++ otherwise.uses)
  | .loop condition body => condition.uses ++ body.uses
  | .invoke call => call.uses
  | .returnNothing => []
  | .returnValue value => value.uses

def Statements.uses : Statements → List Use
  | .nil => []
  | .cons first rest => first.uses ++ rest.uses

end

/-- No call has more arguments than can be counted while they are read. -/
def CountableCalls (uses : List Use) : Prop :=
  ∀ owner arguments, Use.call owner arguments ∈ uses → arguments ≤ maxInteger

theorem countableCalls_append {x y : List Use} :
    CountableCalls (x ++ y) ↔ CountableCalls x ∧ CountableCalls y := by
  simp only [CountableCalls, List.mem_append]
  constructor
  · intro h
    exact ⟨fun o n hx => h o n (Or.inl hx), fun o n hy => h o n (Or.inr hy)⟩
  · rintro ⟨hx, hy⟩ o n (h | h)
    · exact hx o n h
    · exact hy o n h

theorem CountableCalls.tail {use : Use} {uses : List Use} (h : CountableCalls (use :: uses)) :
    CountableCalls uses :=
  fun o n hmem => h o n (List.mem_cons_of_mem use hmem)

theorem CountableCalls.head {owner : Option String} {arguments : Nat} {uses : List Use}
    (h : CountableCalls (.call owner arguments :: uses)) : arguments ≤ maxInteger :=
  h owner arguments List.mem_cons_self

end JackCompiler.Tree
