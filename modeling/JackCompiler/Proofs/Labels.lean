import JackCompiler.Proofs.ReferenceCode
import JackCompiler.Proofs.StackMachine
import Mathlib.Data.List.Nodup
import Std.Data.String.ToNat

/-!
Labels of generated code and the jumps to them. Only choices and loops have labels, each its own
two, and jump to each of them once. The labels of a class are so numbered without gaps, and all of
them are different.
-/

namespace JackCompiler

theorem labelName_injective {m n : Nat} (h : labelName m = labelName n) : m = n :=
  Nat.repr_injective (String.append_right_inj "L" |>.1 h)

/-- The names of the labels of the code, in order. -/
def labels (code : List Command) : List String :=
  code.filterMap fun
    | .label name => some name
    | _ => none

/-- The labels that the code jumps to, once for each jump, in order. -/
def targets (code : List Command) : List String :=
  code.filterMap fun
    | .goto name | .ifGoto name => some name
    | _ => none

/-- The names of so many labels, from number `first` on. -/
def labelNames (first count : Nat) : List String :=
  (List.range' first count).map labelName

/-- The code has so many labels, numbered from `first` on, and one jump to each of them. -/
structure Labelled (first count : Nat) (code : List Command) : Prop where
  labels : (labels code).Perm (labelNames first count)
  targets : (targets code).Perm (labelNames first count)

/-- Labels `2 * k` and `2 * k + 1` are the code's own, with one jump to each. All other labels and
jumps are those of the code inside it. -/
structure OwnsLabels (k : Nat) (inner code : List Command) : Prop where
  labels : (labels code).Perm (labelName (2 * k) :: labelName (2 * k + 1) :: labels inner)
  targets : (targets code).Perm (labelName (2 * k) :: labelName (2 * k + 1) :: targets inner)

/-- All commands are straight. -/
def AllStraight (code : List Command) : Prop :=
  ∀ command ∈ code, command.isStraight = true

/-- No function starts in the code. -/
def NoFunction (code : List Command) : Prop :=
  ∀ name locals, .function name locals ∉ code

theorem allStraight_append {x y : List Command} :
    AllStraight (x ++ y) ↔ AllStraight x ∧ AllStraight y :=
  List.forall_mem_append

theorem allStraight_cons {command : Command} {x : List Command} :
    AllStraight (command :: x) ↔ command.isStraight = true ∧ AllStraight x :=
  List.forall_mem_cons

theorem allStraight_nil : AllStraight [] :=
  fun _ h => by cases h

theorem labels_append (x y : List Command) : labels (x ++ y) = labels x ++ labels y :=
  List.filterMap_append

theorem targets_append (x y : List Command) : targets (x ++ y) = targets x ++ targets y :=
  List.filterMap_append

theorem labels_label (name : String) (rest : List Command) :
    labels (.label name :: rest) = name :: labels rest :=
  rfl

theorem targets_label (name : String) (rest : List Command) :
    targets (.label name :: rest) = targets rest :=
  rfl

theorem labels_goto (name : String) (rest : List Command) :
    labels (.goto name :: rest) = labels rest :=
  rfl

theorem targets_goto (name : String) (rest : List Command) :
    targets (.goto name :: rest) = name :: targets rest :=
  rfl

theorem AllStraight.labels_eq {code : List Command} (h : AllStraight code) : labels code = [] := by
  apply List.filterMap_eq_nil_iff.2
  intro command hmem
  have hstraight := h command hmem
  cases command <;> first | rfl | cases hstraight

theorem AllStraight.targets_eq {code : List Command} (h : AllStraight code) :
    targets code = [] := by
  apply List.filterMap_eq_nil_iff.2
  intro command hmem
  have hstraight := h command hmem
  cases command <;> first | rfl | cases hstraight

/-- A condition and the jump on it have no labels. -/
theorem labels_guard {condition : List Command} (h : AllStraight condition) (name : String)
    (rest : List Command) :
    labels (condition ++ .operate .not :: .ifGoto name :: rest) = labels rest := by
  rw [labels_append, h.labels_eq]
  rfl

theorem targets_guard {condition : List Command} (h : AllStraight condition) (name : String)
    (rest : List Command) :
    targets (condition ++ .operate .not :: .ifGoto name :: rest) = name :: targets rest := by
  rw [targets_append, h.targets_eq]
  rfl

theorem AllStraight.noFunction {code : List Command} (h : AllStraight code) : NoFunction code := by
  intro name locals hmem
  cases h _ hmem

theorem noFunction_append {x y : List Command} :
    NoFunction (x ++ y) ↔ NoFunction x ∧ NoFunction y := by
  constructor
  · intro h
    exact ⟨fun name locals hx => h name locals (List.mem_append_left _ hx),
      fun name locals hy => h name locals (List.mem_append_right _ hy)⟩
  · rintro ⟨hx, hy⟩ name locals h
    rcases List.mem_append.1 h with h | h
    · exact hx name locals h
    · exact hy name locals h

theorem nodup_labelNames (first count : Nat) : (labelNames first count).Nodup :=
  List.Nodup.map (fun _ _ => labelName_injective) List.nodup_range'

theorem labelNames_branch (k n : Nat) :
    labelNames (2 * k) (2 * (n + 1)) =
      labelName (2 * k) :: labelName (2 * k + 1) :: labelNames (2 * (k + 1)) (2 * n) :=
  rfl

theorem labelNames_append (k m n : Nat) :
    labelNames (2 * k) (2 * m) ++ labelNames (2 * (k + m)) (2 * n) =
      labelNames (2 * k) (2 * (m + n)) := by
  rw [Nat.mul_add 2 k m, Nat.mul_add 2 m n, labelNames, labelNames, labelNames, ← List.map_append,
    List.range'_append_1]

namespace Labelled

variable {k m n first : Nat} {x y : List Command}

theorem straight (h : AllStraight x) : Labelled first 0 x where
  labels := h.labels_eq ▸ List.Perm.refl []
  targets := h.targets_eq ▸ List.Perm.refl []

theorem append (hx : Labelled (2 * k) (2 * m) x) (hy : Labelled (2 * (k + m)) (2 * n) y) :
    Labelled (2 * k) (2 * (m + n)) (x ++ y) where
  labels := by
    rw [labels_append, ← labelNames_append]
    exact hx.labels.append hy.labels
  targets := by
    rw [targets_append, ← labelNames_append]
    exact hx.targets.append hy.targets

end Labelled

/-- Two labels before those of the code inside leave no gap. -/
theorem OwnsLabels.labelled {k n : Nat} {inner code : List Command} (h : OwnsLabels k inner code)
    (hinner : Labelled (2 * (k + 1)) (2 * n) inner) : Labelled (2 * k) (2 * (n + 1)) code where
  labels := by
    rw [labelNames_branch]
    exact h.labels.trans ((hinner.labels.cons _).cons _)
  targets := by
    rw [labelNames_branch]
    exact h.targets.trans ((hinner.targets.cons _).cons _)

/-- What is selected only once is selected at one place. -/
theorem place_unique {α β : Type} {f : α → Option β} {list : List α}
    (h : (list.filterMap f).Nodup) {i j : Nat} {a b : α} {c : β} (hi : list[i]? = some a)
    (hj : list[j]? = some b) (ha : f a = some c) (hb : f b = some c) : i = j := by
  have hdifferent := List.pairwise_iff_getElem.1 (List.pairwise_filterMap.1 h)
  obtain ⟨hilt, rfl⟩ := List.getElem?_eq_some_iff.1 hi
  obtain ⟨hjlt, rfl⟩ := List.getElem?_eq_some_iff.1 hj
  rcases Nat.lt_trichotomy i j with hlt | heq | hgt
  · exact absurd rfl (hdifferent i j hilt hjlt hlt c ha c hb)
  · exact heq
  · exact absurd rfl (hdifferent j i hjlt hilt hgt c hb c ha)

/-- Code whose labels are different has every label at one place. -/
theorem uniqueLabels_of_nodup {code : List Command} (h : (labels code).Nodup) :
    UniqueLabels code :=
  fun _ _ _ hi hj => place_unique h hi hj rfl rfl

/-! ### Expressions -/

theorem Context.load_straight (c : Context) (name : String) : AllStraight (c.load name) := by
  unfold Context.load
  cases c.lookup? name with
  | none => exact allStraight_nil
  | some entry => exact allStraight_cons.2 ⟨rfl, allStraight_nil⟩

theorem Context.store_straight (c : Context) (name : String) : AllStraight (c.store name) := by
  unfold Context.store
  cases c.lookup? name with
  | none => exact allStraight_nil
  | some entry => exact allStraight_cons.2 ⟨rfl, allStraight_nil⟩

namespace Tree

theorem stringCode_straight (text : String) : AllStraight (stringCode text) := by
  refine allStraight_cons.2 ⟨rfl, allStraight_cons.2 ⟨rfl, ?_⟩⟩
  intro command hmem
  obtain ⟨character, -, hmem⟩ := List.mem_flatMap.1 hmem
  simp only [List.mem_cons, List.not_mem_nil, or_false] at hmem
  rcases hmem with rfl | rfl
  · rfl
  · rfl

theorem KeywordConstant.code_straight (word : KeywordConstant) : AllStraight word.code := by
  cases word <;> simp [KeywordConstant.code, AllStraight, Command.isStraight]

theorem BinaryOperator.command_straight (operator : BinaryOperator) :
    operator.command.isStraight = true := by
  cases operator <;> rfl

theorem UnaryOperator.command_straight (operator : UnaryOperator) :
    operator.command.isStraight = true := by
  cases operator <;> rfl

mutual

theorem Expression.code_straight (c : Context) (e : Expression) : AllStraight (e.code c) := by
  cases e with
  | mk first rest => exact allStraight_append.2 ⟨first.code_straight c, rest.code_straight c⟩
termination_by structural e

theorem Operations.code_straight (c : Context) (x : Operations) : AllStraight (x.code c) := by
  cases x with
  | nil => exact allStraight_nil
  | cons operator operand rest =>
    refine allStraight_append.2 ⟨operand.code_straight c, ?_⟩
    exact allStraight_cons.2 ⟨operator.command_straight, rest.code_straight c⟩
termination_by structural x

theorem Term.code_straight (c : Context) (e : Term) : AllStraight (e.code c) := by
  cases e with
  | integer value => exact allStraight_cons.2 ⟨rfl, allStraight_nil⟩
  | string text => exact stringCode_straight text
  | constant word => exact word.code_straight
  | variable_ name => exact c.load_straight name
  | element array index =>
    refine allStraight_append.2 ⟨c.load_straight array, ?_⟩
    refine allStraight_append.2 ⟨index.code_straight c, ?_⟩
    exact allStraight_cons.2 ⟨rfl, allStraight_cons.2 ⟨rfl, allStraight_cons.2
      ⟨rfl, allStraight_nil⟩⟩⟩
  | call call => exact call.code_straight c
  | group inner => exact inner.code_straight c
  | unary operator operand =>
    refine allStraight_append.2 ⟨operand.code_straight c, ?_⟩
    exact allStraight_cons.2 ⟨operator.command_straight, allStraight_nil⟩
termination_by structural e

theorem Call.code_straight (c : Context) (call : Call) : AllStraight (call.code c) := by
  have hend : ∀ callee arguments, AllStraight [.call callee arguments] :=
    fun _ _ => allStraight_cons.2 ⟨rfl, allStraight_nil⟩
  cases call with
  | own name arguments =>
    refine allStraight_cons.2 ⟨rfl, ?_⟩
    exact allStraight_append.2 ⟨arguments.code_straight c, hend _ _⟩
  | member owner name arguments =>
    rw [Call.code]
    cases c.lookup? owner with
    | some entry =>
      refine allStraight_cons.2 ⟨rfl, ?_⟩
      exact allStraight_append.2 ⟨arguments.code_straight c, hend _ _⟩
    | none => exact allStraight_append.2 ⟨arguments.code_straight c, hend _ _⟩
termination_by structural call

theorem Arguments.code_straight (c : Context) (x : Arguments) : AllStraight (x.code c) := by
  cases x with
  | nil => exact allStraight_nil
  | cons first rest => exact allStraight_append.2 ⟨first.code_straight c, rest.code_straight c⟩
termination_by structural x

end

/-! ### Assignments and calls -/

theorem assign_straight (c : Context) (k : Nat) (name : String) (value : Expression) :
    AllStraight ((Statement.assign name value).code c k) :=
  allStraight_append.2 ⟨value.code_straight c, c.store_straight name⟩

theorem assignElement_straight (c : Context) (k : Nat) (array : String)
    (index value : Expression) :
    AllStraight ((Statement.assignElement array index value).code c k) := by
  refine allStraight_append.2 ⟨c.load_straight array, ?_⟩
  refine allStraight_append.2 ⟨index.code_straight c, ?_⟩
  refine allStraight_cons.2 ⟨rfl, ?_⟩
  refine allStraight_append.2 ⟨value.code_straight c, ?_⟩
  simp [AllStraight, Command.isStraight]

theorem invoke_straight (c : Context) (k : Nat) (call : Call) :
    AllStraight ((Statement.invoke call).code c k) :=
  allStraight_append.2 ⟨call.code_straight c, allStraight_cons.2 ⟨rfl, allStraight_nil⟩⟩

/-! ### Statements and classes -/

/-- The statement is a choice or a loop. -/
def Statement.isBranch : Statement → Bool
  | .choice _ _ | .choiceElse _ _ _ | .loop _ _ => true
  | .assign _ _ | .assignElement _ _ _ | .invoke _ | .returnNothing | .returnValue _ => false

/-- The code of the blocks of a choice or loop with number `k`. -/
def Statement.blocksCode (c : Context) (k : Nat) : Statement → List Command
  | .choice _ body | .loop _ body => body.code c (k + 1)
  | .choiceElse _ body otherwise =>
    body.code c (k + 1) ++ otherwise.code c (k + 1 + body.branches)
  | .assign _ _ | .assignElement _ _ _ | .invoke _ | .returnNothing | .returnValue _ => []

theorem Statement.ownsLabels (c : Context) (k : Nat) (x : Statement) (h : x.isBranch = true) :
    OwnsLabels k (x.blocksCode c k) (x.code c k) := by
  cases x with
  | choice condition body =>
    have hcondition := condition.code_straight c
    constructor
    · rw [Statement.code, labels_guard hcondition, labels_append]
      exact List.perm_append_comm
    · rw [Statement.code, targets_guard hcondition, targets_append]
      exact List.perm_append_comm.cons _
  | choiceElse condition body otherwise =>
    have hcondition := condition.code_straight c
    constructor
    · rw [Statement.code, labels_guard hcondition, labels_append, labels_goto, labels_label,
        labels_append, Statement.blocksCode, labels_append]
      refine List.perm_middle.trans (List.Perm.cons _ ?_)
      rw [← List.append_assoc]
      exact List.perm_append_comm
    · have hend : targets [.label (labelName (2 * k + 1))] = [] := rfl
      rw [Statement.code, targets_guard hcondition, targets_append, targets_goto, targets_label,
        targets_append, Statement.blocksCode, targets_append, hend, List.append_nil]
      exact List.perm_middle.cons _
  | loop condition body =>
    have hcondition := condition.code_straight c
    constructor
    · rw [Statement.code, labels_label, labels_guard hcondition, labels_append]
      exact List.perm_append_comm.cons _
    · rw [Statement.code, targets_label, targets_guard hcondition, targets_append,
        ← List.cons_append]
      exact List.perm_append_comm
  | _ => cases h

mutual

theorem Statement.labelled (c : Context) (k : Nat) (x : Statement) :
    Labelled (2 * k) (2 * x.branches) (x.code c k) := by
  cases x with
  | assign name value => exact .straight (assign_straight c k name value)
  | assignElement array index value =>
    exact .straight (assignElement_straight c k array index value)
  | choice condition body =>
    exact (Statement.ownsLabels c k (.choice condition body) rfl).labelled (body.labelled c (k + 1))
  | choiceElse condition body otherwise =>
    have hblocks := (body.labelled c (k + 1)).append (otherwise.labelled c (k + 1 + body.branches))
    exact (Statement.ownsLabels c k (.choiceElse condition body otherwise) rfl).labelled hblocks
  | loop condition body =>
    exact (Statement.ownsLabels c k (.loop condition body) rfl).labelled (body.labelled c (k + 1))
  | invoke call => exact .straight (invoke_straight c k call)
  | returnNothing => exact ⟨List.Perm.refl [], List.Perm.refl []⟩
  | returnValue value =>
    have hvalue := value.code_straight c
    constructor
    · rw [Statement.code, labels_append, hvalue.labels_eq]
      exact List.Perm.refl []
    · rw [Statement.code, targets_append, hvalue.targets_eq]
      exact List.Perm.refl []
termination_by structural x

theorem Statements.labelled (c : Context) (k : Nat) (x : Statements) :
    Labelled (2 * k) (2 * x.branches) (x.code c k) := by
  cases x with
  | nil => exact .straight allStraight_nil
  | cons first rest => exact (first.labelled c k).append (rest.labelled c (k + first.branches))
termination_by structural x

end

mutual

theorem Statement.noFunction (c : Context) (k : Nat) (x : Statement) : NoFunction (x.code c k) := by
  cases x with
  | assign name value => exact (assign_straight c k name value).noFunction
  | assignElement array index value =>
    exact (assignElement_straight c k array index value).noFunction
  | choice condition body =>
    refine noFunction_append.2 ⟨(condition.code_straight c).noFunction, ?_⟩
    have hbody := body.noFunction c (k + 1)
    simpa [NoFunction] using hbody
  | choiceElse condition body otherwise =>
    refine noFunction_append.2 ⟨(condition.code_straight c).noFunction, ?_⟩
    have hbody := body.noFunction c (k + 1)
    have hotherwise := otherwise.noFunction c (k + 1 + body.branches)
    intro name locals
    simpa using ⟨hbody name locals, hotherwise name locals⟩
  | loop condition body =>
    have hcondition := (condition.code_straight c).noFunction
    have hbody := body.noFunction c (k + 1)
    intro name locals
    simpa [Statement.code] using ⟨hcondition name locals, hbody name locals⟩
  | invoke call => exact (invoke_straight c k call).noFunction
  | returnNothing => simp [NoFunction, Statement.code]
  | returnValue value =>
    refine noFunction_append.2 ⟨(value.code_straight c).noFunction, ?_⟩
    simp [NoFunction]
termination_by structural x

theorem Statements.noFunction (c : Context) (k : Nat) (x : Statements) :
    NoFunction (x.code c k) := by
  cases x with
  | nil => simp [NoFunction, Statements.code]
  | cons first rest =>
    exact noFunction_append.2 ⟨first.noFunction c k, rest.noFunction c (k + first.branches)⟩
termination_by structural x

end

theorem prologue_noFunction (fields : Nat) (kind : SubroutineKind) :
    NoFunction (prologue fields kind) := by
  cases kind <;> simp [NoFunction, prologue]

theorem Subroutine.labelled (c : Context) (k : Nat) (subroutine : Subroutine) :
    Labelled (2 * k) (2 * subroutine.body.branches) (subroutine.code c k) := by
  obtain ⟨hlabels, htargets⟩ := subroutine.body.labelled c k
  cases hkind : subroutine.kind <;> rw [Subroutine.code, hkind] <;> exact ⟨hlabels, htargets⟩

theorem numbered_labelled (tree : Class) (list : List Subroutine) (k : Nat) :
    Labelled (2 * k) (2 * subroutineBranches list)
      ((numbered k list).flatMap fun (k, subroutine) =>
        subroutine.code (subroutine.context tree) k) := by
  induction list generalizing k with
  | nil => exact .straight allStraight_nil
  | cons first rest ih =>
    exact (first.labelled (first.context tree) k).append (ih (k + first.body.branches))

theorem Class.labelled (tree : Class) :
    Labelled 0 (2 * subroutineBranches tree.subroutines) tree.code :=
  numbered_labelled tree tree.subroutines 0

theorem Class.uniqueLabels (tree : Class) : UniqueLabels tree.code :=
  uniqueLabels_of_nodup (tree.labelled.labels.nodup_iff.2 (nodup_labelNames _ _))

end Tree

end JackCompiler
