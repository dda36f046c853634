import JackCompiler.Proofs.Branches

/-!
Labels and jumps of a whole output. The labels are numbered without gaps in the order in which
choices and loops start in the text. Each is the target of one jump, which is in the same function,
and no jump goes anywhere else.
-/

namespace JackCompiler

/-- The command at this place jumps to the label of this name. -/
def JumpsAt (code : List Command) (place : Nat) (name : String) : Prop :=
  code[place]? = some (.goto name) ∨ code[place]? = some (.ifGoto name)

/-- The code has so many labels, numbered from 0 on. Each jump arrives at one of them, and each of
them is the target of one jump. -/
structure WellLabelled (count : Nat) (code : List Command) : Prop
    extends Labelled 0 count code where
  target_exists : ∀ place name, JumpsAt code place name →
    ∃ target, JumpsTo code place name target
  jump_exists : ∀ target name, code[target]? = some (.label name) →
    ∃ place, JumpsAt code place name ∧ JumpsTo code place name target
  jump_unique : ∀ i j name, JumpsAt code i name → JumpsAt code j name → i = j

variable {code body : List Command} {a i : Nat} {name : String}

theorem mem_labels_iff : name ∈ labels code ↔ ∃ i : Nat, code[i]? = some (.label name) := by
  constructor
  · intro h
    obtain ⟨command, hmem, hname⟩ := List.mem_filterMap.1 h
    split at hname <;> cases hname
    exact List.mem_iff_getElem?.1 hmem
  · rintro ⟨i, hi⟩
    exact List.mem_filterMap.2 ⟨_, List.mem_of_getElem? hi, rfl⟩

theorem mem_targets_iff : name ∈ targets code ↔ ∃ i : Nat, JumpsAt code i name := by
  constructor
  · intro h
    obtain ⟨command, hmem, hname⟩ := List.mem_filterMap.1 h
    obtain ⟨i, hi⟩ := List.mem_iff_getElem?.1 hmem
    split at hname <;> cases hname
    · exact ⟨i, .inl hi⟩
    · exact ⟨i, .inr hi⟩
  · rintro ⟨i, hi | hi⟩
    · exact List.mem_filterMap.2 ⟨_, List.mem_of_getElem? hi, rfl⟩
    · exact List.mem_filterMap.2 ⟨_, List.mem_of_getElem? hi, rfl⟩

theorem JumpsAt.unique {j : Nat} (h : (targets code).Nodup) (hi : JumpsAt code i name)
    (hj : JumpsAt code j name) : i = j := by
  rcases hi with hi | hi <;> rcases hj with hj | hj <;> exact place_unique h hi hj rfl rfl

theorem JumpsAt.lt_length (h : JumpsAt code i name) : i < code.length := by
  rcases h with h | h
  · exact (List.getElem?_eq_some_iff.1 h).1
  · exact (List.getElem?_eq_some_iff.1 h).1

/-! ### One function -/

theorem CodeAt.jumpsAt_iff (h : CodeAt code a body) (hi : i < body.length) :
    JumpsAt code (a + i) name ↔ JumpsAt body i name := by
  rw [JumpsAt, JumpsAt, h.getElem? hi]

/-- A label of a function is reached by its jumps. -/
theorem CodeAt.jumpsTo (h : CodeAt code a body) (hfree : NoFunction body) {j : Nat}
    (hi : i < body.length) (hj : body[j]? = some (.label name)) :
    JumpsTo code (a + i) name (a + j) := by
  have hlength : j < body.length := (List.getElem?_eq_some_iff.1 hj).1
  refine ⟨(h.getElem? hlength).trans hj, ?_⟩
  exact (h.functionFree hfree).sameFunction (by omega) (by omega)

/-- The code of one function after its first command, with all labels that it jumps to. -/
structure FunctionBody (body : List Command) : Prop where
  noFunction : NoFunction body
  targets_perm : (targets body).Perm (labels body)

theorem FunctionBody.target_exists (hbody : FunctionBody body) (h : CodeAt code a body)
    (hi : JumpsAt body i name) : ∃ target, JumpsTo code (a + i) name target := by
  have hmem : name ∈ labels body := hbody.targets_perm.mem_iff.1 (mem_targets_iff.2 ⟨i, hi⟩)
  obtain ⟨j, hj⟩ := mem_labels_iff.1 hmem
  exact ⟨a + j, h.jumpsTo hbody.noFunction hi.lt_length hj⟩

theorem FunctionBody.jump_exists (hbody : FunctionBody body) (h : CodeAt code a body)
    (hi : body[i]? = some (.label name)) :
    ∃ place, JumpsAt code place name ∧ JumpsTo code place name (a + i) := by
  have hmem : name ∈ targets body := hbody.targets_perm.mem_iff.2 (mem_labels_iff.2 ⟨i, hi⟩)
  obtain ⟨j, hj⟩ := mem_targets_iff.1 hmem
  exact ⟨a + j, (h.jumpsAt_iff hj.lt_length).2 hj, h.jumpsTo hbody.noFunction hj.lt_length hi⟩

/-! ### All functions -/

/-- Every command of blocks of code stands in one of them. -/
theorem exists_block {α : Type} {f : α → List Command} {list : List α} {place : Nat}
    {command : Command} (h : (list.flatMap f)[place]? = some command) :
    ∃ x ∈ list, ∃ a i, CodeAt (list.flatMap f) a (f x) ∧ place = a + i ∧
      (f x)[i]? = some command := by
  induction list generalizing place with
  | nil => simp at h
  | cons first rest ih =>
    rw [List.flatMap_cons] at h ⊢
    by_cases hlt : place < (f first).length
    · rw [List.getElem?_append_left hlt] at h
      refine ⟨first, List.mem_cons_self, 0, place, ?_, (Nat.zero_add place).symm, h⟩
      exact ⟨[], rest.flatMap f, rfl, rfl⟩
    · have hle : (f first).length ≤ place := Nat.le_of_not_lt hlt
      rw [List.getElem?_append_right hle] at h
      obtain ⟨x, hmem, a, i, ⟨before, after, hcode, hbefore⟩, hplace, hi⟩ := ih h
      refine ⟨x, List.mem_cons_of_mem _ hmem, (f first).length + a, i, ?_, by omega, hi⟩
      refine ⟨f first ++ before, after, ?_, by rw [List.length_append, hbefore]⟩
      rw [hcode, List.append_assoc]

namespace Tree

/-- The code of a subroutine after its first command. -/
theorem Subroutine.functionBody (c : Context) (k : Nat) (subroutine : Subroutine) :
    FunctionBody (prologue (c.count .field) subroutine.kind ++ subroutine.body.code c k) where
  noFunction := noFunction_append.2 ⟨prologue_noFunction _ _, subroutine.body.noFunction c k⟩
  targets_perm := (subroutine.labelled c k).targets.trans (subroutine.labelled c k).labels.symm

/-- A command of a class that starts no function is in the body of one. -/
theorem Class.exists_functionBody {tree : Class} {place : Nat} {command : Command}
    (h : tree.code[place]? = some command) (hnot : ∀ name n, command ≠ .function name n) :
    ∃ body a i, FunctionBody body ∧ CodeAt tree.code a body ∧ place = a + i ∧
      body[i]? = some command := by
  obtain ⟨⟨k, subroutine⟩, -, a, i, hcode, rfl, hi⟩ := exists_block h
  -- the first command of a block is the one that starts its function
  cases i with
  | zero => exact absurd (Option.some.inj hi).symm (hnot _ _)
  | succ i =>
    exact ⟨_, a + 1, i, subroutine.functionBody _ k, hcode.tail, by omega, hi⟩

theorem Class.wellLabelled (tree : Class) :
    WellLabelled (2 * subroutineBranches tree.subroutines) tree.code where
  toLabelled := tree.labelled
  target_exists := by
    rintro place name (hplace | hplace)
    · obtain ⟨body, a, i, hbody, hcode, rfl, hi⟩ :=
        exists_functionBody hplace (fun _ _ h => by cases h)
      exact hbody.target_exists hcode (.inl hi)
    · obtain ⟨body, a, i, hbody, hcode, rfl, hi⟩ :=
        exists_functionBody hplace (fun _ _ h => by cases h)
      exact hbody.target_exists hcode (.inr hi)
  jump_exists := by
    intro target name htarget
    obtain ⟨body, a, i, hbody, hcode, rfl, hi⟩ :=
      exists_functionBody htarget (fun _ _ h => by cases h)
    exact hbody.jump_exists hcode hi
  jump_unique := by
    intro i j name hi hj
    exact hi.unique (tree.labelled.targets.nodup_iff.2 (nodup_labelNames _ _)) hj

/-- What starts with these lexemes in the text of the class is its choice or loop number `j`. The
code of this statement stands among the commands, and its own labels are `2 * j` and `2 * j + 1`. -/
def Class.OwnsLabelsAt (tree : Class) (commands : List Command) (j : Nat)
    (lexemes : List Lexeme) : Prop :=
  ∃ k subroutine statement rest tail place, (k, subroutine) ∈ numbered 0 tree.subroutines ∧
    Inside k subroutine.body j (.cons statement rest) ∧ lexemes = statement.yield ++ tail ∧
    CodeAt commands place (statement.code (subroutine.context tree) j) ∧
    OwnsLabels j (statement.blocksCode (subroutine.context tree) j)
      (statement.code (subroutine.context tree) j)

theorem Class.ownsLabelsAt (tree : Class) {lexeme : Lexeme} {before after : List Lexeme}
    (h : tree.yield = before ++ lexeme :: after) (hlexeme : lexeme.isBranch = true) :
    tree.OwnsLabelsAt tree.code (before.countP Lexeme.isBranch) (lexeme :: after) := by
  obtain ⟨k, subroutine, hmem, statement, rest, tail, hbranch, hinside, hlexemes⟩ :=
    tree.startsAt hlexeme h
  obtain ⟨start, hstart⟩ := tree.codeAt hmem
  obtain ⟨place, hcode, -, -⟩ := hinside.codeAt_subroutine hstart
  exact ⟨k, subroutine, statement, rest, tail, place, hmem, hinside, hlexemes, CodeAt.left hcode,
    statement.ownsLabels _ _ hbranch⟩

end Tree

/-- The labels of an output are numbered from 0 on, two for each keyword of the text that starts a
choice or loop. The statement at a keyword owns the two whose numbers follow from how many such
keywords come before it. Each label has one jump to it, in its function, and there are no other
jumps. -/
theorem labels_of_compile (source : String) (h : ((compile source).deliver {}).failure = none) :
    ∃ tree : Tree.Class, Scans source tree.yield ∧
      tree.yield.countP Lexeme.isBranch = Tree.subroutineBranches tree.subroutines ∧
      WellLabelled (2 * tree.yield.countP Lexeme.isBranch) (compile source).commands ∧
      ∀ before lexeme after, tree.yield = before ++ lexeme :: after → lexeme.isBranch = true →
        tree.OwnsLabelsAt (compile source).commands (before.countP Lexeme.isBranch)
          (lexeme :: after) := by
  obtain ⟨tree, hscans, -, hcommands⟩ := tree_of_delivered h
  refine ⟨tree, hscans, tree.countP_yield, ?_, ?_⟩
  · rw [tree.countP_yield, hcommands]
    exact tree.wellLabelled
  · intro before lexeme after hyield hlexeme
    rw [hcommands]
    exact tree.ownsLabelsAt hyield hlexeme

theorem labels_of_compile_rowClass :
    ((compile rowClass).deliver {}).failure = none ∧
      ∃ tree : Tree.Class, Scans rowClass tree.yield ∧
        tree.yield.countP Lexeme.isBranch = Tree.subroutineBranches tree.subroutines ∧
        WellLabelled (2 * tree.yield.countP Lexeme.isBranch) (compile rowClass).commands ∧
        ∀ before lexeme after, tree.yield = before ++ lexeme :: after → lexeme.isBranch = true →
          tree.OwnsLabelsAt (compile rowClass).commands (before.countP Lexeme.isBranch)
            (lexeme :: after) :=
  ⟨rowClass_compiles, labels_of_compile rowClass rowClass_compiles⟩

end JackCompiler
