import JackCompiler.Proofs.Acceptance
import JackCompiler.Proofs.BodyCommands
import JackCompiler.Proofs.Labels
import Mathlib.Data.List.Forall2

/-!
Places in storage. The code of a class has one block for each subroutine, in order, and no block
refers to a place that its subroutine or the class does not declare.
-/

namespace JackCompiler

/-- The place that a command reads or writes. -/
def Command.place? : Command → Option (Segment × Nat)
  | push segment i | pop segment i => some (segment, i)
  | operate _ | label _ | goto _ | ifGoto _ | call _ _ | function _ _ | ret => none

namespace Tree

/-- The subroutine has this place. Its arguments include the hidden receiver of a method, and next
to its variables and those of the class there are only a few places for intermediate values. -/
def Subroutine.Has (tree : Class) (subroutine : Subroutine) : Segment → Nat → Prop
  | .local_, i => i < subroutine.localNames.length
  | .argument, i =>
    i < subroutine.argumentNames.length + if subroutine.kind = .method then 1 else 0
  | .this, i => i < (tree.names .field).length
  | .static, i => i < (tree.names .static).length
  | .pointer, i => i = 0 ∨ i = 1
  | .temp, i | .that, i => i = 0
  | .constant, _ => True

/-- The block is the code of one function, which has as many local variables as the subroutine and
refers to places of the subroutine only. A constructor asks for room for all fields. -/
structure Subroutine.StoresIn (tree : Class) (block : List Command) (subroutine : Subroutine) :
    Prop where
  function : ∃ body, NoFunction body ∧
    block = .function (tree.name ++ "." ++ subroutine.name) subroutine.localNames.length :: body
  fields : subroutine.kind = .constructor → ∃ body,
    block = .function (tree.name ++ "." ++ subroutine.name) subroutine.localNames.length ::
      .push .constant (tree.names .field).length :: .call "Memory.alloc" 1 :: .pop .pointer 0 ::
        body
  places : ∀ command ∈ block, ∀ segment i, command.place? = some (segment, i) →
    subroutine.Has tree segment i

variable {tree : Class} {subroutine : Subroutine} {segment : Segment} {i : Nat}

/-! ### Variables -/

theorem Subroutine.context_sorted (tree : Class) (subroutine : Subroutine) :
    (subroutine.context tree).Sorted where
  ofClass declaration hmem := tree.inClass_declarations declaration (List.mem_reverse.1 hmem)
  ofSubroutine declaration hmem :=
    subroutine.inClass_declarations tree.name declaration (List.mem_reverse.1 hmem)

/-- Every variable is in a place of the subroutine. -/
theorem Subroutine.has_of_stores (h : (subroutine.context tree).Stores segment i) :
    subroutine.Has tree segment i := by
  obtain ⟨name, ⟨type, kind, index⟩, hentry, rfl, rfl⟩ := h
  have hindex := Context.index_lt (subroutine.context_sorted tree) hentry
  cases kind with
  | static =>
    have hcount : (subroutine.context tree).count .static = _ := tree.count_static
    rwa [hcount] at hindex
  | field =>
    have hcount : (subroutine.context tree).count .field = _ := tree.count_field
    rwa [hcount] at hindex
  | argument => rwa [subroutine.count_context_argument] at hindex
  | local_ => rwa [subroutine.count_context_local] at hindex

/-! ### Blocks -/

theorem Subroutine.has_of_inBody {lexemes : List Lexeme} {command : Command}
    (h : command.InBody (subroutine.context tree) lexemes)
    (hplace : command.place? = some (segment, i)) : subroutine.Has tree segment i := by
  cases command with
  | push segment' i' =>
    cases hplace
    cases segment with
    | constant => trivial
    | pointer => exact Or.inl h
    | that => exact h
    | temp => exact h
    | _ => exact has_of_stores h
  | pop segment' i' =>
    cases hplace
    cases segment with
    | constant => trivial
    | pointer => exact Or.inr h
    | that => exact h
    | temp => exact h
    | _ => exact has_of_stores h
  | _ => cases hplace

theorem Subroutine.has_of_prologue {fields : Nat} {command : Command}
    (h : command ∈ prologue fields subroutine.kind) (hplace : command.place? = some (segment, i)) :
    subroutine.Has tree segment i := by
  cases hkind : subroutine.kind with
  | constructor =>
    rw [hkind] at h
    simp only [prologue, List.mem_cons, List.not_mem_nil, or_false] at h
    rcases h with rfl | rfl | rfl
    · cases hplace
      trivial
    · cases hplace
    · cases hplace
      exact Or.inl rfl
  | method =>
    rw [hkind] at h
    simp only [prologue, List.mem_cons, List.not_mem_nil, or_false] at h
    rcases h with rfl | rfl
    · cases hplace
      simp [Has, hkind]
    · cases hplace
      exact Or.inl rfl
  | function =>
    rw [hkind] at h
    cases h

theorem Subroutine.storesIn_code (hallowed : subroutine.Allowed tree) (k : Nat) :
    subroutine.StoresIn tree (subroutine.code (subroutine.context tree) k) := by
  have hfields : (subroutine.context tree).count .field = (tree.names .field).length :=
    tree.count_field
  have hbody := subroutine.body.code_inBody (List.Subset.refl _) hallowed.2 k
  rw [Subroutine.code, subroutine.count_context_local, hfields]
  refine ⟨⟨_, ?_, rfl⟩, ?_, ?_⟩
  · exact noFunction_append.2 ⟨prologue_noFunction _ _, subroutine.body.noFunction _ k⟩
  · intro hkind
    rw [hkind]
    exact ⟨_, rfl⟩
  · intro command hmem segment i hplace
    rcases List.mem_cons.1 hmem with rfl | hmem
    · cases hplace
    · rcases List.mem_append.1 hmem with hprologue | hcode
      · exact has_of_prologue hprologue hplace
      · exact has_of_inBody (hbody command hcode) hplace

/-- What holds of the code of every subroutine, whatever its number, holds of all of them in
order. -/
theorem forall₂_numbered {R : List Command → Subroutine → Prop}
    {code : Nat → Subroutine → List Command} {list : List Subroutine}
    (h : ∀ subroutine ∈ list, ∀ k, R (code k subroutine) subroutine) (n : Nat) :
    List.Forall₂ R ((numbered n list).map fun (k, subroutine) => code k subroutine) list := by
  induction list generalizing n with
  | nil => exact .nil
  | cons first rest ih =>
    obtain ⟨hfirst, hrest⟩ := List.forall_mem_cons.1 h
    exact .cons (hfirst n) (ih hrest (n + first.body.branches))

/-- The code is one block for each subroutine, in order, and every place that a block refers to is
one that the subroutine or the class declares. -/
def Class.StoredIn (tree : Class) (code : List Command) : Prop :=
  ∃ blocks : List (List Command), code = blocks.flatten ∧
    List.Forall₂ (Subroutine.StoresIn tree) blocks tree.subroutines

theorem Class.storedIn_code {tree : Class} (hallowed : tree.Allowed) :
    tree.StoredIn tree.code :=
  ⟨_, List.flatMap_def, forall₂_numbered (fun subroutine hmem k =>
    Subroutine.storesIn_code (hallowed.2 subroutine hmem) k) 0⟩

end Tree

/-- The output of a text that compiles has one block for each subroutine, in order, and every place
that a block refers to is one that the subroutine or the class declares. -/
theorem storage_of_compile (source : String) (h : ((compile source).deliver {}).failure = none) :
    ∃ tree : Tree.Class, Scans source tree.yield ∧
      ∃ blocks : List (List Command), (compile source).commands = blocks.flatten ∧
        List.Forall₂ (Tree.Subroutine.StoresIn tree) blocks tree.subroutines := by
  obtain ⟨tree, hscans, hallowed, hcommands⟩ := tree_of_delivered h
  refine ⟨tree, hscans, ?_⟩
  rw [hcommands]
  exact Tree.Class.storedIn_code hallowed

theorem storage_of_compile_rowClass :
    ((compile rowClass).deliver {}).failure = none ∧
      ∃ tree : Tree.Class, Scans rowClass tree.yield ∧
        ∃ blocks : List (List Command), (compile rowClass).commands = blocks.flatten ∧
          List.Forall₂ (Tree.Subroutine.StoresIn tree) blocks tree.subroutines :=
  ⟨rowClass_compiles, storage_of_compile rowClass rowClass_compiles⟩

end JackCompiler
