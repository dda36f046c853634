import JackCompiler.Build.FileTree
import Mathlib.Data.List.Nodup

/-!
Trees of files. Writing or removing a file changes what is found at one way and makes no directory
come or go, so that every other path still leads where it led.
-/

namespace JackCompiler

namespace FileTree

section Entries

variable (tree : FileTree) {way : List String}

@[simp] theorem get?_nil : tree.get? [] = some .directory :=
  if_pos rfl

theorem get?_of_ne_nil (h : way ≠ []) : tree.get? way = tree.entries.lookup way :=
  if_neg h

theorem ne_nil_of_not_directory (h : tree.isDirectory way = false) : way ≠ [] := by
  rintro rfl
  simp [isDirectory] at h

theorem lookup_replace (entries : List (List String × Entry)) (entry : Entry)
    (other : List String) :
    (entries.map fun old => if old.1 = way then (way, entry) else old).lookup other =
      if other = way then (entries.lookup way).map fun _ => entry else entries.lookup other := by
  induction entries with
  | nil => simp
  | cons old rest ih =>
    obtain ⟨key, value⟩ := old
    rw [List.map_cons]
    by_cases hkey : key = way
    · subst hkey
      by_cases hother : other = key
      · simp [hother]
      · simp [List.lookup_cons, hother, beq_false_of_ne hother, ih]
    · by_cases hother : other = way
      · subst hother
        simp [List.lookup_cons, hkey, beq_false_of_ne (Ne.symm hkey), ih]
      · simp [List.lookup_cons, hkey, hother, ih]

theorem lookup_remove (entries : List (List String × Entry)) (other : List String) :
    (entries.filter (·.1 ≠ way)).lookup other =
      if other = way then none else entries.lookup other := by
  induction entries with
  | nil => simp
  | cons old rest ih =>
    obtain ⟨key, value⟩ := old
    by_cases hkey : key = way
    · subst hkey
      rw [List.filter_cons_of_neg (by simp), ih]
      by_cases hother : other = key
      · simp [hother]
      · simp [List.lookup_cons, hother, beq_false_of_ne hother]
    · rw [List.filter_cons_of_pos (by simpa using hkey), List.lookup_cons, List.lookup_cons, ih]
      by_cases hother : other = way
      · subst hother
        simp [beq_false_of_ne (Ne.symm hkey)]
      · simp [hother]

/-- What is put at the end of a way is found there, and everything else where it was. -/
theorem get?_insert (hway : way ≠ []) (entry : Entry) (other : List String) :
    (tree.insert way entry).get? other = if other = way then some entry else tree.get? other := by
  by_cases hother : other = []
  · subst hother
    rw [get?_nil, get?_nil, if_neg (Ne.symm hway)]
  rw [get?_of_ne_nil _ hother, get?_of_ne_nil _ hother, insert]
  by_cases hany : tree.entries.any (·.1 = way) = true
  · rw [if_pos hany, lookup_replace]
    obtain ⟨found, hmem, hfound⟩ := List.any_eq_true.1 hany
    have hsome : (tree.entries.lookup way).isSome = true :=
      List.lookup_isSome_iff.2 ⟨found, hmem, beq_iff_eq.2 (of_decide_eq_true hfound).symm⟩
    obtain ⟨value, hvalue⟩ := Option.isSome_iff_exists.1 hsome
    rw [hvalue, Option.map_some]
  · rw [if_neg hany, List.lookup_append, List.lookup_cons]
    by_cases hsame : other = way
    · subst hsame
      have hnone : tree.entries.lookup other = none := by
        refine List.lookup_eq_none_iff.2 fun found hmem => bne_iff_ne.2 fun heq => hany ?_
        exact List.any_eq_true.2 ⟨found, hmem, decide_eq_true heq.symm⟩
      simp [hnone]
    · simp [beq_false_of_ne hsame, hsame]

theorem get?_erase (hway : way ≠ []) (other : List String) :
    (tree.erase way).get? other = if other = way then none else tree.get? other := by
  by_cases hother : other = []
  · subst hother
    rw [get?_nil, get?_nil, if_neg (Ne.symm hway)]
  rw [get?_of_ne_nil _ hother, get?_of_ne_nil _ hother, erase, lookup_remove]

end Entries

/-! ### Changes at one way -/

/-- The trees differ at the end of this way at most, and have the same directories. -/
structure Changes (way : List String) (tree after : FileTree) : Prop where
  get? : ∀ other, other ≠ way → after.get? other = tree.get? other
  isDirectory : ∀ other, after.isDirectory other = tree.isDirectory other

namespace Changes

variable {way : List String} {tree after last : FileTree}

theorem refl (way : List String) (tree : FileTree) : Changes way tree tree :=
  ⟨fun _ _ => rfl, fun _ => rfl⟩

theorem trans (h : Changes way tree after) (k : Changes way after last) : Changes way tree last :=
  ⟨fun other hother => (k.get? other hother).trans (h.get? other hother),
    fun other => (k.isDirectory other).trans (h.isDirectory other)⟩

/-- An entry that takes the place of no directory and is none. -/
theorem of_get? {entry : Option Entry} (hway : tree.isDirectory way = false)
    (hentry : entry ≠ some .directory)
    (hget : ∀ other, after.get? other = if other = way then entry else tree.get? other) :
    Changes way tree after := by
  refine ⟨fun other hother => by rw [hget, if_neg hother], fun other => ?_⟩
  rw [FileTree.isDirectory, hget]
  split
  · rename_i hsame
    rw [hsame, hway]
    exact decide_eq_false hentry
  · rfl

theorem insert (hway : tree.isDirectory way = false) (bytes : ByteArray) :
    Changes way tree (tree.insert way (.file bytes)) :=
  of_get? hway (by simp) (tree.get?_insert (tree.ne_nil_of_not_directory hway) (.file bytes))

theorem erase (hway : tree.isDirectory way = false) : Changes way tree (tree.erase way) :=
  of_get? hway (by simp) (tree.get?_erase (tree.ne_nil_of_not_directory hway))

end Changes

/-! ### Paths -/

section Paths

variable {tree after : FileTree}

theorem follow_append (way : List String) (x y : List String) :
    tree.follow way (x ++ y) = (tree.follow way x).bind fun reached => tree.follow reached y := by
  induction x generalizing way with
  | nil => rfl
  | cons step rest ih =>
    rw [List.cons_append, follow, follow]
    split
    · split
      · exact ih way
      · split
        · split
          · rfl
          · exact ih way.dropLast
        · exact ih (way ++ [step])
    · rfl

/-- Where a path leads depends on the directories alone. -/
theorem follow_congr (h : ∀ way, after.isDirectory way = tree.isDirectory way)
    (way steps : List String) : after.follow way steps = tree.follow way steps := by
  induction steps generalizing way with
  | nil => rfl
  | cons step rest ih =>
    rw [follow, follow, h, ih, ih, ih]

theorem resolve?_congr (h : ∀ way, after.isDirectory way = tree.isDirectory way) (path : String) :
    after.resolve? path = tree.resolve? path := by
  unfold resolve?
  split
  · rfl
  · rfl
  · exact follow_congr h [] (steps path)

theorem stepsFrom_slash (step x y : List Char) :
    stepsFrom step (x ++ '/' :: y) = stepsFrom step x ++ stepsFrom [] y := by
  induction x generalizing step with
  | nil => rfl
  | cons c rest ih =>
    by_cases hslash : c = '/'
    · subst hslash
      rw [List.cons_append, stepsFrom, ih, stepsFrom]
      rfl
    · rw [List.cons_append, stepsFrom.eq_3 _ _ _ (by simpa using hslash), ih,
        stepsFrom.eq_3 _ _ _ (by simpa using hslash)]

theorem stepsFrom_of_not_mem (step : List Char) {x : List Char} (h : '/' ∉ x) :
    stepsFrom step x = [String.ofList (step.reverse ++ x)] := by
  induction x generalizing step with
  | nil => rw [List.append_nil, stepsFrom]
  | cons c rest ih =>
    rw [List.mem_cons, not_or] at h
    rw [stepsFrom.eq_3 _ _ _ (by simpa [eq_comm] using h.1), ih _ h.2]
    simp

/-- The spelling of a directory that the name of a file can follow. -/
def IsFolder (folder : String) : Prop :=
  folder = "" ∨ ∃ path, folder = path ++ "/"

/-- A name that is one step to an entry. -/
structure IsName (name : String) : Prop where
  noSlash : '/' ∉ name.toList
  ne_empty : name ≠ ""
  ne_here : name ≠ "."
  ne_back : name ≠ ".."

instance (name : String) : Decidable (IsName name) :=
  decidable_of_iff ('/' ∉ name.toList ∧ name ≠ "" ∧ name ≠ "." ∧ name ≠ "..")
    ⟨fun ⟨hslash, hempty, hhere, hback⟩ => ⟨hslash, hempty, hhere, hback⟩,
      fun h => ⟨h.noSlash, h.ne_empty, h.ne_here, h.ne_back⟩⟩

/-- The way to the directory that is spelled like this. -/
def directoryOf? (tree : FileTree) (folder : String) : Option (List String) :=
  if folder.toList.head? = some '/' then none
  else (tree.follow [] (steps folder).dropLast).filter tree.isDirectory

theorem steps_append {folder name : String} (hfolder : IsFolder folder) (hname : IsName name) :
    steps (folder ++ name) = (steps folder).dropLast ++ [name] := by
  have hsteps : steps name = [name] := by
    rw [steps, stepsFrom_of_not_mem [] hname.noSlash, List.reverse_nil, List.nil_append,
      String.ofList_toList]
  rcases hfolder with rfl | ⟨path, rfl⟩
  · rw [String.empty_append, hsteps]
    rfl
  · have hleft : (path ++ "/" ++ name).toList = path.toList ++ '/' :: name.toList := by simp
    have hright : (path ++ "/").toList = path.toList ++ '/' :: [] := by simp
    rw [steps, hleft, stepsFrom_slash, steps, hright, stepsFrom_slash, ← steps, ← steps, hsteps,
      show stepsFrom [] [] = [""] from rfl, List.dropLast_concat]

theorem follow_name (way : List String) {name : String} (h : IsName name) :
    tree.follow way [name] = if tree.isDirectory way then some (way ++ [name]) else none := by
  rw [follow, if_neg (not_or.2 ⟨h.ne_empty, h.ne_here⟩), if_neg h.ne_back, follow]

theorem resolve?_of_head {path : String} {c : Char} (h : path.toList.head? = some c) :
    tree.resolve? path = if c = '/' then none else tree.follow [] (steps path) := by
  unfold resolve?
  obtain ⟨rest, hpath⟩ := List.head?_eq_some_iff.1 h
  rw [hpath]
  by_cases hslash : c = '/'
  · subst hslash
    rfl
  · rw [if_neg hslash]
    split
    · rename_i hnil
      cases hnil
    · rename_i heq
      exact absurd (List.cons.inj heq).1 hslash
    · rfl

/-- A file is found in the directory that is spelled in front of its name. -/
theorem resolve?_append {folder name : String} (hfolder : IsFolder folder) (hname : IsName name) :
    tree.resolve? (folder ++ name) = (tree.directoryOf? folder).map (· ++ [name]) := by
  have hfollow : tree.follow [] (steps (folder ++ name)) =
      ((tree.follow [] (steps folder).dropLast).filter tree.isDirectory).map (· ++ [name]) := by
    rw [steps_append hfolder hname, follow_append]
    cases tree.follow [] (steps folder).dropLast with
    | none => rfl
    | some way =>
      rw [Option.bind_some, follow_name way hname, Option.filter_some]
      split <;> rfl
  have hhead : ∃ c, (folder ++ name).toList.head? = some c ∧
      (c = '/' ↔ folder.toList.head? = some '/') := by
    rw [String.toList_append]
    cases hchars : folder.toList with
    | nil =>
      obtain ⟨c, rest, hrest⟩ := List.exists_cons_of_ne_nil
        (fun hnil => hname.ne_empty (String.toList_eq_nil_iff.1 hnil))
      rw [hrest]
      refine ⟨c, rfl, fun hslash => ?_, fun hnone => by cases hnone⟩
      exact absurd (hslash ▸ hrest ▸ List.mem_cons_self) hname.noSlash
    | cons c rest => exact ⟨c, rfl, by simp⟩
  obtain ⟨c, hc, hslash⟩ := hhead
  rw [resolve?_of_head hc, directoryOf?, hfollow]
  by_cases h : c = '/'
  · rw [if_pos h, if_pos (hslash.1 h), Option.map_none]
  · rw [if_neg h, if_neg (fun k => h (hslash.2 k))]

theorem steps_slash (path : String) : steps (path ++ "/") = steps path ++ [""] := by
  have hchars : (path ++ "/").toList = path.toList ++ '/' :: [] := by simp
  rw [steps, hchars, stepsFrom_slash]
  rfl

theorem follow_empty (way : List String) :
    tree.follow way [""] = if tree.isDirectory way then some way else none := by
  rw [follow, if_pos (Or.inl rfl : "" = "" ∨ "" = "."), follow]

theorem head?_slash {path : String} {way : List String} (h : tree.resolve? path = some way) :
    path.toList ≠ [] ∧ path.toList.head? ≠ some '/' ∧ tree.follow [] (steps path) = some way := by
  unfold resolve? at h
  split at h
  · cases h
  · cases h
  · rename_i hne hslash
    refine ⟨hne, fun hhead => ?_, h⟩
    obtain ⟨rest, hrest⟩ := List.head?_eq_some_iff.1 hhead
    exact hslash rest hrest

/-- A path to a directory spells it, with a slash behind it if there is none. -/
theorem directoryOf?_of_resolve? {path : String} {way : List String}
    (h : tree.resolve? path = some way) (hdirectory : tree.isDirectory way = true) :
    tree.directoryOf? (path ++ "/") = some way ∧
      ((∃ shorter, path = shorter ++ "/") → tree.directoryOf? path = some way) := by
  obtain ⟨hne, hhead, hfollow⟩ := head?_slash h
  constructor
  · have hlonger : (path ++ "/").toList.head? = path.toList.head? := by
      rw [String.toList_append, List.head?_append_of_ne_nil _ hne]
    rw [directoryOf?, hlonger, if_neg hhead, steps_slash, List.dropLast_concat, hfollow,
      Option.filter_some, if_pos hdirectory]
  · rintro ⟨shorter, rfl⟩
    rw [directoryOf?, if_neg hhead, steps_slash, List.dropLast_concat]
    rw [steps_slash, follow_append] at hfollow
    obtain ⟨reached, hreached, hstep⟩ := Option.bind_eq_some_iff.1 hfollow
    rw [follow_empty] at hstep
    split at hstep
    · cases hstep
      rw [hreached, Option.filter_some, if_pos hdirectory]
    · cases hstep

end Paths

/-! ### Proper trees -/

/-- Every way is spelled with names and has one entry. -/
structure Proper (tree : FileTree) : Prop where
  nodup : (tree.entries.map Prod.fst).Nodup
  names : ∀ entry ∈ tree.entries, ∀ name ∈ entry.1, IsName name

namespace Proper

variable {tree : FileTree} {way : List String}

theorem empty : Proper ⟨[]⟩ :=
  ⟨List.nodup_nil, List.forall_mem_nil _⟩

theorem insert (h : tree.Proper) (hway : ∀ name ∈ way, IsName name) (entry : Entry) :
    (tree.insert way entry).Proper := by
  unfold FileTree.insert
  split
  · have hkeys : (tree.entries.map fun old => if old.1 = way then (way, entry) else old).map
        Prod.fst = tree.entries.map Prod.fst := by
      rw [List.map_map]
      apply List.map_congr_left
      intro old _
      by_cases hold : old.1 = way
      · simp [hold]
      · simp [hold]
    refine ⟨hkeys ▸ h.nodup, fun found hmem => ?_⟩
    obtain ⟨old, hold, rfl⟩ := List.mem_map.1 hmem
    split
    · exact hway
    · exact h.names old hold
  · rename_i hnone
    have hfresh : way ∉ tree.entries.map Prod.fst := by
      intro hmem
      obtain ⟨old, hold, hsame⟩ := List.mem_map.1 hmem
      exact hnone (List.any_eq_true.2 ⟨old, hold, decide_eq_true hsame⟩)
    refine ⟨?_, fun found hmem => ?_⟩
    · rw [List.map_append]
      exact List.Nodup.append h.nodup (List.nodup_singleton _) (by simpa using hfresh)
    · rcases List.mem_append.1 hmem with hold | hnew
      · exact h.names found hold
      · rw [List.mem_singleton.1 hnew]
        exact hway

theorem plantBelow {rest : List String} (h : tree.Proper) (hway : ∀ name ∈ way, IsName name)
    (hrest : ∀ name ∈ rest, IsName name) (entry : Entry) :
    (tree.plantBelow way rest entry).Proper := by
  induction rest generalizing tree way with
  | nil =>
    rw [FileTree.plantBelow]
    exact h
  | cons name rest ih =>
    obtain ⟨hname, hlater⟩ := List.forall_mem_cons.1 hrest
    have hlonger : ∀ other ∈ way ++ [name], IsName other :=
      List.forall_mem_append.2 ⟨hway, List.forall_mem_singleton.2 hname⟩
    unfold FileTree.plantBelow
    split
    · rename_i heq
      cases heq
    · rename_i heq
      obtain ⟨rfl, -⟩ := List.cons.inj heq
      exact h.insert hlonger _
    · rename_i heq hfile
      obtain ⟨rfl, rfl⟩ := List.cons.inj heq
      refine ih ?_ hlonger hlater
      split
      · exact h
      · exact h.insert hlonger .directory

/-- Every tree that is planted with proper names is proper. -/
theorem plant (h : tree.Proper) (hway : ∀ name ∈ way, IsName name) (entry : Entry) :
    (tree.plant way entry).Proper :=
  h.plantBelow (List.forall_mem_nil _) hway entry

/-- The name of a way that ends directly inside the directory. -/
theorem eq_of_name {directory : List String} {name : String}
    (h : (if way.dropLast = directory then way.getLast? else none) = some name) :
    way = directory ++ [name] := by
  split at h
  · rename_i hdirectory
    obtain ⟨init, rfl⟩ := List.getLast?_eq_some_iff.1 h
    rw [← hdirectory, List.dropLast_concat]
  · cases h

theorem mem_names {directory : List String} {name : String} :
    name ∈ tree.names directory ↔ (tree.get? (directory ++ [name])).isSome = true := by
  have hway : directory ++ [name] ≠ [] := by simp
  rw [tree.get?_of_ne_nil hway, List.lookup_isSome_iff, FileTree.names, List.mem_filterMap]
  constructor
  · rintro ⟨⟨way, entry⟩, hmem, hname⟩
    exact ⟨_, hmem, beq_iff_eq.2 (eq_of_name hname).symm⟩
  · rintro ⟨⟨way, entry⟩, hmem, hsame⟩
    obtain rfl := beq_iff_eq.1 hsame
    exact ⟨_, hmem, by simp⟩

/-- Whatever is found in a directory has a name. -/
theorem isName (h : tree.Proper) {directory : List String} {name : String}
    (hmem : name ∈ tree.names directory) : IsName name := by
  rw [mem_names, tree.get?_of_ne_nil (by simp), List.lookup_isSome_iff] at hmem
  obtain ⟨entry, hentry, hsame⟩ := hmem
  exact h.names entry hentry name (by rw [← beq_iff_eq.1 hsame]; simp)

theorem nodup_names (h : tree.Proper) (directory : List String) :
    (tree.names directory).Nodup := by
  refine List.pairwise_filterMap.2 ((List.pairwise_map.1 h.nodup).imp ?_)
  rintro ⟨way, entry⟩ ⟨other, otherEntry⟩ hne name hname last hlast rfl
  exact hne ((eq_of_name hname).trans (eq_of_name hlast).symm)

end Proper

end FileTree

/-! ### Sessions -/

namespace Session

/-- A run from one session to another, with its answer. -/
def Runs {α : Type} (x : StateM Session α) (before : Session) (answer : α) (after : Session) :
    Prop :=
  x.run before = (answer, after)

section Runs

variable {α β : Type} {before middle after : Session}

theorem Runs.pure (a : α) (before : Session) :
    Runs (Pure.pure a : StateM Session α) before a before :=
  rfl

theorem Runs.bind {x : StateM Session α} {f : α → StateM Session β} {a : α} {b : β}
    (h : Runs x before a middle) (k : Runs (f a) middle b after) :
    Runs (x >>= f) before b after := by
  rw [Runs, StateT.run_bind, h]
  exact k

theorem Runs.filterAuxM {test : α → StateM Session Bool} {passes : α → Bool} {session : Session}
    (h : ∀ a, Runs (test a) session (passes a) session) (l kept : List α) :
    Runs (l.filterAuxM test kept) session ((l.filter passes).reverse ++ kept) session := by
  induction l generalizing kept with
  | nil => exact Runs.pure kept session
  | cons a rest ih =>
    refine Runs.bind (h a) ?_
    cases hpasses : passes a with
    | true => simpa [hpasses] using ih (a :: kept)
    | false => simpa [hpasses] using ih kept

/-- A test that changes nothing picks out what passes it. -/
theorem Runs.filterM {test : α → StateM Session Bool} {passes : α → Bool} {session : Session}
    (h : ∀ a, Runs (test a) session (passes a) session) (l : List α) :
    Runs (l.filterM test) session (l.filter passes) session := by
  refine Runs.bind (Runs.filterAuxM h l []) ?_
  rw [List.append_nil, List.reverse_reverse]
  exact Runs.pure _ session

end Runs

end Session

end JackCompiler
