import JackCompiler.Scopes

/-!
What declarations mean. Of all declarations in a scope, the last one of a name says which variable
the name is, and the variable has as its number how many declarations of its kind come before. The
scopes that are kept while a class is read agree with its declarations so far.
-/

namespace JackCompiler

structure Declaration where
  kind : VariableKind
  type : String
  name : String
deriving DecidableEq

namespace Declaration

/-- How many declarations are of the kind. A name counts as often as it is declared. -/
def count (kind : VariableKind) (declarations : List Declaration) : Nat :=
  declarations.countP fun declaration => declaration.kind = kind

/-- The variable that a name is, from declarations with the latest first. -/
def lookup? (name : String) : List Declaration → Option Variable
  | [] => none
  | declaration :: earlier =>
    if declaration.name = name then
      some ⟨declaration.type, declaration.kind, count declaration.kind earlier⟩
    else lookup? name earlier

theorem count_cons (kind : VariableKind) (declaration : Declaration) (earlier : List Declaration) :
    count kind (declaration :: earlier) =
      count kind earlier + if declaration.kind = kind then 1 else 0 := by
  simp [count, List.countP_cons]

theorem count_append (kind : VariableKind) (x y : List Declaration) :
    count kind (x ++ y) = count kind x + count kind y :=
  List.countP_append

theorem count_reverse (kind : VariableKind) (declarations : List Declaration) :
    count kind declarations.reverse = count kind declarations :=
  List.countP_reverse

/-- Declarations of one kind all count for that kind and for no other. -/
theorem count_of_kind {declarations : List Declaration} {kind : VariableKind}
    (h : ∀ declaration ∈ declarations, declaration.kind = kind) (other : VariableKind) :
    count other declarations = if kind = other then declarations.length else 0 := by
  by_cases hkind : kind = other
  · rw [if_pos hkind]
    apply List.countP_eq_length.2
    intro declaration hmem
    exact decide_eq_true ((h declaration hmem).trans hkind)
  · rw [if_neg hkind]
    apply List.countP_eq_zero.2
    intro declaration hmem hcount
    exact hkind ((h declaration hmem).symm.trans (of_decide_eq_true hcount))

/-- Exactly the declared names are those of variables. -/
theorem isSome_lookup? (name : String) (declarations : List Declaration) :
    (lookup? name declarations).isSome ↔ ∃ declaration ∈ declarations, declaration.name = name := by
  induction declarations with
  | nil => simp [lookup?]
  | cons declaration earlier ih =>
    by_cases hname : declaration.name = name
    · simp [lookup?, hname]
    · simp [lookup?, hname, ih]

/-- The variable of a name is one of a declared kind, and its number is one that is counted. -/
theorem lookup?_counted {name : String} {declarations : List Declaration} {entry : Variable}
    (h : lookup? name declarations = some entry) :
    (∃ declaration ∈ declarations, declaration.kind = entry.kind) ∧
      entry.index < count entry.kind declarations := by
  induction declarations with
  | nil => cases h
  | cons declaration earlier ih =>
    rw [count_cons]
    by_cases hname : declaration.name = name
    · rw [lookup?, if_pos hname] at h
      cases h
      refine ⟨⟨declaration, List.mem_cons_self, rfl⟩, ?_⟩
      rw [if_pos rfl]
      exact Nat.lt_succ_self _
    · rw [lookup?, if_neg hname] at h
      obtain ⟨⟨other, hmem, hkind⟩, hindex⟩ := ih h
      exact ⟨⟨other, List.mem_cons_of_mem _ hmem, hkind⟩, by omega⟩

end Declaration

/-- What code can name: the class it stands in, the variables of the class and those of the
subroutine. Declarations are kept with the latest first. -/
structure Context where
  className : String := ""
  ofClass : List Declaration := []
  ofSubroutine : List Declaration := []

namespace Context

/-- The variable that a name is. Those of the subroutine hide those of the class. -/
def lookup? (c : Context) (name : String) : Option Variable :=
  Declaration.lookup? name c.ofSubroutine <|> Declaration.lookup? name c.ofClass

/-- The declarations that a declaration of the kind goes with. -/
def scope (c : Context) (kind : VariableKind) : List Declaration :=
  if kind.inClass then c.ofClass else c.ofSubroutine

def count (c : Context) (kind : VariableKind) : Nat :=
  Declaration.count kind (c.scope kind)

def declare (c : Context) (declaration : Declaration) : Context :=
  if declaration.kind.inClass then { c with ofClass := declaration :: c.ofClass }
  else { c with ofSubroutine := declaration :: c.ofSubroutine }

def declareAll (c : Context) (declarations : List Declaration) : Context :=
  declarations.foldl declare c

def startSubroutine (c : Context) : Context :=
  { c with ofSubroutine := [] }

/-- Every kind has at most as many declarations as can be counted. -/
def Fits (c : Context) : Prop :=
  ∀ kind, c.count kind ≤ maxInteger

/-- Each declaration is in the scope of its kind. -/
structure Sorted (c : Context) : Prop where
  ofClass : ∀ declaration ∈ c.ofClass, declaration.kind.inClass = true
  ofSubroutine : ∀ declaration ∈ c.ofSubroutine, declaration.kind.inClass = false

/-- No variable has a number beyond what is counted of its kind. -/
theorem index_lt {c : Context} (hsorted : c.Sorted) {name : String} {entry : Variable}
    (h : c.lookup? name = some entry) : entry.index < c.count entry.kind := by
  unfold lookup? at h
  unfold count scope
  cases hown : Declaration.lookup? name c.ofSubroutine with
  | some own =>
    rw [hown] at h
    obtain rfl : own = entry := Option.some.inj h
    obtain ⟨⟨declaration, hmem, hkind⟩, hindex⟩ := Declaration.lookup?_counted hown
    rw [if_neg (by simp [← hkind, hsorted.ofSubroutine declaration hmem])]
    exact hindex
  | none =>
    rw [hown] at h
    obtain ⟨⟨declaration, hmem, hkind⟩, hindex⟩ := Declaration.lookup?_counted h
    rw [if_pos (by rw [← hkind, hsorted.ofClass declaration hmem])]
    exact hindex

theorem count_declare (c : Context) (declaration : Declaration) (kind : VariableKind) :
    (c.declare declaration).count kind =
      c.count kind + if declaration.kind = kind then 1 else 0 := by
  by_cases hkind : declaration.kind = kind
  · subst hkind
    by_cases hclass : declaration.kind.inClass
    · simp [count, scope, declare, hclass, Declaration.count_cons]
    · simp [count, scope, declare, hclass, Declaration.count_cons]
  · by_cases hclass : declaration.kind.inClass
    · by_cases hscope : kind.inClass <;>
        simp [count, scope, declare, hclass, hscope, Declaration.count_cons, hkind]
    · by_cases hscope : kind.inClass <;>
        simp [count, scope, declare, hclass, hscope, Declaration.count_cons, hkind]

theorem className_declare (c : Context) (declaration : Declaration) :
    (c.declare declaration).className = c.className := by
  unfold declare
  split <;> rfl

theorem count_le_declareAll (declarations : List Declaration) (c : Context) (kind : VariableKind) :
    c.count kind ≤ (c.declareAll declarations).count kind := by
  induction declarations generalizing c with
  | nil => exact Nat.le_refl _
  | cons declaration rest ih =>
    have hstep : c.count kind ≤ (c.declare declaration).count kind := by
      rw [count_declare]
      omega
    exact Nat.le_trans hstep (ih (c.declare declaration))

theorem declareAll_cons (c : Context) (declaration : Declaration) (rest : List Declaration) :
    c.declareAll (declaration :: rest) = (c.declare declaration).declareAll rest :=
  rfl

theorem declareAll_append (c : Context) (x y : List Declaration) :
    c.declareAll (x ++ y) = (c.declareAll x).declareAll y :=
  List.foldl_append

/-- Declarations of the class only. -/
theorem declareAll_ofClass {declarations : List Declaration} (c : Context)
    (h : ∀ declaration ∈ declarations, declaration.kind.inClass = true) :
    c.declareAll declarations = { c with ofClass := declarations.reverse ++ c.ofClass } := by
  induction declarations generalizing c with
  | nil => rfl
  | cons declaration rest ih =>
    obtain ⟨hfirst, hrest⟩ := List.forall_mem_cons.1 h
    rw [declareAll_cons, ih _ hrest, declare, if_pos hfirst]
    simp

/-- Declarations of a subroutine only. -/
theorem declareAll_ofSubroutine {declarations : List Declaration} (c : Context)
    (h : ∀ declaration ∈ declarations, declaration.kind.inClass = false) :
    c.declareAll declarations =
      { c with ofSubroutine := declarations.reverse ++ c.ofSubroutine } := by
  induction declarations generalizing c with
  | nil => rfl
  | cons declaration rest ih =>
    obtain ⟨hfirst, hrest⟩ := List.forall_mem_cons.1 h
    rw [declareAll_cons, ih _ hrest, declare, if_neg (by simp [hfirst])]
    simp

theorem fits_startSubroutine {c : Context} (h : c.Fits) : c.startSubroutine.Fits := by
  intro kind
  cases kind with
  | static => exact h .static
  | field => exact h .field
  | argument => exact Nat.zero_le _
  | local_ => exact Nat.zero_le _

/-- There is room for an argument where none is declared. -/
theorem fits_receiver {c : Context} {type name : String} (h : c.Fits) :
    (c.startSubroutine.declare ⟨.argument, type, name⟩).Fits := by
  intro kind
  rw [count_declare]
  cases kind with
  | static => exact h .static
  | field => exact h .field
  | argument => exact (by decide : 0 + 1 ≤ maxInteger)
  | local_ => exact Nat.zero_le _

end Context

/-! ### Scopes -/

/-- The scopes hold what the declarations say. -/
structure Scopes.Reflects (scopes : Scopes) (c : Context) : Prop where
  ofClass : ∀ name : String, scopes.ofClass[name]? = Declaration.lookup? name c.ofClass
  ofSubroutine :
    ∀ name : String, scopes.ofSubroutine[name]? = Declaration.lookup? name c.ofSubroutine
  count : ∀ kind, scopes.count kind = c.count kind

namespace Scopes.Reflects

variable {scopes : Scopes} {c : Context}

theorem lookup? (h : scopes.Reflects c) (name : String) :
    scopes.lookup? name = c.lookup? name := by
  rw [Scopes.lookup?, h.ofSubroutine, h.ofClass, Context.lookup?]

theorem startSubroutine (h : scopes.Reflects c) :
    scopes.startSubroutine.Reflects c.startSubroutine := by
  refine ⟨h.ofClass, fun name => ?_, fun kind => ?_⟩
  · exact Std.TreeMap.getElem?_emptyc
  · have hcount := h.count kind
    cases kind with
    | static => exact hcount
    | field => exact hcount
    | argument => rfl
    | local_ => rfl

theorem getElem?_insert (map : Std.TreeMap String Variable) (declaration : Declaration)
    (earlier : List Declaration)
    (h : ∀ name : String, map[name]? = Declaration.lookup? name earlier) (name : String) :
    (map.insert declaration.name
        ⟨declaration.type, declaration.kind, Declaration.count declaration.kind earlier⟩)[name]? =
      Declaration.lookup? name (declaration :: earlier) := by
  rw [Std.TreeMap.getElem?_insert, Declaration.lookup?, h name]
  by_cases hname : declaration.name = name
  · rw [if_pos (Std.LawfulEqCmp.compare_eq_iff_eq.2 hname), if_pos hname]
  · rw [if_neg (fun heq => hname (Std.LawfulEqCmp.compare_eq_iff_eq.1 heq)), if_neg hname]

/-- A declaration that still counts is added. -/
theorem define? (h : scopes.Reflects c) (declaration : Declaration)
    (hcount : c.count declaration.kind < maxInteger) :
    ∃ after, scopes.define? declaration.name declaration.type declaration.kind =
      some (c.count declaration.kind, after) ∧ after.Reflects (c.declare declaration) := by
  have hindex := h.count declaration.kind
  unfold Scopes.define?
  simp only [hindex, hcount, if_true]
  refine ⟨_, rfl, ?_, ?_, ?_⟩
  · intro name
    by_cases hclass : declaration.kind.inClass
    · simp only [insert, Context.declare, hclass, if_true, Context.count, Context.scope]
      exact getElem?_insert _ declaration _ h.ofClass name
    · simp only [insert, Context.declare, hclass]
      exact h.ofClass name
  · intro name
    by_cases hclass : declaration.kind.inClass
    · simp only [insert, Context.declare, hclass, if_true]
      exact h.ofSubroutine name
    · simp only [insert, Context.declare, hclass, Context.count, Context.scope]
      exact getElem?_insert _ declaration _ h.ofSubroutine name
  · intro kind
    rw [Context.count_declare, ← h.count kind]
    have hget := scopes.counts.get_increment declaration.kind kind
    by_cases hclass : declaration.kind.inClass
    · simp only [insert, hclass, if_true, Scopes.count, hget, eq_comm]
    · simp only [insert, hclass, Bool.false_eq_true, if_false, Scopes.count, hget, eq_comm]

/-- A declaration that would not be counted is refused. -/
theorem define?_none (h : scopes.Reflects c) (declaration : Declaration)
    (hcount : maxInteger ≤ c.count declaration.kind) :
    scopes.define? declaration.name declaration.type declaration.kind = none := by
  unfold Scopes.define?
  rw [h.count declaration.kind]
  exact if_neg (Nat.not_lt.2 hcount)

end Scopes.Reflects

end JackCompiler
