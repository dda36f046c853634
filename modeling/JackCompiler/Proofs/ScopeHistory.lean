import JackCompiler.Proofs.Declarations

/-!
Scopes and their history. All that is done to scopes is written down together with the answers, and
then everything that scopes tell can be read off the history: how many names there are of a kind,
and which variable a name is. Variables of different names are never in the same place, whether they
belong to the class or to a subroutine, and a variable of the class that was hidden comes back with
the next subroutine.
-/

namespace JackCompiler

namespace Scopes

/-- What can be done to scopes. -/
inductive Action where
  | startSubroutine
  | define (declaration : Declaration)
deriving DecidableEq

/-- The answer to an action, and the scopes after it. Only a declaration is answered, by the number
that it gets, and one that is refused changes nothing. -/
def perform (scopes : Scopes) : Action → Option Nat × Scopes
  | .startSubroutine => (none, scopes.startSubroutine)
  | .define declaration =>
    match scopes.define? declaration.name declaration.type declaration.kind with
    | some (index, after) => (some index, after)
    | none => (none, scopes)

/-- An action and the answer to it. -/
structure Event where
  action : Action
  answer : Option Nat

/-- What happened, latest first. -/
abbrev History := List Event

/-- Scopes and what has happened to them. -/
structure Recorded where
  scopes : Scopes := {}
  history : History := []

def Recorded.perform (r : Recorded) (action : Action) : Recorded :=
  let (answer, after) := r.scopes.perform action
  ⟨after, ⟨action, answer⟩ :: r.history⟩

/-- Takes new scopes through the actions. -/
def record (actions : List Action) : Recorded :=
  actions.foldl Recorded.perform {}

/-! ### What a history says -/

namespace Event

/-- The event is the start of a subroutine. -/
def isStart (event : Event) : Bool :=
  event.action = .startSubroutine

/-- The variable that the event made, for the scope of the class or for that of a subroutine. -/
def binding? (inClass : Bool) (name : String) : Event → Option Variable
  | ⟨.define declaration, some index⟩ =>
    if declaration.name = name ∧ declaration.kind.inClass = inClass then
      some ⟨declaration.type, declaration.kind, index⟩
    else none
  | _ => none

/-- Whether the event made a variable of the kind. -/
def made (kind : VariableKind) : Event → Bool
  | ⟨.define declaration, some _⟩ => declaration.kind = kind
  | _ => false

end Event

namespace History

/-- What happened since the subroutine was started. -/
def sinceStart (history : History) : History :=
  history.takeWhile fun event => !event.isStart

/-- How many declarations of the kind have succeeded: ever, if they are those of the class, and
otherwise since the subroutine was started. -/
def count (history : History) (kind : VariableKind) : Nat :=
  (if kind.inClass then history else history.sinceStart).countP (Event.made kind)

/-- The last variable of the name that was made in the scope of the class, whenever that was, or in
the scope of the subroutine since its start. -/
def binding? (history : History) (inClass : Bool) (name : String) : Option Variable :=
  (if inClass then history else history.sinceStart).findSome? (Event.binding? inClass name)

def lookup? (history : History) (name : String) : Option Variable :=
  history.binding? false name <|> history.binding? true name

section Cons

variable {event : Event}

theorem sinceStart_cons (h : event.isStart = false) (history : History) :
    sinceStart (event :: history) = event :: history.sinceStart := by
  rw [sinceStart, List.takeWhile_cons, h]
  rfl

theorem count_cons (h : event.isStart = false) (history : History) (kind : VariableKind) :
    count (event :: history) kind = history.count kind + if event.made kind then 1 else 0 := by
  unfold count
  rw [sinceStart_cons h]
  split <;> exact List.countP_cons

theorem binding?_cons (h : event.isStart = false) (history : History) (inClass : Bool)
    (name : String) :
    binding? (event :: history) inClass name =
      (event.binding? inClass name <|> history.binding? inClass name) := by
  unfold binding?
  rw [sinceStart_cons h]
  cases hevent : event.binding? inClass name <;> cases inClass <;>
    simp only [if_true, if_false, Bool.false_eq_true, List.findSome?_cons, hevent] <;> rfl

end Cons

end History

/-! ### One action -/

section Actions

variable {scopes : Scopes} {declaration : Declaration}

theorem perform_define_of_lt (h : scopes.count declaration.kind < maxInteger) :
    scopes.perform (.define declaration) = (some (scopes.count declaration.kind),
      ({ scopes with counts := scopes.counts.increment declaration.kind } : Scopes).insert
        declaration.name
        ⟨declaration.type, declaration.kind, scopes.count declaration.kind⟩) := by
  simp only [perform, define?, if_pos h]

theorem perform_define_of_le (h : maxInteger ≤ scopes.count declaration.kind) :
    scopes.perform (.define declaration) = (none, scopes) := by
  simp only [perform, define?, if_neg (Nat.not_lt.2 h)]

end Actions

/-- The variable of the name in the scope of the class, or in that of the subroutine. -/
def binding? (scopes : Scopes) (inClass : Bool) (name : String) : Option Variable :=
  if inClass then scopes.ofClass[name]? else scopes.ofSubroutine[name]?

theorem lookup?_eq (scopes : Scopes) (name : String) :
    scopes.lookup? name = (scopes.binding? false name <|> scopes.binding? true name) :=
  rfl

/-- A name that is in sight is in one of the scopes. -/
theorem exists_binding?_of_lookup? {scopes : Scopes} {name : String} {entry : Variable}
    (h : scopes.lookup? name = some entry) :
    ∃ inClass, scopes.binding? inClass name = some entry := by
  rw [lookup?_eq] at h
  cases hown : scopes.binding? false name with
  | some own =>
    rw [hown] at h
    exact ⟨false, hown.trans h⟩
  | none =>
    rw [hown] at h
    exact ⟨true, h⟩

theorem binding?_empty (inClass : Bool) (name : String) :
    ({} : Scopes).binding? inClass name = none := by
  cases inClass <;> exact Std.TreeMap.getElem?_emptyc

theorem binding?_startSubroutine (scopes : Scopes) (inClass : Bool) (name : String) :
    scopes.startSubroutine.binding? inClass name =
      if inClass then scopes.binding? inClass name else none := by
  cases inClass with
  | true => rfl
  | false => exact Std.TreeMap.getElem?_emptyc

theorem count_startSubroutine (scopes : Scopes) (kind : VariableKind) :
    scopes.startSubroutine.count kind = if kind.inClass then scopes.count kind else 0 := by
  cases kind <;> rfl

theorem binding?_insert (scopes : Scopes) (counts : Counts) (key : String) (entry : Variable)
    (inClass : Bool) (name : String) :
    (({ scopes with counts } : Scopes).insert key entry).binding? inClass name =
      if key = name ∧ entry.kind.inClass = inClass then some entry
      else scopes.binding? inClass name := by
  have hinsert : ∀ map : Std.TreeMap String Variable,
      (map.insert key entry)[name]? = if key = name then some entry else map[name]? := by
    intro map
    rw [Std.TreeMap.getElem?_insert]
    simp only [Std.LawfulEqCmp.compare_eq_iff_eq]
  cases inClass <;> cases hkind : entry.kind.inClass <;> simp [insert, binding?, hkind, hinsert]

theorem count_insert (scopes : Scopes) (kind counted : VariableKind) (key : String)
    (entry : Variable) :
    (({ scopes with counts := scopes.counts.increment kind } : Scopes).insert key entry).count
        counted = scopes.count counted + if kind = counted then 1 else 0 := by
  have hcount : (scopes.counts.increment kind).get counted =
      scopes.counts.get counted + if kind = counted then 1 else 0 := by
    simp only [Counts.get_increment, @eq_comm _ counted]
  unfold insert count
  split <;> exact hcount

/-! ### The scopes follow their history -/

/-- The history tells everything about the scopes, and no kind has more names than can be
counted. -/
structure Recorded.Follows (r : Recorded) : Prop where
  binding? : ∀ inClass name, r.scopes.binding? inClass name = r.history.binding? inClass name
  count : ∀ kind, r.scopes.count kind = r.history.count kind
  fits : ∀ kind, r.scopes.count kind ≤ maxInteger

namespace Recorded.Follows

variable {r : Recorded}

theorem empty : ({} : Recorded).Follows := by
  refine ⟨fun inClass name => ?_, fun kind => ?_, fun kind => ?_⟩
  · rw [binding?_empty]
    cases inClass <;> rfl
  · cases kind <;> rfl
  · cases kind <;> exact Nat.zero_le _

theorem startSubroutine (h : r.Follows) : (r.perform .startSubroutine).Follows := by
  refine ⟨fun inClass name => ?_, fun kind => ?_, fun kind => ?_⟩
  · refine (binding?_startSubroutine r.scopes inClass name).trans ?_
    cases inClass with
    | true => exact h.binding? true name
    | false => rfl
  · refine (count_startSubroutine r.scopes kind).trans ?_
    rw [h.count]
    cases kind <;> rfl
  · refine Nat.le_trans (Nat.le_of_eq (count_startSubroutine r.scopes kind)) ?_
    split
    · exact h.fits kind
    · exact Nat.zero_le _

/-- A declaration that is refused is not seen in the history. -/
theorem refused {declaration : Declaration} (h : r.Follows)
    (hfull : maxInteger ≤ r.scopes.count declaration.kind) :
    (r.perform (.define declaration)).Follows := by
  rw [Recorded.perform, perform_define_of_le hfull]
  refine ⟨fun inClass name => ?_, fun kind => ?_, h.fits⟩
  · rw [History.binding?_cons rfl]
    exact h.binding? inClass name
  · rw [History.count_cons rfl]
    exact h.count kind

theorem defined {declaration : Declaration} (h : r.Follows)
    (hroom : r.scopes.count declaration.kind < maxInteger) :
    (r.perform (.define declaration)).Follows := by
  rw [Recorded.perform, perform_define_of_lt hroom]
  refine ⟨fun inClass name => ?_, fun kind => ?_, fun kind => ?_⟩
  · rw [History.binding?_cons rfl, ← h.binding?, binding?_insert, Event.binding?]
    split <;> rfl
  · rw [History.count_cons rfl, ← h.count, count_insert]
    simp only [Event.made, decide_eq_true_eq]
  · rw [count_insert]
    by_cases hkind : declaration.kind = kind
    · subst hkind
      rw [if_pos rfl]
      exact hroom
    · rw [if_neg hkind]
      exact h.fits kind

theorem perform (h : r.Follows) (action : Action) : (r.perform action).Follows := by
  cases action with
  | startSubroutine => exact h.startSubroutine
  | define declaration =>
    rcases Nat.lt_or_ge (r.scopes.count declaration.kind) maxInteger with hroom | hfull
    · exact h.defined hroom
    · exact h.refused hfull

theorem lookup? (h : r.Follows) (name : String) :
    r.scopes.lookup? name = r.history.lookup? name := by
  rw [lookup?_eq, h.binding?, h.binding?]
  rfl

end Recorded.Follows

/-- What new scopes have and every action keeps is so after any actions. -/
theorem record_induction {motive : Recorded → Prop} (hnew : motive {})
    (hperform : ∀ r action, motive r → motive (r.perform action)) (actions : List Action) :
    motive (record actions) := by
  have hrun : ∀ r, motive r → motive (actions.foldl Recorded.perform r) := by
    induction actions with
    | nil => exact fun _ hr => hr
    | cons action rest ih => exact fun r hr => ih _ (hperform r action hr)
  exact hrun {} hnew

theorem record_follows (actions : List Action) : (record actions).Follows :=
  record_induction .empty (fun _ action h => h.perform action) actions

/-- What scopes answer after any actions is what the history of these says. A declaration gets the
number of those of its kind that have succeeded before it, and it is refused just when there are as
many of these as can be counted. A name is the last variable of that name that was declared in the
subroutine, or else in the class. -/
theorem answers_of_history (actions : List Action) :
    let scopes := (record actions).scopes
    let history := (record actions).history
    (∀ declaration,
      (scopes.perform (.define declaration)).1 =
          (if history.count declaration.kind = maxInteger then none
          else some (history.count declaration.kind)) ∧
        (scopes.perform (.define declaration) = (none, scopes) ↔
          history.count declaration.kind = maxInteger)) ∧
      (∀ name, scopes.lookup? name = history.lookup? name ∧
        scopes.kindOf? name = (history.lookup? name).map Variable.kind ∧
        scopes.typeOf? name = (history.lookup? name).map Variable.type ∧
        scopes.indexOf? name = (history.lookup? name).map Variable.index) ∧
      ∀ kind, scopes.count kind = history.count kind := by
  intro scopes history
  have h : (record actions).Follows := record_follows actions
  have hlookup : ∀ name, scopes.lookup? name = history.lookup? name := h.lookup?
  refine ⟨fun declaration => ?_, fun name => ?_, h.count⟩
  · have hcount : scopes.count declaration.kind = history.count declaration.kind :=
      h.count declaration.kind
    rcases Nat.lt_or_ge (scopes.count declaration.kind) maxInteger with hroom | hfull
    · have hne : history.count declaration.kind ≠ maxInteger := by
        rw [← hcount]
        exact Nat.ne_of_lt hroom
      rw [perform_define_of_lt hroom, if_neg hne, hcount]
      exact ⟨rfl, iff_of_false (fun heq => Option.some_ne_none _ (congrArg Prod.fst heq)) hne⟩
    · have heq : history.count declaration.kind = maxInteger := by
        rw [← hcount]
        exact Nat.le_antisymm (h.fits declaration.kind) hfull
      rw [perform_define_of_le hfull, if_pos heq]
      exact ⟨rfl, iff_of_true rfl heq⟩
  · simp only [kindOf?, typeOf?, indexOf?, hlookup name, and_self]

/-! ### Where variables are -/

/-- Variables are in the scope of their kind and have numbers that are counted, and in one scope
those of different names differ in kind or in number. -/
structure Sound (scopes : Scopes) : Prop where
  kind : ∀ inClass name entry,
    scopes.binding? inClass name = some entry → entry.kind.inClass = inClass
  index_lt : ∀ inClass name entry,
    scopes.binding? inClass name = some entry → entry.index < scopes.count entry.kind
  apart : ∀ inClass name other entry another,
    scopes.binding? inClass name = some entry → scopes.binding? inClass other = some another →
      entry.kind = another.kind → entry.index = another.index → name = other

namespace Sound

variable {scopes : Scopes}

theorem empty : ({} : Scopes).Sound := by
  have hnever : ∀ {inClass name entry}, ({} : Scopes).binding? inClass name ≠ some entry := by
    intro inClass name entry
    rw [binding?_empty]
    exact (Option.some_ne_none entry).symm
  exact ⟨fun _ _ _ h => absurd h hnever, fun _ _ _ h => absurd h hnever,
    fun _ _ _ _ _ h => absurd h hnever⟩

theorem startSubroutine (h : scopes.Sound) : scopes.startSubroutine.Sound := by
  -- What is left is in the class, and its counts are kept.
  have hkept : ∀ inClass name entry, scopes.startSubroutine.binding? inClass name = some entry →
      inClass = true ∧ scopes.binding? inClass name = some entry := by
    intro inClass name entry hentry
    rw [binding?_startSubroutine] at hentry
    cases inClass with
    | true => exact ⟨rfl, hentry⟩
    | false => cases hentry
  refine ⟨fun inClass name entry hentry => ?_, fun inClass name entry hentry => ?_,
    fun inClass name other entry another hentry hanother => ?_⟩
  · exact h.kind inClass name entry (hkept inClass name entry hentry).2
  · obtain ⟨rfl, hbefore⟩ := hkept inClass name entry hentry
    rw [count_startSubroutine, if_pos (h.kind true name entry hbefore)]
    exact h.index_lt true name entry hbefore
  · exact h.apart inClass name other entry another (hkept inClass name entry hentry).2
      (hkept inClass other another hanother).2

/-- The number of a new variable is the count of its kind, and those before it have lower ones. -/
theorem insert (h : scopes.Sound) (key type : String) (kind : VariableKind) :
    (({ scopes with counts := scopes.counts.increment kind } : Scopes).insert key
      ⟨type, kind, scopes.count kind⟩).Sound := by
  refine ⟨fun inClass name entry => ?_, fun inClass name entry => ?_,
    fun inClass name other entry another => ?_⟩
  · rw [binding?_insert]
    split
    · next hnew =>
      rintro ⟨⟩
      exact hnew.2
    · exact h.kind inClass name entry
  · rw [binding?_insert, count_insert]
    split
    · rintro ⟨⟩
      rw [if_pos rfl]
      exact Nat.lt_succ_self _
    · intro hentry
      exact Nat.lt_add_right _ (h.index_lt inClass name entry hentry)
  · rw [binding?_insert, binding?_insert]
    split <;> split
    · next hnew hother => exact fun _ _ _ _ => hnew.1.symm.trans hother.1
    · rintro ⟨⟩ hanother hkind hindex
      have := h.index_lt inClass other another hanother
      rw [← hkind, ← hindex] at this
      exact absurd this (Nat.lt_irrefl _)
    · rintro hentry ⟨⟩ hkind hindex
      have := h.index_lt inClass name entry hentry
      rw [hkind, hindex] at this
      exact absurd this (Nat.lt_irrefl _)
    · exact h.apart inClass name other entry another

theorem perform (h : scopes.Sound) (action : Action) : (scopes.perform action).2.Sound := by
  cases action with
  | startSubroutine => exact h.startSubroutine
  | define declaration =>
    rcases Nat.lt_or_ge (scopes.count declaration.kind) maxInteger with hroom | hfull
    · rw [perform_define_of_lt hroom]
      exact h.insert _ _ _
    · rw [perform_define_of_le hfull]
      exact h

/-- A name that is in sight is in the scope where its kind belongs. -/
theorem binding?_of_lookup? (h : scopes.Sound) {name : String} {entry : Variable}
    (hlookup : scopes.lookup? name = some entry) :
    scopes.binding? entry.kind.inClass name = some entry := by
  obtain ⟨inClass, hentry⟩ := exists_binding?_of_lookup? hlookup
  rw [h.kind inClass name entry hentry]
  exact hentry

/-- Different names that are in sight are variables in different places. -/
theorem place_ne (h : scopes.Sound) {name other : String} {entry another : Variable}
    (hne : name ≠ other) (hentry : scopes.lookup? name = some entry)
    (hanother : scopes.lookup? other = some another) :
    (entry.kind.segment, entry.index) ≠ (another.kind.segment, another.index) := by
  intro hplace
  obtain ⟨hsegment, hindex⟩ := Prod.mk.inj hplace
  have hkind : entry.kind = another.kind := by
    cases hfirst : entry.kind <;> cases hsecond : another.kind <;>
      first | rfl | (rw [hfirst, hsecond] at hsegment; cases hsegment)
  have hother := h.binding?_of_lookup? hanother
  rw [← hkind] at hother
  exact hne (h.apart _ name other entry another (h.binding?_of_lookup? hentry) hother hkind hindex)

end Sound

theorem record_sound (actions : List Action) : (record actions).scopes.Sound :=
  record_induction (motive := fun r => r.scopes.Sound) .empty (fun _ action h => h.perform action)
    actions

theorem record_append (actions later : List Action) :
    record (actions ++ later) = later.foldl Recorded.perform (record actions) :=
  List.foldl_append

/-- A variable of the class stays where it is while no other of its name is made there. -/
theorem ofClass_kept {actions later : List Action} {new : History} {name : String}
    (hnew : (record (actions ++ later)).history = new ++ (record actions).history)
    (hquiet : ∀ event ∈ new, event.binding? true name = none) :
    (record (actions ++ later)).scopes.ofClass[name]? =
      (record actions).scopes.ofClass[name]? := by
  have hafter := (record_follows (actions ++ later)).binding? true name
  have hbefore := (record_follows actions).binding? true name
  refine hafter.trans (Eq.trans ?_ hbefore.symm)
  rw [hnew]
  unfold History.binding?
  rw [if_pos rfl, if_pos rfl, List.findSome?_append, List.findSome?_eq_none_iff.2 hquiet]
  rfl

/-- Different names that are in sight at any time are variables in different places, and the number
of each is one that is counted. A variable of the class that no other of the class replaces is again
in sight when the next subroutine starts, whatever hid it until then. -/
theorem variables_apart (actions : List Action) :
    (∀ name other entry another, name ≠ other →
      (record actions).scopes.lookup? name = some entry →
      (record actions).scopes.lookup? other = some another →
        (entry.kind.segment, entry.index) ≠ (another.kind.segment, another.index)) ∧
      (∀ name entry, (record actions).scopes.lookup? name = some entry →
        entry.index < (record actions).scopes.count entry.kind) ∧
      ∀ later new name entry,
        (record (actions ++ later)).history = new ++ (record actions).history →
        (∀ event ∈ new, event.binding? true name = none) →
        (record actions).scopes.ofClass[name]? = some entry →
          (record (actions ++ later ++ [.startSubroutine])).scopes.lookup? name = some entry := by
  have h : (record actions).scopes.Sound := record_sound actions
  refine ⟨fun name other entry another => h.place_ne, fun name entry hlookup => ?_,
    fun later new name entry hnew hquiet hentry => ?_⟩
  · exact h.index_lt _ name entry (h.binding?_of_lookup? hlookup)
  · rw [record_append]
    have hkept : (record (actions ++ later)).scopes.ofClass[name]? = some entry :=
      (ofClass_kept hnew hquiet).trans hentry
    refine (lookup?_eq _ name).trans ?_
    have hnone := binding?_startSubroutine (record (actions ++ later)).scopes false name
    exact (congrArg (· <|> _) hnone).trans hkept

/-- A field `x` and a static variable `y` are apart, and the field is back after a local variable of
its name. -/
theorem field_and_static_apart :
    let actions : List Action :=
      [.define ⟨.field, "int", "x"⟩, .define ⟨.static, "int", "y"⟩, .startSubroutine]
    let later : List Action := [.define ⟨.local_, "boolean", "x"⟩]
    (Segment.this, 0) ≠ (Segment.static, 0) ∧ 0 < (record actions).scopes.count .field ∧
      (record (actions ++ later)).scopes.lookup? "x" = some ⟨"boolean", .local_, 0⟩ ∧
      (record (actions ++ later ++ [.startSubroutine])).scopes.lookup? "x" =
        some ⟨"int", .field, 0⟩ := by
  intro actions later
  have hx : (record actions).scopes.lookup? "x" = some ⟨"int", .field, 0⟩ :=
    ((record_follows actions).lookup? "x").trans (by decide)
  have hy : (record actions).scopes.lookup? "y" = some ⟨"int", .static, 0⟩ :=
    ((record_follows actions).lookup? "y").trans (by decide)
  have hclass : (record actions).scopes.ofClass["x"]? = some ⟨"int", .field, 0⟩ :=
    ((record_follows actions).binding? true "x").trans (by decide)
  obtain ⟨hapart, hcounted, hback⟩ := variables_apart actions
  refine ⟨hapart "x" "y" _ _ (by decide) hx hy, hcounted "x" _ hx,
    ((record_follows (actions ++ later)).lookup? "x").trans (by decide), ?_⟩
  exact hback later [⟨.define ⟨.local_, "boolean", "x"⟩, some 0⟩] "x" _ rfl (by decide) hclass

end Scopes

end JackCompiler
