import JackCompiler.Vm.Command

/-!
The machine that commands run on, as far as the flow of control goes. What a command does to the
stack and to memory is a parameter; jumps and labels are fixed. A jump goes to the label of that
name in the function that is running.
-/

namespace JackCompiler

abbrev Word := BitVec 16

/-- The stack, with its top first, and everything else. -/
structure State (Memory : Type) where
  stack : List Word
  memory : Memory

/-- Commands that do their work and go on to the next one. -/
def Command.isStraight : Command → Bool
  | push _ _ | pop _ _ | operate _ | call _ _ => true
  | label _ | goto _ | ifGoto _ | function _ _ | ret => false

/-- What straight commands do. Any number of states may follow, none at all included; only the
complement of a word is the same on every machine. -/
structure Machine (Memory : Type) where
  effect : Command → State Memory → State Memory → Prop
  complement : ∀ s t, effect (.operate .not) s t ↔
    ∃ word rest, s.stack = word :: rest ∧ t = ⟨~~~word :: rest, s.memory⟩

variable {Memory : Type}

/-- Straight commands, one after the other. -/
def Machine.Runs (m : Machine Memory) : List Command → State Memory → State Memory → Prop
  | [], s, t => s = t
  | command :: rest, s, t => ∃ u, m.effect command s u ∧ m.Runs rest u t

theorem Machine.runs_append (m : Machine Memory) (x y : List Command) (s t : State Memory) :
    m.Runs (x ++ y) s t ↔ ∃ u, m.Runs x s u ∧ m.Runs y u t := by
  induction x generalizing s with
  | nil =>
    constructor
    · intro h
      exact ⟨s, rfl, h⟩
    · rintro ⟨u, rfl, h⟩
      exact h
  | cons command rest ih =>
    constructor
    · rintro ⟨v, hcommand, h⟩
      obtain ⟨u, hrest, hy⟩ := (ih v).1 h
      exact ⟨u, ⟨v, hcommand, hrest⟩, hy⟩
    · rintro ⟨u, ⟨v, hcommand, hrest⟩, hy⟩
      exact ⟨v, hcommand, (ih v).2 ⟨u, hrest, hy⟩⟩

/-! ### Places in code -/

/-- The commands stand in the code from this place on. -/
def CodeAt (code : List Command) (place : Nat) (part : List Command) : Prop :=
  ∃ before after, code = before ++ (part ++ after) ∧ before.length = place

namespace CodeAt

variable {code x y : List Command} {place : Nat} {command : Command}

theorem head (h : CodeAt code place (command :: x)) : code[place]? = some command := by
  obtain ⟨before, after, rfl, rfl⟩ := h
  simp

theorem left (h : CodeAt code place (x ++ y)) : CodeAt code place x := by
  obtain ⟨before, after, rfl, hplace⟩ := h
  exact ⟨before, y ++ after, by simp, hplace⟩

theorem right (h : CodeAt code place (x ++ y)) : CodeAt code (place + x.length) y := by
  obtain ⟨before, after, rfl, rfl⟩ := h
  exact ⟨before ++ x, after, by simp, List.length_append⟩

theorem tail (h : CodeAt code place (command :: x)) : CodeAt code (place + 1) x :=
  right (x := [command]) h

theorem getElem? (h : CodeAt code place x) {i : Nat} (hi : i < x.length) :
    code[place + i]? = x[i]? := by
  obtain ⟨before, after, rfl, rfl⟩ := h
  rw [List.getElem?_append_right (Nat.le_add_right _ _), Nat.add_sub_cancel_left,
    List.getElem?_append_left hi]

theorem of_mem_flatMap {α : Type} {f : α → List Command} {list : List α} {a : α} (h : a ∈ list) :
    ∃ place, CodeAt (list.flatMap f) place (f a) := by
  obtain ⟨before, after, rfl⟩ := List.append_of_mem h
  refine ⟨_, before.flatMap f, after.flatMap f, ?_, rfl⟩
  rw [List.flatMap_append, List.flatMap_cons]

end CodeAt

/-- No function starts between the two places, whichever comes first. -/
def SameFunction (code : List Command) (i j : Nat) : Prop :=
  ∀ place name locals, (i < place ∧ place ≤ j) ∨ (j < place ∧ place ≤ i) →
    code[place]? ≠ some (.function name locals)

/-- A jump from `place` to this name arrives at `target`. -/
def JumpsTo (code : List Command) (place : Nat) (name : String) (target : Nat) : Prop :=
  code[target]? = some (.label name) ∧ SameFunction code place target

/-- The next command to run, and the state it runs in. -/
structure Point (Memory : Type) where
  place : Nat
  state : State Memory

/-- One command of the code. A function ends at its return, which is not a step. -/
inductive Step (m : Machine Memory) (code : List Command) : Point Memory → Point Memory → Prop where
  | straight {place command s t} (hcommand : code[place]? = some command)
      (hstraight : command.isStraight = true) (heffect : m.effect command s t) :
      Step m code ⟨place, s⟩ ⟨place + 1, t⟩
  | label {place name s} (hcommand : code[place]? = some (.label name)) :
      Step m code ⟨place, s⟩ ⟨place + 1, s⟩
  | goto {place name target s} (hcommand : code[place]? = some (.goto name))
      (htarget : JumpsTo code place name target) : Step m code ⟨place, s⟩ ⟨target, s⟩
  | jump {place name target word rest memory} (hcommand : code[place]? = some (.ifGoto name))
      (hword : word ≠ 0) (htarget : JumpsTo code place name target) :
      Step m code ⟨place, ⟨word :: rest, memory⟩⟩ ⟨target, ⟨rest, memory⟩⟩
  | pass {place name rest memory} (hcommand : code[place]? = some (.ifGoto name)) :
      Step m code ⟨place, ⟨0 :: rest, memory⟩⟩ ⟨place + 1, ⟨rest, memory⟩⟩

/-- All that one step can do at a command. -/
def Command.Moves (m : Machine Memory) (code : List Command) (p q : Point Memory) :
    Command → Prop
  | .label _ => q = ⟨p.place + 1, p.state⟩
  | .goto name => ∃ target, JumpsTo code p.place name target ∧ q = ⟨target, p.state⟩
  | .ifGoto name => ∃ word rest, p.state.stack = word :: rest ∧
      ((word = 0 ∧ q = ⟨p.place + 1, ⟨rest, p.state.memory⟩⟩) ∨
        (word ≠ 0 ∧ ∃ target, JumpsTo code p.place name target ∧
          q = ⟨target, ⟨rest, p.state.memory⟩⟩))
  | .function _ _ | .ret => False
  | command => ∃ t, m.effect command p.state t ∧ q = ⟨p.place + 1, t⟩

theorem Command.Moves.straight {m : Machine Memory} {code : List Command} {p q : Point Memory}
    {command : Command} (h : command.Moves m code p q) (hstraight : command.isStraight = true) :
    ∃ t, m.effect command p.state t ∧ q = ⟨p.place + 1, t⟩ := by
  cases command <;> first | exact h | cases hstraight

theorem Step.moves {m : Machine Memory} {code : List Command} {p q : Point Memory}
    (h : Step m code p q) {command : Command} (hcommand : code[p.place]? = some command) :
    command.Moves m code p q := by
  have heq : ∀ {other}, code[p.place]? = some other → other = command := fun hother =>
    Option.some.inj (hother.symm.trans hcommand)
  cases h with
  | straight hother hstraight heffect =>
    obtain rfl := heq hother
    rename_i command _ _
    cases command <;> first | exact ⟨_, heffect, rfl⟩ | cases hstraight
  | label hother =>
    obtain rfl := heq hother
    rfl
  | goto hother htarget =>
    obtain rfl := heq hother
    exact ⟨_, htarget, rfl⟩
  | jump hother hword htarget =>
    obtain rfl := heq hother
    exact ⟨_, _, rfl, Or.inr ⟨hword, _, htarget, rfl⟩⟩
  | pass hother =>
    obtain rfl := heq hother
    exact ⟨_, _, rfl, Or.inl ⟨rfl, rfl⟩⟩

/-- A run of so many steps, each of a command from `a` on and before `b`. -/
inductive Path (m : Machine Memory) (code : List Command) (a b : Nat) :
    Nat → Point Memory → Point Memory → Prop where
  | refl {p} : Path m code a b 0 p p
  | cons {n p q r} (hfrom : a ≤ p.place) (hbefore : p.place < b) (hstep : Step m code p q)
      (hrest : Path m code a b n q r) : Path m code a b (n + 1) p r

/-- The commands from `a` on and before `b`, run from the first one, lead here. -/
def Reaches (m : Machine Memory) (code : List Command) (a b : Nat) (p q : Point Memory) : Prop :=
  ∃ n, Path m code a b n p q

/-- No two labels of the code have one name. -/
def UniqueLabels (code : List Command) : Prop :=
  ∀ (i j : Nat) (name : String), code[i]? = some (Command.label name) →
    code[j]? = some (Command.label name) → i = j

variable {m : Machine Memory} {code : List Command} {a b c d : Nat}

namespace Reaches

variable {p q r : Point Memory}

theorem refl : Reaches m code a b p p :=
  ⟨0, .refl⟩

theorem cons (hfrom : a ≤ p.place) (hbefore : p.place < b) (hstep : Step m code p q)
    (hrest : Reaches m code a b q r) : Reaches m code a b p r := by
  obtain ⟨n, hrest⟩ := hrest
  exact ⟨n + 1, .cons hfrom hbefore hstep hrest⟩

theorem trans (h : Reaches m code a b p q) (k : Reaches m code a b q r) :
    Reaches m code a b p r := by
  obtain ⟨n, h⟩ := h
  induction h with
  | refl => exact k
  | cons hfrom hbefore hstep _ ih => exact cons hfrom hbefore hstep (ih k)

theorem mono (ha : a ≤ c) (hb : d ≤ b) (h : Reaches m code c d p q) : Reaches m code a b p q := by
  obtain ⟨n, h⟩ := h
  induction h with
  | refl => exact refl
  | cons hfrom hbefore hstep _ ih =>
    exact cons (Nat.le_trans ha hfrom) (Nat.lt_of_lt_of_le hbefore hb) hstep ih

end Reaches

/-! ### Where runs end -/

/-- The run of the commands from `a` on and before `b` is over: it has left them, or it is at a
return that has a word to return. -/
def Final (code : List Command) (a b : Nat) (p : Point Memory) : Prop :=
  ¬(a ≤ p.place ∧ p.place < b) ∨ (code[p.place]? = some .ret ∧ p.state.stack ≠ [])

namespace Path

variable {n : Nat} {p q r : Point Memory}

/-- A run that is not over goes on. -/
theorem first (h : Path m code a b n p r) (hr : Final code a b r) (ha : a ≤ p.place)
    (hb : p.place < b) (hp : code[p.place]? ≠ some .ret) :
    ∃ q k, Step m code p q ∧ Path m code a b k q r ∧ k < n := by
  cases h with
  | refl =>
    rcases hr with hout | ⟨hret, -⟩
    · exact absurd ⟨ha, hb⟩ hout
    · exact absurd hret hp
  | cons _ _ hstep hrest => exact ⟨_, _, hstep, hrest, Nat.lt_succ_self _⟩

/-- Nothing follows a return. -/
theorem eq_of_ret (h : Path m code a b n p r) (hp : code[p.place]? = some .ret) : p = r := by
  cases h with
  | refl => rfl
  | cons _ _ hstep _ => exact (hstep.moves hp).elim

theorem eq_of_out (h : Path m code a b n p r) (hout : ¬(a ≤ p.place ∧ p.place < b)) : p = r := by
  cases h with
  | refl => rfl
  | cons ha hb _ _ => exact absurd ⟨ha, hb⟩ hout

/-- A run passes through any part of its commands that it enters: it runs in the part until it is
over there. -/
theorem visit (h : Path m code a b n p r) (hr : Final code a b r) (ha : a ≤ c) (hb : d ≤ b) :
    ∃ q i j, Path m code c d i p q ∧ Final code c d q ∧ Path m code a b j q r ∧ i + j = n := by
  induction h with
  | refl =>
    rename_i p
    refine ⟨p, 0, 0, .refl, ?_, .refl, rfl⟩
    rcases hr with hout | hret
    · exact Or.inl fun hin => hout ⟨Nat.le_trans ha hin.1, Nat.lt_of_lt_of_le hin.2 hb⟩
    · exact Or.inr hret
  | cons hfrom hbefore hstep hrest ih =>
    rename_i n p q r
    by_cases hin : c ≤ p.place ∧ p.place < d
    · obtain ⟨u, i, j, hpart, hu, hafter, rfl⟩ := ih hr
      exact ⟨u, i + 1, j, .cons hin.1 hin.2 hstep hpart, hu, hafter, Nat.add_right_comm i 1 j⟩
    · exact ⟨p, 0, n + 1, .refl, Or.inl hin, .cons hfrom hbefore hstep hrest, Nat.zero_add _⟩

end Path

/-! ### Straight code -/

theorem Reaches.of_runs {x : List Command} (hcode : CodeAt code a x)
    (hstraight : ∀ command ∈ x, command.isStraight = true) {s t : State Memory}
    (h : m.Runs x s t) : Reaches m code a (a + x.length) ⟨a, s⟩ ⟨a + x.length, t⟩ := by
  induction x generalizing a s with
  | nil =>
    obtain rfl : s = t := h
    exact Reaches.refl
  | cons command rest ih =>
    obtain ⟨u, heffect, hrest⟩ := h
    obtain ⟨hfirst, hothers⟩ := List.forall_mem_cons.1 hstraight
    have htail := ih hcode.tail hothers hrest
    have hlength : a + 1 + rest.length = a + (command :: rest).length := by
      rw [List.length_cons]
      omega
    rw [hlength] at htail
    refine Reaches.cons (Nat.le_refl a) ?_ (.straight hcode.head hfirst heffect)
      (htail.mono (Nat.le_succ a) (Nat.le_refl _))
    change a < a + (command :: rest).length
    rw [List.length_cons]
    omega

/-- Straight code is left at its end only. -/
theorem Path.runs_of_straight {x : List Command} (hcode : CodeAt code a x)
    (hstraight : ∀ command ∈ x, command.isStraight = true) {n : Nat} {s : State Memory}
    {r : Point Memory} (h : Path m code c d n ⟨a, s⟩ r) (hr : Final code c d r) (hc : c ≤ a)
    (hd : a + x.length ≤ d) :
    ∃ t k, m.Runs x s t ∧ Path m code c d k ⟨a + x.length, t⟩ r ∧ k ≤ n := by
  induction x generalizing a s n with
  | nil => exact ⟨s, n, rfl, h, Nat.le_refl n⟩
  | cons command rest ih =>
    rw [List.length_cons] at hd
    obtain ⟨hfirst, hothers⟩ := List.forall_mem_cons.1 hstraight
    have hcommand : code[a]? = some command := hcode.head
    have hnot : code[a]? ≠ some .ret := by
      rw [hcommand]
      rintro heq
      cases heq
      cases hfirst
    obtain ⟨q, k, hstep, hrest, hk⟩ := h.first hr hc (by change a < d; omega) hnot
    obtain ⟨u, heffect, rfl⟩ := (hstep.moves hcommand).straight hfirst
    obtain ⟨t, j, hruns, hpath, hj⟩ := ih hcode.tail hothers hrest (by omega) (by omega)
    refine ⟨t, j, ⟨_, heffect, hruns⟩, ?_, by omega⟩
    rw [List.length_cons, ← Nat.add_assoc, Nat.add_right_comm]
    exact hpath

end JackCompiler
