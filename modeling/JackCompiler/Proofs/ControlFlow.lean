import JackCompiler.Proofs.Compilation
import JackCompiler.Proofs.Labels

/-!
Structured control flow and jumps. Statements have a meaning of their own, by recursion on the tree,
in which only straight commands run on the machine. The code of statements, run with all its labels
and jumps, ends in the same ways: a run that leaves the code leaves it at its end, and a run that
returns does so where the statements do.
-/

namespace JackCompiler

/-- How statements end: after the last of them, or at a return with this word on top. -/
inductive Outcome (Memory : Type) where
  | normal (state : State Memory)
  | returned (word : Word) (state : State Memory)

namespace Tree

variable {Memory : Type}

mutual

/-- What a statement does. A condition holds if its word is all ones. -/
inductive Statement.Executes (m : Machine Memory) (c : Context) :
    Statement → State Memory → Outcome Memory → Prop where
  | assign {name value s t} (hruns : m.Runs ((Statement.assign name value).code c 0) s t) :
      Statement.Executes m c (.assign name value) s (.normal t)
  | assignElement {array index value s t}
      (hruns : m.Runs ((Statement.assignElement array index value).code c 0) s t) :
      Statement.Executes m c (.assignElement array index value) s (.normal t)
  | invoke {call s t} (hruns : m.Runs ((Statement.invoke call).code c 0) s t) :
      Statement.Executes m c (.invoke call) s (.normal t)
  | choice {condition body s rest memory o}
      (hcondition : m.Runs (condition.code c) s ⟨.allOnes 16 :: rest, memory⟩)
      (hbody : Statements.Executes m c body ⟨rest, memory⟩ o) :
      Statement.Executes m c (.choice condition body) s o
  | choiceSkipped {condition body s word rest memory}
      (hcondition : m.Runs (condition.code c) s ⟨word :: rest, memory⟩)
      (hword : word ≠ .allOnes 16) :
      Statement.Executes m c (.choice condition body) s (.normal ⟨rest, memory⟩)
  | choiceThen {condition body otherwise s rest memory o}
      (hcondition : m.Runs (condition.code c) s ⟨.allOnes 16 :: rest, memory⟩)
      (hbody : Statements.Executes m c body ⟨rest, memory⟩ o) :
      Statement.Executes m c (.choiceElse condition body otherwise) s o
  | choiceElse {condition body otherwise s word rest memory o}
      (hcondition : m.Runs (condition.code c) s ⟨word :: rest, memory⟩)
      (hword : word ≠ .allOnes 16)
      (hotherwise : Statements.Executes m c otherwise ⟨rest, memory⟩ o) :
      Statement.Executes m c (.choiceElse condition body otherwise) s o
  | loopDone {condition body s word rest memory}
      (hcondition : m.Runs (condition.code c) s ⟨word :: rest, memory⟩)
      (hword : word ≠ .allOnes 16) :
      Statement.Executes m c (.loop condition body) s (.normal ⟨rest, memory⟩)
  | loopAgain {condition body s rest memory t o}
      (hcondition : m.Runs (condition.code c) s ⟨.allOnes 16 :: rest, memory⟩)
      (hbody : Statements.Executes m c body ⟨rest, memory⟩ (.normal t))
      (hloop : Statement.Executes m c (.loop condition body) t o) :
      Statement.Executes m c (.loop condition body) s o
  | loopReturned {condition body s rest memory word t}
      (hcondition : m.Runs (condition.code c) s ⟨.allOnes 16 :: rest, memory⟩)
      (hbody : Statements.Executes m c body ⟨rest, memory⟩ (.returned word t)) :
      Statement.Executes m c (.loop condition body) s (.returned word t)
  | returnNothing {s word rest memory}
      (hruns : m.Runs [.push .constant 0] s ⟨word :: rest, memory⟩) :
      Statement.Executes m c .returnNothing s (.returned word ⟨word :: rest, memory⟩)
  | returnValue {value s word rest memory}
      (hruns : m.Runs (value.code c) s ⟨word :: rest, memory⟩) :
      Statement.Executes m c (.returnValue value) s (.returned word ⟨word :: rest, memory⟩)

/-- What statements do, one after the other. Nothing is done after a return. -/
inductive Statements.Executes (m : Machine Memory) (c : Context) :
    Statements → State Memory → Outcome Memory → Prop where
  | nil {s} : Statements.Executes m c .nil s (.normal s)
  | cons {first rest s t o} (hfirst : Statement.Executes m c first s (.normal t))
      (hrest : Statements.Executes m c rest t o) :
      Statements.Executes m c (.cons first rest) s o
  | returned {first rest s word t} (hfirst : Statement.Executes m c first s (.returned word t)) :
      Statements.Executes m c (.cons first rest) s (.returned word t)

end

end Tree

/-! ### How a run ends -/

variable {Memory : Type} {m : Machine Memory} {code : List Command} {a b c d : Nat}

/-- At this point the run of the commands from `a` on and before `b` has the outcome. -/
def Result (code : List Command) (a b : Nat) (r : Point Memory) : Outcome Memory → Prop
  | .normal t => r = ⟨b, t⟩
  | .returned word t => a ≤ r.place ∧ r.place < b ∧ code[r.place]? = some .ret ∧ r.state = t ∧
      t.stack.head? = some word

/-- The commands from `a` on and before `b`, run from the first one, can end so. -/
def Ends (m : Machine Memory) (code : List Command) (a b : Nat) (s : State Memory)
    (o : Outcome Memory) : Prop :=
  ∃ r, Result code a b r o ∧ Reaches m code a b ⟨a, s⟩ r

theorem Result.final {r : Point Memory} {o : Outcome Memory} (h : Result code a b r o) :
    Final code a b r := by
  cases o with
  | normal t =>
    obtain rfl : r = ⟨b, t⟩ := h
    exact Or.inl fun hin => Nat.lt_irrefl b hin.2
  | returned word t =>
    obtain ⟨-, -, hret, rfl, hword⟩ := h
    refine Or.inr ⟨hret, ?_⟩
    intro hnil
    rw [hnil] at hword
    cases hword

theorem Result.unique {r : Point Memory} {o o' : Outcome Memory} (h : Result code a b r o)
    (h' : Result code a b r o') : o = o' := by
  cases o with
  | normal t =>
    obtain rfl : r = ⟨b, t⟩ := h
    cases o' with
    | normal t' =>
      obtain rfl : t = t' := congrArg Point.state h'
      rfl
    | returned word t' => exact absurd h'.2.1 (Nat.lt_irrefl b)
  | returned word t =>
    obtain ⟨-, hbefore, -, rfl, hword⟩ := h
    cases o' with
    | normal t' =>
      obtain rfl : r = ⟨b, t'⟩ := h'
      exact absurd hbefore (Nat.lt_irrefl b)
    | returned word' t' =>
      obtain ⟨-, -, -, rfl, hword'⟩ := h'
      rw [Option.some.inj (hword.symm.trans hword')]

/-- A return in a part of the commands is one in all of them. -/
theorem Result.mono {r : Point Memory} {word : Word} {t : State Memory}
    (h : Result code c d r (.returned word t)) (ha : a ≤ c) (hb : d ≤ b) :
    Result code a b r (.returned word t) :=
  ⟨Nat.le_trans ha h.1, Nat.lt_of_lt_of_le h.2.1 hb, h.2.2⟩

namespace Ends

variable {s u : State Memory} {o : Outcome Memory}

/-- What leads to a last part of the commands ends as this part does. -/
theorem after (hreaches : Reaches m code a b ⟨a, s⟩ ⟨c, u⟩) (h : Ends m code c b u o)
    (ha : a ≤ c) : Ends m code a b s o := by
  obtain ⟨r, hresult, hpart⟩ := h
  refine ⟨r, ?_, hreaches.trans (hpart.mono ha (Nat.le_refl b))⟩
  cases o with
  | normal t => exact hresult
  | returned word t => exact hresult.mono ha (Nat.le_refl b)

/-- What leads to a return of a part ends with it. -/
theorem ofReturn {word : Word} {t : State Memory} (hreaches : Reaches m code a b ⟨a, s⟩ ⟨c, u⟩)
    (h : Ends m code c d u (.returned word t)) (ha : a ≤ c) (hb : d ≤ b) :
    Ends m code a b s (.returned word t) := by
  obtain ⟨r, hresult, hpart⟩ := h
  exact ⟨r, hresult.mono ha hb, hreaches.trans (hpart.mono ha hb)⟩

theorem normal_iff {t : State Memory} :
    Ends m code a b s (.normal t) ↔ Reaches m code a b ⟨a, s⟩ ⟨b, t⟩ := by
  constructor
  · rintro ⟨r, rfl, h⟩
    exact h
  · intro h
    exact ⟨_, rfl, h⟩

theorem returned_iff {word : Word} {t : State Memory} :
    Ends m code a b s (.returned word t) ↔
      ∃ place, a ≤ place ∧ place < b ∧ code[place]? = some .ret ∧ t.stack.head? = some word ∧
        Reaches m code a b ⟨a, s⟩ ⟨place, t⟩ := by
  constructor
  · rintro ⟨⟨place, t'⟩, ⟨ha, hb, hret, rfl, hword⟩, h⟩
    exact ⟨place, ha, hb, hret, hword, h⟩
  · rintro ⟨place, ha, hb, hret, hword, h⟩
    exact ⟨⟨place, t⟩, ⟨ha, hb, hret, rfl, hword⟩, h⟩

end Ends

/-! ### Single commands -/

/-- No function starts from `a` on and before `b`. -/
def FunctionFree (code : List Command) (a b : Nat) : Prop :=
  ∀ place name locals, a ≤ place → place < b → code[place]? ≠ some (.function name locals)

theorem CodeAt.functionFree {x : List Command} (h : CodeAt code a x) (hx : NoFunction x) :
    FunctionFree code a (a + x.length) := by
  intro place name locals ha hb hfunction
  obtain ⟨i, rfl⟩ := Nat.exists_eq_add_of_le ha
  rw [h.getElem? (by omega)] at hfunction
  exact hx name locals (List.mem_of_getElem? hfunction)

theorem FunctionFree.sameFunction (h : FunctionFree code a b) {i j : Nat} (hi : a ≤ i ∧ i < b)
    (hj : a ≤ j ∧ j < b) : SameFunction code i j := by
  intro place name locals hbetween
  exact h place name locals (by omega) (by omega)

namespace Reaches

variable {place target : Nat} {name : String} {s : State Memory} {r : Point Memory}

theorem label (hcommand : code[place]? = some (.label name)) (ha : a ≤ place) (hb : place < b)
    (h : Reaches m code a b ⟨place + 1, s⟩ r) : Reaches m code a b ⟨place, s⟩ r :=
  cons ha hb (.label hcommand) h

theorem goto (hcommand : code[place]? = some (.goto name))
    (htarget : code[target]? = some (.label name)) (hfree : FunctionFree code a b)
    (hp : a ≤ place ∧ place < b) (ht : a ≤ target ∧ target < b)
    (h : Reaches m code a b ⟨target, s⟩ r) : Reaches m code a b ⟨place, s⟩ r :=
  cons hp.1 hp.2 (.goto hcommand ⟨htarget, hfree.sameFunction hp ht⟩) h

end Reaches

namespace Path

variable {n place target : Nat} {name : String} {s : State Memory} {r : Point Memory}

theorem label (h : Path m code a b n ⟨place, s⟩ r) (hr : Final code a b r)
    (hcommand : code[place]? = some (.label name)) (ha : a ≤ place) (hb : place < b) :
    ∃ k, Path m code a b k ⟨place + 1, s⟩ r ∧ k < n := by
  obtain ⟨q, k, hstep, hrest, hk⟩ := h.first hr ha hb (by rw [hcommand]; simp)
  obtain rfl : q = _ := hstep.moves hcommand
  exact ⟨k, hrest, hk⟩

theorem goto (h : Path m code a b n ⟨place, s⟩ r) (hr : Final code a b r)
    (hunique : UniqueLabels code) (hcommand : code[place]? = some (.goto name))
    (htarget : code[target]? = some (.label name)) (ha : a ≤ place) (hb : place < b) :
    ∃ k, Path m code a b k ⟨target, s⟩ r ∧ k < n := by
  obtain ⟨q, k, hstep, hrest, hk⟩ := h.first hr ha hb (by rw [hcommand]; simp)
  obtain ⟨place', hjumps, rfl⟩ := hstep.moves hcommand
  obtain rfl := hunique _ _ _ htarget hjumps.1
  exact ⟨k, hrest, hk⟩

end Path

/-! ### Conditions -/

theorem complement_eq_zero (word : Word) : ~~~word = 0 ↔ word = .allOnes 16 := by
  constructor
  · intro h
    have hnot := congrArg (fun w : Word => ~~~w) h
    simpa using hnot
  · rintro rfl
    rfl

/-- The code of a condition, with the jump where it does not hold. -/
def guardCode (condition : List Command) (name : String) : List Command :=
  condition ++ [.operate .not, .ifGoto name]

theorem length_guardCode (condition : List Command) (name : String) :
    (guardCode condition name).length = condition.length + 2 := by
  simp [guardCode]

section Guard

variable {condition : List Command} {name : String} {s : State Memory} {rest : List Word}
  {memory : Memory} {place target n : Nat} {r : Point Memory}

theorem CodeAt.guard_not (h : CodeAt code place (guardCode condition name)) :
    CodeAt code place (condition ++ [.operate .not]) := by
  rw [guardCode, show [Command.operate .not, .ifGoto name] = [.operate .not] ++ [.ifGoto name] from
    rfl, ← List.append_assoc] at h
  exact h.left

theorem CodeAt.guard_jump (h : CodeAt code place (guardCode condition name)) :
    code[place + (condition.length + 1)]? = some (.ifGoto name) := by
  have hjump := h.right.tail.head
  rwa [Nat.add_assoc] at hjump

/-- A condition that is run, up to the jump. -/
theorem Reaches.guard_jump (hcode : CodeAt code place (guardCode condition name))
    (hstraight : AllStraight condition) (ha : a ≤ place) (hb : place + condition.length + 2 ≤ b)
    {word : Word} (hruns : m.Runs condition s ⟨word :: rest, memory⟩) :
    Reaches m code a b ⟨place, s⟩ ⟨place + (condition.length + 1), ⟨~~~word :: rest, memory⟩⟩ := by
  have hnot : m.Runs (condition ++ [.operate .not]) s ⟨~~~word :: rest, memory⟩ := by
    refine (m.runs_append _ _ _ _).2 ⟨_, hruns, _, (m.complement _ _).2 ⟨_, _, rfl, rfl⟩, rfl⟩
  have hall : AllStraight (condition ++ [.operate .not]) :=
    allStraight_append.2 ⟨hstraight, allStraight_cons.2 ⟨rfl, allStraight_nil⟩⟩
  have hreaches := Reaches.of_runs hcode.guard_not hall hnot
  rw [List.length_append, List.length_singleton] at hreaches
  exact hreaches.mono ha (by omega)

theorem Reaches.guard_holds (hcode : CodeAt code place (guardCode condition name))
    (hstraight : AllStraight condition) (ha : a ≤ place) (hb : place + condition.length + 2 ≤ b)
    (hruns : m.Runs condition s ⟨.allOnes 16 :: rest, memory⟩) :
    Reaches m code a b ⟨place, s⟩ ⟨place + (condition.length + 2), ⟨rest, memory⟩⟩ := by
  have hbefore := Reaches.guard_jump hcode hstraight ha hb hruns
  rw [(complement_eq_zero _).2 rfl] at hbefore
  refine hbefore.trans (Reaches.cons ?_ ?_ (.pass hcode.guard_jump) Reaches.refl)
  · change a ≤ place + (condition.length + 1)
    omega
  · change place + (condition.length + 1) < b
    omega

theorem Reaches.guard_fails (hcode : CodeAt code place (guardCode condition name))
    (hstraight : AllStraight condition) (ha : a ≤ place) (hb : place + condition.length + 2 ≤ b)
    (hfree : FunctionFree code a b) (htarget : code[target]? = some (.label name))
    (hin : a ≤ target ∧ target < b) {word : Word} (hword : word ≠ .allOnes 16)
    (hruns : m.Runs condition s ⟨word :: rest, memory⟩) :
    Reaches m code a b ⟨place, s⟩ ⟨target, ⟨rest, memory⟩⟩ := by
  have hbefore := Reaches.guard_jump hcode hstraight ha hb hruns
  have hplace : a ≤ place + (condition.length + 1) ∧ place + (condition.length + 1) < b := by omega
  have hjump := hfree.sameFunction hplace hin
  refine hbefore.trans (Reaches.cons hplace.1 hplace.2 (.jump hcode.guard_jump ?_ ⟨htarget, hjump⟩)
    Reaches.refl)
  exact fun hzero => hword ((complement_eq_zero word).1 hzero)

/-- A run of a condition either goes on behind the jump or at the label. -/
theorem Path.guard (h : Path m code a b n ⟨place, s⟩ r) (hr : Final code a b r)
    (hunique : UniqueLabels code) (hcode : CodeAt code place (guardCode condition name))
    (hstraight : AllStraight condition) (ha : a ≤ place) (hb : place + condition.length + 2 ≤ b)
    (htarget : code[target]? = some (.label name)) :
    ∃ word rest memory k, m.Runs condition s ⟨word :: rest, memory⟩ ∧ k < n ∧
      ((word = .allOnes 16 ∧
          Path m code a b k ⟨place + (condition.length + 2), ⟨rest, memory⟩⟩ r) ∨
        (word ≠ .allOnes 16 ∧ Path m code a b k ⟨target, ⟨rest, memory⟩⟩ r)) := by
  have hall : AllStraight (condition ++ [.operate .not]) :=
    allStraight_append.2 ⟨hstraight, allStraight_cons.2 ⟨rfl, allStraight_nil⟩⟩
  have hlength : (condition ++ [Command.operate .not]).length = condition.length + 1 := by simp
  obtain ⟨t, k, hruns, hpath, hk⟩ :=
    h.runs_of_straight hcode.guard_not hall hr ha (by omega)
  rw [hlength] at hpath
  obtain ⟨u, hcondition, t', hnot, rfl⟩ := (m.runs_append _ _ _ _).1 hruns
  obtain ⟨word, rest, hstack, rfl⟩ := (m.complement u t').1 hnot
  obtain ⟨stack, memory⟩ := u
  obtain rfl : stack = word :: rest := hstack
  have hjump := hcode.guard_jump
  obtain ⟨q, j, hstep, hrest, hj⟩ := hpath.first hr (by change a ≤ place + _; omega)
    (by change place + _ < b; omega) (by change code[place + _]? ≠ _; rw [hjump]; simp)
  refine ⟨word, rest, memory, j, hcondition, by omega, ?_⟩
  obtain ⟨word', rest', hstack, hcases⟩ := hstep.moves hjump
  obtain ⟨hword, rfl⟩ := List.cons.inj hstack
  rcases hcases with ⟨hzero, rfl⟩ | ⟨hnonzero, place', hjumps, rfl⟩
  · exact Or.inl ⟨(complement_eq_zero word).1 (hword.trans hzero), hrest⟩
  · obtain rfl := hunique _ _ _ htarget hjumps.1
    refine Or.inr ⟨fun hones => hnonzero ?_, hrest⟩
    exact hword.symm.trans ((complement_eq_zero word).2 hones)

end Guard

/-! ### Where the parts of a statement stand -/

namespace Tree

section Layout

variable {context : Context} {condition : Expression} {body otherwise : Statements} {k : Nat}

theorem choice_layout (h : CodeAt code a ((Statement.choice condition body).code context k)) :
    let n := (condition.code context).length
    let l := (body.code context (k + 1)).length
    CodeAt code a (guardCode (condition.code context) (labelName (2 * k))) ∧
      CodeAt code (a + (n + 2)) (body.code context (k + 1)) ∧
      code[a + (n + 2) + l]? = some (.goto (labelName (2 * k + 1))) ∧
      code[a + (n + 2) + l + 1]? = some (.label (labelName (2 * k))) ∧
      code[a + (n + 2) + l + 1 + 1]? = some (.label (labelName (2 * k + 1))) ∧
      ((Statement.choice condition body).code context k).length = n + 2 + l + 3 := by
  have heq : (Statement.choice condition body).code context k =
      guardCode (condition.code context) (labelName (2 * k)) ++ (body.code context (k + 1) ++
        [.goto (labelName (2 * k + 1)), .label (labelName (2 * k)),
          .label (labelName (2 * k + 1))]) := by
    simp [Statement.code, guardCode]
  rw [heq] at h ⊢
  have hrest := h.right
  rw [length_guardCode] at hrest
  have hend := hrest.right
  refine ⟨h.left, hrest.left, hend.head, hend.tail.head, hend.tail.tail.head, ?_⟩
  simp only [List.length_append, length_guardCode, List.length_cons, List.length_nil]
  omega

theorem choiceElse_layout
    (h : CodeAt code a ((Statement.choiceElse condition body otherwise).code context k)) :
    let n := (condition.code context).length
    let l := (body.code context (k + 1)).length
    let e := (otherwise.code context (k + 1 + body.branches)).length
    CodeAt code a (guardCode (condition.code context) (labelName (2 * k))) ∧
      CodeAt code (a + (n + 2)) (body.code context (k + 1)) ∧
      code[a + (n + 2) + l]? = some (.goto (labelName (2 * k + 1))) ∧
      code[a + (n + 2) + l + 1]? = some (.label (labelName (2 * k))) ∧
      CodeAt code (a + (n + 2) + l + 1 + 1) (otherwise.code context (k + 1 + body.branches)) ∧
      code[a + (n + 2) + l + 1 + 1 + e]? = some (.label (labelName (2 * k + 1))) ∧
      ((Statement.choiceElse condition body otherwise).code context k).length =
        n + 2 + l + 2 + e + 1 := by
  have heq : (Statement.choiceElse condition body otherwise).code context k =
      guardCode (condition.code context) (labelName (2 * k)) ++ (body.code context (k + 1) ++
        .goto (labelName (2 * k + 1)) :: .label (labelName (2 * k)) ::
          (otherwise.code context (k + 1 + body.branches) ++
            [.label (labelName (2 * k + 1))])) := by
    simp [Statement.code, guardCode]
  rw [heq] at h ⊢
  have hrest := h.right
  rw [length_guardCode] at hrest
  have hend := hrest.right
  refine ⟨h.left, hrest.left, hend.head, hend.tail.head, hend.tail.tail.left,
    hend.tail.tail.right.head, ?_⟩
  simp only [List.length_append, length_guardCode, List.length_cons, List.length_nil]
  omega

theorem loop_layout (h : CodeAt code a ((Statement.loop condition body).code context k)) :
    let n := (condition.code context).length
    let l := (body.code context (k + 1)).length
    code[a]? = some (.label (labelName (2 * k))) ∧
      CodeAt code (a + 1) (guardCode (condition.code context) (labelName (2 * k + 1))) ∧
      CodeAt code (a + 1 + (n + 2)) (body.code context (k + 1)) ∧
      code[a + 1 + (n + 2) + l]? = some (.goto (labelName (2 * k))) ∧
      code[a + 1 + (n + 2) + l + 1]? = some (.label (labelName (2 * k + 1))) ∧
      ((Statement.loop condition body).code context k).length = 1 + (n + 2) + l + 2 := by
  have heq : (Statement.loop condition body).code context k =
      .label (labelName (2 * k)) ::
        (guardCode (condition.code context) (labelName (2 * k + 1)) ++
          (body.code context (k + 1) ++
            [.goto (labelName (2 * k)), .label (labelName (2 * k + 1))])) := by
    simp [Statement.code, guardCode]
  rw [heq] at h ⊢
  have hrest := h.tail.right
  rw [length_guardCode] at hrest
  have hend := hrest.right
  refine ⟨h.head, h.tail.left, hrest.left, hend.head, hend.tail.head, ?_⟩
  simp only [List.length_append, length_guardCode, List.length_cons, List.length_nil]
  omega

end Layout

/-! ### What executes is what the code does -/

section Forward

variable {context : Context} {condition : Expression} {body otherwise : Statements} {k : Nat}
  {s : State Memory} {rest : List Word} {memory : Memory} {word : Word} {o : Outcome Memory}

/-- A statement that is straight code. -/
theorem ends_of_runs {x : Statement} {t : State Memory}
    (hcode : CodeAt code a (x.code context k)) (hstraight : AllStraight (x.code context k))
    (hruns : m.Runs (x.code context k) s t) :
    Ends m code a (a + (x.code context k).length) s (.normal t) :=
  Ends.normal_iff.2 (Reaches.of_runs hcode hstraight hruns)

theorem choice_ends (hcode : CodeAt code a ((Statement.choice condition body).code context k))
    (hcondition : m.Runs (condition.code context) s ⟨.allOnes 16 :: rest, memory⟩)
    (hbody : ∀ c, CodeAt code c (body.code context (k + 1)) →
      Ends m code c (c + (body.code context (k + 1)).length) ⟨rest, memory⟩ o) :
    Ends m code a (a + ((Statement.choice condition body).code context k).length) s o := by
  have hfree := hcode.functionFree ((Statement.choice condition body).noFunction context k)
  obtain ⟨hguard, hblock, hgoto, -, hdone, hlength⟩ := choice_layout hcode
  obtain ⟨b, hb⟩ : ∃ b, b = a + ((Statement.choice condition body).code context k).length :=
    ⟨_, rfl⟩
  rw [← hb] at hfree ⊢
  have hbefore : Reaches m code a b _ _ := Reaches.guard_holds hguard
    (condition.code_straight context) (Nat.le_refl a) (by omega) hcondition
  have hends := hbody _ hblock
  cases o with
  | returned word t => exact hends.ofReturn hbefore (by omega) (by omega)
  | normal t =>
    have hinner := (Ends.normal_iff.1 hends).mono (a := a) (b := b) (by omega) (by omega)
    have hafter : Reaches m code a b _ ⟨b, t⟩ := Reaches.goto hgoto hdone hfree (by omega)
      (by omega) (Reaches.label hdone (by omega) (by omega) (by
        rw [show a + ((condition.code context).length + 2) + (body.code context (k + 1)).length
          + 1 + 1 + 1 = b by omega]
        exact Reaches.refl))
    exact Ends.normal_iff.2 (hbefore.trans (hinner.trans hafter))

theorem choice_ends_skipped
    (hcode : CodeAt code a ((Statement.choice condition body).code context k))
    (hcondition : m.Runs (condition.code context) s ⟨word :: rest, memory⟩)
    (hword : word ≠ .allOnes 16) :
    Ends m code a (a + ((Statement.choice condition body).code context k).length) s
      (.normal ⟨rest, memory⟩) := by
  have hfree := hcode.functionFree ((Statement.choice condition body).noFunction context k)
  obtain ⟨hguard, -, -, hotherwise, hdone, hlength⟩ := choice_layout hcode
  obtain ⟨b, hb⟩ : ∃ b, b = a + ((Statement.choice condition body).code context k).length :=
    ⟨_, rfl⟩
  rw [← hb] at hfree ⊢
  have hbefore : Reaches m code a b _ _ := Reaches.guard_fails hguard
    (condition.code_straight context) (Nat.le_refl a) (by omega) hfree hotherwise (by omega) hword
    hcondition
  have hafter : Reaches m code a b _ ⟨b, ⟨rest, memory⟩⟩ :=
    Reaches.label hotherwise (by omega) (by omega) (Reaches.label hdone (by omega) (by omega) (by
      rw [show a + ((condition.code context).length + 2) + (body.code context (k + 1)).length
        + 1 + 1 + 1 = b by omega]
      exact Reaches.refl))
  exact Ends.normal_iff.2 (hbefore.trans hafter)

theorem choiceElse_ends
    (hcode : CodeAt code a ((Statement.choiceElse condition body otherwise).code context k))
    (hcondition : m.Runs (condition.code context) s ⟨.allOnes 16 :: rest, memory⟩)
    (hbody : ∀ c, CodeAt code c (body.code context (k + 1)) →
      Ends m code c (c + (body.code context (k + 1)).length) ⟨rest, memory⟩ o) :
    Ends m code a (a + ((Statement.choiceElse condition body otherwise).code context k).length) s
      o := by
  have hfree := hcode.functionFree
    ((Statement.choiceElse condition body otherwise).noFunction context k)
  obtain ⟨hguard, hblock, hgoto, -, -, hdone, hlength⟩ := choiceElse_layout hcode
  obtain ⟨b, hb⟩ :
      ∃ b, b = a + ((Statement.choiceElse condition body otherwise).code context k).length :=
    ⟨_, rfl⟩
  rw [← hb] at hfree ⊢
  have hbefore : Reaches m code a b _ _ := Reaches.guard_holds hguard
    (condition.code_straight context) (Nat.le_refl a) (by omega) hcondition
  have hends := hbody _ hblock
  cases o with
  | returned word t => exact hends.ofReturn hbefore (by omega) (by omega)
  | normal t =>
    have hinner := (Ends.normal_iff.1 hends).mono (a := a) (b := b) (by omega) (by omega)
    have hafter : Reaches m code a b _ ⟨b, t⟩ := Reaches.goto hgoto hdone hfree (by omega)
      (by omega) (Reaches.label hdone (by omega) (by omega) (by
        rw [show a + ((condition.code context).length + 2) + (body.code context (k + 1)).length
          + 1 + 1 + (otherwise.code context (k + 1 + body.branches)).length + 1 = b by omega]
        exact Reaches.refl))
    exact Ends.normal_iff.2 (hbefore.trans (hinner.trans hafter))

theorem choiceElse_ends_otherwise
    (hcode : CodeAt code a ((Statement.choiceElse condition body otherwise).code context k))
    (hcondition : m.Runs (condition.code context) s ⟨word :: rest, memory⟩)
    (hword : word ≠ .allOnes 16)
    (hotherwise : ∀ c, CodeAt code c (otherwise.code context (k + 1 + body.branches)) →
      Ends m code c (c + (otherwise.code context (k + 1 + body.branches)).length)
        ⟨rest, memory⟩ o) :
    Ends m code a (a + ((Statement.choiceElse condition body otherwise).code context k).length) s
      o := by
  have hfree := hcode.functionFree
    ((Statement.choiceElse condition body otherwise).noFunction context k)
  obtain ⟨hguard, -, -, hlabel, hblock, hdone, hlength⟩ := choiceElse_layout hcode
  obtain ⟨b, hb⟩ :
      ∃ b, b = a + ((Statement.choiceElse condition body otherwise).code context k).length :=
    ⟨_, rfl⟩
  rw [← hb] at hfree ⊢
  have hjump : Reaches m code a b _ _ := Reaches.guard_fails hguard
    (condition.code_straight context) (Nat.le_refl a) (by omega) hfree hlabel (by omega) hword
    hcondition
  have hbefore := hjump.trans (Reaches.label hlabel (by omega) (by omega) Reaches.refl)
  have hends := hotherwise _ hblock
  cases o with
  | returned word t => exact hends.ofReturn hbefore (by omega) (by omega)
  | normal t =>
    have hinner := (Ends.normal_iff.1 hends).mono (a := a) (b := b) (by omega) (by omega)
    have hafter : Reaches m code a b _ ⟨b, t⟩ := Reaches.label hdone (by omega) (by omega) (by
        rw [show a + ((condition.code context).length + 2) + (body.code context (k + 1)).length
          + 1 + 1 + (otherwise.code context (k + 1 + body.branches)).length + 1 = b by omega]
        exact Reaches.refl)
    exact Ends.normal_iff.2 (hbefore.trans (hinner.trans hafter))

theorem loop_ends_done (hcode : CodeAt code a ((Statement.loop condition body).code context k))
    (hcondition : m.Runs (condition.code context) s ⟨word :: rest, memory⟩)
    (hword : word ≠ .allOnes 16) :
    Ends m code a (a + ((Statement.loop condition body).code context k).length) s
      (.normal ⟨rest, memory⟩) := by
  have hfree := hcode.functionFree ((Statement.loop condition body).noFunction context k)
  obtain ⟨htop, hguard, -, -, hdone, hlength⟩ := loop_layout hcode
  obtain ⟨b, hb⟩ : ∃ b, b = a + ((Statement.loop condition body).code context k).length :=
    ⟨_, rfl⟩
  rw [← hb] at hfree ⊢
  have hbefore : Reaches m code a b _ _ := Reaches.guard_fails hguard
    (condition.code_straight context) (Nat.le_succ a) (by omega) hfree hdone (by omega) hword
    hcondition
  have hafter : Reaches m code a b _ ⟨b, ⟨rest, memory⟩⟩ :=
    Reaches.label hdone (by omega) (by omega) (by
      rw [show a + 1 + ((condition.code context).length + 2) + (body.code context (k + 1)).length
        + 1 + 1 = b by omega]
      exact Reaches.refl)
  exact Ends.normal_iff.2 (Reaches.label htop (Nat.le_refl a) (by omega) (hbefore.trans hafter))

/-- A loop whose condition holds runs its block, and starts again if it gets to the end of it. -/
theorem loop_ends_again (hcode : CodeAt code a ((Statement.loop condition body).code context k))
    (hcondition : m.Runs (condition.code context) s ⟨.allOnes 16 :: rest, memory⟩)
    {t : State Memory}
    (hbody : ∀ c, CodeAt code c (body.code context (k + 1)) →
      Ends m code c (c + (body.code context (k + 1)).length) ⟨rest, memory⟩ (.normal t))
    (hloop : Ends m code a (a + ((Statement.loop condition body).code context k).length) t o) :
    Ends m code a (a + ((Statement.loop condition body).code context k).length) s o := by
  have hfree := hcode.functionFree ((Statement.loop condition body).noFunction context k)
  obtain ⟨htop, hguard, hblock, hgoto, -, hlength⟩ := loop_layout hcode
  obtain ⟨b, hb⟩ : ∃ b, b = a + ((Statement.loop condition body).code context k).length :=
    ⟨_, rfl⟩
  rw [← hb] at hfree hloop ⊢
  have hstart : Reaches m code a b _ _ := Reaches.guard_holds hguard
    (condition.code_straight context) (Nat.le_succ a) (by omega) hcondition
  have hbefore := Reaches.label htop (Nat.le_refl a) (by omega) hstart
  have hinner := (Ends.normal_iff.1 (hbody _ hblock)).mono (a := a) (b := b) (by omega) (by omega)
  have hback := hbefore.trans (hinner.trans
    (Reaches.goto hgoto htop hfree (by omega) (by omega) Reaches.refl))
  exact Ends.after hback hloop (Nat.le_refl a)

theorem loop_ends_returned
    (hcode : CodeAt code a ((Statement.loop condition body).code context k))
    (hcondition : m.Runs (condition.code context) s ⟨.allOnes 16 :: rest, memory⟩)
    {t : State Memory}
    (hbody : ∀ c, CodeAt code c (body.code context (k + 1)) →
      Ends m code c (c + (body.code context (k + 1)).length) ⟨rest, memory⟩ (.returned word t)) :
    Ends m code a (a + ((Statement.loop condition body).code context k).length) s
      (.returned word t) := by
  obtain ⟨htop, hguard, hblock, -, -, hlength⟩ := loop_layout hcode
  obtain ⟨b, hb⟩ : ∃ b, b = a + ((Statement.loop condition body).code context k).length :=
    ⟨_, rfl⟩
  rw [← hb]
  have hstart : Reaches m code a b _ _ := Reaches.guard_holds hguard
    (condition.code_straight context) (Nat.le_succ a) (by omega) hcondition
  have hbefore := Reaches.label htop (Nat.le_refl a) (by omega) hstart
  exact (hbody _ hblock).ofReturn hbefore (by omega) (by omega)

theorem return_ends {x : List Command} (hcode : CodeAt code a (x ++ [.ret]))
    (hstraight : AllStraight x) (hruns : m.Runs x s ⟨word :: rest, memory⟩) :
    Ends m code a (a + (x ++ [Command.ret]).length) s
      (.returned word ⟨word :: rest, memory⟩) := by
  have hreaches := Reaches.of_runs hcode.left hstraight hruns
  have hlength : (x ++ [Command.ret]).length = x.length + 1 := by simp
  refine Ends.returned_iff.2 ⟨a + x.length, by omega, by omega, hcode.right.head, rfl, ?_⟩
  exact hreaches.mono (Nat.le_refl a) (by omega)

theorem cons_ends {x y : List Command} {t : State Memory}
    (hfirst : Ends m code a (a + x.length) s (.normal t))
    (hrest : Ends m code (a + x.length) (a + x.length + y.length) t o) :
    Ends m code a (a + (x ++ y).length) s o := by
  have hbefore := Ends.normal_iff.1 hfirst
  rw [List.length_append, ← Nat.add_assoc]
  exact Ends.after (hbefore.mono (Nat.le_refl a) (Nat.le_add_right _ _)) hrest
    (Nat.le_add_right _ _)

theorem cons_ends_returned {x y : List Command} {t : State Memory}
    (hfirst : Ends m code a (a + x.length) s (.returned word t)) :
    Ends m code a (a + (x ++ y).length) s (.returned word t) := by
  rw [List.length_append, ← Nat.add_assoc]
  exact hfirst.ofReturn Reaches.refl (Nat.le_refl a) (Nat.le_add_right _ _)

end Forward

mutual

theorem Statement.Executes.ends {context : Context} :
    ∀ {x : Statement} {s : State Memory} {o : Outcome Memory}, x.Executes m context s o →
      ∀ {a k : Nat}, CodeAt code a (x.code context k) →
        Ends m code a (a + (x.code context k).length) s o
  | _, _, _, .assign hruns, _, _, hcode => ends_of_runs hcode (assign_straight _ _ _ _) hruns
  | _, _, _, .assignElement hruns, _, _, hcode =>
    ends_of_runs hcode (assignElement_straight _ _ _ _ _) hruns
  | _, _, _, .invoke hruns, _, _, hcode => ends_of_runs hcode (invoke_straight _ _ _) hruns
  | _, _, _, .choice hcondition hbody, _, _, hcode =>
    choice_ends hcode hcondition fun _ hblock => hbody.ends hblock
  | _, _, _, .choiceSkipped hcondition hword, _, _, hcode =>
    choice_ends_skipped hcode hcondition hword
  | _, _, _, .choiceThen hcondition hbody, _, _, hcode =>
    choiceElse_ends hcode hcondition fun _ hblock => hbody.ends hblock
  | _, _, _, .choiceElse hcondition hword hotherwise, _, _, hcode =>
    choiceElse_ends_otherwise hcode hcondition hword fun _ hblock => hotherwise.ends hblock
  | _, _, _, .loopDone hcondition hword, _, _, hcode => loop_ends_done hcode hcondition hword
  | _, _, _, .loopAgain hcondition hbody hloop, _, _, hcode =>
    loop_ends_again hcode hcondition (fun _ hblock => hbody.ends hblock) (hloop.ends hcode)
  | _, _, _, .loopReturned hcondition hbody, _, _, hcode =>
    loop_ends_returned hcode hcondition fun _ hblock => hbody.ends hblock
  | _, _, _, .returnNothing hruns, _, _, hcode =>
    return_ends (x := [.push .constant 0]) hcode (allStraight_cons.2 ⟨rfl, allStraight_nil⟩) hruns
  | _, _, _, .returnValue hruns, _, _, hcode =>
    return_ends hcode (Expression.code_straight _ _) hruns

theorem Statements.Executes.ends {context : Context} :
    ∀ {x : Statements} {s : State Memory} {o : Outcome Memory}, x.Executes m context s o →
      ∀ {a k : Nat}, CodeAt code a (x.code context k) →
        Ends m code a (a + (x.code context k).length) s o
  | _, _, _, .nil, _, _, _ => Ends.normal_iff.2 Reaches.refl
  | _, _, _, .cons hfirst hrest, _, _, hcode =>
    cons_ends (hfirst.ends (CodeAt.left hcode)) (hrest.ends (CodeAt.right hcode))
  | _, _, _, .returned hfirst, _, _, hcode => cons_ends_returned (hfirst.ends (CodeAt.left hcode))

end

/-! ### What the code does is what executes -/

/-- Runs of the part in at most `n` steps end as `executes` says. -/
def Follows (m : Machine Memory) (code part : List Command) (n : Nat)
    (executes : State Memory → Outcome Memory → Prop) : Prop :=
  ∀ i, i ≤ n → ∀ c s q, CodeAt code c part → Path m code c (c + part.length) i ⟨c, s⟩ q →
    Final code c (c + part.length) q → ∃ o, Result code c (c + part.length) q o ∧ executes s o

section Backward

variable {context : Context} {condition : Expression} {body otherwise : Statements} {k n : Nat}
  {s : State Memory} {r : Point Memory}

/-- A run at the start of a part either gets to the end of it or returns there. -/
theorem Follows.block {part : List Command} {executes : State Memory → Outcome Memory → Prop}
    {i : Nat} (hpart : Follows m code part n executes) (hcode : CodeAt code c part)
    (h : Path m code a b i ⟨c, s⟩ r) (hi : i ≤ n) (hr : Final code a b r) (ha : a ≤ c)
    (hb : c + part.length ≤ b) :
    (∃ t j, executes s (.normal t) ∧ Path m code a b j ⟨c + part.length, t⟩ r ∧ j ≤ i) ∨
      ∃ word t, executes s (.returned word t) ∧ Result code a b r (.returned word t) := by
  obtain ⟨q, k, j, hinner, hq, hafter, hsum⟩ := h.visit hr ha hb
  obtain ⟨o, hresult, hexecutes⟩ := hpart k (by omega) c s q hcode hinner hq
  cases o with
  | normal t =>
    obtain rfl : q = ⟨c + part.length, t⟩ := hresult
    exact Or.inl ⟨t, j, hexecutes, hafter, by omega⟩
  | returned word t =>
    obtain rfl := hafter.eq_of_ret hresult.2.2.1
    exact Or.inr ⟨word, t, hexecutes, hresult.mono ha hb⟩

/-- A run at the end has ended. -/
theorem result_of_path {place : Nat} {t : State Memory} (h : Path m code a b n ⟨place, t⟩ r)
    (hplace : place = b) : Result code a b r (.normal t) := by
  subst hplace
  exact (h.eq_of_out fun hin => Nat.lt_irrefl _ hin.2).symm

theorem runs_of_path {x : Statement} (hcode : CodeAt code a (x.code context k))
    (hstraight : AllStraight (x.code context k))
    (h : Path m code a (a + (x.code context k).length) n ⟨a, s⟩ r)
    (hr : Final code a (a + (x.code context k).length) r) :
    ∃ t, Result code a (a + (x.code context k).length) r (.normal t) ∧
      m.Runs (x.code context k) s t := by
  obtain ⟨t, j, hruns, hpath, -⟩ :=
    h.runs_of_straight hcode hstraight hr (Nat.le_refl a) (Nat.le_refl _)
  exact ⟨t, result_of_path hpath rfl, hruns⟩

theorem choice_executes (hunique : UniqueLabels code)
    (hcode : CodeAt code a ((Statement.choice condition body).code context k))
    (h : Path m code a (a + ((Statement.choice condition body).code context k).length) n ⟨a, s⟩ r)
    (hr : Final code a (a + ((Statement.choice condition body).code context k).length) r)
    (hbody : Follows m code (body.code context (k + 1)) n (body.Executes m context)) :
    ∃ o, Result code a (a + ((Statement.choice condition body).code context k).length) r o ∧
      (Statement.choice condition body).Executes m context s o := by
  obtain ⟨hguard, hblock, hgoto, hotherwise, hdone, hlength⟩ := choice_layout hcode
  obtain ⟨b, hb⟩ : ∃ b, b = a + ((Statement.choice condition body).code context k).length :=
    ⟨_, rfl⟩
  rw [← hb] at h hr ⊢
  obtain ⟨word, rest, memory, i, hcondition, hi, hcases⟩ := h.guard hr hunique hguard
    (condition.code_straight context) (Nat.le_refl a) (by omega) hotherwise
  rcases hcases with ⟨rfl, hpath⟩ | ⟨hword, hpath⟩
  · rcases hbody.block hblock hpath (by omega) hr (by omega) (by omega) with
      ⟨t, j, hexecutes, hafter, -⟩ | ⟨word, t, hexecutes, hresult⟩
    · obtain ⟨j, hafter, -⟩ := hafter.goto hr hunique hgoto hdone (by omega) (by omega)
      obtain ⟨j, hafter, -⟩ := hafter.label hr hdone (by omega) (by omega)
      exact ⟨.normal t, result_of_path hafter (by omega), .choice hcondition hexecutes⟩
    · exact ⟨.returned word t, hresult, .choice hcondition hexecutes⟩
  · obtain ⟨j, hafter, -⟩ := hpath.label hr hotherwise (by omega) (by omega)
    obtain ⟨j, hafter, -⟩ := hafter.label hr hdone (by omega) (by omega)
    exact ⟨.normal ⟨rest, memory⟩, result_of_path hafter (by omega),
      .choiceSkipped hcondition hword⟩

theorem choiceElse_executes (hunique : UniqueLabels code)
    (hcode : CodeAt code a ((Statement.choiceElse condition body otherwise).code context k))
    (h : Path m code a (a + ((Statement.choiceElse condition body otherwise).code context k).length)
      n ⟨a, s⟩ r)
    (hr : Final code a
      (a + ((Statement.choiceElse condition body otherwise).code context k).length) r)
    (hbody : Follows m code (body.code context (k + 1)) n (body.Executes m context))
    (hother : Follows m code (otherwise.code context (k + 1 + body.branches)) n
      (otherwise.Executes m context)) :
    ∃ o, Result code a
        (a + ((Statement.choiceElse condition body otherwise).code context k).length) r o ∧
      (Statement.choiceElse condition body otherwise).Executes m context s o := by
  obtain ⟨hguard, hblock, hgoto, hlabel, hsecond, hdone, hlength⟩ := choiceElse_layout hcode
  obtain ⟨b, hb⟩ :
      ∃ b, b = a + ((Statement.choiceElse condition body otherwise).code context k).length :=
    ⟨_, rfl⟩
  rw [← hb] at h hr ⊢
  obtain ⟨word, rest, memory, i, hcondition, hi, hcases⟩ := h.guard hr hunique hguard
    (condition.code_straight context) (Nat.le_refl a) (by omega) hlabel
  rcases hcases with ⟨rfl, hpath⟩ | ⟨hword, hpath⟩
  · rcases hbody.block hblock hpath (by omega) hr (by omega) (by omega) with
      ⟨t, j, hexecutes, hafter, -⟩ | ⟨word, t, hexecutes, hresult⟩
    · obtain ⟨j, hafter, -⟩ := hafter.goto hr hunique hgoto hdone (by omega) (by omega)
      obtain ⟨j, hafter, -⟩ := hafter.label hr hdone (by omega) (by omega)
      exact ⟨.normal t, result_of_path hafter (by omega), .choiceThen hcondition hexecutes⟩
    · exact ⟨.returned word t, hresult, .choiceThen hcondition hexecutes⟩
  · obtain ⟨j, hafter, hj⟩ := hpath.label hr hlabel (by omega) (by omega)
    rcases hother.block hsecond hafter (by omega) hr (by omega) (by omega) with
      ⟨t, j, hexecutes, hafter, -⟩ | ⟨word', t, hexecutes, hresult⟩
    · obtain ⟨j, hafter, -⟩ := hafter.label hr hdone (by omega) (by omega)
      exact ⟨.normal t, result_of_path hafter (by omega),
        .choiceElse hcondition hword hexecutes⟩
    · exact ⟨.returned word' t, hresult, .choiceElse hcondition hword hexecutes⟩

/-- A run that comes back to the start of a loop has taken at least one step. -/
theorem loop_executes (hunique : UniqueLabels code)
    (hcode : CodeAt code a ((Statement.loop condition body).code context k))
    (h : Path m code a (a + ((Statement.loop condition body).code context k).length) n ⟨a, s⟩ r)
    (hr : Final code a (a + ((Statement.loop condition body).code context k).length) r)
    (hbody : Follows m code (body.code context (k + 1)) n (body.Executes m context))
    (hloop : ∀ i t, i < n →
      Path m code a (a + ((Statement.loop condition body).code context k).length) i ⟨a, t⟩ r →
      ∃ o, Result code a (a + ((Statement.loop condition body).code context k).length) r o ∧
        (Statement.loop condition body).Executes m context t o) :
    ∃ o, Result code a (a + ((Statement.loop condition body).code context k).length) r o ∧
      (Statement.loop condition body).Executes m context s o := by
  obtain ⟨htop, hguard, hblock, hgoto, hdone, hlength⟩ := loop_layout hcode
  obtain ⟨b, hb⟩ : ∃ b, b = a + ((Statement.loop condition body).code context k).length :=
    ⟨_, rfl⟩
  rw [← hb] at h hr hloop ⊢
  obtain ⟨i, hstart, hi⟩ := h.label hr htop (Nat.le_refl a) (by omega)
  obtain ⟨word, rest, memory, j, hcondition, hj, hcases⟩ := hstart.guard hr hunique hguard
    (condition.code_straight context) (Nat.le_succ a) (by omega) hdone
  rcases hcases with ⟨rfl, hpath⟩ | ⟨hword, hpath⟩
  · rcases hbody.block hblock hpath (by omega) hr (by omega) (by omega) with
      ⟨t, l, hexecutes, hafter, hl⟩ | ⟨word, t, hexecutes, hresult⟩
    · obtain ⟨l', hback, hl'⟩ := hafter.goto hr hunique hgoto htop (by omega) (by omega)
      obtain ⟨o, hresult, hagain⟩ := hloop l' t (by omega) hback
      exact ⟨o, hresult, .loopAgain hcondition hexecutes hagain⟩
    · exact ⟨.returned word t, hresult, .loopReturned hcondition hexecutes⟩
  · obtain ⟨l, hafter, -⟩ := hpath.label hr hdone (by omega) (by omega)
    exact ⟨.normal ⟨rest, memory⟩, result_of_path hafter (by omega), .loopDone hcondition hword⟩

theorem return_executes {x : List Command} (hcode : CodeAt code a (x ++ [.ret]))
    (hstraight : AllStraight x)
    (h : Path m code a (a + (x ++ [Command.ret]).length) n ⟨a, s⟩ r)
    (hr : Final code a (a + (x ++ [Command.ret]).length) r) :
    ∃ word rest memory, m.Runs x s ⟨word :: rest, memory⟩ ∧
      Result code a (a + (x ++ [Command.ret]).length) r
        (.returned word ⟨word :: rest, memory⟩) := by
  have hlength : (x ++ [Command.ret]).length = x.length + 1 := by simp
  obtain ⟨t, j, hruns, hpath, -⟩ :=
    h.runs_of_straight hcode.left hstraight hr (Nat.le_refl a) (by omega)
  have hret : code[a + x.length]? = some .ret := hcode.right.head
  obtain rfl := hpath.eq_of_ret hret
  rcases hr with hout | ⟨-, hstack⟩
  · exact absurd ⟨Nat.le_add_right a _, by change a + x.length < _; omega⟩ hout
  · obtain ⟨word, rest, heq⟩ := List.exists_cons_of_ne_nil hstack
    obtain ⟨stack, memory⟩ := t
    obtain rfl : stack = word :: rest := heq
    refine ⟨word, rest, memory, hruns, Nat.le_add_right a _, ?_, hret, rfl, rfl⟩
    change a + x.length < _
    omega

theorem cons_executes {first : Statement} {rest : Statements}
    (hcode : CodeAt code a ((Statements.cons first rest).code context k))
    (h : Path m code a (a + ((Statements.cons first rest).code context k).length) n ⟨a, s⟩ r)
    (hr : Final code a (a + ((Statements.cons first rest).code context k).length) r)
    (hfirst : Follows m code (first.code context k) n (first.Executes m context))
    (hrest : Follows m code (rest.code context (k + first.branches)) n
      (rest.Executes m context)) :
    ∃ o, Result code a (a + ((Statements.cons first rest).code context k).length) r o ∧
      (Statements.cons first rest).Executes m context s o := by
  have hlength : ((Statements.cons first rest).code context k).length =
      (first.code context k).length + (rest.code context (k + first.branches)).length :=
    List.length_append
  obtain ⟨b, hb⟩ : ∃ b, b = a + ((Statements.cons first rest).code context k).length := ⟨_, rfl⟩
  rw [← hb] at h hr ⊢
  rcases hfirst.block (CodeAt.left hcode) h (Nat.le_refl n) hr (Nat.le_refl a) (by omega) with
    ⟨t, j, hexecutes, hafter, hj⟩ | ⟨word, t, hexecutes, hresult⟩
  · rcases hrest.block (CodeAt.right hcode) hafter hj hr (by omega) (by omega) with
      ⟨u, l, hothers, hend, -⟩ | ⟨word, u, hothers, hresult⟩
    · exact ⟨.normal u, result_of_path hend (by omega), .cons hexecutes hothers⟩
    · exact ⟨.returned word u, hresult, .cons hexecutes hothers⟩
  · exact ⟨.returned word t, hresult, .returned hexecutes⟩

end Backward

mutual

theorem Statement.executes_of_path {context : Context} (hunique : UniqueLabels code) :
    ∀ (x : Statement) {a k n : Nat} {s : State Memory} {r : Point Memory},
      CodeAt code a (x.code context k) →
      Path m code a (a + (x.code context k).length) n ⟨a, s⟩ r →
      Final code a (a + (x.code context k).length) r →
      ∃ o, Result code a (a + (x.code context k).length) r o ∧ x.Executes m context s o
  | .assign name value, _, _, _, _, _, hcode, h, hr => by
    obtain ⟨t, hresult, hruns⟩ := runs_of_path hcode (assign_straight _ _ _ _) h hr
    exact ⟨.normal t, hresult, .assign hruns⟩
  | .assignElement array index value, _, _, _, _, _, hcode, h, hr => by
    obtain ⟨t, hresult, hruns⟩ := runs_of_path hcode (assignElement_straight _ _ _ _ _) h hr
    exact ⟨.normal t, hresult, .assignElement hruns⟩
  | .invoke call, _, _, _, _, _, hcode, h, hr => by
    obtain ⟨t, hresult, hruns⟩ := runs_of_path hcode (invoke_straight _ _ _) h hr
    exact ⟨.normal t, hresult, .invoke hruns⟩
  | .choice condition body, _, _, _, _, _, hcode, h, hr =>
    choice_executes hunique hcode h hr fun _ hi _ _ _ hblock hpath hq =>
      body.executes_of_path hunique hblock hpath hq
  | .choiceElse condition body otherwise, _, _, _, _, _, hcode, h, hr =>
    choiceElse_executes hunique hcode h hr
      (fun _ hi _ _ _ hblock hpath hq => body.executes_of_path hunique hblock hpath hq)
      (fun _ hi _ _ _ hblock hpath hq => otherwise.executes_of_path hunique hblock hpath hq)
  | .loop condition body, _, _, _, _, _, hcode, h, hr =>
    loop_executes hunique hcode h hr
      (fun _ hi _ _ _ hblock hpath hq => body.executes_of_path hunique hblock hpath hq)
      (fun _ _ hi hback => (Statement.loop condition body).executes_of_path hunique hcode hback hr)
  | .returnNothing, _, _, _, _, _, hcode, h, hr => by
    obtain ⟨word, rest, memory, hruns, hresult⟩ := return_executes (x := [.push .constant 0]) hcode
      (allStraight_cons.2 ⟨rfl, allStraight_nil⟩) h hr
    exact ⟨_, hresult, .returnNothing hruns⟩
  | .returnValue value, _, _, _, _, _, hcode, h, hr => by
    obtain ⟨word, rest, memory, hruns, hresult⟩ :=
      return_executes hcode (value.code_straight context) h hr
    exact ⟨_, hresult, .returnValue hruns⟩
termination_by x _ _ n => (n, sizeOf x)
decreasing_by
  all_goals
    simp_wf
    rw [Prod.lex_def]
    dsimp only
    omega

theorem Statements.executes_of_path {context : Context} (hunique : UniqueLabels code) :
    ∀ (x : Statements) {a k n : Nat} {s : State Memory} {r : Point Memory},
      CodeAt code a (x.code context k) →
      Path m code a (a + (x.code context k).length) n ⟨a, s⟩ r →
      Final code a (a + (x.code context k).length) r →
      ∃ o, Result code a (a + (x.code context k).length) r o ∧ x.Executes m context s o
  | .nil, _, _, _, s, _, _, h, _ => ⟨.normal s, result_of_path h rfl, .nil⟩
  | .cons first rest, _, k, n, _, _, hcode, h, hr =>
    cons_executes hcode h hr
      (fun _ _ _ _ _ hblock hpath hq => first.executes_of_path hunique hblock hpath hq)
      (fun _ _ _ _ _ hblock hpath hq => rest.executes_of_path hunique hblock hpath hq)
termination_by x _ _ n => (n, sizeOf x)
decreasing_by
  all_goals
    simp_wf
    rw [Prod.lex_def]
    dsimp only
    omega

end

/-- The code of statements ends as the statements do, and in no other way. -/
theorem Statements.ends_iff {context : Context} (hunique : UniqueLabels code) {x : Statements}
    {k : Nat} (hcode : CodeAt code a (x.code context k)) (s : State Memory) (o : Outcome Memory) :
    Ends m code a (a + (x.code context k).length) s o ↔ x.Executes m context s o := by
  constructor
  · rintro ⟨r, hresult, n, hpath⟩
    obtain ⟨o', hresult', hexecutes⟩ := x.executes_of_path hunique hcode hpath hresult.final
    rwa [hresult.unique hresult']
  · intro h
    exact h.ends hcode

/-! ### Statements inside statements -/

/-- The statements `y`, whose first choice or loop has number `j`, stand in the statements `x`,
whose first one has number `k`. -/
inductive Inside : Nat → Statements → Nat → Statements → Prop where
  | refl {k x} : Inside k x k x
  | rest {k first rest j y} (h : Inside (k + first.branches) rest j y) :
      Inside k (.cons first rest) j y
  | choice {k condition body rest j y} (h : Inside (k + 1) body j y) :
      Inside k (.cons (.choice condition body) rest) j y
  | choiceThen {k condition body otherwise rest j y} (h : Inside (k + 1) body j y) :
      Inside k (.cons (.choiceElse condition body otherwise) rest) j y
  | choiceElse {k condition body otherwise rest j y}
      (h : Inside (k + 1 + body.branches) otherwise j y) :
      Inside k (.cons (.choiceElse condition body otherwise) rest) j y
  | loop {k condition body rest j y} (h : Inside (k + 1) body j y) :
      Inside k (.cons (.loop condition body) rest) j y

theorem Inside.codeAt {context : Context} {k j : Nat} {x y : Statements} (h : Inside k x j y)
    {a : Nat} (hcode : CodeAt code a (x.code context k)) :
    ∃ c, CodeAt code c (y.code context j) ∧ a ≤ c ∧
      c + (y.code context j).length ≤ a + (x.code context k).length := by
  induction h generalizing a with
  | refl => exact ⟨a, hcode, Nat.le_refl a, Nat.le_refl _⟩
  | @rest k first rest j y _ ih =>
    obtain ⟨c, hinner, hlow, hhigh⟩ := ih (CodeAt.right hcode)
    refine ⟨c, hinner, by omega, ?_⟩
    rw [Statements.code, List.length_append]
    omega
  | @choice k condition body rest j y _ ih =>
    obtain ⟨-, hblock, -, -, -, hlength⟩ := choice_layout (CodeAt.left hcode)
    obtain ⟨c, hinner, hlow, hhigh⟩ := ih hblock
    refine ⟨c, hinner, by omega, ?_⟩
    rw [Statements.code, List.length_append]
    omega
  | @choiceThen k condition body otherwise rest j y _ ih =>
    obtain ⟨-, hblock, -, -, -, -, hlength⟩ := choiceElse_layout (CodeAt.left hcode)
    obtain ⟨c, hinner, hlow, hhigh⟩ := ih hblock
    refine ⟨c, hinner, by omega, ?_⟩
    rw [Statements.code, List.length_append]
    omega
  | @choiceElse k condition body otherwise rest j y _ ih =>
    obtain ⟨-, -, -, -, hblock, -, hlength⟩ := choiceElse_layout (CodeAt.left hcode)
    obtain ⟨c, hinner, hlow, hhigh⟩ := ih hblock
    refine ⟨c, hinner, by omega, ?_⟩
    rw [Statements.code, List.length_append]
    omega
  | @loop k condition body rest j y _ ih =>
    obtain ⟨-, -, hblock, -, -, hlength⟩ := loop_layout (CodeAt.left hcode)
    obtain ⟨c, hinner, hlow, hhigh⟩ := ih hblock
    refine ⟨c, hinner, by omega, ?_⟩
    rw [Statements.code, List.length_append]
    omega

/-- The code of every subroutine stands in the code of its class. -/
theorem Class.codeAt {tree : Class} {k : Nat} {subroutine : Subroutine}
    (h : (k, subroutine) ∈ numbered 0 tree.subroutines) :
    ∃ a, CodeAt tree.code a (subroutine.code (subroutine.context tree) k) :=
  CodeAt.of_mem_flatMap h

/-- The code of any statements of a subroutine stands in the code of the subroutine. -/
theorem Inside.codeAt_subroutine {context : Context} {k j : Nat} {subroutine : Subroutine}
    {x : Statements} (h : Inside k subroutine.body j x)
    (hcode : CodeAt code a (subroutine.code context k)) :
    ∃ c, CodeAt code c (x.code context j) ∧ a < c ∧
      c + (x.code context j).length ≤ a + (subroutine.code context k).length := by
  have hbody := hcode.tail.right
  obtain ⟨c, hinner, hlow, hhigh⟩ := h.codeAt hbody
  refine ⟨c, hinner, by omega, ?_⟩
  rw [Subroutine.code, List.length_cons, List.length_append]
  omega

/-- Any machine runs the commands of these statements, which stand in the code from `a` on, as the
statements say: from the first command it gets to the place behind the last one in exactly the
states in which the statements end, and to a return with exactly the words that they return. -/
structure Statements.PreservedAt (code : List Command) (a : Nat) (context : Context) (k : Nat)
    (x : Statements) : Prop where
  codeAt : CodeAt code a (x.code context k)
  normal : ∀ (Memory : Type) (m : Machine Memory) s t,
    Reaches m code a (a + (x.code context k).length) ⟨a, s⟩
        ⟨a + (x.code context k).length, t⟩ ↔
      x.Executes m context s (.normal t)
  returned : ∀ (Memory : Type) (m : Machine Memory) s word t,
    (∃ place, a ≤ place ∧ place < a + (x.code context k).length ∧ code[place]? = some .ret ∧
        t.stack.head? = some word ∧
        Reaches m code a (a + (x.code context k).length) ⟨a, s⟩ ⟨place, t⟩) ↔
      x.Executes m context s (.returned word t)

theorem Statements.preservedAt {context : Context} (hunique : UniqueLabels code) {x : Statements}
    {k : Nat} (hcode : CodeAt code a (x.code context k)) : x.PreservedAt code a context k := by
  refine ⟨hcode, ?_, ?_⟩
  · intro Memory m s t
    exact Ends.normal_iff.symm.trans (ends_iff hunique hcode s (.normal t))
  · intro Memory m s word t
    exact Ends.returned_iff.symm.trans (ends_iff hunique hcode s (.returned word t))

/-- In every subroutine of the class, the code of any statements, nested ones included, stands among
the commands of the subroutine and does on any machine what the statements do. -/
def Class.PreservedIn (tree : Class) (code : List Command) : Prop :=
  ∀ k subroutine, (k, subroutine) ∈ numbered 0 tree.subroutines →
    ∃ start, CodeAt code start (subroutine.code (subroutine.context tree) k) ∧
      ∀ j statements, Inside k subroutine.body j statements →
        ∃ a, start < a ∧ a + (statements.code (subroutine.context tree) j).length ≤
            start + (subroutine.code (subroutine.context tree) k).length ∧
          statements.PreservedAt code a (subroutine.context tree) j

theorem Class.preservedIn_code (tree : Class) : tree.PreservedIn tree.code := by
  intro k subroutine hmem
  obtain ⟨start, hstart⟩ := tree.codeAt hmem
  refine ⟨start, hstart, ?_⟩
  intro j statements hinside
  obtain ⟨a, hcode, hlow, hhigh⟩ := hinside.codeAt_subroutine hstart
  exact ⟨a, hlow, hhigh, Statements.preservedAt tree.uniqueLabels hcode⟩

end Tree

/-- In every subroutine of a text that compiles, the code of any statements, nested ones included,
stands among the commands of the subroutine and does on any machine what the statements do. -/
theorem control_flow_preserved (source : String)
    (h : ((compile source).deliver {}).failure = none) :
    ∃ tree : Tree.Class, Scans source tree.yield ∧
      ∀ k subroutine, (k, subroutine) ∈ Tree.numbered 0 tree.subroutines →
        ∃ start, CodeAt (compile source).commands start
            (subroutine.code (subroutine.context tree) k) ∧
          ∀ j statements, Tree.Inside k subroutine.body j statements →
            ∃ a, start < a ∧ a + (statements.code (subroutine.context tree) j).length ≤
                start + (subroutine.code (subroutine.context tree) k).length ∧
              statements.PreservedAt (compile source).commands a (subroutine.context tree) j := by
  obtain ⟨tree, hscans, -, hcommands⟩ := tree_of_delivered h
  refine ⟨tree, hscans, ?_⟩
  rw [hcommands]
  exact tree.preservedIn_code

theorem control_flow_preserved_rowClass :
    ((compile rowClass).deliver {}).failure = none ∧
      ∃ tree : Tree.Class, Scans rowClass tree.yield ∧
        ∀ k subroutine, (k, subroutine) ∈ Tree.numbered 0 tree.subroutines →
          ∃ start, CodeAt (compile rowClass).commands start
              (subroutine.code (subroutine.context tree) k) ∧
            ∀ j statements, Tree.Inside k subroutine.body j statements →
              ∃ a, start < a ∧ a + (statements.code (subroutine.context tree) j).length ≤
                  start + (subroutine.code (subroutine.context tree) k).length ∧
                statements.PreservedAt (compile rowClass).commands a
                  (subroutine.context tree) j :=
  ⟨rowClass_compiles, control_flow_preserved rowClass rowClass_compiles⟩

end JackCompiler
