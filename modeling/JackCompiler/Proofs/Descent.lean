import JackCompiler.Proofs.RuleProgress
import Mathlib.Data.List.Nodup
import Mathlib.Data.List.Perm.Subperm
import Mathlib.Logic.Relation

/-!
Reading by recursive descent, call by call. A descent carries out plans on a stack of the rules that
are open, one call, pass or return at a time; nothing in it bounds the stack or the number of steps.
The measure of the rule in front falls with every call below it and with every pass, which bounds
both, and every descent comes to what its rule comes to.
-/

namespace JackCompiler

/-- The directives so far, latest first. -/
def Plan.code : Plan → List Directive
  | finish t _ | again _ t | call _ t _ => t.code
  | stop failure => failure.code

/-- A rule that has been called and is not over. -/
structure Activation where
  rule : Rule
  /-- How many tokens were left when the rule was called. -/
  entered : Nat
  /-- How many were left when its latest pass began. -/
  latest : Nat
  /-- How many passes have begun. A rule that is no loop has one. -/
  passes : Nat
  /-- What the caller does afterwards. -/
  rest : Reading → Nat → Plan

namespace Activation

def enter (rule : Rule) (t : Reading) (rest : Reading → Nat → Plan) : Activation :=
  ⟨rule, t.remaining, t.remaining, 1, rest⟩

def pass (a : Activation) (rule : Rule) (t : Reading) : Activation :=
  { a with rule, latest := t.remaining, passes := a.passes + 1 }

end Activation

structure Descent where
  plan : Plan
  /-- The rules that are open, the innermost first. -/
  stack : List Activation

namespace Descent

/-- The descent of a rule that has just been called. -/
def start (rule : Rule) (s : Reading) : Descent :=
  ⟨rule.plan s, [.enter rule s fun t count => .finish t count]⟩

/-- One call, pass or return. -/
def next? : Descent → Option Descent
  | ⟨.call rule t rest, stack⟩ => some ⟨rule.plan t, .enter rule t rest :: stack⟩
  | ⟨.again rule t, a :: stack⟩ => some ⟨rule.plan t, a.pass rule t :: stack⟩
  | ⟨.finish t count, a :: stack⟩ => some ⟨a.rest t count, stack⟩
  | _ => none

/-- One step, which is only made if storage and output have carried out the directives so far. -/
def step? (carried : List Directive → Bool) (d : Descent) : Option Descent :=
  if carried d.plan.code then d.next? else none

/-- What the descent has come to, if it is at its end. -/
def result? : Descent → Option (Reading.Outcome (Reading × Nat))
  | ⟨.finish t count, []⟩ => some (.ok (t, count))
  | ⟨.stop failure, _⟩ => some (.error failure)
  | _ => none

def Reaches (carried : List Directive → Bool) : Descent → Descent → Prop :=
  Relation.ReflTransGen fun d e => d.step? carried = some e

/-- The descent gets there if all directives are carried out. -/
def Runs : Descent → Descent → Prop :=
  Relation.ReflTransGen fun d e => d.next? = some e

/-- Where a descent stands that began with so many tokens. -/
structure Progresses (tokens : Nat) (d : Descent) : Prop where
  /-- Another pass of a loop has fewer tokens left than the pass before it. -/
  pass : ∀ rule t a stack, d = ⟨.again rule t, a :: stack⟩ →
    rule.Same a.rule ∧ t.remaining < a.latest
  /-- A rule that is open inside itself was entered with fewer tokens left. -/
  nested : d.stack.Pairwise fun inner outer =>
    inner.rule.Same outer.rule → inner.entered < outer.latest
  depth : d.stack.length ≤ 3 * (tokens + 1)
  passes : ∀ a ∈ d.stack, a.passes ≤ tokens + 1

section Steps

variable {carried : List Directive → Bool} {d e : Descent}

theorem step?_eq (h : d.step? carried = some e) : d.next? = some e := by
  unfold step? at h
  split at h
  · exact h
  · cases h

theorem Reaches.runs (h : Reaches carried d e) : Runs d e :=
  Relation.ReflTransGen.mono (fun _ _ hstep => step?_eq hstep) _ _ h

/-- A descent is interrupted or gets as far as without interruption. -/
theorem Runs.reaches (carried : List Directive → Bool) (h : Runs d e) :
    ∃ last, Reaches carried d last ∧ (last = e ∨ carried last.plan.code = false) := by
  induction h using Relation.ReflTransGen.head_induction_on with
  | refl => exact ⟨e, .refl, .inl rfl⟩
  | @head d between hstep _ ih =>
    cases hcarried : carried d.plan.code with
    | false => exact ⟨d, .refl, .inr hcarried⟩
    | true =>
      obtain ⟨last, hreaches, hlast⟩ := ih
      refine ⟨last, .head ?_ hreaches, hlast⟩
      rw [step?, if_pos hcarried, hstep]

end Steps

/-! ### Depth -/

/-- The plan goes on in the activation in front, and then in those behind it. -/
def Continues : Plan → List Activation → Prop
  | plan, [] => ∃ t count, plan = .finish t count
  | plan, a :: stack => plan.Advances a.rule a.latest ∧
      ∀ u count, u.remaining ≤ a.latest → Continues (a.rest u count) stack

/-- Every pass but the first is paid for by a token. -/
structure Bounded (tokens : Nat) (a : Activation) : Prop where
  entered : a.entered ≤ tokens
  latest : a.latest ≤ a.entered
  passes : a.passes + a.latest ≤ a.entered + 1

/-- The invariant of a descent that began with so many tokens. -/
structure Sound (tokens : Nat) (d : Descent) : Prop where
  continues : Continues d.plan d.stack
  weights : d.stack.Pairwise fun inner outer =>
    inner.rule.weight inner.entered < outer.rule.weight outer.latest
  bounded : ∀ a ∈ d.stack, Bounded tokens a

theorem sound_start (rule : Rule) (s : Reading) : (start rule s).Sound s.remaining := by
  refine ⟨⟨rule.plan_advances s, fun u count _ => ⟨u, count, rfl⟩⟩, List.pairwise_singleton _ _, ?_⟩
  intro a ha
  obtain rfl := List.mem_singleton.1 ha
  exact ⟨le_rfl, le_rfl, (Nat.add_comm _ _).le⟩

section Invariant

variable {tokens : Nat} {d e : Descent}

theorem Sound.call {rule : Rule} {t : Reading} {rest : Reading → Nat → Plan}
    {stack : List Activation} (h : Sound tokens ⟨.call rule t rest, stack⟩) :
    Sound tokens ⟨rule.plan t, .enter rule t rest :: stack⟩ := by
  obtain ⟨hcontinues, hweights, hbounded⟩ := h
  cases stack with
  | nil =>
    obtain ⟨u, count, heq⟩ := hcontinues
    cases heq
  | cons a stack =>
    obtain ⟨⟨hweight, hrest⟩, hbehind⟩ := hcontinues
    obtain ⟨houter, hinner⟩ := List.pairwise_cons.1 hweights
    have hbound := hbounded a List.mem_cons_self
    have hle : t.remaining ≤ a.latest := Rule.le_of_weight_lt hweight
    refine ⟨⟨rule.plan_advances t, fun u count hu => ⟨hrest u count hu, hbehind⟩⟩, ?_, ?_⟩
    · refine List.pairwise_cons.2 ⟨?_, hweights⟩
      refine List.forall_mem_cons.2 ⟨hweight, fun b hb => ?_⟩
      exact hweight.trans ((a.rule.weight_mono hbound.latest).trans_lt (houter b hb))
    · refine List.forall_mem_cons.2 ⟨⟨?_, le_rfl, (Nat.add_comm _ _).le⟩, hbounded⟩
      exact hle.trans (hbound.latest.trans hbound.entered)

theorem Sound.again {rule : Rule} {t : Reading} {a : Activation} {stack : List Activation}
    (h : Sound tokens ⟨.again rule t, a :: stack⟩) :
    Sound tokens ⟨rule.plan t, a.pass rule t :: stack⟩ := by
  obtain ⟨⟨⟨hsame, hlt⟩, hbehind⟩, hweights, hbounded⟩ := h
  obtain ⟨houter, hinner⟩ := List.pairwise_cons.1 hweights
  obtain ⟨⟨hentered, hlatest, hpasses⟩, hothers⟩ := List.forall_mem_cons.1 hbounded
  refine ⟨⟨rule.plan_advances t, fun u count hu => hbehind u count (hu.trans hlt.le)⟩, ?_, ?_⟩
  · refine List.pairwise_cons.2 ⟨fun b hb => ?_, hinner⟩
    exact (hsame.weight_eq a.entered).trans_lt (houter b hb)
  · refine List.forall_mem_cons.2 ⟨⟨hentered, hlt.le.trans hlatest, ?_⟩, hothers⟩
    simp only [Activation.pass]
    omega

theorem Sound.finish {t : Reading} {count : Nat} {a : Activation} {stack : List Activation}
    (h : Sound tokens ⟨.finish t count, a :: stack⟩) : Sound tokens ⟨a.rest t count, stack⟩ :=
  ⟨h.continues.2 t count h.continues.1, (List.pairwise_cons.1 h.weights).2,
    (List.forall_mem_cons.1 h.bounded).2⟩

/-- Every step keeps the invariant. -/
theorem Sound.next? (h : d.Sound tokens) (hnext : d.next? = some e) : e.Sound tokens := by
  obtain ⟨plan, stack⟩ := d
  cases plan with
  | call rule t rest =>
    cases hnext
    exact h.call
  | stop failure => cases hnext
  | again rule t =>
    cases stack with
    | nil => cases hnext
    | cons a stack =>
      cases hnext
      exact h.again
  | finish t count =>
    cases stack with
    | nil => cases hnext
    | cons a stack =>
      cases hnext
      exact h.finish

theorem Runs.sound (h : Runs d e) (hd : d.Sound tokens) : e.Sound tokens := by
  induction h with
  | refl => exact hd
  | tail _ hstep ih => exact ih.next? hstep

/-- The measures on the stack are different numbers below a bound. -/
theorem Sound.length_le (h : d.Sound tokens) : d.stack.length ≤ 3 * (tokens + 1) := by
  have hnodup : (d.stack.map fun a => a.rule.weight a.entered).Nodup := by
    refine List.pairwise_map.2 (h.weights.imp_of_mem fun {inner outer} _ houter hlt => ?_)
    exact (hlt.trans_le (outer.rule.weight_mono (h.bounded outer houter).latest)).ne
  have hsubset : (d.stack.map fun a => a.rule.weight a.entered) ⊆
      List.range (3 * (tokens + 1)) := by
    intro weight hmem
    obtain ⟨a, ha, rfl⟩ := List.mem_map.1 hmem
    have hrank := a.rule.rank_le
    have hentered := (h.bounded a ha).entered
    rw [List.mem_range, Rule.weight]
    omega
  simpa using (List.subperm_of_subset hnodup hsubset).length_le

theorem Sound.progresses (h : d.Sound tokens) : d.Progresses tokens := by
  refine ⟨?_, h.weights.imp fun hlt hsame => Rule.lt_of_weight_lt hsame hlt, h.length_le, ?_⟩
  · rintro rule t a stack rfl
    exact h.continues.1
  · intro a ha
    obtain ⟨hentered, hlatest, hpasses⟩ := h.bounded a ha
    omega

end Invariant

/-! ### Ends -/

/-- The descent goes on in the stack with what comes to be found, or stops. -/
def Comes (d : Descent) (rest : Reading → Nat → Plan) (stack : List Activation) :
    Reading.Outcome (Reading × Nat) → Prop
  | .ok found => Runs d ⟨rest found.1 found.2, stack⟩
  | .error failure => ∃ deeper, Runs d ⟨.stop failure, deeper⟩

theorem Comes.trans {d e : Descent} {rest : Reading → Nat → Plan} {stack : List Activation}
    {outcome : Reading.Outcome (Reading × Nat)} (hruns : Runs d e)
    (h : Comes e rest stack outcome) : Comes d rest stack outcome := by
  cases outcome with
  | ok found => exact Relation.ReflTransGen.trans hruns h
  | error failure =>
    obtain ⟨deeper, hstop⟩ := h
    exact ⟨deeper, hruns.trans hstop⟩

/-- A plan comes to its outcome, if the rules do that it calls. -/
theorem comes_plan {rule : Rule} {tokens : Nat} {plan : Plan} (h : plan.Advances rule tokens)
    (hcalls : ∀ (inner : Rule) (t : Reading), inner.weight t.remaining < rule.weight tokens →
      ∀ a stack, Comes ⟨inner.plan t, a :: stack⟩ a.rest stack (inner.read t))
    (a : Activation) (stack : List Activation) :
    Comes ⟨plan, a :: stack⟩ a.rest stack plan.outcome := by
  induction plan with
  | finish t count => exact .single rfl
  | again next t =>
    have hweight : next.weight t.remaining < rule.weight tokens := Rule.weight_lt_of_lt _ _ h.2
    exact .trans (.single rfl) (hcalls next t hweight (a.pass next t) stack)
  | stop failure => exact ⟨a :: stack, .refl⟩
  | call inner t rest ih =>
    have hinner := hcalls inner t h.1 (.enter inner t rest) (a :: stack)
    refine .trans (.single rfl) ?_
    rw [Plan.outcome]
    cases hread : inner.read t with
    | error failure =>
      rw [hread] at hinner
      exact hinner
    | ok found =>
      rw [hread] at hinner
      exact .trans hinner (ih _ _ (h.2 _ _ (inner.remaining_le t hread)))

/-- An open rule comes to what the rule comes to. -/
theorem comes_rule (rule : Rule) (s : Reading) (a : Activation) (stack : List Activation) :
    Comes ⟨rule.plan s, a :: stack⟩ a.rest stack (rule.read s) := by
  rw [Rule.read_eq]
  exact comes_plan (rule.plan_advances s) (fun inner t _ => comes_rule inner t) a stack
termination_by rule.weight s.remaining

theorem exists_end (rule : Rule) (s : Reading) :
    ∃ last, Runs (start rule s) last ∧ last.next? = none ∧ last.result? = some (rule.read s) := by
  have hcomes := comes_rule rule s (.enter rule s fun t count => .finish t count) []
  cases hread : rule.read s with
  | ok found =>
    rw [hread] at hcomes
    exact ⟨_, hcomes, rfl, rfl⟩
  | error failure =>
    rw [hread] at hcomes
    obtain ⟨deeper, hstop⟩ := hcomes
    exact ⟨_, hstop, rfl, rfl⟩

/-- On any tokens, from any reading and for any storage and output, a rule that is called makes
progress wherever its descent gets, and the descent ends: with what the rule comes to, unless a
directive before that was not carried out. -/
theorem progresses_and_ends (carried : List Directive → Bool) (rule : Rule) (s : Reading) :
    (∀ d, Reaches carried (start rule s) d → d.Progresses s.remaining) ∧
      ∃ last, Reaches carried (start rule s) last ∧ last.step? carried = none ∧
        (carried last.plan.code = true → last.result? = some (rule.read s)) := by
  refine ⟨fun d hreaches => (hreaches.runs.sound (sound_start rule s)).progresses, ?_⟩
  obtain ⟨last, hruns, hend, hresult⟩ := exists_end rule s
  obtain ⟨reached, hreaches, rfl | hbroken⟩ := hruns.reaches carried
  · refine ⟨reached, hreaches, ?_, fun _ => hresult⟩
    rw [step?, hend, ite_self]
  · refine ⟨reached, hreaches, ?_, fun hcarried => ?_⟩
    · rw [step?, hbroken, if_neg Bool.false_ne_true]
    · rw [hbroken] at hcarried
      cases hcarried

end Descent

end JackCompiler
