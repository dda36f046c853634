import JackCompiler.Proofs.ReadingSoundness
import JackCompiler.Proofs.Rules
import Mathlib.Data.Nat.Basic
import Mathlib.Order.Basic

/-!
What the plan of a rule can do, measured in tokens. Tokens are counted up to the first end of the
text, which no rule takes. A rule that is called has fewer tokens left than the one that calls it,
or else as many and a lower rank; another pass of a loop has fewer tokens left than the pass before
it; and no rule gives tokens back.
-/

namespace JackCompiler

namespace Reading

/-- How many tokens there are before the first end of the text. -/
def remaining (s : Reading) : Nat :=
  (s.input.tokens.takeWhile (·.kind ≠ .endOfFile)).length

variable {s : Reading} {taken : Taken s.left}

theorem remaining_next? (h : s.next? = some taken) : taken.next.remaining < s.remaining := by
  obtain ⟨hkind, htokens, -⟩ := next?_eq h
  rw [remaining, remaining, htokens, List.takeWhile_cons_of_pos (by simpa using hkind),
    List.length_cons]
  exact Nat.lt_succ_self _

theorem remaining_accept? {kind : TokenKind} (h : s.accept? kind = some taken) :
    taken.next.remaining < s.remaining :=
  remaining_next? (accept?_eq h).1

theorem remaining_expectAny {kinds : List TokenKind} (h : s.expectAny kinds = .ok taken) :
    taken.next.remaining < s.remaining :=
  remaining_next? (expectAny_eq h).1

theorem remaining_operator? {apply : Command} (h : s.operator? = some (apply, taken)) :
    taken.next.remaining < s.remaining := by
  unfold operator? at h
  split at h
  · rename_i found hnext
    split at h
    · obtain ⟨command, -, heq⟩ := Option.map_eq_some_iff.1 h
      cases heq
      exact remaining_next? hnext
    · cases h
  · cases h

theorem remaining_type (h : s.type = .ok taken) : taken.next.remaining < s.remaining := by
  unfold type at h
  split at h
  · cases h
  · rename_i found hnext
    split at h <;> cases h <;> exact remaining_next? hnext

theorem remaining_returnType (h : s.returnType = .ok taken) :
    taken.next.remaining < s.remaining := by
  unfold returnType at h
  split at h
  · cases h
  · rename_i found hnext
    split at h <;> cases h <;> exact remaining_next? hnext

end Reading

/-! ### The measure -/

namespace Rule

/-- The same rule, whatever it is given. -/
def Same (a b : Rule) : Prop :=
  a.ctorIdx = b.ctorIdx

/-- Rules that call others before they take a token have a higher rank than these. -/
def rank : Rule → Nat
  | returning => 2
  | expression | call _ | choice | loop => 1
  | _ => 0

/-- What a rule can do with so many tokens left: it has fewer tokens left at every call, or calls a
rule of a lower rank. -/
def weight (rule : Rule) (tokens : Nat) : Nat :=
  3 * tokens + rule.rank

variable {a b : Rule} {m n : Nat}

theorem rank_le (rule : Rule) : rule.rank ≤ 2 := by
  unfold rank
  split <;> decide

theorem Same.rank_eq (h : a.Same b) : a.rank = b.rank := by
  cases a <;> cases b <;> first | rfl | cases h

theorem Same.weight_eq (h : a.Same b) (n : Nat) : a.weight n = b.weight n := by
  rw [weight, h.rank_eq, weight]

theorem weight_mono (rule : Rule) (h : m ≤ n) : rule.weight m ≤ rule.weight n :=
  Nat.add_le_add_right (Nat.mul_le_mul_left 3 h) _

theorem weight_lt_of_lt (a b : Rule) (h : m < n) : a.weight m < b.weight n := by
  have hrank := a.rank_le
  simp only [weight]
  omega

theorem weight_lt_of_rank (hrank : a.rank < b.rank) (h : m ≤ n) : a.weight m < b.weight n := by
  simp only [weight]
  omega

theorem le_of_weight_lt (h : a.weight m < b.weight n) : m ≤ n := by
  have hrank := b.rank_le
  simp only [weight] at h
  omega

theorem lt_of_weight_lt (hsame : a.Same b) (h : a.weight m < b.weight n) : m < n := by
  simp only [weight, hsame.rank_eq] at h
  omega

end Rule

/-! ### Plans -/

/-- A plan of a rule that had so many tokens left in its latest pass, whatever its calls come to. -/
def Plan.Advances (rule : Rule) (tokens : Nat) : Plan → Prop
  | finish t _ => t.remaining ≤ tokens
  | again next t => next.Same rule ∧ t.remaining < tokens
  | stop _ => True
  | call inner t rest => inner.weight t.remaining < rule.weight tokens ∧
      ∀ u count, u.remaining ≤ t.remaining → (rest u count).Advances rule tokens

namespace Plan.Advances

variable {rule inner : Rule} {tokens count : Nat} {s t : Reading} {rest : Reading → Nat → Plan}

theorem finish (h : t.remaining ≤ tokens) : (Plan.finish t count).Advances rule tokens :=
  h

theorem again {next : Rule} (hsame : next.Same rule) (h : t.remaining < tokens) :
    (Plan.again next t).Advances rule tokens :=
  ⟨hsame, h⟩

theorem unexpected (s : Reading) (expected : String) :
    (Plan.unexpected s expected).Advances rule tokens :=
  trivial

/-- A call after a token. -/
theorem call (h : t.remaining < tokens)
    (hrest : ∀ u count, u.remaining ≤ t.remaining → (rest u count).Advances rule tokens) :
    (Plan.call inner t rest).Advances rule tokens :=
  ⟨Rule.weight_lt_of_lt _ _ h, hrest⟩

/-- A call of a rule of lower rank, perhaps before any token. -/
theorem call_lower (hrank : inner.rank < rule.rank) (h : t.remaining ≤ tokens)
    (hrest : ∀ u count, u.remaining ≤ t.remaining → (rest u count).Advances rule tokens) :
    (Plan.call inner t rest).Advances rule tokens :=
  ⟨Rule.weight_lt_of_rank hrank h, hrest⟩

/-- A call after a token, and then the next pass. -/
theorem call_again {next : Rule} (hsame : next.Same rule) (h : t.remaining < tokens) :
    (Plan.call inner t fun u _ => .again next u).Advances rule tokens :=
  call h fun _ _ hu => again hsame (hu.trans_lt h)

theorem take {n : Nat} {outcome : Reading.Outcome (Reading.Taken n)}
    {rest : Token → Reading → Plan}
    (h : ∀ taken, outcome = .ok taken → (rest taken.token taken.next).Advances rule tokens) :
    (Plan.take outcome rest).Advances rule tokens := by
  cases outcome with
  | error failure => trivial
  | ok taken => exact h taken rfl

theorem expect {kinds : List TokenKind} {rest : Token → Reading → Plan}
    (h : ∀ token t, t.remaining < s.remaining → (rest token t).Advances rule tokens) :
    (Plan.take (s.expectAny kinds) rest).Advances rule tokens :=
  take fun _ hexpect => h _ _ (Reading.remaining_expectAny hexpect)

/-- What is done at the end, and what is done after a token. -/
theorem next? {last : Plan} {rest : Token → Reading → Plan} (hlast : last.Advances rule tokens)
    (hrest : ∀ token t, t.remaining < s.remaining → (rest token t).Advances rule tokens) :
    Plan.Advances rule tokens
      (match s.next? with
      | none => last
      | some ⟨token, t, _⟩ => rest token t) := by
  cases hnext : s.next? with
  | none => exact hlast
  | some taken => exact hrest _ _ (Reading.remaining_next? hnext)

/-- What is done after a token that may be left out, and what is done without it. -/
theorem accept? {kind : TokenKind} {rest : Reading → Plan} {without : Plan}
    (hrest : ∀ t, t.remaining < s.remaining → (rest t).Advances rule tokens)
    (hwithout : without.Advances rule tokens) :
    Plan.Advances rule tokens
      (match s.accept? kind with
      | some ⟨_, t, _⟩ => rest t
      | none => without) := by
  cases haccept : s.accept? kind with
  | none => exact hwithout
  | some taken => exact hrest _ (Reading.remaining_accept? haccept)

end Plan.Advances

namespace Rule

theorem term_advances (s : Reading) : (term.plan s).Advances term s.remaining := by
  rw [plan]
  refine .next? (.unexpected _ _) fun token t ht => ?_
  have hle : t.remaining ≤ s.remaining := ht.le
  cases token.kind with
  | integer value => exact .finish hle
  | string => exact .finish hle
  | keyword word => cases word <;> first | exact .finish hle | exact .unexpected _ _
  | symbol mark =>
    cases mark with
    | leftParen =>
      refine .call ht fun u _ hu => .expect fun _ v hv => .finish ?_
      exact hv.le.trans (hu.trans hle)
    | minus => exact .call ht fun u _ hu => .finish (hu.trans hle)
    | tilde => exact .call ht fun u _ hu => .finish (hu.trans hle)
    | _ => exact .unexpected _ _
  | identifier =>
    cases t.kind with
    | symbol mark =>
      cases mark with
      | leftBracket => exact .call ht fun u _ hu => .finish (hu.trans hle)
      | leftParen => exact .call ht fun u _ hu => .finish (hu.trans hle)
      | dot => exact .call ht fun u _ hu => .finish (hu.trans hle)
      | _ => exact .finish hle
    | _ => exact .finish hle
  | endOfFile => exact .unexpected _ _

theorem statements_advances (s : Reading) :
    (statements.plan s).Advances statements s.remaining := by
  rw [plan]
  refine .next? (.finish le_rfl) fun token t ht => ?_
  cases token.kind with
  | keyword word => cases word <;> first | exact .call_again rfl ht | exact .finish le_rfl
  | _ => exact .finish le_rfl

theorem choice_advances (s : Reading) : (choice.plan s).Advances choice s.remaining := by
  rw [plan]
  refine .call_lower Nat.one_pos le_rfl fun t _ ht => ?_
  refine .call_lower Nat.one_pos ht fun u _ hu => ?_
  refine .accept? (fun v (hv : v.remaining < u.remaining) => ?_) (.finish (hu.trans ht))
  have hle := hv.le.trans (hu.trans ht)
  exact .call_lower Nat.one_pos hle fun w _ hw => .finish (hw.trans hle)

theorem names_advances (kind : VariableKind) (type : String) (s : Reading) :
    ((names kind type).plan s).Advances (names kind type) s.remaining := by
  rw [plan]
  refine .expect fun name t ht => .accept? (fun u hu => ?_) (.finish ht.le)
  exact .again rfl (hu.trans ht)

theorem classVariables_advances (s : Reading) :
    (classVariables.plan s).Advances classVariables s.remaining := by
  rw [plan]
  refine .next? (.finish le_rfl) fun token t ht => ?_
  cases token.kind with
  | keyword word => cases word <;> first | exact .call_again rfl ht | exact .finish le_rfl
  | _ => exact .finish le_rfl

theorem moreParameters_advances (s : Reading) :
    (moreParameters.plan s).Advances moreParameters s.remaining := by
  rw [plan]
  refine .take fun type htype => .expect fun name u hu => ?_
  have hlt := hu.trans (Reading.remaining_type htype)
  exact .accept? (fun v hv => .again rfl (hv.trans hlt)) (.finish hlt.le)

theorem subroutines_advances (s : Reading) :
    (subroutines.plan s).Advances subroutines s.remaining := by
  rw [plan]
  refine .next? (.finish le_rfl) fun token t ht => ?_
  cases token.kind with
  | keyword word => cases word <;> first | exact .call_again rfl ht | exact .finish le_rfl
  | _ => exact .finish le_rfl

/-- Every rule makes progress, whatever the tokens are. -/
theorem plan_advances (rule : Rule) (s : Reading) : (rule.plan s).Advances rule s.remaining := by
  cases rule with
  | expression =>
    rw [plan]
    refine .call_lower Nat.one_pos le_rfl fun t _ ht => ?_
    exact .call_lower Nat.one_pos ht fun u _ hu => .finish (hu.trans ht)
  | operations =>
    rw [plan]
    cases hoperator : s.operator? with
    | none => exact .finish le_rfl
    | some found =>
      have htaken := Reading.remaining_operator? hoperator
      exact .call htaken fun u _ hu => .again rfl (hu.trans_lt htaken)
  | term => exact term_advances s
  | index =>
    rw [plan]
    refine .expect fun _ t ht => .call ht fun u _ hu => .expect fun _ v hv => ?_
    exact .finish (hv.le.trans (hu.trans ht.le))
  | call name =>
    rw [plan]
    refine .accept? (fun t ht => .expect fun member u hu => ?_) ?_
    · exact .call (hu.trans ht) fun v _ hv => .finish (hv.trans (hu.trans ht).le)
    · exact .call_lower Nat.one_pos le_rfl fun t _ ht => .finish ht
  | arguments =>
    rw [plan]
    refine .expect fun _ t ht => ?_
    split
    · exact .expect fun _ u hu => .finish (hu.trans ht).le
    · refine .call ht fun u _ hu => .call (hu.trans_lt ht) fun v _ hv => .expect fun _ w hw => ?_
      exact .finish (hw.le.trans (hv.trans (hu.trans ht.le)))
  | moreArguments count =>
    rw [plan]
    refine .accept? (fun t ht => ?_) (.finish le_rfl)
    split
    · trivial
    · exact .call_again rfl ht
  | assignment =>
    rw [plan]
    refine .expect fun name t ht => ?_
    dsimp only
    split
    · refine .call ht fun u _ hu => .expect fun _ v hv => ?_
      have hv' := hv.trans_le hu |>.trans ht
      refine .call hv' fun w _ hw => .expect fun _ x hx => ?_
      exact .finish (hx.le.trans (hw.trans hv'.le))
    · refine .expect fun _ u (hu : u.remaining < t.remaining) => ?_
      refine .call (hu.trans ht) fun v _ hv => .expect fun _ w hw => ?_
      exact .finish (hw.le.trans (hv.trans (hu.trans ht).le))
  | invocation =>
    rw [plan]
    refine .expect fun name t ht => .call ht fun u _ hu => .expect fun _ v hv => ?_
    exact .finish (hv.le.trans (hu.trans ht.le))
  | returning =>
    rw [plan]
    split
    · exact .expect fun _ t ht => .finish ht.le
    · refine .call_lower Nat.one_lt_two le_rfl fun t _ ht => .expect fun _ u hu => ?_
      exact .finish (hu.le.trans ht)
  | condition otherwise =>
    rw [plan]
    refine .expect fun _ t ht => .call ht fun u _ hu => .expect fun _ v hv => ?_
    exact .finish (hv.le.trans (hu.trans ht.le))
  | statements => exact statements_advances s
  | choice => exact choice_advances s
  | loop =>
    rw [plan]
    refine .call_lower Nat.one_pos le_rfl fun t _ ht => ?_
    exact .call_lower Nat.one_pos ht fun u _ hu => .finish (hu.trans ht)
  | block =>
    rw [plan]
    refine .expect fun _ t ht => .call ht fun u _ hu => .expect fun _ v hv => ?_
    exact .finish (hv.le.trans (hu.trans ht.le))
  | names kind type => exact names_advances kind type s
  | declaration kind =>
    rw [plan]
    refine .take fun type htype => ?_
    have ht := Reading.remaining_type htype
    refine .call ht fun u _ hu => .expect fun _ v hv => ?_
    exact .finish (hv.le.trans (hu.trans ht.le))
  | classVariables => exact classVariables_advances s
  | localVariables =>
    rw [plan]
    exact .accept? (fun t ht => .call_again rfl ht) (.finish le_rfl)
  | moreParameters => exact moreParameters_advances s
  | parameters =>
    rw [plan]
    refine .expect fun _ t ht => ?_
    split
    · exact .expect fun _ v hv => .finish (hv.trans ht).le
    · refine .call ht fun u _ hu => .expect fun _ v hv => ?_
      exact .finish (hv.le.trans (hu.trans ht.le))
  | body kind name =>
    rw [plan]
    refine .expect fun _ t ht => .call ht fun u _ (hu : u.remaining ≤ t.remaining) => ?_
    refine .call (hu.trans_lt ht) fun v _ hv => .expect fun _ w hw => ?_
    exact .finish (hw.le.trans (hv.trans (hu.trans ht.le)))
  | subroutine kind keyword =>
    rw [plan]
    refine .take fun type htype => .expect fun name u hu => ?_
    have ht : u.remaining < s.remaining := hu.trans (Reading.remaining_returnType htype)
    refine .call ht fun v _ hv => .call (hv.trans_lt ht) fun w _ hw => ?_
    exact .finish (hw.trans (hv.trans ht.le))
  | subroutines => exact subroutines_advances s
  | wholeClass =>
    rw [plan]
    refine .expect fun _ t ht => .expect fun name u hu => ?_
    refine .expect fun _ v (hv : v.remaining < u.remaining) => ?_
    have hlt := hv.trans (hu.trans ht)
    refine .call hlt fun w _ hw => .call (hw.trans_lt hlt) fun x _ hx => .expect fun _ y hy => ?_
    split
    · exact .finish (hy.le.trans (hx.trans (hw.trans hlt.le)))
    · exact .unexpected _ _

end Rule

/-! ### Outcomes -/

/-- No plan gives tokens back, if the rules that it calls do not. -/
theorem Plan.Advances.remaining_le {rule : Rule} {tokens : Nat} {plan : Plan}
    {found : Reading × Nat} (h : plan.Advances rule tokens)
    (hcalls : ∀ (inner : Rule) (t : Reading), inner.weight t.remaining < rule.weight tokens →
      ∀ other, inner.read t = .ok other → other.1.remaining ≤ t.remaining)
    (hfound : plan.outcome = .ok found) : found.1.remaining ≤ tokens := by
  induction plan with
  | finish t count =>
    cases hfound
    exact h
  | again next t =>
    have hweight : next.weight t.remaining < rule.weight tokens := Rule.weight_lt_of_lt _ _ h.2
    exact (hcalls next t hweight found hfound).trans h.2.le
  | stop failure => cases hfound
  | call inner t rest ih =>
    obtain ⟨⟨u, count⟩, hread, hrest⟩ := Reading.bind_ok hfound
    exact ih u count (h.2 u count (hcalls inner t h.1 _ hread)) hrest

/-- No rule gives tokens back. -/
theorem Rule.remaining_le (rule : Rule) (s : Reading) {found : Reading × Nat}
    (h : rule.read s = .ok found) : found.1.remaining ≤ s.remaining := by
  rw [read_eq] at h
  exact (rule.plan_advances s).remaining_le
    (fun inner t _ other hother => inner.remaining_le t hother) h
termination_by rule.weight s.remaining

end JackCompiler
