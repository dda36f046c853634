import JackCompiler.Proofs.AgendaReading
import JackCompiler.Proofs.SinglePass

/-!
Every rule of a single pass does what the reading of that rule adds, directive by directive. A rule
is compared with its plan: one lemma for each way a plan goes on, and then one case for each rule.
-/

namespace JackCompiler

namespace Rule

def answer : (rule : Rule) → Nat → rule.Answer
  | arguments, count | moreArguments _, count => count
  | expression, _ | operations, _ | term, _ | index, _ | call _, _ | assignment, _
  | invocation, _ | returning, _ | condition _, _ | statements, _ | choice, _ | loop, _
  | block, _ | names .., _ | declaration _, _ | classVariables, _ | localVariables, _
  | moreParameters, _ | parameters, _ | body .., _ | subroutine .., _ | subroutines, _
  | wholeClass, _ => ()

/-- Rules that declare nothing. -/
def isQuiet : Rule → Bool
  | names .. | declaration _ | classVariables | localVariables | moreParameters | parameters
  | body .. | subroutine .. | subroutines | wholeClass => false
  | _ => true

/-- Nothing needs to be shown of a rule that declares something as if it were quiet. -/
theorem of_loud {rule : Rule} {p : Prop} (h : rule.isQuiet = false) :
    rule.isQuiet = true → p :=
  fun hquiet => absurd (h.symm.trans hquiet) Bool.false_ne_true

theorem Same.isQuiet_eq {a b : Rule} (h : a.Same b) : a.isQuiet = b.isQuiet := by
  cases a <;> cases b <;> first | rfl | cases h

end Rule

namespace Pass

open Job Rule

variable {ω α β : Type}

/-- Where a pass is when it is where the reading is. -/
def Place.of (s : Reading) : Place :=
  ⟨s.input, s.labels⟩

/-- The directives at the end of a reading, latest first. -/
def codeOf : Reading.Outcome (Reading × Nat) → List Directive
  | .ok (t, _) => t.code
  | .error stop => stop.code

/-- The end of a pass where the reading ends. -/
def settle (answer : Nat → α) : Reading.Outcome (Reading × Nat) → Job ω (α × Place)
  | .ok (t, count) => pure (answer count, .of t)
  | .error stop => refuse stop.refusal

/-! ### Taking a token -/

/-- A part of a pass takes a token if the reading does, and is refused the same token else. -/
structure Takes (s : Reading) (x : Pass ω Token)
    (outcome : Reading.Outcome (Reading.Taken s.left)) : Prop where
  run : x (.of s) =
    match outcome with
    | .ok taken => pure (taken.token, .of taken.next)
    | .error stop => refuse stop.refusal
  taken : ∀ taken, outcome = .ok taken → s.next? = some taken
  code : ∀ stop, outcome = .error stop → stop.code = s.code

section Tokens

variable {s : Reading} {taken : Reading.Taken s.left} {kinds : List TokenKind}

/-- All that a token changes is the input. -/
theorem next?_keeps (h : s.next? = some taken) :
    taken.next.code = s.code ∧ taken.next.input.last = s.input.last := by
  obtain ⟨-, -, hnext⟩ := Reading.next?_eq h
  rw [hnext]
  exact ⟨rfl, rfl⟩

theorem expectAny_ok_or_error (s : Reading) (kinds : List TokenKind) :
    (∃ token after, ∃ h, s.input.consumeAny kinds = .ok (token, after) ∧
      s.expectAny kinds = .ok ⟨token, { s with input := after }, h⟩) ∨
    ∃ refusal, s.input.consumeAny kinds = .error refusal ∧
      s.expectAny kinds = .error ⟨refusal, s.code⟩ := by
  unfold Reading.expectAny
  split
  · rename_i token after h
    exact .inl ⟨token, after, Reader.left_of_next? (Reader.next?_of_consumeAny h), h, rfl⟩
  · rename_i refusal h
    exact .inr ⟨refusal, h, rfl⟩

theorem accept?_some_or_none (s : Reading) (wanted : TokenKind) :
    (∃ token after, ∃ h, s.input.accept? wanted = some (token, after) ∧
      s.accept? wanted = some ⟨token, { s with input := after }, h⟩) ∨
    s.input.accept? wanted = none ∧ s.accept? wanted = none := by
  unfold Reading.accept?
  split
  · rename_i token after h
    exact .inl ⟨token, after, Reader.left_of_next? (Reader.next?_of_accept? h), h, rfl⟩
  · rename_i h
    exact .inr ⟨h, rfl⟩

theorem job_refuse (refusal : Refusal) (place : Place) :
    (job (refuse refusal) : Pass ω α) place = refuse refusal :=
  refuse_bind _ _

theorem unexpected_apply (s : Reading) (expected : String) :
    (unexpected expected : Pass ω α) (.of s) = refuse (s.input.unexpected expected) := by
  have hrun : (unexpected expected : Pass ω α) (.of s) =
      (job (refuse (s.input.unexpected expected)) : Pass ω α) (.of s) := rfl
  rw [hrun, job_refuse]

theorem takes_expectAny (s : Reading) (kinds : List TokenKind) :
    Takes s (expectAny kinds : Pass ω Token) (s.expectAny kinds) := by
  refine ⟨?_, fun taken h => (Reading.expectAny_eq h).1, fun stop h => ?_⟩
  · rw [Pass.expectAny, get_bind, Place.of]
    obtain ⟨token, after, hshorter, hconsume, heq⟩ | ⟨refusal, hconsume, heq⟩ :=
      expectAny_ok_or_error s kinds
    · rw [hconsume, heq]
      rfl
    · rw [hconsume, heq]
      exact job_refuse _ _
  · obtain ⟨token, after, hshorter, -, heq⟩ | ⟨refusal, -, heq⟩ := expectAny_ok_or_error s kinds
    · cases h.symm.trans heq
    · cases h.symm.trans heq
      rfl

/-- A token is refused where none of the kinds of type stands. -/
theorem Takes.unexpected (s : Reading) (expected : String) :
    Takes s (unexpected expected : Pass ω Token) (s.unexpected expected) := by
  unfold Reading.unexpected
  refine ⟨unexpected_apply s expected, fun taken h => ?_, fun stop h => ?_⟩
  · cases h
  · cases h
    rfl

/-- A token is expected to be what it is known to be. -/
theorem Takes.known (h : s.next? = some taken) (hkind : taken.token.kind ∈ kinds) :
    Takes s (expectAny kinds : Pass ω Token) (.ok taken) :=
  Reading.expectAny_of_next? h hkind ▸ takes_expectAny s kinds

theorem Takes.kind {f : TokenKind → Pass ω Token} {outcome : Reading.Outcome (Reading.Taken s.left)}
    (h : Takes s (f s.kind) outcome) : Takes s (kind >>= f) outcome :=
  ⟨h.run, h.taken, h.code⟩

/-- The current token decides whether a type is taken. -/
theorem Takes.type {allowVoid : Bool} {outcome : Reading.Outcome (Reading.Taken s.left)}
    (hs : s.Ended) (hnone : s.next? = none → outcome = s.unexpected (typeName allowVoid))
    (hsome : ∀ taken, s.next? = some taken → outcome =
      if isType allowVoid taken.token.kind then .ok taken
      else s.unexpected (typeName allowVoid)) :
    Takes s (type allowVoid : Pass ω Token) outcome := by
  refine .kind ?_
  cases hnext : s.next? with
  | none =>
    rw [Agenda.kind_of_next?_none hnext hs, hnone hnext]
    exact .unexpected s _
  | some taken =>
    rw [Agenda.kind_of_next? hnext, hsome taken hnext]
    split
    · exact .known hnext (List.mem_singleton.2 rfl)
    · exact .unexpected s _

theorem takes_type (hs : s.Ended) : Takes s (type false : Pass ω Token) s.type := by
  unfold Reading.type
  refine .type hs (fun hnone => ?_) (fun taken hsome => ?_)
  · rw [hnone]
    rfl
  · rw [hsome]
    dsimp only
    cases taken.token.kind with
    | keyword word => cases word <;> rfl
    | _ => rfl

theorem takes_returnType (hs : s.Ended) : Takes s (type true : Pass ω Token) s.returnType := by
  unfold Reading.returnType
  refine .type hs (fun hnone => ?_) (fun taken hsome => ?_)
  · rw [hnone]
    rfl
  · rw [hsome]
    dsimp only
    cases taken.token.kind with
    | keyword word => cases word <;> rfl
    | _ => rfl

end Tokens

/-! ### Following a reading -/

variable [Output ω]

/-- A reading that goes on from `s` comes to `outcome`, and a pass that goes on from there carries
out what the reading adds. The pass may rely on what it knows of the names, if nothing that it does
changes them. -/
structure Follows (quiet : Bool) (knows : String → Scopes → Prop) (s : Reading) (x : Pass ω α)
    (answer : Nat → α) (outcome : Reading.Outcome (Reading × Nat)) : Prop where
  last : ∀ t count, outcome = .ok (t, count) → t.input.last = s.input.last
  adds : ∃ added, codeOf outcome = added ++ s.code ∧
    (quiet = true → ∀ directive ∈ added, directive.isQuiet = true)
  runs : ∀ added, codeOf outcome = added ++ s.code → ∀ w : Work ω,
    (quiet = true → knows w.className w.scopes) →
      x (.of s) w = (carryAll added >>= fun _ => settle answer outcome) w

variable (ω) in
/-- The pass of the rule follows the rule. -/
def Implements (rule : Rule) (s : Reading) : Prop :=
  s.Ended →
    Follows rule.isQuiet (fun _ _ => True) s (rule.pass : Pass ω rule.Answer) rule.answer
      (rule.read s)

/-- What is left of the pass of a rule follows what is left of its plan, if the rules that are
called do. -/
def Meets (rule : Rule) (tokens : Nat) (knows : String → Scopes → Prop) (s : Reading)
    (x : Pass ω α) (answer : Nat → α) (plan : Plan) : Prop :=
  (∀ (inner : Rule) (t : Reading), inner.weight t.remaining < rule.weight tokens →
    Implements ω inner t) →
  plan.Advances rule tokens → s.Ended →
  Follows rule.isQuiet knows s x answer plan.outcome

/-- Nothing but the input has changed before the pass goes on. -/
theorem Follows.after {quiet : Bool} {knows : String → Scopes → Prop} {s t : Reading}
    {x y : Pass ω α} {answer : Nat → α} {outcome : Reading.Outcome (Reading × Nat)}
    (h : Follows quiet knows t y answer outcome) (hlast : t.input.last = s.input.last)
    (hcode : t.code = s.code) (hx : x (.of s) = y (.of t)) :
    Follows quiet knows s x answer outcome := by
  obtain ⟨klast, kadds, kruns⟩ := h
  rw [hcode] at kadds kruns
  exact ⟨fun u count hu => (klast u count hu).trans hlast, kadds,
    fun added hadded w hknows => by rw [hx, kruns added hadded w hknows]⟩

theorem Follows.settled {quiet : Bool} {knows : String → Scopes → Prop} {s : Reading}
    {x : Pass ω α} {answer : Nat → α} {outcome : Reading.Outcome (Reading × Nat)}
    (hlast : ∀ t count, outcome = .ok (t, count) → t.input.last = s.input.last)
    (hcode : codeOf outcome = s.code) (hx : x (.of s) = settle answer outcome) :
    Follows quiet knows s x answer outcome := by
  refine ⟨hlast, ⟨[], hcode, fun _ => List.forall_mem_nil _⟩, fun added hadded w _ => ?_⟩
  obtain rfl : added = [] := List.self_eq_append_left.1 (hcode.symm.trans hadded)
  rw [hx]
  rfl

theorem Follows.stopped {quiet : Bool} {knows : String → Scopes → Prop} {s : Reading}
    {x : Pass ω α} {answer : Nat → α} {stop : Reading.Stop} (hcode : stop.code = s.code)
    (hx : x (.of s) = refuse stop.refusal) : Follows quiet knows s x answer (.error stop) :=
  .settled (fun _ _ h => (by cases h)) hcode hx

/-! ### Plans -/

namespace Meets

variable {rule : Rule} {tokens count : Nat} {knows : String → Scopes → Prop} {s t : Reading}
  {answer : Nat → α} {plan : Plan}

theorem finish {a : α} (h : answer count = a) :
    Meets rule tokens knows s (pure a : Pass ω α) answer (.finish s count) := by
  subst h
  refine fun _ _ _ => .settled (fun t count h => ?_) rfl rfl
  cases h
  rfl

theorem stop (refusal : Refusal) :
    Meets rule tokens knows s (job (refuse refusal) : Pass ω α) answer (.stop ⟨refusal, s.code⟩) :=
  fun _ _ _ => .stopped rfl (job_refuse _ _)

theorem unexpected (expected : String) :
    Meets rule tokens knows s (Pass.unexpected expected : Pass ω α) answer
      (.unexpected s expected) :=
  fun _ _ _ => .stopped rfl (unexpected_apply s expected)

/-- The last thing that a rule does may be looked at like any other. -/
theorem last {x : Pass ω α} (h : Meets rule tokens knows s (x >>= pure) answer plan) :
    Meets rule tokens knows s x answer plan :=
  bind_pure x ▸ h

theorem ite {c : Prop} [Decidable c] {x y : Pass ω α} {a b : Plan}
    (hx : Meets rule tokens knows s x answer a) (hy : Meets rule tokens knows s y answer b) :
    Meets rule tokens knows s (if c then x else y) answer (if c then a else b) := by
  split
  · exact hx
  · exact hy

/-! Tokens. -/

theorem kind {f : TokenKind → Pass ω α} (h : Meets rule tokens knows s (f s.kind) answer plan) :
    Meets rule tokens knows s (Pass.kind >>= f) answer plan :=
  fun hcalls hadvances hs => (h hcalls hadvances hs).after rfl rfl rfl

theorem look {f : Place → Pass ω α} (h : Meets rule tokens knows s (f (.of s)) answer plan) :
    Meets rule tokens knows s (get >>= f) answer plan :=
  fun hcalls hadvances hs => (h hcalls hadvances hs).after rfl rfl rfl

theorem take {x : Pass ω Token} {f : Token → Pass ω α}
    {outcome : Reading.Outcome (Reading.Taken s.left)} {rest : Token → Reading → Plan}
    (hx : s.Ended → Takes s x outcome)
    (h : ∀ token t, Meets rule tokens knows t (f token) answer (rest token t)) :
    Meets rule tokens knows s (x >>= f) answer (.take outcome rest) := by
  intro hcalls hadvances hs
  obtain ⟨hrun, htaken, hcode⟩ := hx hs
  cases outcome with
  | error stop =>
    refine .stopped (hcode stop rfl) ?_
    rw [bind_apply, hrun]
    exact refuse_bind _ _
  | ok taken =>
    have hnext := htaken taken rfl
    obtain ⟨kcode, klast⟩ := next?_keeps hnext
    refine (h _ _ hcalls hadvances (Agenda.ended_next hnext hs)).after klast kcode ?_
    rw [bind_apply, hrun]
    rfl

theorem expect {kinds : List TokenKind} {f : Token → Pass ω α} {rest : Token → Reading → Plan}
    (h : ∀ token t, Meets rule tokens knows t (f token) answer (rest token t)) :
    Meets rule tokens knows s (expectAny kinds >>= f) answer (.take (s.expectAny kinds) rest) :=
  take (fun _ => takes_expectAny s kinds) h

/-- The next thing depends on the kind of the current token. -/
theorem next? {f : TokenKind → Pass ω α} {last : Plan} {rest : Token → Reading → Plan}
    (hlast : Meets rule tokens knows s (f .endOfFile) answer last)
    (hrest : ∀ taken, s.next? = some taken →
      Meets rule tokens knows s (f taken.token.kind) answer (rest taken.token taken.next)) :
    Meets rule tokens knows s (Pass.kind >>= f) answer
      (match s.next? with
      | none => last
      | some ⟨token, t, _⟩ => rest token t) := by
  refine .kind fun hcalls hadvances hs => ?_
  cases hnext : s.next? with
  | none =>
    rw [hnext] at hadvances
    rw [Agenda.kind_of_next?_none hnext hs]
    exact hlast hcalls hadvances hs
  | some taken =>
    rw [hnext] at hadvances
    rw [Agenda.kind_of_next? hnext]
    exact hrest taken hnext hcalls hadvances hs

section Next

variable {taken : Reading.Taken s.left} (hnext : s.next? = some taken)

include hnext

theorem advance {f : Unit → Pass ω α} (h : Meets rule tokens knows taken.next (f ()) answer plan) :
    Meets rule tokens knows s (Pass.advance >>= f) answer plan := by
  intro hcalls hadvances hs
  obtain ⟨hcode, hlast⟩ := next?_keeps hnext
  refine (h hcalls hadvances (Agenda.ended_next hnext hs)).after hlast hcode ?_
  obtain ⟨token, after, hinput, rfl⟩ := Reading.input_of_next? hnext
  have hrun : (Pass.advance >>= f) (.of s) = f () (Place.of s).skip := rfl
  rw [hrun, Place.skip, Place.of, hinput]
  rfl

/-- A token is expected to be what it is known to be. -/
theorem known {kinds : List TokenKind} {f : Token → Pass ω α} (hkind : taken.token.kind ∈ kinds)
    (h : Meets rule tokens knows taken.next (f taken.token) answer plan) :
    Meets rule tokens knows s (expectAny kinds >>= f) answer plan := by
  intro hcalls hadvances hs
  obtain ⟨hcode, hlast⟩ := next?_keeps hnext
  refine (h hcalls hadvances (Agenda.ended_next hnext hs)).after hlast hcode ?_
  rw [bind_apply, (Takes.known hnext hkind).run]
  rfl

theorem following {f : TokenKind → Pass ω α}
    (h : Meets rule tokens knows s (f taken.next.kind) answer plan) :
    Meets rule tokens knows s (followingKind >>= f) answer plan := by
  refine fun hcalls hadvances hs => (h hcalls hadvances hs).after rfl rfl ?_
  have hkind : (s.input.peekNth 1).kind = taken.next.kind := by
    obtain ⟨-, htokens, hafter⟩ := Reading.next?_eq hnext
    rw [hafter, Agenda.kind_eq, Reader.peekNth, htokens]
    cases taken.next.input.tokens <;> rfl
  rw [← hkind]
  rfl

end Next

theorem accept? {wanted : TokenKind} {x y : Pass ω α} {rest : Reading → Plan} {without : Plan}
    (hrest : ∀ t, Meets rule tokens knows t x answer (rest t))
    (hwithout : Meets rule tokens knows s y answer without) :
    Meets rule tokens knows s (accept wanted >>= fun b => if b = true then x else y) answer
      (match s.accept? wanted with
      | some ⟨_, t, _⟩ => rest t
      | none => without) := by
  intro hcalls hadvances hs
  have hrun : (accept wanted : Pass ω Bool) (.of s) = pure ((Place.of s).accept wanted) := rfl
  obtain ⟨token, after, hshorter, hinput, haccept⟩ | ⟨hinput, haccept⟩ :=
    accept?_some_or_none s wanted
  · rw [haccept] at hadvances ⊢
    obtain ⟨hnext, -⟩ := Reading.accept?_eq haccept
    obtain ⟨hcode, hlast⟩ := next?_keeps hnext
    refine (hrest _ hcalls hadvances (Agenda.ended_next hnext hs)).after hlast hcode ?_
    rw [bind_apply, hrun, Place.accept, Place.of, hinput]
    rfl
  · rw [haccept] at hadvances ⊢
    refine (hwithout hcalls hadvances hs).after rfl rfl ?_
    rw [bind_apply, hrun, Place.accept, Place.of, hinput]
    rfl

/-- Two labels are taken at once. -/
theorem labels {f : String → String → Pass ω α}
    (h : Meets rule tokens knows s.takeLabels (f (labelName s.labels) (labelName (s.labels + 1)))
      answer plan) :
    Meets rule tokens knows s (newLabel >>= fun a => newLabel >>= f a) answer plan :=
  fun hcalls hadvances hs => (h hcalls hadvances hs).after rfl rfl rfl

/-! Directives. -/

/-- A job comes to what carrying out a directive comes to, and finds something out about the
names. -/
theorem learn [Nonempty β] {y : Job ω β} {f : β → Pass ω α} (directive : Directive)
    (found : β → String → Scopes → Prop)
    (hquiet : rule.isQuiet = true → directive.isQuiet = true)
    (hy : ∀ w : Work ω, (rule.isQuiet = true → knows w.className w.scopes) →
      (∃ b, (rule.isQuiet = true → found b w.className w.scopes) ∧
        y w = (carry directive >>= fun _ => pure b) w) ∨
      ∃ stop, y w = some (.error stop) ∧ carry directive w = some (.error stop))
    (h : ∀ b, Meets rule tokens (found b) (s.emit directive) (f b) answer plan) :
    Meets rule tokens knows s (job y >>= f) answer plan := by
  intro hcalls hadvances hs
  have hf (b : β) := h b hcalls hadvances hs
  obtain ⟨hlast, ⟨later, hlater, hlaterQuiet⟩, -⟩ := hf (Classical.arbitrary β)
  refine ⟨hlast, ⟨later ++ [directive], ?_, fun hrule => ?_⟩, fun added hadded w hknows => ?_⟩
  · rw [hlater, List.append_assoc]
    rfl
  · rw [List.forall_mem_append, List.forall_mem_singleton]
    exact ⟨hlaterQuiet hrule, hquiet hrule⟩
  · have hadded' : added = later ++ [directive] := by
      apply (List.append_left_inj s.code).1
      rw [← hadded, hlater, List.append_assoc]
      rfl
    rw [hadded', carryAll_append, carryAll_singleton, bind_assoc, job_bind]
    obtain ⟨b, hfound, hyw⟩ | ⟨stop, hyw, hcarry⟩ := hy w hknows
    · rw [Job.bind_congr_left hyw, bind_assoc]
      refine Job.bind_congr fun _ w' hw' => ?_
      rw [pure_bind]
      refine (hf b).runs later hlater w' fun hrule => ?_
      obtain ⟨hclass, hscopes⟩ := keeps_carry (hquiet hrule) w _ w' hw'
      rw [hclass, hscopes]
      exact hfound hrule
    · rw [Job.bind_error hyw, Job.bind_error hcarry]

/-- A job comes to what carrying out a directive comes to. -/
theorem act {y : Job ω Unit} {f : Unit → Pass ω α} (directive : Directive)
    (hquiet : rule.isQuiet = true → directive.isQuiet = true)
    (hy : ∀ w : Work ω, (rule.isQuiet = true → knows w.className w.scopes) →
      y w = carry directive w)
    (h : Meets rule tokens knows (s.emit directive) (f ()) answer plan) :
    Meets rule tokens knows s (job y >>= f) answer plan := by
  refine learn directive (fun _ => knows) hquiet (fun w hknows => .inl ⟨(), hknows, ?_⟩) fun _ => h
  rw [hy w hknows, bind_pure_unit]

theorem write {f : Unit → Pass ω α} (command : Command)
    (h : Meets rule tokens knows (s.command command) (f ()) answer plan) :
    Meets rule tokens knows s (Pass.write command >>= f) answer plan :=
  act (.emit command) (fun _ => rfl) (fun _ _ => rfl) h

/-! Calls. -/

/-- A rule is called. What is known of the names stays true if the rule that calls declares nothing,
since the one that is called declares nothing then. -/
theorem call (inner : Rule) {f : inner.Answer → Pass ω α} {rest : Reading → Nat → Plan}
    (hquiet : rule.isQuiet = true → inner.isQuiet = true)
    (h : ∀ t count, Meets rule tokens knows t (f (inner.answer count)) answer (rest t count)) :
    Meets rule tokens knows s (inner.pass >>= f) answer (.call inner s rest) := by
  rintro hcalls ⟨hweight, hrest⟩ hs
  have hinner := hcalls inner s hweight hs
  rw [Plan.outcome]
  obtain ⟨hlast, ⟨earlier, hearlier, hearlierQuiet⟩, hruns⟩ := hinner
  cases hread : inner.read s with
  | error stop =>
    rw [hread] at hearlier hruns
    refine ⟨fun _ _ h => (by cases h),
      ⟨earlier, hearlier, fun hrule => hearlierQuiet (hquiet hrule)⟩, fun added hadded w _ => ?_⟩
    rw [bind_apply, Job.bind_congr_left (hruns added hadded w fun _ => trivial), bind_assoc]
    refine Job.bind_congr fun _ w' _ => ?_
    exact congrFun (refuse_bind _ _) w'
  | ok found =>
    obtain ⟨t, count⟩ := found
    rw [hread] at hearlier hruns
    have ht : t.input.last = s.input.last := hlast t count hread
    have hended : t.Ended := by
      rw [Reading.Ended, ht]
      exact hs
    obtain ⟨klast, ⟨later, hlater, hlaterQuiet⟩, kruns⟩ :=
      h t count hcalls (hrest t count (inner.remaining_le s hread)) hended
    have hcode : t.code = earlier ++ s.code := hearlier
    refine ⟨fun u n hu => (klast u n hu).trans ht, ⟨later ++ earlier, ?_, fun hrule => ?_⟩, ?_⟩
    · rw [List.append_assoc, ← hcode]
      exact hlater
    · rw [List.forall_mem_append]
      exact ⟨hlaterQuiet hrule, hearlierQuiet (hquiet hrule)⟩
    · intro added hadded w hknows
      have hadded' : added = later ++ earlier := by
        apply (List.append_left_inj s.code).1
        rw [← hadded, List.append_assoc, ← hcode]
        exact hlater
      rw [hadded', carryAll_append, bind_assoc, bind_apply,
        Job.bind_congr_left (hruns earlier hearlier w fun _ => trivial), bind_assoc]
      refine Job.bind_congr fun _ w' hw' => ?_
      refine kruns later hlater w' fun hrule => ?_
      obtain ⟨hclass, hscopes⟩ := keeps_carryAll (hearlierQuiet (hquiet hrule)) w _ w' hw'
      rw [hclass, hscopes]
      exact hknows hrule

/-- The next pass of a loop. -/
theorem again (next : Rule) (hsame : next.Same rule) :
    Meets rule tokens knows s (next.pass : Pass ω next.Answer) next.answer (.again next s) := by
  intro hcalls hadvances hs
  obtain ⟨hlast, hadds, hruns⟩ := hcalls next s (Rule.weight_lt_of_lt _ _ hadvances.2) hs
  rw [hsame.isQuiet_eq] at hadds
  exact ⟨hlast, hadds, fun added hadded w _ => hruns added hadded w fun _ => trivial⟩

end Meets

end Pass

/-! ### Rules -/

namespace Rule

open Pass.Job

variable (ω : Type) [Output ω]

/-- The pass of the rule follows the rule, if that is so for the rules that are called. -/
def IsCarried (rule : Rule) : Prop :=
  ∀ s, Pass.Meets rule s.remaining (fun _ _ => True) s (rule.pass : Pass ω rule.Answer)
    rule.answer (rule.plan s)

variable {ω}

theorem term_carried : IsCarried ω term := by
  intro s
  rw [pass, plan]
  refine .next? (.unexpected _) fun taken hnext => ?_
  cases hkind : taken.token.kind with
  | integer value => exact .advance hnext (.last (.write _ (.finish rfl)))
  | string =>
    refine .known hnext (List.mem_singleton.2 hkind) (.last ?_)
    exact .act (.build taken.token) (fun _ => rfl) (fun _ _ => rfl) (.finish rfl)
  | keyword word =>
    cases word with
    | true_ => exact .advance hnext (.write _ (.last (.write _ (.finish rfl))))
    | false_ => exact .advance hnext (.last (.write _ (.finish rfl)))
    | null_ => exact .advance hnext (.last (.write _ (.finish rfl)))
    | this_ => exact .advance hnext (.last (.write _ (.finish rfl)))
    | _ => exact .unexpected _
  | symbol mark =>
    cases mark with
    | leftParen =>
      refine .advance hnext (.call expression (fun _ => rfl) fun u _ => ?_)
      exact .expect fun _ v => .finish rfl
    | minus =>
      refine .advance hnext (.call term (fun _ => rfl) fun u _ => ?_)
      exact .last (.write _ (.finish rfl))
    | tilde =>
      refine .advance hnext (.call term (fun _ => rfl) fun u _ => ?_)
      exact .last (.write _ (.finish rfl))
    | _ => exact .unexpected _
  | identifier =>
    have hname : taken.token.kind ∈ [TokenKind.identifier] := List.mem_singleton.2 hkind
    refine .following hnext ?_
    -- The kind behind the name decides what it is.
    cases taken.next.kind with
    | symbol mark =>
      cases mark with
      | leftBracket =>
        refine .known hnext hname (.act (.load taken.token) (fun _ => rfl) (fun _ _ => rfl) ?_)
        refine .call index (fun _ => rfl) fun u _ => ?_
        exact .write _ (.last (.write _ (.finish rfl)))
      | leftParen =>
        exact .known hnext hname (.last (.call (call _) (fun _ => rfl) fun u _ => .finish rfl))
      | dot =>
        exact .known hnext hname (.last (.call (call _) (fun _ => rfl) fun u _ => .finish rfl))
      | _ =>
        refine .known hnext hname (.last ?_)
        exact .act (.load taken.token) (fun _ => rfl) (fun _ _ => rfl) (.finish rfl)
    | _ =>
      refine .known hnext hname (.last ?_)
      exact .act (.load taken.token) (fun _ => rfl) (fun _ _ => rfl) (.finish rfl)
  | endOfFile => exact .unexpected _

theorem operations_plan (s : Reading) :
    operations.plan s =
      match s.next? with
      | none => .finish s
      | some ⟨token, t, _⟩ =>
        match token.kind with
        | .symbol mark =>
          match mark.binary? with
          | some apply => .call term t fun u _ => .again operations (u.command apply)
          | none => .finish s
        | _ => .finish s := by
  rw [plan, Reading.operator?]
  rcases s.next? with _ | ⟨token, t, ht⟩
  · rfl
  · dsimp only
    cases token.kind with
    | symbol mark => cases mark <;> rfl
    | _ => rfl

theorem operations_carried : IsCarried ω operations := by
  intro s
  rw [pass, operations_plan]
  refine .next? (.finish rfl) fun taken hnext => ?_
  cases taken.token.kind with
  | symbol mark =>
    dsimp only
    cases mark.binary? with
    | some apply =>
      refine .advance hnext (.call term (fun _ => rfl) fun u _ => .write _ ?_)
      exact .again operations rfl
    | none => exact .finish rfl
  | _ => exact .finish rfl

/-- What is done after a name depends on whether a dot comes next. -/
theorem receiver_bind {α : Type} (name : Token) (f : String × Nat → Pass ω α) :
    (Pass.receiver name >>= f) = Pass.accept (.symbol .dot) >>= fun b =>
      if b = true then
        Pass.expect .identifier >>= fun member => Pass.job (.receiver name member.text) >>= f
      else Pass.job (.ownReceiver name) >>= f := by
  rw [Pass.receiver, bind_assoc]
  refine congrArg _ (funext fun b => ?_)
  cases b with
  | true => exact bind_assoc _ _ _
  | false => rfl

theorem call_carried (name : Token) : IsCarried ω (call name) := by
  intro s
  rw [pass, plan, receiver_bind]
  refine .accept? (fun t => .expect fun member u => ?_) ?_
  · refine .learn (.receiver name)
      (fun callee _ scopes => scopes.callee name.text member.text = callee) (fun _ => rfl)
      (fun w _ => .inl ⟨_, fun _ => rfl, receiver_apply name member.text w⟩) fun callee => ?_
    refine .call arguments (fun _ => rfl) fun v count => .last ?_
    refine .act (.invoke name member.text count) (fun _ => rfl) (fun w h => ?_) (.finish rfl)
    exact call_eq_carry_invoke (h rfl) count
  · refine .learn (.emit (.push .pointer 0))
      (fun callee className _ => (className ++ "." ++ name.text, 1) = callee) (fun _ => rfl)
      (fun w _ => .inl ⟨_, fun _ => rfl, ownReceiver_apply name w⟩) fun callee => ?_
    refine .call arguments (fun _ => rfl) fun t count => .last ?_
    refine .act (.invokeOwn name count) (fun _ => rfl) (fun w h => ?_) (.finish rfl)
    exact call_eq_carry_invokeOwn (h rfl) count

theorem moreArguments_carried (count : Nat) : IsCarried ω (moreArguments count) := by
  intro s
  rw [pass, plan]
  refine .accept? (fun t => .ite ?_ ?_) (.finish rfl)
  · exact .look (.stop _)
  · refine .call expression (fun _ => rfl) fun u _ => ?_
    exact .again (moreArguments (count + 1)) rfl

theorem assignment_carried : IsCarried ω assignment := by
  intro s
  rw [pass, plan]
  have hvariables : Nonempty Variable := ⟨⟨"", .local_, 0⟩⟩
  refine .expect fun name t => .learn (.require name)
    (fun entry _ scopes => scopes.lookup? name.text = some entry) (fun _ => rfl)
    (fun w _ => (resolve_apply name w).imp_left fun h =>
      h.imp fun _ hfound => ⟨fun _ => hfound.1, hfound.2⟩) fun entry => .kind (.ite ?_ ?_)
  · refine .act (.load name) (fun _ => rfl) (fun w h => push_eq_carry_load (h rfl)) ?_
    refine .call index (fun _ => rfl) fun u _ => .expect fun _ v => ?_
    refine .call expression (fun _ => rfl) fun w _ => .expect fun _ x => ?_
    exact .write _ (.write _ (.write _ (.last (.write _ (.finish rfl)))))
  · refine .expect fun _ u => .call expression (fun _ => rfl) fun v _ => .expect fun _ w => ?_
    refine .last (.act (.store name) (fun _ => rfl) (fun w h => ?_) (.finish rfl))
    exact pop_eq_carry_store (h rfl)

theorem statements_carried : IsCarried ω statements := by
  intro s
  rw [pass, plan]
  refine .next? (.finish rfl) fun taken hnext => ?_
  cases taken.token.kind with
  | keyword word =>
    cases word with
    | let_ =>
      exact .advance hnext (.call assignment (fun _ => rfl) fun u _ => .again statements rfl)
    | if_ => exact .advance hnext (.call choice (fun _ => rfl) fun u _ => .again statements rfl)
    | while_ => exact .advance hnext (.call loop (fun _ => rfl) fun u _ => .again statements rfl)
    | do_ => exact .advance hnext (.call invocation (fun _ => rfl) fun u _ => .again statements rfl)
    | return_ =>
      exact .advance hnext (.call returning (fun _ => rfl) fun u _ => .again statements rfl)
    | _ => exact .finish rfl
  | _ => exact .finish rfl

theorem choice_carried : IsCarried ω choice := by
  intro s
  rw [pass, plan]
  refine .labels (.call (condition _) (fun _ => rfl) fun t _ => ?_)
  refine .call block (fun _ => rfl) fun u _ => .write _ (.write _ (.accept? (fun v => ?_) ?_))
  · exact .call block (fun _ => rfl) fun w _ => .last (.write _ (.finish rfl))
  · exact .last (.write _ (.finish rfl))

theorem names_carried (kind : VariableKind) (type : String) : IsCarried ω (names kind type) := by
  intro s
  rw [pass, plan]
  refine .expect fun name t => .act (.declare kind type name) (of_loud rfl) (fun _ _ => rfl) ?_
  exact .accept? (fun u => .again (names kind type) rfl) (.finish rfl)

theorem classVariables_carried : IsCarried ω classVariables := by
  intro s
  rw [pass, plan]
  refine .next? (.finish rfl) fun taken hnext => ?_
  cases taken.token.kind with
  | keyword word =>
    cases word with
    | static_ =>
      refine .advance hnext (.call (declaration _) (of_loud rfl) fun u _ => ?_)
      exact .again classVariables rfl
    | field_ =>
      refine .advance hnext (.call (declaration _) (of_loud rfl) fun u _ => ?_)
      exact .again classVariables rfl
    | _ => exact .finish rfl
  | _ => exact .finish rfl

theorem moreParameters_carried : IsCarried ω moreParameters := by
  intro s
  rw [pass, plan]
  refine .take Pass.takes_type fun type t => .expect fun name u => ?_
  refine .act (.declare .argument type.text name) (of_loud rfl) (fun _ _ => rfl) ?_
  exact .accept? (fun v => .again moreParameters rfl) (.finish rfl)

theorem subroutines_carried : IsCarried ω subroutines := by
  intro s
  rw [pass, plan]
  refine .next? (.finish rfl) fun taken hnext => ?_
  cases hkind : taken.token.kind with
  | keyword word =>
    have hkeyword : taken.token.kind ∈ [TokenKind.keyword word] := List.mem_singleton.2 hkind
    cases word with
    | constructor_ =>
      refine .known hnext hkeyword (.call (subroutine _ _) (of_loud rfl) fun u _ => ?_)
      exact .again subroutines rfl
    | function_ =>
      refine .known hnext hkeyword (.call (subroutine _ _) (of_loud rfl) fun u _ => ?_)
      exact .again subroutines rfl
    | method_ =>
      refine .known hnext hkeyword (.call (subroutine _ _) (of_loud rfl) fun u _ => ?_)
      exact .again subroutines rfl
    | _ => exact .finish rfl
  | _ => exact .finish rfl

theorem carried (rule : Rule) : IsCarried ω rule := by
  cases rule with
  | expression =>
    intro s
    rw [pass, plan]
    refine .call term (fun _ => rfl) fun t _ => .last ?_
    exact .call operations (fun _ => rfl) fun u _ => .finish rfl
  | operations => exact operations_carried
  | term => exact term_carried
  | index =>
    intro s
    rw [pass, plan]
    refine .expect fun _ t => .call expression (fun _ => rfl) fun u _ => .expect fun _ v => ?_
    exact .last (.write _ (.finish rfl))
  | call name => exact call_carried name
  | arguments =>
    intro s
    rw [pass, plan]
    refine .expect fun _ t => .kind (.ite ?_ ?_)
    · exact .expect fun _ u => .finish rfl
    · refine .call expression (fun _ => rfl) fun u _ => ?_
      exact .call (moreArguments 1) (fun _ => rfl) fun v count => .expect fun _ w => .finish rfl
  | moreArguments count => exact moreArguments_carried count
  | assignment => exact assignment_carried
  | invocation =>
    intro s
    rw [pass, plan]
    refine .expect fun name t => .call (call name) (fun _ => rfl) fun u _ => .expect fun _ v => ?_
    exact .last (.write _ (.finish rfl))
  | returning =>
    intro s
    rw [pass, plan]
    refine .kind (.ite (.write _ (.expect fun _ t => .last (.write _ (.finish rfl)))) ?_)
    exact .call expression (fun _ => rfl) fun t _ => .expect fun _ u =>
      .last (.write _ (.finish rfl))
  | condition otherwise =>
    intro s
    rw [pass, plan]
    refine .expect fun _ t => .call expression (fun _ => rfl) fun u _ => .expect fun _ v => ?_
    exact .write _ (.last (.write _ (.finish rfl)))
  | statements => exact statements_carried
  | choice => exact choice_carried
  | loop =>
    intro s
    rw [pass, plan]
    refine .labels (.write _ (.call (condition _) (fun _ => rfl) fun t _ => ?_))
    exact .call block (fun _ => rfl) fun u _ => .write _ (.last (.write _ (.finish rfl)))
  | block =>
    intro s
    rw [pass, plan]
    refine .expect fun _ t => .call statements (fun _ => rfl) fun u _ => ?_
    exact .expect fun _ v => .finish rfl
  | names kind type => exact names_carried kind type
  | declaration kind =>
    intro s
    rw [pass, plan]
    refine .take Pass.takes_type fun type t => .call (names _ _) (of_loud rfl) fun u _ => ?_
    exact .expect fun _ v => .finish rfl
  | classVariables => exact classVariables_carried
  | localVariables =>
    intro s
    rw [pass, plan]
    refine .accept? (fun t => .call (declaration _) (of_loud rfl) fun u _ => ?_) (.finish rfl)
    exact .again localVariables rfl
  | moreParameters => exact moreParameters_carried
  | parameters =>
    intro s
    rw [pass, plan]
    refine .expect fun _ t => .kind (.ite (.expect fun _ v => .finish rfl) ?_)
    exact .call moreParameters (of_loud rfl) fun u _ => .expect fun _ v => .finish rfl
  | body kind name =>
    intro s
    rw [pass, plan]
    refine .expect fun _ t => .call localVariables (of_loud rfl) fun u _ => ?_
    refine .act (.openBody kind name) (of_loud rfl) (fun _ _ => rfl) ?_
    exact .call statements (of_loud rfl) fun v _ => .expect fun _ w => .finish rfl
  | subroutine kind keyword =>
    intro s
    rw [pass, plan]
    refine .act (.openSubroutine kind keyword) (of_loud rfl) (fun _ _ => rfl) ?_
    refine .take Pass.takes_returnType fun _ t => .expect fun name u => ?_
    refine .act (.nameSubroutine kind name.text) (of_loud rfl) (fun _ _ => rfl) ?_
    refine .call parameters (of_loud rfl) fun v _ => .last ?_
    exact .call (body _ _) (of_loud rfl) fun w _ => .finish rfl
  | subroutines => exact subroutines_carried
  | wholeClass =>
    intro s
    rw [pass, plan]
    refine .expect fun _ t => .expect fun name u => ?_
    refine .act (.openClass name.text) (of_loud rfl) (fun _ _ => rfl) (.expect fun _ v => ?_)
    refine .call classVariables (of_loud rfl) fun w _ => ?_
    refine .call subroutines (of_loud rfl) fun x _ => ?_
    exact .expect fun _ y => .kind (.ite (.finish rfl) (.unexpected _))

/-- Every rule of a single pass does what reading it adds. -/
theorem implements (rule : Rule) (s : Reading) : Pass.Implements ω rule s := by
  intro hs
  rw [read_eq]
  exact rule.carried s (fun inner t _ => inner.implements t) (rule.plan_advances s) hs
termination_by rule.weight s.remaining

/-- What a rule that declares nothing reads leaves the names alone when it is carried out. A name
that is looked up before an expression is the same variable behind it. -/
theorem names_kept {rule : Rule} (hquiet : rule.isQuiet = true) {s : Reading} (hs : s.Ended) :
    ∃ added, Pass.codeOf (rule.read s) = added ++ s.code ∧
      ∀ g g' : Generator, g.run added.reverse = .ok g' → g.SameNames g' := by
  obtain ⟨-, ⟨added, hadded, hall⟩, -⟩ :=
    (rule.implements s : Pass.Implements Device rule s) hs
  refine ⟨added, hadded, fun g g' hrun => Generator.sameNames_run ?_ hrun⟩
  exact fun directive hmem => hall hquiet directive (List.mem_reverse.1 hmem)

end Rule

end JackCompiler
