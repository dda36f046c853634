import JackCompiler.Proofs.AgendaInvariants
import JackCompiler.Proofs.CheckedMachine
import JackCompiler.Proofs.Cursor

/-!
Reading on the machine that checks. Every step of an agenda is a step of the machine, with the
tokens found in the buffer, and it leaves numbers that fit: arguments are counted only while there
is room for one more, and each label is paid for by a token of two bytes or more, so there are never
more labels than bytes.
-/

namespace JackCompiler

/-! ### Numbers in goals -/

/-- Arguments are counted up to the largest constant, and commands have numbers of 16 bits. -/
def Directive.Narrow : Directive → Prop
  | .emit command => command.number < 2 ^ 16
  | .invoke _ _ count | .invokeOwn _ count => count ≤ maxInteger
  | _ => True

namespace Goal

def Narrow : Goal → Prop
  | act directive => directive.Narrow
  | moreArguments _ count => count ≤ maxInteger
  | _ => True

/-- Whether labels will be handed out to the goal. -/
def branches : Goal → Bool
  | choice | loop => true
  | _ => false

variable {goal : Goal} {token : Token}

theorem Narrow.isNarrow (h : goal.Narrow) : goal.isNarrow = true := by
  have hsucc : maxInteger + 1 < 2 ^ 16 := by decide
  cases goal with
  | act directive =>
    cases directive with
    | invoke owner member count =>
      exact decide_eq_true (Nat.lt_of_le_of_lt (Nat.succ_le_succ h) hsucc)
    | invokeOwn method count =>
      exact decide_eq_true (Nat.lt_of_le_of_lt (Nat.succ_le_succ h) hsucc)
    | _ => rfl
  | moreArguments callee count =>
    exact decide_eq_true (Nat.lt_of_le_of_lt h (by decide))
  | _ => rfl

/-- A goal that has room for the token goes on with numbers that fit. -/
theorem narrow_next (hfull : goal.isFull (some maxInteger) = false)
    (hvalue : ∀ value, token.kind = .integer value → value ≤ maxInteger) (h : goal.Narrow) :
    ∀ other ∈ goal.next token, other.Narrow := by
  cases goal with
  | moreArguments callee count =>
    have hroom : count < maxInteger := by simpa [isFull] using hfull
    simp [next, Narrow, Nat.succ_le_of_lt hroom]
  | term =>
    simp only [next]
    split
    · rename_i value hkind
      have hbound := hvalue value hkind
      have hnarrow : value < 2 ^ 16 := Nat.lt_of_le_of_lt hbound (by decide)
      simpa [Narrow, Directive.Narrow, Command.number] using hnarrow
    all_goals simp [Narrow, Directive.Narrow, Command.number]
  | name use => cases use <;> simp [next, NameUse.goals, Narrow, Directive.Narrow]
  | type use => cases use <;> simp [next, TypeUse.goals, Narrow]
  | arguments callee =>
    cases callee <;> simp [next, Callee.directive, Narrow, Directive.Narrow]
  | operations =>
    simp only [next]
    split
    · rename_i mark hkind
      cases mark <;> simp [Symbol.binary?, Narrow, Directive.Narrow, Command.number]
    · simp
  | afterName single =>
    simp only [next]
    split <;> simp [Narrow, Directive.Narrow, Command.number]
  | statements | classVariables | subroutines =>
    simp only [next]
    split <;> simp [Narrow, Directive.Narrow, Command.number]
  | _ => simp [next, Narrow, Directive.Narrow, Command.number]

theorem narrow_fallback (h : goal.Narrow) : goal.fallback.All Directive.Narrow Narrow := by
  have hone : 1 ≤ maxInteger := by decide
  cases goal with
  | act directive => exact h
  | moreArguments callee count =>
    cases callee <;> simpa [fallback, Fallback.All, Callee.directive, Narrow, Directive.Narrow]
  | _ =>
    simp [fallback, Fallback.All, guarded, Narrow, Directive.Narrow, Command.number, hone]

/-- Only the tokens for labels bring goals for labels, one each. -/
theorem branches_next (goal : Goal) (token : Token) :
    (goal.next token).countP branches ≤ if token.kind.branches then 1 else 0 := by
  have hnone : ∀ {goals : List Goal}, goals.countP branches = 0 →
      goals.countP branches ≤ if token.kind.branches then 1 else 0 :=
    fun hzero => hzero.trans_le (Nat.zero_le _)
  cases goal with
  | statements =>
    simp only [next]
    split
    · exact hnone rfl
    · rename_i hkind
      rw [hkind]
      exact Nat.le_refl 1
    · rename_i hkind
      rw [hkind]
      exact Nat.le_refl 1
    · exact hnone rfl
    · exact hnone rfl
  | name use => cases use <;> exact hnone rfl
  | type use => cases use <;> exact hnone rfl
  | operations =>
    simp only [next]
    split
    · split <;> exact hnone rfl
    · exact hnone rfl
  | term | afterName single | classVariables | subroutines =>
    simp only [next]
    split <;> exact hnone rfl
  | _ => exact hnone rfl

theorem branches_fallback (goal : Goal) :
    goal.fallback.All (fun _ => True) (·.branches = false) := by
  cases goal <;> simp [fallback, Fallback.All, guarded, branches]

theorem branches_of_branch {others : Nat → List Goal} (h : goal.fallback = .branch others) :
    goal.branches = true := by
  cases goal <;> first | rfl | cases h

end Goal

/-! ### Reading from a buffer -/

namespace Agenda

/-- The agenda with its tokens in a buffer, where the last of them ends. -/
def buffered (buffer : List Token) (a : Agenda) : BufferedAgenda where
  buffer
  position := buffer.length - (a.reading.left + 1)
  labels := a.reading.labels
  goals := a.goals
  code := a.reading.code

/-- How many labels there may be in the end: those that are handed out, and two for every goal and
for every token that they are handed out for. -/
def labelBound (a : Agenda) : Nat :=
  a.reading.labels + 2 * a.goals.countP Goal.branches +
    2 * a.reading.input.tokens.countP (·.kind.branches)

/-- The tokens of the agenda are at the end of the buffer. Its goals and directives have numbers
that fit, and there is room in the source for all labels that may still be handed out. -/
structure InRange (source : String) (buffer : List Token) (a : Agenda) : Prop where
  tokens : a.reading.input.tokens ++ [a.reading.input.last] <:+ buffer
  goals : ∀ goal ∈ a.goals, goal.Narrow
  code : ∀ directive ∈ a.reading.code, directive.Narrow
  room : a.labelBound ≤ source.utf8ByteSize

section Buffered

variable {source : String} {buffer : List Token} {a b : Agenda}

/-- Looking ahead never leaves the buffer. -/
theorem InRange.peekNth? (h : a.InRange source buffer) (hsize : source.utf8ByteSize < 2 ^ 32)
    (hbuffer : Scanner.tokens source = .ok buffer) (n : Nat) :
    (a.buffered buffer).peekNth? source n = some (a.reading.input.peekNth n) := by
  obtain ⟨x, rfl⟩ := h.tokens
  have hlength : (x ++ (a.reading.input.tokens ++ [a.reading.input.last])).length =
      1 + (x.length + a.reading.input.tokens.length) := by
    simp only [List.length_append, List.length_singleton]
    omega
  have hposition : (a.buffered (x ++ (a.reading.input.tokens ++ [a.reading.input.last]))).position =
      x.length := by
    change List.length _ - (a.reading.input.tokens.length + 1) = x.length
    rw [hlength]
    omega
  have hget : (x ++ (a.reading.input.tokens ++ [a.reading.input.last]))[min (x.length + n)
      (x.length + a.reading.input.tokens.length)]? = some (a.reading.input.peekNth n) := by
    rw [Nat.add_min_add_left, List.getElem?_append_right (Nat.le_add_right _ _),
      Nat.add_sub_cancel_left]
    exact Reader.getElem?_concat_min _ _ n
  have htext := Span.text?_eq hsize
    (Scanner.fragments_of_tokens hbuffer _ (List.mem_of_getElem? hget))
  rw [BufferedAgenda.peekNth?, hposition]
  simp only [buffered, hlength, minus?_add, Option.bind_eq_bind, Option.bind_some, hget, htext]

theorem peekNth_zero (s : Reading) : s.input.peekNth 0 = s.input.peek := by
  rw [Reader.peekNth, Reader.peek]
  cases s.input.tokens <;> rfl

theorem peek_of_tokens {s : Reading} {token : Token} {rest : List Token}
    (h : s.input.tokens = token :: rest) : s.input.peek = token := by
  rw [Reader.peek, h, List.headD_cons]

/-- Labels are only handed out to goals that have been counted, and these goals only come from
tokens that have been counted. -/
theorem Step.labelBound_le {limit : Option Nat} (h : Step limit a b) :
    b.labelBound ≤ a.labelBound := by
  cases h with
  | @take goal goals s token rest ktokens kkind kwants kfull =>
    have hbranches := goal.branches_next token
    simp only [labelBound, Reading.withTokens, ktokens, List.countP_cons, List.countP_append]
    omega
  | @goals goal goals s others knot kgoals =>
    have hbranches := goal.branches_fallback
    rw [kgoals] at hbranches
    have hnone : others.countP Goal.branches = 0 := List.countP_eq_zero.2 fun other hmem =>
      Bool.eq_false_iff.1 (hbranches other hmem)
    simp only [labelBound, List.countP_cons, List.countP_append]
    omega
  | @emit goal goals s directive kemit =>
    simp only [labelBound, Reading.emit, List.countP_cons]
    omega
  | @branch goal goals s others kbranch =>
    have hbranches := goal.branches_fallback
    rw [kbranch] at hbranches
    have hnone : (others s.labels).countP Goal.branches = 0 :=
      List.countP_eq_zero.2 fun other hmem => Bool.eq_false_iff.1 (hbranches _ other hmem)
    simp only [labelBound, Reading.takeLabels, List.countP_cons, List.countP_append,
      if_pos (Goal.branches_of_branch kbranch)]
    omega

/-- A step hands on numbers that fit. -/
theorem Step.inRange (h : Step (some maxInteger) a b)
    (hvalue : ∀ token ∈ buffer, ∀ value, token.kind = .integer value → value ≤ maxInteger)
    (ha : a.InRange source buffer) : b.InRange source buffer := by
  have hbound := Nat.le_trans h.labelBound_le ha.room
  obtain ⟨htokens, hgoals, hcode, -⟩ := ha
  cases h with
  | @take goal goals s token rest ktokens kkind kwants kfull =>
    rw [ktokens] at htokens
    obtain ⟨hgoal, hrest⟩ := List.forall_mem_cons.1 hgoals
    have hmem : token ∈ buffer := htokens.subset List.mem_cons_self
    have hnext := Goal.narrow_next kfull (hvalue token hmem) hgoal
    exact ⟨(List.suffix_cons _ _).trans htokens, List.forall_mem_append.2 ⟨hnext, hrest⟩, hcode,
      hbound⟩
  | @goals goal goals s others knot kgoals =>
    obtain ⟨hgoal, hrest⟩ := List.forall_mem_cons.1 hgoals
    have hothers := Goal.narrow_fallback hgoal
    rw [kgoals] at hothers
    exact ⟨htokens, List.forall_mem_append.2 ⟨hothers, hrest⟩, hcode, hbound⟩
  | @emit goal goals s directive kemit =>
    obtain ⟨hgoal, hrest⟩ := List.forall_mem_cons.1 hgoals
    have hdirective := Goal.narrow_fallback hgoal
    rw [kemit] at hdirective
    exact ⟨htokens, hrest, List.forall_mem_cons.2 ⟨hdirective, hcode⟩, hbound⟩
  | @branch goal goals s others kbranch =>
    obtain ⟨hgoal, hrest⟩ := List.forall_mem_cons.1 hgoals
    have hothers := Goal.narrow_fallback hgoal
    rw [kbranch] at hothers
    exact ⟨htokens, List.forall_mem_append.2 ⟨hothers _, hrest⟩, hcode, hbound⟩

end Buffered

end Agenda

namespace BufferedAgenda

variable {source : String} {agenda : BufferedAgenda} {goal : Goal} {goals : List Goal}
  {token : Token}

theorem step?_eq (hgoals : agenda.goals = goal :: goals)
    (hpeek : agenda.peekNth? source 0 = some token) :
    agenda.step? source = if goal.wants token.kind then agenda.take? source token goal goals
      else agenda.pass? token goal goals := by
  rw [step?, hgoals]
  dsimp only
  rw [hpeek]
  rfl

theorem push?_eq {others : List Goal} (h : ∀ other ∈ others, other.Narrow) :
    agenda.push? others goals = some (.reading { agenda with goals := others ++ goals }) :=
  if_pos (List.all_eq_true.2 fun other hmem => (h other hmem).isNarrow)

end BufferedAgenda

namespace Agenda

section Checked

variable {source : String} {buffer : List Token} {a b : Agenda}
  (hsize : source.utf8ByteSize < 2 ^ 32) (hbuffer : Scanner.tokens source = .ok buffer)

include hsize hbuffer

theorem step?_wants {goal : Goal} {goals : List Goal} {s : Reading} {token : Token}
    (ha : InRange source buffer ⟨goal :: goals, s⟩) (htoken : s.input.peek = token)
    (hwants : goal.wants token.kind = true) :
    (buffered buffer ⟨goal :: goals, s⟩).step? source =
      (buffered buffer ⟨goal :: goals, s⟩).take? source token goal goals := by
  have hpeek := ha.peekNth? hsize hbuffer 0
  rw [peekNth_zero, htoken] at hpeek
  rw [BufferedAgenda.step?_eq rfl hpeek, if_pos hwants]

theorem step?_passes {goal : Goal} {goals : List Goal} {s : Reading}
    (ha : InRange source buffer ⟨goal :: goals, s⟩) (hnot : goal.wants s.kind = false) :
    (buffered buffer ⟨goal :: goals, s⟩).step? source =
      (buffered buffer ⟨goal :: goals, s⟩).pass? s.input.peek goal goals := by
  have hpeek := ha.peekNth? hsize hbuffer 0
  rw [peekNth_zero] at hpeek
  rw [BufferedAgenda.step?_eq rfl hpeek]
  exact if_neg (Bool.eq_false_iff.1 hnot)

/-- The machine does the step, with everything in range. -/
theorem Step.checked (h : Step (some maxInteger) a b) (ha : a.InRange source buffer)
    (hb : b.InRange source buffer) :
    (a.buffered buffer).step? source = some (.reading (b.buffered buffer)) := by
  cases h with
  | @take goal goals s token rest ktokens kkind kwants kfull =>
    have hnext : ∀ other ∈ goal.next token, other.Narrow := fun other hmem =>
      hb.goals other (List.mem_append_left _ hmem)
    have hlength := ha.tokens.length_le
    have hposition : buffer.length - (s.left + 1) + 1 =
        buffer.length - ((s.withTokens rest).left + 1) := by
      simp only [Reading.left, Reader.left, Reading.withTokens, ktokens, List.length_append,
        List.length_cons, List.length_nil] at hlength ⊢
      omega
    rw [step?_wants hsize hbuffer ha (peek_of_tokens ktokens) kwants, BufferedAgenda.take?,
      if_neg kkind, if_neg (Bool.eq_false_iff.1 kfull), BufferedAgenda.push?_eq hnext]
    simp only [buffered, hposition]
    rfl
  | @goals goal goals s others knot kgoals =>
    have hothers : ∀ other ∈ others, other.Narrow := fun other hmem =>
      hb.goals other (List.mem_append_left _ hmem)
    rw [step?_passes hsize hbuffer ha knot, BufferedAgenda.pass?, kgoals]
    exact BufferedAgenda.push?_eq hothers
  | @emit goal goals s directive kemit =>
    rw [step?_passes hsize hbuffer ha (not_wants_of_emit kemit), BufferedAgenda.pass?, kemit]
    rfl
  | @branch goal goals s others kbranch =>
    have hothers : ∀ other ∈ others s.labels, other.Narrow := fun other hmem =>
      hb.goals other (List.mem_append_left _ hmem)
    -- Both labels are below the bound, and the bound is no more than the bytes of the source.
    have hlabels : s.labels + 1 + 1 < 2 ^ 32 := by
      have hroom := hb.room
      simp only [labelBound, Reading.takeLabels] at hroom
      omega
    rw [step?_passes hsize hbuffer ha (not_wants_of_branch kbranch), BufferedAgenda.pass?, kbranch]
    change (narrow? 32 (s.labels + 1) >>= _) = _
    rw [narrow?_eq (Nat.lt_of_succ_lt hlabels), Option.bind_eq_bind, Option.bind_some,
      narrow?_eq hlabels, Option.bind_some]
    exact BufferedAgenda.push?_eq hothers

/-- The machine finds the refusal. -/
theorem Refuses.checked {stop : Reading.Stop} (h : Refuses (some maxInteger) a stop)
    (ha : a.InRange source buffer) :
    (a.buffered buffer).step? source =
      some ((a.buffered buffer).finish (some stop.refusal)) := by
  cases h with
  | @unexpected goal goals s expected knot krefuse =>
    rw [step?_passes hsize hbuffer ha knot, BufferedAgenda.pass?, krefuse]
    rfl
  | @full goal goals s token rest ktokens kkind kwants kfull =>
    have hfollowing : s.input.peekNth 1 = rest.headD s.input.last := by
      rw [Reader.peekNth, ktokens]
      cases rest <;> rfl
    rw [step?_wants hsize hbuffer ha (peek_of_tokens ktokens) kwants, BufferedAgenda.take?,
      if_neg kkind, if_pos kfull, ha.peekNth? hsize hbuffer 1, hfollowing]
    rfl

/-- The machine finds the end. -/
theorem Finished.checked (h : Finished a) (ha : a.InRange source buffer) :
    (a.buffered buffer).step? source = some ((a.buffered buffer).finish none) := by
  obtain ⟨goals, s⟩ := a
  obtain ⟨rfl, hkind⟩ := h
  have hpeek : s.input.peek.kind = .endOfFile := hkind
  rw [step?_wants hsize hbuffer ha rfl (decide_eq_true hkind), BufferedAgenda.take?, if_pos hpeek]

end Checked

end Agenda

end JackCompiler
