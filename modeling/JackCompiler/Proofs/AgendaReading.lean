import JackCompiler.Proofs.Agenda
import JackCompiler.Proofs.ReadingCompleteness

/-!
Reading a class is work on an agenda. Each rule of the reading does what work on its goals does: it
takes the same tokens, hands out the same labels and adds the same directives, and where it stops,
the goal in front refuses the text in the same way.
-/

namespace JackCompiler.Agenda

open Reading

/-- Work on the goals comes to this outcome, whatever goals there are behind them. -/
def Answers (goals : List Goal) (s : Reading) : Outcome Reading → Prop
  | .ok t => t.Ended ∧ ∀ rest, Reaches (some maxInteger) ⟨goals ++ rest, s⟩ ⟨rest, t⟩
  | .error stop => ∀ rest, Fails (some maxInteger) ⟨goals ++ rest, s⟩ stop

theorem Step.fails {limit : Option Nat} {a b : Agenda} {stop : Stop} (h : Step limit a b)
    (k : Fails limit b stop) : Fails limit a stop := by
  obtain ⟨last, hwork, hrefuses⟩ := k
  exact ⟨last, .head h hwork, hrefuses⟩

namespace Answers

variable {goal : Goal} {goals others : List Goal} {s : Reading} {outcome : Outcome Reading}

theorem nil (hs : s.Ended) : Answers [] s (.ok s) :=
  ⟨hs, fun _ => .refl⟩

theorem bind {α β : Type} {x : Outcome α} {f : α → Outcome β} {p : α → Reading}
    {q : β → Reading} (hx : Answers goals s (x.map p))
    (hf : ∀ a, x = .ok a → (p a).Ended → Answers others (p a) ((f a).map q)) :
    Answers (goals ++ others) s ((x >>= f).map q) := by
  cases x with
  | error stop =>
    intro rest
    rw [List.append_assoc]
    exact hx (others ++ rest)
  | ok a =>
    obtain ⟨hended, hwork⟩ := hx
    have hrest := hf a rfl hended
    change Answers _ _ ((f a).map q)
    cases hb : f a with
    | error stop =>
      rw [hb] at hrest
      intro rest
      obtain ⟨last, hlater, hrefuses⟩ := hrest rest
      refine ⟨last, ?_, hrefuses⟩
      rw [List.append_assoc]
      exact (hwork (others ++ rest)).trans hlater
    | ok b =>
      rw [hb] at hrest
      refine ⟨hrest.1, fun rest => ?_⟩
      rw [List.append_assoc]
      exact (hwork (others ++ rest)).trans (hrest.2 rest)

/-- A step that does not depend on the goals behind comes before all others. -/
theorem step {t : Reading} (hstep : ∀ rest, Step (some maxInteger) ⟨goal :: rest, s⟩
      ⟨others ++ rest, t⟩) (h : Answers (others ++ goals) t outcome) :
    Answers (goal :: goals) s outcome := by
  cases outcome with
  | error stop =>
    intro rest
    have hrest := h rest
    rw [List.append_assoc] at hrest
    exact (hstep (goals ++ rest)).fails hrest
  | ok u =>
    refine ⟨h.1, fun rest => ?_⟩
    have hrest := h.2 rest
    rw [List.append_assoc] at hrest
    exact .head (hstep (goals ++ rest)) hrest

theorem instead (hnot : goal.wants s.kind = false) (hgoals : goal.fallback = .goals others)
    (h : Answers (others ++ goals) s outcome) : Answers (goal :: goals) s outcome :=
  step (fun _ => .goals hnot hgoals) h

theorem emit {directive : Directive} (h : Answers goals (s.emit directive) outcome) :
    Answers (.act directive :: goals) s outcome := by
  have hstep : ∀ rest, Step (some maxInteger) ⟨.act directive :: rest, s⟩
      ⟨[] ++ rest, s.emit directive⟩ := fun _ => .emit rfl
  exact step hstep h

theorem branch {expand : Nat → List Goal} (hbranch : goal.fallback = .branch expand)
    (h : Answers (expand s.labels ++ goals) s.takeLabels outcome) :
    Answers (goal :: goals) s outcome :=
  step (fun _ => .branch hbranch) h

theorem refuse {expected : String} (hnot : goal.wants s.kind = false)
    (hrefuse : goal.fallback = .refuse expected) :
    Answers (goal :: goals) s (.error ⟨s.input.unexpected expected, s.code⟩) :=
  fun _ => ⟨_, .refl, .unexpected hnot hrefuse⟩

end Answers

/-! ### One token -/

section Tokens

variable {goal : Goal} {goals others : List Goal} {s : Reading} {taken : Taken s.left}
  {outcome : Outcome Reading}

theorem next_eq (h : s.next? = some taken) :
    taken.next = s.withTokens taken.next.input.tokens :=
  (next?_eq h).2.2

theorem ended_next (h : s.next? = some taken) (hs : s.Ended) : taken.next.Ended := by
  rw [next_eq h]
  exact hs

theorem kind_of_next? (h : s.next? = some taken) : s.kind = taken.token.kind :=
  kind_of_tokens (next?_eq h).2.1

theorem kind_of_next?_none (h : s.next? = none) (hs : s.Ended) : s.kind = .endOfFile := by
  unfold next? at h
  split at h
  · cases h
  · rename_i hnone
    unfold Reader.next? at hnone
    split at hnone
    · rename_i htokens
      rw [kind_eq, htokens]
      exact hs
    · rename_i token rest htokens
      split at hnone
      · rename_i hkind
        rw [kind_of_tokens htokens, hkind]
      · cases hnone

/-- There is a next token if the current kind is not that of the end. -/
theorem exists_next? (hs : s.Ended) {kind : TokenKind} (hkind : s.kind = kind)
    (hend : kind ≠ .endOfFile) : ∃ taken, s.next? = some taken ∧ taken.token.kind = kind := by
  cases hnext : s.next? with
  | none => exact absurd (hkind.symm.trans (kind_of_next?_none hnext hs)) hend
  | some taken => exact ⟨taken, rfl, (kind_of_next? hnext).symm.trans hkind⟩

theorem next?_emit (h : s.next? = some taken) (directive : Directive) :
    (s.emit directive).next? =
      some ⟨taken.token, taken.next.emit directive, taken.shorter⟩ := by
  obtain ⟨token, after, hinput, rfl⟩ := input_of_next? h
  exact next?_of_input (s := s.emit directive) hinput

/-- Where no token is left, a goal that does not want the end of the text wants nothing. -/
theorem not_wants_at_end (hnone : s.next? = none) (hs : s.Ended)
    (hwants : goal.wants .endOfFile = false) : goal.wants s.kind = false := by
  rwa [kind_of_next?_none hnone hs]

theorem Answers.take {kind : TokenKind} (hnext : s.next? = some taken)
    (hkind : taken.token.kind = kind) (hwants : goal.wants kind = true)
    (hfull : goal.isFull (some maxInteger) = false)
    (h : Answers (goal.next taken.token ++ goals) taken.next outcome) :
    Answers (goal :: goals) s outcome := by
  obtain ⟨hend, htokens, hafter⟩ := next?_eq hnext
  rw [hafter] at h
  exact step (fun _ => .take htokens hend (hkind ▸ hwants) hfull) h

/-- A goal takes the token in front, which has been looked at and not been taken. -/
theorem Answers.takeKind {kind : TokenKind} (hs : s.Ended) (hkind : s.kind = kind)
    (hend : kind ≠ .endOfFile) (hwants : goal.wants kind = true)
    (hfull : goal.isFull (some maxInteger) = false)
    (h : ∀ taken, s.next? = some taken → taken.token.kind = kind → taken.next.Ended →
      Answers (goal.next taken.token ++ goals) taken.next outcome) :
    Answers (goal :: goals) s outcome := by
  obtain ⟨taken, hnext, htoken⟩ := exists_next? hs hkind hend
  exact take hnext htoken hwants hfull (h taken hnext htoken (ended_next hnext hs))

/-- A goal takes a token that is accepted. -/
theorem Answers.accepted {kind : TokenKind} (haccept : s.accept? kind = some taken)
    (hs : s.Ended) (hwants : goal.wants kind = true)
    (hfull : goal.isFull (some maxInteger) = false)
    (h : taken.next.Ended → Answers (goal.next taken.token ++ goals) taken.next outcome) :
    Answers (goal :: goals) s outcome := by
  obtain ⟨hnext, hkind⟩ := accept?_eq haccept
  exact take hnext hkind hwants hfull (h (ended_next hnext hs))

/-- A goal for a token that is not accepted comes to what takes its place. -/
theorem Answers.passed {kind : TokenKind} (hnone : s.accept? kind = none) (hs : s.Ended)
    (hend : kind ≠ .endOfFile) (hwants : ∀ other, goal.wants other = decide (other = kind))
    (hgoals : goal.fallback = .goals others) (h : Answers (others ++ goals) s outcome) :
    Answers (goal :: goals) s outcome := by
  refine instead ?_ hgoals h
  rw [hwants, decide_eq_false_iff_not]
  intro hkind
  obtain ⟨taken, hnext, htoken⟩ := exists_next? hs hkind hend
  rw [accept?_of_next? hnext htoken] at hnone
  cases hnone

theorem accept?_none {kind : TokenKind} (h : s.next? = some taken)
    (hkind : taken.token.kind ≠ kind) : s.accept? kind = none := by
  cases haccept : s.accept? kind with
  | none => rfl
  | some other =>
    obtain ⟨hnext, htoken⟩ := accept?_eq haccept
    cases h.symm.trans hnext
    exact absurd htoken hkind

theorem expectAny_error {kinds : List TokenKind} {stop : Stop}
    (h : s.expectAny kinds = .error stop) :
    stop = ⟨s.input.unexpected (Reader.expectation kinds), s.code⟩ := by
  unfold expectAny at h
  split at h
  · cases h
  · rename_i refusal hrefusal
    cases h
    unfold Reader.consumeAny at hrefusal
    split at hrefusal
    · split at hrefusal <;> cases hrefusal
      rfl
    · cases hrefusal
      rfl

/-- A goal for one kind of token does what expecting that kind does. -/
theorem Answers.expect {β : Type} {kind : TokenKind} {f : Taken s.left → Outcome β}
    {q : β → Reading} (hs : s.Ended) (hend : kind ≠ .endOfFile)
    (hwants : ∀ other, goal.wants other = decide (other = kind))
    (hrefuse : goal.fallback = .refuse (Reader.expectation [kind]))
    (h : ∀ taken, s.expect kind = .ok taken → taken.next.Ended →
      Answers (goal.next taken.token ++ goals) taken.next ((f taken).map q)) :
    Answers (goal :: goals) s ((s.expect kind >>= f).map q) := by
  cases hexpect : s.expect kind with
  | ok taken =>
    obtain ⟨hnext, hmem⟩ := expectAny_eq hexpect
    have hkind := List.mem_singleton.1 hmem
    refine take hnext hkind (by rw [hwants, decide_eq_true rfl]) ?_
      (h taken hexpect (ended_next hnext hs))
    exact isFull_of_refuse hrefuse
  | error stop =>
    rw [expectAny_error hexpect]
    apply refuse _ hrefuse
    rw [hwants, decide_eq_false_iff_not]
    intro hkind
    obtain ⟨taken, hnext, htoken⟩ := exists_next? hs hkind hend
    have hok := expectAny_of_next? hnext (List.mem_singleton.2 htoken)
    cases hok.symm.trans hexpect

theorem Answers.symbol {β : Type} {mark : Symbol} {f : Taken s.left → Outcome β}
    {q : β → Reading} (hs : s.Ended)
    (h : ∀ taken, s.expectSymbol mark = .ok taken → taken.next.Ended →
      Answers goals taken.next ((f taken).map q)) :
    Answers (.symbol mark :: goals) s ((s.expectSymbol mark >>= f).map q) :=
  expect hs TokenKind.noConfusion (fun _ => rfl) rfl h

theorem Answers.name {β : Type} {use : NameUse} {f : Taken s.left → Outcome β} {q : β → Reading}
    (hs : s.Ended)
    (h : ∀ taken, taken.next.Ended →
      Answers (use.goals taken.token ++ goals) taken.next ((f taken).map q)) :
    Answers (.name use :: goals) s ((s.expect .identifier >>= f).map q) :=
  expect hs TokenKind.noConfusion (fun _ => rfl) rfl fun taken _ hended => h taken hended

theorem operator?_eq {apply : Command} {taken : Taken s.left}
    (h : s.operator? = some (apply, taken)) : ∃ mark, s.next? = some taken ∧
      taken.token.kind = .symbol mark ∧ mark.binary? = some apply := by
  unfold operator? at h
  split at h
  · rename_i found hnext
    split at h
    · rename_i mark hkind
      obtain ⟨command, hbinary, heq⟩ := Option.map_eq_some_iff.1 h
      cases heq
      exact ⟨mark, hnext, hkind, hbinary⟩
    · cases h
  · cases h

theorem operator?_none (h : s.operator? = none) (hs : s.Ended) :
    Goal.operations.wants s.kind = false := by
  unfold operator? at h
  split at h
  · rename_i found hnext
    rw [kind_of_next? hnext]
    split at h
    · rename_i mark hkind
      rw [hkind]
      exact Option.isSome_eq_false_iff.2 (Option.isNone_iff_eq_none.2 (Option.map_eq_none_iff.1 h))
    · rename_i hnot
      cases hkind : found.1.kind with
      | symbol mark => exact absurd hkind (hnot mark)
      | keyword | identifier | integer | string | endOfFile => rfl
  · rename_i hnext
    rw [kind_of_next?_none hnext hs]
    rfl

end Tokens

/-! ### Expressions -/

theorem map_bind_ok {α β γ : Type} (x : Outcome α) (f : α → β) (q : β → γ) :
    (x >>= fun a => .ok (f a)).map q = x.map (q ∘ f) := by
  cases x <;> rfl

mutual

theorem expression_answers {s : Reading} (hs : s.Ended) :
    Answers [.term, .operations] s (s.expression.map Subtype.val) := by
  rw [expression]
  exact (term_answers hs).bind fun ⟨t, ht⟩ _ hended => operations_answers ht hended
termination_by 8 * s.left + 3
decreasing_by all_goals omega

theorem operations_answers {n : Nat} {s : Reading} (hn : s.left < n) (hs : s.Ended) :
    Answers [.operations] s ((s.operations hn).map Subtype.val) := by
  rw [operations]
  split
  · rename_i apply token t ht hoperator
    obtain ⟨mark, hnext, hkind, hbinary⟩ := operator?_eq hoperator
    replace hkind : token.kind = .symbol mark := hkind
    have hended : t.Ended := ended_next hnext hs
    refine .take hnext hkind (by simp only [Goal.wants, hbinary, Option.isSome_some]) rfl ?_
    simp only [Goal.next, hkind, hbinary]
    refine (term_answers hended).bind fun ⟨u, hu⟩ _ hended => .emit ?_
    exact operations_answers (s := u.command apply) _ hended
  · rename_i hnone
    exact .instead (operator?_none hnone hs) rfl (.nil hs)
termination_by 8 * s.left
decreasing_by
  all_goals simp_wf
  all_goals omega

theorem term_answers {s : Reading} (hs : s.Ended) :
    Answers [.term] s (s.term.map Subtype.val) := by
  rw [term]
  split
  · rename_i hnone
    exact .refuse (not_wants_at_end hnone hs rfl) rfl
  · rename_i token t ht hnext
    have hended : t.Ended := ended_next hnext hs
    have htake : ∀ {kind : TokenKind} {outcome : Outcome Reading} (others : List Goal),
        token.kind = kind → Goal.term.wants kind = true → Goal.term.next token = others →
        Answers others t outcome → Answers [.term] s outcome := by
      rintro kind outcome _ hkind hwants rfl h
      refine .take hnext hkind hwants rfl ?_
      rwa [List.append_nil]
    split
    · rename_i value hkind
      exact htake _ hkind rfl (by rw [Goal.next, hkind]) (.emit (.nil hended))
    · rename_i hkind
      exact htake _ hkind rfl (by rw [Goal.next, hkind]) (.emit (.nil hended))
    · rename_i hkind
      exact htake _ hkind rfl (by rw [Goal.next, hkind]) (.emit (.emit (.nil hended)))
    · rename_i hkind
      exact htake _ hkind rfl (by rw [Goal.next, hkind]) (.emit (.nil hended))
    · rename_i hkind
      exact htake _ hkind rfl (by rw [Goal.next, hkind]) (.emit (.nil hended))
    · rename_i hkind
      exact htake _ hkind rfl (by rw [Goal.next, hkind]) (.emit (.nil hended))
    · rename_i hkind
      refine htake _ hkind rfl (by rw [Goal.next, hkind]) ?_
      refine (expression_answers hended).bind fun ⟨u, hu⟩ _ hended => ?_
      exact .symbol hended fun taken _ hended => .nil hended
    · rename_i hkind
      refine htake _ hkind rfl (by rw [Goal.next, hkind]) ?_
      exact (term_answers hended).bind fun ⟨u, hu⟩ _ hended => .emit (.nil hended)
    · rename_i hkind
      refine htake _ hkind rfl (by rw [Goal.next, hkind]) ?_
      exact (term_answers hended).bind fun ⟨u, hu⟩ _ hended => .emit (.nil hended)
    · rename_i hkind
      refine htake [.afterName token] hkind rfl (by rw [Goal.next, hkind]) ?_
      split
      · rename_i hbracket
        refine .takeKind hended hbracket TokenKind.noConfusion rfl rfl
          fun taken hnext hkind hended => ?_
        simp only [Goal.next, hkind]
        refine .emit ?_
        refine (index_answers (next?_emit hnext (.load token)) hkind hended).bind
          fun ⟨u, hu⟩ _ hended => ?_
        exact .emit (.emit (.nil hended))
      · rename_i hparen
        refine .takeKind hended hparen TokenKind.noConfusion rfl rfl
          fun taken hnext hkind hended => ?_
        simp only [Goal.next, hkind]
        have hnone : t.accept? (.symbol .dot) = none :=
          accept?_none hnext (by rw [hkind]; exact nofun)
        rw [map_bind_ok]
        exact own_answers hnone hnext hkind hended
      · rename_i hdot
        refine .takeKind hended hdot TokenKind.noConfusion rfl rfl
          fun taken hnext hkind hended => ?_
        simp only [Goal.next, hkind]
        rw [map_bind_ok]
        exact member_answers (accept?_of_next? hnext hkind) hended
      · rename_i hbracket hparen hdot
        refine .instead ?_ rfl (.emit (.nil hended))
        simp only [Goal.wants, List.mem_cons, List.not_mem_nil, or_false, decide_eq_false_iff_not,
          not_or]
        exact ⟨hbracket, hparen, hdot⟩
    · refine .refuse ?_ rfl
      rw [kind_of_next? hnext]
      simp only [Goal.wants]
      split <;> simp_all
termination_by 8 * s.left + 2
decreasing_by
  all_goals simp_wf
  all_goals omega

/-- An index, after the bracket. -/
theorem index_answers {s : Reading} {taken : Taken s.left} (hnext : s.next? = some taken)
    (hkind : taken.token.kind = .symbol .leftBracket) (hended : taken.next.Ended) :
    Answers [.term, .operations, .symbol .rightBracket, .command (.operate .add)] taken.next
      (s.index.map Subtype.val) := by
  have hexpect : s.expectSymbol .leftBracket = .ok taken :=
    expectAny_of_next? hnext (List.mem_singleton.2 hkind)
  obtain ⟨bracket, t, ht⟩ := taken
  replace hended : t.Ended := hended
  rw [index, hexpect, ok_bind]
  dsimp only
  refine (expression_answers hended).bind fun ⟨u, hu⟩ _ hended => ?_
  exact .symbol hended fun taken _ hended => .emit (.nil hended)
termination_by 8 * s.left + 2
decreasing_by all_goals omega

/-- A call of a single name, after the parenthesis. -/
theorem own_answers {s : Reading} {name : Token} {taken : Taken s.left}
    (hnone : s.accept? (.symbol .dot) = none) (hnext : s.next? = some taken)
    (hkind : taken.token.kind = .symbol .leftParen) (hended : taken.next.Ended) :
    Answers [.command (.push .pointer 0), .arguments (.own name)] taken.next
      ((s.call name).map Subtype.val) := by
  have hexpect : (s.command (.push .pointer 0)).expectSymbol .leftParen = .ok _ :=
    expectAny_of_next? (next?_emit hnext _) (List.mem_singleton.2 hkind)
  unfold call
  split
  · rename_i hsome
    cases hnone.symm.trans hsome
  · rw [map_bind_ok]
    exact .emit (givenArguments_answers hexpect hended)
termination_by 8 * s.left + 4
decreasing_by all_goals simp_wf

/-- A call of two names, after the dot. -/
theorem member_answers {s : Reading} {name : Token} {taken : Taken s.left}
    (hdot : s.accept? (.symbol .dot) = some taken) (hended : taken.next.Ended) :
    Answers [.name (.member name)] taken.next ((s.call name).map Subtype.val) := by
  obtain ⟨dot, t, ht⟩ := taken
  replace hended : t.Ended := hended
  unfold call
  split
  · rename_i hsome
    cases hdot.symm.trans hsome
    dsimp only
    refine .name hended fun ⟨member, u, (hu : u.left < t.left)⟩ hended => .emit ?_
    rw [map_bind_ok]
    exact arguments_answers (s := u.emit (.receiver name)) hended
  · rename_i hnone
    cases hdot.symm.trans hnone
termination_by 8 * s.left + 4
decreasing_by
  all_goals simp_wf
  all_goals omega

theorem arguments_answers {s : Reading} {callee : Callee} (hs : s.Ended) :
    Answers [.symbol .leftParen, .arguments callee] s
      (s.arguments.map fun found => found.2.val.emit (callee.directive found.1)) := by
  have hgiven : ∀ taken, s.expectSymbol .leftParen = .ok taken → taken.next.Ended →
      Answers [.arguments callee] taken.next
        (s.arguments.map fun found => found.2.val.emit (callee.directive found.1)) :=
    fun taken => givenArguments_answers
  rw [arguments] at hgiven ⊢
  refine .symbol hs fun taken hexpect hended => ?_
  have hrest := hgiven taken hexpect hended
  rw [hexpect] at hrest
  exact hrest
termination_by 8 * s.left + 3
decreasing_by all_goals simp_wf

/-- Arguments, after the parenthesis. -/
theorem givenArguments_answers {s : Reading} {callee : Callee} {taken : Taken s.left}
    (hexpect : s.expectSymbol .leftParen = .ok taken) (hended : taken.next.Ended) :
    Answers [.arguments callee] taken.next
      (s.arguments.map fun found => found.2.val.emit (callee.directive found.1)) := by
  obtain ⟨paren, t, ht⟩ := taken
  replace hended : t.Ended := hended
  rw [arguments, hexpect, ok_bind]
  dsimp only
  split
  · rename_i hclose
    refine .takeKind hended hclose TokenKind.noConfusion rfl rfl
      fun taken hnext hkind hended => .emit ?_
    have hexpect : t.expectSymbol .rightParen = .ok taken :=
      expectAny_of_next? hnext (List.mem_singleton.2 hkind)
    rw [hexpect]
    exact .nil hended
  · rename_i hopen
    refine .instead (decide_eq_false hopen) rfl ?_
    refine (expression_answers hended).bind fun ⟨u, hu⟩ _ hended => ?_
    refine moreArguments_answers hu hended fun count v hv hended => ?_
    exact .symbol hended fun taken _ hended => .emit (.nil hended)
termination_by 8 * s.left + 2
decreasing_by all_goals omega

theorem moreArguments_answers {n count : Nat} {s : Reading} {callee : Callee} {β : Type}
    {f : Counted n → Outcome β} {q : β → Reading} (hn : s.left < n) (hs : s.Ended)
    (hf : ∀ total t ht, t.Ended →
      Answers [.symbol .rightParen, .act (callee.directive total)] t
        ((f (total, ⟨t, ht⟩)).map q)) :
    Answers [.moreArguments callee count] s ((s.moreArguments count hn >>= f).map q) := by
  rw [moreArguments]
  split
  · rename_i comma t ht hcomma
    obtain ⟨hnext, hkind⟩ := accept?_eq hcomma
    have hended : t.Ended := ended_next hnext hs
    split
    · rename_i hfull
      obtain ⟨hend, htokens, hafter⟩ := next?_eq hnext
      intro rest
      refine ⟨_, .refl, ?_⟩
      rw [show t.code = s.code from (congrArg Reading.code hafter).trans rfl,
        show t.input = { s.input with tokens := t.input.tokens } from congrArg input hafter]
      exact .full htokens hend (decide_eq_true hkind) (decide_eq_true hfull)
    · rename_i hroom
      refine .take hnext hkind rfl (decide_eq_false hroom) ?_
      rw [bind_assoc]
      refine (expression_answers hended).bind fun ⟨u, hu⟩ _ hended => ?_
      exact moreArguments_answers _ hended hf
  · rename_i hnone
    exact .passed hnone hs TokenKind.noConfusion (fun _ => rfl) rfl (hf count s hn hs)
termination_by 8 * s.left
decreasing_by
  all_goals simp_wf
  all_goals omega

end

theorem call_answers {s : Reading} {name : Token} (hs : s.Ended) :
    Answers [.call name] s ((s.call name).map Subtype.val) := by
  cases hdot : s.accept? (.symbol .dot) with
  | some taken =>
    exact .accepted hdot hs rfl rfl fun hended => member_answers hdot hended
  | none =>
    refine .passed hdot hs TokenKind.noConfusion (fun _ => rfl) rfl (.emit ?_)
    unfold call
    split
    · rename_i hsome
      cases hdot.symm.trans hsome
    · rw [map_bind_ok]
      exact arguments_answers (s := s.command (.push .pointer 0)) hs

/-! ### Statements -/

theorem assignment_answers {s : Reading} (hs : s.Ended) :
    Answers [.name .target] s (s.assignment.map Subtype.val) := by
  rw [assignment]
  refine .name hs ?_
  rintro ⟨name, t, ht⟩ hended
  refine .emit ?_
  dsimp only
  split
  · rename_i hbracket
    refine .takeKind (s := t.emit (.require name)) hended hbracket TokenKind.noConfusion rfl rfl
      fun taken hnext hkind hended => .emit ?_
    refine (index_answers (next?_emit hnext (.load name)) hkind hended).bind ?_
    rintro ⟨u, hu⟩ _ hended
    refine .symbol hended ?_
    rintro ⟨_, v, hv⟩ _ hended
    refine (expression_answers hended).bind ?_
    rintro ⟨w, hw⟩ _ hended
    exact .symbol hended fun taken _ hended =>
      .emit (.emit (.emit (.emit (.nil hended))))
  · rename_i hother
    refine .instead (decide_eq_false hother) rfl ?_
    refine .symbol hended ?_
    rintro ⟨_, u, hu⟩ _ hended
    refine (expression_answers hended).bind ?_
    rintro ⟨v, hv⟩ _ hended
    exact .symbol hended fun taken _ hended => .emit (.nil hended)

theorem invocation_answers {s : Reading} (hs : s.Ended) :
    Answers [.name .callee, .symbol .semicolon, .command (.pop .temp 0)] s
      (s.invocation.map Subtype.val) := by
  rw [invocation]
  refine .name hs ?_
  rintro ⟨name, t, ht⟩ hended
  refine (call_answers hended).bind ?_
  rintro ⟨u, hu⟩ _ hended
  exact .symbol hended fun taken _ hended => .emit (.nil hended)

theorem returning_answers {s : Reading} (hs : s.Ended) :
    Answers [.returning] s (s.returning.map Subtype.val) := by
  rw [returning]
  split
  · rename_i hsemicolon
    refine .takeKind hs hsemicolon TokenKind.noConfusion rfl rfl
      fun taken hnext hkind hended => .emit (.emit ?_)
    have hexpect : (s.command (.push .constant 0)).expectSymbol .semicolon = .ok _ :=
      expectAny_of_next? (next?_emit hnext _) (List.mem_singleton.2 hkind)
    rw [hexpect]
    exact .nil hended
  · rename_i hother
    refine .instead (decide_eq_false hother) rfl ?_
    refine (expression_answers hs).bind ?_
    rintro ⟨t, ht⟩ _ hended
    exact .symbol hended fun taken _ hended => .emit (.nil hended)

theorem condition_answers {s : Reading} {otherwise : String} (hs : s.Ended) :
    Answers [.symbol .leftParen, .term, .operations, .symbol .rightParen,
      .command (.operate .not), .command (.ifGoto otherwise)] s
      ((s.condition otherwise).map Subtype.val) := by
  rw [condition]
  refine .symbol hs ?_
  rintro ⟨_, t, ht⟩ _ hended
  refine (expression_answers hended).bind ?_
  rintro ⟨u, hu⟩ _ hended
  exact .symbol hended fun taken _ hended => .emit (.emit (.nil hended))

mutual

theorem statements_answers {n : Nat} {s : Reading} (hn : s.left < n) (hs : s.Ended) :
    Answers [.statements] s ((s.statements hn).map Subtype.val) := by
  rw [statements]
  split
  · rename_i hnone
    exact .instead (not_wants_at_end hnone hs rfl) rfl (.nil hs)
  · rename_i token t ht hnext
    have hended : t.Ended := ended_next hnext hs
    have htake : ∀ {kind : TokenKind} {outcome : Outcome Reading} (others : List Goal),
        token.kind = kind → Goal.statements.wants kind = true →
        Goal.statements.next token = others → Answers others t outcome →
        Answers [.statements] s outcome := by
      rintro kind outcome _ hkind hwants rfl h
      refine .take hnext hkind hwants rfl ?_
      rwa [List.append_nil]
    split
    · rename_i hkind
      refine htake _ hkind rfl (by rw [Goal.next, hkind]) ?_
      exact (assignment_answers hended).bind fun ⟨u, hu⟩ _ hended => statements_answers _ hended
    · rename_i hkind
      refine htake _ hkind rfl (by rw [Goal.next, hkind]) ?_
      exact (choice_answers hended).bind fun ⟨u, hu⟩ _ hended => statements_answers _ hended
    · rename_i hkind
      refine htake _ hkind rfl (by rw [Goal.next, hkind]) ?_
      exact (loop_answers hended).bind fun ⟨u, hu⟩ _ hended => statements_answers _ hended
    · rename_i hkind
      refine htake _ hkind rfl (by rw [Goal.next, hkind]) ?_
      exact (invocation_answers hended).bind fun ⟨u, hu⟩ _ hended => statements_answers _ hended
    · rename_i hkind
      refine htake _ hkind rfl (by rw [Goal.next, hkind]) ?_
      exact (returning_answers hended).bind fun ⟨u, hu⟩ _ hended => statements_answers _ hended
    · refine .instead ?_ rfl (.nil hs)
      rw [kind_of_next? hnext]
      simp_all [Goal.wants]
termination_by 4 * s.left
decreasing_by
  all_goals simp_wf
  all_goals omega

theorem choice_answers {s : Reading} (hs : s.Ended) :
    Answers [.choice] s (s.choice.map Subtype.val) := by
  rw [choice]
  refine .branch rfl ?_
  refine (condition_answers (s := s.takeLabels) hs).bind
    fun ⟨t, (ht : t.left < s.left)⟩ _ hended => ?_
  refine (block_answers hended).bind fun ⟨u, (hu : u.left < t.left)⟩ _ hended => .emit (.emit ?_)
  dsimp only
  split
  · rename_i token v hv helse
    replace hv : v.left < u.left := hv
    refine .accepted helse hended rfl rfl fun hended => ?_
    exact (block_answers hended).bind fun ⟨w, hw⟩ _ hended => .emit (.nil hended)
  · rename_i hnone
    exact .passed hnone hended TokenKind.noConfusion (fun _ => rfl) rfl (.emit (.nil hended))
termination_by 4 * s.left + 2
decreasing_by
  all_goals simp_wf
  all_goals omega

theorem loop_answers {s : Reading} (hs : s.Ended) :
    Answers [.loop] s (s.loop.map Subtype.val) := by
  rw [loop]
  refine .branch rfl (.emit ?_)
  refine (condition_answers (s := s.takeLabels.command _) hs).bind
    fun ⟨t, (ht : t.left < s.left)⟩ _ hended => ?_
  exact (block_answers hended).bind fun ⟨u, hu⟩ _ hended => .emit (.emit (.nil hended))
termination_by 4 * s.left + 2
decreasing_by
  all_goals simp_wf
  all_goals omega

theorem block_answers {s : Reading} (hs : s.Ended) :
    Answers [.symbol .leftBrace, .statements, .symbol .rightBrace] s
      (s.block.map Subtype.val) := by
  rw [block]
  refine .symbol hs fun ⟨_, t, ht⟩ _ hended => ?_
  refine (statements_answers ht hended).bind fun ⟨u, hu⟩ _ hended => ?_
  exact .symbol hended fun ⟨_, v, hv⟩ _ hended => .nil hended
termination_by 4 * s.left + 1
decreasing_by all_goals omega

end

/-! ### Declarations -/

section Types

variable {goals : List Goal} {s : Reading} {β : Type} {f : Taken s.left → Outcome β}
  {q : β → Reading}

theorem Answers.type {use : TypeUse} (hs : s.Ended)
    (h : ∀ taken, taken.next.Ended →
      Answers (use.goals taken.token ++ goals) taken.next ((f taken).map q)) :
    Answers (.type use :: goals) s ((s.type >>= f).map q) := by
  unfold Reading.type
  split
  · rename_i hnone
    exact .refuse (not_wants_at_end hnone hs rfl) rfl
  · rename_i taken hnext
    split
    all_goals first
    | rename_i hkind
      exact .take hnext hkind rfl rfl (h taken (ended_next hnext hs))
    | refine .refuse ?_ rfl
      rw [kind_of_next? hnext]
      simp_all [Goal.wants]

theorem Answers.returnType {kind : SubroutineKind} (hs : s.Ended)
    (h : ∀ taken, taken.next.Ended →
      Answers (.name (.subroutine kind) :: goals) taken.next ((f taken).map q)) :
    Answers (.returnType kind :: goals) s ((s.returnType >>= f).map q) := by
  unfold Reading.returnType
  split
  · rename_i hnone
    exact .refuse (not_wants_at_end hnone hs rfl) rfl
  · rename_i taken hnext
    split
    all_goals first
    | rename_i hkind
      exact .take hnext hkind rfl rfl (h taken (ended_next hnext hs))
    | refine .refuse ?_ rfl
      rw [kind_of_next? hnext]
      simp_all [Goal.wants]

end Types

theorem names_answers {n : Nat} {s : Reading} {kind : VariableKind} {type : String}
    (hn : s.left < n) (hs : s.Ended) :
    Answers [.name (.variable_ kind type)] s ((s.names kind type hn).map Subtype.val) := by
  rw [names]
  refine .name hs fun ⟨name, t, ht⟩ hended => .emit ?_
  dsimp only
  split
  · rename_i comma u hu hcomma
    replace hu : u.left < t.left := hu
    exact .accepted hcomma hended rfl rfl fun hended => names_answers _ hended
  · rename_i hnone
    exact .passed hnone hended TokenKind.noConfusion (fun _ => rfl) rfl (.nil hended)
termination_by s.left

theorem declaration_answers {s : Reading} {kind : VariableKind} (hs : s.Ended) :
    Answers [.type (.names kind)] s ((s.declaration kind).map Subtype.val) := by
  rw [declaration]
  refine .type hs ?_
  rintro ⟨type, t, ht⟩ hended
  refine (names_answers ht hended).bind ?_
  rintro ⟨u, hu⟩ _ hended
  exact .symbol hended fun taken _ hended => .nil hended

theorem classVariables_answers {n : Nat} {s : Reading} (hn : s.left < n) (hs : s.Ended) :
    Answers [.classVariables] s ((s.classVariables hn).map Subtype.val) := by
  rw [classVariables]
  split
  · rename_i hnone
    exact .instead (not_wants_at_end hnone hs rfl) rfl (.nil hs)
  · rename_i token t ht hnext
    have hended : t.Ended := ended_next hnext hs
    split
    · rename_i hkind
      refine .take hnext hkind rfl rfl ?_
      simp only [Goal.next, hkind]
      exact (declaration_answers hended).bind fun u _ hended =>
        classVariables_answers _ hended
    · rename_i hkind
      refine .take hnext hkind rfl rfl ?_
      simp only [Goal.next, hkind]
      exact (declaration_answers hended).bind fun u _ hended =>
        classVariables_answers _ hended
    · refine .instead ?_ rfl (.nil hs)
      rw [kind_of_next? hnext]
      simp_all [Goal.wants]
termination_by s.left

theorem localVariables_answers {n : Nat} {s : Reading} (hn : s.left < n) (hs : s.Ended) :
    Answers [.localVariables] s ((s.localVariables hn).map Subtype.val) := by
  rw [localVariables]
  split
  · rename_i token t ht hvar
    refine .accepted hvar hs rfl rfl fun (hended : t.Ended) => ?_
    exact (declaration_answers hended).bind fun u _ hended =>
      localVariables_answers _ hended
  · rename_i hnone
    exact .passed hnone hs TokenKind.noConfusion (fun _ => rfl) rfl (.nil hs)
termination_by s.left

/-- Parameters, each after its comma, and what is done after the parenthesis behind them. -/
theorem moreParameters_answers {n : Nat} {s : Reading} {β : Type} {f : Below n → Outcome β}
    {q : β → Reading} (hn : s.left < n) (hs : s.Ended)
    (hf : ∀ t ht, t.Ended → Answers [.symbol .rightParen] t ((f ⟨t, ht⟩).map q)) :
    Answers [.type .parameter] s ((s.moreParameters hn >>= f).map q) := by
  rw [moreParameters, bind_assoc]
  refine .type hs ?_
  rintro ⟨type, t, ht⟩ hended
  rw [bind_assoc]
  refine .name hended ?_
  rintro ⟨name, u, hu⟩ hended
  replace hu : u.left < t.left := hu
  refine .emit ?_
  dsimp only
  split
  · rename_i comma v hv hcomma
    replace hv : v.left < u.left := hv
    exact .accepted hcomma hended rfl rfl fun hended => moreParameters_answers _ hended hf
  · rename_i hnone
    exact .passed hnone hended TokenKind.noConfusion (fun _ => rfl) rfl (hf _ _ hended)
termination_by s.left

theorem parameters_answers {s : Reading} (hs : s.Ended) :
    Answers [.symbol .leftParen, .parameters] s (s.parameters.map Subtype.val) := by
  rw [parameters]
  refine .symbol hs ?_
  rintro ⟨_, t, ht⟩ _ hended
  dsimp only
  split
  · rename_i hclose
    refine .takeKind hended hclose TokenKind.noConfusion rfl rfl
      fun taken hnext hkind hended => ?_
    have hexpect : t.expectSymbol .rightParen = .ok taken :=
      expectAny_of_next? hnext (List.mem_singleton.2 hkind)
    rw [ok_bind, hexpect]
    exact .nil hended
  · rename_i hopen
    refine .instead (decide_eq_false hopen) rfl ?_
    refine moreParameters_answers ht hended fun u hu hended => ?_
    exact .symbol hended fun taken _ hended => .nil hended

/-! ### Classes -/

theorem body_answers {s : Reading} {kind : SubroutineKind} {name : String} (hs : s.Ended) :
    Answers [.symbol .leftBrace, .localVariables, .act (.openBody kind name), .statements,
      .symbol .rightBrace] s ((s.body kind name).map Subtype.val) := by
  rw [body]
  refine .symbol hs ?_
  rintro ⟨_, t, ht⟩ _ hended
  refine (localVariables_answers ht hended).bind ?_
  rintro ⟨u, hu⟩ _ hended
  refine .emit ?_
  refine (statements_answers (s := u.emit (.openBody kind name)) hu hended).bind ?_
  rintro ⟨v, hv⟩ _ hended
  exact .symbol hended fun taken _ hended => .nil hended

theorem subroutine_answers {s : Reading} {kind : SubroutineKind} {keyword : Token}
    (hs : s.Ended) :
    Answers [.act (.openSubroutine kind keyword), .returnType kind] s
      ((s.subroutine kind keyword).map Subtype.val) := by
  rw [subroutine]
  refine .emit (.returnType hs ?_)
  rintro ⟨_, t, ht⟩ hended
  refine .name hended ?_
  rintro ⟨name, u, hu⟩ hended
  refine .emit ?_
  refine (parameters_answers (s := u.emit (.nameSubroutine kind name.text)) hended).bind ?_
  rintro ⟨v, hv⟩ _ hended
  exact (body_answers hended).bind fun w _ hended => .nil hended

theorem subroutines_answers {n : Nat} {s : Reading} (hn : s.left < n) (hs : s.Ended) :
    Answers [.subroutines] s ((s.subroutines hn).map Subtype.val) := by
  rw [subroutines]
  split
  · rename_i hnone
    exact .instead (not_wants_at_end hnone hs rfl) rfl (.nil hs)
  · rename_i token t ht hnext
    have hended : t.Ended := ended_next hnext hs
    split
    · rename_i hkind
      refine .take hnext hkind rfl rfl ?_
      simp only [Goal.next, hkind]
      exact (subroutine_answers hended).bind fun u _ hended => subroutines_answers _ hended
    · rename_i hkind
      refine .take hnext hkind rfl rfl ?_
      simp only [Goal.next, hkind]
      exact (subroutine_answers hended).bind fun u _ hended => subroutines_answers _ hended
    · rename_i hkind
      refine .take hnext hkind rfl rfl ?_
      simp only [Goal.next, hkind]
      exact (subroutine_answers hended).bind fun u _ hended => subroutines_answers _ hended
    · refine .instead ?_ rfl (.nil hs)
      rw [kind_of_next? hnext]
      simp_all [Goal.wants]
termination_by s.left

/-- A class, whatever comes after it. -/
def oneClass (s : Reading) : Outcome Reading := do
  let ⟨_, t, _⟩ ← s.expect (.keyword .class_)
  let ⟨name, u, _⟩ ← t.expect .identifier
  let ⟨_, v, hv⟩ ← (u.emit (.openClass name.text)).expectSymbol .leftBrace
  let ⟨w, hw⟩ ← v.classVariables hv
  let ⟨x, _⟩ ← w.subroutines hw
  let ⟨_, y, _⟩ ← x.expectSymbol .rightBrace
  .ok y

theorem wholeClass_eq (s : Reading) :
    s.wholeClass = oneClass s >>= fun t =>
      if t.kind = .endOfFile then .ok t else t.unexpected "end-of-file" := by
  simp only [wholeClass, oneClass, bind_assoc, ok_bind]

theorem oneClass_answers {s : Reading} (hs : s.Ended) :
    Answers [.token (.keyword .class_), .name .class_] s ((oneClass s).map id) := by
  rw [oneClass]
  refine .expect hs TokenKind.noConfusion (fun _ => rfl) rfl fun ⟨_, t, ht⟩ _ hended => ?_
  refine .name hended fun ⟨name, u, hu⟩ hended => .emit ?_
  refine .symbol hended fun ⟨_, v, hv⟩ _ hended => ?_
  refine (classVariables_answers hv hended).bind fun ⟨w, hw⟩ _ hended => ?_
  refine (subroutines_answers hw hended).bind fun ⟨x, _⟩ _ hended => ?_
  exact .symbol hended fun ⟨_, y, _⟩ _ hended => .nil hended

theorem Answers.wholeClass_ok {s t : Reading} (hs : s.Ended) (h : s.wholeClass = .ok t) :
    Reaches (some maxInteger) (ofReading s) ⟨[.finish], t⟩ ∧ t.kind = .endOfFile := by
  have hanswers := oneClass_answers hs
  rw [wholeClass_eq] at h
  cases hclass : oneClass s with
  | error stop =>
    rw [hclass] at h
    cases h
  | ok u =>
    rw [hclass] at h hanswers
    rw [ok_bind] at h
    split at h
    · rename_i hkind
      cases h
      exact ⟨hanswers.2 [.finish], hkind⟩
    · cases h

theorem Answers.wholeClass_error {s : Reading} {stop : Stop} (hs : s.Ended)
    (h : s.wholeClass = .error stop) : Fails (some maxInteger) (ofReading s) stop := by
  have hanswers := oneClass_answers hs
  rw [wholeClass_eq] at h
  cases hclass : oneClass s with
  | error other =>
    rw [hclass] at h hanswers
    cases h
    exact hanswers [.finish]
  | ok u =>
    rw [hclass] at h hanswers
    rw [ok_bind] at h
    split at h
    · cases h
    · rename_i hkind
      cases h
      exact ⟨_, hanswers.2 [.finish], .unexpected (decide_eq_false hkind) rfl⟩

end JackCompiler.Agenda
