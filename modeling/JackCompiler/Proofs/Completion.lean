import JackCompiler.Proofs.Agenda
import JackCompiler.Proofs.Lexemes
import Mathlib.Algebra.GroupWithZero.Nat

/-!
Every agenda can be met. Each goal has a shortest text that meets it, and the texts of the goals of
an agenda, one after the other, meet the agenda if every goal is followed by something that ends it.
Work keeps that up from the first token on, so whatever has been taken when a token is refused can
still become a class; and what the refused token is does not depend on anything after it.
-/

namespace JackCompiler

namespace NameUse

/-- The kinds of a shortest text from the name on. -/
def sample : NameUse → List TokenKind
  | class_ => [.identifier, .symbol .leftBrace, .symbol .rightBrace]
  | variable_ _ _ => [.identifier]
  | parameter _ => [.identifier, .symbol .rightParen]
  | subroutine _ => [.identifier, .symbol .leftParen, .keyword .int_, .identifier,
      .symbol .rightParen, .symbol .leftBrace, .symbol .rightBrace]
  | target => [.identifier, .symbol .equal, .integer 0, .symbol .semicolon]
  | callee => [.identifier, .symbol .leftParen, .integer 0, .symbol .rightParen]
  | member _ => [.identifier, .symbol .leftParen, .integer 0, .symbol .rightParen]

end NameUse

namespace Goal

/-- The kinds of a shortest text that meets the goal without a token it could do without. -/
def sample : Goal → List TokenKind
  | act _ | operations | afterName _ | otherwise _ | statements | moreVariables _ _
  | classVariables | localVariables | subroutines | finish => []
  | token kind => [kind]
  | name use => use.sample
  | type (.names _) => [.keyword .int_, .identifier, .symbol .semicolon]
  | type .parameter | parameters => [.keyword .int_, .identifier, .symbol .rightParen]
  | returnType kind => .keyword .int_ :: (NameUse.subroutine kind).sample
  | term => [.integer 0]
  | call _ => [.symbol .leftParen, .integer 0, .symbol .rightParen]
  | arguments _ => [.integer 0, .symbol .rightParen]
  | moreArguments _ _ | moreParameters => [.symbol .rightParen]
  | assignment _ => [.symbol .equal, .integer 0, .symbol .semicolon]
  | returning => [.integer 0, .symbol .semicolon]
  | choice | loop => [.symbol .leftParen, .integer 0, .symbol .rightParen, .symbol .leftBrace,
      .symbol .rightBrace]

/-- How much work the goal is before a token is taken. -/
def weight : Goal → Nat
  | act _ | operations | statements | moreVariables _ _ | classVariables | localVariables
  | subroutines | parameters | moreParameters => 1
  | afterName _ | moreArguments _ _ | otherwise _ => 2
  | assignment _ | returning => 3
  | arguments _ => 4
  | call _ => 6
  | loop => 8
  | choice => 9
  | token _ | name _ | type _ | returnType _ | term | finish => 0

end Goal

def sampleAll (goals : List Goal) : List TokenKind :=
  goals.flatMap Goal.sample

def weightAll (goals : List Goal) : Nat :=
  (goals.map Goal.weight).sum

/-- The kind of the first token of the samples. -/
def firstKind (goals : List Goal) : TokenKind :=
  (sampleAll goals).headD .endOfFile

/-- What must follow a goal so that the goal does not want it. -/
def Goal.Precedes (rest : List Goal) : Goal → Prop
  | .finish => rest = []
  | .term | .operations | .afterName _ =>
    firstKind rest ∈ [.symbol .rightParen, .symbol .rightBracket, .symbol .semicolon]
  | .moreVariables _ _ | .name (.variable_ _ _) => firstKind rest = .symbol .semicolon
  | .otherwise _ | .choice | .statements | .classVariables | .localVariables | .subroutines =>
    firstKind rest = .symbol .rightBrace
  | .token kind => kind ≠ .endOfFile ∧ rest ≠ []
  | _ => rest ≠ []

/-- Every goal is followed by what ends it. -/
def Closed : List Goal → Prop
  | [] => True
  | goal :: rest => goal.Precedes rest ∧ Closed rest

/-- A token of the kind, spelled as its kind is named, with a place that is made up. -/
def Token.sample (place : Nat) (kind : TokenKind) : Token :=
  ⟨kind, kind.text, ⟨place, 0⟩⟩

theorem Token.sample_spelled (place : Nat) (kind : TokenKind) :
    (Token.sample place kind).Spelled := by
  cases kind with
  | identifier => exact (by decide +kernel : Keyword.ofText? TokenKind.identifier.text = none)
  | keyword word => exact rfl
  | _ => trivial

@[simp] theorem sampleAll_nil : sampleAll [] = [] :=
  rfl

@[simp] theorem sampleAll_cons (goal : Goal) (rest : List Goal) :
    sampleAll (goal :: rest) = goal.sample ++ sampleAll rest :=
  List.flatMap_cons

theorem sampleAll_append (x y : List Goal) : sampleAll (x ++ y) = sampleAll x ++ sampleAll y :=
  List.flatMap_append

theorem weightAll_cons (goal : Goal) (rest : List Goal) :
    weightAll (goal :: rest) = goal.weight + weightAll rest :=
  rfl

theorem weightAll_append (x y : List Goal) : weightAll (x ++ y) = weightAll x + weightAll y := by
  rw [weightAll, weightAll, weightAll, List.map_append, List.sum_append]

namespace Goal

variable {goal : Goal} {rest : List Goal}

/-! ### The sample of one goal -/

theorem fallback_goals {others : List Goal} (h : goal.fallback = .goals others) :
    sampleAll others = goal.sample ∧ weightAll others < goal.weight := by
  cases goal <;> cases h <;> exact ⟨rfl, by simp [weightAll, weight]⟩

theorem fallback_emit {directive : Directive} (h : goal.fallback = .emit directive) :
    goal.sample = [] ∧ 0 < goal.weight := by
  cases goal <;> cases h
  exact ⟨rfl, Nat.one_pos⟩

theorem fallback_branch {others : Nat → List Goal} (h : goal.fallback = .branch others)
    (label : Nat) : sampleAll (others label) = goal.sample ∧
      weightAll (others label) < goal.weight := by
  cases goal <;> cases h
  · exact ⟨rfl, Nat.lt_add_one 8⟩
  · exact ⟨rfl, Nat.lt_add_one 7⟩

/-- A goal that may refuse a token takes the first token of its sample. -/
theorem fallback_refuse {expected : String} (h : goal.fallback = .refuse expected)
    (hfinish : goal ≠ .finish) :
    ∃ kind later, goal.sample = kind :: later ∧ goal.wants kind = true ∧
      ∀ token : Token, token.kind = kind → sampleAll (goal.next token) = later := by
  cases goal with
  | token kind => exact ⟨kind, [], rfl, decide_eq_true rfl, fun token _ => rfl⟩
  | name use =>
    cases use <;> exact ⟨_, _, rfl, rfl, fun token _ => rfl⟩
  | type use =>
    cases use <;> exact ⟨_, _, rfl, rfl, fun token _ => rfl⟩
  | returnType kind => exact ⟨_, _, rfl, rfl, fun token _ => rfl⟩
  | term =>
    refine ⟨_, _, rfl, rfl, fun token hkind => ?_⟩
    rw [next, hkind]
    rfl
  | finish => exact absurd rfl hfinish
  | _ => cases h

/-! ### What follows a goal -/

/-- A goal that can do without a token does not want the one that comes after it. -/
theorem not_wants_firstKind {others : List Goal} (h : goal.fallback = .goals others)
    (hprecedes : goal.Precedes rest) : goal.wants (firstKind (goal :: rest)) = false := by
  have hnil : goal.sample = [] → firstKind (goal :: rest) = firstKind rest := by
    intro hsample
    rw [firstKind, sampleAll_cons, hsample, List.nil_append, firstKind]
  cases goal with
  | operations | afterName =>
    rw [hnil rfl]
    simp only [Precedes, List.mem_cons, List.not_mem_nil, or_false] at hprecedes
    rcases hprecedes with hkind | hkind | hkind <;> rw [hkind] <;> rfl
  | otherwise | statements | moreVariables | classVariables | localVariables | subroutines =>
    rw [hnil rfl]
    rw [Precedes] at hprecedes
    rw [hprecedes]
    rfl
  | _ => first | rfl | cases h

theorem Precedes.ne_nil (h : goal.Precedes rest) (hfinish : goal ≠ .finish) : rest ≠ [] := by
  rintro rfl
  cases goal with
  | finish => exact hfinish rfl
  | name use => cases use <;> simp_all [Precedes, firstKind]
  | _ => simp_all [Precedes, firstKind]

/-- What takes the place of a goal is closed by what closed the goal. -/
theorem closed_next {token : Token} (hwants : goal.wants token.kind = true)
    (hprecedes : goal.Precedes rest) (hrest : Closed rest) : Closed (goal.next token ++ rest) := by
  by_cases hfinish : goal = .finish
  · subst hfinish
    exact hrest
  have hne := hprecedes.ne_nil hfinish
  cases goal with
  | name use =>
    cases use <;> simp_all [next, NameUse.goals, Closed, Precedes, firstKind, sample]
  | type use =>
    cases use <;> simp_all [next, TypeUse.goals, Closed, Precedes, firstKind, sample]
  | term | afterName | statements | classVariables | subroutines =>
    simp only [next]
    split <;> simp_all [Closed, Precedes, firstKind, sample]
  | operations =>
    simp only [next]
    split
    · split <;> simp_all [Closed, Precedes, firstKind, sample]
    · exact hrest
  | _ => simp_all [next, Closed, Precedes, firstKind, sample]

theorem closed_fallback {others : List Goal} (h : goal.fallback = .goals others)
    (hprecedes : goal.Precedes rest) (hrest : Closed rest) : Closed (others ++ rest) := by
  have hne := hprecedes.ne_nil (by rintro rfl; cases h)
  cases goal <;> cases h <;> simp_all [Closed, Precedes, firstKind, sample]

theorem closed_branch {others : Nat → List Goal} (h : goal.fallback = .branch others)
    (label : Nat) (hprecedes : goal.Precedes rest) (hrest : Closed rest) :
    Closed (others label ++ rest) := by
  have hne := hprecedes.ne_nil (by rintro rfl; cases h)
  cases goal <;> cases h <;> simp_all [guarded, Closed, Precedes, firstKind, sample]

theorem not_mem_sample (hprecedes : goal.Precedes rest) : .endOfFile ∉ goal.sample := by
  cases goal with
  | token kind => exact fun h => hprecedes.1 (List.mem_singleton.1 h).symm
  | name use => cases use <;> simp [sample, NameUse.sample]
  | type use => cases use <;> simp [sample]
  | _ => simp [sample, NameUse.sample]

/-- No goal but the last takes the end of the text. -/
theorem wants_ne_endOfFile {kind : TokenKind} (hwants : goal.wants kind = true)
    (hprecedes : goal.Precedes rest) (hfinish : goal ≠ .finish) : kind ≠ .endOfFile := by
  rintro rfl
  cases goal with
  | token expected => exact hprecedes.1 (of_decide_eq_true hwants).symm
  | finish => exact hfinish rfl
  | _ => cases hwants

end Goal

/-- The samples do not hold the end of the text. -/
theorem Closed.not_mem_sample {goals : List Goal} (h : Closed goals) :
    .endOfFile ∉ sampleAll goals := by
  induction goals with
  | nil => exact List.not_mem_nil
  | cons goal rest ih =>
    rw [sampleAll_cons, List.mem_append]
    rintro (hgoal | hrest)
    · exact Goal.not_mem_sample h.1 hgoal
    · exact ih h.2 hrest

namespace Agenda

variable {limit : Option Nat} {a b : Agenda}

theorem Step.closed (h : Step limit a b) (ha : Closed a.goals) : Closed b.goals := by
  cases h with
  | take htokens hkind hwants hfull => exact Goal.closed_next hwants ha.1 ha.2
  | goals hnot hgoals => exact Goal.closed_fallback hgoals ha.1 ha.2
  | emit hemit => exact ha.2
  | branch hbranch => exact Goal.closed_branch hbranch _ ha.1 ha.2

theorem Reaches.closed (h : Reaches limit a b) (ha : Closed a.goals) : Closed b.goals := by
  induction h with
  | refl => exact ha
  | tail _ hstep ih => exact hstep.closed ih

/-- The sample changes with the tokens that are taken only. -/
theorem Step.sample_eq (h : Step limit a b)
    (htokens : a.reading.input.tokens = b.reading.input.tokens) :
    sampleAll a.goals = sampleAll b.goals := by
  cases h with
  | take ktokens hkind hwants hfull =>
    rw [ktokens] at htokens
    exact absurd htokens (List.cons_ne_self _ _)
  | goals hnot hgoals =>
    rw [sampleAll_append, (Goal.fallback_goals hgoals).1, sampleAll_cons]
  | emit hemit => rw [sampleAll_cons, (Goal.fallback_emit hemit).1, List.nil_append]
  | branch hbranch =>
    rw [sampleAll_append, (Goal.fallback_branch hbranch _).1, sampleAll_cons]

theorem Reaches.sample_eq (h : Reaches limit a b)
    (htokens : a.reading.input.tokens = b.reading.input.tokens) :
    sampleAll a.goals = sampleAll b.goals := by
  induction h with
  | refl => rfl
  | tail hwork hstep ih =>
    obtain ⟨x, hx⟩ := Reaches.tokens_eq hwork
    obtain ⟨y, hy⟩ := hstep.tokens_eq
    -- no token is taken in between either
    rw [hy, ← List.append_assoc] at hx
    obtain ⟨rfl, rfl⟩ : x = [] ∧ y = [] := by
      rw [htokens] at hx
      exact List.append_eq_nil_iff.1 (List.self_eq_append_left.1 hx)
    exact (ih (by simpa using htokens.trans hy.symm)).trans (hstep.sample_eq hy)

/-! ### Meeting an agenda -/

/-- The kind of the current token is the first of all. -/
theorem kind_of_kinds {s : Reading} {kinds : List TokenKind}
    (h : s.input.tokens.map Token.kind = kinds) (hended : s.Ended) :
    s.kind = kinds.headD .endOfFile := by
  rw [kind_eq, ← h]
  cases s.input.tokens with
  | nil => exact hended
  | cons token rest => rfl

/-- The samples of the goals meet the agenda. -/
theorem reaches_finished (goals : List Goal) (s : Reading) (hclosed : Closed goals)
    (hne : goals ≠ []) (hkinds : s.input.tokens.map Token.kind = sampleAll goals)
    (hended : s.Ended) : ∃ last, Reaches limit ⟨goals, s⟩ last ∧ Finished last := by
  obtain ⟨goal, rest, rfl⟩ := List.exists_cons_of_ne_nil hne
  obtain ⟨hprecedes, hrest⟩ := hclosed
  by_cases hfinish : goal = .finish
  · subst hfinish
    obtain rfl : rest = [] := hprecedes
    refine ⟨_, .refl, rfl, ?_⟩
    rw [kind_of_kinds hkinds hended]
    rfl
  · have hrestne : rest ≠ [] := hprecedes.ne_nil hfinish
    cases hfallback : goal.fallback with
    | goals others =>
      obtain ⟨hsample, hweight⟩ := Goal.fallback_goals hfallback
      have hnot : goal.wants s.kind = false := by
        rw [kind_of_kinds hkinds hended]
        exact Goal.not_wants_firstKind hfallback hprecedes
      have hless : weightAll (others ++ rest) < weightAll (goal :: rest) := by
        rw [weightAll_append, weightAll_cons]
        exact Nat.add_lt_add_right hweight _
      obtain ⟨last, hwork, hlast⟩ := reaches_finished (others ++ rest) s
        (Goal.closed_fallback hfallback hprecedes hrest) (by simp [hrestne])
        (by rw [hkinds, sampleAll_cons, sampleAll_append, hsample]) hended
      exact ⟨last, .head (.goals hnot hfallback) hwork, hlast⟩
    | emit directive =>
      obtain ⟨hsample, hweight⟩ := Goal.fallback_emit hfallback
      have hless : weightAll rest < weightAll (goal :: rest) := by
        rw [weightAll_cons]
        exact Nat.lt_add_of_pos_left hweight
      obtain ⟨last, hwork, hlast⟩ := reaches_finished rest (s.emit directive) hrest hrestne
        (by rw [show (s.emit directive).input = s.input from rfl, hkinds, sampleAll_cons, hsample,
          List.nil_append]) hended
      exact ⟨last, .head (.emit hfallback) hwork, hlast⟩
    | branch others =>
      obtain ⟨hsample, hweight⟩ := Goal.fallback_branch hfallback s.labels
      have hless : weightAll (others s.labels ++ rest) < weightAll (goal :: rest) := by
        rw [weightAll_append, weightAll_cons]
        exact Nat.add_lt_add_right hweight _
      obtain ⟨last, hwork, hlast⟩ := reaches_finished (others s.labels ++ rest) s.takeLabels
        (Goal.closed_branch hfallback _ hprecedes hrest) (by simp [hrestne])
        (by rw [show s.takeLabels.input = s.input from rfl, hkinds, sampleAll_cons,
          sampleAll_append, hsample]) hended
      exact ⟨last, .head (.branch hfallback) hwork, hlast⟩
    | refuse expected =>
      obtain ⟨kind, later, hsample, hwants, hnext⟩ := Goal.fallback_refuse hfallback hfinish
      rw [sampleAll_cons, hsample, List.cons_append] at hkinds
      obtain ⟨token, tokens, htokens, rfl, hlater⟩ := List.map_eq_cons_iff.1 hkinds
      have hshorter : tokens.length < s.input.tokens.length := by
        rw [htokens]
        exact Nat.lt_succ_self _
      obtain ⟨last, hwork, hlast⟩ := reaches_finished (goal.next token ++ rest)
        (s.withTokens tokens) (Goal.closed_next hwants hprecedes hrest) (by simp [hrestne])
        (by rw [tokens_withTokens, hlater, sampleAll_append, hnext token rfl]) hended
      exact ⟨last, .head (.take htokens (Goal.wants_ne_endOfFile hwants hprecedes hfinish) hwants
        (isFull_of_refuse hfallback)) hwork, hlast⟩
termination_by (s.input.tokens.length, weightAll goals)

/-! ### Other tokens to come -/

/-- Work does not depend on the tokens that it does not come to. The first of them may change if the
kind stays, and all may be replaced by the sample. -/
theorem Reaches.replay (h : Reaches limit a b) {x y : List Token}
    (hx : a.reading.input.tokens = x ++ b.reading.input.tokens)
    (hy : (y.headD b.reading.input.last).kind = b.reading.kind ∨
      Closed a.goals ∧ a.reading.Ended ∧ y.map Token.kind = sampleAll b.goals) :
    Reaches limit ⟨a.goals, a.reading.withTokens (x ++ y)⟩ ⟨b.goals, b.reading.withTokens y⟩ := by
  induction h using Relation.ReflTransGen.head_induction_on generalizing x with
  | refl =>
    obtain rfl : x = [] := List.self_eq_append_left.1 hx
    exact .refl
  | @head a c hstep hwork ih =>
    have hlater : (y.headD b.reading.input.last).kind = b.reading.kind ∨
        Closed c.goals ∧ c.reading.Ended ∧ y.map Token.kind = sampleAll b.goals := by
      rcases hy with hsame | ⟨hclosed, hended, hsample⟩
      · exact .inl hsame
      · exact .inr ⟨hstep.closed hclosed, (congrArg Token.kind hstep.last_eq).trans hended, hsample⟩
    cases hstep with
    | @take goal goals s token rest htokens hkind hwants hfull =>
      obtain ⟨x', hx'⟩ := Reaches.tokens_eq hwork
      rw [tokens_withTokens] at hx'
      obtain rfl : x = token :: x' := by
        rw [htokens, hx', ← List.cons_append] at hx
        exact (List.append_cancel_right hx).symm
      exact .head (.take rfl hkind hwants hfull) (ih hx' hlater)
    | @goals goal goals s others hnot hgoals =>
      have hkind : goal.wants (s.withTokens (x ++ y)).kind = false := by
        cases x with
        | cons token x =>
          rw [kind_of_tokens hx] at hnot
          exact hnot
        | nil =>
          rcases hy with hsame | ⟨hclosed, hended, hsample⟩
          · have hlast : b.reading.input.last = s.input.last := Reaches.last_eq hwork
            have heq : (s.withTokens y).kind = s.kind := by
              rw [hlast, kind_eq b.reading, hlast] at hsame
              rw [kind_eq, kind_eq s, hx]
              exact hsame
            rwa [List.nil_append, heq]
          · have hall := Reaches.sample_eq (.head (.goals hnot hgoals) hwork) hx
            rw [List.nil_append, kind_of_kinds (s := s.withTokens y) (hsample.trans hall.symm)
              hended]
            exact Goal.not_wants_firstKind hgoals hclosed.1
      exact .head (.goals hkind hgoals) (ih hx hlater)
    | emit hemit => exact .head (.emit hemit) (ih hx hlater)
    | branch hbranch => exact .head (.branch hbranch) (ih hx hlater)

/-! ### The place of a refusal -/

/-- The tokens before a refused one can be completed, with tokens whose places are made up, and work
on the completed tokens adds all the directives that were added before the refusal. The refused
token depends on nothing that comes after it: work is refused as long as a token of that kind comes
next. -/
theorem Fails.place {stop : Reading.Stop} (h : Fails limit a stop) (hclosed : Closed a.goals)
    (hended : a.reading.Ended) :
    ∃ x back, a.reading.input.tokens = x ++ back ∧
      (∀ place, ∃ z last, (∀ token ∈ z,
          token.kind ≠ .endOfFile ∧ token.Spelled ∧ token.span = ⟨place, 0⟩) ∧
        Reaches limit ⟨a.goals, a.reading.withTokens (x ++ z)⟩ last ∧ Finished last ∧
        stop.code <:+ last.reading.code) ∧
      (stop.refusal.fault = .tooManyArguments ∨
        stop.refusal.token = back.headD a.reading.input.last ∧
        ∀ y, (y.headD a.reading.input.last).kind = stop.refusal.token.kind →
          ∃ other, Fails none ⟨a.goals, a.reading.withTokens (x ++ y)⟩ other) := by
  obtain ⟨b, hwork, hrefuses⟩ := h
  obtain ⟨x, hx⟩ := hwork.tokens_eq
  have hlast := hwork.last_eq
  have hb : Closed b.goals := hwork.closed hclosed
  have hcode : stop.code = b.reading.code := by
    cases hrefuses <;> rfl
  have hbne : b.goals ≠ [] := by
    cases hrefuses <;> exact List.cons_ne_nil _ _
  refine ⟨x, b.reading.input.tokens, hx, ?_, ?_⟩
  · -- the sample of what was left is put in place of the refused token
    intro place
    let z := (sampleAll b.goals).map (Token.sample place)
    have hkinds : z.map Token.kind = sampleAll b.goals := by
      rw [List.map_map]
      exact List.map_id _
    have hagain := hwork.replay hx (y := z) (.inr ⟨hclosed, hended, hkinds⟩)
    obtain ⟨last, hrest, hfinished⟩ := reaches_finished b.goals (b.reading.withTokens z) hb hbne
      hkinds ((congrArg Token.kind hlast).trans hended)
    refine ⟨z, last, ?_, hagain.trans hrest, hfinished, ?_⟩
    · intro token htoken
      obtain ⟨kind, hkind, rfl⟩ := List.mem_map.1 htoken
      exact ⟨fun h => hb.not_mem_sample (h ▸ hkind), Token.sample_spelled place kind, rfl⟩
    · rw [hcode]
      exact hrest.code_suffix
  · cases hrefuses with
    | @unexpected goal goals s expected hnot hrefuse =>
      refine .inr ⟨congrArg (s.input.tokens.headD ·) hlast, fun y hy => ?_⟩
      have hkind : (y.headD s.input.last).kind = s.kind := by
        rw [hlast]
        exact hy
      refine ⟨_, _, (hwork.replay hx (.inl hkind)).unlimited, .unexpected ?_ hrefuse⟩
      rwa [show (s.withTokens y).kind = s.kind from hkind]
    | full htokens hkind hwants hfull => exact .inl rfl

end Agenda

end JackCompiler
