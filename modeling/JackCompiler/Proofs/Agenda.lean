import JackCompiler.Directive.Reading
import Mathlib.Logic.Relation

/-!
Reading as work on an agenda. What a text still has to hold is a list of goals, and the goal in
front is decided by the current token alone: it takes the token, and other goals take its place; or
it does not want the token, and then it makes way for other goals or refuses the text. An agenda
knows everything that may still come, which is what an error is measured against.
-/

namespace JackCompiler

/-- The subroutine that is called when all arguments are there. -/
inductive Callee where
  | own (name : Token)
  | member (owner : Token) (name : String)

def Callee.directive (count : Nat) : Callee → Directive
  | own name => .invokeOwn name count
  | member owner name => .invoke owner name count

/-- What a name is for. -/
inductive NameUse where
  | class_
  | variable_ (kind : VariableKind) (type : String)
  | parameter (type : String)
  | subroutine (kind : SubroutineKind)
  | target
  | callee
  | member (owner : Token)

/-- What a type is for. -/
inductive TypeUse where
  | names (kind : VariableKind)
  | parameter

/-- Something that is still to be read or done. -/
inductive Goal where
  | act (directive : Directive)
  | token (kind : TokenKind)
  | name (use : NameUse)
  | type (use : TypeUse)
  | returnType (kind : SubroutineKind)
  | term
  | operations
  /-- What may follow a name to make it more than a variable. -/
  | afterName (name : Token)
  | call (name : Token)
  /-- The rest of the arguments, after the parenthesis. -/
  | arguments (callee : Callee)
  | moreArguments (callee : Callee) (count : Nat)
  | assignment (name : Token)
  | returning
  | choice
  | loop
  /-- The `else` block, if there is one, and the label at the end. -/
  | otherwise (done : String)
  | statements
  | moreVariables (kind : VariableKind) (type : String)
  | classVariables
  | localVariables
  /-- The parameters, after the parenthesis. -/
  | parameters
  | moreParameters
  | subroutines
  /-- Nothing but the end of the text. -/
  | finish

namespace Goal

abbrev symbol (mark : Symbol) : Goal :=
  .token (.symbol mark)

abbrev command (command : Command) : Goal :=
  .act (.emit command)

end Goal

/-- What comes after a name. -/
def NameUse.goals (name : Token) : NameUse → List Goal
  | class_ => [.act (.openClass name.text), .symbol .leftBrace, .classVariables, .subroutines,
      .symbol .rightBrace]
  | variable_ kind type => [.act (.declare kind type name), .moreVariables kind type]
  | parameter type => [.act (.declare .argument type name), .moreParameters]
  | subroutine kind => [.act (.nameSubroutine kind name.text), .symbol .leftParen, .parameters,
      .symbol .leftBrace, .localVariables, .act (.openBody kind name.text), .statements,
      .symbol .rightBrace]
  | target => [.act (.require name), .assignment name]
  | callee => [.call name]
  | member owner => [.act (.receiver owner), .symbol .leftParen,
      .arguments (.member owner name.text)]

/-- What comes after a type. -/
def TypeUse.goals (type : Token) : TypeUse → List Goal
  | names kind => [.name (.variable_ kind type.text), .symbol .semicolon]
  | parameter => [.name (.parameter type.text)]

/-- What a goal does with a token that it does not want. -/
inductive Fallback where
  /-- Other goals take its place. -/
  | goals (goals : List Goal)
  | emit (directive : Directive)
  /-- Two labels are handed out to other goals. -/
  | branch (goals : Nat → List Goal)
  | refuse (expected : String)

namespace Goal

/-- Whether the goal takes a token of this kind. -/
def wants (kind : TokenKind) : Goal → Bool
  | act _ | choice | loop => false
  | token expected => kind = expected
  | name _ => kind = .identifier
  | type _ => kind ∈ [.keyword .int_, .keyword .char_, .keyword .boolean_, .identifier]
  | returnType _ =>
    kind ∈ [.keyword .int_, .keyword .char_, .keyword .boolean_, .keyword .void_, .identifier]
  | term => match kind with
    | .integer _ | .string | .identifier => true
    | .keyword word => word ∈ [.true_, .false_, .null_, .this_]
    | .symbol mark => mark ∈ [.leftParen, .minus, .tilde]
    | .endOfFile => false
  | operations => match kind with
    | .symbol mark => mark.binary?.isSome
    | _ => false
  | afterName _ => kind ∈ [.symbol .leftBracket, .symbol .leftParen, .symbol .dot]
  | call _ => kind = .symbol .dot
  | arguments _ | parameters => kind = .symbol .rightParen
  | moreArguments _ _ | moreVariables _ _ | moreParameters => kind = .symbol .comma
  | assignment _ => kind = .symbol .leftBracket
  | returning => kind = .symbol .semicolon
  | otherwise _ => kind = .keyword .else_
  | statements => kind ∈ [.keyword .let_, .keyword .if_, .keyword .while_, .keyword .do_,
      .keyword .return_]
  | classVariables => kind ∈ [.keyword .static_, .keyword .field_]
  | localVariables => kind = .keyword .var_
  | subroutines => kind ∈ [.keyword .constructor_, .keyword .function_, .keyword .method_]
  | finish => kind = .endOfFile

/-- What takes the place of the goal when it takes the token, which it must want. -/
def next (taken : Token) : Goal → List Goal
  | name use => use.goals taken
  | type use => use.goals taken
  | returnType kind => [.name (.subroutine kind)]
  | term => match taken.kind with
    | .integer value => [command (.push .constant value)]
    | .string => [act (.build taken)]
    | .keyword .true_ => [command (.push .constant 0), command (.operate .not)]
    | .keyword .false_ | .keyword .null_ => [command (.push .constant 0)]
    | .keyword .this_ => [command (.push .pointer 0)]
    | .symbol .leftParen => [term, operations, symbol .rightParen]
    | .symbol .minus => [term, command (.operate .neg)]
    | .symbol .tilde => [term, command (.operate .not)]
    | .identifier => [afterName taken]
    | _ => []
  | operations => match taken.kind with
    | .symbol mark => match mark.binary? with
      | some apply => [term, command apply, operations]
      | none => []
    | _ => []
  | afterName array => match taken.kind with
    | .symbol .leftBracket => [act (.load array), term, operations, symbol .rightBracket,
        command (.operate .add), command (.pop .pointer 1), command (.push .that 0)]
    | .symbol .dot => [.name (.member array)]
    | _ => [command (.push .pointer 0), arguments (.own array)]
  | call owner => [.name (.member owner)]
  | arguments callee => [act (callee.directive 0)]
  | moreArguments callee count => [term, operations, moreArguments callee (count + 1)]
  | assignment array => [act (.load array), term, operations, symbol .rightBracket,
      command (.operate .add), symbol .equal, term, operations, symbol .semicolon,
      command (.pop .temp 0), command (.pop .pointer 1), command (.push .temp 0),
      command (.pop .that 0)]
  | returning => [command (.push .constant 0), command .ret]
  | otherwise done =>
    [symbol .leftBrace, statements, symbol .rightBrace, command (.label done)]
  | statements => match taken.kind with
    | .keyword .let_ => [.name .target, statements]
    | .keyword .if_ => [choice, statements]
    | .keyword .while_ => [loop, statements]
    | .keyword .do_ => [.name .callee, symbol .semicolon, command (.pop .temp 0), statements]
    | _ => [returning, statements]
  | moreVariables kind text => [.name (.variable_ kind text)]
  | classVariables => match taken.kind with
    | .keyword .static_ => [.type (.names .static), classVariables]
    | _ => [.type (.names .field), classVariables]
  | localVariables => [.type (.names .local_), localVariables]
  | moreParameters => [.type .parameter]
  | subroutines => match taken.kind with
    | .keyword .constructor_ =>
      [act (.openSubroutine .constructor taken), returnType .constructor, subroutines]
    | .keyword .function_ =>
      [act (.openSubroutine .function taken), returnType .function, subroutines]
    | _ => [act (.openSubroutine .method taken), returnType .method, subroutines]
  | act _ | token _ | choice | loop | parameters | finish => []

/-- A condition and the block behind it, with a jump over the block to the label. -/
def guarded (otherwise : String) : List Goal :=
  [symbol .leftParen, term, operations, symbol .rightParen, command (.operate .not),
    command (.ifGoto otherwise), symbol .leftBrace, statements, symbol .rightBrace]

/-- What the goal does when it does not want the token. -/
def fallback : Goal → Fallback
  | act directive => .emit directive
  | token kind => .refuse (Reader.expectation [kind])
  | name _ => .refuse (Reader.expectation [.identifier])
  | type _ => .refuse "a type"
  | returnType _ => .refuse "a type or 'void'"
  | term => .refuse "an expression"
  | operations | statements | moreVariables _ _ | classVariables | localVariables
  | subroutines => .goals []
  | afterName single => .goals [act (.load single)]
  | call method =>
    .goals [command (.push .pointer 0), symbol .leftParen, arguments (.own method)]
  | arguments callee => .goals [term, operations, moreArguments callee 1]
  | moreArguments callee count => .goals [symbol .rightParen, act (callee.directive count)]
  | assignment target =>
    .goals [symbol .equal, term, operations, symbol .semicolon, act (.store target)]
  | returning => .goals [term, operations, symbol .semicolon, command .ret]
  | choice => .branch fun label => guarded (labelName label) ++
      [command (.goto (labelName (label + 1))), command (.label (labelName label)),
        otherwise (labelName (label + 1))]
  | loop => .branch fun label => command (.label (labelName label)) ::
      (guarded (labelName (label + 1)) ++
        [command (.goto (labelName label)), command (.label (labelName (label + 1)))])
  | otherwise done => .goals [command (.label done)]
  | parameters => .goals [.type .parameter]
  | moreParameters => .goals [symbol .rightParen]
  | finish => .refuse "end-of-file"

/-- Whether the goal has no room for the token that it wants. -/
def isFull (limit : Option Nat) : Goal → Bool
  | moreArguments _ count => limit.any (· ≤ count)
  | _ => false

end Goal

/-- The same reading with other tokens to come. -/
def Reading.withTokens (s : Reading) (tokens : List Token) : Reading :=
  { s with input := { s.input with tokens } }

/-- The end of the text is at the end of the tokens. -/
def Reading.Ended (s : Reading) : Prop :=
  s.input.last.kind = .endOfFile

/-- Goals that are still to be met by a reading. -/
structure Agenda where
  goals : List Goal
  reading : Reading

namespace Agenda

/-- Work on the goal in front. -/
inductive Step (limit : Option Nat) : Agenda → Agenda → Prop where
  | take {goal goals s token rest} (htokens : s.input.tokens = token :: rest)
      (hkind : token.kind ≠ .endOfFile) (hwants : goal.wants token.kind = true)
      (hfull : goal.isFull limit = false) :
      Step limit ⟨goal :: goals, s⟩ ⟨goal.next token ++ goals, s.withTokens rest⟩
  | goals {goal goals s others} (hnot : goal.wants s.kind = false)
      (hgoals : goal.fallback = .goals others) :
      Step limit ⟨goal :: goals, s⟩ ⟨others ++ goals, s⟩
  | emit {goal goals s directive} (hemit : goal.fallback = .emit directive) :
      Step limit ⟨goal :: goals, s⟩ ⟨goals, s.emit directive⟩
  | branch {goal goals s others} (hbranch : goal.fallback = .branch others) :
      Step limit ⟨goal :: goals, s⟩ ⟨others s.labels ++ goals, s.takeLabels⟩

/-- The goal in front refuses the text. -/
inductive Refuses (limit : Option Nat) : Agenda → Reading.Stop → Prop where
  | unexpected {goal goals s expected} (hnot : goal.wants s.kind = false)
      (hrefuse : goal.fallback = .refuse expected) :
      Refuses limit ⟨goal :: goals, s⟩ ⟨s.input.unexpected expected, s.code⟩
  | full {goal goals s token rest} (htokens : s.input.tokens = token :: rest)
      (hkind : token.kind ≠ .endOfFile) (hwants : goal.wants token.kind = true)
      (hfull : goal.isFull limit = true) :
      Refuses limit ⟨goal :: goals, s⟩
        ⟨⟨.tooManyArguments, rest.headD s.input.last⟩, s.code⟩

def Reaches (limit : Option Nat) : Agenda → Agenda → Prop :=
  Relation.ReflTransGen (Step limit)

/-- Work on the agenda ends in a refusal. -/
def Fails (limit : Option Nat) (agenda : Agenda) (stop : Reading.Stop) : Prop :=
  ∃ last, Reaches limit agenda last ∧ Refuses limit last stop

/-- Only the end of the text is left to be met, and it is there. -/
def Finished (agenda : Agenda) : Prop :=
  agenda.goals = [.finish] ∧ agenda.reading.kind = .endOfFile

/-- All that a class has to hold. -/
def ofReading (s : Reading) : Agenda :=
  ⟨[.token (.keyword .class_), .name .class_, .finish], s⟩

/-! ### Readings -/

section Readings

variable {s : Reading} {x y : List Token}

@[simp] theorem tokens_withTokens : (s.withTokens x).input.tokens = x :=
  rfl

theorem kind_eq (s : Reading) : s.kind = (s.input.tokens.headD s.input.last).kind :=
  rfl

theorem kind_of_tokens {token : Token} {rest : List Token}
    (h : s.input.tokens = token :: rest) : s.kind = token.kind := by
  rw [kind_eq, h, List.headD_cons]

end Readings

/-! ### One goal -/

theorem not_wants_of_emit {goal : Goal} {directive : Directive} {kind : TokenKind}
    (h : goal.fallback = .emit directive) : goal.wants kind = false := by
  cases goal <;> first | rfl | cases h

theorem not_wants_of_branch {goal : Goal} {others : Nat → List Goal} {kind : TokenKind}
    (h : goal.fallback = .branch others) : goal.wants kind = false := by
  cases goal <;> first | rfl | cases h

/-- Without a limit there is room for everything. -/
theorem isFull_none (goal : Goal) : goal.isFull none = false := by
  cases goal <;> rfl

theorem isFull_of_refuse {goal : Goal} {expected : String} {limit : Option Nat}
    (h : goal.fallback = .refuse expected) : goal.isFull limit = false := by
  cases goal <;> first | rfl | cases h

/-! ### Steps -/

variable {limit : Option Nat} {a b c : Agenda}

/-- A goal that wants the token in front takes it, and has room for it. -/
theorem Step.of_wants {goal : Goal} {goals : List Goal} {s : Reading} {token : Token}
    {rest : List Token} (h : Step limit ⟨goal :: goals, s⟩ b)
    (htokens : s.input.tokens = token :: rest) (hwants : goal.wants token.kind = true) :
    goal.isFull limit = false ∧ b = ⟨goal.next token ++ goals, s.withTokens rest⟩ := by
  cases h with
  | take ktokens kkind kwants kfull =>
    obtain ⟨rfl, rfl⟩ := List.cons.inj (htokens.symm.trans ktokens)
    exact ⟨kfull, rfl⟩
  | goals knot kgoals =>
    rw [kind_of_tokens htokens, hwants] at knot
    cases knot
  | emit kemit =>
    rw [not_wants_of_emit kemit] at hwants
    cases hwants
  | branch kbranch =>
    rw [not_wants_of_branch kbranch] at hwants
    cases hwants

/-- A goal that does not want the token falls back. -/
theorem Step.of_not_wants {goal : Goal} {goals : List Goal} {s : Reading}
    (h : Step limit ⟨goal :: goals, s⟩ b) (hnot : goal.wants s.kind = false) :
    match goal.fallback with
    | .goals others => b = ⟨others ++ goals, s⟩
    | .emit directive => b = ⟨goals, s.emit directive⟩
    | .branch others => b = ⟨others s.labels ++ goals, s.takeLabels⟩
    | .refuse _ => False := by
  cases h with
  | take ktokens kkind kwants kfull =>
    rw [kind_of_tokens ktokens, kwants] at hnot
    cases hnot
  | goals knot kgoals => rw [kgoals]
  | emit kemit => rw [kemit]
  | branch kbranch => rw [kbranch]

/-- A goal does one thing only. -/
theorem Step.unique (h : Step limit a b) (k : Step limit a c) : b = c := by
  cases h with
  | take htokens hkind hwants hfull => exact (k.of_wants htokens hwants).2.symm
  | goals hnot hgoals =>
    have hfallback := k.of_not_wants hnot
    rw [hgoals] at hfallback
    exact hfallback.symm
  | emit hemit =>
    have hfallback := k.of_not_wants (not_wants_of_emit hemit)
    rw [hemit] at hfallback
    exact hfallback.symm
  | branch hbranch =>
    have hfallback := k.of_not_wants (not_wants_of_branch hbranch)
    rw [hbranch] at hfallback
    exact hfallback.symm

/-- A goal that refuses does nothing else. -/
theorem Refuses.not_step {stop : Reading.Stop} (h : Refuses limit a stop) : ¬Step limit a b := by
  intro k
  cases h with
  | unexpected hnot hrefuse =>
    have hfallback := k.of_not_wants hnot
    rwa [hrefuse] at hfallback
  | full htokens hkind hwants hfull =>
    cases hfull.symm.trans (k.of_wants htokens hwants).1

theorem Refuses.unique {stop other : Reading.Stop} (h : Refuses limit a stop)
    (k : Refuses limit a other) : stop = other := by
  cases h with
  | unexpected hnot hrefuse =>
    cases k with
    | unexpected knot krefuse => rw [Fallback.refuse.inj (hrefuse.symm.trans krefuse)]
    | full ktokens kkind kwants kfull =>
      rw [kind_of_tokens ktokens, kwants] at hnot
      cases hnot
  | full htokens hkind hwants hfull =>
    cases k with
    | unexpected knot krefuse =>
      rw [kind_of_tokens htokens, hwants] at knot
      cases knot
    | full ktokens kkind kwants kfull =>
      obtain ⟨rfl, rfl⟩ := List.cons.inj (htokens.symm.trans ktokens)
      rfl

theorem Finished.not_step (h : Finished a) : ¬Step limit a b := by
  obtain ⟨goals, s⟩ := a
  obtain ⟨rfl, hkind⟩ := h
  intro k
  cases k with
  | take ktokens kkind kwants kfull => exact kkind (of_decide_eq_true kwants)
  | goals knot kgoals => cases kgoals
  | emit kemit => cases kemit
  | branch kbranch => cases kbranch

theorem Finished.not_refuses {stop : Reading.Stop} (h : Finished a) : ¬Refuses limit a stop := by
  obtain ⟨goals, s⟩ := a
  obtain ⟨rfl, hkind⟩ := h
  intro k
  cases k with
  | unexpected knot krefuse =>
    have hwants : Goal.finish.wants s.kind = true := decide_eq_true hkind
    cases hwants.symm.trans knot
  | full ktokens kkind kwants kfull => cases kfull

/-! ### Work -/

/-- Work on an agenda has one end at most. -/
theorem Reaches.unique (h : Reaches limit a b) (k : Reaches limit a c)
    (hb : ∀ d, ¬Step limit b d) (hc : ∀ d, ¬Step limit c d) : b = c := by
  have hunique : Relator.RightUnique (Step limit) := fun _ _ _ => Step.unique
  rcases Relation.ReflTransGen.total_of_right_unique hunique h k with hbetween | hbetween
  · rcases Relation.ReflTransGen.cases_head hbetween with heq | ⟨d, hstep, -⟩
    · exact heq
    · exact absurd hstep (hb d)
  · rcases Relation.ReflTransGen.cases_head hbetween with heq | ⟨d, hstep, -⟩
    · exact heq.symm
    · exact absurd hstep (hc d)

/-- Work that fails does not come to an end of its own. -/
theorem Fails.not_finished {stop : Reading.Stop} (h : Fails limit a stop)
    (k : Reaches limit a b) : ¬Finished b := by
  intro hfinished
  obtain ⟨last, hlast, hrefuses⟩ := h
  obtain rfl := hlast.unique k (fun _ => hrefuses.not_step) (fun _ => hfinished.not_step)
  exact hfinished.not_refuses hrefuses

/-- Work fails in one way at most. -/
theorem Fails.unique {stop other : Reading.Stop} (h : Fails limit a stop)
    (k : Fails limit a other) : stop = other := by
  obtain ⟨b, hb, hrefuses⟩ := h
  obtain ⟨c, hc, krefuses⟩ := k
  obtain rfl := hb.unique hc (fun _ => hrefuses.not_step) (fun _ => krefuses.not_step)
  exact hrefuses.unique krefuses

theorem Step.unlimited (h : Step limit a b) : Step none a b := by
  cases h with
  | take htokens hkind hwants hfull => exact .take htokens hkind hwants (isFull_none _)
  | goals hnot hgoals => exact .goals hnot hgoals
  | emit hemit => exact .emit hemit
  | branch hbranch => exact .branch hbranch

theorem Reaches.unlimited (h : Reaches limit a b) : Reaches none a b :=
  Relation.ReflTransGen.mono (fun _ _ hstep => hstep.unlimited) _ _ h

theorem Step.last_eq (h : Step limit a b) : b.reading.input.last = a.reading.input.last := by
  cases h <;> rfl

/-- A step takes one token or none. -/
theorem Step.tokens_eq (h : Step limit a b) :
    ∃ x, a.reading.input.tokens = x ++ b.reading.input.tokens := by
  cases h with
  | take htokens hkind hwants hfull => exact ⟨[_], htokens⟩
  | goals hnot hgoals => exact ⟨[], rfl⟩
  | emit hemit => exact ⟨[], rfl⟩
  | branch hbranch => exact ⟨[], rfl⟩

theorem Reaches.last_eq (h : Reaches limit a b) :
    b.reading.input.last = a.reading.input.last := by
  induction h with
  | refl => rfl
  | tail _ hstep ih => exact hstep.last_eq.trans ih

theorem Reaches.tokens_eq (h : Reaches limit a b) :
    ∃ x, a.reading.input.tokens = x ++ b.reading.input.tokens := by
  induction h with
  | refl => exact ⟨[], rfl⟩
  | tail _ hstep ih =>
    obtain ⟨x, hx⟩ := ih
    obtain ⟨y, hy⟩ := hstep.tokens_eq
    exact ⟨x ++ y, by rw [hx, hy, List.append_assoc]⟩

/-- Directives are added and never taken back. -/
theorem Reaches.code_suffix (h : Reaches limit a b) : a.reading.code <:+ b.reading.code := by
  induction h with
  | refl => exact List.suffix_refl _
  | tail _ hstep ih =>
    refine ih.trans ?_
    cases hstep with
    | take htokens hkind hwants hfull => exact List.suffix_refl _
    | goals hnot hgoals => exact List.suffix_refl _
    | emit hemit => exact List.suffix_cons _ _
    | branch hbranch => exact List.suffix_refl _

end Agenda

end JackCompiler
