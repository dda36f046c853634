import JackCompiler.Proofs.ReadingSoundness
import JackCompiler.Proofs.Unambiguity
import JackCompiler.Proofs.Uses

/-!
Reading takes every tree that stands before it. A rule succeeds on the lexemes of a tree followed
by what may follow it, and takes exactly them; the one thing that can stop it is a call with more
arguments than it counts.
-/

namespace JackCompiler

def Lexeme.kind : Lexeme → TokenKind
  | .keyword word => .keyword word
  | .symbol mark => .symbol mark
  | .identifier _ => .identifier
  | .integer value => .integer value
  | .string _ => .string
  | .endOfFile => .endOfFile

theorem Token.kind_lexeme (token : Token) : token.lexeme.kind = token.kind := by
  unfold Token.lexeme TokenKind.lexeme
  split <;> simp_all [Lexeme.kind]

/-- A call starts with a name, and a parenthesis or a dot comes next. -/
theorem Tree.Call.yield_eq (call : Tree.Call) :
    ∃ (name : String) (x : List Lexeme), call.yield = .identifier name :: x ∧
      ((∃ y, x = .symbol .leftParen :: y) ∨ ∃ y, x = .symbol .dot :: y) := by
  cases call with
  | own name arguments => exact ⟨name, _, rfl, Or.inl ⟨_, rfl⟩⟩
  | member owner name arguments => exact ⟨owner, _, rfl, Or.inr ⟨_, rfl⟩⟩

namespace Reading

open JackCompiler.Tree

@[simp] theorem lexemes_emit (s : Reading) (directive : Directive) :
    (s.emit directive).lexemes = s.lexemes :=
  rfl

@[simp] theorem lexemes_command (s : Reading) (command : Command) :
    (s.command command).lexemes = s.lexemes :=
  rfl

theorem ok_bind {α β : Type} (a : α) (f : α → Outcome β) : (Except.ok a >>= f) = f a :=
  rfl

/-! ### One lexeme -/

theorem kind_of_lexemes {s : Reading} {l : Lexeme} {rest : List Lexeme}
    (h : s.lexemes = l :: rest) : s.kind = l.kind := by
  obtain ⟨token, tokens, htokens, rfl, -⟩ := List.map_eq_cons_iff.1 h
  simp only [kind, Reader.peek, htokens, List.headD_cons, Token.kind_lexeme]

theorem input_of_next? {s : Reading} {taken : Taken s.left} (h : s.next? = some taken) :
    ∃ token after, ∃ hinput : s.input.next? = some (token, after),
      taken = ⟨token, { s with input := after }, Reader.left_of_next? hinput⟩ := by
  unfold next? at h
  split at h
  · rename_i token after hnext
    exact ⟨token, after, hnext, (Option.some.inj h).symm⟩
  · cases h

theorem next?_of_lexemes {s : Reading} {l : Lexeme} {rest : List Lexeme}
    (h : s.lexemes = l :: rest) (hl : l ≠ .endOfFile) :
    ∃ token t, ∃ ht : t.left < s.left, s.next? = some ⟨token, t, ht⟩ ∧ token.kind = l.kind ∧
      t.lexemes = rest := by
  obtain ⟨token, tokens, htokens, rfl, rfl⟩ := List.map_eq_cons_iff.1 h
  have hkind : token.kind ≠ .endOfFile := by
    intro hend
    apply hl
    simp only [Token.lexeme, hend, TokenKind.lexeme]
  have hinput : s.input.next? = some (token, { s.input with tokens := tokens }) := by
    simp only [Reader.next?, htokens, hkind, if_false]
  exact ⟨token, _, _, next?_of_input hinput, token.kind_lexeme.symm, rfl⟩

theorem expectAny_of_next? {s : Reading} {taken : Taken s.left} {kinds : List TokenKind}
    (h : s.next? = some taken) (hkind : taken.token.kind ∈ kinds) :
    s.expectAny kinds = .ok taken := by
  obtain ⟨token, after, hinput, rfl⟩ := input_of_next? h
  have hconsume : s.input.consumeAny kinds = .ok (token, after) := by
    simp only [Reader.consumeAny, hinput]
    exact if_pos hkind
  unfold expectAny
  split
  · rename_i token' after' hconsume'
    obtain ⟨rfl, rfl⟩ := Prod.mk.inj (Except.ok.inj (hconsume.symm.trans hconsume'))
    rfl
  · rename_i refusal hrefusal
    rw [hconsume] at hrefusal
    cases hrefusal

theorem accept?_of_next? {s : Reading} {taken : Taken s.left} {kind : TokenKind}
    (h : s.next? = some taken) (hkind : taken.token.kind = kind) :
    s.accept? kind = some taken := by
  obtain ⟨token, after, hinput, rfl⟩ := input_of_next? h
  have haccept : s.input.accept? kind = some (token, after) := by
    simp only [Reader.accept?, hinput]
    exact if_pos hkind
  unfold accept?
  split
  · rename_i token' after' haccept'
    obtain ⟨rfl, rfl⟩ := Prod.mk.inj (Option.some.inj (haccept.symm.trans haccept'))
    rfl
  · rename_i hnone
    rw [haccept] at hnone
    cases hnone

theorem expect_of_lexemes {s : Reading} {l : Lexeme} {rest : List Lexeme}
    (h : s.lexemes = l :: rest) (hl : l ≠ .endOfFile) :
    ∃ token t, ∃ ht : t.left < s.left, s.expect l.kind = .ok ⟨token, t, ht⟩ ∧
      t.lexemes = rest := by
  obtain ⟨token, t, ht, hnext, hkind, hrest⟩ := next?_of_lexemes h hl
  exact ⟨token, t, ht, expectAny_of_next? hnext (List.mem_singleton.2 hkind), hrest⟩

theorem expectSymbol_of_lexemes {s : Reading} {mark : Symbol} {rest : List Lexeme}
    (h : s.lexemes = .symbol mark :: rest) :
    ∃ token t, ∃ ht : t.left < s.left, s.expectSymbol mark = .ok ⟨token, t, ht⟩ ∧
      t.lexemes = rest :=
  expect_of_lexemes h (by simp)

theorem expectName_of_lexemes {s : Reading} {name : String} {rest : List Lexeme}
    (h : s.lexemes = .identifier name :: rest) :
    ∃ token t, ∃ ht : t.left < s.left, s.expect .identifier = .ok ⟨token, t, ht⟩ ∧
      t.lexemes = rest :=
  expect_of_lexemes h (by simp)

theorem accept?_of_lexemes {s : Reading} {l : Lexeme} {rest : List Lexeme}
    (h : s.lexemes = l :: rest) (hl : l ≠ .endOfFile) :
    ∃ token t, ∃ ht : t.left < s.left, s.accept? l.kind = some ⟨token, t, ht⟩ ∧
      t.lexemes = rest := by
  obtain ⟨token, t, ht, hnext, hkind, hrest⟩ := next?_of_lexemes h hl
  exact ⟨token, t, ht, accept?_of_next? hnext hkind, hrest⟩

theorem accept?_none_of_lexemes {s : Reading} {l : Lexeme} {rest : List Lexeme}
    {kind : TokenKind} (h : s.lexemes = l :: rest) (hkind : l.kind ≠ kind) :
    s.accept? kind = none := by
  cases haccept : s.accept? kind with
  | none => rfl
  | some taken =>
    obtain ⟨hnext, htoken⟩ := accept?_eq haccept
    have htokens := congrArg (List.map Token.lexeme) (next?_eq hnext).2.1
    obtain ⟨rfl, -⟩ := List.cons.inj (h.symm.trans htokens)
    exact absurd ((Token.kind_lexeme _).trans htoken) hkind

theorem operator?_of_lexemes {s : Reading} {operator : BinaryOperator} {rest : List Lexeme}
    (h : s.lexemes = .symbol operator.symbol :: rest) :
    ∃ token t, ∃ ht : t.left < s.left, s.operator? = some (operator.command, ⟨token, t, ht⟩) ∧
      t.lexemes = rest := by
  obtain ⟨token, t, ht, hnext, hkind, hrest⟩ := next?_of_lexemes h (by simp)
  refine ⟨token, t, ht, ?_, hrest⟩
  simp only [operator?, hnext, hkind, Lexeme.kind]
  cases operator <;> rfl

theorem operator?_none_of_lexemes {s : Reading} (h : Closes s.lexemes) : s.operator? = none := by
  cases hoperator : s.operator? with
  | none => rfl
  | some found =>
    obtain ⟨operator, -, hreads⟩ := operator?_reads hoperator
    rw [hreads.lexemes_eq] at h
    exact absurd h (not_closes_operator operator _)

theorem kind_of_nameEnds {s : Reading} (h : NameEnds s.lexemes) :
    s.kind ≠ .symbol .leftBracket ∧ s.kind ≠ .symbol .leftParen ∧ s.kind ≠ .symbol .dot := by
  cases hlexemes : s.lexemes with
  | nil =>
    rw [hlexemes] at h
    exact h.elim
  | cons l rest =>
    rw [hlexemes] at h
    rw [kind_of_lexemes hlexemes]
    cases l with
    | symbol mark => cases mark <;> first | exact h.elim | simp [Lexeme.kind]
    | _ => simp [Lexeme.kind]

theorem kind_of_starts {s : Reading} (h : StartsExpression s.lexemes) :
    s.kind ≠ .symbol .rightParen ∧ s.kind ≠ .symbol .semicolon := by
  cases hlexemes : s.lexemes with
  | nil =>
    rw [hlexemes] at h
    exact h.elim
  | cons l rest =>
    rw [hlexemes] at h
    rw [kind_of_lexemes hlexemes]
    constructor
    · intro hkind
      cases l <;> cases hkind
      exact not_starts_rightParen rest h
    · intro hkind
      cases l <;> cases hkind
      exact not_starts_semicolon rest h

/-! ### Expressions -/

mutual

theorem expression_complete (e : Expression) {s : Reading} {rest : List Lexeme}
    (h : s.lexemes = e.yield ++ rest) (hrest : Closes rest) (huses : CountableCalls e.uses) :
    ∃ t, ∃ ht : t.left < s.left, s.expression = .ok ⟨t, ht⟩ ∧ t.lexemes = rest := by
  cases e with
  | mk first others =>
    rw [Expression.yield, List.append_assoc] at h
    obtain ⟨hfirst, hothers⟩ := countableCalls_append.1 huses
    obtain ⟨t, ht, hterm, hlexemes⟩ := term_complete first h (others.nameEnds hrest) hfirst
    obtain ⟨u, hu, hoperations, hend⟩ := operations_complete others hlexemes hrest hothers ht
    refine ⟨u, hu, ?_, hend⟩
    rw [expression, hterm, ok_bind]
    exact hoperations
termination_by 2 * sizeOf e
decreasing_by
  all_goals
    subst_vars
    simp_wf
  all_goals omega

theorem operations_complete (x : Operations) {n : Nat} {s : Reading} {rest : List Lexeme}
    (h : s.lexemes = x.yield ++ rest) (hrest : Closes rest) (huses : CountableCalls x.uses)
    (hs : s.left < n) :
    ∃ t, ∃ ht : t.left < n, s.operations hs = .ok ⟨t, ht⟩ ∧ t.lexemes = rest := by
  cases x with
  | nil =>
    refine ⟨s, hs, ?_, h⟩
    have hnone : s.operator? = none := operator?_none_of_lexemes (h ▸ hrest)
    rw [operations, hnone]
  | cons operator operand others =>
    simp only [Operations.yield, List.cons_append, List.append_assoc] at h
    obtain ⟨hoperand, hothers⟩ := countableCalls_append.1 huses
    obtain ⟨token, t, ht, hoperator, hlexemes⟩ := operator?_of_lexemes h
    obtain ⟨u, hu, hterm, hlexemes⟩ :=
      term_complete operand hlexemes (others.nameEnds hrest) hoperand
    obtain ⟨v, hv, hoperations, hend⟩ := operations_complete others
      (s := u.command operator.command) hlexemes hrest hothers
      (Nat.lt_trans hu (Nat.lt_trans ht hs))
    refine ⟨v, hv, ?_, hend⟩
    rw [operations, hoperator]
    dsimp only
    rw [hterm, ok_bind]
    exact hoperations
termination_by 2 * sizeOf x
decreasing_by
  all_goals
    subst_vars
    simp_wf
  all_goals omega

theorem term_complete (e : Term) {s : Reading} {rest : List Lexeme}
    (h : s.lexemes = e.yield ++ rest) (hrest : NameEnds rest) (huses : CountableCalls e.uses) :
    ∃ t, ∃ ht : t.left < s.left, s.term = .ok ⟨t, ht⟩ ∧ t.lexemes = rest := by
  cases e with
  | integer value =>
    obtain ⟨token, t, ht, hnext, hkind, hend⟩ := next?_of_lexemes h (by simp)
    refine ⟨t.command (.push .constant value), ht, ?_, hend⟩
    rw [term, hnext]
    simp only [hkind, Lexeme.kind]
  | string text =>
    obtain ⟨token, t, ht, hnext, hkind, hend⟩ := next?_of_lexemes h (by simp)
    refine ⟨t.emit (.build token), ht, ?_, hend⟩
    rw [term, hnext]
    simp only [hkind, Lexeme.kind]
  | constant word =>
    obtain ⟨token, t, ht, hnext, hkind, hend⟩ := next?_of_lexemes h (by simp)
    cases word with
    | true_ =>
      refine ⟨(t.command (.push .constant 0)).command (.operate .not), ht, ?_, hend⟩
      rw [term, hnext]
      simp only [hkind, Lexeme.kind, KeywordConstant.keyword]
    | false_ =>
      refine ⟨t.command (.push .constant 0), ht, ?_, hend⟩
      rw [term, hnext]
      simp only [hkind, Lexeme.kind, KeywordConstant.keyword]
    | null_ =>
      refine ⟨t.command (.push .constant 0), ht, ?_, hend⟩
      rw [term, hnext]
      simp only [hkind, Lexeme.kind, KeywordConstant.keyword]
    | this_ =>
      refine ⟨t.command (.push .pointer 0), ht, ?_, hend⟩
      rw [term, hnext]
      simp only [hkind, Lexeme.kind, KeywordConstant.keyword]
  | variable_ name =>
    obtain ⟨token, t, ht, hnext, hkind, hend⟩ := next?_of_lexemes h (by simp)
    refine ⟨t.emit (.load token), ht, ?_, hend⟩
    rw [← show t.lexemes = rest from hend] at hrest
    -- the last arm of the match is reached by excluding the three before it
    obtain ⟨hbracket, hparen, hdot⟩ := kind_of_nameEnds hrest
    rw [term, hnext]
    simp only [hkind, Lexeme.kind]
  | element array index =>
    obtain ⟨token, t, ht, hnext, hkind, hlexemes⟩ := next?_of_lexemes h (by simp)
    have hload : (t.emit (.load token)).lexemes =
        .symbol .leftBracket :: (index.yield ++ .symbol .rightBracket :: rest) := by
      simpa using hlexemes
    obtain ⟨u, hu, hindex, hend⟩ := index_complete index hload huses.tail
    refine ⟨(u.command (.pop .pointer 1)).command (.push .that 0), Nat.lt_trans hu ht, ?_, hend⟩
    rw [term, hnext]
    simp only [hkind, Lexeme.kind, kind_of_lexemes hlexemes]
    rw [hindex, ok_bind]
  | call call =>
    obtain ⟨name, x, hyield, hstart⟩ := call.yield_eq
    rw [Term.yield, hyield] at h
    obtain ⟨token, t, ht, hnext, hkind, hlexemes⟩ := next?_of_lexemes h (by simp)
    obtain ⟨u, hu, hcall, hend⟩ := call_complete call token hyield hlexemes huses
    refine ⟨u, Nat.lt_trans hu ht, ?_, hend⟩
    rw [term, hnext]
    rcases hstart with ⟨y, rfl⟩ | ⟨y, rfl⟩
    · simp only [hkind, Lexeme.kind, kind_of_lexemes hlexemes]
      rw [hcall, ok_bind]
    · simp only [hkind, Lexeme.kind, kind_of_lexemes hlexemes]
      rw [hcall, ok_bind]
  | group inner =>
    obtain ⟨token, t, ht, hnext, hkind, hlexemes⟩ := next?_of_lexemes h (by simp)
    have hopen : t.lexemes = inner.yield ++ .symbol .rightParen :: rest := by
      simpa using hlexemes
    obtain ⟨u, hu, hinner, hlexemes⟩ := expression_complete inner hopen trivial huses
    obtain ⟨token', v, hv, hclose, hend⟩ := expectSymbol_of_lexemes hlexemes
    refine ⟨v, Nat.lt_trans hv (Nat.lt_trans hu ht), ?_, hend⟩
    rw [term, hnext]
    simp only [hkind, Lexeme.kind]
    rw [hinner, ok_bind]
    dsimp only
    rw [hclose, ok_bind]
  | unary operator operand =>
    obtain ⟨token, t, ht, hnext, hkind, hlexemes⟩ := next?_of_lexemes h (by simp)
    obtain ⟨u, hu, hoperand, hend⟩ := term_complete operand hlexemes hrest huses
    cases operator with
    | negate =>
      refine ⟨u.command (.operate .neg), Nat.lt_trans hu ht, ?_, hend⟩
      rw [term, hnext]
      simp only [hkind, Lexeme.kind, UnaryOperator.symbol]
      rw [hoperand, ok_bind]
    | complement =>
      refine ⟨u.command (.operate .not), Nat.lt_trans hu ht, ?_, hend⟩
      rw [term, hnext]
      simp only [hkind, Lexeme.kind, UnaryOperator.symbol]
      rw [hoperand, ok_bind]
termination_by 2 * sizeOf e
decreasing_by
  all_goals
    subst_vars
    simp_wf
  all_goals omega

theorem index_complete (e : Expression) {s : Reading} {rest : List Lexeme}
    (h : s.lexemes = .symbol .leftBracket :: (e.yield ++ .symbol .rightBracket :: rest))
    (huses : CountableCalls e.uses) :
    ∃ t, ∃ ht : t.left < s.left, s.index = .ok ⟨t, ht⟩ ∧ t.lexemes = rest := by
  obtain ⟨token, t, ht, hopen, hlexemes⟩ := expectSymbol_of_lexemes h
  obtain ⟨u, hu, hinner, hlexemes⟩ := expression_complete e hlexemes trivial huses
  obtain ⟨token', v, hv, hclose, hend⟩ := expectSymbol_of_lexemes hlexemes
  refine ⟨v.command (.operate .add), Nat.lt_trans hv (Nat.lt_trans hu ht), ?_, hend⟩
  rw [index, hopen, ok_bind]
  dsimp only
  rw [hinner, ok_bind]
  dsimp only
  rw [hclose, ok_bind]
termination_by 2 * sizeOf e + 1
decreasing_by all_goals omega

theorem call_complete (c : Call) (token : Token) {name : String} {x rest : List Lexeme}
    {s : Reading} (hyield : c.yield = .identifier name :: x) (h : s.lexemes = x ++ rest)
    (huses : CountableCalls c.uses) :
    ∃ t, ∃ ht : t.left < s.left, s.call token = .ok ⟨t, ht⟩ ∧ t.lexemes = rest := by
  cases c with
  | own name' arguments =>
    obtain ⟨-, rfl⟩ := List.cons.inj hyield
    have hnone : s.accept? (.symbol .dot) = none :=
      accept?_none_of_lexemes h (by simp [Lexeme.kind])
    have hpush : (s.command (.push .pointer 0)).lexemes =
        .symbol .leftParen :: (arguments.yield ++ .symbol .rightParen :: rest) := by
      simpa using h
    obtain ⟨t, ht, harguments, hend⟩ := arguments_complete arguments hpush huses
    refine ⟨t.emit (.invokeOwn token arguments.count), ht, ?_, hend⟩
    rw [call, hnone]
    dsimp only
    rw [harguments, ok_bind]
  | member owner name' arguments =>
    obtain ⟨-, rfl⟩ := List.cons.inj hyield
    obtain ⟨dot, t, ht, hdot, hlexemes⟩ := accept?_of_lexemes h (by simp)
    obtain ⟨member, u, hu, hmember, hlexemes⟩ := expectName_of_lexemes hlexemes
    have hreceiver : (u.emit (.receiver token)).lexemes =
        .symbol .leftParen :: (arguments.yield ++ .symbol .rightParen :: rest) := by
      simpa using hlexemes
    obtain ⟨v, hv, harguments, hend⟩ := arguments_complete arguments hreceiver huses
    refine ⟨v.emit (.invoke token member.text arguments.count),
      Nat.lt_trans hv (Nat.lt_trans hu ht), ?_, hend⟩
    rw [call, show s.accept? (.symbol .dot) = _ from hdot]
    dsimp only
    rw [hmember, ok_bind]
    dsimp only
    rw [harguments, ok_bind]
termination_by 2 * sizeOf c
decreasing_by
  all_goals
    subst_vars
    simp only [Call.own.sizeOf_spec, Call.member.sizeOf_spec]
    omega

theorem arguments_complete (x : Arguments) {owner : Option String} {s : Reading}
    {rest : List Lexeme}
    (h : s.lexemes = .symbol .leftParen :: (x.yield ++ .symbol .rightParen :: rest))
    (huses : CountableCalls (.call owner x.count :: x.uses)) :
    ∃ t, ∃ ht : t.left < s.left, s.arguments = .ok (x.count, ⟨t, ht⟩) ∧ t.lexemes = rest := by
  obtain ⟨token, t, ht, hopen, hlexemes⟩ := expectSymbol_of_lexemes h
  cases x with
  | nil =>
    have hkind : t.kind = .symbol .rightParen := kind_of_lexemes hlexemes
    obtain ⟨token', u, hu, hclose, hend⟩ := expectSymbol_of_lexemes hlexemes
    refine ⟨u, Nat.lt_trans hu ht, ?_, hend⟩
    rw [arguments, hopen, ok_bind]
    dsimp only
    rw [if_pos hkind, hclose, ok_bind]
    rfl
  | cons first others =>
    rw [Arguments.yield, List.append_assoc] at hlexemes
    obtain ⟨hkind, -⟩ := kind_of_starts (hlexemes ▸ first.starts _)
    obtain ⟨hfirst, hothers⟩ := countableCalls_append.1 huses.tail
    obtain ⟨u, hu, hexpression, hlexemes⟩ :=
      expression_complete first hlexemes (others.closes rest) hfirst
    obtain ⟨v, hv, hmore, hlexemes⟩ := moreArguments_complete others 1 hlexemes
      (by have := huses.head; simp only [Arguments.count] at this; omega) hothers hu
    obtain ⟨token', w, hw, hclose, hend⟩ := expectSymbol_of_lexemes hlexemes
    refine ⟨w, Nat.lt_trans hw (Nat.lt_trans hv ht), ?_, hend⟩
    rw [arguments, hopen, ok_bind]
    dsimp only
    rw [if_neg hkind, hexpression, ok_bind]
    dsimp only
    rw [hmore, ok_bind]
    dsimp only
    rw [hclose, ok_bind, Arguments.count, Nat.add_comm]
termination_by 2 * sizeOf x
decreasing_by
  all_goals
    subst_vars
    simp_wf
  all_goals omega

theorem moreArguments_complete (x : Arguments) (before : Nat) {n : Nat} {s : Reading}
    {rest : List Lexeme} (h : s.lexemes = x.further ++ .symbol .rightParen :: rest)
    (hcount : before + x.count ≤ maxInteger) (huses : CountableCalls x.uses) (hs : s.left < n) :
    ∃ t, ∃ ht : t.left < n, s.moreArguments before hs = .ok (before + x.count, ⟨t, ht⟩) ∧
      t.lexemes = .symbol .rightParen :: rest := by
  cases x with
  | nil =>
    have hnone : s.accept? (.symbol .comma) = none :=
      accept?_none_of_lexemes h (by simp [Lexeme.kind])
    refine ⟨s, hs, ?_, h⟩
    rw [moreArguments, hnone]
    rfl
  | cons first others =>
    simp only [Arguments.further, List.cons_append, List.append_assoc] at h
    simp only [Arguments.count] at hcount
    obtain ⟨hfirst, hothers⟩ := countableCalls_append.1 huses
    obtain ⟨comma, t, ht, hcomma, hlexemes⟩ := accept?_of_lexemes h (by simp)
    obtain ⟨u, hu, hexpression, hlexemes⟩ :=
      expression_complete first hlexemes (others.closes rest) hfirst
    obtain ⟨v, hv, hmore, hend⟩ := moreArguments_complete others (before + 1) hlexemes
      (by omega) hothers (Nat.lt_trans hu (Nat.lt_trans ht hs))
    refine ⟨v, hv, ?_, hend⟩
    rw [moreArguments, show s.accept? (.symbol .comma) = _ from hcomma]
    dsimp only
    rw [if_neg (by omega), hexpression, ok_bind]
    dsimp only
    rw [hmore, Arguments.count, Nat.add_right_comm, Nat.add_assoc]
termination_by 2 * sizeOf x
decreasing_by
  all_goals
    subst_vars
    simp_wf
  all_goals omega

end

/-! ### Statements

As in reading, the rule for a statement starts after its first keyword. -/

theorem assignment_complete (name : String) (value : Expression) {s : Reading}
    {rest : List Lexeme}
    (h : s.lexemes = .identifier name :: .symbol .equal :: (value.yield ++
      .symbol .semicolon :: rest)) (huses : CountableCalls value.uses) :
    ∃ t, ∃ ht : t.left < s.left, s.assignment = .ok ⟨t, ht⟩ ∧ t.lexemes = rest := by
  obtain ⟨token, t, ht, hname, hlexemes⟩ := expectName_of_lexemes h
  have hkind : (t.emit (.require token)).kind ≠ .symbol .leftBracket := by
    rw [kind_of_lexemes (s := t.emit (.require token)) hlexemes]
    simp [Lexeme.kind]
  obtain ⟨equal, u, hu, hequal, hlexemes⟩ :=
    expectSymbol_of_lexemes (s := t.emit (.require token)) hlexemes
  obtain ⟨v, hv, hvalue, hlexemes⟩ := expression_complete value hlexemes trivial huses
  obtain ⟨semicolon, w, hw, hend, hlexemes⟩ := expectSymbol_of_lexemes hlexemes
  refine ⟨w.emit (.store token), Nat.lt_trans hw (Nat.lt_trans hv (Nat.lt_trans hu ht)), ?_,
    hlexemes⟩
  rw [assignment, hname, ok_bind]
  dsimp only
  rw [if_neg hkind, hequal, ok_bind]
  dsimp only
  rw [hvalue, ok_bind]
  dsimp only
  rw [hend, ok_bind]

theorem elementAssignment_complete (array : String) (index value : Expression) {s : Reading}
    {rest : List Lexeme}
    (h : s.lexemes = .identifier array :: .symbol .leftBracket :: (index.yield ++
      .symbol .rightBracket :: .symbol .equal :: (value.yield ++ .symbol .semicolon :: rest)))
    (hindex : CountableCalls index.uses) (hvalue : CountableCalls value.uses) :
    ∃ t, ∃ ht : t.left < s.left, s.assignment = .ok ⟨t, ht⟩ ∧ t.lexemes = rest := by
  obtain ⟨token, t, ht, hname, hlexemes⟩ := expectName_of_lexemes h
  have hkind : (t.emit (.require token)).kind = .symbol .leftBracket :=
    kind_of_lexemes (s := t.emit (.require token)) hlexemes
  obtain ⟨u, hu, hindex, hlexemes⟩ := index_complete index
    (s := (t.emit (.require token)).emit (.load token)) hlexemes hindex
  obtain ⟨equal, v, hv, hequal, hlexemes⟩ := expectSymbol_of_lexemes hlexemes
  obtain ⟨w, hw, hvalue, hlexemes⟩ := expression_complete value hlexemes trivial hvalue
  obtain ⟨semicolon, x, hx, hend, hlexemes⟩ := expectSymbol_of_lexemes hlexemes
  have hxs : x.left < s.left :=
    Nat.lt_trans hx (Nat.lt_trans hw (Nat.lt_trans hv (Nat.lt_trans hu ht)))
  refine ⟨(((x.command (.pop .temp 0)).command (.pop .pointer 1)).command
    (.push .temp 0)).command (.pop .that 0), hxs, ?_, hlexemes⟩
  rw [assignment, hname, ok_bind]
  dsimp only
  rw [if_pos hkind, hindex, ok_bind]
  dsimp only
  rw [hequal, ok_bind]
  dsimp only
  rw [hvalue, ok_bind]
  dsimp only
  rw [hend, ok_bind]

theorem invocation_complete (c : Call) {s : Reading} {rest : List Lexeme}
    (h : s.lexemes = c.yield ++ .symbol .semicolon :: rest) (huses : CountableCalls c.uses) :
    ∃ t, ∃ ht : t.left < s.left, s.invocation = .ok ⟨t, ht⟩ ∧ t.lexemes = rest := by
  obtain ⟨name, x, hyield, -⟩ := c.yield_eq
  rw [hyield] at h
  obtain ⟨token, t, ht, hname, hlexemes⟩ := expectName_of_lexemes h
  obtain ⟨u, hu, hcall, hlexemes⟩ := call_complete c token hyield hlexemes huses
  obtain ⟨semicolon, v, hv, hend, hlexemes⟩ := expectSymbol_of_lexemes hlexemes
  refine ⟨v.command (.pop .temp 0), Nat.lt_trans hv (Nat.lt_trans hu ht), ?_, hlexemes⟩
  rw [invocation, hname, ok_bind]
  dsimp only
  rw [hcall, ok_bind]
  dsimp only
  rw [hend, ok_bind]

theorem returningNothing_complete {s : Reading} {rest : List Lexeme}
    (h : s.lexemes = .symbol .semicolon :: rest) :
    ∃ t, ∃ ht : t.left < s.left, s.returning = .ok ⟨t, ht⟩ ∧ t.lexemes = rest := by
  have hkind : s.kind = .symbol .semicolon := kind_of_lexemes h
  obtain ⟨semicolon, t, ht, hend, hlexemes⟩ :=
    expectSymbol_of_lexemes (s := s.command (.push .constant 0)) h
  refine ⟨t.command .ret, ht, ?_, hlexemes⟩
  rw [returning, if_pos hkind, hend, ok_bind]

theorem returningValue_complete (value : Expression) {s : Reading} {rest : List Lexeme}
    (h : s.lexemes = value.yield ++ .symbol .semicolon :: rest)
    (huses : CountableCalls value.uses) :
    ∃ t, ∃ ht : t.left < s.left, s.returning = .ok ⟨t, ht⟩ ∧ t.lexemes = rest := by
  obtain ⟨-, hkind⟩ := kind_of_starts (h ▸ value.starts _)
  obtain ⟨t, ht, hvalue, hlexemes⟩ := expression_complete value h trivial huses
  obtain ⟨semicolon, u, hu, hend, hlexemes⟩ := expectSymbol_of_lexemes hlexemes
  refine ⟨u.command .ret, Nat.lt_trans hu ht, ?_, hlexemes⟩
  rw [returning, if_neg hkind, hvalue, ok_bind]
  dsimp only
  rw [hend, ok_bind]

theorem condition_complete (e : Expression) (otherwise : String) {s : Reading}
    {rest : List Lexeme}
    (h : s.lexemes = .symbol .leftParen :: (e.yield ++ .symbol .rightParen :: rest))
    (huses : CountableCalls e.uses) :
    ∃ t, ∃ ht : t.left < s.left, s.condition otherwise = .ok ⟨t, ht⟩ ∧ t.lexemes = rest := by
  obtain ⟨token, t, ht, hopen, hlexemes⟩ := expectSymbol_of_lexemes h
  obtain ⟨u, hu, hinner, hlexemes⟩ := expression_complete e hlexemes trivial huses
  obtain ⟨token', v, hv, hclose, hlexemes⟩ := expectSymbol_of_lexemes hlexemes
  refine ⟨(v.command (.operate .not)).command (.ifGoto otherwise),
    Nat.lt_trans hv (Nat.lt_trans hu ht), ?_, hlexemes⟩
  rw [condition, hopen, ok_bind]
  dsimp only
  rw [hinner, ok_bind]
  dsimp only
  rw [hclose, ok_bind]

theorem accept?_else_none {s : Reading} (h : StatementEnds s.lexemes) :
    s.accept? (.keyword .else_) = none := by
  cases haccept : s.accept? (.keyword .else_) with
  | none => rfl
  | some taken =>
    rw [(accept?_reads haccept).lexemes_eq] at h
    exact h.elim

/-- No statement is read where a block ends. -/
theorem statements_end {n : Nat} {s : Reading} (h : BlockEnds s.lexemes) (hs : s.left < n) :
    s.statements hs = .ok ⟨s, hs⟩ := by
  cases hlexemes : s.lexemes with
  | nil =>
    rw [hlexemes] at h
    exact h.elim
  | cons l rest =>
    obtain ⟨token, t, ht, hnext, hkind, -⟩ := next?_of_lexemes hlexemes
      (by rintro rfl; rw [hlexemes] at h; exact h)
    rw [hlexemes] at h
    unfold BlockEnds at h
    split at h
    · rename_i heq
      obtain ⟨rfl, -⟩ := List.cons.inj heq
      rw [statements, hnext]
      simp only [hkind, Lexeme.kind]
    · exact h.elim

mutual

theorem statement_complete (x : Statement) {n : Nat} {s : Reading} {rest : List Lexeme}
    (h : s.lexemes = x.yield ++ rest) (hrest : StatementEnds rest) (huses : CountableCalls x.uses)
    (hs : s.left < n) :
    ∃ t : Reading, ∃ ht : t.left < n, s.statements hs = t.statements ht ∧ t.lexemes = rest := by
  cases x with
  | assign name value =>
    simp only [Statement.yield, List.cons_append, List.append_assoc] at h
    obtain ⟨token, t, ht, hnext, hkind, hlexemes⟩ := next?_of_lexemes h (by simp)
    obtain ⟨u, hu, hrule, hend⟩ := assignment_complete name value hlexemes huses.tail
    refine ⟨u, Nat.lt_trans hu (Nat.lt_trans ht hs), ?_, hend⟩
    rw [statements, hnext]
    simp only [hkind, Lexeme.kind]
    rw [hrule, ok_bind]
  | assignElement array index value =>
    simp only [Statement.yield, List.cons_append, List.append_assoc] at h
    obtain ⟨hindex, hvalue⟩ := countableCalls_append.1 huses.tail
    obtain ⟨token, t, ht, hnext, hkind, hlexemes⟩ := next?_of_lexemes h (by simp)
    obtain ⟨u, hu, hrule, hend⟩ :=
      elementAssignment_complete array index value hlexemes hindex hvalue
    refine ⟨u, Nat.lt_trans hu (Nat.lt_trans ht hs), ?_, hend⟩
    rw [statements, hnext]
    simp only [hkind, Lexeme.kind]
    rw [hrule, ok_bind]
  | choice condition body =>
    simp only [Statement.yield, List.cons_append, List.append_assoc] at h
    obtain ⟨hcondition, hbody⟩ := countableCalls_append.1 huses
    obtain ⟨token, t, ht, hnext, hkind, hlexemes⟩ := next?_of_lexemes h (by simp)
    obtain ⟨u, hu, hrule, hend⟩ :=
      choice_complete condition body hlexemes hrest hcondition hbody
    refine ⟨u, Nat.lt_trans hu (Nat.lt_trans ht hs), ?_, hend⟩
    rw [statements, hnext]
    simp only [hkind, Lexeme.kind]
    rw [hrule, ok_bind]
  | choiceElse condition body otherwise =>
    simp only [Statement.yield, List.cons_append, List.append_assoc] at h
    obtain ⟨hcondition, hblocks⟩ := countableCalls_append.1 huses
    obtain ⟨hbody, hotherwise⟩ := countableCalls_append.1 hblocks
    obtain ⟨token, t, ht, hnext, hkind, hlexemes⟩ := next?_of_lexemes h (by simp)
    obtain ⟨u, hu, hrule, hend⟩ :=
      choiceElse_complete condition body otherwise hlexemes hcondition hbody hotherwise
    refine ⟨u, Nat.lt_trans hu (Nat.lt_trans ht hs), ?_, hend⟩
    rw [statements, hnext]
    simp only [hkind, Lexeme.kind]
    rw [hrule, ok_bind]
  | loop condition body =>
    simp only [Statement.yield, List.cons_append, List.append_assoc] at h
    obtain ⟨hcondition, hbody⟩ := countableCalls_append.1 huses
    obtain ⟨token, t, ht, hnext, hkind, hlexemes⟩ := next?_of_lexemes h (by simp)
    obtain ⟨u, hu, hrule, hend⟩ := loop_complete condition body hlexemes hcondition hbody
    refine ⟨u, Nat.lt_trans hu (Nat.lt_trans ht hs), ?_, hend⟩
    rw [statements, hnext]
    simp only [hkind, Lexeme.kind]
    rw [hrule, ok_bind]
  | invoke call =>
    simp only [Statement.yield, List.cons_append, List.append_assoc] at h
    obtain ⟨token, t, ht, hnext, hkind, hlexemes⟩ := next?_of_lexemes h (by simp)
    obtain ⟨u, hu, hrule, hend⟩ := invocation_complete call hlexemes huses
    refine ⟨u, Nat.lt_trans hu (Nat.lt_trans ht hs), ?_, hend⟩
    rw [statements, hnext]
    simp only [hkind, Lexeme.kind]
    rw [hrule, ok_bind]
  | returnNothing =>
    simp only [Statement.yield, List.cons_append] at h
    obtain ⟨token, t, ht, hnext, hkind, hlexemes⟩ := next?_of_lexemes h (by simp)
    obtain ⟨u, hu, hrule, hend⟩ := returningNothing_complete hlexemes
    refine ⟨u, Nat.lt_trans hu (Nat.lt_trans ht hs), ?_, hend⟩
    rw [statements, hnext]
    simp only [hkind, Lexeme.kind]
    rw [hrule, ok_bind]
  | returnValue value =>
    simp only [Statement.yield, List.cons_append, List.append_assoc] at h
    obtain ⟨token, t, ht, hnext, hkind, hlexemes⟩ := next?_of_lexemes h (by simp)
    obtain ⟨u, hu, hrule, hend⟩ := returningValue_complete value hlexemes huses
    refine ⟨u, Nat.lt_trans hu (Nat.lt_trans ht hs), ?_, hend⟩
    rw [statements, hnext]
    simp only [hkind, Lexeme.kind]
    rw [hrule, ok_bind]
termination_by 3 * sizeOf x
decreasing_by
  all_goals
    subst_vars
    simp_wf
  all_goals omega

theorem choice_complete (condition : Expression) (body : Statements) {s : Reading}
    {rest : List Lexeme}
    (h : s.lexemes = .symbol .leftParen :: (condition.yield ++ .symbol .rightParen ::
      .symbol .leftBrace :: (body.yield ++ .symbol .rightBrace :: rest)))
    (hrest : StatementEnds rest) (hcondition : CountableCalls condition.uses)
    (hbody : CountableCalls body.uses) :
    ∃ t : Reading, ∃ ht : t.left < s.left, s.choice = .ok ⟨t, ht⟩ ∧ t.lexemes = rest := by
  obtain ⟨t, ht, hguard, hlexemes⟩ := condition_complete condition (labelName s.labels)
    (s := s.takeLabels) h hcondition
  obtain ⟨u, hu, hblock, hend⟩ := block_complete body hlexemes hbody
  have hus : u.left < s.left := Nat.lt_trans hu ht
  let v := (u.command (.goto (labelName (s.labels + 1)))).command (.label (labelName s.labels))
  have hnone : v.accept? (.keyword .else_) = none := accept?_else_none (s := v) (hend ▸ hrest)
  refine ⟨v.command (.label (labelName (s.labels + 1))), hus, ?_, hend⟩
  rw [choice, hguard, ok_bind]
  dsimp only
  rw [hblock, ok_bind]
  dsimp only
  rw [hnone]
termination_by 3 * sizeOf body + 2
decreasing_by all_goals omega

theorem choiceElse_complete (condition : Expression) (body otherwise : Statements) {s : Reading}
    {rest : List Lexeme}
    (h : s.lexemes = .symbol .leftParen :: (condition.yield ++ .symbol .rightParen ::
      .symbol .leftBrace :: (body.yield ++ .symbol .rightBrace :: .keyword .else_ ::
        .symbol .leftBrace :: (otherwise.yield ++ .symbol .rightBrace :: rest))))
    (hcondition : CountableCalls condition.uses) (hbody : CountableCalls body.uses)
    (hotherwise : CountableCalls otherwise.uses) :
    ∃ t : Reading, ∃ ht : t.left < s.left, s.choice = .ok ⟨t, ht⟩ ∧ t.lexemes = rest := by
  obtain ⟨t, ht, hguard, hlexemes⟩ := condition_complete condition (labelName s.labels)
    (s := s.takeLabels) h hcondition
  obtain ⟨u, hu, hblock, hlexemes⟩ := block_complete body hlexemes hbody
  have hus : u.left < s.left := Nat.lt_trans hu ht
  let v := (u.command (.goto (labelName (s.labels + 1)))).command (.label (labelName s.labels))
  obtain ⟨token, w, hw, helse, hlexemes⟩ := accept?_of_lexemes (s := v) hlexemes (by simp)
  obtain ⟨x, hx, hother, hend⟩ := block_complete otherwise hlexemes hotherwise
  refine ⟨x.command (.label (labelName (s.labels + 1))),
    Nat.lt_trans hx (Nat.lt_trans hw hus), ?_, hend⟩
  rw [choice, hguard, ok_bind]
  dsimp only
  rw [hblock, ok_bind]
  dsimp only
  rw [show v.accept? (.keyword .else_) = _ from helse]
  dsimp only
  rw [hother, ok_bind]
termination_by 3 * (sizeOf body + sizeOf otherwise) + 2
decreasing_by all_goals omega

theorem loop_complete (condition : Expression) (body : Statements) {s : Reading}
    {rest : List Lexeme}
    (h : s.lexemes = .symbol .leftParen :: (condition.yield ++ .symbol .rightParen ::
      .symbol .leftBrace :: (body.yield ++ .symbol .rightBrace :: rest)))
    (hcondition : CountableCalls condition.uses) (hbody : CountableCalls body.uses) :
    ∃ t : Reading, ∃ ht : t.left < s.left, s.loop = .ok ⟨t, ht⟩ ∧ t.lexemes = rest := by
  obtain ⟨t, ht, hguard, hlexemes⟩ := condition_complete condition (labelName (s.labels + 1))
    (s := s.takeLabels.command (.label (labelName s.labels))) h hcondition
  obtain ⟨u, hu, hblock, hend⟩ := block_complete body hlexemes hbody
  refine ⟨(u.command (.goto (labelName s.labels))).command (.label (labelName (s.labels + 1))),
    Nat.lt_trans hu ht, ?_, hend⟩
  rw [loop, hguard, ok_bind]
  dsimp only
  rw [hblock, ok_bind]
termination_by 3 * sizeOf body + 2
decreasing_by all_goals omega

theorem statements_complete (x : Statements) {n : Nat} {s : Reading} {rest : List Lexeme}
    (h : s.lexemes = x.yield ++ rest) (hrest : BlockEnds rest) (huses : CountableCalls x.uses)
    (hs : s.left < n) :
    ∃ t, ∃ ht : t.left < n, s.statements hs = .ok ⟨t, ht⟩ ∧ t.lexemes = rest := by
  cases x with
  | nil => exact ⟨s, hs, statements_end (h ▸ hrest) hs, h⟩
  | cons first others =>
    rw [Statements.yield, List.append_assoc] at h
    obtain ⟨hfirst, hothers⟩ := countableCalls_append.1 huses
    obtain ⟨t, ht, hstatement, hlexemes⟩ :=
      statement_complete first h (others.ends hrest) hfirst hs
    obtain ⟨u, hu, hstatements, hend⟩ := statements_complete others hlexemes hrest hothers ht
    exact ⟨u, hu, hstatement.trans hstatements, hend⟩
termination_by 3 * sizeOf x
decreasing_by
  all_goals
    subst_vars
    simp_wf
  all_goals omega

theorem block_complete (x : Statements) {s : Reading} {rest : List Lexeme}
    (h : s.lexemes = .symbol .leftBrace :: (x.yield ++ .symbol .rightBrace :: rest))
    (huses : CountableCalls x.uses) :
    ∃ t, ∃ ht : t.left < s.left, s.block = .ok ⟨t, ht⟩ ∧ t.lexemes = rest := by
  obtain ⟨token, t, ht, hopen, hlexemes⟩ := expectSymbol_of_lexemes h
  obtain ⟨u, hu, hstatements, hlexemes⟩ := statements_complete x hlexemes trivial huses ht
  obtain ⟨token', v, hv, hclose, hend⟩ := expectSymbol_of_lexemes hlexemes
  refine ⟨v, Nat.lt_trans hv hu, ?_, hend⟩
  rw [block, hopen, ok_bind]
  dsimp only
  rw [hstatements, ok_bind]
  dsimp only
  rw [hclose, ok_bind]
termination_by 3 * sizeOf x + 1
decreasing_by all_goals omega

end

/-! ### Declarations -/

theorem accept?_complete {s : Reading} {mark : Symbol} {rest : List Lexeme}
    (h : s.lexemes = .symbol mark :: rest) :
    ∃ token t, ∃ ht : t.left < s.left, s.accept? (.symbol mark) = some ⟨token, t, ht⟩ ∧
      t.lexemes = rest :=
  accept?_of_lexemes h (by simp)

theorem type_complete (x : TypeName) {s : Reading} {rest : List Lexeme}
    (h : s.lexemes = x.lexeme :: rest) :
    ∃ token t, ∃ ht : t.left < s.left, s.type = .ok ⟨token, t, ht⟩ ∧ t.lexemes = rest := by
  have hx : x.lexeme ≠ .endOfFile := by cases x <;> simp [TypeName.lexeme]
  obtain ⟨token, t, ht, hnext, hkind, hend⟩ := next?_of_lexemes h hx
  refine ⟨token, t, ht, ?_, hend⟩
  rw [type, hnext]
  cases x <;> simp only [hkind, TypeName.lexeme, Lexeme.kind]

theorem returnType_complete (x : Option TypeName) {s : Reading} {rest : List Lexeme}
    (h : s.lexemes = returnLexeme x :: rest) :
    ∃ token t, ∃ ht : t.left < s.left, s.returnType = .ok ⟨token, t, ht⟩ ∧ t.lexemes = rest := by
  have hx : returnLexeme x ≠ .endOfFile := by
    rcases x with - | x
    · simp [returnLexeme]
    · cases x <;> simp [returnLexeme, TypeName.lexeme]
  obtain ⟨token, t, ht, hnext, hkind, hend⟩ := next?_of_lexemes h hx
  refine ⟨token, t, ht, ?_, hend⟩
  rw [returnType, hnext]
  rcases x with - | x
  · simp only [hkind, returnLexeme, Lexeme.kind]
  · cases x <;> simp only [hkind, returnLexeme, TypeName.lexeme, Lexeme.kind]

theorem names_complete (kind : VariableKind) (type first : String) (others : List String) {n : Nat}
    {s : Reading} {rest : List Lexeme}
    (h : s.lexemes = .identifier first :: (furtherNames others ++ .symbol .semicolon :: rest))
    (hs : s.left < n) :
    ∃ t, ∃ ht : t.left < n, s.names kind type hs = .ok ⟨t, ht⟩ ∧
      t.lexemes = .symbol .semicolon :: rest := by
  obtain ⟨name, t, ht, hname, hlexemes⟩ := expectName_of_lexemes h
  rw [names, hname, ok_bind]
  dsimp only
  let t' := t.emit (.declare kind type name)
  cases others with
  | nil =>
    have hnone : t'.accept? (.symbol .comma) = none :=
      accept?_none_of_lexemes (s := t') hlexemes (by simp [Lexeme.kind])
    rw [show (t.emit (.declare kind type name)).accept? _ = _ from hnone]
    exact ⟨t', Nat.lt_trans ht hs, rfl, hlexemes⟩
  | cons second others =>
    obtain ⟨comma, u, hu, hcomma, hlexemes⟩ := accept?_complete (s := t') hlexemes
    obtain ⟨v, hv, hnames, hend⟩ := names_complete kind type second others hlexemes
      (Nat.lt_trans (Nat.lt_trans hu ht) hs)
    rw [show (t.emit (.declare kind type name)).accept? _ = _ from hcomma]
    exact ⟨v, hv, hnames, hend⟩
termination_by others

theorem declaration_complete (x : Variables) (kind : VariableKind) {s : Reading}
    {rest : List Lexeme} (h : s.lexemes = x.yield ++ rest) :
    ∃ t, ∃ ht : t.left < s.left, s.declaration kind = .ok ⟨t, ht⟩ ∧ t.lexemes = rest := by
  simp only [Variables.yield, List.cons_append, List.append_assoc, List.nil_append] at h
  obtain ⟨type, t, ht, htype, hlexemes⟩ := type_complete x.type h
  obtain ⟨u, hu, hnames, hlexemes⟩ :=
    names_complete kind type.text x.first x.others hlexemes ht
  obtain ⟨semicolon, v, hv, hsemicolon, hend⟩ := expectSymbol_of_lexemes hlexemes
  refine ⟨v, Nat.lt_trans hv hu, ?_, hend⟩
  rw [declaration, htype, ok_bind]
  dsimp only
  rw [hnames, ok_bind]
  dsimp only
  rw [hsemicolon, ok_bind]

/-- The next lexeme is not a keyword that nothing here starts with. -/
theorem not_keyword_of_next? {s : Reading} {taken : Taken s.left} {words : List Keyword}
    {word : Keyword} (h : ¬StartsWith words s.lexemes) (hnext : s.next? = some taken)
    (hword : word ∈ words) : taken.token.kind ≠ .keyword word := by
  intro hkind
  apply h
  rw [(next?_reads hnext hkind).lexemes_eq]
  exact hword

theorem classVariables_end {n : Nat} {s : Reading} (h : ¬StartsWith [.static_, .field_] s.lexemes)
    (hs : s.left < n) : s.classVariables hs = .ok ⟨s, hs⟩ := by
  rw [classVariables]
  split
  · rfl
  · rename_i token t ht hnext
    split
    · rename_i hkind
      exact absurd hkind (not_keyword_of_next? h hnext (by simp))
    · rename_i hkind
      exact absurd hkind (not_keyword_of_next? h hnext (by simp))
    · rfl

theorem classVariables_complete (list : List ClassVariables) {n : Nat} {s : Reading}
    {rest : List Lexeme} (h : s.lexemes = list.flatMap ClassVariables.yield ++ rest)
    (hrest : ¬StartsWith [.static_, .field_] rest) (hs : s.left < n) :
    ∃ t, ∃ ht : t.left < n, s.classVariables hs = .ok ⟨t, ht⟩ ∧ t.lexemes = rest := by
  induction list generalizing s with
  | nil =>
    rw [List.flatMap_nil, List.nil_append] at h
    exact ⟨s, hs, classVariables_end (h ▸ hrest) hs, h⟩
  | cons first others ih =>
    rw [List.flatMap_cons, List.append_assoc] at h
    obtain ⟨token, t, ht, hnext, hkind, hlexemes⟩ := next?_of_lexemes h (by simp)
    obtain ⟨u, hu, hfirst, hlexemes⟩ :=
      declaration_complete first.toVariables first.scope.kind hlexemes
    obtain ⟨v, hv, hothers, hend⟩ := ih hlexemes (Nat.lt_trans hu (Nat.lt_trans ht hs))
    refine ⟨v, hv, ?_, hend⟩
    obtain ⟨line, scope⟩ := first
    rw [classVariables, hnext]
    cases scope with
    | static =>
      simp only [hkind, Lexeme.kind, ClassScope.keyword]
      rw [show t.declaration .static = _ from hfirst, ok_bind]
      exact hothers
    | field =>
      simp only [hkind, Lexeme.kind, ClassScope.keyword]
      rw [show t.declaration .field = _ from hfirst, ok_bind]
      exact hothers

theorem localVariables_complete (list : List Variables) {n : Nat} {s : Reading}
    {rest : List Lexeme} (h : s.lexemes = localsYield list ++ rest)
    (hrest : ¬StartsWith [.var_] rest) (hs : s.left < n) :
    ∃ t, ∃ ht : t.left < n, s.localVariables hs = .ok ⟨t, ht⟩ ∧ t.lexemes = rest := by
  induction list generalizing s with
  | nil =>
    obtain rfl : s.lexemes = rest := h
    refine ⟨s, hs, ?_, rfl⟩
    rw [localVariables]
    split
    · rename_i token t ht hvar
      exact absurd (accept?_eq hvar).2
        (not_keyword_of_next? hrest (accept?_eq hvar).1 (List.mem_singleton.2 rfl))
    · rfl
  | cons first others ih =>
    simp only [localsYield, List.flatMap_cons, List.cons_append, List.append_assoc] at h
    obtain ⟨token, t, ht, hvar, hlexemes⟩ := accept?_of_lexemes h (by simp)
    obtain ⟨u, hu, hfirst, hlexemes⟩ := declaration_complete first .local_ hlexemes
    obtain ⟨v, hv, hothers, hend⟩ := ih hlexemes (Nat.lt_trans hu (Nat.lt_trans ht hs))
    refine ⟨v, hv, ?_, hend⟩
    rw [localVariables, show s.accept? (.keyword .var_) = _ from hvar]
    dsimp only
    rw [hfirst, ok_bind]
    exact hothers

theorem moreParameters_complete (first : Parameter) (others : List Parameter) {n : Nat}
    {s : Reading} {rest : List Lexeme}
    (h : s.lexemes = parametersYield (first :: others) ++ .symbol .rightParen :: rest)
    (hs : s.left < n) :
    ∃ t, ∃ ht : t.left < n, s.moreParameters hs = .ok ⟨t, ht⟩ ∧
      t.lexemes = .symbol .rightParen :: rest := by
  induction others generalizing s n first with
  | nil =>
    obtain ⟨type, t, ht, htype, hlexemes⟩ := type_complete first.type h
    obtain ⟨name, u, hu, hname, hlexemes⟩ := expectName_of_lexemes hlexemes
    let u' := u.emit (.declare .argument type.text name)
    have hnone : u'.accept? (.symbol .comma) = none :=
      accept?_none_of_lexemes (s := u') hlexemes (by simp [Lexeme.kind])
    refine ⟨u', Nat.lt_trans hu (Nat.lt_trans ht hs), ?_, hlexemes⟩
    rw [moreParameters, htype, ok_bind]
    dsimp only
    rw [hname, ok_bind]
    dsimp only
    rw [show (u.emit (.declare .argument type.text name)).accept? _ = _ from hnone]
  | cons second others ih =>
    obtain ⟨type, t, ht, htype, hlexemes⟩ := type_complete first.type h
    obtain ⟨name, u, hu, hname, hlexemes⟩ := expectName_of_lexemes hlexemes
    let u' := u.emit (.declare .argument type.text name)
    obtain ⟨comma, v, hv, hcomma, hlexemes⟩ := accept?_complete (s := u') hlexemes
    obtain ⟨w, hw, hothers, hend⟩ := ih second hlexemes
      (Nat.lt_trans (Nat.lt_trans hv (Nat.lt_trans hu ht)) hs)
    refine ⟨w, hw, ?_, hend⟩
    rw [moreParameters, htype, ok_bind]
    dsimp only
    rw [hname, ok_bind]
    dsimp only
    rw [show (u.emit (.declare .argument type.text name)).accept? _ = _ from hcomma]
    exact hothers

theorem parameters_complete (list : List Parameter) {s : Reading} {rest : List Lexeme}
    (h : s.lexemes = .symbol .leftParen :: (parametersYield list ++ .symbol .rightParen :: rest)) :
    ∃ t, ∃ ht : t.left < s.left, s.parameters = .ok ⟨t, ht⟩ ∧ t.lexemes = rest := by
  obtain ⟨token, t, ht, hopen, hlexemes⟩ := expectSymbol_of_lexemes h
  cases list with
  | nil =>
    have hkind : t.kind = .symbol .rightParen := kind_of_lexemes hlexemes
    obtain ⟨token', u, hu, hclose, hend⟩ := expectSymbol_of_lexemes hlexemes
    refine ⟨u, Nat.lt_trans hu ht, ?_, hend⟩
    rw [parameters, hopen, ok_bind]
    dsimp only
    rw [if_pos hkind, ok_bind]
    dsimp only
    rw [hclose, ok_bind]
  | cons first others =>
    have hkind : t.kind ≠ .symbol .rightParen := by
      rw [kind_of_lexemes hlexemes]
      cases htype : first.type <;> simp [TypeName.lexeme, Lexeme.kind]
    obtain ⟨u, hu, hlist, hlexemes⟩ := moreParameters_complete first others hlexemes ht
    obtain ⟨token', v, hv, hclose, hend⟩ := expectSymbol_of_lexemes hlexemes
    refine ⟨v, Nat.lt_trans hv hu, ?_, hend⟩
    rw [parameters, hopen, ok_bind]
    dsimp only
    rw [if_neg hkind, hlist, ok_bind]
    dsimp only
    rw [hclose, ok_bind]

/-! ### Subroutines and classes -/

theorem body_complete (locals : List Variables) (statements : Statements) (kind : SubroutineKind)
    (name : String) {s : Reading} {rest : List Lexeme}
    (h : s.lexemes = .symbol .leftBrace :: (localsYield locals ++
      (statements.yield ++ .symbol .rightBrace :: rest))) (huses : CountableCalls statements.uses) :
    ∃ t, ∃ ht : t.left < s.left, s.body kind name = .ok ⟨t, ht⟩ ∧ t.lexemes = rest := by
  obtain ⟨token, t, ht, hopen, hlexemes⟩ := expectSymbol_of_lexemes h
  obtain ⟨u, hu, hlocals, hlexemes⟩ :=
    localVariables_complete locals hlexemes (statements.not_startsWith_var rest) ht
  obtain ⟨v, hv, hstatements, hlexemes⟩ := statements_complete statements
    (s := u.emit (.openBody kind name)) hlexemes trivial huses hu
  obtain ⟨token', w, hw, hclose, hend⟩ := expectSymbol_of_lexemes hlexemes
  refine ⟨w, Nat.lt_trans hw hv, ?_, hend⟩
  rw [body, hopen, ok_bind]
  dsimp only
  rw [hlocals, ok_bind]
  dsimp only
  rw [hstatements, ok_bind]
  dsimp only
  rw [hclose, ok_bind]

theorem subroutine_complete (x : Subroutine) (keyword : Token) {s : Reading} {rest : List Lexeme}
    (h : .keyword (subroutineKeyword x.kind) :: s.lexemes = x.yield ++ rest)
    (huses : CountableCalls x.body.uses) :
    ∃ t, ∃ ht : t.left < s.left, s.subroutine x.kind keyword = .ok ⟨t, ht⟩ ∧
      t.lexemes = rest := by
  simp only [Subroutine.yield, List.cons_append, List.append_assoc, List.nil_append,
    List.cons.injEq, true_and] at h
  let s' := s.emit (.openSubroutine x.kind keyword)
  obtain ⟨type, t, ht, htype, hlexemes⟩ := returnType_complete x.returnType (s := s') h
  obtain ⟨name, u, hu, hname, hlexemes⟩ := expectName_of_lexemes hlexemes
  obtain ⟨v, hv, hparameters, hlexemes⟩ := parameters_complete x.parameters
    (s := u.emit (.nameSubroutine x.kind name.text)) hlexemes
  obtain ⟨w, hw, hbody, hend⟩ :=
    body_complete x.locals x.body x.kind name.text hlexemes huses
  refine ⟨w, Nat.lt_trans hw (Nat.lt_trans hv (Nat.lt_trans hu ht)), ?_, hend⟩
  rw [subroutine, show (s.emit (.openSubroutine x.kind keyword)).returnType = _ from htype, ok_bind]
  dsimp only
  rw [hname, ok_bind]
  dsimp only
  rw [hparameters, ok_bind]
  dsimp only
  rw [hbody, ok_bind]

theorem subroutines_end {n : Nat} {s : Reading}
    (h : ¬StartsWith [.constructor_, .function_, .method_] s.lexemes) (hs : s.left < n) :
    s.subroutines hs = .ok ⟨s, hs⟩ := by
  rw [subroutines]
  split
  · rfl
  · rename_i token t ht hnext
    split
    · rename_i hkind
      exact absurd hkind (not_keyword_of_next? h hnext (by simp))
    · rename_i hkind
      exact absurd hkind (not_keyword_of_next? h hnext (by simp))
    · rename_i hkind
      exact absurd hkind (not_keyword_of_next? h hnext (by simp))
    · rfl

theorem subroutines_complete (list : List Subroutine) {n : Nat} {s : Reading} {rest : List Lexeme}
    (h : s.lexemes = list.flatMap Subroutine.yield ++ .symbol .rightBrace :: rest)
    (huses : ∀ x ∈ list, CountableCalls x.body.uses) (hs : s.left < n) :
    ∃ t, ∃ ht : t.left < n, s.subroutines hs = .ok ⟨t, ht⟩ ∧
      t.lexemes = .symbol .rightBrace :: rest := by
  induction list generalizing s with
  | nil =>
    refine ⟨s, hs, subroutines_end ?_ hs, h⟩
    rw [h]
    exact id
  | cons first others ih =>
    rw [List.flatMap_cons, List.append_assoc] at h
    obtain ⟨hfirst, hothers⟩ := List.forall_mem_cons.1 huses
    obtain ⟨token, t, ht, hnext, hkind, hlexemes⟩ := next?_of_lexemes h (by simp)
    obtain ⟨u, hu, hsubroutine, hlexemes⟩ := subroutine_complete first token
      (s := t) (congrArg (List.cons _) hlexemes) hfirst
    obtain ⟨v, hv, hrest, hend⟩ := ih hlexemes hothers (Nat.lt_trans hu (Nat.lt_trans ht hs))
    refine ⟨v, hv, ?_, hend⟩
    rw [subroutines, hnext]
    obtain ⟨kind, type, name, parameters, locals, body⟩ := first
    cases kind with
    | constructor =>
      simp only [hkind, Lexeme.kind, subroutineKeyword]
      rw [show t.subroutine .constructor token = _ from hsubroutine, ok_bind]
      exact hrest
    | function =>
      simp only [hkind, Lexeme.kind, subroutineKeyword]
      rw [show t.subroutine .function token = _ from hsubroutine, ok_bind]
      exact hrest
    | method =>
      simp only [hkind, Lexeme.kind, subroutineKeyword]
      rw [show t.subroutine .method token = _ from hsubroutine, ok_bind]
      exact hrest

/-- The rules up to the closing brace of a class leave the end of the text as it is. -/
theorem wholeClass_complete (x : Tree.Class) {s : Reading} (hspelled : s.Spelled)
    (hlabels : s.labels = 0) (hlast : s.input.last.kind = .endOfFile) (h : s.lexemes = x.yield)
    (huses : ∀ y ∈ x.subroutines, CountableCalls y.body.uses) : ∃ t, s.wholeClass = .ok t := by
  obtain ⟨token, t, ht, hclass, hlexemes⟩ := expect_of_lexemes h (by simp)
  obtain ⟨name, u, hu, hname, hlexemes⟩ := expectName_of_lexemes hlexemes
  obtain ⟨token', v, hv, hopen, hlexemes⟩ :=
    expectSymbol_of_lexemes (s := u.emit (.openClass name.text)) hlexemes
  obtain ⟨w, hw, hvariables, hlexemes⟩ := classVariables_complete x.classVariables hlexemes
    (not_startsWith_classVariables x.subroutines []) hv
  obtain ⟨y, hy, hsubroutines, hlexemes⟩ := subroutines_complete x.subroutines hlexemes huses hw
  obtain ⟨token'', z, hz, hclose, hend⟩ := expectSymbol_of_lexemes hlexemes
  have hkind : z.kind = .endOfFile := by
    have hheader := (expect_reads hclass).trans
      (((expect_reads hname).emit (.openClass name.text)).trans (expect_reads hopen))
    obtain ⟨lines, hvariables⟩ := classVariables_reads (hheader.spelled hspelled) hvariables
    have hbefore := hheader.trans hvariables
    obtain ⟨subroutines, hsubroutines⟩ := subroutines_reads (k := 0)
      (hbefore.spelled hspelled) (hbefore.labels_eq (k := 0) hlabels) hsubroutines
    have hall := hbefore.trans (hsubroutines.trans (expect_reads hclose))
    have htokens : z.input.tokens = [] := List.map_eq_nil_iff.1 hend
    rw [kind, Reader.peek, htokens, List.headD_nil, hall.last, hlast]
  refine ⟨z, ?_⟩
  rw [wholeClass, show s.expect (.keyword .class_) = _ from hclass, ok_bind]
  dsimp only
  rw [hname, ok_bind]
  dsimp only
  rw [hopen, ok_bind]
  dsimp only
  rw [hvariables, ok_bind]
  dsimp only
  rw [hsubroutines, ok_bind]
  dsimp only
  rw [hclose, ok_bind]
  dsimp only
  rw [if_pos hkind]

end Reading

end JackCompiler
