import JackCompiler.Directive.Reading
import JackCompiler.Proofs.TreeDirectives

/-!
Whatever a rule of the reading takes is the lexemes of a tree of that rule, and what it adds is the
directives of that tree. The invariant of every rule is `Reads`: it relates the reading before the
rule to the one after it by the tokens taken, the labels handed out and the directives added.
-/

namespace JackCompiler.Reading

open JackCompiler.Tree

def lexemes (s : Reading) : List Lexeme :=
  s.input.tokens.map Token.lexeme

/-- From `s` the reading went on to `t` by taking tokens with these lexemes, handing out this many
pairs of labels and adding these directives. -/
structure Reads (s : Reading) (taken : List Lexeme) (pairs : Nat) (added : List Directive)
    (t : Reading) : Prop where
  tokens : ∃ front, s.input.tokens = front ++ t.input.tokens ∧ front.map Token.lexeme = taken
  last : t.input.last = s.input.last
  labels : t.labels = s.labels + 2 * pairs
  code : t.code.map Directive.unplaced = added.reverse ++ s.code.map Directive.unplaced

namespace Reads

variable {s t u : Reading} {x y : List Lexeme} {i j : Nat} {c d : List Directive}

theorem refl (s : Reading) : Reads s [] 0 [] s :=
  ⟨⟨[], rfl, rfl⟩, rfl, rfl, rfl⟩

theorem trans (h : Reads s x i c t) (k : Reads t y j d u) :
    Reads s (x ++ y) (i + j) (c ++ d) u := by
  obtain ⟨⟨front, hfront, rfl⟩, hlast, hlabels, hcode⟩ := h
  obtain ⟨⟨next, hnext, rfl⟩, klast, klabels, kcode⟩ := k
  refine ⟨⟨front ++ next, ?_, List.map_append⟩, klast.trans hlast, by omega, ?_⟩
  · rw [hfront, hnext, List.append_assoc]
  · rw [kcode, hcode, List.reverse_append, List.append_assoc]

theorem emit (h : Reads s x i c t) (directive : Directive) :
    Reads s x i (c ++ [directive.unplaced]) (t.emit directive) := by
  refine ⟨h.tokens, h.last, h.labels, ?_⟩
  rw [List.reverse_append, List.append_assoc, ← h.code]
  rfl

theorem command (h : Reads s x i c t) (command : Command) :
    Reads s x i (c ++ [.emit command]) (t.command command) :=
  h.emit (.emit command)

theorem ofEmit (s : Reading) (directive : Directive) :
    Reads s [] 0 [directive.unplaced] (s.emit directive) :=
  (refl s).emit directive

theorem ofTakeLabels (s : Reading) : Reads s [] 1 [] s.takeLabels :=
  ⟨⟨[], rfl, rfl⟩, rfl, rfl, rfl⟩

theorem labels_eq {k : Nat} (h : Reads s x i c t) (hs : s.labels = 2 * k) :
    t.labels = 2 * (k + i) := by
  rw [h.labels, hs, Nat.mul_add]

theorem lexemes_eq (h : Reads s x i c t) : s.lexemes = x ++ t.lexemes := by
  obtain ⟨front, hfront, rfl⟩ := h.tokens
  rw [lexemes, hfront, List.map_append, lexemes]

/-- What holds of all tokens to come still holds later. -/
theorem forall_tokens {p : Token → Prop} (h : Reads s x i c t)
    (hs : ∀ token ∈ s.input.tokens, p token) : ∀ token ∈ t.input.tokens, p token := by
  obtain ⟨front, hfront, -⟩ := h.tokens
  intro token htoken
  exact hs token (hfront ▸ List.mem_append_right front htoken)

end Reads

theorem bind_ok {α β : Type} {x : Outcome α} {f : α → Outcome β} {b : β}
    (h : x >>= f = .ok b) : ∃ a, x = .ok a ∧ f a = .ok b := by
  cases x with
  | error stop => cases h
  | ok a => exact ⟨a, rfl, h⟩

/-! ### Taking one token -/

/-- The token was the current one, and nothing but the input changed. -/
theorem next?_eq {s : Reading} {taken : Taken s.left} (h : s.next? = some taken) :
    taken.token.kind ≠ .endOfFile ∧ s.input.tokens = taken.token :: taken.next.input.tokens ∧
      taken.next = { s with input := { s.input with tokens := taken.next.input.tokens } } := by
  unfold next? at h
  split at h
  · rename_i token after hnext
    cases h
    unfold Reader.next? at hnext
    split at hnext
    · cases hnext
    · rename_i first rest htokens
      split at hnext
      · cases hnext
      · cases hnext
        exact ⟨‹_›, htokens, rfl⟩
  · cases h

theorem next?_reads {s : Reading} {taken : Taken s.left} {kind : TokenKind}
    (h : s.next? = some taken) (hkind : taken.token.kind = kind) :
    Reads s [kind.lexeme taken.token.text] 0 [] taken.next := by
  obtain ⟨-, htokens, hnext⟩ := next?_eq h
  refine ⟨⟨[taken.token], htokens, ?_⟩, ?_, ?_, ?_⟩
  · rw [List.map_singleton, Token.lexeme, hkind]
  · rw [hnext]
  · rw [hnext]
    rfl
  · rw [hnext]
    rfl

theorem next?_of_input {s : Reading} {token : Token} {after : Reader}
    (h : s.input.next? = some (token, after)) :
    s.next? = some ⟨token, { s with input := after }, Reader.left_of_next? h⟩ := by
  unfold next?
  split
  · rename_i token' after' hnext
    obtain ⟨rfl, rfl⟩ := Prod.mk.inj (Option.some.inj (h.symm.trans hnext))
    rfl
  · rename_i hnone
    rw [h] at hnone
    cases hnone

theorem accept?_eq {s : Reading} {kind : TokenKind} {taken : Taken s.left}
    (h : s.accept? kind = some taken) : s.next? = some taken ∧ taken.token.kind = kind := by
  unfold accept? at h
  split at h
  · rename_i token after haccept
    cases h
    have hnext := Reader.next?_of_accept? haccept
    refine ⟨next?_of_input hnext, ?_⟩
    unfold Reader.accept? at haccept
    rw [hnext] at haccept
    dsimp only at haccept
    split at haccept
    · assumption
    · cases haccept
  · cases h

theorem expectAny_eq {s : Reading} {kinds : List TokenKind} {taken : Taken s.left}
    (h : s.expectAny kinds = .ok taken) : s.next? = some taken ∧ taken.token.kind ∈ kinds := by
  unfold expectAny at h
  split at h
  · rename_i token after hconsume
    cases h
    have hnext := Reader.next?_of_consumeAny hconsume
    refine ⟨next?_of_input hnext, ?_⟩
    unfold Reader.consumeAny at hconsume
    rw [hnext] at hconsume
    dsimp only at hconsume
    split at hconsume
    · assumption
    · cases hconsume
  · cases h

theorem accept?_reads {s : Reading} {kind : TokenKind} {taken : Taken s.left}
    (h : s.accept? kind = some taken) :
    Reads s [kind.lexeme taken.token.text] 0 [] taken.next :=
  next?_reads (accept?_eq h).1 (accept?_eq h).2

theorem expect_reads {s : Reading} {kind : TokenKind} {taken : Taken s.left}
    (h : s.expect kind = .ok taken) : Reads s [kind.lexeme taken.token.text] 0 [] taken.next :=
  next?_reads (expectAny_eq h).1 (List.mem_singleton.1 (expectAny_eq h).2)

theorem binary?_eq {mark : Symbol} {command : Command} (h : mark.binary? = some command) :
    ∃ operator : BinaryOperator, mark = operator.symbol ∧ command = operator.command := by
  cases mark <;> cases h
  · exact ⟨.add, rfl, rfl⟩
  · exact ⟨.subtract, rfl, rfl⟩
  · exact ⟨.multiply, rfl, rfl⟩
  · exact ⟨.divide, rfl, rfl⟩
  · exact ⟨.and, rfl, rfl⟩
  · exact ⟨.or, rfl, rfl⟩
  · exact ⟨.less, rfl, rfl⟩
  · exact ⟨.greater, rfl, rfl⟩
  · exact ⟨.equal, rfl, rfl⟩

theorem operator?_reads {s : Reading} {command : Command} {taken : Taken s.left}
    (h : s.operator? = some (command, taken)) :
    ∃ operator : BinaryOperator, command = operator.command ∧
      Reads s [.symbol operator.symbol] 0 [] taken.next := by
  unfold operator? at h
  split at h
  · rename_i found hnext
    split at h
    · rename_i mark hkind
      obtain ⟨command', hbinary, heq⟩ := Option.map_eq_some_iff.1 h
      obtain ⟨rfl, rfl⟩ := Prod.mk.inj heq
      obtain ⟨operator, rfl, rfl⟩ := binary?_eq hbinary
      exact ⟨operator, rfl, next?_reads hnext hkind⟩
    · cases h
  · cases h

/-! ### Expressions -/

mutual

theorem expression_reads {s t : Reading} {ht : t.left < s.left} (h : s.expression = .ok ⟨t, ht⟩) :
    ∃ e : Expression, Reads s e.yield 0 e.directives t := by
  rw [expression] at h
  obtain ⟨⟨u, hu⟩, hterm, hops⟩ := bind_ok h
  obtain ⟨first, hfirst⟩ := term_reads hterm
  obtain ⟨rest, hrest⟩ := operations_reads hops
  exact ⟨.mk first rest, hfirst.trans hrest⟩
termination_by 8 * s.left + 3
decreasing_by all_goals omega

theorem operations_reads {n : Nat} {s t : Reading} {hs : s.left < n} {ht : t.left < n}
    (h : s.operations hs = .ok ⟨t, ht⟩) :
    ∃ x : Operations, Reads s x.yield 0 x.directives t := by
  rw [operations] at h
  split at h
  · rename_i command token u hu hoperator
    obtain ⟨⟨v, hv⟩, hterm, hops⟩ := bind_ok h
    obtain ⟨operator, rfl, hmark⟩ := operator?_reads hoperator
    obtain ⟨operand, hoperand⟩ := term_reads hterm
    obtain ⟨rest, hrest⟩ := operations_reads hops
    refine ⟨.cons operator operand rest, ?_⟩
    simpa [Operations.yield, Operations.directives] using
      hmark.trans ((hoperand.command operator.command).trans hrest)
  · cases h
    exact ⟨.nil, Reads.refl s⟩
termination_by 8 * s.left
decreasing_by
  all_goals simp_wf
  all_goals omega

theorem term_reads {s t : Reading} {ht : t.left < s.left} (h : s.term = .ok ⟨t, ht⟩) :
    ∃ e : Term, Reads s e.yield 0 e.directives t := by
  rw [term] at h
  split at h
  · cases h
  · rename_i token u hu hnext
    split at h
    · rename_i value hkind
      cases h
      exact ⟨.integer value, (next?_reads hnext hkind).command _⟩
    · rename_i hkind
      cases h
      exact ⟨.string token.text, (next?_reads hnext hkind).emit (.build token)⟩
    · rename_i hkind
      cases h
      exact ⟨.constant .true_, ((next?_reads hnext hkind).command _).command _⟩
    · rename_i hkind
      cases h
      exact ⟨.constant .false_, (next?_reads hnext hkind).command _⟩
    · rename_i hkind
      cases h
      exact ⟨.constant .null_, (next?_reads hnext hkind).command _⟩
    · rename_i hkind
      cases h
      exact ⟨.constant .this_, (next?_reads hnext hkind).command _⟩
    · rename_i hkind
      obtain ⟨⟨v, hv⟩, hinner, h⟩ := bind_ok h
      obtain ⟨⟨token', w, hw⟩, hclose, h⟩ := bind_ok h
      cases h
      obtain ⟨inner, hreads⟩ := expression_reads hinner
      refine ⟨.group inner, ?_⟩
      simpa [Term.yield, Term.directives, TokenKind.lexeme] using
        (next?_reads hnext hkind).trans (hreads.trans (expect_reads hclose))
    · rename_i hkind
      obtain ⟨⟨v, hv⟩, hoperand, h⟩ := bind_ok h
      cases h
      obtain ⟨operand, hreads⟩ := term_reads hoperand
      exact ⟨.unary .negate operand,
        (next?_reads hnext hkind).trans (hreads.command (.operate .neg))⟩
    · rename_i hkind
      obtain ⟨⟨v, hv⟩, hoperand, h⟩ := bind_ok h
      cases h
      obtain ⟨operand, hreads⟩ := term_reads hoperand
      exact ⟨.unary .complement operand,
        (next?_reads hnext hkind).trans (hreads.command (.operate .not))⟩
    · rename_i hkind
      have hname := next?_reads hnext hkind
      split at h
      · obtain ⟨⟨v, hv⟩, hindex, h⟩ := bind_ok h
        cases h
        obtain ⟨index, hreads⟩ := index_reads hindex
        refine ⟨.element token.text index, ?_⟩
        simpa [Term.yield, Term.directives, TokenKind.lexeme, Directive.unplaced] using
          (hname.emit (.load token)).trans
            ((hreads.command (.pop .pointer 1)).command (.push .that 0))
      · obtain ⟨⟨v, hv⟩, hcall, h⟩ := bind_ok h
        cases h
        obtain ⟨call, hreads⟩ := call_reads hname hcall
        exact ⟨.call call, hreads⟩
      · obtain ⟨⟨v, hv⟩, hcall, h⟩ := bind_ok h
        cases h
        obtain ⟨call, hreads⟩ := call_reads hname hcall
        exact ⟨.call call, hreads⟩
      · cases h
        exact ⟨.variable_ token.text, hname.emit (.load token)⟩
    · cases h
termination_by 8 * s.left + 2
decreasing_by
  all_goals simp_wf
  all_goals omega

theorem index_reads {s t : Reading} {ht : t.left < s.left} (h : s.index = .ok ⟨t, ht⟩) :
    ∃ e : Expression, Reads s (.symbol .leftBracket :: (e.yield ++ [.symbol .rightBracket])) 0
      (e.directives ++ [.emit (.operate .add)]) t := by
  rw [index] at h
  obtain ⟨⟨token, u, hu⟩, hopen, h⟩ := bind_ok h
  obtain ⟨⟨v, hv⟩, hinner, h⟩ := bind_ok h
  obtain ⟨⟨token', w, hw⟩, hclose, h⟩ := bind_ok h
  cases h
  obtain ⟨e, hreads⟩ := expression_reads hinner
  refine ⟨e, ?_⟩
  simpa [TokenKind.lexeme] using (expect_reads hopen).trans
    (hreads.trans ((expect_reads hclose).command (.operate .add)))
termination_by 8 * s.left + 2
decreasing_by all_goals omega

/-- A call is read after its first name, which was taken before `s`. -/
theorem call_reads {r s t : Reading} {ht : t.left < s.left} {name : Token}
    (hname : Reads r [.identifier name.text] 0 [] s) (h : s.call name = .ok ⟨t, ht⟩) :
    ∃ call : Call, Reads r call.yield 0 call.directives t := by
  rw [call] at h
  split at h
  · rename_i dot u hu hdot
    obtain ⟨⟨member, v, hv⟩, hmember, h⟩ := bind_ok h
    obtain ⟨⟨count, w, hw⟩, harguments, h⟩ := bind_ok h
    cases h
    obtain ⟨list, rfl, hreads⟩ := arguments_reads harguments
    refine ⟨.member name.text member.text list, ?_⟩
    simpa [Call.yield, Call.directives, TokenKind.lexeme, Directive.unplaced] using
      hname.trans ((accept?_reads hdot).trans (((expect_reads hmember).emit (.receiver name)).trans
        (hreads.emit (.invoke name member.text list.count))))
  · obtain ⟨⟨count, u, hu⟩, harguments, h⟩ := bind_ok h
    cases h
    obtain ⟨list, rfl, hreads⟩ := arguments_reads harguments
    refine ⟨.own name.text list, ?_⟩
    simpa [Call.yield, Call.directives, Directive.unplaced] using
      (hname.command (.push .pointer 0)).trans (hreads.emit (.invokeOwn name list.count))
termination_by 8 * s.left + 3
decreasing_by
  all_goals simp_wf
  all_goals omega

theorem arguments_reads {s t : Reading} {ht : t.left < s.left} {count : Nat}
    (h : s.arguments = .ok (count, ⟨t, ht⟩)) :
    ∃ list : Arguments, list.count = count ∧
      Reads s (.symbol .leftParen :: (list.yield ++ [.symbol .rightParen])) 0 list.directives
        t := by
  rw [arguments] at h
  obtain ⟨⟨token, u, hu⟩, hopen, h⟩ := bind_ok h
  dsimp only at h
  split at h
  · obtain ⟨⟨token', v, hv⟩, hclose, h⟩ := bind_ok h
    cases h
    exact ⟨.nil, rfl, (expect_reads hopen).trans (expect_reads hclose)⟩
  · obtain ⟨⟨v, hv⟩, hfirst, h⟩ := bind_ok h
    obtain ⟨⟨count', w, hw⟩, hmore, h⟩ := bind_ok h
    obtain ⟨⟨token', x, hx⟩, hclose, h⟩ := bind_ok h
    cases h
    obtain ⟨first, hfirst⟩ := expression_reads hfirst
    obtain ⟨rest, rfl, hrest⟩ := moreArguments_reads hmore
    refine ⟨.cons first rest, Nat.add_comm _ _, ?_⟩
    simpa [Arguments.yield, Arguments.directives, TokenKind.lexeme] using (expect_reads hopen).trans
      (hfirst.trans (hrest.trans (expect_reads hclose)))
termination_by 8 * s.left + 2
decreasing_by all_goals omega

theorem moreArguments_reads {n : Nat} {s t : Reading} {hs : s.left < n} {ht : t.left < n}
    {before count : Nat} (h : s.moreArguments before hs = .ok (count, ⟨t, ht⟩)) :
    ∃ list : Arguments, before + list.count = count ∧
      Reads s list.further 0 list.directives t := by
  rw [moreArguments] at h
  split at h
  · rename_i comma u hu hcomma
    split at h
    · cases h
    · obtain ⟨⟨v, hv⟩, hfirst, h⟩ := bind_ok h
      obtain ⟨first, hfirst⟩ := expression_reads hfirst
      obtain ⟨rest, rfl, hrest⟩ := moreArguments_reads h
      refine ⟨.cons first rest, ?_, ?_⟩
      · simp only [Arguments.count]
        omega
      · simpa [Arguments.further, Arguments.directives, TokenKind.lexeme] using
          (accept?_reads hcomma).trans (hfirst.trans hrest)
  · cases h
    exact ⟨.nil, rfl, Reads.refl s⟩
termination_by 8 * s.left
decreasing_by
  all_goals simp_wf
  all_goals omega

end

/-! ### Statements

The rule for a statement starts after its first keyword, which was taken between `r` and `s`. -/

theorem assignment_reads {r s t : Reading} {ht : t.left < s.left} (k : Nat)
    (hlet : Reads r [.keyword .let_] 0 [] s) (h : s.assignment = .ok ⟨t, ht⟩) :
    ∃ x : Statement, Reads r x.yield x.branches (x.directives k) t := by
  unfold assignment at h
  obtain ⟨⟨name, u, hu⟩, hname, h⟩ := bind_ok h
  have hrequire := hlet.trans ((expect_reads hname).emit (.require name))
  dsimp only at h hrequire
  split at h
  · obtain ⟨⟨v, hv⟩, hindex, h⟩ := bind_ok h
    obtain ⟨⟨token, w, hw⟩, hequal, h⟩ := bind_ok h
    obtain ⟨⟨x, hx⟩, hvalue, h⟩ := bind_ok h
    obtain ⟨⟨token', y, hy⟩, hend, h⟩ := bind_ok h
    cases h
    obtain ⟨index, hindex⟩ := index_reads hindex
    obtain ⟨value, hvalue⟩ := expression_reads hvalue
    have hstore := ((((expect_reads hend).command (.pop .temp 0)).command (.pop .pointer 1)).command
      (.push .temp 0)).command (.pop .that 0)
    refine ⟨.assignElement name.text index value, ?_⟩
    simpa [Statement.yield, Statement.branches, Statement.directives, TokenKind.lexeme,
      Directive.unplaced] using (hrequire.emit (.load name)).trans
        (hindex.trans ((expect_reads hequal).trans (hvalue.trans hstore)))
  · obtain ⟨⟨token, v, hv⟩, hequal, h⟩ := bind_ok h
    obtain ⟨⟨w, hw⟩, hvalue, h⟩ := bind_ok h
    obtain ⟨⟨token', x, hx⟩, hend, h⟩ := bind_ok h
    cases h
    obtain ⟨value, hvalue⟩ := expression_reads hvalue
    refine ⟨.assign name.text value, ?_⟩
    simpa [Statement.yield, Statement.branches, Statement.directives, TokenKind.lexeme,
      Directive.unplaced] using hrequire.trans ((expect_reads hequal).trans
        (hvalue.trans ((expect_reads hend).emit (.store name))))

theorem invocation_reads {r s t : Reading} {ht : t.left < s.left} (k : Nat)
    (hdo : Reads r [.keyword .do_] 0 [] s) (h : s.invocation = .ok ⟨t, ht⟩) :
    ∃ x : Statement, Reads r x.yield x.branches (x.directives k) t := by
  unfold invocation at h
  obtain ⟨⟨name, u, hu⟩, hname, h⟩ := bind_ok h
  obtain ⟨⟨v, hv⟩, hcall, h⟩ := bind_ok h
  obtain ⟨⟨token, w, hw⟩, hend, h⟩ := bind_ok h
  cases h
  obtain ⟨call, hcall⟩ := call_reads (expect_reads hname) hcall
  exact ⟨.invoke call, hdo.trans (hcall.trans ((expect_reads hend).command (.pop .temp 0)))⟩

theorem returning_reads {r s t : Reading} {ht : t.left < s.left} (k : Nat)
    (hreturn : Reads r [.keyword .return_] 0 [] s) (h : s.returning = .ok ⟨t, ht⟩) :
    ∃ x : Statement, Reads r x.yield x.branches (x.directives k) t := by
  unfold returning at h
  split at h
  · obtain ⟨⟨token, u, hu⟩, hend, h⟩ := bind_ok h
    cases h
    exact ⟨.returnNothing,
      (hreturn.command (.push .constant 0)).trans ((expect_reads hend).command .ret)⟩
  · obtain ⟨⟨u, hu⟩, hvalue, h⟩ := bind_ok h
    obtain ⟨⟨token, v, hv⟩, hend, h⟩ := bind_ok h
    cases h
    obtain ⟨value, hvalue⟩ := expression_reads hvalue
    exact ⟨.returnValue value, hreturn.trans (hvalue.trans ((expect_reads hend).command .ret))⟩

theorem condition_reads {s t : Reading} {ht : t.left < s.left} {otherwise : String}
    (h : s.condition otherwise = .ok ⟨t, ht⟩) :
    ∃ e : Expression, Reads s (.symbol .leftParen :: (e.yield ++ [.symbol .rightParen])) 0
      (e.directives ++ [.emit (.operate .not), .emit (.ifGoto otherwise)]) t := by
  unfold condition at h
  obtain ⟨⟨token, u, hu⟩, hopen, h⟩ := bind_ok h
  obtain ⟨⟨v, hv⟩, hinner, h⟩ := bind_ok h
  obtain ⟨⟨token', w, hw⟩, hclose, h⟩ := bind_ok h
  cases h
  obtain ⟨e, hreads⟩ := expression_reads hinner
  refine ⟨e, ?_⟩
  simpa [TokenKind.lexeme] using (expect_reads hopen).trans (hreads.trans
    (((expect_reads hclose).command (.operate .not)).command (.ifGoto otherwise)))

mutual

theorem statements_reads {n : Nat} {s t : Reading} {hs : s.left < n} {ht : t.left < n} {k : Nat}
    (hk : s.labels = 2 * k) (h : s.statements hs = .ok ⟨t, ht⟩) :
    ∃ x : Statements, Reads s x.yield x.branches (x.directives k) t := by
  rw [statements] at h
  split at h
  · cases h
    exact ⟨.nil, Reads.refl s⟩
  · rename_i token u hu hnext
    have hlabels : u.labels = 2 * k := (next?_reads hnext rfl).labels.trans hk
    split at h
    · rename_i hkind
      obtain ⟨⟨v, hv⟩, hfirst, h⟩ := bind_ok h
      obtain ⟨first, hfirst⟩ := assignment_reads k (next?_reads hnext hkind) hfirst
      obtain ⟨rest, hrest⟩ := statements_reads (hfirst.labels_eq hk) h
      exact ⟨.cons first rest, hfirst.trans hrest⟩
    · rename_i hkind
      obtain ⟨⟨v, hv⟩, hfirst, h⟩ := bind_ok h
      obtain ⟨first, hfirst⟩ := choice_reads hlabels (next?_reads hnext hkind) hfirst
      obtain ⟨rest, hrest⟩ := statements_reads (hfirst.labels_eq hk) h
      exact ⟨.cons first rest, hfirst.trans hrest⟩
    · rename_i hkind
      obtain ⟨⟨v, hv⟩, hfirst, h⟩ := bind_ok h
      obtain ⟨first, hfirst⟩ := loop_reads hlabels (next?_reads hnext hkind) hfirst
      obtain ⟨rest, hrest⟩ := statements_reads (hfirst.labels_eq hk) h
      exact ⟨.cons first rest, hfirst.trans hrest⟩
    · rename_i hkind
      obtain ⟨⟨v, hv⟩, hfirst, h⟩ := bind_ok h
      obtain ⟨first, hfirst⟩ := invocation_reads k (next?_reads hnext hkind) hfirst
      obtain ⟨rest, hrest⟩ := statements_reads (hfirst.labels_eq hk) h
      exact ⟨.cons first rest, hfirst.trans hrest⟩
    · rename_i hkind
      obtain ⟨⟨v, hv⟩, hfirst, h⟩ := bind_ok h
      obtain ⟨first, hfirst⟩ := returning_reads k (next?_reads hnext hkind) hfirst
      obtain ⟨rest, hrest⟩ := statements_reads (hfirst.labels_eq hk) h
      exact ⟨.cons first rest, hfirst.trans hrest⟩
    · cases h
      exact ⟨.nil, Reads.refl s⟩
termination_by 4 * s.left
decreasing_by
  all_goals simp_wf
  all_goals omega

theorem choice_reads {r s t : Reading} {ht : t.left < s.left} {k : Nat} (hk : s.labels = 2 * k)
    (hif : Reads r [.keyword .if_] 0 [] s) (h : s.choice = .ok ⟨t, ht⟩) :
    ∃ x : Statement, Reads r x.yield x.branches (x.directives k) t := by
  rw [choice] at h
  dsimp only at h
  obtain ⟨⟨u, hu⟩, hcondition, h⟩ := bind_ok h
  obtain ⟨⟨v, hv⟩, hbody, h⟩ := bind_ok h
  have hus : u.left < s.left := hu
  obtain ⟨condition, hcondition⟩ := condition_reads hcondition
  have hguard := (Reads.ofTakeLabels s).trans hcondition
  have hlabels : u.labels = 2 * (k + 1) := hguard.labels_eq hk
  obtain ⟨body, hbody⟩ := block_reads hlabels hbody
  have hthen :=
    (hbody.command (.goto (labelName (s.labels + 1)))).command (.label (labelName s.labels))
  dsimp only at h
  split at h
  · rename_i token w hw helse
    obtain ⟨⟨x, hx⟩, hotherwise, h⟩ := bind_ok h
    cases h
    have hws : w.left < s.left := Nat.lt_trans hw (Nat.lt_trans hv hus)
    have hwlabels : w.labels = 2 * (k + 1 + body.branches) :=
      (accept?_reads helse).labels.trans (hthen.labels_eq hlabels)
    obtain ⟨otherwise, hotherwise⟩ := block_reads hwlabels hotherwise
    refine ⟨.choiceElse condition body otherwise, ?_⟩
    have hall := (hif.trans hguard).trans (hthen.trans ((accept?_reads helse).trans
      (hotherwise.command (.label (labelName (s.labels + 1))))))
    simpa [Statement.yield, Statement.branches, Statement.directives, TokenKind.lexeme, hk,
      Nat.add_comm, Nat.add_left_comm] using hall
  · cases h
    refine ⟨.choice condition body, ?_⟩
    have hall := (hif.trans hguard).trans (hthen.command (.label (labelName (s.labels + 1))))
    simpa [Statement.yield, Statement.branches, Statement.directives, hk, Nat.add_comm] using hall
termination_by 4 * s.left + 2
decreasing_by
  all_goals simp_wf
  all_goals omega

theorem loop_reads {r s t : Reading} {ht : t.left < s.left} {k : Nat} (hk : s.labels = 2 * k)
    (hwhile : Reads r [.keyword .while_] 0 [] s) (h : s.loop = .ok ⟨t, ht⟩) :
    ∃ x : Statement, Reads r x.yield x.branches (x.directives k) t := by
  rw [loop] at h
  dsimp only at h
  obtain ⟨⟨u, hu⟩, hcondition, h⟩ := bind_ok h
  obtain ⟨⟨v, hv⟩, hbody, h⟩ := bind_ok h
  cases h
  have hus : u.left < s.left := hu
  obtain ⟨condition, hcondition⟩ := condition_reads hcondition
  have hguard := ((Reads.ofTakeLabels s).command (.label (labelName s.labels))).trans hcondition
  have hlabels : u.labels = 2 * (k + 1) := hguard.labels_eq hk
  obtain ⟨body, hbody⟩ := block_reads hlabels hbody
  refine ⟨.loop condition body, ?_⟩
  have hall := (hwhile.trans hguard).trans ((hbody.command (.goto (labelName s.labels))).command
    (.label (labelName (s.labels + 1))))
  simpa [Statement.yield, Statement.branches, Statement.directives, hk, Nat.add_comm] using hall
termination_by 4 * s.left + 2
decreasing_by
  all_goals simp_wf
  all_goals omega

theorem block_reads {s t : Reading} {ht : t.left < s.left} {k : Nat} (hk : s.labels = 2 * k)
    (h : s.block = .ok ⟨t, ht⟩) :
    ∃ x : Statements, Reads s (.symbol .leftBrace :: (x.yield ++ [.symbol .rightBrace]))
      x.branches (x.directives k) t := by
  rw [block] at h
  obtain ⟨⟨token, u, hu⟩, hopen, h⟩ := bind_ok h
  obtain ⟨⟨v, hv⟩, hbody, h⟩ := bind_ok h
  obtain ⟨⟨token', w, hw⟩, hclose, h⟩ := bind_ok h
  cases h
  have hlabels : u.labels = 2 * k := (expect_reads hopen).labels.trans hk
  obtain ⟨body, hbody⟩ := statements_reads hlabels hbody
  refine ⟨body, ?_⟩
  simpa [TokenKind.lexeme] using
    (expect_reads hopen).trans (hbody.trans (expect_reads hclose))
termination_by 4 * s.left + 1
decreasing_by
  all_goals simp_wf
  all_goals omega

end

/-! ### Declarations

The type of a variable is kept as it is spelled, so from here on the tokens must be spelled as
scanning leaves them. -/

/-- All tokens to come are spelled as scanning leaves them. -/
def Spelled (s : Reading) : Prop :=
  ∀ token ∈ s.input.tokens, token.Spelled

theorem Reads.spelled {s t : Reading} {x : List Lexeme} {i : Nat} {c : List Directive}
    (h : Reads s x i c t) (hs : s.Spelled) : t.Spelled :=
  h.forall_tokens hs

theorem keyword_text {s : Reading} {taken : Taken s.left} {word : Keyword} (hs : s.Spelled)
    (h : s.next? = some taken) (hkind : taken.token.kind = .keyword word) :
    taken.token.text = word.text := by
  have hmem : taken.token ∈ s.input.tokens := by
    rw [(next?_eq h).2.1]
    exact List.mem_cons_self
  exact (hs _ hmem).text_of_keyword hkind

theorem type_reads {s : Reading} {taken : Taken s.left} (hs : s.Spelled)
    (h : s.type = .ok taken) :
    ∃ type : TypeName, taken.token.text = type.text ∧ Reads s [type.lexeme] 0 [] taken.next := by
  unfold type at h
  split at h
  · cases h
  · rename_i found hnext
    split at h
    · rename_i hkind
      cases h
      exact ⟨.int_, keyword_text hs hnext hkind, next?_reads hnext hkind⟩
    · rename_i hkind
      cases h
      exact ⟨.char_, keyword_text hs hnext hkind, next?_reads hnext hkind⟩
    · rename_i hkind
      cases h
      exact ⟨.boolean_, keyword_text hs hnext hkind, next?_reads hnext hkind⟩
    · rename_i hkind
      cases h
      exact ⟨.class_ taken.token.text, rfl, next?_reads hnext hkind⟩
    · cases h

theorem returnType_reads {s : Reading} {taken : Taken s.left} (h : s.returnType = .ok taken) :
    ∃ type : Option TypeName, Reads s [returnLexeme type] 0 [] taken.next := by
  unfold returnType at h
  split at h
  · cases h
  · rename_i found hnext
    split at h
    · rename_i hkind
      cases h
      exact ⟨some .int_, next?_reads hnext hkind⟩
    · rename_i hkind
      cases h
      exact ⟨some .char_, next?_reads hnext hkind⟩
    · rename_i hkind
      cases h
      exact ⟨some .boolean_, next?_reads hnext hkind⟩
    · rename_i hkind
      cases h
      exact ⟨none, next?_reads hnext hkind⟩
    · rename_i hkind
      cases h
      exact ⟨some (.class_ taken.token.text), next?_reads hnext hkind⟩
    · cases h

theorem names_reads {n : Nat} {s t : Reading} {hs : s.left < n} {ht : t.left < n}
    {kind : VariableKind} {type : String} (h : s.names kind type hs = .ok ⟨t, ht⟩) :
    ∃ (first : String) (others : List String),
      Reads s (.identifier first :: furtherNames others) 0
        ((first :: others).map fun name => .declare kind type (.unplaced name)) t := by
  rw [names] at h
  obtain ⟨⟨name, u, hu⟩, hname, h⟩ := bind_ok h
  have hdeclare := (expect_reads hname).emit (.declare kind type name)
  dsimp only at h
  split at h
  · rename_i comma v hv hcomma
    have hvs : v.left < s.left := Nat.lt_trans hv hu
    obtain ⟨second, others, hrest⟩ := names_reads h
    exact ⟨name.text, second :: others, hdeclare.trans ((accept?_reads hcomma).trans hrest)⟩
  · cases h
    exact ⟨name.text, [], hdeclare⟩
termination_by s.left
decreasing_by all_goals omega

theorem declaration_reads {s t : Reading} {ht : t.left < s.left} {kind : VariableKind}
    (hs : s.Spelled) (h : s.declaration kind = .ok ⟨t, ht⟩) :
    ∃ x : Variables, Reads s x.yield 0 (x.directives kind) t := by
  unfold declaration at h
  obtain ⟨⟨token, u, hu⟩, htype, h⟩ := bind_ok h
  obtain ⟨⟨v, hv⟩, hnames, h⟩ := bind_ok h
  obtain ⟨⟨token', w, hw⟩, hend, h⟩ := bind_ok h
  cases h
  obtain ⟨type, htext, htype⟩ := type_reads hs htype
  obtain ⟨first, others, hnames⟩ := names_reads hnames
  rw [show token.text = type.text from htext] at hnames
  refine ⟨⟨type, first, others⟩, ?_⟩
  have hall := htype.trans (hnames.trans (expect_reads hend))
  simpa [Variables.yield, Variables.directives, Variables.names, TokenKind.lexeme] using hall

theorem classVariables_reads {n : Nat} {s t : Reading} {hs : s.left < n} {ht : t.left < n}
    (hspelled : s.Spelled) (h : s.classVariables hs = .ok ⟨t, ht⟩) :
    ∃ list : List ClassVariables, Reads s (list.flatMap ClassVariables.yield) 0
      (list.flatMap ClassVariables.directives) t := by
  rw [classVariables] at h
  split at h
  · cases h
    exact ⟨[], Reads.refl s⟩
  · rename_i token u hu hnext
    split at h
    · rename_i hkind
      obtain ⟨⟨v, hv⟩, hfirst, h⟩ := bind_ok h
      have hstatic := next?_reads hnext hkind
      obtain ⟨line, hfirst⟩ := declaration_reads (hstatic.spelled hspelled) hfirst
      obtain ⟨rest, hrest⟩ := classVariables_reads ((hstatic.trans hfirst).spelled hspelled) h
      exact ⟨⟨line, .static⟩ :: rest, (hstatic.trans hfirst).trans hrest⟩
    · rename_i hkind
      obtain ⟨⟨v, hv⟩, hfirst, h⟩ := bind_ok h
      have hfield := next?_reads hnext hkind
      obtain ⟨line, hfirst⟩ := declaration_reads (hfield.spelled hspelled) hfirst
      obtain ⟨rest, hrest⟩ := classVariables_reads ((hfield.trans hfirst).spelled hspelled) h
      exact ⟨⟨line, .field⟩ :: rest, (hfield.trans hfirst).trans hrest⟩
    · cases h
      exact ⟨[], Reads.refl s⟩
termination_by s.left
decreasing_by all_goals omega

theorem localVariables_reads {n : Nat} {s t : Reading} {hs : s.left < n} {ht : t.left < n}
    (hspelled : s.Spelled) (h : s.localVariables hs = .ok ⟨t, ht⟩) :
    ∃ list : List Variables, Reads s (localsYield list) 0
      (list.flatMap (Variables.directives .local_)) t := by
  rw [localVariables] at h
  split at h
  · rename_i token u hu hvar
    obtain ⟨⟨v, hv⟩, hfirst, h⟩ := bind_ok h
    have hvar := accept?_reads hvar
    obtain ⟨line, hfirst⟩ := declaration_reads (hvar.spelled hspelled) hfirst
    obtain ⟨rest, hrest⟩ := localVariables_reads ((hvar.trans hfirst).spelled hspelled) h
    exact ⟨line :: rest, (hvar.trans hfirst).trans hrest⟩
  · cases h
    exact ⟨[], Reads.refl s⟩
termination_by s.left
decreasing_by all_goals omega

theorem moreParameters_reads {n : Nat} {s t : Reading} {hs : s.left < n} {ht : t.left < n}
    (hspelled : s.Spelled) (h : s.moreParameters hs = .ok ⟨t, ht⟩) :
    ∃ (first : Parameter) (rest : List Parameter),
      Reads s (parametersYield (first :: rest)) 0 ((first :: rest).map Parameter.directive) t := by
  rw [moreParameters] at h
  obtain ⟨⟨token, u, hu⟩, htype, h⟩ := bind_ok h
  obtain ⟨⟨name, v, hv⟩, hname, h⟩ := bind_ok h
  obtain ⟨type, htext, htype⟩ := type_reads hspelled htype
  have hdeclare := htype.trans ((expect_reads hname).emit (.declare .argument token.text name))
  rw [show token.text = type.text from htext] at hdeclare
  dsimp only at h
  split at h
  · rename_i comma w hw hcomma
    have hws : w.left < s.left := Nat.lt_trans hw (Nat.lt_trans hv hu)
    rw [show token.text = type.text from htext] at hcomma
    have hcomma := hdeclare.trans (accept?_reads hcomma)
    obtain ⟨second, rest, hrest⟩ := moreParameters_reads (hcomma.spelled hspelled) h
    exact ⟨⟨type, name.text⟩, second :: rest, hcomma.trans hrest⟩
  · cases h
    rw [show token.text = type.text from htext]
    exact ⟨⟨type, name.text⟩, [], hdeclare⟩
termination_by s.left
decreasing_by all_goals omega

theorem parameters_reads {s t : Reading} {ht : t.left < s.left} (hspelled : s.Spelled)
    (h : s.parameters = .ok ⟨t, ht⟩) :
    ∃ list : List Parameter,
      Reads s (.symbol .leftParen :: (parametersYield list ++ [.symbol .rightParen])) 0
        (list.map Parameter.directive) t := by
  unfold parameters at h
  obtain ⟨⟨token, u, hu⟩, hopen, h⟩ := bind_ok h
  dsimp only at h
  split at h
  · obtain ⟨⟨v, hv⟩, hempty, h⟩ := bind_ok h
    obtain ⟨⟨token', w, hw⟩, hclose, h⟩ := bind_ok h
    cases hempty
    cases h
    exact ⟨[], (expect_reads hopen).trans (expect_reads hclose)⟩
  · obtain ⟨⟨v, hv⟩, hlist, h⟩ := bind_ok h
    obtain ⟨⟨token', w, hw⟩, hclose, h⟩ := bind_ok h
    cases h
    obtain ⟨first, rest, hlist⟩ :=
      moreParameters_reads ((expect_reads hopen).spelled hspelled) hlist
    refine ⟨first :: rest, ?_⟩
    have hall := (expect_reads hopen).trans (hlist.trans (expect_reads hclose))
    simpa [TokenKind.lexeme] using hall

/-! ### Subroutines and classes -/

theorem body_reads {s t : Reading} {ht : t.left < s.left} {kind : SubroutineKind} {name : String}
    {k : Nat} (hspelled : s.Spelled) (hk : s.labels = 2 * k) (h : s.body kind name = .ok ⟨t, ht⟩) :
    ∃ (locals : List Variables) (statements : Statements),
      Reads s (.symbol .leftBrace :: (localsYield locals ++
          (statements.yield ++ [.symbol .rightBrace]))) statements.branches
        (locals.flatMap (Variables.directives .local_) ++
          .openBody kind name :: statements.directives k) t := by
  unfold body at h
  obtain ⟨⟨token, u, hu⟩, hopen, h⟩ := bind_ok h
  obtain ⟨⟨v, hv⟩, hlocals, h⟩ := bind_ok h
  obtain ⟨⟨w, hw⟩, hstatements, h⟩ := bind_ok h
  obtain ⟨⟨token', x, hx⟩, hclose, h⟩ := bind_ok h
  cases h
  obtain ⟨locals, hlocals⟩ :=
    localVariables_reads ((expect_reads hopen).spelled hspelled) hlocals
  have hbefore := ((expect_reads hopen).trans hlocals).emit (.openBody kind name)
  obtain ⟨statements, hstatements⟩ := statements_reads (hbefore.labels_eq hk) hstatements
  refine ⟨locals, statements, ?_⟩
  simpa [TokenKind.lexeme, Directive.unplaced] using
    hbefore.trans (hstatements.trans (expect_reads hclose))

theorem subroutine_reads {r s t : Reading} {ht : t.left < s.left} {kind : SubroutineKind}
    {keyword : Token} {k : Nat} (hspelled : s.Spelled) (hk : s.labels = 2 * k)
    (hkeyword : Reads r [.keyword (subroutineKeyword kind)] 0 [] s)
    (h : s.subroutine kind keyword = .ok ⟨t, ht⟩) :
    ∃ x : Subroutine, Reads r x.yield x.body.branches (x.directives k) t := by
  unfold subroutine at h
  obtain ⟨⟨token, u, hu⟩, htype, h⟩ := bind_ok h
  obtain ⟨⟨name, v, hv⟩, hname, h⟩ := bind_ok h
  obtain ⟨⟨w, hw⟩, hparameters, h⟩ := bind_ok h
  obtain ⟨⟨x, hx⟩, hbody, h⟩ := bind_ok h
  cases h
  obtain ⟨type, htype⟩ := returnType_reads htype
  have hheader := (Reads.ofEmit s (.openSubroutine kind keyword)).trans
    (htype.trans ((expect_reads hname).emit (.nameSubroutine kind name.text)))
  obtain ⟨parameters, hparameters⟩ := parameters_reads (hheader.spelled hspelled) hparameters
  have hbefore := hheader.trans hparameters
  obtain ⟨locals, statements, hbody⟩ :=
    body_reads (hbefore.spelled hspelled) (hbefore.labels_eq hk) hbody
  refine ⟨⟨kind, type, name.text, parameters, locals, statements⟩, ?_⟩
  simpa [Subroutine.yield, Subroutine.directives, TokenKind.lexeme, Directive.unplaced] using
    hkeyword.trans (hbefore.trans hbody)

theorem subroutines_reads {n : Nat} {s t : Reading} {hs : s.left < n} {ht : t.left < n} {k : Nat}
    (hspelled : s.Spelled) (hk : s.labels = 2 * k) (h : s.subroutines hs = .ok ⟨t, ht⟩) :
    ∃ list : List Subroutine, Reads s (list.flatMap Subroutine.yield) (subroutineBranches list)
      (subroutineDirectives k list) t := by
  rw [subroutines] at h
  split at h
  · cases h
    exact ⟨[], Reads.refl s⟩
  · rename_i token u hu hnext
    split at h
    · rename_i hkind
      obtain ⟨⟨v, hv⟩, hfirst, h⟩ := bind_ok h
      have hkeyword := next?_reads hnext hkind
      obtain ⟨first, hfirst⟩ := subroutine_reads
        (hkeyword.spelled hspelled) (hkeyword.labels_eq hk) hkeyword hfirst
      obtain ⟨rest, hrest⟩ := subroutines_reads (hfirst.spelled hspelled) (hfirst.labels_eq hk) h
      exact ⟨first :: rest, hfirst.trans hrest⟩
    · rename_i hkind
      obtain ⟨⟨v, hv⟩, hfirst, h⟩ := bind_ok h
      have hkeyword := next?_reads hnext hkind
      obtain ⟨first, hfirst⟩ := subroutine_reads
        (hkeyword.spelled hspelled) (hkeyword.labels_eq hk) hkeyword hfirst
      obtain ⟨rest, hrest⟩ := subroutines_reads (hfirst.spelled hspelled) (hfirst.labels_eq hk) h
      exact ⟨first :: rest, hfirst.trans hrest⟩
    · rename_i hkind
      obtain ⟨⟨v, hv⟩, hfirst, h⟩ := bind_ok h
      have hkeyword := next?_reads hnext hkind
      obtain ⟨first, hfirst⟩ := subroutine_reads
        (hkeyword.spelled hspelled) (hkeyword.labels_eq hk) hkeyword hfirst
      obtain ⟨rest, hrest⟩ := subroutines_reads (hfirst.spelled hspelled) (hfirst.labels_eq hk) h
      exact ⟨first :: rest, hfirst.trans hrest⟩
    · cases h
      exact ⟨[], Reads.refl s⟩
termination_by s.left
decreasing_by all_goals omega

theorem wholeClass_reads {s t : Reading} (hspelled : s.Spelled) (hlabels : s.labels = 0)
    (h : s.wholeClass = .ok t) :
    t.kind = .endOfFile ∧
      ∃ x : Tree.Class, Reads s x.yield (subroutineBranches x.subroutines) x.directives t := by
  unfold wholeClass at h
  obtain ⟨⟨token, u, hu⟩, hclass, h⟩ := bind_ok h
  obtain ⟨⟨name, v, hv⟩, hname, h⟩ := bind_ok h
  obtain ⟨⟨token', w, hw⟩, hopen, h⟩ := bind_ok h
  obtain ⟨⟨x, hx⟩, hvariables, h⟩ := bind_ok h
  obtain ⟨⟨y, hy⟩, hsubroutines, h⟩ := bind_ok h
  obtain ⟨⟨token'', z, hz⟩, hclose, h⟩ := bind_ok h
  dsimp only at h
  split at h
  · cases h
    refine ⟨‹_›, ?_⟩
    have hheader := (expect_reads hclass).trans
      (((expect_reads hname).emit (.openClass name.text)).trans (expect_reads hopen))
    obtain ⟨lines, hvariables⟩ := classVariables_reads (hheader.spelled hspelled) hvariables
    have hbefore := hheader.trans hvariables
    obtain ⟨subroutines, hsubroutines⟩ := subroutines_reads (k := 0)
      (hbefore.spelled hspelled) (hbefore.labels_eq (k := 0) hlabels) hsubroutines
    refine ⟨⟨name.text, lines, subroutines⟩, ?_⟩
    simpa [Tree.Class.yield, Tree.Class.directives, TokenKind.lexeme, Directive.unplaced] using
      hbefore.trans (hsubroutines.trans (expect_reads hclose))
  · cases h

end JackCompiler.Reading
