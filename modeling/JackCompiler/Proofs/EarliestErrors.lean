import JackCompiler.Proofs.AgendaReading
import JackCompiler.Proofs.AgendaTrees
import JackCompiler.Proofs.Completion

/-!
Errors are reported at the earliest token possible. What stands before a token that is refused as
unexpected can still become a class, and with the token it cannot; what stands up to an undefined
name can become a class too, and every name before it that has to be known is declared.
-/

namespace JackCompiler

open Agenda

namespace Agenda

/-- All that a class has to hold is in an order in which it can be met. -/
theorem closed_ofReading (s : Reading) : Closed (ofReading s).goals := by
  simp [ofReading, Closed, Goal.Precedes]

theorem Reaches.finished_unique {limit : Option Nat} {a b c : Agenda} (h : Reaches limit a b)
    (k : Reaches limit a c) (hb : Finished b) (hc : Finished c) : b = c :=
  h.unique k (fun _ => hb.not_step) (fun _ => hc.not_step)

/-- Tokens of the kinds of a tree are not refused. -/
theorem not_fails_of_tree {s : Reading} {stop : Reading.Stop} (tree : Tree.Class)
    (hended : s.Ended) (hkinds : s.input.tokens.map Token.kind = tree.yield.map Lexeme.kind) :
    ¬Fails none (ofReading s) stop := by
  intro hfails
  obtain ⟨last, -, hreaches, hfinished, -⟩ := tree_reaches tree hended hkinds
  exact hfails.not_finished hreaches hfinished

end Agenda

theorem kinds_of_yield {tree : Tree.Class} {tokens : List Token}
    (h : tree.yield = tokens.map Token.lexeme) :
    tree.yield.map Lexeme.kind = tokens.map Token.kind := by
  rw [h, List.map_map]
  exact List.map_congr_left fun token _ => token.kind_lexeme

/-- What a list with an end in its last place has after the first of its parts. -/
theorem split_prefix {α : Type} {x y : List α} {next last : α}
    (h : x ++ [next] <+: y ++ [last]) : ∃ w, y = x ++ w ∧ w.headD last = next := by
  obtain ⟨later, hlater⟩ := h
  rw [List.append_assoc] at hlater
  rcases List.append_eq_append_iff.1 hlater with ⟨w, rfl, hw⟩ | ⟨w, rfl, hw⟩
  · refine ⟨w, rfl, ?_⟩
    cases w <;> simp_all
  · refine ⟨[], ?_, ?_⟩ <;> cases w <;> simp_all

/-- In a class that starts with the tokens up to number `i`, that token is the first in the place of
a value whose name is not declared. -/
structure FirstUndefined (tokens : List Token) (tree : Tree.Class) (i : Nat) (name : String) :
    Prop where
  starts : (tokens.take (i + 1)).map Token.lexeme <+: tree.yield
  undeclared : ∃ owner ∈ tree.subroutines,
    tree.places[i]? = some (.identifier name, some owner) ∧ ¬owner.Declares tree name
  declared : ∀ j other owner, j < i → tree.places[j]? = some (.identifier other, some owner) →
    owner.Declares tree other

namespace Reader

/-- Tokens that scanning can find before the end of the text. -/
def Proper (reader : Reader) : Prop :=
  reader.last.kind = .endOfFile ∧
    ∀ token ∈ reader.tokens, token.kind ≠ .endOfFile ∧ token.Spelled

/-- Of tokens that are read to the end, the directives stop for the first undefined name. -/
theorem resolves_of_directives {reader : Reader} {directives : List Directive}
    (hproper : reader.Proper) (h : reader.directives = (directives, none)) :
    ∃ (tree : Tree.Class) (d : Context), tree.yield = reader.tokens.map Token.lexeme ∧
      Generator.Resolves tree {} (reader.tokens.zip (tree.places.map Prod.snd)) directives d := by
  obtain ⟨hlast, hspelled⟩ := hproper
  obtain ⟨tree, hyield, -⟩ := tree_of_directives hspelled h
  let s : Reading := { input := reader }
  have hended : s.Ended := hlast
  obtain ⟨last, added, hreaches, hfinished, hcode, hresolves⟩ :=
    tree_reaches tree hended (kinds_of_yield hyield).symm
  obtain ⟨d, hresolves⟩ := hresolves hyield.symm fun token hmem => (hspelled token hmem).2
  unfold Reader.directives at h
  split at h
  · rename_i t hclass
    cases h
    obtain ⟨hwork, hkind⟩ := Answers.wholeClass_ok hended hclass
    obtain rfl := hwork.unlimited.finished_unique hreaches ⟨rfl, hkind⟩ hfinished
    refine ⟨tree, d, hyield, ?_⟩
    rw [show t.code = added.reverse ++ [] from hcode, List.append_nil, List.reverse_reverse]
    exact hresolves
  · cases h

/-- The directives of a text begin those of a text that is read to the end: of itself, or of the
tokens before the refused one and others, whose places are made up. No tree has the kinds up to the
refused token, unless it is refused for the number of arguments. -/
theorem completes {reader : Reader} {directives : List Directive} {refusal : Option Refusal}
    (hproper : reader.Proper) (h : reader.directives = (directives, refusal)) :
    ∃ x back, reader.tokens = x ++ back ∧
      (∀ place, ∃ z more, (∀ token ∈ z, token.span = ⟨place, 0⟩) ∧
        Proper { reader with tokens := x ++ z } ∧
        Reader.directives { reader with tokens := x ++ z } = (directives ++ more, none)) ∧
      ∀ found, refusal = some found → found.fault = .tooManyArguments ∨
        found.token = back.headD reader.last ∧ ∀ tree : Tree.Class,
          ¬(x.map Token.kind ++ [found.token.kind]) <+:
            tree.yield.map Lexeme.kind ++ [.endOfFile] := by
  obtain ⟨hlast, hspelled⟩ := hproper
  let s : Reading := { input := reader }
  have hended : s.Ended := hlast
  unfold Reader.directives at h
  split at h
  · rename_i t hclass
    cases h
    refine ⟨reader.tokens, [], (List.append_nil _).symm, fun place => ⟨[], [], ?_, ?_, ?_⟩,
      fun found hfound => ?_⟩
    · exact List.forall_mem_nil _
    · rw [List.append_nil]
      exact ⟨hlast, hspelled⟩
    · rw [List.append_nil, List.append_nil, Reader.directives, hclass]
    · cases hfound
  · rename_i stop hclass
    cases h
    have hfails := Answers.wholeClass_error hended hclass
    obtain ⟨x, back, htokens, hcompletion, hrejection⟩ :=
      hfails.place (closed_ofReading s) hended
    refine ⟨x, back, htokens, fun place => ?_, fun found hfound => ?_⟩
    · obtain ⟨z, last, hz, hreaches, hfinished, hcode⟩ := hcompletion place
      let whole : Reader := { reader with tokens := x ++ z }
      have hwhole : Proper whole := by
        refine ⟨hlast, List.forall_mem_append.2 ⟨fun token hmem => ?_, fun token hmem => ?_⟩⟩
        · exact hspelled token (htokens ▸ List.mem_append_left back hmem)
        · exact ⟨(hz token hmem).1, (hz token hmem).2.1⟩
      have hend : Reading.Ended { input := whole } := hlast
      cases hread : ({ input := whole } : Reading).wholeClass with
      | error other =>
        exact absurd hfinished ((Answers.wholeClass_error hend hread).not_finished hreaches)
      | ok t =>
        obtain ⟨hwork, hkind⟩ := Answers.wholeClass_ok hend hread
        obtain rfl := hwork.finished_unique hreaches ⟨rfl, hkind⟩ hfinished
        obtain ⟨more, hmore⟩ := hcode
        refine ⟨z, more.reverse, fun token hmem => (hz token hmem).2.2, hwhole, ?_⟩
        rw [Reader.directives, hread, ← List.reverse_append, hmore]
    · cases hfound
      rcases hrejection with hfull | ⟨htoken, hrejects⟩
      · exact .inl hfull
      · refine .inr ⟨htoken, fun tree hprefix => ?_⟩
        obtain ⟨w, hyield, hkind⟩ := split_prefix hprefix
        let y := w.map (Token.sample 0)
        have hy : y.map Token.kind = w := by
          rw [List.map_map]
          exact List.map_id w
        have hhead : (y.headD reader.last).kind = stop.refusal.token.kind := by
          rw [← hkind, ← hy]
          cases y with
          | nil => exact hlast
          | cons token rest => rfl
        obtain ⟨other, hother⟩ := hrejects y hhead
        refine not_fails_of_tree (s := s.withTokens (x ++ y)) tree hended ?_ hother
        rw [tokens_withTokens, List.map_append, hy, hyield]

/-- Of tokens that are read to the end, an undefined name is the first of those that have to be
known and are not declared. -/
theorem undefined_of_run {reader : Reader} {directives : List Directive} {g : Generator}
    {name : Token} (hproper : reader.Proper) (h : reader.directives = (directives, none))
    (hrun : ({} : Generator).run directives = .error (.undefinedName name, g)) :
    ∃ i tree, reader.tokens[i]? = some name ∧ name.lexeme = .identifier name.text ∧
      FirstUndefined reader.tokens tree i name.text := by
  obtain ⟨tree, d, hyield, hresolves⟩ := resolves_of_directives hproper h
  obtain ⟨before, owner, after, hsplit, hnone, hbefore⟩ :=
    hresolves.undefined Generator.knows_start hrun
  -- a name in the place of a value is spelled as an identifier, so it is not the hidden receiver
  have htoken : ∀ {k : Nat} {text : String} {owner : Tree.Subroutine},
      tree.places[k]? = some (.identifier text, some owner) → ∃ token,
        reader.tokens[k]? = some token ∧ token.lexeme = .identifier text ∧
        (reader.tokens.zip (tree.places.map Prod.snd))[k]? = some (token, some owner) ∧
        (((owner.context tree).lookup? text).isSome ↔ owner.Declares tree text) := by
    intro k text owner hplace
    have hlexeme : (reader.tokens.map Token.lexeme)[k]? = some (.identifier text) := by
      rw [← hyield, ← tree.places_fst, List.getElem?_map, hplace]
      rfl
    rw [List.getElem?_map] at hlexeme
    obtain ⟨token, hget, htext⟩ := Option.map_eq_some_iff.1 hlexeme
    refine ⟨token, hget, htext, ?_, owner.lookup_iff_declares tree ?_⟩
    · rw [List.getElem?_zip_eq_some, List.getElem?_map, hplace]
      exact ⟨hget, rfl⟩
    · rintro rfl
      have hspelled := (hproper.2 token (List.mem_of_getElem? hget)).2
      exact absurd (hspelled.not_keyword htext) (by decide +kernel)
  have hzip : (reader.tokens.zip (tree.places.map Prod.snd))[before.length]? =
      some (name, some owner) := by
    rw [hsplit, List.getElem?_append_right (Nat.le_refl _), Nat.sub_self]
    rfl
  obtain ⟨hname, howner⟩ := List.getElem?_zip_eq_some.1 hzip
  rw [List.getElem?_map] at howner
  obtain ⟨place, hplace, hplaceOwner⟩ := Option.map_eq_some_iff.1 howner
  rcases tree.values (List.mem_of_getElem? hplace) with hplain | ⟨other, hmem, text, rfl⟩
  · rw [hplain] at hplaceOwner
    cases hplaceOwner
  · cases hplaceOwner
    obtain ⟨token, hget, htext, -, hdeclares⟩ := htoken hplace
    obtain rfl : token = name := Option.some.inj (hget.symm.trans hname)
    obtain rfl : token.text = text := text_of_lexeme htext
    refine ⟨before.length, tree, hname, htext, ?_, ⟨_, hmem, hplace, ?_⟩, ?_⟩
    · rw [hyield]
      exact (List.take_prefix _ _).map _
    · rw [← hdeclares, hnone]
      exact Bool.false_ne_true
    · intro j text owner hj hvalue
      obtain ⟨earlier, -, hlexeme, hget, hknown⟩ := htoken hvalue
      rw [hsplit, List.getElem?_append_left hj] at hget
      have hknows := hbefore _ (List.mem_of_getElem? hget) owner rfl
      rw [text_of_lexeme hlexeme] at hknows
      exact hknown.1 hknows

end Reader

/-! ### The earliest errors -/

/-- The kinds can be the first of a text that is a class. -/
def Begins (kinds : List TokenKind) : Prop :=
  ∃ tree : Tree.Class, kinds <+: tree.yield.map Lexeme.kind ++ [.endOfFile]

namespace SyntaxFault

theorem head?_append {a : String} {c : Char} (h : a.toList.head? = some c) (b : String) :
    (a ++ b).toList.head? = some c := by
  rw [String.toList_append, List.head?_append, h]
  rfl

/-- The letter that the message of a fault starts with. -/
theorem head?_message (fault : SyntaxFault) :
    fault.message.toList.head? = some (match fault with
      | unexpected _ _ _ => 'e'
      | tooManyDeclarations _ | tooManyArguments => 'm'
      | callTooWide _ | unstorableCharacter _ => 'c'
      | stringTooLong => 's') := by
  have hexpected : "expected ".toList.head? = some 'e' := by decide +kernel
  have hmore : "more than ".toList.head? = some 'm' := by decide +kernel
  have hcall : "call to ".toList.head? = some 'c' := by decide +kernel
  have hcharacter : "character ".toList.head? = some 'c' := by decide +kernel
  have hstring : "string constant is longer than ".toList.head? = some 's' := by decide +kernel
  cases fault with
  | unexpected expected found text =>
    exact head?_append (head?_append (head?_append hexpected _) _) _
  | tooManyDeclarations kind =>
    exact head?_append (head?_append (head?_append (head?_append hmore _) _) _) _
  | tooManyArguments => exact head?_append (head?_append hmore _) _
  | callTooWide callee =>
    exact head?_append (head?_append (head?_append (head?_append hcall _) _) _) _
  | unstorableCharacter char => exact head?_append (head?_append hcharacter _) _
  | stringTooLong => exact head?_append (head?_append hstring _) _

/-- No other fault is worded as an unexpected token. -/
theorem unexpected_of_message {fault : SyntaxFault} {expected text : String} {found : TokenKind}
    (h : fault.message = (unexpected expected found text).message) :
    ∃ expected found text, fault = unexpected expected found text := by
  have hhead := fault.head?_message
  rw [h, head?_message] at hhead
  cases fault with
  | unexpected expected found text => exact ⟨expected, found, text, rfl⟩
  | _ => cases hhead

end SyntaxFault

namespace Generator

/-- No directive is refused as unexpected. -/
theorem perform_refused {g g' : Generator} {directive : Directive} {refusal : Refusal}
    (h : g.perform directive = .error (.refused refusal, g')) (expected : String)
    (found : TokenKind) (text : String) : refusal.fault ≠ .unexpected expected found text := by
  have hresolve : ∀ {name : Token} {f : Variable → Generator},
      (g.resolve name).map f ≠ .error (.refused refusal, g') := by
    intro name f hmap
    unfold resolve at hmap
    split at hmap <;> cases hmap
  have hcall : ∀ {callee : String} {arguments : Nat} {token : Token},
      g.call callee arguments token = .error (.refused refusal, g') →
        refusal.fault = .callTooWide callee := by
    intro callee arguments token hcall
    unfold call at hcall
    split at hcall <;> cases hcall
    rfl
  have hdeclare : ∀ {g : Generator} {kind : VariableKind} {type name : String} {token : Token},
      g.declare kind type name token = .error (.refused refusal, g') →
        refusal.fault = .tooManyDeclarations kind := by
    intro g kind type name token hdeclare
    unfold declare at hdeclare
    split at hdeclare <;> cases hdeclare
    rfl
  cases directive with
  | require name => exact absurd h hresolve
  | load name => exact absurd h hresolve
  | store name => exact absurd h hresolve
  | openSubroutine kind keyword =>
    simp only [perform] at h
    split at h
    · rw [hdeclare h]
      exact SyntaxFault.noConfusion
    · cases h
  | declare kind type name =>
    rw [hdeclare h]
    exact SyntaxFault.noConfusion
  | build string =>
    simp only [perform, build, reject] at h
    split at h
    · cases h
      exact SyntaxFault.noConfusion
    · split at h <;> cases h
      exact SyntaxFault.noConfusion
  | receiver owner =>
    simp only [perform] at h
    split at h <;> cases h
  | invoke owner member arguments =>
    simp only [perform] at h
    split at h <;> rw [hcall h] <;> exact SyntaxFault.noConfusion
  | invokeOwn method arguments =>
    rw [hcall h]
    exact SyntaxFault.noConfusion
  | _ => cases h

theorem run_refused {directives : List Directive} {g g' : Generator} {refusal : Refusal}
    (h : g.run directives = .error (.refused refusal, g')) (expected : String)
    (found : TokenKind) (text : String) : refusal.fault ≠ .unexpected expected found text := by
  induction directives generalizing g with
  | nil => cases h
  | cons directive rest ih =>
    rw [run_cons] at h
    cases hfirst : g.perform directive with
    | ok next =>
      rw [hfirst] at h
      exact ih h
    | error failure =>
      rw [hfirst] at h
      cases h
      exact perform_refused hfirst expected found text

end Generator

/-- What the tokens of a text are read from. -/
theorem Reader.proper_ofSource {source : String} {tokens : List Token}
    (h : Scanner.tokens source = .ok tokens) : ∃ reader, Reader.ofSource source = .ok reader ∧
      reader.Proper ∧ tokens = reader.tokens ++ [reader.last] := by
  have hreader : Reader.ofSource source = .ok (Reader.ofTokens source tokens) := by
    rw [Reader.ofSource, h]
    rfl
  obtain ⟨htokens, hlast, hspelled⟩ := Reader.ofSource_tokens hreader
  exact ⟨_, hreader, ⟨hlast, hspelled⟩, Except.ok.inj (h.symm.trans htokens)⟩

theorem unexpected_earliest {source : String} {tokens : List Token}
    (h : Scanner.tokens source = .ok tokens) {error : SyntaxError} {expected text : String}
    {found : TokenKind} (hfailure : (compile source).failure = some (.grammatical error))
    (hdetail : error.detail = (SyntaxFault.unexpected expected found text).message) :
    ∃ i token, tokens[i]? = some token ∧ error = .locate source token.span error.detail ∧
      Begins ((tokens.take i).map Token.kind) ∧
      ¬Begins ((tokens.take (i + 1)).map Token.kind) := by
  obtain ⟨reader, hreader, hproper, rfl⟩ := Reader.proper_ofSource h
  cases hdirectives : reader.directives with
  | mk directives refusal =>
    rw [compile_of_ofSource hreader hdirectives, Transcript.ofDirectives] at hfailure
    cases hrun : ({} : Generator).run directives with
    | error stop =>
      obtain ⟨failure, g⟩ := stop
      rw [hrun] at hfailure
      cases failure with
      | undefinedName name => cases hfailure
      | refused refusal =>
        cases hfailure
        obtain ⟨expected, found, text, hfault⟩ := SyntaxFault.unexpected_of_message hdetail
        exact absurd hfault (Generator.run_refused hrun expected found text)
    | ok g =>
      rw [hrun] at hfailure
      obtain ⟨refused, rfl, hlocated⟩ := Option.map_eq_some_iff.1 hfailure
      cases hlocated
      obtain ⟨expected, found, text, hfault⟩ := SyntaxFault.unexpected_of_message hdetail
      obtain ⟨x, back, hsplit, hcompletes, hrejects⟩ := Reader.completes hproper hdirectives
      rcases hrejects refused rfl with hfull | ⟨htoken, hnone⟩
      · rw [hfault] at hfull
        cases hfull
      · have htokens : reader.tokens ++ [reader.last] = x ++ refused.token ::
            (back ++ [reader.last]).tail := by
          rw [hsplit, htoken, List.append_assoc]
          cases back <;> rfl
        refine ⟨x.length, refused.token, ?_, rfl, ?_, ?_⟩
        · rw [htokens, List.getElem?_append_right (Nat.le_refl _), Nat.sub_self]
          rfl
        · obtain ⟨z, more, -, hwhole, hread⟩ := hcompletes 0
          obtain ⟨tree, hyield, -⟩ := Reader.tree_of_directives hwhole.2 hread
          refine ⟨tree, ?_⟩
          rw [htokens, List.take_left, kinds_of_yield hyield, List.map_append, List.append_assoc]
          exact List.prefix_append _ _
        · rintro ⟨tree, hprefix⟩
          rw [htokens, List.append_cons, List.take_left' (by simp), List.map_append] at hprefix
          exact hnone tree hprefix

theorem undefined_earliest {source : String} {tokens : List Token}
    (h : Scanner.tokens source = .ok tokens) {name : String} {line : Nat}
    (hfailure : (compile source).failure = some (.undefinedName name line)) :
    ∃ i token tree, tokens[i]? = some token ∧ token.lexeme = .identifier name ∧
      token.span.lineNumber source = line ∧ FirstUndefined tokens tree i name := by
  obtain ⟨reader, hreader, hproper, rfl⟩ := Reader.proper_ofSource h
  cases hdirectives : reader.directives with
  | mk directives refusal =>
    rw [compile_of_ofSource hreader hdirectives, Transcript.ofDirectives] at hfailure
    cases hrun : ({} : Generator).run directives with
    | ok g =>
      rw [hrun] at hfailure
      obtain ⟨refused, rfl, hlocated⟩ := Option.map_eq_some_iff.1 hfailure
      cases hlocated
    | error stop =>
      obtain ⟨failure, g⟩ := stop
      rw [hrun] at hfailure
      cases failure with
      | refused refusal => cases hfailure
      | undefinedName token =>
        cases hfailure
        obtain ⟨x, back, hsplit, hcompletes, -⟩ := Reader.completes hproper hdirectives
        have hplaced : ∀ place, token.span = ⟨place, 0⟩ ∨ ∃ i tree,
            (reader.tokens ++ [reader.last])[i]? = some token ∧
            token.lexeme = .identifier token.text ∧
            FirstUndefined (reader.tokens ++ [reader.last]) tree i token.text := by
          intro place
          obtain ⟨z, more, hz, hwhole, hread⟩ := hcompletes place
          have hrest : ({} : Generator).run (directives ++ more) =
              .error (.undefinedName token, g) := by
            rw [Generator.run_append, hrun]
            rfl
          obtain ⟨i, tree, hget, htext, hfirst⟩ := Reader.undefined_of_run hwhole hread hrest
          by_cases hi : i < x.length
          · rw [List.getElem?_append_left hi] at hget
            refine .inr ⟨i, tree, ?_, htext, ?_, hfirst.undeclared, hfirst.declared⟩
            · rw [hsplit, List.append_assoc, List.getElem?_append_left hi, hget]
            · have hstarts := hfirst.starts
              rw [List.take_append_of_le_length hi] at hstarts
              rwa [hsplit, List.append_assoc, List.take_append_of_le_length hi]
          · rw [List.getElem?_append_right (Nat.le_of_not_lt hi)] at hget
            exact .inl (hz token (List.mem_of_getElem? hget))
        -- a made-up place is a matter of choice, so it cannot be that of the name
        rcases hplaced 0 with hzero | ⟨i, tree, hget, htext, hfirst⟩
        · rcases hplaced 1 with hone | ⟨i, tree, hget, htext, hfirst⟩
          · cases hzero.symm.trans hone
          · exact ⟨i, token, tree, hget, htext, rfl, hfirst⟩
        · exact ⟨i, token, tree, hget, htext, rfl, hfirst⟩

/-- Of a text that scans, an unexpected token is reported where the kinds before it can be the first
of a class and with the token cannot; and an undefined name where it is the first in the place of a
value that is not declared, in a class that starts with the tokens up to it. -/
theorem compile_reports_earliest (source : String) (tokens : List Token)
    (h : Scanner.tokens source = .ok tokens) :
    (∀ error expected found text,
      ((compile source).deliver {}).failure = some (.grammatical error) →
      error.detail = (SyntaxFault.unexpected expected found text).message →
      ∃ i token, tokens[i]? = some token ∧ error = .locate source token.span error.detail ∧
        Begins ((tokens.take i).map Token.kind) ∧
        ¬Begins ((tokens.take (i + 1)).map Token.kind)) ∧
    ∀ name line, ((compile source).deliver {}).failure = some (.undefinedName name line) →
      ∃ i token tree, tokens[i]? = some token ∧ token.lexeme = .identifier name ∧
        token.span.lineNumber source = line ∧ FirstUndefined tokens tree i name := by
  rw [(compile source).deliver_unlimited.1]
  exact ⟨fun error expected found text hfailure hdetail => unexpected_earliest h hfailure hdetail,
    fun name line hfailure => undefined_earliest h hfailure⟩

/-- The brace that opens a class is missing. -/
def unopenedText : String :=
  "class A \x7d"

/-- A name that is declared nowhere. -/
def undeclaredText : String :=
  "class A \x7b function int f(int a) \x7b return a + x; \x7d \x7d"

theorem compile_reports_earliest_texts :
    (∃ tokens, Scanner.tokens unopenedText = .ok tokens ∧
      ∃ error i token, ((compile unopenedText).deliver {}).failure = some (.grammatical error) ∧
        tokens[i]? = some token ∧ error = .locate unopenedText token.span error.detail ∧
        Begins ((tokens.take i).map Token.kind) ∧
        ¬Begins ((tokens.take (i + 1)).map Token.kind)) ∧
    ∃ tokens, Scanner.tokens undeclaredText = .ok tokens ∧
      ((compile undeclaredText).deliver {}).failure = some (.undefinedName "x" 1) ∧
      ∃ i token tree, tokens[i]? = some token ∧ token.lexeme = .identifier "x" ∧
        token.span.lineNumber undeclaredText = 1 ∧ FirstUndefined tokens tree i "x" := by
  refine ⟨?_, ?_⟩
  · have hscans : (Scanner.tokens unopenedText).isOk = true := by decide +kernel
    have hfailure : ((compile unopenedText).deliver {}).failure = some (.grammatical
        ⟨⟨8, 1⟩, 1, 8, "expected '\x7b', found '\x7d'", unopenedText⟩) :=
      (compile unopenedText).deliver_unlimited.1.trans (by decide +kernel)
    cases h : Scanner.tokens unopenedText with
    | error error =>
      rw [h] at hscans
      cases hscans
    | ok tokens =>
      obtain ⟨i, token, hearliest⟩ := (compile_reports_earliest unopenedText tokens h).1 _
        "'\x7b'" (.symbol .rightBrace) "\x7d" hfailure (by decide +kernel)
      exact ⟨tokens, rfl, _, i, token, hfailure, hearliest⟩
  · have hscans : (Scanner.tokens undeclaredText).isOk = true := by decide +kernel
    have hfailure : ((compile undeclaredText).deliver {}).failure =
        some (.undefinedName "x" 1) :=
      (compile undeclaredText).deliver_unlimited.1.trans (by decide +kernel)
    cases h : Scanner.tokens undeclaredText with
    | error error =>
      rw [h] at hscans
      cases hscans
    | ok tokens =>
      exact ⟨tokens, rfl, hfailure,
        (compile_reports_earliest undeclaredText tokens h).2 "x" 1 hfailure⟩

end JackCompiler
