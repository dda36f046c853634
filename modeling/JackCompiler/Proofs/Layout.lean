import JackCompiler.Proofs.Acceptance
import JackCompiler.Proofs.Cursor
import JackCompiler.Proofs.Respelling

/-!
The layout of a text: its blanks, comments and line breaks, which decide where its tokens stand.
Places take no part in reading or in carrying out directives, they are only handed on to the failure
that ends the work. So texts with the same tokens have the same code and fail at the same token.
-/

namespace JackCompiler

/-- What a token is and how it is spelled, apart from where it stands. -/
def Token.content (token : Token) : TokenKind × String :=
  (token.kind, token.text)

/-- Tokens are spelled as before and stand in other places. -/
def Respelling.moving (place : Token → Span) : Respelling :=
  ⟨id, place⟩

namespace Failure

/-- The token that a failure is reported at. -/
def token : Failure → Token
  | refused refusal => refusal.token
  | undefinedName name => name

def respell (r : Respelling) : Failure → Failure
  | refused refusal => .refused (refusal.respell r)
  | undefinedName name => .undefinedName (name.respell r)

/-- The token of a failure is among the tokens, and a name that is not defined is a name. -/
def ReadFrom (T : Token → Prop) : Failure → Prop
  | refused refusal => T refusal.token
  | undefinedName name => NameOf T name

theorem ReadFrom.token {T : Token → Prop} {failure : Failure} (h : failure.ReadFrom T) :
    T failure.token := by
  cases failure with
  | refused refusal => exact h
  | undefinedName name => exact h.1

/-- The report of a failure as one at this token. -/
def locateAt (source : String) (token : Token) : Failure → Diagnostic
  | refused refusal => .grammatical (.locate source token.span refusal.fault.message)
  | undefinedName _ => .undefinedName token.text (token.span.lineNumber source)

end Failure

theorem renameQualified_id (name : String) : renameQualified id name = name := by
  have hsplit := List.takeWhile_append_dropWhile (p := (· != '.')) (l := name.toList)
  unfold renameQualified
  split
  · rfl
  · rename_i first rest hrest
    have hdot : first = '.' := by
      have hfirst := List.head_dropWhile_not (· != '.') (l := name.toList) (by simp [hrest])
      simpa [hrest] using hfirst
    rw [hrest, hdot] at hsplit
    apply String.toList_injective
    simpa using hsplit

theorem Token.respell_moving (place : Token → Span) (token : Token) :
    token.respell (.moving place) = ⟨token.kind, token.text, place token⟩ := by
  rw [Token.respell, TokenKind.respell]
  split <;> rfl

theorem Token.text_moving (place : Token → Span) (token : Token) :
    (token.respell (.moving place)).text = token.text := by
  rw [respell_moving]

theorem SyntaxFault.respell_id (fault : SyntaxFault) : fault.respell id = fault := by
  cases fault with
  | unexpected expected found text =>
    rw [SyntaxFault.respell, TokenKind.respell]
    split <;> rfl
  | callTooWide callee => rw [SyntaxFault.respell, renameQualified_id]
  | _ => rfl

/-! ### Carrying out directives -/

namespace Generator

section Moving

variable (place : Token → Span)

theorem reject_moving {α : Type} (g : Generator) (fault : SyntaxFault) (token : Token) :
    (g.reject fault (token.respell (.moving place)) : Outcome α) =
      (g.reject fault token).mapError (Prod.map (Failure.respell (.moving place)) id) := by
  have hfault : (⟨fault, token⟩ : Refusal).respell (.moving place) =
      ⟨fault, token.respell (.moving place)⟩ := by
    rw [Refusal.respell]
    exact congrArg (Refusal.mk · _) fault.respell_id
  exact congrArg (fun refusal : Refusal => (.error (.refused refusal, g) : Outcome α)) hfault.symm

theorem declare_moving (g : Generator) (kind : VariableKind) (type name : String)
    (token : Token) :
    g.declare kind type name (token.respell (.moving place)) =
      (g.declare kind type name token).mapError
        (Prod.map (Failure.respell (.moving place)) id) := by
  unfold declare
  split
  · rfl
  · exact g.reject_moving place _ token

theorem resolve_moving (g : Generator) (name : Token) (f : Variable → Generator) :
    (g.resolve (name.respell (.moving place))).map f =
      ((g.resolve name).map f).mapError (Prod.map (Failure.respell (.moving place)) id) := by
  unfold resolve
  rw [Token.text_moving]
  cases g.scopes.lookup? name.text <;> rfl

theorem call_moving (g : Generator) (callee : String) (arguments : Nat) (token : Token) :
    g.call callee arguments (token.respell (.moving place)) =
      (g.call callee arguments token).mapError
        (Prod.map (Failure.respell (.moving place)) id) := by
  unfold call
  split
  · rfl
  · exact g.reject_moving place _ token

theorem build_moving (g : Generator) (string : Token) :
    g.build (string.respell (.moving place)) =
      (g.build string).mapError (Prod.map (Failure.respell (.moving place)) id) := by
  unfold build
  simp only [Token.text_moving]
  cases string.text.toList.find? (0xFFFF < ·.toNat) with
  | some character => exact g.reject_moving place (.unstorableCharacter character) string
  | none =>
    dsimp only
    by_cases hlength : string.text.toList.length ≤ maxInteger
    · rw [if_pos hlength, if_pos hlength]
      rfl
    · rw [if_neg hlength, if_neg hlength]
      exact g.reject_moving place .stringTooLong string

/-- A directive does the same wherever its tokens stand. If it fails, it fails at the token that
stands elsewhere. -/
theorem perform_moving (g : Generator) (directive : Directive) :
    g.perform (directive.respell (.moving place)) =
      (g.perform directive).mapError (Prod.map (Failure.respell (.moving place)) id) := by
  cases directive with
  | openSubroutine kind keyword =>
    simp only [Directive.respell, perform]
    split
    · exact declare_moving place _ _ _ _ keyword
    · rfl
  | declare kind type name =>
    rw [Directive.respell, perform, perform, Token.text_moving]
    exact g.declare_moving place kind type name.text name
  | require name => exact g.resolve_moving place name _
  | load name => exact g.resolve_moving place name _
  | store name => exact g.resolve_moving place name _
  | build string => exact g.build_moving place string
  | receiver owner =>
    simp only [Directive.respell, perform, Token.text_moving]
    split <;> rfl
  | invoke owner member arguments =>
    simp only [Directive.respell, perform, Token.text_moving]
    split <;> exact g.call_moving place _ _ owner
  | invokeOwn method arguments =>
    simp only [Directive.respell, perform, Token.text_moving]
    exact g.call_moving place _ _ method
  | _ => rfl

theorem run_moving (g : Generator) (directives : List Directive) :
    g.run (directives.map (Directive.respell (.moving place))) =
      (g.run directives).mapError (Prod.map (Failure.respell (.moving place)) id) := by
  induction directives generalizing g with
  | nil => rfl
  | cons directive rest ih =>
    rw [List.map_cons, run_cons, run_cons, perform_moving]
    cases g.perform directive with
    | ok next => exact ih next
    | error stop => rfl

end Moving

/-- The token of a failure is among those that the directive was read from. -/
theorem perform_readFrom {T : Token → Prop} {g g' : Generator} {directive : Directive}
    {failure : Failure} (h : g.perform directive = .error (failure, g'))
    (hread : directive.ReadFrom T) : failure.ReadFrom T := by
  have hresolve : ∀ {name : Token} {f : Variable → Generator},
      (g.resolve name).map f = .error (failure, g') → failure = .undefinedName name := by
    intro name f hmap
    unfold resolve at hmap
    split at hmap <;> cases hmap
    rfl
  have hcall : ∀ {callee : String} {arguments : Nat} {token : Token},
      g.call callee arguments token = .error (failure, g') → T token → failure.ReadFrom T := by
    intro callee arguments token hcall htoken
    unfold call at hcall
    split at hcall <;> cases hcall
    exact htoken
  have hdeclare : ∀ {g : Generator} {kind : VariableKind} {type name : String} {token : Token},
      g.declare kind type name token = .error (failure, g') → T token → failure.ReadFrom T := by
    intro g kind type name token hdeclare htoken
    unfold declare at hdeclare
    split at hdeclare <;> cases hdeclare
    exact htoken
  cases directive with
  | require name | load name | store name =>
    rw [hresolve h]
    exact hread
  | openSubroutine kind keyword =>
    simp only [perform] at h
    split at h
    · exact hdeclare h hread
    · cases h
  | declare kind type name => exact hdeclare h hread.2.1
  | build string =>
    simp only [perform, build, reject] at h
    split at h
    · cases h
      exact hread.1
    · split at h <;> cases h
      exact hread.1
  | receiver owner =>
    simp only [perform] at h
    split at h <;> cases h
  | invoke owner member arguments =>
    simp only [perform] at h
    split at h <;> exact hcall h hread.1.1
  | invokeOwn method arguments => exact hcall h hread.1
  | _ => cases h

theorem run_readFrom {T : Token → Prop} {g g' : Generator} {directives : List Directive}
    {failure : Failure} (h : g.run directives = .error (failure, g'))
    (hread : ∀ directive ∈ directives, directive.ReadFrom T) : failure.ReadFrom T := by
  induction directives generalizing g with
  | nil => cases h
  | cons directive rest ih =>
    obtain ⟨hfirst, hrest⟩ := List.forall_mem_cons.1 hread
    rw [run_cons] at h
    cases hperform : g.perform directive with
    | ok next =>
      rw [hperform] at h
      exact ih h hrest
    | error stop =>
      rw [hperform] at h
      cases h
      exact perform_readFrom hperform hfirst

end Generator

/-! ### The work on a text -/

namespace Reader

/-- What is done for the tokens of a reader, and why it ends early if it does. -/
def work (reader : Reader) : List Effect × Option Failure :=
  match ({} : Generator).run reader.directives.1 with
  | .ok g => (g.effects.reverse, reader.directives.2.map .refused)
  | .error (failure, g) => (g.effects.reverse, some failure)

/-- Wherever the tokens stand, the work is the same. -/
theorem work_moving (place : Token → Span) (source : String) {reader : Reader}
    (h : reader.last.kind = .endOfFile) :
    (reader.respell (.moving place) source).work =
      (reader.work.1, reader.work.2.map (Failure.respell (.moving place))) := by
  rw [work, reader.directives_respell _ source h, work, Generator.run_moving]
  cases ({} : Generator).run reader.directives.1 with
  | ok g =>
    have hrefusal : (reader.directives.2.map (Refusal.respell (.moving place))).map .refused =
        (reader.directives.2.map .refused).map (Failure.respell (.moving place)) := by
      rw [Option.map_map, Option.map_map]
      rfl
    exact congrArg (Prod.mk g.effects.reverse) hrefusal
  | error stop => rfl

/-- Work ends at one of the tokens. -/
theorem work_readFrom {T : Token → Prop} {reader : Reader} (h : reader.last.kind = .endOfFile)
    (htokens : ∀ token ∈ reader.tokens, T token) (hlast : T reader.last) :
    ∀ failure ∈ reader.work.2, failure.ReadFrom T := by
  obtain ⟨hdirectives, hrefusal⟩ := directives_readFrom h htokens hlast
  intro failure hfailure
  unfold work at hfailure
  split at hfailure
  · obtain ⟨refusal, hmem, rfl⟩ := Option.map_eq_some_iff.1 hfailure
    exact hrefusal refusal hmem
  · rename_i stop g hrun
    cases hfailure
    exact Generator.run_readFrom hrun hdirectives

end Reader

/-- Compiling does the work for the tokens and puts its failure at a place of the text. -/
theorem compile_eq_work {source : String} {reader : Reader}
    (hreader : Reader.ofSource source = .ok reader) :
    compile source = ⟨reader.work.1, reader.work.2.map (Failure.locate source)⟩ := by
  have hpair : reader.directives = (reader.directives.1, reader.directives.2) := rfl
  rw [compile_of_ofSource hreader hpair, Transcript.ofDirectives, Reader.work]
  cases ({} : Generator).run reader.directives.1 with
  | ok g =>
    dsimp only
    rw [Option.map_map]
    rfl
  | error stop => rfl

/-! ### Tokens without layout -/

/-- What a respelled token is and how it is spelled. -/
def Token.respelledContent (word : String → String) (token : Token) : TokenKind × String :=
  (token.kind, token.kind.respell word token.text)

theorem Token.contents_id (tokens : List Token) :
    tokens.map Token.content = tokens.map (Token.respelledContent id) := by
  apply List.map_congr_left
  intro token _
  rw [respelledContent, TokenKind.respell, content]
  split <;> rfl

/-- The token at its number in place of its place. -/
def Token.numbered (i : Nat) (token : Token) : Token :=
  ⟨token.kind, token.text, ⟨i, 0⟩⟩

/-- Tokens that stand at their numbers, whatever the layout was. -/
def numberTokens (tokens : List Token) : List Token :=
  tokens.mapIdx Token.numbered

/-- Where the token of this number stands. -/
def placeIn (tokens : List Token) (token : Token) : Span :=
  match tokens[token.span.index]? with
  | some placed => placed.span
  | none => token.span

/-- A reader of the tokens at their numbers, in no text. -/
def Reader.ofNumbered (tokens : List Token) : Reader :=
  .ofTokens "" (numberTokens tokens)

section Numbered

variable {source : String} {tokens others : List Token} {word : String → String}

theorem numberTokens_getElem? (tokens : List Token) (i : Nat) :
    (numberTokens tokens)[i]? = tokens[i]?.map (Token.numbered i) :=
  List.getElem?_mapIdx

theorem numberTokens_append_singleton (earlier : List Token) (last : Token) :
    numberTokens (earlier ++ [last]) =
      numberTokens earlier ++ [last.numbered earlier.length] :=
  List.mapIdx_concat

/-- A numbered token is put in the place of the token with its number. -/
theorem Token.numbered_respell
    (h : others.map Token.content = tokens.map (Token.respelledContent word)) {i : Nat}
    {token : Token} (htoken : tokens[i]? = some token) :
    others[i]? = some ((token.numbered i).respell ⟨word, placeIn others⟩) := by
  have hcontent : others[i]?.map Token.content = some (token.respelledContent word) := by
    rw [← List.getElem?_map, h, List.getElem?_map, htoken, Option.map_some]
  obtain ⟨placed, hplaced, heq⟩ := Option.map_eq_some_iff.1 hcontent
  obtain ⟨kind, text, span⟩ := placed
  obtain ⟨rfl, rfl⟩ := Prod.mk.inj heq
  simp only [respell, numbered, placeIn, hplaced]

/-- Numbered tokens put in their places. -/
theorem numberTokens_respell
    (h : others.map Token.content = tokens.map (Token.respelledContent word)) :
    (numberTokens tokens).map (Token.respell ⟨word, placeIn others⟩) = others := by
  have hlength : others.length = tokens.length := by simpa using congrArg List.length h
  apply List.ext_getElem?
  intro i
  rw [List.getElem?_map, numberTokens_getElem?]
  cases hget : tokens[i]? with
  | none =>
    have hshort : others[i]? = none :=
      List.getElem?_eq_none (hlength ▸ List.getElem?_eq_none_iff.1 hget)
    rw [hshort]
    rfl
  | some token => exact (Token.numbered_respell h hget).symm

theorem Reader.ofNumbered_eq (earlier : List Token) {last : Token}
    (hlast : last.kind = .endOfFile) :
    ofNumbered (earlier ++ [last]) =
      ⟨"", numberTokens earlier, last.numbered earlier.length⟩ := by
  have hnumbered : (last.numbered earlier.length).kind = .endOfFile := hlast
  rw [ofNumbered, numberTokens_append_singleton, ofTokens_append_singleton _ _ hnumbered]

theorem Reader.last_ofNumbered (h : Scanner.tokens source = .ok tokens) :
    (ofNumbered tokens).last.kind = .endOfFile := by
  obtain ⟨earlier, last, rfl, hlast, -⟩ := Scanner.tokens_end h
  rw [ofNumbered_eq earlier hlast]
  exact hlast

/-- The reader of a text reads numbered tokens put in their places. -/
theorem Reader.ofSource_respell (hothers : Scanner.tokens source = .ok others)
    (h : others.map Token.content = tokens.map (Token.respelledContent word)) :
    ofSource source = .ok ((ofNumbered tokens).respell ⟨word, placeIn others⟩ source) := by
  obtain ⟨earlier, last, rfl, hlast, -⟩ := Scanner.tokens_end hothers
  have hrespelled := numberTokens_respell h
  rw [List.map_append, eq_comm] at h
  obtain ⟨before, back, rfl, -, hback⟩ := List.map_eq_append_iff.1 h
  obtain ⟨final, rfl, hcontent⟩ := List.map_eq_singleton_iff.1 hback
  have hfinal : final.kind = .endOfFile := (congrArg Prod.fst hcontent).trans hlast
  rw [numberTokens_append_singleton, List.map_append] at hrespelled
  obtain ⟨hearlier, hend⟩ := List.append_inj' hrespelled rfl
  rw [ofSource, hothers, ofNumbered_eq before hfinal, respell, hearlier,
    List.singleton_inj.1 hend]
  exact congrArg Except.ok (ofTokens_append_singleton source earlier hlast)

/-- What holds of all numbered tokens holds of those of their reader. -/
theorem Reader.all_ofNumbered {T : Token → Prop} (h : Scanner.tokens source = .ok tokens)
    (hall : ∀ token ∈ numberTokens tokens, T token) :
    (∀ token ∈ (ofNumbered tokens).tokens, T token) ∧ T (ofNumbered tokens).last := by
  obtain ⟨earlier, last, rfl, hlast, -⟩ := Scanner.tokens_end h
  rw [numberTokens_append_singleton] at hall
  rw [ofNumbered_eq earlier hlast]
  obtain ⟨hearlier, hend⟩ := List.forall_mem_append.1 hall
  exact ⟨hearlier, hend _ (List.mem_singleton_self _)⟩

/-- Work on numbered tokens fails at one of them, and a name that is not defined is a name. -/
theorem Reader.exists_numbered (h : Scanner.tokens source = .ok tokens) {failure : Failure}
    (hfailure : (ofNumbered tokens).work.2 = some failure) :
    ∃ (i : Nat) (token : Token), tokens[i]? = some token ∧ failure.token = token.numbered i ∧
      ∀ name, failure = .undefinedName name → token.kind = .identifier := by
  obtain ⟨htokens, hlast⟩ := all_ofNumbered h fun _ hmem => hmem
  have hread := work_readFrom (last_ofNumbered h) htokens hlast failure hfailure
  obtain ⟨i, hget⟩ := List.mem_iff_getElem?.1 hread.token
  rw [numberTokens_getElem?] at hget
  obtain ⟨token, htoken, heq⟩ := Option.map_eq_some_iff.1 hget
  refine ⟨i, token, htoken, heq.symm, ?_⟩
  rintro name rfl
  exact (congrArg Token.kind heq).trans hread.2

end Numbered

/-! ### Texts that differ in layout -/

namespace Diagnostic

/-- The same diagnostic about the same token of two texts, which may stand on another line. -/
inductive SameToken (source other : String) (tokens others : List Token) :
    Diagnostic → Diagnostic → Prop where
  | grammatical {i : Nat} {token placed : Token} (detail : String)
      (htoken : tokens[i]? = some token) (hplaced : others[i]? = some placed) :
      SameToken source other tokens others
        (.grammatical (.locate source token.span detail))
        (.grammatical (.locate other placed.span detail))
  | undefinedName {i : Nat} {token placed : Token} {name : String}
      (htoken : tokens[i]? = some token) (hplaced : others[i]? = some placed)
      (hname : token.text = name) :
      SameToken source other tokens others
        (.undefinedName name (token.span.lineNumber source))
        (.undefinedName name (placed.span.lineNumber other))
  | io (fault : IoFault) : SameToken source other tokens others (.io fault) (.io fault)

end Diagnostic

section Layout

variable {source other : String} {tokens others : List Token}

/-- A text is compiled like its numbered tokens, and the tokens of a failure are put in their
places. -/
theorem compile_of_numbered (h : Scanner.tokens source = .ok tokens)
    (hother : Scanner.tokens other = .ok others)
    (hsame : others.map Token.content = tokens.map Token.content) :
    compile other =
      ⟨(Reader.ofNumbered tokens).work.1, (Reader.ofNumbered tokens).work.2.map fun failure =>
        (failure.respell (.moving (placeIn others))).locate other⟩ := by
  have hreader := Reader.ofSource_respell hother (hsame.trans (Token.contents_id tokens))
  have hwork := Reader.work_moving (placeIn others) other (Reader.last_ofNumbered h)
  rw [compile_eq_work hreader]
  rw [Respelling.moving] at hwork
  rw [hwork, Option.map_map]
  rfl

/-- A failure at a numbered token is put where the text has the token. -/
theorem Failure.locate_numbered (hsame : others.map Token.content = tokens.map Token.content)
    {failure : Failure} {i : Nat} {token : Token} (htoken : tokens[i]? = some token)
    (hat : failure.token = token.numbered i) :
    ∃ placed, others[i]? = some placed ∧ placed.text = token.text ∧
      (failure.respell (.moving (placeIn others))).locate source =
        failure.locateAt source placed := by
  have hrespelled := hsame.trans (Token.contents_id tokens)
  refine ⟨_, Token.numbered_respell hrespelled htoken, Token.text_moving _ _, ?_⟩
  cases failure with
  | refused refusal =>
    have hfault : refusal.fault.respell (Respelling.moving (placeIn others)).word =
        refusal.fault := refusal.fault.respell_id
    rw [Failure.token] at hat
    rw [respell, Refusal.respell, locate, locateAt, hat, hfault]
    rfl
  | undefinedName name =>
    rw [Failure.token] at hat
    rw [respell, locate, locateAt, hat]
    rfl

/-- Texts whose tokens are of the same kinds and spelled alike do the same on every output. If they
fail, they fail in the same way at the same one of their tokens. -/
theorem compile_independent_of_layout (source other : String) (tokens others : List Token)
    (h : Scanner.tokens source = .ok tokens) (hother : Scanner.tokens other = .ok others)
    (hsame : tokens.map Token.content = others.map Token.content) (device : Device) :
    ((compile source).deliver device).device = ((compile other).deliver device).device ∧
      ((compile source).deliver device).records = ((compile other).deliver device).records ∧
      Option.Rel (Diagnostic.SameToken source other tokens others)
        ((compile source).deliver device).failure ((compile other).deliver device).failure := by
  rw [compile_of_numbered h h rfl, compile_of_numbered h hother hsame.symm]
  unfold Transcript.deliver
  dsimp only
  split
  · exact ⟨rfl, rfl, .some (.io _)⟩
  · cases hfailure : (Reader.ofNumbered tokens).work.2 with
    | none =>
      refine ⟨rfl, rfl, ?_⟩
      dsimp only [Option.map_none]
      cases Device.flush _ with
      | none => exact .none
      | some fault => exact .some (.io fault)
    | some failure =>
      refine ⟨rfl, rfl, .some ?_⟩
      obtain ⟨i, token, htoken, hat, -⟩ := Reader.exists_numbered h hfailure
      obtain ⟨placed, hplaced, htext, hlocate⟩ := Failure.locate_numbered rfl htoken hat
      obtain ⟨moved, hmoved, hmovedText, hmovedLocate⟩ :=
        Failure.locate_numbered hsame.symm htoken hat
      dsimp only
      rw [hlocate, hmovedLocate]
      cases failure with
      | refused refusal => exact .grammatical _ hplaced hmoved
      | undefinedName name =>
        rw [Failure.locateAt, Failure.locateAt, htext, hmovedText]
        exact .undefinedName hplaced hmoved htext

/-- A class on one line, with a name that is declared nowhere. -/
def crampedText : String :=
  "class A\x7bfunction int f(int a)\x7breturn a+x;\x7d\x7d"

/-- The same class, spread over several lines and with comments. -/
def spreadText : String :=
  "/** Sums. */\nclass A \x7b\n  function int f(int a) \x7b // adds\n    return a + x;\n  \x7d\n\x7d\n"

theorem compile_independent_of_layout_spread :
    ∃ tokens others, Scanner.tokens crampedText = .ok tokens ∧
      Scanner.tokens spreadText = .ok others ∧
      tokens.map Token.content = others.map Token.content ∧
      ((compile crampedText).deliver {}).failure = some (.undefinedName "x" 1) ∧
      ((compile spreadText).deliver {}).failure = some (.undefinedName "x" 4) ∧
      Option.Rel (Diagnostic.SameToken crampedText spreadText tokens others)
        ((compile crampedText).deliver {}).failure ((compile spreadText).deliver {}).failure ∧
      ((compile crampedText).deliver { limit := some 20 }).device =
        ((compile spreadText).deliver { limit := some 20 }).device := by
  have hcontents : (Scanner.tokens crampedText).toOption.map (·.map Token.content) =
      (Scanner.tokens spreadText).toOption.map (·.map Token.content) := by decide +kernel
  have hscans : (Scanner.tokens crampedText).isOk = true := by decide +kernel
  cases h : Scanner.tokens crampedText with
  | error error =>
    rw [h] at hscans
    cases hscans
  | ok tokens =>
    cases hother : Scanner.tokens spreadText with
    | error error =>
      rw [h, hother] at hcontents
      cases hcontents
    | ok others =>
      rw [h, hother] at hcontents
      have hsame := Option.some.inj hcontents
      have hindependent :=
        compile_independent_of_layout crampedText spreadText tokens others h hother hsame
      exact ⟨tokens, others, rfl, rfl, hsame,
        (compile crampedText).deliver_unlimited.1.trans (by decide +kernel),
        (compile spreadText).deliver_unlimited.1.trans (by decide +kernel),
        (hindependent {}).2.2, (hindependent { limit := some 20 }).1⟩

end Layout

end JackCompiler
