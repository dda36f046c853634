import JackCompiler.Proofs.CodeText
import JackCompiler.Proofs.Places

/-!
How a syntax error is displayed. Nothing that is quoted in a message ends a line, so there are three
lines: what is wrong, the line of the text, and carets below it. The carets start below the first
character of the token. There is one for each byte of its text, and so they are below its characters
and nothing else unless the token is a string with characters of several bytes.
-/

namespace JackCompiler

/-! ### Texts of one line -/

/-- The text does not end a line. -/
def IsLine (text : String) : Prop :=
  '\n' ∉ text.toList

instance (text : String) : Decidable (IsLine text) :=
  inferInstanceAs (Decidable ('\n' ∉ text.toList))

@[simp] theorem isLine_append {x y : String} : IsLine (x ++ y) ↔ IsLine x ∧ IsLine y := by
  rw [IsLine, String.toList_append, List.mem_append, not_or]
  rfl

theorem IsPlain.isLine {text : String} (h : IsPlain text) : IsLine text :=
  h.not_mem rfl

@[simp] theorem TokenKind.isLine_text (kind : TokenKind) : IsLine kind.text := by
  cases kind with
  | keyword word => cases word <;> decide
  | symbol mark => cases mark <;> decide
  | integer value => exact (IsPlain.ofNat value).isLine
  | _ => decide

theorem newline_not_mem_toDigits (n : Nat) : '\n' ∉ Nat.toDigits 16 n := by
  have hdigit : ∀ d < 16, '\n' ≠ Nat.digitChar d := by decide
  induction n using Nat.strongRecOn with
  | ind n ih =>
    rw [Nat.toDigits_eq_if (by decide)]
    split
    · next hsmall => exact fun hmem => hdigit n hsmall (List.mem_singleton.1 hmem)
    · next hlarge =>
      rw [List.mem_append, List.mem_singleton, not_or]
      exact ⟨ih _ (by omega), hdigit _ (Nat.mod_lt n (by decide))⟩

/-- A line feed is among the characters that are not shown as they are. -/
theorem Quoted.isLine_char (c : Char) : IsLine (Quoted.char c) := by
  have hescape : IsLine (escape c) := by
    unfold escape
    split_ifs with hnul htab hnewline
    · decide
    · decide
    · decide
    · decide
    · decide
    · decide
    · have hdigits : IsLine (String.ofList (Nat.toDigits 16 c.toNat)) := by
        rw [IsLine, String.toList_ofList]
        exact newline_not_mem_toDigits _
      simp only [codePoint, isLine_append, hdigits]
      decide
    · rw [IsLine, Char.toString, String.toList_singleton]
      exact fun hmem => hnewline (List.mem_singleton.1 hmem).symm
  simp only [Quoted.char, isLine_append, hescape]
  decide

/-! ### Faults -/

namespace SyntaxFault

/-- What the fault quotes of a text does not end a line. -/
def QuotesLines : SyntaxFault → Prop
  | unexpected expected _ text => IsLine expected ∧ IsLine text
  | callTooWide callee => IsLine callee
  | tooManyDeclarations _ | tooManyArguments | unstorableCharacter _ | stringTooLong => True

theorem isLine_foundText (found : TokenKind) {text : String} (h : IsLine text) :
    IsLine (foundText found text) := by
  cases found <;> simp +decide [foundText, h]

theorem isLine_message {fault : SyntaxFault} (h : fault.QuotesLines) : IsLine fault.message := by
  have hlimit : IsLine (toString maxInteger) := (IsPlain.ofNat maxInteger).isLine
  unfold message
  cases fault with
  | unexpected expected found text =>
    obtain ⟨hexpected, htext⟩ := h
    simp only [isLine_append, hexpected, isLine_foundText found htext]
    decide
  | tooManyDeclarations kind =>
    have hkind : IsLine kind.text := by cases kind <;> decide
    simp only [isLine_append, hlimit, hkind]
    decide
  | tooManyArguments | stringTooLong =>
    simp only [isLine_append, hlimit]
    decide
  | callTooWide callee =>
    have hcallee : IsLine callee := h
    simp only [isLine_append, hlimit, hcallee]
    decide
  | unstorableCharacter c =>
    simp only [isLine_append, Quoted.isLine_char]
    decide

end SyntaxFault

def Token.OneLine (token : Token) : Prop :=
  IsLine token.text

theorem Reader.isLine_expectation (kind : TokenKind) : IsLine (Reader.expectation [kind]) := by
  have hquoted : Reader.expectation [kind] = "'" ++ kind.text ++ "'" := rfl
  simp only [hquoted, isLine_append, TokenKind.isLine_text]
  decide

theorem Agenda.Refuses.quotesLines {limit : Option Nat} {a : Agenda} {stop : Reading.Stop}
    (h : Refuses limit a stop) (htokens : ∀ token ∈ a.reading.input.tokens, token.OneLine)
    (hlast : a.reading.input.last.OneLine) : stop.refusal.fault.QuotesLines := by
  cases h with
  | @unexpected goal goals s expected knot krefuse =>
    refine ⟨?_, headD_mem htokens hlast⟩
    cases goal <;> cases krefuse <;> first | decide | exact Reader.isLine_expectation _
  | full ktokens kkind kwants kfull => trivial

namespace Generator.WellNamed

variable {g g' : Generator} {refusal : Refusal}

/-- The names that a refused directive would have put into code do not end a line. -/
theorem quotesLines_of_perform (hg : g.WellNamed) {directive : Directive}
    (hdirective : directive.WellNamed)
    (h : g.perform directive = .error (.refused refusal, g')) :
    refusal.fault.QuotesLines := by
  have hresolve : ∀ {name : Token} {f : Variable → Generator},
      (g.resolve name).map f ≠ .error (.refused refusal, g') := by
    intro name f hmap
    unfold Generator.resolve at hmap
    split at hmap <;> cases hmap
  have hcall : ∀ {callee : String} {arguments : Nat} {token : Token}, IsQualified callee →
      g.call callee arguments token = .error (.refused refusal, g') →
      refusal.fault.QuotesLines := by
    intro callee arguments token hcallee hcall
    unfold Generator.call at hcall
    split at hcall <;> cases hcall
    exact (IsPlain.of_isQualified hcallee).isLine
  have hdeclare : ∀ {g : Generator} {kind : VariableKind} {type name : String} {token : Token},
      g.declare kind type name token = .error (.refused refusal, g') →
      refusal.fault.QuotesLines := by
    intro g kind type name token hdeclare
    unfold Generator.declare at hdeclare
    split at hdeclare <;> cases hdeclare
    trivial
  cases directive with
  | require name | load name | store name => exact absurd h hresolve
  | openSubroutine kind keyword =>
    simp only [Generator.perform] at h
    split at h
    · exact hdeclare h
    · cases h
  | declare kind type name => exact hdeclare h
  | build string =>
    simp only [Generator.perform, Generator.build, reject] at h
    split at h
    · cases h
      trivial
    · split at h <;> cases h
      trivial
  | receiver owner =>
    simp only [Generator.perform] at h
    split at h <;> cases h
  | invoke owner member arguments =>
    simp only [Generator.perform] at h
    split at h
    · next entry hentry =>
      exact hcall ⟨entry.type, member, hg.type_of_lookup? hentry, hdirective.2, rfl⟩ h
    · exact hcall ⟨owner.text, member, Or.inl hdirective.1, hdirective.2, rfl⟩ h
  | invokeOwn method arguments => exact hcall (hg.qualify hdirective) h
  | _ => cases h

theorem quotesLines_of_run (hg : g.WellNamed) {directives : List Directive}
    (hdirectives : ∀ directive ∈ directives, directive.WellNamed)
    (h : g.run directives = .error (.refused refusal, g')) : refusal.fault.QuotesLines := by
  induction directives generalizing g with
  | nil => cases h
  | cons directive rest ih =>
    obtain ⟨hfirst, hrest⟩ := List.forall_mem_cons.1 hdirectives
    have hstep := hg.perform hfirst
    rw [run_cons] at h
    cases hperform : g.perform directive with
    | ok next =>
      rw [hperform] at h hstep
      exact ih hstep hrest h
    | error stop =>
      rw [hperform] at h
      cases h
      exact hg.quotesLines_of_perform hfirst hperform

end Generator.WellNamed

/-- What a text is refused for quotes nothing that ends a line. -/
theorem Reader.quotesLines_of_work {source : String} {reader : Reader}
    (h : Reader.ofSource source = .ok reader) {refusal : Refusal}
    (hrefusal : reader.work.2 = some (.refused refusal)) : refusal.fault.QuotesLines := by
  obtain ⟨htokens, hlast, -⟩ := Reader.ofSource_tokens h
  have hlines : ∀ token ∈ reader.tokens ++ [reader.last], token.OneLine :=
    fun token hmem hnewline => by cases not_isLineBreak_of_tokens htokens token hmem _ hnewline
  obtain ⟨htexts, hend⟩ := List.forall_mem_append.1 hlines
  unfold work at hrefusal
  split at hrefusal
  · obtain ⟨refused, hmem, heq⟩ := Option.map_eq_some_iff.1 hrefusal
    cases heq
    obtain ⟨a, hreaches, -, -, hrefused⟩ := directives_reached hlast
    obtain ⟨stop, hrefuses, rfl⟩ := hrefused refusal hmem
    have hall : a.All Token.OneLine (Directive.ReadFrom Token.OneLine)
        (Goal.ReadFrom Token.OneLine) :=
      hreaches.all ⟨Goal.readFrom_next, Goal.readFrom_fallback⟩
        ⟨by simp [Agenda.ofReading, Goal.ReadFrom, NameUse.ReadFrom], List.forall_mem_nil _, htexts,
          hend _ List.mem_cons_self⟩
    exact hrefuses.quotesLines hall.tokens hall.last
  · next stop g hrun =>
    cases hrefusal
    obtain ⟨-, hpieces, hpiece⟩ := Reader.isPiece_of_ofSource h
    have hnamed := directives_wellNamed hlast hpieces hpiece
    rcases directives_head hlast with hnone | ⟨name, rest, hhead⟩
    · rw [hnone] at hrun
      cases hrun
    · rw [hhead] at hrun hnamed
      obtain ⟨hname, hrest⟩ := List.forall_mem_cons.1 hnamed
      rw [Generator.run_cons] at hrun
      exact ((Generator.wellNamed_opened hname).log _ _ _).quotesLines_of_run hrest hrun

/-! ### Three lines -/

/-- What the excerpt and the carets are indented by. -/
def indentation : List Char :=
  List.replicate 4 ' '

theorem SyntaxError.message_lines (error : SyntaxError) (hdetail : IsLine error.detail)
    (hexcerpt : IsLine error.excerpt) : error.message.toList.splitOn '\n' =
      [("syntax error at line " ++ toString error.line ++ ": " ++ error.detail).toList,
        indentation ++ error.excerpt.toList,
        indentation ++ (List.replicate error.column ' ' ++
          List.replicate (max error.span.size 1) '^')] := by
  have hfirst :
      IsLine ("syntax error at line " ++ toString error.line ++ ": " ++ error.detail) := by
    simp only [isLine_append, (IsPlain.ofNat error.line).isLine, hdetail]
    decide
  have hbreak : "\n    ".toList = '\n' :: indentation := rfl
  have hmessage : error.message.toList = List.intercalate ['\n']
      [("syntax error at line " ++ toString error.line ++ ": " ++ error.detail).toList,
        indentation ++ error.excerpt.toList,
        indentation ++ (List.replicate error.column ' ' ++
          List.replicate (max error.span.size 1) '^')] := by
    unfold message
    simp [hbreak, String.toList_append, List.intercalate]
  have hindent : '\n' ∉ indentation := by decide
  rw [hmessage, List.splitOn_intercalate '\n' ?_ (List.cons_ne_nil _ _)]
  simp only [List.forall_mem_cons, List.mem_append, not_or]
  refine ⟨hfirst, ⟨hindent, hexcerpt⟩, ⟨hindent, ?_, ?_⟩, List.forall_mem_nil _⟩
  · exact fun hmem => absurd (List.eq_of_mem_replicate hmem) (by decide)
  · exact fun hmem => absurd (List.eq_of_mem_replicate hmem) (by decide)

theorem SyntaxError.isLine_excerpt {source : String} {span : Span} {before after : List Char}
    (hsource : source.toList = before ++ after) (hindex : byteLength before = span.index)
    (detail : String) : IsLine (locate source span detail).excerpt := by
  intro hmem
  rw [excerpt_eq hsource hindex] at hmem
  have hline := (List.rdropWhile_prefix isLineBreak _).subset hmem
  rcases List.mem_append.1 hline with hbefore | hafter
  · simpa using List.mem_rtakeWhile_imp hbefore
  · simpa using List.mem_takeWhile_imp hafter

/-! ### Carets -/

/-- The message has three lines, and the third has so many carets. In front of them there are as
many blanks, behind the indentation, as the line of the token has characters in front of it. -/
def SyntaxError.Marks (source : String) (token : Token) (carets : Nat) (error : SyntaxError) :
    Prop :=
  ∃ first before after, source.toList = before ++ (token.text.toList ++ after) ∧
    byteLength before = token.span.index ∧ error.message.toList.splitOn '\n' =
      [first, indentation ++ error.excerpt.toList,
        indentation ++ (List.replicate (before.rtakeWhile (· != '\n')).length ' ' ++
          List.replicate carets '^')]

/-- Character by character, the carets of the third line of the message are below the token on the
second line and below nothing else. -/
def SyntaxError.Underlines (token : Token) (error : SyntaxError) : Prop :=
  ∃ first shown marks place, error.message.toList.splitOn '\n' = [first, shown, marks] ∧
    (shown.drop place).take token.text.length = token.text.toList ∧
    ∀ i, marks[i]? = some '^' ↔ place ≤ i ∧ i < place + token.text.length

theorem byteLength_eq_length {x : List Char} (h : ∀ c ∈ x, c.utf8Size = 1) :
    byteLength x = x.length := by
  induction x with
  | nil => rfl
  | cons c x ih =>
    obtain ⟨hfirst, hrest⟩ := List.forall_mem_cons.1 h
    rw [byteLength_cons, hfirst, ih hrest, List.length_cons, Nat.add_comm]

theorem utf8Size_of_lt {c : Char} (h : c.toNat < 128) : c.utf8Size = 1 :=
  Char.utf8Size_eq_one_iff.2 (UInt32.le_iff_toNat_le.2 (Nat.le_of_lt_succ h))

theorem Piece.utf8Size {piece : List Char} {kind : TokenKind} (h : Piece piece (.token kind)) :
    ∀ c ∈ piece, c.utf8Size = 1 := by
  cases h with
  | word hne hword hmeaning =>
    intro c hc
    have hplain : isPlainCharacter c = true := by
      rw [isPlainCharacter, hword c hc, Bool.true_or, Bool.true_or]
    exact utf8Size_of_lt (toNat_lt_of_isPlainCharacter hplain)
  | @symbol c mark hmark =>
    have hmarks : mark.char.toNat < 128 := by cases mark <;> decide
    rw [← hmark]
    exact List.forall_mem_singleton.2 (utf8Size_of_lt hmarks)

/-- All tokens but strings are spelled in characters of one byte. -/
theorem utf8Size_of_tokens {source : String} {tokens : List Token}
    (h : Scanner.tokens source = .ok tokens) {token : Token} (hmem : token ∈ tokens)
    (hkind : token.kind ≠ .string) : ∀ c ∈ token.text.toList, c.utf8Size = 1 := by
  obtain ⟨pieces, hdivides, hfound⟩ := Scanner.pieces_of_tokens h
  rcases origin_of_pieces hdivides hfound token hmem with ⟨-, hempty⟩ | hpiece | ⟨hstring, -⟩
  · rw [hempty]
    exact List.forall_mem_nil _
  · exact hpiece.utf8Size
  · exact absurd hstring hkind

theorem getElem?_carets (m n i : Nat) :
    (List.replicate m ' ' ++ List.replicate n '^')[i]? = some '^' ↔ m ≤ i ∧ i < m + n := by
  rw [List.getElem?_append, List.length_replicate]
  split
  · next hblank =>
    rw [List.getElem?_replicate, if_pos hblank]
    exact iff_of_false (by decide) (by omega)
  · next hcaret =>
    rw [List.getElem?_replicate]
    split
    · exact iff_of_true rfl (by omega)
    · exact iff_of_false (by simp) (by omega)

section Located

variable {source : String} {tokens : List Token} {token : Token} {fault : SyntaxFault}
  (h : Scanner.tokens source = .ok tokens) (hmem : token ∈ tokens) (hfault : fault.QuotesLines)

include h hmem hfault

/-- An error at a token shows as many carets as the token has bytes, and one if it has none. -/
theorem SyntaxError.lines_locate : ∃ first,
    (locate source token.span fault.message).message.toList.splitOn '\n' =
      [first, indentation ++ (locate source token.span fault.message).excerpt.toList,
        indentation ++ (List.replicate (token.span.column source) ' ' ++
          List.replicate (max (byteLength token.text.toList) 1) '^')] := by
  obtain ⟨before, after, hsource, hindex, hsize⟩ :=
    Span.exists_of_fragment? (Scanner.fragments_of_tokens h token hmem)
  rw [hsize]
  exact ⟨_, message_lines (locate source token.span fault.message)
    (SyntaxFault.isLine_message hfault) (isLine_excerpt hsource hindex _)⟩

theorem SyntaxError.marks_locate : (locate source token.span fault.message).Marks source token
    (max (byteLength token.text.toList) 1) := by
  obtain ⟨first, hlines⟩ := lines_locate h hmem hfault
  obtain ⟨before, after, hsource, hindex, -⟩ :=
    Span.exists_of_fragment? (Scanner.fragments_of_tokens h token hmem)
  rw [Span.column_eq hsource hindex] at hlines
  exact ⟨first, before, after, hsource, hindex, hlines⟩

theorem SyntaxError.underlines_locate (hne : token.text ≠ "")
    (hbytes : ∀ c ∈ token.text.toList, c.utf8Size = 1) :
    (locate source token.span fault.message).Underlines token := by
  obtain ⟨first, hlines⟩ := lines_locate h hmem hfault
  have hprefix := (pointsAt_locate h hmem fault.message).text.2
  have hpositive : 1 ≤ token.text.length := by
    rw [← String.length_toList]
    exact List.length_pos_iff.2 fun hnil => hne (String.toList_eq_nil_iff.1 hnil)
  have hindent : indentation.length = 4 := rfl
  refine ⟨_, _, _, 4 + token.span.column source, hlines, ?_, fun i => ?_⟩
  · rw [← hindent, List.drop_length_add_append, ← String.length_toList]
    exact (List.prefix_iff_eq_take.1 hprefix).symm
  · rw [byteLength_eq_length hbytes, String.length_toList, Nat.max_eq_left hpositive,
      ← List.append_assoc, indentation, List.replicate_append_replicate]
    exact getElem?_carets _ _ i

end Located

/-- The message tells how many carets it shows. -/
theorem SyntaxError.Marks.unique {source : String} {token : Token} {m n : Nat}
    {error : SyntaxError} (h : error.Marks source token m) (k : error.Marks source token n) :
    m = n := by
  obtain ⟨first, before, after, -, -, hlines⟩ := h
  obtain ⟨other, front, behind, -, -, hothers⟩ := k
  have hthird := hlines.symm.trans hothers
  simp only [List.cons.injEq, List.append_cancel_left_eq, and_true] at hthird
  have hcount := congrArg (List.count '^') hthird.2.2
  simpa [List.count_replicate] using hcount

/-- The message of a syntax error marks a token with one caret for each byte of its text. Unless it
is a string with characters of several bytes, these are below the characters of the token, or it is
one caret for an empty text. -/
theorem carets_below_tokens (source : String) (device : Device) (error : SyntaxError)
    (h : ((compile source).deliver device).failure = some (.grammatical error)) :
    ∃ tokens, Scanner.tokens source = .ok tokens ∧ ∃ token ∈ tokens, error.span = token.span ∧
      error.Marks source token (max (byteLength token.text.toList) 1) ∧
      ((token.kind = .string → ∀ c ∈ token.text.toList, c.utf8Size = 1) →
        error.Marks source token (max token.text.length 1) ∧
          (token.text ≠ "" → error.Underlines token)) := by
  rcases failure_of_reader h with ⟨fault, hio⟩ | ⟨lexical, hlexical⟩ |
    ⟨reader, hreader, cause, hcause, hlocated⟩
  · cases hio
  · cases hlexical
  cases cause with
  | undefinedName name => cases hlocated
  | refused refusal =>
    cases hlocated
    obtain ⟨htokens, hlast, -⟩ := Reader.ofSource_tokens hreader
    have hmem : refusal.token ∈ reader.tokens ++ [reader.last] :=
      reader.work_readFrom hlast (fun token hmem => List.mem_append_left _ hmem) (by simp) _ hcause
    have hquotes := Reader.quotesLines_of_work hreader hcause
    have hmarks := SyntaxError.marks_locate htokens hmem hquotes
    refine ⟨_, htokens, refusal.token, hmem, rfl, hmarks, fun hstring => ?_⟩
    have hbytes : ∀ c ∈ refusal.token.text.toList, c.utf8Size = 1 := by
      by_cases hkind : refusal.token.kind = .string
      · exact hstring hkind
      · exact utf8Size_of_tokens htokens hmem hkind
    refine ⟨?_, fun hne => SyntaxError.underlines_locate htokens hmem hquotes hne hbytes⟩
    rwa [byteLength_eq_length hbytes, String.length_toList] at hmarks

/-- The error in `commentedText`. -/
def commentedError : SyntaxError :=
  ⟨⟨31, 1⟩, 2, 19, "expected 'identifier', found '5'", "\t/* é */ field int 5;"⟩

theorem carets_below_tokens_commentedText :
    ∃ tokens, Scanner.tokens commentedText = .ok tokens ∧ ∃ token ∈ tokens,
      commentedError.span = token.span ∧
      commentedError.Marks commentedText token (max (byteLength token.text.toList) 1) ∧
      ((token.kind = .string → ∀ c ∈ token.text.toList, c.utf8Size = 1) →
        commentedError.Marks commentedText token (max token.text.length 1) ∧
          (token.text ≠ "" → commentedError.Underlines token)) :=
  carets_below_tokens commentedText {} commentedError
    ((compile commentedText).deliver_unlimited.1.trans (by decide +kernel))

/-- A string of one character, which has two bytes, where a class should be. -/
def accentedText : String :=
  "\"é\""

/-- There are two carets for the one character, so the second is below the quote behind it. -/
theorem accentedText_marked_twice : ∃ tokens error,
    Scanner.tokens accentedText = .ok tokens ∧
      ((compile accentedText).deliver {}).failure = some (.grammatical error) ∧
      ∃ token ∈ tokens, error.span = token.span ∧ token.text.length = 1 ∧
        error.Marks accentedText token 2 ∧ ¬error.Marks accentedText token 1 := by
  have htokens : Scanner.tokens accentedText =
      .ok [⟨.string, "é", ⟨1, 2⟩⟩, .endAt accentedText.utf8ByteSize] := by decide +kernel
  have hquotes : (SyntaxFault.unexpected "'class'" .string "é").QuotesLines :=
    ⟨by decide, by decide⟩
  have hmarks := SyntaxError.marks_locate htokens List.mem_cons_self hquotes
  refine ⟨_, _, htokens, (compile accentedText).deliver_unlimited.1.trans ?_, _,
    List.mem_cons_self, rfl, ?_, hmarks, fun hone => ?_⟩
  · decide +kernel
  · decide
  · exact absurd (hmarks.unique hone) (by decide)

end JackCompiler
