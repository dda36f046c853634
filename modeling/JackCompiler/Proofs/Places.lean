import JackCompiler.Proofs.Coordinates
import JackCompiler.Proofs.EarliestErrors
import JackCompiler.Proofs.Layout

/-!
Where an error points. Lines and columns are taken from the text on either side of a place, and the
line that is shown from the line feeds around it. Every token has a place in the text and stays on
one line, so an error that is located at a token shows it.
-/

namespace JackCompiler

/-! ### Lines -/

theorem length_splitOn (text : List Char) :
    (text.splitOn '\n').length = text.count '\n' + 1 := by
  induction text with
  | nil => rfl
  | cons c text ih =>
    rw [List.splitOn_eq_splitOnP, List.splitOnP_cons_eq_if_modifyHead, ← List.splitOn_eq_splitOnP,
      List.count_cons]
    split
    · rw [List.length_cons, ih]
    · rw [List.length_modifyHead, ih, Nat.add_zero]

/-- The first line of a text goes up to its first line feed. -/
theorem head?_splitOn (text : List Char) :
    (text.splitOn '\n').head? = some (text.takeWhile (· != '\n')) := by
  induction text with
  | nil => rfl
  | cons c text ih =>
    rw [List.splitOn_eq_splitOnP, List.splitOnP_cons_eq_if_modifyHead, ← List.splitOn_eq_splitOnP,
      List.takeWhile_cons]
    by_cases hnewline : c = '\n'
    · simp [hnewline]
    · simp [hnewline, ih]

/-- The line around a place in a text has as many lines before it as there are line feeds before the
place. -/
theorem splitOn_getElem? (before after : List Char) :
    ((before ++ after).splitOn '\n')[before.count '\n']? =
      some (before.rtakeWhile (· != '\n') ++ after.takeWhile (· != '\n')) := by
  -- The character before the place goes over to the other side, unless it ends a line.
  induction before using List.reverseRecOn generalizing after with
  | nil => rw [List.nil_append, List.rtakeWhile_nil, List.nil_append, ← head?_splitOn,
      List.head?_eq_getElem?, List.count_nil]
  | append_singleton before c ih =>
    rw [List.append_assoc, List.singleton_append, List.count_append]
    by_cases hnewline : c = '\n'
    · subst hnewline
      rw [List.splitOn_eq_splitOnP, List.splitOnP_append_cons _ _ rfl, ← List.splitOn_eq_splitOnP,
        ← List.splitOn_eq_splitOnP, List.count_singleton_self, ← length_splitOn,
        List.getElem?_append_right (Nat.le_refl _), Nat.sub_self, ← List.head?_eq_getElem?,
        head?_splitOn, List.rtakeWhile_concat_neg _ _ _ (by simp), List.nil_append]
    · rw [List.count_singleton, if_neg (by simpa using hnewline), Nat.add_zero, ih,
        List.rtakeWhile_concat_pos _ _ _ (by simpa using hnewline),
        List.takeWhile_cons_of_pos (by simpa using hnewline), List.append_cons]

/-! ### Spans -/

theorem Cut.advance_split (before text : List Char) (offset : Nat) :
    ∃ passed, text = passed ++ (advance before text offset).after ∧
      (advance before text offset).before = passed.reverse ++ before := by
  induction text generalizing before offset with
  | nil => exact ⟨[], rfl, rfl⟩
  | cons c text ih =>
    rw [advance]
    split
    · obtain ⟨passed, htext, hbefore⟩ := ih (c :: before) (offset - c.utf8Size)
      refine ⟨c :: passed, congrArg (List.cons c) htext, ?_⟩
      rw [hbefore, List.reverse_cons, List.append_assoc, List.singleton_append]
    · exact ⟨[], rfl, rfl⟩

/-- The text of a span stands behind as many bytes as the span says. -/
theorem Span.exists_of_fragment? {span : Span} {source text : String}
    (h : span.fragment? source = some text) :
    ∃ before after, source.toList = before ++ (text.toList ++ after) ∧
      byteLength before = span.index ∧ byteLength text.toList = span.size := by
  rw [fragment?] at h
  split at h
  · rename_i hplace
    obtain ⟨hindex, hsize⟩ := hplace
    cases h
    obtain ⟨before, hsource, hbefore⟩ := Cut.advance_split [] source.toList span.index
    obtain ⟨inside, hafter, hinside⟩ := Cut.advance_split [] (span.cut source).after span.size
    rw [List.append_nil] at hbefore hinside
    rw [Cut.offset, hinside, byteLength_reverse] at hsize
    rw [Cut.offset, cut, Cut.ofOffset, hbefore, byteLength_reverse] at hindex
    refine ⟨before, (Cut.advance [] (span.cut source).after span.size).after, ?_, hindex, ?_⟩
    · rw [hinside, List.reverse_reverse, String.toList_ofList, ← hafter]
      exact hsource
    · rw [hinside, List.reverse_reverse, String.toList_ofList]
      exact hsize
  · cases h

/-- Every token of a text has a place in it. -/
theorem Token.exists_place {source : String} {tokens : List Token}
    (h : Scanner.tokens source = .ok tokens) {token : Token} (hmem : token ∈ tokens) :
    ∃ before after, source.toList = before ++ after ∧ byteLength before = token.span.index := by
  obtain ⟨before, after, hsource, hindex, -⟩ :=
    Span.exists_of_fragment? (Scanner.fragments_of_tokens h token hmem)
  exact ⟨before, _, hsource, hindex⟩

section Located

variable {source : String} {span : Span} {before after : List Char}
  (hsource : source.toList = before ++ after) (hindex : byteLength before = span.index)

include hsource hindex

/-- The excerpt is the line around the place without the line breaks at its end. -/
theorem SyntaxError.excerpt_eq (detail : String) : (locate source span detail).excerpt.toList =
    (before.rtakeWhile (· != '\n') ++ after.takeWhile (· != '\n')).rdropWhile isLineBreak := by
  rw [locate, Span.surroundingLine_eq hsource hindex, trimLineBreaks, String.toList_ofList,
    String.toList_ofList, lineAround, ← List.append_assoc]
  change List.rdropWhile isLineBreak (before.rtakeWhile (· != '\n') ++
    after.takeWhile (· != '\n') ++ (after.dropWhile (· != '\n')).take 1) = _
  cases hrest : after.dropWhile (· != '\n') with
  | nil => rw [List.take_nil, List.append_nil]
  | cons c rest =>
    have hnewline : c = '\n' := by
      have hfirst := not_of_head?_dropWhile (· != '\n') after c (by rw [hrest]; rfl)
      simpa using hfirst
    rw [hnewline, List.take_succ_cons, List.take_zero, List.rdropWhile_concat_pos _ _ _ rfl]

end Located

/-! ### Tokens on their lines -/

theorem Piece.not_isLineBreak {piece : List Char} {kind : TokenKind}
    (h : Piece piece (.token kind)) : ∀ c ∈ piece, isLineBreak c = false := by
  cases h with
  | word hne hword hmeaning => exact fun c hc => not_isLineBreak_of_isWordCharacter (hword c hc)
  | @symbol c mark hmark =>
    refine List.forall_mem_singleton.2 (Bool.eq_false_iff.2 fun hbreak => ?_)
    have hblank := isBlank_of_isLineBreak hbreak
    rw [← hmark, mark.not_isBlank] at hblank
    cases hblank

/-- No token goes over the end of a line. -/
theorem not_isLineBreak_of_tokens {source : String} {tokens : List Token}
    (h : Scanner.tokens source = .ok tokens) :
    ∀ token ∈ tokens, ∀ c ∈ token.text.toList, isLineBreak c = false := by
  intro token hmem c hc
  obtain ⟨pieces, hdivides, hfound⟩ := Scanner.pieces_of_tokens h
  rcases origin_of_pieces hdivides hfound token hmem with ⟨-, htext⟩ | hpiece | ⟨-, hstring⟩
  · rw [htext] at hc
    cases hc
  · exact hpiece.not_isLineBreak c hc
  · have hinside := hstring c hc
    rw [isStringCharacter, Bool.and_eq_true, Bool.not_eq_true'] at hinside
    exact hinside.2

/-- Trimming leaves what stands before a character that stays. -/
theorem rdropWhile_append {p : Char → Bool} {x : List Char} (hx : ∀ c ∈ x.getLast?, p c = false)
    (y : List Char) : (x ++ y).rdropWhile p = x ++ y.rdropWhile p := by
  induction y using List.reverseRecOn with
  | nil =>
    rw [List.append_nil, List.rdropWhile_nil, List.append_nil, List.rdropWhile_eq_self_iff]
    intro hne
    rw [hx _ (List.getLast?_eq_some_getLast hne)]
    exact Bool.false_ne_true
  | append_singleton y c ih =>
    rw [← List.append_assoc, List.rdropWhile_concat, List.rdropWhile_concat]
    split
    · exact ih
    · rw [List.append_assoc]

/-- A text without line breaks stays in its place when its line is trimmed. -/
theorem prefix_drop_trimmed {text : List Char} (htext : ∀ c ∈ text, isLineBreak c = false)
    (left right : List Char) :
    text <+: ((left ++ (text ++ right)).rdropWhile isLineBreak).drop left.length := by
  by_cases hempty : text = []
  · rw [hempty]
    exact List.nil_prefix
  · have hlast : ∀ c ∈ (left ++ text).getLast?, isLineBreak c = false := by
      intro c hc
      rw [List.getLast?_append_of_ne_nil _ hempty] at hc
      exact htext c (List.mem_of_getLast? hc)
    rw [← List.append_assoc, rdropWhile_append hlast, List.append_assoc, List.drop_left]
    exact List.prefix_append _ _

/-! ### Errors and tokens -/

/-- The line of an offset: one more than the number of line feeds before it. -/
def LineAt (source : String) (offset line : Nat) : Prop :=
  ∃ before after, source.toList = before ++ after ∧ byteLength before = offset ∧
    line = 1 + before.count '\n'

/-- The error is about the token. It has the place and the line of the token, it shows that line
without the line breaks at its end, and behind as many characters as the column says stands the
text of the token, or nothing if the token is the end. -/
structure SyntaxError.PointsAt (source : String) (token : Token) (error : SyntaxError) : Prop where
  span : error.span = token.span
  line : LineAt source error.span.index error.line
  excerpt : ∃ breaks, (source.toList.splitOn '\n')[error.line - 1]? =
      some (error.excerpt.toList ++ breaks) ∧
    (∀ c ∈ breaks, isLineBreak c = true) ∧
    ∀ c ∈ error.excerpt.toList.getLast?, isLineBreak c = false
  text : token.span.fragment? source = some token.text ∧
    token.text.toList <+: error.excerpt.toList.drop error.column
  atEnd : token.kind = .endOfFile → error.excerpt.toList.drop error.column = []

/-- A token that is the end of a text has nothing behind it. -/
theorem nothing_after_end {source : String} {tokens : List Token}
    (h : Scanner.tokens source = .ok tokens) {token : Token} (hmem : token ∈ tokens)
    (hkind : token.kind = .endOfFile) {before after : List Char}
    (hsource : source.toList = before ++ after) (hindex : byteLength before = token.span.index) :
    after = [] := by
  obtain ⟨pieces, hdivides, hfound⟩ := Scanner.pieces_of_tokens h
  have hwhole : source.toList = [] ++ source.toList := rfl
  obtain ⟨earlier, rfl, hearlier⟩ := fragments_of_pieces hwhole hdivides hfound
  rcases List.mem_append.1 hmem with hearly | hlast
  · exact absurd hkind (hearlier token hearly).1
  · rw [List.mem_singleton.1 hlast, Token.endAt, utf8ByteSize_eq, hsource, byteLength_append]
      at hindex
    cases after with
    | nil => rfl
    | cons c after =>
      have hpositive := c.utf8Size_pos
      simp only [byteLength_cons] at hindex
      omega

theorem SyntaxError.pointsAt_locate {source : String} {tokens : List Token}
    (h : Scanner.tokens source = .ok tokens) {token : Token} (hmem : token ∈ tokens)
    (detail : String) : PointsAt source token (.locate source token.span detail) := by
  have hfragment := Scanner.fragments_of_tokens h token hmem
  have hbreaks := not_isLineBreak_of_tokens h token hmem
  obtain ⟨before, after, hsource, hindex, -⟩ := Span.exists_of_fragment? hfragment
  have hline : (locate source token.span detail).line = 1 + before.count '\n' :=
    Span.lineNumber_eq hsource hindex
  have hcolumn : (locate source token.span detail).column =
      (before.rtakeWhile (· != '\n')).length := Span.column_eq hsource hindex
  have hexcerpt := excerpt_eq hsource hindex detail
  have hinside : (token.text.toList ++ after).takeWhile (· != '\n') =
      token.text.toList ++ after.takeWhile (· != '\n') := by
    refine List.takeWhile_append_of_pos fun c hc => ?_
    have hbreak := hbreaks c hc
    rw [isLineBreak, Bool.or_eq_false_iff] at hbreak
    simpa using hbreak.1
  refine ⟨rfl, ⟨before, _, hsource, hindex, hline⟩, ?_, ⟨hfragment, ?_⟩, fun hend => ?_⟩
  · refine ⟨(before.rtakeWhile (· != '\n') ++
      (token.text.toList ++ after).takeWhile (· != '\n')).rtakeWhile isLineBreak, ?_, ?_, ?_⟩
    · rw [hline, Nat.add_sub_cancel_left, hsource, splitOn_getElem?, hexcerpt,
        List.rdropWhile_append_rtakeWhile]
    · exact fun c hc => List.mem_rtakeWhile_imp hc
    · intro c hc
      rw [hexcerpt] at hc
      have hne : List.rdropWhile isLineBreak _ ≠ [] := List.ne_nil_of_mem (List.mem_of_getLast? hc)
      have hlast := List.rdropWhile_last_not isLineBreak _ hne
      rw [List.getLast?_eq_some_getLast hne] at hc
      cases hc
      exact Bool.eq_false_iff.2 hlast
  · rw [hexcerpt, hcolumn, hinside]
    exact prefix_drop_trimmed hbreaks _ _
  · have hnone := nothing_after_end h hmem hend hsource hindex
    rw [hexcerpt, hcolumn, hnone, List.takeWhile_nil, List.append_nil]
    exact List.drop_eq_nil_of_le (List.rdropWhile_prefix isLineBreak _).length_le

theorem LineAt.lineNumber {source : String} {tokens : List Token}
    (h : Scanner.tokens source = .ok tokens) {token : Token} (hmem : token ∈ tokens) :
    LineAt source token.span.index (token.span.lineNumber source) := by
  obtain ⟨before, after, hsource, hindex⟩ := token.exists_place h hmem
  exact ⟨before, after, hsource, hindex, Span.lineNumber_eq hsource hindex⟩

/-- A device adds no failures but its own. -/
theorem Transcript.failure_of_deliver {transcript : Transcript} {device : Device}
    {failure : Diagnostic} (h : (transcript.deliver device).failure = some failure) :
    (∃ fault, failure = .io fault) ∨ transcript.failure = some failure := by
  unfold deliver at h
  split at h
  · cases h
    exact .inl ⟨_, rfl⟩
  · split at h
    · rename_i hfailure
      exact .inr (hfailure.trans h)
    · obtain ⟨fault, -, rfl⟩ := Option.map_eq_some_iff.1 h
      exact .inl ⟨fault, rfl⟩

/-- A compilation fails in scanning or for the device, or else in the work for its tokens. -/
theorem failure_of_reader {source : String} {device : Device} {failure : Diagnostic}
    (h : ((compile source).deliver device).failure = some failure) :
    (∃ fault, failure = .io fault) ∨ (∃ error, failure = .lexical error) ∨
      ∃ reader, Reader.ofSource source = .ok reader ∧
        ∃ cause ∈ reader.work.2, failure = cause.locate source := by
  rcases Transcript.failure_of_deliver h with hio | hfailure
  · exact .inl hio
  refine .inr ?_
  cases hreader : Reader.ofSource source with
  | error error =>
    rw [compile, hreader] at hfailure
    cases hfailure
    exact .inl ⟨error, rfl⟩
  | ok reader =>
    rw [compile_eq_work hreader] at hfailure
    obtain ⟨cause, hcause, rfl⟩ := Option.map_eq_some_iff.1 hfailure
    exact .inr ⟨reader, rfl, cause, hcause, rfl⟩

/-- A compilation that does not fail in scanning or for the device fails at one of the tokens. -/
theorem failure_of_tokens {source : String} {device : Device} {failure : Diagnostic}
    (h : ((compile source).deliver device).failure = some failure) :
    (∃ fault, failure = .io fault) ∨ (∃ error, failure = .lexical error) ∨
      ∃ tokens, Scanner.tokens source = .ok tokens ∧
        ∃ cause : Failure, cause.ReadFrom (· ∈ tokens) ∧ failure = cause.locate source := by
  refine (failure_of_reader h).imp_right (Or.imp_right ?_)
  rintro ⟨reader, hreader, cause, hcause, hlocated⟩
  obtain ⟨htokens, hlast, -⟩ := Reader.ofSource_tokens hreader
  refine ⟨_, htokens, cause, ?_, hlocated⟩
  exact reader.work_readFrom hlast (fun token hmem => List.mem_append_left _ hmem) (by simp) cause
    hcause

/-- A syntax error points at one of the tokens, and a name that is not defined is that of an
identifier on the line that is reported. -/
theorem errors_point_at_tokens (source : String) (device : Device) :
    (∀ error, ((compile source).deliver device).failure = some (.grammatical error) →
      ∃ tokens, Scanner.tokens source = .ok tokens ∧
        ∃ token ∈ tokens, error.PointsAt source token) ∧
    ∀ name line,
      ((compile source).deliver device).failure = some (.undefinedName name line) →
      ∃ tokens, Scanner.tokens source = .ok tokens ∧
        ∃ token ∈ tokens, token.kind = .identifier ∧ token.text = name ∧
          token.span.fragment? source = some name ∧ LineAt source token.span.index line := by
  constructor
  · intro error herror
    rcases failure_of_tokens herror with ⟨fault, hio⟩ | ⟨lexical, hlexical⟩ |
      ⟨tokens, htokens, cause, hcause, hlocated⟩
    · cases hio
    · cases hlexical
    · cases cause with
      | undefinedName token => cases hlocated
      | refused refusal =>
        cases hlocated
        exact ⟨tokens, htokens, refusal.token, hcause, SyntaxError.pointsAt_locate htokens hcause _⟩
  · intro name line herror
    rcases failure_of_tokens herror with ⟨fault, hio⟩ | ⟨lexical, hlexical⟩ |
      ⟨tokens, htokens, cause, hcause, hlocated⟩
    · cases hio
    · cases hlexical
    · cases cause with
      | refused refusal => cases hlocated
      | undefinedName token =>
        cases hlocated
        obtain ⟨hmem, hkind⟩ := hcause
        exact ⟨tokens, htokens, token, hmem, hkind, rfl,
          Scanner.fragments_of_tokens htokens token hmem, .lineNumber htokens hmem⟩

/-- A number stands in the place of a name, on a line with characters of several bytes. -/
def commentedText : String :=
  "class A \x7b\r\n\t/* é */ field int 5;\r\n\x7d"

/-- The text ends with an empty line, and the class is not closed. -/
def unclosedText : String :=
  "class A \x7b // é\r\n"

/-- A name that is not declared, on the second line. -/
def unknownNameText : String :=
  "class A \x7b function int f(int a) \x7b\r\n /* é */ return a + x; \x7d \x7d"

theorem errors_point_at_tokens_texts :
    (∃ tokens, Scanner.tokens commentedText = .ok tokens ∧ ∃ token ∈ tokens,
      SyntaxError.PointsAt commentedText token
        ⟨⟨31, 1⟩, 2, 19, "expected 'identifier', found '5'", "\t/* é */ field int 5;"⟩) ∧
    (∃ tokens, Scanner.tokens unclosedText = .ok tokens ∧ ∃ token ∈ tokens,
      SyntaxError.PointsAt unclosedText token
        ⟨⟨17, 0⟩, 2, 0, "expected '\x7d', found end-of-file", ""⟩) ∧
    ∃ tokens, Scanner.tokens unknownNameText = .ok tokens ∧ ∃ token ∈ tokens,
      token.kind = .identifier ∧ token.text = "x" ∧
        token.span.fragment? unknownNameText = some "x" ∧
        LineAt unknownNameText token.span.index 2 :=
  ⟨(errors_point_at_tokens commentedText {}).1 _
      ((compile commentedText).deliver_unlimited.1.trans (by decide +kernel)),
    (errors_point_at_tokens unclosedText {}).1 _
      ((compile unclosedText).deliver_unlimited.1.trans (by decide +kernel)),
    (errors_point_at_tokens unknownNameText {}).2 "x" 2
      ((compile unknownNameText).deliver_unlimited.1.trans (by decide +kernel))⟩

end JackCompiler
