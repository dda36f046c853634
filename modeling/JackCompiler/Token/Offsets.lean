import JackCompiler.Token.Scanner

/-!
Tokens as they are kept. The place of a token is kept as two numbers of 32 bits, and the text of a
word or of a string constant is what stands at the place that is kept. In a text of `2 ^ 32` bytes
or more these numbers start again from zero, so that a token may be given the text of another place,
or of no place at all.
-/

namespace JackCompiler

/-- The position between two characters of the text that has this offset. -/
def position? (text : String) (offset : Nat) : Option text.Pos :=
  if h : String.Pos.Raw.IsValid text ⟨offset⟩ then some ⟨⟨offset⟩, h⟩ else none

/-- What stands in the text between two offsets. There is nothing where the offsets are not in
order, leave the text or split a character. -/
def between? (text : String) (start stop : Nat) : Option String := do
  let first ← position? text start
  let last ← position? text stop
  if start ≤ stop then some (text.extract first last) else none

namespace Span

/-- The span in numbers of 32 bits. -/
def kept (span : Span) : Span :=
  ⟨span.index % UInt32.size, span.size % UInt32.size⟩

/-- What stands at the span. The offset just past it is a sum in 32 bits. -/
def keptText? (span : Span) (source : String) : Option String :=
  between? source span.index ((span.index + span.size) % UInt32.size)

end Span

/-- The token at the place that is kept. If it is a string constant its text is what stands there;
where nothing does, nobody may ask for the text. -/
def Token.kept (source : String) (token : Token) : Token :=
  let span := token.span.kept
  match token.kind with
  | .string => ⟨.string, (span.keptText? source).getD "", span⟩
  | kind => ⟨kind, token.text, span⟩

namespace Scanner

/-- What a word is that starts with this character and has this text. Only the character decides
whether it should be a number. -/
def reclassify (first : Char) (text : String) (line : Nat) : Except LexicalError TokenKind :=
  if isDigit first then
    if text.toList.all isDigit then
      if text ≠ "" ∧ decimal text.toList ≤ maxInteger then
        .ok (.integer (decimal text.toList))
      else .error (.integerOverflow text line)
    else .error (.malformedWord text line)
  else
    match Keyword.ofText? text with
    | some word => .ok (.keyword word)
    | none => .ok .identifier

/-- The token at the scanner, as it is kept. There is none if nothing stands at the place that is
kept for a word. -/
def keptLexeme? (source : String) (scanner : Scanner) :
    Option (Except LexicalError Token × Scanner) :=
  let found := scanner.lexeme
  match scanner.rest.head?.filter isWordCharacter with
  | some first => do
    let span := Span.kept ⟨scanner.offset, found.2.offset - scanner.offset⟩
    let text ← span.keptText? source
    some ((reclassify first text scanner.line).map (⟨·, text, span⟩), found.2)
  | none => some (found.1.map (Token.kept source), found.2)

/-- The next token or error, as it is kept. -/
def keptNext? (source : String) (scanner : Scanner) :
    Option (Except LexicalError Token × Scanner) :=
  match skip .blank scanner.rest scanner.offset scanner.line with
  | (some error, after) => some (.error error, after)
  | (none, after) => after.keptLexeme? source

theorem isEnd_map_kept (source : String) (result : Except LexicalError Token) :
    isEnd (result.map (Token.kept source)) = isEnd result := by
  cases result with
  | error error => rfl
  | ok token =>
    obtain ⟨kind, text, span⟩ := token
    cases kind <;> rfl

theorem classify_ne_end (word : List Char) (line : Nat) : classify word line ≠ .ok .endOfFile := by
  unfold classify
  dsimp only
  split
  · split
    · split <;> nofun
    · nofun
  · split <;> nofun

/-- The end of the text is only found where there is no character. -/
theorem isEnd_lexeme {scanner : Scanner} {first : Char} (h : scanner.rest.head? = some first) :
    isEnd scanner.lexeme.1 = false := by
  unfold lexeme
  split
  · rename_i hrest
    rw [hrest] at h
    cases h
  · dsimp only
    split <;> rfl
  · rename_i c rest hquote hrest
    dsimp only
    split
    · dsimp only
      cases hword : classify ((c :: rest).takeWhile isWordCharacter) scanner.line with
      | error error => rfl
      | ok kind => exact decide_eq_false fun hend =>
        classify_ne_end _ _ (hword.trans (congrArg Except.ok hend))
    · split <;> rfl

/-- Keeping a token does not change where the scanner goes on. -/
theorem keptLexeme?_shorter {source : String} {scanner after : Scanner}
    {result : Except LexicalError Token} (h : scanner.keptLexeme? source = some (result, after))
    (hend : isEnd result = false) : after.rest.length < scanner.rest.length := by
  have hlexeme : after = scanner.lexeme.2 ∧ isEnd scanner.lexeme.1 = false := by
    unfold keptLexeme? at h
    dsimp only at h
    split at h
    · rename_i first hfirst
      obtain ⟨text, -, htext⟩ := Option.bind_eq_some_iff.1 h
      cases htext
      exact ⟨rfl, isEnd_lexeme (Option.filter_eq_some_iff.1 hfirst).1⟩
    · cases h
      exact ⟨rfl, (isEnd_map_kept source _).symm.trans hend⟩
  rw [hlexeme.1]
  exact lexeme_shorter scanner hlexeme.2

theorem keptNext?_shorter {source : String} {scanner after : Scanner} {token : Token}
    (h : scanner.keptNext? source = some (.ok token, after)) (hend : token.kind ≠ .endOfFile) :
    after.rest.length < scanner.rest.length := by
  have hle := skip_length_le .blank scanner.rest scanner.offset scanner.line
  unfold keptNext? at h
  split at h
  · cases h
  · rename_i stop hskip
    rw [hskip] at hle
    exact Nat.lt_of_lt_of_le (keptLexeme?_shorter h (decide_eq_false hend)) hle

/-- The tokens from the scanner on, or the first error; `found` holds the earlier ones, latest
first. -/
def keptTokensFrom (source : String) (found : List Token) (scanner : Scanner) :
    Option (Except LexicalError (List Token)) :=
  match hnext : scanner.keptNext? source with
  | none => none
  | some (.error error, _) => some (.error error)
  | some (.ok token, after) =>
    if hend : token.kind = .endOfFile then some (.ok (token :: found).reverse)
    else
      have : after.rest.length < scanner.rest.length := keptNext?_shorter hnext hend
      keptTokensFrom source (token :: found) after
termination_by scanner.rest.length

/-- The tokens of the text as they are kept, or its first error. -/
def keptTokens? (source : String) : Option (Except LexicalError (List Token)) :=
  keptTokensFrom source [] (start source)

end Scanner

end JackCompiler
