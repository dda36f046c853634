import JackCompiler.Diagnostic

/-!
Splitting text into tokens. A scanner holds the characters that are still to come together with the
offset and the line of the first of them. Blanks and comments before a token are passed over, and
every word and number takes all the letters and digits that it can. Scanning goes on after an
error, so that a text has a list of results that always ends with the end of the text.
-/

namespace JackCompiler

/-- The blanks: space, tab, line feed, carriage return, form feed, no-break space and the
zero-width no-break space. -/
def isBlank (c : Char) : Bool :=
  c = ' ' || c = '\t' || c = '\n' || c = '\r' || c = '\x0c' || c = '\u00a0' || c = '\ufeff'

def isDigit (c : Char) : Bool :=
  '0' ≤ c && c ≤ '9'

def isLetter (c : Char) : Bool :=
  ('a' ≤ c && c ≤ 'z') || ('A' ≤ c && c ≤ 'Z') || c = '_'

def isWordCharacter (c : Char) : Bool :=
  isLetter c || isDigit c

/-- Characters that may stand between the quotes of a string constant. -/
def isStringCharacter (c : Char) : Bool :=
  c != '"' && !isLineBreak c

structure Scanner where
  rest : List Char
  offset : Nat
  line : Nat

namespace Scanner

def start (source : String) : Scanner :=
  ⟨source.toList, 0, 1⟩

/-- The scanner after `taken`, with `rest` to come. -/
def past (scanner : Scanner) (taken rest : List Char) : Scanner :=
  ⟨rest, scanner.offset + byteLength taken, scanner.line + taken.count '\n'⟩

/-- What lies around a character that belongs to no token. A block comment remembers the line it
was opened on. -/
inductive Gap where
  | blank
  | lineComment
  | blockComment (line : Nat)

/-- Passes over blanks and comments. A line comment ends with its line break, which is blank itself,
and only a block comment that is never closed is an error. -/
def skip : Gap → List Char → Nat → Nat → Option LexicalError × Scanner
  | .blockComment line, [], offset, last =>
    (some (.unterminatedComment line), ⟨[], offset, last⟩)
  | _, [], offset, line => (none, ⟨[], offset, line⟩)
  | .blockComment _, '*' :: '/' :: rest, offset, line => skip .blank rest (offset + 2) line
  | .blockComment opened, c :: rest, offset, line =>
    skip (.blockComment opened) rest (offset + c.utf8Size) (if c = '\n' then line + 1 else line)
  | .lineComment, c :: rest, offset, line =>
    skip (if isLineBreak c then .blank else .lineComment) rest (offset + c.utf8Size)
      (if c = '\n' then line + 1 else line)
  | .blank, '/' :: '/' :: rest, offset, line => skip .lineComment rest (offset + 2) line
  | .blank, '/' :: '*' :: rest, offset, line => skip (.blockComment line) rest (offset + 2) line
  | .blank, c :: rest, offset, line =>
    if isBlank c then
      skip .blank rest (offset + c.utf8Size) (if c = '\n' then line + 1 else line)
    else (none, ⟨c :: rest, offset, line⟩)

/-- The value of a run of decimal digits. -/
def decimal (digits : List Char) : Nat :=
  digits.foldl (fun value digit => value * 10 + (digit.toNat - '0'.toNat)) 0

/-- A run of letters and digits as a token kind. It is a number if it starts with a digit, and then
it must hold nothing else. -/
def classify (word : List Char) (line : Nat) : Except LexicalError TokenKind :=
  let text := String.ofList word
  if (word.head?.any isDigit) then
    if word.all isDigit then
      if decimal word ≤ maxInteger then .ok (.integer (decimal word))
      else .error (.integerOverflow text line)
    else .error (.malformedWord text line)
  else
    match Keyword.ofText? text with
    | some word => .ok (.keyword word)
    | none => .ok .identifier

/-- The token at the scanner, which stands on no blank and no comment. -/
def lexeme (scanner : Scanner) : Except LexicalError Token × Scanner :=
  match scanner.rest with
  | [] => (.ok (.endAt scanner.offset), scanner)
  | '"' :: rest =>
    let body := rest.takeWhile isStringCharacter
    match rest.dropWhile isStringCharacter with
    | '"' :: after =>
      (.ok ⟨.string, String.ofList body, ⟨scanner.offset + 1, byteLength body⟩⟩,
        scanner.past ('"' :: body ++ ['"']) after)
    | after => (.error (.unterminatedString scanner.line), scanner.past ('"' :: body) after)
  | c :: rest =>
    if isWordCharacter c then
      let word := (c :: rest).takeWhile isWordCharacter
      let span := ⟨scanner.offset, byteLength word⟩
      ((classify word scanner.line).map (⟨·, String.ofList word, span⟩),
        scanner.past word ((c :: rest).dropWhile isWordCharacter))
    else
      match Symbol.ofChar? c with
      | some mark =>
        (.ok ⟨.symbol mark, c.toString, ⟨scanner.offset, c.utf8Size⟩⟩, scanner.past [c] rest)
      | none => (.error (.unknownCharacter c scanner.line), scanner.past [c] rest)

/-- The next token or error. Past the last token it is the end of the text, again and again. -/
def next (scanner : Scanner) : Except LexicalError Token × Scanner :=
  match skip .blank scanner.rest scanner.offset scanner.line with
  | (some error, after) => (.error error, after)
  | (none, after) => after.lexeme

/-- Whether scanning is over. -/
def isEnd : Except LexicalError Token → Bool
  | .ok token => token.kind = .endOfFile
  | .error _ => false

theorem skip_length_le (gap : Gap) (rest : List Char) (offset line : Nat) :
    (skip gap rest offset line).2.rest.length ≤ rest.length := by
  fun_induction skip gap rest offset line <;> simp_all <;> omega

/-- An unclosed comment leaves nothing behind it. -/
theorem skip_error {gap : Gap} {rest : List Char} {offset line : Nat} {error : LexicalError}
    (h : (skip gap rest offset line).1 = some error) :
    (skip gap rest offset line).2.rest = [] := by
  fun_induction skip gap rest offset line <;> simp_all

theorem length_dropWhile_le (p : Char → Bool) (rest : List Char) :
    (rest.dropWhile p).length ≤ rest.length :=
  (List.dropWhile_sublist p).length_le

theorem lexeme_shorter (scanner : Scanner) (h : isEnd scanner.lexeme.1 = false) :
    scanner.lexeme.2.rest.length < scanner.rest.length := by
  unfold lexeme at h ⊢
  split at h
  · simp [isEnd, Token.endAt] at h
  · rename_i rest heq
    have hle := length_dropWhile_le isStringCharacter rest
    rw [heq, List.length_cons]
    dsimp only
    split
    · rename_i after hdrop
      rw [hdrop, List.length_cons] at hle
      simp only [past]
      omega
    · simp only [past]
      omega
  · rename_i c rest hquote heq
    rw [heq, List.length_cons]
    dsimp only
    by_cases hword : isWordCharacter c = true
    · have hle := length_dropWhile_le isWordCharacter rest
      simp only [hword, if_true, past, List.dropWhile_cons]
      omega
    · simp only [hword, Bool.false_eq_true, if_false]
      split <;> simp [past]

theorem next_shorter {scanner after : Scanner} {result : Except LexicalError Token}
    (hnext : scanner.next = (result, after)) (hend : ¬isEnd result) :
    after.rest.length < scanner.rest.length := by
  have hle := skip_length_le .blank scanner.rest scanner.offset scanner.line
  unfold next at hnext
  split at hnext
  · rename_i error stop hskip
    obtain ⟨rfl, rfl⟩ := Prod.mk.inj hnext
    have hrest : stop.rest = [] := by
      simpa [hskip] using skip_error (congrArg Prod.fst hskip)
    cases hs : scanner.rest with
    | nil => simp [hs, skip] at hskip
    | cons c rest => simp [hrest]
  · rename_i stop hskip
    rw [hskip] at hle
    have hlt := lexeme_shorter stop (by simpa [hnext] using hend)
    rw [hnext] at hlt
    exact Nat.lt_of_lt_of_le hlt hle

/-- All results from the scanner on, up to the end of the text; `found` holds the earlier ones,
latest first. -/
def resultsFrom (found : List (Except LexicalError Token)) (scanner : Scanner) :
    List (Except LexicalError Token) :=
  match hnext : scanner.next with
  | (result, after) =>
    if hend : isEnd result then (result :: found).reverse
    else
      have : after.rest.length < scanner.rest.length := next_shorter hnext hend
      resultsFrom (result :: found) after
termination_by scanner.rest.length

/-- Every token and error of the text, in order. -/
def results (source : String) : List (Except LexicalError Token) :=
  resultsFrom [] (start source)

/-- The tokens of the text, or its first error. -/
def tokens (source : String) : Except LexicalError (List Token) :=
  (results source).mapM id

end Scanner

end JackCompiler
