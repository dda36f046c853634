import JackCompiler.Proofs.RenamedTexts
import JackCompiler.Proofs.CodeText

/-!
Writing tokens down. A token can be spelled in more than one way, and what stands between two tokens
is free, as long as it starts with a blank. Whatever is chosen, scanning the text that is written
finds the tokens again.
-/

namespace JackCompiler

/-- A token to be written. A number may have zeros in front of it. -/
inductive Spelling where
  | keyword (word : Keyword)
  | symbol (mark : Symbol)
  | identifier (name : Identifier)
  | integer (zeros value : Nat) (hvalue : value ≤ maxInteger)
  | string (body : List Char) (hbody : ∀ c ∈ body, isStringCharacter c = true)

namespace Spelling

def kind : Spelling → TokenKind
  | keyword word => .keyword word
  | symbol mark => .symbol mark
  | identifier _ => .identifier
  | integer _ value _ => .integer value
  | string _ _ => .string

/-- The text of the token. -/
def text : Spelling → String
  | keyword word => word.text
  | symbol mark => mark.char.toString
  | identifier name => name.1
  | integer zeros value _ => String.ofList (List.replicate zeros '0') ++ toString value
  | string body _ => String.ofList body

/-- What is written for the token: its text, and quotes around a string. -/
def written (spelling : Spelling) : List Char :=
  match spelling with
  | string body _ => '"' :: (body ++ ['"'])
  | _ => spelling.text.toList

def meaning : Spelling → Meaning
  | string _ _ => .quoted
  | spelling => .token spelling.kind

end Spelling

/-- What may stand between tokens. A line comment is closed by a line break. -/
inductive Filler where
  | blank (c : Char) (hblank : isBlank c = true)
  | lineComment (body : List Char) (stop : Char) (hbody : ∀ c ∈ body, isLineBreak c = false)
      (hstop : isLineBreak stop = true)
  | blockComment (body : List Char) (hbody : ¬commentEnd <:+: body ++ ['*'])

namespace Filler

def pieces : Filler → List (List Char × Meaning)
  | blank c _ => [([c], .gap)]
  | lineComment body stop _ _ => [('/' :: '/' :: body, .gap), ([stop], .gap)]
  | blockComment body _ => [('/' :: '*' :: (body ++ commentEnd), .gap)]

def written : Filler → List Char
  | blank c _ => [c]
  | lineComment body stop _ _ => '/' :: '/' :: (body ++ [stop])
  | blockComment body _ => '/' :: '*' :: (body ++ commentEnd)

end Filler

/-- A token with what is written before it, of which the first character is blank. -/
structure Spaced where
  blank : Char
  hblank : isBlank blank = true
  fillers : List Filler
  spelling : Spelling

namespace Spaced

def written (item : Spaced) : List Char :=
  item.blank :: (item.fillers.flatMap Filler.written ++ item.spelling.written)

def pieces (item : Spaced) : List (List Char × Meaning) :=
  ([item.blank], .gap) ::
    (item.fillers.flatMap Filler.pieces ++ [(item.spelling.written, item.spelling.meaning)])

end Spaced

/-- The text of the items, one after the other. -/
def print (items : List Spaced) : String :=
  String.ofList (items.flatMap Spaced.written)

/-! ### The pieces of a written text -/

/-- A digit in front counts for nothing if it is zero. -/
theorem numberOf_padded (zeros value : Nat) :
    numberOf (List.replicate zeros '0' ++ (toString value).toList) = value := by
  have hdecimal : ∀ digits : List Char, Scanner.decimal digits = Nat.ofDigitChars 10 digits 0 := by
    intro digits
    simp only [Scanner.decimal, Nat.ofDigitChars, Nat.mul_comm]
  have hzeros : Nat.ofDigitChars 10 (List.replicate zeros '0') 0 = 0 := by
    induction zeros with
    | zero => rfl
    | succ zeros ih => rw [List.replicate_succ', Nat.ofDigitChars_append, ih]; rfl
  rw [← Scanner.decimal_eq, hdecimal, Nat.ofDigitChars_append, hzeros, Nat.toString_eq_repr,
    Nat.toList_repr, Nat.ofDigitChars_ten_toDigits]

theorem isDigit_of_mem_padded {zeros value : Nat} {c : Char}
    (h : c ∈ List.replicate zeros '0' ++ (toString value).toList) : isDigit c = true := by
  rcases List.mem_append.1 h with hzero | hdigit
  · rw [List.eq_of_mem_replicate hzero]
    rfl
  · exact isDigit_of_mem_toString hdigit

namespace Spelling

variable {spelling : Spelling}

/-- What is written is a piece. -/
theorem piece (spelling : Spelling) : Piece spelling.written spelling.meaning := by
  cases spelling with
  | keyword word =>
    have hletters := word.isLetter_text
    refine .word ?_ (fun c hc => isWordCharacter_of_isLetter (hletters c hc)) (.keyword rfl)
    cases word <;> decide +kernel
  | symbol mark =>
    have hsymbol : Piece [mark.char] (.token (.symbol mark)) := .symbol rfl
    simpa [written, text, meaning, kind] using hsymbol
  | identifier name =>
    apply Piece.identifier_iff.2
    change isIdentifier (String.ofList name.1.toList) = true
    rw [String.ofList_toList]
    exact name.2
  | integer zeros value hvalue =>
    have htext : (integer zeros value hvalue).written =
        List.replicate zeros '0' ++ (toString value).toList := by
      simp [written, text]
    have hmeaning : (integer zeros value hvalue).meaning =
        .token (.integer (numberOf (List.replicate zeros '0' ++ (toString value).toList))) := by
      rw [numberOf_padded]
      rfl
    rw [htext, hmeaning]
    refine .word ?_ (fun c hc => isWordCharacter_of_isDigit (isDigit_of_mem_padded hc))
      (.integer (fun c hc => isDigit_of_mem_padded hc) ?_)
    · rw [Nat.toString_eq_repr, Nat.toList_repr]
      simp [Nat.toDigits_ne_nil]
    · rwa [numberOf_padded]
  | string body hbody => exact .string hbody

/-- A string is written between quotes, and every other token as its text. -/
theorem written_cases (spelling : Spelling) :
    (spelling.meaning = .quoted ∧ spelling.kind = .string ∧
      spelling.written = '"' :: (spelling.text.toList ++ ['"'])) ∨
    (spelling.meaning = .token spelling.kind ∧ spelling.written = spelling.text.toList) := by
  cases spelling with
  | string body hbody => exact .inl ⟨rfl, rfl, by rw [text, String.toList_ofList, written]⟩
  | _ => exact .inr ⟨rfl, rfl⟩

/-- Before a blank, or at the end of the text, no piece is longer. -/
theorem longest (spelling : Spelling) {rest : List Char}
    (hrest : ∀ c ∈ rest.head?, isBlank c = true) : Longest spelling.written rest := by
  have hnot : ¬(spelling.meaning = .gap ∨ ∃ error, spelling.meaning = .fault error) := by
    rcases spelling.written_cases with ⟨h, -⟩ | ⟨h, -⟩ <;> simp [h]
  refine (longest_all spelling.written).transfer spelling.piece (fun _ c hc => ?_)
    (fun _ c hc => ?_) (fun h => absurd h hnot) (fun h => absurd (.inr ⟨_, h⟩) hnot)
  · exact isWordCharacter_of_isBlank (hrest c hc)
  · constructor <;> rintro rfl <;> cases hrest _ hc

end Spelling

section Divided

variable {rest : List Char} {later : List (List Char × Meaning)}

theorem Divides.blank {c : Char} (hblank : isBlank c = true) (h : Divides rest later) :
    Divides (c :: rest) (([c], .gap) :: later) :=
  .cons (.blank hblank) (longest_single fun _ _ k => (k.of_blank hblank).1) h

theorem Filler.divides (filler : Filler) (h : Divides rest later) :
    Divides (filler.written ++ rest) (filler.pieces ++ later) := by
  cases filler with
  | blank c hblank => exact h.blank hblank
  | lineComment body stop hbody hstop =>
    have hhead : ∀ c ∈ (stop :: rest).head?, isLineBreak c = true := by
      rintro _ ⟨⟩
      exact hstop
    have hdivides := Divides.cons (.lineComment hbody) (longest_lineComment hhead)
      (h.blank (isBlank_of_isLineBreak hstop))
    simpa [written, pieces] using hdivides
  | blockComment body hbody =>
    exact .cons (.blockComment hbody) (longest_blockComment body rest) h

theorem divides_fillers (fillers : List Filler) (h : Divides rest later) :
    Divides (fillers.flatMap Filler.written ++ rest) (fillers.flatMap Filler.pieces ++ later) := by
  induction fillers with
  | nil => exact h
  | cons filler fillers ih =>
    rw [List.flatMap_cons, List.flatMap_cons, List.append_assoc, List.append_assoc]
    exact filler.divides ih

/-- An item is divided into its pieces if a blank follows it or nothing. -/
theorem Spaced.divides (item : Spaced) (hrest : ∀ c ∈ rest.head?, isBlank c = true)
    (h : Divides rest later) : Divides (item.written ++ rest) (item.pieces ++ later) := by
  have htoken := Divides.cons item.spelling.piece (item.spelling.longest hrest) h
  have hdivides := (divides_fillers item.fillers htoken).blank item.hblank
  simpa [written, pieces] using hdivides

theorem head?_items (items : List Spaced) :
    ∀ c ∈ (items.flatMap Spaced.written).head?, isBlank c = true := by
  cases items with
  | nil => exact fun c hc => absurd hc (by simp)
  | cons item items =>
    rintro _ ⟨⟩
    exact item.hblank

theorem divides_items (items : List Spaced) :
    Divides (items.flatMap Spaced.written) (items.flatMap Spaced.pieces) := by
  induction items with
  | nil => exact .nil
  | cons item items ih => exact item.divides (head?_items items) ih

end Divided

/-! ### The tokens of a written text -/

/-- Gaps add no tokens. -/
theorem tokensOfPieces_gaps {gaps : List (List Char × Meaning)}
    (h : ∀ gap ∈ gaps, gap.2 = .gap) (offset line : Nat) (pieces : List (List Char × Meaning)) :
    ∃ further below, tokensOfPieces offset line (gaps ++ pieces) =
      tokensOfPieces further below pieces := by
  induction gaps generalizing offset line with
  | nil => exact ⟨offset, line, rfl⟩
  | cons gap gaps ih =>
    obtain ⟨hgap, hgaps⟩ := List.forall_mem_cons.1 h
    obtain ⟨piece, meaning⟩ := gap
    obtain rfl : meaning = .gap := hgap
    exact ih hgaps _ _

theorem Filler.gap_of_mem {filler : Filler} {piece : List Char × Meaning}
    (h : piece ∈ filler.pieces) : piece.2 = .gap := by
  cases filler with
  | lineComment body stop hbody hstop =>
    rcases List.mem_cons.1 h with rfl | hmem
    · rfl
    · rw [List.mem_singleton.1 hmem]
  | _ => rw [List.mem_singleton.1 h]

/-- A spelling adds a token of its kind, with its text. -/
theorem Spelling.before_meaning (spelling : Spelling) (offset line : Nat)
    (later : Except LexicalError (List Token)) :
    ∃ span, spelling.meaning.before spelling.written offset line later =
      later.map (⟨spelling.kind, spelling.text, span⟩ :: ·) := by
  rcases spelling.written_cases with ⟨hmeaning, hkind, hwritten⟩ | ⟨hmeaning, hwritten⟩
  · refine ⟨⟨offset + 1, byteLength spelling.text.toList⟩, ?_⟩
    rw [hmeaning, hkind, hwritten, Meaning.before, List.tail_cons, List.dropLast_concat,
      String.ofList_toList]
  · refine ⟨⟨offset, byteLength spelling.text.toList⟩, ?_⟩
    rw [hmeaning, hwritten, Meaning.before, String.ofList_toList]

theorem contents_items (items : List Spaced) (offset line : Nat) :
    ∃ found stop, tokensOfPieces offset line (items.flatMap Spaced.pieces) =
        .ok (found ++ [.endAt stop]) ∧
      found.map Token.content =
        items.map fun item => (item.spelling.kind, item.spelling.text) := by
  -- What stands before a token moves it, so the place is free in the induction.
  induction items generalizing offset line with
  | nil => exact ⟨[], offset, rfl, rfl⟩
  | cons item items ih =>
    have hgaps : ∀ gap ∈ ([item.blank], Meaning.gap) :: item.fillers.flatMap Filler.pieces,
        gap.2 = .gap := by
      refine List.forall_mem_cons.2 ⟨rfl, fun gap hgap => ?_⟩
      obtain ⟨filler, -, hmem⟩ := List.mem_flatMap.1 hgap
      exact filler.gap_of_mem hmem
    obtain ⟨further, below, hskip⟩ := tokensOfPieces_gaps hgaps offset line
      ((item.spelling.written, item.spelling.meaning) :: items.flatMap Spaced.pieces)
    obtain ⟨found, stop, hlater, hcontents⟩ := ih (further + byteLength item.spelling.written)
      (below + item.spelling.written.count '\n')
    obtain ⟨span, hbefore⟩ :=
      item.spelling.before_meaning further below (.ok (found ++ [.endAt stop]))
    refine ⟨⟨item.spelling.kind, item.spelling.text, span⟩ :: found, stop, ?_, ?_⟩
    · have hpieces : (item :: items).flatMap Spaced.pieces =
          (([item.blank], Meaning.gap) :: item.fillers.flatMap Filler.pieces) ++
            (item.spelling.written, item.spelling.meaning) :: items.flatMap Spaced.pieces := by
        simp [Spaced.pieces]
      rw [hpieces, hskip, tokensOfPieces, hlater, hbefore]
      rfl
    · rw [List.map_cons, List.map_cons, hcontents]
      rfl

/-- Scanning what was written finds the tokens that were to be written, and then the end. -/
theorem Scanner.tokens_print (items : List Spaced) :
    ∃ found, Scanner.tokens (print items) = .ok (found ++ [.endAt (print items).utf8ByteSize]) ∧
      found.map Token.content =
        items.map (fun item => (item.spelling.kind, item.spelling.text)) ∧
      ∀ token ∈ found, token.span.fragment? (print items) = some token.text := by
  obtain ⟨found, stop, htokens, hcontents⟩ := contents_items items 0 1
  have hdivides := divides_items items
  have hsource : (print items).toList = [] ++ items.flatMap Spaced.written := String.toList_ofList
  obtain ⟨earlier, heq, hfragments⟩ := fragments_of_pieces hsource hdivides htokens
  obtain ⟨rfl, hend⟩ := List.append_inj' heq rfl
  refine ⟨found, ?_, hcontents, fun token hmem => (hfragments token hmem).2⟩
  obtain ⟨pieces, hpieces, hscan⟩ := exists_pieces (start (print items))
  have hrest : (start (print items)).rest = items.flatMap Spaced.written := hsource
  rw [hrest] at hpieces
  obtain rfl := hdivides.unique hpieces
  rw [← hend, ← htokens]
  exact hscan

end JackCompiler
