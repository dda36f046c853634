import JackCompiler.Token.Scanner
import Mathlib.Data.List.Induction
import Mathlib.Data.Nat.Digits.Defs

/-!
The lexical grammar as a description of texts. Blanks, comments, words, strings and symbols are
pieces of text, and so are the beginnings of strings and comments that are never closed. A text is
divided into pieces from left to right, always by the longest piece that there is, and what the
pieces mean gives the tokens or the first error.
-/

namespace JackCompiler

/-- What a piece of text is. -/
inductive Meaning where
  | gap
  | token (kind : TokenKind)
  /-- The token is what stands between the quotes. -/
  | quoted
  /-- An error on the line on which the piece starts. -/
  | fault (error : Nat → LexicalError)

/-- The number that decimal digits stand for. -/
def numberOf (digits : List Char) : Nat :=
  Nat.ofDigits 10 (digits.reverse.map fun digit => digit.toNat - '0'.toNat)

/-- What a word of letters, digits and underscores is. -/
inductive WordMeaning (word : List Char) : Meaning → Prop where
  | keyword {spelled : Keyword} (hword : spelled.text.toList = word) :
      WordMeaning word (.token (.keyword spelled))
  | identifier (hfirst : ∀ c ∈ word.head?, isDigit c = false)
      (hkeyword : ∀ spelled : Keyword, spelled.text.toList ≠ word) :
      WordMeaning word (.token .identifier)
  | integer (hdigits : ∀ c ∈ word, isDigit c = true) (hvalue : numberOf word ≤ maxInteger) :
      WordMeaning word (.token (.integer (numberOf word)))
  | overflow (hdigits : ∀ c ∈ word, isDigit c = true) (hvalue : maxInteger < numberOf word) :
      WordMeaning word (.fault (.integerOverflow (String.ofList word)))
  | malformed (hfirst : ∀ c ∈ word.head?, isDigit c = true)
      (hother : ∃ c ∈ word, isDigit c = false) :
      WordMeaning word (.fault (.malformedWord (String.ofList word)))

/-- The end of a block comment. -/
def commentEnd : List Char :=
  ['*', '/']

/-- The pieces that a text can be divided into. A comment ends with the first end of a comment
after its opening, which is why the star before the slash counts as text of the comment. -/
inductive Piece : List Char → Meaning → Prop where
  | blank {c : Char} (hblank : isBlank c = true) : Piece [c] .gap
  | lineComment {body : List Char} (hbody : ∀ c ∈ body, isLineBreak c = false) :
      Piece ('/' :: '/' :: body) .gap
  | blockComment {body : List Char} (hbody : ¬commentEnd <:+: body ++ ['*']) :
      Piece ('/' :: '*' :: (body ++ commentEnd)) .gap
  | openComment {body : List Char} (hbody : ¬commentEnd <:+: body) :
      Piece ('/' :: '*' :: body) (.fault .unterminatedComment)
  | string {body : List Char} (hbody : ∀ c ∈ body, isStringCharacter c = true) :
      Piece ('"' :: (body ++ ['"'])) .quoted
  | openString {body : List Char} (hbody : ∀ c ∈ body, isStringCharacter c = true) :
      Piece ('"' :: body) (.fault .unterminatedString)
  | word {word : List Char} {meaning : Meaning} (hne : word ≠ [])
      (hword : ∀ c ∈ word, isWordCharacter c = true) (hmeaning : WordMeaning word meaning) :
      Piece word meaning
  | symbol {c : Char} {mark : Symbol} (hmark : mark.char = c) : Piece [c] (.token (.symbol mark))
  | unknown {c : Char} (hblank : isBlank c = false) (hword : isWordCharacter c = false)
      (hquote : c ≠ '"') (hsymbol : ∀ mark : Symbol, mark.char ≠ c) :
      Piece [c] (.fault (.unknownCharacter c))

/-- No piece at the start of the text is longer than this one. -/
def Longest (piece rest : List Char) : Prop :=
  ∀ other meaning, Piece other meaning → other <+: piece ++ rest → other.length ≤ piece.length

/-- The text is divided into these pieces. -/
inductive Divides : List Char → List (List Char × Meaning) → Prop where
  | nil : Divides [] []
  | cons {piece rest : List Char} {meaning : Meaning} {later : List (List Char × Meaning)}
      (hpiece : Piece piece meaning) (hlongest : Longest piece rest) (hrest : Divides rest later) :
      Divides (piece ++ rest) ((piece, meaning) :: later)

/-- The text of pieces. -/
def textOf (pieces : List (List Char × Meaning)) : List Char :=
  pieces.flatMap Prod.fst

/-- What is found of a piece at this offset and on this line: nothing of a gap, or else a token or an
error. -/
def Meaning.result? (piece : List Char) (offset line : Nat) :
    Meaning → Option (Except LexicalError Token)
  | .gap => none
  | .token kind => some (.ok ⟨kind, String.ofList piece, ⟨offset, byteLength piece⟩⟩)
  | .quoted =>
    let inner := piece.tail.dropLast
    some (.ok ⟨.string, String.ofList inner, ⟨offset + 1, byteLength inner⟩⟩)
  | .fault error => some (.error (error line))

/-- What a piece at this offset and on this line adds before what comes later. -/
def Meaning.before (piece : List Char) (offset line : Nat)
    (later : Except LexicalError (List Token)) : Meaning → Except LexicalError (List Token)
  | .gap => later
  | .token kind =>
    later.map (⟨kind, String.ofList piece, ⟨offset, byteLength piece⟩⟩ :: ·)
  | .quoted =>
    let inner := piece.tail.dropLast
    later.map (⟨.string, String.ofList inner, ⟨offset + 1, byteLength inner⟩⟩ :: ·)
  | .fault error => .error (error line)

/-- The tokens of pieces from an offset and a line on, or the first error. -/
def tokensOfPieces (offset line : Nat) :
    List (List Char × Meaning) → Except LexicalError (List Token)
  | [] => .ok [.endAt offset]
  | (piece, meaning) :: rest =>
    meaning.before piece offset line
      (tokensOfPieces (offset + byteLength piece) (line + piece.count '\n') rest)

/-! ### Characters -/

namespace Symbol

theorem not_isBlank (mark : Symbol) : isBlank mark.char = false := by
  cases mark <;> decide

theorem not_isWordCharacter (mark : Symbol) : isWordCharacter mark.char = false := by
  cases mark <;> decide

theorem char_ne_quote (mark : Symbol) : mark.char ≠ '"' := by
  cases mark <;> decide

theorem char_injective {mark other : Symbol} (h : mark.char = other.char) : mark = other :=
  Option.some.inj ((ofChar?_char mark).symm.trans (h ▸ ofChar?_char other))

theorem eq_slash {mark : Symbol} (h : mark.char = '/') : mark = .slash :=
  char_injective h

end Symbol

theorem isWordCharacter_of_isBlank {c : Char} (h : isBlank c = true) :
    isWordCharacter c = false := by
  simp only [isBlank, Bool.or_eq_true, decide_eq_true_eq] at h
  rcases h with (((((rfl | rfl) | rfl) | rfl) | rfl) | rfl) | rfl <;> decide

theorem isBlank_of_isLineBreak {c : Char} (h : isLineBreak c = true) : isBlank c = true := by
  simp only [isLineBreak, Bool.or_eq_true, decide_eq_true_eq] at h
  rcases h with rfl | rfl <;> rfl

theorem isWordCharacter_of_isLetter {c : Char} (h : isLetter c = true) :
    isWordCharacter c = true := by
  rw [isWordCharacter, h, Bool.true_or]

theorem isWordCharacter_of_isDigit {c : Char} (h : isDigit c = true) :
    isWordCharacter c = true := by
  rw [isWordCharacter, h, Bool.or_true]

theorem not_isLineBreak_of_isWordCharacter {c : Char} (h : isWordCharacter c = true) :
    isLineBreak c = false := by
  rw [Bool.eq_false_iff]
  intro hbreak
  simp only [isLineBreak, Bool.or_eq_true, decide_eq_true_eq] at hbreak
  rcases hbreak with rfl | rfl <;> cases h

/-- Every character of a keyword is a letter. -/
theorem Keyword.isLetter_text (word : Keyword) : ∀ c ∈ word.text.toList, isLetter c = true := by
  have hall : word.text.toList.all isLetter = true := by cases word <;> decide +kernel
  exact List.all_eq_true.1 hall

theorem not_isDigit_of_isLetter {c : Char} (h : isLetter c = true) : isDigit c = false := by
  rw [Bool.eq_false_iff]
  intro hdigit
  simp only [isLetter, isDigit, Bool.or_eq_true, Bool.and_eq_true, decide_eq_true_eq] at h hdigit
  obtain ⟨-, hnine⟩ := hdigit
  rcases h with (⟨ha, -⟩ | ⟨ha, -⟩) | rfl
  · exact absurd (Char.le_trans ha hnine) (by decide)
  · exact absurd (Char.le_trans ha hnine) (by decide)
  · exact absurd hnine (by decide)

/-- No word is the end of the text. -/
theorem WordMeaning.kind_ne_endOfFile {word : List Char} {kind : TokenKind}
    (h : WordMeaning word (.token kind)) : kind ≠ .endOfFile := by
  cases h <;> exact TokenKind.noConfusion

/-! ### Pieces by their first character -/

namespace Piece

variable {c : Char} {x : List Char} {meaning : Meaning}

theorem ne_nil {piece : List Char} (h : Piece piece meaning) : piece ≠ [] := by
  cases h with
  | word hne hword hmeaning => exact hne
  | _ => simp

theorem of_blank (h : Piece (c :: x) meaning) (hc : isBlank c = true) :
    x = [] ∧ meaning = .gap := by
  cases h with
  | blank hblank => exact ⟨rfl, rfl⟩
  | word hne hword hmeaning =>
    have hfirst := hword c List.mem_cons_self
    rw [isWordCharacter_of_isBlank hc] at hfirst
    cases hfirst
  | symbol hmark =>
    rw [← hmark, Symbol.not_isBlank] at hc
    cases hc
  | unknown hblank hword hquote hsymbol =>
    rw [hblank] at hc
    cases hc
  | _ => cases hc

theorem of_quote (h : Piece ('"' :: x) meaning) :
    (∃ body, x = body ++ ['"'] ∧ (∀ c ∈ body, isStringCharacter c = true) ∧ meaning = .quoted) ∨
      (∀ c ∈ x, isStringCharacter c = true) ∧ meaning = .fault .unterminatedString := by
  cases h with
  | blank hblank => cases hblank
  | string hbody => exact .inl ⟨_, rfl, hbody, rfl⟩
  | openString hbody => exact .inr ⟨hbody, rfl⟩
  | word hne hword hmeaning => cases hword '"' List.mem_cons_self
  | symbol hmark => exact absurd hmark (Symbol.char_ne_quote _)
  | unknown hblank hword hquote hsymbol => exact absurd rfl hquote

theorem of_word (h : Piece (c :: x) meaning) (hc : isWordCharacter c = true) :
    (∀ d ∈ c :: x, isWordCharacter d = true) ∧ WordMeaning (c :: x) meaning := by
  cases h with
  | blank hblank =>
    rw [isWordCharacter_of_isBlank hblank] at hc
    cases hc
  | word hne hword hmeaning => exact ⟨hword, hmeaning⟩
  | symbol hmark =>
    rw [← hmark, Symbol.not_isWordCharacter] at hc
    cases hc
  | unknown hblank hword hquote hsymbol =>
    rw [hword] at hc
    cases hc
  | _ => cases hc

theorem of_slash (h : Piece ('/' :: x) meaning) :
    (x = [] ∧ meaning = .token (.symbol .slash)) ∨
      (∃ body, x = '/' :: body ∧ (∀ c ∈ body, isLineBreak c = false) ∧ meaning = .gap) ∨
      (∃ body, x = '*' :: (body ++ commentEnd) ∧ ¬commentEnd <:+: body ++ ['*'] ∧
        meaning = .gap) ∨
      ∃ body, x = '*' :: body ∧ ¬commentEnd <:+: body ∧ meaning = .fault .unterminatedComment := by
  cases h with
  | blank hblank => cases hblank
  | lineComment hbody => exact .inr (.inl ⟨_, rfl, hbody, rfl⟩)
  | blockComment hbody => exact .inr (.inr (.inl ⟨_, rfl, hbody, rfl⟩))
  | openComment hbody => exact .inr (.inr (.inr ⟨_, rfl, hbody, rfl⟩))
  | word hne hword hmeaning => cases hword '/' List.mem_cons_self
  | symbol hmark => exact .inl ⟨rfl, by rw [Symbol.eq_slash hmark]⟩
  | unknown hblank hword hquote hsymbol => exact absurd rfl (hsymbol .slash)

theorem of_symbol {mark : Symbol} (h : Piece (mark.char :: x) meaning) (hmark : mark ≠ .slash) :
    x = [] ∧ meaning = .token (.symbol mark) := by
  generalize hc : mark.char = c at h
  cases h with
  | blank hblank =>
    rw [← hc, Symbol.not_isBlank] at hblank
    cases hblank
  | word hne hword hmeaning =>
    have hfirst := hword c List.mem_cons_self
    rw [← hc, Symbol.not_isWordCharacter] at hfirst
    cases hfirst
  | symbol hother => exact ⟨rfl, by rw [Symbol.char_injective (hc.trans hother.symm)]⟩
  | unknown hblank hword hquote hsymbol => exact absurd hc (hsymbol mark)
  | lineComment hbody => exact absurd (Symbol.eq_slash hc) hmark
  | blockComment hbody => exact absurd (Symbol.eq_slash hc) hmark
  | openComment hbody => exact absurd (Symbol.eq_slash hc) hmark
  | string hbody => exact absurd hc mark.char_ne_quote
  | openString hbody => exact absurd hc mark.char_ne_quote

theorem of_unknown (h : Piece (c :: x) meaning) (hblank : isBlank c = false)
    (hword : isWordCharacter c = false) (hquote : c ≠ '"')
    (hsymbol : ∀ mark : Symbol, mark.char ≠ c) :
    x = [] ∧ meaning = .fault (.unknownCharacter c) := by
  cases h with
  | blank hc =>
    rw [hblank] at hc
    cases hc
  | word hne hall hmeaning =>
    have hfirst := hall c List.mem_cons_self
    rw [hword] at hfirst
    cases hfirst
  | symbol hmark => exact absurd hmark (hsymbol _)
  | unknown _ _ _ _ => exact ⟨rfl, rfl⟩
  | lineComment hbody => exact absurd rfl (hsymbol .slash)
  | blockComment hbody => exact absurd rfl (hsymbol .slash)
  | openComment hbody => exact absurd rfl (hsymbol .slash)
  | string hbody => exact absurd rfl hquote
  | openString hbody => exact absurd rfl hquote

/-- No piece is the end of the text. -/
theorem kind_ne_endOfFile {piece : List Char} {kind : TokenKind} (h : Piece piece (.token kind)) :
    kind ≠ .endOfFile := by
  cases h with
  | word hne hword hmeaning => exact hmeaning.kind_ne_endOfFile
  | symbol hmark => exact TokenKind.noConfusion

/-- A string stands between quotes. -/
theorem quotes {piece : List Char} (h : Piece piece .quoted) :
    ∃ body, piece = '"' :: (body ++ ['"']) := by
  cases h with
  | string hbody => exact ⟨_, rfl⟩
  | word hne hword hmeaning => cases hmeaning

end Piece

/-! ### What a piece means -/

theorem Scanner.decimal_eq (digits : List Char) : decimal digits = numberOf digits := by
  induction digits using List.reverseRecOn with
  | nil => rfl
  | append_singleton digits digit ih =>
    rw [decimal, List.foldl_append, List.foldl_cons, List.foldl_nil, ← decimal, ih, numberOf,
      numberOf, List.reverse_append, List.reverse_singleton, List.singleton_append, List.map_cons,
      Nat.ofDigits_cons]
    omega

/-- A word is classified by what it means. -/
theorem Scanner.classify_of_meaning {word : List Char} {meaning : Meaning} (hne : word ≠ [])
    (h : WordMeaning word meaning) :
    (∃ kind, meaning = .token kind ∧ ∀ line, classify word line = .ok kind) ∨
      ∃ error, meaning = .fault error ∧ ∀ line, classify word line = .error (error line) := by
  obtain ⟨first, rest, rfl⟩ := List.exists_cons_of_ne_nil hne
  have hhead : ∀ value, isDigit first = value →
      (first :: rest).head?.any isDigit = value := fun value hvalue => hvalue
  cases h with
  | @keyword spelled hword =>
    have hletter := spelled.isLetter_text first (hword ▸ List.mem_cons_self)
    have htext : String.ofList (first :: rest) = spelled.text := by
      rw [← hword, String.ofList_toList]
    refine .inl ⟨_, rfl, fun line => ?_⟩
    rw [classify, hhead _ (not_isDigit_of_isLetter hletter), htext, Keyword.ofText?_text]
    rfl
  | identifier hfirst hkeyword =>
    have hnone : Keyword.ofText? (String.ofList (first :: rest)) = none := by
      apply List.find?_eq_none.2
      intro spelled _ hspelled
      apply hkeyword spelled
      rw [of_decide_eq_true hspelled, String.toList_ofList]
    refine .inl ⟨_, rfl, fun line => ?_⟩
    rw [classify, hhead _ (hfirst first rfl), hnone]
    rfl
  | integer hdigits hvalue =>
    refine .inl ⟨_, rfl, fun line => ?_⟩
    rw [classify, hhead _ (hdigits first List.mem_cons_self), List.all_eq_true.2 hdigits,
      decimal_eq, if_pos hvalue]
    rfl
  | overflow hdigits hvalue =>
    refine .inr ⟨_, rfl, fun line => ?_⟩
    rw [classify, hhead _ (hdigits first List.mem_cons_self), List.all_eq_true.2 hdigits,
      decimal_eq, if_neg (Nat.not_le.2 hvalue)]
    rfl
  | malformed hfirst hother =>
    have hall : (first :: rest).all isDigit = false := by
      obtain ⟨c, hmem, hc⟩ := hother
      exact List.all_eq_false.2 ⟨c, hmem, by simp [hc]⟩
    refine .inr ⟨_, rfl, fun line => ?_⟩
    rw [classify, hhead _ (hfirst first rfl), hall]
    rfl

theorem WordMeaning.unique {word : List Char} {m n : Meaning} (hne : word ≠ [])
    (h : WordMeaning word m) (k : WordMeaning word n) : m = n := by
  rcases Scanner.classify_of_meaning hne h with ⟨kind, rfl, hm⟩ | ⟨error, rfl, hm⟩
  · rcases Scanner.classify_of_meaning hne k with ⟨other, rfl, hn⟩ | ⟨error, rfl, hn⟩
    · rw [Except.ok.inj ((hm 0).symm.trans (hn 0))]
    · cases (hm 0).symm.trans (hn 0)
  · rcases Scanner.classify_of_meaning hne k with ⟨kind, rfl, hn⟩ | ⟨other, rfl, hn⟩
    · cases (hm 0).symm.trans (hn 0)
    · rw [funext fun line => Except.error.inj ((hm line).symm.trans (hn line))]

/-- Every word means something. -/
theorem WordMeaning.exists_of_word {word : List Char} (hne : word ≠ []) :
    ∃ meaning, WordMeaning word meaning := by
  obtain ⟨first, rest, rfl⟩ := List.exists_cons_of_ne_nil hne
  by_cases hfirst : isDigit first = true
  · by_cases hdigits : ∀ c ∈ first :: rest, isDigit c = true
    · by_cases hvalue : numberOf (first :: rest) ≤ maxInteger
      · exact ⟨_, .integer hdigits hvalue⟩
      · exact ⟨_, .overflow hdigits (Nat.not_le.1 hvalue)⟩
    · obtain ⟨c, hmem, hc⟩ : ∃ c ∈ first :: rest, isDigit c = false := by
        simpa only [not_forall, Bool.not_eq_true, exists_prop] using hdigits
      refine ⟨_, .malformed ?_ ⟨c, hmem, hc⟩⟩
      rintro _ ⟨⟩
      exact hfirst
  · by_cases hkeyword : ∃ spelled : Keyword, spelled.text.toList = first :: rest
    · obtain ⟨spelled, hword⟩ := hkeyword
      exact ⟨_, .keyword hword⟩
    · refine ⟨_, .identifier ?_ fun spelled hword => hkeyword ⟨spelled, hword⟩⟩
      rintro _ ⟨⟩
      exact Bool.eq_false_iff.2 hfirst

/-! ### The longest piece -/

/-- Characters of one class end where the class ends. -/
theorem length_le_of_class {p : Char → Bool} {other piece rest : List Char}
    (hother : ∀ c ∈ other, p c = true) (hrest : ∀ c ∈ rest.head?, p c = false)
    (h : other <+: piece ++ rest) : other.length ≤ piece.length := by
  by_contra hlong
  cases rest with
  | nil =>
    rw [List.append_nil] at h
    exact hlong h.length_le
  | cons c rest =>
    have hnext : piece ++ [c] <+: piece ++ c :: rest := ⟨rest, by simp⟩
    have hprefix : piece ++ [c] <+: other := by
      apply List.prefix_of_prefix_length_le hnext h
      rw [List.length_append, List.length_singleton]
      omega
    have hmem : c ∈ other := hprefix.subset (by simp)
    cases (hother c hmem).symm.trans (hrest c rfl)

/-- A piece with a first character is as long as what comes after that character. -/
theorem longest_cons {c : Char} {piece rest : List Char}
    (h : ∀ x meaning, Piece (c :: x) meaning → x <+: piece ++ rest → x.length ≤ piece.length) :
    Longest (c :: piece) rest := by
  intro other meaning hother hprefix
  obtain ⟨first, x, rfl⟩ := List.exists_cons_of_ne_nil hother.ne_nil
  obtain ⟨rfl, hx⟩ := List.cons_prefix_cons.1 hprefix
  exact Nat.succ_le_succ (h x meaning hother hx)

theorem longest_single {c : Char} {rest : List Char}
    (h : ∀ x meaning, Piece (c :: x) meaning → x = []) : Longest [c] rest := by
  apply longest_cons
  intro x meaning hpiece _
  rw [h x meaning hpiece]

/-- A slash stands for itself where no comment starts. -/
theorem longest_slash {rest : List Char} (hline : ∀ after, rest ≠ '/' :: after)
    (hblock : ∀ after, rest ≠ '*' :: after) : Longest ['/'] rest := by
  apply longest_cons
  intro x meaning hpiece hprefix
  obtain ⟨after, rfl⟩ := hprefix
  rcases hpiece.of_slash with ⟨rfl, -⟩ | ⟨body, rfl, -, -⟩ | ⟨body, rfl, -, -⟩ | ⟨body, rfl, -, -⟩
  · exact Nat.le_refl _
  · exact absurd rfl (hline _)
  · exact absurd rfl (hblock _)
  · exact absurd rfl (hblock _)

theorem longest_word {first : Char} {word rest : List Char}
    (hword : isWordCharacter first = true)
    (hrest : ∀ c ∈ rest.head?, isWordCharacter c = false) : Longest (first :: word) rest := by
  apply longest_cons
  intro x meaning hpiece hprefix
  obtain ⟨hall, -⟩ := hpiece.of_word hword
  exact length_le_of_class (fun c hmem => hall c (List.mem_cons_of_mem first hmem)) hrest hprefix

theorem longest_string (body rest : List Char) : Longest ('"' :: (body ++ ['"'])) rest := by
  have hquote : ∀ c ∈ ('"' :: rest).head?, isStringCharacter c = false := by
    rintro _ ⟨⟩
    rfl
  apply longest_cons
  intro x meaning hpiece hprefix
  rw [List.append_assoc] at hprefix
  rw [List.length_append, List.length_singleton]
  rcases hpiece.of_quote with ⟨inner, rfl, hinner, -⟩ | ⟨hall, -⟩
  · have hle := length_le_of_class hinner hquote ((List.prefix_append _ _).trans hprefix)
    rw [List.length_append, List.length_singleton]
    omega
  · have hle := length_le_of_class hall hquote hprefix
    omega

theorem longest_openString {body rest : List Char}
    (hrest : ∀ c ∈ rest.head?, isLineBreak c = true) : Longest ('"' :: body) rest := by
  have hend : ∀ c ∈ rest.head?, isStringCharacter c = false := by
    intro c hc
    rw [isStringCharacter, hrest c hc, Bool.not_true, Bool.and_false]
  apply longest_cons
  intro x meaning hpiece hprefix
  rcases hpiece.of_quote with ⟨inner, rfl, hinner, -⟩ | ⟨hall, -⟩
  · have hle := length_le_of_class hinner hend ((List.prefix_append _ _).trans hprefix)
    rw [List.length_append, List.length_singleton]
    by_contra hlong
    -- the string would end with the quote where the line break is
    obtain ⟨after, hafter⟩ := hprefix
    rw [List.append_assoc] at hafter
    obtain ⟨-, rfl⟩ := List.append_inj hafter (by omega)
    cases hrest '"' rfl
  · exact length_le_of_class hall hend hprefix

theorem longest_lineComment {body rest : List Char}
    (hrest : ∀ c ∈ rest.head?, isLineBreak c = true) : Longest ('/' :: '/' :: body) rest := by
  have hend : ∀ c ∈ rest.head?, (!isLineBreak c) = false := by
    intro c hc
    rw [hrest c hc, Bool.not_true]
  apply longest_cons
  intro x meaning hpiece hprefix
  rcases hpiece.of_slash with ⟨rfl, -⟩ | ⟨inner, rfl, hinner, -⟩ | ⟨inner, rfl, -, -⟩ |
    ⟨inner, rfl, -, -⟩
  · exact Nat.zero_le _
  · have hinside : ∀ c ∈ inner, (!isLineBreak c) = true := by
      intro c hc
      rw [hinner c hc, Bool.not_false]
    exact Nat.succ_le_succ
      (length_le_of_class hinside hend (List.cons_prefix_cons.1 hprefix).2)
  · exact absurd (List.cons_prefix_cons.1 hprefix).1 (by decide)
  · exact absurd (List.cons_prefix_cons.1 hprefix).1 (by decide)

theorem longest_blockComment (body rest : List Char) :
    Longest ('/' :: '*' :: (body ++ commentEnd)) rest := by
  have hclosed : body ++ commentEnd <+: body ++ commentEnd ++ rest := List.prefix_append _ _
  have hlength : (body ++ commentEnd).length = body.length + 2 := List.length_append
  apply longest_cons
  intro x meaning hpiece hprefix
  rcases hpiece.of_slash with ⟨rfl, -⟩ | ⟨inner, rfl, -, -⟩ | ⟨inner, rfl, hinner, -⟩ |
    ⟨inner, rfl, hinner, -⟩
  · exact Nat.zero_le _
  · exact absurd (List.cons_prefix_cons.1 hprefix).1 (by decide)
  · have hx : inner ++ commentEnd <+: body ++ commentEnd ++ rest :=
      (List.cons_prefix_cons.1 hprefix).2
    apply Nat.succ_le_succ
    by_contra hlong
    rw [List.length_append, hlength, show commentEnd.length = 2 from rfl] at hlong
    -- the end of the comment lies inside the other one, but its last character apart
    have hstar : inner ++ ['*'] <+: body ++ commentEnd ++ rest :=
      List.IsPrefix.trans ⟨['/'], by simp [commentEnd]⟩ hx
    have hinside : body ++ commentEnd <+: inner ++ ['*'] := by
      apply List.prefix_of_prefix_length_le hclosed hstar
      rw [hlength, List.length_append, List.length_singleton]
      omega
    exact hinner ((List.suffix_append body commentEnd).isInfix.trans hinside.isInfix)
  · have hx : inner <+: body ++ commentEnd ++ rest := (List.cons_prefix_cons.1 hprefix).2
    apply Nat.succ_le_succ
    by_contra hlong
    have hinside : body ++ commentEnd <+: inner :=
      List.prefix_of_prefix_length_le hclosed hx (by omega)
    exact hinner ((List.suffix_append body commentEnd).isInfix.trans hinside.isInfix)

theorem longest_all (piece : List Char) : Longest piece [] := by
  intro other meaning _ hprefix
  rw [List.append_nil] at hprefix
  exact hprefix.length_le

/-! ### What comes after a piece -/

namespace Longest

variable {piece rest : List Char}

/-- A longest piece does not go on. -/
theorem not_extends {c : Char} (h : Longest piece (c :: rest)) (meaning : Meaning) :
    ¬Piece (piece ++ [c]) meaning := by
  intro hpiece
  have hprefix : piece ++ [c] <+: piece ++ c :: rest := ⟨rest, by simp⟩
  have hle := h _ meaning hpiece hprefix
  rw [List.length_append, List.length_singleton] at hle
  omega

theorem after_word (h : Longest piece rest)
    (hword : ∀ c ∈ piece, isWordCharacter c = true) :
    ∀ c ∈ rest.head?, isWordCharacter c = false := by
  intro c hc
  obtain ⟨after, rfl⟩ := List.head?_eq_some_iff.1 hc
  rw [Bool.eq_false_iff]
  intro hmore
  have hlonger : piece ++ [c] ≠ [] := by simp
  obtain ⟨meaning, hmeaning⟩ := WordMeaning.exists_of_word hlonger
  apply h.not_extends meaning
  refine .word hlonger (fun d hd => ?_) hmeaning
  rcases List.mem_append.1 hd with hd | hd
  · exact hword d hd
  · rwa [List.mem_singleton.1 hd]

theorem after_lineComment {body : List Char} (h : Longest ('/' :: '/' :: body) rest)
    (hbody : ∀ c ∈ body, isLineBreak c = false) : ∀ c ∈ rest.head?, isLineBreak c = true := by
  intro c hc
  obtain ⟨after, rfl⟩ := List.head?_eq_some_iff.1 hc
  by_contra hbreak
  apply h.not_extends .gap
  refine .lineComment fun d hd => ?_
  rcases List.mem_append.1 hd with hd | hd
  · exact hbody d hd
  · rw [List.mem_singleton.1 hd]
    exact Bool.eq_false_iff.2 hbreak

theorem after_openString {body : List Char} (h : Longest ('"' :: body) rest)
    (hbody : ∀ c ∈ body, isStringCharacter c = true) : ∀ c ∈ rest.head?, isLineBreak c = true := by
  intro c hc
  obtain ⟨after, rfl⟩ := List.head?_eq_some_iff.1 hc
  by_contra hbreak
  have hinside := Bool.eq_false_iff.2 hbreak
  by_cases hquote : c = '"'
  · subst hquote
    exact h.not_extends .quoted (.string hbody)
  · apply h.not_extends (.fault .unterminatedString)
    refine .openString fun d hd => ?_
    rcases List.mem_append.1 hd with hd | hd
    · exact hbody d hd
    · rw [List.mem_singleton.1 hd]
      simp [isStringCharacter, hquote, hinside]

/-- A comment that is never closed takes the rest of the text. -/
theorem after_openComment {body : List Char} (h : Longest ('/' :: '*' :: body) rest)
    (hbody : ¬commentEnd <:+: body) : rest = [] := by
  cases rest with
  | nil => rfl
  | cons c after =>
    exfalso
    by_cases hopen : commentEnd <:+: body ++ [c]
    · -- the comment would be closed by the next character
      rcases List.infix_concat_iff.1 hopen with hsuffix | hinside
      · obtain ⟨inner, hinner⟩ := hsuffix
        have hsplit : inner ++ ['*'] ++ ['/'] = body ++ [c] := by
          rw [List.append_assoc]
          exact hinner
        obtain ⟨rfl, -⟩ := List.append_inj' hsplit rfl
        apply h.not_extends .gap
        have hclosed : '/' :: '*' :: (inner ++ ['*']) ++ [c] =
            '/' :: '*' :: (inner ++ commentEnd) := by
          rw [hinner]
          rfl
        rw [hclosed]
        exact .blockComment hbody
      · exact hbody hinside
    · exact h.not_extends (.fault .unterminatedComment) (.openComment hopen)

theorem after_slash (h : Longest ['/'] rest) :
    ∀ c ∈ rest.head?, c ≠ '/' ∧ c ≠ '*' := by
  intro c hc
  obtain ⟨after, rfl⟩ := List.head?_eq_some_iff.1 hc
  constructor
  · rintro rfl
    exact h.not_extends .gap (.lineComment (List.forall_mem_nil _))
  · rintro rfl
    exact h.not_extends (.fault .unterminatedComment) (.openComment (by simp [commentEnd]))

/-- Whether a piece is the longest one depends on what follows it only through the character that
would make it longer. -/
theorem transfer {other : List Char} {meaning : Meaning} (h : Longest piece rest)
    (hpiece : Piece piece meaning)
    (hword : (∀ c ∈ rest.head?, isWordCharacter c = false) →
      ∀ c ∈ other.head?, isWordCharacter c = false)
    (hslash : (∀ c ∈ rest.head?, c ≠ '/' ∧ c ≠ '*') → ∀ c ∈ other.head?, c ≠ '/' ∧ c ≠ '*')
    (hbreak : (meaning = .gap ∨ ∃ error, meaning = .fault error) →
      (∀ c ∈ rest.head?, isLineBreak c = true) → ∀ c ∈ other.head?, isLineBreak c = true)
    (hend : meaning = .fault .unterminatedComment → rest = [] → other = []) :
    Longest piece other := by
  cases hpiece with
  | blank hblank => exact longest_single fun x meaning k => (k.of_blank hblank).1
  | lineComment hbody =>
    exact longest_lineComment (hbreak (.inl rfl) (h.after_lineComment hbody))
  | @blockComment body hbody => exact longest_blockComment body _
  | openComment hbody =>
    rw [hend rfl (h.after_openComment hbody)]
    exact longest_all _
  | @string body hbody => exact longest_string body _
  | openString hbody =>
    exact longest_openString (hbreak (.inr ⟨_, rfl⟩) (h.after_openString hbody))
  | word hne hall hmeaning =>
    obtain ⟨first, letters, rfl⟩ := List.exists_cons_of_ne_nil hne
    exact longest_word (hall first List.mem_cons_self) (hword (h.after_word hall))
  | @symbol c mark hmark =>
    subst hmark
    by_cases hmark : mark = .slash
    · subst hmark
      have hafter := hslash h.after_slash
      refine longest_slash (fun after k => ?_) (fun after k => ?_)
      · exact (hafter '/' (by rw [k]; rfl)).1 rfl
      · exact (hafter '*' (by rw [k]; rfl)).2 rfl
    · exact longest_single fun x meaning k => (k.of_symbol hmark).1
  | unknown hblank hword hquote hsymbol =>
    exact longest_single fun x meaning k => (k.of_unknown hblank hword hquote hsymbol).1

end Longest

/-! ### The division of a text -/

theorem Piece.meaning_unique {piece : List Char} {m n : Meaning} (h : Piece piece m)
    (k : Piece piece n) : m = n := by
  cases h with
  | blank hblank => exact (k.of_blank hblank).2.symm
  | lineComment hbody =>
    rcases k.of_slash with ⟨hx, -⟩ | ⟨_, -, -, rfl⟩ | ⟨_, hx, -, -⟩ | ⟨_, hx, -, -⟩
    · cases hx
    · rfl
    · exact absurd (List.cons.inj hx).1 (by decide)
    · exact absurd (List.cons.inj hx).1 (by decide)
  | @blockComment body hbody =>
    rcases k.of_slash with ⟨hx, -⟩ | ⟨_, hx, -, -⟩ | ⟨_, -, -, rfl⟩ | ⟨inner, hx, hinner, -⟩
    · cases hx
    · exact absurd (List.cons.inj hx).1 (by decide)
    · rfl
    · obtain ⟨-, rfl⟩ := List.cons.inj hx
      exact absurd (List.suffix_append body commentEnd).isInfix hinner
  | openComment hbody =>
    rcases k.of_slash with ⟨hx, -⟩ | ⟨_, hx, -, -⟩ | ⟨inner, hx, -, -⟩ | ⟨_, -, -, rfl⟩
    · cases hx
    · exact absurd (List.cons.inj hx).1 (by decide)
    · obtain ⟨-, rfl⟩ := List.cons.inj hx
      exact absurd (List.suffix_append inner commentEnd).isInfix hbody
    · rfl
  | string hbody =>
    rcases k.of_quote with ⟨_, -, -, rfl⟩ | ⟨hall, -⟩
    · rfl
    · cases hall '"' (by simp)
  | openString hbody =>
    rcases k.of_quote with ⟨inner, rfl, -, -⟩ | ⟨-, rfl⟩
    · cases hbody '"' (by simp)
    · rfl
  | word hne hword hmeaning =>
    obtain ⟨first, rest, rfl⟩ := List.exists_cons_of_ne_nil hne
    exact hmeaning.unique hne (k.of_word (hword first List.mem_cons_self)).2
  | @symbol c mark hmark =>
    subst hmark
    by_cases hslash : mark = .slash
    · subst hslash
      rcases k.of_slash with ⟨-, rfl⟩ | ⟨_, hx, -, -⟩ | ⟨_, hx, -, -⟩ | ⟨_, hx, -, -⟩
      · rfl
      · cases hx
      · cases hx
      · cases hx
    · exact (k.of_symbol hslash).2.symm
  | unknown hblank hword hquote hsymbol =>
    exact (k.of_unknown hblank hword hquote hsymbol).2.symm

namespace Divides

variable {text : List Char} {pieces others : List (List Char × Meaning)}

theorem cases_text (h : Divides text pieces) :
    (text = [] ∧ pieces = []) ∨
      ∃ piece rest meaning later, text = piece ++ rest ∧ pieces = (piece, meaning) :: later ∧
        Piece piece meaning ∧ Longest piece rest ∧ Divides rest later := by
  cases h with
  | nil => exact .inl ⟨rfl, rfl⟩
  | cons hpiece hlongest hrest => exact .inr ⟨_, _, _, _, rfl, rfl, hpiece, hlongest, hrest⟩

/-- There is only one way to divide a text. -/
theorem unique (h : Divides text pieces) (k : Divides text others) : others = pieces := by
  induction h generalizing others with
  | nil =>
    rcases k.cases_text with ⟨-, rfl⟩ | ⟨piece, rest, meaning, later, htext, -, hpiece, -, -⟩
    · rfl
    · exact absurd (List.append_eq_nil_iff.1 htext.symm).1 hpiece.ne_nil
  | cons hpiece hlongest hrest ih =>
    rcases k.cases_text with ⟨htext, -⟩ | ⟨piece', rest', meaning', later', htext, rfl, hpiece',
      hlongest', hrest'⟩
    · exact absurd (List.append_eq_nil_iff.1 htext).1 hpiece.ne_nil
    · -- each of the first pieces is no longer than the other
      have hle := hlongest _ _ hpiece' (htext ▸ List.prefix_append _ _)
      have hge := hlongest' _ _ hpiece (htext ▸ List.prefix_append _ _)
      obtain ⟨rfl, rfl⟩ := List.append_inj htext (Nat.le_antisymm hge hle)
      rw [hpiece.meaning_unique hpiece', ih hrest']

end Divides

end JackCompiler
