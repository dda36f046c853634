import JackCompiler.Proofs.Scanning

/-!
Two texts with a line feed between them. No piece of the first text goes on behind the line feed,
and nothing of the first is remembered in the second but how many bytes and lines it has.
-/

namespace JackCompiler

/-! ### Longest pieces before a line feed -/

/-- A line feed after the text keeps what holds of the character behind a piece. -/
theorem head?_append_newline {p : Char → Prop} {rest : List Char} (hrest : ∀ c ∈ rest.head?, p c)
    (hnewline : p '\n') (after : List Char) : ∀ c ∈ (rest ++ '\n' :: after).head?, p c := by
  cases rest with
  | nil =>
    rintro _ ⟨⟩
    exact hnewline
  | cons first rest => exact hrest

/-- A piece that is complete at the end of its text is the longest one also when a line feed follows
the text, whatever comes after that. -/
theorem Longest.append_newline {piece rest : List Char} {meaning : Meaning}
    (h : Longest piece rest) (hpiece : Piece piece meaning)
    (hfault : ∀ error, meaning ≠ .fault error) (after : List Char) :
    Longest piece (rest ++ '\n' :: after) := by
  refine h.transfer hpiece (fun hword => ?_) (fun hslash => ?_) (fun _ hbreak => ?_) ?_
  · exact head?_append_newline hword rfl after
  · exact head?_append_newline (p := fun c => c ≠ '/' ∧ c ≠ '*') hslash (by decide) after
  · exact head?_append_newline hbreak rfl after
  · exact fun hopen => absurd hopen (hfault _)

/-! ### Later places -/

/-- The token, so many bytes further on. -/
def Token.moved (distance : Nat) (token : Token) : Token :=
  { token with span := ⟨token.span.index + distance, token.span.size⟩ }

/-- The error, so many lines further down. -/
def LexicalError.lowered (lines : Nat) : LexicalError → LexicalError
  | unknownCharacter char line => .unknownCharacter char (line + lines)
  | malformedWord fragment line => .malformedWord fragment (line + lines)
  | integerOverflow fragment line => .integerOverflow fragment (line + lines)
  | unterminatedString line => .unterminatedString (line + lines)
  | unterminatedComment line => .unterminatedComment (line + lines)

/-- An error names its line and depends on it in no other way. -/
theorem Piece.lowered {piece : List Char} {error : Nat → LexicalError}
    (h : Piece piece (.fault error)) (line lines : Nat) :
    error (line + lines) = (error line).lowered lines := by
  cases h with
  | openComment hbody => rfl
  | openString hbody => rfl
  | word hne hword hmeaning => cases hmeaning <;> rfl
  | unknown hblank hword hquote hsymbol => rfl

/-- The pieces of a text that starts later. -/
theorem tokensOfPieces_moved {text : List Char} {pieces : List (List Char × Meaning)}
    (h : Divides text pieces) (offset line distance lines : Nat) :
    tokensOfPieces (offset + distance) (line + lines) pieces =
      match tokensOfPieces offset line pieces with
      | .ok tokens => .ok (tokens.map (Token.moved distance))
      | .error error => .error (error.lowered lines) := by
  induction h generalizing offset line with
  | nil => rfl
  | @cons piece rest meaning later hpiece hlongest hrest ih =>
    have hlater := ih (offset + byteLength piece) (line + piece.count '\n')
    rw [Nat.add_right_comm, Nat.add_right_comm line] at hlater
    rw [tokensOfPieces, tokensOfPieces, hlater]
    cases meaning with
    | gap => rfl
    | token kind =>
      cases tokensOfPieces (offset + byteLength piece) (line + piece.count '\n') later <;> rfl
    | quoted =>
      rw [Meaning.before, Nat.add_right_comm offset]
      cases tokensOfPieces (offset + byteLength piece) (line + piece.count '\n') later <;> rfl
    | fault error => exact congrArg Except.error (hpiece.lowered line lines)

/-! ### Two texts with a line feed between them -/

/-- A piece that is no error adds its token, if it has one, before the later ones. -/
theorem Meaning.before_eq {meaning : Meaning} (hfault : ∀ error, meaning ≠ .fault error)
    (piece : List Char) (offset line : Nat) :
    ∃ added, ∀ later, meaning.before piece offset line later = later.map (added ++ ·) := by
  cases meaning with
  | gap =>
    refine ⟨[], fun later => ?_⟩
    cases later <;> rfl
  | token kind => exact ⟨[_], fun later => rfl⟩
  | quoted => exact ⟨[_], fun later => rfl⟩
  | fault error => exact absurd rfl (hfault error)

theorem not_fault_of_before {meaning : Meaning} {piece : List Char} {offset line : Nat}
    {later : Except LexicalError (List Token)} {found : List Token}
    (h : meaning.before piece offset line later = .ok found) (error : Nat → LexicalError) :
    meaning ≠ .fault error := by
  rintro rfl
  cases h

/-- A text that has tokens is divided as before when a line feed and another text follow it, and its
tokens, the end apart, come before those of the other text. -/
theorem Divides.append_newline {text after : List Char}
    {pieces others : List (List Char × Meaning)} (h : Divides text pieces)
    (hafter : Divides after others) {offset line : Nat} {found : List Token}
    (hfound : tokensOfPieces offset line pieces = .ok found) :
    ∃ earlier, found = earlier ++ [.endAt (offset + byteLength text)] ∧
      Divides (text ++ '\n' :: after) (pieces ++ (['\n'], .gap) :: others) ∧
      tokensOfPieces offset line (pieces ++ (['\n'], .gap) :: others) =
        (tokensOfPieces (offset + (byteLength text + 1)) (line + (text.count '\n' + 1))
          others).map (earlier ++ ·) := by
  induction h generalizing offset line found with
  | nil =>
    cases hfound
    have hlongest : Longest ['\n'] after := longest_single fun x meaning k => (k.of_blank rfl).1
    refine ⟨[], rfl, .cons (.blank rfl) hlongest hafter, ?_⟩
    have hmap : ∀ result : Except LexicalError (List Token), result = result.map ([] ++ ·) := by
      intro result
      cases result <;> rfl
    exact hmap _
  | @cons piece rest meaning later hpiece hlongest hrest ih =>
    rw [tokensOfPieces] at hfound
    -- The text has tokens, so none of its pieces is an error that the line feed could close.
    have hfault := not_fault_of_before hfound
    obtain ⟨added, hadded⟩ := meaning.before_eq hfault piece offset line
    rw [hadded] at hfound
    cases hlater : tokensOfPieces (offset + byteLength piece) (line + piece.count '\n') later with
    | error error =>
      rw [hlater] at hfound
      cases hfound
    | ok tokens =>
      rw [hlater] at hfound
      cases hfound
      obtain ⟨earlier, rfl, hdivides, htokens⟩ := ih hlater
      refine ⟨added ++ earlier, ?_, ?_, ?_⟩
      · rw [List.append_assoc, byteLength_append, Nat.add_assoc]
      · rw [List.append_assoc]
        exact .cons hpiece (hlongest.append_newline hpiece hfault after) hdivides
      · rw [List.cons_append, tokensOfPieces, hadded, htokens, byteLength_append,
          List.count_append, Nat.add_assoc, Nat.add_assoc, Nat.add_assoc, Nat.add_assoc]
        cases tokensOfPieces _ _ others with
        | error error => rfl
        | ok tokens => exact congrArg Except.ok (List.append_assoc added earlier tokens).symm

namespace Scanner

/-- If a text has tokens, then with a line feed and another text behind it there are the same tokens
and, so many bytes later, those of the other text, or its first error, so many lines later. -/
theorem tokens_append_newline (a b : String) (found : List Token)
    (h : Scanner.tokens a = .ok found) :
    ∃ earlier, found = earlier ++ [.endAt a.utf8ByteSize] ∧
      Scanner.tokens (a ++ "\n" ++ b) =
        match Scanner.tokens b with
        | .ok later => .ok (earlier ++ later.map (Token.moved (a.utf8ByteSize + 1)))
        | .error error => .error (error.lowered (a.toList.count '\n' + 1)) := by
  obtain ⟨pieces, hpieces, hfound⟩ := exists_pieces (start a)
  obtain ⟨others, hothers, hlater⟩ := exists_pieces (start b)
  obtain ⟨whole, hwhole, htokens⟩ := exists_pieces (start (a ++ "\n" ++ b))
  have hok : tokensOfPieces 0 1 pieces = .ok found := hfound.symm.trans h
  obtain ⟨earlier, rfl, hdivides, hjoined⟩ := hpieces.append_newline hothers hok
  have htext : (start (a ++ "\n" ++ b)).rest = a.toList ++ '\n' :: b.toList := by
    simp [start]
  rw [htext] at hwhole
  obtain rfl := hdivides.unique hwhole
  have hsize : byteLength (start a).rest = a.utf8ByteSize := (utf8ByteSize_eq a).symm
  refine ⟨earlier, ?_, ?_⟩
  · rw [Nat.zero_add, hsize]
  · have hb : Scanner.tokens b = tokensOfPieces 0 1 others := hlater
    have hmoved := tokensOfPieces_moved hothers 0 1 (a.utf8ByteSize + 1) (a.toList.count '\n' + 1)
    have hall : Scanner.tokens (a ++ "\n" ++ b) =
        tokensOfPieces 0 1 (pieces ++ (['\n'], .gap) :: others) := htokens
    rw [hall, hjoined, hsize, hb]
    change (tokensOfPieces _ (1 + (a.toList.count '\n' + 1)) others).map _ = _
    rw [hmoved]
    cases tokensOfPieces 0 1 others <;> rfl

/-- A text that ends with a stroke, which may not open a comment in the next line. -/
def strokeText : String :=
  "/* é */ a /"

def strokeTokens : List Token :=
  [⟨.identifier, "a", ⟨9, 1⟩⟩, ⟨.symbol .slash, "/", ⟨11, 1⟩⟩, .endAt 12]

theorem tokens_append_newline_strokeText :
    Scanner.tokens strokeText = .ok strokeTokens ∧
      Scanner.tokens (strokeText ++ "\n" ++ "/ b") = .ok
        [⟨.identifier, "a", ⟨9, 1⟩⟩, ⟨.symbol .slash, "/", ⟨11, 1⟩⟩,
          ⟨.symbol .slash, "/", ⟨13, 1⟩⟩, ⟨.identifier, "b", ⟨15, 1⟩⟩, .endAt 16] ∧
      Scanner.tokens (strokeText ++ "\n" ++ "/ \"") = .error (.unterminatedString 2) := by
  have htokens : Scanner.tokens strokeText = .ok strokeTokens := by decide +kernel
  have hok : Scanner.tokens "/ b" = .ok
      [⟨.symbol .slash, "/", ⟨0, 1⟩⟩, ⟨.identifier, "b", ⟨2, 1⟩⟩, .endAt 3] := by decide +kernel
  have herror : Scanner.tokens "/ \"" = .error (.unterminatedString 1) := by decide +kernel
  obtain ⟨earlier, hearlier, hjoined⟩ := tokens_append_newline strokeText "/ b" strokeTokens htokens
  obtain ⟨_, -, hfails⟩ := tokens_append_newline strokeText "/ \"" strokeTokens htokens
  rw [hok] at hjoined
  rw [herror] at hfails
  have hlast : strokeTokens = [⟨.identifier, "a", ⟨9, 1⟩⟩, ⟨.symbol .slash, "/", ⟨11, 1⟩⟩] ++
      [.endAt 12] := rfl
  obtain ⟨rfl, -⟩ := List.append_inj' (hlast.symm.trans hearlier) rfl
  exact ⟨htokens, hjoined, hfails⟩

end Scanner

end JackCompiler
