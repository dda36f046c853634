import JackCompiler.Proofs.Layout
import JackCompiler.Proofs.Scanning
import Mathlib.Logic.Embedding.Basic

/-!
Texts with other identifiers. Every identifier of a text is replaced by another one, and everything
else stays. The new text is divided into pieces where the old one is: two pieces that stand side by
side do not run together, because an identifier starts with a letter before and after.
-/

namespace JackCompiler

/-- A letter, then letters and digits, and no keyword. -/
def isIdentifier (name : String) : Bool :=
  match name.toList with
  | [] => false
  | first :: rest =>
    isLetter first && rest.all isWordCharacter && (Keyword.ofText? name).isNone

/-- The spellings that identifiers can have. -/
def Identifier : Type :=
  { name : String // isIdentifier name = true }

namespace Identifier

/-- Another spelling for identifiers; all else stays as it is. -/
def rename (ρ : Identifier → Identifier) (name : String) : String :=
  if h : isIdentifier name = true then (ρ ⟨name, h⟩).1 else name

variable (ρ : Identifier → Identifier)

theorem rename_of_identifier {name : String} (h : isIdentifier name = true) :
    rename ρ name = (ρ ⟨name, h⟩).1 :=
  dif_pos h

theorem rename_of_other {name : String} (h : isIdentifier name = false) :
    rename ρ name = name :=
  dif_neg (Bool.eq_false_iff.1 h)

theorem isIdentifier_rename (name : String) : isIdentifier (rename ρ name) = isIdentifier name := by
  by_cases h : isIdentifier name = true
  · rw [rename_of_identifier ρ h, h]
    exact (ρ ⟨name, h⟩).2
  · rw [rename_of_other ρ (Bool.eq_false_iff.2 h)]

/-- Different strings stay different. -/
theorem rename_injective {ρ : Identifier → Identifier} (hρ : Function.Injective ρ) :
    Function.Injective (rename ρ) := by
  intro name other h
  have hboth := isIdentifier_rename ρ name
  rw [h, isIdentifier_rename] at hboth
  by_cases hname : isIdentifier name = true
  · rw [rename_of_identifier ρ hname, rename_of_identifier ρ (hboth.trans hname)] at h
    exact congrArg Subtype.val (hρ (Subtype.ext h))
  · have hother := Bool.eq_false_iff.2 hname
    rwa [rename_of_other ρ hother, rename_of_other ρ (hboth.trans hother)] at h

theorem rename_keyword (word : Keyword) : rename ρ word.text = word.text := by
  apply rename_of_other
  unfold isIdentifier
  split
  · rfl
  · rw [Keyword.ofText?_text]
    exact Bool.and_false _

end Identifier

/-! ### Identifiers among the pieces -/

theorem isLetter_of_word {c : Char} (hword : isWordCharacter c = true)
    (hdigit : isDigit c = false) : isLetter c = true := by
  rwa [isWordCharacter, hdigit, Bool.or_false] at hword

namespace Piece

/-- Identifiers are the pieces that are spelled like one. -/
theorem identifier_iff {piece : List Char} :
    Piece piece (.token .identifier) ↔ isIdentifier (String.ofList piece) = true := by
  have hkeyword : ∀ name : String, Keyword.ofText? name = none ↔
      ∀ spelled : Keyword, spelled.text.toList ≠ name.toList := by
    intro name
    constructor
    · intro hnone spelled heq
      rw [← String.toList_injective heq, Keyword.ofText?_text] at hnone
      cases hnone
    · intro hne
      apply List.find?_eq_none.2
      intro spelled _ hspelled
      exact hne spelled (congrArg String.toList (of_decide_eq_true hspelled))
  cases piece with
  | nil => exact iff_of_false (fun h => h.ne_nil rfl) (by simp [isIdentifier])
  | cons first rest =>
    simp only [isIdentifier, String.toList_ofList, Bool.and_eq_true, List.all_eq_true,
      Option.isNone_iff_eq_none, hkeyword]
    constructor
    · intro h
      cases h with
      | word hne hword hmeaning =>
        obtain ⟨hfirst, hrest⟩ := List.forall_mem_cons.1 hword
        cases hmeaning with
        | identifier hdigit hkeyword =>
          exact ⟨⟨isLetter_of_word hfirst (hdigit first rfl), hrest⟩, hkeyword⟩
    · rintro ⟨⟨hletter, hrest⟩, hnone⟩
      have hfirst := isWordCharacter_of_isLetter hletter
      refine .word (List.cons_ne_nil _ _) (List.forall_mem_cons.2 ⟨hfirst, hrest⟩)
        (.identifier ?_ hnone)
      rintro _ ⟨⟩
      exact not_isDigit_of_isLetter hletter

theorem head_identifier {piece : List Char} (h : Piece piece (.token .identifier)) :
    ∃ first rest, piece = first :: rest ∧ isLetter first = true := by
  obtain ⟨first, rest, rfl⟩ := List.exists_cons_of_ne_nil h.ne_nil
  cases h with
  | word hne hword hmeaning =>
    cases hmeaning with
    | identifier hdigit hkeyword =>
      exact ⟨first, rest, rfl, isLetter_of_word (hword first List.mem_cons_self) (hdigit first rfl)⟩

end Piece

/-! ### Renamed pieces -/

/-- An identifier is replaced and every other piece stays. -/
def renamePiece (ρ : Identifier → Identifier) : List Char × Meaning → List Char × Meaning
  | (piece, .token .identifier) =>
    ((Identifier.rename ρ (String.ofList piece)).toList, .token .identifier)
  | piece => piece

section Pieces

variable (ρ : Identifier → Identifier) {text piece : List Char} {meaning : Meaning}
  {pieces : List (List Char × Meaning)}

theorem renamePiece_identifier (h : Piece piece (.token .identifier)) :
    Piece (renamePiece ρ (piece, .token .identifier)).1 (.token .identifier) := by
  rw [Piece.identifier_iff] at h ⊢
  rw [renamePiece, String.ofList_toList, Identifier.isIdentifier_rename]
  exact h

theorem renamePiece_of_ne (h : meaning ≠ .token .identifier) :
    renamePiece ρ (piece, meaning) = (piece, meaning) := by
  unfold renamePiece
  split
  · rename_i heq
    exact absurd (Prod.mk.inj heq).2 h
  · rfl

theorem Piece.words {kind : TokenKind} (h : Piece piece (.token kind))
    (hkind : kind.isWord = true) : ∀ c ∈ piece, isWordCharacter c = true := by
  cases h with
  | word hne hword hmeaning => exact hword
  | symbol hmark => cases hkind

/-- The new text starts like the old one, or both start with a letter. -/
theorem Divides.head?_rename (h : Divides text pieces) :
    (textOf (pieces.map (renamePiece ρ))).head? = text.head? ∨
      ∃ c d, text.head? = some c ∧ isLetter c = true ∧
        (textOf (pieces.map (renamePiece ρ))).head? = some d ∧ isLetter d = true := by
  cases h with
  | nil => exact .inl rfl
  | @cons piece rest meaning later hpiece hlongest hrest =>
    rw [textOf, List.map_cons, List.flatMap_cons]
    by_cases hidentifier : meaning = .token .identifier
    · subst hidentifier
      obtain ⟨c, x, rfl, hc⟩ := hpiece.head_identifier
      obtain ⟨d, y, hrenamed, hd⟩ := (renamePiece_identifier ρ hpiece).head_identifier
      rw [hrenamed]
      exact .inr ⟨c, d, rfl, hc, rfl, hd⟩
    · obtain ⟨c, x, rfl⟩ := List.exists_cons_of_ne_nil hpiece.ne_nil
      rw [renamePiece_of_ne ρ hidentifier]
      exact .inl rfl

/-- What does not tell letters apart holds of the first character of the new text if it does of the
old one. -/
theorem Divides.head?_rename_all {p : Char → Prop} (h : Divides text pieces)
    (hletters : ∀ c d, isLetter c = true → isLetter d = true → p c → p d)
    (htext : ∀ c ∈ text.head?, p c) :
    ∀ c ∈ (textOf (pieces.map (renamePiece ρ))).head?, p c := by
  rcases h.head?_rename ρ with hsame | ⟨c, d, hc, hletter, hd, hother⟩
  · rwa [hsame]
  · rw [hd]
    rintro _ ⟨⟩
    exact hletters c d hletter hother (htext c hc)

/-- A piece is still the longest in front of the new text. -/
theorem longest_rename {later : List (List Char × Meaning)} (hpiece : Piece piece meaning)
    (hlongest : Longest piece text) (hrest : Divides text later) :
    Longest (renamePiece ρ (piece, meaning)).1 (textOf (later.map (renamePiece ρ))) := by
  have hbreaks : (∀ c ∈ text.head?, isLineBreak c = true) →
      ∀ c ∈ (textOf (later.map (renamePiece ρ))).head?, isLineBreak c = true := by
    refine hrest.head?_rename_all ρ (p := (isLineBreak · = true)) fun c d hc _ hbreak => ?_
    rw [not_isLineBreak_of_isWordCharacter (isWordCharacter_of_isLetter hc)] at hbreak
    cases hbreak
  have hwords : (∀ c ∈ text.head?, isWordCharacter c = false) →
      ∀ c ∈ (textOf (later.map (renamePiece ρ))).head?, isWordCharacter c = false := by
    refine hrest.head?_rename_all ρ (p := (isWordCharacter · = false)) fun c d hc _ hword => ?_
    rw [isWordCharacter_of_isLetter hc] at hword
    cases hword
  have hslashes : (∀ c ∈ text.head?, c ≠ '/' ∧ c ≠ '*') →
      ∀ c ∈ (textOf (later.map (renamePiece ρ))).head?, c ≠ '/' ∧ c ≠ '*' := by
    refine hrest.head?_rename_all ρ (p := fun c => c ≠ '/' ∧ c ≠ '*') fun c d _ hd _ => ?_
    constructor
    · rintro rfl
      cases hd
    · rintro rfl
      cases hd
  by_cases hidentifier : meaning = .token .identifier
  · subst hidentifier
    obtain ⟨first, word, hrenamed, hfirst⟩ := (renamePiece_identifier ρ hpiece).head_identifier
    rw [hrenamed]
    exact longest_word (isWordCharacter_of_isLetter hfirst)
      (hwords (hlongest.after_word (hpiece.words rfl)))
  · rw [renamePiece_of_ne ρ hidentifier]
    refine hlongest.transfer hpiece hwords hslashes (fun _ => hbreaks) fun _ hend => ?_
    obtain rfl := hend
    obtain rfl := hrest.unique .nil
    rfl

theorem renamePiece_snd (ρ : Identifier → Identifier) (piece : List Char × Meaning) :
    (renamePiece ρ piece).2 = piece.2 := by
  unfold renamePiece
  split <;> rfl

/-- The new text is divided where the old one is. -/
theorem Divides.rename (h : Divides text pieces) :
    Divides (textOf (pieces.map (renamePiece ρ))) (pieces.map (renamePiece ρ)) := by
  induction h with
  | nil => exact .nil
  | @cons piece rest meaning later hpiece hlongest hrest ih =>
    have hrenamed : Piece (renamePiece ρ (piece, meaning)).1 meaning := by
      by_cases hidentifier : meaning = .token .identifier
      · subst hidentifier
        exact renamePiece_identifier ρ hpiece
      · rwa [renamePiece_of_ne ρ hidentifier]
    have hdivides := Divides.cons hrenamed (longest_rename ρ hpiece hlongest hrest) ih
    have hpair : renamePiece ρ (piece, meaning) = ((renamePiece ρ (piece, meaning)).1, meaning) :=
      Prod.ext rfl (renamePiece_snd ρ (piece, meaning))
    rw [List.map_cons, textOf, List.flatMap_cons, ← textOf, hpair]
    exact hdivides

/-! ### The tokens of a renamed text -/

theorem Piece.of_keyword {word : Keyword} (h : Piece piece (.token (.keyword word))) :
    word.text.toList = piece := by
  cases h with
  | word hne hword hmeaning =>
    cases hmeaning with
    | keyword hspelled => exact hspelled

theorem count_newline {word : List Char} (h : ∀ c ∈ word, isWordCharacter c = true) :
    word.count '\n' = 0 := by
  apply List.count_eq_zero.2
  intro hmem
  cases h '\n' hmem

/-- The text of a piece as a token of the kind, with identifiers renamed. -/
theorem Piece.respell_text {kind : TokenKind} (h : Piece piece (.token kind)) :
    String.ofList (renamePiece ρ (piece, .token kind)).1 =
      kind.respell (Identifier.rename ρ) (String.ofList piece) := by
  rw [TokenKind.respell]
  cases kind with
  | identifier => exact String.ofList_toList
  | keyword word =>
    obtain rfl := h.of_keyword
    rw [renamePiece_of_ne ρ (by simp), String.ofList_toList]
    exact (Identifier.rename_keyword ρ word).symm
  | _ => rfl

/-- No identifier contains the end of a line. -/
theorem Piece.lines_rename (h : Piece piece meaning) :
    (renamePiece ρ (piece, meaning)).1.count '\n' = piece.count '\n' := by
  by_cases hidentifier : meaning = .token .identifier
  · subst hidentifier
    rw [count_newline ((renamePiece_identifier ρ h).words rfl), count_newline (h.words rfl)]
  · rw [renamePiece_of_ne ρ hidentifier]

/-- The contents of a token and of those after it. -/
theorem map_contents (content : Token → TokenKind × String) (token : Token)
    (later : Except LexicalError (List Token)) :
    (later.map (token :: ·)).map (List.map content) =
      (later.map (List.map content)).map (content token :: ·) := by
  cases later <;> rfl

/-- Renaming changes the texts of identifiers and where tokens stand, and no error. -/
theorem tokensOfPieces_rename (h : Divides text pieces) (offset other line : Nat) :
    (tokensOfPieces other line (pieces.map (renamePiece ρ))).map (List.map Token.content) =
      (tokensOfPieces offset line pieces).map
        (List.map (Token.respelledContent (Identifier.rename ρ))) := by
  induction h generalizing offset other line with
  | nil => rfl
  | @cons piece rest meaning later hpiece hlongest hrest ih =>
    have hpair : renamePiece ρ (piece, meaning) = ((renamePiece ρ (piece, meaning)).1, meaning) :=
      Prod.ext rfl (renamePiece_snd ρ (piece, meaning))
    rw [List.map_cons, hpair, tokensOfPieces, tokensOfPieces, hpiece.lines_rename]
    cases meaning with
    | gap => exact ih _ _ _
    | token kind =>
      rw [Meaning.before, Meaning.before, map_contents, map_contents,
        ih (offset + byteLength piece), Token.content, hpiece.respell_text]
      rfl
    | quoted =>
      rw [renamePiece_of_ne ρ (by simp), Meaning.before, Meaning.before, map_contents, map_contents,
        ih (offset + byteLength piece)]
      rfl
    | fault error => rfl

end Pieces

/-- The pieces that a text is divided into. -/
noncomputable def piecesOf (source : String) : List (List Char × Meaning) :=
  (Scanner.exists_pieces (Scanner.start source)).choose

theorem divides_piecesOf (source : String) : Divides source.toList (piecesOf source) :=
  (Scanner.exists_pieces (Scanner.start source)).choose_spec.1

theorem tokensOfPieces_piecesOf (source : String) :
    Scanner.tokens source = tokensOfPieces 0 1 (piecesOf source) :=
  (Scanner.exists_pieces (Scanner.start source)).choose_spec.2

/-- The text with every identifier replaced. -/
noncomputable def renameText (ρ : Identifier → Identifier) (source : String) : String :=
  String.ofList (textOf ((piecesOf source).map (renamePiece ρ)))

/-- The pieces of the new text are those of the old one, with the identifiers replaced. -/
theorem piecesOf_renameText (ρ : Identifier → Identifier) (source : String) :
    piecesOf (renameText ρ source) = (piecesOf source).map (renamePiece ρ) := by
  have hdivides := (divides_piecesOf source).rename ρ
  rw [← String.toList_ofList (l := textOf _)] at hdivides
  exact hdivides.unique (divides_piecesOf (renameText ρ source))

/-- The tokens of the new text are those of the old one with other identifiers, or there is the same
error. -/
theorem tokens_renameText (ρ : Identifier → Identifier) (source : String) :
    (Scanner.tokens (renameText ρ source)).map (List.map Token.content) =
      (Scanner.tokens source).map (List.map (Token.respelledContent (Identifier.rename ρ))) := by
  rw [tokensOfPieces_piecesOf, tokensOfPieces_piecesOf source, piecesOf_renameText]
  exact tokensOfPieces_rename ρ (divides_piecesOf source) 0 0 1

/-- Identifiers and keywords are spelled as such pieces. -/
theorem piece_of_tokens {source : String} {tokens : List Token}
    (h : Scanner.tokens source = .ok tokens) :
    ∀ token ∈ tokens, token.kind.isWord = true → Piece token.text.toList (.token token.kind) := by
  intro token hmem hword
  obtain ⟨pieces, hdivides, hfound⟩ := Scanner.pieces_of_tokens h
  rcases origin_of_pieces hdivides hfound token hmem with ⟨hend, -⟩ | hpiece | ⟨hstring, -⟩
  · rw [hend] at hword
    cases hword
  · exact hpiece
  · rw [hstring] at hword
    cases hword

/-- Identifiers and keywords are spelled with letters, digits and underscores. -/
theorem words_of_tokens {source : String} {tokens : List Token}
    (h : Scanner.tokens source = .ok tokens) :
    ∀ token ∈ tokens, token.kind.isWord = true →
      ∀ c ∈ token.text.toList, isWordCharacter c = true :=
  fun token hmem hword => (piece_of_tokens h token hmem hword).words hword

end JackCompiler
