import JackCompiler.Proofs.Lexemes
import JackCompiler.Proofs.TextSlices

/-!
Scanning with every text taken out of the source by its span. A span is made of two offsets of 32
bits, the end of the text among them, and the value of a number is narrowed to 16 bits. In a source
of fewer than 2 ^ 32 bytes this finds the tokens that scanning finds, because a scanner always
stands between two characters of the source.
-/

namespace JackCompiler

namespace Scanner

/-- The span from a scanner to a later one. -/
def spanTo? (scanner after : Scanner) : Option Span := do
  let start ← narrow? 32 scanner.offset
  let stop ← narrow? 32 after.offset
  let size ← minus? stop start
  some ⟨start, size⟩

/-- A token with the text from a scanner to a later one. -/
def tokenTo? (source : String) (kind : TokenKind) (scanner after : Scanner) : Option Token := do
  let span ← scanner.spanTo? after
  let text ← span.text? source
  some ⟨kind, text, span⟩

/-- What a word is. The value of a number is narrowed to 16 bits. -/
def classify? (word : String) (line : Nat) : Option (Except LexicalError TokenKind) :=
  match classify word.toList line with
  | .ok (.integer value) => do
    let value ← narrow? 16 value
    some (.ok (.integer value))
  | result => some result

/-- The token at the scanner, with texts that are slices of the source. -/
def lexeme? (source : String) (scanner : Scanner) :
    Option (Except LexicalError Token × Scanner) :=
  match scanner.rest with
  | [] => do
    let token ← tokenTo? source .endOfFile scanner scanner
    some (.ok token, scanner)
  | '"' :: rest =>
    let opened := scanner.past ['"'] rest
    let closing := opened.past (rest.takeWhile isStringCharacter)
      (rest.dropWhile isStringCharacter)
    match rest.dropWhile isStringCharacter with
    | '"' :: after => do
      let token ← tokenTo? source .string opened closing
      some (.ok token, closing.past ['"'] after)
    | _ => some (.error (.unterminatedString scanner.line), closing)
  | c :: rest =>
    if isWordCharacter c then do
      let after := scanner.past ((c :: rest).takeWhile isWordCharacter)
        ((c :: rest).dropWhile isWordCharacter)
      let span ← scanner.spanTo? after
      let text ← span.text? source
      let kind ← classify? text scanner.line
      some (kind.map (⟨·, text, span⟩), after)
    else
      let after := scanner.past [c] rest
      match Symbol.ofChar? c with
      | some mark => do
        let token ← tokenTo? source (.symbol mark) scanner after
        some (.ok token, after)
      | none => some (.error (.unknownCharacter c scanner.line), after)

/-- The next token or error. -/
def next? (source : String) (scanner : Scanner) : Option (Except LexicalError Token × Scanner) :=
  match skip .blank scanner.rest scanner.offset scanner.line with
  | (some error, after) => some (.error error, after)
  | (none, after) => after.lexeme? source

/-! ### Where a scanner stands -/

/-- The scanner stands somewhere in the source, at its offset. -/
def At (source : String) (scanner : Scanner) : Prop :=
  ∃ before, source.toList = before ++ scanner.rest ∧ byteLength before = scanner.offset

section Standing

variable {source : String} {scanner : Scanner} {taken rest : List Char}

theorem At.start (source : String) : (start source).At source :=
  ⟨[], rfl, rfl⟩

theorem At.past (h : scanner.At source) (hrest : scanner.rest = taken ++ rest) :
    (scanner.past taken rest).At source := by
  obtain ⟨before, hsource, hoffset⟩ := h
  refine ⟨before ++ taken, ?_, ?_⟩
  · rw [hsource, hrest, List.append_assoc]
    rfl
  · rw [byteLength_append, hoffset]
    rfl

theorem At.offset_lt (h : scanner.At source) (hsize : source.utf8ByteSize < 2 ^ 32) :
    scanner.offset < 2 ^ 32 := by
  obtain ⟨before, hsource, hoffset⟩ := h
  rw [← hoffset]
  exact Nat.lt_of_le_of_lt (byteLength_prefix_le hsource) hsize

theorem At.spanTo? (h : scanner.At source) (hsize : source.utf8ByteSize < 2 ^ 32)
    (hrest : scanner.rest = taken ++ rest) :
    scanner.spanTo? (scanner.past taken rest) = some ⟨scanner.offset, byteLength taken⟩ := by
  have hstop : scanner.offset + byteLength taken < 2 ^ 32 := (h.past hrest).offset_lt hsize
  rw [Scanner.spanTo?, narrow?_eq (h.offset_lt hsize)]
  change ((narrow? 32 (scanner.offset + byteLength taken)).bind _) = _
  rw [narrow?_eq hstop, Option.bind_some, minus?_add]
  rfl

theorem At.text? (h : scanner.At source) (hsize : source.utf8ByteSize < 2 ^ 32)
    (hrest : scanner.rest = taken ++ rest) :
    Span.text? ⟨scanner.offset, byteLength taken⟩ source = some (String.ofList taken) := by
  obtain ⟨before, hsource, hoffset⟩ := h
  rw [hrest] at hsource
  rw [← hoffset]
  exact Span.text?_eq hsize (Span.fragment?_append hsource)

theorem At.tokenTo? (h : scanner.At source) (hsize : source.utf8ByteSize < 2 ^ 32)
    (hrest : scanner.rest = taken ++ rest) (kind : TokenKind) :
    Scanner.tokenTo? source kind scanner (scanner.past taken rest) =
      some ⟨kind, String.ofList taken, ⟨scanner.offset, byteLength taken⟩⟩ := by
  rw [Scanner.tokenTo?, h.spanTo? hsize hrest, Option.bind_eq_bind, Option.bind_some,
    h.text? hsize hrest]
  rfl

theorem classify?_eq (word : List Char) (line : Nat) :
    classify? (String.ofList word) line = some (classify word line) := by
  rw [classify?, String.toList_ofList]
  split
  · rename_i value hclass
    have hvalue : value < 2 ^ 16 := Nat.lt_of_le_of_lt (classify_integer_le hclass) (by decide)
    rw [narrow?_eq hvalue, hclass]
    rfl
  · rfl

/-- At a place of the source a lexeme is found with all its texts in range. -/
theorem At.lexeme? (h : scanner.At source) (hsize : source.utf8ByteSize < 2 ^ 32) :
    scanner.lexeme? source = some scanner.lexeme := by
  cases hrest : scanner.rest with
  | nil =>
    have hnothing : scanner.rest = [] ++ [] := hrest
    have htoken : scanner.tokenTo? source .endOfFile scanner = some (.endAt scanner.offset) :=
      h.tokenTo? hsize hnothing .endOfFile
    have hlexeme : scanner.lexeme = (.ok (.endAt scanner.offset), scanner) := by
      unfold Scanner.lexeme
      simp only [hrest]
    rw [hlexeme]
    unfold Scanner.lexeme?
    simp only [hrest, htoken]
    rfl
  | cons c rest =>
    have hfirst : scanner.rest = [c] ++ rest := hrest
    by_cases hquote : c = '"'
    · subst hquote
      have htoken := (h.past hfirst).tokenTo? hsize
        (List.takeWhile_append_dropWhile (p := isStringCharacter) (l := rest)).symm .string
      by_cases hclosed : ∃ after, rest.dropWhile isStringCharacter = '"' :: after
      · obtain ⟨after, hafter⟩ := hclosed
        rw [lexeme_string hrest hafter]
        rw [hafter, past_past] at htoken
        unfold Scanner.lexeme?
        simp only [hrest, hafter, htoken, past_past]
        rfl
      · have hopen : ∀ after, rest.dropWhile isStringCharacter ≠ '"' :: after :=
          fun after hafter => hclosed ⟨after, hafter⟩
        rw [lexeme_openString hrest hopen]
        unfold Scanner.lexeme?
        simp only [hrest, past_past]
        rfl
    cases hword : isWordCharacter c with
    | true =>
      have hsplit : scanner.rest = (c :: rest).takeWhile isWordCharacter ++
          (c :: rest).dropWhile isWordCharacter := by
        rw [hrest, List.takeWhile_append_dropWhile]
      rw [lexeme_word hrest hword]
      unfold Scanner.lexeme?
      simp only [hrest, hword, if_true, Option.bind_eq_bind, h.spanTo? hsize hsplit,
        h.text? hsize hsplit, classify?_eq, Option.bind_some]
    | false =>
      rw [lexeme_other hrest hword hquote]
      unfold Scanner.lexeme?
      cases hmark : Symbol.ofChar? c with
      | some mark =>
        simp only [hrest, hword, hmark, Bool.false_eq_true, if_false, h.tokenTo? hsize hfirst]
        rfl
      | none => simp only [hrest, hword, hmark, Bool.false_eq_true, if_false]

/-- A gap of the source is followed by another place of the source. -/
theorem skip_at (gap : Gap) (rest : List Char) (offset line : Nat)
    (h : At source ⟨rest, offset, line⟩) : At source (skip gap rest offset line).2 := by
  have hpast : ∀ (taken : List Char) {rest : List Char} {offset line : Nat} (below : Nat),
      At source ⟨taken ++ rest, offset, line⟩ →
      At source ⟨rest, offset + byteLength taken, below⟩ := fun _ _ _ _ _ hat => hat.past rfl
  fun_induction skip gap rest offset line with
  | case1 line offset last => exact h
  | case2 gap offset line hgap => exact h
  | case3 opened rest offset line ih => exact ih (hpast ['*', '/'] _ h)
  | case4 opened c rest offset line hstar ih => exact ih (hpast [c] _ h)
  | case5 c rest offset line ih => exact ih (hpast [c] _ h)
  | case6 rest offset line ih => exact ih (hpast ['/', '/'] _ h)
  | case7 rest offset line ih => exact ih (hpast ['/', '*'] _ h)
  | case8 c rest offset line hline hblock hblank ih => exact ih (hpast [c] _ h)
  | case9 c rest offset line hline hblock hblank => exact h

theorem At.lexeme (h : scanner.At source) : scanner.lexeme.2.At source := by
  unfold Scanner.lexeme
  split
  · exact h
  · rename_i rest hrest
    dsimp only
    split
    · rename_i after hafter
      refine h.past ?_
      rw [hrest, List.cons_append, List.cons_append, List.append_assoc, List.singleton_append,
        ← hafter, List.takeWhile_append_dropWhile]
    · refine h.past ?_
      rw [hrest, List.cons_append, List.takeWhile_append_dropWhile]
  · rename_i c rest hquote hrest
    dsimp only
    split
    · refine h.past ?_
      rw [hrest, List.takeWhile_append_dropWhile]
    · split <;> exact h.past hrest

/-- The next token or error is found with all texts in range, and the scanner stays in the
source. -/
theorem At.next? (h : scanner.At source) (hsize : source.utf8ByteSize < 2 ^ 32) :
    scanner.next? source = some scanner.next ∧ scanner.next.2.At source := by
  have hskip := skip_at .blank scanner.rest scanner.offset scanner.line h
  unfold Scanner.next? next
  cases heq : skip .blank scanner.rest scanner.offset scanner.line with
  | mk fault after =>
    rw [heq] at hskip
    cases fault with
    | some error => exact ⟨rfl, hskip⟩
    | none => exact ⟨hskip.lexeme? hsize, hskip.lexeme⟩

end Standing

end Scanner

/-! ### How many tokens there is room for -/

/-- Whether a statement starts with the token for which labels are handed out. -/
def TokenKind.branches : TokenKind → Bool
  | keyword .if_ | keyword .while_ => true
  | _ => false

theorem Piece.two_le_of_branches {piece : List Char} {kind : TokenKind}
    (h : Piece piece (.token kind)) (hkind : kind.branches = true) : 2 ≤ byteLength piece := by
  cases h with
  | word hne hword hmeaning =>
    cases hmeaning with
    | @keyword word hspelled =>
      rw [← hspelled]
      cases word <;> decide +kernel
    | identifier hfirst hkeyword => cases hkind
    | integer hdigits hvalue => cases hkind
  | symbol hmark => cases hkind

/-- Each token that labels are handed out for takes two bytes of the text or more. -/
theorem two_mul_branches_le {text : List Char} {pieces : List (List Char × Meaning)}
    (hdivides : Divides text pieces) {offset line : Nat} {found : List Token}
    (hfound : tokensOfPieces offset line pieces = .ok found) :
    2 * found.countP (·.kind.branches) ≤ byteLength text := by
  induction hdivides generalizing offset line found with
  | nil =>
    cases hfound
    exact Nat.le_refl 0
  | @cons piece rest meaning later hpiece hlongest hrest ih =>
    rw [tokensOfPieces] at hfound
    rw [byteLength_append]
    cases meaning with
    | gap => exact Nat.le_add_left_of_le (ih hfound)
    | token kind =>
      obtain ⟨tokens, hok, rfl⟩ := eq_ok_of_map hfound
      have hlater := ih hok
      rw [List.countP_cons]
      split
      · rename_i hbranches
        have hlength := hpiece.two_le_of_branches hbranches
        omega
      · omega
    | quoted =>
      obtain ⟨tokens, hok, rfl⟩ := eq_ok_of_map hfound
      have hlater := ih hok
      rw [List.countP_cons, if_neg (by simp [TokenKind.branches])]
      omega
    | fault error => cases hfound

end JackCompiler
