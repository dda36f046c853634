import JackCompiler.Proofs.LexicalGrammar
import Mathlib.Data.List.TakeWhile

/-!
Scanning follows the lexical grammar. Passing over a gap, finding a token and running into an error
each take the longest piece of the text, so that the tokens of a text, or its first error, are those
of the pieces that it is divided into.
-/

namespace JackCompiler

theorem byteLength_cons (c : Char) (rest : List Char) :
    byteLength (c :: rest) = c.utf8Size + byteLength rest :=
  rfl

theorem byteLength_append (x y : List Char) :
    byteLength (x ++ y) = byteLength x + byteLength y := by
  induction x with
  | nil => exact (Nat.zero_add _).symm
  | cons c rest ih => rw [List.cons_append, byteLength_cons, byteLength_cons, ih, Nat.add_assoc]

/-- A run of one class of characters ends before another class. -/
theorem not_of_head?_dropWhile (p : Char → Bool) (text : List Char) :
    ∀ c ∈ (text.dropWhile p).head?, p c = false := by
  intro c hc
  have hfirst := List.head?_dropWhile_not p text
  rw [hc] at hfirst
  exact hfirst

/-- A text has a first end of a comment or none at all. -/
theorem exists_commentEnd (text : List Char) :
    ¬commentEnd <:+: text ∨
      ∃ body after, text = body ++ commentEnd ++ after ∧ ¬commentEnd <:+: body ++ ['*'] := by
  induction text with
  | nil => exact .inl (by simp [commentEnd])
  | cons c text ih =>
    by_cases hhere : commentEnd <+: c :: text
    · obtain ⟨after, hafter⟩ := hhere
      exact .inr ⟨[], after, hafter.symm, fun h => absurd h.length_le (by decide)⟩
    · rcases ih with hnone | ⟨body, after, rfl, hbody⟩
      · refine .inl fun h => ?_
        rcases List.infix_cons_iff.1 h with hstart | hlater
        · exact hhere hstart
        · exact hnone hlater
      · refine .inr ⟨c :: body, after, rfl, fun h => ?_⟩
        rcases List.infix_cons_iff.1 h with hstart | hlater
        · apply hhere
          refine hstart.trans ?_
          exact ⟨'/' :: after, by simp [commentEnd]⟩
        · exact hbody hlater

namespace Scanner

/-- The tokens from the scanner on, or the first error. -/
def tokensFrom (scanner : Scanner) : Except LexicalError (List Token) :=
  (resultsFrom [] scanner).mapM id

/-- One step of scanning. -/
theorem resultsFrom_step (found : List (Except LexicalError Token)) (scanner : Scanner) :
    resultsFrom found scanner =
      if isEnd scanner.next.1 then (scanner.next.1 :: found).reverse
      else resultsFrom (scanner.next.1 :: found) scanner.next.2 := by
  rw [resultsFrom]
  split
  rename_i result after hnext
  obtain rfl : scanner.next.1 = result := by rw [hnext]
  obtain rfl : scanner.next.2 = after := by rw [hnext]
  split <;> rfl

/-- Earlier results stay in front. -/
theorem resultsFrom_append (found before : List (Except LexicalError Token)) (scanner : Scanner) :
    resultsFrom (found ++ before) scanner = before.reverse ++ resultsFrom found scanner := by
  induction found, scanner using resultsFrom.induct with
  | case1 found scanner result after hnext hend =>
    rw [resultsFrom_step, resultsFrom_step found, hnext, if_pos hend, if_pos hend,
      List.reverse_cons, List.reverse_append, List.reverse_cons, List.append_assoc]
  | case2 found scanner result after hnext hend hshort ih =>
    rw [resultsFrom_step, resultsFrom_step found, hnext, if_neg hend, if_neg hend,
      ← List.cons_append, ih]

theorem resultsFrom_nil (scanner : Scanner) :
    resultsFrom [] scanner =
      scanner.next.1 :: if isEnd scanner.next.1 then [] else resultsFrom [] scanner.next.2 := by
  have happend := resultsFrom_append [] [scanner.next.1] scanner.next.2
  rw [List.nil_append, List.reverse_singleton, List.singleton_append] at happend
  rw [resultsFrom_step, happend]
  split <;> rfl

theorem tokensFrom_of_next {scanner other : Scanner} (h : scanner.next = other.next) :
    scanner.tokensFrom = other.tokensFrom := by
  rw [tokensFrom, resultsFrom_nil, h, ← resultsFrom_nil, tokensFrom]

theorem tokensFrom_of_error {scanner : Scanner} {error : LexicalError}
    (h : scanner.next.1 = .error error) : scanner.tokensFrom = .error error := by
  rw [tokensFrom, resultsFrom_nil, h]
  rfl

theorem tokensFrom_of_end {scanner : Scanner} {token : Token}
    (h : scanner.next.1 = .ok token) (hkind : token.kind = .endOfFile) :
    scanner.tokensFrom = .ok [token] := by
  have hend : isEnd (.ok token) = true := by simpa [isEnd] using hkind
  rw [tokensFrom, resultsFrom_nil, h, if_pos hend]
  rfl

theorem tokensFrom_of_token {scanner after : Scanner} {token : Token}
    (h : scanner.next = (.ok token, after)) (hkind : token.kind ≠ .endOfFile) :
    scanner.tokensFrom = after.tokensFrom.map (token :: ·) := by
  have hend : ¬isEnd (.ok token) = true := by simpa [isEnd] using hkind
  rw [tokensFrom, resultsFrom_nil, h, if_neg hend, List.mapM_cons]
  change (after.tokensFrom >>= fun later => .ok (token :: later)) = _
  cases after.tokensFrom <;> rfl

/-! ### Gaps -/

/-- The rest of a line comment is passed over. -/
theorem skip_lineComment {body rest : List Char} (hbody : ∀ c ∈ body, isLineBreak c = false)
    (hrest : ∀ c ∈ rest.head?, isLineBreak c = true) (offset line : Nat) :
    skip .lineComment (body ++ rest) offset line =
      skip .blank rest (offset + byteLength body) (line + body.count '\n') := by
  induction body generalizing offset with
  | nil =>
    cases rest with
    | nil => rfl
    | cons c rest =>
      have hc := hrest c rfl
      simp only [isLineBreak, Bool.or_eq_true, decide_eq_true_eq] at hc
      rcases hc with rfl | rfl
      · rfl
      · rfl
  | cons c body ih =>
    obtain ⟨hc, hbody⟩ := List.forall_mem_cons.1 hbody
    have hnewline : c ≠ '\n' := by
      rintro rfl
      cases hc
    rw [List.cons_append, skip, hc, if_neg hnewline, byteLength_cons, ← Nat.add_assoc,
      List.count_cons_of_ne hnewline]
    exact ih hbody _

/-- Lines are counted on at every line feed. -/
theorem line_add_count (c : Char) (text : List Char) (line : Nat) :
    (if c = '\n' then line + 1 else line) + text.count '\n' = line + (c :: text).count '\n' := by
  rw [List.count_cons]
  by_cases hnewline : c = '\n'
  · rw [hnewline, if_pos rfl, beq_self_eq_true, if_pos rfl, Nat.add_assoc, Nat.add_comm 1]
  · rw [if_neg hnewline, if_neg (by simpa using hnewline), Nat.add_zero]

/-- A block comment is passed over up to its first end. -/
theorem skip_blockComment {body : List Char} (hbody : ¬commentEnd <:+: body ++ ['*'])
    (rest : List Char) (opened offset line : Nat) :
    skip (.blockComment opened) (body ++ commentEnd ++ rest) offset line =
      skip .blank rest (offset + byteLength (body ++ commentEnd))
        (line + (body ++ commentEnd).count '\n') := by
  induction body generalizing offset line with
  | nil => rfl
  | cons c body ih =>
    have htail : ¬commentEnd <:+: body ++ ['*'] := fun h => hbody (List.infix_cons h)
    have hnot : ∀ tail, c = '*' → body ++ commentEnd ++ rest = '/' :: tail → False := by
      rintro tail rfl htext
      cases body with
      | nil => cases htext
      | cons d body =>
        obtain ⟨rfl, -⟩ := List.cons.inj htext
        exact hbody ⟨[], body ++ ['*'], rfl⟩
    rw [List.cons_append, List.cons_append, skip.eq_4 _ _ _ _ _ hnot, ih htail, byteLength_cons,
      ← Nat.add_assoc, line_add_count]

/-- Nothing is left behind a comment that is never closed. -/
theorem skip_openComment {body : List Char} (hbody : ¬commentEnd <:+: body)
    (opened offset line : Nat) :
    skip (.blockComment opened) body offset line =
      (some (.unterminatedComment opened),
        ⟨[], offset + byteLength body, line + body.count '\n'⟩) := by
  induction body generalizing offset line with
  | nil => rfl
  | cons c body ih =>
    have htail : ¬commentEnd <:+: body := fun h => hbody (List.infix_cons h)
    have hnot : ∀ tail, c = '*' → body = '/' :: tail → False := by
      rintro tail rfl rfl
      exact hbody ⟨[], tail, rfl⟩
    rw [skip.eq_4 _ _ _ _ _ hnot, ih htail, byteLength_cons, ← Nat.add_assoc, line_add_count]

/-- A blank is passed over. -/
theorem skip_blank {c : Char} (hblank : isBlank c = true) (rest : List Char) (offset line : Nat) :
    skip .blank (c :: rest) offset line =
      skip .blank rest (offset + byteLength [c]) (line + [c].count '\n') := by
  have hslash : c ≠ '/' := by
    rintro rfl
    cases hblank
  rw [skip.eq_8 _ _ _ _ (fun _ h => absurd h hslash) (fun _ h => absurd h hslash), if_pos hblank,
    List.count_singleton]
  by_cases hnewline : c = '\n'
  · subst hnewline
    rfl
  · rw [if_neg hnewline, if_neg (by simpa using hnewline)]
    rfl

/-- Passing over gaps ends before any other character, unless a comment starts there. -/
theorem skip_lexeme {c : Char} {rest : List Char} (hblank : isBlank c = false)
    (hline : ∀ after, c = '/' → rest ≠ '/' :: after)
    (hblock : ∀ after, c = '/' → rest ≠ '*' :: after) (offset line : Nat) :
    skip .blank (c :: rest) offset line = (none, ⟨c :: rest, offset, line⟩) := by
  rw [skip.eq_8 _ _ _ _ hline hblock, if_neg (Bool.eq_false_iff.1 hblank)]

/-! ### The first piece -/

theorem past_past (scanner : Scanner) (x y s t : List Char) :
    (scanner.past x s).past y t = scanner.past (x ++ y) t := by
  simp only [past, byteLength_append, List.count_append, Nat.add_assoc]

/-- The scanner stands at a longest piece. A gap is passed over, and any other piece is what is found
next. -/
structure Takes (scanner : Scanner) (piece : List Char) (meaning : Meaning) (rest : List Char) :
    Prop where
  split : scanner.rest = piece ++ rest
  isPiece : Piece piece meaning
  longest : Longest piece rest
  next : scanner.next = match meaning.result? piece scanner.offset scanner.line with
    | none => (scanner.past piece rest).next
    | some result => (result, scanner.past piece rest)

/-- The scanner stands at the longest piece there is, and its tokens are what that piece means and
those behind the piece. -/
def AtPiece (scanner : Scanner) : Prop :=
  ∃ piece meaning rest, scanner.rest = piece ++ rest ∧ Piece piece meaning ∧ Longest piece rest ∧
    scanner.tokensFrom = meaning.before piece scanner.offset scanner.line
      (scanner.past piece rest).tokensFrom

section First

variable {scanner : Scanner} {c : Char} {rest : List Char}

theorem takes_gap {piece : List Char} (hrest : scanner.rest = piece ++ rest)
    (hpiece : Piece piece .gap) (hlongest : Longest piece rest)
    (hskip : skip .blank (piece ++ rest) scanner.offset scanner.line =
      skip .blank rest (scanner.offset + byteLength piece)
        (scanner.line + piece.count '\n')) : scanner.Takes piece .gap rest := by
  refine ⟨hrest, hpiece, hlongest, ?_⟩
  rw [next, hrest, hskip]
  rfl

theorem takes_blank (hrest : scanner.rest = c :: rest) (hblank : isBlank c = true) :
    scanner.Takes [c] .gap rest := by
  have hlongest : Longest [c] rest := longest_single fun x meaning h => (h.of_blank hblank).1
  exact takes_gap hrest (.blank hblank) hlongest (skip_blank hblank rest _ _)

theorem takes_lineComment (hrest : scanner.rest = '/' :: '/' :: rest) :
    scanner.Takes ('/' :: '/' :: rest.takeWhile (!isLineBreak ·)) .gap
      (rest.dropWhile (!isLineBreak ·)) := by
  have hbody : ∀ c ∈ rest.takeWhile (!isLineBreak ·), isLineBreak c = false := by
    intro c hc
    simpa using List.mem_takeWhile_imp hc
  have hend : ∀ c ∈ (rest.dropWhile (!isLineBreak ·)).head?, isLineBreak c = true := by
    intro c hc
    simpa using not_of_head?_dropWhile _ rest c hc
  rw [← List.takeWhile_append_dropWhile (p := (!isLineBreak ·)) (l := rest)] at hrest
  refine takes_gap hrest (.lineComment hbody) (longest_lineComment hend) ?_
  rw [List.cons_append, List.cons_append, skip.eq_6, skip_lineComment hbody hend, byteLength_cons,
    byteLength_cons, ← Nat.add_assoc, ← Nat.add_assoc]
  rfl

theorem takes_blockComment {body after : List Char} (hbody : ¬commentEnd <:+: body ++ ['*'])
    (hrest : scanner.rest = '/' :: '*' :: (body ++ commentEnd ++ after)) :
    scanner.Takes ('/' :: '*' :: (body ++ commentEnd)) .gap after := by
  refine takes_gap hrest (.blockComment hbody) (longest_blockComment body after) ?_
  rw [List.cons_append, List.cons_append, skip.eq_7, skip_blockComment hbody, byteLength_cons,
    byteLength_cons, ← Nat.add_assoc, ← Nat.add_assoc]
  rfl

theorem takes_openComment (hopen : ¬commentEnd <:+: rest)
    (hrest : scanner.rest = '/' :: '*' :: rest) :
    scanner.Takes ('/' :: '*' :: rest) (.fault .unterminatedComment) [] := by
  refine ⟨hrest.trans (List.append_nil _).symm, .openComment hopen, longest_all _, ?_⟩
  rw [next, hrest, skip.eq_7, skip_openComment hopen]
  simp only [Meaning.result?, past, byteLength_cons, ← Nat.add_assoc]
  rfl

/-- Where no gap is, the scanner takes a lexeme. -/
theorem next_of_lexeme (hrest : scanner.rest = c :: rest) (hblank : isBlank c = false)
    (hline : ∀ after, c = '/' → rest ≠ '/' :: after)
    (hblock : ∀ after, c = '/' → rest ≠ '*' :: after) : scanner.next = scanner.lexeme := by
  rw [next, hrest, skip_lexeme hblank hline hblock, ← hrest]

/-! #### Strings, words and symbols -/

theorem lexeme_string {after : List Char} (hrest : scanner.rest = '"' :: rest)
    (hafter : rest.dropWhile isStringCharacter = '"' :: after) :
    scanner.lexeme =
      (.ok ⟨.string, String.ofList (rest.takeWhile isStringCharacter),
          ⟨scanner.offset + 1, byteLength (rest.takeWhile isStringCharacter)⟩⟩,
        scanner.past ('"' :: (rest.takeWhile isStringCharacter ++ ['"'])) after) := by
  unfold lexeme
  simp only [hrest, hafter]
  rfl

theorem lexeme_openString (hrest : scanner.rest = '"' :: rest)
    (hopen : ∀ after, rest.dropWhile isStringCharacter ≠ '"' :: after) :
    scanner.lexeme =
      (.error (.unterminatedString scanner.line),
        scanner.past ('"' :: rest.takeWhile isStringCharacter)
          (rest.dropWhile isStringCharacter)) := by
  unfold lexeme
  simp only [hrest]

theorem lexeme_word (hrest : scanner.rest = c :: rest) (hword : isWordCharacter c = true) :
    scanner.lexeme =
      ((classify (scanner.rest.takeWhile isWordCharacter) scanner.line).map
          (⟨·, String.ofList (scanner.rest.takeWhile isWordCharacter),
            ⟨scanner.offset, byteLength (scanner.rest.takeWhile isWordCharacter)⟩⟩),
        scanner.past (scanner.rest.takeWhile isWordCharacter)
          (scanner.rest.dropWhile isWordCharacter)) := by
  have hquote : c ≠ '"' := by
    rintro rfl
    cases hword
  unfold lexeme
  simp only [hrest, hword, if_true]

theorem lexeme_other (hrest : scanner.rest = c :: rest) (hword : isWordCharacter c = false)
    (hquote : c ≠ '"') :
    scanner.lexeme = match Symbol.ofChar? c with
      | some mark =>
        (.ok ⟨.symbol mark, c.toString, ⟨scanner.offset, c.utf8Size⟩⟩, scanner.past [c] rest)
      | none => (.error (.unknownCharacter c scanner.line), scanner.past [c] rest) := by
  unfold lexeme
  cases hmark : Symbol.ofChar? c <;>
    simp only [hrest, hword, hmark, Bool.false_eq_true, if_false]

/-! #### The longest piece -/

theorem takes_string {after : List Char} (hrest : scanner.rest = '"' :: rest)
    (hafter : rest.dropWhile isStringCharacter = '"' :: after) :
    scanner.Takes ('"' :: (rest.takeWhile isStringCharacter ++ ['"'])) .quoted after := by
  have hbody : ∀ c ∈ rest.takeWhile isStringCharacter, isStringCharacter c = true :=
    fun c hc => List.mem_takeWhile_imp hc
  have hnext := next_of_lexeme hrest rfl (fun after h => absurd h (by decide))
    (fun after h => absurd h (by decide))
  refine ⟨?_, .string hbody, longest_string _ after, ?_⟩
  · rw [hrest, List.cons_append, List.append_assoc, List.singleton_append, ← hafter,
      List.takeWhile_append_dropWhile]
  · rw [hnext, lexeme_string hrest hafter]
    simp only [Meaning.result?, List.tail_cons, List.dropLast_concat]

theorem takes_openString (hrest : scanner.rest = '"' :: rest)
    (hopen : ∀ after, rest.dropWhile isStringCharacter ≠ '"' :: after) :
    scanner.Takes ('"' :: rest.takeWhile isStringCharacter) (.fault .unterminatedString)
      (rest.dropWhile isStringCharacter) := by
  have hbody : ∀ c ∈ rest.takeWhile isStringCharacter, isStringCharacter c = true :=
    fun c hc => List.mem_takeWhile_imp hc
  have hnext := next_of_lexeme hrest rfl (fun after h => absurd h (by decide))
    (fun after h => absurd h (by decide))
  have hend : ∀ c ∈ (rest.dropWhile isStringCharacter).head?, isLineBreak c = true := by
    intro c hc
    have hstop := not_of_head?_dropWhile isStringCharacter rest c hc
    have hne : c ≠ '"' := by
      rintro rfl
      obtain ⟨after, hafter⟩ := List.head?_eq_some_iff.1 hc
      exact hopen after hafter
    simpa [isStringCharacter, hne] using hstop
  refine ⟨?_, .openString hbody, longest_openString hend, ?_⟩
  · rw [hrest, List.cons_append, List.takeWhile_append_dropWhile]
  · rw [hnext, lexeme_openString hrest hopen]
    rfl

theorem takes_word (hrest : scanner.rest = c :: rest) (hword : isWordCharacter c = true) :
    ∃ meaning, scanner.Takes (scanner.rest.takeWhile isWordCharacter) meaning
      (scanner.rest.dropWhile isWordCharacter) := by
  have hblank : isBlank c = false := by
    rw [Bool.eq_false_iff]
    intro hblank
    cases hword.symm.trans (isWordCharacter_of_isBlank hblank)
  have hslash : c ≠ '/' := by
    rintro rfl
    cases hword
  have hnext := next_of_lexeme hrest hblank (fun _ h => absurd h hslash)
    (fun _ h => absurd h hslash)
  have hsplit := List.takeWhile_append_dropWhile (p := isWordCharacter) (l := scanner.rest)
  have hall : ∀ d ∈ scanner.rest.takeWhile isWordCharacter, isWordCharacter d = true :=
    fun d hd => List.mem_takeWhile_imp hd
  have hfirst : scanner.rest.takeWhile isWordCharacter = c :: rest.takeWhile isWordCharacter := by
    rw [hrest, List.takeWhile_cons, hword, if_pos rfl]
  have hne : scanner.rest.takeWhile isWordCharacter ≠ [] := hfirst ▸ List.cons_ne_nil _ _
  have hlongest : Longest (scanner.rest.takeWhile isWordCharacter)
      (scanner.rest.dropWhile isWordCharacter) :=
    hfirst ▸ longest_word hword (not_of_head?_dropWhile isWordCharacter scanner.rest)
  obtain ⟨meaning, hmeaning⟩ := WordMeaning.exists_of_word hne
  refine ⟨meaning, hsplit.symm, .word hne hall hmeaning, hlongest, ?_⟩
  rw [hnext, lexeme_word hrest hword]
  rcases classify_of_meaning hne hmeaning with ⟨kind, rfl, hclass⟩ | ⟨error, rfl, hclass⟩ <;>
    (rw [hclass]; rfl)

theorem takes_symbol {mark : Symbol} (hrest : scanner.rest = mark.char :: rest)
    (hline : ∀ after, mark.char = '/' → rest ≠ '/' :: after)
    (hblock : ∀ after, mark.char = '/' → rest ≠ '*' :: after) :
    scanner.Takes [mark.char] (.token (.symbol mark)) rest := by
  have hnext := next_of_lexeme hrest mark.not_isBlank hline hblock
  rw [lexeme_other hrest mark.not_isWordCharacter mark.char_ne_quote, Symbol.ofChar?_char] at hnext
  have hlongest : Longest [mark.char] rest := by
    by_cases hslash : mark = .slash
    · subst hslash
      exact longest_slash (fun after => hline after rfl) (fun after => hblock after rfl)
    · exact longest_single fun x meaning h => (h.of_symbol hslash).1
  exact ⟨hrest, .symbol rfl, hlongest, hnext⟩

theorem takes_unknown (hrest : scanner.rest = c :: rest) (hblank : isBlank c = false)
    (hword : isWordCharacter c = false) (hquote : c ≠ '"')
    (hsymbol : ∀ mark : Symbol, mark.char ≠ c) :
    scanner.Takes [c] (.fault (.unknownCharacter c)) rest := by
  have hnone : Symbol.ofChar? c = none := by
    apply List.find?_eq_none.2
    intro mark _ hmark
    exact hsymbol mark (of_decide_eq_true hmark)
  have hslash : c ≠ '/' := fun h => hsymbol .slash h.symm
  have hnext := next_of_lexeme hrest hblank (fun _ h => absurd h hslash)
    (fun _ h => absurd h hslash)
  rw [lexeme_other hrest hword hquote, hnone] at hnext
  have hlongest : Longest [c] rest :=
    longest_single fun x meaning h => (h.of_unknown hblank hword hquote hsymbol).1
  exact ⟨hrest, .unknown hblank hword hquote hsymbol, hlongest, hnext⟩

/-- A scanner that is not at the end is at a piece. -/
theorem exists_takes (hne : scanner.rest ≠ []) :
    ∃ piece meaning rest, scanner.Takes piece meaning rest := by
  obtain ⟨c, rest, hrest⟩ := List.exists_cons_of_ne_nil hne
  by_cases hblank : isBlank c = true
  · exact ⟨_, _, _, takes_blank hrest hblank⟩
  by_cases hquote : c = '"'
  · subst hquote
    by_cases hclosed : ∃ after, rest.dropWhile isStringCharacter = '"' :: after
    · obtain ⟨after, hafter⟩ := hclosed
      exact ⟨_, _, _, takes_string hrest hafter⟩
    · exact ⟨_, _, _, takes_openString hrest fun after hafter => hclosed ⟨after, hafter⟩⟩
  by_cases hword : isWordCharacter c = true
  · obtain ⟨meaning, htakes⟩ := takes_word hrest hword
    exact ⟨_, meaning, _, htakes⟩
  by_cases hsymbol : ∃ mark : Symbol, mark.char = c
  · obtain ⟨mark, rfl⟩ := hsymbol
    by_cases hslash : mark = .slash
    · subst hslash
      by_cases hline : ∃ after, rest = '/' :: after
      · obtain ⟨after, rfl⟩ := hline
        exact ⟨_, _, _, takes_lineComment hrest⟩
      by_cases hblock : ∃ after, rest = '*' :: after
      · obtain ⟨after, rfl⟩ := hblock
        rcases exists_commentEnd after with hopen | ⟨body, later, rfl, hbody⟩
        · exact ⟨_, _, _, takes_openComment hopen hrest⟩
        · exact ⟨_, _, _, takes_blockComment hbody hrest⟩
      exact ⟨_, _, _, takes_symbol hrest (fun after _ h => hline ⟨after, h⟩)
        (fun after _ h => hblock ⟨after, h⟩)⟩
    · exact ⟨_, _, _, takes_symbol hrest (fun _ h => absurd (Symbol.eq_slash h) hslash)
        (fun _ h => absurd (Symbol.eq_slash h) hslash)⟩
  · exact ⟨_, _, _, takes_unknown hrest (Bool.eq_false_iff.2 hblank) (Bool.eq_false_iff.2 hword)
      hquote fun mark h => hsymbol ⟨mark, h⟩⟩

/-- The tokens from the scanner on are what the piece means and the tokens behind it. -/
theorem Takes.tokensFrom {piece : List Char} {meaning : Meaning}
    (h : scanner.Takes piece meaning rest) :
    scanner.tokensFrom = meaning.before piece scanner.offset scanner.line
      (scanner.past piece rest).tokensFrom := by
  have hnext := h.next
  cases meaning with
  | gap => exact tokensFrom_of_next hnext
  | token kind => exact tokensFrom_of_token hnext h.isPiece.kind_ne_endOfFile
  | quoted => exact tokensFrom_of_token hnext TokenKind.noConfusion
  | fault error => exact tokensFrom_of_error (congrArg Prod.fst hnext)

theorem atPiece (hne : scanner.rest ≠ []) : scanner.AtPiece := by
  obtain ⟨piece, meaning, rest, htakes⟩ := exists_takes hne
  exact ⟨piece, meaning, rest, htakes.split, htakes.isPiece, htakes.longest, htakes.tokensFrom⟩

end First

/-- The tokens from a scanner on are those of the pieces of the text from there on. -/
theorem exists_pieces (scanner : Scanner) :
    ∃ pieces, Divides scanner.rest pieces ∧
      scanner.tokensFrom = tokensOfPieces scanner.offset scanner.line pieces := by
  generalize hlength : scanner.rest.length = length
  induction length using Nat.strongRecOn generalizing scanner with
  | ind length ih =>
    by_cases hne : scanner.rest = []
    · refine ⟨[], hne ▸ .nil, ?_⟩
      have hnext : scanner.next = (.ok (.endAt scanner.offset), scanner) := by
        obtain ⟨rest, offset, line⟩ := scanner
        subst hne
        rfl
      rw [tokensFrom_of_end (congrArg Prod.fst hnext) rfl]
      rfl
    · obtain ⟨piece, meaning, rest, hrest, hpiece, hlongest, htokens⟩ := atPiece hne
      have hshorter : rest.length < length := by
        rw [← hlength, hrest, List.length_append]
        exact Nat.lt_add_of_pos_left (List.length_pos_iff.2 hpiece.ne_nil)
      obtain ⟨later, hlater, heq⟩ := ih rest.length hshorter (scanner.past piece rest) rfl
      refine ⟨(piece, meaning) :: later, hrest ▸ .cons hpiece hlongest hlater, ?_⟩
      rw [htokens, heq]
      rfl

end Scanner

/-! ### The text of the tokens -/

theorem byteLength_reverse (x : List Char) : byteLength x.reverse = byteLength x := by
  induction x with
  | nil => rfl
  | cons c rest ih =>
    rw [List.reverse_cons, byteLength_append, ih, byteLength_cons, byteLength_cons, Nat.add_comm]
    rfl

/-- The length of a text is that of its characters. -/
theorem utf8ByteSize_eq (source : String) : source.utf8ByteSize = byteLength source.toList := by
  have hchars : ∀ chars : List Char, (String.ofList chars).utf8ByteSize = byteLength chars := by
    intro chars
    induction chars with
    | nil => rfl
    | cons c rest ih =>
      rw [String.ofList_cons, String.utf8ByteSize_append, String.utf8ByteSize_singleton, ih,
        byteLength_cons]
  rw [← hchars, String.ofList_toList]

theorem Cut.advance_append (before x y : List Char) :
    Cut.advance before (x ++ y) (byteLength x) = ⟨x.reverse ++ before, y⟩ := by
  induction x generalizing before with
  | nil =>
    cases y with
    | nil => rfl
    | cons c rest => exact if_neg (Nat.not_le.2 c.utf8Size_pos)
  | cons c rest ih =>
    rw [List.cons_append, byteLength_cons, Cut.advance, if_pos (Nat.le_add_right _ _),
      Nat.add_sub_cancel_left, ih, List.reverse_cons, List.append_assoc, List.singleton_append]

/-- The text of a span is what stands there. -/
theorem Span.fragment?_append {source : String} {before piece after : List Char}
    (hsource : source.toList = before ++ (piece ++ after)) :
    Span.fragment? ⟨byteLength before, byteLength piece⟩ source =
      some (String.ofList piece) := by
  have hcut : Span.cut ⟨byteLength before, byteLength piece⟩ source =
      ⟨before.reverse, piece ++ after⟩ := by
    rw [Span.cut, Cut.ofOffset, hsource, Cut.advance_append, List.append_nil]
  rw [Span.fragment?, hcut]
  simp [Cut.advance_append, Cut.offset, byteLength_reverse]

theorem eq_ok_of_map {ε α β : Type} {f : α → β} {result : Except ε α} {value : β}
    (h : result.map f = .ok value) : ∃ before, result = .ok before ∧ f before = value := by
  cases result with
  | error error => cases h
  | ok before => exact ⟨before, rfl, Except.ok.inj h⟩

/-- The tokens of the pieces of a text have the text that their spans say, up to the end. -/
theorem fragments_of_pieces {source : String} {before text : List Char}
    {pieces : List (List Char × Meaning)} {line : Nat} {found : List Token}
    (hsource : source.toList = before ++ text) (hdivides : Divides text pieces)
    (hfound : tokensOfPieces (byteLength before) line pieces = .ok found) :
    ∃ earlier, found = earlier ++ [.endAt source.utf8ByteSize] ∧
      ∀ token ∈ earlier, token.kind ≠ .endOfFile ∧
        token.span.fragment? source = some token.text := by
  induction hdivides generalizing before line found with
  | nil =>
    cases hfound
    refine ⟨[], ?_, by simp⟩
    rw [utf8ByteSize_eq, hsource, List.append_nil]
    rfl
  | @cons piece rest meaning later hpiece hlongest hrest ih =>
    rw [tokensOfPieces, ← byteLength_append] at hfound
    have hlater := hsource
    rw [← List.append_assoc] at hlater
    cases meaning with
    | gap => exact ih hlater hfound
    | token kind =>
      obtain ⟨tokens, hok, rfl⟩ := eq_ok_of_map hfound
      obtain ⟨earlier, rfl, hearlier⟩ := ih hlater hok
      have hfragment := Span.fragment?_append hsource
      exact ⟨_ :: earlier, rfl,
        List.forall_mem_cons.2 ⟨⟨hpiece.kind_ne_endOfFile, hfragment⟩, hearlier⟩⟩
    | quoted =>
      obtain ⟨tokens, hok, rfl⟩ := eq_ok_of_map hfound
      obtain ⟨earlier, rfl, hearlier⟩ := ih hlater hok
      obtain ⟨body, rfl⟩ := hpiece.quotes
      rw [List.tail_cons, List.dropLast_concat]
      -- the quotes are outside of the span
      have hinside : source.toList = (before ++ ['"']) ++ (body ++ ('"' :: rest)) := by
        simpa using hsource
      have hfragment := Span.fragment?_append hinside
      rw [byteLength_append] at hfragment
      exact ⟨_ :: earlier, rfl,
        List.forall_mem_cons.2 ⟨⟨TokenKind.noConfusion, hfragment⟩, hearlier⟩⟩
    | fault error => cases hfound

/-- Every token but the end of the text is a piece, or a string that stands between its quotes. -/
theorem origin_of_pieces {text : List Char} {pieces : List (List Char × Meaning)}
    (hdivides : Divides text pieces) {offset line : Nat} {found : List Token}
    (hfound : tokensOfPieces offset line pieces = .ok found) :
    ∀ token ∈ found, (token.kind = .endOfFile ∧ token.text = "") ∨
      Piece token.text.toList (.token token.kind) ∨
      (token.kind = .string ∧ ∀ c ∈ token.text.toList, isStringCharacter c = true) := by
  induction hdivides generalizing offset line found with
  | nil =>
    cases hfound
    exact List.forall_mem_cons.2 ⟨.inl ⟨rfl, rfl⟩, List.forall_mem_nil _⟩
  | @cons piece rest meaning later hpiece hlongest hrest ih =>
    rw [tokensOfPieces] at hfound
    cases meaning with
    | gap => exact ih hfound
    | token kind =>
      obtain ⟨tokens, hok, rfl⟩ := eq_ok_of_map hfound
      refine List.forall_mem_cons.2 ⟨.inr (.inl ?_), ih hok⟩
      rw [String.toList_ofList]
      exact hpiece
    | quoted =>
      obtain ⟨tokens, hok, rfl⟩ := eq_ok_of_map hfound
      refine List.forall_mem_cons.2 ⟨.inr (.inr ⟨rfl, ?_⟩), ih hok⟩
      obtain ⟨body, rfl⟩ := hpiece.quotes
      rw [String.toList_ofList, List.tail_cons, List.dropLast_concat]
      rcases hpiece.of_quote with ⟨inner, hinner, hall, -⟩ | ⟨-, hmeaning⟩
      · rwa [(List.append_inj' hinner rfl).1]
      · cases hmeaning
    | fault error => cases hfound

namespace Scanner

variable {source : String} {found : List Token}

theorem pieces_of_tokens (h : Scanner.tokens source = .ok found) :
    ∃ pieces, Divides source.toList pieces ∧ tokensOfPieces 0 1 pieces = .ok found := by
  obtain ⟨pieces, hdivides, htokens⟩ := exists_pieces (start source)
  exact ⟨pieces, hdivides, htokens.symm.trans h⟩

/-- Every token has the text that its span says. -/
theorem fragments_of_tokens (h : Scanner.tokens source = .ok found) :
    ∀ token ∈ found, token.span.fragment? source = some token.text := by
  obtain ⟨pieces, hdivides, htokens⟩ := pieces_of_tokens h
  have hsource : source.toList = [] ++ source.toList := rfl
  obtain ⟨earlier, rfl, hearlier⟩ := fragments_of_pieces hsource hdivides htokens
  refine List.forall_mem_append.2 ⟨fun token hmem => (hearlier token hmem).2, ?_⟩
  have hend : source.toList = source.toList ++ ([] ++ []) := by
    rw [List.append_nil, List.append_nil]
  rw [List.forall_mem_singleton, Token.endAt, utf8ByteSize_eq]
  exact Span.fragment?_append hend

end Scanner

/-- Scanning is the lexical grammar: a text is divided into pieces in just one way, and its tokens,
or its first error, are those of the pieces. Each token has the text that its span says, and the
last one is the end of the text. -/
theorem Scanner.tokens_eq_tokensOfPieces (source : String) :
    ∃ pieces, (∀ others, Divides source.toList others ↔ others = pieces) ∧
      Scanner.tokens source = tokensOfPieces 0 1 pieces ∧
      ∀ found, Scanner.tokens source = .ok found →
        ∃ earlier, found = earlier ++ [.endAt source.utf8ByteSize] ∧
          ∀ token ∈ earlier, token.kind ≠ .endOfFile ∧
            token.span.fragment? source = some token.text := by
  obtain ⟨pieces, hdivides, htokens⟩ := exists_pieces (start source)
  have heq : Scanner.tokens source = tokensOfPieces 0 1 pieces := htokens
  refine ⟨pieces, fun others => ⟨hdivides.unique, fun h => h ▸ hdivides⟩, heq, ?_⟩
  intro found hfound
  have hsource : source.toList = [] ++ source.toList := rfl
  exact fragments_of_pieces hsource hdivides (heq ▸ hfound)

end JackCompiler
