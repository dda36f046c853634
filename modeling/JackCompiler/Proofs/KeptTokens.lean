import JackCompiler.Proofs.CheckedScanning
import JackCompiler.Token.Offsets

/-!
What is kept of the tokens of a text. In a text of fewer than `2 ^ 32` bytes it is the tokens that
scanning finds. In any text the tokens that are kept have one end of the text behind them, keywords
among them are spelled as such and identifiers are not, and a string constant has the text at its
place if there is one.
-/

namespace JackCompiler

/-! ### Texts between offsets -/

theorem position?_append {text : String} {before after : List Char}
    (h : text.toList = before ++ after) :
    ∃ position, position? text (byteLength before) = some position ∧
      position.offset.byteIdx = byteLength before := by
  have hvalid : String.Pos.Raw.IsValid text ⟨byteLength before⟩ := by
    refine String.Pos.Raw.isValid_iff_exists_append.2
      ⟨String.ofList before, String.ofList after, ?_, ?_⟩
    · rw [← String.ofList_append, ← h, String.ofList_toList]
    · rw [String.rawEndPos, utf8ByteSize_eq, String.toList_ofList]
  exact ⟨_, dif_pos hvalid, rfl⟩

theorem between?_append {text : String} {before piece after : List Char}
    (h : text.toList = before ++ (piece ++ after)) :
    between? text (byteLength before) (byteLength before + byteLength piece) =
      some (String.ofList piece) := by
  have hsplit : text.toList = (before ++ piece) ++ after := by rw [h, List.append_assoc]
  obtain ⟨first, hfirst, hstart⟩ := position?_append h
  obtain ⟨last, hlast, hstop⟩ := position?_append hsplit
  rw [byteLength_append] at hlast hstop
  have hsize : ∀ chars : List Char, (String.ofList chars).toByteArray.size = byteLength chars := by
    intro chars
    rw [String.size_toByteArray, utf8ByteSize_eq, String.toList_ofList]
  have htext : text.toByteArray = (String.ofList before).toByteArray ++
      ((String.ofList piece).toByteArray ++ (String.ofList after).toByteArray) := by
    rw [← String.toByteArray_append, ← String.toByteArray_append, ← String.ofList_append,
      ← String.ofList_append, ← h, String.ofList_toList]
  have hpiece : text.extract first last = String.ofList piece := by
    apply String.toByteArray_inj.1
    have hinside := ByteArray.extract_append_size_add' (i := 0) (j := byteLength piece)
      (b := (String.ofList piece).toByteArray ++ (String.ofList after).toByteArray)
      (hsize before).symm
    rw [String.toByteArray_extract, hstart, hstop, htext]
    exact hinside.trans (ByteArray.extract_append_eq_left (hsize piece).symm)
  rw [between?, hfirst, hlast]
  simp only [Option.bind_eq_bind, Option.bind_some, Nat.le_add_right, if_true, hpiece]

/-- A span of a text of limited size is kept as it is, with its text. -/
theorem Span.kept_of_fragment? {source text : String} (hsize : source.utf8ByteSize < 2 ^ 32)
    {span : Span} (h : span.fragment? source = some text) :
    span.kept = span ∧ span.keptText? source = some text := by
  obtain ⟨before, after, hsource, hindex, hlength⟩ := exists_of_fragment? h
  have hstop : span.index + span.size < UInt32.size := by
    have hsplit := hsource
    rw [← List.append_assoc] at hsplit
    rw [← hindex, ← hlength, ← byteLength_append]
    exact Nat.lt_of_le_of_lt (byteLength_prefix_le hsplit) hsize
  refine ⟨?_, ?_⟩
  · rw [kept, Nat.mod_eq_of_lt (Nat.lt_of_le_of_lt (Nat.le_add_right _ _) hstop),
      Nat.mod_eq_of_lt (Nat.lt_of_le_of_lt (Nat.le_add_left _ _) hstop)]
  · rw [keptText?, Nat.mod_eq_of_lt hstop, ← hindex, ← hlength, between?_append hsource,
      String.ofList_toList]

/-- A token with its text is kept as it is. -/
theorem Token.kept_of_fragment? {source : String} (hsize : source.utf8ByteSize < 2 ^ 32)
    {token : Token} (h : token.span.fragment? source = some token.text) :
    token.kept source = token := by
  obtain ⟨hspan, htext⟩ := Span.kept_of_fragment? hsize h
  obtain ⟨kind, text, span⟩ := token
  dsimp only at hspan htext
  cases kind <;> simp only [kept, hspan, htext, Option.getD_some]

namespace Scanner

theorem keptTokensFrom_eq (source : String) (found : List Token) (scanner : Scanner) :
    keptTokensFrom source found scanner =
      match scanner.keptNext? source with
      | none => none
      | some (.error error, _) => some (.error error)
      | some (.ok token, after) =>
        if token.kind = .endOfFile then some (.ok (token :: found).reverse)
        else keptTokensFrom source (token :: found) after := by
  rw [keptTokensFrom]
  split
  · rename_i hnext
    rw [hnext]
  · rename_i hnext
    rw [hnext]
  · rename_i token after hnext
    by_cases hkind : token.kind = .endOfFile
    · rw [dif_pos hkind, hnext]
      exact (if_pos hkind).symm
    · rw [dif_neg hkind]
      simp only [hnext, if_neg hkind]

/-! ### Texts of limited size -/

theorem reclassify_eq {first : Char} {rest : List Char} (line : Nat) :
    reclassify first (String.ofList (first :: rest)) line = classify (first :: rest) line := by
  have hne : String.ofList (first :: rest) ≠ "" := fun hempty =>
    List.cons_ne_nil first rest (String.ofList_eq_empty_iff.1 hempty)
  unfold reclassify classify
  simp only [String.toList_ofList, List.head?_cons, Option.any_some, ne_eq, hne, not_false_eq_true,
    true_and]
  rfl

section Standing

variable {source : String} {scanner : Scanner} (hsize : source.utf8ByteSize < 2 ^ 32)

include hsize

theorem At.keptLexeme? (h : scanner.At source) :
    scanner.keptLexeme? source = some scanner.lexeme := by
  have hfragment : ∀ {scanner : Scanner} {taken rest : List Char}, scanner.At source →
      scanner.rest = taken ++ rest →
      Span.fragment? ⟨scanner.offset, byteLength taken⟩ source = some (String.ofList taken) := by
    intro scanner taken rest hat hrest
    obtain ⟨before, hsource, hoffset⟩ := hat
    rw [hrest] at hsource
    rw [← hoffset]
    exact Span.fragment?_append hsource
  unfold Scanner.keptLexeme?
  cases hrest : scanner.rest with
  | nil =>
    have hlexeme : scanner.lexeme = (.ok (.endAt scanner.offset), scanner) := by
      unfold Scanner.lexeme
      simp only [hrest]
    have hnothing : scanner.rest = [] ++ [] := hrest
    have hkept : (Token.endAt scanner.offset).kept source = .endAt scanner.offset :=
      Token.kept_of_fragment? hsize (hfragment h hnothing)
    simp only [hlexeme, List.head?_nil, Option.filter_none, Except.map, hkept]
  | cons c rest =>
    have hfirst : scanner.rest = [c] ++ rest := hrest
    rw [List.head?_cons]
    cases hword : isWordCharacter c with
    | true =>
      have hsplit := List.takeWhile_append_dropWhile (p := isWordCharacter) (l := scanner.rest)
      obtain ⟨hspan, htext⟩ := Span.kept_of_fragment? hsize (hfragment h hsplit.symm)
      have htake : scanner.rest.takeWhile isWordCharacter =
          c :: rest.takeWhile isWordCharacter := by
        rw [hrest, List.takeWhile_cons_of_pos hword]
      have hlength : (scanner.past (scanner.rest.takeWhile isWordCharacter)
          (scanner.rest.dropWhile isWordCharacter)).offset - scanner.offset =
            byteLength (scanner.rest.takeWhile isWordCharacter) := Nat.add_sub_cancel_left _ _
      rw [htake] at hspan htext hlength
      rw [Option.filter_some_pos hword, lexeme_word hrest hword, htake]
      simp only [hlength, hspan, htext, Option.bind_eq_bind, Option.bind_some, reclassify_eq]
    | false =>
      rw [Option.filter_some_neg hword]
      by_cases hquote : c = '"'
      · subst hquote
        by_cases hclosed : ∃ after, rest.dropWhile isStringCharacter = '"' :: after
        · obtain ⟨after, hafter⟩ := hclosed
          have hbody := hfragment (h.past hfirst)
            (List.takeWhile_append_dropWhile (p := isStringCharacter) (l := rest)).symm
          rw [lexeme_string hrest hafter]
          exact congrArg (fun token => some (Except.ok token, _))
            (Token.kept_of_fragment? hsize hbody)
        · rw [lexeme_openString hrest fun after hafter => hclosed ⟨after, hafter⟩]
          rfl
      · rw [lexeme_other hrest hword hquote]
        cases Symbol.ofChar? c with
        | some mark =>
          let token : Token := ⟨.symbol mark, c.toString, ⟨scanner.offset, c.utf8Size⟩⟩
          have hkept : token.kept source = token :=
            Token.kept_of_fragment? hsize (hfragment h hfirst)
          exact congrArg (fun token => some (Except.ok token, _)) hkept
        | none => rfl

theorem At.keptNext? (h : scanner.At source) :
    scanner.keptNext? source = some scanner.next := by
  have hskip := skip_at .blank scanner.rest scanner.offset scanner.line h
  unfold Scanner.keptNext? next
  cases heq : skip .blank scanner.rest scanner.offset scanner.line with
  | mk fault after =>
    rw [heq] at hskip
    cases fault with
    | some error => rfl
    | none => exact hskip.keptLexeme? hsize

/-- From a place of the text on, scanning finds what is kept. -/
theorem At.keptTokensFrom (found : List Token) (h : scanner.At source) :
    Scanner.keptTokensFrom source found scanner =
      some (scanner.tokensFrom.map (found.reverse ++ ·)) := by
  -- By induction on the text that is left, which every token but the last makes shorter.
  generalize hlength : scanner.rest.length = length
  induction length using Nat.strongRecOn generalizing scanner found with
  | ind length ih =>
    have hkept := h.keptNext? hsize
    obtain ⟨-, hafter⟩ := h.next? hsize
    rw [keptTokensFrom_eq, hkept]
    cases hnext : scanner.next with
    | mk result after =>
      rw [hnext] at hafter
      cases result with
      | error error =>
        rw [tokensFrom_of_error (congrArg Prod.fst hnext)]
        rfl
      | ok token =>
        dsimp only
        by_cases hkind : token.kind = .endOfFile
        · rw [tokensFrom_of_end (congrArg Prod.fst hnext) hkind, if_pos hkind, List.reverse_cons]
          rfl
        · have hend : ¬isEnd (.ok token) := by simpa [isEnd] using hkind
          have hshorter := next_shorter hnext hend
          rw [if_neg hkind, ih _ (hlength ▸ hshorter) (token :: found) hafter rfl,
            tokensFrom_of_token hnext hkind]
          cases after.tokensFrom with
          | error error => rfl
          | ok later => simp only [Except.map, List.reverse_cons, List.append_assoc,
              List.singleton_append]

end Standing

/-- Of a text of fewer than `2 ^ 32` bytes, the tokens are kept as they are found. -/
theorem keptTokens?_eq {source : String} (hsize : source.utf8ByteSize < 2 ^ 32) :
    keptTokens? source = some (tokens source) := by
  rw [keptTokens?, (At.start source).keptTokensFrom hsize []]
  change some ((tokens source).map ([] ++ ·)) = _
  cases tokens source <;> rfl

end Scanner

/-! ### Texts of any size -/

/-- If something stands at the place that is kept for a string constant, it is its text. -/
def Token.ReadBack (source : String) (token : Token) : Prop :=
  token.kind = .string → ∀ text, token.span.keptText? source = some text → token.text = text

namespace Scanner

variable {source : String} {scanner after : Scanner} {token : Token}

theorem reclassify_spelled {first : Char} {text : String} {line : Nat} {kind : TokenKind}
    {span : Span} (h : reclassify first text line = .ok kind) :
    Token.Spelled ⟨kind, text, span⟩ ∧ kind ≠ .string := by
  unfold reclassify at h
  split at h
  · split at h
    · split at h <;> cases h
      exact ⟨trivial, nofun⟩
    · cases h
  · split at h
    · rename_i word hword
      cases h
      have hspelling := List.find?_some hword
      exact ⟨(of_decide_eq_true hspelling).symm, nofun⟩
    · rename_i hnone
      cases h
      exact ⟨hnone, nofun⟩

theorem keptLexeme?_spelled (h : scanner.keptLexeme? source = some (.ok token, after)) :
    token.Spelled ∧ token.ReadBack source := by
  unfold keptLexeme? at h
  dsimp only at h
  split at h
  · rename_i first hfirst
    obtain ⟨text, -, htext⟩ := Option.bind_eq_some_iff.1 h
    obtain ⟨hkind, -⟩ := Prod.mk.inj (Option.some.inj htext)
    cases hclass : reclassify first text scanner.line with
    | error error =>
      rw [hclass] at hkind
      cases hkind
    | ok kind =>
      rw [hclass] at hkind
      cases hkind
      obtain ⟨hspelled, hstring⟩ := reclassify_spelled hclass
      exact ⟨hspelled, fun hkind => absurd hkind hstring⟩
  · obtain ⟨hkept, -⟩ := Prod.mk.inj (Option.some.inj h)
    cases hlexeme : scanner.lexeme.1 with
    | error error =>
      rw [hlexeme] at hkept
      cases hkept
    | ok found =>
      rw [hlexeme] at hkept
      cases hkept
      have hspelled := lexeme_spelled hlexeme
      obtain ⟨kind, text, span⟩ := found
      cases kind with
      | string =>
        refine ⟨trivial, fun _ text htext => ?_⟩
        change (span.kept.keptText? source).getD "" = text
        rw [show span.kept.keptText? source = some text from htext, Option.getD_some]
      | _ => exact ⟨hspelled, nofun⟩

theorem keptNext?_spelled (h : scanner.keptNext? source = some (.ok token, after)) :
    token.Spelled ∧ token.ReadBack source := by
  unfold keptNext? at h
  split at h
  · cases h
  · exact keptLexeme?_spelled h

/-- Tokens that are kept are followed by the end of the text, which is not among them. -/
theorem keptTokensFrom_end {found tokens : List Token}
    (h : keptTokensFrom source found scanner = some (.ok tokens)) :
    ∃ earlier last, tokens = found.reverse ++ (earlier ++ [last]) ∧ last.kind = .endOfFile ∧
      ∀ token ∈ earlier, token.kind ≠ .endOfFile ∧ token.Spelled ∧ token.ReadBack source := by
  generalize hlength : scanner.rest.length = length
  induction length using Nat.strongRecOn generalizing scanner found with
  | ind length ih =>
    rw [keptTokensFrom_eq] at h
    split at h
    · cases h
    · cases h
    · rename_i token after hnext
      split at h
      · rename_i hkind
        cases h
        exact ⟨[], token, List.reverse_cons, hkind, List.forall_mem_nil _⟩
      · rename_i hkind
        obtain ⟨earlier, last, rfl, hlast, hearlier⟩ :=
          ih _ (hlength ▸ keptNext?_shorter hnext hkind) h rfl
        refine ⟨token :: earlier, last, ?_, hlast, ?_⟩
        · rw [List.reverse_cons, List.append_assoc]
          rfl
        · exact List.forall_mem_cons.2 ⟨⟨hkind, keptNext?_spelled hnext⟩, hearlier⟩

end Scanner

end JackCompiler
