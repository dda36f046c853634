import JackCompiler.Token.Reader

/-!
What the grammar sees of a token, and what scanning promises about the tokens it finds: only the
last one is the end of the text, every keyword is spelled as that keyword, no identifier is spelled
like a keyword, and no number is above the largest constant.
-/

namespace JackCompiler

/-- A token without its place, and with its spelling only where the spelling is free. -/
inductive Lexeme where
  | keyword (word : Keyword)
  | symbol (mark : Symbol)
  | identifier (name : String)
  | integer (value : Nat)
  | string (text : String)
  | endOfFile
deriving DecidableEq

def TokenKind.lexeme (text : String) : TokenKind → Lexeme
  | .keyword word => .keyword word
  | .symbol mark => .symbol mark
  | .identifier => .identifier text
  | .integer value => .integer value
  | .string => .string text
  | .endOfFile => .endOfFile

namespace Token

def lexeme (token : Token) : Lexeme :=
  token.kind.lexeme token.text

/-- Keywords are spelled as themselves and identifiers as no keyword. -/
def Spelled (token : Token) : Prop :=
  match token.kind with
  | .keyword word => token.text = word.text
  | .identifier => Keyword.ofText? token.text = none
  | _ => True

theorem Spelled.text_of_keyword {token : Token} {word : Keyword} (h : token.Spelled)
    (hkind : token.kind = .keyword word) : token.text = word.text := by
  simpa only [Spelled, hkind] using h

theorem Spelled.not_keyword {token : Token} {name : String} (h : token.Spelled)
    (hname : token.lexeme = .identifier name) : Keyword.ofText? name = none := by
  unfold lexeme TokenKind.lexeme at hname
  split at hname <;> simp_all [Spelled]

end Token

namespace Scanner

theorem classify_spelled {word : List Char} {line : Nat} {kind : TokenKind} {span : Span}
    (h : classify word line = .ok kind) : Token.Spelled ⟨kind, String.ofList word, span⟩ := by
  unfold classify at h
  dsimp only at h
  split at h
  · split at h
    · split at h <;> cases h
      trivial
    · cases h
  · split at h
    · rename_i found hfound
      cases h
      have htext := List.find?_some hfound
      exact (of_decide_eq_true htext).symm
    · rename_i hnone
      cases h
      exact hnone

theorem lexeme_spelled {scanner : Scanner} {token : Token} (h : scanner.lexeme.1 = .ok token) :
    token.Spelled := by
  unfold lexeme at h
  split at h
  · cases h
    trivial
  · dsimp only at h
    split at h <;> cases h
    trivial
  · dsimp only at h
    split at h
    · dsimp only at h
      cases hclass : classify (List.takeWhile isWordCharacter _) scanner.line with
      | error error =>
        rw [hclass] at h
        cases h
      | ok kind =>
        rw [hclass] at h
        cases h
        exact classify_spelled hclass
    · split at h <;> cases h
      trivial

theorem next_spelled {scanner : Scanner} {token : Token} (h : scanner.next.1 = .ok token) :
    token.Spelled := by
  unfold next at h
  split at h
  · cases h
  · exact lexeme_spelled h

theorem classify_integer_le {word : List Char} {line value : Nat}
    (h : classify word line = .ok (.integer value)) : value ≤ maxInteger := by
  unfold classify at h
  dsimp only at h
  split at h
  · split at h
    · split at h
      · rename_i hle
        cases h
        exact hle
      · cases h
    · cases h
  · split at h <;> cases h

theorem lexeme_integer_le {scanner : Scanner} {token : Token} {value : Nat}
    (h : scanner.lexeme.1 = .ok token) (hkind : token.kind = .integer value) :
    value ≤ maxInteger := by
  unfold lexeme at h
  split at h
  · cases h
    cases hkind
  · dsimp only at h
    split at h <;> cases h
    cases hkind
  · dsimp only at h
    split at h
    · dsimp only at h
      cases hclass : classify (List.takeWhile isWordCharacter _) scanner.line with
      | error error =>
        rw [hclass] at h
        cases h
      | ok kind =>
        rw [hclass] at h
        cases h
        exact classify_integer_le (hclass.trans (congrArg Except.ok hkind))
    · split at h <;> cases h
      cases hkind

theorem next_integer_le {scanner : Scanner} {token : Token} {value : Nat}
    (h : scanner.next.1 = .ok token) (hkind : token.kind = .integer value) :
    value ≤ maxInteger := by
  unfold next at h
  split at h
  · cases h
  · exact lexeme_integer_le h hkind

/-- Every new result is the next one of some scanner. -/
theorem next_of_mem_resultsFrom {found : List (Except LexicalError Token)} {scanner : Scanner}
    {result : Except LexicalError Token} (h : result ∈ resultsFrom found scanner) :
    result ∈ found ∨ ∃ before : Scanner, before.next.1 = result := by
  induction found, scanner using resultsFrom.induct with
  | case1 found scanner first after hnext hend =>
    rw [resultsFrom] at h
    split at h
    rename_i first' after' hnext'
    obtain ⟨rfl, rfl⟩ := Prod.mk.inj (hnext.symm.trans hnext')
    rw [dif_pos hend, List.mem_reverse, List.mem_cons] at h
    rcases h with rfl | hfound
    · exact .inr ⟨scanner, congrArg Prod.fst hnext⟩
    · exact .inl hfound
  | case2 found scanner first after hnext hend hshort ih =>
    rw [resultsFrom] at h
    split at h
    rename_i first' after' hnext'
    obtain ⟨rfl, rfl⟩ := Prod.mk.inj (hnext.symm.trans hnext')
    rw [dif_neg hend] at h
    rcases ih h with hfound | hlater
    · rcases List.mem_cons.1 hfound with rfl | hfound
      · exact .inr ⟨scanner, congrArg Prod.fst hnext⟩
      · exact .inl hfound
    · exact .inr hlater

/-- The results from a scanner on: none but the last is the end of the text. -/
theorem resultsFrom_end (found : List (Except LexicalError Token)) (scanner : Scanner) :
    ∃ earlier last, resultsFrom found scanner = found.reverse ++ earlier ++ [last] ∧
      isEnd last = true ∧ ∀ result ∈ earlier, isEnd result = false := by
  induction found, scanner using resultsFrom.induct with
  | case1 found scanner result after hnext hend =>
    refine ⟨[], result, ?_, hend, by simp⟩
    rw [resultsFrom]
    split
    rename_i found' after' hnext'
    obtain ⟨rfl, rfl⟩ := Prod.mk.inj (hnext.symm.trans hnext')
    simp [hend]
  | case2 found scanner result after hnext hend hshort ih =>
    obtain ⟨earlier, last, heq, hlast, hearlier⟩ := ih
    refine ⟨result :: earlier, last, ?_, hlast, by simpa [hend] using hearlier⟩
    rw [resultsFrom]
    split
    rename_i found' after' hnext'
    obtain ⟨rfl, rfl⟩ := Prod.mk.inj (hnext.symm.trans hnext')
    simp [hend, heq]

private theorem eq_map_ok_of_mapM {ε α : Type} {results : List (Except ε α)} {values : List α}
    (h : results.mapM id = .ok values) : results = values.map .ok := by
  induction results generalizing values with
  | nil =>
    cases h
    rfl
  | cons result rest ih =>
    rw [List.mapM_cons] at h
    cases result with
    | error error => cases h
    | ok value =>
      cases hrest : rest.mapM id with
      | error error =>
        rw [hrest] at h
        cases h
      | ok others =>
        rw [hrest] at h
        cases h
        rw [ih hrest, List.map_cons]

/-- Every token of a text is the next one of some scanner. -/
theorem next_of_mem_tokens {source : String} {tokens : List Token} {token : Token}
    (h : Scanner.tokens source = .ok tokens) (hmem : token ∈ tokens) :
    ∃ before : Scanner, before.next.1 = .ok token := by
  have hresults : results source = tokens.map .ok := eq_map_ok_of_mapM h
  have hresult : .ok token ∈ results source := hresults ▸ List.mem_map_of_mem hmem
  exact (next_of_mem_resultsFrom hresult).resolve_left List.not_mem_nil

/-- The tokens of a text are followed by the end of the text, which is not among them. -/
theorem tokens_end {source : String} {tokens : List Token}
    (h : Scanner.tokens source = .ok tokens) :
    ∃ earlier last, tokens = earlier ++ [last] ∧ last.kind = .endOfFile ∧
      ∀ token ∈ earlier, token.kind ≠ .endOfFile ∧ token.Spelled := by
  obtain ⟨earlier, last, heq, hlast, hearlier⟩ := resultsFrom_end [] (start source)
  have hmap : earlier ++ [last] = tokens.map .ok := by
    simpa [results, heq] using eq_map_ok_of_mapM (show (results source).mapM id = .ok tokens from h)
  obtain ⟨front, back, rfl, rfl, hback⟩ := List.append_eq_map_iff.1 hmap
  obtain ⟨final, rfl, rfl⟩ : ∃ final, back = [final] ∧ last = .ok final := by
    match back, hback with
    | [final], hback => exact ⟨final, rfl, by simpa using hback.symm⟩
  refine ⟨front, final, rfl, by simpa [isEnd] using hlast, ?_⟩
  intro token htoken
  have hmem : (.ok token : Except LexicalError Token) ∈ front.map .ok :=
    List.mem_map_of_mem htoken
  obtain ⟨before, hnext⟩ := next_of_mem_tokens h (List.mem_append_left _ htoken)
  exact ⟨by simpa [isEnd] using hearlier _ hmem, next_spelled hnext⟩

end Scanner

/-- A reader of a whole text has all its tokens before it. -/
theorem Reader.ofSource_tokens {source : String} {reader : Reader}
    (h : Reader.ofSource source = .ok reader) :
    Scanner.tokens source = .ok (reader.tokens ++ [reader.last]) ∧
      reader.last.kind = .endOfFile ∧
      ∀ token ∈ reader.tokens, token.kind ≠ .endOfFile ∧ token.Spelled := by
  unfold Reader.ofSource at h
  cases htokens : Scanner.tokens source with
  | error error =>
    rw [htokens] at h
    cases h
  | ok tokens =>
    rw [htokens] at h
    cases h
    obtain ⟨earlier, last, rfl, hlast, hearlier⟩ := Scanner.tokens_end htokens
    have hreader : Reader.ofTokens source (earlier ++ [last]) = ⟨source, earlier, last⟩ := by
      simp [Reader.ofTokens, hlast]
    rw [hreader]
    exact ⟨rfl, hlast, hearlier⟩

end JackCompiler
