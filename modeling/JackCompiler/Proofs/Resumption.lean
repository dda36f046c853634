import JackCompiler.Proofs.Scanning
import Mathlib.Logic.Function.Iterate

/-!
Scanning on after errors. A call passes over gaps and takes the piece behind them, whether it is a
token or an error, so every call before the end of the text takes characters and leaves the scanner
between two pieces. The offset and the line of the scanner always are those of the characters behind
it, which puts the spans in order and gives each error its line.
-/

namespace JackCompiler

/-- An error says on which line its piece starts. -/
theorem Piece.line_fault {piece : List Char} {error : Nat → LexicalError}
    (h : Piece piece (.fault error)) (line : Nat) : (error line).line = line := by
  cases h with
  | openComment hbody => rfl
  | openString hbody => rfl
  | word hne hword hmeaning => cases hmeaning <;> rfl
  | unknown hblank hword hquote hsymbol => rfl

theorem textOf_append (x y : List (List Char × Meaning)) :
    textOf (x ++ y) = textOf x ++ textOf y :=
  List.flatMap_append

namespace Scanner

/-- The scanner after so many calls. -/
def after (scanner : Scanner) (calls : Nat) : Scanner :=
  (fun earlier => earlier.next.2)^[calls] scanner

/-- What a call gives when so many were made before it. -/
def answer (scanner : Scanner) (calls : Nat) : Except LexicalError Token :=
  (scanner.after calls).next.1

theorem after_succ (scanner : Scanner) (calls : Nat) :
    scanner.after (calls + 1) = (scanner.after calls).next.2 :=
  Function.iterate_succ_apply' _ calls scanner

theorem after_add (scanner : Scanner) (k n : Nat) :
    scanner.after (k + n) = (scanner.after n).after k :=
  Function.iterate_add_apply _ k n scanner

/-! ### From one place to the next -/

/-- Between the scanner and a later one stand these pieces. -/
structure Passes (scanner later : Scanner) (pieces : List (List Char × Meaning)) : Prop where
  split : scanner.rest = textOf pieces ++ later.rest
  place : later = scanner.past (textOf pieces) later.rest
  divides : ∀ others, Divides later.rest others → Divides scanner.rest (pieces ++ others)

namespace Passes

variable {a b c : Scanner} {x y : List (List Char × Meaning)}

theorem refl (a : Scanner) : Passes a a [] :=
  ⟨rfl, rfl, fun _ h => h⟩

theorem trans (h : Passes a b x) (k : Passes b c y) : Passes a c (x ++ y) := by
  refine ⟨?_, ?_, fun others hothers => ?_⟩
  · rw [h.split, k.split, textOf_append, List.append_assoc]
  · rw [k.place, h.place, past_past, textOf_append]
    rfl
  · rw [List.append_assoc]
    exact h.divides _ (k.divides _ hothers)

/-- The offset counts the bytes of what was passed. -/
theorem offset_eq (h : Passes a b x) : b.offset = a.offset + byteLength (textOf x) := by
  rw [h.place]
  rfl

theorem line_eq (h : Passes a b x) : b.line = a.line + (textOf x).count '\n' := by
  rw [h.place]
  rfl

end Passes

theorem Takes.passes {scanner : Scanner} {piece rest : List Char} {meaning : Meaning}
    (h : scanner.Takes piece meaning rest) :
    scanner.Passes (scanner.past piece rest) [(piece, meaning)] := by
  have htext : textOf [(piece, meaning)] = piece := List.append_nil piece
  refine ⟨?_, ?_, fun others hothers => ?_⟩
  · rw [htext, h.split]
    rfl
  · rw [htext]
    rfl
  · rw [h.split]
    exact .cons h.isPiece h.longest hothers

/-! ### One call -/

/-- The next call passes over the gaps and takes the piece behind them, which is the result. -/
structure Finds (scanner : Scanner) (gaps : List (List Char × Meaning)) (piece : List Char)
    (meaning : Meaning) (result : Except LexicalError Token) : Prop where
  areGaps : ∀ gap ∈ gaps, gap.2 = .gap
  isPiece : Piece piece meaning
  means : meaning.result? piece (scanner.offset + byteLength (textOf gaps))
    (scanner.line + (textOf gaps).count '\n') = some result
  found : scanner.next.1 = result
  passes : scanner.Passes scanner.next.2 (gaps ++ [(piece, meaning)])

/-- The next call passes over gaps, and there is nothing behind them. -/
structure Ends (scanner : Scanner) (gaps : List (List Char × Meaning)) : Prop where
  found : scanner.next.1 = .ok (.endAt scanner.next.2.offset)
  nothing : scanner.next.2.rest = []
  passes : scanner.Passes scanner.next.2 gaps

section Call

variable {scanner : Scanner} {gaps : List (List Char × Meaning)} {piece : List Char}
  {meaning : Meaning} {result : Except LexicalError Token}

/-- A call does the same before a gap and behind it. -/
theorem exists_middle (scanner : Scanner) :
    ∃ middle gaps, scanner.Passes middle gaps ∧ (∀ gap ∈ gaps, gap.2 = .gap) ∧
      scanner.next = middle.next ∧ (middle.rest = [] ∨
        ∃ piece meaning rest result, middle.Takes piece meaning rest ∧
          meaning.result? piece middle.offset middle.line = some result) := by
  -- Every gap shortens what is still to be scanned.
  generalize hlength : scanner.rest.length = length
  induction length using Nat.strongRecOn generalizing scanner with
  | ind length ih =>
    by_cases hne : scanner.rest = []
    · exact ⟨scanner, [], .refl scanner, List.forall_mem_nil _, rfl, .inl hne⟩
    · obtain ⟨piece, meaning, rest, htakes⟩ := exists_takes hne
      cases hresult : meaning.result? piece scanner.offset scanner.line with
      | some result =>
        exact ⟨scanner, [], .refl scanner, List.forall_mem_nil _, rfl,
          .inr ⟨piece, meaning, rest, result, htakes, hresult⟩⟩
      | none =>
        obtain rfl : meaning = .gap := by cases meaning <;> first | rfl | cases hresult
        have hshorter : rest.length < length := by
          rw [← hlength, htakes.split, List.length_append]
          exact Nat.lt_add_of_pos_left (List.length_pos_iff.2 htakes.isPiece.ne_nil)
        obtain ⟨middle, gaps, hpasses, hgaps, hnext, hmiddle⟩ :=
          ih rest.length hshorter (scanner.past piece rest) rfl
        exact ⟨middle, _, htakes.passes.trans hpasses, List.forall_mem_cons.2 ⟨rfl, hgaps⟩,
          htakes.next.trans hnext, hmiddle⟩

/-- A call finds a piece or the end. -/
theorem finds_or_ends (scanner : Scanner) :
    (∃ gaps piece meaning result, scanner.Finds gaps piece meaning result) ∨
      ∃ gaps, scanner.Ends gaps := by
  obtain ⟨middle, gaps, hpasses, hgaps, hnext,
    hend | ⟨piece, meaning, rest, result, htakes, hresult⟩⟩ := scanner.exists_middle
  · have hlast : middle.next = (.ok (.endAt middle.offset), middle) := by
      obtain ⟨rest, offset, line⟩ := middle
      subst hend
      rfl
    rw [hlast] at hnext
    refine .inr ⟨gaps, ?_, ?_, ?_⟩
    · rw [hnext]
    · rw [hnext, hend]
    · rwa [hnext]
  · have hlast := htakes.next
    rw [hresult] at hlast
    rw [hlast] at hnext
    refine .inl ⟨gaps, piece, meaning, result, hgaps, htakes.isPiece, ?_, ?_, ?_⟩
    · rw [← hpasses.offset_eq, ← hpasses.line_eq, hresult]
    · rw [hnext]
    · rw [hnext]
      exact hpasses.trans htakes.passes

theorem Ends.isEnd (h : scanner.Ends gaps) : isEnd scanner.next.1 = true := by
  rw [h.found]
  rfl

/-- What a piece is found to be is not the end of the text. -/
theorem Finds.not_isEnd (h : scanner.Finds gaps piece meaning result) :
    Scanner.isEnd result = false := by
  have hmeans := h.means
  cases meaning with
  | gap => cases hmeans
  | token kind =>
    cases hmeans
    exact decide_eq_false h.isPiece.kind_ne_endOfFile
  | quoted =>
    cases hmeans
    rfl
  | fault error =>
    cases hmeans
    rfl

/-- The span of a token that is found lies between the offsets before and after the call. -/
theorem Finds.span {token : Token} (h : scanner.Finds gaps piece meaning (.ok token)) :
    scanner.offset ≤ token.span.index ∧ token.span.index < scanner.next.2.offset ∧
      token.span.stop ≤ scanner.next.2.offset := by
  have hmeans := h.means
  have htext : textOf (gaps ++ [(piece, meaning)]) = textOf gaps ++ piece := by
    rw [textOf_append]
    exact congrArg _ (List.append_nil piece)
  have hoffset := h.passes.offset_eq
  rw [htext, byteLength_append] at hoffset
  have hpositive : 0 < byteLength piece := by
    obtain ⟨c, x, rfl⟩ := List.exists_cons_of_ne_nil h.isPiece.ne_nil
    exact Nat.lt_of_lt_of_le c.utf8Size_pos (Nat.le_add_right _ _)
  rw [hoffset]
  cases meaning with
  | gap => cases hmeans
  | token kind =>
    cases hmeans
    simp only [Span.stop]
    omega
  | quoted =>
    cases hmeans
    obtain ⟨body, rfl⟩ := h.isPiece.quotes
    -- the quotes are outside of the span
    have hquotes : byteLength ('"' :: (body ++ ['"'])) = 1 + (byteLength body + 1) := by
      rw [byteLength_cons, byteLength_append]
      rfl
    simp only [Span.stop, List.tail_cons, List.dropLast_concat, hquotes]
    omega
  | fault error => cases hmeans

/-- A call takes all that stands between the scanner and the one after it. -/
theorem exists_passes_next (scanner : Scanner) :
    ∃ pieces, scanner.Passes scanner.next.2 pieces := by
  rcases scanner.finds_or_ends with ⟨gaps, piece, meaning, result, hfinds⟩ | ⟨gaps, hends⟩
  · exact ⟨_, hfinds.passes⟩
  · exact ⟨gaps, hends.passes⟩

/-- Past the end of the text a call gives the end again and changes nothing. -/
theorem Ends.stays (h : scanner.Ends gaps) : scanner.next.2.next = scanner.next := by
  obtain ⟨hfound, hnothing, -⟩ := h
  generalize scanner.next = last at *
  obtain ⟨result, rest, offset, line⟩ := last
  dsimp only at hfound hnothing
  subst hfound hnothing
  rfl

end Call

/-! ### One call after the other -/

section Run

variable {scanner : Scanner} {m n : Nat}

theorem exists_passes (scanner : Scanner) (n : Nat) :
    ∃ pieces, scanner.Passes (scanner.after n) pieces := by
  induction n with
  | zero => exact ⟨[], .refl scanner⟩
  | succ n ih =>
    obtain ⟨pieces, hpasses⟩ := ih
    obtain ⟨more, hmore⟩ := (scanner.after n).exists_passes_next
    rw [← after_succ] at hmore
    exact ⟨_, hpasses.trans hmore⟩

theorem offset_mono (scanner : Scanner) : Monotone fun n => (scanner.after n).offset := by
  refine monotone_nat_of_le_succ fun n => ?_
  obtain ⟨pieces, hpasses⟩ := (scanner.after n).exists_passes_next
  rw [after_succ, hpasses.offset_eq]
  exact Nat.le_add_right _ _

/-- The calls come to the end of the text when at most as many were made as there are characters. -/
theorem exists_last (scanner : Scanner) :
    ∃ last ≤ scanner.rest.length, isEnd (scanner.answer last) = true ∧
      (∀ n < last, isEnd (scanner.answer n) = false) ∧
      resultsFrom [] scanner = (List.range (last + 1)).map scanner.answer := by
  -- Every call before the end shortens what is still to be scanned, also one that gives an error.
  generalize hlength : scanner.rest.length = length
  induction length using Nat.strongRecOn generalizing scanner with
  | ind length ih =>
    rw [resultsFrom_nil]
    cases hend : isEnd scanner.next.1 with
    | true => exact ⟨0, Nat.zero_le _, hend, fun n hn => absurd hn (Nat.not_lt_zero n), rfl⟩
    | false =>
      have hshorter : scanner.next.2.rest.length < length := by
        rw [← hlength]
        exact next_shorter rfl (Bool.eq_false_iff.1 hend)
      obtain ⟨last, hlast, hended, hbefore, hresults⟩ :=
        ih scanner.next.2.rest.length hshorter scanner.next.2 rfl
      refine ⟨last + 1, Nat.lt_of_le_of_lt hlast hshorter, hended, fun n hn => ?_, ?_⟩
      · cases n with
        | zero => exact hend
        | succ n => exact hbefore n (Nat.lt_of_succ_lt_succ hn)
      · have hrange : List.range (last + 1 + 1) = 0 :: (List.range (last + 1)).map Nat.succ :=
          List.range_succ_eq_map
        rw [hresults, hrange, List.map_cons, List.map_map]
        rfl

theorem ends_of_isEnd (h : isEnd (scanner.answer n) = true) :
    ∃ gaps, (scanner.after n).Ends gaps := by
  rcases (scanner.after n).finds_or_ends with ⟨gaps, piece, meaning, result, hfinds⟩ | hends
  · rw [answer, hfinds.found, hfinds.not_isEnd] at h
    cases h
  · exact hends

theorem finds_of_not_isEnd (h : isEnd (scanner.answer n) = false) :
    ∃ gaps piece meaning, (scanner.after n).Finds gaps piece meaning (scanner.answer n) := by
  rcases (scanner.after n).finds_or_ends with
    ⟨gaps, piece, meaning, result, hfinds⟩ | ⟨gaps, hends⟩
  · obtain rfl : scanner.answer n = result := hfinds.found
    exact ⟨gaps, piece, meaning, hfinds⟩
  · exact absurd hends.isEnd (Bool.eq_false_iff.1 h)

/-- From the first end on, all calls give the same end. -/
theorem answer_of_isEnd (h : isEnd (scanner.answer m) = true) (hle : m ≤ n) :
    scanner.answer n = scanner.answer m := by
  rcases Nat.eq_or_lt_of_le hle with rfl | hlt
  · rfl
  · obtain ⟨gaps, hends⟩ := ends_of_isEnd h
    obtain ⟨k, rfl⟩ := Nat.exists_eq_add_of_le' (Nat.succ_le_of_lt hlt)
    have hfixed : scanner.after (k + (m + 1)) = (scanner.after m).next.2 := by
      rw [after_add, after_succ]
      exact Function.iterate_fixed (congrArg Prod.snd hends.stays) k
    rw [answer, hfixed, hends.stays, answer]

/-- No token starts before the scanner that finds it. -/
theorem offset_le_index {token : Token} (h : scanner.answer n = .ok token) :
    (scanner.after n).offset ≤ token.span.index := by
  rcases (scanner.after n).finds_or_ends with
    ⟨gaps, piece, meaning, result, hfinds⟩ | ⟨gaps, hends⟩
  · obtain rfl : result = .ok token := hfinds.found.symm.trans h
    exact hfinds.span.1
  · obtain rfl : Token.endAt _ = token := Except.ok.inj (hends.found.symm.trans h)
    rw [hends.passes.offset_eq]
    exact Nat.le_add_right _ _

/-- A token before another starts before it and stops before it. -/
theorem span_lt {first second : Token} (hlt : m < n)
    (hfirst : scanner.answer m = .ok first) (hsecond : scanner.answer n = .ok second)
    (hend : isEnd (scanner.answer m) = false) :
    first.span.index < second.span.index ∧ first.span.stop ≤ second.span.index := by
  obtain ⟨gaps, piece, meaning, hfinds⟩ := finds_of_not_isEnd hend
  rw [hfirst] at hfinds
  obtain ⟨-, hindex, hstop⟩ := hfinds.span
  rw [← after_succ] at hindex hstop
  have hbetween : (scanner.after (m + 1)).offset ≤ second.span.index :=
    (scanner.offset_mono hlt).trans (offset_le_index hsecond)
  exact ⟨Nat.lt_of_lt_of_le hindex hbetween, hstop.trans hbetween⟩

end Run

/-- The error of a call is about a piece of the source. Between the scanner before the call and that
piece there are only gaps, the scanner after the call stands behind it, and the error names the line
on which the piece starts. -/
def Reports (source : String) (before after : Scanner) (error : LexicalError) : Prop :=
  ∃ earlier gaps piece fault later,
    Divides source.toList (earlier ++ (gaps ++ (piece, .fault fault) :: later)) ∧
    source.toList = textOf earlier ++ before.rest ∧ (∀ gap ∈ gaps, gap.2 = .gap) ∧
    before.rest = textOf gaps ++ (piece ++ after.rest) ∧ error = fault error.line ∧
    error.line = 1 + (textOf (earlier ++ gaps)).count '\n'

theorem reports_of_error {source : String} {n : Nat} {error : LexicalError}
    (h : (start source).answer n = .error error) :
    Reports source ((start source).after n) ((start source).after (n + 1)) error := by
  have hnot : isEnd ((start source).answer n) = false := by
    rw [h]
    rfl
  obtain ⟨gaps, piece, meaning, hfinds⟩ := finds_of_not_isEnd hnot
  obtain ⟨earlier, hearlier⟩ := (start source).exists_passes n
  obtain ⟨later, hlater, -⟩ := exists_pieces ((start source).after n).next.2
  have hdivides := hearlier.divides _ (hfinds.passes.divides _ hlater)
  have hsplit := hfinds.passes.split
  have hline : ((start source).after n).line = 1 + (textOf earlier).count '\n' := hearlier.line_eq
  have hmeans := hfinds.means
  have hpiece := hfinds.isPiece
  rw [List.append_assoc, List.singleton_append] at hdivides
  rw [textOf_append, List.append_assoc, ← after_succ] at hsplit
  rw [h] at hmeans
  cases meaning with
  | gap => cases hmeans
  | token kind => cases hmeans
  | quoted => cases hmeans
  | fault fault =>
    cases hmeans
    refine ⟨earlier, gaps, piece, fault, later, hdivides, hearlier.split, hfinds.areGaps,
      ?_, ?_, ?_⟩
    · rw [hsplit]
      exact congrArg (fun text => _ ++ (text ++ _)) (List.append_nil piece)
    · rw [hpiece.line_fault]
    · rw [hpiece.line_fault, hline, textOf_append, List.count_append, Nat.add_assoc]

/-- What comes of calling a scanner again and again. The calls up to number `last` give the results
of the source; those before it take characters, and all from it on give the same end. The tokens
stand one after the other, and every error tells its line, whatever errors there were before it. -/
structure RunsToEnd (source : String) (last : Nat) : Prop where
  few : last ≤ source.length
  results : Scanner.results source = (List.range (last + 1)).map (start source).answer
  takes : ∀ n < last, isEnd ((start source).answer n) = false ∧
    ∃ taken, taken ≠ [] ∧
      ((start source).after n).rest = taken ++ ((start source).after (n + 1)).rest
  ended : ∀ n, last ≤ n → (start source).answer n = .ok (.endAt source.utf8ByteSize)
  ordered : ∀ m n first second, m < n → n ≤ last → (start source).answer m = .ok first →
    (start source).answer n = .ok second →
    first.span.index < second.span.index ∧ first.span.stop ≤ second.span.index
  lines : ∀ n error, (start source).answer n = .error error →
    Reports source ((start source).after n) ((start source).after (n + 1)) error

/-- Calling a scanner again and again, also after errors, comes to the end of every text. -/
theorem runs_to_end (source : String) : ∃ last, RunsToEnd source last := by
  obtain ⟨last, hfew, hend, hbefore, hresults⟩ := (start source).exists_last
  refine ⟨last, ?_, hresults, fun n hn => ⟨hbefore n hn, ?_⟩, fun n hn => ?_,
    fun m n first second hlt hn hfirst hsecond => ?_, fun n error => reports_of_error⟩
  · rwa [← String.length_toList]
  · obtain ⟨gaps, piece, meaning, hfinds⟩ := finds_of_not_isEnd (hbefore n hn)
    refine ⟨_, ?_, (after_succ _ n) ▸ hfinds.passes.split⟩
    intro hnil
    rw [textOf_append] at hnil
    exact hfinds.isPiece.ne_nil (List.append_eq_nil_iff.1 (List.append_eq_nil_iff.1 hnil).2).1
  · obtain ⟨gaps, hends⟩ := ends_of_isEnd hend
    obtain ⟨pieces, hpasses⟩ := (start source).exists_passes last
    have hall := hpasses.trans hends.passes
    have hoffset :
        ((start source).after last).next.2.offset = byteLength (textOf (pieces ++ gaps)) := by
      rw [hall.offset_eq]
      exact Nat.zero_add _
    have htext : source.toList = textOf (pieces ++ gaps) := by
      have hsplit := hall.split
      rwa [hends.nothing, List.append_nil] at hsplit
    rw [answer_of_isEnd hend hn, answer, hends.found, hoffset, utf8ByteSize_eq, htext]
  · exact span_lt hlt hfirst hsecond (hbefore m (Nat.lt_of_lt_of_le hlt hn))

/-- A number glued to letters, an unknown character and a string that its line ends, with an empty
string among them and a comment behind them that is never closed. -/
example : Scanner.results "9x#\n\"\"é \"a\n/*" =
    [.error (.malformedWord "9x" 1), .error (.unknownCharacter '#' 1),
      .ok ⟨.string, "", ⟨5, 0⟩⟩, .error (.unknownCharacter 'é' 2), .error (.unterminatedString 2),
      .error (.unterminatedComment 3), .ok (.endAt 14)] := by
  decide +kernel

end Scanner

end JackCompiler
