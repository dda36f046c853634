import JackCompiler.Proofs.Scanning
import Mathlib.Data.List.DropRight

/-!
Lines and columns as coordinates. The number of a line counts the pieces of the text that is cut
after each line feed, and a column counts characters of one piece. Both are found from the two
halves into which an offset cuts the text, so they agree with each other at every offset, also at a
line feed, behind it and at the end.
-/

namespace JackCompiler

/-- The pieces of a text that is cut after each line feed. What follows the last one is a piece too,
also when it is empty. -/
def cutLines : List Char → List (List Char)
  | [] => [[]]
  | c :: rest =>
    if c = '\n' then [c] :: cutLines rest
    else (cutLines rest).modifyHead (c :: ·)

/-- The offset is between two characters of the text, or at its start or its end. -/
def Boundary (text : String) (offset : Nat) : Prop :=
  ∃ before after, text.toList = before ++ after ∧ byteLength before = offset

/-- The line on both sides of a place, up to the line feed that ends it. -/
def lineAround (before after : List Char) : List Char :=
  before.rtakeWhile (· != '\n') ++
    (after.takeWhile (· != '\n') ++ (after.dropWhile (· != '\n')).take 1)

/-! ### Pieces -/

/-- The first piece goes up to the first line feed. -/
theorem exists_cutLines (text : List Char) : ∃ later, cutLines text =
    (text.takeWhile (· != '\n') ++ (text.dropWhile (· != '\n')).take 1) :: later := by
  induction text with
  | nil => exact ⟨[], rfl⟩
  | cons c text ih =>
    obtain ⟨later, hlater⟩ := ih
    rw [cutLines]
    by_cases hnewline : c = '\n'
    · subst hnewline
      exact ⟨_, rfl⟩
    · refine ⟨later, ?_⟩
      rw [if_neg hnewline, hlater, List.takeWhile_cons_of_pos (by simpa using hnewline),
        List.dropWhile_cons_of_pos (by simpa using hnewline)]
      rfl

/-- The pieces up to a line feed are not changed by what follows. -/
theorem exists_cutLines_newline (x y : List Char) : ∃ ended,
    cutLines (x ++ '\n' :: y) = ended ++ cutLines y ∧ ended.flatten = x ++ ['\n'] ∧
      ended.length = x.count '\n' + 1 := by
  induction x with
  | nil => exact ⟨[['\n']], rfl, rfl, rfl⟩
  | cons c x ih =>
    obtain ⟨ended, hended, hflatten, hlength⟩ := ih
    rw [List.cons_append, cutLines, hended, List.count_cons]
    by_cases hnewline : c = '\n'
    · subst hnewline
      refine ⟨['\n'] :: ended, rfl, congrArg _ hflatten, ?_⟩
      rw [List.length_cons, hlength]
      rfl
    · cases ended with
      | nil => cases hlength
      | cons first ended =>
        refine ⟨(c :: first) :: ended, if_neg hnewline, congrArg _ hflatten, ?_⟩
        rw [if_neg (by simpa using hnewline)]
        exact hlength

theorem rtakeWhile_append_of_pos {p : Char → Bool} (x : List Char) {y : List Char}
    (hy : ∀ c ∈ y, p c = true) : (x ++ y).rtakeWhile p = x.rtakeWhile p ++ y := by
  rw [List.rtakeWhile, List.reverse_append,
    List.takeWhile_append_of_pos fun c hc => hy c (List.mem_reverse.1 hc), List.reverse_append,
    List.reverse_reverse, List.rtakeWhile]

theorem bne_newline_of_mem_rtakeWhile (before : List Char) :
    ∀ c ∈ before.rtakeWhile (· != '\n'), (c != '\n') = true :=
  fun _ hc => List.mem_rtakeWhile_imp (p := (· != '\n')) hc

/-- The line around a place has as many pieces before it as there are line feeds before the
place. -/
theorem exists_cutLines_append (before after : List Char) : ∃ earlier later,
    cutLines (before ++ after) = earlier ++ lineAround before after :: later ∧
      earlier.flatten = before.rdropWhile (· != '\n') ∧ earlier.length = before.count '\n' := by
  -- The pieces before the line are those up to the last line feed before the place.
  have hline := bne_newline_of_mem_rtakeWhile before
  obtain ⟨later, hlater⟩ := exists_cutLines (before.rtakeWhile (· != '\n') ++ after)
  rw [List.takeWhile_append_of_pos hline, List.dropWhile_append_of_pos hline, List.append_assoc]
    at hlater
  have hnone : (before.rtakeWhile (· != '\n')).count '\n' = 0 :=
    List.count_eq_zero.2 fun hmem => by simpa using hline _ hmem
  have hbefore := List.rdropWhile_append_rtakeWhile (p := (· != '\n')) (l := before)
  have hcount : before.count '\n' = (before.rdropWhile (· != '\n')).count '\n' := by
    conv_lhs => rw [← hbefore, List.count_append, hnone, Nat.add_zero]
  rw [hcount]
  conv in before ++ after => rw [← hbefore, List.append_assoc]
  rcases List.eq_nil_or_concat' (before.rdropWhile (· != '\n')) with hfirst | ⟨x, c, hend⟩
  · rw [hfirst]
    exact ⟨[], later, hlater, rfl, rfl⟩
  · have hnewline : c = '\n' := by
      have hlast := List.rdropWhile_last_not (· != '\n') before (by simp [hend])
      simpa [hend] using hlast
    subst hnewline
    obtain ⟨ended, hended, hflatten, hlength⟩ :=
      exists_cutLines_newline x (before.rtakeWhile (· != '\n') ++ after)
    refine ⟨ended, later, ?_, hflatten.trans hend.symm, ?_⟩
    · rw [hend, List.append_assoc, List.singleton_append, hended, hlater]
      rfl
    · rw [hend, List.count_append, hlength]
      rfl

/-! ### Offsets -/

theorem Cut.advance_of_le (before : List Char) {x : List Char} {offset : Nat}
    (h : byteLength x ≤ offset) : Cut.advance before x offset = ⟨x.reverse ++ before, []⟩ := by
  induction x generalizing before offset with
  | nil => rfl
  | cons c x ih =>
    rw [byteLength_cons] at h
    rw [Cut.advance, if_pos (by omega), ih _ (by omega), List.reverse_cons, List.append_assoc,
      List.singleton_append]

theorem eq_nil_of_byteLength {x : List Char} (h : byteLength x = 0) : x = [] := by
  cases x with
  | nil => rfl
  | cons c x =>
    have hpositive := c.utf8Size_pos
    rw [byteLength_cons] at h
    omega

/-- A text is what comes before the line around a place, this line, and what comes behind it. -/
theorem append_eq_lineAround (before after : List Char) : before ++ after =
    before.rdropWhile (· != '\n') ++
      (lineAround before after ++ (after.dropWhile (· != '\n')).drop 1) := by
  have hafter : after.takeWhile (· != '\n') ++ (after.dropWhile (· != '\n')).take 1 ++
      (after.dropWhile (· != '\n')).drop 1 = after := by
    rw [List.append_assoc, List.take_append_drop, List.takeWhile_append_dropWhile]
  rw [lineAround, List.append_assoc, hafter, ← List.append_assoc,
    List.rdropWhile_append_rtakeWhile]

section Located

variable {source : String} {span : Span} {before after : List Char}
  (hsource : source.toList = before ++ after) (hindex : byteLength before = span.index)

include hsource hindex

theorem Span.cut_eq : span.cut source = ⟨before.reverse, after⟩ := by
  rw [cut, Cut.ofOffset, hsource, ← hindex, Cut.advance_append, List.append_nil]

theorem Span.lineNumber_eq : span.lineNumber source = 1 + before.count '\n' := by
  rw [lineNumber, cut_eq hsource hindex, Cut.line, List.count_reverse, Nat.add_comm]

theorem Span.column_eq : span.column source = (before.rtakeWhile (· != '\n')).length := by
  rw [column, cut_eq hsource hindex, Cut.column, List.rtakeWhile, List.length_reverse]

theorem Span.surroundingLine_eq : span.surroundingLine source =
    (String.ofList (lineAround before after), ⟨byteLength (before.rdropWhile (· != '\n')),
      byteLength (lineAround before after)⟩) := by
  have hstart : byteLength (before.reverse.dropWhile (· != '\n')) =
      byteLength (before.rdropWhile (· != '\n')) := (byteLength_reverse _).symm
  rw [surroundingLine, cut_eq hsource hindex, Cut.lineStart, hstart]
  rfl

end Located

/-! ### Coordinates -/

/-- How the line and the column of an offset are related to it. The line is a piece of the text, and
its span is where it lies. Behind a last line feed, as in an empty text, it is empty. -/
structure Span.Coordinates (text : String) (span : Span) : Prop where
  positive : 1 ≤ span.lineNumber text
  line : (cutLines text.toList)[span.lineNumber text - 1]? =
    some (span.surroundingLine text).1.toList
  range : (span.surroundingLine text).2 =
    ⟨byteLength ((cutLines text.toList).take (span.lineNumber text - 1)).flatten,
      byteLength (span.surroundingLine text).1.toList⟩
  fragment : (span.surroundingLine text).2.fragment? text = some (span.surroundingLine text).1
  inside : (span.surroundingLine text).2.index ≤ span.index ∧
    span.index ≤ (span.surroundingLine text).2.stop
  column : span.column text ≤ (span.surroundingLine text).1.toList.length
  offset : span.index = (span.surroundingLine text).2.index +
    byteLength ((span.surroundingLine text).1.toList.take (span.column text))
  atEnd : span.index = text.utf8ByteSize → (∀ c ∈ text.toList.getLast?, c = '\n') →
    (span.surroundingLine text).1 = ""

/-- Lines and columns are coordinates of the offsets of a text, in the same order, and all offsets
behind the text are taken for its end. -/
structure Coordinated (text : String) : Prop where
  coordinates : ∀ span : Span, Boundary text span.index → span.Coordinates text
  determined : ∀ a b : Span, Boundary text a.index → Boundary text b.index →
    a.lineNumber text = b.lineNumber text → a.column text = b.column text → a.index = b.index
  ordered : ∀ a b : Span, Boundary text a.index → Boundary text b.index → a.index < b.index →
    a.lineNumber text < b.lineNumber text ∨
      a.lineNumber text = b.lineNumber text ∧ a.column text < b.column text
  clamped : ∀ span last : Span, text.utf8ByteSize ≤ span.index → last.index = text.utf8ByteSize →
    span.surroundingLine text = last.surroundingLine text ∧
      span.lineNumber text = last.lineNumber text ∧ span.column text = last.column text

theorem Span.coordinates_of_boundary {text : String} {span : Span}
    (h : Boundary text span.index) : span.Coordinates text := by
  obtain ⟨before, after, htext, hindex⟩ := h
  have hbefore := List.rdropWhile_append_rtakeWhile (p := (· != '\n')) (l := before)
  have hsplit := htext.trans (append_eq_lineAround before after)
  have hsize := congrArg byteLength hbefore
  rw [byteLength_append] at hsize
  obtain ⟨earlier, later, hlines, hflatten, hlength⟩ := exists_cutLines_append before after
  have hnumber : span.lineNumber text - 1 = earlier.length := by
    rw [lineNumber_eq htext hindex, hlength, Nat.add_sub_cancel_left]
  rw [← htext] at hlines
  have hline := surroundingLine_eq htext hindex
  have hcolumn := column_eq htext hindex
  refine ⟨?_, ?_, ?_, ?_, ?_, ?_, ?_, fun hend hlast => ?_⟩
  · rw [lineNumber_eq htext hindex]
    exact Nat.le_add_right 1 _
  · rw [hnumber, hlines, List.getElem?_append_right (Nat.le_refl _), Nat.sub_self, hline,
      String.toList_ofList]
    rfl
  · rw [hnumber, hlines, List.take_left, hflatten, hline, String.toList_ofList]
  · rw [hline]
    exact fragment?_append hsplit
  · rw [hline, Span.stop, lineAround, byteLength_append, ← hindex, ← hsize]
    exact ⟨Nat.le_add_right _ _, Nat.add_le_add_left (Nat.le_add_right _ _) _⟩
  · rw [hline, hcolumn, String.toList_ofList, lineAround, List.length_append]
    exact Nat.le_add_right _ _
  · rw [hline, hcolumn, String.toList_ofList, lineAround, List.take_left, hsize, hindex]
  · rw [utf8ByteSize_eq, htext, byteLength_append, hindex] at hend
    obtain rfl : after = [] := eq_nil_of_byteLength (by omega)
    have hnil : before.rtakeWhile (· != '\n') = [] := by
      refine List.rtakeWhile_eq_nil_iff.2 fun hne => ?_
      rw [htext, List.append_nil] at hlast
      have hnewline := hlast _ (List.getLast?_eq_some_getLast hne)
      simpa using hnewline
    rw [hline, lineAround, hnil]
    rfl

theorem Span.index_eq {text : String} {a b : Span} (ha : a.Coordinates text)
    (hb : b.Coordinates text) (hline : a.lineNumber text = b.lineNumber text)
    (hcolumn : a.column text = b.column text) : a.index = b.index := by
  have hsame : (a.surroundingLine text).1.toList = (b.surroundingLine text).1.toList :=
    Option.some.inj ((hline ▸ ha.line.symm).trans hb.line)
  rw [ha.offset, hb.offset, ha.range, hb.range, hline, hcolumn, hsame]

/-- Later offsets are on later lines, or behind on the same line. -/
theorem Span.position_lt {text : String} {a b : Span} (ha : Boundary text a.index)
    (hb : Boundary text b.index) (hlt : a.index < b.index) :
    a.lineNumber text < b.lineNumber text ∨
      a.lineNumber text = b.lineNumber text ∧ a.column text < b.column text := by
  obtain ⟨x, left, hleft, hx⟩ := ha
  obtain ⟨y, right, hright, hy⟩ := hb
  rcases List.append_eq_append_iff.1 (hleft.symm.trans hright) with
    ⟨between, rfl, -⟩ | ⟨between, rfl, -⟩
  · rw [lineNumber_eq hleft hx, lineNumber_eq hright hy, column_eq hleft hx, column_eq hright hy,
      List.count_append]
    rcases Nat.eq_zero_or_pos (between.count '\n') with hnone | hsome
    · have hkeep : ∀ c ∈ between, (c != '\n') = true := fun c hc =>
        bne_iff_ne.2 fun heq => List.count_eq_zero.1 hnone (heq ▸ hc)
      have hne : between ≠ [] := by
        rintro rfl
        rw [List.append_nil] at hy
        omega
      rw [hnone, rtakeWhile_append_of_pos x hkeep, List.length_append]
      exact .inr ⟨rfl, Nat.lt_add_of_pos_right (List.length_pos_iff.2 hne)⟩
    · exact .inl (by omega)
  · rw [byteLength_append] at hx
    omega

theorem coordinates_faithful (text : String) : Coordinated text := by
  refine ⟨fun span hspan => span.coordinates_of_boundary hspan, fun a b ha hb =>
    Span.index_eq (a.coordinates_of_boundary ha) (b.coordinates_of_boundary hb), fun a b =>
    Span.position_lt, fun span last hbeyond hlast => ?_⟩
  have hcut : span.cut text = last.cut text := by
    rw [utf8ByteSize_eq] at hbeyond hlast
    rw [Span.cut, Span.cut, Cut.ofOffset, Cut.ofOffset, Cut.advance_of_le [] hbeyond,
      Cut.advance_of_le [] (Nat.le_of_eq hlast.symm)]
  rw [Span.surroundingLine, Span.lineNumber, Span.column, hcut]
  exact ⟨rfl, rfl, rfl⟩

/-- A character of two bytes and a line feed, an empty line, a last line feed and the end behind
it. -/
example : [0, 2, 3, 4, 5, 6].map (fun index =>
      (Span.lineNumber ⟨index, 0⟩ "é\n\nb\n", Span.column ⟨index, 0⟩ "é\n\nb\n")) =
    [(1, 0), (1, 1), (2, 0), (3, 0), (3, 1), (4, 0)] := by
  decide

end JackCompiler
