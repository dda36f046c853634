import JackCompiler.Proofs.Places

/-!
Texts in places of limited size. Offsets are numbers of 32 bits, and a slice of a text has to start
and stop at characters of the text. The operations here have no result where a number is too large,
a difference would be negative or a slice is not one; for the span of a token they all have one, and
it is the one that is computed without limits.
-/

namespace JackCompiler

/-- The number, if it has at most so many bits. -/
def narrow? (bits n : Nat) : Option Nat :=
  if n < 2 ^ bits then some n else none

/-- The difference, unless it is negative. -/
def minus? (m n : Nat) : Option Nat :=
  if n ≤ m then some (m - n) else none

/-- What stands in a text from one offset to another. There is nothing where the offsets are not in
order, leave the text or split a character. -/
def slice? (text : String) (start stop : Nat) : Option String := do
  let size ← minus? stop start
  Span.fragment? ⟨start, size⟩ text

namespace Span

/-- The text of the span, up to an offset that is a sum in 32 bits. -/
def text? (span : Span) (source : String) : Option String := do
  let stop ← narrow? 32 (span.index + span.size)
  slice? source span.index stop

/-- The line of the span, by the line feeds in the slice before it. -/
def lineNumber? (span : Span) (source : String) : Option Nat := do
  let before ← slice? source 0 (min span.index source.utf8ByteSize)
  some (before.toList.count '\n' + 1)

/-- The line around the span, with its line feed, between offsets that are found in the slices
before and after the start of the span. -/
def surroundingLine? (span : Span) (source : String) : Option (String × Span) := do
  let index := min span.index source.utf8ByteSize
  let before ← slice? source 0 index
  let after ← slice? source index source.utf8ByteSize
  let start ← narrow? 32 (byteLength (before.toList.reverse.dropWhile (· != '\n')))
  let stop ← narrow? 32 (index + byteLength (after.toList.takeWhile (· != '\n') ++
    (after.toList.dropWhile (· != '\n')).take 1))
  let size ← minus? stop start
  let line ← slice? source start stop
  some (line, ⟨start, size⟩)

/-- The column of the span, by the characters in the slice from the start of its line. -/
def column? (span : Span) (source : String) : Option Nat := do
  let (_, line) ← span.surroundingLine? source
  let before ← slice? source line.index (min span.index source.utf8ByteSize)
  some before.toList.length

end Span

/-- A message about a place in the text, with everything that is said about the place. -/
def SyntaxError.locate? (source : String) (span : Span) (detail : String) :
    Option SyntaxError := do
  let (text, _) ← span.surroundingLine? source
  let line ← span.lineNumber? source
  let column ← span.column? source
  some ⟨span, line, column, detail, trimLineBreaks text⟩

def Failure.locate? (source : String) : Failure → Option Diagnostic
  | refused refusal => do
    let error ← SyntaxError.locate? source refusal.token.span refusal.fault.message
    some (.grammatical error)
  | undefinedName name => do
    let line ← name.span.lineNumber? source
    some (.undefinedName name.text line)

/-! ### Numbers and slices -/

theorem narrow?_eq {bits n : Nat} (h : n < 2 ^ bits) : narrow? bits n = some n :=
  if_pos h

theorem minus?_add (m n : Nat) : minus? (m + n) m = some n := by
  rw [minus?, if_pos (Nat.le_add_right m n), Nat.add_sub_cancel_left]

/-- A part of a text is a slice of it. -/
theorem slice?_append {source : String} {before piece after : List Char}
    (hsource : source.toList = before ++ (piece ++ after)) {start stop : Nat}
    (hstart : byteLength before = start) (hstop : start + byteLength piece = stop) :
    slice? source start stop = some (String.ofList piece) := by
  subst hstart hstop
  rw [slice?, minus?_add]
  exact Span.fragment?_append hsource

theorem byteLength_prefix_le {source : String} {before after : List Char}
    (hsource : source.toList = before ++ after) : byteLength before ≤ source.utf8ByteSize := by
  rw [utf8ByteSize_eq, hsource, byteLength_append]
  exact Nat.le_add_right _ _

/-! ### Spans of a text of limited size -/

section Located

variable {source : String} {span : Span} {before after : List Char}
  (hsize : source.utf8ByteSize < 2 ^ 32) (hsource : source.toList = before ++ after)
  (hindex : byteLength before = span.index)

include hsource hindex

theorem Span.min_index : min span.index source.utf8ByteSize = span.index :=
  Nat.min_eq_left (hindex ▸ byteLength_prefix_le hsource)

theorem slice?_before : slice? source 0 span.index = some (String.ofList before) := by
  have hsplit : source.toList = [] ++ (before ++ after) := hsource
  exact slice?_append hsplit rfl ((Nat.zero_add _).trans hindex)

theorem slice?_after :
    slice? source span.index source.utf8ByteSize = some (String.ofList after) := by
  have hsplit : source.toList = before ++ (after ++ []) := by rwa [List.append_nil]
  refine slice?_append hsplit hindex ?_
  rw [utf8ByteSize_eq, hsource, byteLength_append, hindex]

theorem Span.lineNumber?_eq : span.lineNumber? source = some (span.lineNumber source) := by
  rw [lineNumber?, min_index hsource hindex, slice?_before hsource hindex,
    lineNumber_eq hsource hindex, Nat.add_comm]
  exact congrArg (fun chars => some (List.count '\n' chars + 1)) String.toList_ofList

include hsize

/-- The line that is found in the slices is the one around the cut. -/
theorem Span.surroundingLine?_eq :
    span.surroundingLine? source = some (span.surroundingLine source) := by
  let upTo := before.rdropWhile (· != '\n')
  let stop := after.takeWhile (· != '\n') ++ (after.dropWhile (· != '\n')).take 1
  have hline := hsource.trans (append_eq_lineAround before after)
  have hupTo : byteLength (before.reverse.dropWhile (· != '\n')) = byteLength upTo :=
    (byteLength_reverse _).symm
  have hplaces : byteLength upTo + byteLength (lineAround before after) =
      span.index + byteLength stop := by
    rw [lineAround, byteLength_append, ← Nat.add_assoc, ← byteLength_append,
      List.rdropWhile_append_rtakeWhile, hindex]
  have hstop : span.index + byteLength stop < 2 ^ 32 := by
    rw [← hplaces, ← byteLength_append]
    rw [← List.append_assoc] at hline
    exact Nat.lt_of_le_of_lt (byteLength_prefix_le hline) hsize
  have hstart : byteLength upTo < 2 ^ 32 := by omega
  have hslice : slice? source (byteLength upTo) (span.index + byteLength stop) =
      some (String.ofList (lineAround before after)) :=
    slice?_append hline rfl hplaces
  rw [surroundingLine?, min_index hsource hindex, slice?_before hsource hindex,
    slice?_after hsource hindex, surroundingLine_eq hsource hindex]
  simp only [Option.bind_eq_bind, Option.bind_some, String.toList_ofList]
  rw [hupTo, narrow?_eq hstart, Option.bind_some, narrow?_eq hstop, Option.bind_some, ← hplaces,
    minus?_add, Option.bind_some, hplaces, hslice, Option.bind_some]

theorem Span.column?_eq : span.column? source = some (span.column source) := by
  have hbefore : before.rdropWhile (· != '\n') ++ before.rtakeWhile (· != '\n') = before :=
    List.rdropWhile_append_rtakeWhile
  have hstart : byteLength (before.rdropWhile (· != '\n')) =
      (span.surroundingLine source).2.index := by
    rw [surroundingLine_eq hsource hindex]
  have hstop : (span.surroundingLine source).2.index +
      byteLength (before.rtakeWhile (· != '\n')) = span.index := by
    rw [← hstart, ← byteLength_append, hbefore, hindex]
  have hline : slice? source (span.surroundingLine source).2.index span.index =
      some (String.ofList (before.rtakeWhile (· != '\n'))) := by
    rw [← hbefore, List.append_assoc] at hsource
    exact slice?_append hsource hstart hstop
  rw [column?, surroundingLine?_eq hsize hsource hindex, min_index hsource hindex]
  simp only [Option.bind_eq_bind, Option.bind_some]
  rw [hline, Option.bind_some, String.toList_ofList, column_eq hsource hindex]

theorem SyntaxError.locate?_eq (detail : String) :
    locate? source span detail = some (locate source span detail) := by
  rw [locate?, Span.surroundingLine?_eq hsize hsource hindex,
    Span.lineNumber?_eq hsource hindex, Span.column?_eq hsize hsource hindex]
  rfl

end Located

/-- The slice of a span that has a text is that text. -/
theorem Span.text?_eq {source text : String} (hsize : source.utf8ByteSize < 2 ^ 32) {span : Span}
    (h : span.fragment? source = some text) : span.text? source = some text := by
  obtain ⟨before, after, hsource, hindex, hlength⟩ := exists_of_fragment? h
  have hstop : span.index + span.size < 2 ^ 32 := by
    have hsplit := hsource
    rw [← List.append_assoc] at hsplit
    rw [← hindex, ← hlength, ← byteLength_append]
    exact Nat.lt_of_le_of_lt (byteLength_prefix_le hsplit) hsize
  rw [text?, narrow?_eq hstop, Option.bind_eq_bind, Option.bind_some, ← hlength,
    slice?_append hsource hindex rfl, String.ofList_toList]

/-- A failure at a token of the text is located without leaving the text. -/
theorem Failure.locate?_eq {source : String} {tokens : List Token}
    (hsize : source.utf8ByteSize < 2 ^ 32) (h : Scanner.tokens source = .ok tokens)
    {failure : Failure} (hfailure : failure.token ∈ tokens) :
    failure.locate? source = some (failure.locate source) := by
  cases failure with
  | refused refusal =>
    obtain ⟨before, after, hsource, hindex⟩ := refusal.token.exists_place h hfailure
    rw [locate?, SyntaxError.locate?_eq hsize hsource hindex]
    rfl
  | undefinedName name =>
    obtain ⟨before, after, hsource, hindex⟩ := name.exists_place h hfailure
    rw [locate?, Span.lineNumber?_eq hsource hindex]
    rfl

end JackCompiler
