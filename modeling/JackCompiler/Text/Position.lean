/-!
Positions in a text. An offset counts UTF-8 bytes, a column counts characters from the start of the
line, and a line ends with its line feed. Every question about an offset is answered by the two
halves into which it cuts the text.
-/

namespace JackCompiler

/-- The size of the characters in UTF-8. -/
def byteLength (chars : List Char) : Nat :=
  chars.foldr (fun c size => c.utf8Size + size) 0

/-- Both end a line comment and may not occur inside a string constant. -/
def isLineBreak (c : Char) : Bool :=
  c = '\n' || c = '\r'

/-- A text cut in two. The characters before the cut are kept nearest first. -/
structure Cut where
  before : List Char
  after : List Char

namespace Cut

/-- Moves the cut right by at most `offset` bytes and at most to the end. -/
def advance (before : List Char) : List Char → Nat → Cut
  | [], _ => ⟨before, []⟩
  | c :: rest, offset =>
    if c.utf8Size ≤ offset then advance (c :: before) rest (offset - c.utf8Size)
    else ⟨before, c :: rest⟩

/-- The cut at a byte offset; an offset past the end cuts at the end. -/
def ofOffset (text : String) (offset : Nat) : Cut :=
  advance [] text.toList offset

def offset (cut : Cut) : Nat :=
  byteLength cut.before

/-- One more than the number of line feeds before the cut. -/
def line (cut : Cut) : Nat :=
  cut.before.count '\n' + 1

def column (cut : Cut) : Nat :=
  (cut.before.takeWhile (· != '\n')).length

/-- The offset at which the line around the cut starts. -/
def lineStart (cut : Cut) : Nat :=
  byteLength (cut.before.dropWhile (· != '\n'))

/-- The whole line around the cut, with its line feed if it has one. -/
def lineText (cut : Cut) : List Char :=
  (cut.before.takeWhile (· != '\n')).reverse ++
    (cut.after.takeWhile (· != '\n') ++ (cut.after.dropWhile (· != '\n')).take 1)

end Cut

/-- A run of bytes of a text. -/
structure Span where
  index : Nat
  size : Nat
deriving DecidableEq

namespace Span

/-- The offset just past the span. -/
def stop (span : Span) : Nat :=
  span.index + span.size

/-- The cut at the start of the span. -/
def cut (span : Span) (text : String) : Cut :=
  Cut.ofOffset text span.index

/-- The text of the span. There is none where the span leaves the text or splits a character. -/
def fragment? (span : Span) (text : String) : Option String :=
  let start := span.cut text
  let inside := Cut.advance [] start.after span.size
  if start.offset = span.index ∧ inside.offset = span.size then
    some (String.ofList inside.before.reverse)
  else none

/-- The one-based line on which the span starts. -/
def lineNumber (span : Span) (text : String) : Nat :=
  (span.cut text).line

/-- The zero-based column at which the span starts. -/
def column (span : Span) (text : String) : Nat :=
  (span.cut text).column

/-- The line on which the span starts, with its line feed, and where that line lies. -/
def surroundingLine (span : Span) (text : String) : String × Span :=
  let cut := span.cut text
  (String.ofList cut.lineText, ⟨cut.lineStart, byteLength cut.lineText⟩)

end Span

end JackCompiler
