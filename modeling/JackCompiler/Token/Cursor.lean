import JackCompiler.Token.Reader

/-!
A reader together with the tokens that were taken. The place of a token among all of them is a
number of 64 bits, and so is how far ahead one may look. Their sum may start again from zero, and
then a token is found that has been taken already.
-/

namespace JackCompiler

structure Cursor where
  /-- The tokens that were taken, latest first. -/
  behind : List Token := []
  ahead : Reader

namespace Cursor

/-- A cursor before the given tokens, closed by the end of the text if they do not end with one. -/
def ofTokens (source : String) (tokens : List Token) : Cursor :=
  { ahead := .ofTokens source tokens }

/-- The token `n` places after the current one, or the last token. -/
def peekNth (cursor : Cursor) (n : UInt64) : Token :=
  (cursor.behind.reverse ++ cursor.ahead.tokens).getD
    ((cursor.behind.length + n.toNat) % UInt64.size) cursor.ahead.last

def peek (cursor : Cursor) : Token :=
  cursor.ahead.peek

/-- The cursor behind a token that was taken. -/
def past (cursor : Cursor) : Token × Reader → Token × Cursor
  | (token, ahead) => (token, ⟨token :: cursor.behind, ahead⟩)

/-- The current token and the cursor after it. There is nothing to take at the end. -/
def next? (cursor : Cursor) : Option (Token × Cursor) :=
  cursor.ahead.next?.map cursor.past

/-- Takes the current token if it is of the given kind. -/
def accept? (cursor : Cursor) (kind : TokenKind) : Option (Token × Cursor) :=
  (cursor.ahead.accept? kind).map cursor.past

/-- Takes the current token, which must be of one of the given kinds. -/
def consumeAny (cursor : Cursor) (kinds : List TokenKind) : Except SyntaxError (Token × Cursor) :=
  match cursor.ahead.consumeAny kinds with
  | .ok taken => .ok (cursor.past taken)
  | .error refusal => .error (cursor.ahead.locate refusal)

def consume (cursor : Cursor) (kind : TokenKind) : Except SyntaxError (Token × Cursor) :=
  cursor.consumeAny [kind]

/-- The current token is not what was expected. -/
def unexpected (cursor : Cursor) (expected : String) : SyntaxError :=
  cursor.ahead.locate (cursor.ahead.unexpected expected)

end Cursor

end JackCompiler
