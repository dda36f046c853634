import JackCompiler.Token.Scanner

/-!
Reading a sequence of tokens from left to right. A reader always has a current token: the tokens
still to come are followed by one end of the text, which is never consumed. An end that stands
earlier in the sequence stops the reader as well.
-/

namespace JackCompiler

structure Reader where
  source : String
  /-- The tokens still to come, the last one apart. -/
  tokens : List Token
  last : Token

namespace Reader

/-- The end of the text, whose place is kept in 32 bits. -/
def endOf (source : String) : Token :=
  .endAt (source.utf8ByteSize % UInt32.size)

/-- A reader of the given tokens, closed by the end of the text if they do not end with one. -/
def ofTokens (source : String) (tokens : List Token) : Reader :=
  match tokens.getLast? with
  | some last =>
    if last.kind = .endOfFile then ⟨source, tokens.dropLast, last⟩
    else ⟨source, tokens, endOf source⟩
  | none => ⟨source, tokens, endOf source⟩

def ofSource (source : String) : Except LexicalError Reader :=
  (Scanner.tokens source).map (ofTokens source)

/-- How many tokens there are before the last. -/
def left (reader : Reader) : Nat :=
  reader.tokens.length

/-- The token `n` places after the current one, or the last token, whatever the number. -/
def peekNth (reader : Reader) (n : Nat) : Token :=
  reader.tokens.getD n reader.last

def peek (reader : Reader) : Token :=
  reader.tokens.headD reader.last

/-- The current token and the reader after it. There is nothing to take at the end. -/
def next? (reader : Reader) : Option (Token × Reader) :=
  match reader.tokens with
  | [] => none
  | token :: rest =>
    if token.kind = .endOfFile then none else some (token, { reader with tokens := rest })

/-- Takes the current token if it is of the given kind. -/
def accept? (reader : Reader) (kind : TokenKind) : Option (Token × Reader) :=
  match reader.next? with
  | some (token, after) => if token.kind = kind then some (token, after) else none
  | none => none

/-- The current token is not what was expected. -/
def unexpected (reader : Reader) (expected : String) : Refusal :=
  let token := reader.peek
  ⟨.unexpected expected token.kind token.text, token⟩

/-- Quotes a single kind, and lists any other number of them. -/
def expectation (kinds : List TokenKind) : String :=
  match kinds.map fun kind => "'" ++ kind.text ++ "'" with
  | [one] => one
  | several => "one of " ++ String.intercalate ", " several

/-- Takes the current token, which must be of one of the given kinds. -/
def consumeAny (reader : Reader) (kinds : List TokenKind) : Except Refusal (Token × Reader) :=
  match reader.next? with
  | some (token, after) =>
    if token.kind ∈ kinds then .ok (token, after)
    else .error (reader.unexpected (expectation kinds))
  | none => .error (reader.unexpected (expectation kinds))

def consume (reader : Reader) (kind : TokenKind) : Except Refusal (Token × Reader) :=
  reader.consumeAny [kind]

/-- Puts a refusal at its place in the source. -/
def locate (reader : Reader) (refusal : Refusal) : SyntaxError :=
  .locate reader.source refusal.token.span refusal.fault.message

theorem left_of_next? {reader after : Reader} {token : Token}
    (h : reader.next? = some (token, after)) : after.left < reader.left := by
  unfold next? at h
  split at h
  · simp at h
  · rename_i t rest htokens
    split at h
    · simp at h
    · simp only [Option.some.injEq, Prod.mk.injEq] at h
      obtain ⟨rfl, rfl⟩ := h
      simp [left, htokens]

theorem next?_of_accept? {reader after : Reader} {token : Token} {kind : TokenKind}
    (h : reader.accept? kind = some (token, after)) : reader.next? = some (token, after) := by
  unfold accept? at h
  split at h
  · split at h <;> simp_all
  · simp at h

theorem next?_of_consumeAny {reader after : Reader} {token : Token} {kinds : List TokenKind}
    (h : reader.consumeAny kinds = .ok (token, after)) : reader.next? = some (token, after) := by
  unfold consumeAny at h
  split at h
  · split at h <;> simp_all
  · simp at h

end Reader

end JackCompiler
