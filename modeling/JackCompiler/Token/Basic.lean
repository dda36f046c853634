import JackCompiler.Text.Position

/-!
The tokens of the Jack language: 21 keywords, 19 symbols, identifiers, integer constants and string
constants, and a last token that stands for the end of the text.
-/

namespace JackCompiler

/-- Reserved words. Each constructor is the word itself followed by an underscore. -/
inductive Keyword where
  | class_ | constructor_ | function_ | method_ | field_ | static_ | var_
  | int_ | char_ | boolean_ | void_
  | true_ | false_ | null_ | this_
  | let_ | do_ | if_ | else_ | while_ | return_
deriving DecidableEq

namespace Keyword

def all : List Keyword :=
  [class_, constructor_, function_, method_, field_, static_, var_,
    int_, char_, boolean_, void_,
    true_, false_, null_, this_,
    let_, do_, if_, else_, while_, return_]

def text : Keyword → String
  | class_ => "class"
  | constructor_ => "constructor"
  | function_ => "function"
  | method_ => "method"
  | field_ => "field"
  | static_ => "static"
  | var_ => "var"
  | int_ => "int"
  | char_ => "char"
  | boolean_ => "boolean"
  | void_ => "void"
  | true_ => "true"
  | false_ => "false"
  | null_ => "null"
  | this_ => "this"
  | let_ => "let"
  | do_ => "do"
  | if_ => "if"
  | else_ => "else"
  | while_ => "while"
  | return_ => "return"

def ofText? (text : String) : Option Keyword :=
  all.find? (·.text = text)

theorem ofText?_text (k : Keyword) : ofText? k.text = some k := by
  cases k <;> decide +kernel

end Keyword

/-- Punctuation. -/
inductive Symbol where
  | leftBrace | rightBrace | leftParen | rightParen | leftBracket | rightBracket
  | dot | comma | semicolon
  | plus | minus | star | slash | amp | pipe | less | greater | equal | tilde
deriving DecidableEq

namespace Symbol

def all : List Symbol :=
  [leftBrace, rightBrace, leftParen, rightParen, leftBracket, rightBracket,
    dot, comma, semicolon,
    plus, minus, star, slash, amp, pipe, less, greater, equal, tilde]

def char : Symbol → Char
  | leftBrace => '\x7b'
  | rightBrace => '\x7d'
  | leftParen => '('
  | rightParen => ')'
  | leftBracket => '['
  | rightBracket => ']'
  | dot => '.'
  | comma => ','
  | semicolon => ';'
  | plus => '+'
  | minus => '-'
  | star => '*'
  | slash => '/'
  | amp => '&'
  | pipe => '|'
  | less => '<'
  | greater => '>'
  | equal => '='
  | tilde => '~'

def ofChar? (c : Char) : Option Symbol :=
  all.find? (·.char = c)

theorem ofChar?_char (s : Symbol) : ofChar? s.char = some s := by
  cases s <;> rfl

end Symbol

/-- What a token is, apart from where it stands and how it was spelled. -/
inductive TokenKind where
  | keyword (word : Keyword)
  | symbol (mark : Symbol)
  | identifier
  | integer (value : Nat)
  | string
  | endOfFile
deriving DecidableEq

namespace TokenKind

/-- The kind as a noun. -/
def className : TokenKind → String
  | keyword _ => "keyword"
  | symbol _ => "symbol"
  | identifier => "identifier"
  | integer _ => "integer constant"
  | string => "string constant"
  | endOfFile => "end-of-file"

/-- The spelling of a kind that has only one, and the noun for the others. -/
def text : TokenKind → String
  | keyword word => word.text
  | symbol mark => mark.char.toString
  | integer value => toString value
  | kind => kind.className

end TokenKind

/-- A token with the text it covers. The quotes around a string constant are outside of its text
and of its span. -/
structure Token where
  kind : TokenKind
  text : String
  span : Span
deriving DecidableEq

/-- The end of a text of `length` bytes. -/
def Token.endAt (length : Nat) : Token :=
  ⟨.endOfFile, "", ⟨length, 0⟩⟩

end JackCompiler
