import JackCompiler.Scopes
import JackCompiler.Text.Quoted
import JackCompiler.Text.Utf8
import JackCompiler.Token.Basic

/-!
What can go wrong, and how it is reported. Each kind of failure keeps its cause; the wording is in
one `message` function per kind.
-/

namespace JackCompiler

/-- Text that is no token. Each error names the line on which the token or comment starts. -/
inductive LexicalError where
  | unknownCharacter (char : Char) (line : Nat)
  | malformedWord (fragment : String) (line : Nat)
  | integerOverflow (fragment : String) (line : Nat)
  | unterminatedString (line : Nat)
  | unterminatedComment (line : Nat)
deriving DecidableEq

namespace LexicalError

def line : LexicalError → Nat
  | unknownCharacter _ line | malformedWord _ line | integerOverflow _ line => line
  | unterminatedString line | unterminatedComment line => line

def detail : LexicalError → String
  | unknownCharacter char _ => "unknown character " ++ Quoted.char char
  | malformedWord fragment _ => "the token '" ++ fragment ++ "' doesn't have a matching type"
  | integerOverflow fragment _ =>
    "integer constant " ++ fragment ++ " is out of range 0..=" ++ toString maxInteger
  | unterminatedString _ => "unterminated string constant"
  | unterminatedComment _ => "unterminated block comment"

def message (error : LexicalError) : String :=
  "lexical error at line " ++ toString error.line ++ ": " ++ error.detail

end LexicalError

/-- Why a token is not acceptable where it stands. -/
inductive SyntaxFault where
  | unexpected (expected : String) (found : TokenKind) (text : String)
  | tooManyDeclarations (kind : VariableKind)
  | tooManyArguments
  | callTooWide (callee : String)
  | unstorableCharacter (char : Char)
  | stringTooLong
deriving DecidableEq

namespace SyntaxFault

/-- A token as it is named when it was not expected. -/
def foundText (found : TokenKind) (text : String) : String :=
  match found with
  | .endOfFile => "end-of-file"
  | .identifier | .string => found.className ++ " '" ++ text ++ "'"
  | _ => "'" ++ found.text ++ "'"

def message : SyntaxFault → String
  | unexpected expected found text =>
    "expected " ++ expected ++ ", found " ++ foundText found text
  | tooManyDeclarations kind =>
    "more than " ++ toString maxInteger ++ " " ++ kind.text ++ " declarations"
  | tooManyArguments => "more than " ++ toString maxInteger ++ " arguments"
  | callTooWide callee =>
    "call to " ++ callee ++ " has more than " ++ toString maxInteger ++ " arguments"
  | unstorableCharacter char =>
    "character " ++ Quoted.char char ++ " can't be stored in a string"
  | stringTooLong =>
    "string constant is longer than " ++ toString maxInteger ++ " characters"

end SyntaxFault

/-- A fault and the token it is found at. -/
structure Refusal where
  fault : SyntaxFault
  token : Token
deriving DecidableEq

/-- A message about a place in the text, with the line to show below it. -/
structure SyntaxError where
  span : Span
  line : Nat
  column : Nat
  detail : String
  excerpt : String
deriving DecidableEq

namespace SyntaxError

/-- The text without the line breaks at its end. -/
def trimLineBreaks (text : String) : String :=
  String.ofList (text.toList.reverse.dropWhile isLineBreak).reverse

def locate (source : String) (span : Span) (detail : String) : SyntaxError where
  span := span
  line := span.lineNumber source
  column := span.column source
  detail := detail
  excerpt := trimLineBreaks (span.surroundingLine source).1

/-- The message, the line it is about, and carets below the span: as many as it has bytes, and one
for an empty span. -/
def message (error : SyntaxError) : String :=
  "syntax error at line " ++ toString error.line ++ ": " ++ error.detail ++ "\n    " ++
    error.excerpt ++ "\n    " ++ String.ofList (List.replicate error.column ' ') ++
    String.ofList (List.replicate (max error.span.size 1) '^')

end SyntaxError

/-- Failures of a file or of an output. -/
inductive IoFault where
  | deviceFull
  | flushFailed
  | system (description : String) (code : Nat)
deriving DecidableEq

namespace IoFault

def isDirectory : IoFault := system "Is a directory" 21

def notFound : IoFault := system "No such file or directory" 2

def message : IoFault → String
  | deviceFull => "device full"
  | flushFailed => "flush failed"
  | system description code => description ++ " (os error " ++ toString code ++ ")"

end IoFault

/-- Why no code was produced. -/
inductive Diagnostic where
  | lexical (error : LexicalError)
  | grammatical (error : SyntaxError)
  | undefinedName (name : String) (line : Nat)
  | io (fault : IoFault)
  | encoding (fault : Utf8.Fault)
deriving DecidableEq

namespace Diagnostic

def message : Diagnostic → String
  | lexical error => error.message
  | grammatical error => error.message
  | undefinedName name line => "line " ++ toString line ++ ": undefined symbol '" ++ name ++ "'"
  | io fault => "resource error: " ++ fault.message
  | encoding fault => "source is not valid UTF-8: " ++ fault.message

end Diagnostic

end JackCompiler
