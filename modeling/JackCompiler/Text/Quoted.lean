import JackCompiler.Text.Unprintable

/-!
Characters as they appear in a message: between single quotes, with escapes for the quote itself,
the backslash and four control characters, and with every unprintable character given by its
code point.
-/

namespace JackCompiler.Quoted

/-- The code point in lower-case hexadecimal, without leading zeros. -/
def codePoint (c : Char) : String :=
  "\\u\x7b" ++ String.ofList (Nat.toDigits 16 c.toNat) ++ "\x7d"

def escape (c : Char) : String :=
  if c = '\x00' then "\\0"
  else if c = '\t' then "\\t"
  else if c = '\n' then "\\n"
  else if c = '\r' then "\\r"
  else if c = '\x27' then "\\'"
  else if c = '\\' then "\\\\"
  else if Unprintable.contains c then codePoint c
  else c.toString

def char (c : Char) : String :=
  "'" ++ escape c ++ "'"

end JackCompiler.Quoted
