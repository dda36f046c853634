/-!
Log records, and from which importance on a log is kept.
-/

namespace JackCompiler

inductive Level where
  | error | warn | info | debug | trace
deriving DecidableEq

/-- Less important levels have higher ranks. -/
def Level.rank : Level → Nat
  | error => 1
  | warn => 2
  | info => 3
  | debug => 4
  | trace => 5

/-- The highest rank that is kept. -/
structure Verbosity where
  rank : Nat
deriving DecidableEq

namespace Verbosity

def upTo (level : Level) : Verbosity :=
  ⟨level.rank⟩

def silent : Verbosity :=
  ⟨0⟩

end Verbosity

structure LogRecord where
  level : Level
  /-- The part of the program that speaks. -/
  target : String
  message : String
deriving DecidableEq

end JackCompiler
