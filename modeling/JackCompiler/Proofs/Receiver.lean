import JackCompiler.Proofs.Storage
import JackCompiler.Proofs.SinglePassTrees

/-!
The object that a subroutine works on. A constructor makes it and a method is given it, right after
the function command, and nothing in a body replaces it. It takes the first argument of a method,
before the parameters, under a name that no text can use.
-/

namespace JackCompiler

/-! ### Declarations with the latest first -/

namespace Declaration

end Declaration

namespace Tree

/-- How many arguments of a subroutine come before its parameters. -/
def Subroutine.hiddenArguments (subroutine : Subroutine) : Nat :=
  if subroutine.kind = .method then 1 else 0

/-- The variable of a parameter that has so many others before it. -/
def Subroutine.argument (subroutine : Subroutine) (before : Nat) (parameter : Parameter) :
    Variable :=
  ⟨parameter.type.text, .argument, subroutine.hiddenArguments + before⟩

namespace Subroutine

variable {tree : Class} {subroutine : Subroutine}

/-! ### Arguments -/

end Subroutine

end Tree

end JackCompiler
