/-! A cause of failure together with the source line it is reported at. -/
namespace Tacit

structure Located (Cause : Type) where
  cause : Cause
  line : Nat
  deriving DecidableEq

variable {Cause α : Type}

def Located.report (describe : Cause → String) (failure : Located Cause) : String :=
  s!"Error on line {failure.line}: {describe failure.cause}"

def atLine (line : Nat) (outcome : Except Cause α) : Except (Located Cause) α :=
  outcome.mapError (⟨·, line⟩)

end Tacit
