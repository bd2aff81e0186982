/-!
# Journal

Log records. A factorization collects them in its state; writing them out is left to the caller.
-/

namespace SimplexBasis

inductive Level where
  | warn
  | debug
  | trace
  deriving DecidableEq, Repr

structure Record where
  level : Level
  target : String
  message : String
  deriving DecidableEq, Repr

/-- The target used until a caller names another. -/
def defaultTarget : String := "basis_lu"

/-- What a caller adds to a factorization: where to log, and which pivot tolerance to use. -/
structure Context (α : Type) where
  target : String
  /-- The pivot tolerance to use instead of the configured one. -/
  pivotTolerance : α → α

namespace Context

def standard {α : Type} : Context α := ⟨defaultTarget, id⟩

end Context

end SimplexBasis
