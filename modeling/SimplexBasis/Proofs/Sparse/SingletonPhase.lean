import SimplexBasis.Proofs.Sparse.SlackColumns

/-!
# The singleton phase

The phase takes every singleton that is large enough, and those that they leave behind, in whichever
order the stacks yield them. It changes no entry that it leaves.
-/

set_option linter.unusedSectionVars false

namespace SimplexBasis.SparseFactorization

variable {α : Type} [Scalar α] {s t : SparseFactorization α} {m : Nat} {stages : List (Stage α)}
  {v w : ActiveView α}

end SimplexBasis.SparseFactorization
