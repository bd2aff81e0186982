import SimplexBasis.Compressed

/-!
# Substitution

Solves with a triangular matrix given by its lines off the diagonal. `scatter` takes the lines as
columns and moves each entry of the solution to the entries that depend on it; `gather` takes them
as rows and collects each entry from the entries it depends on. The diagonal is one or given by its
reciprocals. Both count their operations.
-/

namespace SimplexBasis.Substitution

variable {α : Type} [Scalar α]

def inverse? (inverses : Option (Array α)) (k : Nat) : Checked (Option α) :=
  match inverses with
  | none => .ok none
  | some xs => return some (← entry xs k)

/-- Solve for entry `k` and subtract its column, unless the entry is zero. -/
def scatterStage (c : Compressed α) (inverses : Option (Array α)) :
    Array α × Nat → Nat → Checked (Array α × Nat)
  | (xs, flops), k => do
    let x ← entry xs k
    if x == 0 then return (xs, flops)
    let (x, scaled) := match ← inverse? inverses k with
      | none => (x, 0)
      | some inverse => (x * inverse, 1)
    let line ← c.line k
    let xs ← line.foldlM (fun xs (i, a) => do withEntry xs i ((← entry xs i) - a * x))
      (xs.setIfInBounds k x)
    return (xs, flops + scaled + line.length)

/-- Solve by columns, for the entries in the given order. -/
def scatter (c : Compressed α) (inverses : Option (Array α)) (order : List Nat) (xs : Array α) :
    Checked (Array α × Nat) :=
  order.foldlM (scatterStage c inverses) (xs, 0)

/-- Solve for entry `k` from the entries of its row. -/
def gatherStage (c : Compressed α) (inverses : Option (Array α)) :
    Array α × Nat → Nat → Checked (Array α × Nat)
  | (xs, flops), k => do
    let line ← c.line k
    let x ← line.foldlM (fun x (i, a) => return x - a * (← entry xs i)) (← entry xs k)
    let x := match ← inverse? inverses k with
      | none => x
      | some inverse => x * inverse
    return (← withEntry xs k x, flops + line.length)

def gather (c : Compressed α) (inverses : Option (Array α)) (order : List Nat) (xs : Array α) :
    Checked (Array α × Nat) :=
  order.foldlM (gatherStage c inverses) (xs, 0)

end SimplexBasis.Substitution
