import SimplexBasis.Sparse.State
import SimplexBasis.SparseVector
import SimplexBasis.Triangular.Reach
import SimplexBasis.Triangular.Substitution

/-!
# Solving

Solves with the factorized basis (`ftran`) and with its transpose (`btran`). A right-hand side is
gathered from rows into stages, solved with both factors and scattered back to rows; the etas of
column replacements act on rows. A right-hand side with few nonzeros is solved on the reach of its
pattern, any other one by a pass over all stages.
-/

namespace SimplexBasis

variable {α : Type} [Scalar α]

namespace Workspace

/-- Move the values of a vector to the stages of their rows. Answers the emptied vector, the
workspace and the stages that hold a nonzero. -/
def gather (f : Factors α) (v : SparseVector α) (w : Workspace α) :
    Checked (SparseVector α × Workspace α × List Nat) := do
  let (elements, values, stages) ← v.indices.toList.foldlM
    (fun (elements, values, stages) i => do
      let x ← entry elements i
      let elements := elements.setIfInBounds i 0
      match ← entry f.stageOfRow i with
      | some k =>
        if x != 0 then return (elements, ← withEntry values k x, k :: stages)
        else return (elements, values, stages)
      | none => return (elements, values, stages))
    (v.elements, w.values, [])
  return ({ v with elements := elements, indices := #[] }, { w with values := values },
    stages.reverse)

/-- Move the values of the given stages back to the rows of a vector, and clear them. -/
def scatter (f : Factors α) (order : List Nat) (v : SparseVector α) (w : Workspace α) :
    Checked (SparseVector α × Workspace α) := do
  let (v, values) ← order.foldlM (fun (v, values) k => do
    let x ← entry values k
    let values := values.setIfInBounds k 0
    if x != 0 then
      let i ← entry f.pivotRows k
      let elements ← withEntry v.elements i x
      return ({ v with elements := elements, indices := v.indices.push i }, values)
    else return (v, values)) (v, w.values)
  return (v, { w with values := values })

def reach (graph : Compressed α) (roots : List Nat) (w : Workspace α) :
    Checked (List Nat × Workspace α) := do
  let w := w.nextMarker
  let r ← Reach.addRoots graph w.marker ⟨w.pattern, w.resume, w.marked, 0, w.pattern.size⟩ roots
  return (r.order, { w with pattern := r.pattern, resume := r.resume, marked := r.marked })

def nonzeroStages (w : Workspace α) (order : List Nat) : Checked (List Nat) :=
  order.filterM fun k => return (← entry w.values k) != 0

end Workspace

/-- What a solve in the factors leaves: the vector, the workspace, and the operations in the lower
and in the upper factor. -/
structure Solved (α : Type) where
  vector : SparseVector α
  workspace : Workspace α
  lowerFlops : Nat
  upperFlops : Nat

namespace Factors

/-- Solve with the factors on the reach of the right-hand side. -/
def ftranSparse (f : Factors α) (t : Transposes α) (v : SparseVector α) (w : Workspace α) :
    Checked (Solved α) := do
  let (v, w, roots) ← w.gather f v
  let (order, w) ← w.reach f.lower roots
  let (values, lowerFlops) ← Substitution.scatter f.lower none order w.values
  let w := { w with values := values }
  let (order, w) ← w.reach t.upperCols (← w.nonzeroStages order)
  let (values, upperFlops) ← Substitution.scatter t.upperCols (some f.inverses) order w.values
  let (v, w) ← Workspace.scatter f order v { w with values := values }
  return ⟨v, w, lowerFlops, upperFlops⟩

/-- Solve with the factors by passes over all stages. -/
def ftranDense (f : Factors α) (m : Nat) (v : SparseVector α) (w : Workspace α) :
    Checked (Solved α) := do
  let (v, w, _) ← w.gather f v
  let stages := List.range m
  let (values, lowerFlops) ← Substitution.scatter f.lower none stages w.values
  let (values, upperFlops) ←
    Substitution.gather f.upper (some f.inverses) stages.reverse values
  let (v, w) ← Workspace.scatter f stages v { w with values := values }
  return ⟨v, w, lowerFlops, upperFlops⟩

def btranSparse (f : Factors α) (t : Transposes α) (v : SparseVector α) (w : Workspace α) :
    Checked (Solved α) := do
  let (v, w, roots) ← w.gather f v
  let (order, w) ← w.reach f.upper roots
  let (values, upperFlops) ← Substitution.scatter f.upper (some f.inverses) order w.values
  let w := { w with values := values }
  let (order, w) ← w.reach t.lowerRows (← w.nonzeroStages order)
  let (values, lowerFlops) ← Substitution.scatter t.lowerRows none order w.values
  let (v, w) ← Workspace.scatter f order v { w with values := values }
  return ⟨v, w, lowerFlops, upperFlops⟩

def btranDense (f : Factors α) (m : Nat) (v : SparseVector α) (w : Workspace α) :
    Checked (Solved α) := do
  let (v, w, _) ← w.gather f v
  let stages := List.range m
  let (values, upperFlops) ← Substitution.scatter f.upper (some f.inverses) stages w.values
  let (values, lowerFlops) ← Substitution.gather f.lower none stages.reverse values
  let (v, w) ← Workspace.scatter f stages v { w with values := values }
  return ⟨v, w, lowerFlops, upperFlops⟩

end Factors

namespace Etas

/-- Apply eta `e` to an unpacked vector, unless the entry at its row is not stored. -/
def apply (etas : Etas α) : SparseVector α × Nat → Nat → Checked (SparseVector α × Nat)
  | (v, flops), e => do
    let r ← entry etas.rows e
    let xr ← entry v.elements r
    if xr == 0 || xr == SparseVector.placeholder then return (v, flops)
    let line ← etas.lines.line e
    let v ← line.foldlM (fun v (i, a) => do
      let x ← entry v.elements i
      let indices := if x == 0 then v.indices.push i else v.indices
      let kept := SparseVector.stored (x - a * xr)
      return { v with elements := v.elements.setIfInBounds i kept, indices }) v
    let kept := SparseVector.stored (xr * (← entry etas.inverses e))
    let elements ← withEntry v.elements r kept
    return ({ v with elements }, flops + line.length + 1)

def applyTranspose (etas : Etas α) : SparseVector α × Nat → Nat → Checked (SparseVector α × Nat)
  | (v, flops), e => do
    let r ← entry etas.rows e
    let line ← etas.lines.line e
    let dot ← line.foldlM (fun dot (i, a) => return dot + a * (← entry v.elements i)) (0 : α)
    let xr ← entry v.elements r
    let x := xr * (← entry etas.inverses e) - dot
    if xr == 0 && x == 0 then return (v, flops)
    let indices := if xr == 0 then v.indices.push r else v.indices
    return ({ v with elements := v.elements.setIfInBounds r (SparseVector.stored x), indices },
      flops + line.length + 1)

end Etas

namespace SparseFactorization

/-- Refuse a solve unless there are factors and the update region holds what it may; the vector must
have the dimension of the basis. -/
def checkSolvable (v : SparseVector α) : Action (SparseFactorization α) Unit := do
  let s ← get
  if s.phase ≠ .factorized then Action.fail .invalidCall
  if s.options.maxPivotsBeforeRefactor < s.pivots ∨ s.capacity.etas < s.etas.lines.count then
    Action.fail .updateOverflow
  Action.require (v.dimension == s.dimension) .lengthMismatch

/-- The transposed factors, if a right-hand side with so many nonzeros is solved on its reach. -/
def transposesFor (s : SparseFactorization α) (count : Nat) : Option (Transposes α) :=
  if count ≤ s.sparseThreshold then s.factors.transposes else none

/-- Solve in the factors: on the reach with the transposed factors, if there are any, and by passes
otherwise. -/
def solveFactors (transposes : Option (Transposes α)) (v : SparseVector α)
    (onReach : Factors α → Transposes α → SparseVector α → Workspace α → Checked (Solved α))
    (byPasses : Factors α → Nat → SparseVector α → Workspace α → Checked (Solved α)) :
    Action (SparseFactorization α) (SparseVector α) := do
  let s ← get
  let solved ← (match transposes with
    | some t => onReach s.factors t v s.workspace
    | none => byPasses s.factors s.dimension v s.workspace : Checked (Solved α))
  updateWorkspace fun _ => solved.workspace
  updateCounters fun c => { c with
    lowerFlops := c.lowerFlops + solved.lowerFlops
    upperFlops := c.upperFlops + solved.upperFlops
    sparseSolves := c.sparseSolves + if transposes.isSome then 1 else 0 }
  return solved.vector

def countEtaFlops (flops : Nat) : Action (SparseFactorization α) Unit :=
  updateCounters fun c => { c with etaFlops := c.etaFlops + flops }

/-- A solution without the entries below the zero tolerance, in the mode of the right-hand side, and
the number of its entries. -/
def finish (v : SparseVector α) (packed : Bool) :
    Action (SparseFactorization α) (SparseVector α × Nat) := do
  let cleaned := v.clean (← get).options.zeroTolerance
  return (← if packed then cleaned.pack else .ok cleaned, cleaned.count)

def ftran (v : SparseVector α) : Action (SparseFactorization α) (SparseVector α × Nat) := do
  checkSolvable v
  let packed := v.packed
  let v := v.unpack
  let transposes := (← get).transposesFor v.count
  let v ← solveFactors transposes v Factors.ftranSparse Factors.ftranDense
  let etas := (← get).etas
  let (v, flops) ← ((List.range etas.rows.size).foldlM etas.apply (v, 0) : Checked _)
  countEtaFlops flops
  finish v packed

def btran (v : SparseVector α) : Action (SparseFactorization α) (SparseVector α × Nat) := do
  checkSolvable v
  let packed := v.packed
  let etas := (← get).etas
  let (v, flops) ←
    ((List.range etas.rows.size).reverse.foldlM etas.applyTranspose (v.unpack, 0) : Checked _)
  countEtaFlops flops
  let v := { v with indices := v.indices.filter fun i => v.elements.getD i 0 != 0 }
  let transposes := (← get).transposesFor v.count
  let v ← solveFactors transposes v Factors.btranSparse Factors.btranDense
  finish v packed

end SparseFactorization

end SimplexBasis
