import SimplexBasis.Engine

/-!
# Recovery

The factorization of a basis by the engine that suits its dimension, repeated until it succeeds:
columns of a singular basis are replaced by slacks, and areas that are too small are enlarged.
-/

namespace SimplexBasis

/-- A factorization that chooses its engine. -/
structure BasisFactorization (α : Type) where
  options : Options α
  engine : Engine α

/-- What a successful factorization took. -/
structure FactorSummary where
  /-- The number of factorizations, the last one included. -/
  attempts : Nat
  /-- Columns replaced by slacks, with the rows of the slacks. -/
  replaced : List (Nat × Nat)
  dense : Bool
  deriving DecidableEq, Repr

structure FactorReport where
  result : Except Status FactorSummary
  /-- The variables of the columns. -/
  sequence : Array Nat
  /-- The variables of the positions. -/
  heading : Array Nat

/-- A basis between two attempts. -/
structure Trial (α : Type) where
  basis : BasisMatrix α
  sequence : Array Nat
  replaced : List (Nat × Nat)
  /-- Why the attempt before this one failed. -/
  last : Status

namespace BasisFactorization

variable {α β : Type} [Scalar α]

def new (options : Options α) : BasisFactorization α := ⟨options, .sparse (.new options)⟩

def onEngine (act : Action (Engine α) β) : Action (BasisFactorization α) β
  | ⟨options, engine⟩ =>
    match act engine with
    | .ok x engine => .ok x ⟨options, engine⟩
    | .error e engine => .error e ⟨options, engine⟩

/-- The engine for bases of dimension `n`. An engine of the right kind stays as it is. -/
def engineFor (b : BasisFactorization α) (n : Nat) : Engine α :=
  let dense : Bool := n ≤ b.options.denseDimensionLimit
  if b.engine.isDense == dense then b.engine
  else
    let fresh : Engine α := if dense then .dense (.new b.options) else .sparse (.new b.options)
    fresh.withJournal b.engine.journal

/-- Enlarge the areas a little after a factorization that compressed its files often. -/
def easeCompressions (target : String) : Action (BasisFactorization α) Unit := do
  match (← get).engine with
  | .dense _ => pure ()
  | .sparse s =>
    let compressions := s.compressions
    if 10 < compressions then
      onEngine (Engine.log .debug target s!"{compressions} compressions")
      onEngine (Engine.growAreas 1.1)

def enlargeAreas (target : String) : Action (BasisFactorization α) Unit := do
  if !(← get).engine.isDense then
    onEngine (Engine.log .warn target "working area too small")
    onEngine (Engine.growAreas (← get).options.growthFactor)

/-- Attempt number `attempt`, with so many `remaining` besides it. -/
def attemptFrom (context : Context α) (offset : Nat) (heading : Array Nat) :
    Nat → Nat → Trial α → Action (BasisFactorization α) FactorReport
  | 0, _, trial => do
    let retries := (← get).options.maxRetries
    onEngine (Engine.log .warn context.target s!"factorization failed after {retries} attempts")
    return ⟨.error trial.last, trial.sequence, heading⟩
  | remaining + 1, attempt, trial => do
    onEngine (Engine.allocate trial.basis.dimension 0 0)
    onEngine (Engine.load trial.basis)
    match ← Action.attempt (onEngine (Engine.factor context)) with
    | .ok () =>
      let heading ← onEngine (Engine.assign trial.sequence heading)
      easeCompressions context.target
      let summary := ⟨attempt, trial.replaced, (← get).engine.isDense⟩
      return ⟨.ok summary, trial.sequence, heading⟩
    | .error (.status .outOfMemory) =>
      enlargeAreas context.target
      attemptFrom context offset heading remaining (attempt + 1)
        { trial with last := .outOfMemory }
    | .error (.status .singular) =>
      let pairs := (← get).engine.slackPairs
      let sequence ← relabel trial.sequence pairs offset
      if pairs.isEmpty then return ⟨.error .singular, sequence, heading⟩
      let count := pairs.length
      onEngine (Engine.log .warn context.target s!"replaced {count} basis columns by slacks")
      let basis ← trial.basis.withSlacks pairs (← get).options.slackValue
      attemptFrom context offset heading remaining (attempt + 1)
        ⟨basis, sequence, trial.replaced ++ pairs, .singular⟩
    | .error (.status status) => return ⟨.error status, trial.sequence, heading⟩
    | .error e => throw e

/-- Factorize a basis. `sequence` holds the variables of its columns; the variables of the positions
are written to `heading`. Slack variables are numbered from `offset` on by their rows. -/
def factorize (b : BasisMatrix α) (sequence heading : Array Nat) (offset : Nat)
    (context : Context α) : Action (BasisFactorization α) FactorReport := do
  let n := b.dimension
  Action.require (sequence.size == n && heading.size == n) .lengthMismatch
  modify fun f => { f with engine := f.engineFor n }
  let attempts := max (← get).options.maxRetries 1
  attemptFrom context offset heading attempts 1 ⟨b, sequence, [], .invalidCall⟩

end BasisFactorization

end SimplexBasis
