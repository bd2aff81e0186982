import SimplexBasis.Proofs.Sparse.Calls
import SimplexBasis.Proofs.Sparse.Loading

/-!
# Outcomes

The factorizations of a basis have one outcome, whatever areas they are given. The course of the
pivots leads all of them to the same point, the loop closes there in the same way, and what it leaves
is the same. The areas decide only whether a factorization gets that far: one that runs out of space
has made the first pivots of the others.
-/

set_option linter.unusedSectionVars false

namespace SimplexBasis

variable {α : Type} [Scalar α] {s t u : SparseFactorization α} {m : Nat} {b : BasisMatrix α}
  {columns : List (List (Nat × α))} {ρ : Rules α} {p q : Point α}

/-- How a factorization ends: the status that it fails with, if any, and what it has found. -/
structure Ending (α : Type) where
  failure : Option Status
  found : Factors α × Tallies

def Ending.pivots (e : Ending α) : List (Nat × Nat) :=
  e.found.1.pivotRows.toList.zip e.found.1.pivotCols.toList

/-- The endings of factorizations that differ in nothing but their areas. -/
structure Ending.Agrees (e e' : Ending α) : Prop where
  same : e.failure ≠ some .outOfMemory → e'.failure ≠ some .outOfMemory → e = e'
  before : e.failure = some .outOfMemory → e'.failure ≠ some .outOfMemory → e.pivots <+: e'.pivots
  behind : e.failure ≠ some .outOfMemory → e'.failure = some .outOfMemory → e'.pivots <+: e.pivots

/-- What factorizations come to that have the space: all stages, and what is counted. -/
structure Outcome (α : Type) where
  stages : List (Stage α)
  tallies : Tallies

namespace Outcome

variable {o : Outcome α} {e e' : Ending α}

def ending (o : Outcome α) (m : Nat) : Ending α :=
  if m ≤ o.stages.length then ⟨none, .numbered m o.stages, o.tallies⟩
  else ⟨some .singular, .ofStages m o.stages, o.tallies⟩

/-- A factorization with the outcome may end so. -/
def Covers (o : Outcome α) (m : Nat) (e : Ending α) : Prop :=
  e = o.ending m ∨ e.failure = some .outOfMemory ∧
    ∃ between, between <+: o.stages ∧ e.found.1 = .ofStages m between

theorem pivots_of_records {stages : List (Stage α)} (h : SparseFactorization.Records e.found.1 m stages) :
    e.pivots = stages.map fun st => (st.row, st.col) := by
  rw [Ending.pivots, h.rows, h.cols, List.zip_map']

theorem pivots_ending : (o.ending m).pivots = o.stages.map fun st => (st.row, st.col) := by
  refine pivots_of_records (m := m) ?_
  unfold ending
  split
  · exact SparseFactorization.records_numbered m _
  · exact SparseFactorization.records_ofStages m _

theorem Covers.eq_ending (h : o.Covers m e) (space : e.failure ≠ some .outOfMemory) :
    e = o.ending m := h.resolve_right fun short => space short.1

theorem Covers.pivots_prefix (h : o.Covers m e) : e.pivots <+: (o.ending m).pivots := by
  rcases h with rfl | ⟨-, between, low, factors⟩
  · exact List.prefix_rfl
  · have records : SparseFactorization.Records e.found.1 m between :=
      factors ▸ SparseFactorization.records_ofStages m between
    rw [pivots_of_records records, pivots_ending]
    exact low.map _

theorem Covers.agrees (h : o.Covers m e) (h' : o.Covers m e') : e.Agrees e' where
  same space space' := (h.eq_ending space).trans (h'.eq_ending space').symm
  before _ space' := h'.eq_ending space' ▸ h.pivots_prefix
  behind space _ := h.eq_ending space ▸ h'.pivots_prefix

end Outcome

namespace SparseFactorization

variable {o : Outcome α} {P : Ending α → Prop} {e : Ending α}
  {run : EStateM.Result Stop (SparseFactorization α) Unit}

/-- The run breaks no contract, and its ending satisfies `P`. -/
def Comes (P : Ending α → Prop) (run : EStateM.Result Stop (SparseFactorization α) Unit) : Prop :=
  Ends (fun _ t => P ⟨none, t.found⟩) (fun status t => P ⟨some status, t.found⟩) run

theorem Comes.exists_ending (h : Comes P run) : ∃ e, Comes (· = e) run ∧ P e := by
  cases run with
  | ok x t => exact ⟨_, rfl, h⟩
  | error stop t =>
    cases stop with
    | status status => exact ⟨_, rfl, h⟩
    | breach b => exact h.elim

theorem Comes.result {u : Unit} (h : Comes P run) (ok : run = .ok u t) : P ⟨none, t.found⟩ :=
  Ends.result h ok

theorem Comes.failure {status : Status} (h : Comes P run) (failed : run = .error (.status status) t) :
    P ⟨some status, t.found⟩ := Ends.failure h failed

theorem Comes.conclude {act : Action (SparseFactorization α) Unit} (h : Comes P (act s)) :
    Comes P ((Action.attempt act >>= conclude) s) :=
  Ends.conclude h (fun _ _ => id) fun _ _ _ => id

/-! ### From the course to the outcome -/

/-- What the rest of the loop leaves depends on the point at which the loop closes. -/
theorem Closing.exists_outcome [LawfulCounts α] {rest : Action (SparseFactorization α) Unit}
    (h : Closing ρ m q rest) (triangular : Triangular m q.stages) :
    ∃ o : Outcome α, q.stages <+: o.stages ∧ Triangular m o.stages ∧ ∀ t, At ρ m q t →
      Ends (fun _ u => u.setup = t.setup ∧ u.found = (.ofStages m o.stages, o.tallies))
        (Stuck t m q.stages) (rest t) := by
  obtain ⟨rfl, -⟩ | ⟨rfl, due⟩ := h
  · exact ⟨⟨q.stages, q.tallies⟩, List.prefix_rfl, triangular, fun t there =>
      ⟨rfl, Prod.ext there.working.factors there.tallies⟩⟩
  · -- The block is gathered from the view, so that all states at the point eliminate the same one.
    obtain ⟨block, blocked⟩ := exists_blocked q.view (leftOf m (q.stages.map Stage.row))
      (leftOf m (q.stages.map Stage.col))
    refine ⟨⟨q.stages ++ blockStages block _ _ ρ.options.zeroTolerance,
      { q.tallies with denseSize := m - q.stages.length }⟩, List.prefix_append ..,
      blocked.triangular triangular, fun t there => ?_⟩
    refine (there.working.factorizeBlock triangular (there.small_of_dense due)).mono ?_ fun _ _ => id
    rintro _ u ⟨⟨setup, -, -, block', blocked', factors⟩, range, flops, counters⟩
    cases blocked.unique blocked'
    refine ⟨setup, Prod.ext ?_ ?_⟩
    · rw [← there.zeroTolerance]
      exact factors
    · rw [← there.tallies]
      change u.tallies = _
      unfold tallies
      rw [counters]

theorem factorizeLoaded_outcome [LawfulCounts α] (triangular : Triangular m p.stages) :
    ∃ o : Outcome α, p.stages <+: o.stages ∧
      ∀ s, At ρ m p s → Comes (o.Covers m) (factorizeLoaded s) := by
  obtain ⟨q, rest, leads, closing⟩ := @factorizeLoaded_leads _ _ m ρ p
  obtain ⟨more, eq, chain⟩ := leads.onward
  obtain ⟨o, low, whole, ends_⟩ := closing.exists_outcome (eq ▸ chain.triangular triangular)
  refine ⟨o, leads.onward.prefix.trans low, fun s here => leads.ends_of here ?_ ?_⟩
  · intro t there setup
    refine ((ends_ t there).mono (fun _ _ => id) ?_).bind ?_
    · rintro _ u ⟨rfl, -, -, -, -, factors⟩
      exact .inr ⟨rfl, q.stages, low, factors⟩
    · rintro _ u ⟨same, found⟩
      obtain ⟨factors, tallies⟩ := Prod.mk.inj found
      have run := finishFactors_run factors
        ((dimension_of_setup same).trans there.working.dimension) whole
      rw [run]
      split
      · rename_i enough
        exact .inl (by rw [Outcome.ending, if_pos enough, ← tallies]; rfl)
      · rename_i short
        exact .inl (by rw [Outcome.ending, if_neg short, ← tallies, ← factors]; rfl)
  · rintro between t - high ⟨-, -, -, -, -, factors⟩
    exact .inr ⟨rfl, between, high.trans low, factors⟩

/-! ### From the basis to the outcome -/

/-- Once a basis is loaded, its slack columns are pivoted, or space has run out before. -/
theorem load_course (holds : b.Holds columns) (o : Options α) :
    ∃ q : Point α, Triangular b.dimension q.stages ∧ ∀ s, Prepared s → s.Spacious b →
      s.options.apartFromAreas = o → EndsOr (fun _ => True)
        (fun _ t =>
          (t.pending = none ∧ t.phase = .loaded ∧ ∃ ρ : Rules α, ρ.options = o ∧ At ρ b.dimension q t) ∨
          t.pending = some .outOfMemory ∧
            ∃ between, between <+: q.stages ∧ t.factors = .ofStages b.dimension between)
        (fun _ _ => False) (load b s) := by
  obtain ⟨q, leads⟩ := @pivotSlacks_leads _ _ b.dimension o
    ⟨[], .loaded b.dimension columns, ⟨0, 0, 0, 0, 0⟩⟩
  obtain ⟨more, eq, chain⟩ := (leads ⟨o, 0, 0⟩ rfl).onward
  refine ⟨q, eq ▸ chain.triangular .nil, fun s prepared spacious alike => ?_⟩
  refine load_by_filling prepared holds spacious (fun _ => trivial) ?_ ?_
  · exact fun t _ _ _ _ factors pending => .inr ⟨pending, [], List.nil_prefix, factors⟩
  · intro u options areas filled
    have rules : u.rules.options = o := by rw [← alike, ← options]; rfl
    have here : At u.rules b.dimension ⟨[], .loaded b.dimension columns, ⟨0, 0, 0, 0, 0⟩⟩ u :=
      ⟨filled.working options areas spacious, rfl, filled.tallies⟩
    have slacks := (leads u.rules rules).ends_of (Q := fun _ t => At u.rules b.dimension q t ∧
        t.setup = u.setup) (E := fun e t => e = .outOfMemory ∧
          ∃ between, between <+: q.stages ∧ t.factors = .ofStages b.dimension between)
      here (fun t there setup => ⟨there, setup⟩)
      fun between t _ high stuck => ⟨rfl, between, high, stuck.2.2.2.2.2⟩
    refine (orPending_ends slacks).mono ?_ fun _ _ => id
    rintro _ t (⟨-, there, setup⟩ | ⟨-, e, u', ⟨rfl, between, high, factors⟩, rfl⟩)
    · exact .inl ⟨(congrArg (·.pending) setup).trans filled.pending,
        (congrArg (·.phase) setup).trans filled.phase, u.rules, rules, there⟩
    · exact .inr ⟨rfl, between, high, factors⟩

/-- The rules of a factorization with the given options. -/
def rulesOf (o : Options α) (context : Context α) : Rules α :=
  ⟨o, o.absolutePivotTolerance,
    Scalar.clamp (context.pivotTolerance o.pivotShare) Scalar.minPositive 1⟩

theorem At.begun (h : At ρ m p s) (context : Context α) :
    At (rulesOf ρ.options context) m p (s.begun context) :=
  ⟨h.working.begun context, by rw [← h.options]; rfl, h.tallies⟩

/-- The factorizations of a basis have one outcome, whatever areas they are given. -/
theorem factor_outcome [LawfulCounts α] (holds : b.Holds columns) (o : Options α)
    (context : Context α) : ∃ out : Outcome α, ∀ s t, Prepared s → s.Spacious b →
      s.options.apartFromAreas = o → load b s = .ok () t →
      Comes (out.Covers b.dimension) (factor context t) := by
  obtain ⟨q, triangular, loads⟩ := load_course holds o
  obtain ⟨out, low, ends_⟩ := factorizeLoaded_outcome (ρ := rulesOf o context) triangular
  refine ⟨out, fun s t prepared spacious alike run => ?_⟩
  obtain ⟨pending, phase, ρ, rfl, here⟩ | ⟨pending, between, high, factors⟩ :=
    (loads s prepared spacious alike).result run
  · rw [factor_of_loaded pending phase]
    exact (ends_ _ (here.begun context)).conclude
  · rw [factor_of_pending pending]
    exact .inr ⟨rfl, between, high.trans low, factors⟩

end SparseFactorization

end SimplexBasis
