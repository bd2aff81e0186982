import SimplexBasis.Proofs.Dense.Solutions
import SimplexBasis.Proofs.Sparse.Etas

/-!
# Column replacements of an engine

Behind a factorization that drops nothing, the solves after any number of column replacements answer
the solutions for the basis with these columns overwritten, as a new factorization of that basis
does. A sparse factorization stores no value that counts as noise and keeps no entry that cancels
while etas are applied; neither must occur.
-/

set_option linter.unusedSectionVars false

namespace SimplexBasis

variable {n : Nat}

namespace DenseFactorization

variable {d : DenseFactorization ℚ}

theorem positionOf_of_order_eq {u : DenseFactorization ℚ} (same : u.order = d.order) (j : Nat) :
    u.positionOf j = d.positionOf j := by
  unfold positionOf
  rw [same]

end DenseFactorization

namespace SparseFactorization

variable {s t : SparseFactorization ℚ} {all : List (Stage ℚ)} {columns : List (Overwriting n)}

theorem Updated.of_solvable (h : Updated s all columns) (solvable : Solvable t all)
    (dimension : t.dimension = s.dimension) (options : t.options = s.options)
    (etas : t.etas = s.etas) : Updated t all columns where
  solvable := solvable
  dimension := dimension.trans h.dimension
  exact_ := (congrArg Options.zeroTolerance options).trans h.exact_
  etas := etas ▸ h.etas

theorem Updated.of_lasting (h : Updated s all columns) (solvable : Solvable t all)
    (same : t.lasting = s.lasting) : Updated t all columns :=
  h.of_solvable solvable (dimension_of_lasting same) (options_of_lasting same)
    (etas_of_lasting same)

end SparseFactorization

namespace Engine

variable {A : Matrix (Fin n) (Fin n) ℚ} {π : Fin n ≃ Fin n} {etas changes : List (Overwriting n)}
  {e f g : Engine ℚ} {v : SparseVector ℚ} {r : Fin n}

/-! ### Factors with etas -/

/-- The engine holds factors of a matrix without tolerance, with the columns at the given positions,
and the etas of the given columns. -/
def Carries (A : Matrix (Fin n) (Fin n) ℚ) (π : Fin n ≃ Fin n) (etas : List (Overwriting n)) :
    Engine ℚ → Prop
  | dense d => (∀ j : Fin n, d.positionOf j = .ok (some (π j).val)) ∧
      (∃ x, DenseFactorization.Solvable d x etas ∧ DenseFactorization.positioned n x = A) ∧
      d.options.zeroTolerance = 0
  | sparse s => (∀ j : Fin n, s.factors.positionOf j = .ok (some (π j).val)) ∧
      ∃ all, SparseFactorization.Updated s all etas ∧ s.factors.positioned n = A

namespace Carries

theorem positionOf (h : Carries A π etas e) (j : Fin n) : e.positionOf j = .ok (some (π j).val) := by
  cases e with
  | dense d => exact h.1 j
  | sparse s => exact h.1 j

theorem det_ne_zero (h : Carries A π etas e) : A.det ≠ 0 := by
  cases e with
  | dense d =>
    obtain ⟨-, ⟨x, solvable, rfl⟩, -⟩ := h
    exact solvable.det_positioned_ne_zero
  | sparse s =>
    obtain ⟨-, all, updated, rfl⟩ := h
    obtain rfl := updated.dimension
    exact updated.solvable.complete.det_positioned_ne_zero

section Solves

variable (h : Carries A π etas e) (explains : Explains A changes etas)
  (length : etas.length = changes.length) (consistent : v.Consistent) (dimension : v.dimension = n)
include h explains length consistent dimension

theorem solvesFtran (forward : e.isDense = false → Forward A changes (v.atRows n)) :
    e.SolvesFtran (overwritten A changes) id v := by
  cases e with
  | dense d =>
    obtain ⟨-, ⟨x, solvable, rfl⟩, exact_⟩ := h
    obtain ⟨y, u, z, run, system, answers⟩ := solvable.ftran_run explains length consistent dimension
    rw [exact_, cutBelow_zero] at answers
    exact ⟨y, _, z, dispatch_dense_run run, system, answers⟩
  | sparse s =>
    obtain ⟨-, all, updated, rfl⟩ := h
    obtain ⟨y, u, z, run, system, answers⟩ :=
      updated.ftran_run explains length consistent dimension (forward rfl)
    exact ⟨y, _, z, dispatch_sparse_run run, system, answers⟩

theorem solvesBtran (backward : e.isDense = false →
      ∀ y, (overwritten A changes).transpose.mulVec y = v.atRows n → Backward A changes y) :
    e.SolvesBtran (overwritten A changes) id v := by
  cases e with
  | dense d =>
    obtain ⟨-, ⟨x, solvable, rfl⟩, exact_⟩ := h
    obtain ⟨y, u, z, run, system, answers⟩ := solvable.btran_run explains length consistent dimension
    rw [exact_, cutBelow_zero] at answers
    exact ⟨y, _, z, dispatch_dense_run run, system, answers⟩
  | sparse s =>
    obtain ⟨-, all, updated, rfl⟩ := h
    obtain ⟨y, u, z, run, system, answers⟩ :=
      updated.btran_run explains length consistent dimension (backward rfl)
    exact ⟨y, _, z, dispatch_sparse_run run, system, answers⟩

end Solves

/-! ### Calls -/

variable {x : SparseVector ℚ × Nat}

theorem of_ftran (h : Carries A π etas e) (run : ftran v e = .ok x f) : Carries A π etas f := by
  obtain ⟨d, u, rfl, rfl, ran⟩ | ⟨s, u, rfl, rfl, ran⟩ := dispatch_eq_ok run
  · obtain ⟨positions, ⟨y, solvable, matrix⟩, exact_⟩ := h
    have after := solvable.of_ftran ran
    have same := DenseFactorization.holding_of_ftran solvable.valid (by rw [solvable.order]; rfl) ran
    refine ⟨fun j => ?_, ⟨y, after, matrix⟩,
      (DenseFactorization.zeroTolerance_of_holding same).trans exact_⟩
    rw [DenseFactorization.positionOf_of_order_eq (after.order.trans solvable.order.symm), positions]
  · obtain ⟨positions, all, updated, matrix⟩ := h
    have same := SparseFactorization.lasting_of_ftran ran
    rw [Carries, SparseFactorization.factors_of_lasting same]
    exact ⟨positions, all, updated.of_lasting (updated.solvable.ftran ran) same, matrix⟩

theorem of_btran (h : Carries A π etas e) (run : btran v e = .ok x f) : Carries A π etas f := by
  obtain ⟨d, u, rfl, rfl, ran⟩ | ⟨s, u, rfl, rfl, ran⟩ := dispatch_eq_ok run
  · obtain ⟨positions, ⟨y, solvable, matrix⟩, exact_⟩ := h
    have after := solvable.of_btran ran
    have same := DenseFactorization.holding_of_btran solvable.valid (by rw [solvable.order]; rfl) ran
    refine ⟨fun j => ?_, ⟨y, after, matrix⟩,
      (DenseFactorization.zeroTolerance_of_holding same).trans exact_⟩
    rw [DenseFactorization.positionOf_of_order_eq (after.order.trans solvable.order.symm), positions]
  · obtain ⟨positions, all, updated, matrix⟩ := h
    have same := SparseFactorization.lasting_of_btran ran
    rw [Carries, SparseFactorization.factors_of_lasting same]
    exact ⟨positions, all, updated.of_lasting (updated.solvable.btran ran) same, matrix⟩

/-- An assignment may build the transposed factors, which are not part of the matrix. -/
theorem of_assign {sequence heading vs : Array Nat} (h : Carries A π etas e)
    (run : assign sequence heading e = .ok vs f) : Carries A π etas f := by
  obtain ⟨d, u, rfl, rfl, ran⟩ | ⟨s, u, rfl, rfl, ran⟩ := dispatch_eq_ok run
  · rw [get_bind] at ran
    cases assigned : d.assign sequence heading with
    | ok ws =>
      rw [assigned] at ran
      cases ran
      exact h
    | error b =>
      rw [assigned] at ran
      exact nomatch ran
  · obtain ⟨positions, all, updated, matrix⟩ := h
    have after := updated.solvable.assign ran
    obtain rfl | rfl := updated.solvable.standing.assign_result ran
    · exact ⟨positions, all, updated, matrix⟩
    · exact ⟨positions, all, updated.of_solvable after rfl rfl rfl, matrix⟩

theorem replaceColumn {column : SparseVector ℚ} (h : Carries A π etas e)
    (consistent : column.Consistent) (dimension : column.dimension = n)
    (sizable : e.isDense = false → Sizable (column.atRows n)) (pivot : column.valueOf r ≠ 0)
    (run : replaceColumn column r (column.valueOf r) e = .ok () f) :
    Carries A π (etas ++ [(r, column.atRows n)]) f := by
  obtain ⟨d, u, rfl, rfl, ran⟩ | ⟨s, u, rfl, rfl, ran⟩ := dispatch_eq_ok run
  · obtain ⟨positions, ⟨y, solvable, matrix⟩, exact_⟩ := h
    have after := solvable.replaceColumn consistent ran
    obtain ⟨-, elements, -, stored⟩ :=
      DenseFactorization.replaceColumn_result solvable.valid (by rw [solvable.order]; rfl) ran
    refine ⟨fun j => ?_, ⟨y, after, matrix⟩, stored ▸ exact_⟩
    rw [DenseFactorization.positionOf_of_order_eq (after.order.trans solvable.order.symm), positions]
  · obtain ⟨positions, all, updated, matrix⟩ := h
    obtain ⟨after, same⟩ := updated.replaceColumn consistent dimension (sizable rfl) pivot ran
    rw [Carries, same]
    exact ⟨positions, all, after, matrix⟩

end Carries

theorem isDense_of_dispatch {β : Type} {onDense : Action (DenseFactorization ℚ) β}
    {onSparse : Action (SparseFactorization ℚ) β} {x : β}
    (run : dispatch onDense onSparse e = .ok x f) : f.isDense = e.isDense := by
  obtain ⟨d, u, rfl, rfl, -⟩ | ⟨s, u, rfl, rfl, -⟩ := dispatch_eq_ok run <;> rfl

/-! ### Behind a factorization -/

variable {b : BasisMatrix ℚ}

/-- The engine has just factorized a basis without stored zeros, with nothing to be dropped. -/
inductive Fresh (b : BasisMatrix ℚ) : Engine ℚ → Prop
  | of {f g h e : Engine ℚ} {announced lowerHint upperHint : Nat} {context : Context ℚ}
      (accepted : b.Accepted) (entries : b.NoZeros) (exact_ : f.options.zeroTolerance = 0)
      (spares : f.isDense = false → f.options.SparesWithin b.dimension)
      (allocated : allocate announced lowerHint upperHint f = .ok () g)
      (loaded : load b g = .ok () h) (factored : factor context h = .ok () e) : Fresh b e

theorem Fresh.carries (h : Fresh b e) :
    ∃ π, Carries (b.matrix.submatrix id π.symm) π ([] : List (Overwriting b.dimension)) e := by
  obtain ⟨accepted, entries, exact_, spares, allocated, loaded, factored⟩ := h
  obtain ⟨d, d₁, rfl, rfl, sized⟩ | ⟨s, s₁, rfl, rfl, sized⟩ := dispatch_eq_ok allocated
  · obtain ⟨_, d₂, ⟨⟩, rfl, written⟩ | ⟨_, _, ⟨⟩, -⟩ := dispatch_eq_ok loaded
    obtain ⟨_, t, ⟨⟩, rfl, eliminated⟩ | ⟨_, _, ⟨⟩, -⟩ := dispatch_eq_ok factored
    obtain ⟨options, x, solvable, positioned_⟩ :=
      DenseFactorization.solvable_of_factor accepted exact_.ge sized written eliminated
    exact ⟨_, solvable.positionOf_eq, ⟨x, solvable, positioned_⟩,
      (congrArg Options.zeroTolerance options).trans exact_⟩
  · obtain ⟨_, _, ⟨⟩, -⟩ | ⟨_, s₂, ⟨⟩, rfl, filled⟩ := dispatch_eq_ok loaded
    obtain ⟨_, _, ⟨⟩, -⟩ | ⟨_, t, ⟨⟩, rfl, done⟩ := dispatch_eq_ok factored
    obtain ⟨columns, holds, nonzero⟩ := accepted.exists_columns entries
    obtain ⟨prepared, options⟩ := (SparseFactorization.allocate_ends _ _ _ _).result sized
    obtain ⟨prepared', same, dimension, all, factorized⟩ := (SparseFactorization.factor_loaded
      prepared holds (options ▸ spares rfl) filled _).result done
    have tolerance : t.options.zeroTolerance = 0 :=
      (congrArg Options.zeroTolerance (same.trans options)).trans exact_
    have solvable := factorized.solvable prepared' (SparseFactorization.pending_of_factor done)
      (factorized.complete tolerance.ge nonzero).2.nonzero
    have whole := factorized.matrix_eq holds solvable dimension tolerance
    obtain ⟨m, c⟩ := b
    obtain rfl : t.dimension = m := dimension
    refine ⟨_, solvable.positionOf_eq, all, ⟨solvable, rfl, tolerance, ?_⟩, ?_⟩
    · rw [factorized.etas]
      exact .empty
    · rw [← whole]
      exact solvable.complete.positioned_eq

/-- Behind a factorization, solves, assignments and replacements of columns that do not count as
noise; each replacement is given what a solve for the entering column answered. -/
inductive Replaced (b : BasisMatrix ℚ) (e : Engine ℚ) :
    Engine ℚ → List (Overwriting b.dimension) → Prop
  | refl : Replaced b e e []
  | ftran {f g : Engine ℚ} {changes : List (Overwriting b.dimension)} {v : SparseVector ℚ}
      {x : SparseVector ℚ × Nat} : Replaced b e f changes → Engine.ftran v f = .ok x g →
      Replaced b e g changes
  | btran {f g : Engine ℚ} {changes : List (Overwriting b.dimension)} {v : SparseVector ℚ}
      {x : SparseVector ℚ × Nat} : Replaced b e f changes → Engine.btran v f = .ok x g →
      Replaced b e g changes
  | assign {f g : Engine ℚ} {changes : List (Overwriting b.dimension)}
      {sequence heading vs : Array Nat} : Replaced b e f changes →
      Engine.assign sequence heading f = .ok vs g → Replaced b e g changes
  | replaced {f f' g h : Engine ℚ} {changes : List (Overwriting b.dimension)} {a x : SparseVector ℚ}
      {count r : Nat} {j : Fin b.dimension} : Replaced b e f changes → Replaced b e g changes →
      a.Consistent → a.dimension = b.dimension →
      (e.isDense = false → Forward b.matrix changes (a.atRows b.dimension)) →
      Engine.ftran a f = .ok (x, count) f' → e.positionOf j = .ok (some r) → x.valueOf r ≠ 0 →
      Engine.replaceColumn x r (x.valueOf r) g = .ok () h →
      Replaced b e h (changes ++ [(j, a.atRows b.dimension)])

/-- The overwritten columns, at their positions. -/
def moved (π : Fin n ≃ Fin n) (changes : List (Overwriting n)) : List (Overwriting n) :=
  changes.map fun (j, a) => (π j, a)

theorem Replaced.carries {π : Fin b.dimension ≃ Fin b.dimension}
    {changes : List (Overwriting b.dimension)}
    (start : Carries (b.matrix.submatrix id π.symm) π ([] : List (Overwriting b.dimension)) e)
    (h : Replaced b e f changes) : f.isDense = e.isDense ∧
      ∃ etas, Carries (b.matrix.submatrix id π.symm) π etas f ∧ etas.length = (moved π changes).length ∧
        Explains (b.matrix.submatrix id π.symm) (moved π changes) etas := by
  induction h with
  | refl => exact ⟨rfl, [], start, rfl, fun k r w here => by simp at here⟩
  | ftran _ run ih =>
    obtain ⟨kind, etas, carries, rest⟩ := ih
    exact ⟨(isDense_of_dispatch run).trans kind, etas, carries.of_ftran run, rest⟩
  | btran _ run ih =>
    obtain ⟨kind, etas, carries, rest⟩ := ih
    exact ⟨(isDense_of_dispatch run).trans kind, etas, carries.of_btran run, rest⟩
  | assign _ run ih =>
    obtain ⟨kind, etas, carries, rest⟩ := ih
    exact ⟨(isDense_of_dispatch run).trans kind, etas, carries.of_assign run, rest⟩
  | @replaced f f' g h changes a x count r j _ _ consistent dimension forward solved place pivot run
      ih ih' =>
    obtain ⟨kind, etas, carries, length, explains⟩ := ih
    obtain ⟨kind', etas', carries', length', explains'⟩ := ih'
    obtain ⟨y, u, w, ran, system, answers⟩ := carries.solvesFtran explains length consistent dimension
      fun sparse => (forward (kind ▸ sparse)).submatrix
    cases ran.symm.trans solved
    obtain rfl : (π j).val = r := by
      simpa using (start.positionOf j).symm.trans place
    have solution : x.atRows b.dimension = w := funext fun i => answers.values i
    have nonzero : w (π j) ≠ 0 := by
      rw [← solution]
      exact pivot
    have sizable : e.isDense = false → Sizable w := fun sparse => by
      refine ((forward sparse).submatrix (moved π changes).length le_rfl w ?_).1
      rw [show changes.map _ = moved π changes from rfl, List.take_length]
      exact system
    refine ⟨(isDense_of_dispatch run).trans kind', etas' ++ [(π j, w)], ?_, ?_, ?_⟩
    · have added := carries'.replaceColumn answers.consistent answers.dimension
        (fun sparse => solution ▸ sizable (kind' ▸ sparse)) pivot run
      rwa [solution] at added
    · simpa [moved] using length'
    · have more := explains'.concat length' nonzero
      rw [system] at more
      rw [moved, List.map_append]
      exact more

/-! ### Solves -/

/-- The solves of an engine answer the solutions for a matrix with columns overwritten, if a sparse
engine meets no noise and no cancellation. -/
structure SolvesOverwritten (f : Engine ℚ) (B : Matrix (Fin n) (Fin n) ℚ)
    (changes : List (Overwriting n)) : Prop where
  positions : ∀ r < n, ∃ j : Fin n, f.positionOf j = .ok (some r)
  ftran : ∀ v : SparseVector ℚ, v.Consistent → v.dimension = n →
    (f.isDense = false → Forward B changes (v.atRows n)) →
    f.AnswersFtran (overwritten B changes) id v
  btran : ∀ v : SparseVector ℚ, v.Consistent → v.dimension = n →
    (f.isDense = false → ∀ y, (∀ j : Fin n, ∃ p, f.positionOf j = .ok (some p) ∧
      (overwritten B changes).transpose.mulVec y j = v.valueOf p) → Backward B changes y) →
    f.AnswersBtran (overwritten B changes) id v

theorem Carries.solvesOverwritten {B : Matrix (Fin n) (Fin n) ℚ}
    (h : Carries (B.submatrix id π.symm) π etas f) (length : etas.length = (moved π changes).length)
    (explains : Explains (B.submatrix id π.symm) (moved π changes) etas) :
    f.SolvesOverwritten B changes where
  positions r hr := ⟨π.symm ⟨r, hr⟩, by rw [h.positionOf, π.apply_symm_apply]⟩
  ftran v consistent dimension forward := by
    have solves := h.solvesFtran explains length consistent dimension fun sparse =>
      (forward sparse).submatrix
    rw [moved, overwritten_submatrix] at solves
    exact solves.answers h.positionOf
  btran v consistent dimension backward := by
    have solves := h.solvesBtran explains length consistent dimension fun sparse y system => by
      refine (backward sparse y fun j => ⟨π j, h.positionOf j, ?_⟩).submatrix
      rw [moved, overwritten_submatrix, submatrix_transpose_mulVec] at system
      have entry := congrFun system (π j)
      rwa [Function.comp_apply, π.symm_apply_apply] at entry
    rw [moved, overwritten_submatrix] at solves
    exact solves.answers h.positionOf

theorem Carries.det_overwritten_ne_zero {B : Matrix (Fin n) (Fin n) ℚ}
    (h : Carries (B.submatrix id π.symm) π etas f) (length : etas.length = (moved π changes).length)
    (explains : Explains (B.submatrix id π.symm) (moved π changes) etas) :
    (overwritten B changes).det ≠ 0 := by
  have regular := explains.det_ne_zero length h.det_ne_zero le_rfl
  rw [List.take_length, moved, overwritten_submatrix] at regular
  refine fun zero => regular ?_
  rw [Matrix.det_permute', zero, mul_zero]

/-- Two engines, which may have the columns at different positions, answer a right-hand side alike. -/
def FtranAgrees (f g : Engine ℚ) (n : Nat) (v : SparseVector ℚ) : Prop :=
  ∃ x x' t t', ftran v f = .ok (x, x.count) t ∧ ftran v g = .ok (x', x'.count) t' ∧
    ∀ j : Fin n, ∃ p p', f.positionOf j = .ok (some p) ∧ g.positionOf j = .ok (some p') ∧
      x.valueOf p = x'.valueOf p'

/-- Two engines answer transposed right-hand sides alike that have the same value for each column. -/
def BtranAgrees (f g : Engine ℚ) (v w : SparseVector ℚ) : Prop :=
  ∃ x x' t t', btran v f = .ok (x, x.count) t ∧ btran w g = .ok (x', x'.count) t' ∧
    ∀ i, x.valueOf i = x'.valueOf i

variable {M : Matrix (Fin n) (Fin n) ℚ} {keep : ℚ → ℚ} {w : SparseVector ℚ}

theorem AnswersFtran.agrees (h : f.AnswersFtran M keep v) (h' : g.AnswersFtran M keep v)
    (det : M.det ≠ 0) : FtranAgrees f g n v := by
  obtain ⟨x, t, z, run, system, -, -, -, values⟩ := h
  obtain ⟨x', t', z', run', system', -, -, -, values'⟩ := h'
  cases mulVec_unique det (system.trans system'.symm)
  refine ⟨x, x', t, t', run, run', fun j => ?_⟩
  obtain ⟨p, place, value⟩ := values j
  obtain ⟨p', place', value'⟩ := values' j
  exact ⟨p, p', place, place', value.trans value'.symm⟩

theorem AnswersBtran.agrees (h : f.AnswersBtran M keep v) (h' : g.AnswersBtran M keep w)
    (det : M.det ≠ 0) (same : ∀ (j : Fin n) (p p' : Nat), f.positionOf j = .ok (some p) →
      g.positionOf j = .ok (some p') → v.valueOf p = w.valueOf p') : BtranAgrees f g v w := by
  obtain ⟨x, t, y, c, run, costs, system, consistent, -, dimension, values⟩ := h
  obtain ⟨x', t', y', c', run', costs', system', consistent', -, dimension', values'⟩ := h'
  have equal : c = c' := funext fun j => by
    obtain ⟨p, place, value⟩ := costs j
    obtain ⟨p', place', value'⟩ := costs' j
    rw [value, value', same j p p' place place']
  cases mulVec_unique (M.det_transpose.trans_ne det) (system.trans (equal.trans system'.symm))
  refine ⟨x, x', t, t', run, run', fun i => ?_⟩
  by_cases inside : i < n
  · exact (values ⟨i, inside⟩).trans (values' ⟨i, inside⟩).symm
  · rw [consistent.valueOf_behind (by rw [dimension]; omega),
      consistent'.valueOf_behind (by rw [dimension']; omega)]

/-- Behind any number of replacements, the solves answer the solutions for the basis with the columns
overwritten, as those behind a new factorization of that basis do. -/
theorem solves_of_replaced {changes : List (Overwriting b.dimension)} (fresh : Fresh b e)
    (replaced : Replaced b e f changes) :
    (overwritten b.matrix changes).det ≠ 0 ∧ f.SolvesOverwritten b.matrix changes ∧
      ∀ columns g, BasisMatrix.matrix ⟨b.dimension, columns⟩ = overwritten b.matrix changes →
        Fresh ⟨b.dimension, columns⟩ g →
        (∀ v : SparseVector ℚ, v.Consistent → v.dimension = b.dimension →
          (∀ z, (overwritten b.matrix changes).mulVec z = v.atRows b.dimension → Sizable z) →
          (f.isDense = false → Forward b.matrix changes (v.atRows b.dimension)) →
          FtranAgrees f g b.dimension v) ∧
        ∀ v w : SparseVector ℚ, v.Consistent → v.dimension = b.dimension → w.Consistent →
          w.dimension = b.dimension →
          (∀ (j : Fin b.dimension) (p p' : Nat), f.positionOf j = .ok (some p) →
            g.positionOf j = .ok (some p') → v.valueOf p = w.valueOf p') →
          (∀ y, (∀ j : Fin b.dimension, ∃ p, f.positionOf j = .ok (some p) ∧
            (overwritten b.matrix changes).transpose.mulVec y j = v.valueOf p) →
            Sizable y ∧ (f.isDense = false → Backward b.matrix changes y)) →
          BtranAgrees f g v w := by
  obtain ⟨π, start⟩ := fresh.carries
  obtain ⟨-, etas, carries, length, explains⟩ := replaced.carries start
  have det := carries.det_overwritten_ne_zero length explains
  have solves := carries.solvesOverwritten length explains
  refine ⟨det, solves, fun columns g same again => ?_⟩
  obtain ⟨π', start'⟩ := again.carries
  have solves' : g.SolvesOverwritten (overwritten b.matrix changes) [] := by
    rw [← same]
    exact start'.solvesOverwritten rfl fun k r w here => by simp at here
  refine ⟨fun v consistent dimension sizable forward => ?_,
    fun v w consistent dimension consistent' dimension' costs backward => ?_⟩
  · exact (solves.ftran v consistent dimension forward).agrees
      (solves'.ftran v consistent dimension fun _ => forward_nil det sizable) det
  · refine (solves.btran v consistent dimension fun sparse y system =>
      (backward y system).2 sparse).agrees (solves'.btran w consistent' dimension'
        fun _ y system => backward_nil (backward y fun j => ?_).1) det costs
    obtain ⟨p', place', value⟩ := system j
    exact ⟨π j, carries.positionOf j, value.trans (costs j _ p' (carries.positionOf j) place').symm⟩

open SparseFactorization (twoByTwo exactly boundless crowdedColumn det_crowded)

/-- The columns that enter one after the other, and a right-hand side. -/
def entering : Nat → SparseVector ℚ
  | 0 => .ofDense #[1, 2]
  | 1 => .ofDense #[3, 1]
  | _ => .ofDense #[1, 0]

theorem consistent_entering (k : Nat) : (entering k).Consistent := by
  unfold entering
  split <;> exact .ofDense _

/-- The first column overwritten, and overwritten again. -/
def twice : List (Overwriting 2) := [(0, (entering 0).atRows 2), (0, (entering 1).atRows 2)]

/-- The solutions for the columns that enter and for the right-hand side, with no column overwritten,
with one, and with two. -/
def stepwise : Nat → Nat → Fin 2 → ℚ
  | 0, _ => ![-1, 3]
  | 1, 0 => ![2, -1]
  | 1, _ => ![-2, 5]
  | _, 0 => ![1, -1]
  | _, 1 => ![-1, 2]
  | _, _ => ![1 / 2, -1 / 2]

theorem matrix_of_columns {columns : Compressed ℚ} {M : Matrix (Fin 2) (Fin 2) ℚ}
    (entries : ∀ p : Fin 2 × Fin 2, columns.entryIn p.2 p.1 = M p.1 p.2) :
    BasisMatrix.matrix ⟨2, columns⟩ = M := Matrix.ext fun i j => entries (i, j)

theorem matrix_twoByTwo : twoByTwo.matrix = (!![2, 1; 1, 1] : Matrix (Fin 2) (Fin 2) ℚ) :=
  matrix_of_columns (by decide +kernel)

theorem forward_entering {k : Nat} (hk : k ≤ 2) :
    @Forward 2 twoByTwo.matrix (twice.take k) ((entering k).atRows 2) := by
  have checked : ∀ k ≤ 2, ∀ l ≤ (twice.take k).length,
      (overwritten !![2, 1; 1, 1] ((twice.take k).take l)).det ≠ 0 ∧
      (overwritten !![2, 1; 1, 1] ((twice.take k).take l)).mulVec (stepwise k l) =
        (entering k).atRows 2 ∧ Sizable (stepwise k l) ∧
      (l < (twice.take k).length → Survives (stepwise k l) (stepwise k (l + 1))) := by
    decide +kernel
  rw [matrix_twoByTwo]
  exact forward_of_solutions (fun l hl => (checked k hk l hl).1)
    (fun l hl => (checked k hk l hl).2.1) (fun l hl => (checked k hk l hl).2.2.1)
    fun l hl => (checked k hk l (Nat.le_of_lt hl)).2.2.2 hl

/-- Two replacements at the same position, and the solve for a unit vector behind them, compared with
a dense factorization. -/
theorem solves_of_replaced_twice : ∃ e f g : Engine ℚ, Fresh twoByTwo e ∧
    Replaced twoByTwo e f twice ∧ f.isDense = false ∧ f.SolvesOverwritten twoByTwo.matrix twice ∧
    FtranAgrees f g 2 (entering 2) := by
  obtain ⟨⟨e, x, y⟩, f, run, check⟩ := @exists_ok_of_check _ _ (do
      allocate 2 4 4
      load twoByTwo
      factor .standard
      let e ← get
      let x ← ftran (entering 0)
      replaceColumn x.1 0 (x.1.valueOf 0)
      let y ← ftran (entering 1)
      replaceColumn y.1 0 (y.1.valueOf 0)
      return (e, x.1, y.1) : Action (Engine ℚ) (Engine ℚ × SparseVector ℚ × SparseVector ℚ))
    (sparse (.new exactly))
    (fun (e, x, y) f => e.positionOf 0 == .ok (some 0) && !f.isDense && x.valueOf 0 != 0 &&
      y.valueOf 0 != 0) (by decide +kernel)
  let columns : Compressed ℚ := .ofLines [[(0, 3), (1, 1)], [(0, 1), (1, 1)]]
  obtain ⟨_, g, ran, -⟩ := @exists_ok_of_check _ _ (do
      allocate 2 0 0
      load ⟨2, columns⟩
      factor .standard : Action (Engine ℚ) Unit) (dense (.new exactly)) (fun _ _ => true)
    (by decide +kernel)
  simp only [Bool.and_eq_true, beq_iff_eq, Bool.not_eq_true', bne_iff_ne] at check
  obtain ⟨⟨⟨place, kind⟩, pivot⟩, pivot'⟩ := check
  obtain ⟨_, e₁, allocated, run⟩ := ok_of_bind run
  obtain ⟨_, e₂, loaded, run⟩ := ok_of_bind run
  obtain ⟨_, e₃, factored, run⟩ := ok_of_bind run
  rw [get_bind] at run
  obtain ⟨x', f₁, solved, run⟩ := ok_of_bind run
  obtain ⟨_, f₂, stored, run⟩ := ok_of_bind run
  obtain ⟨y', f₃, solved', run⟩ := ok_of_bind run
  obtain ⟨_, f₄, stored', ⟨⟩⟩ := ok_of_bind run
  obtain ⟨_, g₁, allocated', ran⟩ := ok_of_bind ran
  obtain ⟨_, g₂, loaded', factored'⟩ := ok_of_bind ran
  have fresh : Fresh twoByTwo e := .of (BasisMatrix.accepted_of_isOk (by decide +kernel))
    (by decide +kernel) rfl (fun _ => by decide +kernel) allocated loaded factored
  have again : Fresh ⟨2, columns⟩ g := .of (BasisMatrix.accepted_of_isOk (by decide +kernel))
    (by decide +kernel) rfl (by simp [isDense]) allocated' loaded' factored'
  have once : Replaced twoByTwo e f₂ (twice.take 1) :=
    Replaced.refl.replaced (.ftran .refl solved) (consistent_entering 0) rfl
      (fun _ => forward_entering (Nat.zero_le 2)) solved place pivot stored
  have replaced : Replaced twoByTwo e f twice :=
    once.replaced (.ftran once solved') (consistent_entering 1) rfl
      (fun _ => forward_entering (Nat.le_succ 1)) solved' place pivot' stored'
  obtain ⟨det, solves, matches_⟩ := solves_of_replaced fresh replaced
  refine ⟨e, f, g, fresh, replaced, kind, solves, ((matches_ columns g ?_ again).1 (entering 2)
    (consistent_entering 2) rfl ?_ fun _ => forward_entering le_rfl)⟩
  · rw [matrix_twoByTwo]
    exact matrix_of_columns (by decide +kernel)
  · exact fun z system => ((forward_entering le_rfl) 2 le_rfl z system).1

theorem forward_col {A : Matrix (Fin n) (Fin n) ℚ} (det : A.det ≠ 0) (j : Fin n) :
    Forward A [] (A.col j) := by
  refine forward_nil det fun z system => ?_
  cases mulVec_unique det (system.trans (Matrix.mulVec_single_one A j).symm)
  intro i nonzero
  obtain rfl : i = j := by
    by_contra other
    exact nonzero (Pi.single_eq_of_ne other 1)
  rw [Pi.single_eq_same, abs_one]
  simp only [SparseVector.tiny]
  norm_num

theorem forward_self {A : Matrix (Fin n) (Fin n) ℚ} (det : A.det ≠ 0) (i j : Fin n) :
    Forward A [(i, A.col i)] (A.col j) := by
  have same : A.updateCol i (A.col i) = A := Matrix.updateCol_eq_self A i
  have still : ∀ k, overwritten A ([(i, A.col i)].take k) = A := fun k => by
    cases k with
    | zero => rfl
    | succ k => simpa [overwritten] using same
  intro k hk x system
  rw [still] at system
  obtain ⟨sizable, -⟩ := forward_col det j 0 le_rfl x system
  refine ⟨sizable, fun x' system' => ?_⟩
  rw [still] at system'
  cases mulVec_unique det (system.trans system'.symm)
  exact fun _ => id

/-- The third column of the matrix whose lines have to be moved. -/
def crowdedThird : SparseVector ℚ := .ofDense #[-1, 4, 4, 0, 0]

theorem atRows_crowdedColumn :
    crowdedColumn.atRows 5 = SparseFactorization.crowded.matrix.col (0 : Fin 5) := by
  have entries : ∀ i : Fin 5,
      crowdedColumn.valueOf i = SparseFactorization.crowded.columns.entryIn 0 i := by
    decide +kernel
  exact funext entries

theorem atRows_crowdedThird :
    crowdedThird.atRows 5 = SparseFactorization.crowded.matrix.col (2 : Fin 5) := by
  have entries : ∀ i : Fin 5,
      crowdedThird.valueOf i = SparseFactorization.crowded.columns.entryIn 2 i := by
    decide +kernel
  exact funext entries

theorem overwritten_crowded :
    overwritten SparseFactorization.crowded.matrix [((2 : Fin 5), crowdedThird.atRows 5)] =
      SparseFactorization.crowded.matrix := by
  rw [atRows_crowdedThird]
  exact Matrix.updateCol_eq_self SparseFactorization.crowded.matrix (2 : Fin 5)

theorem exists_replaced_crowded : ∃ e f f' : Engine ℚ, ∃ y : SparseVector ℚ × Nat,
    (do allocate 5 300 16; load SparseFactorization.crowded; factor .standard)
      (sparse (.new boundless)) = .ok () e ∧
    Replaced SparseFactorization.crowded e f [((2 : Fin 5), crowdedThird.atRows 5)] ∧
    ftran crowdedColumn f = .ok y f' ∧ f.positionOf 1 = .ok (some 3) ∧ y.1.valueOf 3 ≠ 0 := by
  obtain ⟨⟨e, x, f, y⟩, f', run, check⟩ := @exists_ok_of_check _ _ (do
      allocate 5 300 16
      load SparseFactorization.crowded
      factor .standard
      let e ← get
      let x ← ftran crowdedThird
      replaceColumn x.1 2 (x.1.valueOf 2)
      let f ← get
      let y ← ftran crowdedColumn
      return (e, x.1, f, y) :
        Action (Engine ℚ) (Engine ℚ × SparseVector ℚ × Engine ℚ × SparseVector ℚ × Nat))
    (sparse (.new boundless))
    (fun (e, x, f, y) _ => e.positionOf 2 == .ok (some 2) && x.valueOf 2 != 0 &&
      f.positionOf 1 == .ok (some 3) && y.1.valueOf 3 != 0) (by decide +kernel)
  simp only [Bool.and_eq_true, beq_iff_eq, bne_iff_ne] at check
  obtain ⟨⟨⟨place, pivot⟩, place'⟩, value⟩ := check
  obtain ⟨_, e₁, allocated, run⟩ := ok_of_bind run
  obtain ⟨_, e₂, loaded, run⟩ := ok_of_bind run
  obtain ⟨_, e₃, factored, run⟩ := ok_of_bind run
  rw [get_bind] at run
  obtain ⟨x', f₁, solved, run⟩ := ok_of_bind run
  obtain ⟨_, f₂, stored, run⟩ := ok_of_bind run
  rw [get_bind] at run
  obtain ⟨y', f₃, solved', ⟨⟩⟩ := ok_of_bind run
  refine ⟨e, f, _, y, (bind_of_ok allocated).trans ((bind_of_ok loaded).trans factored), ?_, solved',
    place', value⟩
  exact Replaced.refl.replaced (.ftran .refl solved) (.ofDense _) rfl (fun _ =>
    atRows_crowdedThird ▸ forward_col det_crowded (2 : Fin 5)) solved place pivot stored

/-- Without the bound on the spare entries, a solve behind the replacement of a column by itself need
not answer the solution for the basis. -/
theorem solves_fail_after_overlap :
    SparseFactorization.crowded.Accepted ∧ SparseFactorization.crowded.NoZeros ∧
    ∃ (e f : Engine ℚ) (changes : List (Overwriting 5)),
      (do allocate 5 300 16; load SparseFactorization.crowded; factor .standard)
        (sparse (.new boundless)) = .ok () e ∧
      Replaced SparseFactorization.crowded e f changes ∧ changes.length = 1 ∧ crowdedColumn.Consistent ∧
      Forward SparseFactorization.crowded.matrix changes (crowdedColumn.atRows 5) ∧
      ¬f.AnswersFtran (overwritten SparseFactorization.crowded.matrix changes) id crowdedColumn := by
  obtain ⟨e, f, f', y, made, replaced, solved, place, value⟩ := exists_replaced_crowded
  refine ⟨BasisMatrix.accepted_of_isOk (by decide +kernel), by decide +kernel, e, f, _, made, replaced,
    rfl, .ofDense _, ?_, ?_⟩
  · rw [atRows_crowdedThird, atRows_crowdedColumn]
    exact forward_self det_crowded (2 : Fin 5) (0 : Fin 5)
  · rintro ⟨_, _, z, again, system, -, -, -, values⟩
    cases again.symm.trans solved
    rw [overwritten_crowded] at system
    cases mulVec_unique det_crowded (system.trans (atRows_crowdedColumn.trans
      (Matrix.mulVec_single_one SparseFactorization.crowded.matrix (0 : Fin 5)).symm))
    obtain ⟨p, found, zero⟩ := values (1 : Fin 5)
    cases place.symm.trans found
    have other : (1 : Fin 5) ≠ 0 := by decide
    exact value (zero.trans (Pi.single_eq_of_ne other 1))

end Engine

end SimplexBasis
