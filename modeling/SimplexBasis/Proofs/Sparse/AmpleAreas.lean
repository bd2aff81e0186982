import Mathlib.Algebra.Order.BigOperators.Group.Finset
import Mathlib.Algebra.Order.BigOperators.Ring.Finset
import Mathlib.Algebra.Order.Field.Rat
import Mathlib.Tactic.Linarith
import Mathlib.Tactic.Ring
import SimplexBasis.Proofs.Sparse.Loading
import SimplexBasis.Proofs.Storage.LineEdits

/-!
# Ample areas

Files hold the lines of a basis, one behind the other, as soon as they hold its entries: a line has
its spare entries behind it if these fit for all lines together, and none otherwise. The areas that
are estimated for a basis, scaled by a factor of at least one, hold its entries.
-/

set_option linter.unusedSectionVars false

namespace SimplexBasis

/-! ### Counts of exact scalars -/

theorem le_ceilNat {n : Nat} {x : ℚ} (le : (n : ℚ) ≤ x) : min n Word.last ≤ Scalar.ceilNat x := by
  have up : ((n : Int) : ℚ) ≤ x.ceil := le.trans Rat.le_ceil
  have count : (n : Int) ≤ x.ceil := Rat.intCast_le_intCast.mp up
  exact min_le_min_right _ (by omega)

theorem le_truncNat {n : Nat} {x : ℚ} (le : (n : ℚ) ≤ x) : min n Word.last ≤ Scalar.truncNat x := by
  have count : (n : Int) ≤ x.floor := Rat.le_floor_iff.mpr le
  exact min_le_min_right _ (by omega)

theorem truncNat_le {x : ℚ} (nonneg : 0 ≤ x) : (Scalar.truncNat x : ℚ) ≤ x := by
  have floor : 0 ≤ x.floor := Rat.le_floor_iff.mpr nonneg
  have cut : Scalar.truncNat x ≤ x.floor.toNat := min_le_left _ _
  calc (Scalar.truncNat x : ℚ) ≤ (x.floor.toNat : ℚ) := Nat.cast_le.mpr cut
    _ = ((x.floor.toNat : Int) : ℚ) := rfl
    _ = x.floor := by rw [Int.toNat_of_nonneg floor]
    _ ≤ x := Rat.floor_le x

/-! ### Lines with their spare entries -/

namespace LineFile

variable {ε : Type} {lines : Nat → List ε} {m capacity count : Nat} {o : Options ℚ}

theorem loosely_packed (lines : Nat → List ε) :
    loosely (fun _ => 0) lines (List.range m) = entryCount m lines := rfl

/-- The entries of all lines with the stretch of each are no more than those stretched together. -/
theorem stretched_le (stretch : 0 ≤ o.stretch) (total : entryCount m lines = count) :
    ((∑ l ∈ Finset.range m, ((lines l).length +
      Scalar.truncNat (o.stretch * Scalar.ofNat (lines l).length)) : Nat) : ℚ) ≤
        count * (1 + o.stretch) := by
  have line : ∀ l, (((lines l).length + Scalar.truncNat
      (o.stretch * Scalar.ofNat (lines l).length) : Nat) : ℚ) ≤
        (lines l).length * (1 + o.stretch) := by
    intro l
    have cut := truncNat_le (mul_nonneg stretch (Nat.cast_nonneg (lines l).length))
    rw [Nat.cast_add]
    change _ + (Scalar.truncNat (o.stretch * ((lines l).length : ℚ)) : ℚ) ≤ _
    linarith
  rw [Nat.cast_sum, ← total, entryCount, Nat.cast_sum, Finset.sum_mul]
  exact Finset.sum_le_sum fun l _ => line l

/-- Stretched and padded lines fit where their entries stretched together fit with all paddings. -/
theorem loosely_fullSpare_le (stretch : 0 ≤ o.stretch) (total : entryCount m lines = count)
    (fits : Scalar.truncNat (Scalar.ofNat count * (1 + o.stretch)) + m * o.pad ≤ capacity)
    (small : capacity < Word.last) : loosely o.fullSpare lines (List.range m) ≤ capacity := by
  have whole := le_truncNat (stretched_le stretch total)
  change min _ _ ≤ Scalar.truncNat (Scalar.ofNat count * (1 + o.stretch)) at whole
  have split : loosely o.fullSpare lines (List.range m) =
      ∑ l ∈ Finset.range m, ((lines l).length +
        Scalar.truncNat (o.stretch * Scalar.ofNat (lines l).length)) + m * o.pad := by
    change ∑ l ∈ Finset.range m, ((lines l).length + o.fullSpare (lines l).length) = _
    simp only [Options.fullSpare, ← Nat.add_assoc]
    rw [Finset.sum_add_distrib, Finset.sum_const_nat fun _ _ => rfl, Finset.card_range]
  omega

end LineFile

namespace SparseFactorization

variable {s u : SparseFactorization ℚ} {b : BasisMatrix ℚ} {columns : List (List (Nat × ℚ))}

/-! ### Loading into sufficient files -/

section Sufficient

variable (stretch : 0 ≤ s.options.stretch) (addressable : s.Addressable b.dimension b.count)
  (words : Scalar.truncNat (Scalar.ofNat b.count * (1 + s.options.stretch)) +
    b.dimension * s.options.pad < UInt64.size)

include stretch addressable words

/-- Files with room for the entries of the basis have room for the lines as they are loaded. -/
theorem loosely_spareFor_le {ε : Type} {lines : Nat → List ε}
    (fits : b.count ≤ (s.capacityFor b.dimension b.count).files)
    (total : entryCount b.dimension lines = b.count) :
    LineFile.loosely (s.spareFor b) lines (List.range b.dimension) ≤
      (s.capacityFor b.dimension b.count).files := by
  have files := addressable.2.2
  have short : addressableWords < Word.last := by decide
  unfold spareFor
  rw [Word.mul_of_lt (by omega), Word.add_of_lt words]
  split
  · rename_i loose
    exact Nat.le_trans (LineFile.loosely_mono s.options.spare_le lines _)
      (LineFile.loosely_fullSpare_le stretch total loose (by omega))
  · rw [LineFile.loosely_packed, total]
    exact fits

variable (holds : b.Holds columns)

include holds

theorem Cleared.fillFiles (h : Cleared u b.dimension) (options : u.options = s.options)
    (areas : u.capacity = s.capacityFor b.dimension b.count) (fits : b.count ≤ u.capacity.files) :
    ∃ a, SparseFactorization.fillFiles b u = .ok () { u with active := a } ∧
      a.Shows b.dimension u.capacity.files (.loaded b.dimension columns) ∧
      a.cols.compressions = 0 ∧ a.rows.compressions = 0 := by
  have spare := loadingSpare_eq options h.dimension areas
  have small : u.capacity.files < UInt64.size := by
    have whole := h.addressable
    have short : addressableWords < UInt64.size := by decide
    omega
  have ample : ∀ {ε : Type} {lines : Nat → List ε}, entryCount b.dimension lines = b.count →
      LineFile.loosely (u.loadingSpare b.count) lines (List.range b.dimension) ≤
        u.capacity.files := by
    intro ε lines total
    rw [spare, areas]
    exact loosely_spareFor_le stretch addressable words (areas ▸ fits) total
  have cols := (entryCount_columns holds.length).trans (count_eq holds).symm
  have rows := (entryCount_rows holds).trans (count_eq holds).symm
  have start : u.active.cols.first b.dimension ≤ 0 ∧ u.active.cols.compressions = 0 := by
    rw [h.cols, LineFile.first_blank]
    exact ⟨Nat.le_refl _, rfl⟩
  have start' : u.active.rows.first b.dimension ≤ 0 ∧ u.active.rows.compressions = 0 := by
    rw [h.rows, LineFile.first_blank]
    exact ⟨Nat.le_refl _, rfl⟩
  have ends := fillFiles_ends holds rfl (ActiveView.fills_of_ample small (ample cols))
    (ActiveView.fills_of_ample small (ample rows)) start start' h.shows
    (h.prepared.sized.trans h.dimension)
  obtain ⟨_, _, run, a, rfl, shows, file, file'⟩ :=
    (ends.mono (fun _ _ => id) fun _ _ failed => failed.1.elim id id).exists_ok
  exact ⟨a, run, shows, file.2, file'.2⟩

/-- A load notes that the basis has too many entries, or fills in its lines and pivots the slack
columns. -/
theorem load_by_room {Q : SparseFactorization ℚ → Prop} (prepared : Prepared s)
    (few : (s.capacityFor b.dimension b.count).files < b.count →
      ∀ t, t.pending = some .outOfMemory → Q t)
    (slacks : ∀ u, u.options = s.options → u.capacity = s.capacityFor b.dimension b.count →
      b.count ≤ u.capacity.files → Filled u b columns →
      Ends (fun _ t => Q t) (fun _ _ => False) (orPending pivotSlacks u)) :
    Ends (fun _ t => Q t) (fun _ _ => False) (load b s) := by
  have first := prepare_endsOr (B := fun _ => False) prepared b.dimension b.count
    fun large => large addressable
  unfold load
  refine first.ends.bind ?_
  rintro _ u ⟨cleared, options, areas⟩
  rw [get_bind]
  dsimp only
  by_cases full : u.capacity.files < b.count
  · rw [if_pos full, bind_of_ok (log_run _ _)]
    exact few (areas ▸ full) _ rfl
  · have fits := Nat.le_of_not_lt full
    obtain ⟨a, run, shows, -⟩ :=
      cleared.fillFiles stretch addressable words holds options areas fits
    have ends : Ends _ (fun _ _ => False) (SparseFactorization.fillFiles b u) :=
      Ends.of_ok (Q := fun _ t => t = { u with active := a }) run rfl
    rw [if_neg full]
    refine (orPending_ends ends).bind ?_
    rintro _ _ (⟨rfl, rfl⟩ | ⟨-, _, _, impossible, -⟩)
    · have filled := cleared.filled holds shows fits
      refine (slacks { u with active := a } options areas fits filled).bind ?_
      exact fun _ _ reached => reached
    · exact impossible.elim

end Sufficient

/-! ### Estimated areas -/

/-- The areas for the basis are estimated and not scaled down, and no sum formed while it is loaded
exceeds the words. -/
structure Ample (s : SparseFactorization ℚ) (b : BasisMatrix ℚ) : Prop where
  lowerHint : s.lowerHint = 0
  upperHint : s.upperHint = 0
  factor : 1 ≤ s.areaFactor
  stretch : 0 ≤ s.options.stretch
  addressable : s.Addressable b.dimension b.count
  words : Scalar.truncNat (Scalar.ofNat b.count * (1 + s.options.stretch)) +
    b.dimension * s.options.pad < UInt64.size

theorem le_areaOf (factor : 1 ≤ s.areaFactor) {estimate : Nat}
    (fits : s.areaOf 0 estimate ≤ addressableWords) : estimate ≤ s.areaOf 0 estimate := by
  have scaled : (estimate : ℚ) ≤ estimate * s.areaFactor :=
    le_mul_of_one_le_right (Nat.cast_nonneg estimate) factor
  have low : min estimate Word.last ≤ s.areaOf 0 estimate := le_ceilNat scaled
  have short : addressableWords < Word.last := by decide
  omega

namespace Ample

variable (h : s.Ample b)

include h

theorem lower_le : b.count ≤ (s.capacityFor b.dimension b.count).lower := by
  have fits := h.addressable.2.1
  simp only [capacityFor, h.lowerHint] at fits ⊢
  have bound := le_areaOf h.factor fits
  omega

theorem files_le : b.count ≤ (s.capacityFor b.dimension b.count).files := by
  have fits := h.addressable.2.2
  simp only [capacityFor, h.upperHint] at fits ⊢
  have bound := le_areaOf h.factor (Nat.le_trans (Nat.le_mul_of_pos_left _ Nat.two_pos) fits)
  omega

theorem upper_le : b.count ≤ (s.capacityFor b.dimension b.count).upper := h.files_le

end Ample

end SparseFactorization

end SimplexBasis
