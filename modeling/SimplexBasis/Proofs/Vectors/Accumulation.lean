import Mathlib.Data.List.Infix
import SimplexBasis.Proofs.Vectors.Rows

/-!
# Accumulation

What entries added one after another leave in a vector. An entry that cancels stays listed as a
placeholder, and the placeholder enters the later sums of its row. As long as no partial sum is small
enough to be taken for noise, the value of a row is its sum or one placeholder more, no matter how
often the row cancels and fills again.
-/

set_option linter.unusedSectionVars false

namespace SimplexBasis.SparseVector

variable {v : SparseVector ℚ} {entries done rest : List (Nat × ℚ)} {i j n : Nat} {x s old : ℚ}

/-! ### Sums of rows -/

def rowValues (entries : List (Nat × ℚ)) (i : Nat) : List ℚ :=
  (entries.filter (·.1 == i)).map Prod.snd

def rowSum (entries : List (Nat × ℚ)) (i : Nat) : ℚ := (rowValues entries i).sum

/-- A sum that is not taken for noise, with a placeholder more or without. -/
def Definite (s : ℚ) : Prop := s = 0 ∨ tiny + placeholder ≤ |s|

instance (s : ℚ) : Decidable (Definite s) := inferInstanceAs (Decidable (_ ∨ _))

def DefiniteSums (entries : List (Nat × ℚ)) (n : Nat) : Prop :=
  ∀ i < n, ∀ values ∈ (rowValues entries i).inits, Definite values.sum

instance (entries : List (Nat × ℚ)) (n : Nat) : Decidable (DefiniteSums entries n) :=
  inferInstanceAs (Decidable (∀ i < n, ∀ values ∈ (rowValues entries i).inits, Definite values.sum))

theorem rowValues_append :
    rowValues (done ++ rest) i = rowValues done i ++ rowValues rest i := by
  simp [rowValues]

theorem rowSum_concat :
    rowSum (entries ++ [(j, x)]) i = rowSum entries i + if i = j then x else 0 := by
  unfold rowSum
  rw [rowValues_append, List.sum_append]
  congr 1
  by_cases same : i = j
  · simp [rowValues, same]
  · simp [rowValues, same, Ne.symm same]

theorem DefiniteSums.before (h : DefiniteSums (done ++ rest) n) (hi : i < n) :
    Definite (rowSum done i) := by
  apply h i hi
  rw [List.mem_inits, rowValues_append]
  exact List.prefix_append _ _

/-! ### Adding to a row -/

def added (old x : ℚ) : ℚ :=
  if old = 0 then if tiny ≤ |x| then x else 0
  else if tiny ≤ |old + x| then old + x else placeholder

theorem Consistent.add_row (h : v.Consistent) (mode : v.packed = false) (bound : i < v.dimension)
    (x : ℚ) : ∃ w, v.add i x = .ok w ∧ w.Consistent ∧ w.packed = false ∧
      w.dimension = v.dimension ∧
      ∀ k, w.valueOf k = if k = i then added (v.valueOf i) x else v.valueOf k := by
  have size : i < v.elements.size := bound
  have read : v.valueOf i = v.elements.getD i 0 := h.valueOf_unpacked mode i
  -- whatever is stored, `w` differs from `v` in the element of row `i` only
  have written : ∀ {w : SparseVector ℚ} {y : ℚ}, v.add i x = .ok w → w.packed = false →
      w.elements = v.elements.setIfInBounds i y →
      w.Consistent ∧ w.packed = false ∧ w.dimension = v.dimension ∧
        ∀ k, w.valueOf k = if k = i then y else v.valueOf k := by
    intro w y run unpacked elements
    have consistent := h.add run
    refine ⟨consistent, unpacked, by simp [dimension, elements], ?_⟩
    intro k
    rw [consistent.valueOf_unpacked unpacked, elements, getD_setIfInBounds size,
      h.valueOf_unpacked mode]
  have start : v.add i x =
      if v.valueOf i != 0 then
        let sum := v.valueOf i + x
        let kept := if tiny ≤ Scalar.abs sum then sum else placeholder
        .ok { v with elements := v.elements.setIfInBounds i kept }
      else if tiny ≤ Scalar.abs x then
        .ok { v with elements := v.elements.setIfInBounds i x, indices := v.indices.push i }
      else .ok v := by
    unfold SparseVector.add
    rw [if_neg (by simp [mode]), entry_getD 0 size, ← read]
    rfl
  dsimp only at start
  rw [scalar_abs, scalar_abs] at start
  unfold added
  by_cases vacant : v.valueOf i = 0
  · rw [if_neg (by simpa using vacant)] at start
    rw [if_pos vacant]
    by_cases large : tiny ≤ |x|
    · rw [if_pos large] at start ⊢
      exact ⟨_, start, written start mode rfl⟩
    · rw [if_neg large] at start ⊢
      refine ⟨v, start, h, mode, rfl, ?_⟩
      intro k
      split
      · rename_i same
        rw [same, vacant]
      · rfl
  · rw [if_pos (by simpa using vacant)] at start
    rw [if_neg vacant]
    exact ⟨_, start, written start mode rfl⟩

/-- The value of a row whose entries have the sum `s`. -/
def Represents (s value : ℚ) : Prop := value = s ∨ value = s + placeholder

namespace Represents

variable {value : ℚ}

theorem near (h : Represents s value) : |value - s| ≤ placeholder := by
  rcases h with rfl | rfl
  · rw [sub_self, abs_zero]
    exact placeholder_pos.le
  · rw [add_sub_cancel_left, abs_of_pos placeholder_pos]

theorem le_abs (h : Represents s value) : |s| ≤ |value| + placeholder := by
  have triangle := abs_sub_abs_le_abs_sub s value
  rw [abs_sub_comm] at triangle
  have near := h.near
  linarith

theorem abs_le (h : Represents 0 value) : |value| ≤ placeholder := by
  simpa using h.near

theorem ne_zero (h : Represents s value) (definite : Definite s) (sum : s ≠ 0) : value ≠ 0 := by
  rintro rfl
  have large := h.le_abs
  rw [abs_zero, zero_add] at large
  have positive := tiny_pos
  linarith [definite.resolve_left sum]

theorem added (h : Represents s old) (before : Definite s) (after : Definite (s + x)) :
    Represents (s + x) (added old x) := by
  have small := placeholder_lt_tiny
  unfold SparseVector.added
  split
  · -- a row that is not stored has no sum
    rename_i vacant
    have zero : s = 0 := by
      by_contra sum
      exact h.ne_zero before sum vacant
    rw [zero, zero_add] at after ⊢
    left
    rcases after with rfl | large
    · exact ite_self 0
    · rw [if_pos]
      linarith [placeholder_pos]
  · have shifted : Represents (s + x) (old + x) := by
      rcases h with rfl | rfl
      · exact Or.inl rfl
      · exact Or.inr (by ring)
    rcases after with cancelled | large
    · rw [cancelled] at shifted ⊢
      rw [if_neg]
      · exact Or.inr (zero_add _).symm
      · have bound := shifted.abs_le
        linarith
    · rw [if_pos]
      · exact shifted
      · linarith [shifted.le_abs]

end Represents

/-! ### Adding entries -/

/-- The vector that entries added to the empty vector of dimension `n` leave. -/
structure Accumulates (entries : List (Nat × ℚ)) (n : Nat) (v : SparseVector ℚ) : Prop where
  consistent : v.Consistent
  unpacked : v.packed = false
  dimension : v.dimension = n
  values : ∀ i < n, Represents (rowSum entries i) (v.valueOf i)

theorem accumulates_nil (n : Nat) : Accumulates [] n (empty n) := by
  have consistent : (empty n : SparseVector ℚ).Consistent := Consistent.empty n
  refine ⟨consistent, rfl, by simp [empty, dimension], ?_⟩
  intro i hi
  left
  rw [consistent.valueOf_unpacked rfl]
  simp [empty, rowSum, rowValues, hi]

namespace Accumulates

theorem add (h : Accumulates done n v) (hj : j < n)
    (definite : DefiniteSums (done ++ (j, x) :: rest) n) :
    ∃ w, v.add j x = .ok w ∧ Accumulates (done ++ [(j, x)]) n w := by
  obtain ⟨w, run, consistent, unpacked, dimension, values⟩ :=
    h.consistent.add_row h.unpacked (h.dimension ▸ hj) x
  refine ⟨w, run, consistent, unpacked, dimension.trans h.dimension, ?_⟩
  intro i hi
  have before := definite.before hi
  rw [List.append_cons] at definite
  have after := definite.before hi
  rw [rowSum_concat] at after ⊢
  rw [values]
  split
  · rename_i same
    subst same
    rw [if_pos rfl] at after
    exact (h.values i hi).added before after
  · rw [add_zero]
    exact h.values i hi

theorem fold (inside : ∀ e ∈ entries, e.1 < n) (definite : DefiniteSums entries n) :
    ∃ v, entries.foldlM (fun v (i, x) => v.add i x) (empty n) = .ok v ∧ Accumulates entries n v := by
  apply foldlM_ok (fun done v => Accumulates done n v) (accumulates_nil n)
  rintro done ⟨j, x⟩ rest v rfl h
  exact h.add (inside (j, x) (by simp)) definite

theorem listed (h : Accumulates entries n v) (definite : DefiniteSums entries n) (hi : i < n)
    (sum : rowSum entries i ≠ 0) : i ∈ v.indices := by
  have whole := definite
  rw [← List.append_nil entries] at whole
  rw [← h.consistent.valueOf_ne_zero_iff]
  exact (h.values i hi).ne_zero (whole.before hi) sum

theorem clean (h : Accumulates entries n v) {tolerance : ℚ}
    (large : ∀ i < n, rowSum entries i ≠ 0 →
      max tolerance tiny + placeholder ≤ |rowSum entries i|) :
    (v.clean tolerance).indices.toList.Perm
      ((List.range n).filter fun i => rowSum entries i ≠ 0) := by
  have distinct : (v.clean tolerance).indices.toList.Nodup := (h.consistent.clean tolerance).1.distinct
  apply (List.perm_ext_iff_of_nodup distinct (List.nodup_range.filter _)).mpr
  intro i
  rw [h.consistent.indices_clean, List.mem_filter, List.mem_filter, List.mem_range,
    decide_eq_true_eq, decide_eq_true_eq, Array.mem_toList_iff]
  constructor
  · rintro ⟨member, kept⟩
    have hi : i < n := h.dimension ▸ h.consistent.inside i member
    refine ⟨hi, ?_⟩
    intro zero
    have value := h.values i hi
    rw [zero] at value
    have floor := le_max_right tolerance tiny
    linarith [value.abs_le, placeholder_lt_tiny]
  · rintro ⟨hi, sum⟩
    have kept : max tolerance tiny ≤ |v.valueOf i| := by
      linarith [large i hi sum, (h.values i hi).le_abs]
    refine ⟨?_, kept⟩
    rw [← h.consistent.valueOf_ne_zero_iff, ← abs_pos]
    exact tiny_pos.trans_le ((le_max_right _ _).trans kept)

end Accumulates

/-- Entries added to the empty vector leave the sums of the rows, up to a placeholder. Every row with
a sum is stored, and cleaning with a tolerance that the sums exceed removes exactly the others. -/
theorem ofEntries_accumulates (inside : ∀ e ∈ entries, e.1 < n) (definite : DefiniteSums entries n) :
    ∃ v : SparseVector ℚ,
      entries.foldlM (fun v (i, x) => v.add i x) (empty n) = .ok v ∧
      (ofEntries n entries = do checkCapacity n; return v) ∧
      (∀ i < n, ∃ x, v.get i = .ok x ∧ |x - rowSum entries i| ≤ placeholder) ∧
      (∀ i < n, rowSum entries i ≠ 0 → i ∈ v.indices) ∧
      ∀ tolerance, (∀ i < n, rowSum entries i ≠ 0 →
          max tolerance tiny + placeholder ≤ |rowSum entries i|) →
        (v.clean tolerance).indices.toList.Perm
          ((List.range n).filter fun i => rowSum entries i ≠ 0) := by
  obtain ⟨v, run, h⟩ := Accumulates.fold inside definite
  refine ⟨v, run, ?_, ?_, ?_, ?_⟩
  · unfold ofEntries
    rw [run]
    rfl
  · intro i hi
    exact ⟨_, h.consistent.get_eq (h.dimension.symm ▸ hi), (h.values i hi).near⟩
  · intro i hi sum
    exact h.listed definite hi sum
  · intro tolerance large
    exact h.clean large

/-- Row 1 cancels, fills again and cancels once more, between entries of other rows. -/
theorem accumulates_refilled :
    let entries : List (Nat × ℚ) := [(1, 2), (3, -7), (1, -2), (0, 1 / 2), (1, 5), (3, 1), (1, -5)]
    (∀ e ∈ entries, e.1 < 4) ∧ DefiniteSums entries 4 ∧ ∃ v, ofEntries 4 entries = .ok v ∧
      v.get 1 = .ok placeholder ∧ v.indices = #[1, 3, 0] ∧
      (v.clean (1 / 4)).indices.toList.Perm [0, 3] := by
  intro entries
  have inside : ∀ e ∈ entries, e.1 < 4 := by decide
  have definite : DefiniteSums entries 4 := by decide +kernel
  obtain ⟨v, -, run, -, -, cleaned⟩ := ofEntries_accumulates inside definite
  have built : ofEntries 4 entries = .ok ⟨#[1 / 2, placeholder, 0, -6], #[1, 3, 0], false⟩ := by
    decide +kernel
  have same : v = ⟨#[1 / 2, placeholder, 0, -6], #[1, 3, 0], false⟩ :=
    Except.ok.inj (run.symm.trans built)
  subst same
  have sums : (List.range 4).filter (fun i => rowSum entries i ≠ 0) = [0, 3] := by decide +kernel
  exact ⟨inside, definite, _, built, by decide +kernel, rfl,
    sums ▸ cleaned (1 / 4) (by decide +kernel)⟩

end SimplexBasis.SparseVector
