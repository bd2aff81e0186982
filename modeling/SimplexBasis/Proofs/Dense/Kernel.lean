import Mathlib.Algebra.Order.Field.Basic
import SimplexBasis.Proofs.Exact
import SimplexBasis.Dense.Kernel
import SimplexBasis.Proofs.Runs

/-!
# What dense elimination leaves in the block

The operations of the kernel by what they do to the element at a row and a column, and the invariant
of the elimination: at every position of the permuted matrix stand the products of the completed
stages and a rest behind them.
-/

set_option linter.unusedSectionVars false

namespace SimplexBasis.Dense

variable {α : Type} [Scalar α] {m lead i j k l p q i' j' n : Nat} {block : Array α}

def element (lead : Nat) (block : Array α) (i j : Nat) : α := block.getD (j * lead + i) 0

theorem place_lt (hi : i < lead) (hj : j < m) : j * lead + i < m * lead := by
  have := Nat.mul_le_mul_right lead (Nat.succ_le_of_lt hj)
  rw [Nat.succ_mul] at this
  omega

theorem place_eq_iff (hi : i < lead) (hi' : i' < lead) :
    j * lead + i = j' * lead + i' ↔ j = j' ∧ i = i' := by
  refine ⟨fun eq => ?_, fun ⟨hj, hi⟩ => by rw [hj, hi]⟩
  have quotient := congrArg (· / lead) eq
  have remainder := congrArg (· % lead) eq
  simp only [Nat.mul_comm _ lead, Nat.mul_add_mod, Nat.mod_eq_of_lt hi, Nat.mod_eq_of_lt hi',
    Nat.mul_add_div (Nat.zero_lt_of_lt hi), Nat.div_eq_of_lt hi, Nat.div_eq_of_lt hi',
    Nat.add_zero] at quotient remainder
  exact ⟨quotient, remainder⟩

theorem element_set {x : α} (sized : m * lead ≤ block.size) (hi : i < lead) (hj : j < m)
    (hi' : i' < lead) : element lead (block.setIfInBounds (j * lead + i) x) i' j' =
      if i' = i ∧ j' = j then x else element lead block i' j' := by
  unfold element
  rw [getD_setIfInBounds (Nat.lt_of_lt_of_le (place_lt hi hj) sized)]
  simp only [place_eq_iff hi' hi, and_comm]

theorem getD_swapIfInBounds {xs : Array α} {a b c : Nat} (ha : a < xs.size) (hb : b < xs.size) :
    (xs.swapIfInBounds a b).getD c 0 =
      if c = a then xs.getD b 0 else if c = b then xs.getD a 0 else xs.getD c 0 := by
  simp only [Array.getD_eq_getD_getElem?]
  grind

theorem element_swap (sized : m * lead ≤ block.size) (hi : i < lead) (hj : j < m) (hp : p < lead)
    (hq : q < m) (hi' : i' < lead) :
    element lead (block.swapIfInBounds (j * lead + i) (q * lead + p)) i' j' =
      if i' = i ∧ j' = j then element lead block p q
      else if i' = p ∧ j' = q then element lead block i j else element lead block i' j' := by
  unfold element
  rw [getD_swapIfInBounds (Nat.lt_of_lt_of_le (place_lt hi hj) sized)
    (Nat.lt_of_lt_of_le (place_lt hp hq) sized)]
  simp only [place_eq_iff hi' hi, place_eq_iff hi' hp, and_comm]

/-! ### Exchanges -/

/-- The place whose contents come to place `x` when `a` and `b` are exchanged. -/
def exchanged (a b x : Nat) : Nat := if x = a then b else if x = b then a else x

theorem exchanged_lt {a b x : Nat} (ha : a < n) (hb : b < n) (hx : x < n) : exchanged a b x < n := by
  unfold exchanged
  split
  · exact hb
  · split
    · exact ha
    · exact hx

@[simp] theorem exchanged_self (a x : Nat) : exchanged a a x = x := by
  unfold exchanged
  split <;> simp_all

@[simp] theorem exchanged_left (a b : Nat) : exchanged a b a = b := if_pos rfl

@[simp] theorem exchanged_right (a b : Nat) : exchanged a b b = a := by
  unfold exchanged
  split <;> simp_all

theorem exchanged_of_lt {a b x : Nat} (ha : x < a) (hb : x < b) : exchanged a b x = x := by
  unfold exchanged
  rw [if_neg (by omega), if_neg (by omega)]

theorem le_exchanged_iff {a b x : Nat} (ha : k ≤ a) (hb : k ≤ b) :
    k ≤ exchanged a b x ↔ k ≤ x := by
  unfold exchanged
  grind

theorem lt_exchanged_iff {a b x : Nat} (ha : k < a) (hb : k < b) : k < exchanged a b x ↔ k < x :=
  le_exchanged_iff ha hb

theorem exchanged_eq_iff {a b x : Nat} (ha : k < a) (hb : k < b) : exchanged a b x = k ↔ x = k := by
  unfold exchanged
  grind

theorem swapColumns_spec (wide : m ≤ lead) (hj : j < m) (hk : k < m) (hn : n ≤ m)
    (sized : m * lead ≤ block.size) :
    (swapColumns block n lead j k).size = block.size ∧ ∀ p < m, ∀ q < m,
      element lead (swapColumns block n lead j k) p q =
        if p < n then element lead block p (exchanged j k q) else element lead block p q := by
  induction n with
  | zero => exact ⟨rfl, fun p _ q _ => rfl⟩
  | succ n ih =>
    obtain ⟨size, elements⟩ := ih (by omega)
    have step : swapColumns block (n + 1) lead j k =
        (swapColumns block n lead j k).swapIfInBounds (j * lead + n) (k * lead + n) := by
      simp [swapColumns, List.range_succ]
    rw [step]
    refine ⟨by rw [Array.size_swapIfInBounds, size], fun p hp q hq => ?_⟩
    rw [element_swap (by rwa [size]) (by omega) hj (by omega) hk (by omega)]
    rw [elements n (by omega) k hk, elements n (by omega) j hj, elements p hp q hq]
    unfold exchanged
    grind

theorem swapRows_spec (wide : m ≤ lead) (hi : i < m) (hk : k < m) (hn : n ≤ m)
    (sized : m * lead ≤ block.size) :
    (swapRows block n lead i k).size = block.size ∧ ∀ p < m, ∀ q < m,
      element lead (swapRows block n lead i k) p q =
        if q < n then element lead block (exchanged i k p) q else element lead block p q := by
  induction n with
  | zero => exact ⟨rfl, fun p _ q _ => rfl⟩
  | succ n ih =>
    obtain ⟨size, elements⟩ := ih (by omega)
    have step : swapRows block (n + 1) lead i k =
        (swapRows block n lead i k).swapIfInBounds (n * lead + i) (n * lead + k) := by
      simp [swapRows, List.range_succ]
    rw [step]
    refine ⟨by rw [Array.size_swapIfInBounds, size], fun p hp q hq => ?_⟩
    rw [element_swap (by rwa [size]) (by omega) (by omega) (by omega) (by omega) (by omega)]
    rw [elements i hi n (by omega), elements k hk n (by omega), elements p hp q hq]
    unfold exchanged
    grind

/-! ### Reductions -/

theorem scaleColumn_spec (wide : m ≤ lead) (hk : k < m) (sized : m * lead ≤ block.size) :
    (scaleColumn block m lead k).size = block.size ∧ ∀ p < m, ∀ q < m,
      element lead (scaleColumn block m lead k) p q =
        if k < p ∧ q = k then element lead block p k * (1 / element lead block k k)
        else element lead block p q := by
  have partly : ∀ n, k + 1 + n ≤ m → ∀ inverse : α,
      let scaled := (List.range' (k + 1) n).foldl (fun a i =>
        a.setIfInBounds (k * lead + i) (a.getD (k * lead + i) 0 * inverse)) block
      scaled.size = block.size ∧ ∀ p < m, ∀ q < m, element lead scaled p q =
        if k < p ∧ p < k + 1 + n ∧ q = k then element lead block p k * inverse
        else element lead block p q := by
    intro n hn inverse
    induction n with
    | zero => exact ⟨rfl, fun p _ q _ => by rw [if_neg (by omega)]; rfl⟩
    | succ n ih =>
      obtain ⟨size, elements⟩ := ih (by omega)
      simp only [List.range'_1_concat, List.foldl_append, List.foldl_cons, List.foldl_nil]
      refine ⟨by rw [Array.size_setIfInBounds, size], fun p hp q hq => ?_⟩
      rw [element_set (by rwa [size]) (by omega) hk (by omega), elements p hp q hq]
      have here := elements (k + 1 + n) (by omega) k hk
      unfold element at here ⊢
      rw [here]
      grind
  obtain ⟨size, elements⟩ := partly (m - (k + 1)) (by omega) (1 / element lead block k k)
  refine ⟨size, fun p hp q hq => (elements p hp q hq).trans ?_⟩
  grind

@[simp] theorem size_reduceColumn : (reduceColumn m lead k block j).size = block.size := by
  have kept : ∀ (places : List Nat) (f : Array α → Nat → Nat × α) (xs : Array α),
      (places.foldl (fun a i => a.setIfInBounds (f a i).1 (f a i).2) xs).size = xs.size := by
    intro places f xs
    induction places generalizing xs with
    | nil => rfl
    | cons i rest ih => rw [List.foldl_cons, ih, Array.size_setIfInBounds]
  unfold reduceColumn
  dsimp only
  split
  · exact kept _ (fun a i => (j * lead + i,
      a.getD (j * lead + i) 0 - a.getD (k * lead + i) 0 * block.getD (j * lead + k) 0)) _
  · rfl

@[simp] theorem size_reduceColumns (places : List Nat) :
    (places.foldl (reduceColumn m lead k) block).size = block.size := by
  induction places generalizing block with
  | nil => rfl
  | cons j rest ih => rw [List.foldl_cons, ih, size_reduceColumn]

/-! ### Elements that stay -/

/-- Two blocks that differ in the first `m` elements of the first `m` columns only. -/
structure SameOutside (m lead : Nat) (before after : Array α) : Prop where
  size : after.size = before.size
  elements : ∀ i < lead, ∀ j, m ≤ i ∨ m ≤ j → element lead after i j = element lead before i j

namespace SameOutside

variable {ι : Type} {before mid after : Array α} {f : Array α → ι → Array α} {xs : List ι}

theorem refl (block : Array α) : SameOutside m lead block block := ⟨rfl, fun _ _ _ _ => rfl⟩

theorem trans (first : SameOutside m lead before mid) (second : SameOutside m lead mid after) :
    SameOutside m lead before after :=
  ⟨second.size.trans first.size, fun i hi j outside =>
    (second.elements i hi j outside).trans (first.elements i hi j outside)⟩

theorem set (wide : m ≤ lead) (hi : i < m) (hj : j < m) (block : Array α) (x : α) :
    SameOutside m lead block (block.setIfInBounds (j * lead + i) x) := by
  refine ⟨Array.size_setIfInBounds, fun i' hi' j' outside => ?_⟩
  have apart : j * lead + i ≠ j' * lead + i' := fun eq => by
    obtain ⟨rfl, rfl⟩ := (place_eq_iff (by omega) hi').mp eq
    omega
  unfold element
  rw [Array.getD_eq_getD_getElem?, Array.getElem?_setIfInBounds_ne apart,
    ← Array.getD_eq_getD_getElem?]

theorem swap (wide : m ≤ lead) (hi : i < m) (hj : j < m) (hp : p < m) (hq : q < m)
    (block : Array α) :
    SameOutside m lead block (block.swapIfInBounds (j * lead + i) (q * lead + p)) := by
  refine ⟨Array.size_swapIfInBounds, fun i' hi' j' outside => ?_⟩
  have apart : j * lead + i ≠ j' * lead + i' := fun eq => by
    obtain ⟨rfl, rfl⟩ := (place_eq_iff (by omega) hi').mp eq
    omega
  have apart' : q * lead + p ≠ j' * lead + i' := fun eq => by
    obtain ⟨rfl, rfl⟩ := (place_eq_iff (by omega) hi').mp eq
    omega
  unfold element
  simp only [Array.getD_eq_getD_getElem?]
  grind

theorem foldl (step : ∀ block, ∀ x ∈ xs, SameOutside m lead block (f block x)) :
    SameOutside m lead block (xs.foldl f block) := by
  induction xs generalizing block with
  | nil => exact .refl _
  | cons x xs ih =>
    exact (step block x List.mem_cons_self).trans
      (ih fun block y hy => step block y (List.mem_cons_of_mem x hy))

end SameOutside

section Outside

variable (wide : m ≤ lead) (block : Array α)

include wide

theorem sameOutside_swapColumns (hj : j < m) (hk : k < m) :
    SameOutside m lead block (swapColumns block m lead j k) :=
  .foldl fun block _ hi =>
    .swap wide (List.mem_range.mp hi) hj (List.mem_range.mp hi) hk block

theorem sameOutside_swapRows (hi : i < m) (hk : k < m) :
    SameOutside m lead block (swapRows block m lead i k) :=
  .foldl fun block _ hj =>
    .swap wide hi (List.mem_range.mp hj) hk (List.mem_range.mp hj) block

theorem sameOutside_scaleColumn (hk : k < m) :
    SameOutside m lead block (scaleColumn block m lead k) :=
  .foldl fun block i hi => by
    have range := List.mem_range'_1.mp hi
    exact .set wide (by omega) hk block _

theorem sameOutside_reduceColumn (hj : j < m) :
    SameOutside m lead block (reduceColumn m lead k block j) := by
  unfold reduceColumn
  dsimp only
  split
  · exact .foldl fun block i hi => by
      have range := List.mem_range'_1.mp hi
      exact .set wide (by omega) hj block _
  · exact .refl block

end Outside

/-! ### The search for the largest element -/

theorem largestBelow_lt (hk : k < m) : (largestBelow block m lead k).1 < m := by
  have partly : ∀ n, k + n ≤ m → ((List.range' k n).foldl (fun (best : Nat × α) i =>
      let x := Scalar.abs (block.getD (k * lead + i) 0)
      if best.2 < x then (i, x) else best) (k, 0)).1 < m := by
    intro n hn
    induction n with
    | zero => exact hk
    | succ n ih =>
      simp only [List.range'_1_concat, List.foldl_append, List.foldl_cons, List.foldl_nil]
      split
      · dsimp only
        omega
      · exact ih (by omega)
  exact partly (m - k) (by omega)

/-! ### The invariant -/

namespace Elimination

/-- Rows and columns in some order, of which at most all are eliminated. -/
structure Shape (m lead : Nat) (e : Elimination α) : Prop where
  sized : m * lead ≤ e.block.size
  rows : e.rows.toList.Perm (List.range m)
  cols : e.cols.toList.Perm (List.range m)

variable {e : Elimination α} {remaining last : Nat} {tolerance : α}

theorem getD_exchange {xs : Array Nat} {a b x : Nat} (ha : a < xs.size) (hb : b < xs.size) :
    (xs.swapIfInBounds a b).getD x 0 = xs.getD (exchanged a b x) 0 := by
  unfold exchanged
  simp only [Array.getD_eq_getD_getElem?]
  grind

theorem exchange_perm {xs : Array Nat} {a b : Nat} (perm : xs.toList.Perm (List.range m)) :
    (xs.swapIfInBounds a b).toList.Perm (List.range m) := by
  refine List.Perm.trans ?_ perm
  unfold Array.swapIfInBounds
  split
  · split
    · exact (Array.swap_perm _ _).toList
    · rfl
  · rfl

namespace Shape

theorem size_rows (h : e.Shape m lead) : e.rows.size = m := by
  simpa using h.rows.length_eq

theorem size_cols (h : e.Shape m lead) : e.cols.size = m := by
  simpa using h.cols.length_eq

end Shape

theorem exchangeRows_spec (wide : m ≤ lead) (h : e.Shape m lead) (hp : p < m) (hk : k < m) :
    let block := if p = k then e.block else swapRows e.block m lead p k
    let rows := if p = k then e.rows else e.rows.swapIfInBounds p k
    m * lead ≤ block.size ∧ rows.toList.Perm (List.range m) ∧
      (∀ x < m, ∀ y < m, element lead block x y = element lead e.block (exchanged p k x) y) ∧
      ∀ x, rows.getD x 0 = e.rows.getD (exchanged p k x) 0 := by
  dsimp only
  by_cases same : p = k
  · simp only [same, if_true, exchanged_self]
    exact ⟨h.sized, h.rows, fun _ _ _ _ => trivial, fun _ => trivial⟩
  · simp only [same, if_false]
    obtain ⟨size, elements⟩ := swapRows_spec wide hp hk le_rfl h.sized
    refine ⟨by rw [size]; exact h.sized, exchange_perm h.rows, fun x hx y hy => ?_, fun x => ?_⟩
    · rw [elements x hx y hy, if_pos hy]
    · exact getD_exchange (by rwa [h.size_rows]) (by rwa [h.size_rows])

theorem stage_eq (m lead p : Nat) (e : Elimination α) : e.stage m lead p =
    ⟨(List.range' (e.rank + 1) (m - (e.rank + 1))).foldl (reduceColumn m lead e.rank)
        (scaleColumn (if p = e.rank then e.block else swapRows e.block m lead p e.rank) m lead
          e.rank),
      if p = e.rank then e.rows else e.rows.swapIfInBounds p e.rank, e.cols, e.rank + 1,
      e.flops + (m - e.rank - 1) * (m - e.rank - 1 + 1)⟩ := by
  obtain ⟨block, rows, cols, k, flops⟩ := e
  by_cases same : p = k <;> simp [stage, same]

theorem shape_stage (wide : m ≤ lead) (h : e.Shape m lead) (hp : p < m) (hk : e.rank < m) :
    (e.stage m lead p).Shape m lead := by
  obtain ⟨sized, perm, -⟩ := exchangeRows_spec wide h hp hk
  rw [stage_eq]
  refine ⟨?_, perm, h.cols⟩
  rw [size_reduceColumns, (scaleColumn_spec wide hk sized).1]
  exact sized

@[simp] theorem rank_stage : (e.stage m lead p).rank = e.rank + 1 := by rw [stage_eq]

@[simp] theorem cols_stage : (e.stage m lead p).cols = e.cols := by rw [stage_eq]

theorem rows_stage (wide : m ≤ lead) (h : e.Shape m lead) (hp : p < m) (hk : e.rank < m) (x : Nat) :
    (e.stage m lead p).rows.getD x 0 = e.rows.getD (exchanged p e.rank x) 0 := by
  rw [stage_eq]
  exact (exchangeRows_spec wide h hp hk).2.2.2 x

/-! ### Columns without a pivot -/

theorem postpone_spec (wide : m ≤ lead) (h : e.Shape m lead) (hk : e.rank < m) (hl : last < m) :
    (e.postpone m lead last).Shape m lead ∧ (e.postpone m lead last).rank = e.rank ∧
      (e.postpone m lead last).rows = e.rows ∧
      (∀ y, (e.postpone m lead last).cols.getD y 0 = e.cols.getD (exchanged e.rank last y) 0) ∧
      ∀ x < m, ∀ y < m, element lead (e.postpone m lead last).block x y =
        element lead e.block x (exchanged e.rank last y) := by
  obtain ⟨block, rows, cols, k, flops⟩ := e
  dsimp only at hk
  by_cases same : k = last
  · simp only [postpone, same, if_true, exchanged_self]
    rw [same] at h
    exact ⟨h, trivial, trivial, fun _ => trivial, fun _ _ _ _ => trivial⟩
  · simp only [postpone, same, if_false]
    obtain ⟨size, elements⟩ := swapColumns_spec wide hk hl le_rfl h.sized
    refine ⟨⟨by dsimp only; rw [size]; exact h.sized, h.rows, exchange_perm h.cols⟩, trivial, trivial,
      fun y => getD_exchange (by rwa [h.size_cols]) (by rwa [h.size_cols]), fun x hx y hy => ?_⟩
    rw [elements x hx y hy, if_pos hx]

/-! ### Elements that stay -/

theorem sameOutside_stage (wide : m ≤ lead) (hp : p < m) (hk : e.rank < m) :
    SameOutside m lead e.block (e.stage m lead p).block := by
  rw [stage_eq]
  have exchange : SameOutside m lead e.block
      (if p = e.rank then e.block else swapRows e.block m lead p e.rank) := by
    split
    · exact .refl _
    · exact sameOutside_swapRows wide e.block hp hk
  refine (exchange.trans (sameOutside_scaleColumn wide _ hk)).trans (.foldl fun block j hj => ?_)
  have range := List.mem_range'_1.mp hj
  exact sameOutside_reduceColumn wide block (by omega)

theorem sameOutside_postpone (wide : m ≤ lead) (hk : e.rank < m) (hl : last < m) :
    SameOutside m lead e.block (e.postpone m lead last).block ∧
      (e.postpone m lead last).rank = e.rank := by
  obtain ⟨block, rows, cols, k, flops⟩ := e
  by_cases same : k = last
  · simp only [postpone, same, if_true]
    exact ⟨.refl block, trivial⟩
  · simp only [postpone, same, if_false]
    exact ⟨sameOutside_swapColumns wide block hk hl, trivial⟩

/-! ### Runs -/

theorem shape_start (sized : m * lead ≤ block.size) : (start block m).Shape m lead :=
  ⟨sized, by simp [start], by simp [start]⟩

/-- Elimination keeps rows and columns permuted and looks at every column once. -/
theorem run_shape (wide : m ≤ lead) (h : e.Shape m lead) (inside : e.rank + remaining ≤ m) :
    (run m lead tolerance remaining e).Shape m lead ∧
      (run m lead tolerance remaining e).rank ≤ m := by
  induction remaining generalizing e with
  | zero => exact ⟨h, inside⟩
  | succ remaining ih =>
    have hk : e.rank < m := by omega
    unfold run
    dsimp only
    split
    · obtain ⟨shape, rank, -⟩ := @postpone_spec _ _ _ _ _ (e.rank + remaining) wide h hk (by omega)
      exact ih shape (by omega)
    · exact ih (shape_stage wide h (largestBelow_lt hk) hk) (by rw [rank_stage]; omega)

/-- Elimination writes to the first `m` elements of the first `m` columns only. -/
theorem run_sameOutside (wide : m ≤ lead) (inside : e.rank + remaining ≤ m) :
    SameOutside m lead e.block (run m lead tolerance remaining e).block := by
  induction remaining generalizing e with
  | zero => exact .refl _
  | succ remaining ih =>
    have hk : e.rank < m := by omega
    unfold run
    dsimp only
    split
    · obtain ⟨same, rank⟩ := @sameOutside_postpone _ _ _ _ _ (e.rank + remaining) wide hk (by omega)
      exact same.trans (ih (by rw [rank]; omega))
    · exact (sameOutside_stage wide (largestBelow_lt hk) hk).trans (ih (by rw [rank_stage]; omega))

end Elimination

/-! ### Exact elimination -/

section Exact

variable {block : Array ℚ}

theorem reduceColumn_spec (wide : m ≤ lead) (hk : k < m) (hj : j < m) (ne : j ≠ k)
    (sized : m * lead ≤ block.size) :
    (reduceColumn m lead k block j).size = block.size ∧ ∀ p < m, ∀ q < m,
      element lead (reduceColumn m lead k block j) p q =
        if k < p ∧ q = j then
          element lead block p j - element lead block p k * element lead block k j
        else element lead block p q := by
  have partly : ∀ n, k + 1 + n ≤ m → ∀ u : ℚ,
      let reduced := (List.range' (k + 1) n).foldl (fun a i =>
        a.setIfInBounds (j * lead + i) (a.getD (j * lead + i) 0 - a.getD (k * lead + i) 0 * u)) block
      reduced.size = block.size ∧ ∀ p < m, ∀ q < m, element lead reduced p q =
        if k < p ∧ p < k + 1 + n ∧ q = j then element lead block p j - element lead block p k * u
        else element lead block p q := by
    intro n hn u
    induction n with
    | zero => exact ⟨rfl, fun p _ q _ => by rw [if_neg (by omega)]; rfl⟩
    | succ n ih =>
      obtain ⟨size, elements⟩ := ih (by omega)
      simp only [List.range'_1_concat, List.foldl_append, List.foldl_cons, List.foldl_nil]
      refine ⟨by rw [Array.size_setIfInBounds, size], fun p hp q hq => ?_⟩
      rw [element_set (by rwa [size]) (by omega) hj (by omega), elements p hp q hq]
      have here := elements (k + 1 + n) (by omega) j hj
      have multiplier := elements (k + 1 + n) (by omega) k hk
      unfold element at here multiplier ⊢
      rw [here, multiplier]
      grind
  unfold reduceColumn
  dsimp only
  split
  · obtain ⟨size, elements⟩ := partly (m - (k + 1)) (by omega) (element lead block k j)
    refine ⟨size, fun p hp q hq => (elements p hp q hq).trans ?_⟩
    grind
  · rename_i zero
    have zero : element lead block k j = 0 := by simpa [element] using zero
    refine ⟨rfl, fun p hp q hq => ?_⟩
    split
    · rename_i here
      rw [zero, mul_zero, sub_zero, here.2]
    · rfl

theorem reduceColumns_spec (wide : m ≤ lead) (hk : k < m) (sized : m * lead ≤ block.size) :
    let reduced := (List.range' (k + 1) (m - (k + 1))).foldl (reduceColumn m lead k) block
    reduced.size = block.size ∧ ∀ p < m, ∀ q < m, element lead reduced p q =
      if k < p ∧ k < q then
        element lead block p q - element lead block p k * element lead block k q
      else element lead block p q := by
  have partly : ∀ n, k + 1 + n ≤ m →
      let reduced := (List.range' (k + 1) n).foldl (reduceColumn m lead k) block
      reduced.size = block.size ∧ ∀ p < m, ∀ q < m, element lead reduced p q =
        if k < p ∧ k < q ∧ q < k + 1 + n then
          element lead block p q - element lead block p k * element lead block k q
        else element lead block p q := by
    intro n hn
    induction n with
    | zero => exact ⟨rfl, fun p _ q _ => by rw [if_neg (by omega)]; rfl⟩
    | succ n ih =>
      obtain ⟨size, elements⟩ := ih (by omega)
      simp only [List.range'_1_concat, List.foldl_append, List.foldl_cons, List.foldl_nil]
      obtain ⟨size', elements'⟩ := reduceColumn_spec wide hk (j := k + 1 + n) (by omega) (by omega)
        (by rwa [size])
      refine ⟨size'.trans size, fun p hp q hq => ?_⟩
      rw [elements' p hp q hq, elements p hp q hq, elements p hp (k + 1 + n) (by omega),
        elements p hp k hk, elements k hk (k + 1 + n) (by omega)]
      grind
  obtain ⟨size, elements⟩ := partly (m - (k + 1)) (by omega)
  refine ⟨size, fun p hp q hq => (elements p hp q hq).trans ?_⟩
  grind

theorem largestBelow_spec (hk : k < m) :
    k ≤ (largestBelow block m lead k).1 ∧ (largestBelow block m lead k).1 < m ∧
      (∀ i, k ≤ i → i < m → |element lead block i k| ≤ (largestBelow block m lead k).2) ∧
      (0 < (largestBelow block m lead k).2 →
        |element lead block (largestBelow block m lead k).1 k| = (largestBelow block m lead k).2) := by
  have partly : ∀ n, k + n ≤ m →
      let best := (List.range' k n).foldl (fun (best : Nat × ℚ) i =>
        let x := Scalar.abs (block.getD (k * lead + i) 0)
        if best.2 < x then (i, x) else best) (k, 0)
      k ≤ best.1 ∧ best.1 < m ∧ (∀ i, k ≤ i → i < k + n → |element lead block i k| ≤ best.2) ∧
        (0 < best.2 → |element lead block best.1 k| = best.2) := by
    intro n hn
    induction n with
    | zero => exact ⟨le_rfl, hk, fun i low high => absurd high (by omega), fun pos => absurd pos (lt_irrefl _)⟩
    | succ n ih =>
      obtain ⟨low, high, bound, attained⟩ := ih (by omega)
      simp only [List.range'_1_concat, List.foldl_append, List.foldl_cons, List.foldl_nil,
        scalar_abs]
      simp only [scalar_abs] at low high bound attained
      split
      · rename_i larger
        refine ⟨by omega, by omega, fun i lowI highI => ?_, fun _ => rfl⟩
        by_cases last : i = k + n
        · rw [last]
          exact le_rfl
        · exact (bound i lowI (by omega)).trans (le_of_lt larger)
      · rename_i smaller
        refine ⟨low, high, fun i lowI highI => ?_, attained⟩
        by_cases last : i = k + n
        · rw [last]
          exact not_lt.mp smaller
        · exact bound i lowI (by omega)
  obtain ⟨low, high, bound, attained⟩ := partly (m - k) (by omega)
  exact ⟨low, high, fun i lowI highI => bound i lowI (by omega), attained⟩

end Exact

namespace Elimination

variable {block : Array ℚ} {e : Elimination ℚ} {A : Nat → Nat → ℚ} {remaining last : Nat}
  {tolerance : ℚ}

theorem stage_spec (wide : m ≤ lead) (h : e.Shape m lead) (hp : p < m) (hk : e.rank < m) :
    ∀ x < m, ∀ y < m, element lead (e.stage m lead p).block x y =
      (let E := fun x y => element lead e.block (exchanged p e.rank x) y
      if e.rank < x ∧ e.rank < y then E x y - E x e.rank * (1 / E e.rank e.rank) * E e.rank y
      else if e.rank < x ∧ y = e.rank then E x e.rank * (1 / E e.rank e.rank)
      else E x y) := by
  obtain ⟨sized, perm, elements, -⟩ := exchangeRows_spec wide h hp hk
  obtain ⟨scaledSize, scaled⟩ := scaleColumn_spec wide hk sized
  obtain ⟨reducedSize, reduced⟩ := reduceColumns_spec wide hk
    (by rwa [scaledSize])
  rw [stage_eq]
  intro x hx y hy
  have pivotRow : ∀ y < m, element lead (scaleColumn (if p = e.rank then e.block else
      swapRows e.block m lead p e.rank) m lead e.rank) e.rank y =
        element lead e.block (exchanged p e.rank e.rank) y := by
    intro y hy
    rw [scaled e.rank hk y hy, if_neg (by omega), elements e.rank hk y hy]
  rw [reduced x hx y hy, scaled x hx y hy, scaled x hx e.rank hk, pivotRow y hy,
    elements x hx y hy, elements x hx e.rank hk, elements e.rank hk e.rank hk]
  grind

/-- The entry of the lower factor in row `p` of stage `t`. -/
def lowerPart (lead : Nat) (e : Elimination ℚ) (p t : Nat) : ℚ :=
  if p = t then 1 else if t < p then element lead e.block p t else 0

/-- The entry of the upper factor in column `q` of stage `t`. -/
def upperPart (lead : Nat) (e : Elimination ℚ) (t q : Nat) : ℚ :=
  if t ≤ q then element lead e.block t q else 0

/-- What is left behind the completed stages. -/
def restPart (lead : Nat) (e : Elimination ℚ) (p q : Nat) : ℚ :=
  if e.rank ≤ p ∧ e.rank ≤ q then element lead e.block p q else 0

/-- The matrix `A`, in the order of the elimination, is the sum of the products of the stages and of
the rest. -/
def Splits (A : Nat → Nat → ℚ) (m lead : Nat) (e : Elimination ℚ) : Prop :=
  ∀ p < m, ∀ q < m, A (e.rows.getD p 0) (e.cols.getD q 0) =
    ((List.range e.rank).map fun t => e.lowerPart lead p t * e.upperPart lead t q).sum +
      e.restPart lead p q

/-- The columns that were moved behind the others are zero below the completed stages. -/
def Cleared (m lead : Nat) (e : Elimination ℚ) (remaining : Nat) : Prop :=
  ∀ p q, e.rank ≤ p → p < m → e.rank + remaining ≤ q → q < m → element lead e.block p q = 0

/-- The pivots exceed the tolerance, and no multiplier exceeds one. -/
def Bounded (m lead : Nat) (tolerance : ℚ) (e : Elimination ℚ) : Prop :=
  ∀ t < e.rank, tolerance < |element lead e.block t t| ∧
    ∀ s, t < s → s < m → |element lead e.block s t| ≤ 1

section Stage

variable (wide : m ≤ lead) (h : e.Shape m lead) (hp : p < m) (hk : e.rank < m)

include wide h hp hk

/-- The completed stages move with the rows that are exchanged. -/
theorem lowerPart_stage {x t : Nat} (low : e.rank ≤ p) (hx : x < m) (ht : t < e.rank) :
    (e.stage m lead p).lowerPart lead x t = e.lowerPart lead (exchanged p e.rank x) t := by
  have element_eq : element lead (e.stage m lead p).block x t =
      element lead e.block (exchanged p e.rank x) t := by
    rw [stage_spec wide h hp hk x hx t (by omega), if_neg (by omega), if_neg (by omega)]
  unfold lowerPart
  rw [element_eq]
  simp only [exchanged_eq_iff (ht.trans_le low) ht, lt_exchanged_iff (ht.trans_le low) ht]

theorem upperPart_stage {t y : Nat} (low : e.rank ≤ p) (ht : t < e.rank) (hy : y < m) :
    (e.stage m lead p).upperPart lead t y = e.upperPart lead t y := by
  have element_eq : element lead (e.stage m lead p).block t y = element lead e.block t y := by
    rw [stage_spec wide h hp hk t (by omega) y hy]
    dsimp only
    rw [if_neg (by omega), if_neg (by omega), exchanged_of_lt (by omega) ht]
  unfold upperPart
  rw [element_eq]

/-- What was left is the product of the stage and what is left behind it. -/
theorem restPart_eq {x y : Nat} (low : e.rank ≤ p) (hx : x < m) (hy : y < m)
    (nonzero : element lead e.block p e.rank ≠ 0) :
    e.restPart lead (exchanged p e.rank x) y =
      (e.stage m lead p).lowerPart lead x e.rank * (e.stage m lead p).upperPart lead e.rank y +
        (e.stage m lead p).restPart lead x y := by
  have here := stage_spec wide h hp hk x hx y hy
  have column := stage_spec wide h hp hk x hx e.rank hk
  have row := stage_spec wide h hp hk e.rank hk y hy
  dsimp only at here column row
  rw [exchanged_right] at here column row
  rw [if_neg (by omega), if_neg (by omega)] at row
  unfold restPart lowerPart upperPart
  simp only [rank_stage, le_exchanged_iff low le_rfl]
  by_cases left : e.rank ≤ x ∧ e.rank ≤ y
  · obtain ⟨lowX, lowY⟩ := left
    rw [if_pos ⟨lowX, lowY⟩, if_pos lowY, row]
    by_cases pivotRow : x = e.rank
    · rw [if_pos pivotRow, if_neg (by omega), pivotRow, exchanged_right]
      ring
    · rw [if_neg (by omega), if_pos ⟨by omega, rfl⟩] at column
      rw [if_neg pivotRow, if_pos (by omega), column]
      by_cases pivotCol : y = e.rank
      · rw [if_neg (by omega), pivotCol]
        field_simp
        ring
      · rw [if_pos (by omega)] at here
        rw [if_pos (by omega), here]
        ring
  · rw [if_neg left, if_neg (by omega : ¬ (e.rank + 1 ≤ x ∧ e.rank + 1 ≤ y)), add_zero]
    rcases Nat.lt_or_ge x e.rank with front | back
    · rw [if_neg (by omega : ¬ x = e.rank), if_neg (by omega : ¬ e.rank < x), zero_mul]
    · rw [if_neg (by omega : ¬ e.rank ≤ y), mul_zero]

end Stage

theorem Splits.stage (split : e.Splits A m lead) (wide : m ≤ lead) (h : e.Shape m lead) (hp : p < m)
    (low : e.rank ≤ p) (hk : e.rank < m) (nonzero : element lead e.block p e.rank ≠ 0) :
    (e.stage m lead p).Splits A m lead := by
  intro x hx y hy
  have inside := exchanged_lt hp hk hx
  rw [rows_stage wide h hp hk, cols_stage, rank_stage, split _ inside y hy, List.range_succ,
    List.map_append, List.sum_append, List.map_singleton, List.sum_singleton, add_assoc,
    restPart_eq wide h hp hk low hx hy nonzero]
  congr 1
  refine congrArg List.sum (List.map_congr_left fun t ht => ?_)
  have ht := List.mem_range.mp ht
  rw [lowerPart_stage wide h hp hk low hx ht, upperPart_stage wide h hp hk low ht hy]

theorem Cleared.stage (cleared : e.Cleared m lead (remaining + 1)) (wide : m ≤ lead)
    (h : e.Shape m lead) (hp : p < m) (low : e.rank ≤ p) (hk : e.rank < m) :
    (e.stage m lead p).Cleared m lead remaining := by
  intro x y lowX hx lowY hy
  rw [rank_stage] at lowX lowY
  have zero : ∀ z, e.rank ≤ z → z < m → element lead e.block (exchanged p e.rank z) y = 0 :=
    fun z lowZ hz => cleared _ y ((le_exchanged_iff low le_rfl).mpr lowZ) (exchanged_lt hp hk hz)
      (by omega) hy
  rw [stage_spec wide h hp hk x hx y hy]
  dsimp only
  rw [if_pos (by omega), zero x (by omega) hx, zero e.rank le_rfl hk]
  ring

theorem Bounded.stage (bounded : e.Bounded m lead tolerance) (wide : m ≤ lead) (h : e.Shape m lead)
    (hp : p < m) (low : e.rank ≤ p) (hk : e.rank < m) (nonneg : 0 ≤ tolerance)
    (large : tolerance < |element lead e.block p e.rank|)
    (largest : ∀ i, e.rank ≤ i → i < m →
      |element lead e.block i e.rank| ≤ |element lead e.block p e.rank|) :
    (e.stage m lead p).Bounded m lead tolerance := by
  have elements := stage_spec wide h hp hk
  intro t ht
  rw [rank_stage] at ht
  rcases Nat.lt_succ_iff_lt_or_eq.mp ht with before | rfl
  · have same : ∀ s < m, element lead (e.stage m lead p).block s t =
        element lead e.block (exchanged p e.rank s) t := fun s hs => by
      rw [elements s hs t (by omega), if_neg (by omega), if_neg (by omega)]
    obtain ⟨pivot, multipliers⟩ := bounded t before
    refine ⟨?_, fun s below hs => ?_⟩
    · rwa [same t (by omega), exchanged_of_lt (by omega) before]
    · rw [same s hs]
      exact multipliers _ ((lt_exchanged_iff (by omega) before).mpr below) (exchanged_lt hp hk hs)
  · refine ⟨?_, fun s below hs => ?_⟩
    · rw [elements e.rank hk e.rank hk]
      dsimp only
      rwa [if_neg (by omega), if_neg (by omega), exchanged_right]
    · have positive := lt_of_le_of_lt nonneg large
      have other := largest _ ((le_exchanged_iff low le_rfl).mpr (Nat.le_of_lt below))
        (exchanged_lt hp hk hs)
      rw [elements s hs e.rank hk]
      dsimp only
      rw [if_neg (by omega), if_pos ⟨below, rfl⟩, exchanged_right, mul_one_div, abs_div]
      exact (div_le_one positive).mpr other

theorem Splits.postpone (split : e.Splits A m lead) (wide : m ≤ lead) (h : e.Shape m lead)
    (hk : e.rank < m) (low : e.rank ≤ last) (hl : last < m) :
    (e.postpone m lead last).Splits A m lead := by
  obtain ⟨-, rank, rows, cols, elements⟩ := postpone_spec wide h hk hl
  intro x hx y hy
  rw [rows, cols, split x hx _ (exchanged_lt hk hl hy), rank]
  congr 1
  · refine congrArg List.sum (List.map_congr_left fun t ht => ?_)
    have ht := List.mem_range.mp ht
    have atRow : element lead (e.postpone m lead last).block x t = element lead e.block x t := by
      rw [elements x hx t (by omega), exchanged_of_lt ht (by omega)]
    unfold lowerPart upperPart
    rw [atRow, elements t (by omega) y hy]
    simp only [le_exchanged_iff (Nat.le_of_lt ht) (Nat.le_of_lt (ht.trans_le low))]
  · unfold restPart
    rw [rank, elements x hx y hy]
    simp only [le_exchanged_iff le_rfl low]

theorem Cleared.postpone (cleared : e.Cleared m lead (remaining + 1)) (wide : m ≤ lead)
    (h : e.Shape m lead) (inside : e.rank + remaining < m)
    (zero : ∀ x, e.rank ≤ x → x < m → element lead e.block x e.rank = 0) :
    (e.postpone m lead (e.rank + remaining)).Cleared m lead remaining := by
  obtain ⟨-, rank, -, -, elements⟩ := postpone_spec wide h (by omega) inside
  intro x y lowX hx lowY hy
  rw [rank] at lowX lowY
  rw [elements x hx y hy]
  by_cases moved : y = e.rank + remaining
  · rw [moved, exchanged_right]
    exact zero x lowX hx
  · have place : exchanged e.rank (e.rank + remaining) y = y := by
      unfold exchanged
      grind
    rw [place]
    exact cleared x y lowX hx (by omega) hy

theorem Bounded.postpone (bounded : e.Bounded m lead tolerance) (wide : m ≤ lead)
    (h : e.Shape m lead) (hk : e.rank < m) (low : e.rank ≤ last) (hl : last < m) :
    (e.postpone m lead last).Bounded m lead tolerance := by
  obtain ⟨-, rank, -, -, elements⟩ := postpone_spec wide h hk hl
  intro t ht
  rw [rank] at ht
  have same : ∀ s < m, element lead (e.postpone m lead last).block s t =
      element lead e.block s t := fun s hs => by
    rw [elements s hs t (by omega), exchanged_of_lt ht (by omega)]
  rw [same t (by omega)]
  exact ⟨(bounded t ht).1, fun s below hs => by
    rw [same s hs]
    exact (bounded t ht).2 s below hs⟩

theorem splits_start : (start block m).Splits (element lead block) m lead := by
  intro p hp q hq
  simp [start, restPart, hp, hq, Array.getD]

theorem bounded_start : (start block m).Bounded m lead tolerance := fun _ ht =>
  absurd ht (Nat.not_lt_zero _)

/-- The pivot that is accepted is the largest element below the diagonal of its column. -/
theorem largest_of_accepted (hk : k < m) (nonneg : 0 ≤ tolerance)
    (accepted : ¬(largestBelow block m lead k).2 ≤ tolerance) :
    tolerance < |element lead block (largestBelow block m lead k).1 k| ∧
      ∀ i, k ≤ i → i < m →
        |element lead block i k| ≤ |element lead block (largestBelow block m lead k).1 k| := by
  obtain ⟨-, -, bound, attained⟩ := @largestBelow_spec _ lead _ block hk
  have large := not_le.mp accepted
  rw [attained (lt_of_le_of_lt nonneg large)]
  exact ⟨large, bound⟩

/-- With a tolerance that is not negative the pivots exceed it, and no multiplier exceeds one. -/
theorem run_bounded (wide : m ≤ lead) (h : e.Shape m lead) (inside : e.rank + remaining ≤ m)
    (nonneg : 0 ≤ tolerance) (bounded : e.Bounded m lead tolerance) :
    (run m lead tolerance remaining e).Bounded m lead tolerance := by
  induction remaining generalizing e with
  | zero => exact bounded
  | succ remaining ih =>
    have hk : e.rank < m := by omega
    obtain ⟨low, high, -⟩ := @largestBelow_spec _ lead _ e.block hk
    unfold run
    dsimp only
    split
    · obtain ⟨shape, rank, -⟩ := @postpone_spec _ _ _ _ _ (e.rank + remaining) wide h hk (by omega)
      exact ih shape (by omega) (bounded.postpone wide h hk (by omega) (by omega))
    · rename_i accepted
      obtain ⟨large, largest⟩ := largest_of_accepted hk nonneg accepted
      exact ih (shape_stage wide h high hk) (by rw [rank_stage]; omega)
        (bounded.stage wide h high low hk nonneg large largest)

theorem run_splits (wide : m ≤ lead) (h : e.Shape m lead) (inside : e.rank + remaining ≤ m)
    (nonneg : 0 ≤ tolerance) (split : e.Splits A m lead) :
    (run m lead tolerance remaining e).Splits A m lead := by
  induction remaining generalizing e with
  | zero => exact split
  | succ remaining ih =>
    have hk : e.rank < m := by omega
    obtain ⟨low, high, -⟩ := @largestBelow_spec _ lead _ e.block hk
    unfold run
    dsimp only
    split
    · obtain ⟨shape, rank, -⟩ := @postpone_spec _ _ _ _ _ (e.rank + remaining) wide h hk (by omega)
      exact ih shape (by omega) (split.postpone wide h hk (by omega) (by omega))
    · rename_i accepted
      have nonzero := abs_pos.mp (lt_of_le_of_lt nonneg (largest_of_accepted hk nonneg accepted).1)
      exact ih (shape_stage wide h high hk) (by rw [rank_stage]; omega)
        (split.stage wide h high low hk nonzero)

theorem run_cleared (wide : m ≤ lead) (h : e.Shape m lead) (inside : e.rank + remaining ≤ m)
    (cleared : e.Cleared m lead remaining) : (run m lead 0 remaining e).Cleared m lead 0 := by
  induction remaining generalizing e with
  | zero => exact cleared
  | succ remaining ih =>
    have hk : e.rank < m := by omega
    obtain ⟨low, high, bound, -⟩ := @largestBelow_spec _ lead _ e.block hk
    unfold run
    dsimp only
    split
    · rename_i small
      obtain ⟨shape, rank, -⟩ := @postpone_spec _ _ _ _ _ (e.rank + remaining) wide h hk (by omega)
      refine ih shape (by omega) (cleared.postpone wide h (by omega) fun x lowX hx => ?_)
      exact abs_nonpos_iff.mp ((bound x lowX hx).trans small)
    · exact ih (shape_stage wide h high hk) (by rw [rank_stage]; omega)
        (cleared.stage wide h high low hk)

theorem Bounded.pivot_ne_zero (h : e.Bounded m lead tolerance) (nonneg : 0 ≤ tolerance) :
    ∀ t < e.rank, element lead e.block t t ≠ 0 := fun t ht =>
  abs_pos.mp (lt_of_le_of_lt nonneg (h t ht).1)

end Elimination

end SimplexBasis.Dense
