import Mathlib.Algebra.BigOperators.Group.Finset.Piecewise
import Mathlib.Algebra.GroupWithZero.Nat
import SimplexBasis.Proofs.Sparse.Stages
import SimplexBasis.Proofs.Sparse.View

/-!
# Consistency of views

The invariant of the active submatrix between two pivots: columns and rows hold the same positions,
all of them without a pivot, every line stands in the list of its length, and the entries are
counted. Removing the rest of a row or of a column is described here; the pivots are built from it.
-/

set_option linter.unusedSectionVars false

namespace SimplexBasis

/-! ### Count lists by keys -/

/-- The lists hold exactly the elements that `P` assigns to them. -/
def Listed (m : Nat) (L : Nat → List Nat) (P : Nat → Nat → Prop) : Prop :=
  ∀ n < m + 2, (L n).Nodup ∧ ∀ e, e ∈ L n ↔ e < m ∧ P e n

namespace Listed

variable {m e list : Nat} {L : Nat → List Nat} {P Q : Nat → Nat → Prop}

theorem congr (h : Listed m L P) (same : ∀ e < m, ∀ n < m + 2, P e n ↔ Q e n) : Listed m L Q :=
  fun n hn => ⟨(h n hn).1, fun x => by
    rw [(h n hn).2 x]
    exact and_congr_right fun hx => same x hx n hn⟩

theorem erase (h : Listed m L P) (e : Nat) :
    Listed m (fun k => (L k).erase e) fun x n => x ≠ e ∧ P x n := by
  intro n hn
  obtain ⟨nodup, member⟩ := h n hn
  exact ⟨nodup.erase e, fun x => by rw [nodup.mem_erase_iff, member]; grind⟩

theorem relist (h : Listed m L P) (he : e < m) :
    Listed m (relisted L e list) fun x n => if x = e then n = list else P x n := by
  intro n hn
  obtain ⟨nodup, member⟩ := h.erase e n hn
  unfold relisted CountLists.appended
  by_cases here : n = list
  · rw [if_pos here]
    have absent : e ∉ (L n).erase e := fun h => ((member e).mp h).2.1 rfl
    refine ⟨List.nodup_append.mpr ⟨nodup, List.nodup_singleton e, ?_⟩, fun x => ?_⟩
    · rintro x hx y hy rfl
      exact absent (List.mem_singleton.mp hy ▸ hx)
    · rw [List.mem_append, member, List.mem_singleton]
      grind
  · rw [if_neg here]
    refine ⟨nodup, fun x => ?_⟩
    rw [member]
    grind

end Listed

/-! ### Counting entries -/

variable {α : Type}

def entryCount {ε : Type} (m : Nat) (lines : Nat → List ε) : Nat :=
  ∑ k ∈ Finset.range m, (lines k).length

theorem entryCount_eq_sum {ε : Type} (m : Nat) (lines : Nat → List ε) :
    entryCount m lines = ((List.range m).map fun k => (lines k).length).sum := by
  induction m with
  | zero => rfl
  | succ m ih =>
    rw [entryCount, Finset.sum_range_succ, ← entryCount, ih, List.range_succ]
    simp

theorem entryCount_update {ε : Type} {m k : Nat} (lines : Nat → List ε) (entries : List ε)
    (hk : k < m) : entryCount m (Function.update lines k entries) + (lines k).length =
      entryCount m lines + entries.length := by
  have member : k ∈ Finset.range m := Finset.mem_range.mpr hk
  have split := Finset.add_sum_erase (Finset.range m) (fun l => (lines l).length) member
  have split' := Finset.add_sum_erase (Finset.range m)
    (fun l => (Function.update lines k entries l).length) member
  have same : ∑ l ∈ (Finset.range m).erase k, (Function.update lines k entries l).length =
      ∑ l ∈ (Finset.range m).erase k, (lines l).length :=
    Finset.sum_congr rfl fun l hl => by
      rw [Function.update_of_ne (Finset.ne_of_mem_erase hl)]
  simp only [Function.update_self] at split'
  unfold entryCount
  omega

theorem length_le_entryCount {ε : Type} {m k : Nat} (lines : Nat → List ε) (hk : k < m) :
    (lines k).length ≤ entryCount m lines := by
  have cleared := entryCount_update lines [] hk
  simp only [List.length_nil] at cleared
  omega

theorem sum_le_of_sublist {xs ys : List Nat} (h : xs.Sublist ys) : xs.sum ≤ ys.sum := by
  induction h with
  | slnil => exact Nat.le_refl _
  | cons y _ ih => exact Nat.le_trans ih (by simp)
  | cons_cons x _ ih => simpa using ih

theorem sum_length_le_entryCount {ε : Type} {m : Nat} {ks : List Nat} (distinct : ks.Nodup)
    (inside : ∀ k ∈ ks, k < m) (lines : Nat → List ε) :
    (ks.map fun k => (lines k).length).sum ≤ entryCount m lines := by
  have subperm : ks.Subperm (List.range m) :=
    distinct.subperm fun k hk => List.mem_range.mpr (inside k hk)
  obtain ⟨front, perm, sublist⟩ := subperm
  rw [entryCount_eq_sum, ← (perm.map _).sum_nat]
  exact sum_le_of_sublist (sublist.map _)

/-! ### The invariant -/

namespace ActiveView

/-- What holds between two pivots, where the rows `rowsDone` and the columns `colsDone` have
pivots. -/
structure Consistent (v : ActiveView α) (m : Nat) (rowsDone colsDone : List Nat) : Prop where
  distinctCols : ∀ j < m, (keys (v.cols j)).Nodup
  distinctRows : ∀ i < m, (v.rows i).Nodup
  agree : ∀ i < m, ∀ j < m, j ∈ v.rows i ↔ i ∈ keys (v.cols j)
  colRange : ∀ j < m, ∀ i ∈ keys (v.cols j), i < m ∧ i ∉ rowsDone
  rowRange : ∀ i < m, ∀ j ∈ v.rows i, j < m ∧ j ∉ colsDone
  colListed : Listed m v.colLists fun j n => j ∉ colsDone ∧ n = (v.cols j).length
  rowListed : ∃ list : Nat → Nat, (∀ i < m, list i = (v.rows i).length ∨ list i = m + 1) ∧
    Listed m v.rowLists fun i n => i ∉ rowsDone ∧ n = list i
  sized : v.colMax.size = m
  counted : v.nonzeros = entryCount m v.cols
  small : v.nonzeros < UInt64.size

variable {v : ActiveView α} {m i j : Nat} {rowsDone colsDone : List Nat}

namespace Consistent

theorem col_length_le (h : v.Consistent m rowsDone colsDone) (hj : j < m) :
    (v.cols j).length ≤ m := by
  have subset : keys (v.cols j) ⊆ List.range m := fun i hi =>
    List.mem_range.mpr (h.colRange j hj i hi).1
  simpa using ((h.distinctCols j hj).subperm subset).length_le

theorem row_length_le (h : v.Consistent m rowsDone colsDone) (hi : i < m) :
    (v.rows i).length ≤ m := by
  have subset : v.rows i ⊆ List.range m := fun j hj =>
    List.mem_range.mpr (h.rowRange i hi j hj).1
  simpa using ((h.distinctRows i hi).subperm subset).length_le

theorem col_done (h : v.Consistent m rowsDone colsDone) (hj : j < m) (done : j ∈ colsDone) :
    v.cols j = [] := by
  rw [List.eq_nil_iff_forall_not_mem]
  intro e he
  have key : e.1 ∈ keys (v.cols j) := List.mem_map_of_mem he
  have row := (h.colRange j hj e.1 key).1
  exact (h.rowRange e.1 row j ((h.agree e.1 row j hj).mpr key)).2 done

theorem row_done (h : v.Consistent m rowsDone colsDone) (hi : i < m) (done : i ∈ rowsDone) :
    v.rows i = [] := by
  rw [List.eq_nil_iff_forall_not_mem]
  intro j hj
  have col := (h.rowRange i hi j hj).1
  exact (h.colRange j col i ((h.agree i hi j col).mp hj)).2 done

theorem exists_value (h : v.Consistent m rowsDone colsDone) (hi : i < m) (member : j ∈ v.rows i) :
    ∃ x, (i, x) ∈ v.cols j := by
  have key := (h.agree i hi j (h.rowRange i hi j member).1).mp member
  obtain ⟨⟨_, x⟩, he, rfl⟩ := List.mem_map.mp key
  exact ⟨x, he⟩

end Consistent

/-! ### Removing lines entry by entry -/

variable [Scalar α]

def removeColumns (v : ActiveView α) (i : Nat) (ks : List Nat) : ActiveView α :=
  ks.foldl (fun w k => w.removeFromColumn i k (valueAt (w.cols k) i)) v

def removeRows (v : ActiveView α) (j : Nat) (ks : List Nat) : ActiveView α :=
  ks.foldl (fun w k => w.removeFromRow k j) v

theorem removeColumns_concat (v : ActiveView α) (i k : Nat) (ks : List Nat) :
    v.removeColumns i (ks ++ [k]) = (v.removeColumns i ks).removeFromColumn i k
      (valueAt ((v.removeColumns i ks).cols k) i) := by
  simp [removeColumns]

theorem removeRows_concat (v : ActiveView α) (j k : Nat) (ks : List Nat) :
    v.removeRows j (ks ++ [k]) = (v.removeRows j ks).removeFromRow k j := by
  simp [removeRows]

section Removal

variable {ks : List Nat} {P : Nat → Nat → Prop}

@[simp] theorem rows_removeColumns : (v.removeColumns i ks).rows = v.rows := by
  induction ks using List.reverseRecOn with
  | nil => rfl
  | append_singleton ks k ih => rw [removeColumns_concat]; exact ih

@[simp] theorem rowLists_removeColumns : (v.removeColumns i ks).rowLists = v.rowLists := by
  induction ks using List.reverseRecOn with
  | nil => rfl
  | append_singleton ks k ih => rw [removeColumns_concat]; exact ih

@[simp] theorem size_colMax_removeColumns :
    (v.removeColumns i ks).colMax.size = v.colMax.size := by
  induction ks using List.reverseRecOn with
  | nil => rfl
  | append_singleton ks k ih =>
    rw [removeColumns_concat, ← ih]
    simp only [removeFromColumn, recount]
    split <;> simp

theorem cols_removeColumns (nodup : ks.Nodup) : (v.removeColumns i ks).cols =
    fun k => if k ∈ ks then withoutKey i (v.cols k) else v.cols k := by
  induction ks using List.reverseRecOn with
  | nil => rfl
  | append_singleton ks k ih =>
    obtain ⟨nodup, -, apart⟩ := List.nodup_append.mp nodup
    have fresh : k ∉ ks := fun h => apart k h k List.mem_cons_self rfl
    rw [removeColumns_concat]
    funext l
    simp only [removeFromColumn, recount, ih nodup, if_neg fresh, Function.update_apply]
    grind

theorem listed_removeColumns (nodup : ks.Nodup) (inside : ∀ k ∈ ks, k < m)
    (listed : Listed m v.colLists P) : Listed m (v.removeColumns i ks).colLists fun k n =>
      if k ∈ ks then n = (withoutKey i (v.cols k)).length else P k n := by
  induction ks using List.reverseRecOn with
  | nil => exact listed.congr fun _ _ _ _ => by simp
  | append_singleton ks k ih =>
    obtain ⟨nodup, -, apart⟩ := List.nodup_append.mp nodup
    have fresh : k ∉ ks := fun h => apart k h k List.mem_cons_self rfl
    have before := ih nodup fun l hl => inside l (by simp [hl])
    have after := @Listed.relist _ k (withoutKey i (v.cols k)).length _ _ before
      (inside k (by simp))
    rw [removeColumns_concat]
    simp only [removeFromColumn, recount, cols_removeColumns nodup, if_neg fresh]
    exact after.congr fun e _ n _ => by grind

theorem entryCount_removeColumns (nodup : ks.Nodup) (inside : ∀ k ∈ ks, k < m)
    (member : ∀ k ∈ ks, i ∈ keys (v.cols k)) :
    entryCount m (v.removeColumns i ks).cols + ks.length = entryCount m v.cols := by
  induction ks using List.reverseRecOn with
  | nil => rfl
  | append_singleton ks k ih =>
    obtain ⟨nodup, -, apart⟩ := List.nodup_append.mp nodup
    have fresh : k ∉ ks := fun h => apart k h k List.mem_cons_self rfl
    have before := ih nodup (fun l hl => inside l (by simp [hl])) fun l hl => member l (by simp [hl])
    have same : (v.removeColumns i ks).cols k = v.cols k := by
      simp [cols_removeColumns nodup, fresh]
    have cut := entryCount_update (v.removeColumns i ks).cols (withoutKey i (v.cols k))
      (inside k (by simp))
    have shorter := length_withoutKey (member k (by simp))
    rw [removeColumns_concat]
    simp only [removeFromColumn, recount, List.length_append, List.length_singleton, same] at cut ⊢
    omega

theorem nonzeros_removeColumns (enough : ks.length ≤ v.nonzeros)
    (small : v.nonzeros < UInt64.size) :
    (v.removeColumns i ks).nonzeros = v.nonzeros - ks.length := by
  induction ks using List.reverseRecOn with
  | nil => rfl
  | append_singleton ks k ih =>
    simp only [List.length_append, List.length_singleton] at enough ⊢
    rw [removeColumns_concat]
    simp only [removeFromColumn, recount]
    rw [ih (by omega), Word.add_of_lt (by omega), Word.sub_of_le (by omega)]
    omega

@[simp] theorem cols_removeRows : (v.removeRows j ks).cols = v.cols := by
  induction ks using List.reverseRecOn with
  | nil => rfl
  | append_singleton ks k ih => rw [removeRows_concat]; exact ih

@[simp] theorem colLists_removeRows : (v.removeRows j ks).colLists = v.colLists := by
  induction ks using List.reverseRecOn with
  | nil => rfl
  | append_singleton ks k ih => rw [removeRows_concat]; exact ih

@[simp] theorem colMax_removeRows : (v.removeRows j ks).colMax = v.colMax := by
  induction ks using List.reverseRecOn with
  | nil => rfl
  | append_singleton ks k ih => rw [removeRows_concat]; exact ih

theorem rows_removeRows (nodup : ks.Nodup) : (v.removeRows j ks).rows =
    fun k => if k ∈ ks then without j (v.rows k) else v.rows k := by
  induction ks using List.reverseRecOn with
  | nil => rfl
  | append_singleton ks k ih =>
    obtain ⟨nodup, -, apart⟩ := List.nodup_append.mp nodup
    have fresh : k ∉ ks := fun h => apart k h k List.mem_cons_self rfl
    rw [removeRows_concat]
    funext l
    simp only [removeFromRow, recount, ih nodup, if_neg fresh, Function.update_apply]
    grind

theorem listed_removeRows (nodup : ks.Nodup) (inside : ∀ k ∈ ks, k < m)
    (listed : Listed m v.rowLists P) : Listed m (v.removeRows j ks).rowLists fun k n =>
      if k ∈ ks then n = (without j (v.rows k)).length else P k n := by
  induction ks using List.reverseRecOn with
  | nil => exact listed.congr fun _ _ _ _ => by simp
  | append_singleton ks k ih =>
    obtain ⟨nodup, -, apart⟩ := List.nodup_append.mp nodup
    have fresh : k ∉ ks := fun h => apart k h k List.mem_cons_self rfl
    have before := ih nodup fun l hl => inside l (by simp [hl])
    have after := @Listed.relist _ k (without j (v.rows k)).length _ _ before
      (inside k (by simp))
    rw [removeRows_concat]
    simp only [removeFromRow, recount, rows_removeRows nodup, if_neg fresh]
    exact after.congr fun e _ n _ => by grind

theorem entryCount_removeRows (nodup : ks.Nodup) (inside : ∀ k ∈ ks, k < m)
    (member : ∀ k ∈ ks, j ∈ v.rows k) :
    entryCount m (v.removeRows j ks).rows + ks.length = entryCount m v.rows := by
  induction ks using List.reverseRecOn with
  | nil => rfl
  | append_singleton ks k ih =>
    obtain ⟨nodup, -, apart⟩ := List.nodup_append.mp nodup
    have fresh : k ∉ ks := fun h => apart k h k List.mem_cons_self rfl
    have before := ih nodup (fun l hl => inside l (by simp [hl])) fun l hl => member l (by simp [hl])
    have same : (v.removeRows j ks).rows k = v.rows k := by
      rw [rows_removeRows nodup]
      exact if_neg fresh
    have cut := entryCount_update (v.removeRows j ks).rows (without j (v.rows k))
      (inside k (by simp))
    have shorter := length_without (member k (by simp))
    rw [removeRows_concat]
    simp only [removeFromRow, recount, List.length_append, List.length_singleton, same] at cut ⊢
    omega

theorem nonzeros_removeRows (enough : ks.length ≤ v.nonzeros)
    (small : v.nonzeros < UInt64.size) :
    (v.removeRows j ks).nonzeros = v.nonzeros - ks.length := by
  induction ks using List.reverseRecOn with
  | nil => rfl
  | append_singleton ks k ih =>
    simp only [List.length_append, List.length_singleton] at enough ⊢
    rw [removeRows_concat]
    simp only [removeFromRow, recount]
    rw [ih (by omega), Word.add_of_lt (by omega), Word.sub_of_le (by omega)]
    omega

end Removal

/-! ### Pivots -/

/-- The stage of a pivot `x` in row `i` and column `j`. -/
def stageAt (v : ActiveView α) (i j : Nat) (x : α) : Stage α where
  row := i
  col := j
  pivot := x
  lower := ((v.cols j).filter (·.1 != i)).map fun e => (e.1, e.2 / x)
  upper := ((v.rows i).filter (· != j)).map fun k => (k, valueAt (v.cols k) i)

/-- The pivot of column `j`, whose only entry stands in row `i`. -/
def columnPivot (v : ActiveView α) (i j : Nat) : ActiveView α :=
  ((v.removeColumns i ((v.rows i).filter (· != j))).drop i j).recount 1 0

/-- The pivot of row `i`, whose only entry stands in column `j`. -/
def rowPivot (v : ActiveView α) (i j : Nat) : ActiveView α :=
  ((v.removeRows j (keys ((v.cols j).filter (·.1 != i)))).drop i j).recount 1 0

namespace Consistent

theorem row_inside (h : v.Consistent m rowsDone colsDone) (hi : i < m) :
    ∀ l ∈ (v.rows i).filter (· != j), l < m := fun l hl =>
  (h.rowRange i hi l (List.mem_filter.mp hl).1).1

theorem col_inside (h : v.Consistent m rowsDone colsDone) (hj : j < m) :
    ∀ k ∈ keys ((v.cols j).filter (·.1 != i)), k < m := fun k hk =>
  (h.colRange j hj k (mem_keys_filter_ne.mp hk).2).1

end Consistent

/-- The positions of `w` are those of `v` outside of row `i` and column `j`. -/
structure Outside (w v : ActiveView α) (m i j : Nat) : Prop where
  distinctCols : ∀ l < m, (keys (w.cols l)).Nodup
  distinctRows : ∀ k < m, (w.rows k).Nodup
  mem_col : ∀ l < m, ∀ k, k ∈ keys (w.cols l) ↔ k ≠ i ∧ l ≠ j ∧ k ∈ keys (v.cols l)
  mem_row : ∀ k < m, ∀ l, l ∈ w.rows k ↔ k ≠ i ∧ l ≠ j ∧ l ∈ v.rows k

namespace Outside

variable {w : ActiveView α}

theorem agree (o : w.Outside v m i j) (h : v.Consistent m rowsDone colsDone) :
    ∀ k < m, ∀ l < m, l ∈ w.rows k ↔ k ∈ keys (w.cols l) := fun k hk l hl => by
  rw [o.mem_row k hk, o.mem_col l hl, h.agree k hk l hl]

theorem colRange (o : w.Outside v m i j) (h : v.Consistent m rowsDone colsDone) :
    ∀ l < m, ∀ k ∈ keys (w.cols l), k < m ∧ k ∉ rowsDone ++ [i] := by
  intro l hl k hk
  obtain ⟨ne, -, old⟩ := (o.mem_col l hl k).mp hk
  obtain ⟨range, fresh⟩ := h.colRange l hl k old
  exact ⟨range, by simp [fresh, ne]⟩

theorem rowRange (o : w.Outside v m i j) (h : v.Consistent m rowsDone colsDone) :
    ∀ k < m, ∀ l ∈ w.rows k, l < m ∧ l ∉ colsDone ++ [j] := by
  intro k hk l hl
  obtain ⟨-, ne, old⟩ := (o.mem_row k hk l).mp hl
  obtain ⟨range, fresh⟩ := h.rowRange k hk l old
  exact ⟨range, by simp [fresh, ne]⟩

end Outside

namespace Consistent

variable {x : α}

/-! ### Column singletons -/

theorem cols_columnPivot (h : v.Consistent m rowsDone colsDone) (hi : i < m) {k : Nat}
    (hk : k < m) : (v.columnPivot i j).cols k =
      if k = j then [] else withoutKey i (v.cols k) := by
  simp only [columnPivot, recount, drop, cols_removeColumns ((h.distinctRows i hi).filter _),
    Function.update_apply]
  split
  · rfl
  · rename_i other
    split
    · rfl
    · rename_i absent
      refine (withoutKey_of_not_mem fun key => absent ?_).symm
      exact List.mem_filter.mpr ⟨(h.agree i hi k hk).mpr key, by simpa using other⟩

theorem rows_columnPivot (v : ActiveView α) (i j : Nat) :
    (v.columnPivot i j).rows = Function.update v.rows i [] := by
  simp [ActiveView.columnPivot, recount, drop]

theorem outside_columnPivot (h : v.Consistent m rowsDone colsDone) (hi : i < m) (hj : j < m)
    (only : v.cols j = [(i, x)]) : (v.columnPivot i j).Outside v m i j where
  distinctCols l hl := by
    rw [h.cols_columnPivot hi hl]
    split
    · exact List.nodup_nil
    · exact nodup_withoutKey (h.distinctCols l hl)
  distinctRows k hk := by
    rw [rows_columnPivot, Function.update_apply]
    split
    · exact List.nodup_nil
    · exact h.distinctRows k hk
  mem_col l hl k := by
    rw [h.cols_columnPivot hi hl]
    split
    · simp [*]
    · rw [mem_keys_withoutKey (h.distinctCols l hl)]
      simp [*]
  mem_row k hk l := by
    rw [rows_columnPivot, Function.update_apply]
    split
    · simp [*]
    · -- The other rows are left alone: none of them has an entry in column `j`.
      rename_i other
      refine ⟨fun member => ⟨other, ?_, member⟩, fun member => member.2.2⟩
      rintro rfl
      have key := (h.agree k hk l hj).mp member
      rw [only] at key
      exact other (by simpa using key)

theorem colListed_columnPivot (h : v.Consistent m rowsDone colsDone) (hi : i < m) :
    Listed m (v.columnPivot i j).colLists
      fun l n => l ∉ colsDone ++ [j] ∧ n = ((v.columnPivot i j).cols l).length := by
  have listed := (listed_removeColumns (i := i) ((h.distinctRows i hi).filter (· != j))
    (h.row_inside hi) h.colListed).erase j
  refine listed.congr fun e he n _ => ?_
  rw [h.cols_columnPivot hi he]
  by_cases pivotCol : e = j
  · simp [pivotCol]
  · by_cases touched : e ∈ (v.rows i).filter (· != j)
    · have range := h.rowRange i hi e (List.mem_filter.mp touched).1
      simp [touched, pivotCol, range.2]
    · have absent : i ∉ keys (v.cols e) := fun key => touched (List.mem_filter.mpr
        ⟨(h.agree i hi e he).mpr key, by simpa using pivotCol⟩)
      simp [touched, pivotCol, withoutKey_of_not_mem absent]

theorem rowListed_columnPivot (h : v.Consistent m rowsDone colsDone) : ∃ list : Nat → Nat,
    (∀ k < m, list k = ((v.columnPivot i j).rows k).length ∨ list k = m + 1) ∧
      Listed m (v.columnPivot i j).rowLists fun k n => k ∉ rowsDone ++ [i] ∧ n = list k := by
  obtain ⟨list, lengths, listed⟩ := h.rowListed
  refine ⟨fun k => if k = i then 0 else list k, fun k hk => ?_, ?_⟩
  · rw [rows_columnPivot, Function.update_apply]
    by_cases pivotRow : k = i
    · simp [pivotRow]
    · simpa [pivotRow] using lengths k hk
  · have same : (v.columnPivot i j).rowLists = fun k => (v.rowLists k).erase i := by
      simp [ActiveView.columnPivot, recount, drop]
    rw [same]
    exact (listed.erase i).congr fun e _ n _ => by grind

theorem entryCount_columnPivot (h : v.Consistent m rowsDone colsDone) (hj : j < m)
    (only : v.cols j = [(i, x)]) : entryCount m (v.columnPivot i j).cols +
      ((v.rows i).filter (· != j)).length + 1 = entryCount m v.cols := by
  have keyed : i ∈ keys (v.cols j) := by simp [only]
  have hi := (h.colRange j hj i keyed).1
  have distinct := (h.distinctRows i hi).filter (· != j)
  have counted := entryCount_removeColumns distinct (h.row_inside hi) fun k hk =>
    (h.agree i hi k (h.row_inside hi k hk)).mp (List.mem_filter.mp hk).1
  have alone : (v.removeColumns i ((v.rows i).filter (· != j))).cols j = v.cols j := by
    simp [cols_removeColumns distinct]
  have total := entryCount_update (v.removeColumns i ((v.rows i).filter (· != j))).cols [] hj
  simp only [alone, only, List.length_singleton, List.length_nil] at total
  have split : entryCount m (v.columnPivot i j).cols = entryCount m
    (Function.update (v.removeColumns i ((v.rows i).filter (· != j))).cols j []) := rfl
  omega

theorem nonzeros_columnPivot (h : v.Consistent m rowsDone colsDone) (hj : j < m)
    (only : v.cols j = [(i, x)]) :
    (v.columnPivot i j).nonzeros + ((v.rows i).filter (· != j)).length + 1 = v.nonzeros := by
  have removed := h.entryCount_columnPivot hj only
  have counted := h.counted
  have small := h.small
  have nonzeros := @nonzeros_removeColumns _ v i _ ((v.rows i).filter (· != j)) (by omega) small
  simp only [ActiveView.columnPivot, recount, drop, nonzeros]
  rw [Word.add_of_lt (by omega), Word.sub_of_le (by omega)]
  omega

theorem columnPivot (h : v.Consistent m rowsDone colsDone) (hj : j < m)
    (only : v.cols j = [(i, x)]) :
    (v.columnPivot i j).Consistent m (rowsDone ++ [i]) (colsDone ++ [j]) := by
  have hi : i < m := (h.colRange j hj i (by simp [only])).1
  have outside := h.outside_columnPivot hi hj only
  have entries := h.entryCount_columnPivot hj only
  have remaining := h.nonzeros_columnPivot hj only
  have counted := h.counted
  have small := h.small
  exact {
    distinctCols := outside.distinctCols
    distinctRows := outside.distinctRows
    agree := outside.agree h
    colRange := outside.colRange h
    rowRange := outside.rowRange h
    colListed := h.colListed_columnPivot hi
    rowListed := h.rowListed_columnPivot
    sized := by simpa [ActiveView.columnPivot, recount, drop] using h.sized
    counted := by omega
    small := by omega }

/-! ### Row singletons -/

theorem cols_rowPivot (v : ActiveView α) (i j : Nat) :
    (v.rowPivot i j).cols = Function.update v.cols j [] := by
  simp [ActiveView.rowPivot, recount, drop]

theorem rows_rowPivot (h : v.Consistent m rowsDone colsDone) (hj : j < m) {k : Nat}
    (hk : k < m) : (v.rowPivot i j).rows k = if k = i then [] else without j (v.rows k) := by
  have distinct := nodup_keys_filter (h.distinctCols j hj) (·.1 != i)
  simp only [ActiveView.rowPivot, recount, drop, rows_removeRows distinct, Function.update_apply]
  split
  · rfl
  · rename_i other
    split
    · rfl
    · rename_i absent
      refine (without_of_not_mem fun member => absent ?_).symm
      obtain ⟨x, hx⟩ := h.exists_value hk member
      exact List.mem_map.mpr ⟨(k, x), List.mem_filter.mpr ⟨hx, by simpa using other⟩, rfl⟩

theorem outside_rowPivot (h : v.Consistent m rowsDone colsDone) (hi : i < m) (hj : j < m)
    (only : v.rows i = [j]) : (v.rowPivot i j).Outside v m i j where
  distinctCols l hl := by
    rw [cols_rowPivot, Function.update_apply]
    split
    · exact List.nodup_nil
    · exact h.distinctCols l hl
  distinctRows k hk := by
    rw [h.rows_rowPivot hj hk]
    split
    · exact List.nodup_nil
    · exact nodup_without (h.distinctRows k hk)
  mem_col l hl k := by
    rw [cols_rowPivot, Function.update_apply]
    split
    · simp [*]
    · -- The other columns are left alone: none of them has an entry in row `i`.
      rename_i other
      refine ⟨fun key => ⟨?_, other, key⟩, fun key => key.2.2⟩
      rintro rfl
      have member := (h.agree k hi l hl).mpr key
      rw [only] at member
      exact other (by simpa using member)
  mem_row k hk l := by
    rw [h.rows_rowPivot hj hk]
    split
    · simp [*]
    · rw [mem_without (h.distinctRows k hk)]
      simp [*]

theorem colListed_rowPivot (h : v.Consistent m rowsDone colsDone) :
    Listed m (v.rowPivot i j).colLists
      fun l n => l ∉ colsDone ++ [j] ∧ n = ((v.rowPivot i j).cols l).length := by
  have same : (v.rowPivot i j).colLists = fun k => (v.colLists k).erase j := by
    simp [ActiveView.rowPivot, recount, drop]
  rw [same, cols_rowPivot]
  refine (h.colListed.erase j).congr fun e _ n _ => ?_
  by_cases pivotCol : e = j <;> simp [pivotCol]

theorem rowListed_rowPivot (h : v.Consistent m rowsDone colsDone) (hi : i < m) (hj : j < m)
    (keyed : i ∈ keys (v.cols j)) : ∃ list : Nat → Nat,
    (∀ k < m, list k = ((v.rowPivot i j).rows k).length ∨ list k = m + 1) ∧
      Listed m (v.rowPivot i j).rowLists fun k n => k ∉ rowsDone ++ [i] ∧ n = list k := by
  obtain ⟨list, lengths, listed⟩ := h.rowListed
  have listed := (listed_removeRows (j := j)
    (nodup_keys_filter (h.distinctCols j hj) (·.1 != i)) (h.col_inside hj) listed).erase i
  refine ⟨fun k => if k ∈ keys (v.cols j) then ((v.rowPivot i j).rows k).length else list k,
    fun k hk => ?_, listed.congr fun e he n _ => ?_⟩
  · by_cases touched : k ∈ keys (v.cols j)
    · simp [touched]
    · have absent : j ∉ v.rows k := fun member => touched ((h.agree k hk j hj).mp member)
      have other : k ≠ i := by rintro rfl; exact touched keyed
      rw [h.rows_rowPivot hj hk, if_neg other, without_of_not_mem absent]
      simpa [touched] using lengths k hk
  · by_cases pivotRow : e = i
    · simp [pivotRow]
    · have line := h.rows_rowPivot (i := i) hj he
      simp only [mem_keys_filter_ne, List.mem_append, List.mem_singleton]
      by_cases touched : e ∈ keys (v.cols j)
      · have range := h.colRange j hj e touched
        simp [line, touched, pivotRow, range.2]
      · simp [touched, pivotRow]

theorem entryCount_rowPivot (h : v.Consistent m rowsDone colsDone) (hi : i < m)
    (only : v.rows i = [j]) : entryCount m (v.rowPivot i j).rows +
      (keys ((v.cols j).filter (·.1 != i))).length + 1 = entryCount m v.rows := by
  have hj := (h.rowRange i hi j (by simp [only])).1
  have distinct := nodup_keys_filter (h.distinctCols j hj) (·.1 != i)
  have counted := entryCount_removeRows (v := v) (j := j) distinct (h.col_inside hj) fun k hk =>
    (h.agree k (h.col_inside hj k hk) j hj).mpr (mem_keys_filter_ne.mp hk).2
  have alone : (v.removeRows j (keys ((v.cols j).filter (·.1 != i)))).rows i = v.rows i := by
    rw [rows_removeRows distinct]
    exact if_neg fun h => (mem_keys_filter_ne.mp h).1 rfl
  have total := entryCount_update (v.removeRows j (keys ((v.cols j).filter (·.1 != i)))).rows [] hi
  simp only [alone, only, List.length_singleton, List.length_nil] at total
  have split : entryCount m (v.rowPivot i j).rows = entryCount m
    (Function.update (v.removeRows j (keys ((v.cols j).filter (·.1 != i)))).rows i []) := rfl
  omega

theorem nonzeros_rowPivot (h : v.Consistent m rowsDone colsDone) (hj : j < m)
    (keyed : i ∈ keys (v.cols j)) :
    (v.rowPivot i j).nonzeros + (v.cols j).length = v.nonzeros := by
  have length : (keys ((v.cols j).filter (·.1 != i))).length + 1 = (v.cols j).length := by
    rw [List.length_map]
    exact length_filter_key_ne (h.distinctCols j hj) keyed
  have enough := length_le_entryCount v.cols hj
  have counted := h.counted
  have small := h.small
  have nonzeros := @nonzeros_removeRows _ v j _ (keys ((v.cols j).filter (·.1 != i))) (by omega)
    small
  simp only [ActiveView.rowPivot, recount, drop, nonzeros]
  rw [Word.add_of_lt (by omega), Word.sub_of_le (by omega)]
  omega

theorem rowPivot (h : v.Consistent m rowsDone colsDone) (hi : i < m) (only : v.rows i = [j]) :
    (v.rowPivot i j).Consistent m (rowsDone ++ [i]) (colsDone ++ [j]) := by
  have member : j ∈ v.rows i := by simp [only]
  have hj := (h.rowRange i hi j member).1
  have keyed : i ∈ keys (v.cols j) := (h.agree i hi j hj).mp member
  have outside := h.outside_rowPivot hi hj only
  have entries := entryCount_update v.cols [] hj
  rw [← cols_rowPivot v i j, List.length_nil] at entries
  have remaining := h.nonzeros_rowPivot hj keyed
  have counted := h.counted
  have small := h.small
  exact {
    distinctCols := outside.distinctCols
    distinctRows := outside.distinctRows
    agree := outside.agree h
    colRange := outside.colRange h
    rowRange := outside.rowRange h
    colListed := h.colListed_rowPivot
    rowListed := h.rowListed_rowPivot hi hj keyed
    sized := by simpa [ActiveView.rowPivot, recount, drop] using h.sized
    counted := by omega
    small := by omega }

end Consistent

end ActiveView

end SimplexBasis
