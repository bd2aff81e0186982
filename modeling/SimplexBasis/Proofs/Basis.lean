import SimplexBasis.BasisMatrix
import SimplexBasis.Proofs.Transposition

/-!
# Accepted bases

What the checks of `BasisMatrix.ofCompressed` establish: the arrays are the columns that they are cut
into, and every column has different rows below the dimension.
-/

set_option linter.unusedSectionVars false

namespace SimplexBasis.BasisMatrix

open Compressed

variable {α : Type} [Scalar α] {b : BasisMatrix α} {c : Compressed α} {n j : Nat}
  {marks marks' : Array (Option Nat)}

/-- The matrix has the given columns, each with different rows below the dimension. -/
structure Holds (b : BasisMatrix α) (columns : List (List (Nat × α))) : Prop where
  length : columns.length = b.dimension
  stored : b.columns = .ofLines columns
  distinct : ∀ column ∈ columns, (keys column).Nodup
  inside : ∀ column ∈ columns, ∀ i ∈ keys column, i < b.dimension

theorem Holds.column_eq {columns : List (List (Nat × α))} {column : List (Nat × α)}
    (h : b.Holds columns) (here : columns[j]? = some column) : b.column j = .ok column := by
  obtain ⟨inside, rfl⟩ := List.getElem?_eq_some_iff.mp here
  unfold BasisMatrix.column
  rw [h.stored, Compressed.line_ofLines columns j inside]

def Accepted (b : BasisMatrix α) : Prop := ofCompressed b.dimension b.columns = .ok b

/-- No stored entry is zero. -/
def NoZeros (b : BasisMatrix α) : Prop := ∀ x ∈ b.columns.value, (x != 0) = true

instance (b : BasisMatrix α) : Decidable b.NoZeros :=
  inferInstanceAs (Decidable (∀ x ∈ b.columns.value, (x != 0) = true))

/-- The rows stored at the positions from `first` up to `last`. -/
def rowsBetween (c : Compressed α) (first last : Nat) : List Nat :=
  (c.index.toList.drop first).take (last - first)

theorem checkEntry_eq_ok {position : Nat} (run : checkEntry n j c marks position = .ok marks') :
    ∃ i, c.index[position]? = some i ∧ i < n ∧ marks.getD i none ≠ some j ∧
      marks' = marks.setIfInBounds i (some j) := by
  unfold checkEntry at run
  obtain ⟨i, read, run⟩ := except_bind_eq_ok.mp run
  refine ⟨i, entry_eq_ok_iff.mp (lift_except_eq_ok.mp read), ?_⟩
  split at run
  · cases run
  · rename_i inside
    split at run
    · cases run
    · rename_i fresh
      obtain ⟨x, -, run⟩ := except_bind_eq_ok.mp run
      split at run
      · cases run
      · cases run
        exact ⟨Nat.lt_of_not_le inside, by simpa using fresh, rfl⟩

theorem checkEntries_eq_ok {first count : Nat} (size : marks.size = n)
    (run : (List.range' first count).foldlM (checkEntry n j c) marks = .ok marks') :
    marks'.size = n ∧ (rowsBetween c first (first + count)).Nodup ∧
      ∀ i ∈ rowsBetween c first (first + count), i < n := by
  -- the rows seen so far are the ones marked with `j`
  have checked := foldlM_result (fun done marks => marks.size = n ∧
      (rowsBetween c first (first + done.length)).Nodup ∧
      (∀ i ∈ rowsBetween c first (first + done.length), i < n) ∧
      ∀ i ∈ rowsBetween c first (first + done.length), marks.getD i none = some j) run
    ⟨size, by simp [rowsBetween], by simp [rowsBetween], by simp [rowsBetween]⟩ ?_
  · rw [List.length_range'] at checked
    exact ⟨checked.1, checked.2.1, checked.2.2.1⟩
  · rintro done position rest marks marks' split ⟨size, nodup, inside, marked⟩ run
    obtain ⟨i, read, below, fresh, rfl⟩ := checkEntry_eq_ok run
    have place : position = first + done.length := by
      have := congrArg (·[done.length]?) split
      simp only [List.getElem?_append_right (Nat.le_refl _), Nat.sub_self,
        List.getElem?_cons_zero] at this
      have bound := (List.getElem?_eq_some_iff.mp this).1
      rw [List.getElem?_range' (by simpa using bound)] at this
      simpa using this.symm
    have next : rowsBetween c first (first + (done ++ [position]).length) =
        rowsBetween c first (first + done.length) ++ [i] := by
      simp only [rowsBetween, List.length_append, List.length_singleton, Nat.add_sub_cancel_left]
      rw [List.take_add_one, List.getElem?_drop, ← place, Array.getElem?_toList, read]
      rfl
    rw [next]
    have new : i ∉ rowsBetween c first (first + done.length) := fun seen => fresh (marked i seen)
    refine ⟨by simpa using size, ?_, ?_, ?_⟩
    · exact List.nodup_append'.mpr ⟨nodup, List.nodup_singleton i, by simpa using new⟩
    · intro k hk
      rcases List.mem_append.mp hk with old | last
      · exact inside k old
      · exact List.mem_singleton.mp last ▸ below
    · intro k hk
      rw [getD_setIfInBounds (by omega)]
      split
      · rfl
      · rename_i other
        rcases List.mem_append.mp hk with old | last
        · exact marked k old
        · exact absurd (List.mem_singleton.mp last) other

theorem checkColumn_eq_ok (size : marks.size = n) (bounds : j + 1 < c.start.size)
    (run : checkColumn n c marks j = .ok marks') :
    marks'.size = n ∧ c.start.getD j 0 ≤ c.start.getD (j + 1) 0 ∧
      (rowsBetween c (c.start.getD j 0) (min (c.start.getD (j + 1) 0) c.count)).Nodup ∧
      ∀ i ∈ rowsBetween c (c.start.getD j 0) (min (c.start.getD (j + 1) 0) c.count), i < n := by
  have extent : c.extent j = .ok (c.start.getD j 0, c.start.getD (j + 1) 0) := by
    unfold Compressed.extent
    rw [entry_getD 0 (by omega), entry_getD 0 bounds]
    rfl
  unfold checkColumn at run
  obtain ⟨⟨first, last⟩, read, run⟩ := except_bind_eq_ok.mp run
  rw [lift_except_eq_ok, extent, Except.ok.injEq, Prod.mk.injEq] at read
  obtain ⟨hfirst, hlast⟩ := read
  rw [hfirst, hlast]
  dsimp only at run
  by_cases ascending : last < first
  · rw [if_pos ascending] at run
    cases run
  · rw [if_neg ascending] at run
    obtain ⟨marks'', checked, run⟩ := except_bind_eq_ok.mp run
    obtain ⟨sizes, nodup, inside⟩ := checkEntries_eq_ok size checked
    obtain rfl : marks'' = marks' := by
      by_cases short : first < last ∧ c.count < last
      · rw [if_pos short] at run
        cases run
      · rw [if_neg short] at run
        exact Except.ok.inj run
    have length : rowsBetween c first (first + (min last c.count - first)) =
        rowsBetween c first (min last c.count) := by
      simp [rowsBetween]
    rw [length] at nodup inside
    exact ⟨sizes, Nat.le_of_not_lt ascending, nodup, inside⟩

theorem ofCompressed_eq_ok (run : ofCompressed n c = .ok b) :
    b = ⟨n, c⟩ ∧ c.WellFormed n ∧ ∀ j < n,
      (rowsBetween c (c.start.getD j 0) (c.start.getD (j + 1) 0)).Nodup ∧
      ∀ i ∈ rowsBetween c (c.start.getD j 0) (c.start.getD (j + 1) 0), i < n := by
  unfold ofCompressed at run
  split at run
  · cases run
  · rename_i pointers
    split at run
    · cases run
    · rename_i entries
      simp only [not_or, ne_eq, Decidable.not_not] at pointers entries
      obtain ⟨marks, checked, run⟩ := except_bind_eq_ok.mp run
      cases run
      have columns := foldlM_result (fun done marks => marks.size = n ∧
        ∀ j < done.length, c.start.getD j 0 ≤ c.start.getD (j + 1) 0 ∧
          (rowsBetween c (c.start.getD j 0) (min (c.start.getD (j + 1) 0) c.count)).Nodup ∧
          ∀ i ∈ rowsBetween c (c.start.getD j 0) (min (c.start.getD (j + 1) 0) c.count), i < n)
        checked ⟨by simp, by simp⟩ ?_
      · simp only [List.length_range] at columns
        have form : c.WellFormed n :=
          ⟨pointers.1, pointers.2, fun k hk => (columns.2 k hk).1, entries.2, entries.1.symm⟩
        refine ⟨rfl, form, fun j hj => ?_⟩
        have whole : min (c.start.getD (j + 1) 0) c.count = c.start.getD (j + 1) 0 :=
          Nat.min_eq_left (form.start_le (by omega))
        rw [← whole]
        exact (columns.2 j hj).2
      · rintro done j rest marks marks' split ⟨size, before⟩ run
        obtain ⟨rfl, bound⟩ := range_split split
        obtain ⟨sizes, here⟩ := checkColumn_eq_ok size (by omega) run
        refine ⟨sizes, fun k hk => ?_⟩
        rw [List.length_append, List.length_singleton] at hk
        rcases Nat.lt_succ_iff_lt_or_eq.mp hk with old | rfl
        · exact before k old
        · exact here

theorem keys_cut (form : c.WellFormed n) (j : Nat) :
    keys (c.cut j) = rowsBetween c (c.start.getD j 0) (c.start.getD (j + 1) 0) := by
  have rows : c.allEntries.map Prod.fst = c.index.toList :=
    List.map_fst_zip (by simp [form.values])
  rw [keys, cut, List.map_take, List.map_drop, rows]
  rfl

theorem Accepted.holds (h : b.Accepted) :
    ∃ columns, b.Holds columns ∧ (b.NoZeros → ∀ column ∈ columns, ∀ e ∈ column, (e.2 != 0) = true) := by
  obtain ⟨-, form, checked⟩ := ofCompressed_eq_ok h
  refine ⟨(List.range b.dimension).map b.columns.cut,
    ⟨by simp, form.eq_ofLines, ?_, ?_⟩, ?_⟩
  · intro column member
    obtain ⟨j, hj, rfl⟩ := List.mem_map.mp member
    rw [keys_cut form]
    exact (checked j (List.mem_range.mp hj)).1
  · intro column member
    obtain ⟨j, hj, rfl⟩ := List.mem_map.mp member
    rw [keys_cut form]
    exact (checked j (List.mem_range.mp hj)).2
  · intro stored column member e he
    obtain ⟨j, hj, rfl⟩ := List.mem_map.mp member
    exact stored e.2 (Array.mem_toList_iff.mp
      (List.of_mem_zip (List.mem_of_mem_drop (List.mem_of_mem_take he))).2)

theorem accepted_of_isOk (ok : (ofCompressed n c).isOk = true) : Accepted ⟨n, c⟩ := by
  cases run : ofCompressed n c with
  | error e => simp [run, Except.isOk, Except.toBool] at ok
  | ok b =>
    obtain ⟨rfl, -⟩ := ofCompressed_eq_ok run
    exact run

theorem ofColumns_accepted {columns : List (List (Nat × α))} (run : ofColumns n columns = .ok b) :
    b.dimension = n ∧ b.Accepted ∧ b.NoZeros := by
  unfold ofColumns at run
  split at run
  · cases run
  · obtain ⟨rfl, -⟩ := ofCompressed_eq_ok run
    refine ⟨rfl, run, fun x hx => ?_⟩
    rw [ofLines, value_foldl_pushLine] at hx
    simp only [Compressed.empty, List.nil_append, List.append_toArray, List.mem_toArray,
      List.mem_map, List.mem_flatten] at hx
    obtain ⟨e, ⟨line, ⟨column, -, rfl⟩, inside⟩, rfl⟩ := hx
    exact (List.mem_filter.mp inside).2

end SimplexBasis.BasisMatrix
