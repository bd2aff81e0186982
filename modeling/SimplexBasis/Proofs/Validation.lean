import SimplexBasis.Proofs.Basis
import SimplexBasis.Proofs.Exact

/-!
# Validation of bases

The outcome of `BasisMatrix.ofCompressed` on arbitrary arrays. Valid arrays are accepted and all others
are refused, unless a column pointer lies behind the entries before anything else is wrong: the
entries up to there are read in vain, and reading on breaks the contract of the arrays.
-/

set_option linter.unusedSectionVars false

namespace SimplexBasis

variable {α : Type} [Scalar α] {c : Compressed α} {n j first last count position i : Nat} {x : α}
  {marks : Array (Option Nat)}

/-! ### What is asked of the arrays -/

/-- The entries at the positions from `first` up to `last`. -/
def Compressed.between (c : Compressed α) (first last : Nat) : List (Nat × α) :=
  (c.allEntries.drop first).take (last - first)

/-- Entries that may stand in one column. -/
structure Fit (n : Nat) (entries : List (Nat × α)) : Prop where
  distinct : (keys entries).Nodup
  inside : ∀ i ∈ keys entries, i < n
  finite : ∀ e ∈ entries, Scalar.isFinite e.2 = true

/-- The arrays have the sizes that the dimension and the last pointer demand. -/
structure Compressed.Headed (c : Compressed α) (n : Nat) : Prop where
  size : c.start.size = n + 1
  first : c.start.getD 0 0 = 0
  values : c.index.size = c.value.size
  last : c.start.getD n 0 = c.index.size

/-- Column `j` passes the checks. -/
structure Compressed.Passes (c : Compressed α) (n j : Nat) : Prop where
  ascending : c.start.getD j 0 ≤ c.start.getD (j + 1) 0
  stored : c.start.getD (j + 1) 0 ≤ c.count
  fit : Fit n (c.cut j)

theorem fit_nil : Fit n ([] : List (Nat × α)) :=
  ⟨List.nodup_nil, by simp [keys], by simp⟩

theorem fit_concat {entries : List (Nat × α)} : Fit n (entries ++ [(i, x)]) ↔
    Fit n entries ∧ i ∉ keys entries ∧ i < n ∧ Scalar.isFinite x = true := by
  have rows : keys (entries ++ [(i, x)]) = keys entries ++ [i] := List.map_append
  constructor
  · rintro ⟨distinct, inside, finite⟩
    rw [rows] at distinct inside
    rw [List.nodup_append'] at distinct
    exact ⟨⟨distinct.1, fun k hk => inside k (List.mem_append_left _ hk),
      fun e he => finite e (List.mem_append_left _ he)⟩, by simpa using distinct.2.2,
      inside i (by simp), finite (i, x) (by simp)⟩
  · rintro ⟨fit, fresh, below, finite⟩
    constructor
    · rw [rows]
      exact List.nodup_append'.mpr ⟨fit.distinct, List.nodup_singleton i, by simpa using fresh⟩
    · intro k hk
      rw [rows, List.mem_append, List.mem_singleton] at hk
      rcases hk with old | rfl
      · exact fit.inside k old
      · exact below
    · intro e he
      rw [List.mem_append, List.mem_singleton] at he
      rcases he with old | rfl
      · exact fit.finite e old
      · exact finite

namespace Compressed

theorem between_self (c : Compressed α) (first : Nat) : c.between first first = [] := by
  simp [between]

theorem cut_eq_between (c : Compressed α) (j : Nat) :
    c.cut j = c.between (c.start.getD j 0) (c.start.getD (j + 1) 0) := rfl

theorem between_succ (read : c.allEntries[first + count]? = some (i, x)) :
    c.between first (first + count + 1) = c.between first (first + count) ++ [(i, x)] := by
  unfold between
  rw [Nat.add_assoc, Nat.add_sub_cancel_left, Nat.add_sub_cancel_left, List.take_add_one,
    List.getElem?_drop, read]
  rfl

end Compressed

/-! ### The checks -/

namespace BasisMatrix

/-- Arrays are refused for some reason. -/
def Refused {β : Type} (r : Except Stop β) : Prop := ∃ detail, r = refuse detail

theorem Refused.bind {β γ : Type} {act : Except Stop β} (h : Refused act)
    (next : β → Except Stop γ) : Refused (act >>= next) := by
  obtain ⟨detail, rfl⟩ := h
  exact ⟨detail, rfl⟩

theorem checkEntry_run (read : c.allEntries[position]? = some (i, x))
    (marks : Array (Option Nat)) :
    (i < n ∧ marks.getD i none ≠ some j ∧ Scalar.isFinite x = true ∧
      checkEntry n j c marks position = .ok (marks.setIfInBounds i (some j))) ∨
    (¬(i < n ∧ marks.getD i none ≠ some j ∧ Scalar.isFinite x = true) ∧
      Refused (checkEntry n j c marks position)) := by
  obtain ⟨row, value⟩ := List.getElem?_zip_eq_some.mp read
  rw [Array.getElem?_toList] at row value
  unfold checkEntry
  rw [entry_eq_ok_iff.mpr row, entry_eq_ok_iff.mpr value]
  by_cases inside : n ≤ i
  · exact .inr ⟨fun fit => absurd fit.1 (Nat.not_lt.mpr inside), _, if_pos inside⟩
  by_cases seen : (marks.getD i none == some j) = true
  · refine .inr ⟨fun fit => fit.2.1 (by simpa using seen), "duplicate row index in column", ?_⟩
    exact (if_neg inside).trans (if_pos seen)
  by_cases finite : Scalar.isFinite x = true
  · refine .inl ⟨Nat.lt_of_not_le inside, by simpa using seen, finite, ?_⟩
    refine (if_neg inside).trans ((if_neg seen).trans ?_)
    exact if_neg (by simp [finite])
  · refine .inr ⟨fun fit => finite fit.2.2, "value not finite", ?_⟩
    refine (if_neg inside).trans ((if_neg seen).trans ?_)
    exact if_pos (by simpa using finite)

/-- The entries of a column pass if they are fit for it, and the marks tell them then. -/
theorem checkEntries_run (stored : first + count ≤ c.allEntries.length) (size : marks.size = n)
    (fresh : ∀ i, marks.getD i none ≠ some j) :
    (Fit n (c.between first (first + count)) ∧ ∃ marks',
      (List.range' first count).foldlM (checkEntry n j c) marks = .ok marks' ∧ marks'.size = n ∧
      ∀ i, marks'.getD i none =
        if i ∈ keys (c.between first (first + count)) then some j else marks.getD i none) ∨
    (¬Fit n (c.between first (first + count)) ∧
      Refused ((List.range' first count).foldlM (checkEntry n j c) marks)) := by
  induction count with
  | zero =>
    refine .inl ⟨by rw [Nat.add_zero, c.between_self]; exact fit_nil, marks, rfl, size, fun i => ?_⟩
    rw [Nat.add_zero, c.between_self, if_neg (by simp [keys])]
  | succ count ih =>
    obtain ⟨⟨i, x⟩, read⟩ : ∃ e, c.allEntries[first + count]? = some e :=
      ⟨_, List.getElem?_eq_getElem (by omega)⟩
    rw [← Nat.add_assoc, Compressed.between_succ read, fit_concat, List.range'_concat,
      List.foldlM_append, Nat.one_mul]
    rcases ih (by omega) with ⟨fit, marks', run, size', marked⟩ | ⟨unfit, refused⟩
    · rw [run]
      have unseen : marks'.getD i none ≠ some j ↔ i ∉ keys (c.between first (first + count)) := by
        rw [marked]
        split
        · rename_i here
          simp [here]
        · rename_i absent
          exact iff_of_true (fresh i) absent
      rw [← unseen]
      rcases checkEntry_run (n := n) (j := j) read marks' with
        ⟨below, new, finite, passed⟩ | ⟨unfit, detail, refused⟩
      · refine .inl ⟨⟨fit, new, below, finite⟩, marks'.setIfInBounds i (some j), ?_, by simpa using size',
          fun k => ?_⟩
        · simp only [checked_ok_bind, List.foldlM_cons, passed, List.foldlM_nil]
          rfl
        · rw [getD_setIfInBounds (by omega), marked]
          simp only [keys, List.map_append, List.map_cons, List.map_nil, List.mem_append,
            List.mem_singleton]
          grind
      · refine .inr ⟨fun fit => unfit ⟨fit.2.2.1, fit.2.1, fit.2.2.2⟩, detail, ?_⟩
        simp only [checked_ok_bind, List.foldlM_cons, refused]
        rfl
    · exact .inr ⟨fun fit => unfit fit.1, refused.bind _⟩

theorem checkColumn_eq (head : c.Headed n) (below : j < n) : checkColumn n c marks j =
    if c.start.getD (j + 1) 0 < c.start.getD j 0 then refuse "column pointers not increasing"
    else do
      let marks ← (List.range' (c.start.getD j 0)
        (min (c.start.getD (j + 1) 0) c.count - c.start.getD j 0)).foldlM (checkEntry n j c) marks
      if c.start.getD j 0 < c.start.getD (j + 1) 0 ∧ c.count < c.start.getD (j + 1) 0 then
        throw (.breach .indexOutOfRange)
      return marks := by
  have size := head.size
  have extent : c.extent j = .ok (c.start.getD j 0, c.start.getD (j + 1) 0) := by
    unfold Compressed.extent
    rw [entry_getD 0 (by omega), entry_getD 0 (by omega)]
    rfl
  unfold checkColumn
  rw [extent]
  rfl

/-- The outcome of checking a column whose first entry is not behind the last one. -/
theorem checkColumn_run (head : c.Headed n) (below : j < n) (starts : c.start.getD j 0 ≤ c.count)
    (size : marks.size = n) (fresh : ∀ i, marks.getD i none ≠ some j) :
    (c.Passes n j ∧ ∃ marks', checkColumn n c marks j = .ok marks' ∧ marks'.size = n ∧
      ∀ i : Nat, marks'.getD i none = some j ∨ marks'.getD i none = marks.getD i none) ∨
    (c.count < c.start.getD (j + 1) 0 ∧ Fit n (c.between (c.start.getD j 0) c.count) ∧
      checkColumn n c marks j = .error (.breach .indexOutOfRange)) ∨
    (¬c.Passes n j ∧
      ¬(c.count < c.start.getD (j + 1) 0 ∧ Fit n (c.between (c.start.getD j 0) c.count)) ∧
      Refused (checkColumn n c marks j)) := by
  rw [checkColumn_eq head below]
  generalize from_first : c.start.getD j 0 = first at *
  generalize from_last : c.start.getD (j + 1) 0 = last at *
  by_cases descending : last < first
  · refine .inr (.inr ⟨fun passes => ?_, fun overrun => ?_, _, if_pos descending⟩)
    · have := passes.ascending
      omega
    · omega
  rw [if_neg descending]
  have length : c.allEntries.length = c.count := by
    simp [Compressed.allEntries, Compressed.count, head.values]
  have passes_iff : c.Passes n j ↔ last ≤ c.count ∧ Fit n (c.between first last) := by
    constructor
    · intro passes
      rw [← from_first, ← from_last]
      exact ⟨passes.stored, passes.fit⟩
    · rintro ⟨stored, fit⟩
      constructor
      · rw [from_first, from_last]
        exact Nat.le_of_not_lt descending
      · rw [from_last]
        exact stored
      · rw [c.cut_eq_between, from_first, from_last]
        exact fit
  have reach : first + (min last c.count - first) = min last c.count :=
    Nat.add_sub_cancel' (Nat.le_min.mpr ⟨Nat.le_of_not_lt descending, starts⟩)
  have within : first + (min last c.count - first) ≤ c.allEntries.length := by
    rw [reach, length]
    exact Nat.min_le_right last c.count
  have entries := checkEntries_run within size fresh
  rw [reach] at entries
  rcases entries with ⟨fit, marks', run, size', marked⟩ | ⟨unfit, refused⟩
  · rw [run]
    by_cases stored : last ≤ c.count
    · rw [Nat.min_eq_left stored] at fit marked
      refine .inl ⟨passes_iff.mpr ⟨stored, fit⟩, marks', ?_, size', fun i => ?_⟩
      · exact if_neg fun overrun => absurd overrun.2 (Nat.not_lt.mpr stored)
      · rw [marked]
        split <;> simp
    · have behind : c.count < last := Nat.lt_of_not_le stored
      rw [Nat.min_eq_right behind.le] at fit
      exact .inr (.inl ⟨behind, fit, if_pos ⟨by omega, behind⟩⟩)
  · refine .inr (.inr ⟨fun passes => ?_, fun overrun => ?_, refused.bind _⟩)
    · obtain ⟨stored, fit⟩ := passes_iff.mp passes
      rw [Nat.min_eq_left stored] at unfit
      exact unfit fit
    · rw [Nat.min_eq_right overrun.1.le] at unfit
      exact unfit overrun.2

theorem checkColumns_run (head : c.Headed n) (bound : j ≤ n) (passes : ∀ k < j, c.Passes n k) :
    ∃ marks, (List.range j).foldlM (checkColumn n c) (Array.replicate n none) = .ok marks ∧
      marks.size = n ∧ (∀ i k, marks.getD i none = some k → k < j) ∧ c.start.getD j 0 ≤ c.count := by
  induction j with
  | zero =>
    refine ⟨Array.replicate n none, rfl, Array.size_replicate, fun i k here => ?_, by simp [head.first]⟩
    simp only [Array.getD_eq_getD_getElem?, Array.getElem?_replicate] at here
    grind
  | succ j ih =>
    obtain ⟨marks, run, size, earlier, starts⟩ := ih (by omega) fun k hk => passes k (by omega)
    rw [List.range_succ, List.foldlM_append, run]
    have fresh : ∀ i, marks.getD i none ≠ some j := fun i here => absurd (earlier i j here) (by omega)
    rcases checkColumn_run head bound starts size fresh with
      ⟨pass, marks', passed, size', marked⟩ | ⟨behind, -, -⟩ | ⟨fails, -, -⟩
    · refine ⟨marks', ?_, size', fun i k here => ?_, pass.stored⟩
      · simp only [checked_ok_bind, List.foldlM_cons, passed, List.foldlM_nil]
        rfl
      · rcases marked i with new | old
        · rw [new, Option.some.injEq] at here
          omega
        · exact (earlier i k (old ▸ here)).trans (Nat.lt_succ_self j)
    · exact absurd (passes j (Nat.lt_succ_self j)).stored (Nat.not_le.mpr behind)
    · exact absurd (passes j (Nat.lt_succ_self j)) fails

theorem ofCompressed_eq (head : c.Headed n) : ofCompressed n c = (do
    let _ ← (List.range n).foldlM (checkColumn n c) (Array.replicate n none)
    return ⟨n, c⟩) := by
  unfold ofCompressed
  rw [if_neg (by simp [head.size, head.first]), if_neg (by simp [head.values, head.last])]

end BasisMatrix

end SimplexBasis
