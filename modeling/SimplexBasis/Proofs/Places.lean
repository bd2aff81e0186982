import Mathlib.Data.List.ReduceOption
import SimplexBasis.Proofs.Recovery
import SimplexBasis.Proofs.Safety

/-!
# Positions and repairs

After a factorization of either kind, whatever became of it, the pivoted columns have positions of
their own, as many as the rank says, and slacks are offered for exactly the other columns and the
other positions.
-/

set_option linter.unusedSectionVars false

namespace SimplexBasis

/-! ### Columns listed with their rows -/

section Lists

open Factors

variable {n j k : Nat} {rows cols : List Nat}

/-- The row that is listed with a column. -/
def rowOf (rows cols : List Nat) (j : Nat) : Option Nat := (cols.idxOf? j).bind (rows[·]?)

theorem rowOf_getElem (distinct : cols.Nodup) (hk : k < cols.length) :
    rowOf rows cols cols[k] = rows[k]? := by
  rw [rowOf, idxOf?_of_mem (List.getElem_mem hk), distinct.idxOf_getElem k hk]
  rfl

theorem rowOf_of_notMem (out : j ∉ cols) : rowOf rows cols j = none := by
  rw [rowOf, List.idxOf?_eq_none_iff.mpr out]
  rfl

theorem rowOf_eq_none_iff (length : rows.length = cols.length) :
    rowOf rows cols j = none ↔ j ∉ cols := by
  refine ⟨fun none_ member => ?_, rowOf_of_notMem⟩
  have place := List.idxOf_lt_length_of_mem member
  rw [rowOf, idxOf?_of_mem member, Option.bind_some, List.getElem?_eq_none_iff] at none_
  omega

theorem reduceOption_rowOf (distinct : cols.Nodup) (inside : ∀ j ∈ cols, j < n)
    (length : rows.length = cols.length) :
    ((List.range n).map (rowOf rows cols)).reduceOption.Perm rows := by
  have listed : cols.map (rowOf rows cols) = rows.map some := by
    refine List.ext_getElem (by simp [length]) fun k hk _ => ?_
    have hk : k < cols.length := by simpa using hk
    rw [List.getElem_map, rowOf_getElem distinct, List.getElem_map,
      List.getElem?_eq_getElem (length ▸ hk)]
  have others : (leftOf n cols).map (rowOf rows cols) =
      List.replicate (leftOf n cols).length none := by
    refine List.eq_replicate_iff.mpr ⟨by simp, fun x member => ?_⟩
    obtain ⟨j, left, rfl⟩ := List.mem_map.mp member
    exact rowOf_of_notMem (mem_leftOf.mp left).2
  have split := ((perm_append_leftOf distinct inside).map (rowOf rows cols)).filterMap id
  refine split.symm.trans (List.Perm.of_eq ?_)
  change ((cols ++ leftOf n cols).map (rowOf rows cols)).reduceOption = rows
  rw [List.map_append, listed, others, List.reduceOption_append,
    List.reduceOption_replicate_none, List.append_nil]
  simp [List.reduceOption, List.filterMap_map]

/-- What is left over, in ascending order, is determined by the list before it. -/
theorem mergeSort_drop (perm : cols.Perm (List.range n)) (k : Nat) :
    ((cols.drop k).mergeSort fun a b => a ≤ b) = leftOf n (cols.take k) := by
  have distinct : (cols.take k ++ cols.drop k).Nodup := by
    rw [List.take_append_drop]
    exact perm.nodup_iff.mpr List.nodup_range
  have sorted : ((cols.drop k).mergeSort fun a b => a ≤ b).Pairwise (· ≤ ·) := by
    have pairs := @List.pairwise_mergeSort Nat (fun a b => decide (a ≤ b))
      (by simp; omega) (by simp; omega) (cols.drop k)
    simpa using pairs
  have ascending : (leftOf n (cols.take k)).Pairwise (· ≤ ·) :=
    (List.pairwise_lt_range.imp Nat.le_of_lt).filter _
  refine List.Perm.eq_of_pairwise (fun _ _ _ _ => Nat.le_antisymm) sorted ascending
    ((List.mergeSort_perm _ _).trans ?_)
  rw [List.perm_ext_iff_of_nodup (List.nodup_append.mp distinct).2.1 (nodup_leftOf n _)]
  intro i
  rw [mem_leftOf, ← List.mem_range, ← perm.mem_iff]
  constructor
  · intro member
    exact ⟨List.mem_of_mem_drop member,
      fun early => (List.nodup_append.mp distinct).2.2 i early i member rfl⟩
  · rintro ⟨member, late⟩
    rw [← List.take_append_drop k cols, List.mem_append] at member
    exact member.resolve_left late

end Lists

namespace Engine

variable {α : Type} [Scalar α] {e : Engine α} {n j k : Nat} {rows cols : List Nat}

/-! ### Pivots on record -/

/-- The pivots of an engine: the columns `cols` are at the positions `rows`, and slacks are offered
for what is left over. -/
structure Placed (e : Engine α) (n : Nat) (rows cols : List Nat) : Prop where
  distinctRows : rows.Nodup
  distinctCols : cols.Nodup
  insideRows : ∀ i ∈ rows, i < n
  insideCols : ∀ j ∈ cols, j < n
  length : rows.length = cols.length
  rank : e.rank = cols.length
  position : ∀ j, e.positionOf j = .ok (rowOf rows cols j)
  pairs : e.slackPairs = (leftOf n cols).zip (leftOf n rows)

theorem positionOf_recorded {s : SparseFactorization α} {stages : List (Stage α)}
    (distinct : SparseFactorization.Distinct s.dimension stages)
    (records : SparseFactorization.Records s.factors s.dimension stages) (j : Nat) :
    s.factors.positionOf j = .ok (rowOf (stages.map Stage.row) (stages.map Stage.col) j) := by
  have stage : s.factors.stageOfCol.getD j none = (stages.map Stage.col).idxOf? j := by
    rw [records.stageOfCol]
    by_cases hj : j < s.dimension
    · simp [Array.getD, hj]
    · have out : j ∉ stages.map Stage.col := fun member => hj (distinct.insideCols j member)
      simp [Array.getD, hj, List.idxOf?_eq_none_iff.mpr out]
  unfold Factors.positionOf rowOf
  rw [stage, records.rows]
  cases at_ : (stages.map Stage.col).idxOf? j with
  | none => rfl
  | some k =>
    obtain ⟨hk, -⟩ := List.findIdx?_eq_some_iff_getElem.mp at_
    rw [List.length_map] at hk
    dsimp only
    rw [entry_getD 0 (by simpa using hk)]
    simp [Array.getD, hk]

theorem placed_of_recorded {s : SparseFactorization α} {stages : List (Stage α)}
    (distinct : SparseFactorization.Distinct s.dimension stages)
    (records : SparseFactorization.Records s.factors s.dimension stages) :
    Placed (sparse s) s.dimension (stages.map Stage.row) (stages.map Stage.col) where
  distinctRows := distinct.rows
  distinctCols := distinct.cols
  insideRows := distinct.insideRows
  insideCols := distinct.insideCols
  length := by simp
  rank := by
    change s.factors.pivotRows.size = _
    rw [records.rows]
    simp
  position := positionOf_recorded distinct records
  pairs := by
    change s.slackPairs = _
    unfold SparseFactorization.slackPairs
    rw [records.stageOfCol, records.stageOfRow]
    exact congrArg₂ List.zip (Factors.unpivoted_eq _) (Factors.unpivoted_eq _)

theorem notMem_take {xs : Array Nat} (perm : xs.toList.Perm (List.range n)) {l : Nat}
    (hl : l < xs.size) (late : k ≤ l) : xs[l] ∉ xs.toList.take k := by
  intro member
  obtain ⟨i, hi, same⟩ := List.mem_take_iff_getElem.mp member
  have eq := (perm.nodup_iff.mpr List.nodup_range).getElem_inj_iff.mp
    (same.trans (Array.getElem_toList hl).symm)
  omega

theorem positionOf_eliminated {d : DenseFactorization α} {columns : List (List (Nat × α))}
    {x : Dense.Elimination α} (h : DenseFactorization.Eliminated d columns x) (j : Nat) :
    d.positionOf j = .ok (rowOf (x.rows.toList.take x.rank) (x.cols.toList.take x.rank) j) := by
  have permCols := h.shape.cols
  have sizeRows := size_of_perm h.shape.rows
  have sizeCols := size_of_perm permCols
  unfold DenseFactorization.positionOf
  rw [h.order]
  dsimp only
  cases at_ : x.cols.findIdx? (· == j) with
  | none =>
    have out : j ∉ x.cols.toList.take x.rank := by
      intro member
      have absent := Array.findIdx?_eq_none_iff.mp at_ j
        (Array.mem_toList_iff.mp (List.mem_of_mem_take member))
      simp at absent
    rw [rowOf_of_notMem out]
    rfl
  | some k =>
    obtain ⟨hk, same, -⟩ := Array.findIdx?_eq_some_iff_getElem.mp at_
    rw [beq_iff_eq] at same
    subst same
    dsimp only
    split
    · rename_i early
      have distinct : (x.cols.toList.take x.rank).Nodup :=
        (permCols.nodup_iff.mpr List.nodup_range).sublist (List.take_sublist _ _)
      have hk' : k < (x.cols.toList.take x.rank).length := by simp [hk, early]
      have row : rowOf (x.rows.toList.take x.rank) _ _ = _ := rowOf_getElem distinct hk'
      rw [List.getElem_take, Array.getElem_toList] at row
      rw [row, entry_getD 0 (by omega)]
      simp [early, Array.getD, sizeRows, sizeCols ▸ hk]
    · rename_i late
      rw [rowOf_of_notMem (notMem_take permCols hk (Nat.le_of_not_lt late))]
      rfl

theorem placed_of_eliminated {d : DenseFactorization α} {columns : List (List (Nat × α))}
    {x : Dense.Elimination α} (h : DenseFactorization.Eliminated d columns x) :
    Placed (dense d) d.dimension (x.rows.toList.take x.rank) (x.cols.toList.take x.rank) := by
  have permRows := h.shape.rows
  have permCols := h.shape.cols
  have sizeRows := size_of_perm permRows
  have sizeCols := size_of_perm permCols
  have inside : ∀ {xs : List Nat}, xs.Perm (List.range d.dimension) →
      ∀ i ∈ xs.take x.rank, i < d.dimension := fun perm i member =>
    List.mem_range.mp (perm.mem_iff.mp (List.mem_of_mem_take member))
  have distinct : ∀ {xs : List Nat}, xs.Perm (List.range d.dimension) →
      (xs.take x.rank).Nodup := fun perm =>
    (perm.nodup_iff.mpr List.nodup_range).sublist (List.take_sublist _ _)
  exact
    { distinctRows := distinct permRows
      distinctCols := distinct permCols
      insideRows := inside permRows
      insideCols := inside permCols
      length := by simp [sizeRows, sizeCols]
      rank := by
        change d.order.elim 0 DenseOrder.rank = _
        rw [h.order]
        simp [sizeCols, h.rank]
      position := positionOf_eliminated h
      pairs := by
        change d.slackPairs = _
        unfold DenseFactorization.slackPairs
        rw [h.order]
        exact congrArg₂ List.zip (mergeSort_drop permCols _) (mergeSort_drop permRows _) }

/-! ### Factorizations -/

/-- A basis was loaded and factorized, whatever became of it. -/
def Decided : Engine α → Prop
  | dense d => ∃ columns x, DenseFactorization.Eliminated d columns x
  | sparse s => s.Sound ∧ s.Recorded

theorem decided_of_factor [LawfulCounts α] (h : e.Sound) (loaded : e.IsLoaded)
    (context : Context α) :
    Ends (fun _ t => t.Decided ∧ t.dimension = e.dimension ∧ t.rank = e.dimension)
      (fun status t => (status = .singular ∨ status = .outOfMemory ∧ e.isDense = false) ∧
        t.Decided ∧ t.dimension = e.dimension)
      (factor context e) := by
  cases e with
  | dense d =>
    obtain ⟨columns, holds⟩ := h.1 loaded
    refine EndsOr.ends (dispatch_dense_ends
      ((DenseFactorization.factor_ends holds context).mono ?_ ?_).or)
    · rintro _ t ⟨-, dimension, -, x, eliminated, full⟩
      refine ⟨⟨columns, x, eliminated⟩, dimension, ?_⟩
      change t.order.elim 0 DenseOrder.rank = _
      rw [eliminated.order]
      exact full
    · rintro _ t ⟨rfl, -, dimension, -, x, eliminated, -⟩
      exact ⟨.inl rfl, ⟨columns, x, eliminated⟩, dimension⟩
  | sparse s =>
    refine EndsOr.ends (dispatch_sparse_ends
      ((SparseFactorization.Sound.factor h context).mono ?_ ?_).or)
    · rintro _ t ⟨sound, dimension, -, phase, -⟩
      obtain ⟨all, standing⟩ := sound.standing phase
      exact ⟨⟨sound, standing.recorded⟩, dimension, standing.rank.trans dimension⟩
    · rintro status t ⟨sound, dimension, left, found⟩
      refine ⟨?_, ⟨sound, (left loaded).1⟩, dimension⟩
      rcases found with full | ⟨short, -⟩ | ⟨-, unloaded⟩
      · exact .inr ⟨full, rfl⟩
      · exact .inl short
      · exact absurd loaded unloaded

theorem Decided.placed (h : e.Decided) : ∃ rows cols, Placed e e.dimension rows cols := by
  cases e with
  | dense d =>
    obtain ⟨columns, x, eliminated⟩ := h
    exact ⟨_, _, placed_of_eliminated eliminated⟩
  | sparse s =>
    obtain ⟨-, stages, distinct, records⟩ := h
    exact ⟨_, _, placed_of_recorded distinct records⟩

/-! ### Positions -/

/-- Positions and offered slacks as a caller sees them, for a basis of dimension `n`. -/
structure Positioned (e : Engine α) (n : Nat) (places : List (Option Nat)) : Prop where
  positions : (List.range n).mapM e.positionOf = .ok places
  outside : ∀ j, n ≤ j → e.positionOf j = .ok none
  distinct : places.reduceOption.Nodup
  inside : ∀ i ∈ places.reduceOption, i < n
  rank : places.reduceOption.length = e.rank
  columns : e.slackPairs.map Prod.fst = (List.range n).filter fun j => places[j]? = some none
  rows : e.slackPairs.map Prod.snd = (List.range n).filter fun i => some i ∉ places
  complete : e.slackPairs = [] ↔ e.rank = n
  relabels : ∀ (sequence : Array Nat) (offset : Nat), n ≤ sequence.size → ∃ vs,
    relabel sequence e.slackPairs offset = .ok vs ∧ vs.size = sequence.size ∧
      (∀ j i, (j, i) ∈ e.slackPairs → vs.getD j 0 = offset + i) ∧
      ∀ j ∉ e.slackPairs.map Prod.fst, vs.getD j 0 = sequence.getD j 0

namespace Placed

theorem length_left (h : Placed e n rows cols) :
    (leftOf n rows).length = (leftOf n cols).length := by
  have rest := length_leftOf h.distinctRows h.insideRows
  have rest' := length_leftOf h.distinctCols h.insideCols
  have := h.length
  omega

theorem map_fst_pairs (h : Placed e n rows cols) : e.slackPairs.map Prod.fst = leftOf n cols := by
  rw [h.pairs, List.map_fst_zip h.length_left.ge]

theorem map_snd_pairs (h : Placed e n rows cols) : e.slackPairs.map Prod.snd = leftOf n rows := by
  rw [h.pairs, List.map_snd_zip h.length_left.le]

theorem pairsWithin (h : Placed e n rows cols) : PairsWithin n e.slackPairs := by
  intro p member
  have col : p.1 ∈ leftOf n cols := h.map_fst_pairs ▸ List.mem_map_of_mem member
  have row : p.2 ∈ leftOf n rows := h.map_snd_pairs ▸ List.mem_map_of_mem member
  exact ⟨(mem_leftOf.mp col).1, (mem_leftOf.mp row).1⟩

theorem relabels (h : Placed e n rows cols) {sequence : Array Nat} (fits : n ≤ sequence.size)
    (offset : Nat) : ∃ vs, relabel sequence e.slackPairs offset = .ok vs ∧
      vs.size = sequence.size ∧ (∀ j i, (j, i) ∈ e.slackPairs → vs.getD j 0 = offset + i) ∧
      ∀ j ∉ e.slackPairs.map Prod.fst, vs.getD j 0 = sequence.getD j 0 := by
  have within : PairsWithin sequence.size e.slackPairs := fun p member =>
    ⟨Nat.lt_of_lt_of_le (h.pairsWithin p member).1 fits,
      Nat.lt_of_lt_of_le (h.pairsWithin p member).2 fits⟩
  obtain ⟨vs, run, size, labels⟩ := relabel_ok within offset
  refine ⟨vs, run, size, fun j i member => ?_, fun j out => ?_⟩
  · have distinct : (e.slackPairs.reverse.map Prod.fst).Nodup := by
      rw [List.map_reverse, List.nodup_reverse, h.map_fst_pairs]
      exact nodup_leftOf n cols
    rw [labels, lookup_of_mem distinct (List.mem_reverse.mpr member)]
    rfl
  · have free : ∀ p ∈ e.slackPairs, p.1 ≠ j := fun p member same =>
      out (List.mem_map.mpr ⟨p, member, same⟩)
    rw [labels, lookup_reverse_of_notMem free]
    rfl

theorem positioned (h : Placed e n rows cols) :
    Positioned e n ((List.range n).map (rowOf rows cols)) := by
  have perm := reduceOption_rowOf h.distinctCols h.insideCols h.length
  exact
    { positions := checked_mapM fun j _ => h.position j
      outside := fun j out => by
        rw [h.position, rowOf_of_notMem fun member => by have := h.insideCols j member; omega]
      distinct := perm.nodup_iff.mpr h.distinctRows
      inside := fun i member => h.insideRows i (perm.mem_iff.mp member)
      rank := perm.length_eq.trans (h.length.trans h.rank.symm)
      columns := by
        rw [h.map_fst_pairs]
        refine List.filter_congr fun j hj => ?_
        have hj := List.mem_range.mp hj
        simp [hj, rowOf_eq_none_iff h.length]
      rows := by
        rw [h.map_snd_pairs]
        refine List.filter_congr fun i _ => ?_
        simp only [← List.reduceOption_mem_iff, perm.mem_iff]
      complete := by
        have length := congrArg List.length h.map_fst_pairs
        have rest := length_leftOf h.distinctCols h.insideCols
        have rank := h.rank
        rw [List.length_map] at length
        rw [← List.length_eq_zero_iff]
        omega
      relabels := fun sequence offset fits => h.relabels fits offset }

end Placed

/-- Variables go to the positions of their columns, and nowhere else unless a dense factorization
has columns left over. -/
def Assigns (e : Engine α) (n : Nat) : Prop :=
  ∀ sequence heading : Array Nat, sequence.size = n → heading.size = n →
    ∃ vs t, assign sequence heading e = .ok vs t ∧ vs.size = n ∧
      (∀ j i, e.positionOf j = .ok (some i) → vs[i]? = sequence[j]?) ∧
      ((e.isDense = true → e.rank = n) →
        ∀ i, (∀ j, e.positionOf j ≠ .ok (some i)) → vs[i]? = heading[i]?)

theorem Placed.listed (h : Placed e n rows cols) {i : Nat}
    (at_ : e.positionOf j = .ok (some i)) : ∃ k : Nat, rows[k]? = some i ∧ cols[k]? = some j := by
  have row : rowOf rows cols j = some i := Except.ok.inj ((h.position j).symm.trans at_)
  have member : j ∈ cols := by
    by_contra out
    exact nomatch (rowOf_of_notMem out).symm.trans row
  obtain ⟨k, hk, rfl⟩ := List.getElem_of_mem member
  exact ⟨k, (rowOf_getElem h.distinctCols hk).symm.trans row, List.getElem?_eq_getElem hk⟩

theorem Placed.vacant (h : Placed e n rows cols) {i : Nat}
    (free : ∀ j, e.positionOf j ≠ .ok (some i)) : i ∉ rows := by
  intro member
  obtain ⟨k, hk, rfl⟩ := List.getElem_of_mem member
  have hk' : k < cols.length := h.length ▸ hk
  refine free cols[k] ?_
  rw [h.position, rowOf_getElem h.distinctCols, List.getElem?_eq_getElem hk]

theorem assigns_of_recorded {s : SparseFactorization α} (sound : s.Sound)
    (recorded : s.Recorded) : Assigns (sparse s) s.dimension := by
  intro sequence heading sizeSequence sizeHeading
  obtain ⟨stages, distinct, records⟩ := recorded
  have placed := placed_of_recorded distinct records
  have listedRows : s.factors.pivotRows.toList = stages.map Stage.row := by rw [records.rows]
  have listedCols : s.factors.pivotCols.toList = stages.map Stage.col := by rw [records.cols]
  have same : s.factors.pivotCols.size = s.factors.rank := by
    rw [Factors.rank, records.rows, records.cols]
    simp
  obtain ⟨vs, run, size, written, others⟩ := writes_ok rfl same (listedRows ▸ distinct.rows)
    (fun i member => sizeHeading ▸ distinct.insideRows i (listedRows ▸ member))
    (fun j member => sizeSequence ▸ distinct.insideCols j (listedCols ▸ member))
  obtain ⟨t, built⟩ := sound.buildTransposes_ok
  refine ⟨vs, sparse t, ?_, size.trans sizeHeading, fun j i at_ => ?_, fun _ i free => ?_⟩
  · unfold assign dispatch
    dsimp only
    rw [SparseFactorization.assign_run run built]
  · obtain ⟨k, row, col⟩ := placed.listed at_
    refine written k i j ?_ ?_
    · rw [records.rows, List.getElem?_toArray, row]
    · rw [records.cols, List.getElem?_toArray, col]
  · refine others i ?_
    rw [records.rows]
    exact placed.vacant free

theorem assigns_of_eliminated {d : DenseFactorization α} {columns : List (List (Nat × α))}
    {x : Dense.Elimination α} (h : DenseFactorization.Eliminated d columns x) :
    Assigns (dense d) d.dimension := by
  intro sequence heading sizeSequence sizeHeading
  have placed := placed_of_eliminated h
  have permRows := h.shape.rows
  have permCols := h.shape.cols
  obtain ⟨vs, run, size, written, others⟩ := writes_ok (size_of_perm permRows)
    (size_of_perm permCols) (permRows.nodup_iff.mpr List.nodup_range)
    (fun i member => sizeHeading ▸ List.mem_range.mp (permRows.mem_iff.mp member))
    (fun j member => sizeSequence ▸ List.mem_range.mp (permCols.mem_iff.mp member))
  have assigned : d.assign sequence heading = .ok vs := by
    unfold DenseFactorization.assign
    rw [h.order]
    exact run
  refine ⟨vs, dense d, ?_, size.trans sizeHeading, fun j i at_ => ?_, fun full i free => ?_⟩
  · unfold assign dispatch
    dsimp only
    rw [get_bind, assigned]
    rfl
  · obtain ⟨k, row, col⟩ := placed.listed at_
    rw [List.getElem?_take] at row col
    split at row
    · rw [if_pos ‹_›, Array.getElem?_toList] at col
      rw [Array.getElem?_toList] at row
      exact written k i j row col
    · exact nomatch row
  · refine others i fun member => placed.vacant free ?_
    have rank : x.rank = d.dimension := by
      have rank := full rfl
      rwa [placed.rank, List.length_take, Array.length_toList, size_of_perm permCols,
        Nat.min_eq_left h.rank] at rank
    rwa [rank, ← size_of_perm permRows, ← Array.length_toList, List.take_length]

theorem Decided.assigns (h : e.Decided) : Assigns e e.dimension := by
  cases e with
  | dense d =>
    obtain ⟨columns, x, eliminated⟩ := h
    exact assigns_of_eliminated eliminated
  | sparse s => exact assigns_of_recorded h.1 h.2

/-- After a factorization of a loaded basis, variables are assigned to the positions of their
columns. -/
theorem assigns_of_factor [LawfulCounts α] (visited : Visited e) (loaded : e.IsLoaded)
    (context : Context α) :
    Ends (fun _ t => t.Assigns e.dimension ∧ t.rank = e.dimension)
      (fun status t => (status = .singular ∨ status = .outOfMemory ∧ e.isDense = false) ∧
        t.Assigns e.dimension) (factor context e) :=
  (decided_of_factor visited.sound loaded context).mono
    (fun _ _ ⟨decided, dimension, full⟩ => ⟨dimension ▸ decided.assigns, full⟩)
    fun _ _ ⟨status, decided, dimension⟩ => ⟨status, dimension ▸ decided.assigns⟩

open BasisFactorization (proportional)

theorem assigns_of_proportional : ∃ e t : Engine ℚ, Visited e ∧ e.IsLoaded ∧ e.isDense = false ∧
    factor .standard e = .error (.status .singular) t ∧ t.rank = 1 ∧ t.Assigns 2 := by
  obtain ⟨e, visited, check⟩ := (Visited.sparse (.standard : Options ℚ)).exists_of_leadsTo
    [.allocate 2 0 0, .load proportional]
    (p := fun e => decide e.IsLoaded && !e.isDense && e.dimension == 2 &&
      stoppedBy (.status .singular) (fun t => t.rank == 1) (factor .standard e)) (by decide +kernel)
  simp only [Bool.and_eq_true, decide_eq_true_eq, Bool.not_eq_true', beq_iff_eq,
    stoppedBy_iff] at check
  obtain ⟨⟨⟨loaded, kind⟩, dimension⟩, t, run, rank⟩ := check
  have ends := assigns_of_factor visited loaded .standard
  rw [run, dimension] at ends
  exact ⟨e, t, visited, loaded, kind, run, rank, ends.2⟩

/-- A dense factorization of two columns that differ by a factor has a row left over, which is no
position of a column and is overwritten. -/
theorem assign_overwrites_vacant : proportional.Accepted ∧ ∃ e t u : Engine ℚ, ∃ vs,
    Visited e ∧ e.IsLoaded ∧ factor .standard e = .error (.status .singular) t ∧
    t.positionOf 0 ≠ .ok (some 1) ∧ t.positionOf 1 ≠ .ok (some 1) ∧
    assign #[4, 5] #[6, 7] t = .ok vs u ∧ vs[1]? ≠ some 7 := by
  obtain ⟨e, visited, check⟩ := (Visited.dense (.standard : Options ℚ)).exists_of_leadsTo
    [.allocate 2 0 0, .load proportional]
    (p := fun e => decide e.IsLoaded && stoppedBy (.status .singular) (fun t =>
      t.positionOf 0 != .ok (some 1) && t.positionOf 1 != .ok (some 1) &&
        endedWith (fun vs _ => vs[1]? != some 7) (assign #[4, 5] #[6, 7] t))
      (factor .standard e)) (by decide +kernel)
  simp only [Bool.and_eq_true, decide_eq_true_eq, stoppedBy_iff, bne_iff_ne] at check
  obtain ⟨loaded, t, run, ⟨first, second⟩, written⟩ := check
  obtain ⟨vs, u, assigned, written⟩ := exists_ok_of_check _ written
  exact ⟨BasisMatrix.accepted_of_isOk (by decide +kernel), e, t, u, vs, visited, loaded, run, first,
    second, assigned, bne_iff_ne.mp written⟩

end Engine

end SimplexBasis
