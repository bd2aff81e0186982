import SimplexBasis.Proofs.Dense.Stages
import SimplexBasis.Proofs.Sparse.Slots
import SimplexBasis.Sparse.DenseBlock

/-!
# The dense block

What is left of the active submatrix is gathered into a square block, eliminated there, and its stages
are appended to the factors.
-/

set_option linter.unusedSectionVars false

namespace SimplexBasis

variable {α : Type} [Scalar α] {s t : SparseFactorization α} {m d i j : Nat} {x tolerance : α}
  {v w : ActiveView α} {stages : List (Stage α)}

open Dense (element placed)

/-- The indices that are not in a list. -/
def leftOf (m : Nat) (done : List Nat) : List Nat := (List.range m).filter fun i => i ∉ done

theorem mem_leftOf {done : List Nat} : i ∈ leftOf m done ↔ i < m ∧ i ∉ done := by
  simp [leftOf]

theorem nodup_leftOf (m : Nat) (done : List Nat) : (leftOf m done).Nodup :=
  List.nodup_range.filter _

theorem perm_append_leftOf {done : List Nat} (distinct : done.Nodup)
    (inside : ∀ i ∈ done, i < m) : (done ++ leftOf m done).Perm (List.range m) := by
  have apart : done.Disjoint (leftOf m done) := fun i member left =>
    (mem_leftOf.mp left).2 member
  rw [List.perm_ext_iff_of_nodup (distinct.append (nodup_leftOf m done) apart) List.nodup_range]
  intro i
  rw [List.mem_append, mem_leftOf, List.mem_range]
  by_cases member : i ∈ done <;> simp [member, inside]

theorem length_leftOf {done : List Nat} (distinct : done.Nodup) (inside : ∀ i ∈ done, i < m) :
    (leftOf m done).length + done.length = m := by
  have length := (perm_append_leftOf distinct inside).length_eq
  rw [List.length_append, List.length_range] at length
  omega

namespace SparseFactorization

/-! ### Gathering -/

/-- The block holds the entries of the columns before `k`, and of column `k` those in `done`. -/
def Gathered (d : Nat) (v : ActiveView α) (rows cols : List Nat) (k : Nat) (done : List (Nat × α))
    (block : Array α) : Prop :=
  block.size = d * d ∧ ∀ p < d, ∀ q < d, element d block p q =
    if q < k then v.value (rows.getD p 0) (cols.getD q 0)
    else if q = k then valueAt done (rows.getD p 0) else 0

theorem gatherColumn_ok {rows cols : List Nat} {k : Nat} {entries : List (Nat × α)}
    {block : Array α} (slots : s.workspace.slot = slotsOf m rows) (lengthRows : rows.length = d)
    (distinctRows : rows.Nodup) (hk : k < d) (small : d * d < UInt64.size) (distinct : (keys entries).Nodup)
    (inside : ∀ i ∈ keys entries, i < m ∧ i ∈ rows) (gathered : Gathered d v rows cols k [] block) :
    ∃ block', entries.foldlM (fun block (e : Nat × α) => do
        let place := (← entry s.workspace.slot e.1).getD Word.last
        withEntry block (Word.add (k * d) place) e.2) block = (.ok block' : Checked (Array α)) ∧
      Gathered d v rows cols k entries block' := by
  refine foldlM_ok (fun done block => Gathered d v rows cols k done block) gathered ?_
  rintro done ⟨i, x⟩ rest block split ⟨size, elements⟩
  obtain ⟨hi, member⟩ := inside i (by simp [split])
  obtain ⟨place, found⟩ : ∃ place, rows.idxOf? i = some place :=
    Option.isSome_iff_exists.mp (isSome_idxOf?.mpr member)
  have atPlace := idxOf?_eq_some found
  obtain ⟨inRows, row⟩ := List.getElem?_eq_some_iff.mp atPlace
  have inPlace : place < d := lengthRows ▸ inRows
  have offset := Dense.place_lt inPlace hk
  have fresh : i ∉ keys done := by
    rw [split, keys_append] at distinct
    exact fun h => (List.nodup_append.mp distinct).2.2 i h i (by simp) rfl
  refine ⟨block.setIfInBounds (k * d + place) x, ?_, by rw [Array.size_setIfInBounds, size],
    fun p hp q hq => ?_⟩
  · simp only [slots, entry_eq_ok_iff.mpr (getElem?_slotsOf rows hi), checked_ok_bind, found,
      Option.getD_some]
    rw [Word.add_of_lt (by omega)]
    exact withEntry_of_lt x (by omega)
  · rw [Dense.element_set (by omega) inPlace hk hp, elements p hp q hq]
    have inP : p < rows.length := by omega
    have here : rows.getD p 0 = i ↔ p = place := by
      have read : rows[p]? = some (rows.getD p 0) := by simp [inP]
      refine ⟨fun eq => nodup_getElem? distinctRows (eq ▸ read) atPlace, fun eq => ?_⟩
      rw [eq] at read ⊢
      exact Option.some.inj (read.symm.trans atPlace)
    rw [valueAt_concat fresh]
    simp only [here]
    by_cases before : q < k
    · rw [if_neg (by omega), if_pos before, if_pos before]
    · rw [if_neg before, if_neg before]
      grind

theorem gatherBlock_ok {rows cols : List Nat} (slots : s.workspace.slot = slotsOf m rows)
    (active : s.active.Shows m s.capacity.files v) (lengthRows : rows.length = d)
    (lengthCols : cols.length = d) (distinctRows : rows.Nodup) (small : d * d < UInt64.size)
    (inside : ∀ j ∈ cols, j < m ∧ (keys (v.cols j)).Nodup ∧
      ∀ i ∈ keys (v.cols j), i < m ∧ i ∈ rows) :
    ∃ block, s.gatherBlock cols d = .ok block ∧ block.size = d * d ∧ ∀ p < d, ∀ q < d,
      element d block p q = v.value (rows.getD p 0) (cols.getD q 0) := by
  have blank : Gathered d v rows cols 0 [] (Array.replicate (d * d) 0) := by
    refine ⟨by simp, fun p hp q hq => ?_⟩
    have inBlock := Dense.place_lt hp hq
    simp [element, Array.getD, inBlock]
  suffices loop : ∃ block, s.gatherBlock cols d = .ok block ∧
      Gathered d v rows cols cols.zipIdx.length [] block by
    obtain ⟨block, run, size, elements⟩ := loop
    refine ⟨block, run, size, fun p hp q hq => ?_⟩
    rw [elements p hp q hq, if_pos (by simpa [lengthCols] using hq)]
  unfold gatherBlock
  refine foldlM_ok (fun done block => Gathered d v rows cols done.length [] block) blank ?_
  rintro done ⟨j, k⟩ rest block split gathered
  have place : cols.zipIdx[done.length]? = some (j, k) := by
    rw [split]
    simp
  rw [List.getElem?_zipIdx, Option.map_eq_some_iff] at place
  obtain ⟨j', found, eq⟩ := place
  obtain ⟨rfl, rfl⟩ : j' = j ∧ done.length = k := by simpa using eq
  obtain ⟨inCols, -⟩ := List.getElem?_eq_some_iff.mp found
  obtain ⟨hj, distinct, rowsIn⟩ := inside j' (List.mem_of_getElem? found)
  obtain ⟨block', run, size, elements⟩ := gatherColumn_ok (k := done.length) slots lengthRows
    distinctRows (by omega) small distinct rowsIn gathered
  refine ⟨block', ?_, size, fun p hp q hq => ?_⟩
  · dsimp only
    rw [active.cols.line_eq hj, checked_ok_bind]
    exact run
  · have column : cols.getD done.length 0 = j' := by
      rw [List.getD_eq_getElem?_getD, found]
      rfl
    rw [elements p hp q hq, List.length_append, List.length_singleton, valueAt_nil]
    by_cases last : q = done.length
    · rw [if_neg (by omega), if_pos last, if_pos (show q < done.length + 1 by omega), last,
        column]
      rfl
    · rw [if_neg last]
      by_cases before : q < done.length
      · rw [if_pos before, if_pos (by omega)]
      · rw [if_neg before, if_neg (by omega), ite_self]

theorem gatherBlock_sized {rows cols : List Nat} (slots : s.workspace.slot = slotsOf m rows)
    (active : s.active.Shows m s.capacity.files v) (lengthRows : rows.length = d)
    (lengthCols : cols.length = d)
    (inside : ∀ j ∈ cols, j < m ∧ ∀ i ∈ keys (v.cols j), i < m ∧ i ∈ rows) :
    ∃ block, s.gatherBlock cols d = .ok block ∧ block.size = d * d := by
  unfold gatherBlock
  refine foldlM_ok (fun _ (block : Array α) => block.size = d * d) (by simp) ?_
  rintro done ⟨j, k⟩ rest block split size
  have listed : (j, k) ∈ cols.zipIdx := by simp [split]
  obtain ⟨hj, rowsIn⟩ := inside j (List.fst_mem_of_mem_zipIdx listed)
  have hk : k < d := lengthCols ▸ (List.snd_lt_of_mem_zipIdx listed)
  dsimp only
  rw [active.cols.line_eq hj, checked_ok_bind]
  refine foldlM_ok (fun _ (block : Array α) => block.size = d * d) size ?_
  rintro done ⟨i, x⟩ rest block split size
  obtain ⟨hi, member⟩ := rowsIn i (by simp [split])
  obtain ⟨place, found⟩ : ∃ place, rows.idxOf? i = some place :=
    Option.isSome_iff_exists.mp (isSome_idxOf?.mpr member)
  have inPlace : place < d := lengthRows ▸ (List.getElem?_eq_some_iff.mp (idxOf?_eq_some found)).1
  have offset := Dense.place_lt inPlace hk
  have wrapped : Word.add (k * d) place ≤ k * d + place := Nat.mod_le _ _
  refine ⟨block.setIfInBounds (Word.add (k * d) place) x, ?_, by
    rw [Array.size_setIfInBounds, size]⟩
  dsimp only
  rw [slots, entry_eq_ok_iff.mpr (getElem?_slotsOf rows hi), checked_ok_bind, found,
    Option.getD_some]
  exact withEntry_of_lt x (by omega)

/-! ### Appending the stages -/

theorem foldl_pushLower_nonzeroAt (f : Factors α) (lower upper : List (Nat × α)) (index : Nat → Nat)
    (g : Nat → α) (places : List Nat) :
    places.foldl (fun f t => if g t != 0 then f.pushLower (index t) (g t) else f)
        (f.opened lower upper) = f.opened (lower ++ Dense.nonzeroAt index g places) upper := by
  induction places generalizing lower with
  | nil => simp [Dense.nonzeroAt]
  | cons t rest ih =>
    unfold Dense.nonzeroAt at ih ⊢
    rw [List.foldl_cons, List.filterMap_cons]
    by_cases nonzero : (g t != 0) = true
    · rw [if_pos nonzero, if_pos nonzero]
      dsimp only
      rw [Factors.pushLower_opened, ih, List.append_assoc]
      rfl
    · rw [if_neg nonzero, if_neg nonzero]
      exact ih lower

theorem foldl_pushUpper_nonzeroAt (f : Factors α) (lower upper : List (Nat × α)) (index : Nat → Nat)
    (g : Nat → α) (places : List Nat) :
    places.foldl (fun f t => if g t != 0 then f.pushUpper (index t) (g t) else f)
        (f.opened lower upper) = f.opened lower (upper ++ Dense.nonzeroAt index g places) := by
  induction places generalizing upper with
  | nil => simp [Dense.nonzeroAt]
  | cons t rest ih =>
    unfold Dense.nonzeroAt at ih ⊢
    rw [List.foldl_cons, List.filterMap_cons]
    by_cases nonzero : (g t != 0) = true
    · rw [if_pos nonzero, if_pos nonzero]
      dsimp only
      rw [Factors.pushUpper_opened, ih, List.append_assoc]
      rfl
    · rw [if_neg nonzero, if_neg nonzero]
      exact ih upper

theorem appendStage_run {e : Dense.Elimination α} {rows cols : Array Nat} {q : Nat}
    (factors : s.factors = Factors.ofStages m stages)
    (triangular : Triangular m (stages ++ [e.stageOf d rows cols q])) :
    appendStage e rows cols d q s = .ok () { s with
      factors := Factors.ofStages m (stages ++ [e.stageOf d rows cols q])
      counters := { s.counters with pivotRange :=
        s.counters.pivotRange.extend (Scalar.abs (element d e.block q q)) } } := by
  have fits := triangular.of_concat.2
  have closed := Factors.closeStage_opened (m := m) (e.stageOf d rows cols q) fits.freshRow
    fits.freshCol
  have lower := foldl_pushLower_nonzeroAt (Factors.ofStages m stages) [] [] (placed e.rows rows)
    (fun p => element d e.block p q) (List.range' (q + 1) (d - (q + 1)))
  have upper := foldl_pushUpper_nonzeroAt (Factors.ofStages m stages)
    (e.stageOf d rows cols q).lower [] (placed e.cols cols) (fun p => element d e.block q p)
    (List.range' (q + 1) (d - (q + 1)))
  rw [← closed]
  refine congrArg (EStateM.Result.ok ()) ?_
  refine congrArg (fun f => ({ s with
    factors := f
    counters := { s.counters with pivotRange :=
      s.counters.pivotRange.extend (Scalar.abs (element d e.block q q)) } } :
        SparseFactorization α)) (congrArg (fun f => Factors.closeStage f
          (placed e.rows rows q) (placed e.cols cols q) (element d e.block q q)) ?_)
  rw [List.nil_append] at lower upper
  refine Eq.trans ?_ upper
  refine congrArg (fun f => List.foldl _ f _) ?_
  rw [Factors.opened_nil, ← factors] at lower
  rw [← factors]
  exact lower

theorem appendStages_run {e : Dense.Elimination α} {rows cols : Array Nat} {n : Nat}
    (factors : s.factors = Factors.ofStages m stages)
    (triangular : ∀ n' ≤ n, Triangular m (stages ++ (List.range n').map (e.stageOf d rows cols))) :
    ∃ range, (List.range n).forM (appendStage e rows cols d) s = .ok () { s with
      factors := Factors.ofStages m (stages ++ (List.range n).map (e.stageOf d rows cols))
      counters := { s.counters with pivotRange := range } } := by
  have loop := @Ends.forM _ _ (fun _ _ => False) s (appendStage e rows cols d)
    (fun done t => ∃ range, t = { s with
      factors := Factors.ofStages m (stages ++ done.map (e.stageOf d rows cols))
      counters := { s.counters with pivotRange := range } }) (List.range n)
    ⟨s.counters.pivotRange, by rw [List.map_nil, List.append_nil, ← factors]⟩ ?_
  · obtain ⟨_, t, run, range, rfl⟩ := loop.exists_ok
    exact ⟨range, run⟩
  · rintro done q rest _ split ⟨range, rfl⟩
    have prefix_ : done ++ [q] = List.range (done.length + 1) := by
      have taken := congrArg (List.take (done.length + 1)) split
      have bound := congrArg List.length split
      simp only [List.length_range, List.length_append, List.length_cons] at bound
      rw [List.take_range, Nat.min_eq_left (by omega)] at taken
      rw [taken]
      simp [List.take_append]
    have bound := congrArg List.length split
    simp only [List.length_range, List.length_append, List.length_cons] at bound
    have fits := triangular (done.length + 1) (by omega)
    rw [← prefix_, List.map_append, ← List.append_assoc, List.map_singleton] at fits
    refine .of_ok (appendStage_run (by rfl) fits) ?_
    rw [List.map_append, ← List.append_assoc, List.map_singleton]
    exact ⟨_, rfl⟩

/-! ### Clearing the active submatrix -/

theorem clearColumns_ok {a : Active α} {capacity : Nat} {cols : List Nat}
    (shows : a.Shows m capacity v) (inside : ∀ j ∈ cols, j < m) :
    ∃ (b : Active α) (w : ActiveView α), cols.forM (fun j => (do
        Active.onCols (LineFile.clearLine j)
        Active.onColCounts (CountLists.remove j) : Action (Active α) Unit)) a = .ok () b ∧
      b.Shows m capacity w ∧ w.colMax = v.colMax := by
  induction cols generalizing a v with
  | nil => exact ⟨a, v, rfl, shows, rfl⟩
  | cons j rest ih =>
    have hj := inside j List.mem_cons_self
    obtain ⟨f, cleared, cols⟩ := shows.cols.clearLine hj
    obtain ⟨c, removed, lists, elements, length⟩ :=
      shows.colLists.remove (e := j) (by rwa [shows.colElements])
    have shows' : { a with cols := f, colCounts := c }.Shows m capacity { v with
        cols := Function.update v.cols j []
        colLists := fun k => (v.colLists k).erase j } :=
      { shows with
        cols := cols
        colLists := lists
        colElements := elements.trans shows.colElements
        colLength := length.trans shows.colLength }
    obtain ⟨b, w, run, shows'', colMax⟩ := ih shows' fun k hk => inside k (List.mem_cons_of_mem _ hk)
    refine ⟨b, w, ?_, shows'', colMax⟩
    rw [forM_cons_eq, bind_of_ok (x := ()) (t := { a with cols := f, colCounts := c }) (by
      rw [bind_of_ok (Active.onCols_run cleared), Active.onColCounts_run (by exact removed)])]
    exact run

theorem clearRows_ok {a : Active α} {capacity : Nat} {rows : List Nat}
    (shows : a.Shows m capacity v) (inside : ∀ i ∈ rows, i < m) :
    ∃ (b : Active α) (w : ActiveView α), rows.forM (fun i => (do
        Active.onRows (LineFile.clearLine i)
        Active.onRowCounts (CountLists.remove i) : Action (Active α) Unit)) a = .ok () b ∧
      b.Shows m capacity w ∧ w.colMax = v.colMax := by
  induction rows generalizing a v with
  | nil => exact ⟨a, v, rfl, shows, rfl⟩
  | cons i rest ih =>
    have hi := inside i List.mem_cons_self
    obtain ⟨f, cleared, rows⟩ := shows.rows.clearLine hi
    obtain ⟨c, removed, lists, elements, length⟩ :=
      shows.rowLists.remove (e := i) (by rwa [shows.rowElements])
    have shows' : { a with rows := f, rowCounts := c }.Shows m capacity { v with
        rows := Function.update v.rows i []
        rowLists := fun k => (v.rowLists k).erase i } :=
      { shows with
        rows := rows
        rowLists := lists
        rowElements := elements.trans shows.rowElements
        rowLength := length.trans shows.rowLength }
    obtain ⟨b, w, run, shows'', colMax⟩ := ih shows' fun k hk => inside k (List.mem_cons_of_mem _ hk)
    refine ⟨b, w, ?_, shows'', colMax⟩
    rw [forM_cons_eq, bind_of_ok (x := ()) (t := { a with rows := f, rowCounts := c }) (by
      rw [bind_of_ok (Active.onRows_run cleared), Active.onRowCounts_run (by exact removed)])]
    exact run

/-! ### The block -/

/-- The rest of the view stands in the block. -/
def Blocked (v : ActiveView α) (rows cols : List Nat) (block : Array α) : Prop :=
  block.size = rows.length * rows.length ∧ ∀ p < rows.length, ∀ q < rows.length,
    element rows.length block p q = v.value (rows.getD p 0) (cols.getD q 0)

theorem exists_blocked (v : ActiveView α) (rows cols : List Nat) :
    ∃ block, Blocked v rows cols block := by
  refine ⟨Array.ofFn fun k : Fin (rows.length * rows.length) =>
    v.value (rows.getD (k % rows.length) 0) (cols.getD (k / rows.length) 0), by simp,
    fun p hp q hq => ?_⟩
  have place := Dense.place_lt hp hq
  have wide := Nat.zero_lt_of_lt hp
  unfold element
  rw [Array.getD_eq_getD_getElem?, Array.getElem?_ofFn, dif_pos place, Option.getD_some]
  dsimp only
  rw [Nat.mul_comm q, Nat.mul_add_mod, Nat.mod_eq_of_lt hp, Nat.mul_add_div wide,
    Nat.div_eq_of_lt hp, Nat.add_zero]

theorem Blocked.unique {rows cols : List Nat} {block block' : Array α} (h : Blocked v rows cols block)
    (h' : Blocked v rows cols block') : block = block' := by
  refine Array.ext (h.1.trans h'.1.symm) fun k hk hk' => ?_
  rw [h.1] at hk
  have wide : 0 < rows.length := Nat.pos_of_mul_pos_left (Nat.zero_lt_of_lt hk)
  have low := Nat.mod_lt k wide
  have high := Nat.div_lt_of_lt_mul hk
  have same := (h.2 _ low _ high).trans (h'.2 _ low _ high).symm
  unfold element at same
  rw [Nat.div_add_mod'] at same
  simpa [Array.getD, h.1, h'.1, hk] using same

def blockStages (block : Array α) (rows cols : List Nat) (tolerance : α) : List (Stage α) :=
  (Dense.eliminate block rows.length rows.length tolerance).stagesOf rows.length rows.toArray
    cols.toArray

namespace Blocked

variable {block : Array α}

theorem length_left (h : Triangular m stages) :
    (leftOf m (stages.map Stage.row)).length + stages.length = m ∧
      (leftOf m (stages.map Stage.col)).length = (leftOf m (stages.map Stage.row)).length := by
  have rows := length_leftOf h.nodup_rows fun _ => h.row_lt
  have cols := length_leftOf h.nodup_cols fun _ => h.col_lt
  rw [List.length_map] at rows cols
  omega

theorem triangular_of_size (size : block.size = (leftOf m (stages.map Stage.row)).length *
    (leftOf m (stages.map Stage.row)).length) (before : Triangular m stages) {n : Nat}
    (few : n ≤ (Dense.eliminate block (leftOf m (stages.map Stage.row)).length
      (leftOf m (stages.map Stage.row)).length tolerance).rank) :
    Triangular m (stages ++ (List.range n).map ((Dense.eliminate block
      (leftOf m (stages.map Stage.row)).length (leftOf m (stages.map Stage.row)).length
      tolerance).stageOf (leftOf m (stages.map Stage.row)).length
      (leftOf m (stages.map Stage.row)).toArray (leftOf m (stages.map Stage.col)).toArray)) := by
  obtain ⟨shape, rank⟩ := @Dense.Elimination.run_shape _ _ _ _ _
    (leftOf m (stages.map Stage.row)).length tolerance le_rfl
    (Dense.Elimination.shape_start (m := (leftOf m (stages.map Stage.row)).length)
      (by rw [size])) (by simp [Dense.Elimination.start])
  exact Dense.Elimination.triangular_stagesOf shape (by simp) (by simpa using (length_left before).2)
    (by simpa using nodup_leftOf m _) (by simpa using nodup_leftOf m _) before
    (fun i hi => mem_leftOf.mp (by simpa using hi)) (fun j hj => mem_leftOf.mp (by simpa using hj))
    (few.trans rank)

theorem triangular
    (h : Blocked v (leftOf m (stages.map Stage.row)) (leftOf m (stages.map Stage.col)) block)
    (before : Triangular m stages) :
    Triangular m (stages ++ blockStages block (leftOf m (stages.map Stage.row))
      (leftOf m (stages.map Stage.col)) tolerance) :=
  triangular_of_size h.1 before le_rfl

end Blocked

/-- A state whose stages end with those of the dense block. -/
def Finished (s : SparseFactorization α) (m : Nat) (stages : List (Stage α)) (v : ActiveView α)
    (t : SparseFactorization α) : Prop :=
  t.setup = s.setup ∧ t.workspace.Ready m ∧ t.active.colMax.size = m ∧
    ∃ block, Blocked v (leftOf m (stages.map Stage.row)) (leftOf m (stages.map Stage.col)) block ∧
      t.factors = Factors.ofStages m (stages ++ blockStages block (leftOf m (stages.map Stage.row))
        (leftOf m (stages.map Stage.col)) s.options.zeroTolerance)

/-- What is left after the elimination of a block, whatever it was gathered to. -/
def Eliminated (s : SparseFactorization α) (m : Nat) (stages : List (Stage α)) (block : Array α)
    (t : SparseFactorization α) : Prop :=
  t.setup = s.setup ∧ t.workspace.Ready m ∧ t.active.colMax.size = m ∧
    t.factors = Factors.ofStages m (stages ++ blockStages block (leftOf m (stages.map Stage.row))
      (leftOf m (stages.map Stage.col)) s.options.zeroTolerance)

section Block

variable (h : Working s m stages v) (triangular : Triangular m stages)

include h

theorem Working.lengths_left :
    m - stages.length = (leftOf m (stages.map Stage.row)).length ∧
    (leftOf m (stages.map Stage.col)).length = (leftOf m (stages.map Stage.row)).length := by
  have rowsLeft := length_leftOf h.distinctRows h.insideRows
  have colsLeft := length_leftOf h.distinctCols h.insideCols
  rw [List.length_map] at rowsLeft colsLeft
  omega

theorem Working.inside_left : ∀ j ∈ leftOf m (stages.map Stage.col),
    j < m ∧ (keys (v.cols j)).Nodup ∧
      ∀ i ∈ keys (v.cols j), i < m ∧ i ∈ leftOf m (stages.map Stage.row) := fun j hj => by
  have range := mem_leftOf.mp hj
  refine ⟨range.1, h.consistent.distinctCols j range.1, fun i hi => ?_⟩
  have free := h.consistent.colRange j range.1 i hi
  exact ⟨free.1, mem_leftOf.mpr free⟩

include triangular

theorem Working.factorizeBlock_of_gathered {block : Array α}
    (gathered : (s.withSlots (slotsOf m (leftOf m (stages.map Stage.row)))).gatherBlock
      (leftOf m (stages.map Stage.col)) (leftOf m (stages.map Stage.row)).length = .ok block)
    (size : block.size = (leftOf m (stages.map Stage.row)).length *
      (leftOf m (stages.map Stage.row)).length) :
    Ends (fun _ t => Eliminated s m stages block t ∧ ∃ range flops, t.counters = { s.counters with
        denseSize := m - stages.length, factorFlops := flops, pivotRange := range })
      (Stuck s m stages) (SparseFactorization.factorizeBlock s) := by
  have rowsEq : Factors.unpivoted s.factors.stageOfRow = leftOf m (stages.map Stage.row) := by
    rw [h.factors]
    exact Factors.unpivoted_eq _
  have colsEq : Factors.unpivoted s.factors.stageOfCol = leftOf m (stages.map Stage.col) := by
    rw [h.factors]
    exact Factors.unpivoted_eq _
  obtain ⟨left, square⟩ := h.lengths_left
  have stagesFit := fun n => @Blocked.triangular_of_size _ _ m s.options.zeroTolerance stages block
    size triangular n
  have insideRows : ∀ i ∈ leftOf m (stages.map Stage.row), i < m := fun i hi =>
    (mem_leftOf.mp hi).1
  have insideCols : ∀ j ∈ leftOf m (stages.map Stage.col), j < m := fun j hj =>
    (mem_leftOf.mp hj).1
  have distinctRows := nodup_leftOf m (stages.map Stage.row)
  unfold Eliminated blockStages
  generalize leftOf m (stages.map Stage.row) = rows at *
  generalize leftOf m (stages.map Stage.col) = cols at *
  unfold SparseFactorization.factorizeBlock
  rw [get_bind]
  dsimp only
  rw [get_bind, rowsEq, colsEq, square, beq_self_eq_true, require_true_bind]
  refine (checkLower_ends h.stuck).bind ?_
  rintro _ _ ⟨rfl, -⟩
  refine (checkUpper_ends h.stuck).bind ?_
  rintro _ _ ⟨rfl, -⟩
  have number := number_run h.workspace id (by rwa [List.map_id]) insideRows
  rw [List.map_id] at number
  rw [bind_of_ok (by exact number), get_bind, gathered, lift_ok_bind]
  have unnumber := unnumber_run (s := s) id insideRows
  rw [List.map_id, ← h.workspace.slot] at unnumber
  rw [bind_of_ok (t := s) (by exact unnumber), get_bind, get_bind, bind_of_ok (log_run _ _)]
  obtain ⟨range, appended⟩ := @appendStages_run _ _
    { s with journal := s.journal.push ⟨.trace, s.logTarget, _⟩ } m
    rows.length _ _ rows.toArray cols.toArray _ h.factors stagesFit
  rw [bind_of_ok (by exact appended)]
  obtain ⟨b, w, clearedCols, shows, colMax⟩ := clearColumns_ok h.active insideCols
  obtain ⟨c, u, clearedRows, shows', colMax'⟩ := clearRows_ok shows insideRows
  rw [bind_of_ok (onActive_run (x := ⟨⟩) (a := { c with nonzeros := 0 }) (by
    rw [bind_of_ok (by exact clearedCols), bind_of_ok (by exact clearedRows)]
    rfl)), updateCounters_run]
  refine ⟨⟨rfl, h.workspace, ?_, rfl⟩, ?_⟩
  · change c.colMax.size = m
    rw [shows'.colMax, colMax', colMax, h.consistent.sized]
  · rw [left]
    exact ⟨range, _, rfl⟩

theorem Working.factorizeBlock
    (small : (m - stages.length) * (m - stages.length) < UInt64.size) :
    Ends (fun _ t => Finished s m stages v t ∧ ∃ range flops, t.counters = { s.counters with
        denseSize := m - stages.length, factorFlops := flops, pivotRange := range })
      (Stuck s m stages) (SparseFactorization.factorizeBlock s) := by
  obtain ⟨left, square⟩ := h.lengths_left
  obtain ⟨block, gathered, blocked⟩ := gatherBlock_ok
    (s := s.withSlots (slotsOf m (leftOf m (stages.map Stage.row)))) rfl h.active rfl square
    (nodup_leftOf m _) (left ▸ small) h.inside_left
  refine (h.factorizeBlock_of_gathered triangular gathered blocked.1).mono ?_ fun _ _ => id
  rintro _ t ⟨⟨setup, ready, size, factors⟩, counters⟩
  exact ⟨⟨setup, ready, size, block, blocked, factors⟩, counters⟩

theorem Working.factorizeBlock_triangular :
    Ends (fun _ t => t.dimension = m ∧ ∃ all, t.factors = Factors.ofStages m all ∧
        Triangular m all)
      (Stuck s m stages) (SparseFactorization.factorizeBlock s) := by
  obtain ⟨-, square⟩ := h.lengths_left
  obtain ⟨block, gathered, size⟩ := gatherBlock_sized
    (s := s.withSlots (slotsOf m (leftOf m (stages.map Stage.row)))) rfl h.active rfl square
    fun j hj => ⟨(h.inside_left j hj).1, (h.inside_left j hj).2.2⟩
  refine (h.factorizeBlock_of_gathered triangular gathered size).mono ?_ fun _ _ => id
  rintro _ t ⟨⟨setup, -, -, factors⟩, -⟩
  exact ⟨(dimension_of_setup setup).trans h.dimension, _, factors,
    Blocked.triangular_of_size size triangular le_rfl⟩

end Block

/-! ### Exact stages -/

namespace Blocked

variable {v : ActiveView ℚ} {stages : List (Stage ℚ)} {tolerance : ℚ} {block : Array ℚ}
  (h : Blocked v (leftOf m (stages.map Stage.row)) (leftOf m (stages.map Stage.col)) block)

include h

/-- The pivots of the block exceed the tolerance, and no multiplier exceeds one. -/
theorem bounded (nonneg : 0 ≤ tolerance) :
    ∀ st ∈ blockStages block (leftOf m (stages.map Stage.row)) (leftOf m (stages.map Stage.col))
      tolerance, tolerance < |st.pivot| ∧ ∀ e ∈ st.lower, |e.2| ≤ 1 := by
  have bounded := @Dense.Elimination.run_bounded _ _ _ (leftOf m (stages.map Stage.row)).length
    tolerance le_rfl (Dense.Elimination.shape_start (m := (leftOf m (stages.map Stage.row)).length)
      (by rw [h.1])) (by simp [Dense.Elimination.start]) nonneg Dense.Elimination.bounded_start
  intro st hst
  obtain ⟨t, ht, rfl⟩ := List.mem_map.mp hst
  obtain ⟨pivot, multipliers⟩ := bounded t (List.mem_range.mp ht)
  refine ⟨pivot, fun e he => ?_⟩
  obtain ⟨p, below, eq⟩ := List.mem_filterMap.mp he
  rw [List.mem_range'_1] at below
  split at eq <;> cases eq
  exact multipliers p (by omega) (by omega)

theorem pivots_ne_zero (nonneg : 0 ≤ tolerance) :
    ∀ st ∈ blockStages block (leftOf m (stages.map Stage.row)) (leftOf m (stages.map Stage.col))
      tolerance, st.pivot ≠ 0 :=
  fun st hst => abs_pos.mp (nonneg.trans_lt (h.bounded nonneg st hst).1)

/-- The stages of the block account for the view, when all of it is pivoted or nothing is dropped. -/
theorem accounts {B : Nat → Nat → ℚ} (before : Triangular m stages)
    (consistent : v.Consistent m (stages.map Stage.row) (stages.map Stage.col))
    (nonneg : 0 ≤ tolerance) (balance : Accounts tolerance B m stages v.value)
    (done : m ≤ (stages ++ blockStages block (leftOf m (stages.map Stage.row))
      (leftOf m (stages.map Stage.col)) tolerance).length ∨ tolerance = 0) :
    Accounts tolerance B m (stages ++ blockStages block (leftOf m (stages.map Stage.row))
      (leftOf m (stages.map Stage.col)) tolerance) fun _ _ => 0 := by
  obtain ⟨total, square⟩ := length_left before
  have outside : ∀ i < m, ∀ j < m, i ∉ leftOf m (stages.map Stage.row) ∨
      j ∉ leftOf m (stages.map Stage.col) → v.value i j = 0 := by
    intro i hi j hj apart
    rcases apart with row | col
    · refine consistent.value_of_row_done hj (by_contra fun free => row ?_)
      exact mem_leftOf.mpr ⟨hi, free⟩
    · refine consistent.value_of_col_done hj (by_contra fun free => col ?_)
      exact mem_leftOf.mpr ⟨hj, free⟩
  have distinctRows := nodup_leftOf m (stages.map Stage.row)
  have distinctCols := nodup_leftOf m (stages.map Stage.col)
  obtain ⟨sized, elements⟩ := h
  generalize leftOf m (stages.map Stage.row) = rows at *
  generalize leftOf m (stages.map Stage.col) = cols at *
  have start := @Dense.Elimination.shape_start _ _ rows.length rows.length block (by omega)
  have inside : (Dense.Elimination.start block rows.length).rank + rows.length ≤ rows.length := by
    simp [Dense.Elimination.start]
  obtain ⟨shape, rank⟩ := Dense.Elimination.run_shape le_rfl start inside
  have splits : (Dense.Elimination.start block rows.length).Splits
      (fun p q => v.value (rows.toArray.getD p 0) (cols.toArray.getD q 0)) rows.length
      rows.length := by
    intro p hp q hq
    rw [← Dense.Elimination.splits_start p hp q hq]
    simpa [Dense.Elimination.start, hp, hq, Array.getD, square] using (elements p hp q hq).symm
  have split := Dense.Elimination.run_splits le_rfl start inside nonneg splits
  refine Dense.Elimination.accounts_stagesOf shape (by simp) (by simpa using square)
    (by simpa using distinctRows) (by simpa using distinctCols) rank nonneg balance
    (by simpa using outside) split fun p hp q hq => ?_
  unfold Dense.Elimination.restPart
  rcases done with full | rfl
  · simp only [blockStages, Dense.Elimination.stagesOf, List.length_append, List.length_map,
      List.length_range, Dense.eliminate] at full
    exact if_neg fun h => by omega
  · have cleared := Dense.Elimination.run_cleared le_rfl start inside fun p q _ _ low high => by
      simp [Dense.Elimination.start] at low
      omega
    split
    · rename_i low
      exact cleared p q low.1 hp (by omega) hq
    · rfl

end Blocked

end SparseFactorization

end SimplexBasis
