import SimplexBasis.Proofs.Sparse.GeneralPivot
import SimplexBasis.Proofs.Sparse.Singletons
import SimplexBasis.Proofs.Sparse.Slots

/-!
# Runs of a general pivot

Both loops of a general pivot write what `rewritten` says, or the files are too small. In either
case the slots are cleared behind them.
-/

set_option linter.unusedSectionVars false

namespace SimplexBasis

variable {α : Type} [Scalar α] {m r c i j : Nat} {x : α}

/-! ### Lines of the active submatrix -/

namespace Active.Shows

variable {a : Active α} {v : ActiveView α} {capacity : Nat} {spare : Nat → Nat}

theorem setColumn (h : a.Shows m capacity v) (hj : j < m) (sized : v.colMax.size = m)
    (roomy : LineFile.Roomy spare m capacity) (short : ∀ k < m, (v.cols k).length ≤ m)
    {entries : List (Nat × α)} (fits : entries.length ≤ m) {largest : α}
    (max : largest = largestOf entries) :
    Ends (fun _ b => b.Shows m capacity (v.writeColumn j entries))
      (fun e b => e = .outOfMemory ∧ b.colMax.size = m)
      ((do
        Active.onCols (LineFile.setLine j entries spare)
        Active.recount (v.cols j).length entries.length
        Active.setColMax j largest
        Active.onColCounts (CountLists.moveTo j entries.length) : Action (Active α) Unit) a) := by
  have stored := h.cols.setLine hj roomy short fits
  refine Ends.bind (R := fun _ b => ∃ f, b = { a with cols := f } ∧
    f.Stores m capacity (Function.update v.cols j entries)) ?_ ?_
  · exact Ends.run _ _ (stored.mono (fun _ f hf => ⟨f, rfl, hf⟩) fun e f hf =>
      ⟨hf.1, (congrArg Array.size h.colMax).trans sized⟩)
  · rintro _ _ ⟨f, rfl, hf⟩
    have written : { a with cols := f }.Shows m capacity
        { v with cols := Function.update v.cols j entries } := { h with cols := hf }
    have counted := written.recount (v.cols j).length entries.length
    have inMax : j < a.colMax.size := by rw [h.colMax, sized]; exact hj
    obtain ⟨lists, moved, listed⟩ := (counted.withColMax (a.colMax.setIfInBounds j largest)).moveCol hj
      (n := entries.length) (by omega)
    rw [bind_of_ok (Active.recount_run _ _), bind_of_ok (Active.setColMax_run _ (by exact inMax)),
      Active.onColCounts_run (by exact moved)]
    have maxima : a.colMax.setIfInBounds j largest =
        v.colMax.setIfInBounds j (largestOf entries) := by rw [h.colMax, max]
    exact { listed with colMax := maxima }

theorem setRow (h : a.Shows m capacity v) (hi : i < m) (sized : v.colMax.size = m)
    (roomy : LineFile.Roomy spare m capacity) (short : ∀ k < m, (v.rows k).length ≤ m)
    {pattern : List Nat} (fits : pattern.length ≤ m) :
    Ends (fun _ b => b.Shows m capacity (v.writeRow i pattern))
      (fun e b => e = .outOfMemory ∧ b.colMax.size = m)
      ((do
        Active.onRows (LineFile.setLine i pattern spare)
        Active.onRowCounts (CountLists.moveTo i pattern.length) : Action (Active α) Unit) a) := by
  have stored := h.rows.setLine hi roomy short fits
  refine Ends.bind (R := fun _ b => ∃ f, b = { a with rows := f } ∧
    f.Stores m capacity (Function.update v.rows i pattern)) ?_ ?_
  · exact Ends.run _ _ (stored.mono (fun _ f hf => ⟨f, rfl, hf⟩) fun e f hf =>
      ⟨hf.1, (congrArg Array.size h.colMax).trans sized⟩)
  · rintro _ _ ⟨f, rfl, hf⟩
    have written : { a with rows := f }.Shows m capacity
        { v with rows := Function.update v.rows i pattern } := { h with rows := hf }
    obtain ⟨lists, moved, listed⟩ := written.moveRow hi (n := pattern.length) (by omega)
    rw [Active.onRowCounts_run (by exact moved)]
    exact listed

end Active.Shows

/-! ### Gathering the columns of each row -/

/-- For each of the rows, the columns of a list that hold it. -/
def holders (f : Nat → List (Nat × α)) (rows cols : List Nat) : Array (Array Nat) :=
  (rows.map fun i => (cols.filter fun j => i ∈ keys (f j)).toArray).toArray

theorem modify_map {γ : Type} {rows : List Nat} (distinct : rows.Nodup) {q : Nat} (g : Nat → γ)
    (f : γ → γ) (place : rows.idxOf? i = some q) :
    (rows.map g).toArray.modify q f = (rows.map fun k => if k = i then f (g k) else g k).toArray := by
  have at' := idxOf?_eq_some place
  apply Array.ext
  · simp
  · intro p hp hp'
    simp only [Array.size_modify, List.size_toArray, List.length_map] at hp
    simp only [Array.getElem_modify, List.getElem_toArray, List.getElem_map]
    have here : rows[p]? = some rows[p] := List.getElem?_eq_getElem hp
    by_cases same : q = p
    · subst same
      have eq : rows[q] = i := Option.some.inj (here.symm.trans at')
      simp [eq]
    · have ne : rows[p] ≠ i := fun eq => same (nodup_getElem? distinct at' (eq ▸ here))
      simp [same, ne]

namespace SparseFactorization

variable {s : SparseFactorization α} {stages : List (Stage α)} {v w : ActiveView α}

theorem writeColumn_ends {rows : List Nat} {update : ColumnUpdate α} {entries : List (Nat × α)}
    (slots : s.workspace.slot = slotsOf m rows) (distinct : rows.Nodup)
    (shows : s.active.Shows m s.capacity.files v) (hj : j < m) (sized : v.colMax.size = m)
    (roomy : LineFile.Roomy s.options.spare m s.capacity.files)
    (short : ∀ k < m, (v.cols k).length ≤ m) (keeps : update.Keeps entries)
    (distinct' : (keys entries).Nodup) (inside : ∀ i ∈ keys entries, i < m)
    (g : Nat → Array Nat) :
    Ends (fun kept t => kept = (rows.map fun i => if i ∈ keys entries then (g i).push j else g i).toArray ∧
        ∃ a counters, t = { s with active := a, counters := counters } ∧
          a.Shows m s.capacity.files (v.writeColumn j entries))
      (fun e t => e = .outOfMemory ∧ ∃ a, t = { s with active := a } ∧ a.colMax.size = m)
      (writeColumn (rows.map g).toArray (j, update) s) := by
  have fits : entries.length ≤ m := by
    have subset : keys entries ⊆ List.range m := fun i hi => List.mem_range.mpr (inside i hi)
    simpa using (distinct'.subperm subset).length_le
  unfold writeColumn
  simp only [get_bind, keeps.entries_eq, slots]
  refine (Ends.foldlM (fun done kept t => s = t ∧ kept =
    (rows.map fun i => if i ∈ keys done then (g i).push j else g i).toArray) ⟨rfl, by simp⟩ ?_).bind ?_
  · rintro done ⟨i, y⟩ rest _ _ split ⟨rfl, rfl⟩
    have hi : i < m := inside i (by simp [split])
    have fresh : i ∉ keys done := by
      rw [split, keys_append] at distinct'
      exact fun h => (List.nodup_append.mp distinct').2.2 i h i (by simp) rfl
    have concat : keys (done ++ [(i, y)]) = keys done ++ [i] := by simp
    simp only [entry_eq_ok_iff.mpr (getElem?_slotsOf rows hi), lift_ok_bind, concat]
    cases place : rows.idxOf? i with
    | none =>
      have absent : i ∉ rows := by
        rw [← isSome_idxOf?, place]
        simp
      refine ⟨rfl, congrArg List.toArray (List.map_congr_left fun k hk => ?_)⟩
      have ne : k ≠ i := fun eq => absent (eq ▸ hk)
      have same : k ∈ keys done ++ [i] ↔ k ∈ keys done := by simp [ne]
      simp only [same]
    | some q =>
      refine ⟨rfl, ?_⟩
      rw [modify_map distinct _ _ place]
      refine congrArg List.toArray (List.map_congr_left fun k _ => ?_)
      by_cases eq : k = i
      · subst eq
        simp [fresh]
      · have same : k ∈ keys done ++ [i] ↔ k ∈ keys done := by simp [eq]
        simp only [same, eq, if_false]
  · rintro _ _ ⟨rfl, rfl⟩
    refine Ends.bind (R := fun _ t => ∃ a, t = { s with active := a } ∧
      a.Shows m s.capacity.files (v.writeColumn j entries)) ?_ ?_
    · refine onActive_ends ?_
      simp only [get_bind, shows.cols.length_eq hj, lift_ok_bind]
      exact (shows.setColumn hj sized roomy short fits keeps.largest).mono
        (fun _ a ha => ⟨a, rfl, ha⟩) fun e a he => ⟨he.1, a, rfl, he.2⟩
    · rintro _ _ ⟨a, rfl, ha⟩
      rw [bind_of_ok (updateCounters_run _)]
      exact ⟨rfl, a, _, rfl, ha⟩

theorem writeRow_ends (shows : s.active.Shows m s.capacity.files v) (hi : i < m)
    (sized : v.colMax.size = m) (roomy : LineFile.Roomy s.options.spare m s.capacity.files)
    (short : ∀ k < m, (v.rows k).length ≤ m) {pattern : List Nat} (fits : pattern.length ≤ m) :
    Ends (fun _ t => ∃ a, t = { s with active := a } ∧
        a.Shows m s.capacity.files (v.writeRow i pattern))
      (fun e t => e = .outOfMemory ∧ ∃ a, t = { s with active := a } ∧ a.colMax.size = m)
      (writeRow (i, pattern) s) := by
  unfold writeRow
  simp only [get_bind]
  refine onActive_ends ?_
  exact (shows.setRow hi sized roomy short fits).mono (fun _ a ha => ⟨a, rfl, ha⟩)
    fun e a he => ⟨he.1, a, rfl, he.2⟩

/-! ### Both loops -/

section Loops

variable {rowsDone colsDone : List Nat} (consistent : v.Consistent m rowsDone colsDone)
  (hr : r < m) (hc : c < m)

include consistent hr hc

theorem columnUpdates {tolerance : α} (tol : tolerance = s.options.zeroTolerance)
    (slots : s.workspace.slot = slotsOf m (v.crossingRows r c))
    (shows : s.active.Shows m s.capacity.files v) :
    ∃ updates, (v.stageAt r c x).upper.mapM
        (s.columnUpdate (v.stageAt r c x).lower.toArray r) = .ok updates ∧
      updates.map Prod.fst = v.crossingCols r c ∧
      ∀ p ∈ updates, p.2.Keeps (v.newColumn tolerance r c x p.1) := by
  subst tol
  rw [← ActiveView.keys_stageAt_upper v r c x]
  refine checked_mapM_keyed Prod.fst Prod.fst ?_
  rintro ⟨k, u⟩ member
  obtain ⟨k, crossing, eq⟩ := List.mem_map.mp member
  cases eq
  have hk := (consistent.rowRange r hr k (ActiveView.mem_crossingCols.mp crossing).2).1
  obtain ⟨update, run, keeps⟩ := @ColumnUpdate.run_eq _ _ _
    (valueAt (v.cols k) r) _ m (v.stageAt r c x).lower _ s.workspace.slot
    (fun i hi => by rw [slots, ActiveView.keys_stageAt_lower]; exact getElem?_slotsOf _ hi)
    (by rw [ActiveView.keys_stageAt_lower]; exact consistent.nodup_crossingRows hc)
    (by rw [ActiveView.keys_stageAt_lower]; exact fun h => (ActiveView.mem_crossingRows.mp h).1 rfl)
    fun i hi => (consistent.colRange k hk i hi).1
  refine ⟨(k, update), ?_, rfl, keeps⟩
  unfold columnUpdate
  simp only [shows.cols.line_eq hk, checked_ok_bind, run]
  rfl

theorem length_newColumn_le {tolerance : α} {k : Nat} (hk : k < m) :
    (v.newColumn tolerance r c x k).length ≤ m := by
  have subset : keys (v.newColumn tolerance r c x k) ⊆ List.range m := fun i hi =>
    List.mem_range.mpr (consistent.mem_newColumn hr hc hk hi).1
  simpa using ((consistent.nodup_newColumn hr hc hk).subperm subset).length_le

theorem length_newRow_le {tolerance : α} {k : Nat} (hk : k < m) :
    (v.newRow tolerance r c x k).length ≤ m := by
  have subset : v.newRow tolerance r c x k ⊆ List.range m := fun j hj => by
    rcases (consistent.mem_newRow hr hc).mp hj with ⟨old, -, -⟩ | ⟨crossing, -⟩
    · exact List.mem_range.mpr (consistent.rowRange k hk j old).1
    · exact List.mem_range.mpr
        (consistent.rowRange r hr j (ActiveView.mem_crossingCols.mp crossing).2).1
  simpa using ((consistent.nodup_newRow hr hc hk).subperm subset).length_le

theorem writeColumns_ends {tolerance : α} {updates : List (Nat × ColumnUpdate α)}
    (cols : updates.map Prod.fst = v.crossingCols r c)
    (keeps : ∀ p ∈ updates, p.2.Keeps (v.newColumn tolerance r c x p.1))
    (slots : s.workspace.slot = slotsOf m (v.crossingRows r c))
    (shows : s.active.Shows m s.capacity.files v)
    (roomy : LineFile.Roomy s.options.spare m s.capacity.files) :
    Ends (fun kept t => kept = holders (v.newColumn tolerance r c x) (v.crossingRows r c)
          (v.crossingCols r c) ∧
        ∃ a counters, t = { s with active := a, counters := counters } ∧
          a.Shows m s.capacity.files
            (v.rewriteColumns (v.newColumn tolerance r c x) (v.crossingCols r c)))
      (fun e t => e = .outOfMemory ∧
        ∃ a counters, t = { s with active := a, counters := counters } ∧ a.colMax.size = m)
      (updates.foldlM writeColumn (Array.replicate (v.stageAt r c x).lower.length #[]) s) := by
  rw [← cols]
  refine Ends.foldlM (fun done kept t => kept =
    holders (v.newColumn tolerance r c x) (v.crossingRows r c) (done.map Prod.fst) ∧
      ∃ a counters, t = { s with active := a, counters := counters } ∧
        a.Shows m s.capacity.files
          (v.rewriteColumns (v.newColumn tolerance r c x) (done.map Prod.fst))) ?_ ?_
  · refine ⟨?_, s.active, s.counters, rfl, shows⟩
    have length : (v.stageAt r c x).lower.length = (v.crossingRows r c).length := by
      rw [← ActiveView.keys_stageAt_lower v r c x, List.length_map]
    rw [length]
    simp [holders]
  · rintro done ⟨j, update⟩ rest _ _ split ⟨rfl, a, counters, rfl, shows⟩
    have crossing : j ∈ v.crossingCols r c := by
      rw [← cols, split]
      simp
    have hj := (consistent.rowRange r hr j (ActiveView.mem_crossingCols.mp crossing).2).1
    have step := writeColumn_ends (s := { s with active := a, counters := counters }) slots
      (consistent.nodup_crossingRows hc) shows hj
      (by simpa using consistent.sized) roomy
      (fun k hk => by
        simp only [ActiveView.cols_rewriteColumns]
        split
        · exact length_newColumn_le consistent hr hc hk
        · exact consistent.col_length_le hk)
      (keeps (j, update) (by simp [split])) (consistent.nodup_newColumn hr hc hj)
      (fun i hi => (consistent.mem_newColumn hr hc hj hi).1)
      fun i => ((done.map Prod.fst).filter fun l => i ∈ keys (v.newColumn tolerance r c x l)).toArray
    refine step.mono ?_ ?_
    · rintro _ _ ⟨rfl, b, counters, rfl, shows⟩
      refine ⟨?_, b, counters, rfl, ?_⟩
      · refine congrArg List.toArray (List.map_congr_left fun i _ => ?_)
        by_cases holds : i ∈ keys (v.newColumn tolerance r c x j) <;>
          simp [List.filter_append, holds]
      · rw [List.map_append, List.map_singleton, ActiveView.rewriteColumns_concat]
        exact shows
    · rintro _ _ ⟨rfl, b, rfl, size⟩
      exact ⟨rfl, b, counters, rfl, size⟩

theorem rowPatterns {tolerance : α} {rows : Nat → List Nat} (same : rows = v.rows)
    (shows : s.active.rows.Stores m s.capacity.files rows) (size : s.workspace.marked.size = m)
    (marks : ∀ k < m, s.workspace.marked.getD k 0 = s.workspace.marker ↔
      k ∈ c :: v.crossingCols r c) :
    (v.stageAt r c x).lower.zipIdx.mapM (s.rowPattern (holders (v.newColumn tolerance r c x)
        (v.crossingRows r c) (v.crossingCols r c))) =
      .ok ((v.crossingRows r c).map fun k => (k, v.newRow tolerance r c x k)) := by
  subst same
  have pattern : ∀ p ∈ (v.stageAt r c x).lower.zipIdx, s.rowPattern
      (holders (v.newColumn tolerance r c x) (v.crossingRows r c) (v.crossingCols r c)) p =
      .ok (p.1.1, v.newRow tolerance r c x p.1.1) := by
    rintro ⟨⟨k, l⟩, q⟩ member
    have place : (v.stageAt r c x).lower[q]? = some (k, l) := List.mem_zipIdx_iff_getElem?.mp member
    have row : (v.crossingRows r c)[q]? = some k := by
      rw [← ActiveView.keys_stageAt_lower v r c x]
      simp [place]
    have hk := (consistent.colRange c hc k
      (ActiveView.mem_crossingRows.mp (List.mem_of_getElem? row)).2).1
    have outside : (v.rows k).filterM (fun j => do
        return (← entry s.workspace.marked j) != s.workspace.marker) =
          (.ok ((v.rows k).filter fun j => j ∉ c :: v.crossingCols r c) : Checked (List Nat)) := by
      refine checked_filterM fun j hj => ?_
      have range := (consistent.rowRange k hk j hj).1
      rw [entry_getD 0 (by rw [size]; exact range), checked_ok_bind]
      refine congrArg Except.ok ?_
      have marked := marks j range
      by_cases mark : s.workspace.marked.getD j 0 = s.workspace.marker
      · simp only [bne, mark, beq_self_eq_true, Bool.not_true, marked.mp mark, not_true_eq_false,
          decide_false]
      · have free : j ∉ c :: v.crossingCols r c := fun h => mark (marked.mpr h)
        have ne : (s.workspace.marked.getD j 0 == s.workspace.marker) = false := by simpa using mark
        simp only [bne, ne, Bool.not_false, free, not_false_eq_true, decide_true]
    have held : entry (holders (v.newColumn tolerance r c x) (v.crossingRows r c)
        (v.crossingCols r c)) q = .ok ((v.crossingCols r c).filter fun j =>
          k ∈ keys (v.newColumn tolerance r c x j)).toArray := by
      rw [entry_eq_ok_iff]
      simp [holders, row]
    unfold rowPattern
    simp only [shows.line_eq hk, checked_ok_bind, outside, held]
    rfl
  rw [checked_mapM pattern, ← ActiveView.keys_stageAt_lower v r c x]
  refine congrArg Except.ok ?_
  have lift : (v.stageAt r c x).lower.zipIdx.map (fun p => (p.1.1, v.newRow tolerance r c x p.1.1)) =
      ((v.stageAt r c x).lower.zipIdx.map Prod.fst).map
        fun e => (e.1, v.newRow tolerance r c x e.1) := by
    rw [List.map_map]
    rfl
  rw [lift, List.zipIdx_map_fst, List.map_map]
  rfl

theorem writeRows_ends {tolerance : α} {w : ActiveView α} (rows : w.rows = v.rows)
    (sized : w.colMax.size = m) (shows : s.active.Shows m s.capacity.files w)
    (roomy : LineFile.Roomy s.options.spare m s.capacity.files) :
    Ends (fun _ t => ∃ a, t = { s with active := a } ∧ a.Shows m s.capacity.files
        (w.rewriteRows (v.newRow tolerance r c x) (v.crossingRows r c)))
      (fun e t => e = .outOfMemory ∧ ∃ a, t = { s with active := a } ∧ a.colMax.size = m)
      (((v.crossingRows r c).map fun k => (k, v.newRow tolerance r c x k)).forM writeRow s) := by
  have loop := @Ends.forM _ _
    (fun e t => e = .outOfMemory ∧ ∃ a, t = { s with active := a } ∧ a.colMax.size = m) s writeRow
    (fun done t => ∃ a, t = { s with active := a } ∧ a.Shows m s.capacity.files
      (w.rewriteRows (v.newRow tolerance r c x) (done.map Prod.fst)))
    ((v.crossingRows r c).map fun k => (k, v.newRow tolerance r c x k)) ⟨s.active, rfl, shows⟩ (by
      rintro done ⟨i, pattern⟩ rest _ split ⟨a, rfl, shows⟩
      have member : (i, pattern) ∈
          (v.crossingRows r c).map fun k => (k, v.newRow tolerance r c x k) := by
        rw [split]
        simp
      obtain ⟨i, crossing, eq⟩ := List.mem_map.mp member
      cases eq
      have hi := (consistent.colRange c hc i (ActiveView.mem_crossingRows.mp crossing).2).1
      have step := writeRow_ends (s := { s with active := a }) shows hi (by simpa using sized) roomy
        (fun k hk => by
          simp only [ActiveView.rows_rewriteRows, rows]
          split
          · exact length_newRow_le consistent hr hc hk
          · exact consistent.row_length_le hk)
        (@length_newRow_le _ _ _ _ _ x _ _ _ consistent hr hc tolerance _ hi)
      refine step.mono ?_ ?_
      · rintro _ _ ⟨b, rfl, shows⟩
        refine ⟨b, rfl, ?_⟩
        rw [List.map_append, List.map_singleton, ActiveView.rewriteRows_concat]
        exact shows
      · rintro _ _ ⟨rfl, b, rfl, size⟩
        exact ⟨rfl, b, rfl, size⟩)
  have whole : ((v.crossingRows r c).map fun k => (k, v.newRow tolerance r c x k)).map Prod.fst =
      v.crossingRows r c := by
    rw [List.map_map]
    exact List.map_id _
  rw [whole] at loop
  exact loop

end Loops

/-! ### The pivot -/

theorem markColumns {cols rows : List Nat} (inside : ∀ j ∈ cols, j < m)
    (numbered : s.workspace.Numbered m rows) : ∃ marked : Array Nat,
      cols.forM mark { s with workspace := s.workspace.nextMarker } =
        .ok () { s with workspace := { s.workspace.nextMarker with marked := marked } } ∧
      ({ s.workspace.nextMarker with marked := marked } : Workspace α).Numbered m rows ∧
      marked.size = m ∧
      ∀ k < m, marked.getD k 0 = s.workspace.nextMarker.marker ↔ k ∈ cols := by
  obtain ⟨slots, ready⟩ := numbered
  obtain ⟨fresh, void⟩ := ready.nextMarker
  have apart : ({ s.workspace with slot := Array.replicate m none } : Workspace α).nextMarker =
      { s.workspace.nextMarker with slot := Array.replicate m none } := by
    unfold Workspace.nextMarker
    split <;> rfl
  rw [apart] at fresh void
  obtain ⟨marked, run, size, marks⟩ := forM_mark (s := { s with workspace := s.workspace.nextMarker })
    fun j hj => (inside j hj).trans_eq (show s.workspace.nextMarker.marked.size = m from
      fresh.marked).symm
  have sizeMarked : marked.size = m := size.trans fresh.marked
  rw [sizeMarked] at marks
  refine ⟨marked, run, ⟨by simpa using slots, { fresh with marked := sizeMarked, marks := ?_ }⟩,
    sizeMarked, ?_⟩
  · intro k hk
    simp only [marks k hk]
    split
    · exact Nat.le_refl _
    · exact fresh.marks k hk
  · intro k hk
    rw [marks k hk]
    have older := void k hk
    split
    · simp [*]
    · rename_i absent
      exact ⟨fun eq => absurd eq (Nat.ne_of_lt older), fun member => absurd member absent⟩

theorem eliminate_ends {rowsDone colsDone : List Nat}
    (consistent : v.Consistent m rowsDone colsDone) (pivot : (r, x) ∈ v.cols c) (hr : r < m)
    (hc : c < m) (numbered : s.workspace.Numbered m (v.crossingRows r c))
    (shows : s.active.Shows m s.capacity.files v)
    (roomy : LineFile.Roomy s.options.spare m s.capacity.files) :
    Ends (fun _ t => t.setup = s.setup ∧ t.factors = s.factors ∧
        t.workspace.Numbered m (v.crossingRows r c) ∧
        t.active.Shows m s.capacity.files (v.rewritten s.options.zeroTolerance r c x))
      (fun e t => e = .outOfMemory ∧ t.setup = s.setup ∧ t.factors = s.factors ∧
        t.workspace.Numbered m (v.crossingRows r c) ∧ t.active.colMax.size = m)
      (eliminate r c (v.stageAt r c x).lower (v.stageAt r c x).upper s) := by
  obtain ⟨updates, read, cols, keeps⟩ :=
    columnUpdates (x := x) consistent hr hc rfl numbered.slots shows
  have inside : ∀ j ∈ c :: v.crossingCols r c, j < m := by
    intro j hj
    rcases List.mem_cons.mp hj with rfl | hj
    · exact hc
    · exact (consistent.rowRange r hr j (ActiveView.mem_crossingCols.mp hj).2).1
  obtain ⟨marked, markRun, marking, sizeMarked, marks⟩ := markColumns inside numbered
  let u : SparseFactorization α :=
    { s with workspace := { s.workspace.nextMarker with marked := marked } }
  unfold eliminate
  simp only [get_bind, read, lift_ok_bind]
  rw [bind_of_ok (updateWorkspace_run _), bind_of_ok (t := u) (x := ⟨⟩) (by
    rw [show (v.stageAt r c x).upper.map Prod.fst = v.crossingCols r c from
      ActiveView.keys_stageAt_upper v r c x]
    exact markRun)]
  have written := writeColumns_ends (s := u) consistent hr hc cols keeps marking.slots shows roomy
  refine (written.mono (fun _ _ => id) ?_).bind ?_
  · rintro e _ ⟨rfl, a, counters, rfl, size⟩
    exact ⟨rfl, rfl, rfl, marking, size⟩
  rintro _ _ ⟨rfl, a, counters, rfl, shows'⟩
  have patterns := @rowPatterns _ _ _ _ _ x { u with active := a, counters := counters } _ _ _
    consistent hr hc s.options.zeroTolerance _ (by simp) shows'.rows sizeMarked marks
  rw [get_bind, patterns, lift_ok_bind]
  have rows := @writeRows_ends _ _ _ _ _ x { u with active := a, counters := counters } _ _ _
    consistent hr hc s.options.zeroTolerance _ (by simp)
    (by simpa using consistent.sized) shows' roomy
  refine rows.mono ?_ ?_
  · rintro _ _ ⟨b, rfl, shows''⟩
    exact ⟨rfl, rfl, marking, shows''⟩
  · rintro e _ ⟨rfl, b, rfl, size⟩
    exact ⟨rfl, rfl, rfl, marking, size⟩

theorem numberSlots {rowsDone colsDone : List Nat} (consistent : v.Consistent m rowsDone colsDone)
    (hc : c < m) (ready : s.workspace.Ready m) :
    (v.stageAt r c x).lower.zipIdx.forM (fun e => setSlot e.1.1 (some e.2)) s =
      .ok () (s.withSlots (slotsOf m (v.crossingRows r c))) := by
  have keyed : (v.stageAt r c x).lower.map Prod.fst = v.crossingRows r c :=
    ActiveView.keys_stageAt_lower v r c x
  rw [← keyed]
  refine number_run ready Prod.fst (keyed ▸ consistent.nodup_crossingRows hc) fun e he => ?_
  exact consistent.col_inside hc e.1 (keyed ▸ List.mem_map_of_mem (f := Prod.fst) he)

theorem clearSlots (h : s.workspace.Numbered m (v.crossingRows r c))
    (inside : ∀ k ∈ v.crossingRows r c, k < m) :
    ∃ t, (v.stageAt r c x).lower.forM (fun e => setSlot e.1 none) s = .ok () t ∧
      t = s.withSlots (Array.replicate m none) ∧ t.workspace.Ready m := by
  have keyed : (v.stageAt r c x).lower.map Prod.fst = v.crossingRows r c :=
    ActiveView.keys_stageAt_lower v r c x
  have run := @unnumber_run _ _ _ s m Prod.fst (v.stageAt r c x).lower fun e he =>
    inside e.1 (keyed ▸ List.mem_map_of_mem (f := Prod.fst) he)
  have same : s.withSlots (slotsOf m ((v.stageAt r c x).lower.map Prod.fst)) = s := by
    rw [keyed, ← h.slots]
    rfl
  rw [same] at run
  exact ⟨_, run, rfl, h.ready⟩

/-- The rewritten columns have found space, so that their entries can be counted. -/
theorem Working.countable (h : Working s m stages v) (hr : r < m) {tolerance : α}
    (stored : entryCount m (v.rewritten tolerance r c x).cols ≤ s.capacity.files) :
    entryCount m v.cols + ((v.crossingCols r c).map fun k =>
      (v.newColumn tolerance r c x k).length).sum < UInt64.size := by
  have before := h.entryCount_le
  have after := sum_length_le_entryCount (h.consistent.nodup_crossingCols (c := c) hr)
    (h.consistent.row_inside hr) (v.rewritten tolerance r c x).cols
  have same : (v.crossingCols r c).map (fun k => ((v.rewritten tolerance r c x).cols k).length) =
      (v.crossingCols r c).map fun k => (v.newColumn tolerance r c x k).length :=
    List.map_congr_left fun k hk => by
      simp [ActiveView.rewritten, ActiveView.cols_rewriteColumns, hk]
  have words := h.addressable
  have positive : 0 < UInt64.size := by decide
  rw [same] at after
  simp only [addressableWords] at words
  omega

theorem Working.closeEliminated (h : Working s m stages v) (hr : r < m) (hc : c < m)
    (pivot : (r, x) ∈ v.cols c) (freshRow : r ∉ stages.map Stage.row)
    (freshCol : c ∉ stages.map Stage.col) (setup : t.setup = s.setup)
    (ready : t.workspace.Ready m) (factors : t.factors = Factors.ofStages m stages)
    (shows : t.active.Shows m s.capacity.files (v.rewritten s.options.zeroTolerance r c x))
    (lower : s.factors.lower.count + (v.stageAt r c x).lower.length ≤ s.capacity.lower)
    (upper : s.factors.upper.count + (v.stageAt r c x).upper.length ≤ s.capacity.upper) :
    Ends (fun _ u => Working u m (stages ++ [v.stageAt r c x])
        (v.generalPivot s.options.zeroTolerance r c x) ∧ u.setup = s.setup) (Stuck s m stages)
      ((do
        updateFactors fun f => (v.stageAt r c x).lower.foldl (fun f (i, l) => f.pushLower i l) f
        updateFactors fun f => (v.stageAt r c x).upper.foldl (fun f (j, u) => f.pushUpper j u) f
        onActive do
          Active.recount (← (← get).cols.length c) 0
          Active.drop r c
        closeStage r c x : Action (SparseFactorization α) Unit) t) := by
  have length := shows.cols.length_eq hc
  obtain ⟨a, dropped, shows'⟩ := (shows.recount
    ((v.rewritten s.options.zeroTolerance r c x).cols c).length 0).drop hr hc
  have stored := shows.cols.total_le
  rw [← entryCount_eq_sum] at stored
  rw [bind_of_ok (updateFactors_run _), bind_of_ok (updateFactors_run _),
    bind_of_ok (onActive_run (x := ()) (a := a) (by
      rw [get_bind, length, lift_ok_bind, bind_of_ok (Active.recount_run _ _)]
      exact dropped)), closeStage_run]
  refine ⟨@Working.close _ _ _ _ _ _ _ _ h (v.stageAt r c x) hr hc freshRow freshCol
    (h.consistent.generalPivot hr hc pivot (h.countable hr stored)) setup ready ?_ shows' lower upper,
    setup⟩
  change (v.stageAt r c x).upper.foldl _ ((v.stageAt r c x).lower.foldl _ t.factors) = _
  rw [factors, ← Factors.opened_nil (Factors.ofStages m stages), Factors.foldl_pushLower,
    Factors.foldl_pushUpper]
  rfl

theorem Working.pivotGeneral (h : Working s m stages v) (hc : c < m) (pivot : (r, x) ∈ v.cols c) :
    Ends (fun _ t => Working t m (stages ++ [v.stageAt r c x])
        (v.generalPivot s.options.zeroTolerance r c x) ∧ t.setup = s.setup)
      (Stuck s m stages) (pivotGeneral r c s) := by
  have active := h.active
  have consistent := h.consistent
  have keyed : r ∈ keys (v.cols c) := List.mem_map_of_mem (f := Prod.fst) pivot
  obtain ⟨hr, freshRow⟩ := consistent.colRange c hc r keyed
  have freshCol := (consistent.rowRange r hr c ((consistent.agree r hr c hc).mpr keyed)).2
  unfold SparseFactorization.pivotGeneral
  simp only [get_bind, h.value?_eq hc pivot, lift_ok_bind, active.cols.line_eq hc,
    active.rows.line_eq hr]
  rw [bind_of_ok (mapM_run fun j hj => by
    obtain ⟨y, hy⟩ := consistent.exists_value hr (List.mem_filter.mp hj).1
    have range := (consistent.rowRange r hr j (List.mem_filter.mp hj).1).1
    rw [h.value?_eq range hy, lift_ok_bind, Option.getD_some,
      ← valueAt_of_mem (consistent.distinctCols j range) hy]
    rfl)]
  refine (h.checkLower (by
    have few := (v.cols c).length_filter_le (·.1 != r)
    have bound := h.col_length_le hc
    rw [List.length_map]
    omega)).bind ?_
  rintro _ _ ⟨rfl, lower⟩
  refine (h.checkUpper (by
    have few := (v.rows r).length_filter_le (· != c)
    have bound := h.row_length_le hr
    rw [List.length_map]
    omega)).bind ?_
  rintro _ _ ⟨rfl, upper⟩
  rw [bind_of_ok (by exact numberSlots (x := x) consistent hc h.workspace)]
  have eliminated := eliminate_ends (s := s.withSlots (slotsOf m (v.crossingRows r c))) consistent
    pivot hr hc ⟨rfl, { h.workspace with slot := rfl }⟩ active h.roomy
  refine Ends.bind (Ends.mono (Ends.attempt eliminated) (fun _ _ => id) fun _ _ => False.elim) ?_
  rintro outcome t result
  -- The slots are cleared whether or not the elimination has found space.
  have numbered : t.workspace.Numbered m (v.crossingRows r c) := by
    rcases result with ⟨_, -, -, -, numbered, -⟩ | ⟨_, -, -, -, -, numbered, -⟩ <;> exact numbered
  obtain ⟨_, cleared, rfl, ready⟩ := clearSlots (x := x) numbered (consistent.col_inside hc)
  rw [bind_of_ok (by exact cleared)]
  rcases result with ⟨_, rfl, setup, factors, -, shows⟩ | ⟨_, rfl, rfl, setup, factors, -, size⟩
  · exact h.closeEliminated (t := t.withSlots (Array.replicate m none)) hr hc pivot freshRow freshCol
      setup ready (factors.trans h.factors) shows lower upper
  · exact ⟨rfl, setup, ready, size, h.distinct, h.factors ▸ factors⟩

theorem Working.pivotOn (h : Working s m stages v) (hc : c < m) (pivot : (r, x) ∈ v.cols c) :
    Ends (fun _ t => Working t m (stages ++ [v.stageAt r c x])
        (v.pivotAt s.options.zeroTolerance r c x) ∧ t.setup = s.setup)
      (Stuck s m stages) (pivotOn r c s) := by
  have consistent := h.consistent
  have keyed : r ∈ keys (v.cols c) := List.mem_map_of_mem (f := Prod.fst) pivot
  have hr := (consistent.colRange c hc r keyed).1
  have member := (consistent.agree r hr c hc).mpr keyed
  unfold SparseFactorization.pivotOn ActiveView.pivotAt
  simp only [get_bind, h.active.cols.length_eq hc, h.active.rows.length_eq hr, lift_ok_bind]
  split
  · rename_i single
    have only : v.cols c = [(r, x)] := by
      obtain ⟨e, eq⟩ := List.length_eq_one_iff.mp single
      rw [eq] at pivot ⊢
      rw [List.mem_singleton.mp pivot]
    exact (h.pivotColumnSingleton hc only).bind fun _ _ ⟨working, setup, _⟩ => ⟨working, setup⟩
  · rw [lift_ok_bind]
    split
    · rename_i single
      have only : v.rows r = [c] := by
        obtain ⟨e, eq⟩ := List.length_eq_one_iff.mp single
        rw [eq] at member ⊢
        rw [List.mem_singleton.mp member]
      exact (h.pivotRowSingleton hr only pivot).bind fun _ _ ⟨working, setup, _⟩ => ⟨working, setup⟩
    · exact h.pivotGeneral hc pivot

end SparseFactorization

end SimplexBasis
