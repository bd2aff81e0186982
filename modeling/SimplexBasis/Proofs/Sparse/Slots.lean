import SimplexBasis.Proofs.Sparse.Working

/-!
# Slots and marks

A list of rows is numbered in the slots of the workspace while it is in use, and a list of columns is
marked. Afterwards the slots are cleared, and a new marker makes the marks void.
-/

set_option linter.unusedSectionVars false

namespace SimplexBasis

variable {α ι : Type} [Scalar α]

def slotsOf (m : Nat) (rows : List Nat) : Array (Option Nat) :=
  (Array.range m).map fun i => rows.idxOf? i

theorem getElem?_slotsOf {m i : Nat} (rows : List Nat) (hi : i < m) :
    (slotsOf m rows)[i]? = some (rows.idxOf? i) := by
  simp [slotsOf, hi]

@[simp] theorem size_slotsOf (m : Nat) (rows : List Nat) : (slotsOf m rows).size = m := by
  simp [slotsOf]

theorem slotsOf_nil (m : Nat) : slotsOf m [] = Array.replicate m none := by
  apply Array.ext <;> simp [slotsOf]

theorem slotsOf_concat {m : Nat} {rows : List Nat} {i : Nat} (fresh : i ∉ rows) :
    (slotsOf m rows).setIfInBounds i (some rows.length) = slotsOf m (rows ++ [i]) :=
  Factors.stages_set fresh

namespace SparseFactorization

variable {s : SparseFactorization α} {m : Nat}

def withSlots (s : SparseFactorization α) (slot : Array (Option Nat)) : SparseFactorization α :=
  { s with workspace := { s.workspace with slot := slot } }

theorem setSlot_run {i : Nat} (place : Option Nat) (hi : i < s.workspace.slot.size) :
    setSlot i place s = .ok () (s.withSlots (s.workspace.slot.setIfInBounds i place)) := by
  unfold setSlot
  simp only [get_bind, hi, decide_true, require_true_bind]
  rfl

theorem forM_setSlot (f : ι → Nat) {front : List Nat} {rest : List ι}
    (distinct : (front ++ rest.map f).Nodup) (inside : ∀ x ∈ rest, f x < m) :
    (rest.zipIdx front.length).forM (fun p => setSlot (f p.1) (some p.2))
        (s.withSlots (slotsOf m front)) =
      .ok () (s.withSlots (slotsOf m (front ++ rest.map f))) := by
  induction rest generalizing front with
  | nil => simp
  | cons x rest ih =>
    have fresh : f x ∉ front := fun h =>
      (List.nodup_append.mp distinct).2.2 _ h (f x) (by simp) rfl
    have next := @ih (front ++ [f x]) (by simpa using distinct)
      fun y hy => inside y (List.mem_cons_of_mem _ hy)
    rw [List.zipIdx_cons, forM_cons_eq,
      bind_of_ok (setSlot_run _ (by simpa [withSlots] using inside x List.mem_cons_self))]
    simp only [withSlots, slotsOf_concat fresh] at next ⊢
    simpa using next

theorem forM_clearSlot (f : ι → Nat) {rows : List ι} {slot : Array (Option Nat)}
    (size : slot.size = m) (inside : ∀ x ∈ rows, f x < m)
    (elsewhere : ∀ i < m, i ∉ rows.map f → slot[i]? = some none) :
    rows.forM (fun x => setSlot (f x) none) (s.withSlots slot) =
      .ok () (s.withSlots (Array.replicate m none)) := by
  induction rows generalizing slot with
  | nil =>
    have clear : slot = Array.replicate m none := by
      apply Array.ext
      · simpa using size
      · intro i hi hi'
        have read := elsewhere i (by omega) (by simp)
        rw [Array.getElem?_eq_getElem hi] at read
        simpa using Option.some.inj read
    simp [List.forM, clear]
  | cons x rows ih =>
    have hx := inside x List.mem_cons_self
    rw [forM_cons_eq, bind_of_ok (setSlot_run _ (by simpa [withSlots, size] using hx))]
    refine @ih (slot.setIfInBounds (f x) none) (by simpa using size)
      (fun y hy => inside y (List.mem_cons_of_mem _ hy)) fun i hi absent => ?_
    rw [Array.getElem?_setIfInBounds]
    by_cases same : f x = i
    · simp [same, size, hi]
    · rw [if_neg same]
      refine elsewhere i hi fun member => ?_
      simp only [List.map_cons, List.mem_cons] at member
      exact member.elim (fun h => same h.symm) absent

theorem number_run (ready : s.workspace.Ready m) (f : ι → Nat) {rows : List ι}
    (distinct : (rows.map f).Nodup) (inside : ∀ x ∈ rows, f x < m) :
    rows.zipIdx.forM (fun p => setSlot (f p.1) (some p.2)) s =
      .ok () (s.withSlots (slotsOf m (rows.map f))) := by
  have clear : s.withSlots (slotsOf m []) = s := by
    rw [slotsOf_nil, ← ready.slot]
    rfl
  have run := @forM_setSlot _ _ _ s m f [] rows (by simpa using distinct) inside
  rwa [clear, List.nil_append] at run

theorem unnumber_run (f : ι → Nat) {rows : List ι} (inside : ∀ x ∈ rows, f x < m) :
    rows.forM (fun x => setSlot (f x) none) (s.withSlots (slotsOf m (rows.map f))) =
      .ok () (s.withSlots (Array.replicate m none)) := by
  refine forM_clearSlot f (size_slotsOf m _) inside fun i hi absent => ?_
  rw [getElem?_slotsOf _ hi]
  exact congrArg some (List.idxOf?_eq_none_iff.mpr absent)

/-! ### Marks -/

theorem mark_run {j : Nat} (hj : j < s.workspace.marked.size) : mark j s = .ok () { s with
    workspace := { s.workspace with
      marked := s.workspace.marked.setIfInBounds j s.workspace.marker } } := by
  unfold mark
  simp only [get_bind, hj, decide_true, require_true_bind]
  rfl

theorem forM_mark {cols : List Nat} (inside : ∀ j ∈ cols, j < s.workspace.marked.size) :
    ∃ marked, cols.forM mark s =
        .ok () { s with workspace := { s.workspace with marked := marked } } ∧
      marked.size = s.workspace.marked.size ∧ ∀ k < marked.size,
        marked.getD k 0 = if k ∈ cols then s.workspace.marker else s.workspace.marked.getD k 0 := by
  induction cols generalizing s with
  | nil => exact ⟨_, rfl, rfl, by simp⟩
  | cons j cols ih =>
    have hj := inside j List.mem_cons_self
    obtain ⟨marked, run, size, read⟩ := ih (s := { s with
      workspace := { s.workspace with
        marked := s.workspace.marked.setIfInBounds j s.workspace.marker } })
      fun k hk => by simpa using inside k (List.mem_cons_of_mem _ hk)
    refine ⟨marked, ?_, by simpa using size, fun k hk => ?_⟩
    · rw [forM_cons_eq, bind_of_ok (mark_run hj)]
      exact run
    · rw [read k hk]
      have hk' : k < s.workspace.marked.size := by simpa [size] using hk
      by_cases later : k ∈ cols
      · simp [later]
      · by_cases same : k = j
        · simp [same, Array.getD, hj]
        · simp [later, same, Array.getD, hk', Ne.symm same]

end SparseFactorization

namespace Workspace

variable {w : Workspace α} {m : Nat}

/-- The rows of a list are numbered in the slots of a workspace that is ready otherwise. -/
structure Numbered (w : Workspace α) (m : Nat) (rows : List Nat) : Prop where
  slots : w.slot = slotsOf m rows
  ready : { w with slot := Array.replicate m none }.Ready m

theorem Ready.clear (h : w.Ready m) : ({ w with values := Array.replicate m 0 } : Workspace α).Ready m :=
  { h with
    size := Array.size_replicate
    vanish := fun k hk => .inl (by simp [Array.getD, hk]) }

theorem Ready.nextMarker (h : w.Ready m) : w.nextMarker.Ready m ∧
    ∀ k < m, w.nextMarker.marked.getD k 0 < w.nextMarker.marker := by
  unfold Workspace.nextMarker
  split
  · refine ⟨{ h with marked := by simpa using h.marked, marks := fun k hk => ?_ }, fun k hk => ?_⟩
    · simp [Array.getD, h.marked, hk]
    · simp [Array.getD, h.marked, hk]
  · exact ⟨{ h with marks := fun k hk => Nat.le_succ_of_le (h.marks k hk) },
      fun k hk => Nat.lt_succ_of_le (h.marks k hk)⟩

@[simp] theorem slot_nextMarker (w : Workspace α) : w.nextMarker.slot = w.slot := by
  unfold nextMarker
  split <;> rfl

end Workspace

end SimplexBasis
