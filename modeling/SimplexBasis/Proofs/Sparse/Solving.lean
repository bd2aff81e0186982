import SimplexBasis.Proofs.Sparse.Standing
import SimplexBasis.Proofs.Systems

/-!
# Solving with the factors

The values of a right-hand side are gathered by stage, solved with one factor and then with the
other, and scattered to the rows again. The reach of a right-hand side holds all its nonzeros and
everything they lead to, so that a solve on the reach and a pass over all stages solve the same
system.
-/

set_option linter.unusedSectionVars false

namespace SimplexBasis

variable {n k i : Nat}

namespace Factors

open Substitution (ByColumns ByRows scale)

section Systems

variable {f : Factors ℚ} {xs ys : Array ℚ}

theorem lowerMatrix_eq (f : Factors ℚ) (n : Nat) :
    f.lowerMatrix n = assembled n (fun _ => 1) f.lower.entryIn := rfl

theorem upperMatrix_eq (f : Factors ℚ) (n : Nat) :
    f.upperMatrix n = (assembled n (1 / f.inverses.getD · 0) f.upper.entryIn).transpose := by
  ext s t
  rw [upperMatrix, Matrix.of_apply, Matrix.transpose_apply, assembled, Matrix.of_apply]
  by_cases same : s = t
  · subst same
    rw [if_pos rfl]
  · rw [if_neg same, if_neg fun eq => same eq.symm]

theorem lowerMatrix_mulVec (beyond : f.lower.Beyond n) (solves : ByColumns f.lower n none xs ys) :
    (f.lowerMatrix n).mulVec (vec n ys) = vec n xs := by
  rw [lowerMatrix_eq]
  exact assembled_mulVec (fun k hk => beyond.entryIn_eq_zero hk le_rfl) (fun _ _ => one_mul 1) solves

theorem lowerMatrix_transpose_mulVec (beyond : f.lower.Beyond n)
    (solves : ByRows f.lower n none xs ys) :
    (f.lowerMatrix n).transpose.mulVec (vec n ys) = vec n xs := by
  rw [lowerMatrix_eq]
  exact assembled_transpose_mulVec (fun k hk => beyond.entryIn_eq_zero hk le_rfl)
    (fun _ _ => one_mul 1) solves

theorem upperMatrix_mulVec (beyond : f.upper.Beyond n) (nonzero : ∀ k < n, f.inverses.getD k 0 ≠ 0)
    (solves : ByRows f.upper n (some f.inverses) xs ys) :
    (f.upperMatrix n).mulVec (vec n ys) = vec n xs := by
  rw [upperMatrix_eq]
  exact assembled_transpose_mulVec (fun k hk => beyond.entryIn_eq_zero hk le_rfl)
    (fun k hk => one_div_mul_cancel (nonzero k hk)) solves

theorem upperMatrix_transpose_mulVec (beyond : f.upper.Beyond n)
    (nonzero : ∀ k < n, f.inverses.getD k 0 ≠ 0)
    (solves : ByColumns f.upper n (some f.inverses) xs ys) :
    (f.upperMatrix n).transpose.mulVec (vec n ys) = vec n xs := by
  rw [upperMatrix_eq, Matrix.transpose_transpose]
  exact assembled_mulVec (fun k hk => beyond.entryIn_eq_zero hk le_rfl)
    (fun k hk => one_div_mul_cancel (nonzero k hk)) solves

end Systems

/-! ### Factors to solve with -/

/-- Transposed factors have the entries of the factors, and lines that climb backwards. -/
structure Transposing (f : Factors ℚ) (n : Nat) (t : Transposes ℚ) : Prop where
  lower : t.lowerRows.Climbs n (n - ·)
  upper : t.upperCols.Climbs n (n - ·)
  lowerValue : ∀ k < n, ∀ i < n, t.lowerRows.entryIn i k = f.lower.entryIn k i
  upperValue : ∀ k < n, ∀ j < n, t.upperCols.entryIn j k = f.upper.entryIn k j

/-- Factors of all stages with the stage of each row, and with their transposes if these are built. -/
structure Usable (f : Factors ℚ) (n : Nat) : Prop extends Sited f n where
  lower : f.lower.Beyond n
  upper : f.upper.Beyond n
  transposing : ∀ t, f.transposes = some t → f.Transposing n t

end Factors

/-! ### The workspace -/

namespace Workspace

variable {w : Workspace ℚ} {f : Factors ℚ} {v : SparseVector ℚ}

theorem Ready.getD_values (h : w.Ready n) (k : Nat) : w.values.getD k 0 = 0 := by
  by_cases hk : k < n
  · exact (h.vanish k hk).elim id fun zero => by simpa using zero
  · simp [Array.getD, h.size, hk]

theorem Ready.values_eq (h : w.Ready n) : w.values = Array.replicate n 0 := by
  refine Array.ext (by rw [h.size, Array.size_replicate]) fun k hk _ => ?_
  have here := h.getD_values k
  rw [Array.getD, dif_pos hk] at here
  rw [Array.getElem_replicate]
  exact here

/-- The rows `done` of a right-hand side are moved to their stages. -/
structure Gathered (f : Factors ℚ) (n : Nat) (v : SparseVector ℚ) (done : List Nat)
    (elements values : Array ℚ) (stages : List Nat) : Prop where
  sizeElements : elements.size = n
  cleared : ∀ i, elements.getD i 0 = if i ∈ done then 0 else v.elements.getD i 0
  sizeValues : values.size = n
  moved : ∀ k < n, values.getD k 0 = if f.pivotRows.getD k 0 ∈ done
    then v.elements.getD (f.pivotRows.getD k 0) 0 else 0
  below : ∀ k ∈ stages, k < n
  listed : ∀ k, values.getD k 0 ≠ 0 → k ∈ stages

section Gathered

variable {done stages : List Nat} {elements values : Array ℚ}

theorem Gathered.clear (h : Gathered f n v done elements values stages) (hi : i < n) (l : Nat) :
    (elements.setIfInBounds i 0).getD l 0 = if l ∈ done ++ [i] then 0 else v.elements.getD l 0 := by
  rw [getD_setIfInBounds (h.sizeElements ▸ hi), h.cleared]
  by_cases same : l = i
  · rw [if_pos same, if_pos (by simp [same])]
  · rw [if_neg same]
    exact if_congr (by simp [same]) rfl rfl

theorem Gathered.skip (h : Gathered f n v done elements values stages) (hi : i < n)
    (zero : elements.getD i 0 = 0) :
    Gathered f n v (done ++ [i]) (elements.setIfInBounds i 0) values stages := by
  refine { h with
    sizeElements := Array.size_setIfInBounds.trans h.sizeElements
    cleared := h.clear hi
    moved := fun l hl => ?_ }
  rw [h.moved l hl]
  by_cases same : f.pivotRows.getD l 0 = i
  · rw [same, if_pos (show i ∈ done ++ [i] by simp)]
    by_cases member : i ∈ done
    · rw [if_pos member]
    · rw [h.cleared, if_neg member] at zero
      rw [if_neg member, zero]
  · exact if_congr (by rw [List.mem_append, List.mem_singleton, or_iff_left same]) rfl rfl

theorem Gathered.move (usable : f.Usable n) (h : Gathered f n v done elements values stages)
    (hi : i < n) (hk : k < n) (row : f.pivotRows.getD k 0 = i) (nonzero : elements.getD i 0 ≠ 0) :
    Gathered f n v (done ++ [i]) (elements.setIfInBounds i 0)
      (values.setIfInBounds k (elements.getD i 0)) (k :: stages) := by
  have inValues : k < values.size := h.sizeValues ▸ hk
  have fresh : i ∉ done := fun member => nonzero (by rw [h.cleared, if_pos member])
  have value : elements.getD i 0 = v.elements.getD i 0 := by rw [h.cleared, if_neg fresh]
  refine
    { sizeElements := Array.size_setIfInBounds.trans h.sizeElements
      cleared := h.clear hi
      sizeValues := Array.size_setIfInBounds.trans h.sizeValues
      moved := fun l hl => ?_
      below := fun l member => ?_
      listed := fun l ne => ?_ }
  · rw [getD_setIfInBounds inValues]
    by_cases same : l = k
    · rw [if_pos same, same, row, if_pos (by simp), value]
    · have other : f.pivotRows.getD l 0 ≠ i := fun eq =>
        same (usable.row_inj hl hk (eq.trans row.symm))
      rw [if_neg same, h.moved l hl]
      exact if_congr (by rw [List.mem_append, List.mem_singleton, or_iff_left other]) rfl rfl
  · rcases List.mem_cons.mp member with rfl | member
    · exact hk
    · exact h.below l member
  · rw [getD_setIfInBounds inValues] at ne
    by_cases same : l = k
    · rw [same]
      exact List.mem_cons_self
    · rw [if_neg same] at ne
      exact List.mem_cons_of_mem k (h.listed l ne)

end Gathered

theorem gather_run (usable : f.Usable n) (ready : w.Ready n) (size : v.elements.size = n)
    (inside : ∀ i ∈ v.indices, i < n) : ∃ elements values stages,
      w.gather f v = .ok (⟨elements, #[], v.packed⟩, { w with values := values }, stages) ∧
      Gathered f n v v.indices.toList elements values stages := by
  rw [gather_eq]
  obtain ⟨⟨elements, values, stages⟩, run, gathered⟩ := foldlM_ok (l := v.indices.toList)
    (y := (v.elements, w.values, ([] : List Nat))) (f := gatherRow f)
    (fun done state => Gathered f n v done state.1 state.2.1 state.2.2)
    { sizeElements := size
      cleared := by simp
      sizeValues := ready.holds.size
      moved := fun k _ => by simp [ready.getD_values]
      below := by simp
      listed := fun k ne => absurd (ready.getD_values k) ne } (by
      rintro done i rest ⟨elements, values, stages⟩ split gathered
      have hi : i < n := inside i (by rw [← Array.mem_toList_iff, split]; simp)
      obtain ⟨k, hk, row⟩ := usable.exists_stage hi
      dsimp only [gatherRow]
      rw [entry_getD 0 (gathered.sizeElements ▸ hi), checked_ok_bind, ← row, usable.stage k hk,
        checked_ok_bind, row]
      dsimp only
      by_cases zero : elements.getD i 0 = 0
      · rw [if_neg (by simpa using zero)]
        exact ⟨_, rfl, gathered.skip hi zero⟩
      · rw [if_pos (by simpa using zero), withEntry_of_lt _ (gathered.sizeValues ▸ hk),
          checked_ok_bind]
        exact ⟨_, rfl, gathered.move usable hi hk row zero⟩)
  exact ⟨elements, values, stages.reverse, except_bind_eq_ok.mpr ⟨_, run, rfl⟩, { gathered with
    below := by simpa using gathered.below
    listed := by simpa using gathered.listed }⟩

/-- The stages of an order with values in `xs` that are not zero. -/
def support (xs : Array ℚ) (order : List Nat) : List Nat := order.filter (xs.getD · 0 != 0)

/-- The values `xs` of the stages `done` are moved to their rows, into a vector that was `v`. -/
structure Returned (f : Factors ℚ) (n : Nat) (v : SparseVector ℚ) (xs : Array ℚ) (done : List Nat)
    (u : SparseVector ℚ) (values : Array ℚ) : Prop where
  mode : u.packed = v.packed
  size : u.elements.size = n
  listed : u.indices.toList = v.indices.toList ++ (support xs done).map (f.pivotRows.getD · 0)
  stored : ∀ k < n, u.elements.getD (f.pivotRows.getD k 0) 0 =
    if k ∈ support xs done then xs.getD k 0 else v.elements.getD (f.pivotRows.getD k 0) 0
  sizeValues : values.size = n
  emptied : ∀ k, values.getD k 0 = if k ∈ done then 0 else xs.getD k 0

section Returned

variable {done : List Nat} {u : SparseVector ℚ} {xs values : Array ℚ}

theorem Returned.skip (h : Returned f n v xs done u values) (hk : k < n) (zero : xs.getD k 0 = 0) :
    Returned f n v xs (done ++ [k]) u (values.setIfInBounds k 0) := by
  have same : support xs (done ++ [k]) = support xs done := by
    simp [support, List.filter_append, -Array.getD_eq_getD_getElem?, zero]
  exact { h with
    listed := by rw [same]; exact h.listed
    stored := by rw [same]; exact h.stored
    sizeValues := Array.size_setIfInBounds.trans h.sizeValues
    emptied := fun l => by
      rw [getD_setIfInBounds (h.sizeValues ▸ hk), h.emptied]
      by_cases eq : l = k
      · rw [if_pos eq, if_pos (by simp [eq])]
      · rw [if_neg eq]
        exact if_congr (by rw [List.mem_append, List.mem_singleton, or_iff_left eq]) rfl rfl }

theorem Returned.move (usable : f.Usable n) (h : Returned f n v xs done u values) (hk : k < n)
    (nonzero : xs.getD k 0 ≠ 0) :
    Returned f n v xs (done ++ [k])
      { u with
        elements := u.elements.setIfInBounds (f.pivotRows.getD k 0) (xs.getD k 0)
        indices := u.indices.push (f.pivotRows.getD k 0) } (values.setIfInBounds k 0) := by
  have more : support xs (done ++ [k]) = support xs done ++ [k] := by
    simp [support, List.filter_append, -Array.getD_eq_getD_getElem?, nonzero]
  refine
    { mode := h.mode
      size := Array.size_setIfInBounds.trans h.size
      listed := by simp [more, h.listed]
      stored := fun l hl => ?_
      sizeValues := Array.size_setIfInBounds.trans h.sizeValues
      emptied := fun l => ?_ }
  · rw [getD_setIfInBounds (h.size ▸ usable.row_lt hk), more]
    by_cases same : l = k
    · rw [same, if_pos rfl, if_pos (by simp)]
    · rw [if_neg fun eq => same (usable.row_inj hl hk eq), h.stored l hl]
      exact if_congr (by rw [List.mem_append, List.mem_singleton, or_iff_left same]) rfl rfl
  · rw [getD_setIfInBounds (h.sizeValues ▸ hk), h.emptied]
    by_cases eq : l = k
    · rw [if_pos eq, if_pos (by simp [eq])]
    · rw [if_neg eq]
      exact if_congr (by rw [List.mem_append, List.mem_singleton, or_iff_left eq]) rfl rfl

end Returned

theorem scatter_run (usable : f.Usable n) (holds : w.Holds n) (size : v.elements.size = n)
    {order : List Nat} (distinct : order.Nodup) (inside : ∀ k ∈ order, k < n) : ∃ u values,
      scatter f order v w = .ok (u, { w with values := values }) ∧
      Returned f n v w.values order u values := by
  rw [scatter_eq]
  obtain ⟨⟨u, values⟩, run, returned⟩ := foldlM_ok (l := order) (y := (v, w.values))
    (f := scatterStage f) (fun done state => Returned f n v w.values done state.1 state.2)
    { mode := rfl
      size := size
      listed := by simp [support]
      stored := by simp [support]
      sizeValues := holds.size
      emptied := by simp } (by
      rintro done k rest ⟨u, values⟩ split returned
      have hk : k < n := inside k (by rw [split]; simp)
      have fresh : k ∉ done := by
        rw [split] at distinct
        exact fun member => (List.nodup_append.mp distinct).2.2 k member k (by simp) rfl
      have here : values.getD k 0 = w.values.getD k 0 := by rw [returned.emptied, if_neg fresh]
      dsimp only [scatterStage]
      rw [entry_getD 0 (returned.sizeValues ▸ hk), checked_ok_bind, here]
      by_cases zero : w.values.getD k 0 = 0
      · rw [if_neg (by simpa using zero)]
        exact ⟨_, rfl, returned.skip hk zero⟩
      · have row : k < f.pivotRows.size := by rw [size_of_perm usable.rows]; exact hk
        rw [if_pos (by simpa using zero), entry_getD 0 row, checked_ok_bind,
          withEntry_of_lt _ (returned.size ▸ usable.row_lt hk), checked_ok_bind]
        exact ⟨_, rfl, returned.move usable hk zero⟩)
  exact ⟨u, values, except_bind_eq_ok.mpr ⟨_, run, rfl⟩, returned⟩

theorem nonzeroStages_run (holds : w.Holds n) {order : List Nat} (inside : ∀ k ∈ order, k < n) :
    w.nonzeroStages order = .ok (support w.values order) := nonzeroStages_eq holds inside

end Workspace

namespace Factors

open Workspace (Gathered Returned support)
open Substitution (ByColumns ByRows scale Scaled)

variable {f : Factors ℚ} {t : Transposes ℚ} {v : SparseVector ℚ} {w : Workspace ℚ}

/-! ### Solves -/

/-- The unknowns `xs` of the systems of the lower and then of the upper factor. -/
def LowerUpper (f : Factors ℚ) (n : Nat) (bs xs : Array ℚ) : Prop :=
  ∃ ys, ByColumns f.lower n none bs ys ∧ ByRows f.upper n (some f.inverses) ys xs

/-- The unknowns `xs` of the transposed systems of the upper and then of the lower factor. -/
def UpperLower (f : Factors ℚ) (n : Nat) (bs xs : Array ℚ) : Prop :=
  ∃ ys, ByColumns f.upper n (some f.inverses) bs ys ∧ ByRows f.lower n none ys xs

/-- What a solve leaves: a workspace that is ready again, and unknowns that stand in the relation `R`
to the right-hand side, at the rows of their stages. -/
structure Solves (f : Factors ℚ) (n : Nat) (R : Array ℚ → Array ℚ → Prop) (v u : SparseVector ℚ)
    (w : Workspace ℚ) : Prop where
  ready : w.Ready n
  solution : ∃ elements bs stages xs order values,
    Gathered f n v v.indices.toList elements bs stages ∧ R bs xs ∧
      order.Nodup ∧ (∀ k ∈ order, k < n) ∧ (∀ k < n, k ∉ order → xs.getD k 0 = 0) ∧
      Returned f n ⟨elements, #[], v.packed⟩ xs order u values

theorem Transposing.byRows_upper {xs ys : Array ℚ} (h : f.Transposing n t)
    {inverses : Option (Array ℚ)} (solves : ByColumns t.upperCols n inverses xs ys) :
    ByRows f.upper n inverses xs ys := by
  intro i hi
  rw [solves i hi]
  exact congrArg (fun x => scale inverses i * (xs.getD i 0 - x))
    (Finset.sum_congr rfl fun j hj => by rw [h.upperValue i hi j (Finset.mem_range.mp hj)])

theorem Transposing.byRows_lower {xs ys : Array ℚ} (h : f.Transposing n t)
    {inverses : Option (Array ℚ)} (solves : ByColumns t.lowerRows n inverses xs ys) :
    ByRows f.lower n inverses xs ys := by
  intro i hi
  rw [solves i hi]
  exact congrArg (fun x => scale inverses i * (xs.getD i 0 - x))
    (Finset.sum_congr rfl fun j hj => by rw [h.lowerValue i hi j (Finset.mem_range.mp hj)])

theorem Usable.scaled (h : f.Usable n) : Scaled (some f.inverses) n := by
  rintro _ ⟨⟩
  exact h.inverses

theorem reach_solves (usable : f.Usable n) {c d : Compressed ℚ} {rank rank' : Nat → Nat}
    (climbs : c.Climbs n rank) (climbs' : d.Climbs n rank') {inverses inverses' : Option (Array ℚ)}
    (scaled : Scaled inverses n) (scaled' : Scaled inverses' n)
    {R : Array ℚ → Array ℚ → Prop}
    (link : ∀ bs ys xs, ByColumns c n inverses bs ys → ByColumns d n inverses' ys xs → R bs xs)
    (ready : w.Ready n) (size : v.elements.size = n) (inside : ∀ i ∈ v.indices, i < n) :
    ∃ u w' flops flops',
      f.solveOnReach c inverses d inverses' v w = .ok (u, w', flops, flops') ∧
      f.Solves n R v u w' := by
  obtain ⟨elements, bs, stages, gather, gathered⟩ := Workspace.gather_run usable ready size inside
  have holds : ({ w with values := bs } : Workspace ℚ).Holds n :=
    ready.holds.withValues gathered.sizeValues
  obtain ⟨order, w₁, reach, holds₁, values₁, ordered, closed, found⟩ :=
    Workspace.reach_run climbs holds gathered.below
  obtain ⟨ys, flops, scatter, size₁, solves₁, vacant⟩ := Substitution.scatter_solves climbs scaled
    holds₁.size ordered closed fun k ne => by
      rw [values₁] at ne
      exact found k (gathered.listed k ne)
  have holds₂ : ({ w₁ with values := ys } : Workspace ℚ).Holds n := holds₁.withValues size₁
  have nonzero := Workspace.nonzeroStages_run holds₂ ordered.inside
  obtain ⟨order', w₂, reach', holds₃, values₂, ordered', closed', found'⟩ :=
    Workspace.reach_run climbs' holds₂ fun k (member : k ∈ support ys order) =>
      ordered.inside k (List.mem_filter.mp member).1
  obtain ⟨zs, flops', scatter', size₂, solves₂, vacant'⟩ := Substitution.scatter_solves climbs' scaled'
    holds₃.size ordered' closed' fun k ne => by
      rw [values₂] at ne
      refine found' k (List.mem_filter.mpr ⟨?_, by simpa using ne⟩)
      by_contra out
      exact ne (vacant k out)
  have holds₄ : ({ w₂ with values := zs } : Workspace ℚ).Holds n := holds₃.withValues size₂
  obtain ⟨u, values, back, returned⟩ := Workspace.scatter_run usable holds₄
    (v := ⟨elements, #[], v.packed⟩) gathered.sizeElements ordered'.distinct ordered'.inside
  refine ⟨u, { w₂ with values := values }, flops, flops', ?_, ⟨?_, elements, bs, stages, zs, order',
    values, gathered, ?_, ordered'.distinct, ordered'.inside, fun k _ => vacant' k, returned⟩⟩
  · unfold solveOnReach
    rw [gather, checked_ok_bind]
    dsimp only
    rw [reach, checked_ok_bind]
    dsimp only
    rw [scatter, checked_ok_bind]
    dsimp only
    rw [nonzero, checked_ok_bind, reach', checked_ok_bind]
    dsimp only
    rw [scatter', checked_ok_bind]
    dsimp only
    rw [back, checked_ok_bind]
    rfl
  · refine (holds₃.withValues returned.sizeValues).ready_of_vanish fun k hk => .inl ?_
    rw [returned.emptied]
    split
    · rfl
    · exact vacant' k ‹_›
  · rw [values₁] at solves₁
    rw [values₂] at solves₂
    exact link _ _ _ solves₁ solves₂

theorem passes_solve (usable : f.Usable n) {c d : Compressed ℚ} (beyond : c.Beyond n)
    (beyond' : d.Beyond n) {inverses inverses' : Option (Array ℚ)}
    (scaled : Scaled inverses n) (scaled' : Scaled inverses' n)
    {R : Array ℚ → Array ℚ → Prop}
    (link : ∀ bs ys xs, ByColumns c n inverses bs ys → ByRows d n inverses' ys xs → R bs xs)
    (ready : w.Ready n) (size : v.elements.size = n) (inside : ∀ i ∈ v.indices, i < n) :
    ∃ u w' flops flops',
      f.solveByPasses n c inverses d inverses' v w = .ok (u, w', flops, flops') ∧
      f.Solves n R v u w' := by
  obtain ⟨elements, bs, stages, gather, gathered⟩ := Workspace.gather_run usable ready size inside
  obtain ⟨ys, flops, scatter, size₁, solves₁⟩ :=
    Substitution.scatter_range beyond scaled gathered.sizeValues
  obtain ⟨zs, flops', collect, size₂, solves₂⟩ :=
    Substitution.gather_reverse beyond' scaled' size₁
  have holds : ({ w with values := zs } : Workspace ℚ).Holds n := ready.holds.withValues size₂
  obtain ⟨u, values, back, returned⟩ := Workspace.scatter_run usable holds
    (v := ⟨elements, #[], v.packed⟩) gathered.sizeElements List.nodup_range fun k => List.mem_range.mp
  refine ⟨u, { w with values := values }, flops, flops', ?_, ⟨?_, elements, bs, stages, zs,
    List.range n, values, gathered, ?_, List.nodup_range, fun k => List.mem_range.mp,
    fun k hk out => absurd (List.mem_range.mpr hk) out, returned⟩⟩
  · unfold solveByPasses
    rw [gather, checked_ok_bind]
    dsimp only
    rw [scatter, checked_ok_bind]
    dsimp only
    rw [collect, checked_ok_bind]
    dsimp only
    rw [back, checked_ok_bind]
    rfl
  · refine (ready.holds.withValues returned.sizeValues).ready_of_vanish fun k hk => .inl ?_
    rw [returned.emptied, if_pos (List.mem_range.mpr hk)]
  · exact link _ _ _ solves₁ solves₂

section

variable (usable : f.Usable n) (ready : w.Ready n) (size : v.elements.size = n)
  (inside : ∀ i ∈ v.indices, i < n)
include usable ready size inside

theorem ftran_solves (transposes : Option (Transposes ℚ))
    (built : ∀ t, transposes = some t → f.transposes = some t) : ∃ solved,
      transposes.elim (f.ftranDense n v w) (f.ftranSparse · v w) = .ok solved ∧
      f.Solves n (f.LowerUpper n) v solved.vector solved.workspace := by
  cases transposes with
  | none =>
    obtain ⟨u, w', flops, flops', run, solves⟩ := passes_solve (R := f.LowerUpper n) usable
      usable.lower usable.upper Substitution.scaled_none usable.scaled
      (fun _ ys _ first second => ⟨ys, first, second⟩) ready size inside
    refine ⟨⟨u, w', flops, flops'⟩, ?_, solves⟩
    rw [Option.elim_none, ftranDense_eq, run]
    rfl
  | some t =>
    have transposing := usable.transposing t (built t rfl)
    obtain ⟨u, w', flops, flops', run, solves⟩ := reach_solves (R := f.LowerUpper n) usable
      usable.lower.climbs transposing.upper Substitution.scaled_none usable.scaled
      (fun _ ys _ first second => ⟨ys, first, transposing.byRows_upper second⟩) ready size inside
    refine ⟨⟨u, w', flops, flops'⟩, ?_, solves⟩
    rw [Option.elim_some, ftranSparse_eq, run]
    rfl

theorem btran_solves (transposes : Option (Transposes ℚ))
    (built : ∀ t, transposes = some t → f.transposes = some t) : ∃ solved,
      transposes.elim (f.btranDense n v w) (f.btranSparse · v w) = .ok solved ∧
      f.Solves n (f.UpperLower n) v solved.vector solved.workspace := by
  cases transposes with
  | none =>
    obtain ⟨u, w', flops, flops', run, solves⟩ := passes_solve (R := f.UpperLower n) usable
      usable.upper usable.lower usable.scaled Substitution.scaled_none
      (fun _ ys _ first second => ⟨ys, first, second⟩) ready size inside
    refine ⟨⟨u, w', flops', flops⟩, ?_, solves⟩
    rw [Option.elim_none, btranDense_eq, run]
    rfl
  | some t =>
    have transposing := usable.transposing t (built t rfl)
    obtain ⟨u, w', flops, flops', run, solves⟩ := reach_solves (R := f.UpperLower n) usable
      usable.upper.climbs transposing.lower usable.scaled Substitution.scaled_none
      (fun _ ys _ first second => ⟨ys, first, transposing.byRows_lower second⟩) ready size inside
    refine ⟨⟨u, w', flops', flops⟩, ?_, solves⟩
    rw [Option.elim_some, btranSparse_eq, run]
    rfl

end

/-! ### Systems -/

def productMatrix (f : Factors ℚ) (n : Nat) : Matrix (Fin n) (Fin n) ℚ :=
  f.lowerMatrix n * f.upperMatrix n

variable {bs xs : Array ℚ}

theorem LowerUpper.unique {bs' xs' : Array ℚ} (usable : f.Usable n) (h : f.LowerUpper n bs xs)
    (h' : f.LowerUpper n bs' xs') (same : vec n bs = vec n bs') : vec n xs = vec n xs' := by
  obtain ⟨ys, first, second⟩ := h
  obtain ⟨ys', first', second'⟩ := h'
  have equal := first.unique usable.lower first' fun i hi => congrFun same ⟨i, hi⟩
  exact funext fun i => second.unique usable.upper second' equal i i.isLt

theorem UpperLower.unique {bs' xs' : Array ℚ} (usable : f.Usable n) (h : f.UpperLower n bs xs)
    (h' : f.UpperLower n bs' xs') (same : vec n bs = vec n bs') : vec n xs = vec n xs' := by
  obtain ⟨ys, first, second⟩ := h
  obtain ⟨ys', first', second'⟩ := h'
  have equal := first.unique usable.upper first' fun i hi => congrFun same ⟨i, hi⟩
  exact funext fun i => second.unique usable.lower second' equal i i.isLt

theorem LowerUpper.mulVec (h : f.LowerUpper n bs xs) (complete : f.Complete n) :
    (f.productMatrix n).mulVec (vec n xs) = vec n bs := by
  obtain ⟨ys, first, second⟩ := h
  rw [productMatrix, ← Matrix.mulVec_mulVec, upperMatrix_mulVec complete.upper complete.nonzero second,
    lowerMatrix_mulVec complete.lower first]

theorem UpperLower.mulVec (h : f.UpperLower n bs xs) (complete : f.Complete n) :
    (f.productMatrix n).transpose.mulVec (vec n xs) = vec n bs := by
  obtain ⟨ys, first, second⟩ := h
  rw [productMatrix, Matrix.transpose_mul, ← Matrix.mulVec_mulVec,
    lowerMatrix_transpose_mulVec complete.lower second,
    upperMatrix_transpose_mulVec complete.upper complete.nonzero first]

end Factors

end SimplexBasis
