import SimplexBasis.Proofs.Sparse.Slots
import SimplexBasis.Proofs.Triangular.Reach
import SimplexBasis.Sparse.Solving

/-!
# The workspace between solves

All solves share one work array and one array of marks, which nothing clears. A solve hands them
back as it received them, whatever the right-hand side and the arithmetic: the values that it moves
in stay on the reach of the stages they were moved to, and what it leaves behind it takes for zero.
-/

set_option linter.unusedSectionVars false

namespace SimplexBasis

variable {α : Type} [Scalar α] {n k : Nat}

theorem setIfInBounds_of_withEntry {β : Type} {xs ys : Array β} {i : Nat} {x : β}
    (run : withEntry xs i x = .ok ys) : i < xs.size ∧ ys = xs.setIfInBounds i x := by
  by_cases hi : i < xs.size
  · rw [withEntry_of_lt _ hi] at run
    cases run
    exact ⟨hi, rfl⟩
  · simp [withEntry, hi] at run

/-! ### Substitutions -/

namespace Substitution

variable {c : Compressed α} {inverses : Option (Array α)} {order : List Nat} {xs ys : Array α}
  {line : List (Nat × α)} {x : α} {flops : Nat}

theorem subtract_result (run : line.foldlM (fun xs (i, a) => do
      withEntry xs i ((← entry xs i) - a * x)) xs = (.ok ys : Checked (Array α))) :
    ys.size = xs.size ∧ ∀ i, i ∉ keys line → ys.getD i 0 = xs.getD i 0 := by
  refine foldlM_result (fun done (zs : Array α) => zs.size = xs.size ∧
    ∀ i, i ∉ keys done → zs.getD i 0 = xs.getD i 0) run ⟨rfl, fun _ _ => rfl⟩ ?_
  rintro done ⟨i, a⟩ rest zs zs' - ⟨size, kept⟩ step
  obtain ⟨y, -, step⟩ := except_bind_eq_ok.mp step
  obtain ⟨inside, rfl⟩ := setIfInBounds_of_withEntry step
  refine ⟨Array.size_setIfInBounds.trans size, fun j out => ?_⟩
  rw [keys, List.map_append, List.mem_append, not_or] at out
  rw [getD_setIfInBounds inside, if_neg (by simpa using out.2)]
  exact kept j out.1

/-- A substitution by columns changes no entries that its order does not lead to. -/
theorem scatter_result (run : scatter c inverses order xs = .ok (ys, flops))
    (closed : ∀ k ∈ order, ∀ i ∈ c.targets k, i ∈ order) :
    ys.size = xs.size ∧ ∀ i, i ∉ order → ys.getD i 0 = xs.getD i 0 := by
  refine foldlM_result (fun _ (state : Array α × Nat) => state.1.size = xs.size ∧
    ∀ i, i ∉ order → state.1.getD i 0 = xs.getD i 0) run ⟨rfl, fun _ _ => rfl⟩ ?_
  rintro done k rest ⟨zs, count⟩ state split ⟨size, kept⟩ step
  have member : k ∈ order := by simp [split]
  unfold scatterStage at step
  obtain ⟨x, read, step⟩ := except_bind_eq_ok.mp step
  have inside := (getD_of_entry 0 read).1
  split at step
  · cases step
    exact ⟨size, kept⟩
  · obtain ⟨inverse, -, step⟩ := except_bind_eq_ok.mp step
    obtain ⟨line, here, step⟩ := except_bind_eq_ok.mp step
    obtain ⟨zs', subtracted, step⟩ := except_bind_eq_ok.mp step
    cases step
    obtain ⟨size', kept'⟩ := subtract_result subtracted
    refine ⟨(size'.trans Array.size_setIfInBounds).trans size, fun i out => ?_⟩
    have apart : i ∉ keys line := fun target => out (closed k member i (by
      unfold Compressed.targets
      rw [here]
      exact target))
    rw [kept' i apart, getD_setIfInBounds inside, if_neg fun same : i = k => out (same ▸ member)]
    exact kept i out

theorem size_of_gather (run : gather c inverses order xs = .ok (ys, flops)) :
    ys.size = xs.size := by
  refine foldlM_result (fun _ (state : Array α × Nat) => state.1.size = xs.size) run rfl ?_
  rintro done k rest ⟨zs, count⟩ state - size step
  unfold gatherStage at step
  obtain ⟨line, -, step⟩ := except_bind_eq_ok.mp step
  obtain ⟨y, -, step⟩ := except_bind_eq_ok.mp step
  obtain ⟨z, -, step⟩ := except_bind_eq_ok.mp step
  obtain ⟨inverse, -, step⟩ := except_bind_eq_ok.mp step
  obtain ⟨zs', written, step⟩ := except_bind_eq_ok.mp step
  cases step
  obtain ⟨-, rfl⟩ := setIfInBounds_of_withEntry written
  exact Array.size_setIfInBounds.trans size

end Substitution

/-! ### Moving values in and out -/

namespace Workspace

variable {f : Factors α} {u v : SparseVector α} {w w' : Workspace α} {roots order : List Nat}

/-- A workspace that holds values by stage and is ready otherwise. -/
structure Holds (w : Workspace α) (n : Nat) : Prop where
  size : w.values.size = n
  ready : ({ w with values := Array.replicate n 0 } : Workspace α).Ready n

theorem Ready.holds (h : w.Ready n) : w.Holds n where
  size := h.size
  ready := h.clear

theorem Holds.withValues (h : w.Holds n) {xs : Array α} (size : xs.size = n) :
    ({ w with values := xs } : Workspace α).Holds n := ⟨size, h.ready⟩

theorem Holds.ready_of_vanish (h : w.Holds n)
    (vanish : ∀ k < n, Scalar.Vanishes (w.values.getD k 0)) : w.Ready n :=
  { h.ready with
    size := h.size
    vanish := vanish }

def gatherRow (f : Factors α) (state : Array α × Array α × List Nat) (i : Nat) :
    Checked (Array α × Array α × List Nat) := do
  let x ← entry state.1 i
  let elements := state.1.setIfInBounds i 0
  match ← entry f.stageOfRow i with
  | some k =>
    if x != 0 then return (elements, ← withEntry state.2.1 k x, k :: state.2.2)
    else return (elements, state.2)
  | none => return (elements, state.2)

theorem gather_eq : w.gather f v = (do
    let state ← v.indices.toList.foldlM (gatherRow f) (v.elements, w.values, [])
    return ({ v with elements := state.1, indices := #[] }, { w with values := state.2.1 },
      state.2.2.reverse)) := rfl

def scatterStage (f : Factors α) (state : SparseVector α × Array α) (k : Nat) :
    Checked (SparseVector α × Array α) := do
  let x ← entry state.2 k
  let values := state.2.setIfInBounds k 0
  if x != 0 then
    let i ← entry f.pivotRows k
    let elements ← withEntry state.1.elements i x
    return ({ state.1 with elements := elements, indices := state.1.indices.push i }, values)
  else return (state.1, values)

theorem scatter_eq : scatter f order v w = (do
    let state ← order.foldlM (scatterStage f) (v, w.values)
    return (state.1, { w with values := state.2 })) := rfl

theorem gather_result (ready : w.Ready n) (run : w.gather f v = .ok (u, w', roots)) :
    w'.Holds n ∧ (∀ k ∈ roots, k < n) ∧
      ∀ k < n, k ∉ roots → Scalar.Vanishes (w'.values.getD k 0) := by
  rw [gather_eq] at run
  obtain ⟨⟨elements, values, stages⟩, folded, run⟩ := except_bind_eq_ok.mp run
  cases run
  obtain ⟨size, below, kept⟩ := foldlM_result
    (fun _ (state : Array α × Array α × List Nat) => state.2.1.size = n ∧
      (∀ k ∈ state.2.2, k < n) ∧
      ∀ k < n, k ∉ state.2.2 → Scalar.Vanishes (state.2.1.getD k 0)) folded
    ⟨ready.size, by simp, fun k hk _ => ready.vanish k hk⟩ (by
      rintro done i rest ⟨elements, values, stages⟩ state - ⟨size, below, kept⟩ step
      obtain ⟨x, -, step⟩ := except_bind_eq_ok.mp step
      obtain ⟨stage, -, step⟩ := except_bind_eq_ok.mp step
      cases stage with
      | none =>
        cases step
        exact ⟨size, below, kept⟩
      | some k =>
        dsimp only at step
        split at step
        · obtain ⟨values', written, step⟩ := except_bind_eq_ok.mp step
          cases step
          obtain ⟨inside, rfl⟩ := setIfInBounds_of_withEntry written
          refine ⟨Array.size_setIfInBounds.trans size, fun l member => ?_, fun l hl out => ?_⟩
          · rcases List.mem_cons.mp member with rfl | member
            · exact size ▸ inside
            · exact below l member
          · rw [List.mem_cons, not_or] at out
            rw [getD_setIfInBounds inside, if_neg out.1]
            exact kept l hl out.2
        · cases step
          exact ⟨size, below, kept⟩)
  exact ⟨ready.holds.withValues size, by simpa using below, by simpa using kept⟩

theorem reach_run {graph : Compressed α} {rank : Nat → Nat} (climbs : graph.Climbs n rank)
    (holds : w.Holds n) (inside : ∀ k ∈ roots, k < n) : ∃ order w',
      w.reach graph roots = .ok (order, w') ∧ w'.Holds n ∧ w'.values = w.values ∧
      graph.Ordered n order ∧ (∀ k ∈ order, ∀ i ∈ graph.targets k, i ∈ order) ∧
      ∀ k ∈ roots, k ∈ order := by
  obtain ⟨ready, fresh⟩ := holds.ready.nextMarker
  have same : ({ w with values := Array.replicate n 0 } : Workspace α).nextMarker =
      { w.nextMarker with values := Array.replicate n 0 } := by
    unfold Workspace.nextMarker
    split <;> rfl
  rw [same] at ready fresh
  have values : w.nextMarker.values = w.values := by
    unfold Workspace.nextMarker
    split <;> rfl
  obtain ⟨more, r, run, searched, found⟩ := Reach.Searching.addRoots_ok climbs.connects
    (Reach.searching_nil roots ready.pattern ready.resume ready.marked
      fun i hi => Nat.ne_of_lt (fresh i hi)) inside fun _ member => member
  rw [List.append_nil] at searched found
  have marks : ∀ i < n, r.marked.getD i 0 ≤ w.nextMarker.marker := by
    intro i hi
    rcases searched.marks i with same | same
    · exact Nat.le_of_eq same
    · exact same.trans_le (ready.marks i hi)
  refine ⟨more, { w.nextMarker with pattern := r.pattern, resume := r.resume, marked := r.marked },
    ?_, ⟨by dsimp only; rw [values]; exact holds.size, { ready with
      marked := searched.sizeMarked
      marks := marks
      pattern := searched.sizePattern
      resume := searched.sizeResume }⟩, values, searched.ordered climbs,
    searched.targets_mem climbs, found⟩
  have order : r.order = more := searched.listed
  unfold reach
  dsimp only
  rw [show Reach.addRoots graph _ _ roots = .ok r from run, checked_ok_bind, order]
  rfl

theorem nonzeroStages_eq (holds : w.Holds n) (inside : ∀ k ∈ order, k < n) :
    w.nonzeroStages order = .ok (order.filter fun k => w.values.getD k 0 != 0) := by
  unfold nonzeroStages
  refine checked_filterM fun k member => ?_
  rw [entry_getD 0 (holds.size ▸ inside k member)]
  rfl

theorem scatter_result (holds : w.Holds n) (run : scatter f order v w = .ok (u, w')) :
    w'.Holds n ∧ ∀ k < n, w'.values.getD k 0 = if k ∈ order then 0 else w.values.getD k 0 := by
  rw [scatter_eq] at run
  obtain ⟨⟨u', values⟩, folded, run⟩ := except_bind_eq_ok.mp run
  cases run
  obtain ⟨size, emptied⟩ := foldlM_result
    (fun done (state : SparseVector α × Array α) => state.2.size = n ∧
      ∀ k < n, state.2.getD k 0 = if k ∈ done then 0 else w.values.getD k 0) folded
    ⟨holds.size, by simp⟩ (by
      rintro done k rest ⟨u, values⟩ state - ⟨size, emptied⟩ step
      obtain ⟨x, read, step⟩ := except_bind_eq_ok.mp step
      have inside := (getD_of_entry 0 read).1
      have here : (values.setIfInBounds k 0).size = n ∧ ∀ l < n,
          (values.setIfInBounds k 0).getD l 0 =
            if l ∈ done ++ [k] then 0 else w.values.getD l 0 := by
        refine ⟨Array.size_setIfInBounds.trans size, fun l hl => ?_⟩
        rw [getD_setIfInBounds inside, emptied l hl]
        by_cases same : l = k
        · simp [same]
        · simp [same]
      split at step
      · obtain ⟨i, -, step⟩ := except_bind_eq_ok.mp step
        obtain ⟨elements, -, step⟩ := except_bind_eq_ok.mp step
        cases step
        exact here
      · cases step
        exact here)
  exact ⟨holds.withValues size, emptied⟩

end Workspace

/-! ### Solves -/

namespace Factors

variable {f : Factors α} {t : Transposes α} {u v : SparseVector α} {w w' : Workspace α}
  {solved : Solved α}

/-- A solve on the reach of the right-hand side, in two factors given by columns. -/
def solveOnReach (f : Factors α) (c : Compressed α) (inverses : Option (Array α)) (d : Compressed α)
    (inverses' : Option (Array α)) (v : SparseVector α) (w : Workspace α) :
    Checked (SparseVector α × Workspace α × Nat × Nat) := do
  let (v, w, roots) ← w.gather f v
  let (order, w) ← w.reach c roots
  let (values, flops) ← Substitution.scatter c inverses order w.values
  let w := { w with values := values }
  let (order, w) ← w.reach d (← w.nonzeroStages order)
  let (values, flops') ← Substitution.scatter d inverses' order w.values
  let (v, w) ← Workspace.scatter f order v { w with values := values }
  return (v, w, flops, flops')

/-- A solve by passes over all stages, in a factor given by columns and in one given by rows. -/
def solveByPasses (f : Factors α) (n : Nat) (c : Compressed α) (inverses : Option (Array α))
    (d : Compressed α) (inverses' : Option (Array α)) (v : SparseVector α) (w : Workspace α) :
    Checked (SparseVector α × Workspace α × Nat × Nat) := do
  let (v, w, _) ← w.gather f v
  let (values, flops) ← Substitution.scatter c inverses (List.range n) w.values
  let (values, flops') ← Substitution.gather d inverses' (List.range n).reverse values
  let (v, w) ← Workspace.scatter f (List.range n) v { w with values := values }
  return (v, w, flops, flops')

theorem ftranSparse_eq : f.ftranSparse t v w =
    (fun (u, w', lowerFlops, upperFlops) => ⟨u, w', lowerFlops, upperFlops⟩) <$>
      f.solveOnReach f.lower none t.upperCols (some f.inverses) v w := by
  unfold ftranSparse solveOnReach
  simp only [map_bind, map_pure]

theorem btranSparse_eq : f.btranSparse t v w =
    (fun (u, w', upperFlops, lowerFlops) => ⟨u, w', lowerFlops, upperFlops⟩) <$>
      f.solveOnReach f.upper (some f.inverses) t.lowerRows none v w := by
  unfold btranSparse solveOnReach
  simp only [map_bind, map_pure]

theorem ftranDense_eq : f.ftranDense n v w =
    (fun (u, w', lowerFlops, upperFlops) => ⟨u, w', lowerFlops, upperFlops⟩) <$>
      f.solveByPasses n f.lower none f.upper (some f.inverses) v w := by
  unfold ftranDense solveByPasses
  simp only [map_bind, map_pure]

theorem btranDense_eq : f.btranDense n v w =
    (fun (u, w', upperFlops, lowerFlops) => ⟨u, w', lowerFlops, upperFlops⟩) <$>
      f.solveByPasses n f.upper (some f.inverses) f.lower none v w := by
  unfold btranDense solveByPasses
  simp only [map_bind, map_pure]

/-- A solve on the reach ends with a workspace without values. The second search starts from the
stages that the first one reached and that are not zero; any other stage is zero already. -/
theorem ready_of_solveOnReach {c d : Compressed α} {inverses inverses' : Option (Array α)}
    {rank rank' : Nat → Nat} {flops : Nat × Nat} (climbs : c.Climbs n rank)
    (climbs' : d.Climbs n rank') (ready : w.Ready n)
    (run : f.solveOnReach c inverses d inverses' v w = .ok (u, w', flops)) : w'.Ready n := by
  unfold solveOnReach at run
  obtain ⟨⟨v₁, w₁, roots⟩, gathered, run⟩ := except_bind_eq_ok.mp run
  obtain ⟨holds₁, inside, quiet₁⟩ := Workspace.gather_result ready gathered
  obtain ⟨order, w₂, reach, holds₂, values₂, ordered, closed, found⟩ :=
    Workspace.reach_run climbs holds₁ inside
  dsimp only at run
  rw [reach, checked_ok_bind] at run
  dsimp only at run
  obtain ⟨⟨ys, flops₁⟩, scattered, run⟩ := except_bind_eq_ok.mp run
  obtain ⟨size, kept⟩ := Substitution.scatter_result scattered closed
  have holds₃ : ({ w₂ with values := ys } : Workspace α).Holds n :=
    holds₂.withValues (size.trans holds₂.size)
  have quiet₃ : ∀ k < n, k ∉ order → Scalar.Vanishes (ys.getD k 0) := by
    intro k hk out
    rw [kept k out, values₂]
    exact quiet₁ k hk fun root => out (found k root)
  dsimp only at run
  rw [Workspace.nonzeroStages_eq holds₃ ordered.inside, checked_ok_bind] at run
  have inside : ∀ k ∈ order.filter fun k => ys.getD k 0 != 0, k < n :=
    fun k member => ordered.inside k (List.mem_filter.mp member).1
  obtain ⟨order', w₄, reach', holds₄, values₄, ordered', closed', found'⟩ :=
    Workspace.reach_run climbs' holds₃ inside
  rw [reach', checked_ok_bind] at run
  dsimp only at run
  obtain ⟨⟨zs, flops₂⟩, scattered', run⟩ := except_bind_eq_ok.mp run
  obtain ⟨size', kept'⟩ := Substitution.scatter_result scattered' closed'
  obtain ⟨⟨u', w₅⟩, returned, run⟩ := except_bind_eq_ok.mp run
  cases run
  obtain ⟨holds₅, emptied⟩ := Workspace.scatter_result
    (holds₄.withValues (size'.trans holds₄.size)) returned
  refine holds₅.ready_of_vanish fun k hk => ?_
  rw [emptied k hk]
  split
  · exact .inl rfl
  · rename_i out
    change Scalar.Vanishes (zs.getD k 0)
    rw [kept' k out, values₄]
    by_cases reached : k ∈ order
    · refine .inr (Bool.eq_false_iff.mpr fun nonzero => out (found' k ?_))
      exact List.mem_filter.mpr ⟨reached, nonzero⟩
    · exact quiet₃ k hk reached

theorem ready_of_solveByPasses {c d : Compressed α} {inverses inverses' : Option (Array α)}
    {rank : Nat → Nat} {flops : Nat × Nat} (climbs : c.Climbs n rank) (ready : w.Ready n)
    (run : f.solveByPasses n c inverses d inverses' v w = .ok (u, w', flops)) : w'.Ready n := by
  unfold solveByPasses at run
  obtain ⟨⟨v₁, w₁, roots⟩, gathered, run⟩ := except_bind_eq_ok.mp run
  obtain ⟨holds₁, -, -⟩ := Workspace.gather_result ready gathered
  dsimp only at run
  obtain ⟨⟨ys, flops₁⟩, scattered, run⟩ := except_bind_eq_ok.mp run
  obtain ⟨size, -⟩ := Substitution.scatter_result scattered fun k member i target =>
    List.mem_range.mpr (climbs.lt (List.mem_range.mp member) target).1
  obtain ⟨⟨zs, flops₂⟩, collected, run⟩ := except_bind_eq_ok.mp run
  have size' := Substitution.size_of_gather collected
  obtain ⟨⟨u', w₅⟩, returned, run⟩ := except_bind_eq_ok.mp run
  cases run
  obtain ⟨holds₅, emptied⟩ := Workspace.scatter_result
    (holds₁.withValues ((size'.trans size).trans holds₁.size)) returned
  refine holds₅.ready_of_vanish fun k hk => ?_
  rw [emptied k hk, if_pos (List.mem_range.mpr hk)]
  exact .inl rfl

/-- Factors, and their transposes if these are built, whose lines climb. -/
structure Climbing (f : Factors α) (n : Nat) : Prop where
  lower : ∃ rank, f.lower.Climbs n rank
  upper : ∃ rank, f.upper.Climbs n rank
  transposes : ∀ t, f.transposes = some t →
    (∃ rank, t.lowerRows.Climbs n rank) ∧ ∃ rank, t.upperCols.Climbs n rank

section Climbing

variable (climbing : f.Climbing n) (ready : w.Ready n) {transposes : Option (Transposes α)}
  (built : ∀ t, transposes = some t → f.transposes = some t)
include climbing ready built

theorem ready_of_ftran
    (run : transposes.elim (f.ftranDense n v w) (f.ftranSparse · v w) = .ok solved) :
    solved.workspace.Ready n := by
  obtain ⟨rank, lower⟩ := climbing.lower
  cases transposes with
  | none =>
    rw [Option.elim_none, ftranDense_eq] at run
    obtain ⟨⟨u, w', flops⟩, solve, run⟩ := except_bind_eq_ok.mp run
    cases run
    exact ready_of_solveByPasses lower ready solve
  | some t =>
    obtain ⟨rank', upper⟩ := (climbing.transposes t (built t rfl)).2
    rw [Option.elim_some, ftranSparse_eq] at run
    obtain ⟨⟨u, w', flops⟩, solve, run⟩ := except_bind_eq_ok.mp run
    cases run
    exact ready_of_solveOnReach lower upper ready solve

theorem ready_of_btran
    (run : transposes.elim (f.btranDense n v w) (f.btranSparse · v w) = .ok solved) :
    solved.workspace.Ready n := by
  obtain ⟨rank, upper⟩ := climbing.upper
  cases transposes with
  | none =>
    rw [Option.elim_none, btranDense_eq] at run
    obtain ⟨⟨u, w', flops⟩, solve, run⟩ := except_bind_eq_ok.mp run
    cases run
    exact ready_of_solveByPasses upper ready solve
  | some t =>
    obtain ⟨rank', lower⟩ := (climbing.transposes t (built t rfl)).1
    rw [Option.elim_some, btranSparse_eq] at run
    obtain ⟨⟨u, w', flops⟩, solve, run⟩ := except_bind_eq_ok.mp run
    cases run
    exact ready_of_solveOnReach upper lower ready solve

end Climbing

end Factors

end SimplexBasis
