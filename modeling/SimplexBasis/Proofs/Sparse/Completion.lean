import SimplexBasis.Proofs.Sparse.Applying
import SimplexBasis.Proofs.Sparse.Standing

/-!
# Sparse solves that complete

With complete factors, a workspace that is ready, and etas with rows and indices of the basis, every
right-hand side of the dimension of the basis is solved, whatever the arithmetic. What is answered is
a cleaned vector.
-/

set_option linter.unusedSectionVars false

namespace SimplexBasis

variable {α : Type} [Scalar α] {n k : Nat}

/-! ### Substitutions -/

namespace Substitution

variable {c : Compressed α} {rank : Nat → Nat} {inverses : Option (Array α)} {xs : Array α}
  {line : List (Nat × α)} {order : List Nat}

theorem subtract_ok (inside : ∀ i ∈ keys line, i < xs.size) (x : α) : ∃ ys,
    line.foldlM (fun xs (i, a) => do withEntry xs i ((← entry xs i) - a * x)) xs =
      (.ok ys : Checked (Array α)) ∧ ys.size = xs.size := by
  refine foldlM_ok (fun _ (ys : Array α) => ys.size = xs.size) rfl ?_
  rintro done ⟨i, a⟩ rest ys split size
  have bound : i < ys.size := size ▸ inside i (by simp [split])
  refine ⟨ys.setIfInBounds i (ys.getD i 0 - a * x), ?_, Array.size_setIfInBounds.trans size⟩
  dsimp only
  rw [entry_getD 0 bound, checked_ok_bind, withEntry_of_lt _ bound]

theorem scatterStage_ok (climbs : c.Climbs n rank) (scaled : Scaled inverses n) (hk : k < n)
    (size : xs.size = n) (flops : Nat) : ∃ ys flops',
      scatterStage c inverses (xs, flops) k = .ok (ys, flops') ∧ ys.size = n := by
  obtain ⟨line, read, -, inside⟩ := climbs k hk
  unfold scatterStage
  dsimp only
  rw [entry_getD 0 (size ▸ hk), checked_ok_bind]
  split
  · exact ⟨xs, flops, rfl, size⟩
  · have subtracts : ∀ x, ∃ ys, line.foldlM (fun xs (i, a) => do
        withEntry xs i ((← entry xs i) - a * x)) (xs.setIfInBounds k x) =
          (.ok ys : Checked (Array α)) ∧ ys.size = n := fun x => by
      have wide : (xs.setIfInBounds k x).size = n := Array.size_setIfInBounds.trans size
      obtain ⟨ys, run, size'⟩ :=
        subtract_ok (fun i member => (inside i member).1.trans_eq wide.symm) x
      exact ⟨ys, run, size'.trans wide⟩
    rw [scaled.inverse?_eq hk, checked_ok_bind, read]
    cases inverses with
    | none =>
      obtain ⟨ys, run, size'⟩ := subtracts (xs.getD k 0)
      simp only [Option.map_none, checked_ok_bind, run]
      exact ⟨ys, _, rfl, size'⟩
    | some reciprocals =>
      obtain ⟨ys, run, size'⟩ := subtracts (xs.getD k 0 * reciprocals.getD k 0)
      simp only [Option.map_some, checked_ok_bind, run]
      exact ⟨ys, _, rfl, size'⟩

theorem gatherStage_ok (climbs : c.Climbs n rank) (scaled : Scaled inverses n) (hk : k < n)
    (size : xs.size = n) (flops : Nat) : ∃ ys flops',
      gatherStage c inverses (xs, flops) k = .ok (ys, flops') ∧ ys.size = n := by
  obtain ⟨line, read, -, inside⟩ := climbs k hk
  obtain ⟨x, collected, -⟩ := foldlM_ok (f := fun x (i, a) => do return x - a * (← entry xs i))
    (l := line) (y := xs.getD k 0) (fun _ (_ : α) => True) trivial (by
      rintro done ⟨i, a⟩ rest x split -
      have bound : i < xs.size := size ▸ (inside i (by simp [split])).1
      refine ⟨x - a * xs.getD i 0, ?_, trivial⟩
      dsimp only
      rw [entry_getD 0 bound]
      rfl)
  unfold gatherStage
  dsimp only
  rw [read, checked_ok_bind, entry_getD 0 (size ▸ hk), checked_ok_bind, collected, checked_ok_bind,
    scaled.inverse?_eq hk, checked_ok_bind, withEntry_of_lt _ (size ▸ hk)]
  exact ⟨_, _, rfl, Array.size_setIfInBounds.trans size⟩

theorem scatter_ok (climbs : c.Climbs n rank) (scaled : Scaled inverses n) (size : xs.size = n)
    (inside : ∀ k ∈ order, k < n) : ∃ ys flops,
      scatter c inverses order xs = .ok (ys, flops) ∧ ys.size = n := by
  obtain ⟨⟨ys, flops⟩, run, size⟩ := foldlM_ok (f := scatterStage c inverses) (l := order)
    (y := (xs, 0)) (fun _ state => state.1.size = n) size (by
      rintro done k rest ⟨xs, flops⟩ split size
      obtain ⟨ys, flops', run, size⟩ :=
        scatterStage_ok climbs scaled (inside k (by simp [split])) size flops
      exact ⟨_, run, size⟩)
  exact ⟨ys, flops, run, size⟩

theorem gather_ok (climbs : c.Climbs n rank) (scaled : Scaled inverses n) (size : xs.size = n)
    (inside : ∀ k ∈ order, k < n) : ∃ ys flops,
      gather c inverses order xs = .ok (ys, flops) ∧ ys.size = n := by
  obtain ⟨⟨ys, flops⟩, run, size⟩ := foldlM_ok (f := gatherStage c inverses) (l := order)
    (y := (xs, 0)) (fun _ state => state.1.size = n) size (by
      rintro done k rest ⟨xs, flops⟩ split size
      obtain ⟨ys, flops', run, size⟩ :=
        gatherStage_ok climbs scaled (inside k (by simp [split])) size flops
      exact ⟨_, run, size⟩)
  exact ⟨ys, flops, run, size⟩

end Substitution

variable [LawfulZero α]

/-- A consistent vector of dimension `n` that is not packed. -/
structure SparseVector.Spread (v : SparseVector α) (n : Nat) : Prop where
  consistent : v.Consistent
  unpacked : v.packed = false
  dimension : v.dimension = n

theorem SparseVector.Consistent.spread {v : SparseVector α} (h : v.Consistent)
    (dimension : v.dimension = n) : v.unpack.Spread n :=
  ⟨h.unpack, Consistent.packed_unpack v, (Consistent.dimension_unpack v).trans dimension⟩

theorem SparseVector.Spread.indices_lt {v : SparseVector α} (h : v.Spread n) {i : Nat}
    (member : i ∈ v.indices) : i < n := h.dimension ▸ h.consistent.inside i member

/-! ### Moving values in and out -/

namespace Workspace

variable {f : Factors α} {v : SparseVector α} {w : Workspace α} {order : List Nat}

theorem gather_ok (sited : f.Sited n) (ready : w.Ready n) (spread : v.Spread n) : ∃ u w' roots,
    w.gather f v = .ok (u, w', roots) ∧ u.Spread n ∧ u.indices = #[] := by
  have wide : v.elements.size = n := spread.dimension
  obtain ⟨⟨elements, values, stages⟩, run, size, size', emptied⟩ := foldlM_ok (l := v.indices.toList)
    (y := (v.elements, w.values, ([] : List Nat))) (f := gatherRow f)
    (fun done state => state.1.size = n ∧ state.2.1.size = n ∧
      ∀ i < n, i ∈ done ∨ i ∉ v.indices → (state.1.getD i 0 == 0) = true)
    ⟨wide, ready.size, fun i hi out => spread.consistent.vacant i (hi.trans_eq wide.symm) (by
      rw [SparseVector.places_unpacked spread.unpacked, Array.mem_toList_iff]
      exact out.resolve_left List.not_mem_nil)⟩ (by
      rintro done i rest ⟨elements, values, stages⟩ split ⟨size, size', emptied⟩
      have hi : i < n := spread.indices_lt (by rw [← Array.mem_toList_iff, split]; simp)
      obtain ⟨k, hk, row⟩ := sited.exists_stage hi
      have more : (elements.setIfInBounds i 0).size = n ∧ ∀ l < n, l ∈ done ++ [i] ∨ l ∉ v.indices →
          ((elements.setIfInBounds i 0).getD l 0 == 0) = true := by
        refine ⟨Array.size_setIfInBounds.trans size, fun l hl out => ?_⟩
        rw [getD_setIfInBounds (hi.trans_eq size.symm)]
        split
        · exact LawfulZero.zero_beq
        · rename_i other
          exact emptied l hl (out.imp_left fun member => by simpa [other] using member)
      dsimp only [gatherRow]
      rw [entry_getD 0 (hi.trans_eq size.symm), checked_ok_bind, ← row, sited.stage k hk,
        checked_ok_bind, row]
      dsimp only
      split
      · rw [withEntry_of_lt _ (hk.trans_eq size'.symm), checked_ok_bind]
        exact ⟨_, rfl, more.1, Array.size_setIfInBounds.trans size', more.2⟩
      · exact ⟨_, rfl, more.1, size', more.2⟩)
  refine ⟨⟨elements, #[], v.packed⟩, { w with values := values }, stages.reverse,
    except_bind_eq_ok.mpr ⟨_, run, rfl⟩, ⟨⟨by simp, by simp, ?_, fun i hi _ => ?_⟩, spread.unpacked,
      size⟩, rfl⟩
  · simp [SparseVector.places, spread.unpacked]
  · refine emptied i (hi.trans_eq size) ?_
    rw [Array.mem_toList_iff]
    exact Classical.em _

theorem scatter_ok (sited : f.Sited n) (holds : w.Holds n) (spread : v.Spread n)
    (blank : v.indices = #[]) (distinct : order.Nodup) (inside : ∀ k ∈ order, k < n) : ∃ u w',
      scatter f order v w = .ok (u, w') ∧ u.Spread n := by
  obtain ⟨⟨u, values⟩, run, spread, -, -⟩ := foldlM_ok (l := order) (y := (v, w.values))
    (f := scatterStage f)
    (fun done state => state.1.Spread n ∧ state.2.size = n ∧
      ∀ i ∈ state.1.indices, ∃ k ∈ done, f.pivotRows.getD k 0 = i)
    ⟨spread, holds.size, by simp [blank]⟩ (by
      rintro done k rest ⟨u, values⟩ split ⟨spread, size, listed⟩
      have hk : k < n := inside k (by simp [split])
      have hi := sited.row_lt hk
      have wide : u.elements.size = n := spread.dimension
      have fresh : f.pivotRows.getD k 0 ∉ u.indices := fun member => by
        obtain ⟨l, earlier, same⟩ := listed _ member
        obtain rfl := sited.row_inj (inside l (by simp [split, earlier])) hk same
        rw [split] at distinct
        exact (List.nodup_append.mp distinct).2.2 l earlier l (by simp) rfl
      dsimp only [scatterStage]
      rw [entry_getD 0 (hk.trans_eq size.symm), checked_ok_bind]
      split
      · rename_i nonzero
        rw [entry_getD 0 (hk.trans_eq (size_of_perm sited.rows).symm), checked_ok_bind,
          withEntry_of_lt _ (hi.trans_eq wide.symm), checked_ok_bind]
        refine ⟨_, rfl, ⟨?_, spread.unpacked, Array.size_setIfInBounds.trans wide⟩,
          Array.size_setIfInBounds.trans size, fun i member => ?_⟩
        · have unpacked : u.packed = false := spread.unpacked
          exact spread.consistent.append fresh (hi.trans_eq wide.symm) (by simp [unpacked])
            (hi.trans_eq wide.symm) (bne_zero.mp nonzero)
        · rcases Array.mem_push.mp member with old | rfl
          · obtain ⟨l, earlier, same⟩ := listed i old
            exact ⟨l, List.mem_append_left _ earlier, same⟩
          · exact ⟨k, by simp, rfl⟩
      · refine ⟨_, rfl, spread, Array.size_setIfInBounds.trans size, fun i member => ?_⟩
        obtain ⟨l, earlier, same⟩ := listed i member
        exact ⟨l, List.mem_append_left _ earlier, same⟩)
  exact ⟨u, { w with values := values }, except_bind_eq_ok.mpr ⟨_, run, rfl⟩, spread⟩

end Workspace

/-! ### Solves in the factors -/

namespace Factors

open Substitution (Scaled)

variable {f : Factors α} {c d : Compressed α} {rank rank' : Nat → Nat}
  {inverses inverses' : Option (Array α)} {v : SparseVector α} {w : Workspace α}

theorem Sited.scaled (sited : f.Sited n) : Scaled (some f.inverses) n := by
  rintro _ ⟨⟩
  exact sited.inverses

section

variable (sited : f.Sited n) (climbs : c.Climbs n rank) (climbs' : d.Climbs n rank')
  (scaled : Scaled inverses n) (scaled' : Scaled inverses' n) (ready : w.Ready n)
  (spread : v.Spread n)
include sited climbs climbs' scaled scaled' ready spread

theorem solveOnReach_ok : ∃ u w' flops flops',
    f.solveOnReach c inverses d inverses' v w = .ok (u, w', flops, flops') ∧ u.Spread n := by
  obtain ⟨u, w₁, roots, gathered, spread, blank⟩ := Workspace.gather_ok sited ready spread
  obtain ⟨holds₁, inside, -⟩ := Workspace.gather_result ready gathered
  obtain ⟨order, w₂, reach, holds₂, -, ordered, -⟩ := Workspace.reach_run climbs holds₁ inside
  obtain ⟨ys, flops, scattered, size⟩ :=
    Substitution.scatter_ok climbs scaled holds₂.size ordered.inside
  have holds₃ := holds₂.withValues size
  have nonzero := Workspace.nonzeroStages_eq holds₃ ordered.inside
  have inside' : ∀ k ∈ order.filter fun k => ys.getD k 0 != 0, k < n := fun k member =>
    ordered.inside k (List.mem_filter.mp member).1
  obtain ⟨order', w₄, reach', holds₄, -, ordered', -⟩ :=
    Workspace.reach_run climbs' holds₃ inside'
  obtain ⟨zs, flops', scattered', size'⟩ :=
    Substitution.scatter_ok climbs' scaled' holds₄.size ordered'.inside
  obtain ⟨u', w₅, returned, spread'⟩ := Workspace.scatter_ok sited (holds₄.withValues size') spread
    blank ordered'.distinct ordered'.inside
  refine ⟨u', w₅, flops, flops', ?_, spread'⟩
  unfold solveOnReach
  rw [gathered, checked_ok_bind]
  dsimp only
  rw [reach, checked_ok_bind]
  dsimp only
  rw [scattered, checked_ok_bind]
  dsimp only
  rw [nonzero, checked_ok_bind]
  dsimp only
  rw [reach', checked_ok_bind]
  dsimp only
  rw [scattered', checked_ok_bind]
  dsimp only
  rw [returned, checked_ok_bind]
  rfl

theorem solveByPasses_ok : ∃ u w' flops flops',
    f.solveByPasses n c inverses d inverses' v w = .ok (u, w', flops, flops') ∧ u.Spread n := by
  obtain ⟨u, w₁, roots, gathered, spread, blank⟩ := Workspace.gather_ok sited ready spread
  obtain ⟨holds₁, -, -⟩ := Workspace.gather_result ready gathered
  obtain ⟨ys, flops, scattered, size⟩ :=
    Substitution.scatter_ok climbs scaled holds₁.size fun k => List.mem_range.mp
  have backwards : ∀ k ∈ (List.range n).reverse, k < n := fun k member => by simpa using member
  obtain ⟨zs, flops', collected, size'⟩ :=
    Substitution.gather_ok climbs' scaled' size backwards
  obtain ⟨u', w₂, returned, spread'⟩ := Workspace.scatter_ok sited (holds₁.withValues size') spread
    blank List.nodup_range fun k => List.mem_range.mp
  refine ⟨u', w₂, flops, flops', ?_, spread'⟩
  unfold solveByPasses
  rw [gathered, checked_ok_bind]
  dsimp only
  rw [scattered, checked_ok_bind]
  dsimp only
  rw [collected, checked_ok_bind]
  dsimp only
  rw [returned, checked_ok_bind]
  rfl

end

section

variable (sited : f.Sited n) (climbing : f.Climbing n) (ready : w.Ready n) (spread : v.Spread n)
  {transposes : Option (Transposes α)} (built : ∀ t, transposes = some t → f.transposes = some t)
include sited climbing ready spread built

theorem ftran_ok : ∃ solved,
    transposes.elim (f.ftranDense n v w) (f.ftranSparse · v w) = .ok solved ∧
      solved.vector.Spread n := by
  obtain ⟨rank, lower⟩ := climbing.lower
  cases transposes with
  | none =>
    obtain ⟨rank', upper⟩ := climbing.upper
    obtain ⟨u, w', flops, flops', run, spread⟩ :=
      solveByPasses_ok sited lower upper Substitution.scaled_none sited.scaled ready spread
    refine ⟨⟨u, w', flops, flops'⟩, ?_, spread⟩
    rw [Option.elim_none, ftranDense_eq, run]
    rfl
  | some t =>
    obtain ⟨rank', upper⟩ := (climbing.transposes t (built t rfl)).2
    obtain ⟨u, w', flops, flops', run, spread⟩ :=
      solveOnReach_ok sited lower upper Substitution.scaled_none sited.scaled ready spread
    refine ⟨⟨u, w', flops, flops'⟩, ?_, spread⟩
    rw [Option.elim_some, ftranSparse_eq, run]
    rfl

theorem btran_ok : ∃ solved,
    transposes.elim (f.btranDense n v w) (f.btranSparse · v w) = .ok solved ∧
      solved.vector.Spread n := by
  obtain ⟨rank, upper⟩ := climbing.upper
  cases transposes with
  | none =>
    obtain ⟨rank', lower⟩ := climbing.lower
    obtain ⟨u, w', flops, flops', run, spread⟩ :=
      solveByPasses_ok sited upper lower sited.scaled Substitution.scaled_none ready spread
    refine ⟨⟨u, w', flops', flops⟩, ?_, spread⟩
    rw [Option.elim_none, btranDense_eq, run]
    rfl
  | some t =>
    obtain ⟨rank', lower⟩ := (climbing.transposes t (built t rfl)).1
    obtain ⟨u, w', flops, flops', run, spread⟩ :=
      solveOnReach_ok sited upper lower sited.scaled Substitution.scaled_none ready spread
    refine ⟨⟨u, w', flops', flops⟩, ?_, spread⟩
    rw [Option.elim_some, btranSparse_eq, run]
    rfl

end

end Factors

namespace SparseFactorization

variable {s t : SparseFactorization α} {all : List (Stage α)} {u v : SparseVector α}

/-- What decides about the solves, the workspace apart. -/
def holding (s : SparseFactorization α) :
    (Options α × Capacity × Etas α × Phase × Option Status) × Factors α × Nat :=
  (s.region, s.factors, s.dimension)

theorem holding_of_lasting (h : t.lasting = s.lasting) : t.holding = s.holding := by
  rw [holding, region_of_lasting h, factors_of_lasting h, dimension_of_lasting h]
  rfl

theorem solveFactors_of_solved {transposes : Option (Transposes α)} {solved : Solved α}
    {onReach : Factors α → Transposes α → SparseVector α → Workspace α → Checked (Solved α)}
    {byPasses : Factors α → Nat → SparseVector α → Workspace α → Checked (Solved α)}
    (run : transposes.elim (byPasses s.factors s.dimension v s.workspace)
      (onReach s.factors · v s.workspace) = .ok solved) :
    ∃ t, solveFactors transposes v onReach byPasses s = .ok solved.vector t ∧
      t.holding = s.holding ∧ t.workspace = solved.workspace := by
  unfold solveFactors
  rw [get_bind]
  cases transposes with
  | none =>
    rw [Option.elim_none] at run
    dsimp only
    rw [run]
    exact ⟨_, rfl, rfl, rfl⟩
  | some t =>
    rw [Option.elim_some] at run
    dsimp only
    rw [run]
    exact ⟨_, rfl, rfl, rfl⟩

/-- The factors can be solved with, on the reach of a right-hand side or by passes. -/
theorem Standing.solveFactors_ok (h : Standing s all) (ready : s.workspace.Ready s.dimension)
    (spread : v.Spread s.dimension) (count : Nat) :
    (∃ u t, solveFactors (s.transposesFor count) v Factors.ftranSparse Factors.ftranDense s =
        .ok u t ∧ t.holding = s.holding ∧ u.Spread s.dimension) ∧
    ∃ u t, solveFactors (s.transposesFor count) v Factors.btranSparse Factors.btranDense s =
        .ok u t ∧ t.holding = s.holding ∧ u.Spread s.dimension := by
  have built : ∀ t, s.transposesFor count = some t → s.factors.transposes = some t :=
    fun _ => transposesFor_eq_some
  constructor
  · obtain ⟨solved, run, spread⟩ := Factors.ftran_ok h.sited h.climbing ready spread built
    obtain ⟨t, ran, same, -⟩ := solveFactors_of_solved run
    exact ⟨_, t, ran, same, spread⟩
  · obtain ⟨solved, run, spread⟩ := Factors.btran_ok h.sited h.climbing ready spread built
    obtain ⟨t, ran, same, -⟩ := solveFactors_of_solved run
    exact ⟨_, t, ran, same, spread⟩

/-! ### Answers -/

/-- A vector that answers with what cleaning leaves of a solution, in the mode of the right-hand
side. -/
structure Cleans (s : SparseFactorization α) (v u x : SparseVector α) : Prop where
  consistent : x.Consistent
  mode : x.packed = v.packed
  dimension : x.dimension = u.dimension
  entries : x.entries = (u.clean s.options.zeroTolerance).entries

theorem Cleans.large (h : s.Cleans v u x) (consistent : u.Consistent) {e : Nat × α}
    (member : e ∈ x.entries) :
    Scalar.max s.options.zeroTolerance SparseVector.tiny ≤ Scalar.abs e.2 := by
  rw [h.entries, (consistent.clean _).2.2.2] at member
  exact of_decide_eq_true (List.mem_filter.mp member).2

theorem finish_ok (h : u.Consistent) (unpacked : u.packed = false) (s : SparseFactorization α) :
    ∃ x, finish u v.packed s = .ok (x, x.count) s ∧ s.Cleans v u x := by
  obtain ⟨consistent, mode, dimension, -⟩ := h.clean s.options.zeroTolerance
  unfold finish
  rw [get_bind]
  dsimp only
  cases packed : v.packed with
  | false => exact ⟨_, rfl, consistent, (mode.trans unpacked).trans packed.symm, dimension, rfl⟩
  | true =>
    obtain ⟨x, run, consistent', mode', dimension', entries⟩ := consistent.pack
    rw [if_pos rfl, run]
    have count : (u.clean s.options.zeroTolerance).count = x.count := by
      rw [← consistent.length_entries, ← consistent'.length_entries, entries]
    refine ⟨x, ?_, consistent', mode'.trans packed.symm, dimension'.trans dimension, entries⟩
    rw [lift_ok_bind, count]
    rfl

def counted (s : SparseFactorization α) (flops : Nat) : SparseFactorization α :=
  { s with counters := { s.counters with etaFlops := s.counters.etaFlops + flops } }

/-- A solve from its parts: the solution in the factors, with the etas applied to it. -/
theorem ftran_of_parts (phase : s.phase = .factorized) (bounded : s.Bounded)
    (dimension : v.dimension = s.dimension)
    (solved : solveFactors (s.transposesFor v.unpack.count) v.unpack Factors.ftranSparse
      Factors.ftranDense s = .ok u t) (same : t.holding = s.holding) {w : SparseVector α} {flops : Nat}
    (applied : (List.range s.etas.rows.size).foldlM s.etas.apply (u, 0) = .ok (w, flops))
    (consistent : w.Consistent) (unpacked : w.packed = false) :
    ∃ x, ftran v s = .ok (x, x.count) (t.counted flops) ∧ s.Cleans v w x := by
  simp only [holding, region, Prod.mk.injEq] at same
  obtain ⟨⟨options, -, etas, -, -⟩, -, -⟩ := same
  obtain ⟨x, finished, cleans⟩ := finish_ok (v := v) consistent unpacked (t.counted flops)
  have tolerance : (t.counted flops).options = s.options := options
  refine ⟨x, ?_, cleans.consistent, cleans.mode, cleans.dimension, tolerance ▸ cleans.entries⟩
  rw [ftran_eq]
  have passed := bounded.checkSolvable phase v
  rw [dimension, beq_self_eq_true] at passed
  rw [bind_of_ok passed]
  unfold ftranChecked
  rw [get_bind, bind_of_ok solved, get_bind, etas, applied, lift_ok_bind]
  exact finished

def nonzeros (u : SparseVector α) : SparseVector α :=
  { u with indices := u.indices.filter fun i => u.elements.getD i 0 != 0 }

theorem mem_nonzeros {i : Nat} :
    i ∈ (nonzeros u).indices ↔ i ∈ u.indices ∧ (u.elements.getD i 0 == 0) = false := by
  rw [nonzeros, Array.mem_filter, bne_zero]

theorem nonzeros_eq (h : u.Consistent) (unpacked : u.packed = false) : nonzeros u = u := by
  have all : u.indices.filter (fun i => u.elements.getD i 0 != 0) = u.indices :=
    Array.filter_eq_self.mpr fun i member => bne_zero.mpr (h.stored i (by
      rwa [SparseVector.places_unpacked unpacked, Array.mem_toList_iff]))
  unfold nonzeros
  rw [all]

/-- A transposed solve from its parts: the etas are applied before the factors are solved with. -/
theorem btran_of_parts (phase : s.phase = .factorized) (bounded : s.Bounded)
    (dimension : v.dimension = s.dimension) {w : SparseVector α} {flops : Nat}
    (applied : (List.range s.etas.rows.size).reverse.foldlM s.etas.applyTranspose (v.unpack, 0) =
      .ok (u, flops))
    (solved : solveFactors ((s.counted flops).transposesFor (nonzeros u).count) (nonzeros u)
      Factors.btranSparse Factors.btranDense (s.counted flops) = .ok w t)
    (same : t.holding = s.holding) (consistent : w.Consistent) (unpacked : w.packed = false) :
    ∃ x, btran v s = .ok (x, x.count) t ∧ s.Cleans v w x := by
  simp only [holding, region, Prod.mk.injEq] at same
  obtain ⟨⟨options, -, -, -, -⟩, -, -⟩ := same
  obtain ⟨x, finished, cleans⟩ := finish_ok (v := v) consistent unpacked t
  refine ⟨x, ?_, cleans.consistent, cleans.mode, cleans.dimension, options ▸ cleans.entries⟩
  rw [btran_eq]
  have passed := bounded.checkSolvable phase v
  rw [dimension, beq_self_eq_true] at passed
  rw [bind_of_ok passed]
  unfold btranChecked
  dsimp only
  rw [get_bind, applied, lift_ok_bind]
  change ((do
    let transposes := (← get).transposesFor (nonzeros u).count
    let w ← solveFactors transposes (nonzeros u) Factors.btranSparse Factors.btranDense
    finish w v.packed : Action (SparseFactorization α) (SparseVector α × Nat))
      (s.counted flops)) = _
  rw [get_bind, bind_of_ok solved]
  exact finished

/-! ### The state between solves -/

theorem keys_etaEntries_lt {column : SparseVector α} (consistent : column.Consistent)
    (dimension : column.dimension = n) (row : Nat) : ∀ i ∈ keys (etaEntries column row), i < n := by
  intro i member
  obtain ⟨e, stored, rfl⟩ := List.mem_map.mp member
  exact dimension ▸ consistent.keys_lt e.1
    (List.mem_map_of_mem (f := Prod.fst) (List.mem_filter.mp stored).1)

/-- Factors and etas to solve with, and a workspace that is ready. -/
structure Serving (s : SparseFactorization α) (all : List (Stage α)) : Prop where
  phase : s.phase = .factorized
  bounded : s.Bounded
  standing : Standing s all
  workspace : s.workspace.Ready s.dimension
  etas : s.etas.Fit s.dimension

namespace Serving

theorem of_lasting (h : Serving s all) (same : t.lasting = s.lasting)
    (ready : t.workspace.Ready s.dimension) : Serving t all where
  phase := (congrArg (·.2.2.2.1) (region_of_lasting same)).trans h.phase
  bounded := h.bounded.of_region (options_of_lasting same)
    (congrArg (·.2.1) (region_of_lasting same)) (etas_of_lasting same)
  standing := h.standing.of_same (factors_of_lasting same) (dimension_of_lasting same)
  workspace := dimension_of_lasting same ▸ ready
  etas := by
    rw [etas_of_lasting same, dimension_of_lasting same]
    exact h.etas

theorem ftran {x : SparseVector α × Nat} (h : Serving s all)
    (run : SparseFactorization.ftran v s = .ok x t) : Serving t all ∧ t.lasting = s.lasting :=
  ⟨h.of_lasting (lasting_of_ftran run) (h.standing.ready_of_ftran h.workspace run),
    lasting_of_ftran run⟩

theorem btran {x : SparseVector α × Nat} (h : Serving s all)
    (run : SparseFactorization.btran v s = .ok x t) : Serving t all ∧ t.lasting = s.lasting :=
  ⟨h.of_lasting (lasting_of_btran run) (h.standing.ready_of_btran h.workspace run),
    lasting_of_btran run⟩

theorem transposed (h : Serving s all) : Serving (s.transposed all) all where
  phase := h.phase
  bounded := h.bounded.of_region rfl rfl rfl
  standing := h.standing.transposed
  workspace := h.workspace
  etas := h.etas

theorem assign {sequence heading vs : Array Nat} (h : Serving s all)
    (run : SparseFactorization.assign sequence heading s = .ok vs t) :
    Serving t all ∧ (t = s ∨ t = s.transposed all) := by
  obtain rfl | rfl := h.standing.assign_result run
  · exact ⟨h, .inl rfl⟩
  · exact ⟨h.transposed, .inr rfl⟩

theorem replaceColumn {column : SparseVector α} {row : Nat} {pivot : α} (h : Serving s all)
    (within : ∀ i ∈ keys (etaEntries column row), i < s.dimension)
    (run : SparseFactorization.replaceColumn column row pivot s = .ok () t) : Serving t all := by
  have bounded := ((replaceColumn_ends h.phase column row pivot).result run).2.2
  obtain ⟨inside, rfl⟩ := replaceColumn_result h.phase run
  refine ⟨h.phase, bounded, h.standing.of_same rfl rfl, h.workspace, h.etas.push inside ?_ _⟩
  intro i member
  obtain ⟨e, scaled, rfl⟩ := List.mem_map.mp member
  obtain ⟨⟨j, x⟩, stored, rfl⟩ := List.mem_map.mp scaled
  exact within j (List.mem_map_of_mem (f := Prod.fst) stored)

theorem ftran_ok (h : Serving s all) (consistent : v.Consistent)
    (dimension : v.dimension = s.dimension) : ∃ x t w,
      SparseFactorization.ftran v s = .ok (x, x.count) t ∧ w.Spread s.dimension ∧ s.Cleans v w x := by
  obtain ⟨u, t, solved, same, spread⟩ := (h.standing.solveFactors_ok h.workspace
    (consistent.spread dimension) v.unpack.count).1
  obtain ⟨zs, size, maps⟩ := h.etas.applies u.elements spread.dimension
  obtain ⟨w, flops, applied, filled⟩ := maps u 0 ⟨spread.consistent, spread.unpacked, rfl⟩
  obtain ⟨x, run, cleans⟩ := ftran_of_parts h.phase h.bounded dimension solved same applied
    filled.consistent filled.unpacked
  exact ⟨x, _, w, run, ⟨filled.consistent, filled.unpacked,
    (congrArg Array.size filled.elements).trans size⟩, cleans⟩

theorem btran_ok (h : Serving s all) (consistent : v.Consistent)
    (dimension : v.dimension = s.dimension) : ∃ x t w,
      SparseFactorization.btran v s = .ok (x, x.count) t ∧ w.Spread s.dimension ∧ s.Cleans v w x := by
  have start := consistent.spread dimension
  obtain ⟨zs, size, maps⟩ := h.etas.appliesTranspose v.unpack.elements start.dimension
  obtain ⟨u, flops, applied, filled⟩ := maps v.unpack 0 ⟨start.consistent, start.unpacked, rfl⟩
  have spread : (nonzeros u).Spread s.dimension := by
    rw [nonzeros_eq filled.consistent filled.unpacked]
    exact ⟨filled.consistent, filled.unpacked, (congrArg Array.size filled.elements).trans size⟩
  have counted : Serving (s.counted flops) all := h.of_lasting rfl h.workspace
  obtain ⟨w, t, solved, same, spread'⟩ := (counted.standing.solveFactors_ok counted.workspace
    spread (nonzeros u).count).2
  obtain ⟨x, run, cleans⟩ := btran_of_parts h.phase h.bounded dimension applied solved same
    spread'.consistent spread'.unpacked
  exact ⟨x, t, w, run, spread', cleans⟩

end Serving

end SparseFactorization

end SimplexBasis
