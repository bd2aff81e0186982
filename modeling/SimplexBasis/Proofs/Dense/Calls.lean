import SimplexBasis.Proofs.Dense.Factorization
import SimplexBasis.Proofs.Steady

/-!
# Calls of the dense factorization

What the calls of a caller leave behind, whatever state they meet. None of them reads the journal.
-/

set_option linter.unusedSectionVars false

namespace SimplexBasis.DenseFactorization

variable {α β : Type} [Scalar α] {records : Array Record} {F : Status → Prop}
  {d t : DenseFactorization α} {context : Context α}

/-- The state with more records in front of its journal. -/
def noted (records : Array Record) (d : DenseFactorization α) : DenseFactorization α :=
  { d with journal := records ++ d.journal }

/-- Whether a basis is loaded, and whether the factors can be solved with. -/
def region (d : DenseFactorization α) : Option DenseOrder × Bool × Bool :=
  (d.order, d.loaded, d.valid)

theorem log_steady {κ : Type} {frame : DenseFactorization α → κ} (level : Level) (message : String)
    (kept : ∀ (xs : Array Record) d, frame { d with journal := xs } = frame d) :
    Steady (noted records) frame F (log level message) :=
  Steady.modify (fun d => by simp [noted]) fun _ => kept _ _

/-! ### Loading and factorizing -/

theorem solvable_steady : Steady (noted records) region (fun _ => True)
    (solvable : Action (DenseFactorization α) DenseOrder) := by
  unfold solvable
  refine Steady.get_bind (fun _ => rfl) fun d => ?_
  split
  · exact Steady.ite (Steady.fail trivial) fun _ => Steady.pure _
  · exact Steady.fail trivial

/-- A solution put into a vector, after the operations have been counted. -/
def conclude (v : SparseVector α) (solution : Progress α) :
    Action (DenseFactorization α) (SparseVector α × Nat) := do
  modify fun d => { d with solveFlops := d.solveFlops + solution.2 }
  (← get).finish v solution.1

theorem conclude_steady (v : SparseVector α) (solution : Progress α) :
    Steady (noted records) region F (conclude v solution) :=
  Steady.bind (Steady.modify (fun _ => rfl) fun _ => rfl) fun _ =>
    Steady.get_bind (fun _ => rfl) fun _ => Steady.lift _

theorem ftran_eq (v : SparseVector α) : ftran v = (solvable >>= fun order => do
    let solution ← ((← get).solution order v : Checked (Progress α))
    conclude v solution) := rfl

theorem btran_eq (v : SparseVector α) : btran v = (solvable >>= fun order => do
    let solution ← ((← get).transposedSolution order v : Checked (Progress α))
    conclude v solution) := rfl

theorem ftran_steady (v : SparseVector α) :
    Steady (noted records) region (fun _ => True) (ftran v) := by
  rw [ftran_eq]
  exact solvable_steady.bind fun order => Steady.get_bind (fun _ => rfl) fun d =>
    (Steady.lift _).bind fun solution => conclude_steady v solution

theorem btran_steady (v : SparseVector α) :
    Steady (noted records) region (fun _ => True) (btran v) := by
  rw [btran_eq]
  exact solvable_steady.bind fun order => Steady.get_bind (fun _ => rfl) fun d =>
    (Steady.lift _).bind fun solution => conclude_steady v solution

theorem allocate_after (n : Nat) (d : DenseFactorization α) :
    EndsOr (fun _ => True) (fun _ t => t.loaded = false ∧ t.valid = false) (fun _ _ => False)
      (allocate n d) := by
  unfold allocate
  rw [get_bind]
  exact EndsOr.checkCapacity (fun _ => trivial) fun _ => ⟨rfl, rfl⟩

theorem load_after (b : BasisMatrix α) (d : DenseFactorization α) :
    EndsOr (fun _ => True) (fun _ t => t.loaded = true ∧ t.valid = false) (fun _ _ => False)
      (load b d) := by
  have rest : ∀ t : DenseFactorization α, EndsOr (fun _ => True)
      (fun _ t => t.loaded = true ∧ t.valid = false) (fun _ _ => False) ((do
        let elements ← writeColumns b (← get).elements
        modify fun d => { d with
          elements := elements
          etaRows := #[]
          etaInverses := #[]
          order := none
          loaded := true
          valid := false } : Action (DenseFactorization α) Unit) t) := by
    intro t
    rw [get_bind]
    cases writeColumns b t.elements with
    | ok elements => exact ⟨rfl, rfl⟩
    | error e => trivial
  unfold load
  rw [get_bind]
  dsimp only
  split
  · exact ((allocate_after _ d).mono (fun _ => id) (fun _ _ _ => trivial) fun _ _ => id).bind
      (R := fun _ _ => True) fun _ t _ => rest t
  · exact rest d

theorem factor_of_unloaded (loaded : d.loaded = false) :
    factor context d = .error (.status .invalidCall) d := by
  unfold factor
  rw [get_bind, loaded]
  rfl

theorem rank_run_le (m lead : Nat) (tolerance : α) (remaining : Nat) (e : Dense.Elimination α) :
    (Dense.Elimination.run m lead tolerance remaining e).rank ≤ e.rank + remaining := by
  induction remaining generalizing e with
  | zero => exact Nat.le_refl _
  | succ remaining ih =>
    unfold Dense.Elimination.run
    dsimp only
    split
    · refine (ih _).trans ?_
      have same : (e.postpone m lead (e.rank + remaining)).rank = e.rank := by
        unfold Dense.Elimination.postpone
        split
        split <;> rfl
      omega
    · exact (ih _).trans (by simp only [Dense.Elimination.stage]; omega)

theorem factor_loaded_ends (loaded : d.loaded = true) :
    Ends (fun _ t => t.loaded = false ∧ t.valid = true ∧ t.order.isSome = true)
      (fun e t => e = .singular ∧ t.loaded = false ∧ t.valid = false) (factor context d) := by
  have bound : (Dense.eliminate d.elements d.dimension d.dimension d.options.zeroTolerance).rank ≤
      0 + d.dimension := rank_run_le _ _ _ _ _
  unfold factor
  rw [get_bind, loaded]
  simp only [Bool.not_true, Bool.false_eq_true, if_false]
  rw [modify_bind, get_bind, modify_bind, get_bind]
  dsimp only
  generalize run : Dense.eliminate d.elements d.dimension d.dimension d.options.zeroTolerance = e
  rw [run, Nat.zero_add] at bound
  rw [bind_of_ok (show log _ _ _ = .ok () _ from rfl)]
  by_cases short : e.rank < d.dimension
  · rw [if_pos (by exact short), bind_of_ok (show log _ _ _ = .ok () _ from rfl)]
    exact ⟨rfl, rfl, beq_eq_false_iff_ne.mpr (Nat.ne_of_lt short)⟩
  · rw [if_neg (by exact short)]
    exact ⟨rfl, beq_iff_eq.mpr (Nat.le_antisymm bound (Nat.le_of_not_lt short)), rfl⟩

theorem factor_invalidCall_iff :
    (∃ t, factor context d = .error (.status .invalidCall) t) ↔ d.loaded = false := by
  refine ⟨fun ⟨t, run⟩ => ?_, fun loaded => ⟨d, factor_of_unloaded loaded⟩⟩
  rw [Bool.eq_false_iff]
  intro loaded
  exact absurd ((factor_loaded_ends loaded).failure run).1 (by simp)

theorem solvable_run (valid : d.valid = true) {order : DenseOrder} (ordered : d.order = some order) :
    solvable d = .ok order d := by
  unfold solvable
  rw [get_bind, ordered]
  exact congrFun (if_pos valid) d

theorem ftran_ends (valid : d.valid = true) (ordered : d.order.isSome = true) (v : SparseVector α) :
    EndsOr (fun _ => True) (fun _ t => t.region = d.region) (fun _ _ => False) (ftran v d) := by
  obtain ⟨order, ordered⟩ := Option.isSome_iff_exists.mp ordered
  rw [ftran_eq, bind_of_ok (solvable_run valid ordered), get_bind]
  have rest : Steady (noted #[]) region (fun _ => False) (do
      let solution ← (d.solution order v : Checked (Progress α))
      conclude v solution) := (Steady.lift _).bind fun solution => conclude_steady v solution
  exact (rest.ends d).mono (fun _ => id) (fun _ _ => id) fun _ _ => And.left

theorem btran_ends (valid : d.valid = true) (ordered : d.order.isSome = true) (v : SparseVector α) :
    EndsOr (fun _ => True) (fun _ t => t.region = d.region) (fun _ _ => False) (btran v d) := by
  obtain ⟨order, ordered⟩ := Option.isSome_iff_exists.mp ordered
  rw [btran_eq, bind_of_ok (solvable_run valid ordered), get_bind]
  have rest : Steady (noted #[]) region (fun _ => False) (do
      let solution ← (d.transposedSolution order v : Checked (Progress α))
      conclude v solution) := (Steady.lift _).bind fun solution => conclude_steady v solution
  exact (rest.ends d).mono (fun _ => id) (fun _ _ => id) fun _ _ => And.left

theorem replaceColumn_ends (valid : d.valid = true) (ordered : d.order.isSome = true)
    (column : SparseVector α) (row : Nat) (pivot : α) :
    EndsOr (fun _ => True) (fun _ t => t.region = d.region)
      (fun e t => (e = .updateRegionFull ∨ e = .singularUpdate) ∧
        ∃ records, t = { d with journal := d.journal ++ records })
      (replaceColumn column row pivot d) := by
  obtain ⟨order, ordered⟩ := Option.isSome_iff_exists.mp ordered
  unfold replaceColumn
  rw [bind_of_ok (solvable_run valid ordered), get_bind]
  by_cases full : d.maxPivots ≤ d.pivots
  · rw [if_pos full]
    exact ⟨.inl rfl, #[], by simp⟩
  · rw [if_neg full]
    by_cases small : Scalar.abs pivot < d.options.zeroTolerance
    · rw [if_pos small]
      exact ⟨.inr rfl, #[⟨.warn, d.logTarget, "column replacement rejected"⟩], by simp⟩
    · rw [if_neg small]
      dsimp only
      cases d.writeEta d.pivots column row (1 / pivot) with
      | ok elements => exact rfl
      | error b => trivial

/-- A replacement is refused for want of space when the etas are as many as allowed. -/
theorem replaceColumn_full_iff (valid : d.valid = true) (ordered : d.order.isSome = true)
    (column : SparseVector α) (row : Nat) (pivot : α) :
    (∃ t, replaceColumn column row pivot d = .error (.status .updateRegionFull) t) ↔
      d.maxPivots ≤ d.pivots := by
  obtain ⟨order, ordered⟩ := Option.isSome_iff_exists.mp ordered
  unfold replaceColumn
  rw [bind_of_ok (solvable_run valid ordered), get_bind]
  split
  · exact ⟨fun _ => ‹_›, fun _ => ⟨_, rfl⟩⟩
  · rename_i room
    refine ⟨fun ⟨t, run⟩ => ?_, fun full => absurd full room⟩
    split at run
    · exact nomatch run
    · dsimp only at run
      cases written : d.writeEta d.pivots column row (1 / pivot) with
      | ok elements =>
        rw [written] at run
        exact nomatch run
      | error b =>
        rw [written] at run
        exact nomatch run

/-! ### What decides about solves and replacements -/

/-- What decides about solves and replacements. -/
def holding (d : DenseFactorization α) :
    Options α × Nat × Nat × Array α × Option DenseOrder × Array Nat × Array α × Bool × Bool :=
  (d.options, d.dimension, d.maxPivots, d.elements, d.order, d.etaRows, d.etaInverses, d.loaded,
    d.valid)

theorem zeroTolerance_of_holding (same : t.holding = d.holding) :
    t.options.zeroTolerance = d.options.zeroTolerance := congrArg (·.1.zeroTolerance) same

theorem holding_of_conclude {v : SparseVector α} {solution : Progress α} {x : SparseVector α × Nat}
    (run : conclude v solution d = .ok x t) : t.holding = d.holding := by
  unfold conclude at run
  rw [modify_bind, get_bind] at run
  cases finished : ({ d with solveFlops := d.solveFlops + solution.2 } : DenseFactorization α).finish
      v solution.1 with
  | error b =>
    rw [finished] at run
    exact nomatch run
  | ok y =>
    rw [finished] at run
    cases run
    rfl

theorem holding_of_ftran (valid : d.valid = true) (ordered : d.order.isSome = true)
    {v : SparseVector α} {x : SparseVector α × Nat} (run : ftran v d = .ok x t) : t.holding = d.holding := by
  obtain ⟨order, ordered⟩ := Option.isSome_iff_exists.mp ordered
  rw [ftran_eq, bind_of_ok (solvable_run valid ordered), get_bind] at run
  obtain ⟨solution, -, run⟩ := ok_of_lift_bind run
  exact holding_of_conclude run

theorem holding_of_btran (valid : d.valid = true) (ordered : d.order.isSome = true)
    {v : SparseVector α} {x : SparseVector α × Nat} (run : btran v d = .ok x t) : t.holding = d.holding := by
  obtain ⟨order, ordered⟩ := Option.isSome_iff_exists.mp ordered
  rw [btran_eq, bind_of_ok (solvable_run valid ordered), get_bind] at run
  obtain ⟨solution, -, run⟩ := ok_of_lift_bind run
  exact holding_of_conclude run

theorem ftran_holding (valid : d.valid = true) (ordered : d.order.isSome = true) (v : SparseVector α) :
    EndsOr (fun _ => True) (fun _ t => t.holding = d.holding) (fun _ _ => False) (ftran v d) :=
  (ftran_ends valid ordered v).noted.mono (fun _ => id)
    (fun _ _ ends => holding_of_ftran valid ordered ends.1) fun _ _ => And.right

theorem btran_holding (valid : d.valid = true) (ordered : d.order.isSome = true) (v : SparseVector α) :
    EndsOr (fun _ => True) (fun _ t => t.holding = d.holding) (fun _ _ => False) (btran v d) :=
  (btran_ends valid ordered v).noted.mono (fun _ => id)
    (fun _ _ ends => holding_of_btran valid ordered ends.1) fun _ _ => And.right

theorem replaceColumn_result (valid : d.valid = true) (ordered : d.order.isSome = true)
    {column : SparseVector α} {row : Nat} {pivot : α} (run : replaceColumn column row pivot d = .ok () t) :
    ¬d.maxPivots ≤ d.pivots ∧ ∃ elements,
      d.writeEta d.pivots column row (1 / pivot) = .ok elements ∧
      t = { d with
        elements := elements
        etaRows := d.etaRows.push row
        etaInverses := d.etaInverses.push (1 / pivot) } := by
  obtain ⟨order, ordered⟩ := Option.isSome_iff_exists.mp ordered
  unfold replaceColumn at run
  rw [bind_of_ok (solvable_run valid ordered), get_bind] at run
  split at run
  · exact nomatch run
  · rename_i room
    split at run
    · exact nomatch run
    · obtain ⟨elements, written, run⟩ := ok_of_lift_bind run
      cases run
      exact ⟨room, elements, written, rfl⟩

end SimplexBasis.DenseFactorization
