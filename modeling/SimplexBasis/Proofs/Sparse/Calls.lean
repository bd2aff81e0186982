import SimplexBasis.Engine
import SimplexBasis.Proofs.Sparse.Factorizing
import SimplexBasis.Proofs.Sparse.Steadiness

/-!
# Calls of the sparse factorization

What the calls of a caller leave behind, whatever state they meet: the phase, the pending status and
the update region. None of them reads the journal.
-/

set_option linter.unusedSectionVars false

namespace SimplexBasis.SparseFactorization

variable {α β : Type} [Scalar α] {records : Array Record} {F : Status → Prop}

variable {s t : SparseFactorization α} {context : Context α} {status : Status}

/-! ### What solves leave -/

/-- All but the workspace, the counters and the journal. -/
def lasting (s : SparseFactorization α) : SparseFactorization α :=
  { s with workspace := .blank 0, counters := .zero, journal := #[] }

theorem factors_of_lasting (h : t.lasting = s.lasting) : t.factors = s.factors :=
  congrArg (·.factors) h

theorem dimension_of_lasting (h : t.lasting = s.lasting) : t.dimension = s.dimension :=
  congrArg (·.dimension) h

theorem etas_of_lasting (h : t.lasting = s.lasting) : t.etas = s.etas :=
  congrArg (·.etas) h

theorem options_of_lasting (h : t.lasting = s.lasting) : t.options = s.options :=
  congrArg (·.options) h

/-! ### The update region -/

/-- The phase, and what decides how many replacements may follow. -/
def region (s : SparseFactorization α) : Options α × Capacity × Etas α × Phase × Option Status :=
  (s.options, s.capacity, s.etas, s.phase, s.pending)

/-- The phase and the update region, with the dimension. -/
def extent (s : SparseFactorization α) :
    (Options α × Capacity × Etas α × Phase × Option Status) × Nat := (s.region, s.dimension)

theorem region_of_lasting (h : t.lasting = s.lasting) : t.region = s.region :=
  (congrArg region h : region t.lasting = region s.lasting)

theorem region_of_outline (h : t.outline = s.outline) :
    t.region = s.region :=
  (congrArg region h : region t.outline = region s.outline)

/-- The update region holds what it may. -/
structure Bounded (s : SparseFactorization α) : Prop where
  pivots : s.pivots ≤ s.options.maxPivotsBeforeRefactor
  entries : s.etas.lines.count ≤ s.capacity.etas

theorem Bounded.of_region (h : s.Bounded) (options : t.options = s.options)
    (capacity : t.capacity = s.capacity) (etas : t.etas = s.etas) : t.Bounded := by
  constructor
  · rw [SparseFactorization.pivots, etas, options]
    exact h.pivots
  · rw [etas, capacity]
    exact h.entries

/-! ### Factorizing -/

/-- How a factorization concludes. -/
def conclude (outcome : Except Stop Unit) : Action (SparseFactorization α) Unit := do
  modify fun s => { s with factorCount := s.factorCount + 1 }
  let stage := (← get).rank
  match outcome with
  | .ok () =>
    log .debug (← get).summary
    modify fun s => { s with phase := .factorized }
  | .error (.status .singular) =>
    let m := (← get).dimension
    log .warn s!"basis singular, rank {stage} of {m}"
    Action.fail .singular
  | .error (.status status) =>
    let reason := status.message
    log .warn s!"factorization failed at stage {stage}: {reason}"
    Action.fail status
  | .error e => throw e

theorem factor_of_pending (pending : s.pending = some status) :
    factor context s = .error (.status status) { s with
      logTarget := context.target
      pending := none
      phase := .idle
      journal := s.journal.push ⟨.warn, context.target,
        s!"factorization needs larger areas: {status.message}"⟩ } := by
  unfold factor
  rw [modify_bind, get_bind]
  simp only [pending]
  rfl

theorem factor_of_unloaded (pending : s.pending = none) (phase : s.phase ≠ .loaded) :
    factor context s = .error (.status .invalidCall) { s with logTarget := context.target } := by
  unfold factor
  rw [modify_bind, get_bind]
  simp only [pending, get_bind]
  rw [if_pos phase]
  rfl

theorem factor_of_loaded (pending : s.pending = none) (phase : s.phase = .loaded) :
    factor context s = (Action.attempt factorizeLoaded >>= conclude) (s.begun context) := by
  unfold factor
  rw [modify_bind, get_bind, pending]
  dsimp only
  rw [get_bind, if_neg (not_not_intro phase), modify_bind]
  rfl

theorem conclude_steady (outcome : Except Stop Unit) :
    Steady (noted records) (fun _ => ()) (fun _ => True)
      (conclude outcome : Action (SparseFactorization α) Unit) := by
  unfold conclude
  refine Steady.bind (Steady.modify (fun _ => rfl) fun _ => rfl) fun _ =>
    Steady.get_bind (fun _ => rfl) fun s => ?_
  dsimp only
  split
  · exact Steady.get_bind (fun _ => rfl) fun s => (log_steady _ _ fun _ _ => rfl).bind fun _ =>
      Steady.modify (fun _ => rfl) fun _ => rfl
  · exact Steady.get_bind (fun _ => rfl) fun s => (log_steady _ _ fun _ _ => rfl).bind fun _ =>
      Steady.fail trivial
  · exact (log_steady _ _ fun _ _ => rfl).bind fun _ => Steady.fail trivial
  · exact Steady.throw_stop fun _ _ => trivial

theorem conclude_ends (outcome : Except Stop Unit) (s : SparseFactorization α) :
    EndsOr (fun b => outcome = .error (.breach b))
      (fun _ t => outcome = .ok () ∧ t.found = s.found ∧
        t.region = (s.options, s.capacity, s.etas, Phase.factorized, s.pending))
      (fun e t => outcome = .error (.status e) ∧ t.found = s.found ∧ t.region = s.region)
      (conclude outcome s) := by
  rcases outcome with (status | b) | _
  · cases status <;> exact ⟨rfl, rfl, rfl⟩
  · rfl
  · exact ⟨rfl, rfl, rfl⟩

/-- What a search comes to is not changed by its conclusion, which counts the factorization, writes
into the journal and, after a success, changes the phase. -/
theorem Ends.conclude {act : Action (SparseFactorization α) Unit}
    {Q Q' : Unit → SparseFactorization α → Prop} {E E' : Status → SparseFactorization α → Prop}
    (h : Ends Q E (act s))
    (ok : ∀ t xs, Q () t → Q' () { t with
      factorCount := t.factorCount + 1, phase := .factorized, journal := xs })
    (fails : ∀ e t xs, E e t → E' e { t with factorCount := t.factorCount + 1, journal := xs }) :
    Ends Q' E' ((Action.attempt act >>= SparseFactorization.conclude) s) := by
  refine (h.attempt.mono (fun _ _ => id) fun _ _ => False.elim).bind ?_
  rintro outcome t (⟨_, rfl, reached⟩ | ⟨e, rfl, reached⟩)
  · exact ok t _ reached
  · cases e <;> exact fails _ t _ reached

theorem factor_loaded_ends (pending : s.pending = none) (phase : s.phase = .loaded) :
    EndsOr (fun _ => True)
      (fun _ t => t.region = (s.options, s.capacity, s.etas, Phase.factorized, none))
      (fun e t => (e = .outOfMemory ∨ e = .singular) ∧
        t.region = (s.options, s.capacity, s.etas, Phase.idle, none)) (factor context s) := by
  rw [factor_of_loaded pending phase]
  have search := (@factorizeLoaded_outlined α _ #[]).ends (s.begun context)
  have attempted : EndsOr (fun _ => True) (fun outcome t =>
      (∀ e, outcome = .error (.status e) → e = .outOfMemory ∨ e = .singular) ∧
        t.outline = (s.begun context).outline ∨ ∃ b, outcome = .error (.breach b)) (fun _ _ => False)
      (Action.attempt factorizeLoaded (s.begun context)) := by
    unfold Action.attempt
    revert search
    rcases factorizeLoaded (s.begun context) with ⟨_, t⟩ | ⟨e | b, t⟩
    · exact fun same => .inl ⟨by simp, same⟩
    · exact fun ⟨allowed, same⟩ => .inl ⟨by simpa using allowed, same⟩
    · exact fun _ => .inr ⟨b, rfl⟩
  refine EndsOr.bind (attempted.mono (fun _ => id) (fun _ _ => id) fun _ _ => False.elim) ?_
  rintro outcome t (⟨allowed, same⟩ | ⟨b, rfl⟩)
  · have region : t.region = (s.options, s.capacity, s.etas, Phase.idle, none) :=
      region_of_outline same
    simp only [SparseFactorization.region, Prod.mk.injEq] at region
    obtain ⟨options, capacity, etas, phase, pending⟩ := region
    refine (conclude_ends outcome t).mono (fun _ _ => trivial) ?_ ?_
    · rintro _ u ⟨-, -, same⟩
      rw [same, options, capacity, etas, pending]
    · rintro e u ⟨failed, -, same⟩
      refine ⟨allowed e failed, ?_⟩
      rw [same, SparseFactorization.region, options, capacity, etas, phase, pending]
  · trivial

theorem pending_of_factor (run : factor context s = .ok () t) : t.pending = none := by
  cases pending : s.pending with
  | some status =>
    rw [factor_of_pending pending] at run
    exact nomatch run
  | none =>
    by_cases phase : s.phase = .loaded
    · exact congrArg (·.2.2.2.2) ((factor_loaded_ends pending phase).result run)
    · rw [factor_of_unloaded pending phase] at run
      exact nomatch run

theorem factor_invalidCall_iff (pending : s.pending ≠ some .invalidCall) :
    (∃ t, factor context s = .error (.status .invalidCall) t) ↔
      s.pending = none ∧ s.phase ≠ .loaded := by
  refine ⟨fun ⟨t, run⟩ => ?_, fun ⟨none_, phase⟩ => ⟨_, factor_of_unloaded none_ phase⟩⟩
  rcases kept : s.pending with _ | status
  · refine ⟨rfl, fun phase => ?_⟩
    exact absurd ((factor_loaded_ends kept phase).failure run).1 (by simp)
  · rw [factor_of_pending kept] at run
    cases run
    exact absurd kept pending

/-! ### Loading -/

theorem resize_after (m : Nat) (s : SparseFactorization α) :
    EndsOr (fun _ => True) (fun _ t => t.region = s.region) (fun _ _ => False) (resize m s) := by
  unfold resize
  exact EndsOr.checkCapacity (fun _ => trivial) fun _ => rfl

theorem allocate_after (n lowerHint upperHint : Nat) (s : SparseFactorization α) :
    EndsOr (fun _ => True)
      (fun _ t => t.region = (s.options, s.capacity, s.etas, Phase.idle, s.pending))
      (fun _ _ => False) (allocate n lowerHint upperHint s) := by
  unfold allocate
  refine (resize_after n s).bind fun _ t same => ?_
  simp only [region, Prod.mk.injEq] at same
  obtain ⟨options, capacity, etas, -, pending⟩ := same
  rw [modify_run]
  simp only [EndsOr, region, options, capacity, etas, pending]

theorem prepare_after (m count : Nat) (s : SparseFactorization α) :
    EndsOr (fun _ => True)
      (fun _ t => t.options = s.options ∧ t.etas = .empty ∧ t.phase = .loaded ∧ t.pending = none ∧
        t.counters.relaxed = 0) (fun _ _ => False) (prepare m count s) := by
  have rest : ∀ t : SparseFactorization α, t.options = s.options →
      EndsOr (fun _ => True)
        (fun _ u => u.options = s.options ∧ u.etas = .empty ∧ u.phase = .loaded ∧ u.pending = none ∧
          u.counters.relaxed = 0) (fun _ _ => False) ((do
          let capacity := (← get).capacityFor m count
          checkCapacity capacity.lower
          checkCapacity (2 * capacity.files)
          modify fun s => { s with
            capacity := capacity
            active := { s.active with
              cols := .blank m capacity.files (0, 0)
              rows := .blank m capacity.files 0
              colCounts := .blank m (m + 2)
              rowCounts := .blank m (m + 2) }
            factors := .blank m
            etas := .empty
            phase := .loaded
            pending := none
            sparseThreshold := 0
            counters := { Counters.zero with basisCount := count } } :
              Action (SparseFactorization α) Unit) t) := fun t options =>
    EndsOr.checkCapacity (fun _ => trivial) fun _ => EndsOr.checkCapacity (fun _ => trivial) fun _ =>
      ⟨options, rfl, rfl, rfl, rfl⟩
  unfold prepare
  rw [get_bind]
  split
  · refine (resize_after m s).bind fun _ t same => rest t ?_
    exact congrArg Prod.fst same
  · exact rest s rfl

theorem orPending_after {act : Action (SparseFactorization α) Unit} (h : Strict #[] act)
    (s : SparseFactorization α) :
    EndsOr (fun _ => True)
      (fun _ t => t.options = s.options ∧ t.etas = s.etas ∧ t.phase = s.phase ∧
        (t.pending = s.pending ∨ t.pending = some .outOfMemory) ∧
        t.counters.relaxed = s.counters.relaxed)
      (fun _ _ => False) (orPending act s) := by
  have ends := h.ends s
  unfold orPending
  change EndsOr _ _ _ (EStateM.bind _ _ s)
  unfold EStateM.bind Action.attempt
  revert ends
  rcases act s with ⟨_, t⟩ | ⟨e | b, t⟩
  · intro same
    exact ⟨congrArg (·.options) same, congrArg (·.etas) same, congrArg (·.phase) same,
      .inl (congrArg (·.pending) same), congrArg (·.counters.relaxed) same⟩
  · rintro ⟨rfl, same⟩
    exact ⟨congrArg (·.options) same, congrArg (·.etas) same, congrArg (·.phase) same, .inr rfl,
      congrArg (·.counters.relaxed) same⟩
  · exact id

/-- A basis is loaded, or its want of space is pending. No relaxed pivot is counted any more. -/
theorem load_after (b : BasisMatrix α) (s : SparseFactorization α) :
    EndsOr (fun _ => True)
      (fun _ t => t.options = s.options ∧ t.etas = .empty ∧ t.phase = .loaded ∧
        (t.pending = none ∨ t.pending = some .outOfMemory) ∧ t.counters.relaxed = 0)
      (fun _ _ => False) (load b s) := by
  unfold load
  refine (prepare_after _ _ s).bind ?_
  rintro _ t ⟨options, etas, phase, pending, relaxed⟩
  rw [get_bind]
  dsimp only
  split
  · exact ⟨options, etas, phase, .inr rfl, relaxed⟩
  · refine (orPending_after (fillFiles_strict b) t).bind ?_
    rintro filled u ⟨options', etas', phase', pending', relaxed'⟩
    rw [pending] at pending'
    split
    · refine (orPending_after pivotSlacks_strict u).bind ?_
      rintro _ w ⟨options'', etas'', phase'', pending'', relaxed''⟩
      refine ⟨options''.trans (options'.trans options), etas''.trans (etas'.trans etas),
        phase''.trans (phase'.trans phase), ?_, relaxed''.trans (relaxed'.trans relaxed)⟩
      rcases pending'' with same | full
      · rw [same]
        exact pending'
      · exact .inr full
    · exact ⟨options'.trans options, etas'.trans etas, phase'.trans phase, pending',
        relaxed'.trans relaxed⟩

theorem setAreaFactor_result {x : α} (run : setAreaFactor x s = .ok () t) :
    t = { s with areaFactor := x } := by
  unfold setAreaFactor at run
  obtain ⟨_, u, required, run⟩ := ok_of_bind run
  cases run
  unfold Action.require at required
  split at required
  · cases required
    rfl
  · exact nomatch required

/-! ### Positions, solves and replacements -/

theorem buildTransposes_steady : Steady (noted records) extent F
    (buildTransposes : Action (SparseFactorization α) Unit) := by
  unfold buildTransposes
  refine Steady.get_bind (fun _ => rfl) fun s => ?_
  split
  · exact Steady.pure _
  · exact (Steady.lift _).bind fun factors =>
      Steady.bind (Steady.modify (fun _ => rfl) fun _ => rfl) fun _ =>
      Steady.bind (Steady.modify (fun _ => rfl) fun _ => rfl) fun _ =>
      log_steady _ _ fun _ _ => rfl

theorem assign_steady (sequence heading : Array Nat) : Steady (noted records) extent F
    (assign sequence heading : Action (SparseFactorization α) (Array Nat)) := by
  unfold assign
  refine Steady.get_bind (fun _ => rfl) fun s => ?_
  dsimp only
  exact (Steady.foldlM fun vs k => (Steady.lift _).bind fun _ => (Steady.lift _).bind fun _ =>
    (Steady.lift _).bind fun _ => Steady.lift _).bind fun heading =>
    buildTransposes_steady.bind fun _ => Steady.pure _

theorem solveFactors_steady (transposes : Option (Transposes α)) (v : SparseVector α)
    (onReach : Factors α → Transposes α → SparseVector α → Workspace α → Checked (Solved α))
    (byPasses : Factors α → Nat → SparseVector α → Workspace α → Checked (Solved α)) :
    Steady (noted records) lasting F (solveFactors transposes v onReach byPasses) := by
  unfold solveFactors
  exact Steady.get_bind (fun _ => rfl) fun s => (Steady.lift _).bind fun solved =>
    Steady.bind (Steady.modify (fun _ => rfl) fun _ => rfl) fun _ =>
    Steady.bind (Steady.modify (fun _ => rfl) fun _ => rfl) fun _ => Steady.pure _

theorem countEtaFlops_steady (flops : Nat) : Steady (noted records) lasting F
    (countEtaFlops flops : Action (SparseFactorization α) Unit) :=
  Steady.modify (fun _ => rfl) fun _ => rfl

theorem finish_steady (v : SparseVector α) (packed : Bool) :
    Steady (noted records) lasting F (finish v packed) := by
  unfold finish
  refine Steady.get_bind (fun _ => rfl) fun s => ?_
  dsimp only
  split
  · exact (Steady.lift _).bind fun _ => Steady.pure _
  · exact (Steady.pure (v.clean s.options.zeroTolerance)).bind fun _ => Steady.pure _

def ftranChecked (v : SparseVector α) :
    Action (SparseFactorization α) (SparseVector α × Nat) := do
  let packed := v.packed
  let v := v.unpack
  let transposes := (← get).transposesFor v.count
  let v ← solveFactors transposes v Factors.ftranSparse Factors.ftranDense
  let etas := (← get).etas
  let (v, flops) ← ((List.range etas.rows.size).foldlM etas.apply (v, 0) : Checked _)
  countEtaFlops flops
  finish v packed

def btranChecked (v : SparseVector α) :
    Action (SparseFactorization α) (SparseVector α × Nat) := do
  let packed := v.packed
  let etas := (← get).etas
  let (v, flops) ←
    ((List.range etas.rows.size).reverse.foldlM etas.applyTranspose (v.unpack, 0) : Checked _)
  countEtaFlops flops
  let v := { v with indices := v.indices.filter fun i => v.elements.getD i 0 != 0 }
  let transposes := (← get).transposesFor v.count
  let v ← solveFactors transposes v Factors.btranSparse Factors.btranDense
  finish v packed

theorem ftran_eq (v : SparseVector α) :
    ftran v = (checkSolvable v >>= fun _ => ftranChecked v) := rfl

theorem btran_eq (v : SparseVector α) :
    btran v = (checkSolvable v >>= fun _ => btranChecked v) := rfl

theorem ftranChecked_steady (v : SparseVector α) :
    Steady (noted records) lasting F (ftranChecked v) := by
  unfold ftranChecked
  exact Steady.get_bind (fun _ => rfl) fun s => (solveFactors_steady _ _ _ _).bind fun v =>
    Steady.get_bind (fun _ => rfl) fun s => (Steady.lift _).bind fun _ =>
    (countEtaFlops_steady _).bind fun _ => finish_steady _ _

theorem btranChecked_steady (v : SparseVector α) :
    Steady (noted records) lasting F (btranChecked v) := by
  unfold btranChecked
  exact Steady.get_bind (fun _ => rfl) fun s => (Steady.lift _).bind fun _ =>
    (countEtaFlops_steady _).bind fun _ => Steady.get_bind (fun _ => rfl) fun s =>
    (solveFactors_steady _ _ _ _).bind fun v => finish_steady _ _

theorem checkSolvable_steady (v : SparseVector α) :
    Steady (noted records) lasting (fun _ => True) (checkSolvable v) := by
  unfold checkSolvable
  refine Steady.get_bind (fun _ => rfl) fun s => ?_
  dsimp only
  refine Steady.ite ?_ fun rest => (Steady.fail trivial).bind fun _ => rest
  exact Steady.ite (Steady.require _ _) fun rest => (Steady.fail trivial).bind fun _ => rest

theorem ftran_steady (v : SparseVector α) :
    Steady (noted records) lasting (fun _ => True) (ftran v) :=
  (checkSolvable_steady v).bind fun _ => ftranChecked_steady v

theorem btran_steady (v : SparseVector α) :
    Steady (noted records) lasting (fun _ => True) (btran v) :=
  (checkSolvable_steady v).bind fun _ => btranChecked_steady v

theorem Bounded.checkSolvable (h : s.Bounded) (phase : s.phase = .factorized) (v : SparseVector α) :
    checkSolvable v s = Action.require (v.dimension == s.dimension) .lengthMismatch s := by
  unfold SparseFactorization.checkSolvable
  rw [get_bind, if_neg (not_not_intro phase), if_neg]
  rintro (full | full)
  · exact absurd h.pivots (Nat.not_le.mpr full)
  · exact absurd h.entries (Nat.not_le.mpr full)

theorem Bounded.ftran_ends (h : s.Bounded) (phase : s.phase = .factorized) (v : SparseVector α) :
    EndsOr (fun _ => True) (fun _ t => t.region = s.region) (fun _ _ => False) (ftran v s) := by
  rw [ftran_eq]
  refine EndsOr.bind (R := fun _ t => t = s) ?_ ?_
  · rw [h.checkSolvable phase]
    unfold Action.require
    split
    · exact rfl
    · trivial
  · rintro _ _ rfl
    exact ((@ftranChecked_steady _ _ #[] (fun _ => False) v).ends _).mono (fun _ => id)
      (fun _ _ => region_of_lasting) fun _ _ => And.left

theorem Bounded.btran_ends (h : s.Bounded) (phase : s.phase = .factorized) (v : SparseVector α) :
    EndsOr (fun _ => True) (fun _ t => t.region = s.region) (fun _ _ => False) (btran v s) := by
  rw [btran_eq]
  refine EndsOr.bind (R := fun _ t => t = s) ?_ ?_
  · rw [h.checkSolvable phase]
    unfold Action.require
    split
    · exact rfl
    · trivial
  · rintro _ _ rfl
    exact ((@btranChecked_steady _ _ #[] (fun _ => False) v).ends _).mono (fun _ => id)
      (fun _ _ => region_of_lasting) fun _ _ => And.left

def replaced (s : SparseFactorization α) (column : SparseVector α) (row : Nat) (pivot : α) :
    SparseFactorization α :=
  { s with etas := {
      lines := s.etas.lines.pushLine
        ((etaEntries column row).map fun (i, x) => (i, x * (1 / pivot)))
      rows := s.etas.rows.push row
      inverses := s.etas.inverses.push (1 / pivot) } }

theorem replaceColumn_run (phase : s.phase = .factorized) {row : Nat} (inside : row < s.dimension)
    (column : SparseVector α) (pivot : α) :
    (∃ record, replaceColumn column row pivot s =
      .error (.status .updateRegionFull) { s with journal := s.journal.push record }) ∨
    (∃ record, replaceColumn column row pivot s =
      .error (.status .singularUpdate) { s with journal := s.journal.push record }) ∨
    s.pivots < s.options.maxPivotsBeforeRefactor ∧
      s.etas.lines.count + (etaEntries column row).length ≤ s.capacity.etas ∧
      ¬Scalar.abs pivot < s.options.zeroTolerance ∧
      replaceColumn column row pivot s = .ok () (s.replaced column row pivot) := by
  unfold replaceColumn
  rw [get_bind, if_neg (not_not_intro phase)]
  dsimp only
  rw [decide_eq_true inside, require_true_bind]
  by_cases full : s.options.maxPivotsBeforeRefactor ≤ s.pivots ∨
      s.capacity.etas < s.etas.lines.count + (etaEntries column row).length
  · rw [if_pos full]
    exact .inl ⟨_, rfl⟩
  · rw [if_neg full]
    rw [not_or, Nat.not_le, Nat.not_lt] at full
    by_cases small : Scalar.abs pivot < s.options.zeroTolerance
    · rw [if_pos small]
      exact .inr (.inl ⟨_, rfl⟩)
    · rw [if_neg small]
      exact .inr (.inr ⟨full.1, full.2, small, rfl⟩)

/-- A replacement is refused for want of space when the etas are as many as allowed, or when their
entries do not fit. -/
theorem replaceColumn_full_iff (phase : s.phase = .factorized) {row : Nat}
    (inside : row < s.dimension) (column : SparseVector α) (pivot : α) :
    (∃ t, replaceColumn column row pivot s = .error (.status .updateRegionFull) t) ↔
      s.options.maxPivotsBeforeRefactor ≤ s.pivots ∨
        s.capacity.etas < s.etas.lines.count + (etaEntries column row).length := by
  unfold replaceColumn
  rw [get_bind, if_neg (not_not_intro phase)]
  dsimp only
  rw [decide_eq_true inside, require_true_bind]
  split
  · exact ⟨fun _ => ‹_›, fun _ => ⟨_, rfl⟩⟩
  · rename_i room
    refine ⟨fun ⟨t, run⟩ => ?_, fun full => absurd full room⟩
    split at run <;> exact nomatch run

theorem replaceColumn_outside (phase : s.phase = .factorized) {row : Nat}
    (outside : ¬row < s.dimension) (column : SparseVector α) (pivot : α) :
    replaceColumn column row pivot s = .error (.breach .indexOutOfRange) s := by
  unfold replaceColumn
  rw [get_bind, if_neg (not_not_intro phase)]
  dsimp only
  rw [decide_eq_false outside]
  rfl

theorem replaceColumn_result (phase : s.phase = .factorized) {column : SparseVector α} {row : Nat}
    {pivot : α} (run : replaceColumn column row pivot s = .ok () t) :
    row < s.dimension ∧ t = s.replaced column row pivot := by
  by_cases inside : row < s.dimension
  · obtain ⟨_, ran⟩ | ⟨_, ran⟩ | ⟨-, -, -, ran⟩ := replaceColumn_run phase inside column pivot
    · exact nomatch ran.symm.trans run
    · exact nomatch ran.symm.trans run
    · cases ran.symm.trans run
      exact ⟨inside, rfl⟩
  · exact nomatch (replaceColumn_outside phase inside column pivot).symm.trans run

/-- With factors, a replacement is stored, or refused with nothing but a record left. -/
theorem replaceColumn_ends (phase : s.phase = .factorized) (column : SparseVector α) (row : Nat)
    (pivot : α) :
    EndsOr (fun _ => True)
      (fun _ t => t.phase = s.phase ∧ t.pending = s.pending ∧ t.Bounded)
      (fun e t => (e = .updateRegionFull ∨ e = .singularUpdate) ∧
        ∃ records, t = { s with journal := s.journal ++ records })
      (replaceColumn column row pivot s) := by
  by_cases inside : row < s.dimension
  · obtain ⟨record, run⟩ | ⟨record, run⟩ | ⟨pivots, entries, -, run⟩ :=
      replaceColumn_run phase inside column pivot
    · rw [run]
      exact ⟨.inl rfl, #[record], by simp⟩
    · rw [run]
      exact ⟨.inr rfl, #[record], by simp⟩
    · rw [run]
      refine ⟨rfl, rfl, ?_, ?_⟩
      · rw [SparseFactorization.pivots, replaced, Array.size_push]
        exact pivots
      · simpa [replaced, Compressed.count, Compressed.pushLine_eq] using entries
  · rw [replaceColumn_outside phase inside]
    trivial

end SimplexBasis.SparseFactorization
