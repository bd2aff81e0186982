import SimplexBasis.Proofs.Engine
import SimplexBasis.Proofs.Slacks
import SimplexBasis.Recovery

/-!
# Recovery

A factorization is a number of failed attempts, each followed by larger areas or by slacks for some
columns, and one attempt that succeeds, unless too many have failed. The basis, its replaced columns
and the variables stay consistent all along.
-/

set_option linter.unusedSectionVars false

namespace SimplexBasis

variable {α β γ δ : Type} [Scalar α]

/-! ### Logging and areas -/

namespace Engine

variable {e t : Engine α}

@[simp] theorem plain_withJournal (e : Engine α) (records : Array Record) :
    (e.withJournal records).plain = e.plain := by cases e <;> rfl

/-- A contract on areas that only scalars without an order break. -/
def Degrades (b : Breach) : Prop := b = .invalidAreaFactor

theorem growAreas_ends (factor : α) (e : Engine α) :
    EndsOr Degrades (fun _ t => t.plain = e.plain) (fun _ _ => False) (growAreas factor e) := by
  cases e with
  | dense d => exact (rfl : (dense d).plain = (dense d).plain)
  | sparse s =>
    refine dispatch_sparse_ends ?_
    rw [get_bind]
    unfold SparseFactorization.setAreaFactor Action.require
    split
    · exact (rfl : plain (sparse s) = plain (sparse s))
    · exact (rfl : Degrades .invalidAreaFactor)

theorem Deficient.pairs {b : BasisMatrix α} (h : e.Deficient b) :
    PairsWithin b.dimension e.slackPairs ∧ e.slackPairs ≠ [] := by
  obtain ⟨doneRows, doneCols, rows, cols, pairs, permRows, permCols, done, short⟩ :=
    h.slackPairs_eq
  have lengthRows := permRows.length_eq
  have lengthCols := permCols.length_eq
  rw [List.length_append, List.length_range] at lengthRows lengthCols
  rw [pairs]
  constructor
  · intro p member
    obtain ⟨col, row⟩ := List.of_mem_zip member
    exact ⟨List.mem_range.mp (permCols.subset (List.mem_append_right _ col)),
      List.mem_range.mp (permRows.subset (List.mem_append_right _ row))⟩
  · intro none_
    have length := congrArg List.length none_
    rw [List.length_zip, List.length_nil] at length
    omega

end Engine

namespace BasisFactorization

variable {f g : BasisFactorization α}

section OnEngine

variable {B : Breach → Prop} {Q : β → BasisFactorization α → Prop}
  {E : Status → BasisFactorization α → Prop} {act : Action (Engine α) β}

theorem onEngine_ends (ends : EndsOr B (fun x e => Q x ⟨f.options, e⟩)
    (fun s e => E s ⟨f.options, e⟩) (act f.engine)) : EndsOr B Q E (onEngine act f) := by
  unfold onEngine
  dsimp only
  revert ends
  rcases act f.engine with ⟨x, e⟩ | ⟨s | b, e⟩
  · exact id
  · exact id
  · exact id

theorem onEngine_bind (act : Action (Engine α) β) (next : β → Action (Engine α) γ)
    (rest : γ → Action (BasisFactorization α) δ) :
    (onEngine act >>= fun x => onEngine (next x) >>= rest) = onEngine (act >>= next) >>= rest := by
  funext f
  change EStateM.bind (onEngine act) _ f = EStateM.bind (onEngine (EStateM.bind act next)) rest f
  unfold EStateM.bind onEngine
  dsimp only
  rcases act f.engine with ⟨x, e⟩ | ⟨s, e⟩
  · rfl
  · rfl

end OnEngine

/-- Nothing has changed but the areas of later factorizations and the records. -/
structure Keeps (f g : BasisFactorization α) : Prop where
  options : g.options = f.options
  engine : g.engine.plain = f.engine.plain

theorem Keeps.refl (f : BasisFactorization α) : f.Keeps f := ⟨rfl, rfl⟩

theorem Keeps.trans {h : BasisFactorization α} (first : f.Keeps g) (second : g.Keeps h) :
    f.Keeps h :=
  ⟨second.options.trans first.options, second.engine.trans first.engine⟩

theorem log_ends {B : Breach → Prop} (level : Level) (target message : String)
    (f : BasisFactorization α) :
    EndsOr B (fun _ g => f.Keeps g) (fun _ _ => False)
      (onEngine (Engine.log level target message) f) :=
  onEngine_ends (show EndsOr B (fun _ e => f.Keeps ⟨f.options, e⟩) _
      (Engine.log level target message f.engine) from ⟨rfl, Engine.plain_withJournal _ _⟩)

theorem growAreas_ends (factor : α) (f : BasisFactorization α) :
    EndsOr Engine.Degrades (fun _ g => f.Keeps g) (fun _ _ => False)
      (onEngine (Engine.growAreas factor) f) :=
  onEngine_ends ((Engine.growAreas_ends factor f.engine).mono (fun _ => id)
    (fun _ _ same => ⟨rfl, same⟩) fun _ _ => False.elim)

theorem easeCompressions_ends (target : String) (f : BasisFactorization α) :
    EndsOr Engine.Degrades (fun _ g => f.Keeps g) (fun _ _ => False)
      (easeCompressions target f) := by
  unfold easeCompressions
  rw [get_bind]
  rcases f with ⟨options, d | s⟩
  · exact Keeps.refl _
  · dsimp only
    split
    · refine (log_ends ..).bind fun _ g kept => ?_
      exact (growAreas_ends _ g).mono (fun _ => id) (fun _ _ => kept.trans) fun _ _ => False.elim
    · exact Keeps.refl _

theorem enlargeAreas_ends (target : String) (f : BasisFactorization α) :
    EndsOr Engine.Degrades (fun _ g => f.Keeps g) (fun _ _ => False) (enlargeAreas target f) := by
  unfold enlargeAreas
  rw [get_bind]
  split
  · refine (log_ends ..).bind fun _ g kept => ?_
    rw [get_bind]
    exact (growAreas_ends _ g).mono (fun _ => id) (fun _ _ => kept.trans) fun _ _ => False.elim
  · exact Keeps.refl _

/-! ### Attempts that failed -/

/-- A failed attempt and what follows from it: the areas are enlarged, or the columns without a pivot
are replaced by slacks. -/
inductive Retry (context : Context α) (offset : Nat) (f : BasisFactorization α) (trial : Trial α)
    (g : BasisFactorization α) : Trial α → Prop
  | enlarged {e : Engine α}
      (failed : Engine.attempt context trial.basis f.engine = .error (.status .outOfMemory) e)
      (options : g.options = f.options) (engine : g.engine.plain = e.plain) :
      Retry context offset f trial g { trial with last := .outOfMemory }
  | repaired {e : Engine α} {sequence : Array Nat} {basis : BasisMatrix α}
      (failed : Engine.attempt context trial.basis f.engine = .error (.status .singular) e)
      (options : g.options = f.options) (engine : g.engine.plain = e.plain)
      (labels : relabel trial.sequence e.slackPairs offset = .ok sequence)
      (slacks : trial.basis.withSlacks e.slackPairs f.options.slackValue = .ok basis) :
      Retry context offset f trial g ⟨basis, sequence, trial.replaced ++ e.slackPairs, .singular⟩

/-- Failed attempts, one after the other, with the status of each. -/
inductive Retries (context : Context α) (offset : Nat) : List Status → BasisFactorization α →
    Trial α → BasisFactorization α → Trial α → Prop
  | none {f : BasisFactorization α} {trial : Trial α} : Retries context offset [] f trial f trial
  | more {failures : List Status} {f g h : BasisFactorization α} {trial trial' trial'' : Trial α}
      (first : Retry context offset f trial g trial')
      (rest : Retries context offset failures g trial' h trial'') :
      Retries context offset (trial'.last :: failures) f trial h trial''

/-- The trial is the given basis with its columns replaced by slacks, and the variables are those of
the columns. -/
structure Tracks (b : BasisMatrix α) (sequence : Array Nat) (offset : Nat) (slack : α)
    (trial : Trial α) : Prop where
  within : PairsWithin b.dimension trial.replaced
  basis : b.withSlacks trial.replaced slack = .ok trial.basis
  labels : relabel sequence trial.replaced offset = .ok trial.sequence

section Tracks

variable {b : BasisMatrix α} {columns : List (List (Nat × α))} {sequence heading : Array Nat}
  {context : Context α} {offset : Nat} {slack : α} {trial trial' : Trial α}
  {failures : List Status}

theorem Tracks.basis_eq (h : Tracks b sequence offset slack trial) (holds : b.Holds columns) :
    trial.basis = ⟨b.dimension, .ofLines (slacked columns trial.replaced slack)⟩ :=
  Except.ok.inj (h.basis.symm.trans (holds.withSlacks_eq h.within slack))

theorem Tracks.dimension (h : Tracks b sequence offset slack trial) (holds : b.Holds columns) :
    trial.basis.dimension = b.dimension := by rw [h.basis_eq holds]

theorem Tracks.holds (h : Tracks b sequence offset slack trial) (holds : b.Holds columns) :
    trial.basis.Holds (slacked columns trial.replaced slack) :=
  h.basis_eq holds ▸ holds.slacked h.within slack

theorem Tracks.size (h : Tracks b sequence offset slack trial)
    (size : sequence.size = b.dimension) : trial.sequence.size = b.dimension := by
  obtain ⟨vs, run, same, -⟩ := relabel_ok (size.symm ▸ h.within) offset
  cases run.symm.trans h.labels
  exact same.trans size

theorem Tracks.first (holds : b.Holds columns) (status : Status) :
    Tracks b sequence offset slack ⟨b, sequence, [], status⟩ where
  within := by simp [PairsWithin]
  basis := by
    rw [holds.withSlacks_eq (by simp [PairsWithin]), slacked_nil, ← holds.stored]
  labels := rfl

theorem Tracks.repair (h : Tracks b sequence offset slack trial) (holds : b.Holds columns)
    {pairs : List (Nat × Nat)} (within : PairsWithin b.dimension pairs) {labels : Array Nat}
    (relabelled : relabel trial.sequence pairs offset = .ok labels) {basis : BasisMatrix α}
    (slacks : trial.basis.withSlacks pairs slack = .ok basis) (status : Status) :
    Tracks b sequence offset slack ⟨basis, labels, trial.replaced ++ pairs, status⟩ where
  within := h.within.append within
  basis := (holds.withSlacks_append h.within within h.basis).trans slacks
  labels := (relabel_append h.labels).trans relabelled

theorem Retry.tracks [LawfulCounts α] (retry : Retry context offset f trial g trial')
    (holds : b.Holds columns) (sized : f.engine.Sized b.dimension)
    (h : Tracks b sequence offset f.options.slackValue trial) :
    Tracks b sequence offset f.options.slackValue trial' ∧ f.engine.Alike g.engine ∧
      g.options = f.options ∧ g.engine.Idle ∧
      (trial'.last = .outOfMemory ∨ trial'.last = .singular) := by
  have dimension := h.dimension holds
  have ends := Engine.attempt_ends (h.holds holds) (dimension.symm ▸ sized) context
  cases retry with
  | @enlarged e failed options engine =>
    obtain ⟨alike, idle, -⟩ := ends.failure failed
    exact ⟨⟨h.within, h.basis, h.labels⟩,
      alike.trans (Engine.alike_of_plain engine), options, idle.of_plain engine, .inl rfl⟩
  | @repaired e labels basis failed options engine relabelled slacks =>
    obtain ⟨alike, idle, ⟨wrong, -⟩ | ⟨-, deficient⟩⟩ := ends.failure failed
    · exact nomatch wrong
    · have within := deficient.pairs.1
      rw [dimension] at within
      exact ⟨h.repair holds within relabelled slacks .singular,
        alike.trans (Engine.alike_of_plain engine), options, idle.of_plain engine, .inr rfl⟩

theorem Retries.tracks [LawfulCounts α] (retries : Retries context offset failures f trial g trial')
    (holds : b.Holds columns) (sized : f.engine.Sized b.dimension)
    (h : Tracks b sequence offset f.options.slackValue trial) :
    Tracks b sequence offset f.options.slackValue trial' ∧ f.engine.Alike g.engine ∧
      (∀ status ∈ failures, status = .outOfMemory ∨ status = .singular) ∧
      (failures ≠ [] → g.engine.Idle ∧ failures.getLast? = some trial'.last) := by
  induction retries with
  | none => exact ⟨h, .refl _, by simp, fun some_ => absurd rfl some_⟩
  | @more failures f g _ trial trial' _ first rest ih =>
    obtain ⟨tracks, alike, options, idle, last⟩ := first.tracks holds sized h
    obtain ⟨tracks', alike', known, later⟩ := ih (alike.sized sized) (options ▸ tracks)
    refine ⟨options ▸ tracks', alike.trans alike', ?_, fun _ => ?_⟩
    · rintro status (_ | ⟨_, member⟩)
      · exact last
      · exact known status member
    · rcases failures with _ | ⟨status, failures⟩
      · cases rest
        exact ⟨idle, rfl⟩
      · exact later (List.cons_ne_nil _ _)

end Tracks

/-! ### All attempts -/

/-- The attempt after these retries succeeds. -/
structure Succeeds (context : Context α) (heading : Array Nat) (attempts : Nat)
    (f : BasisFactorization α) (trial : Trial α) (report : FactorReport)
    (g : BasisFactorization α) : Prop where
  options : g.options = f.options
  factored : ∃ e e', Engine.attempt context trial.basis f.engine = .ok () e ∧
    g.engine.plain = e.plain ∧ Engine.assign trial.sequence heading e = .ok report.heading e'
  result : report.result = .ok ⟨attempts, trial.replaced, g.engine.isDense⟩
  sequence : report.sequence = trial.sequence

/-- Contracts on the sizes of arrays and on the scale of areas. -/
def Stalls (b : Breach) : Prop := b = .capacityOverflow ∨ b = .invalidAreaFactor

section Attempts

variable {b : BasisMatrix α} {columns : List (List (Nat × α))} {sequence heading : Array Nat}
  {context : Context α} {offset : Nat} {trial : Trial α}

theorem factored_ends [LawfulCounts α] {e : Engine α} (holds : b.Holds columns)
    (announced : Engine.announce b f.engine = .ok () e) (ready : e.Ready b.dimension columns)
    (context : Context α) :
    Ends (fun outcome g => ∃ e', g = ⟨f.options, e'⟩ ∧
        (outcome = .ok () ∧ Engine.attempt context b f.engine = .ok () e' ∧ e'.Factorizes b ∨
          ∃ status, outcome = .error (.status status) ∧
            Engine.attempt context b f.engine = .error (.status status) e' ∧
            (status = .outOfMemory ∨ status = .singular ∧ e'.Deficient b)))
      (fun _ _ => False) (Action.attempt (onEngine (Engine.factor context)) ⟨f.options, e⟩) := by
  have factored := (ready.factor_ends holds context).or (B := fun _ => False)
  have whole : Engine.attempt context b f.engine = Engine.factor context e := bind_of_ok announced
  refine (Ends.attempt (EndsOr.ends (onEngine_ends (f := ⟨f.options, e⟩)
    (Q := fun _ g => ∃ e', g = ⟨f.options, e'⟩ ∧ Engine.factor context e = .ok () e' ∧
      e'.Factorizes b)
    (E := fun status g => ∃ e', g = ⟨f.options, e'⟩ ∧
      Engine.factor context e = .error (.status status) e' ∧
      (status = .outOfMemory ∨ status = .singular ∧ e'.Deficient b))
    (factored.noted.mono (fun _ => id) ?_ ?_)))).mono ?_ fun _ _ => id
  · rintro _ e' ⟨run, -, factorizes⟩
    exact ⟨e', rfl, run, factorizes⟩
  · rintro status e' ⟨run, -, -, ⟨memory, -⟩ | deficient⟩
    · exact ⟨e', rfl, run, .inl memory⟩
    · exact ⟨e', rfl, run, .inr deficient⟩
  · rintro outcome g (⟨_, rfl, e', rfl, run, factorizes⟩ | ⟨status, rfl, e', rfl, run, why⟩)
    · exact ⟨e', rfl, .inl ⟨rfl, whole.trans run, factorizes⟩⟩
    · exact ⟨e', rfl, .inr ⟨status, rfl, whole.trans run, why⟩⟩

/-- The attempts from number `first` on, of which so many are allowed: some fail, and then one
succeeds or no more are left. -/
def Concludes (context : Context α) (offset : Nat) (heading : Array Nat) (allowed first : Nat)
    (f : BasisFactorization α) (trial : Trial α) (report : FactorReport)
    (g : BasisFactorization α) : Prop :=
  ∃ failures f' trial', Retries context offset failures f trial f' trial' ∧
    (failures.length < allowed ∧
        Succeeds context heading (first + failures.length) f' trial' report g ∨
      failures.length = allowed ∧
        report = ⟨.error trial'.last, trial'.sequence, heading⟩ ∧ f'.Keeps g)

theorem Concludes.after {allowed first : Nat} {g h : BasisFactorization α} {trial' : Trial α}
    {report : FactorReport} (retry : Retry context offset f trial g trial')
    (rest : Concludes context offset heading allowed (first + 1) g trial' report h) :
    Concludes context offset heading (allowed + 1) first f trial report h := by
  obtain ⟨failures, f', trial'', retries, ⟨fewer, succeeds⟩ | ⟨all, reported⟩⟩ := rest
  · refine ⟨_, f', trial'', .more retry retries, .inl ⟨?_, ?_⟩⟩
    · rw [List.length_cons]
      omega
    · rwa [List.length_cons, Nat.add_comm failures.length, ← Nat.add_assoc]
  · refine ⟨_, f', trial'', .more retry retries, .inr ⟨?_, reported⟩⟩
    rw [List.length_cons, all]

theorem succeeds_ends {e : Engine α}
    (run : Engine.attempt context trial.basis f.engine = .ok () e)
    (factorizes : e.Factorizes trial.basis) (size : trial.sequence.size = trial.basis.dimension)
    (sizeHeading : heading.size = trial.basis.dimension) (attempt : Nat) :
    EndsOr Stalls (Succeeds context heading attempt f trial) (fun _ _ => False)
      ((do
        let heading ← onEngine (Engine.assign trial.sequence heading)
        easeCompressions context.target
        let summary := ⟨attempt, trial.replaced, (← get).engine.isDense⟩
        return ⟨.ok summary, trial.sequence, heading⟩ : Action (BasisFactorization α) FactorReport)
          ⟨f.options, e⟩) := by
  obtain ⟨rows, cols, -, -, -, assigns⟩ := factorizes.exists_order
  obtain ⟨vs, e', assigned, same, -⟩ := (assigns trial.sequence heading size sizeHeading).exists_ok
  refine EndsOr.bind (R := fun xs g => xs = vs ∧ g = ⟨f.options, e'⟩)
    (onEngine_ends (by rw [assigned]; exact ⟨rfl, rfl⟩)) ?_
  rintro _ _ ⟨rfl, rfl⟩
  refine EndsOr.bind ((easeCompressions_ends context.target ⟨f.options, e'⟩).mono
    (fun _ => .inr) (fun _ _ => id) fun _ _ => id) fun _ g kept => ?_
  rw [get_bind]
  exact ⟨kept.options, ⟨e, e', run, kept.engine.trans same, assigned⟩, rfl, rfl⟩

theorem attemptFrom_ends [LawfulCounts α] (holds : b.Holds columns)
    (size : sequence.size = b.dimension) (sizeHeading : heading.size = b.dimension)
    (context : Context α) (allowed first : Nat)
    (tracks : Tracks b sequence offset f.options.slackValue trial)
    (sized : f.engine.Sized b.dimension) :
    EndsOr Stalls (Concludes context offset heading allowed first f trial)
      (fun _ _ => False) (attemptFrom context offset heading allowed first trial f) := by
  induction allowed generalizing first f trial with
  | zero =>
    unfold attemptFrom
    rw [get_bind]
    exact (log_ends ..).bind fun _ g kept => ⟨[], f, trial, .none, .inr ⟨rfl, rfl, kept⟩⟩
  | succ allowed ih =>
    have dimension := tracks.dimension holds
    have tracked := tracks.holds holds
    -- a retry leaves a trial that tracks the basis, so the remaining attempts can be made
    have again : ∀ {g : BasisFactorization α} {trial' : Trial α},
        Retry context offset f trial g trial' →
        EndsOr Stalls (Concludes context offset heading (allowed + 1) first f trial)
          (fun _ _ => False) (attemptFrom context offset heading allowed (first + 1) trial' g) := by
      intro g trial' retry
      obtain ⟨tracks', alike, options, -⟩ := retry.tracks holds sized tracks
      exact (ih (first + 1) (options ▸ tracks') (alike.sized sized)).mono (fun _ => id)
        (fun _ _ rest => rest.after retry) fun _ _ => id
    unfold attemptFrom
    rw [onEngine_bind]
    refine EndsOr.bind (R := fun _ g => ∃ e, g = ⟨f.options, e⟩ ∧
        Engine.announce trial.basis f.engine = .ok () e ∧
        e.Ready trial.basis.dimension (slacked columns trial.replaced f.options.slackValue))
      (onEngine_ends ((Engine.announce_ends tracked (dimension.symm ▸ sized)).noted.mono
        (fun _ => .inl) (fun _ e ⟨run, _, ready⟩ => ⟨e, rfl, run, ready⟩) fun _ _ h => h.2)) ?_
    rintro _ _ ⟨e, rfl, announced, ready⟩
    refine EndsOr.bind (factored_ends tracked announced ready context).or ?_
    rintro outcome _ ⟨e', rfl, ⟨rfl, run, factorizes⟩ | ⟨_, rfl, run, rfl | ⟨rfl, deficient⟩⟩⟩
    · refine (succeeds_ends run factorizes ((tracks.size size).trans dimension.symm)
        (sizeHeading.trans dimension.symm) first).mono (fun _ => id) ?_ fun _ _ => id
      exact fun report g succeeds => ⟨[], f, trial, .none, .inl ⟨allowed.succ_pos, succeeds⟩⟩
    · refine EndsOr.bind ((enlargeAreas_ends context.target ⟨f.options, e'⟩).mono (fun _ => .inr)
        (fun _ _ => id) fun _ _ => id) fun _ g kept => ?_
      exact again (.enlarged run kept.options kept.engine)
    · obtain ⟨within, some_⟩ := deficient.pairs
      have inside : PairsWithin trial.sequence.size e'.slackPairs := by
        rwa [tracks.size size, ← dimension]
      obtain ⟨labels, relabelled, -, -⟩ := relabel_ok inside offset
      have slacks := tracked.withSlacks_eq within f.options.slackValue
      dsimp only
      rw [get_bind, relabelled, lift_ok_bind, if_neg (by simpa using some_)]
      refine EndsOr.bind (log_ends ..) fun _ g kept => ?_
      rw [get_bind, kept.options, slacks, lift_ok_bind]
      exact again (.repaired run kept.options kept.engine relabelled slacks)

theorem factorize_ends [LawfulCounts α] (holds : b.Holds columns)
    (size : sequence.size = b.dimension) (sizeHeading : heading.size = b.dimension)
    (sized : (f.engineFor b.dimension).Sized b.dimension) (offset : Nat) (context : Context α) :
    EndsOr Stalls (Concludes context offset heading (max f.options.maxRetries 1) 1
        ⟨f.options, f.engineFor b.dimension⟩ ⟨b, sequence, [], .invalidCall⟩)
      (fun _ _ => False) (factorize b sequence heading offset context f) := by
  unfold factorize
  dsimp only
  rw [show (sequence.size == b.dimension && heading.size == b.dimension) = true by
    simp [size, sizeHeading], require_true_bind, modify_bind, get_bind]
  exact attemptFrom_ends (f := ⟨f.options, f.engineFor b.dimension⟩) holds size sizeHeading context
    (max f.options.maxRetries 1) 1 (.first holds .invalidCall) sized

/-- What a factorization that succeeded has done: the engine holds what an attempt of the engine
`before` at the repaired basis left, and the variables stand at the positions of their columns. -/
structure Reports (context : Context α) (b : BasisMatrix α) (sequence : Array Nat) (offset : Nat)
    (slack : α) (before : Engine α) (summary : FactorSummary) (report : FactorReport)
    (g : BasisFactorization α) : Prop where
  factored : ∃ basis e, b.withSlacks summary.replaced slack = .ok basis ∧
    Engine.attempt context basis before = .ok () e ∧ g.engine.plain = e.plain
  rank : g.engine.rank = b.dimension
  pivots : g.engine.pivots = 0
  dense : summary.dense = g.engine.isDense
  sizes : report.sequence.size = b.dimension ∧ report.heading.size = b.dimension
  labels : ∀ j < b.dimension, report.sequence.getD j 0 =
    (summary.replaced.reverse.lookup j).elim (sequence.getD j 0) (offset + ·)
  positions : ∃ positions : List Nat, positions.Perm (List.range b.dimension) ∧
    ∀ j < b.dimension, ∃ p, positions[j]? = some p ∧ g.engine.positionOf j = .ok (some p) ∧
      report.heading.getD p 0 = report.sequence.getD j 0

theorem Succeeds.reports [LawfulCounts α] {attempts : Nat} {report : FactorReport}
    (h : Succeeds context heading attempts f trial report g) (holds : b.Holds columns)
    (size : sequence.size = b.dimension) (sizeHeading : heading.size = b.dimension)
    (sized : f.engine.Sized b.dimension)
    {slack : α} (tracks : Tracks b sequence offset slack trial) :
    Reports context b sequence offset slack f.engine
      ⟨attempts, trial.replaced, g.engine.isDense⟩ report g := by
  obtain ⟨e, e', run, same, assigned⟩ := h.factored
  have dimension := tracks.dimension holds
  have factorizes := ((Engine.attempt_ends (tracks.holds holds) (dimension.symm ▸ sized)
    context).result run).2
  obtain ⟨rows, cols, permRows, permCols, placed, assigns⟩ := factorizes.exists_order
  have sizeTrial := tracks.size size
  rw [dimension] at permRows permCols placed assigns
  obtain ⟨-, sizeAssigned, written⟩ :=
    (assigns trial.sequence heading sizeTrial sizeHeading).result assigned
  refine ⟨⟨trial.basis, e, tracks.basis, run, same⟩, ?_, ?_, rfl, ⟨?_, sizeAssigned⟩, ?_, ?_⟩
  · rw [← Engine.rank_plain, same, Engine.rank_plain, factorizes.rank_eq, dimension]
  · rw [← Engine.pivots_plain, same, Engine.pivots_plain, factorizes.pivots_eq]
  · rw [h.sequence, sizeTrial]
  · intro j _
    obtain ⟨vs, relabelled, -, labels⟩ := relabel_ok (size.symm ▸ tracks.within) offset
    cases relabelled.symm.trans tracks.labels
    rw [h.sequence, labels]
  · obtain ⟨positions, perm, at_⟩ := Engine.exists_positions permRows permCols
    refine ⟨positions, perm, fun j hj => ?_⟩
    obtain ⟨k, hk, rfl, here⟩ := at_ j hj
    refine ⟨rows.getD k 0, here, ?_, ?_⟩
    · rw [← Engine.positionOf_plain, same, Engine.positionOf_plain, placed k hk]
    · rw [h.sequence, written k hk]

/-- What a factorization from `start` reports: a number of attempts failed, and then one succeeded or
no more were allowed. -/
def Consistent (context : Context α) (b : BasisMatrix α) (sequence : Array Nat) (offset : Nat)
    (start : BasisFactorization α) (report : FactorReport) (g : BasisFactorization α) : Prop :=
  ∃ failures f trial, Retries context offset failures start ⟨b, sequence, [], .invalidCall⟩ f trial ∧
    (∀ status ∈ failures, status = .outOfMemory ∨ status = .singular) ∧
    match report.result with
    | .ok summary => summary.attempts = failures.length + 1 ∧
        summary.attempts ≤ max start.options.maxRetries 1 ∧ summary.replaced = trial.replaced ∧
        Reports context b sequence offset start.options.slackValue f.engine summary report g
    | .error status => failures.length = max start.options.maxRetries 1 ∧
        failures.getLast? = some status ∧ ∀ v row pivot,
          Engine.ftran v g.engine = .error (.status .invalidCall) g.engine ∧
          Engine.btran v g.engine = .error (.status .invalidCall) g.engine ∧
          Engine.replaceColumn v row pivot g.engine = .error (.status .invalidCall) g.engine

end Attempts

/-- Two columns that differ by a factor. -/
def proportional : BasisMatrix ℚ := ⟨2, .ofLines [[(0, 1)], [(0, 3)]]⟩

/-- Nothing is dropped, and all bases are sparse. -/
def patient : Options ℚ := { SparseFactorization.exactly with denseDimensionLimit := 0 }

/-- Small areas, and a stretch that asks for more than a word. -/
def narrow : Options ℚ :=
  { SparseFactorization.boundless with
    denseDimensionLimit := 0, initialAreaFactor := 27 / 460, sparseThreshold := some 0 }

end BasisFactorization

end SimplexBasis
