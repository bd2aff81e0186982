import SimplexBasis.Proofs.Dense.Calls
import SimplexBasis.Proofs.Engine
import SimplexBasis.Proofs.Sparse.Calls

/-!
# The protocol of the engines

Which calls an engine refuses depends on the calls made before. Solves and column replacements need
factors, which a successful factorization makes and the next announcement or basis takes away; a
factorization needs a basis loaded since the last one. A refused replacement is as if it had not been
asked for.
-/

set_option linter.unusedSectionVars false

namespace SimplexBasis.Engine

variable {α β : Type} [Scalar α]

/-! ### Failures -/

section Failures

variable {onDense : Action (DenseFactorization α) β} {onSparse : Action (SparseFactorization α) β}
  {stop : Stop}

theorem dispatch_dense_error_iff {d : DenseFactorization α} :
    (∃ t, dispatch onDense onSparse (dense d) = .error stop t) ↔ ∃ t, onDense d = .error stop t := by
  unfold dispatch
  dsimp only
  cases onDense d with
  | ok x t => simp
  | error e t => simp

theorem dispatch_sparse_error_iff {s : SparseFactorization α} :
    (∃ t, dispatch onDense onSparse (sparse s) = .error stop t) ↔
      ∃ t, onSparse s = .error stop t := by
  unfold dispatch
  dsimp only
  cases onSparse s with
  | ok x t => simp
  | error e t => simp

end Failures

/-! ### Calls and histories -/

/-- What a caller asks of an engine. -/
inductive Call (α : Type) where
  | allocate (n lowerHint upperHint : Nat)
  | load (b : BasisMatrix α)
  | factor (context : Context α)
  | assign (sequence heading : Array Nat)
  | repair (sequence : Array Nat) (offset : Nat)
  | ftran (v : SparseVector α)
  | btran (v : SparseVector α)
  | replaceColumn (column : SparseVector α) (row : Nat) (pivot : α)

/-- What an engine answers. -/
inductive Answer (α : Type) where
  | done
  | heading (vs : Array Nat)
  | pairs (pairs : List (Nat × Nat)) (sequence : Array Nat)
  | solution (v : SparseVector α) (count : Nat)

def Call.run : Call α → Action (Engine α) (Answer α)
  | allocate n lowerHint upperHint => do
    Engine.allocate n lowerHint upperHint
    return .done
  | load b => do
    Engine.load b
    return .done
  | factor context => do
    Engine.factor context
    return .done
  | assign sequence heading => do
    return .heading (← Engine.assign sequence heading)
  | repair sequence offset => do
    let pairs := (← get).slackPairs
    return .pairs pairs (← (relabel sequence pairs offset : Checked (Array Nat)))
  | ftran v => do
    let (v, count) ← Engine.ftran v
    return .solution v count
  | btran v => do
    let (v, count) ← Engine.btran v
    return .solution v count
  | replaceColumn column row pivot => do
    Engine.replaceColumn column row pivot
    return .done

/-- A call and how it ended, with an answer or with a status. -/
abbrev Event (α : Type) := Call α × Except Status (Answer α)

/-- The engine is reached by calls that ended as listed, none of which broke a contract. -/
inductive Reached : List (Event α) → Engine α → Prop
  | dense (options : Options α) : Reached [] (dense (.new options))
  | sparse (options : Options α) : Reached [] (sparse (.new options))
  | answered {history : List (Event α)} {e t : Engine α} {call : Call α} {answer : Answer α} :
      Reached history e → call.run e = .ok answer t → Reached (history ++ [(call, .ok answer)]) t
  | failed {history : List (Event α)} {e t : Engine α} {call : Call α} {status : Status} :
      Reached history e → call.run e = .error (.status status) t →
      Reached (history ++ [(call, .error status)]) t

/-- The calls of a list made one after the other, unless one breaks a contract. -/
def follow : List (Call α) → List (Event α) → Engine α → Option (List (Event α) × Engine α)
  | [], history, e => some (history, e)
  | call :: calls, history, e =>
    match call.run e with
    | .ok answer t => follow calls (history ++ [(call, .ok answer)]) t
    | .error (.status status) t => follow calls (history ++ [(call, .error status)]) t
    | .error (.breach _) _ => none

theorem Reached.follow {calls : List (Call α)} {history history' : List (Event α)}
    {e e' : Engine α} (reached : Reached history e)
    (run : follow calls history e = some (history', e')) : Reached history' e' := by
  induction calls generalizing history e with
  | nil =>
    cases run
    exact reached
  | cons call calls ih =>
    unfold Engine.follow at run
    cases here : call.run e with
    | ok answer t =>
      rw [here] at run
      exact ih (reached.answered here) run
    | error stop t =>
      rw [here] at run
      cases stop with
      | status status => exact ih (reached.failed here) run
      | breach b => exact nomatch run

theorem exists_follow (calls : List (Call α)) {e : Engine α}
    {p : List (Event α) → Engine α → Bool}
    (check : (follow calls [] e).any (fun (history, e) => p history e) = true) :
    ∃ history t, follow calls [] e = some (history, t) ∧ p history t = true := by
  cases run : follow calls [] e with
  | none => exact absurd check (by simp [run])
  | some ends => exact ⟨ends.1, ends.2, rfl, by simpa [run] using check⟩

/-- Whether there are factors after an event. -/
def Event.factored (before : Bool) : Event α → Bool
  | (.allocate .., _) => false
  | (.load _, _) => false
  | (.factor _, .ok _) => true
  | _ => before

/-- Whether a basis is loaded after an event. -/
def Event.loaded (before : Bool) : Event α → Bool
  | (.allocate .., _) => false
  | (.load _, _) => true
  | (.factor _, _) => false
  | _ => before

/-- Whether the last basis is to be factorized after an event, announcements apart. -/
def Event.unfactored (before : Bool) : Event α → Bool
  | (.load _, _) => true
  | (.factor _, _) => false
  | _ => before

/-- Some factorization succeeded, and no announcement and no basis followed it. -/
def factored (history : List (Event α)) : Bool := history.foldl Event.factored false

/-- A basis was loaded, and no announcement and no factorization followed it. -/
def loaded (history : List (Event α)) : Bool := history.foldl Event.loaded false

/-- A basis was loaded, and no factorization followed it. -/
def unfactored (history : List (Event α)) : Bool := history.foldl Event.unfactored false

section Histories

variable (history : List (Event α)) (event : Event α)

@[simp] theorem factored_append :
    factored (history ++ [event]) = Event.factored (factored history) event := by
  simp [factored]

@[simp] theorem loaded_append :
    loaded (history ++ [event]) = Event.loaded (loaded history) event := by
  simp [loaded]

@[simp] theorem unfactored_append :
    unfactored (history ++ [event]) = Event.unfactored (unfactored history) event := by
  simp [unfactored]

end Histories

/-- A failed load is still to be reported. -/
def Pending : Engine α → Prop
  | dense _ => False
  | sparse s => s.pending ≠ none

/-! ### The invariant -/

/-- The state of an engine behind its history. -/
def Orderly (history : List (Event α)) : Engine α → Prop
  | dense d => d.valid = factored history ∧ d.loaded = loaded history ∧
      (d.valid = true → d.order.isSome = true ∧ d.loaded = false)
  | sparse s => (s.phase = .factorized ↔ factored history = true) ∧
      (s.phase = .loaded ↔ loaded history = true) ∧ s.Bounded ∧
      (s.pending = none ∨
        s.pending = some .outOfMemory ∧ factored history = false ∧ unfactored history = true)

section Steps

variable {e t : Engine α} {history : List (Event α)}

theorem orderly_new_dense (options : Options α) : (dense (.new options)).Orderly [] :=
  ⟨rfl, rfl, by simp [DenseFactorization.new]⟩

theorem orderly_new_sparse (options : Options α) : (sparse (.new options)).Orderly [] :=
  ⟨by simp [SparseFactorization.new, factored], by simp [SparseFactorization.new, loaded],
    ⟨Nat.zero_le _, Nat.zero_le _⟩, .inl rfl⟩

/-- The calls that neither load nor factorize leave an orderly engine orderly. -/
def Event.Neutral (event : Event α) : Prop :=
  ∀ before, event.factored before = before ∧ event.loaded before = before ∧
    event.unfactored before = before

theorem Orderly.of_dense {d d' : DenseFactorization α} {event : Event α} (neutral : event.Neutral)
    (h : (dense d).Orderly history) (same : d'.region = d.region) :
    (dense d').Orderly (history ++ [event]) := by
  simp only [DenseFactorization.region, Prod.mk.injEq] at same
  obtain ⟨order, loaded, valid⟩ := same
  simpa only [Orderly, factored_append, loaded_append, (neutral _).1, (neutral _).2.1, order, loaded,
    valid] using h

theorem Orderly.of_sparse {s s' : SparseFactorization α} {event : Event α} (neutral : event.Neutral)
    (h : (sparse s).Orderly history) (phase : s'.phase = s.phase) (pending : s'.pending = s.pending)
    (bounded : s'.Bounded) : (sparse s').Orderly (history ++ [event]) := by
  obtain ⟨whenFactored, whenLoaded, -, owed⟩ := h
  simp only [Orderly, factored_append, loaded_append, unfactored_append, (neutral _).1,
    (neutral _).2.1, (neutral _).2.2, phase, pending]
  exact ⟨whenFactored, whenLoaded, bounded, owed⟩

theorem Orderly.of_region {s s' : SparseFactorization α} {event : Event α}
    (neutral : event.Neutral) (h : (sparse s).Orderly history) (same : s'.region = s.region) :
    (sparse s').Orderly (history ++ [event]) := by
  simp only [SparseFactorization.region, Prod.mk.injEq] at same
  obtain ⟨options, capacity, etas, phase, pending⟩ := same
  exact h.of_sparse neutral phase pending (h.2.2.1.of_region options capacity etas)

theorem Orderly.idle (h : e.Orderly history) (without : factored history = false) : e.Idle := by
  cases e with
  | dense d => exact h.1.trans without
  | sparse s => exact fun phase => absurd (h.1.mp phase) (by simp [without])

/-- The ends of a call, each of them orderly. -/
def Continues (history : List (Event α)) (call : Call α) :
    EStateM.Result Stop (Engine α) (Answer α) → Prop :=
  EndsOr (fun _ => True) (fun answer t => t.Orderly (history ++ [(call, .ok answer)]))
    (fun status t => t.Orderly (history ++ [(call, .error status)]))

theorem Continues.of_ends {β : Type} {act : Action (Engine α) β} {call : Call α}
    (answer : β → Answer α) (eq : call.run = (act >>= fun x => pure (answer x)))
    (ends : EndsOr (fun _ => True)
      (fun x t => t.Orderly (history ++ [(call, .ok (answer x))]))
      (fun status t => t.Orderly (history ++ [(call, .error status)])) (act e)) :
    Continues history call (call.run e) := by
  rw [eq]
  exact EndsOr.bind ends fun _ _ h => h

theorem Orderly.allocate (h : e.Orderly history) (n lowerHint upperHint : Nat) :
    Continues history (.allocate n lowerHint upperHint)
      (Call.run (.allocate n lowerHint upperHint) e) := by
  refine Continues.of_ends (fun _ => .done) rfl ?_
  cases e with
  | dense d =>
    refine dispatch_dense_ends ((DenseFactorization.allocate_after n d).mono (fun _ => id) ?_
      fun _ _ => False.elim)
    rintro _ t ⟨loaded, valid⟩
    exact ⟨by simp [valid, Event.factored], by simp [loaded, Event.loaded], by simp [valid]⟩
  | sparse s =>
    refine dispatch_sparse_ends ((SparseFactorization.allocate_after n lowerHint upperHint s).mono
      (fun _ => id) ?_ fun _ _ => False.elim)
    intro _ t same
    simp only [SparseFactorization.region, Prod.mk.injEq] at same
    obtain ⟨options, capacity, etas, phase, pending⟩ := same
    obtain ⟨-, -, bounded, owed⟩ := h
    refine ⟨by simp [phase, Event.factored], by simp [phase, Event.loaded],
      bounded.of_region options capacity etas, ?_⟩
    rw [pending]
    refine owed.imp_right ?_
    rintro ⟨status, -, open_⟩
    refine ⟨status, by simp [Event.factored], ?_⟩
    rw [unfactored_append, open_]
    rfl

theorem Orderly.load (h : e.Orderly history) (b : BasisMatrix α) :
    Continues history (.load b) (Call.run (.load b) e) := by
  refine Continues.of_ends (fun _ => .done) rfl ?_
  cases e with
  | dense d =>
    refine dispatch_dense_ends ((DenseFactorization.load_after b d).mono (fun _ => id) ?_
      fun _ _ => False.elim)
    rintro _ t ⟨loaded, valid⟩
    exact ⟨by simp [valid, Event.factored], by simp [loaded, Event.loaded], by simp [valid]⟩
  | sparse s =>
    refine dispatch_sparse_ends ((SparseFactorization.load_after b s).mono (fun _ => id) ?_
      fun _ _ => False.elim)
    rintro _ t ⟨options, etas, phase, pending, -⟩
    refine ⟨by simp [phase, Event.factored], by simp [phase, Event.loaded],
      ⟨?_, ?_⟩, pending.imp id fun status => ⟨status, ?_, ?_⟩⟩
    · simp [SparseFactorization.pivots, etas, Etas.empty]
    · simp [etas, Etas.empty, Compressed.count, Compressed.empty]
    · simp [Event.factored]
    · simp [Event.unfactored]

theorem Orderly.factor (h : e.Orderly history) (context : Context α) :
    Continues history (.factor context) (Call.run (.factor context) e) := by
  refine Continues.of_ends (fun _ => .done) rfl ?_
  cases e with
  | dense d =>
    obtain ⟨whenValid, whenLoaded, ordered⟩ := h
    refine dispatch_dense_ends ?_
    cases loaded : d.loaded with
    | false =>
      rw [DenseFactorization.factor_of_unloaded loaded]
      exact ⟨whenValid.trans (by simp [Event.factored]), by simp [loaded, Event.loaded], ordered⟩
    | true =>
      refine (DenseFactorization.factor_loaded_ends loaded).or.mono (fun _ => id) ?_ ?_
      · rintro _ t ⟨loaded, valid, ordered⟩
        exact ⟨by simp [valid, Event.factored], by simp [loaded, Event.loaded],
          fun _ => ⟨ordered, loaded⟩⟩
      · rintro _ t ⟨-, unloaded, valid⟩
        have without : d.valid = false := by
          rw [Bool.eq_false_iff]
          exact fun valid => by simp [(ordered valid).2] at loaded
        refine ⟨?_, by simp [unloaded, Event.loaded], by simp [valid]⟩
        rw [valid, factored_append, ← whenValid, without]
        rfl
  | sparse s =>
    obtain ⟨whenFactored, whenLoaded, bounded, owed⟩ := h
    refine dispatch_sparse_ends ?_
    rcases owed with none_ | ⟨some_, without, _⟩
    · by_cases phase : s.phase = .loaded
      · have without : factored history = false := by
          rw [Bool.eq_false_iff, ne_eq, ← whenFactored, phase]
          simp
        refine (SparseFactorization.factor_loaded_ends none_ phase).mono (fun _ => id) ?_ ?_
        · intro _ t same
          simp only [SparseFactorization.region, Prod.mk.injEq] at same
          obtain ⟨options, capacity, etas, phase, pending⟩ := same
          exact ⟨by simp [phase, Event.factored], by simp [phase, Event.loaded],
            bounded.of_region options capacity etas, .inl pending⟩
        · rintro _ t ⟨-, same⟩
          simp only [SparseFactorization.region, Prod.mk.injEq] at same
          obtain ⟨options, capacity, etas, phase, pending⟩ := same
          exact ⟨by simp [phase, Event.factored, without], by simp [phase, Event.loaded],
            bounded.of_region options capacity etas, .inl pending⟩
      · rw [SparseFactorization.factor_of_unloaded none_ phase]
        exact ⟨by simpa [Event.factored] using whenFactored, by simp [phase, Event.loaded],
          bounded.of_region rfl rfl rfl, .inl none_⟩
    · rw [SparseFactorization.factor_of_pending some_]
      exact ⟨by simp [Event.factored, without], by simp [Event.loaded],
        bounded.of_region rfl rfl rfl, .inl rfl⟩

theorem Orderly.assign (h : e.Orderly history) (sequence heading : Array Nat) :
    Continues history (.assign sequence heading) (Call.run (.assign sequence heading) e) := by
  refine Continues.of_ends .heading rfl ?_
  cases e with
  | dense d =>
    refine dispatch_dense_ends ?_
    rw [get_bind]
    cases d.assign sequence heading with
    | ok vs => exact h.of_dense (fun _ => ⟨rfl, rfl, rfl⟩) rfl
    | error b => trivial
  | sparse s =>
    refine dispatch_sparse_ends
      (((@SparseFactorization.assign_steady _ _ #[] (fun _ => False) _ _).ends s).mono
        (fun _ => id) (fun _ t same => ?_) fun _ _ => fun ⟨fails, _⟩ => fails.elim)
    exact h.of_region (fun _ => ⟨rfl, rfl, rfl⟩) (congrArg Prod.fst same)

theorem Orderly.repair (h : e.Orderly history) (sequence : Array Nat) (offset : Nat) :
    Continues history (.repair sequence offset) (Call.run (.repair sequence offset) e) := by
  change Continues history _ (((liftM (relabel sequence e.slackPairs offset) :
    Action (Engine α) (Array Nat)) >>= fun vs => pure (.pairs e.slackPairs vs)) e)
  cases relabel sequence e.slackPairs offset with
  | error b => trivial
  | ok relabelled =>
    cases e with
    | dense d => exact h.of_dense (fun _ => ⟨rfl, rfl, rfl⟩) rfl
    | sparse s => exact h.of_region (fun _ => ⟨rfl, rfl, rfl⟩) rfl

theorem Orderly.refused (h : e.Orderly history) {event : Event α} (neutral : event.Neutral) :
    e.Orderly (history ++ [event]) := by
  cases e with
  | dense d => exact h.of_dense neutral rfl
  | sparse s => exact h.of_region neutral rfl

theorem Orderly.ftran_ends (h : e.Orderly history) (within : factored history = true)
    (v : SparseVector α) :
    EndsOr (fun _ => True)
      (fun _ t => ∀ event : Event α, event.Neutral → t.Orderly (history ++ [event]))
      (fun _ _ => False)
      (Engine.ftran v e) := by
  cases e with
  | dense d =>
    have valid : d.valid = true := h.1.trans within
    exact dispatch_dense_ends ((DenseFactorization.ftran_ends valid (h.2.2 valid).1 v).mono
      (fun _ => id) (fun _ _ same event neutral => h.of_dense neutral same) fun _ _ => id)
  | sparse s =>
    exact dispatch_sparse_ends ((h.2.2.1.ftran_ends (h.1.mpr within) v).mono
      (fun _ => id) (fun _ _ same event neutral => h.of_region neutral same) fun _ _ => id)

theorem Orderly.btran_ends (h : e.Orderly history) (within : factored history = true)
    (v : SparseVector α) :
    EndsOr (fun _ => True)
      (fun _ t => ∀ event : Event α, event.Neutral → t.Orderly (history ++ [event]))
      (fun _ _ => False)
      (Engine.btran v e) := by
  cases e with
  | dense d =>
    have valid : d.valid = true := h.1.trans within
    exact dispatch_dense_ends ((DenseFactorization.btran_ends valid (h.2.2 valid).1 v).mono
      (fun _ => id) (fun _ _ same event neutral => h.of_dense neutral same) fun _ _ => id)
  | sparse s =>
    exact dispatch_sparse_ends ((h.2.2.1.btran_ends (h.1.mpr within) v).mono
      (fun _ => id) (fun _ _ same event neutral => h.of_region neutral same) fun _ _ => id)

/-- With factors, a replacement is made, or refused with nothing but records left. -/
theorem Orderly.replaceColumn_ends (h : e.Orderly history) (within : factored history = true)
    (column : SparseVector α) (row : Nat) (pivot : α) :
    EndsOr (fun _ => True)
      (fun _ t => ∀ event : Event α, event.Neutral → t.Orderly (history ++ [event]))
      (fun status t => (status = .updateRegionFull ∨ status = .singularUpdate) ∧
        ∃ records, t = e.withJournal (e.journal ++ records))
      (Engine.replaceColumn column row pivot e) := by
  cases e with
  | dense d =>
    have valid : d.valid = true := h.1.trans within
    refine dispatch_dense_ends ((DenseFactorization.replaceColumn_ends valid (h.2.2 valid).1 column
      row pivot).mono (fun _ => id) (fun _ _ same event neutral => h.of_dense neutral same) ?_)
    rintro status _ ⟨allowed, records, rfl⟩
    exact ⟨allowed, records, rfl⟩
  | sparse s =>
    refine dispatch_sparse_ends ((SparseFactorization.replaceColumn_ends (h.1.mpr within) column
      row pivot).mono (fun _ => id) ?_ ?_)
    · rintro _ t ⟨phase, pending, bounded⟩ event neutral
      exact h.of_sparse neutral phase pending bounded
    · rintro status _ ⟨allowed, records, rfl⟩
      exact ⟨allowed, records, rfl⟩

theorem Orderly.withJournal (h : e.Orderly history) {event : Event α} (neutral : event.Neutral)
    (records : Array Record) : (e.withJournal records).Orderly (history ++ [event]) := by
  cases e with
  | dense d => exact h.of_dense neutral rfl
  | sparse s => exact h.of_region neutral rfl

theorem Orderly.continues (h : e.Orderly history) (call : Call α) :
    Continues history call (call.run e) := by
  cases call with
  | allocate n lowerHint upperHint => exact h.allocate n lowerHint upperHint
  | load b => exact h.load b
  | factor context => exact h.factor context
  | assign sequence heading => exact h.assign sequence heading
  | repair sequence offset => exact h.repair sequence offset
  | ftran v =>
    refine Continues.of_ends (fun x : SparseVector α × Nat => .solution x.1 x.2) rfl ?_
    cases within : factored history with
    | true =>
      exact (h.ftran_ends within v).mono (fun _ => id)
        (fun _ _ orderly => orderly _ fun _ => ⟨rfl, rfl, rfl⟩) fun _ _ => False.elim
    | false =>
      rw [((h.idle within).refuses v 0 0).1]
      exact h.refused fun _ => ⟨rfl, rfl, rfl⟩
  | btran v =>
    refine Continues.of_ends (fun x : SparseVector α × Nat => .solution x.1 x.2) rfl ?_
    cases within : factored history with
    | true =>
      exact (h.btran_ends within v).mono (fun _ => id)
        (fun _ _ orderly => orderly _ fun _ => ⟨rfl, rfl, rfl⟩) fun _ _ => False.elim
    | false =>
      rw [((h.idle within).refuses v 0 0).2.1]
      exact h.refused fun _ => ⟨rfl, rfl, rfl⟩
  | replaceColumn column row pivot =>
    refine Continues.of_ends (fun _ => .done) rfl ?_
    cases within : factored history with
    | true =>
      refine (h.replaceColumn_ends within column row pivot).mono (fun _ => id)
        (fun _ _ orderly => orderly _ fun _ => ⟨rfl, rfl, rfl⟩) ?_
      rintro status _ ⟨-, records, rfl⟩
      exact h.withJournal (fun _ => ⟨rfl, rfl, rfl⟩) _
    | false =>
      rw [((h.idle within).refuses column row pivot).2.2]
      exact h.refused fun _ => ⟨rfl, rfl, rfl⟩

theorem Reached.orderly (h : Reached history e) : e.Orderly history := by
  induction h with
  | dense options => exact orderly_new_dense options
  | sparse options => exact orderly_new_sparse options
  | answered _ run ih => exact (ih.continues _).result run
  | failed _ run ih => exact (ih.continues _).failure run

end Steps

/-! ### Records -/

section Records

variable {records : Array Record} {e : Engine α}

/-- The engine with more records in front of its journal. -/
def noted (records : Array Record) (e : Engine α) : Engine α :=
  e.withJournal (records ++ e.journal)

end Records

/-! ### The protocol -/

section Protocol

variable {e : Engine α} {history : List (Event α)}

end Protocol

/-- A basis of two columns. -/
def pair : BasisMatrix ℚ := ⟨2, .ofLines [[(0, 2), (1, 1)], [(1, 3)]]⟩

section Protocol

variable {e : Engine α} {history : List (Event α)}

/-- A factorization is refused as an invalid call when no basis is loaded, unless a failed load is
still to be reported. That takes a basis that was loaded and not factorized since, in a sparse
engine. -/
theorem factor_refused_iff (reached : Reached history e) (context : Context α) :
    ((∃ t, factor context e = .error (.status .invalidCall) t) ↔
      loaded history = false ∧ ¬e.Pending) ∧
    (e.Pending → e.isDense = false ∧ unfactored history = true ∧
      ∃ t, factor context e = .error (.status .outOfMemory) t) := by
  have orderly := reached.orderly
  cases e with
  | dense d =>
    refine ⟨?_, False.elim⟩
    rw [factor, dispatch_dense_error_iff, DenseFactorization.factor_invalidCall_iff, ← orderly.2.1]
    exact ⟨fun loaded => ⟨loaded, id⟩, And.left⟩
  | sparse s =>
    obtain ⟨-, whenLoaded, -, owed⟩ := orderly
    constructor
    · have other : s.pending ≠ some .invalidCall := by
        rcases owed with none_ | ⟨some_, -, -⟩
        · simp [none_]
        · simp [some_]
      rw [factor, dispatch_sparse_error_iff, SparseFactorization.factor_invalidCall_iff other, ne_eq,
        whenLoaded, Bool.not_eq_true, and_comm, Pending, ne_eq, not_not]
    · intro pending
      obtain ⟨some_, -, without⟩ := owed.resolve_left pending
      exact ⟨rfl, without,
        dispatch_sparse_error_iff.mpr ⟨_, SparseFactorization.factor_of_pending some_⟩⟩

end Protocol

/-- The calls of a caller that announces an area for one entry, loads `pair` and announces anew. -/
def crowded : List (Call ℚ) := [.allocate 2 1 1, .load pair, .allocate 2 0 0]

theorem factor_refused_after_announcement : ∃ (history : List (Event ℚ)) (e : Engine ℚ), Reached history e ∧ e.isDense = true ∧
    loaded history = false ∧ unfactored history = true ∧
    ∃ t, factor .standard e = .error (.status .invalidCall) t := by
  obtain ⟨history, e, run, check⟩ := exists_follow crowded (e := dense (.new .standard))
    (p := fun history e => e.isDense && !loaded history && unfactored history) (by decide +kernel)
  simp only [Bool.and_eq_true, Bool.not_eq_true'] at check
  obtain ⟨⟨kind, without⟩, open_⟩ := check
  have reached := (Reached.dense (.standard : Options ℚ)).follow run
  obtain ⟨refused, owes⟩ := factor_refused_iff reached .standard
  have nothing : ¬e.Pending := fun pending => by simp [kind] at owes; exact owes pending
  exact ⟨history, e, reached, kind, without, open_, refused.mpr ⟨without, nothing⟩⟩

/-- An announcement leaves a failed load to be reported. -/
theorem pending_outlives_announcement : ∃ (history : List (Event ℚ)) (e : Engine ℚ), Reached history e ∧ loaded history = false ∧
    (∃ t, factor .standard e = .error (.status .outOfMemory) t) ∧
    ¬∃ t, factor .standard e = .error (.status .invalidCall) t := by
  obtain ⟨history, e, run, check⟩ := exists_follow crowded (e := sparse (.new .standard))
    (p := fun history e => !loaded history &&
      stoppedBy (.status .outOfMemory) (fun _ => true) (factor .standard e)) (by decide +kernel)
  simp only [Bool.and_eq_true, Bool.not_eq_true', stoppedBy_iff] at check
  obtain ⟨without, t, failed, -⟩ := check
  refine ⟨history, e, (Reached.sparse .standard).follow run, without, ⟨t, failed⟩, ?_⟩
  rintro ⟨u, other⟩
  exact nomatch failed.symm.trans other

end SimplexBasis.Engine
