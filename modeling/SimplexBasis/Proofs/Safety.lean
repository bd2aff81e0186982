import SimplexBasis.Proofs.Protocol
import SimplexBasis.Proofs.Sparse.Sound

/-!
# Safety

No sequence of calls, whatever their outcomes, brings a sparse engine into a state in which an
announcement, a load or a factorization breaks a contract of its data structures. All they can fail
for is space: in the areas of the engine, which is reported, or in the address space.
-/

set_option linter.unusedSectionVars false

namespace SimplexBasis.Engine

open SparseFactorization (Overflows)

variable {α : Type} [Scalar α] {e t : Engine α}

/-! ### Histories -/

/-- Which bases a caller may load: well-formed ones, for which the sizes that a sparse engine adds up
are words. -/
def Call.Proper (e : Engine α) : Call α → Prop
  | load b => (∃ columns, b.Holds columns) ∧ ∀ s, e = sparse s → s.Spacious b
  | _ => True

/-- The engine is visited by a caller whose calls do not break contracts. -/
inductive Visited : Engine α → Prop
  | dense (options : Options α) : Visited (dense (.new options))
  | sparse (options : Options α) : Visited (sparse (.new options))
  | answered {e t : Engine α} {call : Call α} {answer : Answer α} : Visited e → call.Proper e →
      call.run e = .ok answer t → Visited t
  | failed {e t : Engine α} {call : Call α} {status : Status} : Visited e → call.Proper e →
      call.run e = .error (.status status) t → Visited t
  | scaled {s s' : SparseFactorization α} {x : α} : Visited (Engine.sparse s) →
      SparseFactorization.setAreaFactor x s = .ok () s' → Visited (Engine.sparse s')

def IsLoaded : Engine α → Prop
  | dense d => d.loaded = true
  | sparse s => s.phase = .loaded

instance : (e : Engine α) → Decidable e.IsLoaded
  | dense d => inferInstanceAs (Decidable (d.loaded = true))
  | sparse s => inferInstanceAs (Decidable (s.phase = .loaded))

/-- What holds of an engine between two calls. -/
def Sound : Engine α → Prop
  | dense d => (d.loaded = true → ∃ columns, DenseFactorization.Loaded d columns) ∧
      (d.valid = true → d.loaded = false ∧ d.order.isSome = true)
  | sparse s => s.Sound

/-! ### Examples of histories -/

/-- Whether a call may be made: a basis must be accepted, and its spare entries must be words. -/
def Call.admitted (e : Engine α) : Call α → Bool
  | load b => (BasisMatrix.ofCompressed b.dimension b.columns).isOk && (match e with
    | dense _ => true
    | sparse s => decide (s.options.SparesWithin b.dimension))
  | _ => true

theorem Call.proper_of_admitted {call : Call α} (admitted : call.admitted e = true) :
    call.Proper e := by
  cases call with
  | load b =>
    simp only [Call.admitted, Bool.and_eq_true] at admitted
    obtain ⟨accepted, spares⟩ := admitted
    obtain ⟨columns, holds, -⟩ := (BasisMatrix.accepted_of_isOk accepted).holds
    refine ⟨⟨columns, holds⟩, ?_⟩
    rintro s rfl
    exact SparseFactorization.spacious_of_spares (of_decide_eq_true spares)
  | _ => trivial

/-- Whether calls may be made one after the other and lead to an engine with `p`. -/
def leadsTo (p : Engine α → Bool) : List (Call α) → Engine α → Bool
  | [], e => p e
  | call :: calls, e => call.admitted e && match call.run e with
    | .ok _ t => leadsTo p calls t
    | .error (.status _) t => leadsTo p calls t
    | .error (.breach _) _ => false

theorem Visited.exists_of_leadsTo (visited : Visited e) (calls : List (Call α))
    {p : Engine α → Bool} (leads : leadsTo p calls e = true) : ∃ t, Visited t ∧ p t = true := by
  induction calls generalizing e with
  | nil => exact ⟨e, visited, leads⟩
  | cons call calls ih =>
    rw [leadsTo, Bool.and_eq_true] at leads
    obtain ⟨admitted, leads⟩ := leads
    have proper := Call.proper_of_admitted admitted
    cases run : call.run e with
    | ok answer t =>
      rw [run] at leads
      exact ih (visited.answered proper run) leads
    | error stop t =>
      rw [run] at leads
      cases stop with
      | status status => exact ih (visited.failed proper run) leads
      | breach b => exact nomatch leads

/-! ### Steps -/

/-- The ends of a call, each of them sound. -/
abbrev Leaves (r : EStateM.Result Stop (Engine α) (Answer α)) : Prop :=
  EndsOr (fun _ => True) (fun _ t => t.Sound) (fun _ t => t.Sound) r

theorem leaves_of_ends {β : Type} {act : Action (Engine α) β} {call : Call α}
    {Q E : Engine α → Prop} (answer : β → Answer α)
    (eq : call.run = (act >>= fun x => pure (answer x)))
    (ends : EndsOr (fun _ => True) (fun _ t => Q t) (fun _ t => E t) (act e)) :
    EndsOr (fun _ => True) (fun _ t => Q t) (fun _ t => E t) (call.run e) := by
  rw [eq]
  exact EndsOr.bind ends fun _ _ h => h

/-- With factors, a dense engine has nothing loaded; without them, it refuses. -/
theorem Sound.of_region {d d' : DenseFactorization α} (h : (dense d).Sound)
    (valid : d.valid = true) (same : d'.region = d.region) : (dense d').Sound := by
  simp only [DenseFactorization.region, Prod.mk.injEq] at same
  obtain ⟨order, loaded, valid'⟩ := same
  obtain ⟨unloaded, ordered⟩ := h.2 valid
  exact ⟨fun here => by simp [loaded, unloaded] at here,
    fun _ => ⟨loaded.trans unloaded, by rw [order]; exact ordered⟩⟩

theorem Sound.idle {d : DenseFactorization α} (valid : ¬d.valid = true) : (dense d).Idle :=
  Bool.eq_false_iff.mpr valid

theorem Sound.factor [LawfulCounts α] (h : e.Sound) (context : Context α) :
    Ends (fun _ t => t.Sound ∧ e.IsLoaded)
      (fun status t => t.Sound ∧ (status = .outOfMemory ∧ e.isDense = false ∨
        status = .singular ∧ e.IsLoaded ∨ status = .invalidCall ∧ ¬e.IsLoaded))
      (factor context e) := by
  cases e with
  | dense d =>
    refine EndsOr.ends (dispatch_dense_ends ?_)
    cases loaded : d.loaded with
    | false =>
      rw [DenseFactorization.factor_of_unloaded loaded]
      exact ⟨h, .inr (.inr ⟨rfl, by simp [IsLoaded, loaded]⟩)⟩
    | true =>
      refine ((DenseFactorization.factor_loaded_ends loaded).mono ?_ ?_).or
      · rintro _ t ⟨unloaded, valid, ordered⟩
        exact ⟨⟨by simp [unloaded], fun _ => ⟨unloaded, ordered⟩⟩, loaded⟩
      · rintro _ t ⟨rfl, unloaded, valid⟩
        exact ⟨⟨by simp [unloaded], by simp [valid]⟩, .inr (.inl ⟨rfl, loaded⟩)⟩
  | sparse s =>
    refine EndsOr.ends (dispatch_sparse_ends ((SparseFactorization.Sound.factor h context).mono
      ?_ ?_).or)
    · rintro _ t ⟨sound, -, loaded, -⟩
      exact ⟨sound, loaded⟩
    · rintro status t ⟨sound, -, -, full | ⟨short, loaded, -⟩ | ⟨refused, unloaded⟩⟩
      · exact ⟨sound, .inl ⟨full, rfl⟩⟩
      · exact ⟨sound, .inr (.inl ⟨short, loaded⟩)⟩
      · exact ⟨sound, .inr (.inr ⟨refused, unloaded⟩)⟩

theorem Sound.ftran (h : e.Sound) (v : SparseVector α) :
    EndsOr (fun _ => True) (fun _ t => t.Sound) (fun _ t => t.Sound) (ftran v e) := by
  cases e with
  | dense d =>
    by_cases valid : d.valid = true
    · exact dispatch_dense_ends ((DenseFactorization.ftran_ends valid (h.2 valid).2 v).mono
        (fun _ => id) (fun _ _ => h.of_region valid) fun _ _ => False.elim)
    · rw [((Sound.idle valid).refuses v 0 0).1]
      exact h
  | sparse s =>
    exact dispatch_sparse_ends ((SparseFactorization.Sound.ftran h v).mono (fun _ => id)
      (fun _ _ => id) fun _ _ same => same ▸ h)

theorem Sound.btran (h : e.Sound) (v : SparseVector α) :
    EndsOr (fun _ => True) (fun _ t => t.Sound) (fun _ t => t.Sound) (btran v e) := by
  cases e with
  | dense d =>
    by_cases valid : d.valid = true
    · exact dispatch_dense_ends ((DenseFactorization.btran_ends valid (h.2 valid).2 v).mono
        (fun _ => id) (fun _ _ => h.of_region valid) fun _ _ => False.elim)
    · rw [((Sound.idle valid).refuses v 0 0).2.1]
      exact h
  | sparse s =>
    exact dispatch_sparse_ends ((SparseFactorization.Sound.btran h v).mono (fun _ => id)
      (fun _ _ => id) fun _ _ same => same ▸ h)

theorem Sound.replaceColumn (h : e.Sound) (column : SparseVector α) (row : Nat) (pivot : α) :
    EndsOr (fun _ => True) (fun _ t => t.Sound) (fun _ t => t.Sound)
      (replaceColumn column row pivot e) := by
  cases e with
  | dense d =>
    by_cases valid : d.valid = true
    · refine dispatch_dense_ends ((DenseFactorization.replaceColumn_ends valid (h.2 valid).2 column
        row pivot).mono (fun _ => id) (fun _ _ => h.of_region valid) ?_)
      rintro _ _ ⟨-, records, rfl⟩
      exact h.of_region valid rfl
    · rw [((Sound.idle valid).refuses column row pivot).2.2]
      exact h
  | sparse s =>
    exact dispatch_sparse_ends (SparseFactorization.Sound.replaceColumn h column row pivot)

theorem Sound.assign (h : e.Sound) (sequence heading : Array Nat) :
    EndsOr (fun _ => True) (fun _ t => t.Sound) (fun _ t => t.Sound) (assign sequence heading e) := by
  cases e with
  | dense d =>
    refine dispatch_dense_ends ?_
    rw [get_bind]
    cases d.assign sequence heading with
    | ok vs => exact h
    | error b => trivial
  | sparse s =>
    refine dispatch_sparse_ends ?_
    have steady : Steady (SparseFactorization.noted #[]) SparseFactorization.extent
        (fun _ => False) (SparseFactorization.assign (α := α) sequence heading) :=
      SparseFactorization.assign_steady sequence heading
    have ends := steady.ends s
    cases run : SparseFactorization.assign sequence heading s with
    | ok vs t => exact SparseFactorization.Sound.assign h run
    | error stop t =>
      rw [run] at ends
      cases stop with
      | status status => exact ends.1.elim
      | breach b => trivial

theorem Sound.call [LawfulCounts α] (h : e.Sound) {call : Call α} (proper : call.Proper e) :
    Leaves (call.run e) := by
  cases call with
  | allocate n lowerHint upperHint =>
    refine leaves_of_ends (fun _ => .done) rfl ?_
    cases e with
    | dense d =>
      refine dispatch_dense_ends ((DenseFactorization.allocate_after n d).mono (fun _ => id) ?_
        fun _ _ => False.elim)
      rintro _ t ⟨loaded, valid⟩
      exact ⟨by simp [loaded], by simp [valid]⟩
    | sparse s =>
      exact dispatch_sparse_ends ((SparseFactorization.Sound.allocate h n lowerHint upperHint
        fun _ => trivial).mono (fun _ => id) (fun _ _ => And.left) fun _ _ => False.elim)
  | load b =>
    obtain ⟨⟨columns, holds⟩, spacious⟩ := proper
    refine leaves_of_ends (fun _ => .done) rfl ?_
    cases e with
    | dense d =>
      refine dispatch_dense_ends (((DenseFactorization.load_ends holds d).and
        (DenseFactorization.load_after b d)).mono (fun _ _ => trivial) ?_
        fun _ _ both => both.1.elim)
      rintro _ t ⟨⟨-, -, loaded⟩, -, valid⟩
      exact ⟨fun _ => ⟨columns, loaded⟩, by simp [valid]⟩
    | sparse s =>
      exact dispatch_sparse_ends ((SparseFactorization.Sound.load h holds (spacious s rfl)
        fun _ => trivial).mono (fun _ => id) (fun _ _ => And.left) fun _ _ => False.elim)
  | factor context =>
    exact leaves_of_ends (fun _ => .done) rfl ((h.factor context).mono (fun _ _ => And.left)
      fun _ _ => And.left).or
  | assign sequence heading => exact leaves_of_ends .heading rfl (h.assign sequence heading)
  | repair sequence offset =>
    change Leaves (((liftM (relabel sequence e.slackPairs offset) :
      Action (Engine α) (Array Nat)) >>= fun vs => pure (.pairs e.slackPairs vs)) e)
    cases relabel sequence e.slackPairs offset with
    | error b => trivial
    | ok relabelled => exact h
  | ftran v =>
    exact leaves_of_ends (fun x : SparseVector α × Nat => .solution x.1 x.2) rfl (h.ftran v)
  | btran v =>
    exact leaves_of_ends (fun x : SparseVector α × Nat => .solution x.1 x.2) rfl (h.btran v)
  | replaceColumn column row pivot =>
    exact leaves_of_ends (fun _ => .done) rfl (h.replaceColumn column row pivot)

theorem Visited.sound [LawfulCounts α] (h : Visited e) : e.Sound := by
  induction h with
  | dense options => exact ⟨by simp [DenseFactorization.new], by simp [DenseFactorization.new]⟩
  | sparse options => exact SparseFactorization.sound_new options
  | answered _ proper run ih => exact (ih.call proper).result run
  | failed _ proper run ih => exact (ih.call proper).failure run
  | @scaled s s' x _ run ih =>
    obtain rfl := SparseFactorization.setAreaFactor_result run
    exact SparseFactorization.Sound.areaFactor ih x

/-! ### Safety -/

/-- No contract is broken by what leads to factors: not by an announcement whose arrays can be
addressed, not by the load of a basis whose areas can, and not by any factorization. -/
structure Safe (s : SparseFactorization α) : Prop where
  announces : ∀ n lowerHint upperHint, 2 * n + 2 ≤ addressableWords →
    Ends (fun _ _ => True) (fun _ _ => False) (allocate n lowerHint upperHint (sparse s))
  loads : ∀ (b : BasisMatrix α) columns, b.Holds columns → s.Spacious b →
    s.Addressable b.dimension b.count →
    Ends (fun _ t => t.IsLoaded) (fun _ _ => False) (load b (sparse s))
  factorizes : ∀ context, Ends (fun _ _ => (sparse s).IsLoaded)
    (fun status _ => status = .outOfMemory ∨ status = .singular ∧ (sparse s).IsLoaded ∨
      status = .invalidCall ∧ ¬(sparse s).IsLoaded) (factor context (sparse s))

theorem safe_of_visited [LawfulCounts α] {s : SparseFactorization α} (h : Visited (sparse s)) :
    Safe s where
  announces n lowerHint upperHint fits :=
    (dispatch_sparse_ends (B := fun _ => False)
      ((SparseFactorization.Sound.allocate h.sound n lowerHint upperHint (absurd fits)).mono
        (fun _ => id) (fun _ _ _ => trivial) fun _ _ => id)).ends
  loads _ _ holds spacious fits :=
    (dispatch_sparse_ends (B := fun _ => False)
      ((SparseFactorization.Sound.load h.sound holds spacious (absurd fits)).mono
        (fun _ => id) (fun _ _ loaded => loaded.2.2.2) fun _ _ => id)).ends
  factorizes context := (h.sound.factor context).mono (fun _ _ => And.right)
    fun _ _ found => found.2.imp_left And.left

/-- A basis without zeros. -/
def crammed : BasisMatrix ℚ :=
  ⟨3, .ofLines [[(0, 2), (1, 1), (2, 1)], [(0, 1), (1, 3), (2, 1)], [(0, 1), (1, 1), (2, 4)]]⟩

/-- After a factorization that was given up halfway. -/
theorem safe_after_abandoned : ∃ s : SparseFactorization ℚ, Visited (sparse s) ∧
    s.factorCount = 1 ∧ s.phase = .loaded ∧ s.pending = none ∧ Safe s := by
  obtain ⟨e, visited, check⟩ := (Visited.sparse (.standard : Options ℚ)).exists_of_leadsTo
    [.allocate 3 2 9, .load crammed, .factor .standard, .allocate 2 0 0, .load pair]
    (p := fun e => match e with
      | dense _ => false
      | sparse s => decide (s.factorCount = 1 ∧ s.phase = .loaded ∧ s.pending = none))
    (by decide +kernel)
  cases e with
  | dense d => exact nomatch check
  | sparse s =>
    obtain ⟨count, phase, pending⟩ := of_decide_eq_true check
    exact ⟨s, visited, count, phase, pending, safe_of_visited visited⟩

/-- Areas beyond all memory. -/
def vast : Options ℚ := { Options.standard with initialAreaFactor := 1e300 }

/-- The basis of a single unit. -/
def single : BasisMatrix ℚ := ⟨1, .ofLines [[(0, 1)]]⟩

/-- The scale of the areas has no bound. -/
theorem load_breaks_of_vast_areas : single.Accepted ∧ vast.SparesWithin 1 ∧
    ∃ e : Engine ℚ, Visited e ∧ e.isDense = false ∧
      ∃ t, load single e = .error (.breach .capacityOverflow) t := by
  obtain ⟨e, visited, check⟩ := (Visited.sparse vast).exists_of_leadsTo [.allocate 1 0 0]
    (p := fun e => !e.isDense &&
      stoppedBy (.breach .capacityOverflow) (fun _ => true) (load single e)) (by decide +kernel)
  rw [Bool.and_eq_true, Bool.not_eq_true', stoppedBy_iff] at check
  obtain ⟨kind, t, broken, -⟩ := check
  exact ⟨BasisMatrix.accepted_of_isOk (by decide +kernel), by decide +kernel, e, visited, kind, t,
    broken⟩

end SimplexBasis.Engine

namespace SimplexBasis.SparseFactorization

theorem exists_loaded {o : Options ℚ} {b : BasisMatrix ℚ} {lowerHint upperHint : Nat}
    {p : SparseFactorization ℚ → Bool}
    (check : endedWith (fun _ t => p t) ((do
      allocate b.dimension lowerHint upperHint
      load b : Action (SparseFactorization ℚ) Unit) (new o)) = true) :
    ∃ s t, Engine.Visited (.sparse s) ∧ s.options = o ∧ load b s = .ok () t ∧ p t = true := by
  obtain ⟨_, t, run, passes⟩ := exists_ok_of_check _ check
  obtain ⟨_, s, allocated, loaded⟩ := ok_of_bind run
  have options := ((allocate_ends _ _ _ _).result allocated).2
  have call : Engine.Call.run (.allocate b.dimension lowerHint upperHint) (.sparse (new o)) =
      .ok .done (.sparse s) :=
    bind_of_ok (Engine.dispatch_sparse_run allocated)
  have proper : Engine.Call.Proper (.sparse (new o)) (.allocate b.dimension lowerHint upperHint) :=
    trivial
  exact ⟨s, t, (Engine.Visited.sparse o).answered proper call, options, loaded, passes⟩

end SimplexBasis.SparseFactorization
