import SimplexBasis.Proofs.Sparse.Outcomes
import SimplexBasis.Proofs.Sparse.Product

/-!
# Exhaustion

The tolerances are relaxed only where no entry has the regular ones, and a factorization gives up
only where no entry is left that is worth a pivot. The loop is taken turn by turn: `searches` lists
the states in which it searches, and the counter of relaxed pivots counts those of them in which the
search fell back on the relaxed tolerances.
-/

set_option linter.unusedSectionVars false

namespace SimplexBasis.SparseFactorization

variable {α : Type} [Scalar α] {s t u h : SparseFactorization α} {remaining seen : Nat}

/-! ### The turns of the loop -/

/-- One turn of the loop: a search, and the pivot that it finds. Answers nothing if there is
none. -/
def turn (seen : Nat) : Action (SparseFactorization α) (Option Nat) := do
  match ← findPivot with
  | none => return none
  | some (i, j) =>
    pivotOn i j
    let seen ← logCompressions seen
    return some seen

/-- The loop behind a turn. -/
def loopAfter (remaining : Nat) : Option Nat → Action (SparseFactorization α) Unit
  | none => pure ()
  | some seen => pivotLoop remaining seen

/-- The states in which the loop searches for a pivot, in order. -/
def searches : Nat → Nat → SparseFactorization α → List (SparseFactorization α)
  | 0, _, _ => []
  | remaining + 1, seen, s =>
    match s.denseBlockDue with
    | .ok false =>
      s :: match turn seen s with
        | .ok (some seen) t => searches remaining seen t
        | .ok none _ => []
        | .error .. => []
    | .ok true => []
    | .error _ => []

/-- Whether the search falls back on the relaxed tolerances for its pivot. -/
def relaxes (s : SparseFactorization α) : Bool :=
  match findPivot s with
  | .ok _ t => s.counters.relaxed < t.counters.relaxed
  | .error .. => false

/-- The pivots before the loop. -/
def cascade : Action (SparseFactorization α) Nat := do
  let seen := (← get).compressions
  singletons
  logCompressions seen

/-- The states in which a factorization searches for a pivot, in order. -/
def searchesOf (context : Context α) (s : SparseFactorization α) : List (SparseFactorization α) :=
  if s.pending = none ∧ s.phase = .loaded then
    match cascade (s.begun context) with
    | .ok seen t => searches (t.dimension - t.rank) seen t
    | .error .. => []
  else []

/-! ### Runs as sequences of turns -/

theorem pivotLoop_turn (due : s.denseBlockDue = .ok false) :
    pivotLoop (remaining + 1) seen s = (turn seen >>= loopAfter remaining) s := by
  unfold pivotLoop turn
  rw [get_bind, due, lift_ok_bind, bind_assoc]
  refine congrFun (congrArg (findPivot >>= ·) (funext fun found => ?_)) s
  rcases found with _ | ⟨i, j⟩
  · rfl
  · simp only [bind_assoc, pure_bind]
    rfl

theorem factorizeLoaded_eq : factorizeLoaded = (cascade >>= fun seen => do
    let s ← get
    pivotLoop (s.dimension - s.rank) seen
    finishFactors : Action (SparseFactorization α) Unit) := by
  unfold factorizeLoaded cascade
  simp only [bind_assoc]

/-- What holds before the loop and is kept by its turns holds in every state in which the loop
searches. -/
theorem searches_induct {P : Nat → Nat → SparseFactorization α → Prop}
    (start : P remaining seen s)
    (step : ∀ {r seen seen' : Nat} {s t : SparseFactorization α}, P (r + 1) seen s →
      s.denseBlockDue = .ok false → turn seen s = .ok (some seen') t → P r seen' t) :
    ∀ h ∈ searches remaining seen s,
      h.denseBlockDue = .ok false ∧ ∃ r seen', P (r + 1) seen' h := by
  -- The first state searches itself; the others are those of the loop behind its turn.
  induction remaining generalizing seen s with
  | zero => simp [searches]
  | succ remaining ih =>
    intro h member
    unfold searches at member
    split at member
    · rename_i due
      rcases List.mem_cons.mp member with rfl | later
      · exact ⟨due, remaining, seen, start⟩
      · split at later
        · exact ih (step start due ‹_›) h later
        · exact absurd later List.not_mem_nil
        · exact absurd later List.not_mem_nil
    · exact absurd member List.not_mem_nil
    · exact absurd member List.not_mem_nil

theorem pivotLoop_passes : ∀ h ∈ searches remaining seen s, h.denseBlockDue = .ok false ∧
    ∃ r seen', pivotLoop remaining seen s = pivotLoop (r + 1) seen' h := by
  refine @searches_induct _ _ s remaining seen
    (fun r seen' h => pivotLoop remaining seen s = pivotLoop r seen' h) rfl ?_
  intro r seen' seen'' h t passed due turned
  rw [passed, pivotLoop_turn due, bind_of_ok turned]
  rfl

/-! ### Counting the relaxed pivots -/

section Counting

variable {β γ : Type} {n : Nat} {act : Action (SparseFactorization α) γ}
  {next : γ → Action (SparseFactorization α) β}

/-- The run counts `n` relaxed pivots, also if it fails. -/
def Counts (n : Nat) (s : SparseFactorization α) :
    EStateM.Result Stop (SparseFactorization α) β → Prop :=
  EndsOr (fun _ => True) (fun _ t => t.counters.relaxed = s.counters.relaxed + n)
    fun _ t => t.counters.relaxed = s.counters.relaxed + n

theorem Counts.bind (first : Counts n s (act s)) (rest : ∀ x t, Counts 0 t (next x t)) :
    Counts n s ((act >>= next) s) :=
  EndsOr.bind first fun x t counted => (rest x t).mono (fun _ => id)
    (fun _ _ same => same.trans counted) fun _ _ same => same.trans counted

theorem relaxed_of_strict (same : t.strict = s.strict) : t.counters.relaxed = s.counters.relaxed :=
  congrArg (·.counters.relaxed) same

theorem counts_zero {F : Status → Prop} (h : Steady (noted #[]) strict F act)
    (s : SparseFactorization α) : Counts 0 s (act s) :=
  (h.ends s).mono (fun _ => id) (fun _ _ => relaxed_of_strict)
    fun _ _ ⟨_, same⟩ => relaxed_of_strict same

/-- An action that never fails and repeats no search counts no relaxed pivot. -/
theorem relaxed_kept (h : Steady (noted #[]) strict (fun _ => False) act)
    (s : SparseFactorization α) :
    EndsOr (fun _ => True) (fun x t => act s = .ok x t ∧ t.counters.relaxed = s.counters.relaxed)
      (fun _ _ => False) (act s) :=
  (h.ends s).noted.mono (fun _ => id) (fun _ _ ⟨run, same⟩ => ⟨run, relaxed_of_strict same⟩)
    fun _ _ ⟨_, never, _⟩ => never

theorem relaxedSearch_relaxed (s : SparseFactorization α) :
    EndsOr (fun _ => True)
      (fun found t => t.counters.relaxed = s.counters.relaxed + if found.isSome then 1 else 0)
      (fun _ _ => False) (relaxedSearch s) := by
  unfold relaxedSearch
  refine (relaxed_kept restoreRejected_strict s).bind fun _ t ⟨_, first⟩ => ?_
  rw [get_bind, modify_bind]
  refine (relaxed_kept searchPivot_strict _).bind fun found u ⟨_, second⟩ => ?_
  have kept : u.counters.relaxed = s.counters.relaxed := second.trans first
  rw [modify_bind]
  split
  · rw [bind_of_ok (updateCounters_run _), get_bind, bind_of_ok (log_run _ _)]
    exact congrArg (· + 1) kept
  · exact (relaxed_kept restoreRejected_strict _).bind fun _ w ⟨_, third⟩ => third.trans kept

/-- A search counts a relaxed pivot where the regular search has found none and the repeated one
finds one. -/
theorem findPivot_relaxed (s : SparseFactorization α) :
    EndsOr (fun _ => True)
      (fun found t => searchPivot s = .ok (.ok found) t ∧ t.counters.relaxed = s.counters.relaxed ∨
        ∃ e u, searchPivot s = .ok (.error e) u ∧ relaxedSearch u = .ok found t ∧
          t.counters.relaxed = s.counters.relaxed + if found.isSome then 1 else 0)
      (fun _ _ => False) (findPivot s) := by
  unfold findPivot
  refine (relaxed_kept searchPivot_strict s).bind fun answer t ⟨search, first⟩ => ?_
  rcases answer with e | found
  · refine (relaxedSearch_relaxed t).noted.mono (fun _ => id) ?_ fun _ _ => And.right
    rintro found u ⟨run, counted⟩
    exact .inr ⟨e, t, search, run, first ▸ counted⟩
  · exact .inl ⟨search, first⟩

theorem findPivot_counts (s : SparseFactorization α) :
    Counts (if relaxes s then 1 else 0) s (findPivot s) := by
  refine (findPivot_relaxed s).noted.mono (fun _ => id) ?_ fun _ _ ⟨_, never⟩ => never.elim
  rintro found t ⟨run, ⟨-, same⟩ | ⟨-, -, -, -, counted⟩⟩
  · simp [relaxes, run, same]
  · cases found <;> simp [relaxes, run, counted]

/-- Where a search that falls back on the relaxed tolerances has found its pivot. -/
theorem of_relaxes (fallback : relaxes s = true) : ∃ i j e t u,
    findPivot s = .ok (some (i, j)) t ∧ searchPivot s = .ok (.error e) u ∧
      relaxedSearch u = .ok (some (i, j)) t := by
  unfold relaxes at fallback
  split at fallback
  · rename_i found t run
    rcases (findPivot_relaxed s).result run with ⟨-, same⟩ | ⟨e, u, search, again, counted⟩
    · simp [same] at fallback
    · rcases found with _ | ⟨i, j⟩
      · simp [counted] at fallback
      · exact ⟨i, j, e, t, u, run, search, again⟩
  · simp at fallback

theorem of_not_relaxes {i j : Nat} (run : findPivot s = .ok (some (i, j)) t)
    (regular : ¬relaxes s = true) : searchPivot s = .ok (.ok (some (i, j))) t := by
  rcases (findPivot_relaxed s).result run with ⟨search, -⟩ | ⟨-, -, -, -, counted⟩
  · exact search
  · exact absurd (by simp [relaxes, run, counted]) regular

theorem turn_counts (seen : Nat) (s : SparseFactorization α) :
    Counts (if relaxes s then 1 else 0) s (turn seen s) := by
  unfold turn
  refine (findPivot_counts s).bind fun found t => ?_
  rcases found with _ | ⟨i, j⟩
  · exact rfl
  · exact (counts_zero pivotOn_tally.strict t).bind fun _ u =>
      (counts_zero (logCompressions_strict seen) u).bind fun _ _ => rfl

theorem pivotLoop_counts (remaining seen : Nat) (s : SparseFactorization α) :
    Counts ((searches remaining seen s).countP relaxes) s (pivotLoop remaining seen s) := by
  induction remaining generalizing seen s with
  | zero => exact rfl
  | succ remaining ih =>
    cases due : s.denseBlockDue with
    | error b =>
      unfold pivotLoop
      rw [get_bind, due]
      trivial
    | ok due' =>
      cases due' with
      | true =>
        -- The dense block is not searched for, so none of its pivots counts as relaxed.
        unfold pivotLoop
        rw [get_bind, searches, due, lift_ok_bind, if_pos rfl]
        exact counts_zero factorizeBlock_strict s
      | false =>
        have first := turn_counts seen s
        rw [pivotLoop_turn due, searches, due]
        cases turned : turn seen s with
        | error stop t =>
          rw [bind_of_error turned]
          cases stop with
          | breach b => trivial
          | status e => simpa [Counts, EndsOr] using first.failure turned
        | ok found t =>
          have before := first.result turned
          rw [bind_of_ok turned]
          cases found with
          | none => simpa [Counts, EndsOr, loopAfter] using before
          | some seen' =>
            refine (ih seen' t).mono (fun _ => id) (fun _ u after => ?_) fun _ u after => ?_
            · simp only [List.countP_cons]
              omega
            · simp only [List.countP_cons]
              omega

/-- A factorization counts the relaxed pivots among those that it searches for. -/
theorem factorizeLoaded_counts (context : Context α) (pending : s.pending = none)
    (phase : s.phase = .loaded) :
    Counts ((searchesOf context s).countP relaxes) s (factorizeLoaded (s.begun context)) := by
  have singly : Strict #[] (cascade : Action (SparseFactorization α) Nat) := by
    unfold cascade
    exact Steady.get_bind (fun _ => rfl) fun s => singletons_strict.bind fun _ =>
      logCompressions_strict _
  have first := counts_zero singly (s.begun context)
  rw [factorizeLoaded_eq]
  unfold searchesOf
  rw [if_pos ⟨pending, phase⟩]
  cases run : cascade (s.begun context) with
  | error stop t =>
    rw [bind_of_error run]
    cases stop with
    | breach b => trivial
    | status e => exact first.failure run
  | ok seen t =>
    have before : t.counters.relaxed = s.counters.relaxed := first.result run
    have rest : Counts ((searches (t.dimension - t.rank) seen t).countP relaxes) t
        ((pivotLoop (t.dimension - t.rank) seen >>= fun _ => finishFactors) t) :=
      (pivotLoop_counts _ seen t).bind fun _ u => counts_zero finishFactors_strict u
    rw [bind_of_ok run, get_bind]
    unfold Counts at rest ⊢
    rwa [before] at rest

end Counting

/-! ### The states that search -/

section Chains

variable {m : Nat} {stages : List (Stage α)} {v : ActiveView α} {seen' : Nat}

theorem Advanced.logCompressions (h : Advanced s m stages v t)
    (run : SparseFactorization.logCompressions seen t = .ok seen' u) : Advanced s m stages v u := by
  obtain ⟨more, w, working, setup, chain⟩ := h
  obtain ⟨xs, rfl⟩ := logCompressions_result run
  exact ⟨more, w, working.of_setup rfl rfl rfl rfl, setup, chain⟩

/-- A turn from `t`, which shows `v`, that takes the entry `x` in row `i` of column `j`. -/
structure Turned (t : SparseFactorization α) (m : Nat) (stages : List (Stage α)) (v : ActiveView α)
    (i j : Nat) (x : α) (w : ActiveView α) (u : SparseFactorization α) : Prop where
  found : ∃ q, findPivot t = .ok (some (i, j)) q
  member : (i, x) ∈ v.cols j
  working : Working u m (stages ++ [v.stageAt i j x]) w
  chain : Pivoting t.options.zeroTolerance m stages v [v.stageAt i j x] w
  setup : u.setup = t.setup
  counted : t.tallies.SamePivots u.tallies

theorem Working.turn (h : Working t m stages v) (seen : Nat) :
    Ends (fun more u => match more with
        | none => ∃ w, Searched t m stages v u w
        | some _ => ∃ i j x w, Turned t m stages v i j x w u)
      (Stuck t m stages) (SparseFactorization.turn seen t) := by
  obtain ⟨found, q, w, search, searched, result, -⟩ := findPivot_ok h
  unfold SparseFactorization.turn
  rw [bind_of_ok search]
  rcases found with _ | ⟨i, j⟩
  · exact ⟨w, searched⟩
  · obtain ⟨hj, key⟩ := result
    obtain ⟨⟨i, x⟩, member, rfl⟩ := List.mem_map.mp key
    have member' : (i, x) ∈ w.cols j := searched.same.cols ▸ member
    have stage : w.stageAt i j x = v.stageAt i j x := by rw [searched.same]; rfl
    have chain : Pivoting t.options.zeroTolerance m stages v [w.stageAt i j x]
        (w.pivotAt t.options.zeroTolerance i j x) :=
      (Pivoting.start.relist searched.same searched.aside).pivot
        (by simpa using searched.working.consistent) hj member'
    refine ((pivotOn_tally.ends (searched.working.pivotOn hj member')).mono (fun _ _ => id)
      fun _ _ stuck => stuck.of_setup searched.setup).bind ?_
    rintro _ r ⟨⟨working, setup⟩, tallies⟩
    obtain ⟨seen', u, logged, frame⟩ := working.underway.logCompressions seen
    rw [bind_of_ok logged]
    rw [options_of_setup searched.setup, stage] at working
    rw [stage] at chain
    refine ⟨i, j, x, _, ⟨q, search⟩, member, ?_, chain, ?_, ?_⟩ <;> rw [frame]
    · exact working.of_setup rfl rfl rfl rfl
    · exact setup.trans searched.setup
    · exact (congrArg t.tallies.SamePivots tallies).mpr searched.counted

theorem Advanced.turn (h : Advanced s m stages v t)
    (run : SparseFactorization.turn seen t = .ok (some seen') u) : Advanced s m stages v u := by
  obtain ⟨more, w, working, setup, chain⟩ := h
  obtain ⟨i, j, x, w', turned⟩ := (working.turn seen).result run
  have step := turned.chain
  rw [options_of_setup setup] at step
  exact ⟨_, w', List.append_assoc .. ▸ turned.working, turned.setup.trans setup, chain.trans step⟩

theorem Working.cascade_advanced (h : Working s m stages v)
    (run : SparseFactorization.cascade s = .ok seen t) : Advanced s m stages v t := by
  unfold SparseFactorization.cascade at run
  rw [get_bind] at run
  obtain ⟨_, u, singletons, logged⟩ := ok_of_bind run
  obtain ⟨q, leads⟩ := @singletons_leads _ _ m s.rules ⟨stages, v, s.tallies⟩
  exact ((leads.advanced h.at).result singletons).logCompressions logged

/-- What is known of the states in which a factorization searches: pivots of the loaded matrix lead
to them, and the factorization passes through them. -/
theorem Working.of_mem_searchesOf (context : Context α)
    (working : Working (s.begun context) m stages v) (member : h ∈ searchesOf context s) :
    Advanced (s.begun context) m stages v h ∧ h.denseBlockDue = .ok false ∧
      ∃ remaining seen, factorizeLoaded (s.begun context) =
        (do
          pivotLoop (remaining + 1) seen
          finishFactors : Action (SparseFactorization α) Unit) h := by
  unfold searchesOf at member
  split at member
  · split at member
    · rename_i seen t run
      have start := working.cascade_advanced run
      obtain ⟨-, -, -, advanced⟩ := @searches_induct _ _ t (t.dimension - t.rank) seen
        (fun _ _ h => Advanced (s.begun context) m stages v h) start
        (fun advanced _ turned => advanced.turn turned) h member
      obtain ⟨due, r, seen', passes⟩ := pivotLoop_passes h member
      refine ⟨advanced, due, r, seen', ?_⟩
      rw [factorizeLoaded_eq, bind_of_ok run, get_bind]
      change EStateM.bind _ _ t = EStateM.bind _ _ h
      unfold EStateM.bind
      rw [passes]
    · simp at member
  · simp at member

theorem At.used_block [LawfulCounts α] {ρ : Rules α} {p : Point α} (there : At ρ m p t)
    (triangular : Triangular m p.stages) (due : p.dense ρ m = true) :
    Ends (fun _ _ => True) (fun e u => e = .singular → u.counters.denseSize ≠ 0)
      ((factorizeBlock >>= fun _ => finishFactors) t) := by
  refine ((there.working.factorizeBlock triangular (there.small_of_dense due)).mono
    (fun _ _ => id) fun e u stuck => ?_).bind ?_
  · rintro rfl
    exact nomatch stuck.1
  · rintro _ u ⟨⟨setup, -, -, block, blocked, factors⟩, range, flops, counters⟩
    have run := finishFactors_run factors
      ((dimension_of_setup setup).trans there.working.dimension) (blocked.triangular triangular)
    have size : u.counters.denseSize = m - p.stages.length := by rw [counters]
    have some := length_lt_of_dense due
    rw [run]
    split
    · trivial
    · intro _ (unused : u.counters.denseSize = 0)
      omega

end Chains

/-! ### Where the tolerances are relaxed and where a factorization gives up -/

section Exact

variable {s t h : SparseFactorization ℚ} {m : Nat} {stages : List (Stage ℚ)} {v w : ActiveView ℚ}
  {columns : List (List (Nat × ℚ))}

/-- No entry of the active submatrix has both tolerances, the relative one as share of the maximum
that is kept for its column. -/
def NoneEligible (s : SparseFactorization ℚ) (absolute relative : ℚ) : Prop :=
  ∀ j < s.dimension, ∃ entries largest, s.active.cols.line j = .ok entries ∧
    entry s.active.colMax j = .ok largest ∧ (entries ≠ [] → largest = largestOf entries) ∧
    ∀ e ∈ entries, e.2 ≠ 0 → absolute ≤ |e.2| → |e.2| < relative * largest

/-- The relaxed pivots that are counted in `t`, at the end of a factorization from `s`: each is
found by a search that the factorization passes through, in a state in which no entry has the
regular tolerances. -/
structure RelaxedLast (context : Context ℚ) (s t : SparseFactorization ℚ) : Prop where
  counted : t.counters.relaxed = (searchesOf context s).countP relaxes
  passed : ∀ h ∈ searchesOf context s, h.denseBlockDue = .ok false ∧
    ∃ remaining seen, factorizeLoaded (s.begun context) =
      (do
        pivotLoop (remaining + 1) seen
        finishFactors : Action (SparseFactorization ℚ) Unit) h
  found : ∀ h ∈ searchesOf context s, relaxes h = true →
    ∃ i j u, findPivot h = .ok (some (i, j)) u
  none : ∀ h ∈ searchesOf context s, relaxes h = true → h.NoneEligible
    (rulesOf s.options context).absoluteTolerance (rulesOf s.options context).relativeTolerance

/-- In `t`, at the end of a factorization from `s`, all entries left are zero or below the zero
tolerance, no row is set aside, and the tolerances are the regular ones. -/
structure GivenUp (context : Context ℚ) (s t : SparseFactorization ℚ) : Prop where
  small : ∀ j < t.dimension, ∃ entries, t.active.cols.line j = .ok entries ∧
    ∀ e ∈ entries, e.2 = 0 ∨ |e.2| < s.options.zeroTolerance
  restored : t.active.rowCounts.toList (t.dimension + 1) = .ok []
  absolute : t.absoluteTolerance = (rulesOf s.options context).absoluteTolerance
  relative : t.relativeTolerance = (rulesOf s.options context).relativeTolerance

theorem below_share_of_barren {rule : SearchRule ℚ} {j : Nat} (barren : Barren rule v j)
    (known : v.colMax.getD j 0 = largestOf (v.cols j)) : ∀ e ∈ v.cols j, e.2 ≠ 0 →
      rule.absoluteTolerance ≤ |e.2| → |e.2| < rule.relativeTolerance * v.colMax.getD j 0 := by
  intro e he nonzero large
  have below : |e.2| ≤ v.colMax.getD j 0 := (le_largestOf he).trans_eq known.symm
  rcases barren with zero | less | small
  · exact absurd (abs_nonpos_iff.mp (below.trans_eq (beq_iff_eq.mp zero))) nonzero
  · exact absurd (large.trans below) (not_le.mpr less)
  · have bound := small e he
    rw [scalar_abs, scalar_max] at bound
    exact (lt_max_iff.mp bound).resolve_left (not_lt.mpr large)

/-- Where the search falls back on the relaxed tolerances, nothing is eligible. -/
theorem Working.noneEligible_of_relaxes (working : Working h m stages v)
    (known : v.MaxKnown m (stages.map Stage.col)) (fallback : relaxes h = true) :
    h.NoneEligible h.absoluteTolerance h.relativeTolerance := by
  obtain ⟨-, -, e, -, u, -, search, -⟩ := of_relaxes fallback
  obtain ⟨answer, q, passes, -, answered⟩ :=
    @searchPivot_passes _ _ m h.rules ⟨stages, v, h.tallies⟩ working.consistent
  obtain ⟨t, run, -⟩ := passes.runs h working.at
  cases search.symm.trans run
  intro j hj
  rw [working.dimension] at hj
  have sized : j < v.colMax.size := working.consistent.sized.symm ▸ hj
  refine ⟨v.cols j, v.colMax.getD j 0, working.active.cols.line_eq hj, ?_, ?_, ?_⟩
  · rw [working.active.colMax, entry_eq_ok_iff]
    simp [sized]
  · exact fun filled => known j hj fun done => filled (working.consistent.col_done hj done)
  · rcases answered j hj with barren | empty
    · intro e he
      refine below_share_of_barren barren (known j hj fun done => ?_) e he
      simp [working.consistent.col_done hj done] at he
    · have empty : v.cols j = [] := empty
      simp [empty]

theorem At.givenUp {ρ : Rules ℚ} {p : Point ℚ} (there : At ρ m p t)
    (found : Found ρ m p.view none) (known : p.view.MaxKnown m (p.stages.map Stage.col))
    (restored : p.view.rowLists (m + 1) = []) (context : Context ℚ)
    (rules : ρ = (s.begun context).rules) : GivenUp context s t := by
  subst rules
  refine ⟨fun j hj => ?_, ?_, congrArg (·.absoluteTolerance) there.rules,
    congrArg (·.relativeTolerance) there.rules⟩
  · rw [there.working.dimension] at hj
    have share : (s.begun context).rules.relativeTolerance ≤ 1 := clamp_le _ minPositive_le_one
    exact ⟨_, there.working.active.cols.line_eq hj,
      found.small there.working.consistent known share j hj⟩
  · rw [there.working.dimension, there.working.active.rowLists.toList_eq
      (by rw [there.working.active.rowLength]; omega), restored]

/-- A factorization that has not used the dense block gives up where nothing is left. -/
theorem factorizeLoaded_givenUp (loaded : Loaded s columns) (context : Context ℚ) :
    Ends (fun _ _ => True)
      (fun e t => e = .singular → t.counters.denseSize = 0 → GivenUp context s t)
      (factorizeLoaded (s.begun context)) := by
  obtain ⟨v, stages, w, initial, chain, working⟩ := loaded.working
  obtain ⟨q, rest, leads, closing⟩ := @factorizeLoaded_leads _ _ s.dimension (s.begun context).rules
    ⟨stages, w, (s.begun context).tallies⟩
  obtain ⟨more, eq, onward⟩ := leads.onward
  have triangular : Triangular s.dimension q.stages :=
    eq ▸ onward.triangular (chain.triangular .nil)
  refine leads.ends_of (working.begun context).at (fun t there _ => ?_) fun _ t _ _ stuck => ?_
  · obtain ⟨rfl, stop⟩ | ⟨rfl, due⟩ := closing
    · have run := finishFactors_run there.working.factors there.working.dimension
        triangular
      rw [pure_bind, run]
      split
      · trivial
      · rename_i short
        intro _ _
        obtain ⟨found, restored⟩ := (stop there.working.consistent).resolve_left short
        have known : q.view.MaxKnown s.dimension (q.stages.map Stage.col) := by
          rw [eq]
          exact onward.maxKnown (by simpa using chain.maxKnown initial.known)
        -- What is counted of the factors is no part of the point, so the state is still there.
        have same : At (s.begun context).rules s.dimension q { t with
            counters := { t.counters with
              lowerCount := t.factors.lower.count, upperCount := t.factors.upper.count } } :=
          ⟨there.working.of_setup rfl rfl rfl rfl, there.rules, there.tallies⟩
        exact same.givenUp found known
          (restored (onward.asideFilled (chain.asideFilled initial.aside))) context rfl
    · exact (there.used_block triangular due).mono (fun _ _ => id) fun e u used singular unused =>
        absurd unused (used singular)
  · rintro ⟨⟩

theorem Loaded.exhaustive (loaded : Loaded s columns) (fresh : s.counters.relaxed = 0)
    (context : Context ℚ) :
    Ends (fun _ t => RelaxedLast context s t)
      (fun e t => RelaxedLast context s t ∧
        (e = .singular → t.counters.denseSize = 0 → GivenUp context s t))
      (factorizeLoaded (s.begun context)) := by
  have counts := factorizeLoaded_counts context loaded.pending loaded.phase
  unfold Counts at counts
  rw [fresh, Nat.zero_add] at counts
  have given := factorizeLoaded_givenUp loaded context
  obtain ⟨v, stages, w, initial, chain, working⟩ := loaded.working
  have states := fun h member =>
    @Working.of_mem_searchesOf _ _ s h _ _ _ context (working.begun context) member
  have last : ∀ t : SparseFactorization ℚ,
      t.counters.relaxed = (searchesOf context s).countP relaxes →
      RelaxedLast context s t := fun t counted =>
    { counted
      passed := fun h member => (states h member).2
      found := fun h _ fallback => by
        obtain ⟨i, j, -, u, -, run, -⟩ := of_relaxes fallback
        exact ⟨i, j, u, run⟩
      none := fun h member fallback => by
        obtain ⟨⟨more, u, working', setup, chain'⟩, -⟩ := states h member
        have known := chain'.maxKnown (chain.maxKnown initial.known)
        have none_ : h.NoneEligible h.rules.absoluteTolerance h.rules.relativeTolerance :=
          working'.noneEligible_of_relaxes known fallback
        rw [rules_of_setup setup] at none_
        exact none_ }
  exact EndsOr.ends ((counts.and given.or).mono (fun _ => And.right)
    (fun _ t ⟨counted, _⟩ => last t counted) fun _ t ⟨counted, left⟩ => ⟨last t counted, left⟩)

/-- A factorization relaxes the tolerances only where no entry has the regular ones. Unless it has
used the dense block, it reports a singular basis only where nothing is left that is worth a
pivot. -/
theorem factor_exhaustive {b : BasisMatrix ℚ} {q r : SparseFactorization ℚ}
    {announced lowerHint upperHint : Nat} (accepted : b.Accepted)
    (spares : q.options.SparesWithin b.dimension)
    (allocated : allocate announced lowerHint upperHint q = .ok () r)
    (loaded : load b r = .ok () s) (context : Context ℚ) :
    Ends (fun _ t => RelaxedLast context s t)
      (fun e t => RelaxedLast context s t ∧
        (e = .singular → t.counters.denseSize = 0 → GivenUp context s t))
      (factor context s) := by
  obtain ⟨prepared, kept⟩ := (allocate_ends _ _ _ _).result allocated
  obtain ⟨columns, holds, -⟩ := accepted.holds
  obtain ⟨-, -, -, -, fresh⟩ := (load_after b r).result loaded
  obtain ⟨-, -, -, -, -, loaded | pending⟩ := (load_ends prepared holds
    (spacious_of_spares (by rwa [kept]))).result loaded
  · rw [factor_of_loaded loaded.pending loaded.phase]
    refine Ends.conclude (loaded.exhaustive fresh context) (fun t _ last => { last with }) ?_
    rintro e t xs ⟨last, left⟩
    exact ⟨{ last with }, fun singular unused => { left singular unused with }⟩
  · have none_ : searchesOf context s = [] := by simp [searchesOf, pending]
    rw [factor_of_pending pending]
    exact ⟨⟨by simp [none_, fresh], by simp [none_], by simp [none_], by simp [none_]⟩, by simp⟩

/-- Two equal columns below the absolute tolerance, and an entry below the zero tolerance. -/
def fading : BasisMatrix ℚ :=
  ⟨3, .ofLines [[(0, 1 / 2), (1, 1 / 2)], [(0, 1 / 2), (1, 1 / 2)], [(2, 1 / 20)]]⟩

/-- Pivots are large unless the search is repeated. -/
def cautious : Options ℚ :=
  { Options.standard with absolutePivotTolerance := 1, zeroTolerance := 1 / 10 }

/-- One relaxed pivot, and a small entry left. -/
theorem exhaustive_of_fading : ∃ r s t, fading.Accepted ∧
    cautious.SparesWithin fading.dimension ∧
    allocate 3 9 9 (new cautious) = .ok () r ∧ load fading r = .ok () s ∧
    factor .standard s = .error (.status .singular) t ∧ t.counters.relaxed = 1 ∧
    t.active.cols.line 2 = .ok [(2, 1 / 20)] ∧ RelaxedLast .standard s t ∧
    GivenUp .standard s t := by
  obtain ⟨_, s, run, check⟩ := @exists_ok_of_check _ _ (do
      allocate 3 9 9
      load fading : Action (SparseFactorization ℚ) Unit) (new cautious)
    (fun _ s => stoppedBy (.status .singular) (fun t => t.counters.relaxed == 1 &&
      t.counters.denseSize == 0 && (t.active.cols.line 2).toOption == some [(2, 1 / 20)])
      (factor .standard s)) (by decide +kernel)
  obtain ⟨_, r, allocated, loaded⟩ := ok_of_bind run
  obtain ⟨t, factored, left⟩ := stoppedBy_iff.mp check
  simp only [Bool.and_eq_true, beq_iff_eq] at left
  obtain ⟨⟨relaxed, unused⟩, line⟩ := left
  have accepted : fading.Accepted := BasisMatrix.accepted_of_isOk (by decide +kernel)
  have spares : cautious.SparesWithin fading.dimension := by decide +kernel
  obtain ⟨last, given⟩ := (factor_exhaustive (q := new cautious) accepted spares allocated loaded
    .standard).failure factored
  exact ⟨r, s, t, accepted, spares, allocated, loaded, factored, relaxed, eq_ok_of_toOption line,
    last, given rfl unused⟩

/-- A basis whose lines overlap once they have to be moved. -/
def knotted : BasisMatrix ℚ :=
  ⟨5, .ofLines [[(0, -1), (3, 2), (1, 4)], [(4, -1), (0, 1), (2, 2)], [(3, 1), (1, 4)],
    [(2, -2), (1, 1), (3, -1)], [(0, -1), (4, 1), (1, 1)]]⟩

/-- Only the largest entries of a column are taken. -/
def strictest : Options ℚ := { boundless with pivotTolerance := 1, relaxedPivotTolerance := 1 }

/-- Without the bound on the spare entries, a basis may be reported singular although entries are
left whose magnitude is one. -/
theorem not_givenUp_of_overlap : ∃ r s t, knotted.Accepted ∧ 0 ≤ strictest.zeroTolerance ∧
    allocate 5 300 14 (new strictest) = .ok () r ∧ load knotted r = .ok () s ∧
    factor .standard s = .error (.status .singular) t ∧ t.counters.denseSize = 0 ∧
    t.active.cols.line 0 = .ok [(0, -1), (4, -1)] ∧ ¬GivenUp .standard s t := by
  obtain ⟨_, s, run, check⟩ := @exists_ok_of_check _ _ (do
      allocate 5 300 14
      load knotted : Action (SparseFactorization ℚ) Unit) (new strictest)
    (fun _ s => s.options.zeroTolerance == 0 &&
      stoppedBy (.status .singular) (fun t => t.dimension == 5 && t.counters.denseSize == 0 &&
        (t.active.cols.line 0).toOption == some [(0, -1), (4, -1)]) (factor .standard s))
    (by decide +kernel)
  obtain ⟨_, r, allocated, loaded⟩ := ok_of_bind run
  simp only [Bool.and_eq_true, beq_iff_eq] at check
  obtain ⟨tolerance, stopped⟩ := check
  obtain ⟨t, factored, left⟩ := stoppedBy_iff.mp stopped
  simp only [Bool.and_eq_true, beq_iff_eq] at left
  obtain ⟨⟨dimension, unused⟩, line⟩ := left
  have line := eq_ok_of_toOption line
  refine ⟨r, s, t, BasisMatrix.accepted_of_isOk (by decide +kernel), by decide +kernel, allocated,
    loaded, factored, unused, line, fun given => ?_⟩
  obtain ⟨entries, here, small⟩ := given.small 0 (by omega)
  cases line.symm.trans here
  have first := small (0, -1) (by simp)
  rw [tolerance] at first
  norm_num at first

end Exact

end SimplexBasis.SparseFactorization
