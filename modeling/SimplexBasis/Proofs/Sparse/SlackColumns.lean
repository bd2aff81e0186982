import SimplexBasis.Proofs.Sparse.Cascades
import SimplexBasis.Proofs.Sparse.Loading

/-!
# Slack columns

The pivots that are made while a basis is loaded are column singletons of the magnitude of the slack
value, one after another. Their number is counted, and nothing else.
-/

set_option linter.unusedSectionVars false

namespace SimplexBasis.SparseFactorization

variable {α : Type} [Scalar α] {s t : SparseFactorization α} {m : Nat} {stages more : List (Stage α)}
  {v w : ActiveView α}

/-- The state after slack columns. -/
structure Slackened (s : SparseFactorization α) (m : Nat) (stages : List (Stage α))
    (v : ActiveView α) (more : List (Stage α)) (w : ActiveView α) (t : SparseFactorization α) :
    Prop where
  underway : Underway t m (stages ++ more) w
  chain : Singly (· = .column) m v more w
  slack : ∀ st ∈ more, (Scalar.abs st.pivot == Scalar.abs s.options.slackValue) = true
  setup : t.setup = s.setup
  workspace : t.workspace = s.workspace
  tallies : t.tallies = { s.tallies with slacks := s.tallies.slacks + more.length }

/-- Another slack column for which there was no room. -/
def Slackened.Choked (s : SparseFactorization α) (m : Nat) (stages : List (Stage α))
    (v : ActiveView α) (e : Status) (t : SparseFactorization α) : Prop :=
  e = .outOfMemory ∧ ∃ more w i j x, Slackened s m stages v more w t ∧ j < m ∧
    (i, x) ∈ w.cols j ∧ t.Lacking (w.stageAt i j x)

theorem Slackened.refl (h : Underway s m stages v) : Slackened s m stages v [] v s where
  underway := by simpa using h
  chain := .start
  slack := by simp
  setup := rfl
  workspace := rfl
  tallies := rfl

theorem Slackened.take (h : Slackened s m stages v more w t) {i j : Nat} {x : α} (hj : j < m)
    (only : w.cols j = [(i, x)]) (slack : (Scalar.abs x == Scalar.abs s.options.slackValue) = true) :
    Ends (fun _ t' => Slackened s m stages v (more ++ [w.stageAt i j x]) (w.columnPivot i j) t')
      (fun e t' => e = .outOfMemory ∧ t' = t ∧ t.Lacking (w.stageAt i j x))
      (SparseFactorization.pivotSlack (Scalar.abs s.options.slackValue) j t) := by
  have free := (h.underway.consistent.colRange j hj i (by simp [only])).2
  rw [h.underway.pivotSlack_eq hj, only]
  dsimp only
  rw [if_pos (by simpa [slack] using free)]
  refine ((pivotColumnSingleton_tally.ends (h.underway.pivotColumnSingleton hj only)).mono
    (fun _ _ => id) fun _ _ => id).bind ?_
  -- The count of slacks is raised behind the pivot, which leaves all tallies alone.
  rintro _ t' ⟨⟨underway, setup, workspace, -⟩, tallies⟩
  exact
    { underway := by
        rw [← List.append_assoc]
        exact underway.of_setup rfl rfl rfl
      chain := h.chain.column rfl hj only
      slack := fun st member => by
        rcases List.mem_append.mp member with earlier | last
        · exact h.slack st earlier
        · rw [List.mem_singleton.mp last]
          exact slack
      setup := setup.trans h.setup
      workspace := workspace.trans h.workspace
      tallies := by
        have counted := congrArg (fun c : Tallies => { c with slacks := c.slacks + 1 })
          (tallies.trans h.tallies)
        rwa [List.length_append, List.length_singleton, ← Nat.add_assoc] }

theorem Slackened.pass (h : Slackened s m stages v more w t) {j : Nat} (hj : j < m)
    (other : ∀ i x, w.cols j = [(i, x)] →
      ¬(Scalar.abs x == Scalar.abs s.options.slackValue) = true) :
    SparseFactorization.pivotSlack (Scalar.abs s.options.slackValue) j t = .ok () t := by
  rw [h.underway.pivotSlack_eq hj]
  rcases only : w.cols j with _ | ⟨⟨i, x⟩, _ | ⟨_, _⟩⟩
  case cons.nil =>
    dsimp only
    rw [if_neg]
    · rfl
    · simp [other i x only]
  all_goals rfl

theorem Slackened.pivotSlack (h : Slackened s m stages v more w t) {j : Nat} (hj : j < m) :
    Ends (fun _ t' => ∃ more' w', Slackened s m stages v more' w' t') (Choked s m stages v)
      (SparseFactorization.pivotSlack (Scalar.abs s.options.slackValue) j t) := by
  by_cases found : ∃ i x, w.cols j = [(i, x)] ∧
      (Scalar.abs x == Scalar.abs s.options.slackValue) = true
  · obtain ⟨i, x, only, slack⟩ := found
    refine (h.take hj only slack).mono (fun _ t' next => ⟨_, _, next⟩) ?_
    rintro e _ ⟨full, rfl, lacking⟩
    exact ⟨full, more, w, i, j, x, h, hj, by simp [only], lacking⟩
  · rw [h.pass hj fun i x only slack => found ⟨i, x, only, slack⟩]
    exact ⟨more, w, h⟩

theorem Underway.pivotSlacks (h : Underway s m stages v) :
    Ends (fun _ t => ∃ more w, Slackened s m stages v more w t) (Slackened.Choked s m stages v)
      (SparseFactorization.pivotSlacks s) := by
  have start : ∃ more w, Slackened s m stages v more w s := ⟨[], v, .refl h⟩
  unfold SparseFactorization.pivotSlacks
  rw [get_bind]
  split
  · exact start
  · rw [get_bind, h.dimension]
    refine Ends.forM_range (fun _ t => ∃ more w, Slackened s m stages v more w t) start ?_
    rintro j hj t ⟨more, w, here⟩
    exact here.pivotSlack hj

/-! ### A load -/

section Load

variable {b : BasisMatrix α} {columns : List (List (Nat × α))}

/-- What a load of the basis leaves: its lines and its slack columns. -/
structure Slacked (s : SparseFactorization α) (b : BasisMatrix α)
    (columns : List (List (Nat × α))) (stages : List (Stage α)) (w : ActiveView α)
    (t : SparseFactorization α) : Prop where
  phase : t.phase = .loaded
  pending : t.pending = none
  options : t.options = s.options
  areas : t.capacity = s.capacityFor b.dimension b.count
  underway : Underway t b.dimension stages w
  workspace : t.workspace.Ready b.dimension
  addressable : 2 * b.dimension + 2 ≤ addressableWords
  consistent : (ActiveView.loaded b.dimension columns).Consistent b.dimension [] []
  chain : Singly (· = .column) b.dimension (.loaded b.dimension columns) stages w
  slack : ∀ st ∈ stages, (Scalar.abs st.pivot == Scalar.abs s.options.slackValue) = true
  tallies : t.tallies = ⟨stages.length, 0, 0, 0, 0⟩

theorem Slacked.working (h : Slacked s b columns stages w t) (spacious : s.Spacious b) :
    Working t b.dimension stages w := by
  refine h.underway.working h.workspace ?_
  rw [h.options, h.areas]
  exact spacious h.addressable (h.areas ▸ h.underway.addressable)

/-- Behind its lines, a load takes all slack columns, unless it lacks space for one of them. -/
theorem Filled.slacked {u : SparseFactorization α} (h : Filled u b columns)
    (options : u.options = s.options) (areas : u.capacity = s.capacityFor b.dimension b.count) :
    Ends (fun _ t => (∃ stages w, Slacked s b columns stages w t) ∨
        t.pending = some .outOfMemory ∧
          ∃ e q, Slackened.Choked u b.dimension [] (.loaded b.dimension columns) e q)
      (fun _ _ => False) (orPending SparseFactorization.pivotSlacks u) := by
  refine (orPending_ends h.underway.pivotSlacks).mono ?_ fun _ _ => id
  rintro _ t (⟨-, more, w, slacked⟩ | ⟨-, e, q, choked, rfl⟩)
  · have setup := slacked.setup
    exact .inl ⟨more, w,
      { phase := (congrArg (·.phase) setup).trans h.phase
        pending := (congrArg (·.pending) setup).trans h.pending
        options := (options_of_setup setup).trans options
        areas := (capacity_of_setup setup).trans areas
        underway := slacked.underway
        workspace := slacked.workspace ▸ h.workspace
        addressable := h.addressable
        consistent := h.underway.consistent
        chain := slacked.chain
        slack := options ▸ slacked.slack
        tallies := by rw [slacked.tallies, h.tallies, Nat.zero_add] }⟩
  · exact .inr ⟨congrArg some choked.1, e, q, choked⟩

/-- What a load has left, unless it has noted that space ran out. -/
theorem slacked_of_load (prepared : Prepared s) (accepted : b.Accepted) (spacious : s.Spacious b)
    (loaded : load b s = .ok () t) :
    (∃ columns stages w, Slacked s b columns stages w t) ∨ t.pending = some .outOfMemory := by
  obtain ⟨columns, holds, -⟩ := accepted.holds
  have ends : EndsOr (fun _ => True) (fun _ t => (∃ columns stages w, Slacked s b columns stages w t) ∨
      t.pending = some .outOfMemory) (fun _ _ => False) (load b s) := by
    refine load_by_filling prepared holds spacious (fun _ => trivial)
      (fun _ _ _ _ _ _ pending => .inr pending) fun u options areas here => ?_
    exact (here.slacked options areas).mono
      (fun _ _ ended => ended.imp (fun slacked => ⟨columns, slacked⟩) And.left) fun _ _ => id
  exact ends.result loaded

end Load

end SimplexBasis.SparseFactorization
