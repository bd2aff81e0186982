import SimplexBasis.Proofs.Safety
import SimplexBasis.Proofs.Sparse.Serving

/-!
# Independence of earlier solves

Solves and assignments, in any order and number, leave a sparse factorization with its replacements
as it was, and its workspace empty: a right-hand side has the same solution before and after them.
-/

set_option linter.unusedSectionVars false

namespace SimplexBasis.SparseFactorization

variable {s t : SparseFactorization ℚ} {all : List (Stage ℚ)} {v : SparseVector ℚ}

/-! ### Histories -/

/-- Behind a factorization that succeeded, after solves, assignments and column replacements. -/
inductive Used : SparseFactorization ℚ → Prop
  | factored {s t : SparseFactorization ℚ} {context : Context ℚ} : Engine.Visited (.sparse s) →
      factor context s = .ok () t → Used t
  | ftran {s t : SparseFactorization ℚ} {v : SparseVector ℚ} {x : SparseVector ℚ × Nat} : Used s →
      SparseFactorization.ftran v s = .ok x t → Used t
  | btran {s t : SparseFactorization ℚ} {v : SparseVector ℚ} {x : SparseVector ℚ × Nat} : Used s →
      SparseFactorization.btran v s = .ok x t → Used t
  | assign {s t : SparseFactorization ℚ} {sequence heading vs : Array Nat} : Used s →
      SparseFactorization.assign sequence heading s = .ok vs t → Used t
  | replaced {s t : SparseFactorization ℚ} {column : SparseVector ℚ} {row : Nat} {pivot : ℚ} :
      Used s → column.Consistent → column.dimension = s.dimension → row < s.dimension →
      replaceColumn column row pivot s = .ok () t → Used t

theorem Used.serving (h : Used s) : ∃ all, Serving s all := by
  induction h with
  | @factored s t context visited run =>
    obtain ⟨sound, -, -, phase, etas⟩ := (Sound.factor visited.sound context).result run
    obtain ⟨all, standing⟩ := sound.standing phase
    refine ⟨all, phase, ⟨?_, ?_⟩, standing, sound.prepared.workspace, ?_⟩
    · rw [pivots, etas]
      exact Nat.zero_le _
    · rw [etas]
      exact Nat.zero_le _
    · rw [etas]
      exact .empty
  | ftran _ run ih => exact ih.imp fun _ serving => (serving.ftran run).1
  | btran _ run ih => exact ih.imp fun _ serving => (serving.btran run).1
  | assign _ run ih => exact ih.imp fun _ serving => (serving.assign run).1
  | replaced _ consistent dimension _ run ih =>
    exact ih.imp fun _ serving =>
      serving.replaceColumn (keys_etaEntries_lt consistent dimension _) run

/-- A call that asks for something that the factorization holds. -/
inductive Query where
  | ftran (v : SparseVector ℚ)
  | btran (v : SparseVector ℚ)
  | assign (sequence heading : Array Nat)

namespace Query

def run : Query → Action (SparseFactorization ℚ) Unit
  | ftran v => discard (SparseFactorization.ftran v)
  | btran v => discard (SparseFactorization.btran v)
  | assign sequence heading => discard (SparseFactorization.assign sequence heading)

/-- Consistent right-hand sides, and variables for all columns and positions. -/
def Fits (n : Nat) : Query → Prop
  | ftran v => v.Consistent ∧ v.dimension = n
  | btran v => v.Consistent ∧ v.dimension = n
  | assign sequence heading => n ≤ sequence.size ∧ n ≤ heading.size

end Query

/-! ### What stays -/

/-- Two solves with the same answer. -/
def Agree (r r' : EStateM.Result Stop (SparseFactorization ℚ) (SparseVector ℚ × Nat)) : Prop :=
  ∃ x x' t t', r = .ok (x, x.count) t ∧ r' = .ok (x', x'.count) t' ∧ x.packed = x'.packed ∧
    x.count = x'.count ∧ ∀ i, x.valueOf i = x'.valueOf i

/-- All that a later call can tell is as it was before. -/
structure Undisturbed (s t : SparseFactorization ℚ) : Prop where
  factors : t.factors = { s.factors with transposes := t.factors.transposes }
  transposes : ∀ built, s.factors.transposes = some built → t.factors.transposes = some built
  etas : t.etas = s.etas
  values : t.workspace.values = Array.replicate s.dimension 0
  slot : t.workspace.slot = Array.replicate s.dimension none
  marker : t.workspace.nextMarker.marker ∉ t.workspace.nextMarker.marked
  ftran : ∀ v : SparseVector ℚ, v.Consistent → v.dimension = s.dimension →
    Agree (ftran v s) (ftran v t)
  btran : ∀ v : SparseVector ℚ, v.Consistent → v.dimension = s.dimension →
    Agree (btran v s) (btran v t)

theorem agree_of_answers {z : Fin s.dimension → ℚ}
    {act : Action (SparseFactorization ℚ) (SparseVector ℚ × Nat)} (here : Serving s all)
    (there : Serving t all) (alike : Alike s t)
    (answers : ∀ t, Serving t all → Alike s t → ∃ x t', act t = .ok (x, x.count) t' ∧
      x.Answers v (kept s.options.zeroTolerance) z) : Agree (act s) (act t) := by
  obtain ⟨x, s', run, answer⟩ := answers s here (.refl s)
  obtain ⟨x', t', run', answer'⟩ := answers t there alike
  exact ⟨x, x', s', t', run, run', answer.mode.trans answer'.mode.symm, answer.count answer',
    answer.same answer'⟩

theorem marker_fresh {w : Workspace ℚ} {n : Nat} (ready : w.Ready n) :
    w.nextMarker.marker ∉ w.nextMarker.marked := by
  obtain ⟨next, fresh⟩ := ready.nextMarker
  intro member
  obtain ⟨k, hk, same⟩ := Array.getElem_of_mem member
  have below := fresh k (next.marked ▸ hk)
  rw [Array.getD, dif_pos hk] at below
  exact Nat.lt_irrefl _ (same ▸ below)

/-- Between states with the same factors and etas, nothing can be told apart. -/
theorem Serving.undisturbed (here : Serving s all) (there : Serving t all) (alike : Alike s t)
    (transposes : ∀ built, s.factors.transposes = some built → t.factors.transposes = some built) :
    Undisturbed s t where
  factors := by
    have factors := here.standing.factors
    rw [there.standing.factors, alike.dimension, factors]
  transposes := transposes
  etas := alike.etas
  values := alike.dimension ▸ there.workspace.values_eq
  slot := alike.dimension ▸ there.workspace.slot
  marker := marker_fresh there.workspace
  ftran _ consistent dimension :=
    let ⟨_, answers⟩ := here.ftran_run consistent dimension
    agree_of_answers here there alike answers
  btran _ consistent dimension :=
    let ⟨_, answers⟩ := here.btran_run consistent dimension
    agree_of_answers here there alike answers

/-! ### Queries -/

theorem Serving.query (h : Serving s all) {query : Query} (fits : query.Fits s.dimension) :
    ∃ t, query.run s = .ok () t ∧ Serving t all ∧ Alike s t ∧
      ∀ built, s.factors.transposes = some built → t.factors.transposes = some built := by
  cases query with
  | ftran v =>
    obtain ⟨_, answers⟩ := h.ftran_run fits.1 fits.2
    obtain ⟨x, t, run, -⟩ := answers s h (.refl s)
    obtain ⟨serving, same⟩ := h.ftran run
    exact ⟨t, bind_of_ok run, serving, .of_lasting same, fun _ => (factors_of_lasting same ▸ id)⟩
  | btran v =>
    obtain ⟨_, answers⟩ := h.btran_run fits.1 fits.2
    obtain ⟨x, t, run, -⟩ := answers s h (.refl s)
    obtain ⟨serving, same⟩ := h.btran run
    exact ⟨t, bind_of_ok run, serving, .of_lasting same, fun _ => (factors_of_lasting same ▸ id)⟩
  | assign sequence heading =>
    obtain ⟨vs, t, run⟩ := h.assign_ok fits.1 fits.2
    obtain ⟨serving, same⟩ := h.assign run
    refine ⟨t, bind_of_ok run, serving, ?_⟩
    rcases same with rfl | rfl
    · exact ⟨.refl t, fun _ => id⟩
    · exact ⟨⟨rfl, rfl, rfl⟩, fun built found => congrArg some (h.standing.built built found).symm⟩

theorem Serving.queries (h : Serving s all) {queries : List Query}
    (fits : ∀ query ∈ queries, query.Fits s.dimension) :
    ∃ t, queries.forM Query.run s = .ok () t ∧ Serving t all ∧ Alike s t ∧
      ∀ built, s.factors.transposes = some built → t.factors.transposes = some built := by
  induction queries generalizing s with
  | nil => exact ⟨s, rfl, h, .refl s, fun _ => id⟩
  | cons query queries ih =>
    obtain ⟨r, first, serving, alike, kept⟩ := h.query (fits query List.mem_cons_self)
    obtain ⟨t, rest, serving', alike', kept'⟩ := ih serving fun other member =>
      alike.dimension ▸ fits other (List.mem_cons_of_mem _ member)
    refine ⟨t, ?_, serving', alike.trans alike', fun built found => kept' built (kept built found)⟩
    rw [forM_cons_eq, bind_of_ok first]
    exact rest

/-- No number of queries disturbs a factorization in use. -/
theorem undisturbed_of_queries (used : Used s) {queries : List Query}
    (fits : ∀ query ∈ queries, query.Fits s.dimension) :
    ∃ t, queries.forM Query.run s = .ok () t ∧ Undisturbed s t := by
  obtain ⟨all, serving⟩ := used.serving
  obtain ⟨t, run, serving', alike, kept⟩ := serving.queries fits
  exact ⟨t, run, serving.undisturbed serving' alike kept⟩

/-- After a column replacement, with solves on both sides of an assignment. -/
theorem undisturbed_after_replacement : ∃ s t, Used s ∧ s.dimension = 3 ∧ s.pivots = 1 ∧
    [Query.ftran (.ofDense #[1, 0, 2]), .assign #[4, 5, 6] #[0, 0, 0], .btran (.ofDense #[0, 3, 0]),
      .ftran (.ofDense #[1, 0, 2])].forM Query.run s = .ok () t ∧ Undisturbed s t := by
  let column : SparseVector ℚ := .ofDense #[2, 1, 0]
  have size : column.dimension = 3 := by decide +kernel
  obtain ⟨e, visited, check⟩ := (Engine.Visited.sparse (.standard : Options ℚ)).exists_of_leadsTo
    [.allocate 3 0 0, .load Engine.crammed]
    (p := fun e => match e with
      | .dense _ => false
      | .sparse r => match factor .standard r with
        | .ok _ s => s.dimension == 3 && match replaceColumn column 0 2 s with
          | .ok _ t => t.dimension == 3 && t.pivots == 1
          | _ => false
        | _ => false) (by decide +kernel)
  cases e with
  | dense d => exact nomatch check
  | sparse r =>
    dsimp only at check
    split at check
    · rename_i s factored
      rw [Bool.and_eq_true, beq_iff_eq] at check
      obtain ⟨dimension, check⟩ := check
      split at check
      · rename_i t replaced
        rw [Bool.and_eq_true, beq_iff_eq, beq_iff_eq] at check
        have used : Used t := (Used.factored visited factored).replaced (.ofDense _)
          (size.trans dimension.symm) (by rw [dimension]; decide) replaced
        have fits : ∀ query ∈ [Query.ftran (.ofDense #[1, 0, 2]), .assign #[4, 5, 6] #[0, 0, 0],
            .btran (.ofDense #[0, 3, 0]), .ftran (.ofDense #[1, 0, 2])],
            query.Fits t.dimension := by
          simp only [List.forall_mem_cons, Query.Fits, check.1]
          exact ⟨⟨.ofDense _, rfl⟩, ⟨le_rfl, le_rfl⟩, ⟨.ofDense _, rfl⟩, ⟨.ofDense _, rfl⟩, by simp⟩
        obtain ⟨u, run, undisturbed⟩ := undisturbed_of_queries used fits
        exact ⟨t, u, used, check.1, check.2, run, undisturbed⟩
      · exact nomatch check
    · exact nomatch check

/-- A basis with five entries more than its dimension asks for. -/
def staggered : BasisMatrix ℚ :=
  ⟨5, .ofLines [[(4, 1), (3, 1)], [(1, 2), (4, 4), (2, 4)], [(2, -1), (0, 2), (3, 1)],
    [(2, -2), (4, 2), (1, -1)], [(3, 4), (0, -2), (2, 4)]]⟩

/-- Without the bound on the spare entries, factors that were overwritten need not be triangular: an
assignment, which lets solves go by the reach of their right-hand sides, changes their answers. -/
theorem answers_change_of_overlap : ∃ r s t vs u, staggered.Accepted ∧
    allocate 5 300 16 (new { boundless with sparseThreshold := some 100 }) = .ok () r ∧
    load staggered r = .ok () s ∧ factor .standard s = .ok () t ∧
    assign #[0, 1, 2, 3, 4] #[0, 0, 0, 0, 0] t = .ok vs u ∧
    ∃ v : SparseVector ℚ, v.Consistent ∧ v.dimension = 5 ∧ ¬Agree (ftran v t) (ftran v u) := by
  let v : SparseVector ℚ := .ofDense #[0, 0, 4, 0, 0]
  obtain ⟨⟨t', vs'⟩, u', run, check⟩ := @exists_ok_of_check _ _ (do
      allocate 5 300 16
      load staggered
      factor .standard
      let t ← get
      let vs ← assign #[0, 1, 2, 3, 4] #[0, 0, 0, 0, 0]
      return (t, vs) : Action (SparseFactorization ℚ) (SparseFactorization ℚ × Array Nat))
      (new { boundless with sparseThreshold := some 100 })
    (fun (t, _) u => match ftran v t, ftran v u with
      | .ok x _, .ok x' _ => x.1.valueOf 4 != x'.1.valueOf 4
      | _, _ => false) (by decide +kernel)
  obtain ⟨_, r, allocated, rest⟩ := ok_of_bind run
  obtain ⟨_, s, loaded, rest⟩ := ok_of_bind rest
  obtain ⟨_, t, factored, rest⟩ := ok_of_bind rest
  rw [get_bind] at rest
  obtain ⟨vs, u, assigned, ⟨⟩⟩ := ok_of_bind rest
  refine ⟨r, s, t', vs', u', BasisMatrix.accepted_of_isOk (by decide +kernel), allocated, loaded,
    factored, assigned, v, .ofDense _, rfl, ?_⟩
  rintro ⟨x, x', _, _, before, after, -, -, same⟩
  dsimp only at check
  rw [before, after] at check
  exact bne_iff_ne.mp check (same 4)

end SimplexBasis.SparseFactorization
