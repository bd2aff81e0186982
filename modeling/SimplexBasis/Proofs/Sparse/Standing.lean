import SimplexBasis.Proofs.Positions
import SimplexBasis.Proofs.Sparse.Calls
import SimplexBasis.Proofs.Sparse.Reuse

/-!
# Factors in use

Behind a completed factorization, solves, assignments and column replacements leave the factors as
they are and the workspace ready, whatever the right-hand sides and the arithmetic. Only the
transposes are added, once.
-/

set_option linter.unusedSectionVars false

namespace SimplexBasis

variable {α : Type} [Scalar α] {n k i : Nat}

namespace Compressed

variable {lines : List (List (Nat × α))}

theorem Beyond.distinct (beyond : (ofLines lines).Beyond n) (length : lines.length = n) :
    ∀ line ∈ lines, (keys line).Nodup := by
  intro line member
  obtain ⟨k, hk, rfl⟩ := List.getElem_of_mem member
  obtain ⟨line, read, distinct, -⟩ := beyond k (length ▸ hk)
  rw [line_ofLines lines k hk] at read
  cases read
  exact distinct

theorem transposed_climbs (length : lines.length = n) (beyond : (ofLines lines).Beyond n) :
    (ofLines (transposed lines n)).Climbs n (n - ·) := by
  intro i hi
  have here := line_ofLines (transposed lines n) i (by simpa [transposed] using hi)
  have read : (ofLines (transposed lines n)).line i = .ok (bucket (tagged lines) i) := by
    simpa [transposed] using here
  refine ⟨_, read, nodup_bucket (beyond.distinct length), fun k member => ?_⟩
  obtain ⟨⟨k, x⟩, entry_, rfl⟩ := List.mem_map.mp member
  obtain ⟨line, here, entry_⟩ := mem_bucket_tagged.mp entry_
  obtain ⟨hk, rfl⟩ := List.getElem?_eq_some_iff.mp here
  obtain ⟨line, read, -, climbs⟩ := beyond k (length ▸ hk)
  rw [line_ofLines lines k hk] at read
  cases read
  have climb := climbs i (List.mem_map_of_mem (f := Prod.fst) entry_)
  dsimp only
  omega

end Compressed

namespace Factors

variable {f : Factors α} {all : List (Stage α)} {transposes : Option (Transposes α)}

/-- The stages stand at different rows, and each row knows its stage. -/
structure Sited (f : Factors α) (n : Nat) : Prop where
  rows : f.pivotRows.toList.Perm (List.range n)
  inverses : f.inverses.size = n
  stage : ∀ k < n, entry f.stageOfRow (f.pivotRows.getD k 0) = .ok (some k)

namespace Sited

theorem row_lt (h : f.Sited n) (hk : k < n) : f.pivotRows.getD k 0 < n :=
  getD_lt_of_perm h.rows hk

theorem row_inj (h : f.Sited n) {l : Nat} (hk : k < n) (hl : l < n)
    (same : f.pivotRows.getD k 0 = f.pivotRows.getD l 0) : k = l :=
  getD_inj_of_perm h.rows hk hl same

theorem exists_stage (h : f.Sited n) (hi : i < n) : ∃ k < n, f.pivotRows.getD k 0 = i := by
  have member : i ∈ f.pivotRows.toList := h.rows.mem_iff.mpr (List.mem_range.mpr hi)
  obtain ⟨k, hk, here⟩ := List.getElem_of_mem member
  rw [Array.length_toList] at hk
  refine ⟨k, size_of_perm h.rows ▸ hk, ?_⟩
  rw [← here, Array.getElem_toList]
  simp [Array.getD, hk]

end Sited

theorem sited_numbered (triangular : Triangular all.length all) :
    ({ numbered all.length all with transposes := transposes } : Factors α).Sited all.length where
  rows := triangular.rows_perm le_rfl
  inverses := by simp [numbered, ofStages]
  stage k hk := by
    have row : (numbered all.length all).pivotRows.getD k 0 = all[k].row := by
      simp [numbered, ofStages, Array.getD, hk]
    have inside : all[k].row < all.length := (triangular.fits (List.getElem_mem hk)).1
    change entry (numbered all.length all).stageOfRow ((numbered all.length all).pivotRows.getD k 0) = _
    rw [row, entry_eq_ok_iff]
    have place := idxOf?_of_mem
      (List.mem_map_of_mem (f := Stage.row) (List.getElem_mem hk))
    rw [idxOf_row triangular hk] at place
    simp [numbered, ofStages, inside, place]

end Factors

namespace SparseFactorization

variable {s t : SparseFactorization α} {all : List (Stage α)} {u v : SparseVector α}

/-- The factors of stages are complete, with their transposes if these are built. -/
structure Standing (s : SparseFactorization α) (all : List (Stage α)) : Prop where
  length : all.length = s.dimension
  triangular : Triangular s.dimension all
  factors : s.factors = { Factors.numbered s.dimension all with transposes := s.factors.transposes }
  built : ∀ t, s.factors.transposes = some t → t = Factors.numberedTransposes all

theorem Factorized.standing {columns : List (List (Nat × α))} (h : Factorized s columns all) :
    Standing s all where
  length := Nat.le_antisymm h.derived.triangular.length_le h.full
  triangular := h.derived.triangular
  factors := by rw [h.factors]
  built t found := by rw [h.factors] at found; exact nomatch found

namespace Standing

theorem of_same (h : Standing s all) (factors : t.factors = s.factors)
    (dimension : t.dimension = s.dimension) : Standing t all where
  length := h.length.trans dimension.symm
  triangular := dimension ▸ h.triangular
  factors := by rw [factors, dimension]; exact h.factors
  built := by rw [factors]; exact h.built

theorem rank (h : Standing s all) : s.factors.rank = s.dimension := by
  rw [h.factors, ← h.length]
  simp [Factors.rank, Factors.numbered, Factors.ofStages]

theorem recorded (h : Standing s all) : Recorded s :=
  ⟨all, distinct_of_triangular h.triangular, by rw [h.factors]; exact ⟨rfl, rfl, rfl, rfl⟩⟩

theorem sited (h : Standing s all) : s.factors.Sited s.dimension := by
  rw [h.factors, ← h.length]
  exact Factors.sited_numbered (h.length.symm ▸ h.triangular)

theorem climbing (h : Standing s all) : s.factors.Climbing s.dimension := by
  have triangular := h.triangular
  rw [h.factors, ← h.length] at *
  have lower : (Factors.numbered all.length all).lower.Beyond all.length :=
    Factors.beyond_lower triangular
  have upper : (Factors.numbered all.length all).upper.Beyond all.length :=
    Factors.beyond_upper triangular
  refine ⟨⟨_, lower.climbs⟩, ⟨_, upper.climbs⟩, fun t found => ?_⟩
  rw [h.built t found]
  exact ⟨⟨_, Compressed.transposed_climbs (by simp) lower⟩,
    ⟨_, Compressed.transposed_climbs (by simp) upper⟩⟩

end Standing

/-! ### Solves -/

theorem workspace_of_solveFactors {transposes : Option (Transposes α)}
    {onReach : Factors α → Transposes α → SparseVector α → Workspace α → Checked (Solved α)}
    {byPasses : Factors α → Nat → SparseVector α → Workspace α → Checked (Solved α)}
    (run : solveFactors transposes v onReach byPasses s = .ok u t) : ∃ solved,
      transposes.elim (byPasses s.factors s.dimension v s.workspace)
        (onReach s.factors · v s.workspace) = .ok solved ∧ t.workspace = solved.workspace := by
  unfold solveFactors at run
  rw [get_bind] at run
  obtain ⟨solved, solve, run⟩ := ok_of_lift_bind run
  cases run
  refine ⟨solved, ?_, rfl⟩
  cases transposes <;> exact solve

theorem transposesFor_eq_some {count : Nat} {t : Transposes α}
    (found : s.transposesFor count = some t) : s.factors.transposes = some t := by
  unfold transposesFor at found
  split at found
  · exact found
  · exact nomatch found

theorem Standing.ready_of_solveFactors (h : Standing s all) (ready : s.workspace.Ready s.dimension)
    {count : Nat}
    (run : solveFactors (s.transposesFor count) v Factors.ftranSparse Factors.ftranDense s = .ok u t ∨
      solveFactors (s.transposesFor count) v Factors.btranSparse Factors.btranDense s = .ok u t) :
    t.workspace.Ready s.dimension := by
  rcases run with run | run
  · obtain ⟨solved, solve, same⟩ := workspace_of_solveFactors run
    exact same ▸ Factors.ready_of_ftran h.climbing ready (fun _ => transposesFor_eq_some) solve
  · obtain ⟨solved, solve, same⟩ := workspace_of_solveFactors run
    exact same ▸ Factors.ready_of_btran h.climbing ready (fun _ => transposesFor_eq_some) solve

theorem checkSolvable_result {x : Unit} (run : checkSolvable v s = .ok x t) :
    t = s ∧ s.phase = .factorized ∧ v.dimension = s.dimension := by
  unfold checkSolvable at run
  rw [get_bind] at run
  split at run
  · exact nomatch run
  · rename_i phase
    split at run
    · exact nomatch run
    · unfold Action.require at run
      split at run
      · rename_i same
        cases run
        exact ⟨rfl, not_not.mp phase, beq_iff_eq.mp same⟩
      · exact nomatch run

/-- What a solve may change besides the workspace are counters and records. -/
def unhurried (s : SparseFactorization α) : SparseFactorization α × Workspace α :=
  (s.lasting, s.workspace)

theorem countEtaFlops_unhurried {F : Status → Prop} (flops : Nat) :
    Steady (noted #[]) unhurried F (countEtaFlops flops : Action (SparseFactorization α) Unit) :=
  Steady.modify (fun _ => rfl) fun _ => rfl

theorem finish_unhurried {F : Status → Prop} (packed : Bool) :
    Steady (noted #[]) unhurried F (finish v packed) := by
  unfold finish
  refine Steady.get_bind (fun _ => rfl) fun s => ?_
  dsimp only
  split
  · exact (Steady.lift _).bind fun _ => Steady.pure _
  · exact (Steady.pure (v.clean s.options.zeroTolerance)).bind fun _ => Steady.pure _

theorem applyEtas_unhurried {F : Status → Prop} (u : SparseVector α) (packed : Bool) :
    Steady (noted #[]) unhurried F (do
      let etas := (← get).etas
      let (v, flops) ← ((List.range etas.rows.size).foldlM etas.apply (u, 0) : Checked _)
      countEtaFlops flops
      finish v packed) :=
  Steady.get_bind (fun _ => rfl) fun _ => (Steady.lift _).bind fun _ =>
    (countEtaFlops_unhurried _).bind fun _ => finish_unhurried _

variable {x : SparseVector α × Nat}

theorem lasting_of_ftran (run : ftran v s = .ok x t) : t.lasting = s.lasting := by
  have steady : Steady (noted #[]) lasting (fun _ => True) (ftran (α := α) v) := ftran_steady v
  exact (steady.ok run).2

theorem lasting_of_btran (run : btran v s = .ok x t) : t.lasting = s.lasting := by
  have steady : Steady (noted #[]) lasting (fun _ => True) (btran (α := α) v) := btran_steady v
  exact (steady.ok run).2

theorem Standing.ready_of_ftran (h : Standing s all) (ready : s.workspace.Ready s.dimension)
    (run : ftran v s = .ok x t) : t.workspace.Ready s.dimension := by
  obtain ⟨_, s', checked, solve⟩ := ok_of_bind run
  rw [(checkSolvable_result checked).1, get_bind] at solve
  obtain ⟨u, t₁, solved, rest⟩ := ok_of_bind solve
  have same : t.unhurried = t₁.unhurried :=
    ((applyEtas_unhurried (F := fun _ => True) u v.packed).ok rest).2
  rw [show t.workspace = t₁.workspace from congrArg Prod.snd same]
  exact h.ready_of_solveFactors ready (.inl solved)

theorem Standing.ready_of_btran (h : Standing s all) (ready : s.workspace.Ready s.dimension)
    (run : btran v s = .ok x t) : t.workspace.Ready s.dimension := by
  obtain ⟨_, s', checked, solve⟩ := ok_of_bind run
  rw [(checkSolvable_result checked).1, get_bind] at solve
  obtain ⟨⟨u, flops⟩, -, solve⟩ := ok_of_lift_bind solve
  obtain ⟨_, s₁, counted, solve⟩ := ok_of_bind solve
  cases counted
  rw [get_bind] at solve
  obtain ⟨w, t₁, solved, rest⟩ := ok_of_bind solve
  have same : t.unhurried = t₁.unhurried := by
    have still : Steady (noted #[]) unhurried (fun _ => True) (finish w v.packed) :=
      finish_unhurried _
    exact (still.ok rest).2
  rw [show t.workspace = t₁.workspace from congrArg Prod.snd same]
  exact (h.of_same (t := { s with counters := { s.counters with
    etaFlops := s.counters.etaFlops + flops } }) rfl rfl).ready_of_solveFactors ready (.inr solved)

/-! ### Assignments -/

variable {sequence heading vs : Array Nat}

theorem writes_still {rows cols : Array Nat} {rank : Nat}
    (run : ((List.range rank).foldlM (fun vs k => do
      (withEntry vs (← entry rows k) (← entry sequence (← entry cols k)) : Checked (Array Nat)))
        heading : Action (SparseFactorization α) (Array Nat)) s = .ok vs t) : t = s := by
  have still : Steady id id (fun _ => False) ((List.range rank).foldlM (fun vs k => do
      (withEntry vs (← entry rows k) (← entry sequence (← entry cols k)) : Checked (Array Nat)))
        heading : Action (SparseFactorization α) (Array Nat)) :=
    Steady.foldlM fun _ _ => (Steady.lift _).bind fun _ => (Steady.lift _).bind fun _ =>
      (Steady.lift _).bind fun _ => Steady.lift _
  exact (still.ok run).2

theorem assign_of_idle (phase : s.phase ≠ .factorized)
    (run : assign sequence heading s = .ok vs t) : t = s := by
  unfold assign at run
  rw [get_bind] at run
  obtain ⟨_, s₁, written, rest⟩ := ok_of_bind run
  obtain rfl := writes_still written
  obtain ⟨_, s₂, built, finish⟩ := ok_of_bind rest
  cases finish
  unfold buildTransposes at built
  rw [get_bind, if_pos (.inl phase)] at built
  cases built
  rfl

theorem Standing.buildTransposes_run (h : Standing s all) :
    buildTransposes s = .ok () s ∨ buildTransposes s = .ok () (s.transposed all) := by
  unfold buildTransposes
  rw [get_bind]
  split
  · exact .inl rfl
  · rename_i without
    have none_ : s.factors.transposes = none := by
      rw [not_or, Bool.not_eq_true, Option.isSome_eq_false_iff, Option.isNone_iff_eq_none] at without
      exact without.2
    have factors : s.factors = Factors.numbered s.dimension all := by
      have factors := h.factors
      rw [none_] at factors
      exact factors
    right
    rw [factors, Factors.withTransposes_numbered h.triangular h.length.ge, lift_ok_bind]
    unfold transposed
    rw [factors]
    rfl

theorem Standing.assign_result (h : Standing s all) (run : assign sequence heading s = .ok vs t) :
    t = s ∨ t = s.transposed all := by
  unfold assign at run
  rw [get_bind] at run
  obtain ⟨_, s₁, written, rest⟩ := ok_of_bind run
  obtain rfl := writes_still written
  obtain ⟨_, s₂, built, finish⟩ := ok_of_bind rest
  cases finish
  rcases h.buildTransposes_run with same | new
  · exact .inl (by cases same.symm.trans built; rfl)
  · exact .inr (by cases new.symm.trans built; rfl)

theorem Standing.transposed (h : Standing s all) : Standing (s.transposed all) all where
  length := h.length
  triangular := h.triangular
  factors := congrArg (fun f : Factors α => { f with
    transposes := some (Factors.numberedTransposes all) }) h.factors
  built _ found := (Option.some.inj found).symm

end SparseFactorization

end SimplexBasis
