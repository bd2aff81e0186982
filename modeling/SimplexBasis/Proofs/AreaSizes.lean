import SimplexBasis.Proofs.Safety
import SimplexBasis.Proofs.Sparse.Outcomes

/-!
# The sizes of the areas

Hints, the area factor, `pad` and `stretch` size the areas of a factorization and decide on when its
lines are moved. They decide on nothing else: factorizations that differ in them only find the same
factors, bit for bit, or one of them runs out of space on the same way.
-/

set_option linter.unusedSectionVars false

namespace SimplexBasis.SparseFactorization

open Engine (Visited)

variable {α : Type} [Scalar α] {s s' t t' : SparseFactorization α} {b : BasisMatrix α}

/-- Two engines load the same basis, after any calls, and factorize it with options that agree apart
from the areas. -/
theorem agree_of_areas [LawfulCounts α] (visited : Visited (.sparse s))
    (visited' : Visited (.sparse s'))
    (alike : s'.options.apartFromAreas = s.options.apartFromAreas) (accepted : b.Accepted)
    (spacious : s.Spacious b) (spacious' : s'.Spacious b) (loaded : load b s = .ok () t)
    (loaded' : load b s' = .ok () t') (context : Context α) :
    ∃ e e' : Ending α, Comes (· = e) (factor context t) ∧ Comes (· = e') (factor context t') ∧
      e.Agrees e' := by
  obtain ⟨columns, holds, -⟩ := accepted.holds
  obtain ⟨o, outcome⟩ := factor_outcome holds s.options.apartFromAreas context
  have sound : s.Sound := visited.sound
  have sound' : s'.Sound := visited'.sound
  obtain ⟨e, ending, covers⟩ := (outcome s t sound.prepared spacious rfl loaded).exists_ending
  obtain ⟨e', ending', covers'⟩ :=
    (outcome s' t' sound'.prepared spacious' alike loaded').exists_ending
  exact ⟨e, e', ending, ending', covers.agrees covers'⟩

/-! ### Areas of different sizes -/

/-- Lines without spare entries, in areas of an eighth of the usual size. -/
def narrow : Options ℚ := { Options.standard with pad := 0, stretch := 0, initialAreaFactor := 1 / 8 }

/-- Files of twenty entries have to be compressed and narrow ones have not; a lower factor of four
entries is full after two pivots. -/
theorem agree_of_tight_areas : ∃ (s s' s'' t t' t'' : SparseFactorization ℚ) (e e'' : Ending ℚ),
    s.options = .standard ∧ s'.options = narrow ∧ s''.options = .standard ∧
    load crowded s = .ok () t ∧ load crowded s' = .ok () t' ∧ load crowded s'' = .ok () t'' ∧
    Comes (· = e) (factor .standard t) ∧ Comes (· = e) (factor .standard t') ∧
    Comes (· = e'') (factor .standard t'') ∧ e.failure = none ∧
    e''.failure = some .outOfMemory ∧ e''.pivots = [(2, 2), (0, 0)] ∧ e''.pivots <+: e.pivots := by
  have accepted : crowded.Accepted := BasisMatrix.accepted_of_isOk (by decide +kernel)
  obtain ⟨s, t, visited, options, loaded, check⟩ := @exists_loaded .standard crowded 300 20
    (fun t => endedWith (fun _ _ => true) (factor .standard t)) (by decide +kernel)
  obtain ⟨s', t', visited', options', loaded', check'⟩ := @exists_loaded narrow crowded 0 0
    (fun t => endedWith (fun _ _ => true) (factor .standard t)) (by decide +kernel)
  obtain ⟨s'', t'', visited'', options'', loaded'', check''⟩ := @exists_loaded .standard crowded 4 34
    (fun t => stoppedBy (.status .outOfMemory)
      (fun u => (⟨none, u.found⟩ : Ending ℚ).pivots == [(2, 2), (0, 0)]) (factor .standard t))
    (by decide +kernel)
  obtain ⟨_, u, factored, -⟩ := exists_ok_of_check _ check
  obtain ⟨_, u', factored', -⟩ := exists_ok_of_check _ check'
  obtain ⟨u'', stopped, made⟩ := stoppedBy_iff.mp check''
  have spacious : ∀ r : SparseFactorization ℚ, r.options.SparesWithin 5 → r.Spacious crowded :=
    fun r spares => spacious_of_spares spares
  have room : s.Spacious crowded := spacious s (options ▸ by decide +kernel)
  obtain ⟨e, e', ending, ending', agrees⟩ := agree_of_areas visited visited'
    (by rw [options, options']; rfl) accepted room
    (spacious s' (options' ▸ by decide +kernel)) loaded loaded' .standard
  obtain ⟨d, e'', same, ending'', agrees'⟩ := agree_of_areas visited visited''
    (by rw [options, options'']) accepted room
    (spacious s'' (options'' ▸ by decide +kernel)) loaded loaded'' .standard
  obtain rfl := ending.result factored
  obtain rfl := ending'.result factored'
  obtain rfl := same.result factored
  obtain rfl := ending''.failure stopped
  have equal := agrees.same (by simp) (by simp)
  exact ⟨s, s', s'', t, t', t'', _, _, options, options', options'', loaded, loaded', loaded'', ending,
    equal ▸ ending', ending'', rfl, rfl, beq_iff_eq.mp made, agrees'.behind (by simp) rfl⟩

/-- Without the bound on the spare entries, the size of the files decides on the pivots. -/
theorem pivots_differ_of_overlap : ∃ (s s' t t' : SparseFactorization ℚ) (e e' : Ending ℚ),
    Visited (.sparse s) ∧ Visited (.sparse s') ∧ s'.options = s.options ∧ crowded.Accepted ∧
    load crowded s = .ok () t ∧ load crowded s' = .ok () t' ∧ Comes (· = e) (factor .standard t) ∧
    Comes (· = e') (factor .standard t') ∧ e.failure = none ∧ e'.failure = none ∧ ¬e.Agrees e' := by
  obtain ⟨s, t, visited, options, loaded, check⟩ := @exists_loaded boundless crowded 300 16
    (fun t => endedWith (fun _ u => (⟨none, u.found⟩ : Ending ℚ).pivots ==
      [(2, 2), (0, 4), (4, 3), (1, 0), (3, 1)]) (factor .standard t)) (by decide +kernel)
  obtain ⟨s', t', visited', options', loaded', check'⟩ := @exists_loaded boundless crowded 300 20
    (fun t => endedWith (fun _ u => (⟨none, u.found⟩ : Ending ℚ).pivots ==
      [(2, 2), (0, 0), (1, 4), (3, 1), (4, 3)]) (factor .standard t)) (by decide +kernel)
  obtain ⟨_, u, factored, made⟩ := exists_ok_of_check _ check
  obtain ⟨_, u', factored', made'⟩ := exists_ok_of_check _ check'
  have comes : Comes (· = ⟨none, u.found⟩) (factor .standard t) := by
    rw [factored]
    rfl
  have comes' : Comes (· = ⟨none, u'.found⟩) (factor .standard t') := by
    rw [factored']
    rfl
  refine ⟨s, s', t, t', _, _, visited, visited', options'.trans options.symm,
    BasisMatrix.accepted_of_isOk (by decide +kernel), loaded, loaded', comes, comes', rfl, rfl,
    fun agrees => ?_⟩
  have same := congrArg Ending.pivots (agrees.same (by simp) (by simp))
  rw [beq_iff_eq.mp made, beq_iff_eq.mp made'] at same
  exact absurd same (by decide)

end SimplexBasis.SparseFactorization
