import SimplexBasis.Proofs.Sparse.Reuse
import SimplexBasis.Proofs.Vectors.Operations

/-!
# Applying etas

The etas of a basis can be applied to any vector of its dimension, whatever the arithmetic. What
comes out depends on the values of the vector, not on the order in which its rows are listed.
-/

set_option linter.unusedSectionVars false

namespace SimplexBasis

variable {α : Type} [Scalar α] [LawfulZero α] {n k r : Nat} {u : SparseVector α} {xs : Array α}
  {line : List (Nat × α)}

/-- A consistent vector that is not packed, with the given values. -/
structure SparseVector.Filled (u : SparseVector α) (xs : Array α) : Prop where
  consistent : u.Consistent
  unpacked : u.packed = false
  elements : u.elements = xs

open SparseVector (stored stored_ne)

theorem SparseVector.Filled.store (h : u.Filled xs) (bound : k < xs.size) (x : α) :
    SparseVector.Filled ⟨xs.setIfInBounds k (stored x),
      if xs.getD k 0 == 0 then u.indices.push k else u.indices, u.packed⟩
      (xs.setIfInBounds k (stored x)) where
  consistent := by
    have inside : k < u.elements.size := h.elements ▸ bound
    rw [← h.elements]
    exact h.consistent.store h.unpacked inside (stored_ne x)
  unpacked := h.unpacked
  elements := rfl

theorem SparseVector.Filled.refill (h : u.Filled xs) (nonzero : (xs.getD k 0 == 0) = false) (x : α) :
    SparseVector.Filled { u with elements := xs.setIfInBounds k (stored x) }
      (xs.setIfInBounds k (stored x)) where
  consistent := by
    rw [← h.elements] at nonzero ⊢
    exact h.consistent.refill (h.consistent.mem_places.mpr nonzero) (stored_ne x)
  unpacked := h.unpacked
  elements := rfl

namespace Etas

/-! ### Operations on vectors -/

/-- An operation that succeeds for vectors of dimension `n` and makes the same values of the same
values. -/
def Maps (n : Nat) (act : SparseVector α × Nat → Checked (SparseVector α × Nat)) : Prop :=
  ∀ xs : Array α, xs.size = n → ∃ zs : Array α, zs.size = n ∧ ∀ u flops, u.Filled xs →
    ∃ u' flops', act (u, flops) = .ok (u', flops') ∧ u'.Filled zs

theorem Maps.foldlM {act : SparseVector α × Nat → Nat → Checked (SparseVector α × Nat)}
    {es : List Nat} (step : ∀ e ∈ es, Maps n (act · e)) : Maps n (es.foldlM act) := by
  induction es with
  | nil => exact fun xs size => ⟨xs, size, fun u flops filled => ⟨u, flops, rfl, filled⟩⟩
  | cons e es ih =>
    intro xs size
    obtain ⟨ys, size, first⟩ := step e List.mem_cons_self xs size
    obtain ⟨zs, size, rest⟩ := ih (fun e member => step e (List.mem_cons_of_mem _ member)) ys size
    refine ⟨zs, size, fun u flops filled => ?_⟩
    obtain ⟨u₁, flops₁, run, filled⟩ := first u flops filled
    obtain ⟨u₂, flops₂, run', filled⟩ := rest u₁ flops₁ filled
    refine ⟨u₂, flops₂, ?_, filled⟩
    exact (List.foldlM_cons ..).trans (except_bind_eq_ok.mpr ⟨_, run, run'⟩)

def subtract (line : List (Nat × α)) (x : α) (v : SparseVector α) : Checked (SparseVector α) :=
  line.foldlM (fun v (i, a) => do
    let y ← entry v.elements i
    let indices := if y == 0 then v.indices.push i else v.indices
    let kept := stored (y - a * x)
    return { v with elements := v.elements.setIfInBounds i kept, indices }) v

theorem apply_eq (etas : Etas α) (flops e : Nat) : etas.apply (u, flops) e = (do
    let r ← entry etas.rows e
    let x ← entry u.elements r
    if x == 0 || x == SparseVector.placeholder then return (u, flops)
    let line ← etas.lines.line e
    let v ← subtract line x u
    let kept := stored (x * (← entry etas.inverses e))
    let elements ← withEntry v.elements r kept
    return ({ v with elements }, flops + line.length + 1)) := rfl

theorem subtract_ok (x : α) (inside : ∀ i ∈ keys line, i < xs.size) : ∃ zs : Array α,
    zs.size = xs.size ∧ (∀ i, (xs.getD i 0 == 0) = false → (zs.getD i 0 == 0) = false) ∧
    ∀ u, u.Filled xs → ∃ u', subtract line x u = .ok u' ∧ u'.Filled zs := by
  induction line generalizing xs with
  | nil => exact ⟨xs, rfl, fun _ => id, fun u filled => ⟨u, rfl, filled⟩⟩
  | cons e line ih =>
    obtain ⟨i, a⟩ := e
    have bound : i < xs.size := inside i (by simp [keys])
    let ys := xs.setIfInBounds i (stored (xs.getD i 0 - a * x))
    have size : ys.size = xs.size := Array.size_setIfInBounds
    obtain ⟨zs, size', stays, rest⟩ := @ih ys fun j member =>
      size ▸ inside j (List.mem_cons_of_mem _ member)
    refine ⟨zs, size'.trans size, fun j nonzero => stays j ?_, fun u filled => ?_⟩
    · rw [getD_setIfInBounds bound]
      split
      · exact stored_ne _
      · exact nonzero
    · obtain ⟨u', run, filled'⟩ := rest _ (filled.store bound (xs.getD i 0 - a * x))
      refine ⟨u', ?_, filled'⟩
      rw [subtract, List.foldlM_cons]
      dsimp only
      rw [filled.elements, entry_getD 0 bound, checked_ok_bind]
      exact run

theorem dot_run (inside : ∀ i ∈ keys line, i < u.elements.size) (dot : α) :
    line.foldlM (fun dot (i, a) => do return dot + a * (← entry u.elements i)) dot =
      (.ok (line.foldl (fun dot e => dot + e.2 * u.elements.getD e.1 0) dot) : Checked α) := by
  induction line generalizing dot with
  | nil => rfl
  | cons e line ih =>
    obtain ⟨i, a⟩ := e
    rw [List.foldlM_cons]
    dsimp only
    rw [entry_getD 0 (inside i (by simp [keys])), checked_ok_bind]
    exact ih (fun j member => inside j (List.mem_cons_of_mem _ member)) _

/-! ### Etas that fit -/

variable {etas : Etas α}

/-- The etas of a basis of dimension `n`. -/
structure Fit (etas : Etas α) (n : Nat) : Prop where
  rows : ∀ r ∈ etas.rows, r < n
  inverses : etas.inverses.size = etas.rows.size
  lines : ∃ lines, etas.lines = .ofLines lines ∧ lines.length = etas.rows.size ∧
    ∀ line ∈ lines, ∀ i ∈ keys line, i < n

theorem Fit.empty : (Etas.empty : Etas α).Fit n :=
  ⟨by simp [Etas.empty], rfl, [], rfl, rfl, by simp⟩

theorem Fit.push (h : etas.Fit n) (row : r < n) (inside : ∀ i ∈ keys line, i < n) (x : α) :
    Fit ⟨etas.lines.pushLine line, etas.rows.push r, etas.inverses.push x⟩ n := by
  obtain ⟨lines, written, length, each⟩ := h.lines
  refine ⟨fun i member => ?_, by simp [h.inverses], lines ++ [line], ?_, by simp [length],
    fun other member => ?_⟩
  · rcases Array.mem_push.mp member with old | rfl
    · exact h.rows i old
    · exact row
  · rw [written, Compressed.ofLines_concat]
  · rcases List.mem_append.mp member with old | new
    · exact each other old
    · exact List.mem_singleton.mp new ▸ inside

theorem Fit.read (h : etas.Fit n) (hk : k < etas.rows.size) : ∃ r inverse line,
    entry etas.rows k = .ok r ∧ r < n ∧ entry etas.inverses k = .ok inverse ∧
      etas.lines.line k = .ok line ∧ ∀ i ∈ keys line, i < n := by
  obtain ⟨lines, written, length, each⟩ := h.lines
  have hk' : k < lines.length := length.symm ▸ hk
  exact ⟨_, _, _, entry_getD 0 hk, h.rows _ (by simp [Array.getD, hk]),
    entry_getD 0 (h.inverses.symm ▸ hk), written ▸ Compressed.line_ofLines lines k hk',
    each _ (List.getElem_mem hk')⟩

theorem Fit.apply_ok (h : etas.Fit n) (hk : k < etas.rows.size) : Maps n (etas.apply · k) := by
  obtain ⟨r, inverse, line, row, hr, factor, read, inside⟩ := h.read hk
  intro xs size
  have bound : r < xs.size := size.symm ▸ hr
  by_cases idle : (xs.getD r 0 == 0 || xs.getD r 0 == SparseVector.placeholder) = true
  · refine ⟨xs, size, fun u flops filled => ⟨u, flops, ?_, filled⟩⟩
    dsimp only
    rw [apply_eq, row, checked_ok_bind, filled.elements, entry_getD 0 bound, checked_ok_bind,
      if_pos idle]
    rfl
  · obtain ⟨zs, size', stays, subtracts⟩ := subtract_ok (xs.getD r 0) fun i (member : i ∈ keys line) =>
      size.symm ▸ inside i member
    have nonzero : (zs.getD r 0 == 0) = false := stays r (Bool.eq_false_iff.mpr fun zero =>
      idle (by rw [zero, Bool.true_or]))
    refine ⟨zs.setIfInBounds r (stored (xs.getD r 0 * inverse)),
      Array.size_setIfInBounds.trans (size'.trans size), fun u flops filled => ?_⟩
    obtain ⟨u', run, filled'⟩ := subtracts u filled
    refine ⟨_, flops + line.length + 1, ?_, filled'.refill nonzero (xs.getD r 0 * inverse)⟩
    dsimp only
    rw [apply_eq, row, checked_ok_bind, filled.elements, entry_getD 0 bound, checked_ok_bind,
      if_neg idle, read, checked_ok_bind, run, checked_ok_bind, factor, checked_ok_bind,
      filled'.elements]
    dsimp only
    rw [withEntry_of_lt _ ((size'.trans size).symm ▸ hr)]
    rfl

theorem Fit.applyTranspose_ok (h : etas.Fit n) (hk : k < etas.rows.size) :
    Maps n (etas.applyTranspose · k) := by
  obtain ⟨r, inverse, line, row, hr, factor, read, inside⟩ := h.read hk
  intro xs size
  have bound : r < xs.size := size.symm ▸ hr
  let x := xs.getD r 0 * inverse - line.foldl (fun dot e => dot + e.2 * xs.getD e.1 0) 0
  have steps : ∀ u flops, u.Filled xs → etas.applyTranspose (u, flops) k =
      if xs.getD r 0 == 0 && x == 0 then .ok (u, flops)
      else .ok (⟨xs.setIfInBounds r (stored x),
        if xs.getD r 0 == 0 then u.indices.push r else u.indices, u.packed⟩,
        flops + line.length + 1) := fun u flops filled => by
    unfold applyTranspose
    dsimp only
    rw [row, checked_ok_bind, read, checked_ok_bind,
      dot_run fun i member => filled.elements.symm ▸ size.symm ▸ inside i member, checked_ok_bind,
      filled.elements, entry_getD 0 bound, checked_ok_bind, factor, checked_ok_bind]
    rfl
  by_cases idle : (xs.getD r 0 == 0 && x == 0) = true
  · exact ⟨xs, size, fun u flops filled =>
      ⟨u, flops, (steps u flops filled).trans (if_pos idle), filled⟩⟩
  · exact ⟨xs.setIfInBounds r (stored x), Array.size_setIfInBounds.trans size, fun u flops filled =>
      ⟨_, _, (steps u flops filled).trans (if_neg idle), filled.store bound x⟩⟩

theorem Fit.applies (h : etas.Fit n) :
    Maps n ((List.range etas.rows.size).foldlM etas.apply) :=
  Maps.foldlM fun _ member => h.apply_ok (List.mem_range.mp member)

theorem Fit.appliesTranspose (h : etas.Fit n) :
    Maps n ((List.range etas.rows.size).reverse.foldlM etas.applyTranspose) :=
  Maps.foldlM fun _ member => h.applyTranspose_ok (by simpa using member)

end Etas

end SimplexBasis
