/-!
# Linked paths

Doubly linked lists in arrays of forward and backward links. `Path next prev a l b` says that the
links lead from `a` through the elements of `l` to `b` and back; a ring through a head `h` is a path
from `h` to `h`. Taking an element out (`Path.unlink`) and putting one before the end
(`Path.insert_end`) change four links and leave every path through other elements alone.
-/

namespace SimplexBasis

/-- The links lead from `a` through `l` to `b` and back. -/
def Path (next prev : Array Nat) : Nat → List Nat → Nat → Prop
  | a, [], b => next[a]? = some b ∧ prev[b]? = some a
  | a, x :: l, b => next[a]? = some x ∧ prev[x]? = some a ∧ Path next prev x l b

namespace Path

variable {next prev next' prev' : Array Nat} {a b c e p q x : Nat} {l xs ys : List Nat}

theorem append_iff : Path next prev a (xs ++ x :: ys) b ↔
    Path next prev a xs x ∧ Path next prev x ys b := by
  induction xs generalizing a with
  | nil => simp [Path, and_assoc]
  | cons y xs ih => simp [Path, ih, and_assoc]

theorem reverse (h : Path next prev a l b) : Path prev next b l.reverse a := by
  induction l generalizing a with
  | nil => exact ⟨h.2, h.1⟩
  | cons x l ih =>
    obtain ⟨first, back, rest⟩ := h
    rw [List.reverse_cons]
    exact append_iff.mpr ⟨ih rest, back, first⟩

/-- A path depends on the forward links of its elements and its start, and on the backward links of
its elements and its end. -/
theorem congr (h : Path next prev a l b) (forward : ∀ x ∈ a :: l, next'[x]? = next[x]?)
    (backward : ∀ x ∈ l ++ [b], prev'[x]? = prev[x]?) : Path next' prev' a l b := by
  induction l generalizing a with
  | nil =>
    obtain ⟨hn, hp⟩ := h
    exact ⟨(forward a (by simp)).trans hn, (backward b (by simp)).trans hp⟩
  | cons y l ih =>
    obtain ⟨hn, hp, rest⟩ := h
    refine ⟨(forward a (by simp)).trans hn, (backward y (by simp)).trans hp, ih rest ?_ ?_⟩
    · exact fun x hx => forward x (List.mem_cons_of_mem _ hx)
    · exact fun x hx => backward x (by simpa using .inr (by simpa using hx))

theorem prev_end_mem (h : Path next prev a l b) (hp : prev[b]? = some p) : p ∈ a :: l := by
  induction l generalizing a with
  | nil =>
    have same : a = p := Option.some.inj (h.2.symm.trans hp)
    simp [same]
  | cons y l ih => exact List.mem_cons_of_mem _ (ih h.2.2)

theorem next_start_mem (h : Path next prev a l b) (hq : next[a]? = some q) : q ∈ l ++ [b] := by
  cases l with
  | nil =>
    have same : b = q := Option.some.inj (h.1.symm.trans hq)
    simp [same]
  | cons y l =>
    have same : y = q := Option.some.inj (h.1.symm.trans hq)
    simp [same]

theorem exists_next (h : Path next prev a l b) :
    ∃ x, next[a]? = some x ∧ (l ++ [b]).head? = some x := by
  cases l with
  | nil => exact ⟨b, h.1, rfl⟩
  | cons y l => exact ⟨y, h.1, rfl⟩

theorem exists_prev_end (h : Path next prev a l b) : ∃ p, prev[b]? = some p := by
  induction l generalizing a with
  | nil => exact ⟨a, h.2⟩
  | cons y l ih => exact ih h.2.2

theorem next_of_mem (h : Path next prev a l b) (hx : x ∈ a :: l) : ∃ y, next[x]? = some y := by
  induction l generalizing a with
  | nil =>
    have same : x = a := by simpa using hx
    exact ⟨b, same ▸ h.1⟩
  | cons y l ih =>
    rcases List.mem_cons.mp hx with rfl | hx
    · exact ⟨y, h.1⟩
    · exact ih h.2.2 hx

theorem prev_of_mem (h : Path next prev a l b) (hx : x ∈ l ++ [b]) : ∃ y, prev[x]? = some y := by
  induction l generalizing a with
  | nil =>
    have same : x = b := by simpa using hx
    exact ⟨a, same ▸ h.2⟩
  | cons y l ih =>
    rcases List.mem_cons.mp (by simpa using hx : x ∈ y :: (l ++ [b])) with rfl | hx
    · exact ⟨a, h.2.1⟩
    · exact ih h.2.2 hx

theorem retarget (h : Path next prev a l b) (nodup : (a :: l).Nodup) (hp : prev[b]? = some p)
    (forward : ∀ x ∈ a :: l, x ≠ p → next'[x]? = next[x]?) (last : next'[p]? = some c)
    (backward : ∀ x ∈ l, prev'[x]? = prev[x]?) (back : prev'[c]? = some p) :
    Path next' prev' a l c := by
  induction l generalizing a with
  | nil =>
    have same : a = p := Option.some.inj (h.2.symm.trans hp)
    exact ⟨same ▸ last, same ▸ back⟩
  | cons y l ih =>
    obtain ⟨hn, hv, rest⟩ := h
    obtain ⟨fresh, nodup⟩ := List.nodup_cons.mp nodup
    have far : a ≠ p := fun same => fresh (same ▸ rest.prev_end_mem hp)
    refine ⟨(forward a (by simp) far).trans hn, (backward y (by simp)).trans hv,
      ih rest nodup ?_ ?_⟩
    · exact fun x hx => forward x (List.mem_cons_of_mem _ hx)
    · exact fun x hx => backward x (List.mem_cons_of_mem _ hx)

theorem unlink (h : Path next prev a (xs ++ e :: ys) b) (nodup : (a :: (xs ++ e :: ys)).Nodup)
    (apart : b ∉ xs ++ e :: ys) (hp : prev[e]? = some p) (hq : next[e]? = some q)
    (forward : ∀ x ∈ a :: (xs ++ ys), x ≠ p → next'[x]? = next[x]?) (hn : next'[p]? = some q)
    (backward : ∀ x ∈ xs ++ ys ++ [b], x ≠ q → prev'[x]? = prev[x]?)
    (hv : prev'[q]? = some p) : Path next' prev' a (xs ++ ys) b := by
  obtain ⟨front, back⟩ := append_iff.mp h
  have before := front.prev_end_mem hp
  rw [← List.cons_append] at nodup
  obtain ⟨nodupFront, nodupBack, disjoint⟩ := List.nodup_append.mp nodup
  cases ys with
  | nil =>
    have same : b = q := Option.some.inj (back.1.symm.trans hq)
    subst same
    rw [List.append_nil]
    refine front.retarget nodupFront hp ?_ hn ?_ hv
    · exact fun x hx => forward x (by simpa using hx)
    · exact fun x hx => backward x (by simp [hx]) fun hb => apart (by simp [← hb, hx])
  | cons y ys =>
    obtain ⟨hy, hye, rest⟩ := back
    have same : y = q := Option.some.inj (hy.symm.trans hq)
    subst same
    refine append_iff.mpr ⟨front.retarget nodupFront hp ?_ hn ?_ hv, rest.congr ?_ ?_⟩
    · exact fun x hx => forward x (by grind)
    · refine fun x hx => backward x (by simp [hx]) fun hxy => ?_
      exact disjoint x (by simp [hx]) x (by simp [hxy]) rfl
    · intro x hx
      refine forward x (by grind) fun hxp => ?_
      exact disjoint p before x (List.mem_cons_of_mem _ hx) hxp.symm
    · intro x hx
      refine backward x (by grind) fun hxy => ?_
      subst hxy
      rcases List.mem_append.mp hx with hx | hx
      · exact (List.nodup_cons.mp (List.nodup_cons.mp nodupBack).2).1 hx
      · exact apart (by simp at hx; simp [← hx])

theorem insert_end (h : Path next prev a l b) (nodup : (a :: l).Nodup) (hp : prev[b]? = some p)
    (forward : ∀ x ∈ a :: l, x ≠ p → next'[x]? = next[x]?) (first : next'[p]? = some e)
    (second : next'[e]? = some b) (backward : ∀ x ∈ l, prev'[x]? = prev[x]?)
    (third : prev'[e]? = some p) (fourth : prev'[b]? = some e) :
    Path next' prev' a (l ++ [e]) b :=
  append_iff.mpr ⟨h.retarget nodup hp forward first backward third, second, fourth⟩

end Path

end SimplexBasis
