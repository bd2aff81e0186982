import SimplexBasis.Proofs.Sparse.Triangles
import SimplexBasis.Triangular.Substitution

/-!
# Substitution

Both ways of substitution solve a system with the triangular matrix that their lines describe. The
order of the entries need not be that of the stages: it is enough that no entry comes before one it
depends on, and the entries left out stay zero.
-/

set_option linter.unusedSectionVars false

namespace SimplexBasis

variable {c : Compressed ℚ} {n k i j : Nat} {rank : Nat → Nat}

namespace Compressed

/-! ### Lines -/

def targets {α : Type} (c : Compressed α) (k : Nat) : List Nat :=
  match c.line k with
  | .ok line => keys line
  | .error _ => []

/-- Each of the first `n` lines has different indices below `n`, all of a higher rank than the
line. -/
def Climbs {α : Type} (c : Compressed α) (n : Nat) (rank : Nat → Nat) : Prop :=
  ∀ k < n, ∃ line, c.line k = .ok line ∧ (keys line).Nodup ∧ ∀ i ∈ keys line, i < n ∧ rank k < rank i

theorem Beyond.climbs {α : Type} {c : Compressed α} (h : c.Beyond n) : c.Climbs n id := by
  intro k hk
  obtain ⟨line, read, distinct, beyond⟩ := h k hk
  exact ⟨line, read, distinct, fun i hi => ⟨(beyond i hi).2, (beyond i hi).1⟩⟩

theorem Climbs.lt {α : Type} {c : Compressed α} (h : c.Climbs n rank) (hk : k < n)
    (target : i ∈ c.targets k) : i < n ∧ rank k < rank i := by
  obtain ⟨line, read, -, climbs⟩ := h k hk
  unfold targets at target
  rw [read] at target
  exact climbs i target

theorem Climbs.not_mem {α : Type} {c : Compressed α} (h : c.Climbs n rank) (hk : k < n)
    (low : rank i ≤ rank k) : i ∉ c.targets k :=
  fun target => Nat.not_le.mpr (h.lt hk target).2 low

theorem entryIn_of_not_mem (apart : i ∉ c.targets k) : c.entryIn k i = 0 := by
  unfold targets at apart
  unfold entryIn
  cases read : c.line k with
  | error e => rfl
  | ok line =>
    rw [read] at apart
    exact valueAt_of_not_mem apart

/-! ### Orders -/

/-- An order in which no entry comes before one that it depends on. -/
structure Ordered {α : Type} (c : Compressed α) (n : Nat) (order : List Nat) : Prop where
  distinct : order.Nodup
  inside : ∀ k ∈ order, k < n
  sorted : order.Pairwise fun a b => a ∉ c.targets b

theorem Ordered.not_mem {α : Type} {c : Compressed α} {done rest : List Nat}
    (h : c.Ordered n (done ++ k :: rest)) (member : i ∈ done) : i ≠ k ∧ i ∉ c.targets k := by
  have distinct := List.nodup_append.mp h.distinct
  have sorted := List.pairwise_append.mp h.sorted
  exact ⟨distinct.2.2 i member k (by simp), sorted.2.2 i member k (by simp)⟩

end Compressed

namespace Substitution

/-! ### Single stages -/

/-- The reciprocal of the diagonal entry `k`. -/
def scale (inverses : Option (Array ℚ)) (k : Nat) : ℚ := inverses.elim 1 (·.getD k 0)

/-- The reciprocals of the diagonal are given for the first `n` entries. -/
def Scaled {α : Type} (inverses : Option (Array α)) (n : Nat) : Prop :=
  ∀ xs, inverses = some xs → xs.size = n

theorem scaled_none {α : Type} : Scaled (none : Option (Array α)) n := by simp [Scaled]

theorem Scaled.inverse?_eq {α : Type} [Scalar α] {inverses : Option (Array α)}
    (h : Scaled inverses n) (hk : k < n) :
    inverse? inverses k = .ok (inverses.map (·.getD k 0)) := by
  cases inverses with
  | none => rfl
  | some values =>
    unfold inverse?
    dsimp only
    rw [entry_getD 0 (by rw [h values rfl]; exact hk)]
    rfl

variable {inverses : Option (Array ℚ)} {xs ys : Array ℚ} {line : List (Nat × ℚ)} {flops : Nat}

theorem foldlM_subtract (distinct : (keys line).Nodup) (inside : ∀ i ∈ keys line, i < xs.size)
    (x : ℚ) : ∃ ys, line.foldlM (fun xs (i, a) => do
        withEntry xs i ((← entry xs i) - a * x)) xs = .ok ys ∧ ys.size = xs.size ∧
      ∀ i, ys.getD i 0 = xs.getD i 0 - valueAt line i * x := by
  induction line generalizing xs with
  | nil => exact ⟨xs, rfl, rfl, by simp⟩
  | cons e line ih =>
    obtain ⟨k, a⟩ := e
    have apart : k ∉ keys line := (List.nodup_cons.mp distinct).1
    have hk : k < xs.size := inside k (by simp [keys])
    have within : ∀ i ∈ keys line, i < (xs.setIfInBounds k (xs.getD k 0 - a * x)).size := fun i hi => by
      rw [Array.size_setIfInBounds]
      exact inside i (List.mem_cons_of_mem k hi)
    obtain ⟨ys, run, size, values⟩ := ih (List.nodup_cons.mp distinct).2 within
    refine ⟨ys, ?_, size.trans Array.size_setIfInBounds, fun i => ?_⟩
    · rw [List.foldlM_cons]
      dsimp only
      rw [entry_getD 0 hk, checked_ok_bind, withEntry_of_lt _ hk, checked_ok_bind]
      exact run
    · rw [values, getD_setIfInBounds hk, valueAt_cons]
      by_cases same : i = k
      · subst same
        rw [if_pos rfl, if_pos rfl, valueAt_of_not_mem apart]
        ring
      · rw [if_neg same, if_neg fun eq => same eq.symm]

theorem scatterStage_run (climbs : c.Climbs n rank) (scaled : Scaled inverses n) (hk : k < n)
    (size : xs.size = n) (flops : Nat) : ∃ ys flops',
      scatterStage c inverses (xs, flops) k = .ok (ys, flops') ∧ ys.size = n ∧
      ∀ i, ys.getD i 0 = if i = k then xs.getD k 0 * scale inverses k
        else xs.getD i 0 - c.entryIn k i * (xs.getD k 0 * scale inverses k) := by
  obtain ⟨line, read, distinct, inside⟩ := climbs k hk
  have value : ∀ i, c.entryIn k i = valueAt line i := fun i => by
    unfold Compressed.entryIn
    rw [read]
  have inBounds : k < xs.size := size ▸ hk
  unfold scatterStage
  dsimp only
  rw [entry_getD 0 inBounds, checked_ok_bind]
  by_cases zero : xs.getD k 0 = 0
  · refine ⟨xs, flops, by rw [zero]; rfl, size, fun i => ?_⟩
    rw [zero, zero_mul, mul_zero, sub_zero]
    split
    · rename_i same
      rw [same, zero]
    · rfl
  · rw [if_neg (by simpa using zero), scaled.inverse?_eq hk, checked_ok_bind, read]
    have within : ∀ i ∈ keys line,
        i < (xs.setIfInBounds k (xs.getD k 0 * scale inverses k)).size := fun i hi => by
      rw [Array.size_setIfInBounds, size]
      exact (inside i hi).1
    obtain ⟨ys, run, size', values⟩ :=
      foldlM_subtract distinct within (xs.getD k 0 * scale inverses k)
    have apart : k ∉ keys line := fun member => Nat.lt_irrefl _ (inside k member).2
    have result : ∀ i, ys.getD i 0 = if i = k then xs.getD k 0 * scale inverses k
        else xs.getD i 0 - c.entryIn k i * (xs.getD k 0 * scale inverses k) := by
      intro i
      rw [values, getD_setIfInBounds inBounds, value]
      split
      · rename_i same
        rw [same, valueAt_of_not_mem apart, zero_mul, sub_zero]
      · rfl
    rw [Array.size_setIfInBounds, size] at size'
    cases inverses with
    | none =>
      have unit : xs.getD k 0 * scale none k = xs.getD k 0 := mul_one _
      rw [unit] at run
      simp only [Option.map_none, checked_ok_bind, run]
      exact ⟨ys, _, rfl, size', result⟩
    | some reciprocals =>
      have scaled : scale (some reciprocals) k = reciprocals.getD k 0 := rfl
      rw [scaled] at run
      simp only [Option.map_some, checked_ok_bind, run]
      exact ⟨ys, _, rfl, size', result⟩

theorem foldlM_collect (inside : ∀ i ∈ keys line, i < xs.size) (x : ℚ) :
    line.foldlM (fun x (i, a) => do return x - a * (← entry xs i)) x =
      (.ok (x - (line.map fun e => e.2 * xs.getD e.1 0).sum) : Checked ℚ) := by
  induction line generalizing x with
  | nil => simp [pure, Except.pure]
  | cons e line ih =>
    obtain ⟨k, a⟩ := e
    have hk : k < xs.size := inside k (by simp [keys])
    rw [List.foldlM_cons]
    dsimp only
    rw [entry_getD 0 hk, checked_ok_bind]
    refine (ih (fun i hi => inside i (List.mem_cons_of_mem k hi)) _).trans ?_
    rw [List.map_cons, List.sum_cons]
    congr 1
    ring

theorem sum_line (distinct : (keys line).Nodup) (inside : ∀ i ∈ keys line, i < n) (f : Nat → ℚ) :
    (line.map fun e => e.2 * f e.1).sum = ∑ j ∈ Finset.range n, valueAt line j * f j := by
  induction line with
  | nil => simp
  | cons e line ih =>
    obtain ⟨k, a⟩ := e
    have apart : k ∉ keys line := (List.nodup_cons.mp distinct).1
    have hk : k ∈ Finset.range n := Finset.mem_range.mpr (inside k (by simp [keys]))
    have split : ∀ j, valueAt ((k, a) :: line) j * f j =
        (if k = j then a * f j else 0) + valueAt line j * f j := by
      intro j
      rw [valueAt_cons]
      split
      · rename_i same
        rw [← same, valueAt_of_not_mem apart]
        ring
      · ring
    rw [List.map_cons, List.sum_cons, ih (List.nodup_cons.mp distinct).2 fun i hi =>
      inside i (List.mem_cons_of_mem k hi), Finset.sum_congr rfl fun j _ => split j,
      Finset.sum_add_distrib, Finset.sum_ite_eq, if_pos hk]

theorem gatherStage_run (climbs : c.Climbs n rank) (scaled : Scaled inverses n) (hk : k < n)
    (size : xs.size = n) (flops : Nat) : ∃ ys flops',
      gatherStage c inverses (xs, flops) k = .ok (ys, flops') ∧ ys.size = n ∧
      ∀ i, ys.getD i 0 = if i = k then scale inverses k *
          (xs.getD k 0 - ∑ j ∈ Finset.range n, c.entryIn k j * xs.getD j 0)
        else xs.getD i 0 := by
  obtain ⟨line, read, distinct, inside⟩ := climbs k hk
  have inBounds : k < xs.size := size ▸ hk
  have collected : (line.map fun e => e.2 * xs.getD e.1 0).sum =
      ∑ j ∈ Finset.range n, c.entryIn k j * xs.getD j 0 := by
    rw [sum_line distinct (fun i hi => (inside i hi).1) fun j => xs.getD j 0]
    unfold Compressed.entryIn
    rw [read]
  unfold gatherStage
  dsimp only
  rw [read, checked_ok_bind, entry_getD 0 inBounds, checked_ok_bind,
    foldlM_collect fun i hi => by rw [size]; exact (inside i hi).1, checked_ok_bind,
    scaled.inverse?_eq hk, checked_ok_bind, withEntry_of_lt _ inBounds, checked_ok_bind, collected]
  refine ⟨_, _, rfl, Array.size_setIfInBounds.trans size, fun i => ?_⟩
  rw [getD_setIfInBounds inBounds]
  refine if_congr Iff.rfl ?_ rfl
  cases inverses with
  | none => exact (one_mul _).symm
  | some reciprocals => exact mul_comm _ _

/-! ### Orders of stages -/

section Orders

variable {coeff : Nat → Nat → ℚ} {factor x y z : Nat → ℚ} {done : List Nat}

/-- The unknowns of the stages that are done, each taken out of the others with its column of
coefficients. -/
def ColumnsDone (coeff : Nat → Nat → ℚ) (factor x : Nat → ℚ) (done : List Nat) (y : Nat → ℚ) :
    Prop :=
  ∀ i, y i = (if i ∈ done then factor i else 1) * (x i - ∑ j ∈ done.toFinset, coeff j i * y j)

theorem ColumnsDone.start : ColumnsDone coeff factor x [] x := fun i => by simp

theorem ColumnsDone.step (h : ColumnsDone coeff factor x done z) (fresh : k ∉ done)
    (own : coeff k k = 0) (apart : ∀ i ∈ done, coeff k i = 0)
    (stage : ∀ i, y i = if i = k then z k * factor k else z i - coeff k i * (z k * factor k)) :
    ColumnsDone coeff factor x (done ++ [k]) y := by
  intro i
  have kept : ∀ j ∈ done, y j = z j := by
    intro j member
    have other : j ≠ k := fun same => fresh (same ▸ member)
    rw [stage, if_neg other, apart j member, zero_mul, sub_zero]
  have sum : ∑ j ∈ (done ++ [k]).toFinset, coeff j i * y j =
      ∑ j ∈ done.toFinset, coeff j i * z j + coeff k i * y k := by
    rw [List.toFinset_append, List.toFinset_cons, List.toFinset_nil, insert_empty_eq,
      Finset.sum_union (by simpa using fresh), Finset.sum_singleton]
    exact congrArg (· + _) (Finset.sum_congr rfl fun j member => by
      rw [kept j (List.mem_toFinset.mp member)])
  have pivot : y k = z k * factor k := by rw [stage, if_pos rfl]
  rw [sum]
  by_cases same : i = k
  · subst same
    rw [pivot, own, zero_mul, add_zero, if_pos (by simp), h, if_neg fresh]
    ring
  · rw [stage, if_neg same, ← pivot]
    by_cases member : i ∈ done
    · rw [if_pos (by simp [member]), apart i member, zero_mul, sub_zero, add_zero, h, if_pos member]
    · rw [if_neg (by simp [member, same]), h, if_neg member]
      ring

/-- The unknowns of the stages that are done, each found from its row of coefficients. -/
def RowsDone (coeff : Nat → Nat → ℚ) (factor x : Nat → ℚ) (n : Nat) (done : List Nat)
    (y : Nat → ℚ) : Prop :=
  ∀ i, y i = if i ∈ done then factor i * (x i - ∑ j ∈ Finset.range n, coeff i j * y j) else x i

theorem RowsDone.start : RowsDone coeff factor x n [] x := fun i => by simp

theorem RowsDone.step (h : RowsDone coeff factor x n done z) (fresh : k ∉ done)
    (apart : ∀ i ∈ done ++ [k], coeff i k = 0)
    (stage : ∀ i, y i = if i = k then
      factor k * (z k - ∑ j ∈ Finset.range n, coeff k j * z j) else z i) :
    RowsDone coeff factor x n (done ++ [k]) y := by
  intro i
  have other : ∀ i ∈ done ++ [k], ∑ j ∈ Finset.range n, coeff i j * y j =
      ∑ j ∈ Finset.range n, coeff i j * z j := by
    intro i member
    refine Finset.sum_congr rfl fun j _ => ?_
    by_cases same : j = k
    · rw [same, apart i member, zero_mul, zero_mul]
    · rw [stage, if_neg same]
  rw [stage]
  by_cases same : i = k
  · subst same
    rw [if_pos rfl, if_pos (by simp), other i (by simp), h, if_neg fresh]
  · rw [if_neg same, h]
    by_cases member : i ∈ done
    · rw [if_pos member, if_pos (by simp [member]), other i (by simp [member])]
    · rw [if_neg member, if_neg (by simp [member, same])]

end Orders

/-! ### Whole solves -/

/-- The unknowns of a system whose columns are the lines, with a diagonal given by reciprocals. -/
def ByColumns (c : Compressed ℚ) (n : Nat) (inverses : Option (Array ℚ)) (xs ys : Array ℚ) : Prop :=
  ∀ i < n, ys.getD i 0 = scale inverses i *
    (xs.getD i 0 - ∑ j ∈ Finset.range n, c.entryIn j i * ys.getD j 0)

/-- The unknowns of a system whose rows are the lines, with a diagonal given by reciprocals. -/
def ByRows (c : Compressed ℚ) (n : Nat) (inverses : Option (Array ℚ)) (xs ys : Array ℚ) : Prop :=
  ∀ i < n, ys.getD i 0 = scale inverses i *
    (xs.getD i 0 - ∑ j ∈ Finset.range n, c.entryIn i j * ys.getD j 0)

section Unique

variable {inverses : Option (Array ℚ)} {xs xs' ys ys' : Array ℚ}

/-- The unknowns depend on the right-hand side only, whatever the reciprocals are. -/
theorem ByColumns.unique (beyond : c.Beyond n) (h : ByColumns c n inverses xs ys)
    (h' : ByColumns c n inverses xs' ys') (same : ∀ i < n, xs.getD i 0 = xs'.getD i 0) :
    ∀ i < n, ys.getD i 0 = ys'.getD i 0 := by
  intro i
  induction i using Nat.strong_induction_on with
  | _ i ih =>
    intro hi
    rw [h i hi, h' i hi, same i hi]
    congr 2
    refine Finset.sum_congr rfl fun j hj => ?_
    have hj := Finset.mem_range.mp hj
    rcases Nat.lt_or_ge j i with before | behind
    · rw [ih j before hj]
    · rw [beyond.entryIn_eq_zero hj behind, zero_mul, zero_mul]

theorem ByRows.unique (beyond : c.Beyond n) (h : ByRows c n inverses xs ys)
    (h' : ByRows c n inverses xs' ys') (same : ∀ i < n, xs.getD i 0 = xs'.getD i 0) :
    ∀ i < n, ys.getD i 0 = ys'.getD i 0 := by
  have backwards : ∀ d i, i < n → n - i = d → ys.getD i 0 = ys'.getD i 0 := by
    intro d
    induction d using Nat.strong_induction_on with
    | _ d ih =>
      intro i hi eq
      rw [h i hi, h' i hi, same i hi]
      congr 2
      refine Finset.sum_congr rfl fun j hj => ?_
      have hj := Finset.mem_range.mp hj
      rcases Nat.lt_or_ge i j with after | before
      · rw [ih (n - j) (by omega) j hj rfl]
      · rw [beyond.entryIn_eq_zero hi before, zero_mul, zero_mul]
  exact fun i hi => backwards (n - i) i hi rfl

end Unique

theorem scatter_run (climbs : c.Climbs n rank) (scaled : Scaled inverses n) (size : xs.size = n)
    {order : List Nat} (ordered : c.Ordered n order) : ∃ ys flops,
      scatter c inverses order xs = .ok (ys, flops) ∧ ys.size = n ∧
      ∀ i, ys.getD i 0 = (if i ∈ order then scale inverses i else 1) *
        (xs.getD i 0 - ∑ j ∈ order.toFinset, c.entryIn j i * ys.getD j 0) := by
  obtain ⟨⟨ys, flops⟩, run, size, values⟩ := foldlM_ok (f := scatterStage c inverses) (l := order)
    (y := (xs, 0)) (fun done (state : Array ℚ × Nat) => state.1.size = n ∧
      ColumnsDone c.entryIn (scale inverses) (xs.getD · 0) done (state.1.getD · 0))
    ⟨size, .start⟩ (by
      rintro done k rest ⟨zs, flops⟩ split ⟨size, values⟩
      rw [split] at ordered
      have hk : k < n := ordered.inside k (by simp)
      have fresh : k ∉ done := fun member => (ordered.not_mem member).1 rfl
      obtain ⟨ys, flops', run, size', stage⟩ := scatterStage_run climbs scaled hk size flops
      exact ⟨(ys, flops'), run, size', values.step fresh
        (Compressed.entryIn_of_not_mem (climbs.not_mem hk le_rfl))
        (fun i member => Compressed.entryIn_of_not_mem (ordered.not_mem member).2) stage⟩)
  exact ⟨ys, flops, run, size, values⟩

/-- Substitution by columns, along an order that the right-hand side and the lines do not leave. -/
theorem scatter_solves (climbs : c.Climbs n rank) (scaled : Scaled inverses n) (size : xs.size = n)
    {order : List Nat} (ordered : c.Ordered n order)
    (closed : ∀ k ∈ order, ∀ i ∈ c.targets k, i ∈ order)
    (covers : ∀ i, xs.getD i 0 ≠ 0 → i ∈ order) : ∃ ys flops,
      scatter c inverses order xs = .ok (ys, flops) ∧ ys.size = n ∧
      ByColumns c n inverses xs ys ∧ ∀ i ∉ order, ys.getD i 0 = 0 := by
  obtain ⟨ys, flops, run, size, values⟩ := scatter_run climbs scaled size ordered
  have outside : ∀ i ∉ order, ∀ j ∈ order, c.entryIn j i = 0 := fun i out j member =>
    Compressed.entryIn_of_not_mem fun target => out (closed j member i target)
  have vacant : ∀ i ∉ order, ys.getD i 0 = 0 := by
    intro i out
    rw [values, if_neg out, not_ne_iff.mp fun ne => out (covers i ne), one_mul, zero_sub,
      neg_eq_zero]
    refine Finset.sum_eq_zero fun j member => ?_
    rw [outside i out j (List.mem_toFinset.mp member), zero_mul]
  refine ⟨ys, flops, run, size, fun i hi => ?_, vacant⟩
  have sum : ∑ j ∈ order.toFinset, c.entryIn j i * ys.getD j 0 =
      ∑ j ∈ Finset.range n, c.entryIn j i * ys.getD j 0 := by
    refine Finset.sum_subset (fun j member => ?_) fun j _ out => ?_
    · exact Finset.mem_range.mpr (ordered.inside j (List.mem_toFinset.mp member))
    · rw [vacant j fun member => out (List.mem_toFinset.mpr member), mul_zero]
  rw [← sum]
  by_cases member : i ∈ order
  · rw [values, if_pos member]
  · rw [vacant i member, not_ne_iff.mp fun ne => member (covers i ne), zero_sub,
      Finset.sum_eq_zero, neg_zero, mul_zero]
    intro j inside
    rw [outside i member j (List.mem_toFinset.mp inside), zero_mul]

theorem scatter_range (beyond : c.Beyond n) (scaled : Scaled inverses n) (size : xs.size = n) :
    ∃ ys flops, scatter c inverses (List.range n) xs = .ok (ys, flops) ∧ ys.size = n ∧
      ByColumns c n inverses xs ys := by
  have climbs := beyond.climbs
  have ordered : c.Ordered n (List.range n) :=
    { distinct := List.nodup_range
      inside := fun k => List.mem_range.mp
      sorted := (List.pairwise_lt_range).imp_of_mem fun _ hb lt =>
        climbs.not_mem (List.mem_range.mp hb) (Nat.le_of_lt lt) }
  obtain ⟨ys, flops, run, size, solves, -⟩ := scatter_solves climbs scaled size ordered
    (fun k hk i target => List.mem_range.mpr (climbs.lt (List.mem_range.mp hk) target).1)
    (fun i ne => List.mem_range.mpr (by
      by_contra behind
      exact ne (by simp [Array.getD, size, behind])))
  exact ⟨ys, flops, run, size, solves⟩

theorem gather_reverse (beyond : c.Beyond n) (scaled : Scaled inverses n) (size : xs.size = n) :
    ∃ ys flops, gather c inverses (List.range n).reverse xs = .ok (ys, flops) ∧ ys.size = n ∧
      ByRows c n inverses xs ys := by
  have climbs := beyond.climbs
  obtain ⟨⟨ys, flops⟩, run, size, values⟩ := foldlM_ok (f := gatherStage c inverses)
    (l := (List.range n).reverse) (y := (xs, 0)) (fun done (state : Array ℚ × Nat) =>
      state.1.size = n ∧
        RowsDone c.entryIn (scale inverses) (xs.getD · 0) n done (state.1.getD · 0))
    ⟨size, .start⟩ (by
      rintro done k rest ⟨zs, flops⟩ split ⟨size, values⟩
      have falling : (List.range n).reverse.Pairwise (fun a b => b < a) :=
        List.pairwise_reverse.mpr List.pairwise_lt_range
      rw [split] at falling
      have above : ∀ i ∈ done, k < i := fun i member =>
        (List.pairwise_append.mp falling).2.2 i member k (by simp)
      have inside : ∀ i ∈ done ++ k :: rest, i < n := fun i member => by simpa [← split] using member
      have hk : k < n := inside k (by simp)
      obtain ⟨ys, flops', run, size', stage⟩ := gatherStage_run climbs scaled hk size flops
      refine ⟨(ys, flops'), run, size', values.step (fun member => Nat.lt_irrefl k (above k member))
        (fun i member => ?_) stage⟩
      have le : k ≤ i := by
        rcases List.mem_append.mp member with early | here
        · exact Nat.le_of_lt (above i early)
        · exact (List.mem_singleton.mp here).ge
      refine beyond.entryIn_eq_zero (inside i ?_) le
      rw [← List.singleton_append, ← List.append_assoc]
      exact List.mem_append_left _ member)
  refine ⟨ys, flops, run, size, fun i hi => ?_⟩
  exact (values i).trans (if_pos (by simpa using hi))

end Substitution

end SimplexBasis
