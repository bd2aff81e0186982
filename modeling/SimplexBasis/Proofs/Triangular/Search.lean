import SimplexBasis.Proofs.Triangular.Reach

/-!
# Whole searches

What a search leaves, whatever the graph, and the states on its way there: the stack and the result
share an array, and neither of them grows into the other.
-/

namespace SimplexBasis

variable {α : Type} {graph : Compressed α} {k i m marker : Nat} {roots : List Nat}

namespace Compressed

theorem mem_index_of_edge (edge : graph.Edge k i) : i ∈ graph.index := by
  unfold Edge neighbours at edge
  rw [Array.mem_toList_iff] at edge
  obtain ⟨p, bound, rfl⟩ := Array.mem_extract_iff_getElem.mp edge
  exact Array.getElem_mem _

/-- The edges of `m` nodes, stored one node after the other. Cycles are allowed. -/
structure Adjacency (graph : Compressed α) (m : Nat) : Prop where
  size : graph.start.size = m + 1
  ascending : graph.start.toList.Pairwise (· ≤ ·)
  stored : ∀ p ∈ graph.start, p ≤ graph.index.size
  inside : ∀ i ∈ graph.index, i < m

namespace Adjacency

theorem start_eq (h : graph.Adjacency m) (hk : k ≤ m) :
    ∃ bound : k < graph.start.size, graph.start.getD k 0 = graph.start[k] := by
  have bound : k < graph.start.size := by
    rw [h.size]
    omega
  exact ⟨bound, by simp [bound]⟩

theorem connects (h : graph.Adjacency m) : graph.Connects m where
  size k hk := by
    rw [h.size]
    omega
  ascending k hk := by
    obtain ⟨bound, first⟩ := h.start_eq (Nat.le_of_lt hk)
    obtain ⟨bound', last⟩ := h.start_eq hk
    rw [first, last]
    exact List.pairwise_iff_getElem.mp h.ascending k (k + 1) bound bound' (Nat.lt_succ_self k)
  stored k hk := by
    obtain ⟨bound, last⟩ := h.start_eq hk
    rw [last]
    exact h.stored _ (Array.getElem_mem bound)
  inside k _ i edge := h.inside i (mem_index_of_edge edge)

theorem source_lt (h : graph.Adjacency m) (edge : graph.Edge k i) : k < m := by
  apply Nat.lt_of_not_le
  intro outside
  have absent : graph.start.getD (k + 1) 0 = 0 := by
    rw [Array.getD_eq_getD_getElem?, Array.getElem?_eq_none (by rw [h.size]; omega)]
    rfl
  unfold Edge neighbours at edge
  simp [absent] at edge

end Adjacency

theorem acyclic_of_lt (climbs : ∀ k i, graph.Edge k i → k < i) : graph.Acyclic := by
  have higher : ∀ {k i}, Relation.TransGen graph.Edge k i → k < i := by
    intro k i path
    induction path with
    | single edge => exact climbs _ _ edge
    | tail _ edge ih => exact ih.trans (climbs _ _ edge)
  intro k cycle
  exact Nat.lt_irrefl _ (higher cycle)

end Compressed

namespace Reach

variable {r r' origin : Reach} {pattern resume marked : Array Nat}

def initial (pattern resume marked : Array Nat) : Reach := ⟨pattern, resume, marked, 0, pattern.size⟩

/-- The states that a search goes through, in whichever order it takes the roots. -/
inductive Passes (graph : Compressed α) (marker : Nat) (roots : List Nat) (origin : Reach) :
    Reach → Prop
  | start : Passes graph marker roots origin origin
  /-- A root that is not marked is put on the empty stack. -/
  | root {r : Reach} {k mark : Nat} {pattern : Array Nat}
      (passed : Passes graph marker roots origin r) (empty : r.height = 0) (among : k ∈ roots)
      (read : entry r.marked k = .ok mark) (fresh : mark ≠ marker)
      (written : withEntry r.pattern 0 k = .ok pattern) :
      Passes graph marker roots origin { r with pattern := pattern, height := 1 }
  | step {r r' : Reach} (passed : Passes graph marker roots origin r) (busy : r.height ≠ 0)
      (stepped : r.step graph marker = .ok r') : Passes graph marker roots origin r'

namespace Passes

theorem run_passes {fuel : Nat} (passed : Passes graph marker roots origin r)
    (ran : run graph marker fuel r = .ok r') :
    Passes graph marker roots origin r' ∧ r'.height = 0 := by
  induction fuel generalizing r with
  | zero =>
    unfold run at ran
    split at ran
    · rename_i empty
      cases ran
      exact ⟨passed, empty⟩
    · cases ran
  | succ fuel ih =>
    unfold run at ran
    split at ran
    · rename_i empty
      cases ran
      exact ⟨passed, empty⟩
    · rename_i busy
      obtain ⟨t, stepped, ran⟩ := except_bind_eq_ok.mp ran
      exact ih (passed.step busy stepped) ran

theorem addRoot_passes (passed : Passes graph marker roots origin r) (empty : r.height = 0)
    (among : k ∈ roots) (ran : addRoot graph marker r k = .ok r') :
    Passes graph marker roots origin r' ∧ r'.height = 0 := by
  unfold addRoot at ran
  obtain ⟨mark, read, ran⟩ := except_bind_eq_ok.mp ran
  split at ran
  · cases ran
    exact ⟨passed, empty⟩
  · rename_i fresh
    obtain ⟨pattern, written, ran⟩ := except_bind_eq_ok.mp ran
    exact (passed.root empty among read (by simpa using fresh) written).run_passes ran

theorem addRoots_passes {list : List Nat} (passed : Passes graph marker roots origin r)
    (empty : r.height = 0) (among : ∀ k ∈ list, k ∈ roots)
    (ran : addRoots graph marker r list = .ok r') : Passes graph marker roots origin r' := by
  induction list generalizing r with
  | nil =>
    cases ran
    exact passed
  | cons k list ih =>
    unfold addRoots at ran
    rw [List.foldlM_cons] at ran
    obtain ⟨t, added, ran⟩ := except_bind_eq_ok.mp ran
    obtain ⟨passed, empty⟩ := passed.addRoot_passes empty (among k List.mem_cons_self) added
    exact ih passed empty (fun i member => among i (List.mem_cons_of_mem k member)) ran

theorem searching {before : Array Nat} (connects : graph.Connects m) (inside : ∀ k ∈ roots, k < m)
    (begins : Searching graph m marker before roots [] [] origin)
    (passed : Passes graph marker roots origin r) :
    ∃ stack found, Searching graph m marker before roots stack found r := by
  induction passed with
  | start => exact ⟨[], [], begins⟩
  | root _ empty among read fresh written ih =>
    obtain ⟨stack, found, h⟩ := ih
    obtain rfl : stack = [] := List.eq_nil_of_length_eq_zero (h.height.symm.trans empty)
    obtain ⟨-, rfl⟩ := withEntry_eq_ok_iff.mp written
    obtain ⟨-, rfl⟩ := getD_of_entry 0 read
    exact ⟨_, found, h.root (inside _ among) among fresh⟩
  | step _ busy stepped ih =>
    obtain ⟨stack, found, h⟩ := ih
    rcases List.eq_nil_or_concat stack with rfl | ⟨front, k, rfl⟩
    · exact absurd h.height busy
    · rw [List.concat_eq_append] at h
      obtain ⟨t, stepped', next⟩ := h.step_run connects
      rw [stepped] at stepped'
      cases stepped'
      rcases next with ⟨next, pushed⟩ | popped
      · exact ⟨_, found, pushed⟩
      · exact ⟨front, _, popped⟩

end Passes

namespace Searching

variable {before : Array Nat} {found : List Nat}

theorem mem_of_leads (h : Searching graph m marker before roots [] found r) (here : k ∈ found)
    (path : graph.Leads k i) : i ∈ found := by
  induction path with
  | refl => exact here
  | tail _ edge ih => exact h.closed _ ih _ edge

theorem mem_iff (h : Searching graph m marker before roots [] found r)
    (all : ∀ k ∈ roots, k ∈ found) : i ∈ found ↔ ∃ k ∈ roots, graph.Leads k i := by
  constructor
  · exact h.origin i
  · rintro ⟨k, among, path⟩
    exact h.mem_of_leads (all k among) path

theorem marked_iff (h : Searching graph m marker before roots [] found r) :
    r.marked[i]? = some marker ↔ i ∈ found := by
  constructor
  · intro here
    obtain ⟨bound, same⟩ := getD_of_entry 0 (entry_eq_ok_iff.mpr here)
    exact h.marked i (h.sizeMarked ▸ bound) same
  · intro member
    have bound : i < r.marked.size := by
      rw [h.sizeMarked]
      exact h.inside i member
    rw [← h.seen i member]
    exact entry_eq_ok_iff.mp (entry_getD 0 bound)

theorem lt_of_edge (h : Searching graph m marker before roots [] found r) (acyclic : graph.Acyclic)
    {p q : Nat} (source : found[p]? = some k) (target : found[q]? = some i)
    (edge : graph.Edge k i) : p < q := by
  obtain ⟨hp, rfl⟩ := List.getElem?_eq_some_iff.mp source
  obtain ⟨hq, rfl⟩ := List.getElem?_eq_some_iff.mp target
  rcases Nat.lt_trichotomy p q with before | rfl | after
  · exact before
  · exact absurd (Relation.TransGen.single edge) (acyclic _)
  · have back := List.pairwise_iff_getElem.mp h.sorted q p hq hp after edge
    exact absurd back (acyclic.not_leads edge)

end Searching

/-- A search ends without an error, and each of its states has room for both the stack and the
result. What it lists and marks are the nodes that its roots lead to. -/
theorem search_reachable (adjacency : graph.Adjacency m) (inside : ∀ k ∈ roots, k < m)
    (sizePattern : pattern.size = m) (sizeResume : resume.size = m) (sizeMarked : marked.size = m)
    (fresh : marker ∉ marked) :
    ∃ r, addRoots graph marker (initial pattern resume marked) roots = .ok r ∧
      Passes graph marker roots (initial pattern resume marked) r ∧
      (∀ t, Passes graph marker roots (initial pattern resume marked) t → t.height ≤ t.top) ∧
      r.pattern.size = m ∧ r.top + r.order.length = m ∧
      r.order.Nodup ∧ (∀ i, i ∈ r.order ↔ ∃ k ∈ roots, graph.Leads k i) ∧
      (∀ i, r.marked[i]? = some marker ↔ i ∈ r.order) ∧
      (graph.Acyclic → ∀ p q k i : Nat, r.order[p]? = some k → r.order[q]? = some i →
        graph.Edge k i → p < q) := by
  have unmarked : ∀ i < m, marked.getD i 0 ≠ marker := by
    intro i hi same
    have here := entry_eq_ok_iff.mp (entry_getD 0 (sizeMarked.symm ▸ hi : i < marked.size))
    exact fresh (Array.mem_of_getElem? (same ▸ here))
  have begins : Searching graph m marker marked roots [] [] (initial pattern resume marked) :=
    searching_nil roots sizePattern sizeResume sizeMarked unmarked
  obtain ⟨found, r, ran, h, all⟩ :=
    begins.addRoots_ok adjacency.connects inside fun _ member => member
  rw [List.append_nil] at h all
  obtain rfl : r.order = found := h.listed
  refine ⟨r, ran, Passes.start.addRoots_passes rfl (fun _ member => member) ran, ?_, h.sizePattern,
    h.top, h.distinct, fun i => h.mem_iff all, fun i => h.marked_iff, ?_⟩
  · intro t passed
    obtain ⟨stack, found, searched⟩ := passed.searching adjacency.connects inside begins
    exact searched.apart
  · intro acyclic p q k i source target
    exact h.lt_of_edge acyclic source target

/-- A cycle `0 → 1 → 2 → 0` that a search enters at `1`, and a graph whose edges climb, searched
from two of its nodes. -/
theorem search_reachable_cycle :
    let cyclic : Compressed Nat := ⟨#[0, 1, 2, 3, 4], #[1, 2, 0, 1], #[]⟩
    let climbing : Compressed Nat := ⟨#[0, 1, 2, 3, 3], #[2, 2, 3], #[]⟩
    let zeros : Array Nat := #[0, 0, 0, 0]
    (cyclic.Adjacency 4 ∧ climbing.Adjacency 4 ∧ (∀ k ∈ [1], k < 4) ∧ (∀ k ∈ [1, 0], k < 4) ∧
      zeros.size = 4 ∧ 7 ∉ zeros ∧ climbing.Acyclic) ∧
    (∃ r, addRoots cyclic 7 (initial zeros zeros zeros) [1] = .ok r ∧ r.order = [1, 2, 0] ∧
      (∀ t, Passes cyclic 7 [1] (initial zeros zeros zeros) t → t.height ≤ t.top) ∧
      cyclic.Leads 1 0 ∧ ¬cyclic.Leads 1 3 ∧ r.marked[3]? ≠ some 7) ∧
    ∃ r, addRoots climbing 7 (initial zeros zeros zeros) [1, 0] = .ok r ∧
      r.order = [0, 1, 2, 3] ∧
      ∀ p q k i : Nat, r.order[p]? = some k → r.order[q]? = some i → climbing.Edge k i → p < q := by
  intro cyclic climbing zeros
  have adjacency : cyclic.Adjacency 4 := ⟨rfl, by decide, by decide, by decide⟩
  have adjacency' : climbing.Adjacency 4 := ⟨rfl, by decide, by decide, by decide⟩
  have inside : ∀ k ∈ [1], k < 4 := by decide
  have inside' : ∀ k ∈ [1, 0], k < 4 := by decide
  have size : zeros.size = 4 := rfl
  have fresh : 7 ∉ zeros := by simp [zeros]
  have higher : ∀ k < 4, ∀ i ∈ climbing.neighbours k, k < i := by decide
  have acyclic : climbing.Acyclic := by
    apply Compressed.acyclic_of_lt
    intro k i edge
    exact higher k (adjacency'.source_lt edge) i edge
  refine ⟨⟨adjacency, adjacency', inside, inside', size, fresh, acyclic⟩, ?_, ?_⟩
  · obtain ⟨r, ran, -, apart, -, -, -, listed, marks, -⟩ :=
      search_reachable adjacency inside size size size fresh
    have order : r.order = [1, 2, 0] := by
      have computed : order <$> addRoots cyclic 7 (initial zeros zeros zeros) [1] = .ok [1, 2, 0] := by
        decide +kernel
      rw [ran] at computed
      exact Except.ok.inj computed
    have out : ¬cyclic.Leads 1 3 := by
      intro path
      have member := (listed 3).mpr ⟨1, by simp, path⟩
      simp [order] at member
    refine ⟨r, ran, order, apart, ?_, out, ?_⟩
    · obtain ⟨k, root, path⟩ := (listed 0).mp (by simp [order])
      rwa [List.mem_singleton.mp root] at path
    · intro mark
      have member := (marks 3).mp mark
      simp [order] at member
  · obtain ⟨r, ran, -, -, -, -, -, -, -, forward⟩ :=
      search_reachable adjacency' inside' size size size fresh
    have order : r.order = [0, 1, 2, 3] := by
      have computed : order <$> addRoots climbing 7 (initial zeros zeros zeros) [1, 0] =
          .ok [0, 1, 2, 3] := by
        decide +kernel
      rw [ran] at computed
      exact Except.ok.inj computed
    exact ⟨r, ran, order, forward acyclic⟩

end Reach

end SimplexBasis
