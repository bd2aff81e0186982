import Mathlib.Logic.Relation
import SimplexBasis.Proofs.Triangular.Substitution
import SimplexBasis.Triangular.Reach

/-!
# Reach

The depth-first search lists exactly the nodes that can be reached from its roots, in any graph.
Every edge of a listed node is followed, and one that leads back to a node listed earlier closes a
cycle: while the node is searched, the other one lies below it on the stack. So an order in which no
edge leads back comes out of every graph without cycles, among them those whose edges climb in rank.
-/

set_option linter.unusedSectionVars false

namespace SimplexBasis

variable {α : Type} {graph : Compressed α} {n k i j marker : Nat} {rank : Nat → Nat}

/-! ### Graphs -/

namespace Compressed

def neighbours (graph : Compressed α) (k : Nat) : List Nat :=
  (graph.index.extract (graph.start.getD k 0) (graph.start.getD (k + 1) 0)).toList

def Edge (graph : Compressed α) (k i : Nat) : Prop := i ∈ graph.neighbours k

/-- A path of any length, possibly of none. -/
def Leads (graph : Compressed α) : Nat → Nat → Prop := Relation.ReflTransGen graph.Edge

def Acyclic (graph : Compressed α) : Prop := ∀ k, ¬Relation.TransGen graph.Edge k k

theorem neighbours_stored {p : Nat} (here : (graph.neighbours k)[p]? = some i) :
    entry graph.index (graph.start.getD k 0 + p) = .ok i := by
  rw [neighbours, Array.getElem?_toList, Array.getElem?_extract] at here
  rw [entry_eq_ok_iff]
  split at here
  · exact here
  · exact nomatch here

/-- The edges of the first `n` nodes are stored, and they lead to such nodes. -/
structure Connects (graph : Compressed α) (n : Nat) : Prop where
  size : ∀ k < n, k + 1 < graph.start.size
  ascending : ∀ k < n, graph.start.getD k 0 ≤ graph.start.getD (k + 1) 0
  stored : ∀ k < n, graph.start.getD (k + 1) 0 ≤ graph.index.size
  inside : ∀ k < n, ∀ i, graph.Edge k i → i < n

namespace Connects

theorem start_eq (h : graph.Connects n) (hk : k < n) :
    entry graph.start k = .ok (graph.start.getD k 0) ∧
      entry graph.start (k + 1) = .ok (graph.start.getD (k + 1) 0) :=
  ⟨entry_getD 0 (Nat.lt_of_succ_lt (h.size k hk)), entry_getD 0 (h.size k hk)⟩

theorem length_neighbours (h : graph.Connects n) (hk : k < n) :
    graph.start.getD k 0 + (graph.neighbours k).length = graph.start.getD (k + 1) 0 := by
  have ascending := h.ascending k hk
  have stored := h.stored k hk
  simp only [neighbours, Array.length_toList, Array.size_extract]
  omega

end Connects

theorem Leads.tail (h : graph.Leads k i) (edge : graph.Edge i j) : graph.Leads k j :=
  Relation.ReflTransGen.tail h edge

theorem Leads.refl (graph : Compressed α) (k : Nat) : graph.Leads k k := Relation.ReflTransGen.refl

theorem Acyclic.not_leads (h : graph.Acyclic) (edge : graph.Edge k i) : ¬graph.Leads i k :=
  fun back => h k (Relation.TransGen.head' edge back)

/-! ### Edges that climb -/

theorem Climbs.neighbours_eq (h : graph.Climbs n rank) (hk : k < n) :
    graph.neighbours k = graph.targets k ∧ k + 1 < graph.start.size ∧
      graph.start.getD k 0 ≤ graph.start.getD (k + 1) 0 ∧
      graph.start.getD (k + 1) 0 ≤ graph.index.size := by
  obtain ⟨line, read, -⟩ := h k hk
  have targets : graph.targets k = keys line := by
    unfold Compressed.targets
    rw [read]
  unfold Compressed.line extent at read
  obtain ⟨⟨first, last⟩, extent, read⟩ := except_bind_eq_ok.mp read
  obtain ⟨first', start, extent⟩ := except_bind_eq_ok.mp extent
  obtain ⟨last', stop, extent⟩ := except_bind_eq_ok.mp extent
  cases extent
  obtain ⟨is, index, read⟩ := except_bind_eq_ok.mp read
  obtain ⟨xs, value, read⟩ := except_bind_eq_ok.mp read
  cases read
  obtain ⟨le, inside, index⟩ := segment_eq_ok_iff.mp index
  obtain ⟨-, inside', value⟩ := segment_eq_ok_iff.mp value
  obtain ⟨-, start⟩ := getD_of_entry 0 start
  obtain ⟨bound, stop⟩ := getD_of_entry 0 stop
  have length : is.length = xs.length := by
    rw [← index, ← value]
    simp
    omega
  rw [targets, start, stop]
  refine ⟨?_, bound, le, inside⟩
  unfold neighbours
  rw [start, stop, index]
  exact (List.map_fst_zip (Nat.le_of_eq length)).symm

theorem Climbs.edge_iff (h : graph.Climbs n rank) (hk : k < n) :
    graph.Edge k i ↔ i ∈ graph.targets k := by
  unfold Edge
  rw [(h.neighbours_eq hk).1]

theorem Climbs.connects (h : graph.Climbs n rank) : graph.Connects n where
  size _ hk := (h.neighbours_eq hk).2.1
  ascending _ hk := (h.neighbours_eq hk).2.2.1
  stored _ hk := (h.neighbours_eq hk).2.2.2
  inside _ hk _ edge := (h.lt hk ((h.edge_iff hk).mp edge)).1

theorem Climbs.le_of_leads (h : graph.Climbs n rank) (hk : k < n) (path : graph.Leads k i) :
    i < n ∧ rank k ≤ rank i := by
  induction path with
  | refl => exact ⟨hk, Nat.le_refl _⟩
  | tail _ edge ih =>
    obtain ⟨inside, higher⟩ := h.lt ih.1 ((h.edge_iff ih.1).mp edge)
    exact ⟨inside, by omega⟩

end Compressed

namespace Reach

variable {before : Array Nat} {roots stack found : List Nat} {r : Reach}

/-! ### Edges -/

/-- What a look at the edges from position `d` of a line on finds: the first one whose target is not
marked, or that all are marked. -/
theorem unmarkedEdge?_ok (marker : Nat) {marked : Array Nat} {first : Nat} {ts : List Nat}
    (reads : ∀ p i : Nat, ts[p]? = some i → entry graph.index (first + p) = .ok i)
    (inside : ∀ i ∈ ts, i < marked.size) (remaining d : Nat) (all : d + remaining = ts.length) :
    (unmarkedEdge? graph marker marked remaining (first + d) = .ok none ∧
        ∀ i ∈ ts.drop d, marked.getD i 0 = marker) ∨
      ∃ e next, unmarkedEdge? graph marker marked remaining (first + d) =
          .ok (some (first + e, next)) ∧ d ≤ e ∧ ts[e]? = some next ∧
        marked.getD next 0 ≠ marker ∧ ∀ i ∈ (ts.take e).drop d, marked.getD i 0 = marker := by
  induction remaining generalizing d with
  | zero =>
    refine .inl ⟨rfl, fun i member => ?_⟩
    rw [List.drop_eq_nil_of_le (by omega)] at member
    exact absurd member List.not_mem_nil
  | succ remaining ih =>
    have hd : d < ts.length := by omega
    have here : ts[d]? = some ts[d] := List.getElem?_eq_getElem hd
    unfold unmarkedEdge?
    rw [reads d _ here, checked_ok_bind, entry_getD 0 (inside _ (List.getElem_mem hd)),
      checked_ok_bind]
    by_cases same : marked.getD ts[d] 0 = marker
    · rw [if_pos (by simpa using same), Nat.add_assoc]
      have split : ∀ k, d < k → ∀ i ∈ (ts.take k).drop d,
          i = ts[d] ∨ i ∈ (ts.take k).drop (d + 1) := by
        intro k hk i member
        rw [List.drop_eq_getElem_cons (by rw [List.length_take]; omega), List.mem_cons,
          List.getElem_take] at member
        exact member
      rcases ih (d + 1) (by omega) with ⟨run, rest⟩ | ⟨e, next, run, le, target, fresh, rest⟩
      · refine .inl ⟨run, fun i member => ?_⟩
        rw [List.drop_eq_getElem_cons hd, List.mem_cons] at member
        rcases member with rfl | later
        · exact same
        · exact rest i later
      · refine .inr ⟨e, next, run, by omega, target, fresh, fun i member => ?_⟩
        rcases split e (by omega) i member with rfl | later
        · exact same
        · exact rest i later
    · rw [if_neg (by simpa using same)]
      refine .inr ⟨d, ts[d], rfl, le_rfl, here, same, fun i member => ?_⟩
      rw [List.drop_eq_nil_of_le (by rw [List.length_take]; omega)] at member
      exact absurd member List.not_mem_nil

/-! ### A stack and a list in one array -/

theorem length_le_of_distinct {nodes : List Nat} (distinct : nodes.Nodup)
    (inside : ∀ i ∈ nodes, i < n) : nodes.length ≤ n := by
  have within : nodes ⊆ List.range n := by
    intro i member
    exact List.mem_range.mpr (inside i member)
  have le := (List.subperm_of_subset distinct within).length_le
  rwa [List.length_range] at le

theorem getElem?_below {p : Nat} (here : (stack ++ [k])[p]? = some i) (other : p ≠ stack.length) :
    stack[p]? = some i := by
  have bound := (List.getElem?_eq_some_iff.mp here).1
  rw [List.length_append, List.length_singleton] at bound
  rwa [List.getElem?_append_left (by omega)] at here

section Shared

variable {pattern : Array Nat} {top : Nat}

theorem take_push (stacked : pattern.toList.take stack.length = stack)
    (room : stack.length < pattern.size) : (pattern.setIfInBounds stack.length i).toList.take
      (stack ++ [i]).length = stack ++ [i] := by
  rw [Array.toList_setIfInBounds, List.length_append, List.length_singleton,
    List.take_succ_eq_append_getElem (by simpa using room), List.take_set_of_le le_rfl, stacked,
    List.getElem_set_self]

theorem drop_push {place : Nat} (below : place < top) :
    (pattern.setIfInBounds place i).toList.drop top = pattern.toList.drop top := by
  rw [Array.toList_setIfInBounds, List.drop_set_of_lt below]

theorem take_pop (stacked : pattern.toList.take (stack ++ [k]).length = stack ++ [k])
    {place : Nat} (above : stack.length ≤ place) :
    (pattern.setIfInBounds place i).toList.take stack.length = stack := by
  rw [Array.toList_setIfInBounds, List.take_set_of_le above]
  calc pattern.toList.take stack.length
      = (pattern.toList.take (stack ++ [k]).length).take stack.length := by
        rw [List.take_take, Nat.min_eq_left (by simp)]
    _ = stack := by rw [stacked, List.take_left]

theorem drop_pop (positive : 0 < top) (inside : top ≤ pattern.size) :
    (pattern.setIfInBounds (top - 1) i).toList.drop (top - 1) = i :: pattern.toList.drop top := by
  have room : top - 1 < pattern.toList.length := by
    rw [Array.length_toList]
    omega
  rw [Array.toList_setIfInBounds, List.drop_eq_getElem_cons (by rwa [List.length_set]),
    List.getElem_set_self, List.drop_set_of_lt (by omega), Nat.sub_add_cancel positive]

end Shared

/-! ### The invariant -/

/-- The state of a search from `roots` with the nodes on the stack, the bottom first, and the nodes
found. Elsewhere the marks are those from before. -/
structure Searching (graph : Compressed α) (n marker : Nat) (before : Array Nat) (roots : List Nat)
    (stack found : List Nat) (r : Reach) : Prop where
  sizePattern : r.pattern.size = n
  sizeResume : r.resume.size = n
  sizeMarked : r.marked.size = n
  height : r.height = stack.length
  top : r.top + found.length = n
  stacked : r.pattern.toList.take stack.length = stack
  listed : r.pattern.toList.drop r.top = found
  distinct : (stack ++ found).Nodup
  inside : ∀ i ∈ stack ++ found, i < n
  marks : ∀ i, r.marked.getD i 0 = marker ∨ r.marked.getD i 0 = before.getD i 0
  marked : ∀ i < n, r.marked.getD i 0 = marker → i ∈ stack ++ found
  seen : ∀ i ∈ stack.dropLast ++ found, r.marked.getD i 0 = marker
  resumes : ∀ p k : Nat, stack[p]? = some k → r.marked.getD k 0 = marker →
    graph.start.getD k 0 ≤ r.resume.getD p 0 ∧
      r.resume.getD p 0 ≤ graph.start.getD (k + 1) 0 ∧
      ∀ i ∈ (graph.neighbours k).take (r.resume.getD p 0 - graph.start.getD k 0),
        i ∈ stack ++ found
  path : stack.Pairwise graph.Leads
  origin : ∀ i ∈ stack ++ found, ∃ k ∈ roots, graph.Leads k i
  closed : ∀ k ∈ found, ∀ i, graph.Edge k i → i ∈ stack ++ found
  back : ∀ k ∈ found, ∀ i ∈ stack, graph.Edge k i → graph.Leads i k
  sorted : found.Pairwise fun i k => graph.Edge k i → graph.Leads i k

namespace Searching

theorem length_le (h : Searching graph n marker before roots stack found r) :
    stack.length + found.length ≤ n := by
  have le := length_le_of_distinct h.distinct h.inside
  rwa [List.length_append] at le

theorem apart (h : Searching graph n marker before roots stack found r) :
    r.height ≤ r.top := by
  have le := h.length_le
  have height := h.height
  have top := h.top
  omega

theorem top_eq (h : Searching graph n marker before roots (stack ++ [k]) found r) :
    entry r.pattern stack.length = .ok k := by
  have stacked := h.stacked
  rw [List.length_append, List.length_singleton] at stacked
  rw [entry_eq_ok_iff, ← Array.getElem?_toList]
  have here : (r.pattern.toList.take (stack.length + 1))[stack.length]? = some k := by
    rw [stacked]
    simp
  rwa [List.getElem?_take_of_lt (Nat.lt_succ_self _)] at here

/-- The node on top of the stack is marked, and the search at it begins with its first edge. -/
theorem visit_run (connects : graph.Connects n)
    (h : Searching graph n marker before roots (stack ++ [k]) found r) : ∃ r',
      visit graph marker k stack.length r = .ok r' ∧
      Searching graph n marker before roots (stack ++ [k]) found r' ∧
      r'.marked.getD k 0 = marker := by
  have hk := h.inside k (by simp)
  have le := h.length_le
  rw [List.length_append, List.length_singleton] at le
  unfold visit
  rw [entry_getD 0 (by rw [h.sizeMarked]; exact hk), checked_ok_bind]
  by_cases same : r.marked.getD k 0 = marker
  · rw [if_pos (by simpa using same)]
    exact ⟨r, rfl, h, same⟩
  · have place : stack.length < r.resume.size := by rw [h.sizeResume]; omega
    rw [if_neg (by simpa using same), withEntry_of_lt _ (by rw [h.sizeMarked]; exact hk),
      checked_ok_bind, (connects.start_eq hk).1, checked_ok_bind, withEntry_of_lt _ place,
      checked_ok_bind]
    have fresh : ∀ i, (r.marked.setIfInBounds k marker).getD i 0 =
        if i = k then marker else r.marked.getD i 0 := fun i =>
      getD_setIfInBounds (by rw [h.sizeMarked]; exact hk)
    refine ⟨_, rfl, { h with
      sizeResume := Array.size_setIfInBounds.trans h.sizeResume
      sizeMarked := Array.size_setIfInBounds.trans h.sizeMarked
      marks := ?_
      marked := ?_
      seen := ?_
      resumes := ?_ }, ?_⟩
    · intro i
      rw [fresh]
      split
      · exact Or.inl rfl
      · exact h.marks i
    · intro i hi eq
      rw [fresh] at eq
      split at eq
      · rename_i eq'
        rw [eq']
        simp
      · exact h.marked i hi eq
    · intro i member
      rw [fresh]
      split
      · rfl
      · exact h.seen i member
    · intro p j here eq
      dsimp only
      rw [getD_setIfInBounds place]
      by_cases last : p = stack.length
      · subst last
        obtain rfl : k = j := by simpa using here
        rw [if_pos rfl]
        exact ⟨Nat.le_refl _, connects.ascending k hk, by simp⟩
      · rw [if_neg last]
        apply h.resumes p j here
        apply h.seen
        rw [List.dropLast_concat]
        exact List.mem_append_left _ (List.mem_of_getElem? (getElem?_below here last))
    · rw [fresh, if_pos rfl]

theorem known (h : Searching graph n marker before roots (stack ++ [k]) found r)
    (here : r.marked.getD k 0 = marker) (i : Nat) (member : i ∈ stack ++ [k] ++ found) :
    r.marked.getD i 0 = marker := by
  rw [List.append_assoc, List.mem_append, List.mem_append, List.mem_singleton] at member
  rcases member with early | rfl | late
  · exact h.seen i (by simp [early])
  · exact here
  · exact h.seen i (by simp [late])

theorem extend (connects : graph.Connects n)
    (h : Searching graph n marker before roots (stack ++ [k]) found r)
    (here : r.marked.getD k 0 = marker) {next : Nat} (edge : graph.Edge k next)
    (fresh : r.marked.getD next 0 ≠ marker) :
    (stack ++ [k] ++ [next] ++ found).Nodup ∧
      (∀ i ∈ stack ++ [k] ++ [next] ++ found, i < n) ∧
      stack.length + 2 + found.length ≤ n := by
  have new : next ∉ stack ++ [k] ++ found := fun member => fresh (h.known here next member)
  have perm : (stack ++ [k] ++ [next] ++ found).Perm (next :: (stack ++ [k] ++ found)) := by
    rw [List.append_assoc, List.singleton_append]
    exact List.perm_middle
  have distinct : (stack ++ [k] ++ [next] ++ found).Nodup :=
    perm.nodup_iff.mpr (List.nodup_cons.mpr ⟨new, h.distinct⟩)
  have inside : ∀ i ∈ stack ++ [k] ++ [next] ++ found, i < n := by
    intro i member
    rcases List.mem_cons.mp (perm.mem_iff.mp member) with rfl | member
    · exact connects.inside k (h.inside k (by simp)) i edge
    · exact h.inside i member
  have le := length_le_of_distinct distinct inside
  simp only [List.length_append, List.length_singleton] at le
  exact ⟨distinct, inside, le⟩

theorem path_concat (h : Searching graph n marker before roots (stack ++ [k]) found r)
    (edge : graph.Edge k i) : (stack ++ [k] ++ [i]).Pairwise graph.Leads := by
  apply List.pairwise_append.mpr
  refine ⟨h.path, List.pairwise_singleton _ _, ?_⟩
  intro j member last same
  rw [List.mem_singleton.mp same]
  rcases List.mem_append.mp member with early | top
  · exact ((List.pairwise_append.mp h.path).2.2 j early k (by simp)).tail edge
  · rw [List.mem_singleton.mp top]
    exact (Compressed.Leads.refl graph k).tail edge

theorem origin_concat (h : Searching graph n marker before roots (stack ++ [k]) found r)
    (edge : graph.Edge k i) :
    ∀ j ∈ stack ++ [k] ++ [i] ++ found, ∃ root ∈ roots, graph.Leads root j := by
  intro j member
  rcases List.mem_append.mp member with stacked | listed
  · rcases List.mem_append.mp stacked with early | last
    · exact h.origin j (List.mem_append_left _ early)
    · obtain ⟨root, among, path⟩ := h.origin k (by simp)
      rw [List.mem_singleton.mp last]
      exact ⟨root, among, path.tail edge⟩
  · exact h.origin j (List.mem_append_right _ listed)

theorem push (connects : graph.Connects n)
    (h : Searching graph n marker before roots (stack ++ [k]) found r)
    (here : r.marked.getD k 0 = marker) {e next : Nat}
    (target : (graph.neighbours k)[e]? = some next) (fresh : r.marked.getD next 0 ≠ marker)
    (followed : ∀ i ∈ (graph.neighbours k).take e, r.marked.getD i 0 = marker) :
    Searching graph n marker before roots (stack ++ [k] ++ [next]) found { r with
      resume := r.resume.setIfInBounds stack.length (graph.start.getD k 0 + e + 1)
      pattern := r.pattern.setIfInBounds r.height next
      height := r.height + 1 } := by
  have hk := h.inside k (by simp)
  have edge : graph.Edge k next := List.mem_of_getElem? target
  obtain ⟨distinct, inside, le⟩ := h.extend connects here edge fresh
  have height := h.height
  have top := h.top
  rw [List.length_append, List.length_singleton] at height
  have wider : ∀ i ∈ stack ++ [k] ++ found, i ∈ stack ++ [k] ++ [next] ++ found := by
    simp only [List.mem_append]
    tauto
  refine { h with
    sizePattern := Array.size_setIfInBounds.trans h.sizePattern
    sizeResume := Array.size_setIfInBounds.trans h.sizeResume
    height := by simp [height]
    stacked := ?_
    listed := ?_
    distinct := distinct
    inside := inside
    marked := fun i hi same => wider i (h.marked i hi same)
    seen := fun i member => h.known here i (by rwa [List.dropLast_concat] at member)
    resumes := ?_
    path := h.path_concat edge
    origin := h.origin_concat edge
    closed := fun j member i edge => wider i (h.closed j member i edge)
    back := ?_ }
  · rw [h.height]
    refine take_push h.stacked ?_
    rw [List.length_append, List.length_singleton, h.sizePattern]
    omega
  · have below : r.height < r.top := by omega
    exact (drop_push below).trans h.listed
  · intro p j place same
    dsimp only
    have room : stack.length < r.resume.size := by rw [h.sizeResume]; omega
    rw [getD_setIfInBounds room]
    by_cases last : p = stack.length
    · subst last
      obtain rfl : k = j := by simpa using place
      rw [if_pos rfl]
      have bound := (List.getElem?_eq_some_iff.mp target).1
      have stop := connects.length_neighbours hk
      refine ⟨by omega, by omega, ?_⟩
      intro i member
      rw [show graph.start.getD k 0 + e + 1 - graph.start.getD k 0 = e + 1 by omega,
        List.take_add_one, target, Option.toList_some, List.mem_append,
        List.mem_singleton] at member
      rcases member with early | rfl
      · have hi := connects.inside k hk i (List.mem_of_mem_take early)
        exact wider i (h.marked i hi (followed i early))
      · simp
    · rw [if_neg last]
      by_cases above : p = (stack ++ [k]).length
      · subst above
        obtain rfl : next = j := by simpa using place
        exact absurd same fresh
      · obtain ⟨low, high, edges⟩ := h.resumes p j (getElem?_below place above) same
        exact ⟨low, high, fun i member => wider i (edges i member)⟩
  · intro j member i stacked back
    rcases List.mem_append.mp stacked with early | last
    · exact h.back j member i early back
    · -- a node that is found has no edge to one that is not marked
      rw [List.mem_singleton.mp last] at back
      exact absurd (h.known here next (h.closed j member next back)) fresh

theorem pop (h : Searching graph n marker before roots (stack ++ [k]) found r)
    (here : r.marked.getD k 0 = marker)
    (followed : ∀ i, graph.Edge k i → i ∈ stack ++ [k] ++ found) :
    Searching graph n marker before roots stack (k :: found) { r with
      pattern := r.pattern.setIfInBounds (r.top - 1) k
      height := r.height - 1
      top := r.top - 1 } := by
  have le := h.length_le
  have height := h.height
  have top := h.top
  rw [List.length_append, List.length_singleton] at height le
  have same : stack ++ [k] ++ found = stack ++ k :: found := by simp
  refine { h with
    sizePattern := Array.size_setIfInBounds.trans h.sizePattern
    height := by simp [height]
    top := by simp only [List.length_cons]; omega
    stacked := take_pop h.stacked (by omega)
    listed := (drop_pop (by omega) (by rw [h.sizePattern]; omega)).trans (by rw [h.listed])
    distinct := same ▸ h.distinct
    inside := same ▸ h.inside
    marked := same ▸ h.marked
    seen := ?_
    resumes := ?_
    path := (List.pairwise_append.mp h.path).1
    origin := same ▸ h.origin
    closed := ?_
    back := ?_
    sorted := ?_ }
  · intro i member
    apply h.known here
    rw [same]
    rcases List.mem_append.mp member with early | late
    · exact List.mem_append_left _ (List.mem_of_mem_dropLast early)
    · exact List.mem_append_right _ late
  · intro p j place eq
    have bound := (List.getElem?_eq_some_iff.mp place).1
    rw [← same]
    exact h.resumes p j (by rwa [List.getElem?_append_left bound]) eq
  · intro j member i edge
    rw [← same]
    rcases List.mem_cons.mp member with rfl | member
    · exact followed i edge
    · exact h.closed j member i edge
  · intro j member i stacked edge
    rcases List.mem_cons.mp member with rfl | member
    · exact (List.pairwise_append.mp h.path).2.2 i stacked j (by simp)
    · exact h.back j member i (List.mem_append_left _ stacked) edge
  · apply List.pairwise_cons.mpr
    refine ⟨?_, h.sorted⟩
    intro j member edge
    exact h.back j member k (by simp) edge

/-- One step puts a node on the stack or moves the top of the stack to the result. -/
theorem step_run (connects : graph.Connects n)
    (h : Searching graph n marker before roots (stack ++ [k]) found r) : ∃ r',
      step graph marker r = .ok r' ∧
      ((∃ next, Searching graph n marker before roots (stack ++ [k] ++ [next]) found r') ∨
        Searching graph n marker before roots stack (k :: found) r') := by
  have hk := h.inside k (by simp)
  have height := h.height
  have le := h.length_le
  rw [List.length_append, List.length_singleton] at height le
  obtain ⟨t, visited, searching, here⟩ := h.visit_run connects
  obtain ⟨low, high, edges⟩ := searching.resumes stack.length k (by simp) here
  have stop := connects.length_neighbours hk
  have top := searching.top
  have height' := searching.height
  rw [List.length_append, List.length_singleton] at height'
  have place : stack.length < t.resume.size := by rw [searching.sizeResume]; omega
  have split : t.resume.getD stack.length 0 = graph.start.getD k 0 +
      (t.resume.getD stack.length 0 - graph.start.getD k 0) := by omega
  unfold step
  dsimp only
  rw [height, Nat.add_sub_cancel, h.top_eq, checked_ok_bind, visited, checked_ok_bind,
    entry_getD 0 place, checked_ok_bind, (connects.start_eq hk).2, checked_ok_bind]
  have within : ∀ i ∈ graph.neighbours k, i < t.marked.size := by
    intro i edge
    rw [searching.sizeMarked]
    exact connects.inside k hk i edge
  rcases unmarkedEdge?_ok marker (fun _ _ => Compressed.neighbours_stored) within
    (graph.start.getD (k + 1) 0 - t.resume.getD stack.length 0)
    (t.resume.getD stack.length 0 - graph.start.getD k 0) (by omega) with
    ⟨run, rest⟩ | ⟨e, next, run, le, target, fresh, rest⟩
  · rw [← split] at run
    rw [run, checked_ok_bind]
    dsimp only
    have inside : t.top - 1 < t.pattern.size := by rw [searching.sizePattern]; omega
    rw [if_neg (by omega), withEntry_of_lt _ inside]
    refine ⟨_, rfl, .inr (searching.pop here ?_)⟩
    intro i edge
    unfold Compressed.Edge at edge
    rw [← List.take_append_drop (t.resume.getD stack.length 0 - graph.start.getD k 0)
      (graph.neighbours k)] at edge
    rcases List.mem_append.mp edge with early | late
    · exact edges i early
    · exact searching.marked i (connects.inside k hk i (List.mem_of_mem_drop late)) (rest i late)
  · rw [← split] at run
    rw [run, checked_ok_bind]
    dsimp only
    have room := (searching.extend connects here (List.mem_of_getElem? target) fresh).2.2
    have inside : t.height < t.pattern.size := by rw [searching.sizePattern]; omega
    rw [withEntry_of_lt _ place, checked_ok_bind, withEntry_of_lt _ inside, checked_ok_bind]
    refine ⟨_, rfl, .inl ⟨next, searching.push connects here target fresh ?_⟩⟩
    intro i member
    rw [← List.take_append_drop (t.resume.getD stack.length 0 - graph.start.getD k 0)
      ((graph.neighbours k).take e)] at member
    rcases List.mem_append.mp member with early | late
    · rw [List.take_take, Nat.min_eq_left le] at early
      exact searching.known here i (edges i early)
    · exact rest i late

/-- Steps until the stack is empty. Each of them puts a node on the stack or takes one off. -/
theorem run_ok (connects : graph.Connects n)
    (h : Searching graph n marker before roots stack found r) (fuel : Nat)
    (enough : 2 * n ≤ fuel + stack.length + 2 * found.length) : ∃ more r',
      run graph marker fuel r = .ok r' ∧
      Searching graph n marker before roots [] (more ++ found) r' ∧ ∀ i ∈ stack, i ∈ more := by
  induction fuel generalizing stack found r with
  | zero =>
    have le := h.length_le
    obtain rfl : stack = [] := List.eq_nil_of_length_eq_zero (by omega)
    refine ⟨[], r, ?_, h, by simp⟩
    unfold run
    rw [if_pos (by rw [h.height]; rfl)]
  | succ fuel ih =>
    rcases List.eq_nil_or_concat stack with rfl | ⟨front, k, rfl⟩
    · refine ⟨[], r, ?_, h, by simp⟩
      unfold run
      rw [if_pos (by rw [h.height]; rfl)]
    · rw [List.concat_eq_append] at h enough ⊢
      obtain ⟨t, stepped, next⟩ := h.step_run connects
      unfold run
      rw [if_neg (by rw [h.height]; simp)]
      dsimp only
      rw [stepped, checked_ok_bind]
      simp only [List.length_append, List.length_singleton] at enough
      rcases next with ⟨next, pushed⟩ | popped
      · obtain ⟨more, r', ran, searched, kept⟩ := ih pushed (by
          simp only [List.length_append, List.length_singleton]; omega)
        exact ⟨more, r', ran, searched, fun i member => kept i (List.mem_append_left _ member)⟩
      · obtain ⟨more, r', ran, searched, kept⟩ := ih popped (by
          simp only [List.length_cons]; omega)
        refine ⟨more ++ [k], r', ran, by simpa using searched, ?_⟩
        intro i member
        rcases List.mem_append.mp member with early | last
        · exact List.mem_append_left _ (kept i early)
        · exact List.mem_append_right _ last

theorem root (h : Searching graph n marker before roots [] found r) (hk : k < n)
    (among : k ∈ roots) (fresh : r.marked.getD k 0 ≠ marker) :
    Searching graph n marker before roots [k] found
      { r with pattern := r.pattern.setIfInBounds 0 k, height := 1 } := by
  have new : k ∉ found := by
    intro member
    exact fresh (h.seen k (by simpa using member))
  have inside : 0 < r.pattern.size := by rw [h.sizePattern]; omega
  have distinct : (k :: found).Nodup := List.nodup_cons.mpr ⟨new, h.distinct⟩
  have within : ∀ i ∈ k :: found, i < n := by
    intro i member
    rcases List.mem_cons.mp member with rfl | member
    · exact hk
    · exact h.inside i member
  have room := length_le_of_distinct distinct within
  rw [List.length_cons] at room
  have top := h.top
  have below : 0 < r.top := by omega
  have wider : ∀ i ∈ found, i ∈ [k] ++ found := fun i member => List.mem_cons_of_mem k member
  refine { h with
    sizePattern := Array.size_setIfInBounds.trans h.sizePattern
    height := rfl
    stacked := @take_push k [] _ rfl inside
    listed := (drop_push below).trans h.listed
    distinct := distinct
    inside := within
    marked := fun i hi eq => wider i (h.marked i hi eq)
    resumes := ?_
    path := List.pairwise_singleton _ _
    origin := ?_
    closed := fun j member i edge => wider i (h.closed j member i edge)
    back := ?_ }
  · intro p j place eq
    obtain rfl : k = j := by
      cases p with
      | zero => simpa using place
      | succ p => simp at place
    exact absurd eq fresh
  · intro i member
    rcases List.mem_cons.mp member with rfl | member
    · exact ⟨i, among, Compressed.Leads.refl graph i⟩
    · exact h.origin i member
  · intro j member i stacked edge
    rw [List.mem_singleton.mp stacked] at edge
    exact absurd (h.seen k (h.closed j member k edge)) fresh

theorem addRoot_ok (connects : graph.Connects n)
    (h : Searching graph n marker before roots [] found r) (hk : k < n) (among : k ∈ roots) :
    ∃ more r', addRoot graph marker r k = .ok r' ∧
      Searching graph n marker before roots [] (more ++ found) r' ∧ k ∈ more ++ found := by
  unfold addRoot
  rw [entry_getD 0 (by rw [h.sizeMarked]; exact hk), checked_ok_bind]
  by_cases same : r.marked.getD k 0 = marker
  · rw [if_pos (by simpa using same)]
    exact ⟨[], r, rfl, h, by simpa using h.marked k hk same⟩
  · have inside : 0 < r.pattern.size := by rw [h.sizePattern]; omega
    rw [if_neg (by simpa using same), withEntry_of_lt _ inside, checked_ok_bind]
    obtain ⟨more, r', ran, searched, kept⟩ := (h.root hk among same).run_ok connects
      (2 * (r.pattern.setIfInBounds 0 k).size) (by
        rw [Array.size_setIfInBounds, h.sizePattern]; omega)
    exact ⟨more, r', ran, searched, List.mem_append_left _ (kept k (by simp))⟩

/-- The search from the nodes of a list adds them and what their edges lead to. -/
theorem addRoots_ok (connects : graph.Connects n)
    (h : Searching graph n marker before roots [] found r) {list : List Nat}
    (inside : ∀ k ∈ list, k < n) (among : ∀ k ∈ list, k ∈ roots) : ∃ more r',
      addRoots graph marker r list = .ok r' ∧
      Searching graph n marker before roots [] (more ++ found) r' ∧
      ∀ k ∈ list, k ∈ more ++ found := by
  induction list generalizing found r with
  | nil => exact ⟨[], r, rfl, h, by simp⟩
  | cons k list ih =>
    obtain ⟨more, t, added, searched, here⟩ :=
      h.addRoot_ok connects (inside k (by simp)) (among k (by simp))
    obtain ⟨more', r', rest, searched', there⟩ := ih searched
      (fun i member => inside i (List.mem_cons_of_mem k member))
      (fun i member => among i (List.mem_cons_of_mem k member))
    rw [← List.append_assoc] at searched' there
    refine ⟨more' ++ more, r', ?_, searched', ?_⟩
    · unfold addRoots
      rw [List.foldlM_cons, added, checked_ok_bind]
      exact rest
    · intro i member
      rcases List.mem_cons.mp member with rfl | member
      · rw [List.append_assoc]
        exact List.mem_append_right _ here
      · exact there i member

theorem ordered (climbs : graph.Climbs n rank)
    (h : Searching graph n marker before roots [] found r) : graph.Ordered n found := by
  refine ⟨h.distinct, h.inside, ?_⟩
  apply h.sorted.imp_of_mem
  intro i k here there leads target
  have hk := h.inside k there
  have higher := (climbs.lt hk target).2
  have lower := (climbs.le_of_leads (h.inside i here) (leads ((climbs.edge_iff hk).mpr target))).2
  omega

theorem targets_mem (climbs : graph.Climbs n rank)
    (h : Searching graph n marker before roots [] found r) :
    ∀ k ∈ found, ∀ i ∈ graph.targets k, i ∈ found := by
  intro k member i target
  exact h.closed k member i ((climbs.edge_iff (h.inside k member)).mpr target)

end Searching

theorem searching_nil {pattern resume : Array Nat} (roots : List Nat)
    (sizePattern : pattern.size = n) (sizeResume : resume.size = n) (sizeMarked : before.size = n)
    (fresh : ∀ i < n, before.getD i 0 ≠ marker) :
    Searching graph n marker before roots [] [] ⟨pattern, resume, before, 0, pattern.size⟩ where
  sizePattern := sizePattern
  sizeResume := sizeResume
  sizeMarked := sizeMarked
  height := rfl
  top := sizePattern
  stacked := List.take_zero
  listed := List.drop_eq_nil_of_le (by simp)
  distinct := List.nodup_nil
  inside := by simp
  marks i := Or.inr rfl
  marked i hi same := absurd same (fresh i hi)
  seen := by simp
  resumes := by simp
  path := List.Pairwise.nil
  origin := by simp
  closed := by simp
  back := by simp
  sorted := List.Pairwise.nil

end Reach

end SimplexBasis
