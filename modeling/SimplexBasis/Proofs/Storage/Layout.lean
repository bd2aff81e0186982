import Mathlib.Algebra.GroupWithZero.Nat
import Mathlib.Data.List.Nodup
import Mathlib.Logic.Function.Basic
import SimplexBasis.Proofs.Runs
import SimplexBasis.Proofs.Storage.Path
import SimplexBasis.Storage.LineFile

/-!
# Layout of line files

`Arranged f order` says that the lines of `f` stand in memory in the given order, one behind the
other and inside the file, and that the links describe this order. `Stores f n capacity lines` says
that `f` is arranged in some order and that line `k` consists of the entries `lines k`: a file
behaves as `n` independent lists.
-/

namespace SimplexBasis.LineFile

variable {ε : Type}

def first (f : LineFile ε) (k : Nat) : Nat := f.start.getD k 0

def last (f : LineFile ε) (k : Nat) : Nat := f.stop.getD k 0

def content (f : LineFile ε) (k : Nat) : List ε := (f.data.extract (f.first k) (f.last k)).toList

/-- Lines in memory order, from `pos` on and up to `limit`. -/
def Tiles (first last : Nat → Nat) : Nat → List Nat → Nat → Prop
  | pos, [], limit => pos ≤ limit
  | pos, k :: rest, limit => pos ≤ first k ∧ first k ≤ last k ∧ Tiles first last (last k) rest limit

namespace Tiles

variable {first last first' last' : Nat → Nat} {pos pos' limit limit' k : Nat} {xs ys order : List Nat}

theorem append_iff : Tiles first last pos (xs ++ k :: ys) limit ↔
    Tiles first last pos xs (first k) ∧ first k ≤ last k ∧ Tiles first last (last k) ys limit := by
  induction xs generalizing pos with
  | nil => rfl
  | cons x xs ih => simp only [List.cons_append, Tiles, ih, and_assoc]

theorem le (h : Tiles first last pos order limit) : pos ≤ limit := by
  induction order generalizing pos with
  | nil => exact h
  | cons x order ih => exact Nat.le_trans h.1 (Nat.le_trans h.2.1 (ih h.2.2))

theorem lower (h : Tiles first last pos order limit) (le : pos' ≤ pos) :
    Tiles first last pos' order limit := by
  cases order with
  | nil => exact Nat.le_trans le h
  | cons x order => exact ⟨Nat.le_trans le h.1, h.2⟩

theorem raise (h : Tiles first last pos order limit) (le : limit ≤ limit') :
    Tiles first last pos order limit' := by
  induction order generalizing pos with
  | nil => exact Nat.le_trans h le
  | cons x order ih => exact ⟨h.1, h.2.1, ih h.2.2⟩

theorem congr (h : Tiles first last pos order limit) (same : ∀ x ∈ order, first' x = first x)
    (same' : ∀ x ∈ order, last' x = last x) : Tiles first' last' pos order limit := by
  induction order generalizing pos with
  | nil => exact h
  | cons x order ih =>
    obtain ⟨below, ordered, rest⟩ := h
    rw [Tiles, same x (by simp), same' x (by simp)]
    exact ⟨below, ordered, ih rest (fun y hy => same y (by simp [hy]))
      fun y hy => same' y (by simp [hy])⟩

theorem bounds (h : Tiles first last pos order limit) (hk : k ∈ order) :
    pos ≤ first k ∧ first k ≤ last k ∧ last k ≤ limit := by
  obtain ⟨front, back, rfl⟩ := List.append_of_mem hk
  obtain ⟨before, ordered, behind⟩ := append_iff.mp h
  exact ⟨before.le, ordered, behind.le⟩

theorem apart (h : Tiles first last pos order limit) {l : Nat} (hk : k ∈ order) (hl : l ∈ order)
    (ne : k ≠ l) : last k ≤ first l ∨ last l ≤ first k := by
  obtain ⟨front, back, rfl⟩ := List.append_of_mem hk
  obtain ⟨before, _, behind⟩ := append_iff.mp h
  rcases List.mem_append.mp hl with hl | hl
  · exact .inr (before.bounds hl).2.2
  · rcases List.mem_cons.mp hl with same | hl
    · exact absurd same.symm ne
    · exact .inl (behind.bounds hl).1

theorem tighten (h : Tiles first last pos order limit) (low : pos ≤ limit')
    (ends : ∀ k ∈ order, last k ≤ limit') : Tiles first last pos order limit' := by
  induction order generalizing pos with
  | nil => exact low
  | cons x order ih =>
    exact ⟨h.1, h.2.1, ih h.2.2 (ends x (by simp)) fun y hy => ends y (by simp [hy])⟩

theorem total_le (h : Tiles first last pos order limit) :
    pos + (order.map fun k => last k - first k).sum ≤ limit := by
  induction order generalizing pos with
  | nil => exact h
  | cons x order ih =>
    have rest := ih h.2.2
    have below := h.1
    have ordered := h.2.1
    simp only [List.map_cons, List.sum_cons]
    omega

theorem skip (h : Tiles first last pos (xs ++ k :: ys) limit) :
    Tiles first last pos (xs ++ ys) limit := by
  obtain ⟨before, ordered, behind⟩ := append_iff.mp h
  cases ys with
  | nil => simpa using before.raise (Nat.le_trans ordered behind.le)
  | cons y ys =>
    exact append_iff.mpr ⟨before.raise (Nat.le_trans ordered behind.1), behind.2⟩

end Tiles

/-- The lines of `f` stand in the given order. -/
structure Arranged (f : LineFile ε) (order : List Nat) : Prop where
  size_start : f.start.size = f.lineCount + 1
  size_stop : f.stop.size = f.lineCount + 1
  perm : order.Perm (List.range f.lineCount)
  ring : Path f.next f.prev f.lineCount order f.lineCount
  tiles : Tiles f.first f.last 0 order (f.first f.lineCount)
  unused : f.first f.lineCount ≤ f.data.size
  capacity : f.last f.lineCount = f.data.size

/-- A file of `n` lines with the given entries. -/
structure Stores (f : LineFile ε) (n capacity : Nat) (lines : Nat → List ε) : Prop where
  arranged : ∃ order, f.Arranged order
  lineCount : f.lineCount = n
  size_data : f.data.size = capacity
  content : ∀ k < n, f.content k = lines k

variable {f g : LineFile ε} {order : List Nat} {k l n capacity : Nat} {lines : Nat → List ε}

namespace Arranged

theorem mem_order (h : f.Arranged order) : k ∈ order ↔ k < f.lineCount := by
  rw [h.perm.mem_iff, List.mem_range]

theorem nodup (h : f.Arranged order) : order.Nodup := h.perm.nodup_iff.mpr List.nodup_range

theorem nodup_ring (h : f.Arranged order) : (f.lineCount :: order).Nodup :=
  List.nodup_cons.mpr ⟨fun member => absurd (h.mem_order.mp member) (Nat.lt_irrefl _), h.nodup⟩

theorem entry_start (h : f.Arranged order) (hk : k ≤ f.lineCount) :
    entry f.start k = .ok (f.first k) :=
  entry_getD 0 (by rw [h.size_start]; omega)

theorem entry_stop (h : f.Arranged order) (hk : k ≤ f.lineCount) :
    entry f.stop k = .ok (f.last k) :=
  entry_getD 0 (by rw [h.size_stop]; omega)

theorem bounds (h : f.Arranged order) (hk : k < f.lineCount) :
    f.first k ≤ f.last k ∧ f.last k ≤ f.first f.lineCount :=
  (h.tiles.bounds (h.mem_order.mpr hk)).2

theorem length_content (h : f.Arranged order) (hk : k < f.lineCount) :
    (f.content k).length = f.last k - f.first k := by
  have := (h.bounds hk).2
  have := h.unused
  simp only [content, Array.length_toList, Array.size_extract]
  omega

theorem last_eq (h : f.Arranged order) (hk : k < f.lineCount) :
    f.last k = f.first k + (f.content k).length := by
  have := (h.bounds hk).1
  rw [h.length_content hk]
  omega

theorem line_eq (h : f.Arranged order) (hk : k < f.lineCount) :
    f.line k = .ok (f.content k) := by
  unfold line
  rw [h.entry_start (Nat.le_of_lt hk), checked_ok_bind, h.entry_stop (Nat.le_of_lt hk),
    checked_ok_bind, segment_eq_ok_iff]
  exact ⟨(h.bounds hk).1, Nat.le_trans (h.bounds hk).2 h.unused, rfl⟩

theorem length_eq (h : f.Arranged order) (hk : k < f.lineCount) :
    f.length k = .ok (f.content k).length := by
  unfold length
  rw [h.entry_stop (Nat.le_of_lt hk), checked_ok_bind, h.entry_start (Nat.le_of_lt hk),
    checked_ok_bind, h.length_content hk]
  rfl

theorem freeSpace_eq (h : f.Arranged order) :
    f.freeSpace = .ok (f.data.size - f.first f.lineCount) := by
  unfold freeSpace
  rw [h.entry_stop (Nat.le_refl _), checked_ok_bind, h.entry_start (Nat.le_refl _),
    checked_ok_bind, h.capacity, Word.sub_of_le h.unused]
  rfl

end Arranged

theorem path_blank (filler : ε) (b m a : Nat) (span : b + m = n) (ha : a ≤ n)
    (forward : (a + 1) % (n + 1) = b) (backward : (b + n) % (n + 1) = a) :
    Path (blank n capacity filler).next (blank n capacity filler).prev a (List.range' b m) n := by
  have next : ∀ x ≤ n, (blank n capacity filler).next[x]? = some ((x + 1) % (n + 1)) := by
    intro x hx
    simp [blank, Nat.lt_succ_of_le hx]
  have prev : ∀ x ≤ n, (blank n capacity filler).prev[x]? = some ((x + n) % (n + 1)) := by
    intro x hx
    simp [blank, Nat.lt_succ_of_le hx]
  induction m generalizing a b with
  | zero =>
    have same : b = n := by omega
    subst same
    exact ⟨(next a ha).trans (congrArg some forward), (prev b (Nat.le_refl b)).trans
      (congrArg some backward)⟩
  | succ m ih =>
    refine ⟨(next a ha).trans (congrArg some forward), (prev b (by omega)).trans
      (congrArg some backward), ih (b + 1) b (by omega) (by omega) ?_ ?_⟩
    · exact Nat.mod_eq_of_lt (by omega)
    · rw [show b + 1 + n = b + (n + 1) by omega, Nat.add_mod_right]
      exact Nat.mod_eq_of_lt (by omega)

theorem first_blank (filler : ε) (k : Nat) : (blank n capacity filler).first k = 0 := by
  simp [LineFile.first, blank, Array.getD]

theorem last_blank (filler : ε) (hk : k < n) : (blank n capacity filler).last k = 0 := by
  have inside : k < n + 1 := by omega
  simp [LineFile.last, blank, Array.getD, inside, Nat.ne_of_gt hk]

theorem arranged_blank (filler : ε) :
    (blank n capacity filler).Arranged (List.range n) := by
  have tiles : ∀ order : List Nat, (∀ k ∈ order, k < n) →
      Tiles (blank n capacity filler).first (blank n capacity filler).last 0 order 0 := by
    intro order small
    induction order with
    | nil => exact Nat.le_refl 0
    | cons k order ih =>
      have zero := @last_blank _ _ _ capacity filler (small k List.mem_cons_self)
      rw [Tiles, first_blank, zero]
      exact ⟨Nat.le_refl 0, Nat.le_refl 0, ih fun l hl => small l (List.mem_cons_of_mem _ hl)⟩
  constructor
  · simp [blank]
  · simp [blank]
  · exact .refl _
  · rw [List.range_eq_range']
    exact path_blank filler 0 n n (by omega) (Nat.le_refl n) (Nat.mod_self _)
      (by rw [Nat.zero_add]; exact Nat.mod_eq_of_lt (Nat.lt_succ_self n))
  · rw [first_blank]
    exact tiles _ fun k hk => List.mem_range.mp hk
  · simp [first_blank]
  · simp [LineFile.last, blank, Array.getD]

theorem stores_blank (filler : ε) :
    (blank n capacity filler).Stores n capacity fun _ => [] where
  arranged := ⟨_, arranged_blank filler⟩
  lineCount := rfl
  size_data := by simp [blank]
  content k hk := by simp [LineFile.content, first_blank, last_blank filler hk]

namespace Stores

theorem line_eq (h : f.Stores n capacity lines) (hk : k < n) : f.line k = .ok (lines k) := by
  obtain ⟨order, arranged⟩ := h.arranged
  rw [arranged.line_eq (h.lineCount ▸ hk), h.content k hk]

theorem length_eq (h : f.Stores n capacity lines) (hk : k < n) :
    f.length k = .ok (lines k).length := by
  obtain ⟨order, arranged⟩ := h.arranged
  rw [arranged.length_eq (h.lineCount ▸ hk), h.content k hk]

theorem count_eq (h : f.Stores n capacity lines) :
    f.count = .ok ((List.range n).map fun k => (lines k).length).sum := by
  unfold LineFile.count
  rw [h.lineCount, checked_foldlM (g := fun total k => total + (lines k).length) (fun total k hk => by
    rw [h.length_eq (List.mem_range.mp hk)]
    rfl)]
  rw [List.sum_eq_foldl, List.foldl_map]

theorem total_le (h : f.Stores n capacity lines) :
    ((List.range n).map fun k => (lines k).length).sum ≤ capacity := by
  obtain ⟨⟨order, arranged⟩, rfl, rfl, content⟩ := h
  have fits := arranged.tiles.total_le
  have unused := arranged.unused
  have lengths : order.map (fun k => f.last k - f.first k) =
      order.map fun k => (lines k).length := List.map_congr_left fun k hk => by
    have inside := arranged.mem_order.mp hk
    rw [← content k inside, arranged.length_content inside]
  rw [lengths, (arranged.perm.map _).sum_nat] at fits
  omega

end Stores

end SimplexBasis.LineFile
