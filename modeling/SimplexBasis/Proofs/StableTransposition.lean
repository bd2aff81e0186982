import Mathlib.Algebra.Order.Field.Rat
import SimplexBasis.Proofs.Transposition

/-!
# Stable transposition

A transposition keeps the order of entries with one index, so that two of them sort every line stably
by its indices: lines are read in their order, and each bucket is filled from its front.
-/

namespace SimplexBasis

variable {α β : Type} {key : β → Nat} {m n i k : Nat}

/-! ### Stable sorting -/

/-- An ascending list is determined by its elements of each key, in their order. -/
theorem eq_of_filters {xs ys : List β} (ascending : xs.Pairwise (key · ≤ key ·))
    (ascending' : ys.Pairwise (key · ≤ key ·))
    (same : ∀ i, xs.filter (key · == i) = ys.filter (key · == i)) : xs = ys := by
  induction xs generalizing ys with
  | nil =>
    cases ys with
    | nil => rfl
    | cons y ys => simpa using same (key y)
  | cons x xs ih =>
    cases ys with
    | nil => simpa using same (key x)
    | cons y ys =>
      have first : key y ≤ key x := by
        have member : x ∈ (y :: ys).filter (key · == key x) := by
          rw [← same]
          simp
        rcases List.mem_cons.mp (List.mem_of_mem_filter member) with rfl | later
        · exact Nat.le_refl _
        · exact List.rel_of_pairwise_cons ascending' later
      have second : key x ≤ key y := by
        have member : y ∈ (x :: xs).filter (key · == key y) := by
          rw [same]
          simp
        rcases List.mem_cons.mp (List.mem_of_mem_filter member) with rfl | later
        · exact Nat.le_refl _
        · exact List.rel_of_pairwise_cons ascending later
      have equal : key x = key y := Nat.le_antisymm second first
      have heads := same (key y)
      rw [List.filter_cons_of_pos (by simp [equal]), List.filter_cons_of_pos (by simp)] at heads
      obtain ⟨rfl, tails⟩ := List.cons.inj heads
      congr 1
      apply ih ascending.of_cons ascending'.of_cons
      intro i
      by_cases here : key x = i
      · rw [← here]
        exact tails
      · have rest := same i
        rwa [List.filter_cons_of_neg (by simpa using here),
          List.filter_cons_of_neg (by simpa using here)] at rest

theorem pairwise_mergeSort_key (key : β → Nat) (xs : List β) :
    (xs.mergeSort fun a b => key a ≤ key b).Pairwise (key · ≤ key ·) := by
  have sorted := @List.pairwise_mergeSort β (fun a b => decide (key a ≤ key b))
    (by simp only [decide_eq_true_eq]; omega) (by simp; omega) xs
  simpa using sorted

theorem filter_mergeSort_key (key : β → Nat) (xs : List β) (i : Nat) :
    (xs.mergeSort fun a b => key a ≤ key b).filter (key · == i) = xs.filter (key · == i) := by
  have level : (xs.filter (key · == i)).Pairwise fun a b => decide (key a ≤ key b) = true := by
    apply List.pairwise_filter.mpr
    apply List.pairwise_of_forall
    intro a b here there
    rw [beq_iff_eq] at here there
    simp [here, there]
  have kept : (xs.filter (key · == i)).Sublist (xs.mergeSort fun a b => key a ≤ key b) :=
    List.sublist_mergeSort (by simp only [decide_eq_true_eq]; omega) (by simp; omega) level
      List.filter_sublist
  have within := kept.filter (key · == i)
  simp only [List.filter_filter, Bool.and_self] at within
  exact (within.eq_of_length ((List.mergeSort_perm xs _).symm.filter _).length_eq).symm

/-! ### Buckets -/

section Buckets

variable {bucket : Nat → List β}

theorem filter_flatMap_range (keyed : ∀ k, ∀ e ∈ bucket k, key e = k) (m i : Nat) :
    ((List.range m).flatMap bucket).filter (key · == i) = if i < m then bucket i else [] := by
  have whole : (bucket i).filter (key · == i) = bucket i := by
    apply List.filter_eq_self.mpr
    intro e member
    simp [keyed i e member]
  have nothing : ∀ k, k ≠ i → (bucket k).filter (key · == i) = [] := by
    intro k other
    apply List.filter_eq_nil_iff.mpr
    intro e member
    simp [keyed k e member, other]
  induction m with
  | zero => rfl
  | succ m ih =>
    rw [List.range_succ, List.flatMap_append, List.filter_append, ih, List.flatMap_singleton]
    rcases Nat.lt_trichotomy i m with below | rfl | above
    · rw [if_pos below, if_pos (by omega), nothing m (by omega), List.append_nil]
    · rw [if_neg (Nat.lt_irrefl i), if_pos (Nat.lt_succ_self i), whole, List.nil_append]
    · rw [if_neg (by omega), if_neg (by omega), nothing m (by omega), List.append_nil]

theorem pairwise_flatMap_range (keyed : ∀ k, ∀ e ∈ bucket k, key e = k) (m : Nat) :
    ((List.range m).flatMap bucket).Pairwise (key · ≤ key ·) := by
  apply List.pairwise_flatMap.mpr
  constructor
  · intro k _
    apply List.pairwise_of_forall_mem_list
    intro a here b there
    rw [keyed k a here, keyed k b there]
  · apply List.pairwise_lt_range.imp
    intro k l below a here b there
    rw [keyed k a here, keyed l b there]
    exact Nat.le_of_lt below

theorem flatMap_filter_eq_mergeSort (key : β → Nat) {xs : List β} (inside : ∀ e ∈ xs, key e < m) :
    ((List.range m).flatMap fun i => xs.filter (key · == i)) =
      xs.mergeSort fun a b => key a ≤ key b := by
  have keyed : ∀ k, ∀ e ∈ xs.filter (key · == k), key e = k := by
    intro k e member
    simpa using (List.mem_filter.mp member).2
  apply eq_of_filters (pairwise_flatMap_range keyed m) (pairwise_mergeSort_key key xs)
  intro i
  rw [filter_flatMap_range keyed, filter_mergeSort_key]
  split
  · rfl
  · rename_i beyond
    symm
    apply List.filter_eq_nil_iff.mpr
    intro e member
    have below := inside e member
    simp only [beq_iff_eq]
    omega

end Buckets

namespace Compressed

variable {c d : Compressed α} {lines : List (List (Nat × α))} {line : List (Nat × α)} {x : α}

/-! ### Lines -/

theorem transpose_congr [Zero α] {f : Nat → List (Nat × α)} (index : c.index = d.index)
    (lines : ∀ k < m, c.line k = .ok (f k)) (lines' : ∀ k < m, d.line k = .ok (f k)) :
    c.transpose m = d.transpose m := by
  have placed : ∀ {c : Compressed α}, (∀ k < m, c.line k = .ok (f k)) → ∀ p,
      (List.range m).foldlM (Placement.placeLine c) p =
        .ok ((List.range m).foldl (fun p k => (f k).foldl (fun p e => p.place k e.1 e.2) p) p) := by
    intro c lines p
    apply checked_foldlM
    intro p k member
    unfold Placement.placeLine
    rw [lines k (List.mem_range.mp member)]
    rfl
  unfold transpose count
  dsimp only
  rw [index, placed lines, placed lines']

/-! ### Both transpositions -/

theorem bucket_tagged_map (f : Nat → List (Nat × α)) (n i : Nat) :
    bucket (tagged ((List.range n).map f)) i =
      (List.range n).flatMap fun k => ((f k).filter (·.1 == i)).map fun e => (k, e.2) := by
  induction n with
  | zero => rfl
  | succ n ih =>
    rw [List.range_succ, List.map_append, List.map_singleton, tagged_concat, bucket_append, ih,
      List.flatMap_append, List.flatMap_singleton, List.length_map, List.length_range]
    congr 1
    unfold bucket
    rw [List.filter_map, List.map_map]
    rfl

theorem fst_of_retagged {f : Nat → List (Nat × α)} (i : Nat) :
    ∀ k, ∀ e ∈ ((f k).filter (·.1 == i)).map fun e => (k, e.2), e.1 = k := by
  intro k e member
  obtain ⟨_, _, rfl⟩ := List.mem_map.mp member
  rfl

theorem bucket_transposed {f : Nat → List (Nat × α)} (inside : ∀ e ∈ f k, e.1 < m) (hk : k < m) :
    bucket (tagged (transposed ((List.range m).map f) m)) k =
      (f k).mergeSort fun a b => a.1 ≤ b.1 := by
  unfold transposed
  rw [bucket_tagged_map, ← flatMap_filter_eq_mergeSort Prod.fst inside]
  congr 1
  funext i
  rw [bucket_tagged_map, filter_flatMap_range (fst_of_retagged i) m k, if_pos hk, List.map_map]
  · apply (List.map_congr_left _).trans (List.map_id _)
    intro e member
    have same : e.1 = i := by simpa using (List.mem_filter.mp member).2
    exact Prod.ext same.symm rfl

theorem length_transposed (lines : List (List (Nat × α))) (m : Nat) :
    (transposed lines m).length = m := by
  simp [transposed]

theorem line_transposed (lines : List (List (Nat × α))) (hi : i < m) :
    (ofLines (transposed lines m)).line i = .ok (bucket (tagged lines) i) := by
  rw [line_ofLines _ _ (by rwa [length_transposed])]
  simp [transposed]

theorem transposed_inside (length : lines.length = m) :
    ∀ line ∈ transposed lines m, ∀ k ∈ keys line, k < m := by
  intro line member k listed
  obtain ⟨i, -, rfl⟩ := List.mem_map.mp member
  obtain ⟨⟨k, x⟩, entry_, rfl⟩ := List.mem_map.mp listed
  obtain ⟨line, here, -⟩ := mem_bucket_tagged.mp entry_
  exact length ▸ (List.getElem?_eq_some_iff.mp here).1

theorem count_transposed (inside : ∀ line ∈ lines, ∀ i ∈ keys line, i < m) :
    (ofLines (transposed lines m)).count = (ofLines lines).count := by
  have below : ∀ e ∈ tagged lines, e.1 < m := by
    rintro ⟨i, k, x⟩ member
    obtain ⟨line, here, entry_⟩ := mem_tagged.mp member
    exact inside line (List.mem_of_getElem? here) i (List.mem_map_of_mem (f := Prod.fst) entry_)
  calc (ofLines (transposed lines m)).count
      = offset (tagged lines) m := count_ofLines _
    _ = ((tagged lines).map Prod.fst).length := by rw [offset_all below, List.length_map]
    _ = (ofLines lines).count := by rw [map_fst_tagged, List.length_map, count_ofLines]

/-! ### Arrays -/

/-- The arrays without the values behind the entries. -/
def trimmed (c : Compressed α) : Compressed α := { c with value := c.value.extract 0 c.count }

theorem cut_trimmed (c : Compressed α) (k : Nat) : c.trimmed.cut k = c.cut k := by
  unfold cut
  congr 2
  unfold allEntries trimmed
  rw [Array.toList_extract, List.extract_eq_take_drop, List.drop_zero, Nat.sub_zero, count,
    List.zip_eq_zip_take_min, @List.zip_eq_zip_take_min _ _ c.index.toList c.value.toList]
  simp [List.take_take]

theorem mem_index_of_cut {e : Nat × α} (member : e ∈ c.cut k) : e.1 ∈ c.index := by
  have listed := List.mem_of_mem_drop (List.mem_of_mem_take member)
  exact Array.mem_toList_iff.mp (List.of_mem_zip listed).1

/-- Line `i` of the transpose names the lines that hold `i`, in ascending order and as often as they
do, with the values in their order; transposed once more, every line is sorted stably by its
indices. -/
theorem transpose_stable [Zero α] {c : Compressed α} {m : Nat} (size : c.start.size = m + 1)
    (first : c.start.getD 0 0 = 0) (ascending : ∀ k < m, c.start.getD k 0 ≤ c.start.getD (k + 1) 0)
    (last : c.start.getD m 0 = c.index.size) (values : c.index.size ≤ c.value.size)
    (inside : ∀ i ∈ c.index, i < m) :
    (∀ k < m, c.line k = .ok (c.cut k)) ∧
    ∃ t, c.transpose m = .ok t ∧ t.WellFormed m ∧ t.count = c.count ∧
      (∀ i < m, ∃ line, t.line i = .ok line ∧ (keys line).Pairwise (· ≤ ·) ∧
        line = (List.range m).flatMap fun k =>
          ((c.cut k).filter (·.1 == i)).map fun e => (k, e.2)) ∧
      ∃ u, t.transpose m = .ok u ∧ u.WellFormed m ∧
        ∀ k < m, u.line k = .ok ((c.cut k).mergeSort fun a b => a.1 ≤ b.1) := by
  have form : c.trimmed.WellFormed m :=
    ⟨size, first, ascending, last, by simp [trimmed, count, values]⟩
  have stored : c.trimmed = ofLines ((List.range m).map c.cut) := by
    rw [form.eq_ofLines, funext c.cut_trimmed]
  have length : ((List.range m).map c.cut).length = m := by simp
  have below : ∀ line ∈ (List.range m).map c.cut, ∀ i ∈ keys line, i < m := by
    intro line member i listed
    obtain ⟨k, -, rfl⟩ := List.mem_map.mp member
    obtain ⟨e, entry_, rfl⟩ := List.mem_map.mp listed
    exact inside e.1 (mem_index_of_cut entry_)
  have lines : ∀ k < m, c.line k = .ok (c.cut k) := by
    intro k hk
    exact line_eq_cut (by omega) (ascending k hk) (form.start_le hk) values
  have transposed_eq : c.transpose m = .ok (ofLines (transposed ((List.range m).map c.cut) m)) := by
    rw [← transpose_ofLines length below, ← stored]
    apply transpose_congr (c := c) (d := c.trimmed) (f := c.cut) rfl lines
    intro k hk
    rw [← cut_trimmed]
    exact line_eq_cut (by rw [form.size]; omega) (ascending k hk) (form.start_le hk)
      (Nat.le_of_eq form.values.symm)
  refine ⟨lines, _, transposed_eq, ?_, ?_, ?_, _,
    transpose_ofLines (length_transposed _ m) (transposed_inside length), ?_, ?_⟩
  · simpa only [length_transposed] using wellFormed_ofLines (transposed ((List.range m).map c.cut) m)
  · rw [count_transposed below, ← stored]
    rfl
  · intro i hi
    refine ⟨_, line_transposed _ hi, ?_, bucket_tagged_map c.cut m i⟩
    rw [bucket_tagged_map]
    exact List.pairwise_map.mpr (pairwise_flatMap_range (fst_of_retagged i) m)
  · simpa only [length_transposed] using
      wellFormed_ofLines (transposed (transposed ((List.range m).map c.cut) m) m)
  · intro k hk
    rw [line_transposed _ hk, bucket_transposed _ hk]
    intro e member
    exact inside e.1 (mem_index_of_cut member)

/-- Lines with repeated indices, an empty one among them, and a value behind the entries. -/
theorem transpose_stable_repeated :
    let c : Compressed ℚ := ⟨#[0, 3, 3, 5, 6], #[2, 0, 2, 2, 3, 0], #[5, 7, 6, 1, 0, 4, 9]⟩
    c.start.size = 4 + 1 ∧ c.start.getD 0 0 = 0 ∧
    (∀ k < 4, c.start.getD k 0 ≤ c.start.getD (k + 1) 0) ∧ c.start.getD 4 0 = c.index.size ∧
    c.index.size ≤ c.value.size ∧ (∀ i ∈ c.index, i < 4) ∧
    ∃ t, c.transpose 4 = .ok t ∧ t.line 2 = .ok [(0, 5), (0, 6), (2, 1)] ∧
      ∃ u, t.transpose 4 = .ok u ∧ u.line 0 = .ok [(0, 7), (2, 5), (2, 6)] := by
  intro c
  have size : c.start.size = 4 + 1 := rfl
  have ascending : ∀ k < 4, c.start.getD k 0 ≤ c.start.getD (k + 1) 0 := by decide
  have values : c.index.size ≤ c.value.size := by decide
  have inside : ∀ i ∈ c.index, i < 4 := by decide
  obtain ⟨-, t, run, -, -, buckets, u, run', -, sorted⟩ :=
    transpose_stable size rfl ascending rfl values inside
  refine ⟨size, rfl, ascending, rfl, values, inside, t, run, ?_, u, run', ?_⟩
  · obtain ⟨line, read, -, rfl⟩ := buckets 2 (by decide)
    rw [read]
    decide +kernel
  · rw [sorted 0 (by decide), ← flatMap_filter_eq_mergeSort Prod.fst (m := 4) (by decide)]
    decide +kernel

end Compressed

end SimplexBasis
