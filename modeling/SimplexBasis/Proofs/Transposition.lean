import Mathlib.Order.Basic
import SimplexBasis.Proofs.Sparse.Stages

/-!
# Transposition

Compressed lines are the lines they are cut into, and transposition sorts their entries into buckets:
line `i` of the transpose holds the lines that have an entry `i`, in ascending order.
-/

set_option linter.unusedSectionVars false

namespace SimplexBasis

namespace Compressed

variable {α : Type} {c : Compressed α} {lines : List (List (Nat × α))} {m n i k : Nat} {x : α}

/-! ### Lines -/

/-- Ascending positions that end with the entries. -/
structure WellFormed (c : Compressed α) (n : Nat) : Prop where
  size : c.start.size = n + 1
  first : c.start.getD 0 0 = 0
  ascending : ∀ k < n, c.start.getD k 0 ≤ c.start.getD (k + 1) 0
  last : c.start.getD n 0 = c.index.size
  values : c.value.size = c.index.size

def allEntries (c : Compressed α) : List (Nat × α) := c.index.toList.zip c.value.toList

/-- The entries between the positions of line `k`. -/
def cut (c : Compressed α) (k : Nat) : List (Nat × α) :=
  (c.allEntries.drop (c.start.getD k 0)).take (c.start.getD (k + 1) 0 - c.start.getD k 0)

namespace WellFormed

theorem length_allEntries (h : c.WellFormed n) : c.allEntries.length = c.index.size := by
  simp [allEntries, h.values]

theorem start_le (h : c.WellFormed n) (hk : k ≤ n) : c.start.getD k 0 ≤ c.index.size := by
  rw [← h.last]
  have climb : ∀ d, k + d ≤ n → c.start.getD k 0 ≤ c.start.getD (k + d) 0 := by
    intro d
    induction d with
    | zero => exact fun _ => Nat.le_refl _
    | succ d ih => exact fun inside => Nat.le_trans (ih (by omega)) (h.ascending (k + d) (by omega))
  have reached := climb (n - k) (by omega)
  rwa [Nat.add_sub_cancel' hk] at reached

theorem flatten_cut (h : c.WellFormed n) (hk : k ≤ n) :
    ((List.range k).map c.cut).flatten = c.allEntries.take (c.start.getD k 0) := by
  induction k with
  | zero => rw [h.first]; rfl
  | succ k ih =>
    have ascends := h.ascending k (by omega)
    rw [List.range_succ, List.map_append, List.map_singleton, List.flatten_concat, ih (by omega)]
    unfold cut
    rw [← List.take_add]
    congr 1
    omega

theorem eq_ofLines (h : c.WellFormed n) : c = ofLines ((List.range n).map c.cut) := by
  have all : ((List.range n).map c.cut).flatten = c.allEntries := by
    rw [h.flatten_cut (Nat.le_refl n), h.last, ← h.length_allEntries, List.take_length]
  have starts : c.start = (ofLines ((List.range n).map c.cut)).start := by
    refine Array.ext_getElem? fun k => ?_
    by_cases hk : k ≤ n
    · rw [start_ofLines _ _ (by simpa using hk), ← List.map_take, List.take_range,
        Nat.min_eq_left hk, h.flatten_cut hk, List.length_take, h.length_allEntries,
        Nat.min_eq_left (h.start_le hk)]
      have inside : k < c.start.size := by rw [h.size]; omega
      simp [Array.getD, inside]
    · have sized := size_start_ofLines ((List.range n).map c.cut)
      rw [List.length_map, List.length_range] at sized
      rw [Array.getElem?_eq_none (by rw [h.size]; omega), Array.getElem?_eq_none (by omega)]
  have indices : c.index = (ofLines ((List.range n).map c.cut)).index := by
    rw [index_ofLines, all]
    have first : keys c.allEntries = c.index.toList :=
      List.map_fst_zip (by simp [h.values])
    rw [first]
  have values : c.value = (ofLines ((List.range n).map c.cut)).value := by
    rw [value_ofLines, all]
    have second : c.allEntries.map Prod.snd = c.value.toList :=
      List.map_snd_zip (by simp [h.values])
    rw [second]
  rcases c with ⟨start, index, value⟩
  exact Compressed.mk.injEq .. ▸ ⟨starts, indices, values⟩

end WellFormed

theorem line_eq_cut (size : k + 1 < c.start.size)
    (ascending : c.start.getD k 0 ≤ c.start.getD (k + 1) 0)
    (within : c.start.getD (k + 1) 0 ≤ c.index.size) (values : c.index.size ≤ c.value.size) :
    c.line k = .ok (c.cut k) := by
  have cut {γ : Type} {xs : Array γ} (inside : c.start.getD (k + 1) 0 ≤ xs.size) :
      segment xs (c.start.getD k 0) (c.start.getD (k + 1) 0) =
        .ok ((xs.toList.drop (c.start.getD k 0)).take
          (c.start.getD (k + 1) 0 - c.start.getD k 0)) := by
    rw [segment_eq_ok_iff, Array.toList_extract, List.extract_eq_take_drop]
    exact ⟨ascending, inside, rfl⟩
  unfold line extent
  rw [entry_getD 0 (Nat.lt_of_succ_lt size), entry_getD 0 size]
  simp only [checked_ok_bind]
  change (segment c.index _ _ >>= fun is => segment c.value _ _ >>= fun xs => _) = _
  rw [cut within, cut (Nat.le_trans within values), checked_ok_bind, checked_ok_bind]
  unfold Compressed.cut allEntries List.zip
  rw [List.drop_zipWith, List.take_zipWith]
  rfl

theorem wellFormed_ofLines (lines : List (List (Nat × α))) :
    (ofLines lines).WellFormed lines.length := by
  have start : ∀ k ≤ lines.length,
      (ofLines lines).start.getD k 0 = (lines.take k).flatten.length := by
    intro k hk
    rw [Array.getD_eq_getD_getElem?, start_ofLines lines k hk]
    rfl
  refine ⟨size_start_ofLines lines, start 0 (Nat.zero_le _), ?_, ?_, ?_⟩
  · intro k hk
    rw [start k (Nat.le_of_lt hk), start (k + 1) hk, ← List.take_append_getElem hk,
      List.flatten_concat, List.length_append]
    exact Nat.le_add_right _ _
  · rw [start _ (Nat.le_refl _), List.take_length, ← count_ofLines]
    rfl
  · rw [value_ofLines, List.size_toArray, List.length_map]
    exact (count_ofLines lines).symm

/-! ### Buckets -/

/-- The entries of all lines, each with its line. -/
def tagged (lines : List (List (Nat × α))) : List (Nat × Nat × α) :=
  lines.zipIdx.flatMap fun (line, k) => line.map fun (i, x) => (i, k, x)

/-- What is tagged with `i`. -/
def bucket (entries : List (Nat × Nat × α)) (i : Nat) : List (Nat × α) :=
  (entries.filter (·.1 == i)).map Prod.snd

def transposed (lines : List (List (Nat × α))) (m : Nat) : List (List (Nat × α)) :=
  (List.range m).map (bucket (tagged lines))

theorem bucket_concat (entries : List (Nat × Nat × α)) (j : Nat) (e : Nat × α) :
    bucket (entries ++ [(j, e)]) i = if j = i then bucket entries i ++ [e] else bucket entries i := by
  unfold bucket
  rw [List.filter_append, List.map_append]
  by_cases same : j = i <;> simp [same]

theorem mem_tagged : (i, k, x) ∈ tagged lines ↔ ∃ line, lines[k]? = some line ∧ (i, x) ∈ line := by
  unfold tagged
  simp only [List.mem_flatMap, List.mem_map, Prod.exists, Prod.mk.injEq, List.mem_zipIdx_iff_getElem?]
  grind

theorem mem_bucket_tagged :
    (k, x) ∈ bucket (tagged lines) i ↔ ∃ line, lines[k]? = some line ∧ (i, x) ∈ line := by
  unfold bucket
  rw [← mem_tagged]
  simp only [List.mem_map, List.mem_filter, beq_iff_eq, Prod.exists, Prod.mk.injEq]
  grind

theorem tagged_concat (lines : List (List (Nat × α))) (line : List (Nat × α)) :
    tagged (lines ++ [line]) = tagged lines ++ line.map fun (i, x) => (i, lines.length, x) := by
  simp [tagged, List.zipIdx_append]

theorem pairwise_tagged (distinct : ∀ line ∈ lines, (keys line).Nodup) :
    (tagged lines).Pairwise fun e f => e.1 = f.1 → e.2.1 < f.2.1 := by
  induction lines using List.reverseRecOn with
  | nil => simp [tagged]
  | append_singleton lines line ih =>
    rw [tagged_concat]
    refine List.pairwise_append.mpr ⟨ih fun l hl => distinct l (List.mem_append_left _ hl), ?_, ?_⟩
    · have here := List.pairwise_map.mp (distinct line (by simp))
      exact List.pairwise_map.mpr (here.imp fun ne same => absurd same ne)
    · rintro ⟨i, k, x⟩ member f hf -
      obtain ⟨e, -, rfl⟩ := List.mem_map.mp hf
      obtain ⟨l, hl, -⟩ := mem_tagged.mp member
      exact (List.getElem?_eq_some_iff.mp hl).1

theorem pairwise_bucket (distinct : ∀ line ∈ lines, (keys line).Nodup) :
    (keys (bucket (tagged lines) i)).Pairwise (· < ·) := by
  unfold bucket keys
  rw [List.map_map]
  refine List.pairwise_map.mpr ?_
  refine ((pairwise_tagged distinct).filter _).imp_of_mem fun he hf ordered => ordered ?_
  have here := (List.mem_filter.mp he).2
  have there := (List.mem_filter.mp hf).2
  simp_all

theorem nodup_bucket (distinct : ∀ line ∈ lines, (keys line).Nodup) :
    (keys (bucket (tagged lines) i)).Nodup := (pairwise_bucket distinct).imp Nat.ne_of_lt

/-- The transpose of lines with distinct indices has the values of the lines. -/
theorem valueAt_bucket [Zero α] {line : List (Nat × α)} (distinct : ∀ line ∈ lines, (keys line).Nodup)
    (here : lines[k]? = some line) :
    valueAt (bucket (tagged lines) i) k = valueAt line i := by
  by_cases member : i ∈ keys line
  · obtain ⟨⟨i, x⟩, entry_, rfl⟩ := List.mem_map.mp member
    rw [valueAt_of_mem (distinct line (List.mem_of_getElem? here)) entry_]
    exact valueAt_of_mem (nodup_bucket distinct) (mem_bucket_tagged.mpr ⟨line, here, entry_⟩)
  · rw [valueAt_of_not_mem member]
    refine valueAt_of_not_mem fun key => member ?_
    obtain ⟨⟨k, x⟩, entry_, rfl⟩ := List.mem_map.mp key
    obtain ⟨line', there, member'⟩ := mem_bucket_tagged.mp entry_
    rw [here] at there
    cases there
    exact List.mem_map_of_mem (f := Prod.fst) member'

/-! ### Where the buckets begin -/

def offset (entries : List (Nat × Nat × α)) (i : Nat) : Nat :=
  ((List.range i).map (bucket entries)).flatten.length

theorem offset_succ (entries : List (Nat × Nat × α)) (i : Nat) :
    offset entries (i + 1) = offset entries i + (bucket entries i).length := by
  simp [offset, List.range_succ]

theorem offset_mono (entries : List (Nat × Nat × α)) {i j : Nat} (le : i ≤ j) :
    offset entries i ≤ offset entries j := by
  obtain ⟨d, rfl⟩ := Nat.exists_eq_add_of_le le
  induction d with
  | zero => exact Nat.le_refl _
  | succ d ih =>
    have before := ih (by omega)
    rw [← Nat.add_assoc, offset_succ]
    omega

theorem offset_all {entries : List (Nat × Nat × α)} (inside : ∀ e ∈ entries, e.1 < m) :
    offset entries m = entries.length := by
  induction entries using List.reverseRecOn with
  | nil =>
    have empty : ∀ i, offset ([] : List (Nat × Nat × α)) i = 0 := by
      intro i
      induction i with
      | zero => rfl
      | succ i ih => rw [offset_succ, ih]; rfl
    exact empty m
  | append_singleton entries e ih =>
    have before := ih fun f hf => inside f (List.mem_append_left _ hf)
    have here := inside e (by simp)
    have grown : ∀ i, offset (entries ++ [e]) i = offset entries i + if e.1 < i then 1 else 0 := by
      intro i
      induction i with
      | zero => simp [offset]
      | succ i ih =>
        rw [offset_succ, ih, offset_succ, show e = (e.1, e.2) from rfl, bucket_concat]
        by_cases same : e.1 = i
        · simp [same]
          omega
        · rw [if_neg same]
          by_cases below : e.1 < i
          · rw [if_pos below, if_pos (by omega)]
            omega
          · rw [if_neg below, if_neg (by omega)]
            omega
    rw [grown, before, if_pos here, List.length_append, List.length_singleton]

theorem length_bucket (entries : List (Nat × Nat × α)) (i : Nat) :
    (bucket entries i).length = (entries.map Prod.fst).count i := by
  unfold bucket
  rw [List.length_map, List.count_eq_countP, List.countP_map, List.countP_eq_length_filter]
  rfl

theorem counts_eq (index : List Nat) (inside : ∀ i ∈ index, i < m) :
    let counts := index.foldl (fun cs i => cs.modify (i + 1) (· + 1)) (Array.replicate (m + 1) 0)
    counts.size = m + 1 ∧ counts.getD 0 0 = 0 ∧ ∀ i < m, counts.getD (i + 1) 0 = index.count i := by
  induction index using List.reverseRecOn with
  | nil => simp [Array.getD]
  | append_singleton index j ih =>
    obtain ⟨size, zero, count⟩ := ih fun i hi => inside i (List.mem_append_left _ hi)
    have hj := inside j (by simp)
    simp only [List.foldl_append, List.foldl_cons, List.foldl_nil]
    generalize index.foldl (fun cs i => cs.modify (i + 1) (· + 1)) (Array.replicate (m + 1) 0) =
      counts at *
    refine ⟨by simpa using size, ?_, fun i hi => ?_⟩
    · simp only [Array.getD_eq_getD_getElem?, Array.getElem?_modify] at zero ⊢
      rw [if_neg (by omega), zero]
    · have old := count i hi
      rw [List.count_append, ← old]
      simp only [Array.getD_eq_getD_getElem?, Array.getElem?_modify]
      by_cases same : i = j
      · subst same
        simp [show i + 1 < counts.size by omega]
      · rw [if_neg (by omega)]
        simp [Ne.symm same]

/-- Counts of which the first `k` are summed up: what is behind element `k` is still a count. -/
structure Summed (entries : List (Nat × Nat × α)) (m k : Nat) (starts : Array Nat) : Prop where
  size : starts.size = m + 1
  summed : ∀ i ≤ k, starts.getD i 0 = offset entries i
  counts : ∀ i, k ≤ i → i < m → starts.getD (i + 1) 0 = (bucket entries i).length

theorem Summed.step {starts : Array Nat} (h : Summed entries m k starts) (hk : k < m) :
    Summed entries m (k + 1)
      (starts.setIfInBounds (k + 1) (starts.getD (k + 1) 0 + starts.getD k 0)) := by
  have inBounds : k + 1 < starts.size := by
    rw [h.size]
    omega
  refine ⟨by simpa using h.size, fun i hi => ?_, fun i low hi => ?_⟩
  · rw [getD_setIfInBounds inBounds]
    by_cases next : i = k + 1
    · rw [if_pos next, h.counts k (Nat.le_refl k) hk, h.summed k (Nat.le_refl k), next, offset_succ,
        Nat.add_comm]
    · rw [if_neg next]
      exact h.summed i (by omega)
  · rw [getD_setIfInBounds inBounds, if_neg (by omega)]
    exact h.counts i (by omega) hi

theorem Summed.foldl {counts : Array Nat} (h : Summed entries m 0 counts) (hk : k ≤ m) :
    Summed entries m k ((List.range k).foldl
      (fun cs i => cs.setIfInBounds (i + 1) (cs.getD (i + 1) 0 + cs.getD i 0)) counts) := by
  induction k with
  | zero => exact h
  | succ k ih =>
    rw [List.range_succ, List.foldl_append, List.foldl_cons, List.foldl_nil]
    exact (ih (by omega)).step (by omega)

theorem startsOf_eq {entries : List (Nat × Nat × α)} (inside : ∀ e ∈ entries, e.1 < m) :
    (startsOf m (entries.map Prod.fst).toArray).size = m + 1 ∧
      ∀ i ≤ m, (startsOf m (entries.map Prod.fst).toArray).getD i 0 = offset entries i := by
  obtain ⟨size, zero, count⟩ := counts_eq (m := m) (entries.map Prod.fst) (by simpa using inside)
  unfold startsOf
  rw [List.foldl_toArray]
  generalize (entries.map Prod.fst).foldl (fun cs i => cs.modify (i + 1) (· + 1))
    (Array.replicate (m + 1) 0) = counts at *
  have counted : Summed entries m 0 counts := by
    refine ⟨size, fun i hi => ?_, fun i _ hi => ?_⟩
    · obtain rfl : i = 0 := by omega
      exact zero
    · exact (count i hi).trans (length_bucket entries i).symm
  have all := counted.foldl (Nat.le_refl m)
  exact ⟨all.size, all.summed⟩

/-! ### The places of the buckets -/

theorem bucket_append (front back : List (Nat × Nat × α)) (i : Nat) :
    bucket (front ++ back) i = bucket front i ++ bucket back i := by
  simp [bucket]

theorem length_bucket_le {e : Nat × Nat × α} {entries done rest : List (Nat × Nat × α)}
    (split : entries = done ++ e :: rest) (j : Nat) :
    (bucket (done ++ [e]) j).length ≤ (bucket entries j).length := by
  rw [split, List.append_cons done e rest, bucket_append (done ++ [e]), List.length_append]
  exact Nat.le_add_right _ _

theorem offset_add_lt {entries : List (Nat × Nat × α)} (inside : ∀ e ∈ entries, e.1 < m)
    (hi : i < m) (ht : t < (bucket entries i).length) :
    offset entries i + t < entries.length := by
  have high := offset_mono entries (Nat.succ_le_of_lt hi)
  rw [offset_succ, offset_all inside] at high
  omega

theorem offset_add_inj {entries : List (Nat × Nat × α)} (hs : s < (bucket entries i).length)
    (ht : t < (bucket entries j).length) :
    offset entries i + s = offset entries j + t ↔ i = j ∧ s = t := by
  refine ⟨fun same => ?_, fun ⟨row, place⟩ => by rw [row, place]⟩
  rcases Nat.lt_trichotomy i j with lt | rfl | gt
  · have mono := offset_mono entries (Nat.succ_le_of_lt lt)
    rw [offset_succ] at mono
    omega
  · exact ⟨rfl, by omega⟩
  · have mono := offset_mono entries (Nat.succ_le_of_lt gt)
    rw [offset_succ] at mono
    omega

/-! ### Placing -/

/-- The entries `done` of all `entries` are in their places. -/
structure Placed (entries : List (Nat × Nat × α)) (m : Nat) (done : List (Nat × Nat × α))
    (p : Placement α) : Prop where
  sizeCursor : p.cursor.size = m + 1
  sizeIndex : p.index.size = entries.length
  sizeValue : p.value.size = entries.length
  cursor : ∀ i < m, p.cursor.getD i 0 = offset entries i + (bucket done i).length
  placed : ∀ i < m, ∀ t k x, (bucket done i)[t]? = some (k, x) →
    p.index[offset entries i + t]? = some k ∧ p.value[offset entries i + t]? = some x

theorem Placed.place {entries done rest : List (Nat × Nat × α)} {p : Placement α}
    (h : Placed entries m done p) (split : entries = done ++ (i, k, x) :: rest)
    (inside : ∀ e ∈ entries, e.1 < m) :
    Placed entries m (done ++ [(i, k, x)]) (p.place k i x) := by
  have hi : i < m := inside (i, k, x) (by simp [split])
  have room : (bucket done i).length < (bucket entries i).length := by
    have grown := length_bucket_le split i
    rwa [bucket_concat, if_pos rfl, List.length_append] at grown
  have fits := offset_add_lt inside hi room
  unfold Placement.place
  rw [h.cursor i hi]
  refine ⟨by simpa using h.sizeCursor, by simpa using h.sizeIndex, by simpa using h.sizeValue,
    fun j hj => ?_, fun j hj t l y found => ?_⟩
  · rw [getD_setIfInBounds (by rw [h.sizeCursor]; omega), bucket_concat]
    by_cases same : j = i
    · rw [if_pos same, if_pos same.symm, same, List.length_append, List.length_singleton,
        Nat.add_assoc]
    · rw [if_neg same, if_neg (Ne.symm same)]
      exact h.cursor j hj
  · dsimp only
    rw [Array.getElem?_setIfInBounds, Array.getElem?_setIfInBounds, h.sizeIndex, h.sizeValue,
      if_pos fits]
    have inBucket : t < (bucket entries j).length :=
      Nat.lt_of_lt_of_le (List.getElem?_eq_some_iff.mp found).1 (length_bucket_le split j)
    rw [bucket_concat] at found
    by_cases last : i = j ∧ (bucket done i).length = t
    · obtain ⟨rfl, rfl⟩ := last
      simp only [if_true, List.getElem?_concat_length, Option.some.injEq, Prod.mk.injEq] at found
      obtain ⟨rfl, rfl⟩ := found
      simp [fits]
    · rw [if_neg (mt (offset_add_inj room inBucket).mp last),
        if_neg (mt (offset_add_inj room inBucket).mp last)]
      refine h.placed j hj t l y ?_
      by_cases same : i = j
      · subst same
        rw [if_pos rfl, List.getElem?_append] at found
        grind
      · rwa [if_neg same] at found

theorem placed_all {entries : List (Nat × Nat × α)} {p : Placement α}
    (inside : ∀ e ∈ entries, e.1 < m) (first : Placed entries m [] p) :
    Placed entries m entries (entries.foldl (fun p e => p.place e.2.1 e.1 e.2.2) p) := by
  have general : ∀ (rest done : List (Nat × Nat × α)) (p : Placement α), entries = done ++ rest →
      Placed entries m done p →
      Placed entries m entries (rest.foldl (fun p e => p.place e.2.1 e.1 e.2.2) p) := by
    intro rest
    induction rest with
    | nil =>
      intro done p split h
      rwa [split, List.append_nil, ← List.append_nil done, ← split] at *
    | cons e rest ih =>
      intro done p split h
      exact ih (done ++ [e]) _ (by simp [split]) (h.place split inside)
  exact general entries [] p rfl first

theorem Placed.eq_ofLines {entries : List (Nat × Nat × α)} {p : Placement α} {start : Array Nat}
    (h : Placed entries m entries p) (inside : ∀ e ∈ entries, e.1 < m)
    (size : start.size = m + 1) (starts : ∀ i ≤ m, start.getD i 0 = offset entries i) :
    (⟨start, p.index, p.value⟩ : Compressed α) = ofLines ((List.range m).map (bucket entries)) := by
  have formed : WellFormed (⟨start, p.index, p.value⟩ : Compressed α) m :=
    { size := size
      first := starts 0 (Nat.zero_le m)
      ascending := fun k hk => by
        rw [starts k (by omega), starts (k + 1) (by omega)]
        exact offset_mono entries (Nat.le_succ k)
      last := by rw [starts m (Nat.le_refl m), offset_all inside, h.sizeIndex]
      values := h.sizeValue.trans h.sizeIndex.symm }
  refine formed.eq_ofLines.trans (congrArg ofLines (List.map_congr_left fun i hi => ?_))
  have hi := List.mem_range.mp hi
  unfold cut
  dsimp only
  rw [starts i (by omega), starts (i + 1) (by omega), offset_succ, Nat.add_sub_cancel_left]
  have high := offset_mono entries (Nat.succ_le_of_lt hi)
  rw [offset_succ, offset_all inside] at high
  refine List.ext_getElem? fun t => ?_
  by_cases ht : t < (bucket entries i).length
  · rw [List.getElem?_take_of_lt ht, List.getElem?_drop, List.getElem?_eq_getElem ht]
    obtain ⟨index, value⟩ := h.placed i hi t _ _ (List.getElem?_eq_getElem ht)
    unfold allEntries
    rw [List.getElem?_zip_eq_some]
    simpa using ⟨index, value⟩
  · rw [List.getElem?_eq_none (by simp; omega), List.getElem?_eq_none (by omega)]

theorem map_fst_tagged (lines : List (List (Nat × α))) :
    (tagged lines).map Prod.fst = keys lines.flatten := by
  induction lines using List.reverseRecOn with
  | nil => rfl
  | append_singleton lines line ih =>
    rw [tagged_concat, List.map_append, ih, List.flatten_concat, keys_append, List.map_map]
    rfl

theorem foldlM_placeLine (p : Placement α) (hn : n ≤ lines.length) :
    (List.range n).foldlM (Placement.placeLine (ofLines lines)) p =
      .ok ((tagged (lines.take n)).foldl (fun p e => p.place e.2.1 e.1 e.2.2) p) := by
  induction n with
  | zero => rfl
  | succ n ih =>
    have here : n < lines.length := hn
    rw [List.range_succ, List.foldlM_append, ih (by omega), checked_ok_bind,
      ← List.take_append_getElem here, tagged_concat, List.foldl_append, List.foldl_map,
      List.length_take, Nat.min_eq_left (by omega)]
    simp only [List.foldlM_cons, List.foldlM_nil, Placement.placeLine, line_ofLines lines n here,
      checked_ok_bind]
    rfl

theorem transpose_ofLines [Zero α] (length : lines.length = m)
    (inside : ∀ line ∈ lines, ∀ i ∈ keys line, i < m) :
    (ofLines lines).transpose m = .ok (ofLines (transposed lines m)) := by
  have insideTagged : ∀ e ∈ tagged lines, e.1 < m := by
    rintro ⟨i, k, x⟩ member
    obtain ⟨line, here, entry_⟩ := mem_tagged.mp member
    exact inside line (List.mem_of_getElem? here) i (List.mem_map_of_mem (f := Prod.fst) entry_)
  have index : (ofLines lines).index = ((tagged lines).map Prod.fst).toArray := by
    rw [index_ofLines, map_fst_tagged]
  have total : (ofLines lines).count = (tagged lines).length := by
    rw [count, index, List.size_toArray, List.length_map]
  obtain ⟨size, starts⟩ := startsOf_eq insideTagged
  rw [← index] at size starts
  have first : Placed (tagged lines) m [] ⟨startsOf m (ofLines lines).index,
      Array.replicate (ofLines lines).count 0, Array.replicate (ofLines lines).count (0 : α)⟩ :=
    { sizeCursor := size
      sizeIndex := by simp [total]
      sizeValue := by simp [total]
      cursor := fun i hi => starts i (by omega)
      placed := fun i hi t k x found => by simp [bucket] at found }
  have small : (ofLines lines).index.any (m ≤ ·) = false := by
    rw [index]
    simpa using insideTagged
  have placed := (placed_all insideTagged first).eq_ofLines insideTagged size starts
  unfold transpose
  rw [small, if_neg Bool.false_ne_true]
  dsimp only
  rw [foldlM_placeLine _ (by omega), List.take_of_length_le (by omega), checked_ok_bind]
  exact congrArg Except.ok placed

end Compressed

end SimplexBasis
