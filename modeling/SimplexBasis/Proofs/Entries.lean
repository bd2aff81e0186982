import Mathlib.Data.List.Nodup
import Mathlib.Data.List.Perm.Subperm
import SimplexBasis.Proofs.Storage.LineWrites

/-!
# Indexed entries

Lists of indices with values, as lines hold them. `valueAt` reads such a list as a vector; when the
indices are distinct it does not depend on the order of the entries.
-/

namespace SimplexBasis

variable {α ε : Type}

/-! ### Removal by exchange -/

theorem swapRemoved_perm {entries : List ε} {offset : Nat} (inside : offset < entries.length) :
    (LineFile.swapRemoved entries offset).Perm (entries.eraseIdx offset) := by
  rcases List.eq_nil_or_concat entries with rfl | ⟨front, e, rfl⟩
  · simp at inside
  · simp only [List.concat_eq_append, List.length_append, List.length_singleton] at inside ⊢
    have removed : LineFile.swapRemoved (front ++ [e]) offset =
        ((front ++ [e]).set offset e).dropLast := by
      simp [LineFile.swapRemoved]
    rw [removed]
    by_cases last : offset = front.length
    · subst last
      simp [List.eraseIdx_append_of_length_le]
    · have before : offset < front.length := by omega
      rw [List.set_append_left _ _ before, List.dropLast_concat,
        List.eraseIdx_append_of_lt_length before]
      obtain ⟨low, x, high, rfl, rfl⟩ : ∃ low x high, front = low ++ x :: high ∧
          low.length = offset :=
        ⟨front.take offset, front[offset], front.drop (offset + 1), by simp, by simp; omega⟩
      simp only [List.set_append_right _ _ (Nat.le_refl _), Nat.sub_self, List.set_cons_zero,
        List.eraseIdx_append_of_length_le (Nat.le_refl _), List.eraseIdx_cons_zero,
        List.append_assoc]
      exact List.Perm.append_left low (List.perm_append_singleton e high).symm

theorem eraseIdx_findIdx? {p : ε → Bool} {entries : List ε} {offset : Nat}
    (found : entries.findIdx? p = some offset) (once : entries.Pairwise fun x y => ¬(p x ∧ p y)) :
    entries.eraseIdx offset = entries.filter (!p ·) := by
  induction entries generalizing offset with
  | nil => simp at found
  | cons x rest ih =>
    obtain ⟨apart, once⟩ := List.pairwise_cons.mp once
    rw [List.findIdx?_cons] at found
    cases hx : p x with
    | true =>
      simp only [hx, if_true, Option.some.injEq] at found
      subst found
      have keep : rest.filter (!p ·) = rest :=
        List.filter_eq_self.mpr fun y hy => by
          have := apart y hy
          simp_all
      simp [hx, keep]
    | false =>
      simp only [hx, Bool.false_eq_true, if_false, Option.map_eq_some_iff] at found
      obtain ⟨k, found, rfl⟩ := found
      simp [hx, ih found once]

/-! ### Values -/

abbrev keys (entries : List (Nat × α)) : List Nat := entries.map Prod.fst

/-- The value at an index, zero where there is no entry. -/
def valueAt [Zero α] (entries : List (Nat × α)) (i : Nat) : α :=
  ((entries.find? (·.1 == i)).map Prod.snd).getD 0

variable {entries more : List (Nat × α)} {i j : Nat} {x : α}

theorem keys_append (entries more : List (Nat × α)) :
    keys (entries ++ more) = keys entries ++ keys more := List.map_append

theorem find?_key (nodup : (keys entries).Nodup) (member : (i, x) ∈ entries) :
    entries.find? (·.1 == i) = some (i, x) := by
  induction entries with
  | nil => simp at member
  | cons e rest ih =>
    obtain ⟨fresh, nodup⟩ := List.nodup_cons.mp nodup
    rcases List.mem_cons.mp member with rfl | member
    · simp
    · have other : e.1 ≠ i := fun eq => fresh (eq ▸ List.mem_map_of_mem member)
      rw [List.find?_cons_of_neg (by simpa using other)]
      exact ih nodup member

theorem find?_key_eq_none : entries.find? (·.1 == i) = none ↔ i ∉ keys entries := by
  simp only [List.find?_eq_none, beq_iff_eq, List.mem_map, not_exists, not_and]

theorem exists_findIdx?_key (member : i ∈ keys entries) :
    ∃ offset, entries.findIdx? (·.1 == i) = some offset ∧ offset < entries.length := by
  obtain ⟨e, he, rfl⟩ := List.mem_map.mp member
  cases found : entries.findIdx? (·.1 == e.1) with
  | none => simpa using List.findIdx?_eq_none_iff.mp found e he
  | some offset =>
    obtain ⟨inside, _⟩ := List.findIdx?_eq_some_iff_findIdx_eq.mp found
    exact ⟨offset, rfl, inside⟩

theorem filter_key_eq (nodup : (keys entries).Nodup) (member : (i, x) ∈ entries) :
    entries.filter (fun e => !(e.1 != i)) = [(i, x)] := by
  induction entries with
  | nil => simp at member
  | cons e rest ih =>
    obtain ⟨fresh, nodup⟩ := List.nodup_cons.mp nodup
    rcases List.mem_cons.mp member with rfl | member
    · have none : rest.filter (fun e => !(e.1 != i)) = [] := by
        refine List.filter_eq_nil_iff.mpr fun f hf key => fresh ?_
        have same : f.1 = i := by simpa using key
        have keyed : f.1 ∈ keys rest := List.mem_map_of_mem hf
        rwa [same] at keyed
      simp [none]
    · have other : e.1 ≠ i := fun eq => fresh (eq ▸ List.mem_map_of_mem (f := Prod.fst) member)
      simpa [other] using ih nodup member

/-! ### Places in lists -/

theorem isSome_idxOf? {xs : List Nat} {x : Nat} : (xs.idxOf? x).isSome ↔ x ∈ xs := by
  simp [List.idxOf?, List.findIdx?_isSome]

theorem idxOf?_eq_some {xs : List Nat} {x k : Nat} (h : xs.idxOf? x = some k) :
    xs[k]? = some x := by
  obtain ⟨inside, found, -⟩ := List.findIdx?_eq_some_iff_getElem.mp h
  rw [List.getElem?_eq_getElem inside]
  simpa using found

theorem nodup_getElem? {xs : List Nat} (nodup : xs.Nodup) {x k l : Nat} (hk : xs[k]? = some x)
    (hl : xs[l]? = some x) : k = l := by
  obtain ⟨inside, rfl⟩ := List.getElem?_eq_some_iff.mp hk
  obtain ⟨inside', eq⟩ := List.getElem?_eq_some_iff.mp hl
  exact (nodup.getElem_inj_iff.mp eq).symm

theorem pairwise_key (nodup : (keys entries).Nodup) (i : Nat) :
    entries.Pairwise fun x y => ¬((x.1 == i) = true ∧ (y.1 == i) = true) := by
  have apart := List.pairwise_map.mp nodup
  exact apart.imp fun ne both => ne (by simp_all)

section Zero

variable [Zero α]

@[simp] theorem valueAt_nil : valueAt ([] : List (Nat × α)) i = 0 := rfl

theorem valueAt_of_mem (nodup : (keys entries).Nodup) (member : (i, x) ∈ entries) :
    valueAt entries i = x := by
  simp [valueAt, find?_key nodup member]

theorem valueAt_of_not_mem (fresh : i ∉ keys entries) : valueAt entries i = 0 := by
  rw [valueAt, find?_key_eq_none.mpr fresh]
  rfl

theorem valueAt_cons (e : Nat × α) : valueAt (e :: entries) i =
    if e.1 = i then e.2 else valueAt entries i := by
  unfold valueAt
  by_cases eq : e.1 = i
  · simp [eq]
  · rw [List.find?_cons_of_neg (by simpa using eq), if_neg eq]

theorem valueAt_perm (perm : entries.Perm more) (nodup : (keys entries).Nodup) :
    valueAt entries i = valueAt more i := by
  have nodup' : (keys more).Nodup := (perm.map Prod.fst).nodup_iff.mp nodup
  by_cases member : i ∈ keys entries
  · obtain ⟨⟨_, x⟩, he, rfl⟩ := List.mem_map.mp member
    rw [valueAt_of_mem nodup he, valueAt_of_mem nodup' (perm.mem_iff.mp he)]
  · rw [valueAt_of_not_mem member,
      valueAt_of_not_mem fun h => member ((perm.map Prod.fst).mem_iff.mpr h)]

theorem valueAt_filter (p : Nat → Bool) :
    valueAt (entries.filter fun e => p e.1) i = if p i then valueAt entries i else 0 := by
  induction entries with
  | nil => simp
  | cons e rest ih =>
    by_cases keep : p e.1
    · rw [List.filter_cons_of_pos (by exact keep), valueAt_cons, valueAt_cons, ih]
      grind
    · rw [List.filter_cons_of_neg (by simpa using keep), valueAt_cons, ih]
      grind

theorem valueAt_map {β : Type} [Zero β] (f : α → β) (zero : f 0 = 0) :
    valueAt (entries.map fun e => (e.1, f e.2)) i = f (valueAt entries i) := by
  induction entries with
  | nil => simp [zero]
  | cons e rest ih =>
    rw [List.map_cons, valueAt_cons, valueAt_cons, ih]
    split <;> rfl

theorem valueAt_append (apart : ∀ k ∈ keys entries, k ∉ keys more) :
    valueAt (entries ++ more) i = if i ∈ keys entries then valueAt entries i else valueAt more i := by
  induction entries with
  | nil => simp
  | cons e rest ih =>
    have rest_apart : ∀ k ∈ keys rest, k ∉ keys more := fun k hk => apart k (by simp_all)
    rw [List.cons_append, valueAt_cons, valueAt_cons, ih rest_apart]
    by_cases eq : e.1 = i
    · simp [eq]
    · have member : i ∈ keys (e :: rest) ↔ i ∈ keys rest := by
        simp only [List.map_cons, List.mem_cons, Ne.symm eq, false_or]
      simp only [eq, if_false, member]

theorem valueAt_concat (fresh : i ∉ keys entries) :
    valueAt (entries ++ [(i, x)]) j = if j = i then x else valueAt entries j := by
  have apart : ∀ k ∈ keys entries, k ∉ keys [(i, x)] := by
    rintro k hk member
    simp only [List.map_cons, List.map_nil, List.mem_singleton] at member
    exact fresh (member ▸ hk)
  rw [valueAt_append apart, valueAt_cons, valueAt_nil]
  by_cases here : j = i
  · rw [if_pos here, if_pos here.symm, if_neg (here ▸ fresh)]
  · rw [if_neg here, if_neg (Ne.symm here)]
    split
    · rfl
    · exact (valueAt_of_not_mem ‹_›).symm

end Zero

/-! ### Removal by key -/

/-- Entries without the one at index `i`, whose place the last entry takes. -/
def withoutKey (i : Nat) (entries : List (Nat × α)) : List (Nat × α) :=
  match entries.findIdx? (·.1 == i) with
  | some offset => LineFile.swapRemoved entries offset
  | none => entries

/-- A list without `i`, whose place the last element takes. -/
def without (i : Nat) (line : List Nat) : List Nat :=
  match line.findIdx? (· == i) with
  | some offset => LineFile.swapRemoved line offset
  | none => line

theorem withoutKey_perm (nodup : (keys entries).Nodup) :
    (withoutKey i entries).Perm (entries.filter (·.1 != i)) := by
  unfold withoutKey
  split
  case h_1 offset found =>
    have inside := (List.findIdx?_eq_some_iff_findIdx_eq.mp found).1
    have kept : entries.eraseIdx offset = entries.filter (·.1 != i) :=
      eraseIdx_findIdx? found (pairwise_key nodup i)
    exact kept ▸ swapRemoved_perm inside
  case h_2 absent =>
    rw [List.filter_eq_self.mpr fun e he => by
      simpa using List.findIdx?_eq_none_iff.mp absent e he]

theorem without_perm {line : List Nat} (nodup : line.Nodup) :
    (without i line).Perm (line.filter (· != i)) := by
  unfold without
  split
  case h_1 offset found =>
    have inside := (List.findIdx?_eq_some_iff_findIdx_eq.mp found).1
    have once : line.Pairwise fun x y => ¬((x == i) = true ∧ (y == i) = true) :=
      nodup.imp fun ne both => ne (by simp_all)
    have kept : line.eraseIdx offset = line.filter (· != i) := eraseIdx_findIdx? found once
    exact kept ▸ swapRemoved_perm inside
  case h_2 absent =>
    rw [List.filter_eq_self.mpr fun e he => by
      simpa using List.findIdx?_eq_none_iff.mp absent e he]

theorem nodup_withoutKey (nodup : (keys entries).Nodup) : (keys (withoutKey i entries)).Nodup :=
  ((withoutKey_perm nodup).map Prod.fst).nodup_iff.mpr
    ((List.filter_sublist.map Prod.fst).nodup nodup)

theorem mem_withoutKey (nodup : (keys entries).Nodup) {e : Nat × α} :
    e ∈ withoutKey i entries ↔ e.1 ≠ i ∧ e ∈ entries := by
  rw [(withoutKey_perm nodup).mem_iff, List.mem_filter]
  simp [and_comm]

theorem mem_keys_withoutKey (nodup : (keys entries).Nodup) :
    j ∈ keys (withoutKey i entries) ↔ j ≠ i ∧ j ∈ keys entries := by
  simp only [List.mem_map, mem_withoutKey nodup]
  constructor
  · rintro ⟨e, ⟨ne, he⟩, rfl⟩
    exact ⟨ne, e, he, rfl⟩
  · rintro ⟨ne, e, he, rfl⟩
    exact ⟨e, ⟨ne, he⟩, rfl⟩

theorem withoutKey_of_not_mem (absent : i ∉ keys entries) : withoutKey i entries = entries := by
  have none : entries.findIdx? (·.1 == i) = none := List.findIdx?_eq_none_iff.mpr fun e he => by
    have other : e.1 ≠ i := fun eq => absent (eq ▸ List.mem_map_of_mem he)
    simpa using other
  rw [withoutKey, none]

theorem valueAt_withoutKey [Zero α] (nodup : (keys entries).Nodup) :
    valueAt (withoutKey i entries) j = if j = i then 0 else valueAt entries j := by
  rw [valueAt_perm (withoutKey_perm nodup) (nodup_withoutKey nodup),
    valueAt_filter fun k => k != i]
  grind

theorem nodup_without {line : List Nat} (nodup : line.Nodup) : (without i line).Nodup :=
  (without_perm nodup).nodup_iff.mpr (nodup.filter _)

theorem mem_without {line : List Nat} (nodup : line.Nodup) :
    j ∈ without i line ↔ j ≠ i ∧ j ∈ line := by
  rw [(without_perm nodup).mem_iff, List.mem_filter]
  simp [and_comm]

theorem length_filter_ne {line : List Nat} (nodup : line.Nodup) (member : i ∈ line) :
    (line.filter (· != i)).length + 1 = line.length := by
  rw [← nodup.erase_eq_filter, List.length_erase_of_mem member]
  have := List.length_pos_of_mem member
  omega

theorem exists_findIdx? {line : List Nat} (member : i ∈ line) :
    ∃ offset, line.findIdx? (· == i) = some offset ∧ offset < line.length := by
  cases found : line.findIdx? (· == i) with
  | none => simpa using List.findIdx?_eq_none_iff.mp found i member
  | some offset =>
    exact ⟨offset, rfl, (List.findIdx?_eq_some_iff_findIdx_eq.mp found).1⟩

theorem length_swapRemoved (entries : List ε) (offset : Nat) :
    (LineFile.swapRemoved entries offset).length = entries.length - 1 := by
  unfold LineFile.swapRemoved
  rcases List.eq_nil_or_concat entries with rfl | ⟨front, e, rfl⟩ <;> simp

theorem without_of_not_mem {line : List Nat} (absent : i ∉ line) : without i line = line := by
  have none : line.findIdx? (· == i) = none := List.findIdx?_eq_none_iff.mpr fun e he => by
    have other : e ≠ i := fun eq => absent (eq ▸ he)
    simpa using other
  rw [without, none]

theorem nodup_keys_filter (nodup : (keys entries).Nodup) (p : Nat × α → Bool) :
    (keys (entries.filter p)).Nodup :=
  (List.filter_sublist.map Prod.fst).nodup nodup

theorem mem_keys_filter_ne : j ∈ keys (entries.filter (·.1 != i)) ↔ j ≠ i ∧ j ∈ keys entries := by
  simp only [List.mem_map, List.mem_filter]
  constructor
  · rintro ⟨e, ⟨he, ne⟩, rfl⟩
    exact ⟨by simpa using ne, e, he, rfl⟩
  · rintro ⟨ne, e, he, rfl⟩
    exact ⟨e, ⟨he, by simpa using ne⟩, rfl⟩

theorem length_filter_key_ne (nodup : (keys entries).Nodup) (member : i ∈ keys entries) :
    (entries.filter (·.1 != i)).length + 1 = entries.length := by
  have cut := length_filter_ne nodup member
  rw [List.length_map, List.filter_map, List.length_map] at cut
  exact cut

theorem length_withoutKey (member : i ∈ keys entries) :
    (withoutKey i entries).length + 1 = entries.length := by
  obtain ⟨offset, found, inside⟩ := exists_findIdx?_key member
  rw [withoutKey, found]
  have := length_swapRemoved entries offset
  simp only [this]
  omega

theorem length_without {line : List Nat} (member : i ∈ line) :
    (without i line).length + 1 = line.length := by
  obtain ⟨offset, found, inside⟩ := exists_findIdx? member
  rw [without, found]
  have := length_swapRemoved line offset
  simp only [this]
  omega

end SimplexBasis
