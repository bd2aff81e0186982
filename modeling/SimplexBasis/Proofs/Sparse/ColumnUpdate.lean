import SimplexBasis.Proofs.Entries
import SimplexBasis.Proofs.Runs
import SimplexBasis.Proofs.Sparse.View
import SimplexBasis.Sparse.Elimination

/-!
# Updates of columns

The update of a column in closed form: the old entries outside of the pivot row, lowered where they
meet a multiplier, and behind them the entries filled in for the other multipliers.
-/

set_option linter.unusedSectionVars false

namespace SimplexBasis

variable {α : Type} [Scalar α]

namespace ColumnUpdate

variable {tolerance u : α} {pivotRow m : Nat} {multipliers old : List (Nat × α)}
  {slot : Array (Option Nat)}

/-- A computed entry, if it exceeds the tolerance. -/
def significant (tolerance : α) (i : Nat) (x : α) : Option (Nat × α) :=
  if tolerance < Scalar.abs x then some (i, x) else none

/-- What becomes of an old entry. -/
def lowered (tolerance : α) (pivotRow : Nat) (multipliers : List (Nat × α)) (u : α)
    (e : Nat × α) : Option (Nat × α) :=
  if e.1 = pivotRow then none
  else if e.1 ∈ keys multipliers then
    significant tolerance e.1 (e.2 - valueAt multipliers e.1 * u)
  else some e

/-- What is filled in for a multiplier. -/
def filled (tolerance : α) (u : α) (old : List (Nat × α)) (e : Nat × α) : Option (Nat × α) :=
  if e.1 ∈ keys old then none else significant tolerance e.1 (-e.2 * u)

def updated (tolerance : α) (pivotRow : Nat) (multipliers : List (Nat × α)) (u : α)
    (old : List (Nat × α)) : List (Nat × α) :=
  old.filterMap (lowered tolerance pivotRow multipliers u) ++
    multipliers.filterMap (filled tolerance u old)

/-! ### Runs -/

/-- An update that has kept the given entries. -/
structure Keeps (c : ColumnUpdate α) (entries : List (Nat × α)) : Prop where
  kept : c.kept = entries.reverse
  largest : c.largest = largestOf entries

theorem Keeps.keep {c : ColumnUpdate α} {entries : List (Nat × α)} (h : c.Keeps entries) (i : Nat)
    (x : α) : (c.keep i x).Keeps (entries ++ [(i, x)]) where
  kept := by simp [ColumnUpdate.keep, h.kept]
  largest := by simp [ColumnUpdate.keep, h.largest, largestOf]

theorem Keeps.compute {c : ColumnUpdate α} {entries : List (Nat × α)} (h : c.Keeps entries)
    (i : Nat) (x : α) :
    (c.compute tolerance i x).Keeps (entries ++ (significant tolerance i x).toList) := by
  unfold ColumnUpdate.compute significant
  split
  · exact Keeps.keep (c := { c with flops := c.flops + 1 }) ⟨h.kept, h.largest⟩ i x
  · simpa using (⟨h.kept, h.largest⟩ : Keeps { c with flops := c.flops + 1 } entries)

@[simp] theorem met_compute (c : ColumnUpdate α) (i : Nat) (x : α) :
    (c.compute tolerance i x).met = c.met := by
  unfold ColumnUpdate.compute
  split <;> rfl

/-- The multipliers that have met an entry are those in the rows `rows`. -/
def Met (multipliers : List (Nat × α)) (rows : List Nat) (met : Array Bool) : Prop :=
  met.size = multipliers.length ∧
    ∀ q e, multipliers[q]? = some e → (met.getD q false = true ↔ e.1 ∈ rows)

theorem Met.mark {rows : List Nat} {met : Array Bool} (h : Met multipliers rows met)
    (distinct : (keys multipliers).Nodup) {i q : Nat} (slot : (keys multipliers).idxOf? i = some q) :
    Met multipliers (rows ++ [i]) (met.setIfInBounds q true) := by
  have inside : q < multipliers.length := by
    have := List.findIdx?_eq_some_iff_findIdx_eq.mp slot
    simpa using this.1
  have keyed : (keys multipliers)[q]? = some i := idxOf?_eq_some slot
  refine ⟨by simpa using h.1, fun p e he => ?_⟩
  have pKey : (keys multipliers)[p]? = some e.1 := by simp [he]
  have pInside : p < met.size := by
    rw [h.1]
    exact (List.getElem?_eq_some_iff.mp he).1
  have old := h.2 p e he
  by_cases same : p = q
  · subst same
    have eq : e.1 = i := Option.some.inj (pKey.symm.trans keyed)
    simp [Array.getD, pInside, eq]
  · have ne : e.1 ≠ i := fun eq => same (nodup_getElem? distinct (eq ▸ pKey) keyed)
    have read : (met.setIfInBounds q true).getD p false = met.getD p false := by
      simp [Array.getD, pInside, Ne.symm same]
    rw [read, old]
    simp [ne]

theorem Met.skip {rows : List Nat} {met : Array Bool} (h : Met multipliers rows met) {i : Nat}
    (absent : i ∉ keys multipliers) : Met multipliers (rows ++ [i]) met :=
  ⟨h.1, fun q e he => by
    have ne : e.1 ≠ i := fun eq => absent (eq ▸ List.mem_map_of_mem (List.mem_of_getElem? he))
    rw [h.2 q e he]
    simp [ne]⟩

section Runs

variable (slots : ∀ i < m, slot[i]? = some ((keys multipliers).idxOf? i))
  (distinct : (keys multipliers).Nodup) (absent : pivotRow ∉ keys multipliers)
  (inside : ∀ i ∈ keys old, i < m)

include slots distinct absent inside

theorem foldlM_updateEntry {blank : ColumnUpdate α} (keeps : blank.Keeps [])
    (met : Met multipliers [] blank.met) :
    ∃ c, old.foldlM (updateEntry slot multipliers.toArray pivotRow u tolerance) blank = .ok c ∧
      c.Keeps (old.filterMap (lowered tolerance pivotRow multipliers u)) ∧
      Met multipliers (keys old) c.met := by
  refine foldlM_ok (fun done (c : ColumnUpdate α) =>
    c.Keeps (done.filterMap (lowered tolerance pivotRow multipliers u)) ∧
      Met multipliers (keys done) c.met) ⟨keeps, met⟩ ?_
  rintro done ⟨i, x⟩ rest c split ⟨keeps, met⟩
  have hi : i < m := inside i (by simp [split])
  have split' : keys (done ++ [(i, x)]) = keys done ++ [i] := by simp
  simp only [updateEntry, split', List.filterMap_append, List.filterMap_cons,
    List.filterMap_nil]
  by_cases pivot : i = pivotRow
  · refine ⟨c, by simp [pivot]; rfl, ?_, met.skip (pivot ▸ absent)⟩
    simpa [lowered, pivot] using keeps
  simp only [pivot, if_false, lowered, entry_eq_ok_iff.mpr (slots i hi)]
  cases place : (keys multipliers).idxOf? i with
  | none =>
    have notKey : i ∉ keys multipliers := by
      rw [← isSome_idxOf?, place]
      simp
    refine ⟨_, rfl, ?_, met.skip notKey⟩
    simpa [notKey] using keeps.keep i x
  | some q =>
    have keyed : (keys multipliers)[q]? = some i := idxOf?_eq_some place
    obtain ⟨l, he⟩ : ∃ l, multipliers[q]? = some (i, l) := by
      simpa [List.getElem?_map] using keyed
    have member := List.mem_of_getElem? he
    have isKey : i ∈ keys multipliers := List.mem_map_of_mem (f := Prod.fst) member
    have value := valueAt_of_mem distinct member
    refine ⟨compute { c with met := c.met.setIfInBounds q true } tolerance i (x - l * u),
      ?_, ?_, ?_⟩
    · have read : entry multipliers.toArray q = .ok (i, l) := by
        rw [entry_eq_ok_iff]
        simpa using he
      rw [checked_ok_bind]
      simp only [read, checked_ok_bind]
      rfl
    · have keeps' : Keeps { c with met := c.met.setIfInBounds q true }
          (done.filterMap (lowered tolerance pivotRow multipliers u)) :=
        ⟨keeps.kept, keeps.largest⟩
      have computed := @Keeps.compute _ _ tolerance _ _ keeps' i (x - l * u)
      simp only [isKey, if_true, value]
      cases keptOne : significant tolerance i (x - l * u) <;> simpa [keptOne] using computed
    · rw [met_compute]
      exact met.mark distinct place

omit slots distinct absent inside

theorem foldlM_fillEntry {blank : ColumnUpdate α} {front : List (Nat × α)}
    (keeps : blank.Keeps front) (met : Met multipliers (keys old) blank.met) :
    ∃ c, (List.range multipliers.length).foldlM (fillEntry multipliers.toArray u tolerance) blank =
      .ok c ∧ c.Keeps (front ++ multipliers.filterMap (filled tolerance u old)) := by
  obtain ⟨c, run, keeps, -⟩ := @foldlM_ok _ _ _ (fillEntry multipliers.toArray u tolerance)
    (fun done c => c.Keeps (front ++
      (multipliers.take done.length).filterMap (filled tolerance u old)) ∧
      Met multipliers (keys old) c.met)
    (List.range multipliers.length) blank ⟨by simpa using keeps, met⟩ (by
      rintro done q rest c split ⟨keeps, met⟩
      obtain ⟨rfl, inside⟩ : q = done.length ∧ done.length < multipliers.length := by
        have bound := congrArg List.length split
        have here := congrArg (·[done.length]?) split
        simp only [List.length_range, List.length_append, List.length_cons] at bound
        have lt : done.length < multipliers.length := by omega
        simp [lt] at here
        exact ⟨here.symm, lt⟩
      obtain ⟨⟨i, l⟩, he⟩ : ∃ e, multipliers[done.length]? = some e :=
        ⟨_, List.getElem?_eq_getElem inside⟩
      have next : multipliers.take (done ++ [done.length]).length =
          multipliers.take done.length ++ [(i, l)] := by
        rw [List.length_append, List.length_singleton, List.take_add_one, he]
        rfl
      have read : entry multipliers.toArray done.length = .ok (i, l) := by
        rw [entry_eq_ok_iff]
        simpa using he
      have meets := met.2 _ _ he
      unfold fillEntry
      rw [next, List.filterMap_append, ← List.append_assoc]
      by_cases stored : i ∈ keys old
      · refine ⟨c, by simp [meets.mpr stored]; rfl, ?_, met⟩
        simpa [filled, stored] using keeps
      · have unmet : c.met.getD done.length false = false := by
          rw [← Bool.not_eq_true, meets]
          exact stored
        refine ⟨compute c tolerance i (-l * u), by simp [unmet, read], ?_, by rwa [met_compute]⟩
        have computed := @Keeps.compute _ _ tolerance _ _ keeps i (-l * u)
        simp only [List.filterMap_cons, List.filterMap_nil, filled, stored, if_false]
        cases keptOne : significant tolerance i (-l * u) <;> simpa [keptOne] using computed)
  exact ⟨c, run, by simpa using keeps⟩

include slots distinct absent inside

theorem run_eq : ∃ c, run slot multipliers.toArray pivotRow u tolerance old = .ok c ∧
    c.Keeps (updated tolerance pivotRow multipliers u old) := by
  obtain ⟨c, loweredRun, keeps, met⟩ := @foldlM_updateEntry _ _ _ u _ _ _ _ _ slots
    distinct absent inside ⟨[], Array.replicate multipliers.length false, 0, 0⟩
    ⟨rfl, rfl⟩ ⟨by simp, fun q e he => by simp [Array.getD]⟩
  obtain ⟨d, filledRun, keeps⟩ := foldlM_fillEntry (u := u) keeps met
  refine ⟨d, ?_, keeps⟩
  unfold run
  simp only [List.size_toArray]
  rw [loweredRun]
  exact filledRun

end Runs

theorem Keeps.entries_eq {c : ColumnUpdate α} {entries : List (Nat × α)} (h : c.Keeps entries) :
    c.entries = entries := by
  simp [ColumnUpdate.entries, h.kept]

/-! ### The updated column -/

theorem significant_key {i : Nat} {x : α} {e : Nat × α}
    (h : significant tolerance i x = some e) : e = (i, x) ∧ tolerance < Scalar.abs x := by
  unfold significant at h
  split at h
  · exact ⟨(Option.some.inj h).symm, ‹_›⟩
  · cases h

theorem lowered_key {e e' : Nat × α} (h : lowered tolerance pivotRow multipliers u e = some e') :
    e'.1 = e.1 := by
  unfold lowered at h
  split at h
  · cases h
  · split at h
    · rw [(significant_key h).1]
    · cases h
      rfl

theorem filled_key {e e' : Nat × α} (h : filled tolerance u old e = some e') :
    e'.1 = e.1 ∧ e.1 ∉ keys old := by
  unfold filled at h
  split at h
  · cases h
  · exact ⟨by rw [(significant_key h).1], ‹_›⟩

theorem keys_filterMap_sublist {f : Nat × α → Option (Nat × α)} (entries : List (Nat × α))
    (same : ∀ e e', f e = some e' → e'.1 = e.1) :
    (keys (entries.filterMap f)).Sublist (keys entries) := by
  induction entries with
  | nil => simp
  | cons e rest ih =>
    cases h : f e with
    | none => simpa [h] using ih.cons e.1
    | some e' => simpa [h, same e e' h] using ih.cons_cons e.1

theorem nodup_updated (distinctOld : (keys old).Nodup) (distinct : (keys multipliers).Nodup) :
    (keys (updated tolerance pivotRow multipliers u old)).Nodup := by
  unfold updated
  rw [keys_append]
  refine List.nodup_append.mpr ⟨?_, ?_, ?_⟩
  · exact (keys_filterMap_sublist old fun _ _ => lowered_key).nodup distinctOld
  · exact (keys_filterMap_sublist multipliers fun _ _ h => (filled_key h).1).nodup distinct
  · rintro i hi _ hk rfl
    have fromOld := (keys_filterMap_sublist old fun _ _ => lowered_key).subset hi
    obtain ⟨e', he', rfl⟩ := List.mem_map.mp hk
    obtain ⟨e, -, eq⟩ := List.mem_filterMap.mp he'
    have key := filled_key eq
    exact key.2 (key.1 ▸ fromOld)

variable {i : Nat} {y : α}

theorem mem_updated_of_not_mem (fresh : i ∉ keys multipliers) :
    (i, y) ∈ updated tolerance pivotRow multipliers u old ↔ i ≠ pivotRow ∧ (i, y) ∈ old := by
  unfold updated
  rw [List.mem_append, List.mem_filterMap, List.mem_filterMap]
  constructor
  · rintro (⟨⟨k, x⟩, he, eq⟩ | ⟨⟨k, x⟩, he, eq⟩)
    · obtain rfl : i = k := lowered_key eq
      simp only [lowered, fresh, if_false] at eq
      split at eq
      · cases eq
      · cases eq
        exact ⟨‹_›, he⟩
    · obtain rfl : i = k := (filled_key eq).1
      exact absurd (List.mem_map_of_mem (f := Prod.fst) he) fresh
  · rintro ⟨ne, he⟩
    exact .inl ⟨(i, y), he, by simp [lowered, ne, fresh]⟩

theorem mem_updated_of_mem (distinctOld : (keys old).Nodup) (distinct : (keys multipliers).Nodup)
    (absent : pivotRow ∉ keys multipliers) (member : i ∈ keys multipliers) :
    (i, y) ∈ updated tolerance pivotRow multipliers u old ↔ tolerance < Scalar.abs y ∧
      y = if i ∈ keys old then valueAt old i - valueAt multipliers i * u
        else -valueAt multipliers i * u := by
  have other : i ≠ pivotRow := fun eq => absent (eq ▸ member)
  unfold updated
  rw [List.mem_append, List.mem_filterMap, List.mem_filterMap]
  constructor
  · rintro (⟨⟨k, x⟩, he, eq⟩ | ⟨⟨k, l⟩, he, eq⟩)
    · obtain rfl : i = k := lowered_key eq
      have key : i ∈ keys old := List.mem_map_of_mem (f := Prod.fst) he
      simp only [lowered, other, if_false, member, if_true] at eq
      obtain ⟨eq, large⟩ := significant_key eq
      cases eq
      exact ⟨large, by rw [if_pos key, valueAt_of_mem distinctOld he]⟩
    · obtain rfl : i = k := (filled_key eq).1
      have key := (filled_key eq).2
      simp only at key
      simp only [filled, key, if_false] at eq
      obtain ⟨eq, large⟩ := significant_key eq
      cases eq
      exact ⟨large, by rw [if_neg key, valueAt_of_mem distinct he]⟩
  · rintro ⟨large, rfl⟩
    by_cases key : i ∈ keys old
    · obtain ⟨⟨k, x⟩, he, rfl⟩ := List.mem_map.mp key
      rw [if_pos key] at large ⊢
      refine .inl ⟨(k, x), he, ?_⟩
      rw [valueAt_of_mem distinctOld he] at large ⊢
      have other' : ¬k = pivotRow := other
      simp only [lowered, other', if_false, member, if_true, significant, large]
    · obtain ⟨⟨k, l⟩, he, rfl⟩ := List.mem_map.mp member
      rw [if_neg key] at large ⊢
      refine .inr ⟨(k, l), he, ?_⟩
      rw [valueAt_of_mem distinct he] at large ⊢
      have key' : ¬k ∈ keys old := key
      simp only [filled, key', if_false, significant, large, if_true]

theorem mem_keys_updated (h : i ∈ keys (updated tolerance pivotRow multipliers u old)) :
    i ∈ keys old ∨ i ∈ keys multipliers := by
  obtain ⟨e', he', rfl⟩ := List.mem_map.mp h
  rcases List.mem_append.mp he' with he' | he'
  · obtain ⟨e, he, eq⟩ := List.mem_filterMap.mp he'
    exact .inl (lowered_key eq ▸ List.mem_map_of_mem he)
  · obtain ⟨e, he, eq⟩ := List.mem_filterMap.mp he'
    exact .inr ((filled_key eq).1 ▸ List.mem_map_of_mem he)

end ColumnUpdate

end SimplexBasis
