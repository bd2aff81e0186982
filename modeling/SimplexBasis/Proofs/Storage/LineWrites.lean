import SimplexBasis.Proofs.Storage.Layout

/-!
# Writes to line files

What the single writes to a line file do to its layout and to its contents: a line that ends
earlier, entries written over a line, a line that grows into the gap behind it, and a line that is
moved to the end of the file.
-/

namespace SimplexBasis.LineFile

variable {ε : Type} {f g : LineFile ε} {order : List Nat} {k l n capacity x : Nat}
  {lines : Nat → List ε}

/-! ### Single writes -/

theorem setStart_eq (hk : k < f.start.size) :
    setStart k x f = .ok () { f with start := f.start.setIfInBounds k x } := put_eq _ x hk

theorem setStop_eq (hk : k < f.stop.size) :
    setStop k x f = .ok () { f with stop := f.stop.setIfInBounds k x } := put_eq _ x hk

theorem setNext_eq (hk : k < f.next.size) :
    setNext k x f = .ok () { f with next := f.next.setIfInBounds k x } := put_eq _ x hk

theorem setPrev_eq (hk : k < f.prev.size) :
    setPrev k x f = .ok () { f with prev := f.prev.setIfInBounds k x } := put_eq _ x hk

theorem setData_eq (e : ε) (hk : k < f.data.size) :
    setData k e f = .ok () { f with data := f.data.setIfInBounds k e } := put_eq _ e hk

theorem writeAt_eq {entries : List ε} (fits : x + entries.length ≤ f.data.size) :
    writeAt x entries f = .ok () { f with data := overwrite f.data x entries } := by
  unfold writeAt
  simp [fits]

def withStop (f : LineFile ε) (k x : Nat) : LineFile ε :=
  { f with stop := f.stop.setIfInBounds k x }

theorem last_withStop (hk : k < f.stop.size) :
    (f.withStop k x).last l = if l = k then x else f.last l := getD_setIfInBounds hk

@[simp] theorem first_withStop : (f.withStop k x).first l = f.first l := rfl

theorem content_congr (hfirst : g.first k = f.first k) (hlast : g.last k = f.last k)
    (size : g.data.size = f.data.size)
    (data : ∀ i, f.first k ≤ i → i < f.last k → g.data[i]? = f.data[i]?) :
    g.content k = f.content k := by
  unfold content
  rw [hfirst, hlast]
  congr 1
  apply Array.ext_getElem?
  intro i
  rw [Array.getElem?_extract, Array.getElem?_extract, size]
  split
  · exact data _ (by omega) (by omega)
  · rfl

theorem getElem?_content (fits : f.last k ≤ f.data.size) (i : Nat) :
    (f.content k)[i]? = if i < f.last k - f.first k then f.data[f.first k + i]? else none := by
  simp only [content, Array.getElem?_toList, Array.getElem?_extract, Nat.min_eq_left fits]

namespace Arranged

theorem of_data (h : f.Arranged order) {data : Array ε} (size : data.size = f.data.size) :
    { f with data := data }.Arranged order :=
  ⟨h.size_start, h.size_stop, h.perm, h.ring, h.tiles, size ▸ h.unused, size ▸ h.capacity⟩

theorem of_compressions (h : f.Arranged order) {count : Nat} :
    { f with compressions := count }.Arranged order :=
  ⟨h.size_start, h.size_stop, h.perm, h.ring, h.tiles, h.unused, h.capacity⟩

theorem restop {front back : List Nat} (h : f.Arranged (front ++ k :: back)) (low : f.first k ≤ x)
    (behind : Tiles f.first f.last x back (f.first f.lineCount)) :
    (f.withStop k x).Arranged (front ++ k :: back) := by
  have hk : k < f.lineCount := h.mem_order.mp (by simp)
  have inside : k < f.stop.size := by rw [h.size_stop]; omega
  have other : ∀ l, l ≠ k → (f.withStop k x).last l = f.last l := fun l ne => by
    rw [last_withStop inside, if_neg ne]
  have nodup := h.nodup
  constructor
  · exact h.size_start
  · simpa [withStop] using h.size_stop
  · exact h.perm
  · exact h.ring
  · obtain ⟨before, _, _⟩ := Tiles.append_iff.mp h.tiles
    refine Tiles.append_iff.mpr ⟨before.congr (fun _ _ => rfl) fun l hl => other l ?_, ?_, ?_⟩
    · rintro rfl
      grind
    · rw [last_withStop inside, if_pos rfl]
      exact low
    · rw [last_withStop inside, if_pos rfl]
      refine behind.congr (fun _ _ => rfl) fun l hl => other l ?_
      rintro rfl
      grind
  · exact h.unused
  · exact (other _ (Nat.ne_of_gt hk)).trans h.capacity

theorem shrink (h : f.Arranged order) (hk : k < f.lineCount) (low : f.first k ≤ x)
    (high : x ≤ f.last k) : (f.withStop k x).Arranged order := by
  obtain ⟨front, back, rfl⟩ := List.append_of_mem (h.mem_order.mpr hk)
  exact h.restop low ((Tiles.append_iff.mp h.tiles).2.2.lower high)

end Arranged

/-- Line `k` may take `amount` entries where it stands. -/
def Spacious (f : LineFile ε) (k amount : Nat) : Prop :=
  ∃ order, (f.withStop k (f.first k + amount)).Arranged order

theorem withStop_withStop (f : LineFile ε) (k x y : Nat) :
    (f.withStop k x).withStop k y = f.withStop k y := by
  simp [withStop]

theorem withStop_last (f : LineFile ε) (hk : k < f.stop.size) : f.withStop k (f.last k) = f := by
  have same : f.stop.setIfInBounds k (f.last k) = f.stop := by
    apply Array.ext_getElem?
    intro i
    rw [Array.getElem?_setIfInBounds]
    split
    · rename_i eq
      subst eq
      simp [last, hk]
    · rfl
  rw [withStop, same]

theorem Spacious.mono {amount amount' : Nat} (h : f.Spacious k amount) (hk : k < f.lineCount)
    (le : amount' ≤ amount) : f.Spacious k amount' := by
  obtain ⟨order, arranged⟩ := h
  have inside : k < f.stop.size := by
    have := arranged.size_stop
    simp only [withStop, Array.size_setIfInBounds] at this
    omega
  refine ⟨order, ?_⟩
  rw [← withStop_withStop f k (f.first k + amount)]
  refine arranged.shrink hk (Nat.le_add_right _ _) ?_
  rw [last_withStop inside, if_pos rfl]
  omega

theorem Arranged.spacious (h : f.Arranged order) (hk : k < f.lineCount) :
    f.Spacious k (f.content k).length := by
  refine ⟨order, ?_⟩
  rw [← h.last_eq hk, withStop_last f (by rw [h.size_stop]; omega)]
  exact h

namespace Stores

theorem clearLine (h : f.Stores n capacity lines) (hk : k < n) :
    ∃ g, LineFile.clearLine k f = .ok () g ∧ g.Stores n capacity (Function.update lines k []) := by
  obtain ⟨⟨order, arranged⟩, rfl, size, content⟩ := h
  have inside : k < f.stop.size := by rw [arranged.size_stop]; omega
  have bounds := arranged.bounds hk
  refine ⟨f.withStop k (f.first k), ?_, ⟨order, arranged.shrink hk (Nat.le_refl _) bounds.1⟩, rfl,
    size, ?_⟩
  · unfold LineFile.clearLine
    simp only [get_bind, arranged.entry_start (Nat.le_of_lt hk), lift_ok_bind, setStop_eq inside]
    rfl
  · intro l hl
    by_cases eq : l = k
    · subst eq
      simp [LineFile.content, last_withStop inside]
    · rw [Function.update_of_ne eq, ← content l hl]
      exact content_congr rfl (by rw [last_withStop inside, if_neg eq]) rfl fun _ _ _ => rfl

end Stores

/-- A list without the entry at `offset`, whose place the last entry takes. -/
def swapRemoved (entries : List ε) (offset : Nat) : List ε :=
  match entries.getLast? with
  | some e => (entries.set offset e).dropLast
  | none => []

theorem getElem?_swapRemoved {entries : List ε} {offset : Nat} (i : Nat) :
    (swapRemoved entries offset)[i]? = if i < entries.length - 1 then
      if i = offset then entries[entries.length - 1]? else entries[i]? else none := by
  unfold swapRemoved
  rcases List.eq_nil_or_concat entries with rfl | ⟨front, e, rfl⟩
  · simp
  · simp only [List.concat_eq_append, List.getLast?_append, List.getLast?_singleton, Option.some_or, List.getElem?_dropLast,
      List.length_set, List.length_append, List.length_singleton, Nat.add_sub_cancel,
      List.getElem?_set]
    grind

namespace Stores

theorem swapRemove (h : f.Stores n capacity lines) (hk : k < n) {offset : Nat}
    (inside : offset < (lines k).length) : ∃ g, LineFile.swapRemove k offset f = .ok () g ∧
      g.Stores n capacity (Function.update lines k (swapRemoved (lines k) offset)) := by
  obtain ⟨⟨order, arranged⟩, rfl, size, content⟩ := h
  rw [← content k hk] at inside
  have sizeStop : k < f.stop.size := by rw [arranged.size_stop]; omega
  have bounds := arranged.bounds hk
  have unused := arranged.unused
  have length := arranged.length_content hk
  have shrunk := arranged.shrink hk (x := f.last k - 1) (by omega) (by omega)
  have covered : f.last k - 1 < f.data.size := by omega
  let moved : LineFile ε :=
    { f.withStop k (f.last k - 1) with
      data := f.data.setIfInBounds (f.first k + offset) f.data[f.last k - 1] }
  refine ⟨moved, ?_, ⟨order, shrunk.of_data (by simp [withStop])⟩, rfl, ?_, ?_⟩
  · unfold LineFile.swapRemove
    simp only [get_bind, arranged.entry_start (Nat.le_of_lt hk),
      arranged.entry_stop (Nat.le_of_lt hk), lift_ok_bind,
      show f.first k + offset < f.last k by omega, decide_true, require_true_bind]
    rw [bind_of_ok (setStop_eq sizeStop)]
    simp only [get_bind, entry_of_lt covered, lift_ok_bind]
    exact setData_eq _ (by dsimp only; omega)
  · simpa [moved] using size
  · have last : ∀ l, moved.last l = if l = k then f.last k - 1 else f.last l :=
      fun l => last_withStop sizeStop
    have data : ∀ i : Nat, moved.data[i]? =
        if i = f.first k + offset then f.data[f.last k - 1]? else f.data[i]? := by
      intro i
      simp only [moved, Array.getElem?_setIfInBounds, Array.getElem?_eq_getElem covered]
      grind
    intro l hl
    by_cases eq : l = k
    · subst eq
      rw [Function.update_self, ← content l hl]
      apply List.ext_getElem?
      intro i
      rw [getElem?_content (by rw [last l, if_pos rfl]; simpa [moved] using by omega),
        getElem?_swapRemoved, getElem?_content (by omega), getElem?_content (by omega), last l,
        if_pos rfl, show moved.first l = f.first l from rfl, data, length]
      grind
    · rw [Function.update_of_ne eq, ← content l hl]
      refine content_congr rfl (by rw [last l, if_neg eq]) (by simp [moved])
        fun i low high => ?_
      rw [data, if_neg]
      have := arranged.tiles.apart (arranged.mem_order.mpr hl) (arranged.mem_order.mpr hk) eq
      omega

end Stores

/-! ### Writing a line -/

theorem extract_overwrite {xs : Array ε} {entries : List ε}
    (fits : x + entries.length ≤ xs.size) :
    ((overwrite xs x entries).extract x (x + entries.length)).toList = entries := by
  apply List.ext_getElem?
  intro i
  rw [Array.getElem?_toList, Array.getElem?_extract, getElem?_overwrite xs x entries _ fits]
  by_cases inside : i < entries.length
  · rw [if_pos (by simp; omega), if_pos (by omega), Nat.add_sub_cancel_left]
  · rw [if_neg (by simp; omega), List.getElem?_eq_none (by omega)]

theorem Stores.fill (h : f.Stores n capacity lines) (hk : k < n) {entries : List ε}
    (space : f.Spacious k entries.length) :
    { f.withStop k (f.first k + entries.length) with
      data := overwrite f.data (f.first k) entries }.Stores n capacity
        (Function.update lines k entries) := by
  obtain ⟨_, rfl, size, content⟩ := h
  obtain ⟨order, arranged⟩ := space
  have inside : k < f.stop.size := by
    have := arranged.size_stop
    simp only [withStop, Array.size_setIfInBounds] at this
    omega
  have ends : ∀ l, (f.withStop k (f.first k + entries.length)).last l =
      if l = k then f.first k + entries.length else f.last l := fun l => last_withStop inside
  have fits : f.first k + entries.length ≤ f.data.size := by
    have low := (arranged.bounds hk).2
    rw [ends, if_pos rfl] at low
    exact Nat.le_trans low arranged.unused
  refine ⟨⟨order, arranged.of_data (by simp [withStop])⟩, rfl, by simpa using size, ?_⟩
  intro l hl
  by_cases eq : l = k
  · subst eq
    rw [Function.update_self]
    change ((overwrite f.data (f.first l) entries).extract (f.first l)
      ((f.withStop l (f.first l + entries.length)).last l)).toList = entries
    rw [ends, if_pos rfl]
    exact extract_overwrite fits
  · rw [Function.update_of_ne eq, ← content l hl]
    refine content_congr rfl ((ends l).trans (if_neg eq)) (by simp) fun i low high => ?_
    rw [getElem?_overwrite _ _ _ _ fits, if_neg]
    have apart := arranged.tiles.apart (arranged.mem_order.mpr hl) (arranged.mem_order.mpr hk) eq
    rw [ends, ends, if_neg eq, if_pos rfl, first_withStop, first_withStop] at apart
    omega

/-! ### Growing in place -/

theorem room_eq {front back : List Nat} (h : f.Arranged (front ++ k :: back)) :
    ∃ limit, f.room k = .ok (limit - f.last k) ∧ f.last k ≤ limit ∧
      (back = [] → limit = f.data.size ∧ f.next[k]? = some f.lineCount) ∧
      (∀ l rest, back = l :: rest → limit = f.first l ∧ f.next[k]? = some l ∧ l < f.lineCount) := by
  have hk : k < f.lineCount := h.mem_order.mp (by simp)
  obtain ⟨_, onward⟩ := Path.append_iff.mp h.ring
  obtain ⟨_, _, behind⟩ := Tiles.append_iff.mp h.tiles
  unfold room
  cases back with
  | nil =>
    have le := Nat.le_trans behind.le h.unused
    refine ⟨f.data.size, ?_, le, fun _ => ⟨rfl, onward.1⟩, by simp⟩
    simp [entry_eq_ok_iff.mpr onward.1, h.entry_stop (Nat.le_refl _), h.capacity,
      h.entry_stop (Nat.le_of_lt hk), Word.sub_of_le le, pure, Except.pure]
  | cons l rest =>
    have hl : l < f.lineCount := h.mem_order.mp (by simp)
    have ne : l ≠ f.lineCount := Nat.ne_of_lt hl
    refine ⟨f.first l, ?_, behind.1, by simp, ?_⟩
    · simp [entry_eq_ok_iff.mpr onward.1, ne, h.entry_start (Nat.le_of_lt hl),
        h.entry_stop (Nat.le_of_lt hk), Word.sub_of_le behind.1, pure, Except.pure]
    · rintro _ _ ⟨⟩
      exact ⟨rfl, onward.1, hl⟩

/-- The file with its unused space beginning elsewhere. -/
def withUnused (f : LineFile ε) (x : Nat) : LineFile ε :=
  { f with start := f.start.setIfInBounds f.lineCount x }

theorem first_withUnused (h : f.Arranged order) :
    (f.withUnused x).first l = if l = f.lineCount then x else f.first l :=
  getD_setIfInBounds (by rw [h.size_start]; omega)

theorem Arranged.with_unused (h : f.Arranged order) (low : ∀ l ∈ order, f.last l ≤ x)
    (high : x ≤ f.data.size) : (f.withUnused x).Arranged order := by
  have unused : (f.withUnused x).first f.lineCount = x := by rw [first_withUnused h, if_pos rfl]
  refine ⟨by simpa [withUnused] using h.size_start, h.size_stop, h.perm, h.ring, ?_, ?_, h.capacity⟩
  · change Tiles _ _ 0 order ((f.withUnused x).first f.lineCount)
    have same : ∀ l ∈ order, (f.withUnused x).first l = f.first l := fun l hl => by
      rw [first_withUnused h, if_neg (Nat.ne_of_lt (h.mem_order.mp hl))]
    rw [unused]
    exact (h.tiles.tighten (Nat.zero_le x) low).congr same fun _ _ => rfl
  · change (f.withUnused x).first f.lineCount ≤ f.data.size
    rw [unused]
    exact high

theorem content_withUnused (h : f.Arranged order) (hl : l < f.lineCount) :
    (f.withUnused x).content l = f.content l :=
  content_congr (by rw [first_withUnused h, if_neg (Nat.ne_of_lt hl)]) rfl rfl fun _ _ _ => rfl

end SimplexBasis.LineFile
