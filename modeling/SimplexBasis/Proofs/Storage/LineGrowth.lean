import SimplexBasis.Proofs.Storage.LineWrites

/-!
# Growth of lines

Lines grow in place, are moved to the end of the file, or wait for a compression. As long as the
room that is asked for is a word (`Roomy`), none of this changes the contents of a line.
-/

namespace SimplexBasis.LineFile

variable {ε : Type} {f g : LineFile ε} {order front back : List Nat} {k l n capacity extra : Nat}
  {lines : Nat → List ε} {spare : Nat → Nat}

/-- The room asked for by lines of up to `limit` entries never exceeds the words. -/
def Roomy (spare : Nat → Nat) (limit capacity : Nat) : Prop :=
  ∀ length ≤ limit, max length capacity + spare length < UInt64.size

/-- Without a compression, `g` came from `f` by taking at most `more` of the unused space behind its
`n` lines. -/
structure Takes (f g : LineFile ε) (n more : Nat) : Prop where
  unused : g.first n ≤ f.first n + more
  compressions : g.compressions = f.compressions

theorem Takes.mono (h : f.Takes g n extra) {more : Nat} (le : extra ≤ more) : f.Takes g n more where
  unused := Nat.le_trans h.unused (Nat.add_le_add_left le _)
  compressions := h.compressions

theorem Takes.trans {p : LineFile ε} {more : Nat} (first : f.Takes g n more)
    (second : g.Takes p n extra) : f.Takes p n (more + extra) where
  unused := by
    have low := first.unused
    have high := second.unused
    omega
  compressions := second.compressions.trans first.compressions

theorem Stores.growInPlace (h : f.Stores n capacity lines) (hk : k < n) (extra : Nat) :
    ∃ grown g, LineFile.growInPlace k extra f = .ok grown g ∧ g.Stores n capacity lines ∧
      (grown = true → g.Spacious k ((lines k).length + extra) ∧ f.Takes g n extra) ∧
      (grown = false → g = f ∧ ∃ room, f.room k = .ok room ∧ room < extra) := by
  have stored := h
  obtain ⟨⟨order, arranged⟩, rfl, size, content⟩ := h
  obtain ⟨front, back, rfl⟩ := List.append_of_mem (arranged.mem_order.mpr hk)
  obtain ⟨limit, room, below, atEnd, inside⟩ := room_eq arranged
  obtain ⟨_, _, behind⟩ := Tiles.append_iff.mp arranged.tiles
  have ends := arranged.last_eq hk
  rw [content k hk] at ends
  unfold LineFile.growInPlace
  simp only [get_bind, room, lift_ok_bind]
  by_cases small : limit - f.last k < extra
  · exact ⟨false, f, by simp [small], stored, by simp, fun _ => ⟨rfl, _, rfl, small⟩⟩
  rw [if_neg small]
  cases back with
  | nil =>
    obtain ⟨rfl, next⟩ := atEnd rfl
    have unused := arranged.unused
    have lastLe : f.last k ≤ f.first f.lineCount := behind.le
    have moved := arranged.with_unused (x := max (f.first f.lineCount) (f.last k + extra))
      (fun l hl => Nat.le_trans (arranged.tiles.bounds hl).2.2 (Nat.le_max_left _ _)) (by omega)
    have inBounds : f.lineCount < f.start.size := by rw [arranged.size_start]; omega
    refine ⟨true, _, ?_, ⟨⟨_, moved⟩, rfl, size, ?_⟩, fun _ => ?_, by simp⟩
    · simp only [entry_eq_ok_iff.mpr next, lift_ok_bind, beq_self_eq_true, if_true,
        arranged.entry_stop (Nat.le_of_lt hk), arranged.entry_start (Nat.le_refl _)]
      rw [bind_of_ok (setStart_eq inBounds)]
      rfl
    · intro l hl
      rw [content_withUnused arranged hl, content l hl]
    · refine ⟨⟨_, moved.restop (Nat.le_add_right _ _) ?_⟩, ?_, rfl⟩
      · change _ + _ ≤ (f.withUnused _).first f.lineCount
        rw [first_withUnused arranged, first_withUnused arranged, if_neg (Nat.ne_of_lt hk),
          if_pos rfl]
        omega
      · rw [first_withUnused arranged, if_pos rfl]
        omega
  | cons l rest =>
    obtain ⟨rfl, next, hl⟩ := inside l rest rfl
    have space : f.Spacious k ((lines k).length + extra) :=
      ⟨_, arranged.restop (Nat.le_add_right _ _) ⟨by omega, behind.2⟩⟩
    refine ⟨true, f, ?_, stored, fun _ => ⟨space, Nat.le_add_right _ _, rfl⟩, by simp⟩
    simp [entry_eq_ok_iff.mpr next, Nat.ne_of_lt hl]

/-! ### Moving a line -/

def relocated (f : LineFile ε) (k target : Nat) : LineFile ε :=
  { f with
    data := overwrite f.data target (f.content k)
    start := f.start.setIfInBounds k target
    stop := f.stop.setIfInBounds k (target + (f.content k).length) }

section Relocated

variable {target : Nat} (h : f.Arranged order) (hk : k < f.lineCount)

include h hk

theorem first_relocated : (f.relocated k target).first l = if l = k then target else f.first l :=
  getD_setIfInBounds (by rw [h.size_start]; omega)

theorem last_relocated : (f.relocated k target).last l =
    if l = k then target + (f.content k).length else f.last l :=
  getD_setIfInBounds (by rw [h.size_stop]; omega)

theorem moveTo_run (fits : target + (f.content k).length ≤ f.data.size) :
    moveTo k target f = .ok (target + (f.content k).length) (f.relocated k target) := by
  have inStart : k < f.start.size := by rw [h.size_start]; omega
  have inStop : k < f.stop.size := by rw [h.size_stop]; omega
  unfold moveTo
  simp only [get_bind, h.line_eq hk, lift_ok_bind]
  rw [bind_of_ok (writeAt_eq fits), bind_of_ok (setStart_eq (by exact inStart)),
    bind_of_ok (setStop_eq (by exact inStop))]
  rfl

theorem content_relocated (fits : target + (f.content k).length ≤ f.data.size)
    (apart : l ≠ k → f.last l ≤ target ∨ target + (f.content k).length ≤ f.first l) :
    (f.relocated k target).content l = f.content l := by
  by_cases eq : l = k
  · subst eq
    unfold LineFile.content
    rw [first_relocated h hk, last_relocated h hk, if_pos rfl, if_pos rfl]
    exact extract_overwrite fits
  · refine content_congr (by rw [first_relocated h hk, if_neg eq])
      (by rw [last_relocated h hk, if_neg eq]) (by simp [relocated]) fun i low high => ?_
    have := apart eq
    simp only [relocated, getElem?_overwrite _ _ _ _ fits]
    rw [if_neg (by omega)]

end Relocated

theorem Arranged.ring_reappend (h : f.Arranged (front ++ k :: back)) :
    ∃ before behind final, f.prev[k]? = some before ∧ f.next[k]? = some behind ∧
      before < f.next.size ∧ behind < f.prev.size ∧ final < f.next.size ∧
      (f.prev.setIfInBounds behind before)[f.lineCount]? = some final ∧
      Path (((f.next.setIfInBounds before behind).setIfInBounds final k).setIfInBounds k f.lineCount)
        (((f.prev.setIfInBounds behind before).setIfInBounds k final).setIfInBounds f.lineCount k)
        f.lineCount (front ++ back ++ [k]) f.lineCount := by
  have nodup := h.nodup_ring
  have outside := (List.nodup_cons.mp nodup).1
  obtain ⟨toLine, fromLine⟩ := Path.append_iff.mp h.ring
  obtain ⟨before, hp⟩ := toLine.exists_prev_end
  obtain ⟨behind, hn⟩ := fromLine.next_of_mem List.mem_cons_self
  have beforeIn : before < f.next.size := by
    obtain ⟨x, hx⟩ := toLine.next_of_mem (toLine.prev_end_mem hp)
    exact (Array.getElem?_eq_some_iff.mp hx).1
  have behindIn : behind < f.prev.size := by
    obtain ⟨x, hx⟩ := fromLine.prev_of_mem (fromLine.next_start_mem hn)
    exact (Array.getElem?_eq_some_iff.mp hx).1
  have kNext := (Array.getElem?_eq_some_iff.mp hn).1
  have kPrev := (Array.getElem?_eq_some_iff.mp hp).1
  obtain ⟨final, hf⟩ : ∃ final, (f.prev.setIfInBounds behind before)[f.lineCount]? = some final := by
    obtain ⟨x, hx⟩ := fromLine.exists_prev_end
    have inside := (Array.getElem?_eq_some_iff.mp hx).1
    exact ⟨_, Array.getElem?_eq_getElem (by simpa using inside)⟩
  have nPrev := (Array.getElem?_eq_some_iff.mp hf).1
  have closed : Path (f.next.setIfInBounds before behind) (f.prev.setIfInBounds behind before)
      f.lineCount (front ++ back) f.lineCount := by
    refine h.ring.unlink nodup outside hp hn ?_ ?_ ?_ ?_
    · exact fun x _ ne => Array.getElem?_setIfInBounds_ne ne.symm
    · simp [beforeIn]
    · exact fun x _ ne => Array.getElem?_setIfInBounds_ne ne.symm
    · simp [behindIn]
  have finalIn : final < f.next.size := by
    obtain ⟨x, hx⟩ := closed.next_of_mem (closed.prev_end_mem hf)
    simpa using (Array.getElem?_eq_some_iff.mp hx).1
  refine ⟨before, behind, final, hp, hn, beforeIn, behindIn, finalIn, hf, ?_⟩
  have finalMem := closed.prev_end_mem hf
  have kFresh : k ∉ f.lineCount :: (front ++ back) := by grind
  refine closed.insert_end (by grind) hf ?_ ?_ ?_ ?_ ?_ ?_
  · intro x hx ne
    rw [Array.getElem?_setIfInBounds_ne (by grind), Array.getElem?_setIfInBounds_ne ne.symm]
  · rw [Array.getElem?_setIfInBounds_ne (by grind)]
    simp [finalIn]
  · simp [kNext]
  · intro x hx
    rw [Array.getElem?_setIfInBounds_ne (by grind), Array.getElem?_setIfInBounds_ne (by grind)]
  · rw [Array.getElem?_setIfInBounds_ne (by grind)]
    simp [kPrev]
  · have inside : f.lineCount < f.prev.size := by simpa using nPrev
    simp [inside]

/-- The file with line `k` behind all others and `extra` entries of room, the line having been
between `before` and `behind`, and line `final` the last one of the others. -/
def reappended (f : LineFile ε) (k extra before behind final : Nat) : LineFile ε :=
  { f.relocated k (f.first f.lineCount) with
    start := (f.relocated k (f.first f.lineCount)).start.setIfInBounds f.lineCount
      (f.first f.lineCount + (f.content k).length + extra)
    next := ((f.next.setIfInBounds before behind).setIfInBounds final k).setIfInBounds k f.lineCount
    prev := ((f.prev.setIfInBounds behind before).setIfInBounds k final).setIfInBounds f.lineCount k }

section Reappended

variable {before behind final : Nat}

theorem reappend_run (h : f.Arranged (front ++ k :: back)) (hk : k < f.lineCount)
    (words : f.data.size < UInt64.size)
    (free : (f.content k).length + extra ≤ f.data.size - f.first f.lineCount)
    (hp : f.prev[k]? = some before) (hn : f.next[k]? = some behind)
    (beforeIn : before < f.next.size) (behindIn : behind < f.prev.size)
    (finalIn : final < f.next.size)
    (hf : (f.prev.setIfInBounds behind before)[f.lineCount]? = some final) :
    LineFile.reappend k extra f = .ok () (f.reappended k extra before behind final) := by
  have unused := h.unused
  have kNext := (Array.getElem?_eq_some_iff.mp hn).1
  have kPrev := (Array.getElem?_eq_some_iff.mp hp).1
  have nPrev := (Array.getElem?_eq_some_iff.mp hf).1
  have inStart : f.lineCount < (f.relocated k (f.first f.lineCount)).start.size := by
    simp [relocated, h.size_start]
  unfold LineFile.reappend
  simp only [get_bind, h.entry_start (Nat.le_refl _), h.length_eq hk, h.freeSpace_eq, lift_ok_bind]
  rw [Word.add_of_lt (by omega)]
  simp only [free, decide_true, require_true_bind]
  rw [bind_of_ok (moveTo_run h hk (by omega)), Word.add_of_lt (by omega),
    bind_of_ok (setStart_eq inStart)]
  simp only [get_bind, relocated, entry_eq_ok_iff.mpr hp, entry_eq_ok_iff.mpr hn, lift_ok_bind]
  rw [bind_of_ok (setNext_eq (by exact beforeIn)), bind_of_ok (setPrev_eq (by exact behindIn))]
  simp only [get_bind, entry_eq_ok_iff.mpr hf, lift_ok_bind]
  rw [bind_of_ok (setNext_eq (by simpa using finalIn)),
    bind_of_ok (setPrev_eq (by simpa using kPrev)),
    bind_of_ok (setNext_eq (by simpa using kNext)), setPrev_eq (by simpa using nPrev)]
  rfl

variable {order : List Nat} (h : f.Arranged order) (hk : k < f.lineCount)

include h hk

theorem first_reappended : (f.reappended k extra before behind final).first l =
    if l = f.lineCount then f.first f.lineCount + (f.content k).length + extra
    else if l = k then f.first f.lineCount else f.first l := by
  rw [← first_relocated h hk]
  exact getD_setIfInBounds (by simp [relocated, h.size_start])

theorem last_reappended : (f.reappended k extra before behind final).last l =
    if l = k then f.first f.lineCount + (f.content k).length else f.last l :=
  last_relocated h hk

theorem content_reappended (fits : f.first f.lineCount + (f.content k).length ≤ f.data.size)
    (hl : l < f.lineCount) :
    (f.reappended k extra before behind final).content l = f.content l := by
  rw [← content_relocated h hk fits fun _ => .inl (h.bounds hl).2]
  refine content_congr ?_ rfl rfl fun _ _ _ => rfl
  rw [first_reappended h hk, if_neg (Nat.ne_of_lt hl), first_relocated h hk]

end Reappended

theorem Arranged.reappended {before behind final : Nat} (h : f.Arranged (front ++ k :: back))
    (hk : k < f.lineCount)
    (free : (f.content k).length + extra ≤ f.data.size - f.first f.lineCount)
    (ring : Path (f.reappended k extra before behind final).next
      (f.reappended k extra before behind final).prev f.lineCount (front ++ back ++ [k])
      f.lineCount) :
    (f.reappended k extra before behind final).Arranged (front ++ back ++ [k]) := by
  have starts := fun l => @first_reappended _ _ _ l extra before behind final _ h hk
  have stops := fun l => @last_reappended _ _ _ l extra before behind final _ h hk
  have unused := h.unused
  have nodup := h.nodup
  have small : ∀ l ∈ front ++ back, l < f.lineCount ∧ l ≠ k := fun l hl =>
    ⟨h.mem_order.mp (by grind), by grind⟩
  have hkn : k ≠ f.lineCount := Nat.ne_of_lt hk
  constructor
  · simp [LineFile.reappended, relocated, h.size_start]
  · simp [LineFile.reappended, relocated, h.size_stop]
  · refine List.Perm.trans ?_ h.perm
    rw [List.append_assoc]
    exact (List.perm_append_singleton k back).append_left front
  · exact ring
  · refine Tiles.append_iff.mpr ⟨?_, ?_, ?_⟩
    · rw [starts, if_neg hkn, if_pos rfl]
      refine h.tiles.skip.congr (fun l hl => ?_) fun l hl => ?_
      · rw [starts, if_neg (Nat.ne_of_lt (small l hl).1), if_neg (small l hl).2]
      · rw [stops, if_neg (small l hl).2]
    · rw [starts, if_neg hkn, if_pos rfl, stops, if_pos rfl]
      exact Nat.le_add_right _ _
    · change _ ≤ (f.reappended k extra before behind final).first f.lineCount
      rw [starts, if_pos rfl, stops, if_pos rfl]
      exact Nat.le_add_right _ _
  · change (f.reappended k extra before behind final).first f.lineCount ≤ (overwrite _ _ _).size
    rw [starts, if_pos rfl, size_overwrite]
    omega
  · change (f.reappended k extra before behind final).last f.lineCount = (overwrite _ _ _).size
    rw [stops, if_neg hkn.symm, size_overwrite]
    exact h.capacity

theorem Stores.reappend (h : f.Stores n capacity lines) (hk : k < n)
    (words : f.data.size < UInt64.size)
    (free : (lines k).length + extra ≤ f.data.size - f.first n) :
    ∃ g, LineFile.reappend k extra f = .ok () g ∧ g.Stores n capacity lines ∧
      g.Spacious k ((lines k).length + extra) ∧ f.Takes g n ((lines k).length + extra) := by
  obtain ⟨⟨order, arranged⟩, rfl, size, content⟩ := h
  rw [← content k hk] at free ⊢
  have unused := arranged.unused
  obtain ⟨front, back, rfl⟩ := List.append_of_mem (arranged.mem_order.mpr hk)
  obtain ⟨before, behind, final, hp, hn, beforeIn, behindIn, finalIn, hf, ring⟩ :=
    arranged.ring_reappend
  have placed := arranged.reappended hk free ring
  refine ⟨_, reappend_run arranged hk words free hp hn beforeIn behindIn finalIn hf,
    ⟨⟨_, placed⟩, rfl, by simpa [LineFile.reappended, relocated] using size, fun l hl => ?_⟩,
    ⟨_, placed.restop (Nat.le_add_right _ _) ?_⟩, ?_, rfl⟩
  · rw [← content l hl]
    exact content_reappended arranged hk (by omega) hl
  · change _ ≤ (f.reappended k extra before behind final).first f.lineCount
    rw [first_reappended arranged hk, first_reappended arranged hk, if_neg (Nat.ne_of_lt hk),
      if_pos rfl, if_pos rfl]
    omega
  · rw [first_reappended arranged hk, if_pos rfl]
    omega

/-! ### Compression -/

/-- While the lines of `back` are moved behind `used` entries that would like `extra` more, no sum
exceeds the words. -/
def Packs (f : LineFile ε) (spare : Nat → Nat) : Nat → Nat → List Nat → Prop
  | used, extra, [] => used + extra < UInt64.size
  | used, extra, k :: back => used + extra < UInt64.size ∧
      Packs f spare (min (used + extra) (f.first k) + (f.content k).length)
        (spare (f.content k).length) back

namespace Packs

variable {used : Nat}

theorem lt_size (h : f.Packs spare used extra back) : used + extra < UInt64.size := by
  cases back with
  | nil => exact h
  | cons k back => exact h.1

theorem congr (h : f.Packs spare used extra back) (first : ∀ k ∈ back, g.first k = f.first k)
    (content : ∀ k ∈ back, g.content k = f.content k) : g.Packs spare used extra back := by
  induction back generalizing used extra with
  | nil => exact h
  | cons k back ih =>
    rw [Packs, first k (by simp), content k (by simp)]
    exact ⟨h.1, ih h.2 (fun l hl => first l (by simp [hl])) fun l hl => content l (by simp [hl])⟩

/-- A line ends before the limit wherever it is moved to, so the room that it asks for behind the
limit bounds every sum. -/
theorem of_words {limit : Nat} (ahead : Tiles f.first f.last used back limit)
    (lengths : ∀ k ∈ back, f.last k = f.first k + (f.content k).length)
    (words : ∀ k ∈ back, limit + spare (f.content k).length < UInt64.size)
    (asked : used + extra < UInt64.size) : f.Packs spare used extra back := by
  induction back generalizing used extra with
  | nil => exact asked
  | cons k back ih =>
    obtain ⟨_, _, behind⟩ := ahead
    have ends := lengths k (by simp)
    have word := words k (by simp)
    have below := behind.le
    exact ⟨asked, ih (behind.lower (by omega)) (fun l hl => lengths l (by simp [hl]))
      (fun l hl => words l (by simp [hl])) (by omega)⟩

end Packs

def CompressesWithin (f : LineFile ε) (spare : Nat → Nat) : Prop :=
  ∃ order, f.Arranged order ∧ f.Packs spare 0 0 order

theorem Stores.compressesWithin (h : f.Stores n capacity lines)
    (words : ∀ l < n, capacity + spare (lines l).length < UInt64.size) :
    f.CompressesWithin spare := by
  obtain ⟨⟨order, arranged⟩, rfl, rfl, content⟩ := h
  refine ⟨order, arranged, Packs.of_words (arranged.tiles.raise arranged.unused) ?_ ?_ (by decide)⟩
  · exact fun k hk => arranged.last_eq (arranged.mem_order.mp hk)
  · intro k hk
    rw [content k (arranged.mem_order.mp hk)]
    exact words k (arranged.mem_order.mp hk)

/-- The space that lines take with what they would like to have behind them. -/
def loosely (spare : Nat → Nat) (lines : Nat → List ε) (order : List Nat) : Nat :=
  (order.map fun k => (lines k).length + spare (lines k).length).sum

theorem Arranged.relocate {used target : Nat} (h : f.Arranged (front ++ k :: back))
    (done : ∀ l ∈ front, f.last l ≤ used) (low : used ≤ target) (high : target ≤ f.first k) :
    (f.relocated k target).Arranged (front ++ k :: back) ∧
      ∀ l < f.lineCount, (f.relocated k target).content l = f.content l := by
  have hk : k < f.lineCount := h.mem_order.mp (by simp)
  have ends := h.last_eq hk
  have bounds := h.bounds hk
  have unused := h.unused
  have nodup := h.nodup
  obtain ⟨before, _, behind⟩ := Tiles.append_iff.mp h.tiles
  have starts := fun l => @first_relocated _ _ _ _ l target h hk
  have stops := fun l => @last_relocated _ _ _ _ l target h hk
  have hkn : f.lineCount ≠ k := Nat.ne_of_gt hk
  constructor
  · constructor
    · simpa [relocated] using h.size_start
    · simpa [relocated] using h.size_stop
    · exact h.perm
    · exact h.ring
    · change Tiles _ _ 0 _ ((f.relocated k target).first f.lineCount)
      rw [starts, if_neg hkn]
      refine Tiles.append_iff.mpr ⟨?_, ?_, ?_⟩
      · rw [starts, if_pos rfl]
        refine (before.tighten (Nat.zero_le _) fun l hl => Nat.le_trans (done l hl) low).congr
          (fun l hl => ?_) fun l hl => ?_
        · rw [starts, if_neg (by rintro rfl; grind)]
        · rw [stops, if_neg (by rintro rfl; grind)]
      · rw [starts, stops, if_pos rfl, if_pos rfl]
        exact Nat.le_add_right _ _
      · rw [stops, if_pos rfl]
        refine (behind.lower (by omega)).congr (fun l hl => ?_) fun l hl => ?_
        · rw [starts, if_neg (by rintro rfl; grind)]
        · rw [stops, if_neg (by rintro rfl; grind)]
    · change (f.relocated k target).first f.lineCount ≤ (overwrite _ _ _).size
      rw [starts, if_neg hkn, size_overwrite]
      exact unused
    · change (f.relocated k target).last f.lineCount = (overwrite _ _ _).size
      rw [stops, if_neg hkn, size_overwrite]
      exact h.capacity
  · intro l hl
    refine content_relocated h hk (by omega) fun ne => ?_
    have member := h.mem_order.mpr hl
    rcases List.mem_append.mp member with hl | hl
    · exact .inl (Nat.le_trans (done l hl) low)
    · rcases List.mem_cons.mp hl with same | hl
      · exact absurd same ne
      · right
        have := (behind.bounds hl).1
        omega

/-- A compression that has moved the lines of `front`, which end at `used`, and not yet those of
`back`. -/
structure Compressing (f : LineFile ε) (spare : Nat → Nat) (front back : List Nat)
    (used extra : Nat) : Prop where
  arranged : f.Arranged (front ++ back)
  done : ∀ l ∈ front, f.last l ≤ used
  ahead : Tiles f.first f.last used back (f.first f.lineCount)
  packs : f.Packs spare used extra back

namespace Compressing

variable {used : Nat}

theorem target_le (h : f.Compressing spare front (k :: back) used extra) :
    used ≤ min (used + extra) (f.first k) :=
  Nat.le_min.mpr ⟨Nat.le_add_right _ _, h.ahead.1⟩

/-- The next line joins the ones in front, and asks for its own spare entries. -/
theorem step (h : f.Compressing spare front (k :: back) used extra) {target : Nat}
    (place : min (used + extra) (f.first k) = target) :
    (f.relocated k target).Compressing spare (front ++ [k]) back
      (target + (f.content k).length) (spare (f.content k).length) ∧
      ∀ l < f.lineCount, (f.relocated k target).content l = f.content l := by
  have hk : k < f.lineCount := h.arranged.mem_order.mp (by simp)
  have ends := h.arranged.last_eq hk
  have bounds := h.arranged.bounds hk
  have unused := h.arranged.unused
  have nodup := h.arranged.nodup
  have low := h.target_le
  obtain ⟨_, _, behind⟩ := h.ahead
  obtain ⟨moved, same⟩ := h.arranged.relocate h.done (place ▸ low) (place ▸ Nat.min_le_right _ _)
  have starts := fun l => @first_relocated _ _ _ _ l target h.arranged hk
  have stops := fun l => @last_relocated _ _ _ _ l target h.arranged hk
  have inside : ∀ l ∈ back, l < f.lineCount ∧ l ≠ k := fun l hl =>
    ⟨h.arranged.mem_order.mp (by simp [hl]), by rintro rfl; grind⟩
  refine ⟨⟨by simpa using moved, ?_, ?_, ?_⟩, same⟩
  · intro l hl
    rw [stops]
    split
    · exact Nat.le_refl _
    · have := h.done l (by grind)
      omega
  · change Tiles _ _ _ _ ((f.relocated k target).first f.lineCount)
    rw [starts, if_neg (Nat.ne_of_gt hk)]
    refine (behind.lower (by omega)).congr (fun l hl => ?_) fun l hl => ?_
    · rw [starts, if_neg (inside l hl).2]
    · rw [stops, if_neg (inside l hl).2]
  · refine (place ▸ h.packs.2).congr (fun l hl => ?_) fun l hl => same l (inside l hl).1
    rw [starts, if_neg (inside l hl).2]

/-- The loop moves one line and goes on with the one behind it in memory order. -/
theorem compressFrom_cons (h : f.Compressing spare front (k :: back) used extra) (fuel : Nat)
    {target : Nat} (place : min (used + extra) (f.first k) = target) :
    ∃ next, (back ++ [f.lineCount]).head? = some next ∧
      compressFrom spare (fuel + 1) k used extra f =
        compressFrom spare fuel next (target + (f.content k).length) (spare (f.content k).length)
          (f.relocated k target) := by
  have hk : k < f.lineCount := h.arranged.mem_order.mp (by simp)
  have ends := h.arranged.last_eq hk
  have bounds := h.arranged.bounds hk
  have unused := h.arranged.unused
  obtain ⟨next, onward, begins⟩ := (Path.append_iff.mp h.arranged.ring).2.exists_next
  refine ⟨next, begins, ?_⟩
  have link : entry (f.relocated k target).next k = .ok next := entry_eq_ok_iff.mpr onward
  rw [compressFrom]
  simp only [get_bind]
  rw [if_pos hk]
  simp only [get_bind, h.arranged.entry_start (Nat.le_of_lt hk), lift_ok_bind, h.ahead.1,
    decide_true, require_true_bind]
  rw [Word.add_of_lt h.packs.1, place, bind_of_ok (moveTo_run h.arranged hk (by omega))]
  simp only [get_bind, link, lift_ok_bind, Nat.add_sub_cancel_left]

end Compressing

theorem loosely_congr (same : ∀ k ∈ order, g.content k = f.content k) :
    loosely spare g.content order = loosely spare f.content order :=
  congrArg List.sum (List.map_congr_left fun k hk => by rw [same k hk])

theorem compressFrom_run {line used fuel : Nat}
    (begins : (back ++ [f.lineCount]).head? = some line)
    (h : f.Compressing spare front back used extra) (enough : back.length < fuel) :
    ∃ g used' extra', compressFrom spare fuel line used extra f = .ok (used', extra') g ∧
      g.Compressing spare (front ++ back) [] used' extra' ∧
      g.lineCount = f.lineCount ∧ g.data.size = f.data.size ∧
      (∀ l < f.lineCount, g.content l = f.content l) ∧
      used' + extra' ≤ used + extra + loosely spare f.content back := by
  induction back generalizing f front line used extra fuel with
  | nil =>
    obtain rfl : f.lineCount = line := by simpa using begins
    cases fuel with
    | zero => simp at enough
    | succ fuel =>
      refine ⟨f, used, extra, ?_, by simpa using h, rfl, rfl, fun _ _ => rfl, Nat.le_add_right _ _⟩
      unfold compressFrom
      simp
  | cons k back ih =>
    obtain rfl : k = line := by simpa using begins
    cases fuel with
    | zero => simp at enough
    | succ fuel =>
      obtain ⟨target, place⟩ : ∃ target, min (used + extra) (f.first k) = target := ⟨_, rfl⟩
      obtain ⟨next, begins', cons⟩ := h.compressFrom_cons fuel place
      obtain ⟨stepped, moved⟩ := h.step place
      have inside : ∀ l ∈ back, l < f.lineCount := fun l hl =>
        h.arranged.mem_order.mp (by simp [hl])
      obtain ⟨g, used', extra', run, compressed, count, size, same, bound⟩ :=
        ih (f := f.relocated k target) begins' stepped (by simpa using enough)
      have loose := @loosely_congr _ f _ back spare fun l hl => moved l (inside l hl)
      have total : loosely spare f.content (k :: back) = (f.content k).length +
          spare (f.content k).length + loosely spare f.content back := by simp [loosely]
      have size' : (f.relocated k target).data.size = f.data.size := by simp [relocated]
      exact ⟨g, used', extra', cons.trans run, by simpa using compressed, count, size.trans size',
        fun l hl => (same l hl).trans (moved l hl), by omega⟩

/-- After a compression the lines take no more than their entries and what they would like to have
behind them. -/
theorem Stores.compress (h : f.Stores n capacity lines) (within : f.CompressesWithin spare) :
    ∃ g, LineFile.compress spare f = .ok () g ∧ g.Stores n capacity lines ∧
      g.first n ≤ loosely spare lines (List.range n) := by
  obtain ⟨_, rfl, rfl, content⟩ := h
  obtain ⟨order, arranged, packs⟩ := within
  obtain ⟨line, hline, begins⟩ := arranged.ring.exists_next
  have start : f.Compressing spare [] order 0 0 := ⟨arranged, by simp, arranged.tiles, packs⟩
  have length : order.length = f.lineCount := by simpa using arranged.perm.length_eq
  have enough : order.length < f.lineCount + 1 := by omega
  obtain ⟨g, used, extra, run, ⟨placed, below, limit, word⟩, count, size, same, bound⟩ :=
    compressFrom_run begins start enough
  rw [List.nil_append, List.append_nil] at placed
  rw [List.nil_append] at below
  have limit : used ≤ g.first g.lineCount := limit
  have unused := placed.unused
  have inStart : g.lineCount < g.start.size := by rw [placed.size_start]; omega
  have final := placed.with_unused (x := min (used + extra) (g.first g.lineCount))
    (fun l hl => Nat.le_min.mpr ⟨Nat.le_trans (below l hl) (by omega),
      (placed.tiles.bounds hl).2.2⟩) (by omega)
  have loose : loosely spare f.content order = loosely spare lines (List.range f.lineCount) := by
    refine (congrArg List.sum (List.map_congr_left fun l hl => ?_)).trans
      (arranged.perm.map _).sum_nat
    rw [content l (arranged.mem_order.mp hl)]
  refine ⟨{ g.withUnused (min (used + extra) (g.first g.lineCount)) with
    compressions := g.compressions + 1 }, ?_, ⟨⟨_, final.of_compressions⟩, count, size, ?_⟩, ?_⟩
  · unfold LineFile.compress
    simp only [get_bind, entry_eq_ok_iff.mpr hline, lift_ok_bind]
    rw [bind_of_ok run]
    simp only [get_bind, ← count, placed.entry_start (Nat.le_refl _), lift_ok_bind, limit,
      decide_true, require_true_bind]
    rw [Word.add_of_lt word, bind_of_ok (setStart_eq inStart)]
    rfl
  · intro l hl
    have inside : l < g.lineCount := count ▸ hl
    have kept := @content_withUnused _ _ _ l (min (used + extra) (g.first g.lineCount)) placed inside
    rw [← content l hl, ← same l hl]
    exact kept
  · change (g.withUnused _).first f.lineCount ≤ _
    rw [first_withUnused placed, if_pos count.symm]
    omega

end SimplexBasis.LineFile
