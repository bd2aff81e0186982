import SimplexBasis.Proofs.Storage.LineGrowth

/-!
# Replacement of lines

A line is replaced by the given entries, or the file is too small and stores what it stored before.
-/

namespace SimplexBasis.LineFile

variable {ε : Type} {f g : LineFile ε} {k n capacity extra : Nat} {lines : Nat → List ε}
  {spare : Nat → Nat}

theorem Stores.freeSpace_eq (h : f.Stores n capacity lines) :
    f.freeSpace = .ok (f.data.size - f.first n) := by
  obtain ⟨⟨order, arranged⟩, rfl, _, _⟩ := h
  exact arranged.freeSpace_eq

theorem Stores.reappend_wanted (h : f.Stores n capacity lines) (hk : k < n) {wanted : Nat}
    (words : (lines k).length + extra + wanted < UInt64.size) (small : capacity < UInt64.size)
    (free : (lines k).length + extra ≤ f.data.size - f.first n) :
    ∃ g, LineFile.reappend k (Word.add extra (min wanted
        (Word.sub (f.data.size - f.first n) ((lines k).length + extra)))) f = .ok () g ∧
      g.Stores n capacity lines ∧ g.Spacious k ((lines k).length + extra) ∧
      f.Takes g n ((lines k).length + extra + wanted) := by
  have size := h.size_data
  have cut := Nat.min_le_left wanted (f.data.size - f.first n - ((lines k).length + extra))
  have cut' := Nat.min_le_right wanted (f.data.size - f.first n - ((lines k).length + extra))
  rw [Word.sub_of_le free, Word.add_of_lt (by omega)]
  generalize min wanted (f.data.size - f.first n - ((lines k).length + extra)) = more at cut cut'
  obtain ⟨g, run, stored, space, taken⟩ :=
    @Stores.reappend _ _ _ _ _ (extra + more) _ h hk (by omega) (by omega)
  have hk' : k < g.lineCount := stored.lineCount.symm ▸ hk
  exact ⟨g, run, stored, space.mono hk' (by omega), taken.mono (by omega)⟩

/-- No sum formed while room for `extra` more entries of line `k` is made exceeds the words. A line
that grows where it stands forms none. -/
def ReservesWithin (f : LineFile ε) (spare : Nat → Nat) (k extra : Nat) : Prop :=
  (∃ room, f.room k = .ok room ∧ extra ≤ room) ∨
    (f.content k).length + extra + spare ((f.content k).length + extra) < UInt64.size ∧
      (f.first f.lineCount + ((f.content k).length + extra +
          spare ((f.content k).length + extra)) ≤ f.data.size ∨
        f.CompressesWithin spare)

theorem Stores.reservesWithin (h : f.Stores n capacity lines) (hk : k < n) {longest : Nat}
    (roomy : Roomy spare longest capacity) (short : ∀ l < n, (lines l).length ≤ longest)
    (fits : (lines k).length + extra ≤ longest) : f.ReservesWithin spare k extra := by
  have needed := roomy _ fits
  rw [← h.content k hk] at needed
  refine .inr ⟨by omega, .inr (h.compressesWithin fun l hl => ?_)⟩
  have := roomy _ (short l hl)
  omega

/-- Room for more entries at the end of a line. It is refused only if the lines with what they would
like to have behind them leave too little for the line to be moved. -/
theorem Stores.reserve (h : f.Stores n capacity lines) (hk : k < n)
    (small : capacity < UInt64.size) (within : f.ReservesWithin spare k extra) :
    Ends (fun _ g => g.Stores n capacity lines ∧ g.Spacious k ((lines k).length + extra))
      (fun e g => e = .outOfMemory ∧ g.Stores n capacity lines ∧
        capacity < loosely spare lines (List.range n) + ((lines k).length + extra))
      (LineFile.reserve k extra spare f) := by
  obtain ⟨grown, g, run, stored, space, kept⟩ := h.growInPlace hk extra
  unfold LineFile.reserve
  rw [bind_of_ok run]
  cases grown with
  | true => exact ⟨stored, (space rfl).1⟩
  | false =>
    obtain ⟨rfl, room, hroom, less⟩ := kept rfl
    rw [ReservesWithin, stored.content k hk, stored.lineCount, stored.size_data] at within
    obtain ⟨words, enough⟩ := within.resolve_left (by
      rintro ⟨_, read, le⟩
      cases hroom.symm.trans read
      omega)
    simp only [Bool.false_eq_true, if_false, get_bind, stored.length_eq hk, stored.freeSpace_eq,
      lift_ok_bind]
    rw [Word.add_of_lt words]
    have size := stored.size_data
    split
    · obtain ⟨p, compressed, stored', packed⟩ :=
        stored.compress (enough.resolve_left (by omega))
      obtain ⟨grown, q, run', stored'', space', kept'⟩ := stored'.growInPlace hk extra
      rw [bind_of_ok compressed, bind_of_ok run']
      cases grown with
      | true => exact ⟨stored'', (space' rfl).1⟩
      | false =>
        obtain ⟨rfl, _⟩ := kept' rfl
        have size' := stored''.size_data
        simp only [Bool.false_eq_true, if_false, get_bind, stored''.freeSpace_eq, lift_ok_bind]
        split
        · exact ⟨rfl, stored'', by omega⟩
        · obtain ⟨r, run'', final, space'', -⟩ := stored''.reappend_wanted hk words small (by omega)
          rw [get_bind, stored''.freeSpace_eq, lift_ok_bind]
          exact Ends.of_ok run'' ⟨final, space''⟩
    · obtain ⟨r, run'', final, space'', -⟩ := stored.reappend_wanted hk words small (by omega)
      rw [get_bind, stored.freeSpace_eq, lift_ok_bind]
      exact Ends.of_ok run'' ⟨final, space''⟩

/-- Room in a file with enough unused space at its end, which is all that is taken. -/
theorem Stores.reserve_ample (h : f.Stores n capacity lines) (hk : k < n)
    (small : capacity < UInt64.size) {needed : Nat} (whole : (lines k).length + extra = needed)
    (ample : f.first n + (needed + spare needed) ≤ capacity) :
    ∃ g, LineFile.reserve k extra spare f = .ok () g ∧ g.Stores n capacity lines ∧
      g.Spacious k needed ∧ f.Takes g n (needed + spare needed) := by
  subst whole
  obtain ⟨grown, g, run, stored, space, kept⟩ := h.growInPlace hk extra
  unfold LineFile.reserve
  rw [bind_of_ok run]
  cases grown with
  | true =>
    obtain ⟨space, taken⟩ := space rfl
    exact ⟨g, rfl, stored, space, taken.mono (by omega)⟩
  | false =>
    obtain ⟨rfl, -⟩ := kept rfl
    have size := stored.size_data
    have words : (lines k).length + extra + spare ((lines k).length + extra) < UInt64.size := by
      omega
    obtain ⟨r, run', stored', space', taken⟩ := stored.reappend_wanted hk words small (by omega)
    refine ⟨r, ?_, stored', space', taken⟩
    simp only [Bool.false_eq_true, if_false, get_bind, stored.length_eq hk, stored.freeSpace_eq,
      lift_ok_bind]
    rw [Word.add_of_lt words, if_neg (by omega), get_bind, stored.freeSpace_eq, lift_ok_bind]
    exact run'

theorem Stores.fill_run (h : f.Stores n capacity lines) (hk : k < n) {entries : List ε}
    (space : f.Spacious k entries.length) :
    ∃ g, (do
        let first ← liftM (entry (← get).start k)
        writeAt first entries
        setStop k (first + entries.length) : Action (LineFile ε) Unit) f = .ok () g ∧
      g.Stores n capacity (Function.update lines k entries) ∧ f.Takes g n 0 := by
  have filled := h.fill hk space
  obtain ⟨order, arranged⟩ := h.arranged
  obtain ⟨order', arranged'⟩ := space
  have hk' : k < f.lineCount := h.lineCount.symm ▸ hk
  have inStop : k < f.stop.size := by rw [arranged.size_stop]; omega
  have inside : f.first k + entries.length ≤ f.data.size := by
    have low := (arranged'.bounds hk').2
    rw [last_withStop inStop, if_pos rfl] at low
    exact Nat.le_trans low arranged'.unused
  refine ⟨_, ?_, filled, Nat.le_refl _, rfl⟩
  simp only [get_bind, arranged.entry_start (Nat.le_of_lt hk'), lift_ok_bind]
  rw [bind_of_ok (writeAt_eq inside), setStop_eq (by exact inStop)]
  rfl

theorem Stores.spacious (h : f.Stores n capacity lines) (hk : k < n) {length : Nat}
    (le : length ≤ (lines k).length) : f.Spacious k length := by
  obtain ⟨order, arranged⟩ := h.arranged
  have hk' : k < f.lineCount := h.lineCount.symm ▸ hk
  exact (arranged.spacious hk').mono hk' (by rwa [h.content k hk])

/-- A line replaced. When the file is too small, its contents stay as they are. -/
theorem Stores.replace (h : f.Stores n capacity lines) (hk : k < n) {entries : List ε}
    (small : capacity < UInt64.size)
    (within : (lines k).length < entries.length →
      f.ReservesWithin spare k (entries.length - (lines k).length)) :
    Ends (fun _ g => g.Stores n capacity (Function.update lines k entries))
      (fun e g => e = .outOfMemory ∧ g.Stores n capacity lines ∧
        (lines k).length < entries.length ∧
        capacity < loosely spare lines (List.range n) + entries.length)
      (LineFile.setLine k entries spare f) := by
  unfold LineFile.setLine
  simp only [get_bind, h.length_eq hk, lift_ok_bind]
  split
  · rename_i longer
    have whole : (lines k).length + (entries.length - (lines k).length) = entries.length := by omega
    have grown := h.reserve hk small (within longer)
    rw [whole] at grown
    refine (grown.mono (fun _ _ => id) fun e g ⟨full, stored, crowded⟩ =>
      ⟨full, stored, longer, crowded⟩).bind fun _ g ⟨stored, space⟩ => ?_
    obtain ⟨r, run, filled, -⟩ := stored.fill_run hk space
    exact .of_ok run filled
  · have space : f.Spacious k entries.length := h.spacious hk (by omega)
    obtain ⟨r, run, filled, -⟩ := h.fill_run hk space
    exact .of_ok run filled

theorem Stores.replace_ample (h : f.Stores n capacity lines) (hk : k < n) {entries : List ε}
    (small : capacity < UInt64.size)
    (ample : f.first n + (entries.length + spare entries.length) ≤ capacity) :
    ∃ g, LineFile.setLine k entries spare f = .ok () g ∧
      g.Stores n capacity (Function.update lines k entries) ∧
      f.Takes g n (entries.length + spare entries.length) := by
  unfold LineFile.setLine
  simp only [get_bind, h.length_eq hk, lift_ok_bind]
  split
  · obtain ⟨g, reserved, stored, space, taken⟩ := @Stores.reserve_ample _ _ _ _ _
      (entries.length - (lines k).length) _ _ h hk small entries.length (by omega) ample
    obtain ⟨r, run, filled, still⟩ := stored.fill_run hk space
    rw [bind_of_ok reserved]
    exact ⟨r, run, filled, taken.trans still⟩
  · have space : f.Spacious k entries.length := h.spacious hk (by omega)
    obtain ⟨r, run, filled, still⟩ := h.fill_run hk space
    exact ⟨r, run, filled, still.mono (Nat.zero_le _)⟩

theorem Stores.setLine (h : f.Stores n capacity lines) (hk : k < n) {longest : Nat}
    {entries : List ε} (roomy : Roomy spare longest capacity)
    (short : ∀ l < n, (lines l).length ≤ longest) (fits : entries.length ≤ longest) :
    Ends (fun _ g => g.Stores n capacity (Function.update lines k entries))
      (fun e g => e = .outOfMemory ∧ g.Stores n capacity lines)
      (LineFile.setLine k entries spare f) := by
  have small := roomy 0 (Nat.zero_le _)
  refine (h.replace hk (by omega) fun longer => h.reservesWithin hk roomy short (by omega)).mono
    (fun _ _ => id) fun _ _ ⟨full, stored, _⟩ => ⟨full, stored⟩

end SimplexBasis.LineFile
