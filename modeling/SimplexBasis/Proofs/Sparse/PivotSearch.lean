import SimplexBasis.Proofs.Sparse.Course

/-!
# What the pivot search finds

A search never fails, what it finds is an entry of the active submatrix, and when it finds nothing it
has passed over every column for want of an eligible entry. It moves rows between lists and changes
nothing else.
-/

set_option linter.unusedSectionVars false

namespace SimplexBasis

variable {α : Type} [Scalar α] {m capacity i j count fuel : Nat} {v w : ActiveView α} {a : Active α}
  {rule : SearchRule α} {p q : PivotSearch} {rowsDone colsDone : List Nat}

def ActiveView.maximum (v : ActiveView α) (j : Nat) : α := v.colMax.getD j 0

/-- The column has no entry that the rule accepts. -/
def Barren (rule : SearchRule α) (v : ActiveView α) (j : Nat) : Prop :=
  (v.colMax.getD j 0 == 0) = true ∨ v.colMax.getD j 0 < rule.absoluteTolerance ∨
    ∀ e ∈ v.cols j, Scalar.abs e.2 <
      Scalar.max rule.absoluteTolerance (rule.relativeTolerance * v.colMax.getD j 0)

namespace PivotSearch

/-- The best candidate is an entry, and there is one when the search has ended. -/
structure Sound (p : PivotSearch) (m : Nat) (v : ActiveView α) : Prop where
  entry : ∀ c, p.best = some c → c.col < m ∧ c.row ∈ keys (v.cols c.col)
  ended : p.finished = true → p.best ≠ none

/-- What a search over columns `ks` leads to. -/
structure Passed (rule : SearchRule α) (m : Nat) (v : ActiveView α) (ks : List Nat)
    (p q : PivotSearch) : Prop where
  sound : q.Sound m v
  kept : q.best = none → p.best = none
  barren : q.best = none → ∀ j ∈ ks, Barren rule v j

theorem Sound.start : start.Sound m v := ⟨by simp [PivotSearch.start], by simp [PivotSearch.start]⟩

theorem sound_accept (p : PivotSearch) {c : Candidate} (bound : Nat) (early : Bool)
    (inside : c.col < m) (member : c.row ∈ keys (v.cols c.col)) :
    (p.accept c bound early).Sound m v where
  entry := by
    rintro _ ⟨⟩
    exact ⟨inside, member⟩
  ended := by simp [PivotSearch.accept]

theorem Sound.of_entries (sound : p.Sound m v) (cols : w.cols = v.cols) : p.Sound m w where
  entry := cols ▸ sound.entry
  ended := sound.ended

theorem Sound.countLine (sound : p.Sound m v) : (p.countLine rule).Sound m v where
  entry := sound.entry
  ended := by
    intro ended none
    simp only [PivotSearch.countLine, Bool.and_eq_true] at ended none
    rw [none] at ended
    simp at ended

theorem improves_of_none (none : p.best = none) (cost : Nat) : p.improves cost = true := by
  simp [improves, none]

theorem Passed.nil (sound : p.Sound m v) : Passed rule m v [] p p :=
  ⟨sound, id, by simp⟩

theorem Passed.cons {r : PivotSearch} {ks : List Nat} (head : Passed rule m v [j] p q)
    (tail : Passed rule m v ks q r) : Passed rule m v (j :: ks) p r where
  sound := tail.sound
  kept none := head.kept (tail.kept none)
  barren none k hk := by
    rcases List.mem_cons.mp hk with rfl | rest
    · exact head.barren (tail.kept none) k List.mem_cons_self
    · exact tail.barren none k rest

theorem Passed.ended {ks : List Nat} (sound : q.Sound m v) (ended : q.finished = true) :
    Passed rule m v ks p q where
  sound := sound
  kept none := absurd none (sound.ended ended)
  barren none := absurd none (sound.ended ended)

/-! ### Columns -/

theorem scanColumnEntries_cons (h : a.Shows m capacity v) (hi : i < m) (tolerance x : α)
    (rest : List (Nat × α)) : scanColumnEntries rule a count j tolerance ((i, x) :: rest) p =
      if Scalar.abs x < tolerance then scanColumnEntries rule a count j tolerance rest p
      else
        let cost := costOf count (v.rows i).length
        if p.improves cost then
          let p := p.accept ⟨i, j, cost⟩ ((count - 1) * (count - 1)) rule.searchRows
          if p.finished then .ok p
          else scanColumnEntries rule a count j tolerance rest p
        else scanColumnEntries rule a count j tolerance rest p := by
  rw [scanColumnEntries, h.rows.length_eq hi]
  rfl

theorem scanColumnEntries_ok (consistent : v.Consistent m rowsDone colsDone) (hj : j < m)
    {tolerance : α} {entries : List (Nat × α)} (subset : ∀ e ∈ entries, e ∈ v.cols j)
    (sound : p.Sound m v) :
    ∃ q, q.Sound m v ∧
      (q.best = none → p.best = none ∧ ∀ e ∈ entries, Scalar.abs e.2 < tolerance) ∧
      ∀ {capacity : Nat} {a : Active α}, a.Shows m capacity v →
        scanColumnEntries rule a count j tolerance entries p = .ok q := by
  induction entries generalizing p with
  | nil => exact ⟨p, sound, fun none => ⟨none, by simp⟩, fun _ => rfl⟩
  | cons e rest ih =>
    obtain ⟨i, x⟩ := e
    have below := fun e he => subset e (List.mem_cons_of_mem _ he)
    have member : i ∈ keys (v.cols j) :=
      List.mem_map_of_mem (f := Prod.fst) (subset (i, x) List.mem_cons_self)
    have hi := (consistent.colRange j hj i member).1
    by_cases small : Scalar.abs x < tolerance
    · obtain ⟨q, sound', none', run⟩ := ih below sound
      refine ⟨q, sound', fun none => ⟨(none' none).1, ?_⟩, fun h => ?_⟩
      · exact List.forall_mem_cons.mpr ⟨small, (none' none).2⟩
      · rw [scanColumnEntries_cons h hi, if_pos small, run h]
    · let best := p.accept ⟨i, j, costOf count (v.rows i).length⟩ ((count - 1) * (count - 1))
        rule.searchRows
      have accepted : best.Sound m v := sound_accept p _ rule.searchRows hj member
      have none_ : best.best ≠ none := Option.some_ne_none _
      by_cases better : p.improves (costOf count (v.rows i).length) = true
      · by_cases ended : best.finished = true
        · refine ⟨best, accepted, fun none => absurd none none_, fun h => ?_⟩
          rw [scanColumnEntries_cons h hi, if_neg small]
          dsimp only
          rw [if_pos better, if_pos ended]
        · obtain ⟨q, sound', none', run⟩ := ih below accepted
          refine ⟨q, sound', fun none => absurd (none' none).1 none_, fun h => ?_⟩
          rw [scanColumnEntries_cons h hi, if_neg small]
          dsimp only
          rw [if_pos better, if_neg ended, run h]
      · obtain ⟨q, sound', none', run⟩ := ih below sound
        refine ⟨q, sound', fun none => absurd (improves_of_none (none' none).1 _) better, fun h => ?_⟩
        rw [scanColumnEntries_cons h hi, if_neg small]
        dsimp only
        rw [if_neg better, run h]

theorem entry_colMax (h : a.Shows m capacity v) (sized : v.colMax.size = m) (hj : j < m) :
    entry a.colMax j = .ok (v.maximum j) := by
  rw [entry_getD 0 (by rw [h.colMax, sized]; exact hj), h.colMax]
  rfl

/-- The column is passed over if its largest magnitude is too small. -/
def passedOver (rule : SearchRule α) (v : ActiveView α) (j : Nat) : Bool :=
  v.maximum j == 0 || v.maximum j < rule.absoluteTolerance

theorem scanColumn_eq (h : a.Shows m capacity v) (sized : v.colMax.size = m) (hj : j < m) :
    scanColumn rule a count j p =
      if passedOver rule v j then .ok p
      else (scanColumnEntries rule a count j (Scalar.max rule.absoluteTolerance
        (rule.relativeTolerance * v.maximum j)) (v.cols j) p).map fun q =>
          if q.finished then q else q.countLine rule := by
  rw [scanColumn, entry_colMax h sized hj, checked_ok_bind, h.cols.line_eq hj]
  rfl

theorem scanColumn_ok (consistent : v.Consistent m rowsDone colsDone) (hj : j < m)
    (sound : p.Sound m v) : ∃ q, Passed rule m v [j] p q ∧
      ∀ {capacity : Nat} {a : Active α}, a.Shows m capacity v → scanColumn rule a count j p = .ok q := by
  by_cases passed : passedOver rule v j = true
  · refine ⟨p, ⟨sound, id, fun _ k hk => ?_⟩, fun h => ?_⟩
    · rw [List.mem_singleton.mp hk]
      simp only [passedOver, Bool.or_eq_true, decide_eq_true_iff] at passed
      exact passed.imp_right Or.inl
    · rw [scanColumn_eq h consistent.sized hj, if_pos passed]
  · obtain ⟨q, sound', none', run⟩ := @scanColumnEntries_ok _ _ _ _ count _ rule p _ _ consistent hj
      (Scalar.max rule.absoluteTolerance (rule.relativeTolerance * v.maximum j)) _
      (fun e he => he) sound
    have barren : q.best = none → ∀ k ∈ [j], Barren rule v k := by
      intro none k hk
      rw [List.mem_singleton.mp hk]
      exact .inr (.inr (none' none).2)
    refine ⟨if q.finished then q else q.countLine rule, ?_, fun h => ?_⟩
    · split
      · exact ⟨sound', fun none => (none' none).1, barren⟩
      · exact ⟨sound'.countLine, fun none => (none' none).1, barren⟩
    · rw [scanColumn_eq h consistent.sized hj, if_neg passed, run h]
      rfl

theorem scanColumns_cons (h : a.Shows m capacity v) (inCount : count < m + 2)
    {front back : List Nat} (split : v.colLists count = front ++ j :: back) :
    scanColumns rule a count (fuel + 1) (j :: back).head? p =
      scanColumn rule a count j p >>= fun q =>
        if q.finished then .ok q else scanColumns rule a count fuel back.head? q := by
  rw [List.head?_cons, scanColumns, h.colLists.following_eq (by rwa [h.colLength]) split]
  rfl

theorem scanColumns_ok (consistent : v.Consistent m rowsDone colsDone) (inCount : count < m + 2)
    {front back : List Nat} (split : v.colLists count = front ++ back)
    (enough : back.length ≤ fuel) (sound : p.Sound m v) :
    ∃ q, Passed rule m v back p q ∧ ∀ {capacity : Nat} {a : Active α}, a.Shows m capacity v →
      scanColumns rule a count fuel back.head? p = .ok q := by
  induction fuel generalizing front back p with
  | zero =>
    have empty := List.eq_nil_of_length_eq_zero (Nat.le_zero.mp enough)
    subst empty
    exact ⟨p, .nil sound, fun _ => rfl⟩
  | succ fuel ih =>
    cases back with
    | nil => exact ⟨p, .nil sound, fun _ => rfl⟩
    | cons j back =>
      have hj : j < m := (((consistent.colListed count inCount).2 j).mp (by simp [split])).1
      obtain ⟨q, passed, run⟩ := @scanColumn_ok _ _ _ _ count _ rule _ _ _ consistent hj sound
      by_cases ended : q.finished = true
      · exact ⟨q, .ended passed.sound ended, fun h => by
          rw [scanColumns_cons h inCount split, run h, checked_ok_bind, if_pos ended]⟩
      · obtain ⟨r, passed', run'⟩ := @ih _ (front ++ [j]) back (by simpa using split)
          (by simpa using enough) passed.sound
        exact ⟨r, passed.cons passed', fun h => by
          rw [scanColumns_cons h inCount split, run h, checked_ok_bind, if_neg ended, run' h]⟩

/-! ### Rows -/

/-- Whether the entry at row `i` of column `j` is accepted in a search along its row. -/
def accepts (rule : SearchRule α) (v : ActiveView α) (i j : Nat) : Bool :=
  let x := ((((v.cols j).find? (·.1 == i)).map Prod.snd).map Scalar.abs).getD 0
  if passedOver rule v j then false
  else decide (rule.absoluteTolerance ≤ x) &&
    decide (rule.relativeTolerance * v.maximum j ≤ x)

theorem eligible_eq (h : a.Shows m capacity v) (sized : v.colMax.size = m) (hj : j < m) :
    eligible rule a i j = .ok (accepts rule v i j) := by
  rw [eligible, entry_colMax h sized hj, checked_ok_bind]
  unfold accepts passedOver
  dsimp only
  split
  · rfl
  · unfold Active.value?
    rw [h.cols.line_eq hj]
    rfl

theorem scanRowEntries_cons (h : a.Shows m capacity v) (sized : v.colMax.size = m) (hj : j < m)
    (rest : List Nat) (r : RowScan) : scanRowEntries rule a count i (j :: rest) r =
      let cost := costOf count (v.cols j).length
      if r.search.improves cost then
        if accepts rule v i j then
          let p := r.search.accept ⟨i, j, cost⟩ (count * (count - 1)) true
          if p.finished then .ok ⟨p, true, true⟩
          else scanRowEntries rule a count i rest ⟨p, true, true⟩
        else scanRowEntries rule a count i rest { r with cheap := true }
      else scanRowEntries rule a count i rest r := by
  rw [scanRowEntries, h.cols.length_eq hj, checked_ok_bind]
  dsimp only
  rw [eligible_eq h sized hj]
  rfl

theorem scanRowEntries_ok (consistent : v.Consistent m rowsDone colsDone) (hi : i < m)
    {entries : List Nat} (subset : ∀ j ∈ entries, j ∈ v.rows i) {r : RowScan}
    (sound : r.search.Sound m v) :
    ∃ r' : RowScan, r'.search.Sound m v ∧ (r'.search.best = none → r.search.best = none) ∧
      (entries = [] → r' = r) ∧ ∀ {capacity : Nat} {a : Active α}, a.Shows m capacity v →
        scanRowEntries rule a count i entries r = .ok r' := by
  induction entries generalizing r with
  | nil => exact ⟨r, sound, id, fun _ => rfl, fun _ => rfl⟩
  | cons j rest ih =>
    have below := fun k hk => subset k (List.mem_cons_of_mem j hk)
    have hj := (consistent.rowRange i hi j (subset j List.mem_cons_self)).1
    have member := (consistent.agree i hi j hj).mp (subset j List.mem_cons_self)
    have sized := consistent.sized
    by_cases better : r.search.improves (costOf count (v.cols j).length) = true
    · by_cases accepted : accepts rule v i j = true
      · let best := r.search.accept ⟨i, j, costOf count (v.cols j).length⟩ (count * (count - 1)) true
        have sound' : best.Sound m v := sound_accept r.search _ true hj member
        have none_ : best.best ≠ none := Option.some_ne_none _
        by_cases ended : best.finished = true
        · refine ⟨⟨best, true, true⟩, sound', fun none => absurd none none_, by simp, fun h => ?_⟩
          rw [scanRowEntries_cons h sized hj]
          dsimp only
          rw [if_pos better, if_pos accepted, if_pos ended]
        · obtain ⟨r', sound'', none', -, run⟩ := ih (r := ⟨best, true, true⟩) below sound'
          refine ⟨r', sound'', fun none => absurd (none' none) none_, by simp, fun h => ?_⟩
          rw [scanRowEntries_cons h sized hj]
          dsimp only
          rw [if_pos better, if_pos accepted, if_neg ended, run h]
      · obtain ⟨r', sound', none', -, run⟩ := ih (r := { r with cheap := true }) below sound
        refine ⟨r', sound', none', by simp, fun h => ?_⟩
        rw [scanRowEntries_cons h sized hj]
        dsimp only
        rw [if_pos better, if_neg accepted, run h]
    · obtain ⟨r', sound', none', -, run⟩ := ih below sound
      refine ⟨r', sound', none', by simp, fun h => ?_⟩
      rw [scanRowEntries_cons h sized hj]
      dsimp only
      rw [if_neg better, run h]

end PivotSearch

/-! ### Lists of rows -/

namespace ActiveView

def moveRow (v : ActiveView α) (i list : Nat) : ActiveView α :=
  { v with rowLists := relisted v.rowLists i list }

theorem sameEntries_moveRow (v : ActiveView α) (i list : Nat) : v.SameEntries (v.moveRow i list) :=
  rfl

theorem AsideFilled.moveRow {list : Nat} (h : v.AsideFilled m)
    (filled : list = m + 1 → v.rows i ≠ []) : (v.moveRow i list).AsideFilled m := by
  intro k aside
  simp only [ActiveView.moveRow, relisted, CountLists.appended] at aside ⊢
  split at aside
  · rcases List.mem_append.mp aside with before | moved
    · exact h k (List.mem_of_mem_erase before)
    · rw [List.mem_singleton.mp moved]
      exact filled (Eq.symm ‹_›)
  · exact h k (List.mem_of_mem_erase aside)

theorem Consistent.moveRow {list : Nat} (h : v.Consistent m rowsDone colsDone)
    (hi : i < m) (free : i ∉ rowsDone) (fits : list = (v.rows i).length ∨ list = m + 1) :
    (v.moveRow i list).Consistent m rowsDone colsDone :=
  { h with
    rowListed := by
      obtain ⟨lists, lengths, listed⟩ := h.rowListed
      refine ⟨fun k => if k = i then list else lists k, fun k hk => ?_,
        (listed.relist hi).congr fun e _ n _ => ?_⟩
      · by_cases same : k = i
        · simpa [same, ActiveView.moveRow] using fits
        · simpa [same, ActiveView.moveRow] using lengths k hk
      · by_cases same : e = i
        · simp [same, free]
        · simp [same] }

theorem Consistent.mem_rowLists (h : v.Consistent m rowsDone colsDone) {n : Nat} (hn : n < m + 2)
    (member : i ∈ v.rowLists n) : i < m ∧ i ∉ rowsDone := by
  obtain ⟨lists, -, listed⟩ := h.rowListed
  obtain ⟨hi, free, -⟩ := ((listed n hn).2 i).mp member
  exact ⟨hi, free⟩

theorem Consistent.length_of_mem_rowLists (h : v.Consistent m rowsDone colsDone) (inCount : count ≤ m)
    (member : i ∈ v.rowLists count) : i < m ∧ i ∉ rowsDone ∧ (v.rows i).length = count := by
  obtain ⟨list, place, listed⟩ := h.rowListed
  obtain ⟨hi, free, rfl⟩ := ((listed count (by omega)).2 i).mp member
  exact ⟨hi, free, by rcases place i hi with eq | eq <;> omega⟩

theorem Consistent.mem_rowLists_or (h : v.Consistent m rowsDone colsDone) (hi : i < m)
    (free : i ∉ rowsDone) : i ∈ v.rowLists (v.rows i).length ∨ i ∈ v.rowLists (m + 1) := by
  obtain ⟨list, place, listed⟩ := h.rowListed
  have short := h.row_length_le hi
  rcases place i hi with eq | eq
  · exact .inl (((listed _ (by omega)).2 i).mpr ⟨hi, free, eq.symm⟩)
  · exact .inr (((listed _ (by omega)).2 i).mpr ⟨hi, free, eq.symm⟩)

theorem Consistent.not_mem_last (h : v.Consistent m rowsDone colsDone) (inCount : count ≤ m)
    (member : i ∈ v.rowLists count) : i ∉ v.rowLists (m + 1) := by
  obtain ⟨list, -, listed⟩ := h.rowListed
  intro last
  have here := (((listed count (by omega)).2 i).mp member).2.2
  have there := (((listed (m + 1) (by omega)).2 i).mp last).2.2
  omega

theorem Consistent.nodup_rowLists (h : v.Consistent m rowsDone colsDone) {n : Nat}
    (hn : n < m + 2) : (v.rowLists n).Nodup := by
  obtain ⟨lists, -, listed⟩ := h.rowListed
  exact (listed n hn).1

theorem Consistent.length_colLists_le (h : v.Consistent m rowsDone colsDone) {n : Nat}
    (hn : n < m + 2) : (v.colLists n).length ≤ m := by
  obtain ⟨nodup, member⟩ := h.colListed n hn
  have subset : v.colLists n ⊆ List.range m := fun j hj => List.mem_range.mpr ((member j).mp hj).1
  simpa using (nodup.subperm subset).length_le

theorem Consistent.length_rowLists_le (h : v.Consistent m rowsDone colsDone) {n : Nat}
    (hn : n < m + 2) : (v.rowLists n).length ≤ m := by
  have subset : v.rowLists n ⊆ List.range m := fun i hi =>
    List.mem_range.mpr (h.mem_rowLists hn hi).1
  simpa using ((h.nodup_rowLists hn).subperm subset).length_le

end ActiveView

namespace PivotSearch

theorem scanRow_eq (h : a.Shows m capacity v) (hi : i < m) {r : RowScan}
    (run : scanRowEntries rule a count i (v.rows i) ⟨p, false, false⟩ = .ok r) :
    scanRow rule (m + 1) count i p a =
      (if r.search.finished then pure r.search
      else if r.cheap && !r.found then do
        Active.onRowCounts (CountLists.moveTo i (m + 1))
        return r.search
      else pure (r.search.countLine rule) : Action (Active α) PivotSearch) a := by
  rw [scanRow, get_bind, h.rows.line_eq hi, lift_ok_bind, run, lift_ok_bind]

theorem scanRow_ok (consistent : v.Consistent m rowsDone colsDone) (hi : i < m)
    (sound : p.Sound m v) :
    ∃ q w, (w = v ∨ v.rows i ≠ [] ∧ w = v.moveRow i (m + 1)) ∧ q.Sound m v ∧
      (q.best = none → p.best = none) ∧ ∀ {capacity : Nat} {a : Active α}, a.Shows m capacity v →
        ∃ b, scanRow rule (m + 1) count i p a = .ok q b ∧ b.Shows m capacity w := by
  obtain ⟨r, sound', none', cheap, run⟩ := @scanRowEntries_ok _ _ _ _ count v rule _ _ consistent hi _
    (fun j hj => hj) ⟨p, false, false⟩ sound
  by_cases ended : r.search.finished = true
  · exact ⟨r.search, v, .inl rfl, sound', none', fun {_ a} h =>
      ⟨a, by rw [scanRow_eq h hi (run h), if_pos ended]; rfl, h⟩⟩
  · by_cases aside : (r.cheap && !r.found) = true
    · have filled : v.rows i ≠ [] := fun empty => by simp [cheap empty] at aside
      refine ⟨r.search, _, .inr ⟨filled, rfl⟩, sound', none', fun h => ?_⟩
      obtain ⟨c, moved, shows⟩ := h.moveRow hi (n := m + 1) (by omega)
      refine ⟨_, ?_, shows⟩
      rw [scanRow_eq h hi (run h), if_neg ended, if_pos aside,
        bind_of_ok (Active.onRowCounts_run moved)]
      rfl
    · exact ⟨r.search.countLine rule, v, .inl rfl, sound'.countLine, none', fun {_ a} h =>
        ⟨a, by rw [scanRow_eq h hi (run h), if_neg ended, if_neg aside]; rfl, h⟩⟩

theorem scanRows_cons {a b : Active α} (h : a.Shows m capacity v)
    (inCount : count < m + 2) {front back : List Nat}
    (split : v.rowLists count = front ++ i :: back)
    (run : scanRow rule (m + 1) count i p a = .ok q b) :
    scanRows rule (m + 1) count (fuel + 1) (i :: back).head? p a =
      (if q.finished then pure q
      else scanRows rule (m + 1) count fuel back.head? q : Action (Active α) PivotSearch) b := by
  rw [List.head?_cons, scanRows, get_bind,
    h.rowLists.following_eq (by rwa [h.rowLength]) split, lift_ok_bind, bind_of_ok run]

theorem scanRows_ok (consistent : v.Consistent m rowsDone colsDone) (inCount : count ≤ m)
    {front back : List Nat} (split : v.rowLists count = front ++ back)
    (enough : back.length ≤ fuel) (sound : p.Sound m v) :
    ∃ q w, v.SameEntries w ∧ (v.AsideFilled m → w.AsideFilled m) ∧
      w.Consistent m rowsDone colsDone ∧ q.Sound m v ∧ (q.best = none → p.best = none) ∧
      ∀ {capacity : Nat} {a : Active α}, a.Shows m capacity v →
        ∃ b, scanRows rule (m + 1) count fuel back.head? p a = .ok q b ∧ b.Shows m capacity w := by
  induction fuel generalizing front back p v with
  | zero =>
    have empty := List.eq_nil_of_length_eq_zero (Nat.le_zero.mp enough)
    subst empty
    exact ⟨p, v, .refl v, id, consistent, sound, id, fun {_ a} h => ⟨a, rfl, h⟩⟩
  | succ fuel ih =>
    cases back with
    | nil => exact ⟨p, v, .refl v, id, consistent, sound, id, fun {_ a} h => ⟨a, rfl, h⟩⟩
    | cons i back =>
      obtain ⟨hi, free⟩ := consistent.mem_rowLists (i := i) (n := count) (by omega) (by rw [split]; simp)
      have nodup := consistent.nodup_rowLists (n := count) (by omega)
      obtain ⟨q, w, relisting, sound', none', run⟩ :=
        @scanRow_ok _ _ _ _ count v rule _ _ _ consistent hi sound
      have same : v.SameEntries w := by
        rcases relisting with eq | ⟨-, eq⟩ <;> rw [eq]
        · exact .refl v
        · exact v.sameEntries_moveRow i (m + 1)
      have aside : v.AsideFilled m → w.AsideFilled m := by
        rcases relisting with eq | ⟨filled, eq⟩ <;> rw [eq]
        · exact id
        · exact fun before => before.moveRow fun _ => filled
      have consistent' : w.Consistent m rowsDone colsDone := by
        rcases relisting with eq | ⟨-, eq⟩ <;> rw [eq]
        · exact consistent
        · exact consistent.moveRow hi free (.inr rfl)
      by_cases ended : q.finished = true
      · refine ⟨q, w, same, aside, consistent', sound', none', fun h => ?_⟩
        obtain ⟨b, run, shows⟩ := run h
        exact ⟨b, by rw [scanRows_cons h (by omega) split run, if_pos ended]; rfl, shows⟩
      · obtain ⟨front', split'⟩ : ∃ front', w.rowLists count = front' ++ back := by
          rcases relisting with eq | ⟨-, eq⟩ <;> rw [eq]
          · exact ⟨front ++ [i], by simpa using split⟩
          · refine ⟨front, ?_⟩
            have apart : i ∉ front := fun h => by
              rw [split] at nodup
              exact (List.nodup_append.mp nodup).2.2 i h i List.mem_cons_self rfl
            simp only [ActiveView.moveRow, relisted, CountLists.appended]
            rw [if_neg (by omega), split, List.erase_append_right _ apart, List.erase_cons_head]
        obtain ⟨r, u, same', aside', consistent'', sound'', none'', run'⟩ :=
          ih consistent' split' (by simpa using enough) (sound'.of_entries same.cols)
        refine ⟨r, u, same.trans same', aside' ∘ aside, consistent'', sound''.of_entries same.cols.symm,
          fun none => none' (none'' none), fun h => ?_⟩
        obtain ⟨b, run, shows⟩ := run h
        obtain ⟨c, run', shows'⟩ := run' shows
        exact ⟨c, by rw [scanRows_cons h (by omega) split run, if_neg ended, run'], shows'⟩

/-! ### All counts -/

theorem barren_of_same (same : v.SameEntries w) (h : Barren rule w j) : Barren rule v j := by
  unfold Barren at *
  rwa [same.cols, same.colMax] at h

/-- The columns with at least `low` and less than `high` entries are barren. -/
def BarrenBetween (rule : SearchRule α) (v : ActiveView α) (m : Nat) (colsDone : List Nat)
    (low high : Nat) : Prop :=
  ∀ j < m, j ∉ colsDone → low ≤ (v.cols j).length → (v.cols j).length < high → Barren rule v j

theorem barrenBetween_of_list {high : Nat} (listed : ∀ j, j ∈ v.colLists count ↔
      j < m ∧ j ∉ colsDone ∧ count = (v.cols j).length)
    (here : ∀ j ∈ v.colLists count, Barren rule v j) (same : v.SameEntries w)
    (rest : BarrenBetween rule w m colsDone (count + 1) high) :
    BarrenBetween rule v m colsDone count high := by
  intro j hj free low below
  by_cases first : (v.cols j).length = count
  · exact here j ((listed j).mpr ⟨hj, free, first.symm⟩)
  · refine barren_of_same same (rest j hj free ?_ ?_) <;> rw [same.cols]
    · omega
    · exact below

/-- The search in the lists of one count, and behind it in those of the next ones. -/
theorem scanCounts_succ {remaining : Nat} {q : PivotSearch} {capacity : Nat} {a : Active α}
    (h : a.Shows m capacity v) (inCount : count < m + 2)
    (run : scanColumns rule a count m (v.colLists count).head? p = .ok q) :
    scanCounts rule m (remaining + 1) count p a =
      (if q.finished then pure q
      else if rule.searchRows then do
        let q ← scanRows rule (m + 1) count m (v.rowLists count).head? q
        if q.finished then return q
        scanCounts rule m remaining (count + 1) q
      else scanCounts rule m remaining (count + 1) q : Action (Active α) PivotSearch) a := by
  rw [scanCounts, get_bind, h.colLists.first_eq (by rwa [h.colLength]), lift_ok_bind, run,
    lift_ok_bind]
  split
  · rfl
  · split
    · rw [get_bind, h.rowLists.first_eq (by rwa [h.rowLength]), lift_ok_bind]
    · rfl

theorem scanCounts_ok {remaining : Nat} (consistent : v.Consistent m rowsDone colsDone)
    (inCounts : count + remaining ≤ m + 1) (sound : p.Sound m v) :
    ∃ q w, v.SameEntries w ∧ (v.AsideFilled m → w.AsideFilled m) ∧
      w.Consistent m rowsDone colsDone ∧ q.Sound m v ∧
      (q.best = none → p.best = none ∧ BarrenBetween rule v m colsDone count (count + remaining)) ∧
      ∀ {capacity : Nat} {a : Active α}, a.Shows m capacity v →
        ∃ b, scanCounts rule m remaining count p a = .ok q b ∧ b.Shows m capacity w := by
  induction remaining generalizing v p count with
  | zero =>
    exact ⟨p, v, .refl v, id, consistent, sound, fun none =>
      ⟨none, fun j _ _ low high => absurd high (by omega)⟩, fun {_ a} h => ⟨a, rfl, h⟩⟩
  | succ remaining ih =>
    have inCount : count < m + 2 := by omega
    have listed := (consistent.colListed count inCount).2
    obtain ⟨q, passed, run⟩ := @scanColumns_ok _ _ _ _ _ _ rule _ _ _ consistent inCount [] _ rfl
      (consistent.length_colLists_le inCount) sound
    rw [show count + (remaining + 1) = count + 1 + remaining by omega]
    by_cases ended : q.finished = true
    · refine ⟨q, v, .refl v, id, consistent, passed.sound,
        fun none => absurd none (passed.sound.ended ended), fun {_ a} h => ⟨a, ?_, h⟩⟩
      rw [scanCounts_succ h inCount (run h), if_pos ended]
      rfl
    by_cases rows : rule.searchRows = true
    · obtain ⟨r, w, same, aside, consistent', sound', none', run'⟩ := @scanRows_ok _ _ _ _ _ _ rule _ _ _
        consistent (by omega) [] _ rfl (consistent.length_rowLists_le inCount) passed.sound
      by_cases ended' : r.finished = true
      · refine ⟨r, w, same, aside, consistent', sound', fun none => absurd none (sound'.ended ended'),
          fun h => ?_⟩
        obtain ⟨b, run', shows⟩ := run' h
        refine ⟨b, ?_, shows⟩
        rw [scanCounts_succ h inCount (run h), if_neg ended, if_pos rows, bind_of_ok run',
          if_pos ended']
        rfl
      · obtain ⟨s, u, same', aside', consistent'', sound'', none'', run''⟩ :=
          @ih (count + 1) _ _ consistent' (by omega) (sound'.of_entries same.cols)
        refine ⟨s, u, same.trans same', aside' ∘ aside, consistent'',
          sound''.of_entries same.cols.symm, fun none => ?_, fun h => ?_⟩
        · obtain ⟨noneRows, rest⟩ := none'' none
          exact ⟨passed.kept (none' noneRows),
            barrenBetween_of_list listed (passed.barren (none' noneRows)) same rest⟩
        · obtain ⟨b, run', shows⟩ := run' h
          obtain ⟨c, run'', shows'⟩ := run'' shows
          refine ⟨c, ?_, shows'⟩
          rw [scanCounts_succ h inCount (run h), if_neg ended, if_pos rows, bind_of_ok run',
            if_neg ended', run'']
    · obtain ⟨s, u, same', aside', consistent'', sound'', none'', run''⟩ :=
        @ih (count + 1) _ _ consistent (by omega) passed.sound
      refine ⟨s, u, same', aside', consistent'', sound'', fun none => ?_, fun h => ?_⟩
      · obtain ⟨noneColumns, rest⟩ := none'' none
        exact ⟨passed.kept noneColumns,
          barrenBetween_of_list listed (passed.barren noneColumns) (.refl v) rest⟩
      · rw [scanCounts_succ h inCount (run h), if_neg ended, if_neg rows]
        exact run'' h

/-- A count, if it is at most `m`. -/
def within (m : Nat) : Option Nat → Nat
  | some c => if c ≤ m then c else m + 1
  | none => m + 1

theorem within_le (m : Nat) (count : Option Nat) : within m count ≤ m + 1 := by
  rcases count with _ | c
  · exact Nat.le_refl _
  · rw [within]
    split <;> omega

theorem within_firstIn_le {L : Nat → List Nat} {e n : Nat} (hn : n ≤ m) (pos : 0 < n)
    (member : e ∈ L n) : within m (CountLists.firstIn (m + 2) L) ≤ n := by
  obtain ⟨k, found, low⟩ := CountLists.exists_firstIn (n := m + 2) (by omega) pos
    (List.ne_nil_of_mem member)
  rw [found, within, if_pos (by omega)]
  exact low

theorem leastCount_ok (consistent : v.Consistent m rowsDone colsDone) :
    ∃ n ≤ m + 1, (∀ j < m, j ∉ colsDone → 0 < (v.cols j).length → n ≤ (v.cols j).length) ∧
      (rule.searchRows = true → ∀ i < m, i ∉ rowsDone → 0 < (v.rows i).length →
        i ∉ v.rowLists (m + 1) → n ≤ (v.rows i).length) ∧
      ∀ {capacity : Nat} {a : Active α}, a.Shows m capacity v →
        ∃ b, leastCount rule m a = .ok n b ∧ b.Shows m capacity v := by
  let cols := CountLists.firstIn (m + 2) v.colLists
  let rows := if rule.searchRows then CountLists.firstIn (m + 2) v.rowLists else none
  refine ⟨min (within m cols) (within m rows),
    Nat.le_trans (Nat.min_le_left _ _) (within_le m cols), fun j hj free filled => ?_,
    fun both i hi free filled listed => ?_, fun {capacity a} h => ?_⟩
  · have short := consistent.col_length_le hj
    have member : j ∈ v.colLists (v.cols j).length :=
      ((consistent.colListed _ (by omega)).2 j).mpr ⟨hj, free, rfl⟩
    exact Nat.le_trans (Nat.min_le_left _ _) (within_firstIn_le short filled member)
  · have member := (consistent.mem_rowLists_or hi free).resolve_right listed
    rw [show rows = _ from if_pos both]
    exact Nat.le_trans (Nat.min_le_right _ _)
      (within_firstIn_le (consistent.row_length_le hi) filled member)
  · obtain ⟨c, runCols, holds, elements, lists⟩ := h.colLists.leastNonempty
    have shows : { a with colCounts := c }.Shows m capacity v :=
      { h with
        colLists := holds
        colElements := elements.trans h.colElements
        colLength := lists.trans h.colLength }
    unfold leastCount
    rw [h.colLength] at runCols
    rw [bind_of_ok (Active.onColCounts_run runCols)]
    by_cases both : rule.searchRows = true
    · obtain ⟨d, runRows, holds, elements, lists⟩ := h.rowLists.leastNonempty
      rw [h.rowLength] at runRows
      rw [if_pos both, bind_of_ok (Active.onRowCounts_run (by exact runRows)), show rows = _ from if_pos both]
      exact ⟨_, rfl, { shows with
        rowLists := holds
        rowElements := elements.trans h.rowElements
        rowLength := lists.trans h.rowLength }⟩
    · rw [if_neg both, show rows = none from if_neg both]
      exact ⟨_, rfl, shows⟩

end PivotSearch

def Rules.searchRule (ρ : Rules α) : SearchRule α :=
  ⟨ρ.absoluteTolerance, ρ.relativeTolerance, max ρ.options.maxSearch 1, ρ.options.searchRows⟩

def Rules.relaxed (ρ : Rules α) : Rules α :=
  { ρ with
    absoluteTolerance := ρ.options.zeroTolerance
    relativeTolerance := Scalar.min ρ.options.relaxedPivotTolerance ρ.relativeTolerance }

/-- A search is counted, but no pivot. -/
def Tallies.SamePivots (c d : Tallies) : Prop :=
  d = { c with searched := d.searched, relaxed := d.relaxed }

theorem Tallies.SamePivots.trans {c d e : Tallies} (first : c.SamePivots d)
    (second : d.SamePivots e) : c.SamePivots e := by
  unfold SamePivots at *
  rw [second, first]

namespace SparseFactorization

variable {s t : SparseFactorization α} {stages : List (Stage α)} {ρ : Rules α} {p q r : Point α}
  {β γ : Type} {x : β} {y : γ}

/-- From every state at `p`, the action answers `x` in a state at `q`, which differs from `p` in the
lists of the rows and in the tallies only, sets no empty row aside and counts no pivot. -/
structure Passes (ρ : Rules α) (m : Nat) (p : Point α) (act : Action (SparseFactorization α) β)
    (x : β) (q : Point α) : Prop where
  stages : q.stages = p.stages
  same : p.view.SameEntries q.view
  aside : p.view.AsideFilled m → q.view.AsideFilled m
  counted : p.tallies.SamePivots q.tallies
  runs : ∀ s, At ρ m p s → ∃ t, act s = .ok x t ∧ At ρ m q t ∧ t.setup = s.setup

namespace Passes

theorem refl (ρ : Rules α) (m : Nat) (p : Point α) (x : β) : Passes ρ m p (pure x) x p :=
  ⟨rfl, .refl _, id, rfl, fun s here => ⟨s, rfl, here, rfl⟩⟩

theorem andThen {act : Action (SparseFactorization α) β} {next : β → Action (SparseFactorization α) γ}
    (first : Passes ρ m p act x q) (second : Passes ρ m q (next x) y r) :
    Passes ρ m p (act >>= next) y r where
  stages := second.stages.trans first.stages
  same := first.same.trans second.same
  aside := second.aside ∘ first.aside
  counted := first.counted.trans second.counted
  runs s here := by
    obtain ⟨t, run, there, setup⟩ := first.runs s here
    obtain ⟨u, run', there', setup'⟩ := second.runs t there
    exact ⟨u, (bind_of_ok run).trans run', there', setup'.trans setup⟩

theorem leads {act : Action (SparseFactorization α) β} (h : Passes ρ m p act x q) :
    Leads ρ m p act q (pure x) :=
  .step ⟨[], by rw [h.stages, List.append_nil], .relist .start h.same h.aside⟩ fun s here => by
    obtain ⟨t, run, there, setup⟩ := h.runs s here
    exact ⟨t, there, setup, run⟩

end Passes

theorem At.withActive (h : At ρ m p s) {a : Active α} (active : a.Shows m s.capacity.files w)
    (consistent : w.Consistent m (p.stages.map Stage.row) (p.stages.map Stage.col)) :
    At ρ m { p with view := w } { s with active := a } where
  working := { h.working with
    active := active
    consistent := consistent
    contained := h.working.contained.congr rfl rfl }
  rules := h.rules
  tallies := h.tallies

/-- What a search answers. -/
def Answer (rule : SearchRule α) (m : Nat) (v : ActiveView α) :
    Except Status (Option (Nat × Nat)) → Prop
  | .ok (some (i, j)) => j < m ∧ i ∈ keys (v.cols j)
  | .ok none => v.nonzeros = 0
  | .error _ => ∀ j < m, Barren rule v j ∨ v.cols j = []

theorem Answer.of_same {rule : SearchRule α} {answer : Except Status (Option (Nat × Nat))}
    (same : v.SameEntries w) (h : Answer rule m w answer) : Answer rule m v answer := by
  rcases answer with e | _ | ⟨i, j⟩
  · exact fun j hj => (h j hj).imp (PivotSearch.barren_of_same same) fun empty => by
      rwa [same.cols] at empty
  · change w.nonzeros = 0 at h
    rwa [same] at h
  · change j < m ∧ i ∈ keys (w.cols j) at h
    rwa [same.cols] at h

/-- What the search answers after a scan: the best entry, or why there is none. -/
def concludeSearch (best : Option Candidate) :
    Action (SparseFactorization α) (Except Status (Option (Nat × Nat))) := do
  match best with
  | some c => return .ok (some (c.row, c.col))
  | none =>
    if 0 < (← get).active.nonzeros then return .error .nearSingular else return .ok none

/-- The scan leads to a point at which only the conclusion is left. -/
theorem searchPivot_scans (consistent : p.Fits m) : ∃ (c : PivotSearch) (q : Point α),
    c.Sound m p.view ∧ (c.best = none → ∀ j < m, Barren ρ.searchRule p.view j ∨ p.view.cols j = []) ∧
      q.Fits m ∧ q.stages = p.stages ∧ p.view.SameEntries q.view ∧
      (p.view.AsideFilled m → q.view.AsideFilled m) ∧ p.tallies.SamePivots q.tallies ∧
      ∀ s, At ρ m p s → ∃ t, At ρ m q t ∧ t.setup = s.setup ∧
        searchPivot s = concludeSearch c.best t := by
  obtain ⟨n, small, least, -, runLeast⟩ :=
    @PivotSearch.leastCount_ok _ _ _ _ ρ.searchRule _ _ consistent
  obtain ⟨c, w, same, aside, consistent', sound, none', runSearch⟩ :=
    @PivotSearch.scanCounts_ok _ _ _ n _ ρ.searchRule _ _ _ (m + 1 - n) consistent
      (by omega) (PivotSearch.Sound.start (m := m) (v := p.view))
  refine ⟨c, ⟨p.stages, w, { p.tallies with searched := p.tallies.searched + c.searched }⟩, sound,
    fun found j hj => ?_, consistent', rfl, same, aside, rfl, fun s here => ?_⟩
  · by_cases empty : p.view.cols j = []
    · exact .inr empty
    · have filled : 0 < (p.view.cols j).length := List.length_pos_iff.mpr empty
      have free : j ∉ p.stages.map Stage.col := fun done => empty (consistent.col_done hj done)
      have short := consistent.col_length_le hj
      exact .inl ((none' found).2 j hj free (least j hj free filled) (by omega))
  · obtain ⟨a, least, shows⟩ := runLeast here.working.active
    obtain ⟨b, scanned, shows⟩ := runSearch shows
    have there := here.withActive shows consistent'
    refine ⟨{ s with
      active := b
      counters := { s.counters with searched := s.counters.searched + c.searched } },
      ⟨there.working.of_setup rfl rfl rfl rfl, there.rules, ?_⟩, rfl, ?_⟩
    · exact congrArg (fun c' : Tallies => { c' with searched := c'.searched + c.searched })
        here.tallies
    · rw [← here.working.dimension] at least scanned
      rewrite [searchPivot, get_bind, show s.searchRule = ρ.searchRule from
        congrArg Rules.searchRule here.rules, bind_of_ok (onActive_run least),
        bind_of_ok (onActive_run (by exact scanned)), bind_of_ok (updateCounters_run _)]
      rfl

theorem searchPivot_passes (consistent : p.Fits m) :
    ∃ answer q, Passes ρ m p searchPivot answer q ∧ q.Fits m ∧
      Answer ρ.searchRule m p.view answer := by
  obtain ⟨c, q, sound, barren, fits, stages, same, aside, counted, search⟩ :=
    @searchPivot_scans _ _ m ρ p consistent
  have passes : ∀ answer, (∀ t, At ρ m q t → concludeSearch c.best t = .ok answer t) →
      Passes ρ m p searchPivot answer q := by
    intro answer concludes
    refine ⟨stages, same, aside, counted, fun s here => ?_⟩
    obtain ⟨t, there, setup, run⟩ := search s here
    exact ⟨t, run.trans (concludes t there), there, setup⟩
  rcases found : c.best with _ | best
  · have concludes : ∀ t, At ρ m q t → concludeSearch c.best t =
        (if 0 < q.view.nonzeros then return .error .nearSingular else return .ok none :
          Action (SparseFactorization α) (Except Status (Option (Nat × Nat)))) t := by
      intro t there
      rw [found]
      dsimp only [concludeSearch]
      rw [get_bind, there.working.active.nonzeros]
    by_cases left : 0 < q.view.nonzeros
    · exact ⟨.error .nearSingular, q, passes _ fun t there =>
        (concludes t there).trans (congrFun (if_pos left) t), fits, barren found⟩
    · refine ⟨.ok none, q, passes _ fun t there =>
        (concludes t there).trans (congrFun (if_neg left) t), fits, ?_⟩
      have nonzeros : q.view.nonzeros = p.view.nonzeros := by rw [same]
      rw [nonzeros] at left
      exact Nat.eq_zero_of_not_pos left
  · refine ⟨.ok (some (best.row, best.col)), q, passes _ fun t _ => ?_, fits, sound.entry best found⟩
    rw [found]
    rfl

/-! ### Rows set aside -/

theorem asideFilled_of_nil (none_ : v.rowLists (m + 1) = []) : v.AsideFilled m := by
  simp [ActiveView.AsideFilled, none_]

theorem last_eq_nil (consistent : v.Consistent m rowsDone colsDone) (filled : v.AsideFilled m)
    (none_ : v.nonzeros = 0) : v.rowLists (m + 1) = [] := by
  rw [List.eq_nil_iff_forall_not_mem]
  intro i aside
  obtain ⟨hi, -⟩ := consistent.mem_rowLists (n := m + 1) (by omega) aside
  obtain ⟨j, member⟩ := List.exists_mem_of_ne_nil _ (filled i aside)
  obtain ⟨hj, -⟩ := consistent.rowRange i hi j member
  obtain ⟨x, entry⟩ := consistent.exists_value hi member
  have some := List.length_pos_of_mem entry
  have few := length_le_entryCount v.cols hj
  have counted := consistent.counted
  omega

theorem restoreFrom_passes (consistent : p.Fits m)
    (enough : (p.view.rowLists (m + 1)).length < fuel) :
    ∃ q, Passes ρ m p (restoreFrom fuel) () q ∧ q.Fits m ∧ q.view.rowLists (m + 1) = [] := by
  induction fuel generalizing p with
  | zero => omega
  | succ fuel ih =>
    rcases content : p.view.rowLists (m + 1) with _ | ⟨i, rest⟩
    · refine ⟨p, ⟨rfl, .refl _, id, rfl, fun s here => ⟨s, ?_, here, rfl⟩⟩, consistent, content⟩
      rw [restoreFrom, get_bind, here.working.dimension,
        here.working.active.rowLists.first_eq (by rw [here.working.active.rowLength]; omega),
        lift_ok_bind, content]
      rfl
    · obtain ⟨hi, free⟩ := consistent.mem_rowLists (i := i) (n := m + 1) (by omega) (by simp [content])
      have short := consistent.row_length_le hi
      have consistent' := consistent.moveRow hi free (.inl rfl)
      have left : (p.view.moveRow i (p.view.rows i).length).rowLists (m + 1) = rest := by
        simp only [ActiveView.moveRow, relisted, CountLists.appended]
        rw [if_neg (by omega), content, List.erase_cons_head]
      obtain ⟨q, rest', consistent'', empty⟩ :=
        @ih { p with view := p.view.moveRow i (p.view.rows i).length } consistent' (by
          rw [content, List.length_cons] at enough
          rw [left]
          omega)
      refine ⟨q, ⟨rest'.stages, (p.view.sameEntries_moveRow i _).trans rest'.same,
        fun _ => asideFilled_of_nil empty, rest'.counted, fun s here => ?_⟩, consistent'', empty⟩
      obtain ⟨c, moved, shows⟩ := here.working.active.moveRow hi (n := (p.view.rows i).length) (by omega)
      obtain ⟨t, run, there, setup⟩ := rest'.runs _ (here.withActive (by exact shows) (by exact consistent'))
      refine ⟨t, ?_, there, setup⟩
      rw [restoreFrom, get_bind, here.working.dimension,
        here.working.active.rowLists.first_eq (by rw [here.working.active.rowLength]; omega),
        lift_ok_bind, content, List.head?_cons]
      dsimp only
      rw [here.working.active.rows.length_eq hi, lift_ok_bind,
        bind_of_ok (onActive_run (Active.onRowCounts_run moved))]
      exact run

theorem restoreRejected_passes (consistent : p.Fits m) :
    ∃ q, Passes ρ m p restoreRejected () q ∧ q.Fits m ∧ q.view.rowLists (m + 1) = [] := by
  have subset : p.view.rowLists (m + 1) ⊆ List.range m := fun i hi =>
    List.mem_range.mpr (consistent.mem_rowLists (n := m + 1) (by omega) hi).1
  have short := ((consistent.nodup_rowLists (n := m + 1) (by omega)).subperm subset).length_le
  rw [List.length_range] at short
  obtain ⟨q, passes, fits⟩ := @restoreFrom_passes _ _ m (m + 1) ρ p consistent (by omega)
  refine ⟨q, ⟨passes.stages, passes.same, passes.aside, passes.counted, fun s here => ?_⟩, fits⟩
  rw [restoreRejected, get_bind, here.working.dimension]
  exact passes.runs s here

/-! ### The repeated search -/

/-- What a search with its repetition finds. -/
def Found (ρ : Rules α) (m : Nat) (v : ActiveView α) : Option (Nat × Nat) → Prop
  | some (i, j) => j < m ∧ i ∈ keys (v.cols j)
  | none => v.nonzeros = 0 ∨ ∀ j < m, Barren ρ.relaxed.searchRule v j ∨ v.cols j = []

theorem Found.of_same {found : Option (Nat × Nat)} (same : v.SameEntries w) (h : Found ρ m w found) :
    Found ρ m v found := by
  rcases found with _ | ⟨i, j⟩
  · exact h.imp (fun zero => by rwa [same] at zero)
      (@Answer.of_same _ _ m v w ρ.relaxed.searchRule (.error .nearSingular) same)
  · change j < m ∧ i ∈ keys (w.cols j) at h
    rwa [same.cols] at h

def withTolerances (s : SparseFactorization α) (absolute relative : α) : SparseFactorization α :=
  { s with absoluteTolerance := absolute, relativeTolerance := relative }

theorem Working.withTolerances (h : Working s m stages v) (absolute relative : α) :
    Working (s.withTolerances absolute relative) m stages v :=
  { h with contained := h.contained.congr rfl rfl }

theorem setup_withTolerances {absolute relative : α}
    (h : t.setup = (s.withTolerances absolute relative).setup) :
    (t.withTolerances s.absoluteTolerance s.relativeTolerance).setup = s.setup := by
  change { t.setup with
    absoluteTolerance := s.absoluteTolerance
    relativeTolerance := s.relativeTolerance } = _
  rw [h]
  rfl

theorem relaxedSearch_runs (consistent : p.Fits m) :
    ∃ answer q, q.stages = p.stages ∧ p.view.SameEntries q.view ∧ q.view.AsideFilled m ∧
      p.tallies.SamePivots q.tallies ∧ q.Fits m ∧ Answer ρ.relaxed.searchRule m p.view answer ∧
      ∀ s, At ρ m p s → ∃ t, At ρ m q t ∧ t.setup = s.setup ∧ relaxedSearch s =
        (match answer with
          | .ok (some pivot) => do
            updateCounters fun c => { c with relaxed := c.relaxed + 1 }
            let stage := (← get).rank
            log .debug s!"relaxed pivot tolerance at stage {stage}"
            return some pivot
          | _ => do
            restoreRejected
            return none : Action (SparseFactorization α) (Option (Nat × Nat))) t := by
  obtain ⟨q, restored, fits, empty⟩ := @restoreRejected_passes _ _ m ρ p consistent
  obtain ⟨answer, r, search, fits', answered⟩ := @searchPivot_passes _ _ m ρ.relaxed q fits
  refine ⟨answer, r, search.stages.trans restored.stages, restored.same.trans search.same,
    search.aside (asideFilled_of_nil empty), restored.counted.trans search.counted, fits',
    answered.of_same restored.same, fun s here => ?_⟩
  obtain ⟨t, run, there, setup⟩ := restored.runs s here
  have relaxed : At ρ.relaxed m q (t.withTolerances t.options.zeroTolerance
      (Scalar.min t.options.relaxedPivotTolerance t.relativeTolerance)) :=
    ⟨there.working.withTolerances _ _, congrArg Rules.relaxed there.rules, there.tallies⟩
  obtain ⟨u, run', there', setup'⟩ := search.runs _ relaxed
  have back := setup_withTolerances setup'
  refine ⟨u.withTolerances t.absoluteTolerance t.relativeTolerance,
    ⟨there'.working.withTolerances _ _, (rules_of_setup back).trans there.rules, there'.tallies⟩,
    back.trans setup, ?_⟩
  unfold relaxedSearch
  rw [bind_of_ok run, get_bind, modify_bind, bind_of_ok (by exact run'), modify_bind]
  rfl

theorem relaxedSearch_passes (consistent : p.Fits m) :
    ∃ found q, Passes ρ m p relaxedSearch found q ∧ q.Fits m ∧ Found ρ m p.view found ∧
      (found = none → q.view.rowLists (m + 1) = []) := by
  obtain ⟨answer, q, stages, same, aside, counted, fits, answered, runs⟩ :=
    @relaxedSearch_runs _ _ m ρ p consistent
  by_cases pivoted : ∃ pivot, answer = .ok (some pivot)
  · obtain ⟨pivot, rfl⟩ := pivoted
    refine ⟨some pivot, q.tallied fun c => { c with relaxed := c.relaxed + 1 },
      ⟨stages, same, fun _ => aside, counted.trans rfl, fun s here => ?_⟩, fits, answered, by simp⟩
    obtain ⟨t, there, setup, run⟩ := runs s here
    refine ⟨_, run.trans rfl, ⟨there.working.of_setup rfl rfl rfl rfl, there.rules, ?_⟩, setup⟩
    exact congrArg (fun c : Tallies => { c with relaxed := c.relaxed + 1 }) there.tallies
  · obtain ⟨r, restored, fits', empty⟩ := @restoreRejected_passes _ _ m ρ q fits
    refine ⟨none, r, ⟨restored.stages.trans stages, same.trans restored.same,
      fun _ => asideFilled_of_nil empty, counted.trans restored.counted, fun s here => ?_⟩, fits', ?_,
      fun _ => empty⟩
    · obtain ⟨t, there, setup, run⟩ := runs s here
      obtain ⟨u, run', there', setup'⟩ := restored.runs t there
      refine ⟨u, run.trans ?_, there', setup'.trans setup⟩
      rcases answer with e | _ | pivot
      · exact bind_of_ok run'
      · exact bind_of_ok run'
      · exact (pivoted ⟨pivot, rfl⟩).elim
    · rcases answer with e | _ | pivot
      · exact .inr answered
      · exact .inl answered
      · exact (pivoted ⟨pivot, rfl⟩).elim

/-- The search with its repetition. Where it finds nothing, it leaves no row set aside. -/
theorem findPivot_passes (consistent : p.Fits m) :
    ∃ found q, Passes ρ m p findPivot found q ∧ q.Fits m ∧ Found ρ m p.view found ∧
      (found = none → q.view.AsideFilled m → q.view.rowLists (m + 1) = []) := by
  obtain ⟨answer, q, search, fits, answered⟩ := @searchPivot_passes _ _ m ρ p consistent
  rcases answer with e | _ | pivot
  · obtain ⟨found, r, repeated, fits', result, empty⟩ := @relaxedSearch_passes _ _ m ρ q fits
    exact ⟨found, r, search.andThen repeated, fits', result.of_same search.same,
      fun none_ _ => empty none_⟩
  · refine ⟨none, q, search.andThen (.refl ρ m q none), fits, .inl answered, fun _ filled => ?_⟩
    exact last_eq_nil fits filled (by rw [search.same]; exact answered)
  · exact ⟨some pivot, q, search.andThen (.refl ρ m q (some pivot)), fits, answered, by simp⟩

/-- What a search leaves. -/
structure Searched (s : SparseFactorization α) (m : Nat) (stages : List (Stage α)) (v : ActiveView α)
    (t : SparseFactorization α) (w : ActiveView α) : Prop where
  working : Working t m stages w
  setup : t.setup = s.setup
  same : v.SameEntries w
  aside : v.AsideFilled m → w.AsideFilled m
  counted : s.tallies.SamePivots t.tallies

theorem findPivot_ok (h : Working s m stages v) :
    ∃ found t w, findPivot s = .ok found t ∧ Searched s m stages v t w ∧ Found s.rules m v found ∧
      (found = none → w.AsideFilled m → w.rowLists (m + 1) = []) := by
  obtain ⟨found, q, search, -, result⟩ := @findPivot_passes _ _ m s.rules ⟨stages, v, s.tallies⟩ h.consistent
  obtain ⟨t, run, there, setup⟩ := search.runs s h.at
  have working := there.working
  rw [search.stages] at working
  exact ⟨found, t, q.view, run,
    ⟨working, setup, search.same, search.aside, there.tallies ▸ search.counted⟩, result⟩

end SparseFactorization

end SimplexBasis
