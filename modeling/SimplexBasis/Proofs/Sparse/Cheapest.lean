import SimplexBasis.Proofs.Exact
import SimplexBasis.Proofs.Sparse.Reached

/-!
# The cheapest pivot

With exact scalars the pivot search finds an eligible entry whenever there is one. What the search
has passed costs at least as much as the best pivot so far (`Covers`), and each of its three early
ends bounds the cost of everything behind it. So a search that is not cut short by the number of its
lines finds a cheapest eligible entry outside the rows that had been set aside before.
-/

set_option linter.unusedSectionVars false

namespace SimplexBasis

variable {m capacity i j k l count bound fuel : Nat} {v w u : ActiveView ℚ} {a : Active ℚ}
  {rule : SearchRule ℚ} {p q r : PivotSearch} {rowsDone colsDone : List Nat}
  {seen seen' : Nat → Nat → Prop}

/-- The entry is nonzero and within both tolerances. -/
def Eligible (rule : SearchRule ℚ) (v : ActiveView ℚ) (i j : Nat) : Prop :=
  ∃ x, (i, x) ∈ v.cols j ∧ x ≠ 0 ∧ rule.absoluteTolerance ≤ |x| ∧
    rule.relativeTolerance * v.maximum j ≤ |x|

def ActiveView.cost (v : ActiveView ℚ) (i j : Nat) : Nat :=
  PivotSearch.costOf (v.cols j).length (v.rows i).length

/-! ### Eligible entries -/

section Tolerances

theorem ActiveView.MaxKnown.maximum_eq {α : Type} [Scalar α] {v : ActiveView α}
    (known : v.MaxKnown m colsDone) (hj : j < m) (free : j ∉ colsDone) :
    v.maximum j = largestOf (v.cols j) :=
  known j hj free

theorem maximum_nonneg (known : v.MaxKnown m colsDone) (hj : j < m) (free : j ∉ colsDone) :
    0 ≤ v.maximum j := by
  rw [known.maximum_eq hj free]
  exact (largestOf_le_iff.mp le_rfl).1

theorem Eligible.le_maximum (known : v.MaxKnown m colsDone) (hj : j < m) (free : j ∉ colsDone)
    (eligible : Eligible rule v i j) :
    0 < v.maximum j ∧ rule.absoluteTolerance ≤ v.maximum j := by
  obtain ⟨x, member, nonzero, absolute, -⟩ := eligible
  have below : |x| ≤ v.maximum j := by
    rw [known.maximum_eq hj free]
    exact le_largestOf (e := (i, x)) member
  exact ⟨(abs_pos.mpr nonzero).trans_le below, absolute.trans below⟩

theorem not_eligible_of_passedOver (known : v.MaxKnown m colsDone) (hj : j < m)
    (free : j ∉ colsDone) (passed : PivotSearch.passedOver rule v j = true) :
    ¬Eligible rule v i j := by
  intro eligible
  obtain ⟨positive, large⟩ := eligible.le_maximum known hj free
  simp only [PivotSearch.passedOver, Bool.or_eq_true, beq_iff_eq, decide_eq_true_iff] at passed
  rcases passed with zero | small
  · exact positive.ne' zero
  · exact absurd small (not_lt.mpr large)

theorem maximum_pos (known : v.MaxKnown m colsDone) (hj : j < m) (free : j ∉ colsDone)
    (kept : ¬PivotSearch.passedOver rule v j = true) : 0 < v.maximum j := by
  refine lt_of_le_of_ne (maximum_nonneg known hj free) fun zero => kept ?_
  simp only [PivotSearch.passedOver, ← zero, Bool.or_eq_true]
  exact .inl rfl

variable (positive : 0 < rule.relativeTolerance)
include positive

theorem nonzero_of_share (known : v.MaxKnown m colsDone) (hj : j < m) (free : j ∉ colsDone)
    (kept : ¬PivotSearch.passedOver rule v j = true) {x : ℚ}
    (share : rule.relativeTolerance * v.maximum j ≤ |x|) : x ≠ 0 :=
  abs_pos.mp ((mul_pos positive (maximum_pos known hj free kept)).trans_le share)

/-- Along a column, the entries that are not smaller than the tolerance are the eligible ones. -/
theorem lt_tolerance_iff (consistent : v.Consistent m rowsDone colsDone)
    (known : v.MaxKnown m colsDone) (hj : j < m) (free : j ∉ colsDone)
    (kept : ¬PivotSearch.passedOver rule v j = true) {e : Nat × ℚ} (member : e ∈ v.cols j) :
    Scalar.abs e.2 < Scalar.max rule.absoluteTolerance
        (rule.relativeTolerance * v.maximum j) ↔ ¬Eligible rule v e.1 j := by
  rw [scalar_abs, scalar_max, ← not_le, not_iff_not, max_le_iff]
  constructor
  · rintro ⟨absolute, share⟩
    exact ⟨e.2, member, nonzero_of_share positive known hj free kept share, absolute, share⟩
  · rintro ⟨x, same, -, bounds⟩
    rwa [← valueAt_of_mem (consistent.distinctCols j hj) member,
      valueAt_of_mem (consistent.distinctCols j hj) same]

theorem accepts_iff (consistent : v.Consistent m rowsDone colsDone) (known : v.MaxKnown m colsDone)
    (hi : i < m) (member : j ∈ v.rows i) :
    PivotSearch.accepts rule v i j = true ↔ Eligible rule v i j := by
  obtain ⟨hj, free⟩ := consistent.rowRange i hi j member
  obtain ⟨x, here⟩ := consistent.exists_value hi member
  have found := find?_key (consistent.distinctCols j hj) here
  unfold PivotSearch.accepts
  split
  · rename_i passed
    simp [not_eligible_of_passedOver known hj free passed]
  · rename_i kept
    simp only [found, Option.map_some, Option.getD_some, scalar_abs, Bool.and_eq_true,
      decide_eq_true_iff]
    constructor
    · rintro ⟨absolute, share⟩
      exact ⟨x, here, nonzero_of_share positive known hj free kept share, absolute, share⟩
    · rintro ⟨y, same, -, bounds⟩
      rwa [← valueAt_of_mem (consistent.distinctCols j hj) here,
        valueAt_of_mem (consistent.distinctCols j hj) same]

end Tolerances

theorem Eligible.mem_row (consistent : v.Consistent m rowsDone colsDone) (hj : j < m)
    (eligible : Eligible rule v i j) : i < m ∧ j ∈ v.rows i := by
  obtain ⟨x, member, -⟩ := eligible
  have key : i ∈ keys (v.cols j) := List.mem_map_of_mem (f := Prod.fst) member
  have hi := (consistent.colRange j hj i key).1
  exact ⟨hi, (consistent.agree i hi j hj).mpr key⟩

theorem Eligible.col_open (consistent : v.Consistent m rowsDone colsDone) (hj : j < m)
    (eligible : Eligible rule v i j) : j ∉ colsDone ∧ 0 < (v.cols j).length := by
  obtain ⟨x, member, -⟩ := eligible
  exact ⟨fun done => by simp [consistent.col_done hj done] at member, List.length_pos_of_mem member⟩

theorem Eligible.row_open (consistent : v.Consistent m rowsDone colsDone) (hj : j < m)
    (eligible : Eligible rule v i j) : i < m ∧ i ∉ rowsDone ∧ 0 < (v.rows i).length := by
  obtain ⟨hi, member⟩ := eligible.mem_row consistent hj
  exact ⟨hi, fun done => by simp [consistent.row_done hi done] at member,
    List.length_pos_of_mem member⟩

theorem Eligible.nonzeros_pos (consistent : v.Consistent m rowsDone colsDone) (hj : j < m)
    (eligible : Eligible rule v i j) : 0 < v.nonzeros := by
  obtain ⟨x, member, -⟩ := eligible
  rw [consistent.counted]
  exact (List.length_pos_of_mem member).trans_le (length_le_entryCount v.cols hj)

theorem Eligible.mem_colLists (consistent : v.Consistent m rowsDone colsDone) (hj : j < m)
    (eligible : Eligible rule v i j) : j ∈ v.colLists (v.cols j).length := by
  have short := consistent.col_length_le hj
  exact ((consistent.colListed _ (by omega)).2 j).mpr ⟨hj, (eligible.col_open consistent hj).1, rfl⟩

/-- An eligible entry stands in a listed row, unless the row is set aside. -/
theorem Eligible.mem_rowLists_or (consistent : v.Consistent m rowsDone colsDone) (hj : j < m)
    (eligible : Eligible rule v i j) :
    i ∈ v.rowLists (v.rows i).length ∨ i ∈ v.rowLists (m + 1) := by
  obtain ⟨hi, free, -⟩ := eligible.row_open consistent hj
  exact consistent.mem_rowLists_or hi free

theorem eligible_of_same (same : v.SameEntries w) : Eligible rule w i j ↔ Eligible rule v i j := by
  unfold Eligible ActiveView.maximum
  rw [same.cols, same.colMax]

theorem cost_of_same (same : v.SameEntries w) : w.cost i j = v.cost i j := by
  unfold ActiveView.cost
  rw [same]

namespace PivotSearch

theorem costOf_comm (x y : Nat) : costOf x y = costOf y x := Nat.mul_comm ..

end PivotSearch

/-! ### Rows set aside -/

namespace ActiveView

/-- The view after rows were set aside, in this order. -/
structure SetAside (v w : ActiveView ℚ) (m : Nat) (aside : List Nat) : Prop where
  same : v.SameEntries w
  kept : ∀ n ≤ m, w.rowLists n = (v.rowLists n).filter (· ∉ aside)
  last : w.rowLists (m + 1) = v.rowLists (m + 1) ++ aside

namespace SetAside

variable {aside aside' : List Nat}

theorem refl (v : ActiveView ℚ) (m : Nat) : v.SetAside v m [] := ⟨.refl v, by simp, by simp⟩

theorem trans (first : v.SetAside w m aside) (second : w.SetAside u m aside') :
    v.SetAside u m (aside ++ aside') where
  same := first.same.trans second.same
  kept n hn := by
    rw [second.kept n hn, first.kept n hn, List.filter_filter]
    exact List.filter_congr fun i _ => by simp [Bool.and_comm]
  last := by rw [second.last, first.last, List.append_assoc]

/-- If at most the first of the remaining rows of a list was set aside, the others follow in it. -/
theorem rest (h : v.SetAside w m aside) (inCount : count ≤ m) {front back : List Nat}
    (split : v.rowLists count = front ++ i :: back) (nodup : (v.rowLists count).Nodup)
    (only : ∀ k ∈ aside, k = i) : ∃ front', w.rowLists count = front' ++ back := by
  rw [split] at nodup
  obtain ⟨-, nodup, -⟩ := List.nodup_append.mp nodup
  have apart : ∀ k ∈ back, k ∉ aside := fun k hk here =>
    (List.nodup_cons.mp nodup).1 (only k here ▸ hk)
  have kept : back.filter (· ∉ aside) = back :=
    List.filter_eq_self.mpr fun k hk => by simpa using apart k hk
  refine ⟨(front ++ [i]).filter (· ∉ aside), ?_⟩
  rw [h.kept count inCount, split, List.append_cons, List.filter_append, kept]

end SetAside

namespace Consistent

theorem setAside (h : v.Consistent m rowsDone colsDone) (inCount : count ≤ m)
    (member : i ∈ v.rowLists count) : v.SetAside (v.moveRow i (m + 1)) m [i] where
  same := v.sameEntries_moveRow i _
  kept n hn := by
    have nodup := h.nodup_rowLists (n := n) (by omega)
    simp only [ActiveView.moveRow, relisted, CountLists.appended, if_neg (show n ≠ m + 1 by omega)]
    rw [nodup.erase_eq_filter]
    exact List.filter_congr fun k _ => by by_cases eq : k = i <;> simp [eq]
  last := by
    simp only [ActiveView.moveRow, relisted, CountLists.appended, if_pos]
    rw [List.erase_of_not_mem (h.not_mem_last inCount member)]

end Consistent

end ActiveView

namespace PivotSearch

/-! ### Progress of a search -/

/-- A pivot found so far costs at most `cost`. -/
def Covers (p : PivotSearch) (cost : Nat) : Prop := ∃ c, p.best = some c ∧ c.cost ≤ cost

def Honest (rule : SearchRule ℚ) (m : Nat) (v : ActiveView ℚ) (p : PivotSearch) : Prop :=
  ∀ c, p.best = some c → c.col < m ∧ Eligible rule v c.row c.col ∧ c.cost = v.cost c.row c.col

theorem Covers.mono {x y : Nat} (h : p.Covers x) (le : x ≤ y) : p.Covers y :=
  h.imp fun _ => And.imp_right fun cheap => cheap.trans le

theorem covers_of_not_improves {cost : Nat} (worse : ¬p.improves cost = true) : p.Covers cost := by
  rcases found : p.best with _ | c
  · exact absurd (improves_of_none found cost) worse
  · simp only [improves, found, decide_eq_true_iff, not_lt] at worse
    exact ⟨c, found, worse⟩

/-- What a search over the positions `seen`, in at most so many lines, leads to. -/
structure Progress (rule : SearchRule ℚ) (m : Nat) (v : ActiveView ℚ) (seen : Nat → Nat → Prop)
    (bound lines : Nat) (p q : PivotSearch) : Prop where
  honest : q.Honest rule m v
  grows : ∀ x, p.Covers x → q.Covers x
  searched : q.searched ≤ p.searched + lines
  covered : q.finished = false → ∀ i, ∀ j < m, seen i j → Eligible rule v i j →
    q.Covers (v.cost i j)
  /-- It ends with a cheap pivot or after enough lines. -/
  ended : q.finished = true → q.best ≠ none ∧
    (rule.searchRows = true ∧ q.Covers bound ∨ rule.maxSearch ≤ q.searched)

namespace Progress

variable {lines lines' : Nat}

theorem refl (honest : p.Honest rule m v) (going : p.finished = false)
    (none : ∀ i, ∀ j < m, seen i j → ¬Eligible rule v i j) :
    Progress rule m v seen bound 0 p p where
  honest := honest
  grows _ := id
  searched := le_rfl
  covered _ i j hj here eligible := absurd eligible (none i j hj here)
  ended finished := by simp [going] at finished

theorem andThen (first : Progress rule m v seen bound lines p q) (going : q.finished = false)
    (second : Progress rule m v seen' bound lines' q r) :
    Progress rule m v (fun i j => seen i j ∨ seen' i j) bound (lines + lines') p r where
  honest := second.honest
  grows x h := second.grows x (first.grows x h)
  searched := by
    have := first.searched
    have := second.searched
    omega
  covered finished i j hj here eligible := by
    rcases here with here | here
    · exact second.grows _ (first.covered going i j hj here eligible)
    · exact second.covered finished i j hj here eligible
  ended := second.ended

theorem mono (h : Progress rule m v seen bound lines p q) (le : lines ≤ lines')
    (subset : ∀ i, ∀ j < m, seen' i j → Eligible rule v i j → seen i j) :
    Progress rule m v seen' bound lines' p q where
  honest := h.honest
  grows := h.grows
  searched := h.searched.trans (Nat.add_le_add_left le _)
  covered finished i j hj here eligible :=
    h.covered finished i j hj (subset i j hj here eligible) eligible
  ended := h.ended

theorem of_finished (h : Progress rule m v seen bound lines p q) (finished : q.finished = true)
    (le : lines ≤ lines') : Progress rule m v seen' bound lines' p q where
  honest := h.honest
  grows := h.grows
  searched := h.searched.trans (Nat.add_le_add_left le _)
  covered going := by simp [finished] at going
  ended := h.ended

theorem of_same (same : v.SameEntries w) (h : Progress rule m w seen bound lines p q) :
    Progress rule m v seen bound lines p q where
  honest c found := by simpa only [eligible_of_same same, cost_of_same same] using h.honest c found
  grows := h.grows
  searched := h.searched
  covered finished i j hj here eligible := by
    rw [← cost_of_same same]
    exact h.covered finished i j hj here ((eligible_of_same same).mpr eligible)
  ended := h.ended

theorem countLine (h : Progress rule m v seen bound lines p q) (going : q.finished = false) :
    Progress rule m v seen bound (lines + 1) p (q.countLine rule) where
  honest := h.honest
  grows := h.grows
  searched := Nat.add_le_add_right h.searched 1
  covered _ := h.covered going
  ended finished := by
    simp only [PivotSearch.countLine, Bool.and_eq_true, decide_eq_true_iff,
      Option.isSome_iff_ne_none] at finished
    exact ⟨finished.2, .inr finished.1⟩

end Progress

theorem Honest.of_same (same : v.SameEntries w) (h : p.Honest rule m v) : p.Honest rule m w :=
  fun c found => by simpa only [eligible_of_same same, cost_of_same same] using h c found

theorem progress_accept {early : Bool} (hj : j < m) (eligible : Eligible rule v i j)
    (better : p.improves (v.cost i j) = true) (rows : early = true → rule.searchRows = true) :
    Progress rule m v (fun k l => k = i ∧ l = j) bound 0 p
      (p.accept ⟨i, j, v.cost i j⟩ bound early) where
  honest := by
    rintro _ ⟨⟩
    exact ⟨hj, eligible, rfl⟩
  grows x := by
    rintro ⟨c, found, cheap⟩
    simp only [improves, found, decide_eq_true_iff] at better
    exact ⟨_, rfl, better.le.trans cheap⟩
  searched := le_rfl
  covered _ := by
    rintro _ _ - ⟨rfl, rfl⟩ -
    exact ⟨_, rfl, le_rfl⟩
  ended finished := by
    simp only [accept, Bool.and_eq_true, decide_eq_true_iff] at finished
    exact ⟨Option.some_ne_none _, .inl ⟨rows finished.1, _, rfl, finished.2⟩⟩

theorem progress_skip (honest : p.Honest rule m v) (going : p.finished = false)
    (passed : Eligible rule v i j → p.Covers (v.cost i j)) :
    Progress rule m v (fun k l => k = i ∧ l = j) bound 0 p p where
  honest := honest
  grows _ := id
  searched := le_rfl
  covered _ := by
    rintro _ _ - ⟨rfl, rfl⟩ eligible
    exact passed eligible
  ended finished := by simp [going] at finished

theorem Honest.sound (honest : p.Honest rule m v) (going : p.finished = false) : p.Sound m v where
  entry c found := by
    obtain ⟨hj, ⟨x, member, -⟩, -⟩ := honest c found
    exact ⟨hj, List.mem_map_of_mem (f := Prod.fst) member⟩
  ended finished := by simp [going] at finished

/-- No row among these has an eligible entry that is cheaper than the best pivot. -/
def CoversRows (rule : SearchRule ℚ) (m : Nat) (v : ActiveView ℚ) (rows : List Nat)
    (p : PivotSearch) : Prop :=
  ∀ i ∈ rows, ∀ j < m, Eligible rule v i j → p.Covers (v.cost i j)

theorem CoversRows.grow {rows : List Nat} (h : p.CoversRows rule m v rows)
    (grows : ∀ x, p.Covers x → q.Covers x) : q.CoversRows rule m v rows :=
  fun i hi j hj eligible => grows _ (h i hi j hj eligible)

theorem CoversRows.append {rows more : List Nat} (h : p.CoversRows rule m v rows)
    (h' : p.CoversRows rule m v more) : p.CoversRows rule m v (rows ++ more) :=
  fun i hi => (List.mem_append.mp hi).elim (h i) (h' i)

theorem CoversRows.of_same {rows : List Nat} (same : v.SameEntries w)
    (h : p.CoversRows rule m w rows) : p.CoversRows rule m v rows := fun i hi j hj eligible => by
  rw [← cost_of_same same]
  exact h i hi j hj ((eligible_of_same same).mpr eligible)

/-! ### Columns -/

section Scans

variable (shows : a.Shows m capacity v) (consistent : v.Consistent m rowsDone colsDone)
include shows consistent

theorem scanColumnEntries_progress (hj : j < m) (length : (v.cols j).length = count)
    {tolerance : ℚ} (sharp : ∀ e ∈ v.cols j, Scalar.abs e.2 < tolerance ↔ ¬Eligible rule v e.1 j)
    {entries : List (Nat × ℚ)} (subset : ∀ e ∈ entries, e ∈ v.cols j)
    (honest : p.Honest rule m v) (going : p.finished = false)
    (run : scanColumnEntries rule a count j tolerance entries p = .ok q) :
    Progress rule m v (fun k l => l = j ∧ k ∈ keys entries) ((count - 1) * (count - 1)) 0 p q := by
  induction entries generalizing p with
  | nil =>
    cases run
    exact .refl honest going (by simp)
  | cons e rest ih =>
    obtain ⟨i, x⟩ := e
    have member := subset (i, x) List.mem_cons_self
    have below := fun e he => subset e (List.mem_cons_of_mem _ he)
    have hi := (consistent.colRange j hj i (List.mem_map_of_mem (f := Prod.fst) member)).1
    have cost : costOf count (v.rows i).length = v.cost i j := by rw [← length]; rfl
    -- Each entry makes a progress of its own, behind which the rest is searched.
    have onward : ∀ {p' : PivotSearch}, p'.finished = false →
        Progress rule m v (fun k l => k = i ∧ l = j) ((count - 1) * (count - 1)) 0 p p' →
        scanColumnEntries rule a count j tolerance rest p' = .ok q →
        Progress rule m v (fun k l => l = j ∧ k ∈ keys ((i, x) :: rest))
          ((count - 1) * (count - 1)) 0 p q := fun going' here run =>
      (here.andThen going' (ih below here.honest going' run)).mono le_rfl fun k l _ here _ => by
        obtain ⟨rfl, key⟩ := here
        exact (List.mem_cons.mp key).imp (fun first => ⟨first, rfl⟩) fun other => ⟨rfl, other⟩
    rw [scanColumnEntries_cons shows hi, cost] at run
    dsimp only at run
    split at run
    · rename_i small
      exact onward going (progress_skip honest going fun eligible =>
        absurd eligible ((sharp _ member).mp small)) run
    · rename_i large
      have eligible : Eligible rule v i j := not_not.mp ((sharp _ member).not.mp large)
      split at run
      · rename_i better
        have accepted := @progress_accept _ _ _ ((count - 1) * (count - 1)) _ _ _ _ hj eligible
          better id
        split at run
        · rename_i ended
          cases run
          exact accepted.of_finished ended le_rfl
        · rename_i going'
          exact onward (Bool.eq_false_of_not_eq_true going') accepted run
      · rename_i worse
        exact onward going (progress_skip honest going fun _ => covers_of_not_improves worse) run

theorem scanColumn_progress (known : v.MaxKnown m colsDone) (positive : 0 < rule.relativeTolerance)
    (hj : j < m) (free : j ∉ colsDone) (length : (v.cols j).length = count)
    (honest : p.Honest rule m v) (going : p.finished = false)
    (run : scanColumn rule a count j p = .ok q) :
    Progress rule m v (fun _ l => l = j) ((count - 1) * (count - 1)) 1 p q := by
  rw [scanColumn_eq shows consistent.sized hj] at run
  split at run
  · rename_i passed
    cases run
    refine (Progress.refl honest going ?_).mono (Nat.zero_le 1) fun _ _ _ here _ => here
    rintro i _ - rfl eligible
    exact not_eligible_of_passedOver known hj free passed eligible
  · rename_i kept
    rcases scanned : scanColumnEntries rule a count j (Scalar.max rule.absoluteTolerance
      (rule.relativeTolerance * v.maximum j)) (v.cols j) p with e | p'
    · rw [scanned] at run
      cases run
    rw [scanned] at run
    cases run
    have progress := scanColumnEntries_progress shows consistent hj length
      (fun e => lt_tolerance_iff positive consistent known hj free kept) (fun _ => id) honest going
      scanned
    dsimp only
    split
    · rename_i ended
      exact progress.of_finished ended (Nat.zero_le 1)
    · rename_i going'
      refine (progress.countLine (Bool.eq_false_of_not_eq_true going')).mono le_rfl fun i l _ => ?_
      rintro rfl ⟨x, member, -⟩
      exact ⟨rfl, List.mem_map_of_mem (f := Prod.fst) member⟩

theorem scanColumns_progress (known : v.MaxKnown m colsDone)
    (positive : 0 < rule.relativeTolerance) (inCount : count < m + 2) {front back : List Nat}
    (split : v.colLists count = front ++ back) (honest : p.Honest rule m v)
    (going : p.finished = false) (run : scanColumns rule a count fuel back.head? p = .ok q) :
    Progress rule m v (fun _ l => l ∈ back) ((count - 1) * (count - 1)) back.length p q := by
  induction fuel generalizing front back p with
  | zero =>
    cases back with
    | nil =>
      cases run
      exact .refl honest going (by simp)
    | cons j back => exact nomatch run
  | succ fuel ih =>
    cases back with
    | nil =>
      cases run
      exact .refl honest going (by simp)
    | cons j back =>
      obtain ⟨hj, free, length⟩ := ((consistent.colListed count inCount).2 j).mp (by simp [split])
      rw [scanColumns_cons shows inCount split] at run
      obtain ⟨p', first, run⟩ := except_bind_eq_ok.mp run
      have progress := scanColumn_progress shows consistent known positive hj free length.symm honest
        going first
      split at run
      · rename_i ended
        cases run
        exact progress.of_finished ended (by simp)
      · rename_i going'
        have going' := Bool.eq_false_of_not_eq_true going'
        refine (progress.andThen going' (@ih _ (front ++ [j]) _ (by simpa using split)
          progress.honest going' run)).mono (by simp [Nat.add_comm]) fun _ l _ here _ => ?_
        exact List.mem_cons.mp here

/-! ### Rows -/

theorem scanRowEntries_progress (known : v.MaxKnown m colsDone)
    (positive : 0 < rule.relativeTolerance) (rows : rule.searchRows = true) (hi : i < m)
    (length : (v.rows i).length = count) {entries : List Nat} (subset : ∀ j ∈ entries, j ∈ v.rows i)
    {x y : RowScan} (honest : x.search.Honest rule m v) (going : x.search.finished = false)
    (run : scanRowEntries rule a count i entries x = .ok y) :
    Progress rule m v (fun k l => k = i ∧ l ∈ entries) (count * (count - 1)) 0
      x.search y.search := by
  induction entries generalizing x with
  | nil =>
    cases run
    exact .refl honest going (by simp)
  | cons j rest ih =>
    have member := subset j List.mem_cons_self
    have below := fun k hk => subset k (List.mem_cons_of_mem j hk)
    obtain ⟨hj, -⟩ := consistent.rowRange i hi j member
    have cost : costOf count (v.cols j).length = v.cost i j := by
      rw [← length, costOf_comm]
      rfl
    have onward : ∀ x' : RowScan, x'.search.finished = false →
        Progress rule m v (fun k l => k = i ∧ l = j) (count * (count - 1)) 0 x.search x'.search →
        scanRowEntries rule a count i rest x' = .ok y →
        Progress rule m v (fun k l => k = i ∧ l ∈ j :: rest) (count * (count - 1)) 0
          x.search y.search := fun _ going' here run =>
      (here.andThen going' (ih below here.honest going' run)).mono le_rfl fun k l _ here _ => by
        obtain ⟨rfl, entry⟩ := here
        exact (List.mem_cons.mp entry).imp (fun first => ⟨rfl, first⟩) fun other => ⟨rfl, other⟩
    have accepted := accepts_iff positive consistent known hi member
    rw [scanRowEntries_cons shows consistent.sized hj, cost] at run
    dsimp only at run
    split at run
    · rename_i better
      split at run
      · rename_i eligible
        have progress := @progress_accept _ _ _ (count * (count - 1)) _ _ _ true hj
          (accepted.mp eligible) better fun _ => rows
        split at run
        · rename_i ended
          cases run
          exact progress.of_finished ended le_rfl
        · rename_i going'
          exact onward ⟨_, true, true⟩ (Bool.eq_false_of_not_eq_true going') progress run
      · rename_i ineligible
        exact onward { x with cheap := true } going
          (progress_skip honest going fun eligible => absurd (accepted.mpr eligible) ineligible) run
    · rename_i worse
      exact onward _ going (progress_skip honest going fun _ => covers_of_not_improves worse) run

theorem scanRow_progress (known : v.MaxKnown m colsDone) (positive : 0 < rule.relativeTolerance)
    (rows : rule.searchRows = true) (member : i ∈ v.rowLists count) (inCount : count ≤ m)
    (honest : p.Honest rule m v) (going : p.finished = false) :
    ∃ q b w aside, scanRow rule (m + 1) count i p a = .ok q b ∧ b.Shows m capacity w ∧
      w.Consistent m rowsDone colsDone ∧ v.SetAside w m aside ∧
      (∀ k ∈ aside, k = i ∧ q.finished = false) ∧
      Progress rule m v (fun k _ => k = i) (count * (count - 1)) 1 p q := by
  obtain ⟨hi, free, length⟩ := consistent.length_of_mem_rowLists inCount member
  obtain ⟨r, -, -, -, scan⟩ := @scanRowEntries_ok _ _ _ _ count v rule _ _ consistent hi _
    (fun j hj => hj) ⟨p, false, false⟩ (honest.sound going)
  have scanned := scan shows
  have progress := scanRowEntries_progress shows consistent known positive rows hi length
    (fun _ => id) (x := ⟨p, false, false⟩) honest going scanned
  have whole : ∀ k, ∀ l < m, k = i → Eligible rule v k l → k = i ∧ l ∈ v.rows i := by
    rintro _ l hl rfl eligible
    exact ⟨rfl, (eligible.mem_row consistent hl).2⟩
  by_cases ended : r.search.finished = true
  · exact ⟨r.search, a, v, [], by rw [scanRow_eq shows hi scanned, if_pos ended]; rfl, shows,
      consistent, .refl v m, by simp, progress.of_finished ended (Nat.zero_le 1)⟩
  have going' := Bool.eq_false_of_not_eq_true ended
  by_cases apart : (r.cheap && !r.found) = true
  · obtain ⟨c, moved, listed⟩ := shows.moveRow hi (n := m + 1) (by omega)
    refine ⟨r.search, _, _, [i], ?_, listed, consistent.moveRow hi free (.inr rfl),
      consistent.setAside inCount member, by simpa using going',
      progress.mono (Nat.zero_le 1) whole⟩
    rw [scanRow_eq shows hi scanned, if_neg ended, if_pos apart,
      bind_of_ok (Active.onRowCounts_run moved)]
    rfl
  · exact ⟨r.search.countLine rule, a, v, [], by
      rw [scanRow_eq shows hi scanned, if_neg ended, if_neg apart]; rfl, shows, consistent,
      .refl v m, by simp, (progress.countLine going').mono le_rfl whole⟩

theorem scanRows_progress (known : v.MaxKnown m colsDone) (positive : 0 < rule.relativeTolerance)
    (rows : rule.searchRows = true) (inCount : count ≤ m) {front back : List Nat}
    (split : v.rowLists count = front ++ back) (enough : back.length ≤ fuel)
    (honest : p.Honest rule m v) (going : p.finished = false) :
    ∃ q b w aside, scanRows rule (m + 1) count fuel back.head? p a = .ok q b ∧
      b.Shows m capacity w ∧ w.Consistent m rowsDone colsDone ∧ v.SetAside w m aside ∧
      q.CoversRows rule m v aside ∧
      Progress rule m v (fun k _ => k ∈ back) (count * (count - 1)) back.length p q := by
  induction fuel generalizing front back p v a with
  | zero =>
    have empty := List.eq_nil_of_length_eq_zero (Nat.le_zero.mp enough)
    subst empty
    exact ⟨p, a, v, [], rfl, shows, consistent, .refl v m, by simp [CoversRows],
      .refl honest going (by simp)⟩
  | succ fuel ih =>
    cases back with
    | nil =>
      exact ⟨p, a, v, [], rfl, shows, consistent, .refl v m, by simp [CoversRows],
        .refl honest going (by simp)⟩
    | cons i back =>
      have member : i ∈ v.rowLists count := by simp [split]
      obtain ⟨q, b, w, aside, run, shows', consistent', moved, only, progress⟩ :=
        scanRow_progress shows consistent known positive rows member inCount honest going
      have covered : q.CoversRows rule m v aside := fun k hk l hl eligible =>
        progress.covered (only k hk).2 k l hl (only k hk).1 eligible
      have step := @scanRows_cons _ _ _ _ _ _ fuel _ _ _ _ _ _ shows (by omega) _ _ split run
      by_cases ended : q.finished = true
      · refine ⟨q, b, w, aside, ?_, shows', consistent', moved, covered,
          progress.of_finished ended (by simp)⟩
        rw [step, if_pos ended]
        rfl
      have going' := Bool.eq_false_of_not_eq_true ended
      obtain ⟨front', split'⟩ : ∃ front', w.rowLists count = front' ++ back := by
        refine moved.rest inCount split (consistent.nodup_rowLists (by omega)) fun k hk => ?_
        exact (only k hk).1
      obtain ⟨r, c, u, aside', run', shows'', consistent'', moved', covered', progress'⟩ :=
        ih shows' consistent' (moved.same.maxKnown known) split' (by simpa using enough)
          (progress.honest.of_same moved.same) going'
      refine ⟨r, c, u, aside ++ aside', by rw [step, if_neg ended, run'], shows'', consistent'',
        moved.trans moved', ?_, ?_⟩
      · exact (covered.grow progress'.grows).append (covered'.of_same moved.same)
      · exact (progress.andThen going' (progress'.of_same moved.same)).mono
          (by simp [Nat.add_comm]) fun k _ _ here _ => List.mem_cons.mp here

end Scans

/-! ### All counts -/

/-- How many of the first `m` lines are shorter than `n`. -/
def linesBelow (m : Nat) (length : Nat → Nat) (n : Nat) : Nat :=
  ((Finset.range m).filter fun k => length k < n).card

theorem linesBelow_le (m : Nat) (length : Nat → Nat) (n : Nat) : linesBelow m length n ≤ m :=
  (Finset.card_filter_le _ _).trans_eq (Finset.card_range m)

theorem linesBelow_add_length {length : Nat → Nat} {n : Nat} {lines : List Nat}
    (distinct : lines.Nodup) (inside : ∀ k ∈ lines, k < m ∧ length k = n) :
    linesBelow m length n + lines.length ≤ linesBelow m length (n + 1) := by
  have apart : Disjoint ((Finset.range m).filter fun k => length k < n) lines.toFinset := by
    rw [Finset.disjoint_left]
    intro k shorter member
    have := (Finset.mem_filter.mp shorter).2
    have := (inside k (List.mem_toFinset.mp member)).2
    omega
  rw [linesBelow, ← List.toFinset_card_of_nodup distinct, ← Finset.card_union_of_disjoint apart]
  refine Finset.card_le_card fun k hk => ?_
  rcases Finset.mem_union.mp hk with shorter | member
  · obtain ⟨hk, shorter⟩ := Finset.mem_filter.mp shorter
    exact Finset.mem_filter.mpr ⟨hk, by omega⟩
  · obtain ⟨hk, same⟩ := inside k (List.mem_toFinset.mp member)
    exact Finset.mem_filter.mpr ⟨Finset.mem_range.mpr hk, by omega⟩

/-- The search before it comes to the lines with `count` entries, where the rows `barred` had been
set aside before it. -/
structure Sweep (rule : SearchRule ℚ) (m : Nat) (v : ActiveView ℚ) (barred : List Nat) (count : Nat)
    (p : PivotSearch) : Prop where
  honest : p.Honest rule m v
  going : p.finished = false
  searched : p.searched ≤ linesBelow m (fun j => (v.cols j).length) count +
    linesBelow m (fun i => (v.rows i).length) count
  columns : ∀ i, ∀ j < m, Eligible rule v i j → (v.cols j).length < count →
    p.Covers (v.cost i j)
  rows : rule.searchRows = true → ∀ i, ∀ j < m, Eligible rule v i j → (v.rows i).length < count →
    i ∉ barred → p.Covers (v.cost i j)
  aside : ∀ i ∈ v.rowLists (m + 1), i ∉ barred → ∀ j < m, Eligible rule v i j →
    p.Covers (v.cost i j)

/-- What a search leads to that started with the rows `barred` set aside. -/
structure Cheapest (rule : SearchRule ℚ) (m : Nat) (v : ActiveView ℚ) (barred : List Nat)
    (q : PivotSearch) : Prop where
  honest : q.Honest rule m v
  complete : ∀ i, ∀ j < m, Eligible rule v i j → q.best ≠ none
  least : 2 * m < rule.maxSearch → ∀ i, ∀ j < m, i ∉ barred → Eligible rule v i j →
    q.Covers (v.cost i j)

theorem Cheapest.of_same {barred : List Nat} (same : v.SameEntries w)
    (h : q.Cheapest rule m w barred) : q.Cheapest rule m v barred where
  honest := h.honest.of_same same.symm
  complete i j hj eligible := h.complete i j hj ((eligible_of_same same).mpr eligible)
  least enough i j hj free eligible := by
    rw [← cost_of_same same]
    exact h.least enough i j hj free ((eligible_of_same same).mpr eligible)

/-- A search that has ended after the columns shorter than `x` and the rows shorter than `y`. -/
theorem Progress.cheapest {barred : List Nat} {lines x y : Nat}
    (h : Progress rule m v seen ((x - 1) * (y - 1)) lines p q) (finished : q.finished = true)
    (few : q.searched ≤ 2 * m)
    (columns : ∀ i, ∀ j < m, Eligible rule v i j → (v.cols j).length < x → q.Covers (v.cost i j))
    (rows : rule.searchRows = true → ∀ i, ∀ j < m, Eligible rule v i j → (v.rows i).length < y →
      i ∉ barred → q.Covers (v.cost i j)) : q.Cheapest rule m v barred where
  honest := h.honest
  complete _ _ _ _ := (h.ended finished).1
  least enough i j hj free eligible := by
    obtain ⟨both, cheap⟩ := (h.ended finished).2.resolve_right (by omega)
    by_cases shortColumn : (v.cols j).length < x
    · exact columns i j hj eligible shortColumn
    by_cases shortRow : (v.rows i).length < y
    · exact rows both i j hj eligible shortRow free
    exact cheap.mono (Nat.mul_le_mul (by omega) (by omega))

section Counts

variable (consistent : v.Consistent m rowsDone colsDone)
include consistent

variable {barred : List Nat}

theorem Sweep.columns_next (sweep : Sweep rule m v barred count p)
    (h : Progress rule m v (fun _ l => l ∈ v.colLists count) bound k p q)
    (going : q.finished = false) (hj : j < m) (eligible : Eligible rule v i j)
    (short : (v.cols j).length < count + 1) : q.Covers (v.cost i j) := by
  by_cases here : (v.cols j).length = count
  · exact h.covered going i j hj (here ▸ eligible.mem_colLists consistent hj) eligible
  · exact h.grows _ (sweep.columns i j hj eligible (by omega))

theorem Sweep.searched_columns (sweep : Sweep rule m v barred count p) (inCount : count ≤ m)
    (h : Progress rule m v seen bound (v.colLists count).length p q) :
    q.searched ≤ linesBelow m (fun j => (v.cols j).length) (count + 1) +
      linesBelow m (fun i => (v.rows i).length) count := by
  obtain ⟨distinct, listed⟩ := consistent.colListed count (by omega)
  have columns := @linesBelow_add_length m (fun j => (v.cols j).length) count _ distinct
    fun j hj => ⟨((listed j).mp hj).1, ((listed j).mp hj).2.2.symm⟩
  have before := sweep.searched
  have after := h.searched
  omega

theorem linesBelow_rows (inCount : count ≤ m) :
    linesBelow m (fun i => (v.rows i).length) count + (v.rowLists count).length ≤
      linesBelow m (fun i => (v.rows i).length) (count + 1) :=
  linesBelow_add_length (consistent.nodup_rowLists (by omega)) fun i hi => by
    obtain ⟨hi, -, length⟩ := consistent.length_of_mem_rowLists inCount hi
    exact ⟨hi, length⟩

theorem Sweep.cheapest_of_columns (sweep : Sweep rule m v barred count p) (inCount : count ≤ m)
    (columns : Progress rule m v seen ((count - 1) * (count - 1)) (v.colLists count).length p q)
    (finished : q.finished = true) : q.Cheapest rule m v barred := by
  have searched := sweep.searched_columns consistent inCount columns
  have below := linesBelow_le m (fun j => (v.cols j).length) (count + 1)
  have below' := linesBelow_le m (fun i => (v.rows i).length) count
  refine columns.cheapest finished (by omega) (fun i j hj eligible short => ?_) ?_
  · exact columns.grows _ (sweep.columns i j hj eligible short)
  · intro both i j hj eligible short free
    exact columns.grows _ (sweep.rows both i j hj eligible short free)

theorem Sweep.cheapest_of_rows (sweep : Sweep rule m v barred count p) (inCount : count ≤ m)
    (columns : Progress rule m v (fun _ l => l ∈ v.colLists count) bound
      (v.colLists count).length p q) (going : q.finished = false)
    (rows : Progress rule m v seen (count * (count - 1)) (v.rowLists count).length q r)
    (finished : r.finished = true) : r.Cheapest rule m v barred := by
  have searched := sweep.searched_columns consistent inCount columns
  have searched' : r.searched ≤ q.searched + (v.rowLists count).length := rows.searched
  have rowLines := linesBelow_rows consistent inCount
  have below := linesBelow_le m (fun j => (v.cols j).length) (count + 1)
  have below' := linesBelow_le m (fun i => (v.rows i).length) (count + 1)
  refine rows.cheapest (x := count + 1) finished (by omega) (fun i j hj eligible short => ?_) ?_
  · exact rows.grows _ (sweep.columns_next consistent columns going hj eligible short)
  · intro both i j hj eligible short free
    exact rows.grows _ (columns.grows _ (sweep.rows both i j hj eligible short free))

theorem Sweep.next {bound' : Nat} {aside : List Nat}
    (sweep : Sweep rule m v barred count p) (inCount : count ≤ m)
    (columns : Progress rule m v (fun _ l => l ∈ v.colLists count) bound
      (v.colLists count).length p q) (goingOn : q.finished = false)
    (rows : Progress rule m v (fun k _ => k ∈ v.rowLists count) bound'
      (v.rowLists count).length q r) (going : r.finished = false) (moved : v.SetAside w m aside)
    (covered : r.CoversRows rule m v aside) : Sweep rule m w barred (count + 1) r := by
  have same := moved.same
  -- What the sweep covered before, the searches of the columns and of the rows still cover.
  have kept : ∀ x, p.Covers x → r.Covers x := fun x h => rows.grows x (columns.grows x h)
  constructor
  · exact rows.honest.of_same same
  · exact going
  · have searched := sweep.searched_columns consistent inCount columns
    have searched' : r.searched ≤ q.searched + (v.rowLists count).length := rows.searched
    have rowLines := linesBelow_rows consistent inCount
    rw [show w.rows = v.rows by rw [same], same.cols]
    omega
  · intro i j hj eligible short
    rw [cost_of_same same]
    exact rows.grows _ (sweep.columns_next consistent columns goingOn hj
      ((eligible_of_same same).mp eligible) (same.cols ▸ short))
  · intro both i j hj eligible short free
    have eligible := (eligible_of_same same).mp eligible
    rw [show w.rows = v.rows by rw [same]] at short
    rw [cost_of_same same]
    by_cases here : (v.rows i).length = count
    · rcases eligible.mem_rowLists_or consistent hj with listed | listed
      · exact rows.covered going i j hj (here ▸ listed) eligible
      · exact kept _ (sweep.aside i listed free j hj eligible)
    · exact kept _ (sweep.rows both i j hj eligible (by omega) free)
  · intro i listed free j hj eligible
    have eligible := (eligible_of_same same).mp eligible
    rw [cost_of_same same]
    rw [moved.last] at listed
    rcases List.mem_append.mp listed with before | new
    · exact kept _ (sweep.aside i before free j hj eligible)
    · exact covered i new j hj eligible

theorem Sweep.next_of_columns (sweep : Sweep rule m v barred count p) (inCount : count ≤ m)
    (columns : Progress rule m v (fun _ l => l ∈ v.colLists count) bound
      (v.colLists count).length p q) (going : q.finished = false)
    (only : ¬rule.searchRows = true) : Sweep rule m v barred (count + 1) q where
  honest := columns.honest
  going := going
  searched := by
    have searched := sweep.searched_columns consistent inCount columns
    have rowLines := linesBelow_rows consistent inCount
    omega
  columns i j := sweep.columns_next consistent columns going
  rows both := absurd both only
  aside i listed free j hj eligible := columns.grows _ (sweep.aside i listed free j hj eligible)

end Counts

theorem scanCounts_cheapest {remaining : Nat} {barred : List Nat} (shows : a.Shows m capacity v)
    (consistent : v.Consistent m rowsDone colsDone) (known : v.MaxKnown m colsDone)
    (positive : 0 < rule.relativeTolerance) (inCounts : count + remaining = m + 1)
    (sweep : Sweep rule m v barred count p) :
    ∃ q b w aside, scanCounts rule m remaining count p a = .ok q b ∧ b.Shows m capacity w ∧
      w.Consistent m rowsDone colsDone ∧ v.SetAside w m aside ∧ (∀ x, p.Covers x → q.Covers x) ∧
      q.CoversRows rule m v aside ∧ q.Cheapest rule m v barred := by
  induction remaining generalizing v p count a with
  | zero =>
    have all : ∀ i, ∀ j < m, Eligible rule v i j → p.Covers (v.cost i j) :=
      fun i j hj eligible => sweep.columns i j hj eligible (by
        have := consistent.col_length_le hj
        omega)
    exact ⟨p, a, v, [], rfl, shows, consistent, .refl v m, fun _ => id, by simp [CoversRows],
      sweep.honest, fun i j hj eligible none => by simpa [Covers, none] using all i j hj eligible,
      fun _ i j hj _ eligible => all i j hj eligible⟩
  | succ remaining ih =>
    have inCount : count ≤ m := by omega
    have inLists : count < m + 2 := by omega
    obtain ⟨q, -, runColumns⟩ := @scanColumns_ok _ _ _ _ _ _ rule _ _ _ consistent inLists [] _
      rfl (consistent.length_colLists_le inLists) (sweep.honest.sound sweep.going)
    have columns := @scanColumns_progress _ _ _ _ _ _ _ _ _ _ _ shows consistent known positive inLists
      [] _ rfl sweep.honest sweep.going (runColumns shows)
    have step := @scanCounts_succ _ _ _ _ _ rule _ remaining _ _ _ shows inLists
      (runColumns shows)
    by_cases ended : q.finished = true
    · refine ⟨q, a, v, [], ?_, shows, consistent, .refl v m, columns.grows, by simp [CoversRows],
        sweep.cheapest_of_columns consistent inCount columns ended⟩
      rw [step, if_pos ended]
      rfl
    have going := Bool.eq_false_of_not_eq_true ended
    by_cases both : rule.searchRows = true
    · obtain ⟨r, b, w, aside, runRows, shows', consistent', moved, covered, rows⟩ :=
        @scanRows_progress _ _ _ _ _ _ _ _ _ _ shows consistent known positive both inCount [] _ rfl
          (consistent.length_rowLists_le inLists) columns.honest going
      have grows : ∀ x, p.Covers x → r.Covers x := fun x h => rows.grows x (columns.grows x h)
      by_cases ended' : r.finished = true
      · refine ⟨r, b, w, aside, ?_, shows', consistent', moved, grows, covered,
          sweep.cheapest_of_rows consistent inCount columns going rows ended'⟩
        rw [step, if_neg ended, if_pos both, bind_of_ok runRows, if_pos ended']
        rfl
      have going' := Bool.eq_false_of_not_eq_true ended'
      have same := moved.same
      have next := sweep.next consistent inCount columns going rows going' moved covered
      obtain ⟨z, c, u, aside', run, shows'', consistent'', moved', grows', covered', cheapest⟩ :=
        ih shows' consistent' (same.maxKnown known) (by omega) next
      refine ⟨z, c, u, aside ++ aside', ?_, shows'', consistent'', moved.trans moved',
        fun x h => grows' x (grows x h), (covered.grow grows').append (covered'.of_same same),
        cheapest.of_same same⟩
      rw [step, if_neg ended, if_pos both, bind_of_ok runRows, if_neg ended', run]
    · have next := sweep.next_of_columns consistent inCount columns going both
      obtain ⟨z, c, u, aside, run, shows', consistent', moved, grows, covered, cheapest⟩ :=
        ih shows consistent known (by omega) next
      exact ⟨z, c, u, aside, by rw [step, if_neg ended, if_neg both, run], shows', consistent',
        moved, fun x h => grows x (columns.grows x h), covered, cheapest⟩

end PivotSearch

namespace SparseFactorization

variable {s t : SparseFactorization ℚ} {answer : Except Status (Option (Nat × Nat))}

theorem searchPivot_scanned (shows : s.active.Shows s.dimension capacity v)
    (consistent : v.Consistent s.dimension rowsDone colsDone)
    (known : v.MaxKnown s.dimension colsDone) (positive : 0 < s.relativeTolerance) :
    ∃ (q : PivotSearch) (t : SparseFactorization ℚ) (w : ActiveView ℚ) (aside : List Nat),
      searchPivot s = concludeSearch q.best t ∧ t.active.Shows s.dimension capacity w ∧
      w.Consistent s.dimension rowsDone colsDone ∧ v.SetAside w s.dimension aside ∧
      q.CoversRows s.searchRule s.dimension v aside ∧
      q.Cheapest s.searchRule s.dimension v (v.rowLists (s.dimension + 1)) ∧
      t = { s with
        active := t.active
        counters := { s.counters with searched := t.counters.searched } } := by
  obtain ⟨n, small, leastColumn, leastRow, runLeast⟩ :=
    @PivotSearch.leastCount_ok _ _ _ _ s.searchRule _ _ consistent
  obtain ⟨a, runLeast, shows⟩ := runLeast shows
  have start : PivotSearch.Sweep s.searchRule s.dimension v (v.rowLists (s.dimension + 1)) n
      .start :=
    { honest := by simp [PivotSearch.Honest, PivotSearch.start]
      going := rfl
      searched := Nat.zero_le _
      columns := fun i j hj eligible short => by
        obtain ⟨free, filled⟩ := eligible.col_open consistent hj
        exact absurd (leastColumn j hj free filled) (not_le.mpr short)
      rows := fun both i j hj eligible short unlisted => by
        obtain ⟨hi, free, filled⟩ := eligible.row_open consistent hj
        exact absurd (leastRow both i hi free filled unlisted) (not_le.mpr short)
      aside := fun i listed free => absurd listed free }
  obtain ⟨q, b, w, aside, runSearch, shows', consistent', moved, -, covered, cheapest⟩ :=
    PivotSearch.scanCounts_cheapest shows consistent known (by exact positive)
      (show n + (s.dimension + 1 - n) = s.dimension + 1 by omega) start
  refine ⟨q, { s with
    active := b
    counters := { s.counters with searched := s.counters.searched + q.searched } }, w, aside, ?_,
    shows', consistent', moved, covered, cheapest, rfl⟩
  rewrite [searchPivot, get_bind, bind_of_ok (onActive_run runLeast),
    bind_of_ok (onActive_run (by exact runSearch)), bind_of_ok (updateCounters_run _)]
  rfl

theorem searchPivot_eligible (shows : s.active.Shows s.dimension capacity v)
    (consistent : v.Consistent s.dimension rowsDone colsDone)
    (known : v.MaxKnown s.dimension colsDone) (positive : 0 < s.relativeTolerance)
    (run : searchPivot s = .ok (.ok (some (i, j))) t) :
    j < s.dimension ∧ Eligible s.searchRule v i j := by
  obtain ⟨q, u, -, -, scanned, -, -, -, -, cheapest, -⟩ :=
    searchPivot_scanned shows consistent known positive
  rw [scanned] at run
  rcases best : q.best with _ | c
  · rw [best, concludeSearch, get_bind] at run
    split at run <;> cases run
  · rw [best] at run
    cases run
    obtain ⟨hj, eligible, -⟩ := cheapest.honest c best
    exact ⟨hj, eligible⟩

/-- What the search for a pivot answers in a state that shows `v`, and the state `t` that it leaves,
which shows `w`. The search sets the rows `aside`. -/
structure Answered (s : SparseFactorization ℚ) (v : ActiveView ℚ)
    (answer : Except Status (Option (Nat × Nat))) (t : SparseFactorization ℚ) (w : ActiveView ℚ)
    (aside : List Nat) : Prop where
  found : (∃ i, ∃ j < s.dimension, Eligible s.searchRule v i j) →
    ∃ i j, answer = .ok (some (i, j))
  eligible : ∀ i j, answer = .ok (some (i, j)) → j < s.dimension ∧ Eligible s.searchRule v i j
  nearSingular : 0 < v.nonzeros → (¬∃ i, ∃ j < s.dimension, Eligible s.searchRule v i j) →
    answer = .error .nearSingular
  empty : v.nonzeros = 0 → answer = .ok none
  /-- Not cut short by the number of its lines, the search finds a cheapest entry. -/
  least : ∀ i j, answer = .ok (some (i, j)) → 2 * s.dimension < s.options.maxSearch →
    ∀ k, ∀ l < s.dimension, k ∉ v.rowLists (s.dimension + 1) → Eligible s.searchRule v k l →
      v.cost i j ≤ v.cost k l
  /-- Nothing cheaper is set aside, however short the search. -/
  rejected : ∀ i j, answer = .ok (some (i, j)) → ∀ k ∈ aside, ∀ l < s.dimension,
    Eligible s.searchRule v k l → v.cost i j ≤ v.cost k l
  aside : v.SetAside w s.dimension aside
  frame : t = { s with
    active := t.active
    counters := { s.counters with searched := t.counters.searched } }

/-- With exact scalars the search for a pivot is complete, and minimal unless the number of its
lines cuts it short. -/
theorem searchPivot_cheapest (shows : s.active.Shows s.dimension capacity v)
    (consistent : v.Consistent s.dimension rowsDone colsDone)
    (known : v.MaxKnown s.dimension colsDone) (positive : 0 < s.relativeTolerance) :
    ∃ answer t w aside, searchPivot s = .ok answer t ∧
      t.active.Shows s.dimension capacity w ∧ w.Consistent s.dimension rowsDone colsDone ∧
      s.Answered v answer t w aside := by
  obtain ⟨q, t, w, aside, run, shows', consistent', moved, covered, cheapest, frame⟩ :=
    searchPivot_scanned shows consistent known positive
  have nonzeros : t.active.nonzeros = v.nonzeros := shows'.nonzeros.trans (by rw [moved.same])
  rcases best : q.best with _ | c
  · -- Nothing is eligible, so only the number of entries tells the two answers apart.
    have barren : ¬∃ i, ∃ j < s.dimension, Eligible s.searchRule v i j := by
      rintro ⟨i, j, hj, eligible⟩
      exact cheapest.complete i j hj eligible best
    rw [best, concludeSearch, get_bind, nonzeros] at run
    by_cases left : 0 < v.nonzeros
    · rw [if_pos left] at run
      exact ⟨_, t, w, aside, run, shows', consistent',
        { found := fun some => absurd some barren
          eligible := by simp
          nearSingular := fun _ _ => rfl
          empty := fun zero => absurd zero left.ne'
          least := by simp
          rejected := by simp
          aside := moved
          frame := frame }⟩
    · rw [if_neg left] at run
      exact ⟨_, t, w, aside, run, shows', consistent',
        { found := fun some => absurd some barren
          eligible := by simp
          nearSingular := fun filled => absurd filled left
          empty := fun _ => rfl
          least := by simp
          rejected := by simp
          aside := moved
          frame := frame }⟩
  · obtain ⟨hj, eligible, cost⟩ := cheapest.honest c best
    have cheaper : ∀ {x : Nat}, q.Covers x → v.cost c.row c.col ≤ x := by
      rintro x ⟨d, found, cheap⟩
      cases best.symm.trans found
      exact cost ▸ cheap
    rw [best] at run
    exact ⟨_, t, w, aside, run, shows', consistent',
      { found := fun _ => ⟨c.row, c.col, rfl⟩
        eligible := by
          rintro _ _ ⟨⟩
          exact ⟨hj, eligible⟩
        nearSingular := fun _ barren => absurd ⟨c.row, c.col, hj, eligible⟩ barren
        empty := fun zero => absurd zero (eligible.nonzeros_pos consistent hj).ne'
        least := by
          rintro _ _ ⟨⟩ enough k l hl unlisted entry
          exact cheaper (cheapest.least (enough.trans_le (Nat.le_max_left ..)) k l hl unlisted entry)
        rejected := by
          rintro _ _ ⟨⟩ k hk l hl entry
          exact cheaper (covered k hk l hl entry)
        aside := moved
        frame := frame }⟩

/-- The only entry of row 1 is small for its column. -/
def overshadowed : BasisMatrix ℚ :=
  ⟨3, .ofLines [[(0, 100), (1, 1)], [(0, 1), (2, 1)], [(0, 1), (2, 2)]]⟩

/-- The row with the small entry is set aside before the pivot is found. -/
theorem cheapest_of_overshadowed : ∃ (s t : SparseFactorization ℚ) (capacity : Nat)
    (v w : ActiveView ℚ) (rowsDone colsDone aside : List Nat),
    s.active.Shows s.dimension capacity v ∧ v.Consistent s.dimension rowsDone colsDone ∧
    v.MaxKnown s.dimension colsDone ∧ 0 < s.relativeTolerance ∧
    2 * s.dimension < s.options.maxSearch ∧ searchPivot s = .ok (.ok (some (2, 1))) t ∧
    t.active.rowCounts.toList 4 = .ok [1] ∧ s.Answered v (.ok (some (2, 1))) t w aside := by
  obtain ⟨⟨u, answer⟩, t, run, check⟩ := @exists_ok_of_check _ _ (do
      allocate 3 20 20
      load overshadowed
      let u ← get
      modify fun s => s.begun .standard
      let answer ← searchPivot
      return (u, answer) : Action (SparseFactorization ℚ)
        (SparseFactorization ℚ × Except Status (Option (Nat × Nat))))
      (new { exactly with maxSearch := 7 })
    (fun (u, answer) t => answer.toOption == some (some (2, 1)) && u.pending.isNone &&
      u.dimension == 3 && u.options.maxSearch == 7 &&
      decide (0 < (u.begun .standard).relativeTolerance) &&
      (t.active.rowCounts.toList 4).toOption == some [1]) (by decide +kernel)
  obtain ⟨_, q, allocated, rest⟩ := ok_of_bind run
  obtain ⟨_, u', loaded, rest⟩ := ok_of_bind rest
  rw [get_bind, modify_bind] at rest
  obtain ⟨_, _, search, ⟨⟩⟩ := ok_of_bind rest
  simp only [Bool.and_eq_true, beq_iff_eq, Option.isNone_iff_eq_none, decide_eq_true_iff] at check
  obtain ⟨⟨⟨⟨⟨pivot, complete⟩, dimension⟩, lines⟩, positive⟩, listed⟩ := check
  have reached : Reached { exactly with maxSearch := 7 } overshadowed (u.begun .standard) :=
    (Reached.load (BasisMatrix.accepted_of_isOk (by decide +kernel)) rfl allocated loaded
      complete).keep ⟨rfl, rfl, rfl, rfl, rfl, rfl⟩
  obtain ⟨stages, v, working, known⟩ := reached.shown (by decide +kernel)
  obtain ⟨answer', t', w, aside, search', -, -, answered⟩ := searchPivot_cheapest working.active
    working.consistent (known inferInstance) positive
  cases search.symm.trans search'
  cases eq_ok_of_toOption pivot
  exact ⟨u.begun .standard, t, _, v, w, _, _, aside, working.active, working.consistent,
    known inferInstance, positive, by change 2 * u.dimension < u.options.maxSearch; omega, search,
    eq_ok_of_toOption listed, answered⟩

end SparseFactorization

end SimplexBasis
