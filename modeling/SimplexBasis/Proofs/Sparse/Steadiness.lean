import SimplexBasis.Proofs.Steady
import SimplexBasis.Sparse.Factorizing
import SimplexBasis.Sparse.Loading

/-!
# Steadiness of the sparse factorization

Nothing in the sparse factorization reads the journal, the work on the active submatrix fails for
want of space only, and a factorization leaves its outline as it is: the phase, the pending status,
the options, the areas and the etas. Three frames are told apart, by what a part of a pivot, a whole
pivot and a whole factorization leave.
-/

set_option linter.unusedSectionVars false

namespace SimplexBasis

variable {α β ε σ : Type} [Scalar α] {F : Status → Prop}

/-! ### Storage -/

namespace LineFile

variable {line offset position : Nat} {entries : List ε} {spare : Nat → Nat}

theorem clearLine_raises : Raises F (clearLine line : Action (LineFile ε) Unit) := by
  unfold clearLine
  exact Raises.get_bind fun s => (Steady.lift _).bind fun _ => Raises.put

theorem swapRemove_raises : Raises F (swapRemove line offset : Action (LineFile ε) Unit) := by
  unfold swapRemove
  refine Raises.get_bind fun s => (Steady.lift _).bind fun first => Raises.get_bind fun s =>
    (Steady.lift _).bind fun last => (Steady.require _ _).bind fun _ => Steady.bind Raises.put fun _ =>
    Raises.get_bind fun s => (Steady.lift _).bind fun _ => Raises.put

theorem writeAt_raises : Raises F (writeAt position entries : Action (LineFile ε) Unit) := by
  unfold writeAt
  exact Raises.get_bind fun s => (Steady.require _ _).bind fun _ => Raises.modify

theorem moveTo_raises : Raises F (moveTo line position : Action (LineFile ε) Nat) := by
  unfold moveTo
  exact Raises.get_bind fun s => (Steady.lift _).bind fun _ => writeAt_raises.bind fun _ =>
    Steady.bind Raises.put fun _ => Steady.bind Raises.put fun _ => Steady.pure _

theorem growInPlace_raises : Raises F (growInPlace line offset : Action (LineFile ε) Bool) := by
  unfold growInPlace
  refine Raises.get_bind fun s => (Steady.lift _).bind fun room => ?_
  split
  · exact Steady.pure _
  · refine (Steady.lift _).bind fun next => ?_
    dsimp only
    split
    · exact (Steady.lift _).bind fun stop => (Steady.lift _).bind fun unused =>
        Steady.bind Raises.put fun _ => Steady.pure _
    · exact Steady.pure _

theorem reappend_raises : Raises F (reappend line offset : Action (LineFile ε) Unit) := by
  unfold reappend
  exact Raises.get_bind fun s => Raises.get_bind fun s => (Steady.lift _).bind fun unused =>
    Raises.get_bind fun s => (Steady.lift _).bind fun length => Raises.get_bind fun s =>
    (Steady.lift _).bind fun free => (Steady.require _ _).bind fun _ => moveTo_raises.bind fun last =>
    Steady.bind Raises.put fun _ => Raises.get_bind fun s => (Steady.lift _).bind fun before =>
    Raises.get_bind fun s => (Steady.lift _).bind fun behind => Steady.bind Raises.put fun _ =>
    Steady.bind Raises.put fun _ => Raises.get_bind fun s => (Steady.lift _).bind fun final =>
    Steady.bind Raises.put fun _ => Steady.bind Raises.put fun _ => Steady.bind Raises.put fun _ =>
    Raises.put

theorem compressFrom_raises {fuel used extra : Nat} :
    Raises F (compressFrom spare fuel line used extra : Action (LineFile ε) (Nat × Nat)) := by
  induction fuel generalizing line used extra with
  | zero => exact Steady.breach _
  | succ fuel ih =>
    unfold compressFrom
    refine Raises.get_bind fun s => ?_
    split
    · exact Raises.get_bind fun s => (Steady.lift _).bind fun first => (Steady.require _ _).bind fun _ =>
        moveTo_raises.bind fun last => Raises.get_bind fun s => (Steady.lift _).bind fun next => ih
    · exact Steady.pure _

theorem compress_raises : Raises F (compress spare : Action (LineFile ε) Unit) := by
  unfold compress
  exact Raises.get_bind fun s => Raises.get_bind fun s => (Steady.lift _).bind fun first =>
    compressFrom_raises.bind fun ends => Raises.get_bind fun s => (Steady.lift _).bind fun unused =>
    (Steady.require _ _).bind fun _ => Steady.bind Raises.put fun _ => Raises.modify

theorem reserve_raises : Raises (· = .outOfMemory) (reserve line offset spare : Action (LineFile ε) Unit) := by
  unfold reserve
  refine growInPlace_raises.bind fun grown => ?_
  split
  · exact Steady.pure _
  · refine Raises.get_bind fun s => (Steady.lift _).bind fun length => Raises.get_bind fun s =>
      (Steady.lift _).bind fun free => ?_
    have rest : ∀ needed wanted : Nat, Raises (· = .outOfMemory) (do
        let free ← (← get).freeSpace
        reappend line (Word.add offset (min wanted (Word.sub free needed))) :
          Action (LineFile ε) Unit) := fun needed wanted =>
      Raises.get_bind fun s => (Steady.lift _).bind fun free => reappend_raises
    dsimp only
    split
    · refine compress_raises.bind fun _ => growInPlace_raises.bind fun grown => ?_
      split
      · exact Steady.pure _
      · refine Raises.get_bind fun s => (Steady.lift _).bind fun free => ?_
        split
        · exact (Steady.fail (F := (· = .outOfMemory)) rfl).bind fun _ => rest _ _
        · exact rest _ _
    · exact rest _ _

theorem setLine_raises : Raises (· = .outOfMemory) (setLine line entries spare : Action (LineFile ε) Unit) := by
  unfold setLine
  refine Raises.get_bind fun s => (Steady.lift _).bind fun length => ?_
  have rest : Raises (· = .outOfMemory) (do
      let first ← entry (← get).start line
      writeAt first entries
      setStop line (first + entries.length) : Action (LineFile ε) Unit) :=
    Raises.get_bind fun s => (Steady.lift _).bind fun first => writeAt_raises.bind fun _ => Raises.put
  dsimp only
  split
  · exact reserve_raises.bind fun _ => rest
  · exact rest

end LineFile

namespace CountLists

variable {e list : Nat}

theorem add_raises : Raises F (add e list) := by
  unfold add
  refine Raises.get_bind fun s => (Steady.require _ _).bind fun _ => Raises.get_bind fun s =>
    (Steady.lift _).bind fun next => (Steady.require _ _).bind fun _ => Raises.get_bind fun s =>
    (Steady.lift _).bind fun prev => (Steady.require _ _).bind fun _ => Raises.get_bind fun s =>
    Raises.get_bind fun s => (Steady.lift _).bind fun last => Steady.bind Raises.put fun _ =>
    Steady.bind Raises.put fun _ => Steady.bind Raises.put fun _ => Steady.bind Raises.put fun _ =>
    Raises.modify

theorem remove_raises : Raises F (remove e) := by
  unfold remove
  exact Raises.get_bind fun s => (Steady.lift _).bind fun next => Raises.get_bind fun s =>
    (Steady.lift _).bind fun prev => Steady.bind Raises.put fun _ => Steady.bind Raises.put fun _ =>
    Steady.bind Raises.put fun _ => Raises.put

theorem moveTo_raises : Raises F (moveTo e list) := remove_raises.bind fun _ => add_raises

theorem advance_raises {remaining : Nat} : Raises F (advance remaining) := by
  induction remaining with
  | zero => exact Steady.pure _
  | succ remaining ih =>
    unfold advance
    refine Raises.get_bind fun s => (Steady.lift _).bind fun first => ?_
    split
    · exact Steady.bind Raises.modify fun _ => ih
    · exact Steady.pure _

theorem leastNonempty_raises : Raises F leastNonempty := by
  unfold leastNonempty
  exact Raises.get_bind fun s => Raises.get_bind fun s => advance_raises.bind fun _ =>
    Raises.get_bind fun s => Steady.pure _

end CountLists

/-! ### The active submatrix -/

namespace Active

variable {i j old new : Nat} {x : α}

theorem onCols_raises {act : Action (LineFile (Nat × α)) β} (h : Raises F act) :
    Raises F (onCols act) := Steady.run h (fun _ => rfl) (fun _ _ => rfl) fun _ _ => rfl

theorem onRows_raises {act : Action (LineFile Nat) β} (h : Raises F act) :
    Raises F (onRows act : Action (Active α) β) :=
  Steady.run h (fun _ => rfl) (fun _ _ => rfl) fun _ _ => rfl

theorem onColCounts_raises {act : Action CountLists β} (h : Raises F act) :
    Raises F (onColCounts act : Action (Active α) β) :=
  Steady.run h (fun _ => rfl) (fun _ _ => rfl) fun _ _ => rfl

theorem onRowCounts_raises {act : Action CountLists β} (h : Raises F act) :
    Raises F (onRowCounts act : Action (Active α) β) :=
  Steady.run h (fun _ => rfl) (fun _ _ => rfl) fun _ _ => rfl

theorem setColMax_raises : Raises F (setColMax j x : Action (Active α) Unit) := Raises.put

theorem recount_raises : Raises F (recount old new : Action (Active α) Unit) := Raises.modify

theorem removeFromColumn_raises : Raises F (removeFromColumn i j : Action (Active α) (α × Nat)) := by
  unfold removeFromColumn
  refine Raises.get_bind fun s => (Steady.lift _).bind fun offset? => ?_
  split
  · refine Raises.get_bind fun s => (Steady.lift _).bind fun x? => ?_
    split
    · refine (onCols_raises LineFile.swapRemove_raises).bind fun _ => Raises.get_bind fun s =>
        (Steady.lift _).bind fun length => (onColCounts_raises CountLists.moveTo_raises).bind fun _ =>
        Raises.get_bind fun s => (Steady.lift _).bind fun largest => ?_
      dsimp only
      split
      · exact Raises.get_bind fun s => (Steady.lift _).bind fun y => setColMax_raises.bind fun _ =>
          recount_raises.bind fun _ => Steady.pure _
      · exact recount_raises.bind fun _ => Steady.pure _
    · exact Steady.breach _
  · exact Steady.breach _

theorem removeFromRow_raises : Raises F (removeFromRow i j : Action (Active α) Nat) := by
  unfold removeFromRow
  refine Raises.get_bind fun s => (Steady.lift _).bind fun offset? => ?_
  split
  · exact (onRows_raises LineFile.swapRemove_raises).bind fun _ => Raises.get_bind fun s =>
      (Steady.lift _).bind fun length => (onRowCounts_raises CountLists.moveTo_raises).bind fun _ =>
      recount_raises.bind fun _ => Steady.pure _
  · exact Steady.breach _

theorem drop_raises : Raises F (drop i j : Action (Active α) Unit) :=
  (onCols_raises LineFile.clearLine_raises).bind fun _ =>
    (onRows_raises LineFile.clearLine_raises).bind fun _ =>
    (onColCounts_raises CountLists.remove_raises).bind fun _ =>
    onRowCounts_raises CountLists.remove_raises

end Active

namespace PivotSearch

variable {rule : SearchRule α} {rejected count i m : Nat} {p : PivotSearch}

theorem scanRow_raises : Raises F (scanRow rule rejected count i p) := by
  unfold scanRow
  refine Raises.get_bind fun s => (Steady.lift _).bind fun line => (Steady.lift _).bind fun r => ?_
  split
  · exact Steady.pure _
  · split
    · exact (Active.onRowCounts_raises CountLists.moveTo_raises).bind fun _ => Steady.pure _
    · exact Steady.pure _

theorem scanRows_raises {fuel : Nat} {first : Option Nat} :
    Raises F (scanRows rule rejected count fuel first p) := by
  induction fuel generalizing first p with
  | zero =>
    cases first with
    | none => exact Steady.pure _
    | some i => exact Steady.breach _
  | succ fuel ih =>
    cases first with
    | none => exact Steady.pure _
    | some i =>
      unfold scanRows
      refine Raises.get_bind fun s => (Steady.lift _).bind fun next => scanRow_raises.bind fun p => ?_
      split
      · exact Steady.pure _
      · exact ih

theorem scanCounts_raises {remaining : Nat} : Raises F (scanCounts rule m remaining count p) := by
  induction remaining generalizing count p with
  | zero => exact Steady.pure _
  | succ remaining ih =>
    unfold scanCounts
    refine Raises.get_bind fun s => (Steady.lift _).bind fun first => (Steady.lift _).bind fun p => ?_
    split
    · exact Steady.pure _
    · split
      · refine Raises.get_bind fun s => (Steady.lift _).bind fun first => scanRows_raises.bind fun p => ?_
        split
        · exact Steady.pure _
        · exact ih
      · exact ih

theorem leastCount_raises : Raises F (leastCount rule m) := by
  unfold leastCount
  refine (Active.onColCounts_raises CountLists.leastNonempty_raises).bind fun cols => ?_
  dsimp only
  split
  · exact (Active.onRowCounts_raises CountLists.leastNonempty_raises).bind fun rows => Steady.pure _
  · exact (Steady.pure _).bind fun rows => Steady.pure _

end PivotSearch

/-! ### Frames -/

namespace SparseFactorization

/-- The state with more records in front of its journal. -/
def noted (records : Array Record) (s : SparseFactorization α) : SparseFactorization α :=
  { s with journal := records ++ s.journal }

/-- What the parts of a pivot before the last one leave as it is. -/
def still (s : SparseFactorization α) : SparseFactorization α :=
  { s with
    active := .void
    factors := { Factors.blank 0 with
      pivotRows := s.factors.pivotRows
      pivotCols := s.factors.pivotCols }
    workspace := .blank 0
    counters := { Counters.zero with
      slacks := s.counters.slacks
      singletons := s.counters.singletons
      searched := s.counters.searched
      relaxed := s.counters.relaxed
      denseSize := s.counters.denseSize }
    absoluteTolerance := 0
    relativeTolerance := 0
    journal := #[] }

/-- What a pivot leaves as it is. -/
def tally (s : SparseFactorization α) : SparseFactorization α :=
  { s.still with factors := .blank 0 }

/-- What a factorization leaves as it is until it ends, as long as no search is repeated. -/
def strict (s : SparseFactorization α) : SparseFactorization α :=
  { s.tally with counters := { Counters.zero with relaxed := s.counters.relaxed } }

/-- What a factorization leaves as it is until it ends. -/
def outline (s : SparseFactorization α) : SparseFactorization α :=
  { s.strict with counters := .zero }

variable {records : Array Record} {i j : Nat} {x : α}

/-- A part of a pivot. -/
abbrev Still (records : Array Record) (act : Action (SparseFactorization α) β) : Prop :=
  Steady (noted records) still (· = .outOfMemory) act

/-- A pivot. -/
abbrev Tally (records : Array Record) (act : Action (SparseFactorization α) β) : Prop :=
  Steady (noted records) tally (· = .outOfMemory) act

theorem Still.tally {act : Action (SparseFactorization α) β} (h : Still records act) :
    Tally records act :=
  h.mono (fun _ _ same =>
    congrArg (fun s : SparseFactorization α => { s with factors := .blank 0 }) same) fun _ => id

/-! ### Pivots -/

theorem onActive_steady {κ : Type} {frame : SparseFactorization α → κ} {act : Action (Active α) β}
    (h : Raises F act)
    (kept : ∀ (f : Active α → Active α) s, frame { s with active := f s.active } = frame s) :
    Steady (noted records) frame F (onActive act) :=
  Steady.run h (fun _ => rfl) (fun _ _ => rfl) kept

theorem onActive_still {act : Action (Active α) β} (h : Raises (· = .outOfMemory) act) :
    Still records (onActive act) := onActive_steady h fun _ _ => rfl

theorem updateWorkspace_still (f : Workspace α → Workspace α) :
    Still records (updateWorkspace f) := Steady.modify (fun _ => rfl) fun _ => rfl

theorem setSlot_still (place : Option Nat) :
    Still records (setSlot i place : Action (SparseFactorization α) Unit) := by
  unfold setSlot
  exact Steady.get_bind (fun _ => rfl) fun s => (Steady.require _ _).bind fun _ =>
    updateWorkspace_still _

theorem mark_still : Still records (mark j : Action (SparseFactorization α) Unit) := by
  unfold mark
  exact Steady.get_bind (fun _ => rfl) fun s => (Steady.require _ _).bind fun _ =>
    updateWorkspace_still _

theorem log_steady {κ : Type} {frame : SparseFactorization α → κ} (level : Level) (message : String)
    (kept : ∀ (xs : Array Record) s, frame { s with journal := xs } = frame s) :
    Steady (noted records) frame F (log level message) :=
  Steady.modify (fun s => by simp [noted]) fun _ => kept _ _

theorem checkLower_still (extra : Nat) :
    Still records (checkLower extra : Action (SparseFactorization α) Unit) := by
  unfold checkLower
  refine Steady.get_bind (fun _ => rfl) fun s => ?_
  split
  · exact Steady.fail rfl
  · exact Steady.pure _

theorem checkUpper_still (extra : Nat) :
    Still records (checkUpper extra : Action (SparseFactorization α) Unit) := by
  unfold checkUpper
  refine Steady.get_bind (fun _ => rfl) fun s => ?_
  split
  · exact Steady.fail rfl
  · exact Steady.pure _

theorem moveToUpper_still (stack : List Nat) :
    Still records (moveToUpper i stack j : Action (SparseFactorization α) (List Nat)) :=
  (onActive_still Active.removeFromColumn_raises).bind fun _ =>
    Steady.bind (Steady.modify (fun _ => rfl) fun _ => rfl) fun _ => Steady.pure _

theorem moveToLower_still (pivot : α) (stack : List Nat) (e : Nat × α) :
    Still records (moveToLower j pivot stack e) :=
  Steady.bind (Steady.modify (fun _ => rfl) fun _ => rfl) fun _ =>
    (onActive_still Active.removeFromRow_raises).bind fun _ => Steady.pure _

theorem closeStage_tally : Tally records (closeStage i j x) :=
  Steady.bind (Steady.modify (fun _ => rfl) fun _ => rfl) fun _ =>
    Steady.modify (fun _ => rfl) fun _ => rfl

theorem pivotColumnSingleton_tally :
    Tally records (pivotColumnSingleton i j : Action (SparseFactorization α) (List Nat)) := by
  unfold pivotColumnSingleton
  refine Steady.get_bind (fun _ => rfl) fun s => (Steady.lift _).bind fun line => ?_
  split
  · exact (Steady.require _ _).bind fun _ => Steady.get_bind (fun _ => rfl) fun s =>
      (Steady.lift _).bind fun line => (checkUpper_still _).tally.bind fun _ =>
      (Steady.foldlM fun stack k => (moveToUpper_still stack).tally).bind fun stack =>
      (onActive_still Active.drop_raises).tally.bind fun _ =>
      (onActive_still Active.recount_raises).tally.bind fun _ => closeStage_tally.bind fun _ => Steady.pure _
  · exact Steady.breach _

theorem pivotRowSingleton_tally :
    Tally records (pivotRowSingleton i j : Action (SparseFactorization α) (List Nat)) := by
  unfold pivotRowSingleton
  refine Steady.get_bind (fun _ => rfl) fun s => (Steady.lift _).bind fun length =>
    (Steady.require _ _).bind fun _ => Steady.get_bind (fun _ => rfl) fun s =>
    (Steady.lift _).bind fun pivot? => ?_
  split
  · exact Steady.get_bind (fun _ => rfl) fun s => (Steady.lift _).bind fun line =>
      (checkLower_still _).tally.bind fun _ =>
      (Steady.foldlM fun stack e => (moveToLower_still _ stack e).tally).bind fun stack =>
      Steady.bind (Steady.modify (fun _ => rfl) fun _ => rfl) fun _ =>
      (onActive_still Active.drop_raises).tally.bind fun _ =>
      (onActive_still Active.recount_raises).tally.bind fun _ => closeStage_tally.bind fun _ => Steady.pure _
  · exact Steady.breach _

theorem writeColumn_still (kept : Array (Array Nat)) (u : Nat × ColumnUpdate α) :
    Still records (writeColumn kept u) := by
  obtain ⟨j, update⟩ := u
  unfold writeColumn
  refine Steady.get_bind (fun _ => rfl) fun s => ?_
  dsimp only
  refine (Steady.foldlM fun kept e => ?_).bind fun kept => (onActive_still ?_).bind fun _ =>
    Steady.bind (Steady.modify (fun _ => rfl) fun _ => rfl) fun _ => Steady.pure _
  · refine (Steady.lift _).bind fun place => ?_
    split <;> exact Steady.pure _
  · exact Raises.get_bind fun a => (Steady.lift _).bind fun old =>
      (Active.onCols_raises LineFile.setLine_raises).bind fun _ => Active.recount_raises.bind fun _ =>
      Active.setColMax_raises.bind fun _ => Active.onColCounts_raises CountLists.moveTo_raises

theorem writeRow_still (row : Nat × List Nat) :
    Still records (writeRow row : Action (SparseFactorization α) Unit) := by
  obtain ⟨i, pattern⟩ := row
  unfold writeRow
  exact Steady.get_bind (fun _ => rfl) fun s => onActive_still
    ((Active.onRows_raises LineFile.setLine_raises).bind fun _ =>
      Active.onRowCounts_raises CountLists.moveTo_raises)

theorem eliminate_still (multipliers upperRow : List (Nat × α)) :
    Still records (eliminate i j multipliers upperRow) := by
  unfold eliminate
  exact Steady.get_bind (fun _ => rfl) fun s => (Steady.lift _).bind fun updates =>
    (updateWorkspace_still _).bind fun _ => (Steady.forM fun k => mark_still).bind fun _ =>
    (Steady.foldlM writeColumn_still).bind fun kept => Steady.get_bind (fun _ => rfl) fun s =>
    (Steady.lift _).bind fun patterns => Steady.forM writeRow_still

theorem pivotGeneral_tally :
    Tally records (pivotGeneral i j : Action (SparseFactorization α) Unit) := by
  unfold pivotGeneral
  refine Steady.get_bind (fun _ => rfl) fun s => (Steady.lift _).bind fun pivot? => ?_
  split
  · refine (Steady.lift _).bind fun line => ?_
    dsimp only
    refine (Steady.lift _).bind fun pattern => (Steady.mapM fun k =>
      (Steady.lift _).bind fun x? => Steady.pure _).bind fun upperRow =>
      (checkLower_still _).tally.bind fun _ => (checkUpper_still _).tally.bind fun _ =>
      (Steady.forM fun e => (setSlot_still _).tally).bind fun _ =>
      Steady.attempt (eliminate_still _ _).tally fun outcome allowed =>
      (Steady.forM fun e => (setSlot_still _).tally).bind fun _ => ?_
    have rest : ∀ (f g : Factors α → Factors α) (x : α), Tally records (do
        updateFactors f
        updateFactors g
        onActive do
          Active.recount (← (← get).cols.length j) 0
          Active.drop i j
        closeStage i j x) := fun f g x =>
      Steady.bind (Steady.modify (fun _ => rfl) fun _ => rfl) fun _ =>
        Steady.bind (Steady.modify (fun _ => rfl) fun _ => rfl) fun _ =>
        (onActive_still (Raises.get_bind fun a => (Steady.lift _).bind fun _ =>
          Active.recount_raises.bind fun _ => Active.drop_raises)).tally.bind fun _ => closeStage_tally
    cases outcome with
    | error e =>
      refine (Steady.throw_stop fun status stopped => ?_).bind fun _ => rest _ _ _
      exact allowed status (congrArg Except.error stopped)
    | ok _ => exact rest _ _ _
  · exact Steady.breach _

theorem pivotOn_tally : Tally records (pivotOn i j : Action (SparseFactorization α) Unit) := by
  unfold pivotOn
  refine Steady.get_bind (fun _ => rfl) fun s => (Steady.lift _).bind fun column => ?_
  split
  · exact pivotColumnSingleton_tally.bind fun _ => Steady.pure _
  · refine (Steady.lift _).bind fun row => ?_
    split
    · exact pivotRowSingleton_tally.bind fun _ => Steady.pure _
    · exact pivotGeneral_tally

/-! ### Phases of a factorization -/

/-- A part of a factorization without a repeated search. -/
abbrev Strict (records : Array Record) (act : Action (SparseFactorization α) β) : Prop :=
  Steady (noted records) strict (· = .outOfMemory) act

/-- A part of a factorization. -/
abbrev Outlined (records : Array Record) (act : Action (SparseFactorization α) β) : Prop :=
  Steady (noted records) outline (· = .outOfMemory) act

theorem Tally.strict {act : Action (SparseFactorization α) β} (h : Tally records act) :
    Strict records act :=
  h.mono (fun _ _ same => congrArg (fun s : SparseFactorization α =>
    { s with counters := { Counters.zero with relaxed := s.counters.relaxed } }) same) fun _ => id

theorem Still.strict {act : Action (SparseFactorization α) β} (h : Still records act) :
    Strict records act := h.tally.strict

theorem outlined_of_strict {act : Action (SparseFactorization α) β}
    (h : Steady (noted records) strict F act) : Steady (noted records) outline F act :=
  h.mono (fun _ _ same =>
    congrArg (fun s : SparseFactorization α => { s with counters := .zero }) same) fun _ => id

theorem updateCounters_strict {f : Counters α → Counters α}
    (kept : ∀ c, (f c).relaxed = c.relaxed) :
    Steady (noted records) strict F (updateCounters f) :=
  Steady.modify (fun _ => rfl) fun s => congrArg (fun n : Nat =>
    { s.tally with counters := { Counters.zero with relaxed := n } }) (kept s.counters)

theorem columnCascade_strict {fuel : Nat} {stack : List Nat} :
    Strict records (columnCascade fuel stack : Action (SparseFactorization α) Unit) := by
  induction fuel generalizing stack with
  | zero =>
    cases stack with
    | nil => exact Steady.pure _
    | cons j stack => exact Steady.breach _
  | succ fuel ih =>
    cases stack with
    | nil => exact Steady.pure _
    | cons j stack =>
      unfold columnCascade
      refine Steady.get_bind (fun _ => rfl) fun s => (Steady.lift _).bind fun done => ?_
      split
      · exact ih
      · refine (Steady.lift _).bind fun line => ?_
        split
        · split
          · exact ih
          · exact pivotColumnSingleton_tally.strict.bind fun fresh =>
              (updateCounters_strict fun _ => by rfl).bind fun _ => ih
        · exact ih

theorem rowCascade_strict {fuel : Nat} {stack : List Nat} :
    Strict records (rowCascade fuel stack : Action (SparseFactorization α) Unit) := by
  induction fuel generalizing stack with
  | zero =>
    cases stack with
    | nil => exact Steady.pure _
    | cons i stack => exact Steady.breach _
  | succ fuel ih =>
    cases stack with
    | nil => exact Steady.pure _
    | cons i stack =>
      unfold rowCascade
      refine Steady.get_bind (fun _ => rfl) fun s => (Steady.lift _).bind fun done => ?_
      split
      · exact ih
      · refine (Steady.lift _).bind fun line => ?_
        split
        · refine (Steady.lift _).bind fun x => ?_
          dsimp only
          split
          · exact ih
          · exact pivotRowSingleton_tally.strict.bind fun fresh =>
              (updateCounters_strict fun _ => by rfl).bind fun _ => ih
        · exact ih

theorem columnSingletons_strict :
    Strict records (columnSingletons : Action (SparseFactorization α) Unit) :=
  Steady.get_bind (fun _ => rfl) fun _ => (Steady.lift _).bind fun _ => (Steady.lift _).bind fun _ =>
    columnCascade_strict

theorem rowSingletons_strict :
    Strict records (rowSingletons : Action (SparseFactorization α) Unit) :=
  Steady.get_bind (fun _ => rfl) fun _ => (Steady.lift _).bind fun _ => (Steady.lift _).bind fun _ =>
    rowCascade_strict

theorem singletons_strict :
    Strict records (singletons : Action (SparseFactorization α) Unit) := by
  unfold singletons
  refine Steady.get_bind (fun _ => rfl) fun s => ?_
  split
  · exact columnSingletons_strict.bind fun _ => rowSingletons_strict
  · exact rowSingletons_strict.bind fun _ => columnSingletons_strict

theorem logCompressions_strict (seen : Nat) :
    Strict records (logCompressions seen : Action (SparseFactorization α) Nat) := by
  unfold logCompressions
  refine Steady.get_bind (fun _ => rfl) fun s => ?_
  split
  · exact (Steady.lift _).bind fun free => (log_steady _ _ fun _ _ => rfl).bind fun _ => Steady.pure _
  · exact Steady.pure _

theorem searchPivot_strict :
    Steady (noted records) strict F
      (searchPivot : Action (SparseFactorization α) (Except Status (Option (Nat × Nat)))) := by
  unfold searchPivot
  refine Steady.get_bind (fun _ => rfl) fun s =>
    (onActive_steady PivotSearch.leastCount_raises fun _ _ => rfl).bind fun least =>
    (onActive_steady PivotSearch.scanCounts_raises fun _ _ => rfl).bind fun p =>
    (updateCounters_strict fun _ => by rfl).bind fun _ => ?_
  split
  · exact Steady.pure _
  · refine Steady.get_bind (fun _ => rfl) fun s => ?_
    split <;> exact Steady.pure _

theorem restoreFrom_strict {fuel : Nat} :
    Steady (noted records) strict F (restoreFrom fuel : Action (SparseFactorization α) Unit) := by
  induction fuel with
  | zero => exact Steady.breach _
  | succ fuel ih =>
    unfold restoreFrom
    refine Steady.get_bind (fun _ => rfl) fun s => (Steady.lift _).bind fun first => ?_
    split
    · exact Steady.pure _
    · exact (Steady.lift _).bind fun length =>
        (onActive_steady (Active.onRowCounts_raises CountLists.moveTo_raises) fun _ _ => rfl).bind fun _ => ih

theorem restoreRejected_strict :
    Steady (noted records) strict F (restoreRejected : Action (SparseFactorization α) Unit) :=
  Steady.get_bind (fun _ => rfl) fun _ => restoreFrom_strict

theorem relaxedSearch_outlined :
    Steady (noted records) outline F
      (relaxedSearch : Action (SparseFactorization α) (Option (Nat × Nat))) := by
  unfold relaxedSearch
  refine (outlined_of_strict restoreRejected_strict).bind fun _ =>
    Steady.get_bind (fun _ => rfl) fun s => ?_
  dsimp only
  refine Steady.bind (Steady.modify (fun _ => rfl) fun _ => rfl) fun _ =>
    (outlined_of_strict searchPivot_strict).bind fun found =>
    Steady.bind (Steady.modify (fun _ => rfl) fun _ => rfl) fun _ => ?_
  split
  · exact Steady.bind (Steady.modify (fun _ => rfl) fun _ => rfl) fun _ =>
      Steady.get_bind (fun _ => rfl) fun s =>
      (log_steady _ _ fun _ _ => rfl).bind fun _ => Steady.pure _
  · exact (outlined_of_strict restoreRejected_strict).bind fun _ => Steady.pure _

theorem findPivot_outlined :
    Steady (noted records) outline F
      (findPivot : Action (SparseFactorization α) (Option (Nat × Nat))) := by
  unfold findPivot
  refine (outlined_of_strict searchPivot_strict).bind fun found => ?_
  split
  · exact Steady.pure _
  · exact relaxedSearch_outlined

theorem appendStage_strict (e : Dense.Elimination α) (rows cols : Array Nat) (d q : Nat) :
    Strict records (appendStage e rows cols d q) := by
  unfold appendStage
  exact Steady.bind (Steady.modify (fun _ => rfl) fun _ => rfl) fun _ =>
    Steady.bind (Steady.modify (fun _ => rfl) fun _ => rfl) fun _ => closeStage_tally.strict

theorem factorizeBlock_strict :
    Strict records (factorizeBlock : Action (SparseFactorization α) Unit) := by
  unfold factorizeBlock
  refine Steady.get_bind (fun _ => rfl) fun s => Steady.get_bind (fun _ => rfl) fun s => ?_
  dsimp only
  exact (Steady.require _ _).bind fun _ => (checkLower_still _).strict.bind fun _ =>
    (checkUpper_still _).strict.bind fun _ =>
    (Steady.forM fun e => (setSlot_still _).strict).bind fun _ =>
    Steady.get_bind (fun _ => rfl) fun s => (Steady.lift _).bind fun block =>
    (Steady.forM fun e => (setSlot_still _).strict).bind fun _ =>
    Steady.get_bind (fun _ => rfl) fun s => Steady.get_bind (fun _ => rfl) fun s =>
    (log_steady _ _ fun _ _ => rfl).bind fun _ =>
    (Steady.forM fun q => appendStage_strict _ _ _ _ q).bind fun _ =>
    (onActive_still ((Steady.forM fun k => (Active.onCols_raises LineFile.clearLine_raises).bind fun _ =>
        Active.onColCounts_raises CountLists.remove_raises).bind fun _ =>
      (Steady.forM fun k => (Active.onRows_raises LineFile.clearLine_raises).bind fun _ =>
        Active.onRowCounts_raises CountLists.remove_raises).bind fun _ => Raises.modify)).strict.bind fun _ =>
    updateCounters_strict fun _ => by rfl

theorem pivotLoop_outlined {remaining seen : Nat} :
    Outlined records (pivotLoop remaining seen : Action (SparseFactorization α) Unit) := by
  induction remaining generalizing seen with
  | zero => exact Steady.pure _
  | succ remaining ih =>
    unfold pivotLoop
    refine Steady.get_bind (fun _ => rfl) fun s => (Steady.lift _).bind fun due => ?_
    split
    · exact outlined_of_strict factorizeBlock_strict
    · refine findPivot_outlined.bind fun found => ?_
      split
      · exact Steady.pure _
      · exact (outlined_of_strict pivotOn_tally.strict).bind fun _ =>
          (outlined_of_strict (logCompressions_strict _)).bind fun seen => ih

theorem finishFactors_strict :
    Steady (noted records) strict (fun e => e = .outOfMemory ∨ e = .singular)
      (finishFactors : Action (SparseFactorization α) Unit) := by
  unfold finishFactors
  refine Steady.get_bind (fun _ => rfl) fun s => (updateCounters_strict fun _ => by rfl).bind fun _ => ?_
  split
  · exact (Steady.lift _).bind fun factors => Steady.modify (fun _ => rfl) fun _ => rfl
  · exact Steady.fail (.inr rfl)

theorem factorizeLoaded_outlined :
    Steady (noted records) outline (fun e => e = .outOfMemory ∨ e = .singular)
      (factorizeLoaded : Action (SparseFactorization α) Unit) := by
  have lenient : ∀ {γ : Type} {act : Action (SparseFactorization α) γ}, Outlined records act →
      Steady (noted records) outline (fun e => e = .outOfMemory ∨ e = .singular) act :=
    fun h => h.mono (fun _ _ => id) fun _ => .inl
  exact Steady.get_bind (fun _ => rfl) fun _ =>
    (lenient (outlined_of_strict singletons_strict)).bind fun _ =>
    (lenient (outlined_of_strict (logCompressions_strict _))).bind fun _ =>
    Steady.get_bind (fun _ => rfl) fun _ => (lenient pivotLoop_outlined).bind fun _ =>
    outlined_of_strict finishFactors_strict

/-! ### Loading -/

theorem loadColumn_raises (b : BasisMatrix α) (spare : Nat → Nat) :
    Raises (· = .outOfMemory) (loadColumn b spare j) := by
  unfold loadColumn
  exact (Steady.lift _).bind fun entries =>
    (Active.onCols_raises LineFile.setLine_raises).bind fun _ => (Steady.require _ _).bind fun _ =>
    Raises.get_bind fun a => (Steady.lift _).bind fun largest =>
    Active.setColMax_raises.bind fun _ => Active.onColCounts_raises CountLists.add_raises

theorem loadRow_raises (transpose : Compressed α) (spare : Nat → Nat) :
    Raises (· = .outOfMemory) (loadRow transpose spare i) := by
  unfold loadRow
  exact (Steady.lift _).bind fun line =>
    (Active.onRows_raises LineFile.setLine_raises).bind fun _ =>
    Active.onRowCounts_raises CountLists.add_raises

theorem fillFiles_strict (b : BasisMatrix α) : Strict records (fillFiles b) := by
  unfold fillFiles
  refine Steady.get_bind (fun _ => rfl) fun s => ?_
  exact (onActive_still ((Steady.forM fun j => loadColumn_raises b _).bind fun _ =>
    (Steady.lift _).bind fun transpose => (Steady.forM fun i => loadRow_raises transpose _).bind fun _ =>
    Raises.modify)).strict

theorem pivotSlack_strict (slack : α) : Strict records (pivotSlack slack j) := by
  unfold pivotSlack
  refine Steady.get_bind (fun _ => rfl) fun s => (Steady.lift _).bind fun line => ?_
  split
  · refine (Steady.lift _).bind fun done => ?_
    split
    · exact pivotColumnSingleton_tally.strict.bind fun _ => updateCounters_strict fun _ => by rfl
    · exact Steady.pure _
  · exact Steady.pure _

theorem pivotSlacks_strict :
    Strict records (pivotSlacks : Action (SparseFactorization α) Unit) := by
  unfold pivotSlacks
  refine Steady.get_bind (fun _ => rfl) fun s => ?_
  dsimp only
  split
  · exact Steady.pure _
  · exact Steady.get_bind (fun _ => rfl) fun s => Steady.forM fun j => pivotSlack_strict _

end SparseFactorization

end SimplexBasis
