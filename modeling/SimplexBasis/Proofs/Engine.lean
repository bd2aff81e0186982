import SimplexBasis.Engine
import SimplexBasis.Proofs.Positions

/-!
# Factorizations by either engine

What one attempt to factorize a basis leaves, whichever engine makes it: factors of the basis, a
basis found singular, or nothing for want of space.
-/

set_option linter.unusedSectionVars false

namespace SimplexBasis.Engine

variable {α β : Type}

/-! ### Dispatch -/

def options {α : Type} : Engine α → Options α
  | dense d => d.options
  | sparse s => s.options

theorem dispatch_eq_ok {α β : Type} {onDense : Action (DenseFactorization α) β}
    {onSparse : Action (SparseFactorization α) β} {f g : Engine α} {x : β}
    (run : dispatch onDense onSparse f = .ok x g) :
    (∃ d d', f = dense d ∧ g = dense d' ∧ onDense d = .ok x d') ∨
      ∃ s s', f = sparse s ∧ g = sparse s' ∧ onSparse s = .ok x s' := by
  cases f with
  | dense d =>
    left
    cases here : onDense d with
    | ok y d' =>
      simp only [dispatch, here] at run
      cases run
      exact ⟨d, d', rfl, rfl, here⟩
    | error e d' => simp [dispatch, here] at run
  | sparse s =>
    right
    cases here : onSparse s with
    | ok y s' =>
      simp only [dispatch, here] at run
      cases run
      exact ⟨s, s', rfl, rfl, here⟩
    | error e s' => simp [dispatch, here] at run

section Dispatch

variable {α β : Type} [Scalar α] {onDense : Action (DenseFactorization α) β}
  {onSparse : Action (SparseFactorization α) β} {Q : β → Engine α → Prop}
  {E : Status → Engine α → Prop} {B : Breach → Prop}

theorem dispatch_dense_run {d t : DenseFactorization α} {x : β} (run : onDense d = .ok x t) :
    dispatch onDense onSparse (dense d) = .ok x (dense t) := by
  unfold dispatch
  dsimp only
  rw [run]

theorem dispatch_sparse_run {s t : SparseFactorization α} {x : β} (run : onSparse s = .ok x t) :
    dispatch onDense onSparse (sparse s) = .ok x (sparse t) := by
  unfold dispatch
  dsimp only
  rw [run]

theorem dispatch_dense_ends {d : DenseFactorization α}
    (ends : EndsOr B (fun x t => Q x (dense t)) (fun e t => E e (dense t)) (onDense d)) :
    EndsOr B Q E (dispatch onDense onSparse (dense d)) := by
  unfold dispatch
  dsimp only
  revert ends
  rcases onDense d with ⟨x, t⟩ | ⟨e | b, t⟩
  · exact id
  · exact id
  · exact id

theorem dispatch_sparse_ends {s : SparseFactorization α}
    (ends : EndsOr B (fun x t => Q x (sparse t)) (fun e t => E e (sparse t)) (onSparse s)) :
    EndsOr B Q E (dispatch onDense onSparse (sparse s)) := by
  unfold dispatch
  dsimp only
  revert ends
  rcases onSparse s with ⟨x, t⟩ | ⟨e | b, t⟩
  · exact id
  · exact id
  · exact id

end Dispatch

/-! ### Attempts -/

section Attempts

open SparseFactorization (Overflows Prepared Factorized Singular)
open DenseFactorization (Eliminated)

variable [Scalar α] {e t : Engine α} {b : BasisMatrix α} {columns : List (List (Nat × α))} {n : Nat}

def announce (b : BasisMatrix α) : Action (Engine α) Unit := do
  allocate b.dimension 0 0
  load b

def attempt (context : Context α) (b : BasisMatrix α) : Action (Engine α) Unit := do
  announce b
  factor context

/-- The sizes that the engine computes for a basis of dimension `n` are words. -/
def Sized (n : Nat) (e : Engine α) : Prop :=
  if e.isDense then n * (n + e.options.maxPivotsBeforeRefactor) < UInt64.size
  else e.options.SparesWithin n

instance (n : Nat) (e : Engine α) : Decidable (e.Sized n) := inferInstanceAs (Decidable (ite _ _ _))

/-- The engine is of the same kind and has the same options. -/
structure Alike (e t : Engine α) : Prop where
  options : t.options = e.options
  kind : t.isDense = e.isDense

/-- The engine can factorize a basis of dimension `n` with the given columns, or knows that it has no
space for it. -/
def Ready (n : Nat) (columns : List (List (Nat × α))) : Engine α → Prop
  | dense d => d.dimension = n ∧ DenseFactorization.Loaded d columns
  | sparse s => s.dimension = n ∧ Prepared s ∧
      (SparseFactorization.Loaded s columns ∨ s.pending = some .outOfMemory)

def Factorizes (b : BasisMatrix α) : Engine α → Prop
  | dense d => d.dimension = b.dimension ∧ d.valid = true ∧
      ∃ columns x, b.Holds columns ∧ Eliminated d columns x ∧ x.rank = d.dimension
  | sparse s => s.dimension = b.dimension ∧ Prepared s ∧
      ∃ columns all, b.Holds columns ∧ Factorized s columns all

/-- The engine found fewer pivots than the basis has columns. -/
def Deficient (b : BasisMatrix α) : Engine α → Prop
  | dense d => d.dimension = b.dimension ∧
      ∃ columns x, b.Holds columns ∧ Eliminated d columns x ∧ x.rank < d.dimension
  | sparse s => s.dimension = b.dimension ∧
      ∃ columns all, b.Holds columns ∧ Singular s columns all

/-- The engine holds no factors that can be solved with. -/
def Idle : Engine α → Prop
  | dense d => d.valid = false
  | sparse s => s.phase ≠ .factorized

theorem Alike.refl (e : Engine α) : e.Alike e := ⟨rfl, rfl⟩

theorem Alike.trans {u : Engine α} (first : e.Alike t) (second : t.Alike u) : e.Alike u :=
  ⟨second.options.trans first.options, second.kind.trans first.kind⟩

theorem Alike.sized (same : e.Alike t) (h : e.Sized n) : t.Sized n := by
  unfold Sized
  rw [same.options, same.kind]
  exact h

theorem announce_ends [LawfulCounts α] (holds : b.Holds columns) (sized : e.Sized b.dimension) :
    EndsOr Overflows (fun _ t => e.Alike t ∧ t.Ready b.dimension columns) (fun _ _ => False)
      (announce b e) := by
  cases e with
  | dense d =>
    have sized : b.dimension * (b.dimension + d.options.maxPivotsBeforeRefactor) < UInt64.size :=
      sized
    refine EndsOr.bind (R := fun _ t => ∃ d', t = dense d' ∧ d'.options = d.options)
      (dispatch_dense_ends ((DenseFactorization.allocate_ends b.dimension d).mono (fun _ => id)
        (fun _ d' ⟨options, _⟩ => ⟨d', rfl, options⟩) fun _ _ => False.elim)) ?_
    rintro _ _ ⟨d', rfl, options⟩
    refine dispatch_dense_ends ((DenseFactorization.load_ends holds d').mono ?_
      (fun _ d'' ⟨same, dimension, loaded⟩ => ⟨⟨same.trans options, rfl⟩, dimension, loaded⟩)
      fun _ _ => False.elim)
    rintro broken (overflow | ⟨-, wraps⟩)
    · exact overflow
    · rw [options] at wraps
      omega
  | sparse s =>
    have spares : s.options.SparesWithin b.dimension := sized
    refine EndsOr.bind (R := fun _ t => ∃ s', t = sparse s' ∧ Prepared s' ∧ s'.options = s.options)
      (dispatch_sparse_ends ((SparseFactorization.allocate_ends b.dimension 0 0 s).mono
        (fun _ => id) (fun _ s' ready => ⟨s', rfl, ready⟩) fun _ _ => False.elim)) ?_
    rintro _ _ ⟨s', rfl, prepared, options⟩
    exact dispatch_sparse_ends ((SparseFactorization.load_ends prepared holds
      (SparseFactorization.spacious_of_spares (options ▸ spares))).mono (fun _ => id)
      (fun _ s'' ⟨ready, same, size, _, _, loaded⟩ =>
        ⟨⟨same.trans options, rfl⟩, size, ready, loaded⟩) fun _ _ => False.elim)

theorem ready_of_load [LawfulCounts α] {u : Engine α} {announced lowerHint upperHint : Nat}
    (holds : b.Holds columns) (spares : e.isDense = false → e.options.SparesWithin b.dimension)
    (allocated : allocate announced lowerHint upperHint e = .ok () t)
    (loaded : load b t = .ok () u) : e.Alike u ∧ u.Ready b.dimension columns := by
  obtain ⟨d, d', rfl, rfl, sized⟩ | ⟨s, s', rfl, rfl, sized⟩ := dispatch_eq_ok allocated
  · obtain ⟨_, d'', ⟨⟩, rfl, written⟩ | ⟨_, _, ⟨⟩, -⟩ := dispatch_eq_ok loaded
    obtain ⟨options, -⟩ := (DenseFactorization.allocate_ends _ _).result sized
    obtain ⟨same, dimension, ready⟩ := (DenseFactorization.load_ends holds d').result written
    exact ⟨⟨same.trans options, rfl⟩, dimension, ready⟩
  · obtain ⟨_, _, ⟨⟩, -⟩ | ⟨_, s'', ⟨⟩, rfl, filled⟩ := dispatch_eq_ok loaded
    obtain ⟨prepared, options⟩ := (SparseFactorization.allocate_ends _ _ _ _).result sized
    obtain ⟨ready, same, dimension, -, -, loaded⟩ :=
      (SparseFactorization.load_ends prepared holds
        (SparseFactorization.spacious_of_spares (options ▸ spares rfl))).result filled
    exact ⟨⟨same.trans options, rfl⟩, dimension, ready, loaded⟩

theorem Ready.factor_ends [LawfulCounts α] (h : e.Ready b.dimension columns)
    (holds : b.Holds columns) (context : Context α) :
    Ends (fun _ t => e.Alike t ∧ t.Factorizes b)
      (fun status t => e.Alike t ∧ t.Idle ∧
        (status = .outOfMemory ∧ t.isDense = false ∨ status = .singular ∧ t.Deficient b))
      (factor context e) := by
  cases e with
  | dense d =>
    obtain ⟨dimension, loaded⟩ := h
    refine EndsOr.ends (dispatch_dense_ends
      (((DenseFactorization.factor_ends loaded context).mono ?_ ?_).or))
    · rintro _ t ⟨options, size, valid, x, eliminated, full⟩
      exact ⟨⟨options, rfl⟩, size.trans dimension, valid, columns, x, holds, eliminated,
        full.trans size.symm⟩
    · rintro _ t ⟨rfl, options, size, invalid, x, eliminated, short⟩
      exact ⟨⟨options, rfl⟩, invalid, .inr ⟨rfl, size.trans dimension, columns, x, holds,
        eliminated, short.trans_eq size.symm⟩⟩
  | sparse s =>
    obtain ⟨dimension, ready, loaded⟩ := h
    refine EndsOr.ends (dispatch_sparse_ends
      (((SparseFactorization.factor_ready_ends ready loaded context).mono ?_ ?_).or))
    · rintro _ t ⟨prepared, options, size, all, factorized⟩
      exact ⟨⟨options, rfl⟩, size.trans dimension, prepared, columns, all, holds, factorized⟩
    · rintro status t ⟨-, options, size, idle, rfl | ⟨rfl, all, singular⟩⟩
      · exact ⟨⟨options, rfl⟩, by simp [Idle, idle], .inl ⟨rfl, rfl⟩⟩
      · exact ⟨⟨options, rfl⟩, by simp [Idle, idle], .inr ⟨rfl, size.trans dimension, columns, all,
          holds, singular⟩⟩

/-- How an attempt ends: with factors of the basis, with a basis found singular, or for want of
space. -/
theorem attempt_ends [LawfulCounts α] (holds : b.Holds columns) (sized : e.Sized b.dimension)
    (context : Context α) :
    EndsOr Overflows (fun _ t => e.Alike t ∧ t.Factorizes b)
      (fun status t => e.Alike t ∧ t.Idle ∧
        (status = .outOfMemory ∧ t.isDense = false ∨ status = .singular ∧ t.Deficient b))
      (attempt context b e) :=
  EndsOr.bind ((announce_ends holds sized).mono (fun _ => id) (fun _ _ => id) fun _ _ => False.elim)
    fun _ _ ⟨same, ready⟩ => ((ready.factor_ends holds context).mono
      (fun _ _ ⟨alike, factorizes⟩ => ⟨same.trans alike, factorizes⟩)
      fun _ _ ⟨alike, rest⟩ => ⟨same.trans alike, rest⟩).or

/-! ### Positions -/

/-- The engine without what assigning variables, logging and growing areas change. -/
def plain : Engine α → Engine α
  | dense d => dense { d with journal := #[] }
  | sparse s => sparse { s with
      factors := { s.factors with transposes := none }
      sparseThreshold := 0
      areaFactor := 0
      journal := #[] }

theorem rank_plain (e : Engine α) : e.plain.rank = e.rank := by cases e <;> rfl

theorem pivots_plain (e : Engine α) : e.plain.pivots = e.pivots := by cases e <;> rfl

theorem positionOf_plain (e : Engine α) (j : Nat) : e.plain.positionOf j = e.positionOf j := by
  cases e <;> rfl

theorem options_plain (e : Engine α) : e.plain.options = e.options := by cases e <;> rfl

theorem isDense_plain (e : Engine α) : e.plain.isDense = e.isDense := by cases e <;> rfl

theorem idle_plain (e : Engine α) : e.plain.Idle ↔ e.Idle := by cases e <;> exact Iff.rfl

theorem alike_of_plain (same : t.plain = e.plain) : e.Alike t where
  options := by rw [← options_plain t, same, options_plain]
  kind := by rw [← isDense_plain t, same, isDense_plain]

theorem Idle.of_plain (idle : e.Idle) (same : t.plain = e.plain) : t.Idle := by
  rwa [← idle_plain, same, idle_plain]

theorem Factorizes.rank_eq (h : e.Factorizes b) : e.rank = b.dimension := by
  cases e with
  | dense d =>
    obtain ⟨dimension, -, columns, x, -, eliminated, full⟩ := h
    simpa [Engine.rank, DenseFactorization.rank, eliminated.order] using full.trans dimension
  | sparse s =>
    obtain ⟨dimension, -, columns, all, -, factorized⟩ := h
    have length := Nat.le_antisymm factorized.derived.triangular.length_le factorized.full
    simpa [Engine.rank, SparseFactorization.rank, factorized.factors, Factors.numbered,
      Factors.rank, Factors.ofStages] using length.trans dimension

theorem Factorizes.pivots_eq (h : e.Factorizes b) : e.pivots = 0 := by
  cases e with
  | dense d =>
    obtain ⟨-, -, columns, x, -, eliminated, -⟩ := h
    simp [Engine.pivots, DenseFactorization.pivots, eliminated.etaRows]
  | sparse s =>
    obtain ⟨-, -, columns, all, -, factorized⟩ := h
    simp [Engine.pivots, SparseFactorization.pivots, factorized.etas, Etas.empty]

theorem Factorizes.exists_order (h : e.Factorizes b) : ∃ rows cols : Array Nat,
    rows.toList.Perm (List.range b.dimension) ∧ cols.toList.Perm (List.range b.dimension) ∧
    (∀ k < b.dimension, e.positionOf (cols.getD k 0) = .ok (some (rows.getD k 0))) ∧
    ∀ sequence heading : Array Nat, sequence.size = b.dimension → heading.size = b.dimension →
      Ends (fun vs t => t.plain = e.plain ∧ vs.size = b.dimension ∧
          ∀ k < b.dimension, vs.getD (rows.getD k 0) 0 = sequence.getD (cols.getD k 0) 0)
        (fun _ _ => False) (assign sequence heading e) := by
  cases e with
  | dense d =>
    obtain ⟨dimension, -, columns, x, holds, eliminated, full⟩ := h
    rw [← dimension]
    refine ⟨x.rows, x.cols, eliminated.shape.rows, eliminated.shape.cols,
      fun k hk => eliminated.positionOf_eq full hk,
      fun sequence heading sizeSequence sizeHeading => EndsOr.ends (dispatch_dense_ends ?_)⟩
    obtain ⟨vs, run, size, written⟩ := eliminated.assign_ok sizeSequence sizeHeading
    rw [get_bind, run]
    exact ⟨rfl, size, written⟩
  | sparse s =>
    obtain ⟨dimension, -, columns, all, holds, factorized⟩ := h
    have triangular := factorized.derived.triangular
    rw [← dimension]
    refine ⟨(all.map Stage.row).toArray, (all.map Stage.col).toArray,
      triangular.rows_perm factorized.full, triangular.cols_perm factorized.full,
      fun k hk => Factors.positionOf_eq triangular factorized.full ?_ ?_ hk,
      fun sequence heading sizeSequence sizeHeading => EndsOr.ends (dispatch_sparse_ends ?_)⟩
    · rw [factorized.factors]
      rfl
    · rw [factorized.factors]
      rfl
    · obtain ⟨vs, run, size, written⟩ := factorized.assign_run sizeSequence sizeHeading
      rw [run]
      exact ⟨rfl, size, written⟩

/-- What is said of the columns in the order of the pivots, said of all columns. -/
theorem exists_positions {rows cols : Array Nat} (permRows : rows.toList.Perm (List.range n))
    (permCols : cols.toList.Perm (List.range n)) :
    ∃ positions : List Nat, positions.Perm (List.range n) ∧
      ∀ j < n, ∃ k < n, cols.getD k 0 = j ∧ positions[j]? = some (rows.getD k 0) := by
  have sizeRows := size_of_perm permRows
  have sizeCols := size_of_perm permCols
  let place (j : Nat) := rows.getD (cols.toList.idxOf j) 0
  have listed : cols.toList.map place = rows.toList := by
    refine List.ext_getElem (by simp [sizeRows, sizeCols]) fun k hk hk' => ?_
    have distinct := permCols.nodup_iff.mpr List.nodup_range
    rw [List.length_map] at hk
    rw [List.getElem_map]
    simp only [place]
    rw [distinct.idxOf_getElem k hk]
    have inside : k < rows.size := by simpa using hk'
    simp [Array.getD, inside]
  refine ⟨(List.range n).map place, ?_, fun j hj => ?_⟩
  · exact ((permCols.map place).symm.trans (listed ▸ List.Perm.refl _)).trans permRows
  · have member : j ∈ cols.toList := permCols.mem_iff.mpr (List.mem_range.mpr hj)
    have inside := List.idxOf_lt_length_iff.mpr member
    have found : cols.toList[cols.toList.idxOf j] = j := List.getElem_idxOf inside
    rw [Array.length_toList] at inside
    refine ⟨cols.toList.idxOf j, sizeCols ▸ inside, ?_, by simp [hj, place]⟩
    rw [Array.getElem_toList] at found
    simpa [Array.getD, inside] using found

/-! ### Refusals -/

theorem Idle.refuses (h : e.Idle) (v : SparseVector α) (row : Nat) (pivot : α) :
    ftran v e = .error (.status .invalidCall) e ∧ btran v e = .error (.status .invalidCall) e ∧
      replaceColumn v row pivot e = .error (.status .invalidCall) e := by
  cases e with
  | dense d =>
    have refused : DenseFactorization.solvable d = .error (.status .invalidCall) d := by
      have h : d.valid = false := h
      unfold DenseFactorization.solvable
      rw [get_bind]
      cases d.order <;> simp only [h] <;> rfl
    refine ⟨?_, ?_, ?_⟩
    · simp only [ftran, dispatch, DenseFactorization.ftran, bind_of_error refused]
    · simp only [btran, dispatch, DenseFactorization.btran, bind_of_error refused]
    · simp only [replaceColumn, dispatch, DenseFactorization.replaceColumn, bind_of_error refused]
  | sparse s =>
    have h : s.phase ≠ .factorized := h
    have refused : SparseFactorization.checkSolvable v s = .error (.status .invalidCall) s := by
      unfold SparseFactorization.checkSolvable
      rw [get_bind, if_pos h]
      rfl
    refine ⟨?_, ?_, ?_⟩
    · simp only [ftran, dispatch, SparseFactorization.ftran, bind_of_error refused]
    · simp only [btran, dispatch, SparseFactorization.btran, bind_of_error refused]
    · have rejected : SparseFactorization.replaceColumn v row pivot s =
          .error (.status .invalidCall) s := by
        unfold SparseFactorization.replaceColumn
        rw [get_bind, if_pos h]
        rfl
      simp only [replaceColumn, dispatch, rejected]

/-! ### Columns and rows without a pivot -/

/-- The columns without a pivot are paired with the rows without one, which are as many. -/
theorem Deficient.slackPairs_eq (h : e.Deficient b) : ∃ doneRows doneCols rows cols : List Nat,
    e.slackPairs = cols.zip rows ∧ (doneRows ++ rows).Perm (List.range b.dimension) ∧
      (doneCols ++ cols).Perm (List.range b.dimension) ∧ doneRows.length = doneCols.length ∧
      doneCols.length < b.dimension := by
  cases e with
  | dense d =>
    obtain ⟨dimension, columns, x, holds, eliminated, short⟩ := h
    obtain ⟨rows, cols, pairs, permRows, permCols⟩ := eliminated.slackPairs_eq
    have sizeRows := size_of_perm eliminated.shape.rows
    have sizeCols := size_of_perm eliminated.shape.cols
    rw [dimension] at sizeRows sizeCols permRows permCols short
    refine ⟨_, _, rows, cols, pairs, permRows, permCols, ?_, ?_⟩
    · simp [sizeRows, sizeCols]
    · simp [short, sizeCols]
  | sparse s =>
    obtain ⟨dimension, columns, all, holds, singular⟩ := h
    have triangular := singular.derived.triangular
    have short := singular.short
    have pairs := singular.slackPairs_eq
    rw [dimension] at triangular short pairs
    refine ⟨_, _, _, _, pairs,
      perm_append_leftOf triangular.nodup_rows fun _ => triangular.row_lt,
      perm_append_leftOf triangular.nodup_cols fun _ => triangular.col_lt, ?_, ?_⟩
    · simp
    · simpa using short

end Attempts

end SimplexBasis.Engine
