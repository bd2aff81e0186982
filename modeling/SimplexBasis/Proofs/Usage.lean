import SimplexBasis.Proofs.Dense.Completion
import SimplexBasis.Proofs.Safety
import SimplexBasis.Proofs.Sparse.Completion

/-!
# Factors in use

Behind a successful factorization, and up to the next announcement or basis, a call may only add the
eta of a column replacement. So the etas are those of the replacements that were answered, whatever
else was called and however it ended.
-/

set_option linter.unusedSectionVars false

namespace SimplexBasis

variable {α : Type} [Scalar α]

namespace DenseFactorization

def pushed {α : Type} (d : DenseFactorization α) (elements : Array α) (row : Nat) (inverse : α) :
    DenseFactorization α :=
  { d with
    elements := elements
    etaRows := d.etaRows.push row
    etaInverses := d.etaInverses.push inverse }

end DenseFactorization

namespace Engine

variable {e f g t : Engine α} {stored : List (SparseVector α × Nat)} {context : Context α}

/-! ### Calls and histories -/

/-- The calls that keep factors: all but an announcement and a load. -/
def Call.keeps {α : Type} : Call α → Bool
  | allocate .. => false
  | load _ => false
  | _ => true

/-- The column and the row of the replacement that is asked for. -/
def Call.replacement {α : Type} : Call α → Option (SparseVector α × Nat)
  | replaceColumn column row _ => some (column, row)
  | _ => none

/-- Behind a factorization, the engine is reached by calls that keep the factors. Listed are the
replacements that were answered. -/
inductive InUse (e : Engine α) : List (SparseVector α × Nat) → Engine α → Prop
  | start : InUse e [] e
  | answered {stored : List (SparseVector α × Nat)} {f t : Engine α} {call : Call α}
      {answer : Answer α} : InUse e stored f → call.keeps = true → call.run f = .ok answer t →
      InUse e (stored ++ call.replacement.toList) t
  | failed {stored : List (SparseVector α × Nat)} {f t : Engine α} {call : Call α}
      {status : Status} : InUse e stored f → call.keeps = true → call.run f = .error (.status status) t →
      InUse e stored t
  | scaled {stored : List (SparseVector α × Nat)} {s s' : SparseFactorization α} {x : α} :
      InUse e stored (sparse s) → SparseFactorization.setAreaFactor x s = .ok () s' →
      InUse e stored (sparse s')

/-- The engine has complete factors, and nothing is loaded behind them. -/
def Factored : Engine α → Prop
  | dense d => d.loaded = false ∧ d.valid = true ∧
      ∃ order, d.order = some order ∧ order.rows.toList.Perm (List.range d.dimension)
  | sparse s => s.phase = .factorized ∧ s.pending = none ∧ s.Bounded

/-- Nothing that decides about replacements has changed. -/
def Same : Engine α → Engine α → Prop
  | dense d, dense d' => d'.holding = d.holding
  | sparse s, sparse s' => s'.region = s.region ∧ s'.dimension = s.dimension
  | _, _ => False

/-- An eta is added for a column that replaces the one at a row. -/
def Adds (column : SparseVector α) (row : Nat) : Engine α → Engine α → Prop
  | dense d, dense d' => ∃ elements inverse, d' = d.pushed elements row inverse
  | sparse s, sparse s' => row < s.dimension ∧ s'.Bounded ∧ ∃ pivot, s' = s.replaced column row pivot
  | _, _ => False

/-- What an answered call leaves. -/
def Extends (e : Engine α) : Option (SparseVector α × Nat) → Engine α → Prop
  | none, t => e.Same t
  | some (column, row), t => e.Adds column row t

/-! ### Steps -/

theorem Same.refl (e : Engine α) : e.Same e := by
  cases e with
  | dense d => rfl
  | sparse s => exact ⟨rfl, rfl⟩

theorem Same.trans (h : e.Same f) (h' : f.Same g) : e.Same g := by
  cases e <;> cases f <;> cases g <;> try first | exact h.elim | exact h'.elim
  · exact Eq.trans h' h
  · exact ⟨h'.1.trans h.1, h'.2.trans h.2⟩

theorem same_of_scaled {s s' : SparseFactorization α} {x : α}
    (run : SparseFactorization.setAreaFactor x s = .ok () s') : (sparse s).Same (sparse s') := by
  obtain rfl := SparseFactorization.setAreaFactor_result run
  exact ⟨rfl, rfl⟩

theorem Same.factored (h : e.Same t) (factored : e.Factored) : t.Factored := by
  cases e <;> cases t <;> try exact h.elim
  · simp only [Same, DenseFactorization.holding, Prod.mk.injEq] at h
    obtain ⟨-, dimension, -, -, order, -, -, loaded, valid⟩ := h
    rw [Factored, loaded, valid, order, dimension]
    exact factored
  · obtain ⟨region, -⟩ := h
    simp only [SparseFactorization.region, Prod.mk.injEq] at region
    obtain ⟨options, capacity, etas, phase, pending⟩ := region
    exact ⟨phase.trans factored.1, pending.trans factored.2.1,
      factored.2.2.of_region options capacity etas⟩

theorem Adds.factored {column : SparseVector α} {row : Nat} (h : e.Adds column row t)
    (factored : e.Factored) : t.Factored := by
  cases e <;> cases t <;> try exact h.elim
  · obtain ⟨elements, inverse, rfl⟩ := h
    exact factored
  · obtain ⟨-, bounded, pivot, rfl⟩ := h
    exact ⟨factored.1, factored.2.1, bounded⟩

theorem Extends.factored {replacement : Option (SparseVector α × Nat)}
    (h : e.Extends replacement t) (factored : e.Factored) : t.Factored := by
  cases replacement with
  | none => exact Same.factored h factored
  | some c => exact Adds.factored h factored

section Steps

variable {d : DenseFactorization α} {s : SparseFactorization α}

theorem Factored.ordered (h : (dense d).Factored) : d.order.isSome = true := by
  obtain ⟨-, -, order, ordered, -⟩ := h
  rw [ordered]
  rfl

/-- The ends of a call that keeps factors. -/
abbrev Serves (e : Engine α) (replacement : Option (SparseVector α × Nat)) {β : Type}
    (r : EStateM.Result Stop (Engine α) β) : Prop :=
  EndsOr (fun _ => True) (fun _ t => e.Extends replacement t) (fun _ t => e.Same t) r

theorem Factored.factor (h : e.Factored) : e.Serves none (factor context e) := by
  cases e with
  | dense d =>
    refine dispatch_dense_ends ?_
    rw [DenseFactorization.factor_of_unloaded h.1]
    exact Same.refl (dense d)
  | sparse s =>
    refine dispatch_sparse_ends ?_
    rw [SparseFactorization.factor_of_unloaded h.2.1 (by rw [h.1]; exact nofun)]
    exact ⟨rfl, rfl⟩

theorem Factored.ftran (h : e.Factored) (v : SparseVector α) : e.Serves none (ftran v e) := by
  cases e with
  | dense d =>
    exact dispatch_dense_ends ((DenseFactorization.ftran_holding h.2.1 h.ordered v).mono
      (fun _ => id) (fun _ _ => id) fun _ _ => False.elim)
  | sparse s =>
    refine dispatch_sparse_ends ((h.2.2.ftran_ends h.1 v).noted.mono (fun _ => id) ?_
      fun _ _ => fun ends => ends.2.elim)
    exact fun _ t ends => ⟨ends.2, SparseFactorization.dimension_of_lasting
      (SparseFactorization.lasting_of_ftran ends.1)⟩

theorem Factored.btran (h : e.Factored) (v : SparseVector α) : e.Serves none (btran v e) := by
  cases e with
  | dense d =>
    exact dispatch_dense_ends ((DenseFactorization.btran_holding h.2.1 h.ordered v).mono
      (fun _ => id) (fun _ _ => id) fun _ _ => False.elim)
  | sparse s =>
    refine dispatch_sparse_ends ((h.2.2.btran_ends h.1 v).noted.mono (fun _ => id) ?_
      fun _ _ => fun ends => ends.2.elim)
    exact fun _ t ends => ⟨ends.2, SparseFactorization.dimension_of_lasting
      (SparseFactorization.lasting_of_btran ends.1)⟩

theorem Factored.assign (h : e.Factored) (sequence heading : Array Nat) :
    e.Serves none (assign sequence heading e) := by
  cases e with
  | dense d =>
    refine dispatch_dense_ends ?_
    rw [get_bind]
    cases d.assign sequence heading with
    | ok vs => exact Same.refl (dense d)
    | error b => trivial
  | sparse s =>
    exact dispatch_sparse_ends (((@SparseFactorization.assign_steady _ _ #[] (fun _ => False)
      sequence heading).ends s).mono (fun _ => id) (fun _ _ same => Prod.mk.inj same)
      fun _ _ fails => fails.1.elim)

theorem Factored.replaceColumn (h : e.Factored) (column : SparseVector α) (row : Nat) (pivot : α) :
    e.Serves (some (column, row)) (replaceColumn column row pivot e) := by
  cases e with
  | dense d =>
    refine dispatch_dense_ends ((DenseFactorization.replaceColumn_ends h.2.1 h.ordered column row
      pivot).noted.mono (fun _ => id) ?_ ?_)
    · rintro _ t ⟨run, -⟩
      obtain ⟨-, elements, -, stored⟩ := DenseFactorization.replaceColumn_result h.2.1 h.ordered run
      exact ⟨elements, _, stored⟩
    · rintro status _ ⟨-, -, records, rfl⟩
      exact (rfl : DenseFactorization.holding d = _)
  | sparse s =>
    refine dispatch_sparse_ends ((SparseFactorization.replaceColumn_ends h.1 column row
      pivot).noted.mono (fun _ => id) ?_ ?_)
    · rintro _ t ⟨run, -, -, bounded⟩
      obtain ⟨inside, stored⟩ := SparseFactorization.replaceColumn_result h.1 run
      exact ⟨inside, bounded, pivot, stored⟩
    · rintro status _ ⟨-, -, records, rfl⟩
      exact ⟨rfl, rfl⟩

/-- A call that keeps factors adds the eta it is asked for, or changes nothing that matters. -/
theorem Factored.step (h : e.Factored) {call : Call α} (keeps : call.keeps = true) :
    e.Serves call.replacement (call.run e) := by
  cases call with
  | allocate n lowerHint upperHint => exact nomatch keeps
  | load b => exact nomatch keeps
  | factor context => exact leaves_of_ends (fun _ => .done) rfl h.factor
  | assign sequence heading => exact leaves_of_ends .heading rfl (h.assign sequence heading)
  | repair sequence offset =>
    change e.Serves none (((liftM (relabel sequence e.slackPairs offset) :
      Action (Engine α) (Array Nat)) >>= fun vs => pure (.pairs e.slackPairs vs)) e : EStateM.Result Stop (Engine α) (Answer α))
    cases relabel sequence e.slackPairs offset with
    | error b => trivial
    | ok relabelled => exact Same.refl e
  | ftran v =>
    exact leaves_of_ends (fun x : SparseVector α × Nat => .solution x.1 x.2) rfl (h.ftran v)
  | btran v =>
    exact leaves_of_ends (fun x : SparseVector α × Nat => .solution x.1 x.2) rfl (h.btran v)
  | replaceColumn column row pivot =>
    exact leaves_of_ends (fun _ => .done) rfl (h.replaceColumn column row pivot)

end Steps

/-! ### Histories -/

/-- The etas are those of the given replacements. -/
def Records (stored : List (SparseVector α × Nat)) : Engine α → Prop
  | dense d => d.etaRows.toList = stored.map Prod.snd ∧ d.etaInverses.size = d.etaRows.size
  | sparse s => s.etas.rows.toList = stored.map Prod.snd ∧
      s.etas.inverses.size = s.etas.rows.size ∧ (∀ c ∈ stored, c.2 < s.dimension) ∧
      ∃ lines, s.etas.lines = .ofLines lines ∧
        lines.map keys = stored.map fun c => keys (SparseFactorization.etaEntries c.1 c.2)

theorem Records.pivots (h : e.Records stored) : e.pivots = stored.length := by
  cases e with
  | dense d => simpa [Engine.pivots, DenseFactorization.pivots] using congrArg List.length h.1
  | sparse s => simpa [Engine.pivots, SparseFactorization.pivots] using congrArg List.length h.1

theorem Same.records (h : e.Same t) (records : e.Records stored) : t.Records stored := by
  cases e <;> cases t <;> try exact h.elim
  · simp only [Same, DenseFactorization.holding, Prod.mk.injEq] at h
    obtain ⟨-, -, -, -, -, etaRows, etaInverses, -, -⟩ := h
    rw [Records, etaRows, etaInverses]
    exact records
  · obtain ⟨region, dimension⟩ := h
    have etas := congrArg (·.2.2.1) region
    dsimp only [SparseFactorization.region] at etas
    rw [Records, etas, dimension]
    exact records

theorem Adds.records {column : SparseVector α} {row : Nat} (h : e.Adds column row t)
    (records : e.Records stored) : t.Records (stored ++ [(column, row)]) := by
  cases e <;> cases t <;> try exact h.elim
  · obtain ⟨elements, inverse, rfl⟩ := h
    obtain ⟨rows, inverses⟩ := records
    exact ⟨by simp [DenseFactorization.pushed, rows], by simp [DenseFactorization.pushed, inverses]⟩
  · obtain ⟨inside, -, pivot, rfl⟩ := h
    obtain ⟨rows, inverses, below, lines, written, listed⟩ := records
    refine ⟨by simp [SparseFactorization.replaced, rows],
      by simp [SparseFactorization.replaced, inverses], ?_, _,
      (congrArg (Compressed.pushLine · _) written).trans (Compressed.ofLines_concat ..).symm, ?_⟩
    · intro c member
      rcases List.mem_append.mp member with old | new
      · exact below c old
      · rw [List.mem_singleton.mp new]
        exact inside
    · simp [listed, keys]

theorem Extends.records {replacement : Option (SparseVector α × Nat)}
    (h : e.Extends replacement t) (records : e.Records stored) :
    t.Records (stored ++ replacement.toList) := by
  cases replacement with
  | none => simpa using Same.records h records
  | some c => exact Adds.records h records

theorem Visited.factored [LawfulCounts α] (h : Visited e) (run : factor context e = .ok () f) :
    f.Factored ∧ f.Records [] := by
  obtain ⟨d, d', rfl, rfl, ran⟩ | ⟨s, s', rfl, rfl, ran⟩ := dispatch_eq_ok run
  · cases loaded : d.loaded with
    | false => exact nomatch (DenseFactorization.factor_of_unloaded loaded).symm.trans ran
    | true =>
      obtain ⟨columns, held⟩ := h.sound.1 loaded
      obtain ⟨unloaded, valid, -⟩ := (DenseFactorization.factor_loaded_ends loaded).result ran
      obtain ⟨-, -, -, x, eliminated, -⟩ := (DenseFactorization.factor_ends held context).result ran
      refine ⟨⟨unloaded, valid, _, eliminated.order, eliminated.shape.rows⟩, ?_⟩
      simp [Records, eliminated.etaRows, eliminated.etaInverses]
  · obtain ⟨-, -, -, phase, etas⟩ :=
      (SparseFactorization.Sound.factor h.sound context).result ran
    refine ⟨⟨phase, SparseFactorization.pending_of_factor ran, ?_, ?_⟩, ?_⟩
    · simp [SparseFactorization.pivots, etas, Etas.empty]
    · simp [etas, Etas.empty, Compressed.count, Compressed.empty]
    · rw [Records, etas]
      exact ⟨rfl, rfl, by simp, [], rfl, rfl⟩

/-- A state behind a factorization, with the replacements stored since. -/
structure Served (stored : List (SparseVector α × Nat)) (f : Engine α) : Prop where
  visited : Visited f
  factored : f.Factored
  records : f.Records stored

theorem Call.proper_of_keeps {call : Call α} (keeps : call.keeps = true) (e : Engine α) :
    call.Proper e := by
  cases call with
  | load b => exact nomatch keeps
  | _ => trivial

theorem InUse.served [LawfulCounts α] (visited : Visited e) (run : factor context e = .ok () f)
    (use : InUse f stored g) : Served stored g := by
  induction use with
  | start =>
    obtain ⟨factored, records⟩ := visited.factored run
    have ran : Call.run (.factor context) e = .ok .done f := bind_of_ok run
    have proper : Call.Proper e (.factor context) := trivial
    exact ⟨visited.answered proper ran, factored, records⟩
  | answered _ keeps ran ih =>
    have left := (ih.factored.step keeps).result ran
    exact ⟨ih.visited.answered (Call.proper_of_keeps keeps _) ran, left.factored ih.factored,
      left.records ih.records⟩
  | failed _ keeps ran ih =>
    have left := (ih.factored.step keeps).failure ran
    exact ⟨ih.visited.failed (Call.proper_of_keeps keeps _) ran, left.factored ih.factored,
      left.records ih.records⟩
  | scaled _ ran ih =>
    exact ⟨ih.visited.scaled ran, (same_of_scaled ran).factored ih.factored,
      (same_of_scaled ran).records ih.records⟩

theorem InUse.same (use : InUse e stored f) (factored : e.Factored) (none_ : stored = []) :
    e.Same f := by
  induction use with
  | start => exact .refl e
  | @answered stored f t call answer _ keeps ran ih =>
    obtain ⟨rfl, asked⟩ := List.append_eq_nil_iff.mp none_
    have same := ih rfl
    have left := ((same.factored factored).step keeps).result ran
    cases replacement : call.replacement with
    | none =>
      rw [replacement] at left
      exact same.trans left
    | some c => simp [replacement] at asked
  | failed _ keeps ran ih =>
    have same := ih none_
    exact same.trans (((same.factored factored).step keeps).failure ran)
  | scaled _ ran ih => exact (ih none_).trans (same_of_scaled ran)

/-! ### Examples of histories -/

/-- Whether calls that keep factors are answered one after the other and lead to an engine with
`p`. -/
def answersAll (p : Engine α → Bool) : List (Call α) → Engine α → Bool
  | [], e => p e
  | call :: calls, e => call.keeps && match call.run e with
    | .ok _ t => answersAll p calls t
    | .error _ _ => false

theorem InUse.exists_of_answers (use : InUse e stored f) (calls : List (Call α))
    {p : Engine α → Bool} (answers : answersAll p calls f = true) :
    ∃ g, InUse e (stored ++ calls.filterMap Call.replacement) g ∧ p g = true := by
  induction calls generalizing stored f with
  | nil => exact ⟨f, by simpa using use, answers⟩
  | cons call calls ih =>
    rw [answersAll, Bool.and_eq_true] at answers
    obtain ⟨keeps, answers⟩ := answers
    cases run : call.run f with
    | ok answer t =>
      rw [run] at answers
      obtain ⟨g, found, holds⟩ := ih (use.answered keeps run) answers
      refine ⟨g, ?_, holds⟩
      cases replacement : call.replacement <;> simpa [replacement] using found
    | error stop t =>
      rw [run] at answers
      exact nomatch answers

theorem Visited.exists_use (visited : Visited e) (before calls : List (Call α)) (context : Context α)
    {p : Engine α → Bool} (leads : leadsTo (fun e => match factor context e with
      | .ok () f => answersAll p calls f
      | .error _ _ => false) before e = true) :
    ∃ e f g, Visited e ∧ factor context e = .ok () f ∧
      InUse f (calls.filterMap Call.replacement) g ∧ p g = true := by
  obtain ⟨e, visited, check⟩ := visited.exists_of_leadsTo before leads
  cases run : factor context e with
  | ok _ f =>
    rw [run] at check
    obtain ⟨g, use, holds⟩ := InUse.start.exists_of_answers calls check
    exact ⟨e, f, g, visited, run, use, holds⟩
  | error stop t =>
    rw [run] at check
    exact nomatch check

end Engine

end SimplexBasis
