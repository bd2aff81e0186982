import SimplexBasis.Engine
import SimplexBasis.Proofs.Basis
import SimplexBasis.Proofs.Entries

/-!
# Slack columns

A repair overwrites columns by slack columns and gives them the variables of the slacks. Repairs of
repairs are repairs; what counts is the last slack given to a column.
-/

set_option linter.unusedSectionVars false

namespace SimplexBasis

variable {α : Type} [Scalar α] {columns : List (List (Nat × α))} {pairs more : List (Nat × Nat)}
  {slack : α} {i j n offset : Nat}

/-- Pairs of a column and a row of a matrix of dimension `n`. -/
def PairsWithin (n : Nat) (pairs : List (Nat × Nat)) : Prop := ∀ p ∈ pairs, p.1 < n ∧ p.2 < n

theorem PairsWithin.append (h : PairsWithin n pairs) (h' : PairsWithin n more) :
    PairsWithin n (pairs ++ more) := fun p member =>
  (List.mem_append.mp member).elim (h p) (h' p)

/-! ### Columns -/

def slacked (columns : List (List (Nat × α))) (pairs : List (Nat × Nat)) (slack : α) :
    List (List (Nat × α)) :=
  pairs.foldl (fun cs p => cs.set p.1 [(p.2, slack)]) columns

@[simp] theorem slacked_nil : slacked columns [] slack = columns := rfl

theorem slacked_append :
    slacked columns (pairs ++ more) slack = slacked (slacked columns pairs slack) more slack :=
  List.foldl_append

theorem slacked_concat {p : Nat × Nat} :
    slacked columns (pairs ++ [p]) slack = (slacked columns pairs slack).set p.1 [(p.2, slack)] := by
  rw [slacked_append]
  rfl

@[simp] theorem length_slacked : (slacked columns pairs slack).length = columns.length := by
  induction pairs using List.reverseRecOn with
  | nil => rfl
  | append_singleton pairs p ih => rw [slacked_concat, List.length_set, ih]

theorem getD_slacked (hj : j < columns.length) : (slacked columns pairs slack).getD j [] =
    (pairs.reverse.lookup j).elim (columns.getD j []) fun i => [(i, slack)] := by
  induction pairs using List.reverseRecOn with
  | nil => rfl
  | append_singleton pairs p ih =>
    rw [slacked_concat, List.reverse_append, List.reverse_singleton, List.singleton_append,
      List.lookup_cons]
    by_cases same : p.1 = j
    · subst same
      simp [hj]
    · rw [beq_false_of_ne (Ne.symm same)]
      refine Eq.trans ?_ ih
      simp [List.getElem?_set_ne same]

theorem mem_slacked {column : List (Nat × α)} (member : column ∈ slacked columns pairs slack) :
    column ∈ columns ∨ ∃ p ∈ pairs, column = [(p.2, slack)] := by
  induction pairs using List.reverseRecOn with
  | nil => exact .inl member
  | append_singleton pairs p ih =>
    rw [slacked_concat] at member
    rcases List.mem_or_eq_of_mem_set member with earlier | rfl
    · refine (ih earlier).imp_right ?_
      rintro ⟨q, among, rfl⟩
      exact ⟨q, List.mem_append_left _ among, rfl⟩
    · exact .inr ⟨p, by simp, rfl⟩

theorem lookup_of_mem {κ β : Type} [BEq κ] [LawfulBEq κ] {entries : List (κ × β)} {key : κ} {x : β}
    (distinct : (entries.map Prod.fst).Nodup) (member : (key, x) ∈ entries) :
    entries.lookup key = some x := by
  induction entries with
  | nil => cases member
  | cons e entries ih =>
    rw [List.map_cons, List.nodup_cons] at distinct
    rw [List.lookup_cons]
    rcases List.mem_cons.mp member with rfl | later
    · rw [beq_self_eq_true]
    · have other : key ≠ e.1 := fun same =>
        distinct.1 (same ▸ List.mem_map_of_mem (f := Prod.fst) later)
      rw [beq_false_of_ne other]
      exact ih distinct.2 later

theorem lookup_reverse_of_notMem (free : ∀ p ∈ pairs, p.1 ≠ j) : pairs.reverse.lookup j = none := by
  rw [List.lookup_eq_none_iff]
  intro p member
  simpa using (free p (List.mem_reverse.mp member)).symm

theorem getD_slacked_of_mem (distinct : (pairs.map Prod.fst).Nodup) (member : (j, i) ∈ pairs)
    (hj : j < columns.length) : (slacked columns pairs slack).getD j [] = [(i, slack)] := by
  rw [getD_slacked hj, lookup_of_mem (by rwa [List.map_reverse, List.nodup_reverse])
    (List.mem_reverse.mpr member)]
  rfl

theorem getD_slacked_of_notMem (free : ∀ p ∈ pairs, p.1 ≠ j) (hj : j < columns.length) :
    (slacked columns pairs slack).getD j [] = columns.getD j [] := by
  rw [getD_slacked hj, lookup_reverse_of_notMem free]
  rfl

namespace BasisMatrix

variable {b c : BasisMatrix α}

theorem Holds.columns_read (h : b.Holds columns) :
    (List.range b.dimension).mapM b.column = .ok columns := by
  have read : ∀ j ∈ List.range b.dimension, b.column j = .ok (columns.getD j []) := by
    intro j hj
    have inside : j < columns.length := h.length ▸ List.mem_range.mp hj
    rw [h.column_eq (List.getElem?_eq_getElem inside)]
    simp [inside]
  rw [checked_mapM read, ← h.length]
  congr 1
  exact List.ext_getElem (by simp) fun k hk hk' => by simp [hk']

theorem Holds.unique {columns' : List (List (Nat × α))} (h : b.Holds columns)
    (h' : b.Holds columns') : columns = columns' :=
  Except.ok.inj (h.columns_read.symm.trans h'.columns_read)

theorem Holds.withSlacks_eq (h : b.Holds columns) (within : PairsWithin b.dimension pairs)
    (slack : α) :
    b.withSlacks pairs slack = .ok ⟨b.dimension, .ofLines (slacked columns pairs slack)⟩ := by
  have overwritten : ∀ {pairs : List (Nat × Nat)} {cs : List (List (Nat × α))},
      cs.length = b.dimension → PairsWithin b.dimension pairs →
      pairs.foldlM (fun cs p => withEntry cs p.1 [(p.2, slack)]) cs.toArray =
        (.ok (slacked cs pairs slack).toArray : Checked _) := by
    intro pairs
    induction pairs with
    | nil => intro cs _ _; rfl
    | cons p pairs ih =>
      intro cs length within
      have here := (within p List.mem_cons_self).1
      rw [List.foldlM_cons, withEntry_of_lt _ (by simpa [length] using here), checked_ok_bind,
        List.setIfInBounds_toArray]
      exact ih (by simpa using length) fun q hq => within q (List.mem_cons_of_mem _ hq)
  unfold withSlacks
  rw [h.columns_read, checked_ok_bind, overwritten h.length within]
  rfl

theorem Holds.slacked (h : b.Holds columns) (within : PairsWithin b.dimension pairs) (slack : α) :
    Holds ⟨b.dimension, .ofLines (SimplexBasis.slacked columns pairs slack)⟩
      (SimplexBasis.slacked columns pairs slack) where
  length := length_slacked.trans h.length
  stored := rfl
  distinct column member := by
    rcases mem_slacked member with earlier | ⟨p, -, rfl⟩
    · exact h.distinct column earlier
    · simp [keys]
  inside column member i hi := by
    rcases mem_slacked member with earlier | ⟨p, among, rfl⟩
    · exact h.inside column earlier i hi
    · have eq : i = p.2 := by simpa [keys] using hi
      exact eq ▸ (within p among).2

theorem Holds.withSlacks_append (h : b.Holds columns) (within : PairsWithin b.dimension pairs)
    (within' : PairsWithin b.dimension more) (first : b.withSlacks pairs slack = .ok c) :
    b.withSlacks (pairs ++ more) slack = c.withSlacks more slack := by
  rw [h.withSlacks_eq within] at first
  cases first
  rw [(h.slacked within slack).withSlacks_eq within', h.withSlacks_eq (within.append within'),
    slacked_append]

end BasisMatrix

/-! ### Variables -/

/-- Relabelled columns have the variables of the last slacks given to them, all others keep theirs. -/
theorem relabel_ok {sequence : Array Nat} (within : PairsWithin sequence.size pairs)
    (offset : Nat) : ∃ vs, relabel sequence pairs offset = .ok vs ∧ vs.size = sequence.size ∧
      ∀ j, vs.getD j 0 = (pairs.reverse.lookup j).elim (sequence.getD j 0) (offset + ·) := by
  refine (foldlM_ok (fun done (vs : Array Nat) => vs.size = sequence.size ∧
    ∀ j, vs.getD j 0 = (done.reverse.lookup j).elim (sequence.getD j 0) (offset + ·))
    ⟨rfl, fun _ => rfl⟩ ?_).imp fun vs ⟨run, rest⟩ => ⟨run, rest⟩
  rintro done p rest vs split ⟨size, labels⟩
  have inside : p.1 < vs.size := size ▸ (within p (by simp [split])).1
  refine ⟨vs.setIfInBounds p.1 (offset + p.2), withEntry_of_lt _ inside,
    Array.size_setIfInBounds.trans size, fun j => ?_⟩
  rw [getD_setIfInBounds inside, List.reverse_append, List.reverse_singleton,
    List.singleton_append, List.lookup_cons]
  by_cases same : j = p.1
  · simp [same]
  · rw [if_neg same, labels, beq_false_of_ne same]

theorem relabel_append {sequence vs : Array Nat} (first : relabel sequence pairs offset = .ok vs) :
    relabel sequence (pairs ++ more) offset = relabel vs more offset := by
  unfold relabel at first ⊢
  rw [List.foldlM_append, first]
  rfl

end SimplexBasis
