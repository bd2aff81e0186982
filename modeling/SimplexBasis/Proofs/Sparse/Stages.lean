import Mathlib.Data.List.Induction
import SimplexBasis.Proofs.Entries
import SimplexBasis.Proofs.Runs
import SimplexBasis.Sparse.Factors

/-!
# Stages

A factorization in progress as the list of its completed stages. `Factors.ofStages` lays the stages
out in the arrays of the factors, and closing a stage appends it to the list.
-/

set_option linter.unusedSectionVars false

namespace SimplexBasis

/-- A pivot with its column of the lower and its row of the upper factor. -/
structure Stage (α : Type) where
  row : Nat
  col : Nat
  pivot : α
  lower : List (Nat × α)
  /-- The entries of the pivot row with their columns. -/
  upper : List (Nat × α)

variable {α : Type}

/-! ### Compressed lines -/

namespace Compressed

theorem ofLines_concat (lines : List (List (Nat × α))) (entries : List (Nat × α)) :
    ofLines (lines ++ [entries]) = (ofLines lines).pushLine entries := by
  simp [ofLines]

/-- Entries appended to the open line. -/
def pushAll (c : Compressed α) (entries : List (Nat × α)) : Compressed α :=
  entries.foldl (fun c (i, x) => c.push i x) c

theorem close_pushAll (c : Compressed α) (entries : List (Nat × α)) :
    (c.pushAll entries).close = c.pushLine entries := rfl

theorem pushAll_concat (c : Compressed α) (entries : List (Nat × α)) (i : Nat) (x : α) :
    (c.pushAll entries).push i x = c.pushAll (entries ++ [(i, x)]) := by
  simp [pushAll]

@[simp] theorem index_ofLines (lines : List (List (Nat × α))) :
    (ofLines lines).index = (keys lines.flatten).toArray := by
  simp [ofLines, index_foldl_pushLine, empty]

@[simp] theorem value_ofLines (lines : List (List (Nat × α))) :
    (ofLines lines).value = (lines.flatten.map Prod.snd).toArray := by
  simp [ofLines, value_foldl_pushLine, empty]

theorem count_ofLines (lines : List (List (Nat × α))) :
    (ofLines lines).count = lines.flatten.length := by
  rw [count, index_ofLines, List.size_toArray, List.length_map]

theorem size_start_ofLines (lines : List (List (Nat × α))) :
    (ofLines lines).start.size = lines.length + 1 := by
  rw [ofLines, start_foldl_pushLine]
  simp [empty, Nat.add_comm]

end Compressed

/-! ### Factors of stages -/

namespace Factors

variable [Scalar α]

/-- The factors with entries in the open stage. -/
def opened (f : Factors α) (lower upper : List (Nat × α)) : Factors α :=
  { f with lower := f.lower.pushAll lower, upper := f.upper.pushAll upper }

/-- The factors of a matrix of dimension `m` with the given stages. -/
def ofStages (m : Nat) (stages : List (Stage α)) : Factors α where
  stageOfRow := (Array.range m).map fun i => (stages.map Stage.row).idxOf? i
  stageOfCol := (Array.range m).map fun j => (stages.map Stage.col).idxOf? j
  pivotRows := (stages.map Stage.row).toArray
  pivotCols := (stages.map Stage.col).toArray
  inverses := (stages.map fun st => 1 / st.pivot).toArray
  lower := .ofLines (stages.map Stage.lower)
  upper := .ofLines (stages.map Stage.upper)
  transposes := none

variable {m : Nat} {stages : List (Stage α)}

theorem blank_eq_ofStages : blank m = ofStages (α := α) m [] := by
  simp only [blank, ofStages, List.map_nil, Compressed.ofLines, List.foldl_nil, Factors.mk.injEq,
    and_true]
  constructor <;> · apply Array.ext <;> simp

@[simp] theorem rank_ofStages : (ofStages m stages).rank = stages.length := by
  simp [rank, ofStages]

theorem count_lower_concat (st : Stage α) : (ofStages m (stages ++ [st])).lower.count =
    (ofStages m stages).lower.count + st.lower.length := by
  simp [ofStages, Compressed.count_ofLines]

theorem count_upper_concat (st : Stage α) : (ofStages m (stages ++ [st])).upper.count =
    (ofStages m stages).upper.count + st.upper.length := by
  simp [ofStages, Compressed.count_ofLines]

@[simp] theorem rank_opened (f : Factors α) (lower upper : List (Nat × α)) :
    (f.opened lower upper).rank = f.rank := rfl

theorem opened_nil (f : Factors α) : f.opened [] [] = f := rfl

theorem pushLower_opened (f : Factors α) (lower upper : List (Nat × α)) (i : Nat) (x : α) :
    (f.opened lower upper).pushLower i x = f.opened (lower ++ [(i, x)]) upper := by
  simp [opened, pushLower, Compressed.pushAll_concat]

theorem pushUpper_opened (f : Factors α) (lower upper : List (Nat × α)) (j : Nat) (x : α) :
    (f.opened lower upper).pushUpper j x = f.opened lower (upper ++ [(j, x)]) := by
  simp [opened, pushUpper, Compressed.pushAll_concat]

theorem foldl_pushLower (f : Factors α) (lower upper more : List (Nat × α)) :
    more.foldl (fun f (i, x) => f.pushLower i x) (f.opened lower upper) =
      f.opened (lower ++ more) upper := by
  induction more generalizing lower with
  | nil => simp
  | cons e rest ih => simp [pushLower_opened, ih]

theorem foldl_pushUpper (f : Factors α) (lower upper more : List (Nat × α)) :
    more.foldl (fun f (j, x) => f.pushUpper j x) (f.opened lower upper) =
      f.opened lower (upper ++ more) := by
  induction more generalizing upper with
  | nil => simp
  | cons e rest ih => simp [pushUpper_opened, ih]

theorem stage_append {xs : List Nat} {x : Nat} (fresh : x ∉ xs) (i : Nat) :
    (xs ++ [x]).idxOf? i = if i = x then some xs.length else xs.idxOf? i := by
  by_cases eq : i = x
  · subst eq
    rw [if_pos rfl]
    induction xs with
    | nil => simp
    | cons y ys ih =>
      have ne : y ≠ i := fun h => fresh (h ▸ List.mem_cons_self)
      have tail := ih fun h => fresh (List.mem_cons_of_mem _ h)
      simp only [List.idxOf?, List.cons_append, List.findIdx?_cons] at tail ⊢
      simp [ne, tail]
  · rw [if_neg eq]
    induction xs with
    | nil => simp [List.idxOf?, Ne.symm eq]
    | cons y ys ih =>
      have tail := ih fun h => fresh (List.mem_cons_of_mem _ h)
      simp only [List.idxOf?, List.cons_append, List.findIdx?_cons] at tail ⊢
      rw [tail]

theorem stages_set {xs : List Nat} {x : Nat} (fresh : x ∉ xs) :
    ((Array.range m).map fun i => xs.idxOf? i).setIfInBounds x (some xs.length) =
      (Array.range m).map fun i => (xs ++ [x]).idxOf? i := by
  apply Array.ext
  · simp
  · intro i hi hi'
    simp only [Array.getElem_map, Array.getElem_range,
      stage_append fresh]
    grind

theorem closeStage_opened (st : Stage α) (freshRow : st.row ∉ stages.map Stage.row)
    (freshCol : st.col ∉ stages.map Stage.col) :
    ((ofStages m stages).opened st.lower st.upper).closeStage st.row st.col st.pivot =
      ofStages m (stages ++ [st]) := by
  have rows := stages_set (m := m) freshRow
  have cols := stages_set (m := m) freshCol
  simp only [List.length_map] at rows cols
  simp only [closeStage, rank_opened, rank_ofStages]
  simp only [opened, ofStages, Compressed.close_pushAll, List.map_append, List.map_cons,
    List.map_nil, Compressed.ofLines_concat, rows, cols, List.push_toArray]

/-! ### Reading -/

theorem unpivoted_eq (xs : List Nat) :
    unpivoted ((Array.range m).map fun i => xs.idxOf? i) =
      (List.range m).filter fun i => i ∉ xs := by
  unfold unpivoted
  rw [show ((Array.range m).map fun i => xs.idxOf? i).size = m by simp]
  refine List.filter_congr fun i hi => ?_
  have hi := List.mem_range.mp hi
  have listed : (xs.idxOf? i).isSome ↔ i ∈ xs := isSome_idxOf?
  have read : ((Array.range m).map fun i => xs.idxOf? i).getD i none = xs.idxOf? i := by
    simp [hi, Array.getD]
  rw [read]
  grind

end Factors

/-! ### Triangular stages -/

/-- A stage behind other stages: it has a row and a column of its own, and its entries stand in rows
and columns that are pivoted later or not at all. -/
structure Stage.Fits (st : Stage α) (m : Nat) (before : List (Stage α)) : Prop where
  insideRow : st.row < m
  insideCol : st.col < m
  freshRow : st.row ∉ before.map Stage.row
  freshCol : st.col ∉ before.map Stage.col
  distinctLower : (keys st.lower).Nodup
  distinctUpper : (keys st.upper).Nodup
  lower : ∀ i ∈ keys st.lower, i < m ∧ i ≠ st.row ∧ i ∉ before.map Stage.row
  upper : ∀ j ∈ keys st.upper, j < m ∧ j ≠ st.col ∧ j ∉ before.map Stage.col

/-- Stages each of which fits behind those before it. -/
def Triangular (m : Nat) (stages : List (Stage α)) : Prop :=
  ∀ before st after, stages = before ++ st :: after → st.Fits m before

namespace Triangular

variable {m : Nat} {stages : List (Stage α)} {st : Stage α}

theorem nil : Triangular (α := α) m [] := fun _ _ _ split => absurd split (by simp)

theorem concat (h : Triangular m stages) (fits : st.Fits m stages) :
    Triangular m (stages ++ [st]) := by
  intro before st' after split
  rcases List.eq_nil_or_concat after with rfl | ⟨after, last, rfl⟩
  · obtain ⟨rfl, eq⟩ := List.append_inj' split rfl
    exact (List.cons.inj eq).1 ▸ fits
  · have split' : stages ++ [st] = (before ++ st' :: after) ++ [last] := by simpa using split
    obtain ⟨eq, -⟩ := List.append_inj' split' rfl
    exact h before st' after eq

theorem of_concat (h : Triangular m (stages ++ [st])) : Triangular m stages ∧ st.Fits m stages :=
  ⟨fun before st' after split => h before st' (after ++ [st]) (by simp [split]),
    h stages st [] rfl⟩

theorem nodup_rows (h : Triangular m stages) : (stages.map Stage.row).Nodup := by
  induction stages using List.reverseRecOn with
  | nil => simp
  | append_singleton stages st ih =>
    obtain ⟨front, fits⟩ := h.of_concat
    rw [List.map_append]
    refine List.nodup_append.mpr ⟨ih front, List.nodup_singleton _, ?_⟩
    rintro i hi _ hj rfl
    exact fits.freshRow (by simp_all)

theorem nodup_cols (h : Triangular m stages) : (stages.map Stage.col).Nodup := by
  induction stages using List.reverseRecOn with
  | nil => simp
  | append_singleton stages st ih =>
    obtain ⟨front, fits⟩ := h.of_concat
    rw [List.map_append]
    refine List.nodup_append.mpr ⟨ih front, List.nodup_singleton _, ?_⟩
    rintro j hi _ hj rfl
    exact fits.freshCol (by simp_all)

theorem fits (h : Triangular m stages) (member : st ∈ stages) : st.row < m ∧ st.col < m := by
  obtain ⟨before, after, split⟩ := List.append_of_mem member
  have fits := h before st after split
  exact ⟨fits.insideRow, fits.insideCol⟩

theorem row_lt {i : Nat} (h : Triangular m stages) (member : i ∈ stages.map Stage.row) :
    i < m := by
  obtain ⟨st, hst, rfl⟩ := List.mem_map.mp member
  exact (h.fits hst).1

theorem col_lt {j : Nat} (h : Triangular m stages) (member : j ∈ stages.map Stage.col) :
    j < m := by
  obtain ⟨st, hst, rfl⟩ := List.mem_map.mp member
  exact (h.fits hst).2

theorem length_le (h : Triangular m stages) : stages.length ≤ m := by
  have subset : stages.map Stage.row ⊆ List.range m := fun i hi =>
    List.mem_range.mpr (h.row_lt hi)
  simpa using (h.nodup_rows.subperm subset).length_le

theorem perm_of_full {xs : List Nat} (distinct : xs.Nodup) (inside : ∀ i ∈ xs, i < m)
    (full : m ≤ xs.length) : xs.Perm (List.range m) :=
  (distinct.subperm fun i hi => List.mem_range.mpr (inside i hi)).perm_of_length_le (by simpa)

theorem rows_perm (h : Triangular m stages) (full : m ≤ stages.length) :
    (stages.map Stage.row).Perm (List.range m) :=
  perm_of_full h.nodup_rows (fun _ => h.row_lt) (by simpa)

theorem cols_perm (h : Triangular m stages) (full : m ≤ stages.length) :
    (stages.map Stage.col).Perm (List.range m) :=
  perm_of_full h.nodup_cols (fun _ => h.col_lt) (by simpa)

theorem mem_rows_of_full {i : Nat} (h : Triangular m stages) (full : m ≤ stages.length)
    (hi : i < m) : i ∈ stages.map Stage.row :=
  (h.rows_perm full).mem_iff.mpr (List.mem_range.mpr hi)

end Triangular

end SimplexBasis
