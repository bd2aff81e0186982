import SimplexBasis.Sorting.Heap
import SimplexBasis.Sorting.Partition

/-!
# Introsort

Sorting by keys: quicksort whose pivot is a median of samples, with a stable sort for short and for
ordered lists and heapsort for lists that keep falling into unequal parts. Which of two elements
with equal keys comes first is fixed by the pivots and by the order within the parts of a
partition. `sort_perm` says that a list is sorted into a permutation of itself.
-/

namespace SimplexBasis.Sorting

variable {β : Type}

/-! ### Choice of the pivot -/

def medianOfThree (key : Nat → Nat) (a b c : Nat) : Nat :=
  if decide (key a < key b) == decide (key a < key c) then
    if decide (key b < key c) == decide (key a < key b) then b else c
  else a

/-- The position of the pivot among the `n` elements from `first` on: the middle of three samples at
the beginning and after four and seven eighths. In place of a sample stands the pivot of the eighth
that begins with it, if an eighth is large enough. -/
def pivotWithin (key : Nat → Nat) (n first : Nat) : Nat :=
  let eighth := n / 8
  let middle (sample : Nat → Nat) :=
    medianOfThree key (sample first) (sample (first + eighth * 4)) (sample (first + eighth * 7))
  if 8 ≤ eighth then middle fun i => pivotWithin key eighth i else middle id
termination_by n
decreasing_by omega

/-! ### Sorting -/

variable (key : β → Nat)

def stableSort (xs : List β) : List β := xs.mergeSort fun x y => key x ≤ key y

def pivotFirst (xs : List β) : List β :=
  let elements := xs.toArray
  (elements.swapIfInBounds 0 (pivotWithin (keyAt key elements) elements.size 0)).toList

/-- Quicksort with at most `limit` partitions one within another. No key is below `floor`, so that
with a pivot of that key the part below is sorted when it takes in the equal keys. -/
def quicksort : Nat → Option Nat → List β → List β
  | 0, _, xs => if xs.length ≤ 32 then stableSort key xs else heapSort key xs
  | limit + 1, floor, xs =>
    if xs.length ≤ 32 then stableSort key xs
    else
      match pivotFirst key xs with
      | [] => []
      | pivot :: rest =>
        if floor.any (key pivot ≤ ·) then
          let parts := partition (fun x => key x ≤ key pivot) rest
          parts.1 ++ pivot :: quicksort limit none parts.2
        else
          let parts := partition (fun x => key x < key pivot) rest
          quicksort limit floor parts.1 ++ pivot :: quicksort limit (some (key pivot)) parts.2

def isChain (related : β → β → Bool) (xs : List β) : Bool :=
  (xs.zip xs.tail).all fun (x, y) => related x y

def sort (xs : List β) : List β :=
  if xs.length ≤ 20 || isChain (fun x y => key x ≤ key y) xs ||
      isChain (fun x y => key y < key x) xs then stableSort key xs
  else quicksort key (2 * xs.length.log2) none xs

theorem stableSort_perm (xs : List β) : (stableSort key xs).Perm xs := List.mergeSort_perm xs _

theorem pivotFirst_perm (xs : List β) : (pivotFirst key xs).Perm xs :=
  (swapIfInBounds_perm xs.toArray _ _).toList

theorem around_pivot_perm {below : β → Bool} {rest low high : List β} (pivot : β)
    (h₁ : low.Perm (partition below rest).1) (h₂ : high.Perm (partition below rest).2) :
    (low ++ pivot :: high).Perm (pivot :: rest) :=
  List.perm_middle.trans (.cons pivot ((h₁.append h₂).trans (partition_perm below rest)))

theorem quicksort_perm (limit : Nat) (floor : Option Nat) (xs : List β) :
    (quicksort key limit floor xs).Perm xs := by
  induction limit generalizing floor xs with
  | zero =>
    rw [quicksort]
    split
    · exact stableSort_perm key xs
    · exact heapSort_perm key xs
  | succ limit ih =>
    rw [quicksort]
    split
    · exact stableSort_perm key xs
    · split
      · next h => exact h ▸ pivotFirst_perm key xs
      · next pivot rest h =>
        have chosen : (pivot :: rest).Perm xs := h ▸ pivotFirst_perm key xs
        split
        · exact (around_pivot_perm pivot (.refl _) (ih none _)).trans chosen
        · exact (around_pivot_perm pivot (ih floor _) (ih (some (key pivot)) _)).trans chosen

theorem sort_perm (xs : List β) : (sort key xs).Perm xs := by
  unfold sort
  split
  · exact stableSort_perm key xs
  · exact quicksort_perm key _ none xs

end SimplexBasis.Sorting
