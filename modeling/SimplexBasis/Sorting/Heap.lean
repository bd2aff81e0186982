/-!
# Heapsort

An array is arranged as a heap, in which no key is larger than that of its parent, and emptied from
the largest key down. `heapSort_perm` says that the elements stay the same.
-/

namespace SimplexBasis.Sorting

variable {β : Type} (key : β → Nat)

/-- The key at a position, zero behind the end. -/
def keyAt (xs : Array β) (i : Nat) : Nat := xs[i]?.elim 0 key

/-- The element at `node` moved down in the heap of the first `size` elements until no child has a
larger key. Of two children the one with the larger key comes up, the first one if they are equal.
-/
def siftDown (size node : Nat) (xs : Array β) : Array β :=
  let left := 2 * node + 1
  if left < size then
    let child := if left + 1 < size ∧ keyAt key xs left < keyAt key xs (left + 1) then left + 1
      else left
    if keyAt key xs node < keyAt key xs child then
      siftDown size child (xs.swapIfInBounds node child)
    else xs
  else xs
termination_by size - node
decreasing_by split <;> omega

/-- The first element of a heap exchanged with the one at `last`, its end. The elements before it
form a heap again. -/
def extractMax (last : Nat) (xs : Array β) : Array β :=
  siftDown key last 0 (xs.swapIfInBounds 0 last)

def heapSort (xs : List β) : List β :=
  let n := xs.length
  let heap := (List.range (n / 2)).reverse.foldl (fun xs node => siftDown key n node xs) xs.toArray
  ((List.range n).reverse.foldl (fun xs last => extractMax key last xs) heap).toList

theorem swapIfInBounds_perm (xs : Array β) (i j : Nat) : (xs.swapIfInBounds i j).Perm xs := by
  unfold Array.swapIfInBounds
  split
  · split
    · exact Array.swap_perm _ _
    · exact .rfl
  · exact .rfl

theorem siftDown_perm (size node : Nat) (xs : Array β) : (siftDown key size node xs).Perm xs := by
  fun_induction siftDown key size node xs with
  | case1 node xs _ _ _ _ ih => exact ih.trans (swapIfInBounds_perm xs _ _)
  | case2 => exact .rfl
  | case3 => exact .rfl

theorem foldl_perm {ι : Type} (f : Array β → ι → Array β) (step : ∀ xs i, (f xs i).Perm xs)
    (is : List ι) (xs : Array β) : (is.foldl f xs).Perm xs := by
  induction is generalizing xs with
  | nil => exact .rfl
  | cons i is ih => exact (ih _).trans (step xs i)

theorem heapSort_perm (xs : List β) : (heapSort key xs).Perm xs := by
  have emptied := foldl_perm (fun xs last => extractMax key last xs) (fun xs last =>
    (siftDown_perm key last 0 _).trans (swapIfInBounds_perm xs 0 last)) (List.range xs.length).reverse
  have arranged := foldl_perm (fun ys node => siftDown key xs.length node ys)
    (fun ys node => siftDown_perm key _ node ys) (List.range (xs.length / 2)).reverse xs.toArray
  exact ((emptied _).trans arranged).toList

end SimplexBasis.Sorting
