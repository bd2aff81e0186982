/-!
# Partition

A list is partitioned in one pass into the elements below a pivot and the others. The order within
the two parts is fixed: below, the last element comes first and the others follow as they came;
above, the elements stand on a wheel that turns by one place with every element of the list.
`partition_perm` says that nothing is lost.
-/

namespace SimplexBasis.Sorting

variable {β : Type}

/-- Elements on a wheel, from the place where it is read: `front`, and then `back` in reverse. -/
structure Wheel (β : Type) where
  front : List β
  back : List β

namespace Wheel

def toList (w : Wheel β) : List β := w.front ++ w.back.reverse

def empty : Wheel β := ⟨[], []⟩

def insert (w : Wheel β) (x : β) : Wheel β := ⟨x :: w.front, w.back⟩

def turn (w : Wheel β) : Wheel β :=
  match w.front with
  | x :: front => ⟨front, x :: w.back⟩
  | [] =>
    match w.back.reverse with
    | x :: front => ⟨front, [x]⟩
    | [] => empty

@[simp] theorem toList_empty : (empty : Wheel β).toList = [] := rfl

@[simp] theorem toList_insert (w : Wheel β) (x : β) : (w.insert x).toList = x :: w.toList := rfl

theorem toList_turn (w : Wheel β) : w.turn.toList = w.toList.tail ++ w.toList.head?.toList := by
  rcases w with ⟨_ | ⟨x, front⟩, back⟩
  · cases h : back.reverse <;> simp [turn, toList, h, empty]
  · simp [turn, toList]

theorem turn_perm (w : Wheel β) : w.turn.toList.Perm w.toList := by
  rw [toList_turn]
  cases w.toList with
  | nil => exact .rfl
  | cons x rest => exact List.perm_append_singleton x rest

end Wheel

/-- One pass over a list. `low` holds the elements below so far, the last one first. -/
def pass (below : β → Bool) : List β → List β → Wheel β → List β × List β
  | [], low, high => (low, high.toList)
  | x :: rest, low, high =>
    if below x then pass below rest (x :: low) high.turn
    else pass below rest low (high.turn.insert x)

/-- The elements below and the others. The pass begins at the second element of the list and ends
at the first. -/
def partition (below : β → Bool) (xs : List β) : List β × List β :=
  let parts := pass below (xs.tail ++ xs.head?.toList) [] .empty
  (parts.1.head?.toList ++ parts.1.tail.reverse, parts.2)

theorem pass_perm (below : β → Bool) (xs low : List β) (high : Wheel β) :
    ((pass below xs low high).1 ++ (pass below xs low high).2).Perm
      (xs ++ (low ++ high.toList)) := by
  induction xs generalizing low high with
  | nil => exact .rfl
  | cons x rest ih =>
    rw [pass]
    split
    · refine (ih _ _).trans (.trans ?_ List.perm_middle)
      exact .append_left _ (.cons _ (.append_left _ high.turn_perm))
    · refine (ih _ _).trans (.trans ?_ List.perm_middle)
      rw [Wheel.toList_insert]
      exact .append_left _ (List.perm_middle.trans (.cons _ (.append_left _ high.turn_perm)))

theorem head_append_reverse_perm (xs : List β) : (xs.head?.toList ++ xs.tail.reverse).Perm xs := by
  cases xs with
  | nil => exact .rfl
  | cons x rest => exact .cons x rest.reverse_perm

theorem tail_append_head_perm (xs : List β) : (xs.tail ++ xs.head?.toList).Perm xs := by
  cases xs with
  | nil => exact .rfl
  | cons x rest => exact List.perm_append_singleton x rest

theorem partition_perm (below : β → Bool) (xs : List β) :
    ((partition below xs).1 ++ (partition below xs).2).Perm xs := by
  have passed := pass_perm below (xs.tail ++ xs.head?.toList) [] .empty
  simp only [Wheel.toList_empty, List.append_nil] at passed
  exact ((head_append_reverse_perm _).append_right _).trans
    (passed.trans (tail_append_head_perm xs))

theorem pass_below (below : β → Bool) (xs low : List β) (high : Wheel β)
    (h₁ : ∀ x ∈ low, below x = true) (h₂ : ∀ x ∈ high.toList, below x = false) :
    (∀ x ∈ (pass below xs low high).1, below x = true) ∧
      ∀ x ∈ (pass below xs low high).2, below x = false := by
  induction xs generalizing low high with
  | nil => exact ⟨h₁, h₂⟩
  | cons x rest ih =>
    have turned : ∀ y ∈ high.turn.toList, below y = false := fun y hy =>
      h₂ y (high.turn_perm.mem_iff.1 hy)
    rw [pass]
    split
    · exact ih _ _ (by simp_all) turned
    · exact ih _ _ h₁ (by simp_all)

theorem partition_below (below : β → Bool) (xs : List β) :
    (∀ x ∈ (partition below xs).1, below x = true) ∧
      ∀ x ∈ (partition below xs).2, below x = false := by
  have passed := pass_below below (xs.tail ++ xs.head?.toList) [] .empty (by simp) (by simp)
  exact ⟨fun x hx => passed.1 x ((head_append_reverse_perm _).mem_iff.1 hx), passed.2⟩

end SimplexBasis.Sorting
