import SimplexBasis.Action

/-!
# Count lists

Doubly linked lists that keep elements sorted by a count. An element is in at most one list. The
links of the elements come first, the heads of the lists behind them: the forward link of a head is
the first element of its list, its backward link the last one, and the links of the last and the
first element lead back to the head. What is in no list, and the head of an empty list, is linked to
itself.
-/

namespace SimplexBasis

/-- Elements in doubly linked lists. -/
structure CountLists where
  elements : Nat
  lists : Nat
  /-- Forward links of the elements and of the heads. -/
  forward : Array Nat
  backward : Array Nat
  /-- At least one, and no list from the first up to this one has an element. -/
  least : Nat
  deriving DecidableEq

namespace CountLists

def blank (elements lists : Nat) : CountLists where
  elements := elements
  lists := lists
  forward := Array.range (elements + lists)
  backward := Array.range (elements + lists)
  least := max 1 lists

def void : CountLists := ⟨0, 0, #[], #[], 0⟩

/-! ### Reading -/

/-- The element at a link, if it is not a head. -/
def element? (c : CountLists) (link : Nat) : Option Nat :=
  if link < c.elements then some link else none

def first (c : CountLists) (list : Nat) : Checked (Option Nat) :=
  return c.element? (← entry c.forward (c.elements + list))

def following (c : CountLists) (e : Nat) : Checked (Option Nat) :=
  return c.element? (← entry c.forward e)

def follow (c : CountLists) : Nat → Option Nat → Checked (List Nat)
  | _, none => .ok []
  | 0, some _ => .error .unbounded
  | fuel + 1, some e => return e :: (← c.follow fuel (← c.following e))

def toList (c : CountLists) (list : Nat) : Checked (List Nat) := do
  c.follow c.elements (← c.first list)

/-! ### Writing -/

def setForward (i x : Nat) : Action CountLists Unit :=
  Part.put ⟨(·.forward), fun f c => { c with forward := f c.forward }⟩ i x

def setBackward (i x : Nat) : Action CountLists Unit :=
  Part.put ⟨(·.backward), fun f c => { c with backward := f c.backward }⟩ i x

/-- Add an element that is in no list to the end of a list. -/
def add (e list : Nat) : Action CountLists Unit := do
  Action.require (list < (← get).lists) .indexOutOfRange
  Action.require ((← entry (← get).forward e) == e) .inconsistent
  Action.require ((← entry (← get).backward e) == e) .inconsistent
  let head := (← get).elements + list
  let last ← entry (← get).backward head
  setForward last e
  setForward e head
  setBackward e last
  setBackward head e
  modify fun c => if 0 < list && list < c.least then { c with least := list } else c

/-- Remove an element from its list, if it is in one. -/
def remove (e : Nat) : Action CountLists Unit := do
  let next ← entry (← get).forward e
  let prev ← entry (← get).backward e
  setForward prev next
  setBackward next prev
  setForward e e
  setBackward e e

def moveTo (e list : Nat) : Action CountLists Unit := do
  remove e
  add e list

/-- Advance `least` past empty lists, over at most so many of them. -/
def advance : Nat → Action CountLists Unit
  | 0 => pure ()
  | remaining + 1 => do
    let c ← get
    if (← c.first c.least).isNone then
      modify fun c => { c with least := c.least + 1 }
      advance remaining

/-- The first list with an element, list zero apart. -/
def leastNonempty : Action CountLists (Option Nat) := do
  advance ((← get).lists - (← get).least)
  let c ← get
  return if c.least < c.lists then some c.least else none

end CountLists

end SimplexBasis
