import SimplexBasis.Action
import SimplexBasis.Word

/-!
# Line files

A line file stores lines of entries in one array. The entries of a line are contiguous; lines stand
in any order, with gaps between them. A line grows in place while the gap behind it allows and is
moved to the end of the file otherwise. Gaps are reclaimed by `compress`, which runs only when the
space at the end is too small. How the lines are placed never shows in their contents as long as the
room that is asked for is a word.
-/

namespace SimplexBasis

/-- Lines of entries in one array. -/
structure LineFile (ε : Type) where
  lineCount : Nat
  /-- Where each line begins; the last element is where the unused space begins. -/
  start : Array Nat
  /-- Where each line ends; the last element is the capacity. -/
  stop : Array Nat
  /-- The following line in memory order. The lines form a cycle through `lineCount`. -/
  next : Array Nat
  prev : Array Nat
  data : Array ε
  compressions : Nat
  deriving DecidableEq

namespace LineFile

variable {ε : Type}

def blank (lines capacity : Nat) (filler : ε) : LineFile ε where
  lineCount := lines
  start := Array.replicate (lines + 1) 0
  stop := (Array.replicate (lines + 1) 0).setIfInBounds lines capacity
  next := (Array.range (lines + 1)).map fun i => (i + 1) % (lines + 1)
  prev := (Array.range (lines + 1)).map fun i => (i + lines) % (lines + 1)
  data := Array.replicate capacity filler
  compressions := 0

def void : LineFile ε := ⟨0, #[], #[], #[], #[], #[], 0⟩

/-! ### Reading -/

def length (f : LineFile ε) (line : Nat) : Checked Nat :=
  return (← entry f.stop line) - (← entry f.start line)

def line (f : LineFile ε) (line : Nat) : Checked (List ε) := do
  segment f.data (← entry f.start line) (← entry f.stop line)

def count (f : LineFile ε) : Checked Nat :=
  (List.range f.lineCount).foldlM (fun n line => return n + (← f.length line)) 0

/-- The unused space at the end of the file. -/
def freeSpace (f : LineFile ε) : Checked Nat :=
  return Word.sub (← entry f.stop f.lineCount) (← entry f.start f.lineCount)

/-- The space behind a line, up to the next line or to the end of the file. -/
def room (f : LineFile ε) (line : Nat) : Checked Nat := do
  let next ← entry f.next line
  let limit ← if next == f.lineCount then entry f.stop next else entry f.start next
  return Word.sub limit (← entry f.stop line)

/-! ### Writing -/

def setStart (line position : Nat) : Action (LineFile ε) Unit :=
  Part.put ⟨(·.start), fun g f => { f with start := g f.start }⟩ line position

def setStop (line position : Nat) : Action (LineFile ε) Unit :=
  Part.put ⟨(·.stop), fun g f => { f with stop := g f.stop }⟩ line position

def setNext (line next : Nat) : Action (LineFile ε) Unit :=
  Part.put ⟨(·.next), fun g f => { f with next := g f.next }⟩ line next

def setPrev (line prev : Nat) : Action (LineFile ε) Unit :=
  Part.put ⟨(·.prev), fun g f => { f with prev := g f.prev }⟩ line prev

def setData (position : Nat) (e : ε) : Action (LineFile ε) Unit :=
  Part.put ⟨(·.data), fun g f => { f with data := g f.data }⟩ position e

def clearLine (line : Nat) : Action (LineFile ε) Unit := do
  setStop line (← entry (← get).start line)

/-- Remove the entry at `offset` of a line and put the last entry of the line in its place. -/
def swapRemove (line offset : Nat) : Action (LineFile ε) Unit := do
  let first ← entry (← get).start line
  let last ← entry (← get).stop line
  Action.require (first + offset < last) .inconsistent
  setStop line (last - 1)
  setData (first + offset) (← entry (← get).data (last - 1))

def writeAt (first : Nat) (entries : List ε) : Action (LineFile ε) Unit := do
  Action.require (first + entries.length ≤ (← get).data.size) .indexOutOfRange
  modify fun f => { f with data := overwrite f.data first entries }

/-- Move the entries of a line so that it begins at `target`; answers where it ends then. -/
def moveTo (line target : Nat) : Action (LineFile ε) Nat := do
  let f ← get
  let entries ← f.line line
  writeAt target entries
  setStart line target
  setStop line (target + entries.length)
  return target + entries.length

/-- Claim the space behind a line for `extra` more entries, if there is enough. -/
def growInPlace (line extra : Nat) : Action (LineFile ε) Bool := do
  let f ← get
  let room ← f.room line
  if room < extra then return false
  let n := f.lineCount
  let next ← entry f.next line
  if next == n then
    let needed := (← entry f.stop line) + extra
    let unused ← entry f.start n
    setStart n (max unused needed)
  return true

/-- Move a line to the end of the file, with `extra` unused entries behind it. -/
def reappend (line extra : Nat) : Action (LineFile ε) Unit := do
  let n := (← get).lineCount
  let unused ← entry (← get).start n
  let length ← (← get).length line
  let free ← (← get).freeSpace
  Action.require (Word.add length extra ≤ free) .inconsistent
  let last ← moveTo line unused
  setStart n (Word.add last extra)
  let before ← entry (← get).prev line
  let behind ← entry (← get).next line
  setNext before behind
  setPrev behind before
  let final ← entry (← get).prev n
  setNext final line
  setPrev line final
  setNext line n
  setPrev n line

/-- Move `line` and all lines behind it in memory order to the front. The lines before it end at
`used` and would like `extra` more entries; answers the same two numbers for the last line. -/
def compressFrom (spare : Nat → Nat) : Nat → Nat → Nat → Nat → Action (LineFile ε) (Nat × Nat)
  | 0, _, _, _ => Action.breach .unbounded
  | fuel + 1, line, used, extra => do
    if line < (← get).lineCount then
      let first ← entry (← get).start line
      Action.require (used ≤ first) .inconsistent
      let target := min (Word.add used extra) first
      let last ← moveTo line target
      compressFrom spare fuel (← entry (← get).next line) last (spare (last - target))
    else return (used, extra)

/-- Close the gaps. The memory order stays, and behind a line of `n` entries `spare n` entries are
left unused as far as the following line allows. -/
def compress (spare : Nat → Nat) : Action (LineFile ε) Unit := do
  let n := (← get).lineCount
  let (used, extra) ← compressFrom spare (n + 1) (← entry (← get).next n) 0 0
  let unused ← entry (← get).start n
  Action.require (used ≤ unused) .inconsistent
  setStart n (min (Word.add used extra) unused)
  modify fun f => { f with compressions := f.compressions + 1 }

/-- Make room for `extra` more entries at the end of a line. A line of `n` entries that has to move
gets up to `spare n` more. -/
def reserve (line extra : Nat) (spare : Nat → Nat) : Action (LineFile ε) Unit := do
  if ← growInPlace line extra then return
  let needed := (← (← get).length line) + extra
  let wanted := spare needed
  if (← (← get).freeSpace) < Word.add needed wanted then
    compress spare
    if ← growInPlace line extra then return
    if (← (← get).freeSpace) < needed then Action.fail .outOfMemory
  let free ← (← get).freeSpace
  reappend line (Word.add extra (min wanted (Word.sub free needed)))

def setLine (line : Nat) (entries : List ε) (spare : Nat → Nat) : Action (LineFile ε) Unit := do
  let length ← (← get).length line
  if length < entries.length then reserve line (entries.length - length) spare
  let first ← entry (← get).start line
  writeAt first entries
  setStop line (first + entries.length)

end LineFile

end SimplexBasis
