import SimplexBasis.Compressed

/-!
# Reach

Depth-first search in a graph given by adjacency lists, for the nonzero pattern of a triangular
solve: the nodes reachable from the nonzeros of the right-hand side, each before the nodes that
depend on it. The search stack grows from the front of an array and the result from its back.
-/

namespace SimplexBasis

structure Reach where
  /-- The stack in the first `height` places, the result in the places from `top` on. -/
  pattern : Array Nat
  /-- For each node on the stack the position of the edge to look at next. -/
  resume : Array Nat
  /-- A node is marked if it holds the marker of the search. -/
  marked : Array Nat
  height : Nat
  top : Nat

namespace Reach

variable {α : Type}

/-- The first edge to an unmarked node among `remaining` edges from `position` on: its position and
the node. -/
def unmarkedEdge? (graph : Compressed α) (marker : Nat) (marked : Array Nat) :
    Nat → Nat → Checked (Option (Nat × Nat))
  | 0, _ => .ok none
  | remaining + 1, position => do
    let next ← entry graph.index position
    if (← entry marked next) == marker then
      unmarkedEdge? graph marker marked remaining (position + 1)
    else return some (position, next)

/-- Mark a node that comes to the top of the stack for the first time. -/
def visit (graph : Compressed α) (marker node place : Nat) (r : Reach) : Checked Reach := do
  if (← entry r.marked node) == marker then return r
  let marked ← withEntry r.marked node marker
  let resume ← withEntry r.resume place (← entry graph.start node)
  return { r with marked := marked, resume := resume }

/-- One step at the node on top of the stack: go on to an unmarked neighbour, or move the node to
the result. -/
def step (graph : Compressed α) (marker : Nat) (r : Reach) : Checked Reach := do
  let place := r.height - 1
  let node ← entry r.pattern place
  let r ← r.visit graph marker node place
  let position ← entry r.resume place
  let last ← entry graph.start (node + 1)
  match ← unmarkedEdge? graph marker r.marked (last - position) position with
  | some (edge, next) =>
    let resume ← withEntry r.resume place (edge + 1)
    let pattern ← withEntry r.pattern r.height next
    return { r with resume := resume, pattern := pattern, height := r.height + 1 }
  | none =>
    if r.top = 0 then throw .indexOutOfRange
    let pattern ← withEntry r.pattern (r.top - 1) node
    return { r with pattern := pattern, height := r.height - 1, top := r.top - 1 }

def run (graph : Compressed α) (marker : Nat) : Nat → Reach → Checked Reach
  | fuel, r =>
    if r.height = 0 then .ok r
    else
      match fuel with
      | 0 => .error .unbounded
      | fuel + 1 => do run graph marker fuel (← r.step graph marker)

/-- Add what is reachable from a node, unless the node is marked. Each node is put on the stack and
taken off it at most once. -/
def addRoot (graph : Compressed α) (marker : Nat) (r : Reach) (root : Nat) : Checked Reach := do
  if (← entry r.marked root) == marker then return r
  let pattern ← withEntry r.pattern 0 root
  run graph marker (2 * pattern.size) { r with pattern := pattern, height := 1 }

def addRoots (graph : Compressed α) (marker : Nat) (r : Reach) (roots : List Nat) : Checked Reach :=
  roots.foldlM (addRoot graph marker) r

/-- The result, each node before the nodes that depend on it. -/
def order (r : Reach) : List Nat := r.pattern.toList.drop r.top

end Reach

end SimplexBasis
