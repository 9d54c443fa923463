import ShaderIR.Flow.Graph

/-!
# Dominators

A block dominates another if every path from the entry to the other goes through it.

* `Dominators`: the reachable blocks in reverse post-order, and the immediate dominator of each, by
  its position in that order.
* `Dominators.ofGraph`: starts from nothing known but the entry, and goes over all blocks again and
  again, each time taking for a block the nearest common dominator of the predecessors that are
  known already, until a round changes nothing.
* `Dominators.dominates`: climbs from a block through its immediate dominators.
-/

namespace ShaderIR

/-- The dominator tree of the reachable blocks. -/
structure Dominators where
  /-- The reachable blocks in reverse post-order. -/
  order : List BlockId
  /-- The position of the immediate dominator of each block; the entry has none. -/
  idoms : List (Option Nat)
  deriving DecidableEq

namespace Dominators

/-- The immediate dominators as far as they are known, by position. -/
abbrev Parents := List (Option Nat)

/-- Whether the dominator of a position is known already. -/
def Parents.knows (t : Parents) (i : Nat) : Bool := (t[i]?.join).isSome

/-- The immediate dominator of a position, which has to be known. -/
def Parents.parent (t : Parents) (i : Nat) : Except Fault Nat :=
  match t[i]?.join with
  | some d => .ok d
  | none => .error .readUndefined

/-- The nearest common dominator of two positions: of the two, the later one climbs. -/
def Parents.meet (t : Parents) : Nat → Nat → Nat → Except Fault Nat
  | 0, a, b => if a = b then .ok a else .error .endless
  | n + 1, a, b =>
    if a = b then .ok a
    else if b < a then do meet t n (← t.parent a) b
    else do meet t n a (← t.parent b)

/-- The nearest common dominator of those predecessors that are known already, if any is. -/
def Parents.meetAll (t : Parents) (preds : List Nat) : Except Fault (Option Nat) :=
  match preds.filter t.knows with
  | [] => .ok none
  | first :: rest => do
    return some (← rest.foldlM (fun d p => t.meet (p + d) p d) first)

/-- Brings one position up to date, and says whether that changed it. -/
def Parents.refine (t : Parents) (i : Nat) (preds : List Nat) : Except Fault (Parents × Bool) := do
  match ← t.meetAll preds with
  | none => return (t, false)
  | some d => return (t.set i (some d), decide (t[i]?.join ≠ some d))

/-- Brings the positions from `i` on up to date, in order. -/
def Parents.round (t : Parents) : Nat → List (List Nat) → Except Fault (Parents × Bool)
  | _, [] => .ok (t, false)
  | i, preds :: rest => do
    let (t, here) ← t.refine i preds
    let (t, later) ← Parents.round t (i + 1) rest
    return (t, here || later)

/-- Goes over all positions until nothing changes any more. -/
def Parents.settle (preds : List (List Nat)) : Nat → Parents → Except Fault Parents
  | 0, _ => .error .endless
  | n + 1, t => do
    let (t, changed) ← t.round 1 preds
    if changed then settle preds n t else return t

/-- The dominator tree of a graph.  After the first round every position is known, and from then on
each round but the last moves some position nearer to the entry, which bounds their number. -/
def ofGraph (g : FlowGraph) : Except Fault Dominators :=
  match g.revPostOrder with
  | [] => .ok ⟨[], []⟩
  | entry :: others => do
    let order := entry :: others
    let preds := others.map fun b => (g.predecessors b).filterMap (order.idxOf? ·)
    let start := some 0 :: others.map fun _ => none
    let t ← Parents.settle preds (order.length * order.length + 2) start
    return ⟨order, t.set 0 none⟩

/-- The dominator tree of the blocks that can be reached from the entry. -/
def ofBlocks (entry : Option BlockId) (blocks : Defs .block Block) : Except Fault Dominators := do
  ofGraph (← FlowGraph.ofBlocks entry blocks)

/-- The position of a reachable block. -/
def index? (d : Dominators) (block : BlockId) : Option Nat := d.order.idxOf? block

/-- Whether a block can be reached from the entry. -/
def isReachable (d : Dominators) (block : BlockId) : Bool := (d.index? block).isSome

/-- The nearest other block that dominates a block; the entry and unreachable blocks have none. -/
def immediate? (d : Dominators) (block : BlockId) : Option BlockId := do
  let i ← d.index? block
  let parent ← d.idoms[i]?.join
  d.order[parent]?

/-- Whether the climb from position `j` meets position `i`.  It stops at the first position that is
not after `i`, as a dominator comes before what it dominates. -/
def climbs (t : Parents) (i : Nat) : Nat → Nat → Bool
  | 0, _ => false
  | n + 1, j =>
    if i < j then
      match t[j]?.join with
      | some d => climbs t i n d
      | none => false
    else j == i

/-- Whether every path from the entry to `b` goes through `a`.  There is none to an unreachable
block, so that all blocks dominate it. -/
def dominates (d : Dominators) (a b : BlockId) : Bool :=
  if a = b then true
  else
    match d.index? b, d.index? a with
    | none, _ => true
    | some _, none => false
    | some j, some i => climbs d.idoms i (j + 1) j

end Dominators

end ShaderIR
