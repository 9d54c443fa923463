import ShaderIR.Chain.Basic

/-!
# Segments of a chain

A segment is the part of a chain between two of its nodes, both included.  Splitting a node off
reads the link to its neighbour first, so that the node may be removed afterwards, or other nodes
inserted next to it, without any effect on the rest.

* `Segment.popFront`, `Segment.popBack`: split off the first and the last node.
* `Segment.toList`: all nodes of a segment, first to last.
* `Chain.segment`: the whole of a chain.
-/

namespace ShaderIR

/-- A part of a chain, by its two ends; an empty segment has neither. -/
structure Segment (κ : Kind) where
  first : Option (Id κ)
  last : Option (Id κ)
  deriving DecidableEq

variable {κ : Kind} {α : Type}

namespace Segment

def empty : Segment κ := ⟨none, none⟩

/-- Splits off the first node.  The only node of a segment is not looked up. -/
def popFront (s : Segment κ) (ns : Nodes κ α) : Except Fault (Option (Id κ × Segment κ)) :=
  match s.first, s.last with
  | none, _ => .ok none
  | some _, none => .error .firstWithoutLast
  | some first, some last =>
    if first = last then .ok (some (first, empty))
    else do
      let node ← ns.find first
      match node.next with
      | some next => return some (first, ⟨some next, some last⟩)
      | none => throw .lastNotReached

/-- Splits off the last node. -/
def popBack (s : Segment κ) (ns : Nodes κ α) : Except Fault (Option (Id κ × Segment κ)) :=
  match s.last, s.first with
  | none, _ => .ok none
  | some _, none => .error .lastWithoutFirst
  | some last, some first =>
    if first = last then .ok (some (last, empty))
    else do
      let node ← ns.find last
      match node.prev with
      | some prev => return some (last, ⟨some first, some prev⟩)
      | none => throw .firstNotReached

/-- The first nodes of a segment, as long as there is fuel. -/
def collect : Nat → Segment κ → Nodes κ α → Except Fault (List (Id κ))
  | 0, _, _ => .error .endless
  | n + 1, s, ns => do
    match ← s.popFront ns with
    | none => return []
    | some (id, rest) => return id :: (← collect n rest ns)

/-- All nodes of a segment, first to last.  A walk that ends passes every node once, and of the
nodes it passes only the last may be undefined. -/
def toList (s : Segment κ) (ns : Nodes κ α) : Except Fault (List (Id κ)) :=
  collect (ns.size + 2) s ns

end Segment

namespace Chain

/-- The segment that is the whole chain. -/
def segment (c : Chain κ) : Segment κ := ⟨c.first?, c.last?⟩

/-- All nodes of a chain, first to last. -/
def toList (c : Chain κ) (ns : Nodes κ α) : Except Fault (List (Id κ)) := c.segment.toList ns

end Chain

end ShaderIR
