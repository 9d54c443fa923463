import ShaderIR.Entity.Defs

/-!
# Chains of linked nodes

A chain is a doubly linked list whose links live in the definitions of its nodes; the chain itself
holds its two ends only.  A node can therefore be inserted or removed in one step, and an outdated
copy of a chain can be told from a current one only by looking at the links.

* `Node`: a definition together with its two links; `Nodes`: a collection of them.
* `Chain`: the ends of a chain.
* `Chain.insertFirst`, `insertLast`, `insertBefore`, `insertAfter`, `remove`: each updates the links
  one after the other and checks every link that it replaces.  A node without neighbours is taken
  for a loose one, so a node that is alone in its chain can be inserted a second time.
-/

namespace ShaderIR

/-- A definition that can be linked into a chain. -/
structure Node (κ : Kind) (α : Type) where
  prev : Option (Id κ)
  next : Option (Id κ)
  val : α
  deriving DecidableEq

variable {κ : Kind} {α : Type}

namespace Node

/-- A node that is in no chain. -/
def loose (a : α) : Node κ α := ⟨none, none, a⟩

/-- Whether the node has a neighbour.  The only node of a chain has none. -/
def hasNeighbors (n : Node κ α) : Bool := n.prev.isSome || n.next.isSome

/-- The node without its links. -/
def unlinked (n : Node κ α) : Node κ α := { n with prev := none, next := none }

end Node

/-- Definitions that can be linked into chains. -/
abbrev Nodes (κ : Kind) (α : Type) := Defs κ (Node κ α)

namespace Nodes

/-- Makes a node lead forward to `next`, and hands out where it led before. -/
def swapNext (ns : Nodes κ α) (id : Id κ) (next : Option (Id κ)) :
    Except Fault (Option (Id κ) × Nodes κ α) := do
  let node ← ns.access id
  .ok (node.next, ns.set id { node with next })

/-- Makes a node lead back to `prev`, and hands out where it led before. -/
def swapPrev (ns : Nodes κ α) (id : Id κ) (prev : Option (Id κ)) :
    Except Fault (Option (Id κ) × Nodes κ α) := do
  let node ← ns.access id
  .ok (node.prev, ns.set id { node with prev })

/-- Gives a node both its links, unless it has a neighbour already. -/
def attach (ns : Nodes κ α) (how : Insertion) (id : Id κ) (prev next : Option (Id κ)) :
    Except Fault (Nodes κ α) := do
  let node ← ns.access id
  if node.hasNeighbors then .error (.alreadyLinked how)
  else .ok (ns.set id { node with prev, next })

/-- Takes both links from a node, and hands them out. -/
def detach (ns : Nodes κ α) (id : Id κ) :
    Except Fault (Option (Id κ) × Option (Id κ) × Nodes κ α) := do
  let node ← ns.access id
  .ok (node.prev, node.next, ns.set id node.unlinked)

end Nodes

/-- The first and the last node of a chain that has any. -/
structure Ends (κ : Kind) where
  first : Id κ
  last : Id κ
  deriving DecidableEq

/-- A chain, by its ends. -/
structure Chain (κ : Kind) where
  ends : Option (Ends κ)
  deriving DecidableEq

namespace Chain

def empty : Chain κ := ⟨none⟩

def isEmpty (c : Chain κ) : Bool := c.ends.isNone

def first? (c : Chain κ) : Option (Id κ) := c.ends.map Ends.first

def last? (c : Chain κ) : Option (Id κ) := c.ends.map Ends.last

/-- Inserts a loose node in front of the whole chain. -/
def insertFirst (c : Chain κ) (new : Id κ) (ns : Nodes κ α) :
    Except Fault (Chain κ × Nodes κ α) := do
  let ns ← Nodes.attach ns .first new none c.first?
  match c.ends with
  | none => .ok (⟨some ⟨new, new⟩⟩, ns)
  | some e =>
    let (before, ns) ← Nodes.swapPrev ns e.first (some new)
    if before.isSome then .error .firstHasPrev else .ok (⟨some ⟨new, e.last⟩⟩, ns)

/-- Inserts a loose node after the whole chain. -/
def insertLast (c : Chain κ) (new : Id κ) (ns : Nodes κ α) :
    Except Fault (Chain κ × Nodes κ α) := do
  let ns ← Nodes.attach ns .last new c.last? none
  match c.ends with
  | none => .ok (⟨some ⟨new, new⟩⟩, ns)
  | some e =>
    let (after, ns) ← Nodes.swapNext ns e.last (some new)
    if after.isSome then .error .lastHasNext else .ok (⟨some ⟨e.first, new⟩⟩, ns)

/-- The chain with a new first node in front of `next`, which has to be its first node so far. -/
def extendFront (c : Chain κ) (new next : Id κ) : Except Fault (Chain κ) :=
  match c.ends with
  | some e => if e.first = next then .ok ⟨some ⟨new, e.last⟩⟩ else .error .notFirst
  | none => .error .notFirst

/-- The chain with a new last node after `prev`, which has to be its last node so far. -/
def extendBack (c : Chain κ) (new prev : Id κ) : Except Fault (Chain κ) :=
  match c.ends with
  | some e => if e.last = prev then .ok ⟨some ⟨e.first, new⟩⟩ else .error .notLast
  | none => .error .notLast

/-- Inserts a loose node directly before `next`.  The chain is needed only if `next` is its first
node; otherwise the links alone decide which chain the node gets into. -/
def insertBefore (c : Chain κ) (new next : Id κ) (ns : Nodes κ α) :
    Except Fault (Chain κ × Nodes κ α) := do
  let (prev, ns) ← Nodes.swapPrev ns next (some new)
  let ns ← Nodes.attach ns .before new prev (some next)
  match prev with
  | some prev =>
    let (old, ns) ← Nodes.swapNext ns prev (some new)
    if old = some next then .ok (c, ns) else .error .prevLeadsElsewhere
  | none =>
    let c ← c.extendFront new next
    .ok (c, ns)

/-- Inserts a loose node directly after `prev`. -/
def insertAfter (c : Chain κ) (new prev : Id κ) (ns : Nodes κ α) :
    Except Fault (Chain κ × Nodes κ α) := do
  let (next, ns) ← Nodes.swapNext ns prev (some new)
  let ns ← Nodes.attach ns .after new (some prev) next
  match next with
  | some next =>
    let (old, ns) ← Nodes.swapPrev ns next (some new)
    if old = some prev then .ok (c, ns) else .error .nextLeadsElsewhere
  | none =>
    let c ← c.extendBack new prev
    .ok (c, ns)

/-- Makes the predecessor of a removed node lead on to its successor; without a predecessor the
node has to be the first of the chain. -/
def bridgeNext (c : Chain κ) (node : Id κ) (prev next : Option (Id κ)) (ns : Nodes κ α) :
    Except Fault (Nodes κ α) :=
  match prev with
  | some prev => do
    let (old, ns) ← Nodes.swapNext ns prev next
    if old = some node then .ok ns else .error .prevLeadsElsewhere
  | none => if c.first? = some node then .ok ns else .error .notFirst

/-- Makes the successor of a removed node lead back to its predecessor; without a successor the
node has to be the last of the chain. -/
def bridgePrev (c : Chain κ) (node : Id κ) (prev next : Option (Id κ)) (ns : Nodes κ α) :
    Except Fault (Nodes κ α) :=
  match next with
  | some next => do
    let (old, ns) ← Nodes.swapPrev ns next prev
    if old = some node then .ok ns else .error .nextLeadsElsewhere
  | none => if c.last? = some node then .ok ns else .error .notLast

/-- The ends of a chain after a node between `prev` and `next` is gone. -/
def closeGap (c : Chain κ) (prev next : Option (Id κ)) : Except Fault (Chain κ) :=
  match prev, next with
  | none, none => .ok empty
  | none, some next =>
    match c.ends with
    | some e => .ok ⟨some ⟨next, e.last⟩⟩
    | none => .error .noEnds
  | some prev, none =>
    match c.ends with
    | some e => .ok ⟨some ⟨e.first, prev⟩⟩
    | none => .error .noEnds
  | some _, some _ =>
    match c.ends with
    | some _ => .ok c
    | none => .error .noEnds

/-- Unlinks a node, which stays defined. -/
def remove (c : Chain κ) (node : Id κ) (ns : Nodes κ α) :
    Except Fault (Chain κ × Nodes κ α) := do
  let (prev, next, ns) ← Nodes.detach ns node
  let ns ← c.bridgeNext node prev next ns
  let ns ← c.bridgePrev node prev next ns
  let c ← c.closeGap prev next
  .ok (c, ns)

end Chain

end ShaderIR
