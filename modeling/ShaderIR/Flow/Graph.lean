import ShaderIR.Body.Code

/-!
# The control-flow graph of a function

* `FlowGraph`: the blocks that can be reached from the entry, each with the targets of its
  terminator, and the order in which a depth-first search leaves them.
* `FlowGraph.ofBlocks`: the search.  Its pending work is an explicit list of `Task`s, so that it
  needs no recursion over the graph; targets are entered from left to right.
* `FlowGraph.successors`, `predecessors`, `revPostOrder`.
-/

namespace ShaderIR

/-- The blocks that can be reached from the entry block. -/
structure FlowGraph where
  /-- Every reachable block with its targets, in the order in which the search enters them. -/
  edges : List (BlockId × List BlockId)
  /-- Every reachable block, in the order in which the search leaves them. -/
  postOrder : List BlockId
  deriving DecidableEq

namespace FlowGraph

def empty : FlowGraph := ⟨[], []⟩

/-- Work that a depth-first search has left to do. -/
inductive Task where
  /-- Look at a block and then at its targets. -/
  | enter (block : BlockId)
  /-- All that can be reached through the block has been seen. -/
  | leave (block : BlockId)
  deriving DecidableEq

/-- What a search has done so far, the latest first. -/
structure Progress where
  entered : List (BlockId × List BlockId)
  left : List BlockId
  deriving DecidableEq

/-- Whether the search has entered a block. -/
def Progress.hasEntered (p : Progress) (block : BlockId) : Bool :=
  p.entered.any fun e => e.1 = block

/-- Works off the tasks from first to last.  Entering a block for the first time puts its targets
that are still unseen in front of what is left to do, and after them its own leaving. -/
def search (blocks : Defs .block Block) : Nat → List Task → Progress → Except Fault Progress
  | _, [], p => .ok p
  | 0, _ :: _, _ => .error .endless
  | n + 1, .leave block :: tasks, p => search blocks n tasks { p with left := block :: p.left }
  | n + 1, .enter block :: tasks, p =>
    if p.hasEntered block then search blocks n tasks p
    else do
      let targets := (← blocks.find block).terminator.targets
      let p := { p with entered := (block, targets) :: p.entered }
      let unseen := targets.filter fun target => !p.hasEntered target
      search blocks n (unseen.map .enter ++ .leave block :: tasks) p

/-- How many tasks a search over these blocks can meet: the first one, and for each block that it
enters one to leave it and one for each target. -/
def taskBound (blocks : Defs .block Block) : Nat :=
  blocks.entries.foldr (fun e n => 1 + e.2.terminator.targets.length + n) 1

/-- The graph of what can be reached from the entry block, if there is one. -/
def ofBlocks (entry : Option BlockId) (blocks : Defs .block Block) : Except Fault FlowGraph :=
  match entry with
  | none => .ok empty
  | some entry => do
    let p ← search blocks (taskBound blocks) [.enter entry] ⟨[], []⟩
    return ⟨p.entered.reverse, p.left.reverse⟩

/-- The targets of a reachable block; none for any other block. -/
def successors (g : FlowGraph) (block : BlockId) : List BlockId :=
  (g.edges.lookup block).getD []

/-- The reachable blocks that have a block among their targets. -/
def predecessors (g : FlowGraph) (block : BlockId) : List BlockId :=
  (g.edges.filter fun e => e.2.contains block).map Prod.fst

/-- The reachable blocks, the entry first: a block comes before those it leads to, unless it can be
reached from them. -/
def revPostOrder (g : FlowGraph) : List BlockId := g.postOrder.reverse

end FlowGraph

end ShaderIR
