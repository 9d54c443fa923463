import ShaderIR.Body.Analysis
import ShaderIR.Body.Builder

/-!
# Function bodies

* `Body`: the code of a function, its blocks in order, and the analyses that are kept of it.
* `Body.defineBlock`: adds a block at the end; the first block is the entry.
* `Body.blockIndex`, `dominators`, `instIndex`: compute an analysis afresh.
* `Body.require`, `Body.preserve`: compute what is missing, and drop what may be out of date.
-/

namespace ShaderIR

/-- The body of a function. -/
structure Body where
  code : Code
  /-- The blocks of the function, the entry first. -/
  blocks : List BlockId
  cache : Analyses
  deriving DecidableEq

namespace Body

def empty : Body := ⟨.empty, [], .empty⟩

/-- Where the function starts. -/
def entryBlock? (b : Body) : Option BlockId := b.blocks.head?

/-- Adds a block that returns, until it gets another terminator. -/
def defineBlock (b : Body) (fresh : Supply .block) :
    Except Fault (BlockId × Body × Supply .block) := do
  let (id, blocks, fresh) ← b.code.blocks.define fresh .new
  return (id, { b with code := { b.code with blocks }, blocks := b.blocks ++ [id] }, fresh)

/-- The code of the body, to be changed. -/
def workspace (b : Body) (fresh : Supply .inst) : Workspace := ⟨b.code, fresh⟩

/-- The control-flow graph of the body. -/
def graph (b : Body) : Except Fault FlowGraph := FlowGraph.ofBlocks b.entryBlock? b.code.blocks

/-- The position of every block; a block that is listed twice has its last one. -/
def blockIndex (b : Body) : BlockIndex := b.blocks.zipIdx.reverse

/-- The dominator tree of the body. -/
def dominators (b : Body) : Except Fault Dominators :=
  Dominators.ofBlocks b.entryBlock? b.code.blocks

/-- The instructions of one block with their positions. -/
def placesIn (b : Body) (block : BlockId) : Except Fault InstIndex := do
  return (← b.code.instsOf block).zipIdx.map fun p => (p.1, block, p.2)

/-- The block and position of every instruction; of several places the last one counts. -/
def instIndex (b : Body) : Except Fault InstIndex := do
  return (← b.blocks.mapM b.placesIn).flatten.reverse

/-- Computes and keeps the analyses of a set that are not there yet. -/
def require (b : Body) (wanted : AnalysisSet) : Except Fault Body := do
  let blockIndex ← Analyses.slot wanted.blockIndex b.cache.blockIndex (.ok b.blockIndex)
  let dominators ← Analyses.slot wanted.dominance b.cache.dominators b.dominators
  let instIndex ← Analyses.slot wanted.instIndex b.cache.instIndex b.instIndex
  .ok { b with cache := ⟨blockIndex, dominators, instIndex⟩ }

/-- Drops all analyses but those of a set. -/
def preserve (b : Body) (kept : AnalysisSet) : Body :=
  { b with cache := b.cache.preserve kept }

/-- The position of a block, if that is kept. -/
def cachedBlockIndex (b : Body) (block : BlockId) : Option Nat := do
  (← b.cache.blockIndex).lookup block

/-- The block and position of an instruction, if that is kept. -/
def cachedInstIndex (b : Body) (inst : InstId) : Option (BlockId × Nat) := do
  (← b.cache.instIndex).lookup inst

end Body

end ShaderIR
