import ShaderIR.Body.Inst
import ShaderIR.Body.Terminator
import ShaderIR.Chain.Segment

/-!
# Code: blocks and instructions

* `Block`: a chain of instructions and a terminator.
* `Code`: the definitions of the blocks and instructions of one function.
* `Workspace`: code under change, with the supply of fresh instruction identities.
* `Code.instsOf`: the instructions of a block in program order; `Code.typeOf`: the type of a value.
* `Workspace.define`, `Workspace.removeInst`: put an instruction into the code, and take one out of
  its block and of the code.
-/

namespace ShaderIR

/-- A block: instructions, carried out in order, and a way to leave. -/
structure Block where
  insts : Chain .inst
  terminator : Terminator
  deriving DecidableEq

/-- A block without instructions that returns from the function. -/
def Block.new : Block := ⟨.empty, .ret⟩

/-- The blocks and the instructions of one function. -/
structure Code where
  blocks : Defs .block Block
  insts : Nodes .inst Inst
  deriving DecidableEq

namespace Code

def empty : Code := ⟨.empty, .empty⟩

/-- The definition of an instruction. -/
def inst (c : Code) (id : InstId) : Except Fault Inst := do
  return (← c.insts.find id).val

/-- The instructions of a block, in program order. -/
def instsOf (c : Code) (block : BlockId) : Except Fault (List InstId) := do
  (← c.blocks.find block).insts.toList c.insts

/-- The type of a value; an instruction without a result has none. -/
def typeOf (c : Code) : Value → Except Fault ScalarType
  | .const k => .ok k.ty
  | .result id => do
    match (← c.inst id).ty with
    | some ty => return ty
    | none => throw .noResult

/-- Replaces the definition of an instruction and keeps its links. -/
def setInst (c : Code) (id : InstId) (i : Inst) : Except Fault Code := do
  return { c with insts := ← c.insts.modify id fun n => { n with val := i } }

/-- Replaces one input of an instruction. -/
def setInput (c : Code) (id : InstId) (index : Nat) (v : Value) : Except Fault Code := do
  let node ← c.insts.access id
  let i ← node.val.withInput index v
  return { c with insts := c.insts.set id { node with val := i } }

/-- Replaces the terminator of a block. -/
def setTerminator (c : Code) (block : BlockId) (t : Terminator) : Except Fault Code := do
  return { c with blocks := ← c.blocks.modify block fun b => { b with terminator := t } }

/-- Changes the chain of a block, together with the links of the instructions. -/
def editChain (c : Code) (block : BlockId)
    (edit : Chain .inst → Nodes .inst Inst → Except Fault (Chain .inst × Nodes .inst Inst)) :
    Except Fault Code := do
  let b ← c.blocks.access block
  let (insts, nodes) ← edit b.insts c.insts
  return ⟨c.blocks.set block { b with insts }, nodes⟩

/-- Unlinks an instruction from a block and destroys it; uses of its result are left dangling. -/
def removeInst (c : Code) (block : BlockId) (id : InstId) : Except Fault (Inst × Code) := do
  let c ← c.editChain block (·.remove id)
  let (node, insts) ← c.insts.remove id
  return (node.val, { c with insts })

end Code

/-- Code under change, and where its new instructions take their identity from. -/
structure Workspace where
  code : Code
  fresh : Supply .inst
  deriving DecidableEq

namespace Workspace

/-- Defines a new instruction, which is in no block yet. -/
def define (w : Workspace) (i : Inst) : Except Fault (InstId × Workspace) := do
  let (id, insts, fresh) ← w.code.insts.define w.fresh (.loose i)
  return (id, ⟨{ w.code with insts }, fresh⟩)

/-- Unlinks an instruction from a block and destroys it. -/
def removeInst (w : Workspace) (block : BlockId) (id : InstId) :
    Except Fault (Inst × Workspace) := do
  let (i, code) ← w.code.removeInst block id
  return (i, { w with code })

end Workspace

end ShaderIR
