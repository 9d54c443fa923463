import ShaderIR.Lower.Config
import ShaderIR.Edit

/-!
# Depth and stencil stores become one combined write

Within a block every store of an aspect is removed, and its value, converted to the type that the
hardware expects, becomes an input of one combined write, which stands where the last of these
stores was.

* `DepthStencil.mergeStore`: what happens at one store.
* `DepthStencil.lowerSegment`, `lowerBlock`, `lowerBlocks`, `lowerFunc`: go through a block from its
  end, so that all values are computed where the combined write stands; a second store of one aspect
  in a block stops the lowering where it is.
* `Module.lowerDepthStencil`: the lowering of a module.
-/

namespace ShaderIR

namespace DepthStencil

/-- The value converted to what a combined write takes for an aspect. -/
def convert (b : Builder) (a : Aspect) (v : Value) : Except Fault (Value × Builder) :=
  match a with
  | .depth => b.fconvert v a.scalarType
  | .stencil => b.uconvert v a.scalarType

/-- The combined write of a block: the one that is there, or else a new one at the cursor. -/
def combined (b : Builder) (mask : Value) : Option InstId → Except Fault (InstId × Builder)
  | some id => .ok (id, b)
  | none =>
    b.combinedWrite mask (.const (.undef Aspect.depth.scalarType))
      (.const (.undef Aspect.stencil.scalarType))

/-- A combined write with one more aspect, unless that aspect has been written already. -/
def addAspect (i : Inst) (a : Aspect) (v : Value) : Except Fault (Except Aspect Inst) :=
  match i.kind with
  | .intrinsic (.combinedWrite written) =>
    match written.insertOnce a with
    | .error a => .ok (.error a)
    | .ok written => do
      let i ← { i with kind := .intrinsic (.combinedWrite written) }.withInput a.inputIndex v
      return .ok i
  | _ => .error .notCombinedWrite

/-- Merges one store into the combined write of its block, or says which aspect the block writes
twice.  The store is removed only if it could be merged, its conversion stays in any case. -/
def mergeStore (mask : Value) (block : BlockId) (store : InstId) (i : Inst) (a : Aspect)
    (target : Option InstId) (w : Workspace) :
    Except Fault (Workspace × Except Aspect InstId) := do
  let v ← i.input 0
  let (v, b) ← convert (w.at (.before block store)) a v
  let (id, b) ← combined b mask target
  let node ← b.work.code.insts.access id
  match ← addAspect node.val a v with
  | .error a => return (b.work, .error a)
  | .ok write =>
    let insts := b.work.code.insts.set id { node with val := write }
    let (_, w) ← { b.work with code := { b.work.code with insts } }.removeInst block store
    return (w, .ok id)

/-- Merges the stores of a segment, last to first, as long as there is fuel. -/
def lowerSegment (mask : Value) (block : BlockId) :
    Nat → Segment .inst → Option InstId → Workspace → Except Fault (Outcome Workspace Aspect)
  | 0, _, _, _ => .error .endless
  | n + 1, seg, target, w => do
    match ← seg.popBack w.code.insts with
    | none => return (w, .ok target.isSome)
    | some (id, rest) =>
      let i ← w.code.inst id
      match i.stores? with
      | none => lowerSegment mask block n rest target w
      | some a =>
        match ← mergeStore mask block id i a target w with
        | (w, .error a) => return (w, .error a)
        | (w, .ok target) => lowerSegment mask block n rest (some target) w

/-- Merges the stores of a block. -/
def lowerBlock (mask : Value) (block : BlockId) (w : Workspace) :
    Except Fault (Outcome Workspace Aspect) := do
  let b ← w.code.blocks.find block
  lowerSegment mask block (Edit.visitBound w.code) b.insts.segment none w

/-- Merges the stores of several blocks, up to the first that writes an aspect twice. -/
def lowerBlocks (mask : Value) :
    List BlockId → Workspace → Except Fault (Outcome Workspace Aspect)
  | [], w => .ok (w, .ok false)
  | b :: rest, w => do
    match ← lowerBlock mask b w with
    | (w, .error a) => return (w, .error a)
    | (w, .ok here) =>
      match ← lowerBlocks mask rest w with
      | (w, .error a) => return (w, .error a)
      | (w, .ok later) => return (w, .ok (here || later))

/-- Which analyses of a body are still right after a lowering.  One that stopped has changed the
body, as it merged the later of the two stores before it met the earlier one. -/
def kept : Except Aspect Bool → AnalysisSet
  | .ok false => .full
  | _ => .flowOnly

/-- Merges the stores of a function. -/
def lowerFunc (mask : Value) (func : FuncId) (m : Module) :
    Except Fault (Outcome Module LowerError) := do
  let decl ← m.funcs.access func
  match decl.impl with
  | .imported _ => return (m, .ok false)
  | .present body =>
    let (w, result) ← lowerBlocks mask body.blocks (body.workspace m.freshInsts)
    let body := { body with code := w.code }.preserve (kept result)
    return ({ m.setBody func decl body with freshInsts := w.fresh },
      result.mapError (.doubleWrite decl.name))

/-- Merges the stores of several functions, up to the first that cannot be lowered. -/
def lowerFuncs (mask : Value) :
    List FuncId → Module → Except Fault (Outcome Module LowerError)
  | [], m => .ok (m, .ok false)
  | f :: rest, m => do
    match ← lowerFunc mask f m with
    | (m, .error e) => return (m, .error e)
    | (m, .ok here) =>
      match ← lowerFuncs mask rest m with
      | (m, .error e) => return (m, .error e)
      | (m, .ok later) => return (m, .ok (here || later))

end DepthStencil

/-- Merges the depth and stencil stores of every block of a module into combined writes.  A module
that declares no such output is left alone. -/
def Module.lowerDepthStencil (m : Module) (config : LowerConfig) :
    Except Fault (Outcome Module LowerError) :=
  if m.info.outputs.intersects .depthStencil then do
    DepthStencil.lowerFuncs (← config.allSamplesValue) m.allFuncs m
  else
    .ok (m, .ok false)

end ShaderIR
