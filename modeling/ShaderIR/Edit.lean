import ShaderIR.Module

/-!
# Editing instruction by instruction

* `Edit`: what is done to the code at one instruction.  It is told the block and the instruction,
  may insert instructions and remove that one, threads a state of its own, and says whether it
  changed anything.
* `Edit.inSegment`, `Edit.inBlock`, `Edit.inBlocks`: edit every instruction of a part of a block, of
  a block, and of several blocks.
* `Module.edit`: edits every instruction of every body in program order.  A body that was changed
  keeps only the analyses that the edits are known to leave right.
-/

namespace ShaderIR

/-- What is done at one instruction of a block. -/
abbrev Edit (σ : Type) :=
  BlockId → InstId → σ → Workspace → Except Fault (Bool × σ × Workspace)

namespace Edit

variable {σ : Type}

/-- Edits the instructions of a segment, first to last, as long as there is fuel.  The link to the
next instruction is read before the edit. -/
def inSegment (edit : Edit σ) (block : BlockId) :
    Nat → Segment .inst → σ → Workspace → Except Fault (Bool × σ × Workspace)
  | 0, _, _, _ => .error .endless
  | n + 1, seg, s, w => do
    match ← seg.popFront w.code.insts with
    | none => return (false, s, w)
    | some (id, rest) =>
      let (here, s, w) ← edit block id s w
      let (later, s, w) ← inSegment edit block n rest s w
      return (here || later, s, w)

/-- How many instructions a walk over a block of code of this size is given, with its end as one
more.  Apart from those that were there at first, a walk meets only what its edits put between the
instructions that are still ahead of it: edits that insert elsewhere always have enough, and so have
edits that put fewer than `visitBound c - c.insts.size` instructions there in all.  With more, a
walk may fault although it would come to its end. -/
def visitBound (c : Code) : Nat := (4 * (c.insts.size + 1)) * (4 * (c.insts.size + 1))

/-- Edits every instruction of a block, if `visitBound` is enough for what the edits put ahead. -/
def inBlock (edit : Edit σ) (block : BlockId) (s : σ) (w : Workspace) :
    Except Fault (Bool × σ × Workspace) := do
  let b ← w.code.blocks.find block
  edit.inSegment block (visitBound w.code) b.insts.segment s w

/-- Edits every instruction of several blocks. -/
def inBlocks (edit : Edit σ) : List BlockId → σ → Workspace → Except Fault (Bool × σ × Workspace)
  | [], s, w => .ok (false, s, w)
  | b :: rest, s, w => do
    let (here, s, w) ← edit.inBlock b s w
    let (later, s, w) ← inBlocks edit rest s w
    return (here || later, s, w)

end Edit

namespace Module

variable {σ : Type}

/-- Edits every instruction of a function. -/
def editFunc (kept : AnalysisSet) (edit : Edit σ) (func : FuncId) (s : σ) (m : Module) :
    Except Fault (Bool × σ × Module) := do
  let decl ← m.funcs.access func
  match decl.impl with
  | .imported _ => return (false, s, m)
  | .present body =>
    let (changed, s, w) ← edit.inBlocks body.blocks s (body.workspace m.freshInsts)
    let body := { body with code := w.code }.preserve (if changed then kept else .full)
    return (changed, s, { m.setBody func decl body with freshInsts := w.fresh })

/-- Edits every instruction of several functions. -/
def editFuncs (kept : AnalysisSet) (edit : Edit σ) :
    List FuncId → σ → Module → Except Fault (Bool × σ × Module)
  | [], s, m => .ok (false, s, m)
  | f :: rest, s, m => do
    let (here, s, m) ← m.editFunc kept edit f s
    let (later, s, m) ← editFuncs kept edit rest s m
    return (here || later, s, m)

/-- Edits every instruction of a module, and says whether anything was changed. -/
def edit (kept : AnalysisSet) (edit : Edit σ) (s : σ) (m : Module) :
    Except Fault (Bool × σ × Module) :=
  m.editFuncs kept edit m.allFuncs s

end Module

end ShaderIR
