import ShaderIR.Body.Code

/-!
# Building instructions

A builder inserts instructions at a cursor; however many it inserts, they stand in the order in
which they were built.

* `Anchor`, `Cursor`: the place in a block where the next instruction goes.
* `Builder`: a workspace and a cursor; `Builder.insert` is the one way to add an instruction.
* `Builder.fconvert`, `uconvert`: convert a value, unless it has the wanted type already.
* The other operations build the instruction they are named for.
-/

namespace ShaderIR

/-- A place between the instructions of a block. -/
inductive Anchor where
  /-- After an instruction, and then after each one inserted. -/
  | after (inst : InstId)
  /-- Before an instruction, which is never moved away from. -/
  | before (inst : InstId)
  /-- At the end of the block. -/
  | last
  deriving DecidableEq

/-- A place in a block. -/
structure Cursor where
  block : BlockId
  anchor : Anchor
  deriving DecidableEq

namespace Cursor

def blockEnd (block : BlockId) : Cursor := ⟨block, .last⟩

def before (block : BlockId) (inst : InstId) : Cursor := ⟨block, .before inst⟩

def after (block : BlockId) (inst : InstId) : Cursor := ⟨block, .after inst⟩

end Cursor

/-- Code under change, and the place in it where instructions are inserted. -/
structure Builder where
  work : Workspace
  cursor : Cursor
  deriving DecidableEq

/-- Starts to build at a place. -/
def Workspace.at (w : Workspace) (cursor : Cursor) : Builder := ⟨w, cursor⟩

namespace Anchor

/-- Links a new instruction into a chain at the anchor. -/
def link (a : Anchor) (new : InstId) (c : Chain .inst) (ns : Nodes .inst Inst) :
    Except Fault (Chain .inst × Nodes .inst Inst) :=
  match a with
  | after prev => c.insertAfter new prev ns
  | before next => c.insertBefore new next ns
  | last => c.insertLast new ns

/-- The anchor for what is inserted after `new`. -/
def advance (a : Anchor) (new : InstId) : Anchor :=
  match a with
  | after _ => after new
  | before next => before next
  | last => last

end Anchor

namespace Builder

/-- Inserts an instruction at the cursor. -/
def insert (b : Builder) (i : Inst) : Except Fault (InstId × Builder) := do
  let (id, work) ← b.work.define i
  let code ← work.code.editChain b.cursor.block (b.cursor.anchor.link id)
  return (id, ⟨{ work with code }, { b.cursor with anchor := b.cursor.anchor.advance id }⟩)

/-- The type of a value in the code that is being built. -/
def typeOf (b : Builder) (v : Value) : Except Fault ScalarType := b.work.code.typeOf v

/-- Inserts a pure operation. -/
def alu (b : Builder) (op : AluOp) (inputs : List Value) (ty : ScalarType) :
    Except Fault (Value × Builder) := do
  let (id, b) ← b.insert ⟨.alu op, inputs, some ty⟩
  return (.result id, b)

/-- Inserts an operation with an effect. -/
def intrinsic (b : Builder) (op : Intrinsic) (inputs : List Value) (ty : Option ScalarType) :
    Except Fault (InstId × Builder) :=
  b.insert ⟨.intrinsic op, inputs, ty⟩

/-- The value as a float of type `ty`: the value itself if it has that type already. -/
def fconvert (b : Builder) (v : Value) (ty : ScalarType) : Except Fault (Value × Builder) :=
  if ty.isFloat then do
    if (← b.typeOf v) = ty then return (v, b) else b.alu .fconvert [v] ty
  else throw (.convertToNonFloat ty)

/-- The integer value as an unsigned one of type `ty`: the value itself if it has that type
already. -/
def uconvert (b : Builder) (v : Value) (ty : ScalarType) : Except Fault (Value × Builder) :=
  if ty.isUnsigned then do
    if (← b.typeOf v) = ty then return (v, b) else b.alu .uconvert [v] ty
  else throw (.convertToNonUnsigned ty)

def select (b : Builder) (cond ifTrue ifFalse : Value) : Except Fault (Value × Builder) := do
  b.alu .select [cond, ifTrue, ifFalse] (← b.typeOf ifTrue)

def fadd (b : Builder) (x y : Value) : Except Fault (Value × Builder) := do
  b.alu .fadd [x, y] (← b.typeOf x)

def fmul (b : Builder) (x y : Value) : Except Fault (Value × Builder) := do
  b.alu .fmul [x, y] (← b.typeOf x)

def flt (b : Builder) (x y : Value) : Except Fault (Value × Builder) :=
  b.alu .flt [x, y] .bool

def ieq (b : Builder) (x y : Value) : Except Fault (Value × Builder) :=
  b.alu .ieq [x, y] .bool

def loadInput (b : Builder) (location : UInt32) (ty : ScalarType) :
    Except Fault (Value × Builder) := do
  let (id, b) ← b.intrinsic (.loadInput location) [] (some ty)
  return (.result id, b)

def storeOutput (b : Builder) (target : OutputTarget) (v : Value) :
    Except Fault (InstId × Builder) :=
  b.intrinsic (.storeOutput target) [v] none

def discard (b : Builder) : Except Fault (InstId × Builder) :=
  b.intrinsic .discard [] none

def discardIf (b : Builder) (cond : Value) : Except Fault (InstId × Builder) :=
  b.intrinsic .discardIf [cond] none

/-- Inserts a combined write with neither aspect marked as written. -/
def combinedWrite (b : Builder) (mask depth stencil : Value) : Except Fault (InstId × Builder) :=
  b.intrinsic (.combinedWrite .empty) [mask, depth, stencil] none

def discardSamples (b : Builder) (mask : Value) : Except Fault (InstId × Builder) :=
  b.intrinsic .discardSamples [mask] none

end Builder

end ShaderIR
