import ShaderIR.Module
import ShaderIR.Validity.Expected

/-!
# The first violation

In a valid body every user has as many inputs as it expects, every result that is used is computed
by an instruction of some block, on every path and before its use, and every input has a type that
its user admits.

* `Defect`: what is wrong with a use; `Violation` adds where; `Violation.message` is the wording.
* `Checker`: what has to be known of a body to check a use.
* `Body.firstDefect`, `Module.firstViolation`: go through functions, blocks, instructions and inputs
  in order, each terminator after the instructions of its block, and stop at the first defect.  Of
  one input the place of its definition is checked before its type.
-/

namespace ShaderIR

/-- What is wrong with an instruction or terminator. -/
inductive Defect where
  /-- An input is computed by an instruction that is in no block. -/
  | danglingUse (input : Nat)
  /-- An input is computed in the same block, but not before. -/
  | useBeforeDef (input : Nat)
  /-- An input is computed in a block that some path to the use avoids. -/
  | notDominating (input defBlock : Nat)
  /-- The number of inputs is not the expected one. -/
  | inputCount (expected found : Nat)
  /-- An input has a type that is not admitted. -/
  | inputType (input : Nat) (expected found : String)
  deriving DecidableEq

/-- A defect with the block, by its position, and the name of the instruction or terminator. -/
structure Located where
  block : Nat
  user : String
  defect : Defect
  deriving DecidableEq

/-- A located defect with the name of the function. -/
structure Violation extends Located where
  func : String
  deriving DecidableEq

/-- The wording of a defect of a user. -/
def Defect.message (user : String) : Defect → String
  | danglingUse k =>
    "`" ++ user ++ "` input #" ++ toString k ++ " uses an instruction not found in any block"
  | useBeforeDef k =>
    "`" ++ user ++ "` input #" ++ toString k ++ " uses an instruction defined after it"
  | notDominating k d =>
    "`" ++ user ++ "` input #" ++ toString k ++ " is defined in b" ++ toString d ++
      ", not dominating its use"
  | inputCount expected found =>
    "`" ++ user ++ "` expects " ++ toString expected ++ " inputs, found " ++ toString found
  | inputType k expected found =>
    "`" ++ user ++ "` input #" ++ toString k ++ " should have type `" ++ expected ++
      "`, found `" ++ found ++ "`"

/-- The wording of a violation. -/
def Violation.message (v : Violation) : String :=
  "function `" ++ v.func ++ "`, block b" ++ toString v.block ++ ": " ++
    v.defect.message v.user

/-- What has to be known of a body to check a use. -/
structure Checker where
  code : Code
  /-- The blocks of the body. -/
  blocks : List BlockId
  /-- The block and the position within it of every instruction; the first entry counts. -/
  sites : List (InstId × Nat × Nat)
  dominators : Dominators
  deriving DecidableEq

namespace Checker

/-- Whether the block at one position dominates the block at another. -/
def dominates (c : Checker) (defBlock useBlock : Nat) : Bool :=
  match c.blocks[defBlock]?, c.blocks[useBlock]? with
  | some d, some u => c.dominators.dominates d u
  | _, _ => false

/-- What is wrong with the place where an input is computed, for a use at position `place` of the
block at position `block`. -/
def placeDefect? (c : Checker) (block place input : Nat) (id : InstId) : Option Defect :=
  match c.sites.lookup id with
  | none => some (.danglingUse input)
  | some (defBlock, defPlace) =>
    if defBlock = block then
      if place ≤ defPlace then some (.useBeforeDef input) else none
    else if c.dominates defBlock block then none
    else some (.notDominating input defBlock)

/-- What is wrong with the type of an input. -/
def typeDefect? (input : Nat) (e : Expected) (found result : Option ScalarType) : Option Defect :=
  if e.admits found result then none
  else some (.inputType input (e.name result) (Expected.typeName found))

/-- What is wrong with one input. -/
def inputDefect? (c : Checker) (block place : Nat) (result : Option ScalarType) (input : Nat)
    (v : Value) (e : Expected) : Except Fault (Option Defect) :=
  match v with
  | .const k => .ok (typeDefect? input e (some k.ty) result)
  | .result id =>
    match c.placeDefect? block place input id with
    | some d => .ok (some d)
    | none => do return typeDefect? input e (← c.code.inst id).ty result

/-- What is wrong with the inputs of a user at a place; the first defect counts. -/
def userDefect? (c : Checker) (block place : Nat) (result : Option ScalarType)
    (inputs : List Value) (expected : List Expected) : Except Fault (Option Defect) :=
  if inputs.length ≠ expected.length then
    .ok (some (.inputCount expected.length inputs.length))
  else
    (inputs.zip expected).zipIdx.findSomeM? fun p =>
      c.inputDefect? block place result p.2 p.1.1 p.1.2

/-- The first defect of the instruction at a place of a block. -/
def instDefect? (c : Checker) (block place : Nat) (id : InstId) :
    Except Fault (Option Located) := do
  let i ← c.code.inst id
  let d ← c.userDefect? block place i.ty i.inputs i.kind.expected
  return d.map (⟨block, i.kind.name, ·⟩)

/-- The first defect of a terminator after `place` instructions of a block. -/
def terminatorDefect? (c : Checker) (block place : Nat) (t : Terminator) :
    Except Fault (Option Located) := do
  let d ← c.userDefect? block place none t.inputs t.kind.expected
  return d.map (⟨block, t.kind.name, ·⟩)

/-- The first defect of a block. -/
def blockDefect? (c : Checker) (block : Nat) (id : BlockId) : Except Fault (Option Located) := do
  let ids ← c.code.instsOf id
  match ← ids.zipIdx.findSomeM? fun p => c.instDefect? block p.2 p.1 with
  | some d => return some d
  | none => c.terminatorDefect? block ids.length (← c.code.blocks.find id).terminator

end Checker

namespace Body

/-- The block and position of the instructions of one block. -/
def sitesIn (b : Body) (index : Nat) (block : BlockId) :
    Except Fault (List (InstId × Nat × Nat)) := do
  return (← b.code.instsOf block).zipIdx.map fun p => (p.1, index, p.2)

/-- The block and position of every instruction; of several places the last one counts. -/
def sites (b : Body) : Except Fault (List (InstId × Nat × Nat)) := do
  return (← b.blocks.zipIdx.mapM fun p => b.sitesIn p.2 p.1).flatten.reverse

/-- Gathers what has to be known to check the uses of a body. -/
def checker (b : Body) : Except Fault Checker := do
  let sites ← b.sites
  let dominators ← b.dominators
  return ⟨b.code, b.blocks, sites, dominators⟩

/-- The first defect of a body. -/
def firstDefect (b : Body) : Except Fault (Option Located) := do
  let c ← b.checker
  b.blocks.zipIdx.findSomeM? fun p => c.blockDefect? p.2 p.1

end Body

/-- The first defect of a function; an imported one has none. -/
def FuncDecl.firstViolation (f : FuncDecl) : Except Fault (Option Violation) :=
  match f.impl with
  | .imported _ => .ok none
  | .present body => do return (← body.firstDefect).map (⟨·, f.name⟩)

/-- The first violation of a module, if it is not valid. -/
def Module.firstViolation (m : Module) : Except Fault (Option Violation) :=
  m.allFuncs.findSomeM? fun func => do (← m.funcs.find func).firstViolation

end ShaderIR
