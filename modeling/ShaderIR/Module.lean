import ShaderIR.Body.Basic

/-!
# Modules

* `ShaderInfo`: what is known of the shader as a whole.
* `FuncDecl`: a function, either with a body or imported by a link name.
* `Module`: the functions of a shader, and the supplies of fresh identities that they share, so
  that an identity of one function is never one of another.
* `Module.setBody`: replaces the body of a function.
-/

namespace ShaderIR

/-- When a shader runs. -/
inductive Stage where
  | vertex
  | fragment
  | compute
  deriving DecidableEq

/-- What is known of a shader as a whole; only lowerings look at it. -/
structure ShaderInfo where
  stage : Stage
  /-- The outputs written anywhere in the shader. -/
  outputs : OutputSet
  /-- Whether anything is discarded anywhere in the shader. -/
  usesDiscard : Bool
  deriving DecidableEq

/-- A fragment shader that does nothing yet. -/
def ShaderInfo.fragment : ShaderInfo := ⟨.fragment, .empty, false⟩

/-- What a function stands for. -/
inductive FuncDef where
  /-- Code from elsewhere, found by its link name. -/
  | imported (link : String)
  | present (body : Body)
  deriving DecidableEq

/-- A named function. -/
structure FuncDecl where
  name : String
  impl : FuncDef
  deriving DecidableEq

/-- The functions of a shader. -/
structure Module where
  info : ShaderInfo
  funcs : Defs .func FuncDecl
  /-- The functions in the order in which they are handled. -/
  allFuncs : List FuncId
  freshFuncs : Supply .func
  freshBlocks : Supply .block
  freshInsts : Supply .inst
  deriving DecidableEq

namespace Module

def new (info : ShaderInfo) : Module := ⟨info, .empty, [], .full, .full, .full⟩

/-- Adds a function. -/
def defineFunc (m : Module) (decl : FuncDecl) : Except Fault (FuncId × Module) := do
  let (id, funcs, freshFuncs) ← m.funcs.define m.freshFuncs decl
  return (id, { m with funcs, freshFuncs, allFuncs := m.allFuncs ++ [id] })

/-- Destroys a function, which stays among those that are handled. -/
def removeFunc (m : Module) (func : FuncId) : Except Fault (FuncDecl × Module) := do
  let (decl, funcs) ← m.funcs.remove func
  return (decl, { m with funcs })

/-- Replaces the body of a function. -/
def setBody (m : Module) (func : FuncId) (decl : FuncDecl) (body : Body) : Module :=
  { m with funcs := m.funcs.set func { decl with impl := .present body } }

/-- Adds a block to the body of a function. -/
def defineBlock (m : Module) (func : FuncId) (decl : FuncDecl) (body : Body) :
    Except Fault (BlockId × Module) := do
  let (id, body, freshBlocks) ← body.defineBlock m.freshBlocks
  return (id, { m.setBody func decl body with freshBlocks })

end Module

end ShaderIR
