import ShaderIR.Module
import ShaderIR.Text.Quoted

/-!
# The text of a module

A body is printed block by block; blocks are named by their position and results by the order in
which they are computed.  Constants and types are printed where they are used.  What is not found
in any block is printed too, without a number.

* `Names`: which blocks and results have a number.
* `Names.instText`, `Names.terminatorText`: one line each.
* `Body.text`, `FuncDecl.text`, `Module.text`, `Module.funcText`.
-/

namespace ShaderIR

namespace Text

/-- The texts in a row, with a separator between any two of them. -/
def separated (sep : String) : List String → String
  | [] => ""
  | [s] => s
  | s :: rest => s ++ sep ++ separated sep rest

/-- A text as a line of its own. -/
def line (s : String) : String := s ++ "\n"

end Text

/-- The blocks and the results of a body that are printed by number. -/
structure Names where
  blocks : List BlockId
  results : List InstId
  deriving DecidableEq

namespace Names

/-- The name of a block. -/
def block (n : Names) (b : BlockId) : String :=
  match n.blocks.idxOf? b with
  | some i => "b" ++ toString i
  | none => "b?"

/-- The name of a result. -/
def result (n : Names) (i : InstId) : String :=
  match n.results.idxOf? i with
  | some k => "v" ++ toString k
  | none => "v?"

/-- The text of an operand. -/
def value (n : Names) : Value → String
  | .const c => c.text
  | .result i => n.result i

/-- What is printed of an instruction besides its name and inputs. -/
def attributes : InstKind → String
  | .intrinsic (.loadInput location) => "[location=" ++ toString location.toNat ++ "]"
  | .intrinsic (.storeOutput target) =>
    "[" ++ target.slot.name ++
      (if target.index = 0 then "" else ", index=" ++ toString target.index.toNat) ++ "]"
  | .intrinsic (.combinedWrite written) =>
    "[" ++ Text.separated "|" (written.toList.map Aspect.name) ++ "]"
  | _ => ""

/-- The text of an instruction. -/
def instText (n : Names) (id : InstId) (i : Inst) : String :=
  (match i.ty with
    | some ty => n.result id ++ ": " ++ ty.name ++ " = "
    | none => "") ++
    i.kind.name ++ attributes i.kind ++
    "(" ++ Text.separated ", " (i.inputs.map n.value) ++ ")"

/-- The text of a terminator: its name, then its inputs and targets, if it has any. -/
def terminatorText (n : Names) (t : Terminator) : String :=
  match t.inputs.map n.value ++ t.targets.map n.block with
  | [] => t.kind.name
  | operands => t.kind.name ++ " " ++ Text.separated ", " operands

end Names

namespace Body

/-- The instructions of a block with a result, in program order. -/
def resultsOf (b : Body) (block : BlockId) : Except Fault (List InstId) := do
  let ids ← b.code.instsOf block
  ids.filterM fun id => return (← b.code.inst id).ty.isSome

/-- The names of the blocks and results of a body. -/
def names (b : Body) : Except Fault Names := do
  let blocks := b.blocks.eraseDups
  let results ← blocks.mapM b.resultsOf
  return ⟨blocks, results.flatten.eraseDups⟩

/-- The text of a block: its name, and a line for each instruction and for the terminator. -/
def blockText (b : Body) (n : Names) (block : BlockId) : Except Fault String := do
  let ids ← b.code.instsOf block
  let insts ← ids.mapM fun id => return n.instText id (← b.code.inst id)
  let terminator := (← b.code.blocks.find block).terminator
  return Text.line ("  " ++ n.block block ++ ":") ++
    String.join ((insts ++ [n.terminatorText terminator]).map fun s => Text.line ("    " ++ s))

/-- The text of the blocks of a body. -/
def text (b : Body) : Except Fault String := do
  let n ← b.names
  return String.join (← n.blocks.mapM (b.blockText n))

end Body

/-- The text of a function. -/
def FuncDecl.text (f : FuncDecl) : Except Fault String :=
  match f.impl with
  | .imported link => .ok (Text.line ("func " ++ f.name ++ " = import " ++ Text.quoted link))
  | .present body => do
    return Text.line ("func " ++ f.name ++ " \x7b") ++ (← body.text) ++ Text.line "\x7d"

namespace Module

/-- The text of one function. -/
def funcText (m : Module) (func : FuncId) : Except Fault String := do
  (← m.funcs.find func).text

/-- The text of all functions, with an empty line between any two of them. -/
def text (m : Module) : Except Fault String := do
  let decls ← m.allFuncs.mapM m.funcs.find
  return Text.separated "\n" (← decls.mapM FuncDecl.text)

end Module

end ShaderIR
