import ShaderIR.Body.Value
import ShaderIR.Output

/-!
# Instructions

* `AluOp`: pure operations; `Intrinsic`: operations with an effect, or tied to the interface of the
  shader; `InstKind` is either.
* `Inst`: an instruction, that is a kind with its inputs and the type of its result.
* `Inst.stores?`, `Inst.input`: what the lowerings look at.
-/

namespace ShaderIR

/-- Pure operations.  The type of the result says, for instance, what is converted to. -/
inductive AluOp where
  /-- From one float type to another. -/
  | fconvert
  /-- From an integer to an unsigned one, by cutting bits off or adding zeros. -/
  | uconvert
  /-- Takes a condition, then the value if it holds, then the value if it does not. -/
  | select
  | fadd
  | fmul
  | flt
  | ieq
  deriving DecidableEq

def AluOp.name : AluOp → String
  | fconvert => "fconvert"
  | uconvert => "uconvert"
  | select => "select"
  | fadd => "fadd"
  | fmul => "fmul"
  | flt => "flt"
  | ieq => "ieq"

/-- Operations with an effect, or tied to the interface of the shader. -/
inductive Intrinsic where
  /-- Reads an input of the fragment. -/
  | loadInput (location : UInt32)
  /-- Writes its input to an output. -/
  | storeOutput (target : OutputTarget)
  /-- Kills all samples of the fragment. -/
  | discard
  /-- Kills all samples of the fragment if its input holds. -/
  | discardIf
  /-- Writes depth and stencil together: takes a sample mask, a depth and a stencil value, of which
  those not marked as written mean nothing. -/
  | combinedWrite (written : AspectSet)
  /-- Kills the samples that are set in its input, one bit for each. -/
  | discardSamples
  deriving DecidableEq

def Intrinsic.name : Intrinsic → String
  | loadInput _ => "load_input"
  | storeOutput _ => "store_output"
  | discard => "discard"
  | discardIf => "discard_if"
  | combinedWrite _ => "zs_emit"
  | discardSamples => "discard_samples"

/-- What an instruction does. -/
inductive InstKind where
  | alu (op : AluOp)
  | intrinsic (op : Intrinsic)
  deriving DecidableEq

def InstKind.name : InstKind → String
  | alu op => op.name
  | intrinsic op => op.name

/-- An instruction; one without `ty` has no result. -/
structure Inst where
  kind : InstKind
  inputs : List Value
  ty : Option ScalarType
  deriving DecidableEq

namespace Inst

/-- An input of an instruction, which has to exist. -/
def input (i : Inst) (index : Nat) : Except Fault Value :=
  match i.inputs[index]? with
  | some v => .ok v
  | none => .error (.noSuchInput i.inputs.length index)

/-- The instruction with one of its inputs replaced, which has to exist. -/
def withInput (i : Inst) (index : Nat) (v : Value) : Except Fault Inst :=
  if index < i.inputs.length then .ok { i with inputs := i.inputs.set index v }
  else .error (.noSuchInput i.inputs.length index)

/-- The aspect that an instruction stores to its output, if it is a store of one. -/
def stores? (i : Inst) : Option Aspect :=
  match i.kind with
  | .intrinsic (.storeOutput target) => Aspect.ofSlot? target.slot
  | _ => none

end Inst

end ShaderIR
