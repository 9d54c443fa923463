import ShaderIR.Body.Value

/-!
# Terminators

A terminator is the only way to leave a block.

* `TerminatorKind`, `Terminator`: what ends a block, with its inputs and the blocks it leads to.
* `Terminator.ret`, `unreachable`, `branch`, `branchIf`: the terminators with as many inputs and
  targets as their kind calls for.
-/

namespace ShaderIR

/-- How a block is left. -/
inductive TerminatorKind where
  /-- Never: to get here is an error of the shader. -/
  | unreachable
  /-- Leaves the function. -/
  | ret
  /-- Goes to the only target. -/
  | branch
  /-- Goes to the first target if its input holds, and to the second if not. -/
  | branchIf
  deriving DecidableEq

def TerminatorKind.name : TerminatorKind → String
  | unreachable => "unreachable"
  | ret => "return"
  | branch => "branch"
  | branchIf => "branch_if"

/-- The end of a block. -/
structure Terminator where
  kind : TerminatorKind
  inputs : List Value
  targets : List BlockId
  deriving DecidableEq

namespace Terminator

def ret : Terminator := ⟨.ret, [], []⟩

def unreachable : Terminator := ⟨.unreachable, [], []⟩

def branch (target : BlockId) : Terminator := ⟨.branch, [], [target]⟩

def branchIf (cond : Value) (ifTrue ifFalse : BlockId) : Terminator :=
  ⟨.branchIf, [cond], [ifTrue, ifFalse]⟩

end Terminator

end ShaderIR
