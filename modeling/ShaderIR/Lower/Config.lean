import ShaderIR.Module

/-!
# What a lowering is told, and how it fails

* `LowerConfig`: what depends on the target; `LowerConfig.allSamples` is the mask of all samples.
* `LowerError`: why a shader cannot be lowered, with its wording.
* `Outcome`: what a lowering leaves behind.
-/

namespace ShaderIR

/-- What a lowering has to know of the target. -/
structure LowerConfig where
  /-- The highest number of samples of a pixel. -/
  maxSamples : Nat
  deriving DecidableEq

namespace LowerConfig

/-- A target with up to eight samples for each pixel. -/
def eightSamples : LowerConfig := ⟨8⟩

/-- A mask with a bit for each sample.  Masks have sixteen bits. -/
def allSamples (c : LowerConfig) : Except Fault Nat :=
  if 1 ≤ c.maxSamples ∧ c.maxSamples ≤ 16 then .ok (0xffff >>> (16 - c.maxSamples))
  else .error (.sampleCount c.maxSamples)

/-- The mask of all samples as an operand. -/
def allSamplesValue (c : LowerConfig) : Except Fault Value := do
  return .const (← Constant.ofUnsigned .u16 (← c.allSamples))

end LowerConfig

/-- The name of a stage, as errors give it. -/
def Stage.name : Stage → String
  | vertex => "Vertex"
  | fragment => "Fragment"
  | compute => "Compute"

/-- Why a shader cannot be lowered. -/
inductive LowerError where
  /-- One block writes the same aspect twice. -/
  | doubleWrite (func : String) (aspect : Aspect)
  /-- Only fragment shaders have such outputs. -/
  | notFragment (stage : Stage)
  deriving DecidableEq

/-- The state that a lowering leaves behind, and either whether it changed anything or why it
stopped. -/
abbrev Outcome (σ ε : Type) := σ × Except ε Bool

/-- The wording of an error. -/
def LowerError.message : LowerError → String
  | doubleWrite func aspect =>
    "function `" ++ func ++ "` writes " ++ aspect.name ++ " more than once in the same block"
  | notFragment stage =>
    "fragment output lowering requires a fragment shader, found " ++ stage.name ++ " shader"

end ShaderIR
