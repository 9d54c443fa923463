import ShaderIR.Lower.DepthStencil
import ShaderIR.Lower.Discard

/-!
# Lowering of a fragment shader

The hardware has neither a depth output nor a discard: a fragment shader writes depth and stencil
together, at most once in each block, and kills samples by a mask.

* `Module.lower`: merges the depth and stencil stores, and then replaces the discards.
-/

namespace ShaderIR

/-- Lowers the fragment outputs and then the discards of a fragment shader.  An error leaves the
module as far as it was lowered. -/
def Module.lower (m : Module) (config : LowerConfig) :
    Except Fault (Outcome Module LowerError) :=
  if m.info.stage = .fragment then do
    match ← m.lowerDepthStencil config with
    | (m, .error e) => return (m, .error e)
    | (m, .ok merged) =>
      let (m, discarded) ← m.lowerDiscard config
      return (m, .ok (merged || discarded))
  else
    .ok (m, .error (.notFragment m.info.stage))

end ShaderIR
