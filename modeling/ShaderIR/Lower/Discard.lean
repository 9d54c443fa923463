import ShaderIR.Lower.Config
import ShaderIR.Edit

/-!
# Discards become sample masks

A discard kills all samples of its fragment, and a conditional one all of them or none.

* `Discard.condition`: whether an instruction discards, and on which condition.
* `Discard.edit`: puts the mask of the killed samples in place of a discard.
* `Module.lowerDiscard`: the lowering of a module.
-/

namespace ShaderIR

namespace Discard

/-- Whether an instruction discards, and if so on which condition. -/
def condition (i : Inst) : Except Fault (Option (Option Value)) :=
  match i.kind with
  | .intrinsic .discard => .ok (some none)
  | .intrinsic .discardIf => do return some (some (← i.input 0))
  | _ => .ok none

/-- The mask of the samples that a discard kills. -/
def killed (b : Builder) (all nothing : Value) : Option Value → Except Fault (Value × Builder)
  | none => .ok (all, b)
  | some cond => b.select cond all nothing

/-- Puts a mask of all killed samples in place of a discard. -/
def edit (all nothing : Value) : Edit Unit := fun block id s w => do
  match ← condition (← w.code.inst id) with
  | none => return (false, s, w)
  | some cond =>
    let (mask, b) ← killed (w.at (.before block id)) all nothing cond
    let (_, b) ← b.discardSamples mask
    let (_, w) ← b.work.removeInst block id
    return (true, s, w)

end Discard

/-- Replaces every discard of a module by the mask of the samples that it kills, and says whether
there was any.  A module that declares no discard is left alone. -/
def Module.lowerDiscard (m : Module) (config : LowerConfig) : Except Fault (Module × Bool) :=
  if m.info.usesDiscard then do
    let all ← config.allSamplesValue
    let nothing ← Constant.ofUnsigned .u16 0
    let (changed, _, m) ← m.edit .flowOnly (Discard.edit all (.const nothing)) ()
    return (m, changed)
  else
    .ok (m, false)

end ShaderIR
