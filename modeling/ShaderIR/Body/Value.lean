import ShaderIR.Scalar.Const
import ShaderIR.Entity.Defs

/-!
# Values

* `Constant`: a constant operand, which is a scalar or is left open.
* `Value`: what an instruction or a terminator takes as input.
-/

namespace ShaderIR

/-- What a constant holds. -/
inductive ConstKind where
  /-- Never written: it may be read, but nothing is known of what is read. -/
  | undef
  | scalar (c : Scalar)
  deriving DecidableEq

/-- A constant operand of a declared type.  The declared type of a scalar is its own type, unless
the constant was declared otherwise on purpose. -/
structure Constant where
  ty : ScalarType
  kind : ConstKind
  deriving DecidableEq

namespace Constant

def ofScalar (c : Scalar) : Constant := ⟨c.ty, .scalar c⟩

def undef (ty : ScalarType) : Constant := ⟨ty, .undef⟩

/-- The constant of an unsigned type that stands for `value`. -/
def ofUnsigned (ty : ScalarType) (value : Nat) : Except Fault Constant := do
  return ofScalar (← Scalar.ofUnsigned ty value)

def isUndef (c : Constant) : Bool :=
  match c.kind with
  | .undef => true
  | .scalar _ => false

/-- The text of a constant operand. -/
def text (c : Constant) : String :=
  match c.kind with
  | .undef => "undef<" ++ c.ty.name ++ ">"
  | .scalar s => s.text

end Constant

/-- An operand: a constant, or the result of an instruction. -/
inductive Value where
  | const (c : Constant)
  | result (inst : InstId)
  deriving DecidableEq

/-- Whether a value is a constant that is left open. -/
def Value.isUndef : Value → Bool
  | .const c => c.isUndef
  | .result _ => false

end ShaderIR
