import ShaderIR.Body.Inst
import ShaderIR.Body.Terminator

/-!
# What inputs an instruction expects

* `Expected`: a requirement on the type of one input.
* `InstKind.expected`, `TerminatorKind.expected`: one requirement for each input.
* `Expected.admits`: whether a type, or the lack of one, meets a requirement.
-/

namespace ShaderIR

/-- A requirement on the type of an input. -/
inductive Expected where
  | any
  | exactly (ty : ScalarType)
  | anyFloat
  | anyInt
  /-- The type of the user's own result. -/
  | sameAsResult
  deriving DecidableEq

namespace Expected

/-- Whether an input of type `found` meets the requirement of a user whose result has type
`result`. -/
def admits (e : Expected) (found result : Option ScalarType) : Bool :=
  match e, found with
  | _, none => false
  | any, some _ => true
  | exactly ty, some t => t = ty
  | anyFloat, some t => t.isFloat
  | anyInt, some t => t.isInt
  | sameAsResult, some t => result = some t

/-- The name of a type that may be lacking. -/
def typeName : Option ScalarType → String
  | some ty => ty.name
  | none => "<none>"

/-- The name of a requirement of a user whose result has type `result`. -/
def name (e : Expected) (result : Option ScalarType) : String :=
  match e with
  | any => "<any>"
  | exactly ty => ty.name
  | anyFloat => "<float>"
  | anyInt => "<integer>"
  | sameAsResult => typeName result

end Expected

/-- The requirements on the inputs of a pure operation. -/
def AluOp.expected : AluOp → List Expected
  | fconvert => [.anyFloat]
  | uconvert => [.anyInt]
  | select => [.exactly .bool, .sameAsResult, .sameAsResult]
  | fadd => [.sameAsResult, .sameAsResult]
  | fmul => [.sameAsResult, .sameAsResult]
  | flt => [.anyFloat, .anyFloat]
  | ieq => [.any, .any]

/-- The requirements on the inputs of an operation with an effect. -/
def Intrinsic.expected : Intrinsic → List Expected
  | loadInput _ => []
  | storeOutput _ => [.any]
  | discard => []
  | discardIf => [.exactly .bool]
  | combinedWrite _ => [.exactly .u16, .exactly .f32, .exactly .u16]
  | discardSamples => [.exactly .u16]

/-- The requirements on the inputs of an instruction. -/
def InstKind.expected : InstKind → List Expected
  | alu op => op.expected
  | intrinsic op => op.expected

/-- The requirements on the inputs of a terminator. -/
def TerminatorKind.expected : TerminatorKind → List Expected
  | branchIf => [.exactly .bool]
  | _ => []

end ShaderIR
