import ShaderIR.Scalar.Type

/-!
# Fragment outputs

* `OutputSlot`: where a fragment shader writes a result; `OutputTarget` adds the index that
  dual-source blending needs.
* `OutputFlag`, `OutputSet`: which outputs a shader declares that it writes.
* `Aspect`, `AspectSet`: the two halves of a combined depth/stencil write, and which of them have
  been written; `AspectSet.insertOnce` refuses the second write of one aspect.

Principal statements: `AspectSet.insertOnce_eq_error_iff` (exactly a written aspect is refused) and
`AspectSet.contains_insert` (an aspect that is inserted is there afterwards, and so is all that was
there before).
-/

namespace ShaderIR

/-- Where a fragment shader writes a result; only the first eight colours exist. -/
inductive OutputSlot where
  | depth
  | stencil
  | sampleMask
  | color (attachment : UInt8)
  deriving DecidableEq

/-- The name of a slot. -/
def OutputSlot.name : OutputSlot → String
  | depth => "depth"
  | stencil => "stencil"
  | sampleMask => "sample_mask"
  | color n => "data" ++ toString n.toNat

/-- A slot, and which of two sources is blended into it. -/
structure OutputTarget where
  slot : OutputSlot
  index : UInt8
  deriving DecidableEq

/-- The target for a slot outside of dual-source blending. -/
def OutputTarget.ofSlot (slot : OutputSlot) : OutputTarget := ⟨slot, 0⟩

/-- One output that a shader may declare. -/
inductive OutputFlag where
  | depth
  | stencil
  | sampleMask
  | data (n : Fin 8)
  deriving DecidableEq

namespace OutputFlag

/-- All flags, in the order of their bits. -/
def all : List OutputFlag :=
  [depth, stencil, sampleMask, data 0, data 1, data 2, data 3, data 4, data 5, data 6, data 7]

/-- The name that a flag is declared with. -/
def name : OutputFlag → String
  | depth => "DEPTH"
  | stencil => "STENCIL"
  | sampleMask => "SAMPLE_MASK"
  | data n => "DATA" ++ toString n.val

/-- The flag with a given name. -/
def ofName? (s : String) : Option OutputFlag := all.find? (·.name == s)

/-- The position of a flag's bit. -/
def bit : OutputFlag → UInt64
  | depth => 0
  | stencil => 1
  | sampleMask => 2
  | data n => 4 + UInt64.ofNat n.val

end OutputFlag

/-- A set of outputs, one bit for each. -/
structure OutputSet where
  bits : UInt64
  deriving DecidableEq

namespace OutputSet

def empty : OutputSet := ⟨0⟩

/-- The set of one output. -/
def single (f : OutputFlag) : OutputSet := ⟨1 <<< f.bit⟩

def union (a b : OutputSet) : OutputSet := ⟨a.bits ||| b.bits⟩

def ofList (flags : List OutputFlag) : OutputSet :=
  flags.foldl (fun s f => s.union (single f)) empty

/-- Whether two sets have an output in common. -/
def intersects (a b : OutputSet) : Bool := a.bits &&& b.bits != 0

/-- Whether `b` is a part of `a`. -/
def contains (a b : OutputSet) : Bool := a.bits &&& b.bits == b.bits

/-- The outputs of a set, in the order of their bits. -/
def toList (s : OutputSet) : List OutputFlag := OutputFlag.all.filter fun f => s.contains (single f)

/-- The outputs that a combined write replaces. -/
def depthStencil : OutputSet := (single .depth).union (single .stencil)

end OutputSet

/-- One half of a depth/stencil value. -/
inductive Aspect where
  | depth
  | stencil
  deriving DecidableEq

namespace Aspect

def name : Aspect → String
  | depth => "depth"
  | stencil => "stencil"

/-- The aspect that a slot holds. -/
def ofSlot? : OutputSlot → Option Aspect
  | .depth => some depth
  | .stencil => some stencil
  | _ => none

/-- The bit that marks an aspect as written. -/
def flag : Aspect → UInt8
  | depth => 1
  | stencil => 2

/-- Which input of a combined write holds the aspect; the first input is the sample mask. -/
def inputIndex : Aspect → Nat
  | depth => 1
  | stencil => 2

/-- The type that a combined write takes the aspect in. -/
def scalarType : Aspect → ScalarType
  | depth => .f32
  | stencil => .u16

end Aspect

/-- A set of aspects.  Bits that stand for no aspect are kept, and mean nothing. -/
structure AspectSet where
  bits : UInt8
  deriving DecidableEq

namespace AspectSet

def empty : AspectSet := ⟨0⟩

def contains (s : AspectSet) (a : Aspect) : Bool := s.bits &&& a.flag == a.flag

def insert (s : AspectSet) (a : Aspect) : AspectSet := ⟨s.bits ||| a.flag⟩

/-- Marks an aspect as written, unless it was so already. -/
def insertOnce (s : AspectSet) (a : Aspect) : Except Aspect AspectSet :=
  if s.contains a then .error a else .ok (s.insert a)

/-- The aspects of a set, depth first. -/
def toList (s : AspectSet) : List Aspect := [.depth, .stencil].filter s.contains

theorem insertOnce_eq_error_iff {s : AspectSet} {a b : Aspect} :
    s.insertOnce a = .error b ↔ s.contains a = true ∧ b = a := by
  unfold insertOnce
  split
  · rename_i h
    simp [h, eq_comm]
  · rename_i h
    simp [h]

theorem contains_insert (s : AspectSet) (a b : Aspect) :
    (s.insert a).contains b = (s.contains b || decide (b = a)) := by
  obtain ⟨⟨bits⟩⟩ := s
  cases a <;> cases b <;> revert bits <;> decide

end AspectSet

end ShaderIR
