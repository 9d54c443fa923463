/-!
# Scalar types

* `IntWidth`, `FloatWidth`: the bit widths a shader may ask for; `ofBits?` reads a bit count.
* `ScalarType`: Booleans, signed and unsigned integers, and floats, with their `width` in bits
  and the `name` they are written with.

Principal statements: `IntWidth.ofBits?_eq_some_iff`, `FloatWidth.ofBits?_eq_some_iff` (a width is
read from its own bit count only), and `ScalarType.width_pos`, `ScalarType.width_le` (every type
takes between one and 128 bits).
-/

namespace ShaderIR

/-- The widths of an integer type: a power of two of bytes, up to sixteen. -/
inductive IntWidth where
  | w8
  | w16
  | w32
  | w64
  | w128
  deriving DecidableEq

/-- The widths of a float type: half, single and double precision. -/
inductive FloatWidth where
  | w16
  | w32
  | w64
  deriving DecidableEq

namespace IntWidth

/-- The number of bits of an integer of this width. -/
def bits : IntWidth → Nat
  | w8 => 8
  | w16 => 16
  | w32 => 32
  | w64 => 64
  | w128 => 128

/-- The width that takes exactly `n` bits, if integers of that size are supported. -/
def ofBits? (n : Nat) : Option IntWidth :=
  [w8, w16, w32, w64, w128].find? (·.bits == n)

theorem ofBits?_eq_some_iff {n : Nat} {w : IntWidth} : ofBits? n = some w ↔ w.bits = n := by
  constructor
  · intro h
    have := List.find?_some h
    simpa using this
  · rintro rfl
    cases w <;> rfl

end IntWidth

namespace FloatWidth

/-- The number of bits of a float of this width. -/
def bits : FloatWidth → Nat
  | w16 => 16
  | w32 => 32
  | w64 => 64

/-- The width that takes exactly `n` bits, if floats of that size are supported. -/
def ofBits? (n : Nat) : Option FloatWidth :=
  [w16, w32, w64].find? (·.bits == n)

theorem ofBits?_eq_some_iff {n : Nat} {w : FloatWidth} : ofBits? n = some w ↔ w.bits = n := by
  constructor
  · intro h
    have := List.find?_some h
    simpa using this
  · rintro rfl
    cases w <;> rfl

end FloatWidth

/-- A type that fits in one register: the only kind of type a value may have. -/
inductive ScalarType where
  | bool
  | sint (w : IntWidth)
  | uint (w : IntWidth)
  | float (w : FloatWidth)
  deriving DecidableEq

namespace ScalarType

/-- Sample masks and stencil values are unsigned and take 16 bits. -/
abbrev u16 : ScalarType := uint .w16

abbrev u32 : ScalarType := uint .w32

abbrev f16 : ScalarType := float .w16

/-- Depth values take single precision. -/
abbrev f32 : ScalarType := float .w32

/-- The number of bits that a value of this type takes. -/
def width : ScalarType → Nat
  | bool => 1
  | sint w => w.bits
  | uint w => w.bits
  | float w => w.bits

def isInt : ScalarType → Bool
  | sint _ => true
  | uint _ => true
  | _ => false

def isUnsigned : ScalarType → Bool
  | uint _ => true
  | _ => false

def isFloat : ScalarType → Bool
  | float _ => true
  | _ => false

/-- A type is written as a letter for its kind and its width, Booleans apart. -/
def name : ScalarType → String
  | bool => "bool"
  | sint w => "i" ++ toString w.bits
  | uint w => "u" ++ toString w.bits
  | float w => "f" ++ toString w.bits

theorem width_pos (ty : ScalarType) : 0 < ty.width := by
  cases ty with
  | bool => decide
  | sint w => cases w <;> decide
  | uint w => cases w <;> decide
  | float w => cases w <;> decide

theorem width_le (ty : ScalarType) : ty.width ≤ 128 := by
  cases ty with
  | bool => decide
  | sint w => cases w <;> decide
  | uint w => cases w <;> decide
  | float w => cases w <;> decide

end ScalarType

end ShaderIR
