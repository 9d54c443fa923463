import ShaderIR.Decimal.Shortest
import ShaderIR.Fault

/-!
# Scalar constants

A scalar constant is a scalar type and as many bits as that type takes.

* `Scalar.truncate`: keeps the bits that the type takes; every other constructor goes through it.
* `Scalar.ofBits`, `Scalar.ofBits?`: refuse bits that do not fit.
* `Scalar.ofInt?`: the constant of an integer type that stands for a given number.
* `Scalar.toBool?`, `Scalar.toInt?`, `Scalar.toNat?`, `Scalar.toFloat?`: what a constant stands for.
* `Scalar.text`: a number is followed by the name of its type.

Principal statements: `Scalar.ofBits?_eq_some_iff` (a constant is made from its own type and bits
only) and `Scalar.ofBits_eq` (the two constructors from bits agree).
-/

namespace ShaderIR

/-- A constant of a scalar type. -/
structure Scalar where
  ty : ScalarType
  bits : Nat
  /-- A constant has no bits beyond the width of its type. -/
  bits_lt : bits < Nat.pow 2 ty.width
  deriving DecidableEq

namespace Scalar

/-- The constant of the low bits of `bits`, as many as `ty` takes. -/
def truncate (ty : ScalarType) (bits : Nat) : Scalar :=
  ⟨ty, bits % Nat.pow 2 ty.width, Nat.mod_lt _ (Nat.two_pow_pos _)⟩

/-- The constant with exactly the given bits, if `ty` takes that many. -/
def ofBits? (ty : ScalarType) (bits : Nat) : Option Scalar :=
  let c := truncate ty bits
  if c.bits = bits then some c else none

/-- The constant with exactly the given bits, which have to fit. -/
def ofBits (ty : ScalarType) (bits : Nat) : Except Fault Scalar :=
  let c := truncate ty bits
  if c.bits = bits then .ok c else .error .constantTooWide

def ofBool (b : Bool) : Scalar :=
  truncate .bool b.toNat

/-- The constant of an unsigned type; another type is refused before the bits are looked at. -/
def ofUnsigned (ty : ScalarType) (value : Nat) : Except Fault Scalar :=
  if ty.isUnsigned then ofBits ty value else .error (.constantNotUnsigned ty)

/-- The Boolean that a constant stands for. -/
def toBool? (c : Scalar) : Option Bool :=
  match c.ty with
  | .bool => some (c.bits != 0)
  | _ => none

/-- The integer that a constant of an integer type stands for.  Signed constants are in two's
complement; unsigned ones from `2 ^ 127` up are beyond the signed integers of 128 bits. -/
def toInt? (c : Scalar) : Option Int :=
  match c.ty with
  | .sint w => some ((c.bits : Int).bmod (Nat.pow 2 w.bits))
  | .uint _ => if c.bits < Nat.pow 2 127 then some c.bits else none
  | _ => none

/-- The natural number that a constant of an integer type stands for, if it is not negative. -/
def toNat? (c : Scalar) : Option Nat :=
  match c.ty with
  | .sint _ =>
    match c.toInt? with
    | some v => if 0 ≤ v then some v.toNat else none
    | none => none
  | .uint _ => some c.bits
  | _ => none

/-- The constant of an integer type that stands for `v`: the low bits of its two's complement, if
they still stand for `v`. -/
def ofInt? (ty : ScalarType) (v : Int) : Option Scalar :=
  let c := truncate ty (v % Nat.pow 2 128).toNat
  if c.toInt? = some v then some c else none

/-- The value of a constant of a float type. -/
def toFloat? (c : Scalar) : Option Encoded :=
  match c.ty with
  | .float .w16 => some (BinaryFormat.binary16.decode c.bits)
  | .float .w32 => some (BinaryFormat.binary32.decode c.bits)
  | .float .w64 => some (BinaryFormat.binary64.decode c.bits)
  | _ => none

/-- The binary64 value of a constant of a float type; every narrower float has one. -/
def toBinary64? (c : Scalar) : Option Encoded :=
  c.toFloat?.map fun v => BinaryFormat.binary64.decode (BinaryFormat.binary64.encode v)

/-- The text of a constant. -/
def text (c : Scalar) : String :=
  match c.ty with
  | .bool => if c.bits = 0 then "false" else "true"
  | .sint w => toString ((c.bits : Int).bmod (Nat.pow 2 w.bits)) ++ c.ty.name
  | .uint _ => toString c.bits ++ c.ty.name
  | .float _ => ((c.toBinary64?.map Encoded.text).getD "") ++ c.ty.name

theorem truncate_self (c : Scalar) : truncate c.ty c.bits = c := by
  obtain ⟨ty, bits, hlt⟩ := c
  unfold truncate
  congr
  exact Nat.mod_eq_of_lt hlt

theorem ofBits?_eq_some_iff {ty : ScalarType} {bits : Nat} {c : Scalar} :
    ofBits? ty bits = some c ↔ c.ty = ty ∧ c.bits = bits := by
  simp only [ofBits?]
  constructor
  · intro h
    split at h
    · rename_i hb
      cases h
      exact ⟨rfl, hb⟩
    · simp at h
  · rintro ⟨rfl, rfl⟩
    rw [truncate_self, if_pos rfl]

theorem ofBits_eq (ty : ScalarType) (bits : Nat) :
    ofBits ty bits =
      match ofBits? ty bits with
      | some c => .ok c
      | none => .error .constantTooWide := by
  simp only [ofBits, ofBits?]
  split <;> rfl

end Scalar

end ShaderIR
