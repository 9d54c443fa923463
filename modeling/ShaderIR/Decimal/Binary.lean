/-!
# Binary floating-point formats

* `BinaryFormat`: how many bits of an encoding hold the exponent and the fraction;
  `binary16`, `binary32`, `binary64`.
* `Encoded`: what an encoding stands for.
* `BinaryFormat.decode`, `BinaryFormat.encode`: between bits and what they stand for.  `encode`
  is meant for a value that the format represents exactly, such as one read from a narrower
  format.
-/

namespace ShaderIR

/-- A binary format: a sign bit, then the exponent, then the fraction. -/
structure BinaryFormat where
  exponentBits : Nat
  fractionBits : Nat
  deriving DecidableEq

/-- What the bits of a float stand for; `finite s m q` is `m · 2 ^ q`, negated if `s`. -/
inductive Encoded where
  | nan
  | infinite (negative : Bool)
  | finite (negative : Bool) (mantissa : Nat) (exponent : Int)
  deriving DecidableEq

namespace BinaryFormat

def binary16 : BinaryFormat := ⟨5, 10⟩

def binary32 : BinaryFormat := ⟨8, 23⟩

def binary64 : BinaryFormat := ⟨11, 52⟩

/-- The exponent of the last place of the smallest values. -/
def minExponent (f : BinaryFormat) : Int :=
  2 - Nat.pow 2 (f.exponentBits - 1) - f.fractionBits

/-- The exponent field that stands for infinities and for what is not a number. -/
def topExponent (f : BinaryFormat) : Nat :=
  Nat.pow 2 f.exponentBits - 1

/-- Reads an encoding.  A zero exponent field means that the leading bit is not implied. -/
def decode (f : BinaryFormat) (bits : Nat) : Encoded :=
  let negative := bits.testBit (f.exponentBits + f.fractionBits)
  let exponent := bits / Nat.pow 2 f.fractionBits % Nat.pow 2 f.exponentBits
  let fraction := bits % Nat.pow 2 f.fractionBits
  if exponent = f.topExponent then
    if fraction = 0 then .infinite negative else .nan
  else if exponent = 0 then
    .finite negative fraction f.minExponent
  else
    .finite negative (Nat.pow 2 f.fractionBits + fraction) (f.minExponent + (exponent - 1 : Nat))

/-- Puts the three fields of an encoding together. -/
def assemble (f : BinaryFormat) (negative : Bool) (exponent fraction : Nat) : Nat :=
  (if negative then Nat.pow 2 (f.exponentBits + f.fractionBits) else 0) +
    exponent * Nat.pow 2 f.fractionBits + fraction

/-- Encodes a value that the format represents exactly: the mantissa moves left until its leading
bit is the implied one, or the smallest exponent is reached. -/
def encode (f : BinaryFormat) : Encoded → Nat
  | .nan => f.assemble false f.topExponent (Nat.pow 2 (f.fractionBits - 1))
  | .infinite negative => f.assemble negative f.topExponent 0
  | .finite negative mantissa exponent =>
    if mantissa = 0 then
      f.assemble negative 0 0
    else
      let spare := (exponent - f.minExponent).toNat
      let shift := min (f.fractionBits - mantissa.log2) spare
      let shifted := mantissa * Nat.pow 2 shift
      if shifted < Nat.pow 2 f.fractionBits then
        f.assemble negative 0 shifted
      else
        f.assemble negative (spare - shift + 1) (shifted - Nat.pow 2 f.fractionBits)

end BinaryFormat

end ShaderIR
