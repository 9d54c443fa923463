import ShaderIR.Decimal.Binary

/-!
# The shortest decimal of a binary64 value

A positive binary64 value `m · 2 ^ q` owns the decimals that are nearer to it than to any other
value of the format; the half-way points belong to it when `m` is even.  `shortest m q` is the
decimal of fewest digits that the value owns, and of those the nearest one.

* `Decimal`: `digits · 10 ^ exponent`.
* `Decimal.Scale`: the units in which the value, its reach below and above, and a candidate are
  compared.
* `shortest`: tries coarser powers of ten first, at each the value's two neighbours.
-/

namespace ShaderIR

/-- The decimal number `digits · 10 ^ exponent`. -/
structure Decimal where
  digits : Nat
  exponent : Int
  deriving DecidableEq

namespace Decimal

/-- Whether `m` is the least mantissa with a leading bit: the value below it is then only half as
far away as the value above. -/
def atBinade (m : Nat) : Bool :=
  m == Nat.pow 2 BinaryFormat.binary64.fractionBits

/-- The value `m · 2 ^ q` and a decimal exponent `p`, in a common unit: a quarter of the last place
of the value, shrunk until it divides both that and `10 ^ p`. -/
structure Scale where
  /-- Four times the mantissa is this many units of `quarter`. -/
  value : Nat
  /-- A quarter of the last place. -/
  quarter : Nat
  /-- One step of the decimal grid. -/
  step : Nat

/-- The common units of `m · 2 ^ q` and `10 ^ p`. -/
def scale (m : Nat) (q p : Int) : Scale :=
  let quarter := Nat.pow 2 (q - 2).toNat * Nat.pow 10 (-p).toNat
  ⟨4 * m * quarter, quarter, Nat.pow 2 (2 - q).toNat * Nat.pow 10 p.toNat⟩

/-- Whether the decimal `d · 10 ^ p` reads back as `m · 2 ^ q`. -/
def owns (m : Nat) (s : Scale) (d : Nat) : Bool :=
  let candidate := d * s.step
  let low := s.value - (if atBinade m then 1 else 2) * s.quarter
  let high := s.value + 2 * s.quarter
  if m % 2 = 0 then low ≤ candidate && candidate ≤ high else low < candidate && candidate < high

/-- The nearer of the two neighbours of `m · 2 ^ q` among the multiples of `10 ^ p`, of those that
read back as that value.  Of two neighbours that are equally near the larger is taken. -/
def onGrid? (m : Nat) (q p : Int) : Option Decimal :=
  let s := scale m q p
  let below := s.value / s.step
  let rest := s.value % s.step
  if owns m s (below + 1) && (!owns m s below || s.step ≤ 2 * rest) then
    some ⟨below + 1, p⟩
  else if owns m s below then
    some ⟨below, p⟩
  else
    none

/-- The first grid, from `10 ^ p` down, that holds a decimal which reads back. -/
def firstGrid? (m : Nat) (q : Int) : Nat → Int → Option Decimal
  | 0, _ => none
  | n + 1, p =>
    match onGrid? m q p with
    | some d => some d
    | none => firstGrid? m q n (p - 1)

/-- How many decimal digits a number is written with. -/
def digitCount (n : Nat) : Nat :=
  (Nat.toDigits 10 n).length

/-- The exponent of the leading digit of `m · 2 ^ q`, for a positive `m`. -/
def leadingExponent (m : Nat) (q : Int) : Int :=
  let num := m * Nat.pow 2 q.toNat
  let den := Nat.pow 2 (-q).toNat
  if den ≤ num then
    (digitCount (num / den) : Int) - 1
  else
    -(digitCount ((den - 1) / num) : Int)

/-- The value `m · 2 ^ q` as a decimal, digit for digit. -/
def exact (m : Nat) (q : Int) : Decimal :=
  ⟨m * Nat.pow 2 q.toNat * Nat.pow 5 (-q).toNat, -(-q).toNat⟩

/-- The shortest decimal that reads back as the positive binary64 value `m · 2 ^ q`.  Eighteen
grids are enough: with seventeen digits two decimals are nearer to each other than two values. -/
def shortest (m : Nat) (q : Int) : Decimal :=
  (firstGrid? m q 20 (leadingExponent m q + 1)).getD (exact m q)

/-- Writes a decimal without an exponent, and without a point if it is whole. -/
def positional (d : Decimal) : String :=
  let digits := Nat.toDigits 10 d.digits
  let places := (-d.exponent).toNat
  if d.exponent ≥ 0 then
    String.ofList (digits ++ List.replicate d.exponent.toNat '0')
  else if places < digits.length then
    String.ofList (digits.take (digits.length - places) ++
      '.' :: digits.drop (digits.length - places))
  else
    String.ofList ('0' :: '.' :: List.replicate (places - digits.length) '0' ++ digits)

end Decimal

/-- The text of a float: the shortest decimal that reads back as the same binary64 value, written
without an exponent; the sign of zero is kept. -/
def Encoded.text : Encoded → String
  | .nan => "NaN"
  | .infinite negative => if negative then "-inf" else "inf"
  | .finite negative m q =>
    let sign := if negative then "-" else ""
    sign ++ if m = 0 then "0" else (Decimal.shortest m q).positional

end ShaderIR
