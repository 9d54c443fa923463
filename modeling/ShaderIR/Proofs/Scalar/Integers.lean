import Mathlib.Tactic.Ring
import ShaderIR.Scalar.Const

/-!
# Integer constants are exact

A constant of an integer type stands for one integer, and is the only one of its type that does.
Constants are computed with on words of 128 bits, by masks and shifts; here the shifts are seen to
stay below the width of a word, and to compute what the constants are defined by.

* `ScalarType.Represents`: the integers that an integer type has constants for.
* `Word.shl?`, `Word.shr?`, `Word.sar?`: shifts, which fail from the width of a word up.
* `Scalar.keep?`, `Scalar.signed?`, `Scalar.written?`: how constants are cut off, sign-extended and
  written, with all that may fail on the way.

Principal statements: `Scalar.ofInt?_eq_some_iff` (a constant is made of an integer iff it stands
for it), `Scalar.exists_ofInt?_iff` (and of which integers one is made), `Scalar.integers_exact`.
-/

namespace ShaderIR

/-- The integers that a type has constants for. -/
def ScalarType.Represents : ScalarType → Int → Prop
  | sint w, v => -2 ^ (w.bits - 1) ≤ v ∧ v < 2 ^ (w.bits - 1)
  | uint w, v => 0 ≤ v ∧ v < 2 ^ w.bits
  | bool, _ => False
  | float _, _ => False

namespace Scalar

variable {ty : ScalarType} {c : Scalar} {v : Int} {b : Nat}

/-! ## Constants and integers -/

/-- The low bits of an integer, as many as a type takes, are those of its low word. -/
theorem lowWord_mod (ty : ScalarType) (v : Int) :
    (((v % Nat.pow 2 128).toNat % Nat.pow 2 ty.width : Nat) : Int) = v % Nat.pow 2 ty.width := by
  have hdvd : ((Nat.pow 2 ty.width : Nat) : Int) ∣ (Nat.pow 2 128 : Nat) :=
    Int.natCast_dvd_natCast.2 (Nat.pow_dvd_pow 2 ty.width_le)
  have hnonneg : 0 ≤ v % (Nat.pow 2 128 : Nat) := Int.emod_nonneg _ (by decide)
  rw [Int.natCast_emod, Int.toNat_of_nonneg hnonneg, Int.emod_emod_of_dvd _ hdvd]

theorem mod_bits (c : Scalar) : ((c.bits : Int) % Nat.pow 2 c.ty.width) = c.bits := by
  rw [← Int.natCast_emod, Nat.mod_eq_of_lt c.bits_lt]

/-- The low bits of the integer that a constant stands for are those of the constant. -/
theorem emod_of_toInt? (h : c.toInt? = some v) : v % Nat.pow 2 c.ty.width = c.bits := by
  have hmod := c.mod_bits
  obtain ⟨ty, bits, hlt⟩ := c
  cases ty with
  | bool => cases h
  | float w => cases h
  | sint w =>
    cases h
    exact (Int.bmod_emod ..).trans hmod
  | uint w =>
    simp only [toInt?] at h
    split at h <;> cases h
    exact hmod

/-- A constant is cut off from the integer that it stands for. -/
theorem truncate_of_toInt? (h : c.toInt? = some v) :
    truncate c.ty (v % Nat.pow 2 128).toNat = c := by
  have hbits := Int.ofNat_inj.1 ((lowWord_mod c.ty v).trans (emod_of_toInt? h))
  obtain ⟨ty, bits, hlt⟩ := c
  simp only [truncate, mk.injEq, true_and]
  exact hbits

/-- **A constant is made of an integer iff it is of the wanted type and stands for it.** -/
theorem ofInt?_eq_some_iff : ofInt? ty v = some c ↔ c.ty = ty ∧ c.toInt? = some v := by
  constructor
  · intro h
    simp only [ofInt?] at h
    split at h
    · rename_i hv
      cases h
      exact ⟨rfl, hv⟩
    · cases h
  · rintro ⟨rfl, h⟩
    simp only [ofInt?, truncate_of_toInt? h, if_pos h]

/-- What a signed constant stands for that is cut off from an integer. -/
theorem toInt?_low_sint (w : IntWidth) (v : Int) :
    (truncate (.sint w) (v % Nat.pow 2 128).toNat).toInt? = some (v.bmod (Nat.pow 2 w.bits)) := by
  rw [← Int.emod_bmod v]
  exact congrArg (fun n => some (Int.bmod n (Nat.pow 2 w.bits))) (lowWord_mod (.sint w) v)

/-- What an unsigned constant stands for that is cut off from an integer. -/
theorem toInt?_low_uint (w : IntWidth) (v : Int) :
    (truncate (.uint w) (v % Nat.pow 2 128).toNat).toInt? =
      if v % 2 ^ w.bits < 2 ^ 127 then some (v % 2 ^ w.bits) else none := by
  have hlow : (((v % Nat.pow 2 128).toNat % Nat.pow 2 w.bits : Nat) : Int) = v % 2 ^ w.bits :=
    (lowWord_mod (.uint w) v).trans (congrArg (v % ·) (Int.natCast_pow 2 w.bits))
  have hread : ∀ n, (truncate (.uint w) n).toInt? = if n % Nat.pow 2 w.bits < Nat.pow 2 127 then
      some ((n % Nat.pow 2 w.bits : Nat) : Int) else none := fun _ => rfl
  have hsmall : (v % Nat.pow 2 128).toNat % Nat.pow 2 w.bits < Nat.pow 2 127 ↔
      v % 2 ^ w.bits < 2 ^ 127 := by
    rw [← hlow, ← Int.ofNat_lt]
    exact Iff.rfl
  rw [hread, hlow]
  simp only [hsmall]

/-- **A constant is made of just those integers that its type represents**, of those that are below
the unsigned ones that no signed word holds. -/
theorem exists_ofInt?_iff (upper : v < 2 ^ 127) :
    (∃ c, ofInt? ty v = some c) ↔ ty.Represents v := by
  have hmade : (∃ c, ofInt? ty v = some c) ↔
      (truncate ty (v % Nat.pow 2 128).toNat).toInt? = some v := by
    simp [ofInt?]
  rw [hmade]
  cases ty with
  | bool => simp [toInt?, truncate, ScalarType.Represents]
  | float w => simp [toInt?, truncate, ScalarType.Represents]
  | sint w =>
    have hpos : 0 < Nat.pow 2 w.bits := Nat.two_pow_pos _
    rw [toInt?_low_sint, Option.some.injEq, Int.bmod_eq_iff hpos, Int.sub_self]
    cases w <;> simp [ScalarType.Represents, IntWidth.bits]
  | uint w =>
    have hpos : (0 : Int) < 2 ^ w.bits := Int.pow_pos (by decide)
    rw [toInt?_low_uint]
    constructor
    · intro h
      split at h
      · rw [← Option.some.inj h]
        exact ⟨Int.emod_nonneg _ (Int.ne_of_gt hpos), Int.emod_lt_of_pos _ hpos⟩
      · cases h
    · rintro ⟨hnonneg, hlt⟩
      rw [Int.emod_eq_of_lt hnonneg hlt, if_pos upper]

/-- An integer constant stands for a natural number iff the integer is not negative. -/
theorem toNat?_of_toInt? (h : c.toInt? = some v) :
    c.toNat? = if 0 ≤ v then some v.toNat else none := by
  obtain ⟨ty, bits, hlt⟩ := c
  cases ty with
  | bool => cases h
  | float w => cases h
  | sint w => simp only [toNat?, h]
  | uint w =>
    simp only [toInt?] at h
    split at h <;> cases h
    simp [toNat?]

/-- An integer constant that stands for no signed integer of 128 bits is unsigned, takes 128 bits
and has its highest bit set. -/
theorem toInt?_eq_none_iff (hc : c.ty.isInt = true) :
    c.toInt? = none ↔ c.ty = .uint .w128 ∧ 2 ^ 127 ≤ c.bits := by
  obtain ⟨ty, bits, hlt⟩ := c
  cases ty with
  | bool => cases hc
  | float w => cases hc
  | sint w => simp [toInt?]
  | uint w =>
    have hread : (⟨.uint w, bits, hlt⟩ : Scalar).toInt? =
      if bits < Nat.pow 2 127 then some (bits : Int) else none := rfl
    rw [hread]
    cases w <;> simp [ScalarType.width, IntWidth.bits] at hlt ⊢ <;> omega

/-- There is a constant of all bits that fit. -/
theorem exists_ofBits?_iff : (∃ c, ofBits? ty b = some c) ↔ b < 2 ^ ty.width := by
  constructor
  · rintro ⟨c, hc⟩
    obtain ⟨rfl, rfl⟩ := ofBits?_eq_some_iff.1 hc
    exact c.bits_lt
  · intro hlt
    exact ⟨⟨ty, b, hlt⟩, ofBits?_eq_some_iff.2 ⟨rfl, rfl⟩⟩

/-- Bits are refused iff they do not fit. -/
theorem ofBits?_eq_none_iff : ofBits? ty b = none ↔ 2 ^ ty.width ≤ b := by
  rw [← Nat.not_lt, ← exists_ofBits?_iff, ← Option.isSome_iff_exists, Option.not_isSome_iff_eq_none]

/-- One of the two constructors from bits faults iff the other one has no result. -/
theorem exists_ofBits_error_iff : (∃ f, ofBits ty b = .error f) ↔ ofBits? ty b = none := by
  rw [ofBits_eq]
  cases ofBits? ty b <;> simp

end Scalar

/-! ## Words -/

/-- The bits of a constant, as they are computed with. -/
abbrev Word := BitVec 128

namespace Word

/-- Shifts a word to the left, by less than its width. -/
def shl? (x : Word) (n : Nat) : Option Word := if n < 128 then some (x <<< n) else none

/-- Shifts a word to the right, by less than its width, and fills in zeros. -/
def shr? (x : Word) (n : Nat) : Option Word := if n < 128 then some (x >>> n) else none

/-- Shifts a word to the right, by less than its width, and fills in its sign. -/
def sar? (x : Word) (n : Nat) : Option Word := if n < 128 then some (x.sshiftRight n) else none

/-- All ones that are left of a word which has been shifted to the right. -/
theorem toNat_allOnes_shiftRight {w : Nat} (h : w ≤ 128) :
    (BitVec.allOnes 128 >>> (128 - w)).toNat = 2 ^ w - 1 := by
  rw [BitVec.toNat_ushiftRight, BitVec.toNat_allOnes]
  apply Nat.eq_of_testBit_eq
  intro i
  rw [Nat.testBit_shiftRight, Nat.testBit_two_pow_sub_one, Nat.testBit_two_pow_sub_one,
    decide_eq_decide]
  omega

/-- An integer in two's complement stays one when both it and its modulus are scaled. -/
theorem bmod_mul_two_pow (x : Int) (m k : Nat) :
    (x * 2 ^ k).bmod (2 ^ (m + 1 + k)) = x.bmod (2 ^ (m + 1)) * 2 ^ k := by
  generalize hr : x.bmod (2 ^ (m + 1)) = r
  obtain ⟨hlower, hupper, q, hq⟩ := (Int.bmod_eq_iff (Nat.two_pow_pos _)).1 hr
  have hscale : (0 : Int) < 2 ^ k := Int.pow_pos (by decide)
  have hhalf : ((2 ^ (m + 1) : Nat) : Int) = 2 * 2 ^ m := by
    rw [Int.natCast_pow, Int.pow_succ, Int.mul_comm]
    rfl
  have hwhole : ((2 ^ (m + 1 + k) : Nat) : Int) = 2 * (2 ^ m * 2 ^ k) := by
    rw [Nat.pow_add, Int.natCast_mul, hhalf, Int.mul_assoc, Int.natCast_pow]
    rfl
  rw [hhalf] at hlower hupper hq
  have hbelow : -2 ^ m * 2 ^ k ≤ r * 2 ^ k :=
    Int.mul_le_mul_of_nonneg_right (by omega) (Int.le_of_lt hscale)
  have habove : r * 2 ^ k < 2 ^ m * 2 ^ k := Int.mul_lt_mul_of_pos_right (by omega) hscale
  rw [Int.neg_mul] at hbelow
  refine (Int.bmod_eq_iff (Nat.two_pow_pos _)).2 ⟨?_, ?_, q, ?_⟩
  · rw [hwhole]
    omega
  · rw [hwhole]
    omega
  · rw [hwhole, ← Int.sub_mul, hq]
    ring

/-- Bits that are shifted to the upper end of a word and back are read in two's complement. -/
theorem toInt_shift_pair {w x : Nat} (hpos : 0 < w) (hle : w ≤ 128) (hx : x < 2 ^ w) :
    ((BitVec.ofNat 128 x <<< (128 - w)).sshiftRight (128 - w)).toInt =
      (x : Int).bmod (2 ^ w) := by
  obtain ⟨m, rfl⟩ : ∃ m, w = m + 1 := ⟨w - 1, by omega⟩
  obtain ⟨k, hk⟩ : ∃ k, 128 = m + 1 + k := ⟨128 - (m + 1), by omega⟩
  have hspare : 128 - (m + 1) = k := by omega
  have hfits : x % 2 ^ 128 = x :=
    Nat.mod_eq_of_lt (Nat.lt_of_lt_of_le hx (Nat.pow_le_pow_right (by decide) hle))
  have hshifted : ((x <<< k : Nat) : Int).bmod (2 ^ 128) =
      (x : Int).bmod (2 ^ (m + 1)) * 2 ^ k := by
    rw [Nat.shiftLeft_eq, Int.natCast_mul, Int.natCast_pow, hk]
    exact bmod_mul_two_pow x m k
  rw [hspare, BitVec.toInt_sshiftRight, BitVec.toInt_shiftLeft, BitVec.toNat_ofNat, hfits,
    hshifted, Int.shiftRight_eq_div_pow]
  exact Int.mul_ediv_cancel _ (Int.ne_of_gt (Int.pow_pos (by decide)))

end Word

/-- The number of bits of a word that a type does not take; no type takes more than there are. -/
def ScalarType.spare? (ty : ScalarType) : Option Nat :=
  if ty.width ≤ 128 then some (128 - ty.width) else none

theorem ScalarType.spare?_eq (ty : ScalarType) :
    ty.spare? = some (128 - ty.width) ∧ 128 - ty.width < 128 := by
  have hpos := ty.width_pos
  exact ⟨if_pos ty.width_le, by omega⟩

namespace Scalar

/-- Keeps the bits of a word that a type takes, by a mask. -/
def keep? (ty : ScalarType) (bits : Word) : Option Word := do
  let mask ← Word.shr? (BitVec.allOnes 128) (← ty.spare?)
  return bits &&& mask

/-- Sign-extends the bits that a type takes to a word, by a pair of shifts. -/
def signed? (ty : ScalarType) (bits : Word) : Option Word := do
  let spare ← ty.spare?
  Word.sar? (← Word.shl? bits spare) spare

/-- The text of a constant, written by way of what it stands for. -/
def written? (c : Scalar) : Option String :=
  match c.ty with
  | .bool => some (toString (c.bits != 0))
  | .sint _ => do return toString (← c.toInt?) ++ c.ty.name
  | .uint _ => do return toString (← c.toNat?) ++ c.ty.name
  | .float _ => do return (← c.toBinary64?).text ++ c.ty.name

/-- **Cutting bits off never shifts too far**, and keeps the bits of the constant. -/
theorem keep?_eq (ty : ScalarType) (bits : Word) :
    keep? ty bits = some (.ofNat 128 (truncate ty bits.toNat).bits) := by
  obtain ⟨hspare, hlt⟩ := ty.spare?_eq
  have hkeep : bits &&& (BitVec.allOnes 128 >>> (128 - ty.width)) =
      .ofNat 128 (truncate ty bits.toNat).bits := by
    apply BitVec.eq_of_toNat_eq
    rw [BitVec.toNat_and, Word.toNat_allOnes_shiftRight ty.width_le,
      Nat.and_two_pow_sub_one_eq_mod, BitVec.toNat_ofNat]
    exact (Nat.mod_eq_of_lt (Nat.lt_of_le_of_lt (Nat.mod_le ..) bits.isLt)).symm
  simp only [keep?, hspare, Word.shr?, if_pos hlt, Option.bind_eq_bind, Option.bind_some, hkeep,
    Option.pure_def]

/-- **Sign extension never shifts too far**, and gives the integer that the constant stands for. -/
theorem signed?_eq {c : Scalar} {w : IntWidth} (hc : c.ty = .sint w) : ∃ x,
    signed? c.ty (.ofNat 128 c.bits) = some x ∧ c.toInt? = some x.toInt := by
  obtain ⟨hspare, hlt⟩ := c.ty.spare?_eq
  refine ⟨(BitVec.ofNat 128 c.bits <<< (128 - c.ty.width)).sshiftRight (128 - c.ty.width), ?_, ?_⟩
  · simp only [signed?, hspare, Word.shl?, Word.sar?, if_pos hlt, Option.bind_eq_bind,
      Option.bind_some]
  · rw [Word.toInt_shift_pair c.ty.width_pos c.ty.width_le c.bits_lt]
    simp only [toInt?, hc]
    rfl

/-- **Writing a constant never fails.** -/
theorem written?_eq (c : Scalar) : c.written? = some c.text := by
  obtain ⟨ty, bits, hlt⟩ := c
  cases ty with
  | bool =>
    by_cases hb : bits = 0
    · simp only [written?, text, hb]
      rfl
    · have hne : (bits != 0) = true := by simpa using hb
      simp only [written?, text, hne, if_neg hb]
      rfl
  | sint w => rfl
  | uint w => rfl
  | float w => cases w <;> rfl

/-- **Integer constants are exact at every width.**  Of an integer below `2 ^ 127` there is a
constant of just those types that represent it; it is of the wanted type, and stands for that
integer, as a natural number too if it is not negative.  A constant that stands for an integer is
the one that is made of it, and only unsigned constants of 128 bits from `2 ^ 127` up stand for
none.  No constant has bits beyond the width of its type, and the two constructors from bits refuse
just those that do not fit.  On words no shift goes too far, neither to cut a constant off nor to
extend its sign, and no constant is without a text. -/
theorem integers_exact :
    (∀ ty v, v < 2 ^ 127 → ((∃ c, ofInt? ty v = some c) ↔ ty.Represents v)) ∧
    (∀ ty v c, ofInt? ty v = some c → c.ty = ty ∧ c.toInt? = some v ∧
      c.toNat? = if 0 ≤ v then some v.toNat else none) ∧
    (∀ c v, c.toInt? = some v → ofInt? c.ty v = some c) ∧
    (∀ c : Scalar, c.ty.isInt = true → c.toInt? = none → c.ty = .uint .w128 ∧ 2 ^ 127 ≤ c.bits) ∧
    (∀ c : Scalar, c.bits < 2 ^ c.ty.width) ∧
    (∀ ty b, ((∃ f, ofBits ty b = .error f) ↔ ofBits? ty b = none) ∧
      (ofBits? ty b = none ↔ 2 ^ ty.width ≤ b)) ∧
    (∀ w, IntWidth.ofBits? w.bits = some w) ∧
    (∀ w, FloatWidth.ofBits? w.bits = some w) ∧
    (∀ ty (b : Word), keep? ty b = some (.ofNat 128 (truncate ty b.toNat).bits)) ∧
    (∀ (c : Scalar) w, c.ty = .sint w →
      ∃ x, signed? c.ty (.ofNat 128 c.bits) = some x ∧ c.toInt? = some x.toInt) ∧
    (∀ c : Scalar, c.written? = some c.text) := by
  refine ⟨fun ty v => exists_ofInt?_iff, fun ty v c h => ?_, fun c v h => ?_, fun c hc => ?_,
    bits_lt, fun ty b => ⟨exists_ofBits_error_iff, ofBits?_eq_none_iff⟩,
    fun w => IntWidth.ofBits?_eq_some_iff.2 rfl, fun w => FloatWidth.ofBits?_eq_some_iff.2 rfl,
    keep?_eq, fun c w => signed?_eq, written?_eq⟩
  · obtain ⟨hty, hv⟩ := ofInt?_eq_some_iff.1 h
    exact ⟨hty, hv, toNat?_of_toInt? hv⟩
  · exact ofInt?_eq_some_iff.2 ⟨rfl, h⟩
  · exact (toInt?_eq_none_iff hc).1

/-- The least signed integer of eight bits has a constant, and the one below it has none.  The
unsigned constant with the highest of 128 bits stands for no signed integer. -/
theorem integers_exact_at_limits :
    (∃ c, ofInt? (.sint .w8) (-128) = some c ∧ c.toInt? = some (-128) ∧ c.toNat? = none ∧
      ofInt? c.ty (-128) = some c ∧ ∃ x, signed? c.ty (.ofNat 128 c.bits) = some x) ∧
    (¬ ∃ c, ofInt? (.sint .w8) (-129) = some c) ∧
    2 ^ 127 ≤ (truncate (.uint .w128) (2 ^ 127)).bits := by
  obtain ⟨hmade, hexact, hback, hnone, -, -, -, -, -, hsigned, -⟩ := integers_exact
  obtain ⟨c, hc⟩ := (hmade (.sint .w8) (-128) (by decide)).2 ⟨by decide, by decide⟩
  obtain ⟨hty, hv, hn⟩ := hexact _ _ c hc
  obtain ⟨x, hx, -⟩ := hsigned c .w8 hty
  refine ⟨⟨c, hc, hv, hn, hback c _ hv, x, hx⟩, fun h => ?_, ?_⟩
  · exact absurd ((hmade (.sint .w8) (-129) (by decide)).1 h).1 (by decide)
  · exact (hnone (truncate (.uint .w128) (2 ^ 127)) rfl (by decide)).2

end Scalar

end ShaderIR
