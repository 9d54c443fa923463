import Mathlib.Algebra.Order.Field.Power
import Mathlib.Tactic.FieldSimp
import Mathlib.Tactic.Linarith
import Mathlib.Tactic.NormNum
import Mathlib.Tactic.Positivity
import Mathlib.Tactic.Ring
import ShaderIR.Decimal.Binary

/-!
# What the encodings of a binary format stand for

* `magnitude`: the number `m · 2 ^ q`.
* `BinaryFormat.Canonical`: the mantissa and exponent that a format has for a number.

Principal statements: `Canonical.unique` (a format has one mantissa and exponent for a number),
`BinaryFormat.decode_injective` (two encodings that are numbers, or infinite, stand for different
ones), `BinaryFormat.decode_encode` (encoding keeps a number that the format represents) and
`BinaryFormat.Within.injective` (what is read of a narrower format is known from what it is in a
wider one).
-/

namespace ShaderIR

/-- The number `m · 2 ^ q`. -/
def magnitude (m : Nat) (q : Int) : ℚ := m * 2 ^ q

theorem magnitude_add (m : Nat) (q : Int) (k : Nat) :
    magnitude m (q + k) = magnitude (m * 2 ^ k) q := by
  unfold magnitude
  rw [zpow_add₀ (by norm_num), zpow_natCast]
  push_cast
  ring

theorem magnitude_eq_zero {m : Nat} {q : Int} : magnitude m q = 0 ↔ m = 0 := by
  have hpos : (0 : ℚ) < 2 ^ q := by positivity
  simp [magnitude, hpos.ne']

theorem magnitude_lt {m m' : Nat} {q : Int} : magnitude m q < magnitude m' q ↔ m < m' := by
  have hpos : (0 : ℚ) < 2 ^ q := by positivity
  rw [magnitude, magnitude, mul_lt_mul_iff_left₀ hpos, Nat.cast_lt]

namespace BinaryFormat

variable {f : BinaryFormat} {m m' : Nat} {q q' : Int} {s s' : Bool} {bits bits' : Nat}

/-- The mantissa and exponent that a format has for a number: a leading bit is there, unless the
exponent is the least. -/
structure Canonical (f : BinaryFormat) (m : Nat) (q : Int) : Prop where
  fits : m < 2 ^ (f.fractionBits + 1)
  least : f.minExponent ≤ q
  leading : 2 ^ f.fractionBits ≤ m ∨ q = f.minExponent

/-- A greater exponent is that of a greater number. -/
theorem Canonical.magnitude_lt_of_lt (h : f.Canonical m q) (h' : f.Canonical m' q') (hq : q < q') :
    magnitude m q < magnitude m' q' := by
  have hleading : 2 ^ f.fractionBits ≤ m' := by
    rcases h'.leading with hm | hmin
    · exact hm
    · have := h.least
      omega
  obtain ⟨k, rfl⟩ : ∃ k : Nat, q' = q + (k + 1 : Nat) := ⟨(q' - q - 1).toNat, by omega⟩
  rw [magnitude_add, magnitude_lt]
  calc m < 2 ^ f.fractionBits * 2 := h.fits
    _ ≤ m' * 2 := by omega
    _ ≤ m' * 2 ^ (k + 1) :=
      Nat.mul_le_mul_left _ (by rw [pow_succ]; have := Nat.two_pow_pos k; omega)

/-- **A format has one mantissa and exponent for a number.** -/
theorem Canonical.unique (h : f.Canonical m q) (h' : f.Canonical m' q')
    (heq : magnitude m q = magnitude m' q') : m = m' ∧ q = q' := by
  rcases lt_trichotomy q q' with hq | rfl | hq
  · exact absurd heq (h.magnitude_lt_of_lt h' hq).ne
  · refine ⟨?_, rfl⟩
    rcases lt_trichotomy m m' with hm | hm | hm
    · exact absurd heq (magnitude_lt.2 hm).ne
    · exact hm
    · exact absurd heq (magnitude_lt.2 hm).ne'
  · exact absurd heq (h'.magnitude_lt_of_lt h hq).ne'

/-! ## Fields -/

/-- The exponent field of an encoding. -/
def exponentField (f : BinaryFormat) (bits : Nat) : Nat :=
  bits / 2 ^ f.fractionBits % 2 ^ f.exponentBits

/-- The fraction field of an encoding. -/
def fractionField (f : BinaryFormat) (bits : Nat) : Nat := bits % 2 ^ f.fractionBits

/-- The sign bit of an encoding. -/
def signField (f : BinaryFormat) (bits : Nat) : Bool :=
  bits.testBit (f.exponentBits + f.fractionBits)

theorem decode_eq (f : BinaryFormat) (bits : Nat) : f.decode bits =
    if f.exponentField bits = 2 ^ f.exponentBits - 1 then
      if f.fractionField bits = 0 then .infinite (f.signField bits) else .nan
    else if f.exponentField bits = 0 then
      .finite (f.signField bits) (f.fractionField bits) f.minExponent
    else
      .finite (f.signField bits) (2 ^ f.fractionBits + f.fractionField bits)
        (f.minExponent + (f.exponentField bits - 1 : Nat)) :=
  rfl

theorem fractionField_lt (f : BinaryFormat) (bits : Nat) :
    f.fractionField bits < 2 ^ f.fractionBits :=
  Nat.mod_lt _ (Nat.two_pow_pos _)

theorem exponentField_lt (f : BinaryFormat) (bits : Nat) :
    f.exponentField bits < 2 ^ f.exponentBits :=
  Nat.mod_lt _ (Nat.two_pow_pos _)

/-- The fields of an encoding that has been put together. -/
theorem fields_assemble {e r : Nat} (he : e < 2 ^ f.exponentBits) (hr : r < 2 ^ f.fractionBits) :
    f.signField (f.assemble s e r) = s ∧ f.exponentField (f.assemble s e r) = e ∧
      f.fractionField (f.assemble s e r) = r := by
  have hassemble : f.assemble s e r =
      (s.toNat * 2 ^ f.exponentBits + e) * 2 ^ f.fractionBits + r := by
    cases s <;> simp [assemble, pow_add, add_mul]
  have hdiv : f.assemble s e r / 2 ^ f.fractionBits = s.toNat * 2 ^ f.exponentBits + e := by
    rw [hassemble, Nat.add_comm, Nat.add_mul_div_right _ _ (Nat.two_pow_pos _),
      Nat.div_eq_of_lt hr, Nat.zero_add]
  refine ⟨?_, ?_, ?_⟩
  · rw [signField, Nat.testBit_eq_decide_div_mod_eq, pow_add, Nat.mul_comm,
      ← Nat.div_div_eq_div_mul, hdiv, Nat.add_comm, Nat.add_mul_div_right _ _ (Nat.two_pow_pos _),
      Nat.div_eq_of_lt he]
    cases s <;> rfl
  · rw [exponentField, hdiv, Nat.add_comm, Nat.add_mul_mod_self_right, Nat.mod_eq_of_lt he]
  · rw [fractionField, hassemble, Nat.add_comm, Nat.add_mul_mod_self_right, Nat.mod_eq_of_lt hr]

/-- An encoding is known from its fields. -/
theorem eq_of_fields (hb : bits < 2 ^ (f.exponentBits + f.fractionBits + 1))
    (hb' : bits' < 2 ^ (f.exponentBits + f.fractionBits + 1))
    (hs : f.signField bits = f.signField bits') (he : f.exponentField bits = f.exponentField bits')
    (hr : f.fractionField bits = f.fractionField bits') : bits = bits' := by
  have hsplit : ∀ b, b < 2 ^ (f.exponentBits + f.fractionBits + 1) →
      b = 2 ^ f.fractionBits * (2 ^ f.exponentBits * (f.signField b).toNat + f.exponentField b) +
        f.fractionField b := by
    intro b hb
    have htop : b / 2 ^ f.fractionBits / 2 ^ f.exponentBits < 2 := by
      rw [Nat.div_div_eq_div_mul, ← pow_add, Nat.add_comm f.fractionBits]
      exact Nat.div_lt_of_lt_mul (by rwa [← pow_succ])
    have hsign : (f.signField b).toNat = b / 2 ^ f.fractionBits / 2 ^ f.exponentBits := by
      rw [signField, Nat.testBit_eq_decide_div_mod_eq, pow_add, Nat.mul_comm,
        ← Nat.div_div_eq_div_mul]
      generalize b / 2 ^ f.fractionBits / 2 ^ f.exponentBits = t at htop ⊢
      obtain rfl | rfl : t = 0 ∨ t = 1 := by omega
      · rfl
      · rfl
    rw [hsign, exponentField, fractionField, Nat.div_add_mod, Nat.div_add_mod]
  rw [hsplit bits hb, hsplit bits' hb', hs, he, hr]

/-! ## Reading and writing -/

/-- What is read from an encoding is canonical. -/
theorem canonical_of_decode (h : f.decode bits = .finite s m q) : f.Canonical m q := by
  have hfraction := f.fractionField_lt bits
  rw [decode_eq] at h
  split at h
  · split at h <;> cases h
  · split at h
    · cases h
      exact ⟨by rw [pow_succ]; omega, le_refl _, .inr rfl⟩
    · cases h
      refine ⟨by rw [pow_succ]; omega, by omega, .inl (Nat.le_add_right _ _)⟩

theorem exponent_le_of_decode (h : f.decode bits = .finite s m q) :
    q ≤ f.minExponent + (2 ^ f.exponentBits - 3 : Nat) := by
  have hexponent := f.exponentField_lt bits
  rw [decode_eq] at h
  split at h
  · split at h <;> cases h
  · split at h
    · cases h
      omega
    · cases h
      omega

/-- **Two encodings that are numbers, or infinite, stand for different ones.** -/
theorem decode_injective (hb : bits < 2 ^ (f.exponentBits + f.fractionBits + 1))
    (hb' : bits' < 2 ^ (f.exponentBits + f.fractionBits + 1)) (hnan : f.decode bits ≠ .nan)
    (h : f.decode bits = f.decode bits') : bits = bits' := by
  have hr := f.fractionField_lt bits
  have hr' := f.fractionField_lt bits'
  suffices hfields : f.signField bits = f.signField bits' ∧
      f.exponentField bits = f.exponentField bits' ∧
      f.fractionField bits = f.fractionField bits' from
    eq_of_fields hb hb' hfields.1 hfields.2.1 hfields.2.2
  rw [decode_eq] at h hnan
  rw [decode_eq] at h
  split_ifs at h hnan <;>
    simp only [ne_eq, not_true_eq_false, not_false_eq_true, reduceCtorEq, Encoded.infinite.injEq,
      Encoded.finite.injEq] at h hnan
  all_goals first | exact ⟨h.1, by omega, by omega⟩ | exact ⟨h, by omega, by omega⟩

/-- Reading what has been put together, if it is not infinite. -/
theorem decode_assemble {e r : Nat} (he : e + 1 < 2 ^ f.exponentBits)
    (hr : r < 2 ^ f.fractionBits) :
    f.decode (f.assemble s e r) = if e = 0 then .finite s r f.minExponent
      else .finite s (2 ^ f.fractionBits + r) (f.minExponent + (e - 1 : Nat)) := by
  have hfits : e < 2 ^ f.exponentBits := by omega
  obtain ⟨hsign, hexponent, hfraction⟩ := f.fields_assemble (s := s) hfits hr
  rw [decode_eq, hsign, hexponent, hfraction, if_neg (by omega)]

/-- The mantissa has been moved left until its leading bit is the implied one. -/
theorem shifted_bounds (hm : m < 2 ^ (f.fractionBits + 1)) (hpos : m ≠ 0) :
    2 ^ f.fractionBits ≤ m * 2 ^ (f.fractionBits - m.log2) ∧
      m * 2 ^ (f.fractionBits - m.log2) < 2 ^ (f.fractionBits + 1) := by
  have hlog : m.log2 < f.fractionBits + 1 := (Nat.log2_lt hpos).2 hm
  have hlow := Nat.log2_self_le hpos
  have hhigh : m < 2 ^ (m.log2 + 1) := Nat.lt_log2_self
  have hfb : f.fractionBits = m.log2 + (f.fractionBits - m.log2) := by omega
  constructor
  · calc 2 ^ f.fractionBits = 2 ^ m.log2 * 2 ^ (f.fractionBits - m.log2) := by
          rw [← pow_add, ← hfb]
      _ ≤ m * 2 ^ (f.fractionBits - m.log2) := Nat.mul_le_mul_right _ hlow
  · calc m * 2 ^ (f.fractionBits - m.log2)
        < 2 ^ (m.log2 + 1) * 2 ^ (f.fractionBits - m.log2) :=
          Nat.mul_lt_mul_of_pos_right hhigh (Nat.two_pow_pos _)
      _ = 2 ^ (f.fractionBits + 1) := by
          rw [← pow_add]
          congr 1
          omega

/-- **Encoding keeps a number that the format represents.** -/
theorem decode_encode (hm : m < 2 ^ (f.fractionBits + 1)) (hq : f.minExponent ≤ q)
    (hq' : (q - f.minExponent).toNat + 2 < 2 ^ f.exponentBits) :
    ∃ m' q', f.decode (f.encode (.finite s m q)) = .finite s m' q' ∧
      magnitude m' q' = magnitude m q := by
  obtain ⟨spare, rfl⟩ : ∃ spare : Nat, q = f.minExponent + spare :=
    ⟨(q - f.minExponent).toNat, by omega⟩
  have hspare : (f.minExponent + spare - f.minExponent).toNat = spare := by omega
  rw [hspare] at hq'
  by_cases hzero : m = 0
  · refine ⟨0, f.minExponent, ?_, by rw [magnitude_eq_zero.2 rfl, magnitude_eq_zero.2 hzero]⟩
    rw [encode, if_pos hzero, decode_assemble (by omega) (Nat.two_pow_pos _), if_pos rfl]
  obtain ⟨hlow, hhigh⟩ := f.shifted_bounds hm hzero
  simp only [encode, if_neg hzero, hspare, Nat.pow_eq]
  generalize hshift : min (f.fractionBits - m.log2) spare = shift
  have hle : shift ≤ spare := by omega
  split
  · -- there is no leading bit, as the least exponent has been reached
    rename_i hsmall
    have hall : shift = spare := by
      by_contra hne
      have hfull : shift = f.fractionBits - m.log2 := by omega
      rw [hfull] at hsmall
      omega
    refine ⟨m * 2 ^ spare, f.minExponent, ?_, (magnitude_add m f.minExponent spare).symm⟩
    rw [hall] at hsmall ⊢
    rw [decode_assemble (by omega) hsmall, if_pos rfl]
  · rename_i hlarge
    have hfits : m * 2 ^ shift < 2 ^ (f.fractionBits + 1) := by
      refine lt_of_le_of_lt (Nat.mul_le_mul_left m ?_) hhigh
      exact Nat.pow_le_pow_right (by decide) (by omega)
    rw [pow_succ] at hfits
    refine ⟨m * 2 ^ shift, f.minExponent + (spare - shift : Nat), ?_, ?_⟩
    · rw [decode_assemble (by omega) (by omega), if_neg (by omega)]
      congr 1
      omega
    · rw [← magnitude_add]
      congr 1
      omega

theorem decode_encode_infinite : f.decode (f.encode (.infinite s)) = .infinite s := by
  have htop : 2 ^ f.exponentBits - 1 < 2 ^ f.exponentBits := by
    have := Nat.two_pow_pos f.exponentBits
    omega
  obtain ⟨hsign, hexponent, hfraction⟩ :=
    f.fields_assemble (s := s) htop (Nat.two_pow_pos f.fractionBits)
  show f.decode (f.assemble s (2 ^ f.exponentBits - 1) 0) = _
  rw [decode_eq, hsign, hexponent, hfraction, if_pos rfl, if_pos rfl]

/-! ## Wider formats -/

/-- A format represents all that another does. -/
structure Within (f g : BinaryFormat) : Prop where
  mantissa : f.fractionBits ≤ g.fractionBits
  least : g.minExponent ≤ f.minExponent
  greatest : f.minExponent + (2 ^ f.exponentBits - 3 : Nat) + 2 < g.minExponent + 2 ^ g.exponentBits

/-- **What is read of a narrower format can be told from what it is in a wider one.** -/
theorem Within.injective {g : BinaryFormat} (h : f.Within g)
    (hb : bits < 2 ^ (f.exponentBits + f.fractionBits + 1))
    (hb' : bits' < 2 ^ (f.exponentBits + f.fractionBits + 1))
    (hnan : f.decode bits ≠ .nan) (hnan' : f.decode bits' ≠ .nan)
    (heq : g.decode (g.encode (f.decode bits)) = g.decode (g.encode (f.decode bits'))) :
    bits = bits' := by
  have hkeeps : ∀ {b s m q}, f.decode b = .finite s m q → f.Canonical m q ∧
      ∃ m' q', g.decode (g.encode (.finite s m q)) = .finite s m' q' ∧
        magnitude m' q' = magnitude m q := by
    intro b s m q hdecode
    have hcanonical := canonical_of_decode hdecode
    have hle := exponent_le_of_decode hdecode
    have hgreatest := h.greatest
    have hleast := hcanonical.least
    have hmin := h.least
    have hpow : ((2 ^ g.exponentBits : Nat) : Int) = 2 ^ g.exponentBits := by push_cast; rfl
    refine ⟨hcanonical, decode_encode (lt_of_lt_of_le hcanonical.fits ?_) (by omega) (by omega)⟩
    exact Nat.pow_le_pow_right (by decide) (Nat.succ_le_succ h.mantissa)
  apply decode_injective hb hb' hnan
  cases hv : f.decode bits with
  | nan => exact absurd hv hnan
  | infinite s =>
    rw [hv, decode_encode_infinite] at heq
    cases hv' : f.decode bits' with
    | nan => exact absurd hv' hnan'
    | infinite s' =>
      rw [hv', decode_encode_infinite] at heq
      rw [heq]
    | finite s' m' q' =>
      obtain ⟨-, m₂, q₂, hwide, -⟩ := hkeeps hv'
      rw [hv', hwide] at heq
      cases heq
  | finite s m q =>
    obtain ⟨hcanonical, m₁, q₁, hwide, hsame⟩ := hkeeps hv
    rw [hv, hwide] at heq
    cases hv' : f.decode bits' with
    | nan => exact absurd hv' hnan'
    | infinite s' =>
      rw [hv', decode_encode_infinite] at heq
      cases heq
    | finite s' m' q' =>
      obtain ⟨hcanonical', m₂, q₂, hwide', hsame'⟩ := hkeeps hv'
      rw [hv', hwide'] at heq
      cases heq
      obtain ⟨rfl, rfl⟩ := hcanonical.unique hcanonical' (hsame.symm.trans hsame')
      rfl

theorem binary16_within : binary16.Within binary64 := ⟨by decide, by decide, by decide⟩

theorem binary32_within : binary32.Within binary64 := ⟨by decide, by decide, by decide⟩

theorem binary64_within : binary64.Within binary64 := ⟨by decide, by decide, by decide⟩

end BinaryFormat

end ShaderIR
