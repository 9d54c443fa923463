import ShaderIR.Decimal.Shortest
import ShaderIR.Proofs.Decimal.Binary

/-!
# The shortest decimal reads back as the value it was made from

* `Decimal.value`: the number that a decimal stands for.
* `Decimal.Owned`: the numbers that are nearer to a binary64 value than to any other.

Principal statements: `Decimal.owned_shortest` (a value owns its shortest decimal) and
`Decimal.Owned.unique` (no number is owned by two values, so two values have different decimals).
-/

namespace ShaderIR

namespace Decimal

open BinaryFormat (binary64 Canonical)

/-- The number that a decimal stands for. -/
def value (d : Decimal) : ℚ := d.digits * 10 ^ d.exponent

/-- How far down a value reaches, in quarters of its last place. -/
def reach (m : Nat) : Nat := if atBinade m then 1 else 2

/-- The numbers that are nearer to `m · 2 ^ q` than to any other value of the format.  Those
half-way belong to it if `m` is even. -/
def Owned (m : Nat) (q : Int) (x : ℚ) : Prop :=
  if m % 2 = 0 then magnitude (4 * m - reach m) (q - 2) ≤ x ∧ x ≤ magnitude (4 * m + 2) (q - 2)
  else magnitude (4 * m - reach m) (q - 2) < x ∧ x < magnitude (4 * m + 2) (q - 2)

section

variable {m m' : Nat} {q q' p : Int} {x y : ℚ}

theorem Owned.le (h : Owned m q x) :
    magnitude (4 * m - reach m) (q - 2) ≤ x ∧ x ≤ magnitude (4 * m + 2) (q - 2) := by
  unfold Owned at h
  split at h
  · exact h
  · exact ⟨h.1.le, h.2.le⟩

theorem Owned.lt (h : Owned m q x) (hodd : m % 2 = 1) :
    magnitude (4 * m - reach m) (q - 2) < x ∧ x < magnitude (4 * m + 2) (q - 2) := by
  unfold Owned at h
  rwa [if_neg (by omega)] at h

theorem reach_bounds (m : Nat) : 1 ≤ reach m ∧ reach m ≤ 2 := by
  unfold reach
  split <;> omega

/-- A value owns itself. -/
theorem owned_self (hm : 0 < m) : Owned m q (magnitude m q) := by
  have hself : magnitude m q = magnitude (4 * m) (q - 2) := by
    have hshift := magnitude_add m (q - 2) 2
    rw [show q - 2 + (2 : Nat) = q by omega] at hshift
    rw [hshift]
    congr 1
    omega
  obtain ⟨hpos, -⟩ := reach_bounds m
  have hlow : magnitude (4 * m - reach m) (q - 2) < magnitude m q := by
    rw [hself, magnitude_lt]
    omega
  have hhigh : magnitude m q < magnitude (4 * m + 2) (q - 2) := by
    rw [hself, magnitude_lt]
    omega
  unfold Owned
  split
  · exact ⟨hlow.le, hhigh.le⟩
  · exact ⟨hlow, hhigh⟩

/-! ## Units -/

/-- How many of the common units are one. -/
def unit (q p : Int) : ℚ := 2 ^ (2 - q).toNat * 10 ^ (-p).toNat

theorem unit_pos (q p : Int) : 0 < unit q p := by
  unfold unit
  positivity

/-- The part of an exponent above zero, less that below, is the exponent. -/
theorem pow_toNat {b : ℚ} (hb : b ≠ 0) (k : Int) : b ^ k.toNat = b ^ (-k).toNat * b ^ k := by
  rw [← zpow_natCast, ← zpow_natCast, ← zpow_add₀ hb]
  congr 1
  omega

theorem scale_quarter (m : Nat) (q p : Int) :
    ((scale m q p).quarter : ℚ) = unit q p * 2 ^ (q - 2) := by
  simp only [scale, unit, Nat.pow_eq, Nat.cast_mul, Nat.cast_pow, Nat.cast_ofNat]
  rw [pow_toNat (by norm_num) (q - 2), show -(q - 2) = 2 - q by omega]
  ring

theorem scale_step (m : Nat) (q p : Int) : ((scale m q p).step : ℚ) = unit q p * 10 ^ p := by
  simp only [scale, unit, Nat.pow_eq, Nat.cast_mul, Nat.cast_pow, Nat.cast_ofNat]
  rw [pow_toNat (by norm_num) p]
  ring

/-- The value, less a few quarters of its last place or with a few more, in common units. -/
theorem quarters_le (m n d : Nat) (q p : Int) :
    n * (scale m q p).quarter ≤ d * (scale m q p).step ↔ magnitude n (q - 2) ≤ d * 10 ^ p := by
  rw [← Nat.cast_le (α := ℚ), Nat.cast_mul, Nat.cast_mul, scale_quarter, scale_step, magnitude,
    mul_left_comm, mul_left_comm (d : ℚ), mul_le_mul_iff_right₀ (unit_pos q p)]

theorem le_quarters (m n d : Nat) (q p : Int) :
    d * (scale m q p).step ≤ n * (scale m q p).quarter ↔ d * 10 ^ p ≤ magnitude n (q - 2) := by
  rw [← Nat.cast_le (α := ℚ), Nat.cast_mul, Nat.cast_mul, scale_quarter, scale_step, magnitude,
    mul_left_comm, mul_left_comm (n : ℚ), mul_le_mul_iff_right₀ (unit_pos q p)]

/-- **A candidate that reads back is owned.** -/
theorem owned_of_owns {d : Nat} (h : owns m (scale m q p) d = true) : Owned m q (d * 10 ^ p) := by
  have hlow : (scale m q p).value - reach m * (scale m q p).quarter =
      (4 * m - reach m) * (scale m q p).quarter := by rw [Nat.sub_mul]; rfl
  have hhigh : (scale m q p).value + 2 * (scale m q p).quarter =
      (4 * m + 2) * (scale m q p).quarter := by rw [Nat.add_mul]; rfl
  unfold owns at h
  simp only [show (if atBinade m then 1 else 2) = reach m from rfl, hlow, hhigh] at h
  unfold Owned
  split at h
  · rename_i heven
    simp only [Bool.and_eq_true, decide_eq_true_eq] at h
    rw [if_pos heven]
    exact ⟨(quarters_le ..).1 h.1, (le_quarters ..).1 h.2⟩
  · rename_i hodd
    simp only [Bool.and_eq_true, decide_eq_true_eq, ← not_le] at h
    rw [if_neg hodd, ← not_le, ← not_le]
    exact ⟨fun hle => h.1 ((le_quarters ..).2 hle), fun hle => h.2 ((quarters_le ..).2 hle)⟩

theorem owned_onGrid {d : Decimal} (h : onGrid? m q p = some d) : Owned m q d.value := by
  unfold onGrid? at h
  simp only at h
  split at h
  · rename_i hnext
    cases h
    exact owned_of_owns (Bool.and_eq_true_iff.1 hnext).1
  · split at h
    · rename_i hbelow
      cases h
      exact owned_of_owns hbelow
    · cases h

theorem owned_firstGrid {d : Decimal} {n : Nat} (h : firstGrid? m q n p = some d) :
    Owned m q d.value := by
  induction n generalizing p with
  | zero => cases h
  | succ n ih =>
    unfold firstGrid? at h
    split at h
    · rename_i d' hgrid
      cases h
      exact owned_onGrid hgrid
    · exact ih h

theorem value_exact (m : Nat) (q : Int) : (exact m q).value = magnitude m q := by
  have hten : (10 : ℚ) ^ (-((-q).toNat : Int)) = (2 ^ (-q).toNat)⁻¹ * (5 ^ (-q).toNat)⁻¹ := by
    rw [zpow_neg, zpow_natCast, ← mul_inv, ← mul_pow]
    norm_num
  have hfive : (5 : ℚ) ^ (-q).toNat ≠ 0 := by positivity
  have htwo : (2 : ℚ) ^ (-q).toNat ≠ 0 := by positivity
  simp only [value, exact, magnitude, Nat.pow_eq, Nat.cast_mul, Nat.cast_pow, Nat.cast_ofNat, hten]
  rw [pow_toNat (by norm_num) q]
  field_simp

/-- **A value owns its shortest decimal.** -/
theorem owned_shortest (hm : 0 < m) (q : Int) : Owned m q (shortest m q).value := by
  unfold shortest
  cases hgrid : firstGrid? m q 20 (leadingExponent m q + 1) with
  | none =>
    rw [Option.getD_none, value_exact]
    exact owned_self hm
  | some d => exact owned_firstGrid hgrid

/-! ## Owners -/

/-- What a value owns is below what a greater value owns. -/
theorem Owned.lt_of_lt (hc : binary64.Canonical m q) (hc' : binary64.Canonical m' q')
    (h : Owned m q x) (h' : Owned m' q' y) (hlt : magnitude m q < magnitude m' q') : x < y := by
  have hfits : m < 2 ^ 53 := hc.fits
  have hle := hc.least
  -- both reaches in quarters of the last place of the smaller value
  obtain ⟨n, hn, hbelow, hedge⟩ : ∃ n,
      magnitude (4 * m' - reach m') (q' - 2) = magnitude n (q - 2) ∧
      4 * m + 2 ≤ n ∧ (4 * m + 2 = n → m % 2 = 1 ∨ m' % 2 = 1) := by
    rcases lt_trichotomy q q' with hq | rfl | hq
    · have hleading : 2 ^ 52 ≤ m' := by
        rcases hc'.leading with hm | hmin
        · exact hm
        · omega
      obtain ⟨k, rfl⟩ : ∃ k : Nat, q' = q + (k + 1 : Nat) := ⟨(q' - q - 1).toNat, by omega⟩
      refine ⟨(4 * m' - reach m') * 2 ^ (k + 1), ?_, ?_⟩
      · rw [← magnitude_add]
        congr 1
        omega
      · have hreach : 2 ^ 54 - 1 ≤ 4 * m' - reach m' := by
          unfold reach atBinade
          simp only [BinaryFormat.binary64, Nat.pow_eq, beq_iff_eq]
          split <;> omega
        have hgrow : (4 * m' - reach m') * 2 ≤ (4 * m' - reach m') * 2 ^ (k + 1) := by
          apply Nat.mul_le_mul_left
          have := Nat.two_pow_pos k
          rw [pow_succ]
          omega
        omega
    · have hm : m < m' := magnitude_lt.1 hlt
      refine ⟨4 * m' - reach m', rfl, ?_⟩
      obtain ⟨-, hreach⟩ := reach_bounds m'
      omega
    · exact absurd hlt (not_lt.2 (hc'.magnitude_lt_of_lt hc hq).le)
  have hupper := h.le.2
  have hlower := h'.le.1
  rw [hn] at hlower
  rcases Nat.lt_or_eq_of_le hbelow with hstrict | heq
  · exact lt_of_le_of_lt hupper (lt_of_lt_of_le (magnitude_lt.2 hstrict) hlower)
  · -- the half-way point belongs to one of the two at most
    rw [← heq] at hlower hn
    rcases hedge heq with hodd | hodd
    · exact lt_of_lt_of_le (h.lt hodd).2 hlower
    · have hstrict := (h'.lt hodd).1
      rw [hn] at hstrict
      exact lt_of_le_of_lt hupper hstrict

/-- **No number is owned by two values.** -/
theorem Owned.unique (hc : binary64.Canonical m q) (hc' : binary64.Canonical m' q')
    (h : Owned m q x) (h' : Owned m' q' x) : m = m' ∧ q = q' := by
  rcases lt_trichotomy (magnitude m q) (magnitude m' q') with hlt | heq | hlt
  · exact absurd (h.lt_of_lt hc hc' h' hlt) (lt_irrefl x)
  · exact hc.unique hc' heq
  · exact absurd (h'.lt_of_lt hc' hc h hlt) (lt_irrefl x)

end

end Decimal

end ShaderIR
