import ShaderIR.Proofs.Decimal.Shortest

/-!
# The text of a float is that of no other

* `Decimal.read`: the number that is written with a point.

Principal statements: `Decimal.read_positional` (what is read is what has been written) and
`Encoded.text_injective` (two binary64 values have different texts).
-/

namespace ShaderIR

namespace Decimal

/-- The number that is written with some digits, a point and more digits, or without a point. -/
def read (cs : List Char) : ℚ :=
  let places := (cs.dropWhile (· != '.')).tail
  Nat.ofDigitChars 10 (cs.takeWhile (· != '.') ++ places) 0 * 10 ^ (-(places.length : Int))

variable {ws ps : List Char} {c : Char}

theorem bne_point_of_mem (h : '.' ∉ ws) : ∀ c ∈ ws, (c != '.') = true := fun c hc => by
  rw [bne_iff_ne]
  rintro rfl
  exact h hc

theorem read_whole (h : '.' ∉ ws) : read ws = Nat.ofDigitChars 10 ws 0 := by
  have htake : (ws ++ []).takeWhile (· != '.') = ws ++ [] :=
    List.takeWhile_append_of_pos (bne_point_of_mem h)
  have hdrop : (ws ++ []).dropWhile (· != '.') = [] :=
    List.dropWhile_append_of_pos (bne_point_of_mem h)
  rw [List.append_nil] at htake hdrop
  simp [read, htake, hdrop]

theorem read_point (h : '.' ∉ ws) :
    read (ws ++ '.' :: ps) = Nat.ofDigitChars 10 (ws ++ ps) 0 * 10 ^ (-(ps.length : Int)) := by
  have htake : (ws ++ '.' :: ps).takeWhile (· != '.') = ws := by
    rw [List.takeWhile_append_of_pos (bne_point_of_mem h)]
    simp
  have hdrop : (ws ++ '.' :: ps).dropWhile (· != '.') = '.' :: ps := by
    rw [List.dropWhile_append_of_pos (bne_point_of_mem h)]
    simp
  simp only [read, htake, hdrop, List.tail_cons]

theorem isDigit_of_mem {n : Nat} (h : c ∈ Nat.toDigits 10 n) : c.isDigit = true :=
  Nat.isDigit_of_mem_toDigits (by decide) (by decide) h

theorem point_not_mem (n : Nat) : '.' ∉ Nat.toDigits 10 n := fun h => by
  have := isDigit_of_mem h
  revert this
  decide

/-- **What is read is what has been written.** -/
theorem read_positional (d : Decimal) : read d.positional.toList = d.value := by
  have hpoint := point_not_mem d.digits
  unfold positional value
  simp only
  split
  · rename_i hexp
    obtain ⟨k, hk⟩ : ∃ k : Nat, d.exponent = k := ⟨d.exponent.toNat, by omega⟩
    rw [String.toList_ofList, hk, Int.toNat_natCast, read_whole, Nat.ofDigitChars_append,
      Nat.ofDigitChars_ten_toDigits, Nat.ofDigitChars_replicate_zero]
    · rw [zpow_natCast]
      push_cast
      ring
    · simp [hpoint]
  · rename_i hexp
    obtain ⟨k, hk⟩ : ∃ k : Nat, d.exponent = -k := ⟨(-d.exponent).toNat, by omega⟩
    have hplaces : (-d.exponent).toNat = k := by omega
    rw [hplaces, hk]
    split
    · rename_i hinside
      have hlength : ((Nat.toDigits 10 d.digits).drop
          ((Nat.toDigits 10 d.digits).length - k)).length = k := by
        rw [List.length_drop]
        omega
      rw [String.toList_ofList, read_point fun h => hpoint (List.mem_of_mem_take h),
        List.take_append_drop, Nat.ofDigitChars_ten_toDigits, hlength]
    · rename_i hbefore
      have hlength : (List.replicate (k - (Nat.toDigits 10 d.digits).length) '0' ++
          Nat.toDigits 10 d.digits).length = k := by
        rw [List.length_append, List.length_replicate]
        omega
      have hsplit : '0' :: '.' :: List.replicate (k - (Nat.toDigits 10 d.digits).length) '0' ++
          Nat.toDigits 10 d.digits = ['0'] ++ '.' ::
            (List.replicate (k - (Nat.toDigits 10 d.digits).length) '0' ++
              Nat.toDigits 10 d.digits) := rfl
      rw [String.toList_ofList, hsplit, read_point (by decide), hlength, ← List.append_assoc,
        Nat.ofDigitChars_append, Nat.ofDigitChars_append, Nat.ofDigitChars_replicate_zero]
      simp [Nat.ofDigitChars_cons]

/-- A decimal is written with digits and a point, and starts with a digit. -/
theorem mem_positional (d : Decimal) (h : c ∈ d.positional.toList) :
    c.isDigit = true ∨ c = '.' := by
  have hdigits : ∀ {c}, c ∈ Nat.toDigits 10 d.digits → c.isDigit = true := isDigit_of_mem
  unfold positional at h
  simp only at h
  split at h
  · simp only [String.toList_ofList, List.mem_append, List.mem_replicate] at h
    rcases h with h | ⟨-, rfl⟩
    · exact .inl (hdigits h)
    · exact .inl rfl
  · split at h
    · simp only [String.toList_ofList, List.mem_append, List.mem_cons] at h
      rcases h with h | rfl | h
      · exact .inl (hdigits (List.mem_of_mem_take h))
      · exact .inr rfl
      · exact .inl (hdigits (List.mem_of_mem_drop h))
    · simp only [String.toList_ofList, List.mem_append, List.mem_cons, List.cons_append,
        List.mem_replicate] at h
      rcases h with rfl | rfl | ⟨-, rfl⟩ | h
      · exact .inl rfl
      · exact .inr rfl
      · exact .inl rfl
      · exact .inl (hdigits h)

theorem positional_head (d : Decimal) :
    ∃ c cs, d.positional.toList = c :: cs ∧ c.isDigit = true := by
  obtain ⟨c, cs, hcs⟩ := List.exists_cons_of_ne_nil (Nat.toDigits_ne_nil (n := d.digits) (b := 10))
  have hc : c.isDigit = true := isDigit_of_mem (n := d.digits) (by simp [hcs])
  unfold positional
  simp only [hcs]
  split
  · exact ⟨c, _, by rw [String.toList_ofList]; rfl, hc⟩
  · split
    · rename_i hplaces
      obtain ⟨k, hk⟩ : ∃ k, (c :: cs).length - (-d.exponent).toNat = k + 1 :=
        ⟨(c :: cs).length - (-d.exponent).toNat - 1, by omega⟩
      exact ⟨c, _, by rw [String.toList_ofList, hk]; rfl, hc⟩
    · exact ⟨'0', _, by rw [String.toList_ofList]; rfl, rfl⟩

end Decimal

namespace Encoded

open BinaryFormat (binary64)

/-- A number has the mantissa and exponent that binary64 has for it. -/
def Canonical : Encoded → Prop
  | finite _ m q => binary64.Canonical m q
  | _ => True

variable {v v' : Encoded} {s s' : Bool} {c : Char}

theorem canonical_decode (bits : Nat) : (binary64.decode bits).Canonical := by
  cases h : binary64.decode bits with
  | finite s m q => exact BinaryFormat.canonical_of_decode h
  | _ => trivial

/-- What is written of a value behind its sign. -/
inductive Written : Encoded → Bool → List Char → Prop where
  | nan : Written nan false ['N', 'a', 'N']
  | infinite (s : Bool) : Written (infinite s) s ['i', 'n', 'f']
  | finite {s : Bool} {m : Nat} {q : Int} {c : Char} {cs : List Char} (first : c.isDigit = true)
    (plain : ∀ d ∈ c :: cs, d.isDigit = true ∨ d = '.')
    (owned : Decimal.Owned m q (Decimal.read (c :: cs))) : Written (finite s m q) s (c :: cs)

theorem exists_written (v : Encoded) :
    ∃ s cs, v.text.toList = (if s then ['-'] else []) ++ cs ∧ Written v s cs := by
  cases v with
  | nan => exact ⟨false, _, rfl, .nan⟩
  | infinite s => exact ⟨s, _, by cases s <;> rfl, .infinite s⟩
  | finite s m q =>
    have hsign : (if s then "-" else "").toList = if s then ['-'] else [] := by cases s <;> rfl
    unfold text
    simp only [String.toList_append, hsign]
    refine ⟨s, _, rfl, ?_⟩
    by_cases hm : m = 0
    · rw [if_pos hm]
      have hzero : Decimal.read ['0'] = 0 := by
        rw [Decimal.read_whole (by decide)]
        simp [Nat.ofDigitChars_cons]
      refine @Written.finite s m q '0' [] rfl (List.forall_mem_singleton.2 (.inl rfl)) ?_
      rw [hzero, hm, Decimal.Owned, if_pos rfl]
      constructor
      · rw [Nat.mul_zero, Nat.zero_sub, magnitude_eq_zero.2 rfl]
      · unfold magnitude
        positivity
    · rw [if_neg hm]
      obtain ⟨c, cs, hcs, hc⟩ := Decimal.positional_head (Decimal.shortest m q)
      rw [hcs]
      refine .finite hc (fun d hd => ?_) ?_
      · exact Decimal.mem_positional (Decimal.shortest m q) (by rwa [hcs])
      · rw [← hcs, Decimal.read_positional]
        exact Decimal.owned_shortest (by omega) q

/-- A value behind its sign does not start with another sign. -/
theorem Written.head {cs : List Char} (h : Written v s cs) : ∃ c ds, cs = c :: ds ∧ c ≠ '-' := by
  cases h with
  | nan => exact ⟨_, _, rfl, by decide⟩
  | infinite s => exact ⟨_, _, rfl, by decide⟩
  | @finite s m q c cs first _ _ =>
    refine ⟨c, cs, rfl, ?_⟩
    rintro rfl
    cases first

theorem Written.unique {cs : List Char} (h : v.Canonical) (h' : v'.Canonical)
    (hw : Written v s cs) (hw' : Written v' s cs) : v = v' := by
  cases hw with
  | nan =>
    cases hw' with
    | nan => rfl
    | finite first _ _ => cases first
  | infinite s =>
    cases hw' with
    | infinite _ => rfl
    | finite first _ _ => cases first
  | finite first plain owned =>
    cases hw' with
    | nan => cases first
    | infinite _ => cases first
    | finite _ _ owned' =>
      obtain ⟨rfl, rfl⟩ := owned.unique h h' owned'
      rfl

/-- **Two binary64 values have different texts.** -/
theorem text_injective (h : v.Canonical) (h' : v'.Canonical) (heq : v.text = v'.text) : v = v' := by
  obtain ⟨s, cs, htext, hw⟩ := exists_written v
  obtain ⟨s', cs', htext', hw'⟩ := exists_written v'
  rw [heq, htext'] at htext
  obtain ⟨c, ds, rfl, hc⟩ := hw.head
  obtain ⟨c', ds', rfl, hc'⟩ := hw'.head
  obtain ⟨rfl, hsame⟩ : s = s' ∧ c :: ds = c' :: ds' := by
    cases s <;> cases s' <;> simp at htext <;> grind
  rw [← hsame] at hw'
  exact hw.unique h h' hw'

/-- The characters that floats are written with. -/
theorem mem_text (v : Encoded) (h : c ∈ v.text.toList) :
    c.isDigit = true ∨ c ∈ ['.', '-', 'N', 'a', 'i', 'n', 'f'] := by
  obtain ⟨s, cs, htext, hw⟩ := exists_written v
  rw [htext, List.mem_append] at h
  rcases h with h | h
  · cases s with
    | false => cases h
    | true =>
      rw [List.mem_singleton.1 h]
      decide
  · cases hw with
    | nan => exact .inr (by simp at h ⊢; grind)
    | infinite s => exact .inr (by simp at h ⊢; grind)
    | finite _ plain _ =>
      rcases plain c h with hdigit | rfl
      · exact .inl hdigit
      · decide

end Encoded

end ShaderIR
