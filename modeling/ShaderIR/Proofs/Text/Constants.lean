import Mathlib.Data.Bool.AllAny
import ShaderIR.Body.Value
import ShaderIR.Proofs.Decimal.Text
import ShaderIR.Proofs.Text.Unambiguous

/-!
# The text of a constant is that of no other

* `Scalar.number`: what is written of a number before its type.
* `Scalar.NotNan`, `Constant.Plain`: the constants that a text stands for.

Principal statements: `Scalar.text_injective` and `Constant.text_injective` (two constants have
different texts), `Constant.text_head` and `Constant.mem_text` (the characters of a constant).
-/

namespace ShaderIR

namespace ScalarType

variable {ty ty' : ScalarType} {c : Char}

/-- The letter that the name of a type starts with. -/
def letter : ScalarType → Char
  | bool => 'b'
  | sint _ => 'i'
  | uint _ => 'u'
  | float _ => 'f'

theorem toList_name (h : ty ≠ bool) : ty.name.toList = ty.letter :: Nat.toDigits 10 ty.width := by
  cases ty with
  | bool => exact absurd rfl h
  | sint w => simp [name, letter, width]
  | uint w => simp [name, letter, width]
  | float w => simp [name, letter, width]

theorem not_isDigit_letter (ty : ScalarType) : ty.letter.isDigit = false := by
  cases ty <;> rfl

/-- A type is known from its letter and its width. -/
theorem eq_of_letter (hletter : ty.letter = ty'.letter) (hwidth : ty.width = ty'.width) :
    ty = ty' := by
  cases ty with
  | bool => cases ty' <;> first | rfl | cases hletter
  | sint w =>
    cases ty' with
    | sint w' => cases w <;> cases w' <;> first | rfl | cases hwidth
    | _ => cases hletter
  | uint w =>
    cases ty' with
    | uint w' => cases w <;> cases w' <;> first | rfl | cases hwidth
    | _ => cases hletter
  | float w =>
    cases ty' with
    | float w' => cases w <;> cases w' <;> first | rfl | cases hwidth
    | _ => cases hletter

theorem toDigits_injective {n n' : Nat} (h : Nat.toDigits 10 n = Nat.toDigits 10 n') : n = n' := by
  have hread := congrArg (fun ds => Nat.ofDigitChars 10 ds 0) h
  simpa using hread

/-- **Two types have different names.** -/
theorem name_injective (h : ty.name = ty'.name) : ty = ty' := by
  have hlist := congrArg String.toList h
  by_cases hb : ty = bool
  · by_cases hb' : ty' = bool
    · rw [hb, hb']
    · rw [hb, toList_name hb'] at hlist
      have hletter : 'b' = ty'.letter := (List.cons.inj hlist).1
      cases ty' with
      | bool => exact absurd rfl hb'
      | _ => cases hletter
  · by_cases hb' : ty' = bool
    · rw [hb', toList_name hb] at hlist
      have hletter : ty.letter = 'b' := (List.cons.inj hlist).1
      cases ty with
      | bool => exact absurd rfl hb
      | _ => cases hletter
    · rw [toList_name hb, toList_name hb'] at hlist
      obtain ⟨hletter, hdigits⟩ := List.cons.inj hlist
      exact eq_of_letter hletter (toDigits_injective hdigits)

theorem mem_name (h : c ∈ ty.name.toList) : c.isAlphanum = true := by
  by_cases hb : ty = bool
  · rw [hb] at h
    have hall : ∀ c ∈ bool.name.toList, c.isAlphanum = true := List.all_eq_true.1 (by decide)
    exact hall c h
  · rw [toList_name hb] at h
    rcases List.mem_cons.1 h with rfl | h
    · cases ty <;> rfl
    · simp [Char.isAlphanum, Decimal.isDigit_of_mem h]

end ScalarType

namespace FloatWidth

/-- The binary format of a float type. -/
def format : FloatWidth → BinaryFormat
  | w16 => .binary16
  | w32 => .binary32
  | w64 => .binary64

theorem within (w : FloatWidth) : w.format.Within .binary64 := by
  cases w with
  | w16 => exact BinaryFormat.binary16_within
  | w32 => exact BinaryFormat.binary32_within
  | w64 => exact BinaryFormat.binary64_within

theorem bits_eq (w : FloatWidth) : w.format.exponentBits + w.format.fractionBits + 1 = w.bits := by
  cases w <;> rfl

end FloatWidth

namespace Scalar

variable {c c' : Scalar} {d : Char}

/-- A constant is not a float that stands for no number. -/
def NotNan (c : Scalar) : Prop := c.toFloat? ≠ some .nan

/-- What is written of a number before its type. -/
def number (c : Scalar) : String :=
  match c.ty with
  | .bool => ""
  | .sint w => toString ((c.bits : Int).bmod (Nat.pow 2 w.bits))
  | .uint _ => toString c.bits
  | .float _ => (c.toBinary64?.map Encoded.text).getD ""

theorem text_eq (h : c.ty ≠ .bool) : c.text = c.number ++ c.ty.name := by
  unfold text number
  cases hty : c.ty with
  | bool => exact absurd hty h
  | sint w => rfl
  | uint w => rfl
  | float w => rfl

theorem toList_int (a : Int) : (toString a).toList =
    if 0 ≤ a then Nat.toDigits 10 a.toNat else '-' :: Nat.toDigits 10 (-a).toNat := by
  rw [Int.toString_eq_repr, Int.repr_eq_if]
  split <;> simp

theorem toString_int_injective {a a' : Int} (h : toString a = toString a') : a = a' := by
  have hlist := congrArg String.toList h
  rw [toList_int, toList_int] at hlist
  have hminus : ∀ n, '-' ∉ Nat.toDigits 10 n := fun n hmem => by
    have := Decimal.isDigit_of_mem hmem
    revert this
    decide
  split at hlist <;> split at hlist
  · have := ScalarType.toDigits_injective hlist
    omega
  · exact absurd (by simp [hlist]) (hminus a.toNat)
  · exact absurd (by simp [← hlist]) (hminus a'.toNat)
  · have := ScalarType.toDigits_injective (List.cons.inj hlist).2
    omega

theorem toFloat?_eq {w : FloatWidth} (hty : c.ty = .float w) :
    c.toFloat? = some (w.format.decode c.bits) := by
  unfold toFloat?
  cases w <;> simp only [hty] <;> rfl

theorem number_injective (hty : c.ty = c'.ty) (hb : c.ty ≠ .bool) (h : c.NotNan) (h' : c'.NotNan)
    (heq : c.number = c'.number) : c = c' := by
  suffices hbits : c.bits = c'.bits by
    cases c
    cases c'
    cases hty
    cases hbits
    rfl
  have hlt := c.bits_lt
  have hlt' := c'.bits_lt
  unfold number at heq
  rw [← hty] at hlt' heq
  cases hk : c.ty with
  | bool => exact absurd hk hb
  | sint w =>
    simp only [hk, ScalarType.width, Nat.pow_eq] at hlt hlt' heq
    have hmod := congrArg (· % ((2 ^ w.bits : Nat) : Int)) (toString_int_injective heq)
    simp only [Int.bmod_emod] at hmod
    rw [Int.emod_eq_of_lt (by omega) (Int.ofNat_lt.2 hlt),
      Int.emod_eq_of_lt (by omega) (Int.ofNat_lt.2 hlt')] at hmod
    exact Int.ofNat.inj hmod
  | uint w =>
    simp only [hk] at heq
    exact Int.ofNat.inj (toString_int_injective (a := (c.bits : Int)) heq)
  | float w =>
    have hfloat := toFloat?_eq hk
    have hfloat' := toFloat?_eq (hty ▸ hk)
    simp only [hk, toBinary64?, hfloat, hfloat', Option.map_some, Option.getD_some] at heq
    simp only [hk, ScalarType.width, Nat.pow_eq, ← w.bits_eq] at hlt hlt'
    have hwide := Encoded.text_injective (Encoded.canonical_decode _) (Encoded.canonical_decode _)
      heq
    exact w.within.injective hlt hlt' (fun e => h (hfloat.trans (congrArg some e)))
      (fun e => h' (hfloat'.trans (congrArg some e))) hwide

/-- A number is written with a sign, a digit or a letter first. -/
theorem number_head (h : c.ty ≠ .bool) : ∃ d cs, c.number.toList = d :: cs ∧
    (d.isDigit = true ∨ d ∈ ['-', 'i', 'N']) := by
  have hdigits : ∀ n, ∃ d cs, Nat.toDigits 10 n = d :: cs ∧ d.isDigit = true := by
    intro n
    obtain ⟨d, cs, hcs⟩ := List.exists_cons_of_ne_nil (Nat.toDigits_ne_nil (n := n) (b := 10))
    exact ⟨d, cs, hcs, Decimal.isDigit_of_mem (n := n) (by simp [hcs])⟩
  unfold number
  cases hk : c.ty with
  | bool => exact absurd hk h
  | sint w =>
    simp only [toList_int]
    split
    · obtain ⟨d, cs, hcs, hd⟩ := hdigits ((c.bits : Int).bmod (Nat.pow 2 w.bits)).toNat
      exact ⟨d, cs, hcs, .inl hd⟩
    · exact ⟨'-', _, rfl, .inr (by decide)⟩
  | uint w =>
    obtain ⟨d, cs, hcs, hd⟩ := hdigits c.bits
    exact ⟨d, cs, by simpa using hcs, .inl hd⟩
  | float w =>
    simp only [toBinary64?, toFloat?_eq hk, Option.map_some, Option.getD_some]
    generalize BinaryFormat.binary64.decode _ = v
    obtain ⟨s, cs, htext, hw⟩ := v.exists_written
    rw [htext]
    cases s with
    | true => exact ⟨'-', cs, rfl, .inr (by decide)⟩
    | false =>
      cases hw with
      | nan => exact ⟨_, _, rfl, .inr (by decide)⟩
      | infinite => exact ⟨_, _, rfl, .inr (by decide)⟩
      | finite first _ _ => exact ⟨_, _, rfl, .inl first⟩

/-- The characters that constants of a scalar type are written with. -/
theorem mem_number (h : d ∈ c.number.toList) :
    d.isDigit = true ∨ d ∈ ['.', '-', 'N', 'a', 'i', 'n', 'f'] := by
  unfold number at h
  cases hk : c.ty with
  | bool =>
    rw [hk] at h
    cases h
  | sint w =>
    simp only [hk, toList_int] at h
    split at h
    · exact .inl (Decimal.isDigit_of_mem h)
    · rcases List.mem_cons.1 h with rfl | h
      · exact .inr (by decide)
      · exact .inl (Decimal.isDigit_of_mem h)
  | uint w =>
    simp only [hk, Nat.toString_eq_repr, Nat.toList_repr] at h
    exact .inl (Decimal.isDigit_of_mem h)
  | float w =>
    simp only [hk, toBinary64?, toFloat?_eq hk, Option.map_some, Option.getD_some] at h
    exact Encoded.mem_text _ h

theorem text_bool (h : c.ty = .bool) : c.text = "false" ∨ c.text = "true" := by
  unfold text
  rw [h]
  dsimp only
  split
  · exact .inl rfl
  · exact .inr rfl

/-- **Two constants have different texts**, unless one stands for no number. -/
theorem text_injective (h : c.NotNan) (h' : c'.NotNan) (heq : c.text = c'.text) : c = c' := by
  -- a number ends in the digits of its type, and a Boolean in a letter
  have hbool : ∀ {c c' : Scalar}, c.ty = .bool → c'.ty ≠ .bool → c.text ≠ c'.text := by
    intro c c' hb hb' heq
    obtain ⟨cs, hcs⟩ : ∃ cs, c.text.toList = cs ++ 'e' :: [] := by
      rcases text_bool hb with h | h
      · exact ⟨['f', 'a', 'l', 's'], by rw [h]; rfl⟩
      · exact ⟨['t', 'r', 'u'], by rw [h]; rfl⟩
    have hlist := congrArg String.toList heq
    rw [hcs, text_eq hb', String.toList_append, ScalarType.toList_name hb'] at hlist
    obtain ⟨-, -, hnil⟩ := Text.suffix_unique (p := Char.isDigit) (by simp)
      (fun _ => Decimal.isDigit_of_mem) rfl c'.ty.not_isDigit_letter hlist
    exact Nat.toDigits_ne_nil hnil.symm
  by_cases hb : c.ty = .bool
  · by_cases hb' : c'.ty = .bool
    · have hlt := c.bits_lt
      have hlt' := c'.bits_lt
      simp only [hb, hb', ScalarType.width, Nat.pow_eq, pow_one] at hlt hlt'
      simp only [text, hb, hb'] at heq
      have hbits : c.bits = c'.bits := by
        split at heq <;> split at heq
        · omega
        · exact absurd heq (by decide)
        · exact absurd heq (by decide)
        · omega
      cases c
      cases c'
      cases hb
      cases hb'
      cases hbits
      rfl
    · exact absurd heq (hbool hb hb')
  · by_cases hb' : c'.ty = .bool
    · exact absurd heq.symm (hbool hb' hb)
    · have hlist := congrArg String.toList heq
      rw [text_eq hb, text_eq hb', String.toList_append, String.toList_append,
        ScalarType.toList_name hb, ScalarType.toList_name hb'] at hlist
      obtain ⟨hnumber, hletter, hwidth⟩ := Text.suffix_unique (p := Char.isDigit)
        (fun _ => Decimal.isDigit_of_mem) (fun _ => Decimal.isDigit_of_mem)
        c.ty.not_isDigit_letter c'.ty.not_isDigit_letter hlist
      exact number_injective
        (ScalarType.eq_of_letter hletter (ScalarType.toDigits_injective hwidth)) hb h h'
        (String.toList_inj.1 hnumber)

theorem text_head (c : Scalar) : ∃ d cs, c.text.toList = d :: cs ∧
    (d.isDigit = true ∨ d ∈ ['-', 'i', 'N', 'f', 't']) := by
  by_cases hb : c.ty = .bool
  · rcases text_bool hb with h | h
    · exact ⟨'f', _, by rw [h]; rfl, .inr (by decide)⟩
    · exact ⟨'t', _, by rw [h]; rfl, .inr (by decide)⟩
  · obtain ⟨d, cs, hcs, hd⟩ := number_head hb
    refine ⟨d, cs ++ c.ty.name.toList, by rw [text_eq hb, String.toList_append, hcs]; rfl, ?_⟩
    exact hd.imp_right fun hd => by simp at hd ⊢; grind

theorem mem_text (h : d ∈ c.text.toList) : d.isAlphanum = true ∨ d = '.' ∨ d = '-' := by
  have hletters : ∀ d ∈ ['.', '-', 'N', 'a', 'i', 'n', 'f'],
      d.isAlphanum = true ∨ d = '.' ∨ d = '-' :=
    List.all_iff_forall_prop.1 (by decide)
  by_cases hb : c.ty = .bool
  · have hfalse : ∀ d ∈ "false".toList, d.isAlphanum = true := List.all_eq_true.1 (by decide)
    have htrue : ∀ d ∈ "true".toList, d.isAlphanum = true := List.all_eq_true.1 (by decide)
    rcases text_bool hb with e | e <;> rw [e] at h
    · exact .inl (hfalse d h)
    · exact .inl (htrue d h)
  · rw [text_eq hb, String.toList_append, List.mem_append] at h
    rcases h with h | h
    · rcases mem_number h with hd | hd
      · exact .inl (by simp [Char.isAlphanum, hd])
      · exact hletters d hd
    · exact .inl (ScalarType.mem_name h)

end Scalar

namespace Constant

variable {c c' : Constant} {d : Char}

/-- A constant that is declared with its own type, and does not stand for no number. -/
def Plain (c : Constant) : Prop := ∀ s, c.kind = .scalar s → c.ty = s.ty ∧ s.NotNan

/-- A constant does not start like a result or a block. -/
theorem text_head (c : Constant) : ∃ d cs, c.text.toList = d :: cs ∧ d ≠ 'v' ∧ d ≠ 'b' := by
  unfold text
  cases c.kind with
  | undef =>
    refine ⟨'u', "ndef<".toList ++ (c.ty.name.toList ++ ['>']), ?_, by decide, by decide⟩
    simp
  | scalar s =>
    obtain ⟨d, cs, hcs, hd⟩ := s.text_head
    refine ⟨d, cs, hcs, ?_⟩
    constructor <;> rintro rfl <;> rcases hd with hd | hd <;> revert hd <;> decide

theorem mem_text (h : d ∈ c.text.toList) :
    d.isAlphanum = true ∨ d ∈ ['.', '-', '<', '>'] := by
  unfold text at h
  cases hk : c.kind with
  | undef =>
    have hword : ∀ d ∈ "undef<".toList, d.isAlphanum = true ∨ d ∈ ['.', '-', '<', '>'] :=
      List.all_iff_forall_prop.1 (by decide)
    simp only [hk, String.toList_append, List.mem_append] at h
    rcases h with (h | h) | h
    · exact hword d h
    · exact .inl (ScalarType.mem_name h)
    · rw [List.mem_singleton.1 h]
      exact .inr (by decide)
  | scalar s =>
    rw [hk] at h
    rcases Scalar.mem_text h with hd | rfl | rfl
    · exact .inl hd
    · exact .inr (by decide)
    · exact .inr (by decide)

/-- **Two constants have different texts**, if they are declared with their own types, and none
stands for no number. -/
theorem text_injective (h : c.Plain) (h' : c'.Plain) (heq : c.text = c'.text) : c = c' := by
  have hmixed : ∀ (ty : ScalarType) (s : Scalar), "undef<" ++ ty.name ++ ">" ≠ s.text := by
    intro ty s heq
    obtain ⟨d, cs, hcs, hd⟩ := s.text_head
    have hlist := congrArg String.toList heq
    rw [hcs] at hlist
    simp only [String.toList_append, String.reduceToList, List.cons_append,
      List.cons.injEq] at hlist
    rw [← hlist.1] at hd
    revert hd
    decide
  obtain ⟨ty, kind⟩ := c
  obtain ⟨ty', kind'⟩ := c'
  cases kind with
  | undef =>
    cases kind' with
    | undef =>
      have hlist := congrArg String.toList heq
      simp only [text, String.toList_append, List.append_assoc] at hlist
      have hname := List.append_cancel_right (List.append_cancel_left hlist)
      rw [ScalarType.name_injective (String.toList_inj.1 hname)]
    | scalar s' => exact absurd heq (hmixed ty s')
  | scalar s =>
    cases kind' with
    | undef => exact absurd heq.symm (hmixed ty' s)
    | scalar s' =>
      obtain ⟨hty, hnumber⟩ := h s rfl
      obtain ⟨hty', hnumber'⟩ := h' s' rfl
      obtain rfl := Scalar.text_injective hnumber hnumber' heq
      rw [show ty = ty' from hty.trans hty'.symm]

end Constant

end ShaderIR
