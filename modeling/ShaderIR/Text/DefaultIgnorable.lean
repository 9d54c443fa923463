/-!
# Characters that are not shown at all

* `defaultIgnorable`: the ranges of the Unicode property `Default_Ignorable_Code_Point`, in
  ascending order.
* `isDefaultIgnorable`: whether a character has that property.
-/

namespace ShaderIR.Text

/-- The ranges of characters that are not shown unless they are asked for, ends included. -/
def defaultIgnorable : List (Nat × Nat) := [
  (0xad, 0xad), (0x34f, 0x34f), (0x61c, 0x61c), (0x115f, 0x1160), (0x17b4, 0x17b5),
  (0x180b, 0x180f), (0x200b, 0x200f), (0x202a, 0x202e), (0x2060, 0x206f), (0x3164, 0x3164),
  (0xfe00, 0xfe0f), (0xfeff, 0xfeff), (0xffa0, 0xffa0), (0xfff0, 0xfff8), (0x1bca0, 0x1bca3),
  (0x1d173, 0x1d17a), (0xe0000, 0xe0fff)]

/-- Whether a character leaves no trace where it is printed, as the Hangul fillers do. -/
def isDefaultIgnorable (c : Char) : Bool :=
  defaultIgnorable.any fun r => r.1 ≤ c.toNat && c.toNat ≤ r.2

end ShaderIR.Text
