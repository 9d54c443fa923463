import ShaderIR.Text.DefaultIgnorable
import ShaderIR.Text.GraphemeExtend
import ShaderIR.Text.Unprintable

/-!
# Quoted text

* `isSoundMark`: the two marks that extend the character before them and still stand by themselves.
* `isHidden`: whether a character cannot be read off where it is printed.
* `escape`: how a character is written between quotes.
* `quoted`: a text between quotes.

Quotes and backslashes are escaped, a few controls have short forms, and every other character that
cannot be seen by itself is written by its number.
-/

namespace ShaderIR.Text

/-- The halfwidth sound marks, voiced and semi-voiced.  They take a cell of their own. -/
def isSoundMark (c : Char) : Bool :=
  c = '\uff9e' || c = '\uff9f'

/-- Whether a character has no picture of its own: it joins with the one before it, it is left out
where it is printed, or it is no printable character at all. -/
def isHidden (c : Char) : Bool :=
  (extendsGrapheme c && !isSoundMark c) || isDefaultIgnorable c || isUnprintable c

/-- A character by its number, in lower-case hexadecimal digits between braces. -/
def escapeByNumber (c : Char) : List Char :=
  ['\\', 'u', '\x7b'] ++ Nat.toDigits 16 c.toNat ++ ['\x7d']

/-- How a character is written between quotes. -/
def escape (c : Char) : List Char :=
  if c = '"' then ['\\', '"']
  else if c = '\\' then ['\\', '\\']
  else if c = '\x00' then ['\\', '0']
  else if c = '\t' then ['\\', 't']
  else if c = '\r' then ['\\', 'r']
  else if c = '\n' then ['\\', 'n']
  else if isHidden c then escapeByNumber c
  else [c]

/-- A text between quotes. -/
def quoted (s : String) : String :=
  String.ofList ('"' :: s.toList.flatMap escape ++ ['"'])

end ShaderIR.Text
