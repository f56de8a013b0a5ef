import Wenchang.Py.Str

/-!
# `repr` of a Python string

`repr(s)` quotes a string and escapes what is not printable. Exception messages of the library embed it
(`{value!r}`).
-/

namespace Py

/-! ## Hexadecimal of a fixed width -/

/-- One lowercase hexadecimal digit. -/
def hexDigit (n : Nat) : CodePoint := Fin.ofNat _ (if n < 10 then 48 + n else 87 + n)

/-- The last `width` hexadecimal digits of `n`. -/
def hex : Nat → Nat → Str
  | 0, _ => []
  | width + 1, n => hex width (n / 16) ++ [hexDigit (n % 16)]

/-! ## Escapes -/

/-- The backslash. -/
def backslash : CodePoint := 92

/-- How `repr` writes the character `c` between quotes `q`. -/
def escapeChar [Interpreter] (q c : CodePoint) : Str :=
  if c = q ∨ c = backslash then [backslash, c]
  else if c = 9 then [backslash, 116]
  else if c = 10 then [backslash, 110]
  else if c = 13 then [backslash, 114]
  else if c.val < 0x20 ∨ c.val = 0x7F then backslash :: 120 :: hex 2 c.val
  else if c.val < 0x7F ∨ Interpreter.isPrintable c then [c]
  else if c.val ≤ 0xFF then backslash :: 120 :: hex 2 c.val
  else if c.val ≤ 0xFFFF then backslash :: 117 :: hex 4 c.val
  else backslash :: 85 :: hex 8 c.val

/-- The quote `repr` puts around `s`: `\'`, unless `s` has one and no `"`. -/
def quoteOf (s : Str) : CodePoint := if 39 ∈ s ∧ 34 ∉ s then 34 else 39

/-- `repr(s)`. -/
def repr [Interpreter] (s : Str) : Str :=
  quoteOf s :: s.flatMap (escapeChar (quoteOf s)) ++ [quoteOf s]

end Py
