import Wenchang.Py.Str

/-!
# URL-safe base64

`base64.urlsafe_b64encode`, and `base64.b64decode(s, altchars=b"-_", validate=True)`, which is the
strict mode of `binascii.a2b_base64` behind a translation of `-` and `_` to `+` and `/`. The reader
takes either spelling of the last two digits and does not ask that the unused bits before the
padding be zero, so it is no injection; what it must do is read back what was written
(`b64decode_urlsafeB64encode`).
-/

namespace Py

/-- The digit of the URL-safe alphabet for a number below 64. -/
def base64Digit (n : Nat) : CodePoint :=
  Fin.ofNat _ (if n < 26 then 65 + n else if n < 52 then 71 + n else if n < 62 then n - 4
    else if n = 62 then 45 else 95)

/-- `base64.urlsafe_b64encode(data).decode("ascii")`. -/
def urlsafeB64encode : Bytes → Str
  | a :: b :: c :: rest =>
    base64Digit (a.val / 4) :: base64Digit (a.val % 4 * 16 + b.val / 16) ::
      base64Digit (b.val % 16 * 4 + c.val / 64) :: base64Digit (c.val % 64) :: urlsafeB64encode rest
  | [a, b] =>
    [base64Digit (a.val / 4), base64Digit (a.val % 4 * 16 + b.val / 16),
      base64Digit (b.val % 16 * 4), 61]
  | [a] => [base64Digit (a.val / 4), base64Digit (a.val % 4 * 16), 61, 61]
  | [] => []

/-- The value of a digit, in either spelling of the last two. -/
def base64Value (c : CodePoint) : Option Nat :=
  if 65 ≤ c.val ∧ c.val ≤ 90 then some (c.val - 65)
  else if 97 ≤ c.val ∧ c.val ≤ 122 then some (c.val - 71)
  else if 48 ≤ c.val ∧ c.val ≤ 57 then some (c.val + 4)
  else if c = 43 ∨ c = 45 then some 62
  else if c = 47 ∨ c = 95 then some 63
  else none

/-- The loop of `binascii.a2b_base64` in strict mode: how many digits of the current quad are read,
the bits left over from them, how many pads, and whether padding has begun. -/
def a2bBase64 [Interpreter] (quadPos leftchar pads : Nat) (paddingStarted : Bool) :
    Str → Option Bytes
  | [] => if quadPos = 0 then some [] else none
  | c :: rest =>
    if c = 61 then
      if quadPos = 0 ∧ Interpreter.excessPadding = false then none
      else if 2 ≤ quadPos ∧ 4 ≤ quadPos + (pads + 1) then
        if rest = [] then some [] else none
      else a2bBase64 quadPos leftchar (if 2 ≤ quadPos then pads + 1 else pads) true rest
    else
      match base64Value c with
      | none => none
      | some v =>
        if paddingStarted then none
        else if quadPos = 0 then a2bBase64 1 v 0 false rest
        else if quadPos = 1 then
          (a2bBase64 2 (v % 16) 0 false rest).map (Fin.ofNat _ (leftchar * 4 + v / 16) :: ·)
        else if quadPos = 2 then
          (a2bBase64 3 (v % 4) 0 false rest).map (Fin.ofNat _ (leftchar * 16 + v / 4) :: ·)
        else (a2bBase64 0 0 0 false rest).map (Fin.ofNat _ (leftchar * 64 + v) :: ·)

/-- `base64.b64decode(s.encode("ascii"), altchars=b"-_", validate=True)`, or `none` where either
step raises. -/
def b64decode [Interpreter] (s : Str) : Option Bytes :=
  if s.head? = some 61 then none else a2bBase64 0 0 0 false s

/-! ## Reading back -/

/-- A digit is read as its value. -/
theorem base64Value_digit {n : Nat} (h : n < 64) : base64Value (base64Digit n) = some n := by
  have hall : ∀ m : Fin 64, base64Value (base64Digit m.val) = some m.val := by decide
  exact hall ⟨n, h⟩

/-- No digit is the padding. -/
theorem base64Digit_ne_pad {n : Nat} (h : n < 64) : base64Digit n ≠ 61 := by
  have hall : ∀ m : Fin 64, base64Digit m.val ≠ 61 := by decide
  exact hall ⟨n, h⟩

/-- A byte is made of its value. -/
theorem ofNat_eq_byte {n : Nat} {a : Byte} (h : n = a.val) : (Fin.ofNat 256 n : Byte) = a := by
  rw [h]
  exact Fin.ext (Nat.mod_eq_of_lt a.isLt)

/-- An encoding does not start with padding. -/
theorem urlsafeB64encode_head (data : Bytes) : (urlsafeB64encode data).head? ≠ some 61 := by
  have hfirst : ∀ (a : Byte) (rest : Str), (base64Digit (a.val / 4) :: rest).head? ≠ some 61 :=
    fun a rest h => base64Digit_ne_pad (show a.val / 4 < 64 by omega) (Option.some.inj h)
  fun_cases urlsafeB64encode data
  · exact hfirst _ _
  · exact hfirst _ _
  · exact hfirst _ _
  · exact nofun

section

variable [Interpreter]

/-- One digit, at any place of its four. -/
theorem a2bBase64_digit {v : Nat} (hv : v < 64) (quadPos leftchar pads : Nat) (rest : Str) :
    a2bBase64 quadPos leftchar pads false (base64Digit v :: rest) =
      if quadPos = 0 then a2bBase64 1 v 0 false rest
      else if quadPos = 1 then
        (a2bBase64 2 (v % 16) 0 false rest).map (Fin.ofNat _ (leftchar * 4 + v / 16) :: ·)
      else if quadPos = 2 then
        (a2bBase64 3 (v % 4) 0 false rest).map (Fin.ofNat _ (leftchar * 16 + v / 4) :: ·)
      else (a2bBase64 0 0 0 false rest).map (Fin.ofNat _ (leftchar * 64 + v) :: ·) := by
  rw [a2bBase64, if_neg (base64Digit_ne_pad hv), base64Value_digit hv]
  rfl

/-- The first digit is kept. -/
theorem a2bBase64_first {v : Nat} (hv : v < 64) (rest : Str) :
    a2bBase64 0 0 0 false (base64Digit v :: rest) = a2bBase64 1 v 0 false rest :=
  a2bBase64_digit hv 0 0 0 rest

/-- The second digit completes a byte. -/
theorem a2bBase64_second {v left : Nat} (hv : v < 64) {a : Byte} (ha : left * 4 + v / 16 = a.val)
    (rest : Str) : a2bBase64 1 left 0 false (base64Digit v :: rest) =
      (a2bBase64 2 (v % 16) 0 false rest).map (a :: ·) := by
  rw [a2bBase64_digit hv, ofNat_eq_byte ha]
  rfl

/-- The third digit completes a byte. -/
theorem a2bBase64_third {v left : Nat} (hv : v < 64) {b : Byte} (hb : left * 16 + v / 4 = b.val)
    (rest : Str) : a2bBase64 2 left 0 false (base64Digit v :: rest) =
      (a2bBase64 3 (v % 4) 0 false rest).map (b :: ·) := by
  have hb' := ofNat_eq_byte hb
  rw [a2bBase64_digit hv, hb']
  rfl

/-- The fourth digit completes a byte. -/
theorem a2bBase64_fourth {v left : Nat} (hv : v < 64) {c : Byte} (hc : left * 64 + v = c.val)
    (rest : Str) : a2bBase64 3 left 0 false (base64Digit v :: rest) =
      (a2bBase64 0 0 0 false rest).map (c :: ·) := by
  rw [a2bBase64_digit hv, ofNat_eq_byte hc]
  rfl

/-- **What was encoded is decoded.** -/
theorem a2bBase64_encode (data : Bytes) :
    a2bBase64 0 0 0 false (urlsafeB64encode data) = some data := by
  fun_induction urlsafeB64encode data with
  | case1 a b c rest ih =>
    have ha := a.isLt
    have hb := b.isLt
    have hc := c.isLt
    have hsecond : a.val / 4 * 4 + (a.val % 4 * 16 + b.val / 16) / 16 = a.val := by omega
    have hthird : (a.val % 4 * 16 + b.val / 16) % 16 * 16 + (b.val % 16 * 4 + c.val / 64) / 4 =
        b.val := by omega
    have hfourth : (b.val % 16 * 4 + c.val / 64) % 4 * 64 + c.val % 64 = c.val := by omega
    rw [a2bBase64_first (by omega), a2bBase64_second (by omega) hsecond,
      a2bBase64_third (by omega) hthird, a2bBase64_fourth (by omega) hfourth, ih]
    rfl
  | case2 a b =>
    have ha := a.isLt
    have hb := b.isLt
    have hsecond : a.val / 4 * 4 + (a.val % 4 * 16 + b.val / 16) / 16 = a.val := by omega
    have hthird : (a.val % 4 * 16 + b.val / 16) % 16 * 16 + b.val % 16 * 4 / 4 = b.val := by omega
    rw [a2bBase64_first (by omega), a2bBase64_second (by omega) hsecond,
      a2bBase64_third (by omega) hthird]
    rfl
  | case3 a =>
    have ha := a.isLt
    have hsecond : a.val / 4 * 4 + a.val % 4 * 16 / 16 = a.val := by omega
    rw [a2bBase64_first (by omega), a2bBase64_second (by omega) hsecond]
    rfl
  | case4 => rfl

/-- **Reading back what was written.** -/
theorem b64decode_urlsafeB64encode (data : Bytes) : b64decode (urlsafeB64encode data) = some data := by
  rw [b64decode, if_neg (urlsafeB64encode_head data)]
  exact a2bBase64_encode data

end

end Py
