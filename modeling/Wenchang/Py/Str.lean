import Mathlib

/-!
# Python text

A Python `str` is a sequence of code points, lone surrogates included, and strings compare by code
point. `Str` is that, as a list, so the list library is the string library: `++` is `+`, `<+:` is
`startswith`, `List.splitOn` is `split` on one character, and `<` is `<`. What Python adds is here:
the characters `str.strip` strips, the control characters, and `str(n)`.

What differs between the Python versions the package supports (the Unicode database, the wording
of two errors) is a class, `Interpreter`, and every result holds for any instance.
-/

namespace Py

instance codePoint_neZero : NeZero 0x110000 := ⟨by decide⟩
instance byte_neZero : NeZero 256 := ⟨by decide⟩

/-- A code point. Every one is a Python character, surrogates included. -/
abbrev CodePoint := Fin 0x110000

instance codePoint_lawfulBEq : LawfulBEq CodePoint := inferInstance

/-- A Python `str`. -/
abbrev Str := List CodePoint

/-- One byte of a Python `bytes`. -/
abbrev Byte := Fin 256

/-- A Python `bytes`. -/
abbrev Bytes := List Byte

/-- A Lean character as a code point. -/
def codePoint (c : Char) : CodePoint := Fin.ofNat _ c.toNat

/-- A Python string literal. -/
def str (s : String) : Str := s.toList.map codePoint

/-- What differs between the interpreters the package supports: their Unicode database, the texts
of two standard-library errors, what strict base64 takes behind a full quad, and how deep a JSON
text `json.loads` follows. -/
class Interpreter where
  /-- `str.isprintable` of the one-character string. -/
  isPrintable : CodePoint → Bool
  /-- `unicodedata.category` is `"Cf"`. -/
  isFormat : CodePoint → Bool
  /-- `str(exc)` of the `ValueError` that `json.loads` raises on this text. -/
  jsonErrorText : Str → Str
  /-- `str(exc)` of the `ValueError` that `datetime.fromisoformat` raises on this text. -/
  isoformatErrorText : Str → Str
  /-- `binascii.a2b_base64` in strict mode lets `=` follow a full quad. -/
  excessPadding : Bool
  /-- The deepest nesting `json.loads` follows before `RecursionError`. -/
  jsonNesting : Nat
  /-- CPython follows hundreds of levels; the library writes four. -/
  four_le_jsonNesting : 4 ≤ jsonNesting

/-- CPython as it is on ASCII texts, of which all that are met can be parsed. -/
@[reducible] def Interpreter.ascii : Interpreter where
  isPrintable c := 0x20 ≤ c.val && c.val < 0x7F
  isFormat _ := false
  jsonErrorText _ := []
  isoformatErrorText _ := []
  excessPadding := false
  jsonNesting := 900
  four_le_jsonNesting := by decide

/-! ## Characters -/

/-- A surrogate, which UTF-8 does not encode. -/
def isSurrogate (c : CodePoint) : Bool := 0xD800 ≤ c.val && c.val < 0xE000

/-- `unicodedata.category(c) == "Cc"`: U+0000 to U+001F and U+007F to U+009F, in every version. -/
def isControl (c : CodePoint) : Bool := c.val < 0x20 || (0x7F ≤ c.val && c.val < 0xA0)

/-- A character `str.strip` strips. -/
def isSpace (c : CodePoint) : Bool :=
  (0x09 ≤ c.val && c.val ≤ 0x0D) || (0x1C ≤ c.val && c.val ≤ 0x20) || c.val == 0x85 ||
    c.val == 0xA0 || c.val == 0x1680 || (0x2000 ≤ c.val && c.val ≤ 0x200A) || c.val == 0x2028 ||
    c.val == 0x2029 || c.val == 0x202F || c.val == 0x205F || c.val == 0x3000

/-- A string of Unicode scalar values: one UTF-8 encodes. -/
def Scalar (s : Str) : Prop := ∀ c ∈ s, isSurrogate c = false

instance (s : Str) : Decidable (Scalar s) := inferInstanceAs (Decidable (∀ c ∈ s, _))

/-- Two scalar texts in sequence are scalar. -/
theorem Scalar.append {s t : Str} (hs : Scalar s) (ht : Scalar t) : Scalar (s ++ t) := fun c hc =>
  (List.mem_append.mp hc).elim (hs c) (ht c)

/-- A text is scalar where its parts are. -/
theorem scalar_append {s t : Str} : Scalar (s ++ t) ↔ Scalar s ∧ Scalar t :=
  ⟨fun h => ⟨fun c hc => h c (List.mem_append_left _ hc), fun c hc => h c (List.mem_append_right _ hc)⟩,
    fun h => h.1.append h.2⟩

/-- A scalar text with a character before it that is no surrogate is scalar. -/
theorem Scalar.cons {c : CodePoint} {s : Str} (hc : isSurrogate c = false) (hs : Scalar s) :
    Scalar (c :: s) := List.forall_mem_cons.mpr ⟨hc, hs⟩

/-- The empty text is scalar. -/
theorem scalar_nil : Scalar [] := by simp [Scalar]

/-- Scalar, told by looking at each character. -/
theorem scalar_of_all {s : Str} (h : s.all (!isSurrogate ·) = true) : Scalar s := fun c hc => by
  simpa using List.all_eq_true.mp h c hc

/-- No Lean character is a surrogate, so no literal has one. -/
theorem scalar_str (s : String) : Scalar (str s) := by
  intro c hc
  obtain ⟨a, -, rfl⟩ := List.mem_map.mp hc
  have hvalid : a.toNat < 0xD800 ∨ 0xDFFF < a.toNat ∧ a.toNat < 0x110000 := a.valid
  have hval : (codePoint a).val = a.toNat := Nat.mod_eq_of_lt (by omega)
  unfold isSurrogate
  rw [hval]
  rcases hvalid with h | h
  · simp [Nat.not_le.mpr h]
  · simp [Nat.not_lt.mpr (Nat.succ_le_of_lt h.1)]

/-! ## `str` methods -/

/-- `s.lstrip()`. -/
def lstrip (s : Str) : Str := s.dropWhile isSpace

/-- `s.rstrip()`. -/
def rstrip (s : Str) : Str := s.rdropWhile isSpace

/-- `s.strip()`. -/
def strip (s : Str) : Str := rstrip (lstrip s)

/-- `sep.join(parts)`. -/
def join (sep : Str) (parts : List Str) : Str := sep.intercalate parts

/-- The first position of `old` in `s`: `s.find(old)`, `none` for `-1`. -/
def find (old : Str) : Str → Option Nat
  | [] => if old = [] then some 0 else none
  | c :: s => if old.isPrefixOf (c :: s) then some 0 else (find old s).map (· + 1)

/-- `s.find(old, index)`. -/
def findFrom (s old : Str) (index : Nat) : Option Nat :=
  if s.length < index then none else (find old (s.drop index)).map (index + ·)

/-- `s.replace(old, new, 1)`. -/
def replaceFirst (s old new : Str) : Str :=
  match find old s with
  | some i => s.take i ++ new ++ s.drop (i + old.length)
  | none => s

/-- `s.replace(old, new)` of a non-empty `old`, when `skip` more characters belong to a match. -/
def replaceAllFrom (old new : Str) : Nat → Str → Str
  | _, [] => []
  | skip + 1, _ :: s => replaceAllFrom old new skip s
  | 0, c :: s =>
    if old.isPrefixOf (c :: s) then new ++ replaceAllFrom old new (old.length - 1) s
    else c :: replaceAllFrom old new 0 s

/-- `s.replace(old, new)` of a non-empty `old`. -/
def replaceAll (s old new : Str) : Str := replaceAllFrom old new 0 s

/-- A character at which `str.splitlines` ends a line. -/
def isLineBreak (c : CodePoint) : Bool :=
  (0x0A ≤ c.val && c.val ≤ 0x0D) || (0x1C ≤ c.val && c.val ≤ 0x1E) || c.val == 0x85 ||
    c.val == 0x2028 || c.val == 0x2029

/-- `s.splitlines()` behind the start of a line; a line feed behind a carriage return ends no other
line. -/
def splitlinesFrom (afterReturn : Bool) (line : Str) : Str → List Str
  | [] => if line = [] then [] else [line]
  | c :: s =>
    if afterReturn && c == 10 then splitlinesFrom false line s
    else if isLineBreak c then line :: splitlinesFrom (c == 13) [] s
    else splitlinesFrom false (line ++ [c]) s

/-- `s.splitlines()`. -/
def splitlines (s : Str) : List Str := splitlinesFrom false [] s

example : splitlines (str "- a\r\n- b\n\n- c") = [str "- a", str "- b", [], str "- c"] := by decide

/-! ## Pieces -/

/-- No piece of a split holds what was split at. -/
theorem not_mem_of_mem_splitOn {c : CodePoint} {s piece : Str} (h : piece ∈ s.splitOn c) :
    c ∉ piece := by
  induction s generalizing piece with
  | nil =>
    obtain rfl : piece = [] := by simpa using h
    exact List.not_mem_nil
  | cons d s ih =>
    rw [List.splitOn_cons_eq_if_modifyHead] at h
    split at h
    · rcases List.mem_cons.mp h with rfl | h
      · exact List.not_mem_nil
      · exact ih h
    next hd =>
      have hne : c ≠ d := fun he => hd (by simp [he])
      cases hs : s.splitOn c with
      | nil => exact absurd hs (List.splitOn_ne_nil _ _)
      | cons first rest =>
        rw [hs, List.modifyHead_cons] at h
        rcases List.mem_cons.mp h with rfl | h
        · exact List.not_mem_cons_of_ne_of_not_mem hne (ih (hs ▸ List.mem_cons_self))
        · exact ih (hs ▸ List.mem_cons_of_mem _ h)

/-! ## Numbers as text -/

/-- `str(n)`. -/
def ofNat (n : Nat) : Str := (Nat.toDigits 10 n).map codePoint

/-- A character is told by its code point. -/
theorem codePoint_injective : Function.Injective codePoint := by
  intro c d h
  have hc := c.valid
  have hd := d.valid
  have hval : c.toNat % 0x110000 = d.toNat % 0x110000 := congrArg Fin.val h
  have hlt : ∀ e : Char, e.toNat < 0x110000 := fun e => by
    rcases e.valid with h | h
    · exact Nat.lt_of_lt_of_le h (by decide)
    · exact h.2
  rw [Nat.mod_eq_of_lt (hlt c), Nat.mod_eq_of_lt (hlt d)] at hval
  exact Char.toNat_inj.mp hval

/-- `str(n)` names `n`. -/
theorem ofNat_injective : Function.Injective ofNat := by
  intro m n h
  have hd : Nat.toDigits 10 m = Nat.toDigits 10 n :=
    List.map_injective_iff.mpr codePoint_injective h
  have hread : ∀ k, Nat.ofDigitChars 10 (Nat.toDigits 10 k) 0 = k := fun k =>
    Nat.ofDigitChars_toDigits (by decide) (by decide)
  rw [← hread m, hd, hread n]

end Py
