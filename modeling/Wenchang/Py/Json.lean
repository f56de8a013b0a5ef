import Wenchang.Py.Repr

/-!
# JSON

`json.loads` on a `str`, and what `json.dumps` writes for strings, lists and dicts of them.

The library never looks inside a number, a boolean or `null`, so they are one value, `Json.other`.
What the reader accepts is CPython's grammar: control characters are refused inside strings, an
escaped high surrogate joins an escaped low one that follows, `NaN` and `Infinity` are values. It
fails in three ways that the callers tell apart: a malformed text (`JSONDecodeError`), an integer
literal over the conversion limit (a plain `ValueError`), and nesting over the recursion limit.

The writer is `ensure_ascii`. `parses_dumpsStr`, `parses_dumpsArray` and `parses_dumpsObject` read
back what it wrote, one construct each, so a round trip is put together the way the text is. A string
comes back as `joinPairs` of itself: the reader joins a lone high surrogate to a lone low one behind
it, and on text of scalar values that changes nothing.
-/

namespace Py

/-- A decoded JSON value, as far as the library looks at it. -/
inductive Json where
  | other
  | str (s : Str)
  | arr (items : List Json)
  | obj (members : List (Str × Json))

/-- How `json.loads` fails. -/
inductive JsonFailure where
  /-- `JSONDecodeError`. -/
  | malformed
  /-- `ValueError`: an integer literal over the conversion limit. -/
  | intTooLong
  /-- `RecursionError`. -/
  | tooDeep
  deriving DecidableEq

/-! ## Reading -/

/-- JSON whitespace. -/
def isJsonSpace (c : CodePoint) : Bool := c == 0x20 || c == 0x09 || c == 0x0A || c == 0x0D

/-- Skip whitespace. -/
def skipSpace (s : Str) : Str := s.dropWhile isJsonSpace

/-- An ASCII digit. -/
def isDigit (c : CodePoint) : Bool := 48 ≤ c.val && c.val ≤ 57

/-- The value of a hexadecimal digit of either case. -/
def hexValue (c : CodePoint) : Option Nat :=
  if 48 ≤ c.val ∧ c.val ≤ 57 then some (c.val - 48)
  else if 97 ≤ c.val ∧ c.val ≤ 102 then some (c.val - 87)
  else if 65 ≤ c.val ∧ c.val ≤ 70 then some (c.val - 55)
  else none

/-- The value of four hexadecimal digits. -/
def hexValue4 (a b c d : CodePoint) : Option Nat :=
  match hexValue a, hexValue b, hexValue c, hexValue d with
  | some a, some b, some c, some d => some (a * 4096 + b * 256 + c * 16 + d)
  | _, _, _, _ => none

/-- The character a one-letter escape stands for. -/
def simpleEscape (k : CodePoint) : Option CodePoint :=
  if k = 34 ∨ k = 92 ∨ k = 47 then some k
  else if k = 98 then some 8
  else if k = 102 then some 12
  else if k = 110 then some 10
  else if k = 114 then some 13
  else if k = 116 then some 9
  else none

/-- The code point a surrogate pair stands for. -/
def joinSurrogates (high low : Nat) : CodePoint :=
  Fin.ofNat _ (0x10000 + (high - 0xD800) * 1024 + (low - 0xDC00))

/-- Read a string from behind its opening quote to behind its closing one. -/
def parseString : Str → Option (Str × Str)
  | [] => none
  | c :: rest =>
    if c = 34 then some ([], rest)
    else if c = 92 then
      match rest with
      | [] => none
      | k :: rest =>
        if k = 117 then
          match rest with
          | h₁ :: h₂ :: h₃ :: h₄ :: rest =>
            match hexValue4 h₁ h₂ h₃ h₄ with
            | none => none
            | some high =>
              let single := (parseString rest).map fun r => (Fin.ofNat _ high :: r.1, r.2)
              if 0xD800 ≤ high ∧ high < 0xDC00 then
                match rest with
                | b :: u :: l₁ :: l₂ :: l₃ :: l₄ :: rest =>
                  if b = 92 ∧ u = 117 then
                    match hexValue4 l₁ l₂ l₃ l₄ with
                    | none => none
                    | some low =>
                      if 0xDC00 ≤ low ∧ low < 0xE000 then
                        (parseString rest).map fun r => (joinSurrogates high low :: r.1, r.2)
                      else single
                  else single
                | _ => single
              else single
          | _ => none
        else
          match simpleEscape k with
          | none => none
          | some c => (parseString rest).map fun r => (c :: r.1, r.2)
    else if c.val < 0x20 then none
    else (parseString rest).map fun r => (c :: r.1, r.2)

/-- The digit limit of the conversion from text to `int`. -/
def intMaxStrDigits : Nat := 4300

/-- Read an exponent, if there is one. -/
def skipExponent (s : Str) : Option Str :=
  match s with
  | e :: rest =>
    if e = 101 ∨ e = 69 then
      let unsigned := match rest with
        | sign :: rest' => if sign = 43 ∨ sign = 45 then rest' else rest
        | [] => []
      match unsigned with
      | d :: rest => if isDigit d then some (rest.dropWhile isDigit) else none
      | [] => none
    else none
  | [] => none

/-- Read a number. -/
def parseNumber (s : Str) : Except JsonFailure (Json × Str) :=
  let unsigned := match s with
    | c :: rest => if c = 45 then rest else s
    | [] => s
  match unsigned with
  | [] => .error .malformed
  | c :: rest =>
    if !isDigit c then .error .malformed
    else
      let digits := if c = 48 then [c] else c :: rest.takeWhile isDigit
      let afterInt := if c = 48 then rest else rest.dropWhile isDigit
      let afterFraction := match afterInt with
        | p :: d :: rest => if p = 46 ∧ isDigit d then some (rest.dropWhile isDigit) else none
        | _ => none
      let afterExponent := skipExponent (afterFraction.getD afterInt)
      match afterFraction, afterExponent with
      | none, none =>
        if intMaxStrDigits < digits.length then .error .intTooLong else .ok (.other, afterInt)
      | _, _ => .ok (.other, afterExponent.getD (afterFraction.getD afterInt))

/-- Read a constant or a number. -/
def parseScalar (s : Str) : Except JsonFailure (Json × Str) :=
  match [str "null", str "true", str "false", str "NaN", str "Infinity", str "-Infinity"].find?
      (·.isPrefixOf s) with
  | some word => .ok (.other, s.drop word.length)
  | none => parseNumber s

mutual

/-- Read one value. `depth` is how many more levels may be opened. -/
def parseValue : Nat → Nat → Str → Except JsonFailure (Json × Str)
  | 0, _, _ => .error .malformed
  | fuel + 1, depth, s =>
    match s with
    | [] => .error .malformed
    | c :: rest =>
      if c = 34 then
        match parseString rest with
        | some (text, rest) => .ok (.str text, rest)
        | none => .error .malformed
      else if c = 91 then
        match depth, skipSpace rest with
        | 0, _ => .error .tooDeep
        | _ + 1, [] => .error .malformed
        | depth + 1, d :: rest =>
          if d = 93 then .ok (.arr [], rest)
          else (parseItems fuel depth (d :: rest)).map fun r => (.arr r.1, r.2)
      else if c = 123 then
        match depth, skipSpace rest with
        | 0, _ => .error .tooDeep
        | _ + 1, [] => .error .malformed
        | depth + 1, d :: rest =>
          if d = 125 then .ok (.obj [], rest)
          else (parseMembers fuel depth (d :: rest)).map fun r => (.obj r.1, r.2)
      else parseScalar s

/-- Read the items of an array, from the first to behind the closing bracket. -/
def parseItems : Nat → Nat → Str → Except JsonFailure (List Json × Str)
  | 0, _, _ => .error .malformed
  | fuel + 1, depth, s =>
    match parseValue fuel depth s with
    | .error e => .error e
    | .ok (v, rest) =>
      match skipSpace rest with
      | [] => .error .malformed
      | d :: rest =>
        if d = 93 then .ok ([v], rest)
        else if d = 44 then (parseItems fuel depth (skipSpace rest)).map fun r => (v :: r.1, r.2)
        else .error .malformed

/-- Read the members of an object, from the first key to behind the closing brace. -/
def parseMembers : Nat → Nat → Str → Except JsonFailure (List (Str × Json) × Str)
  | 0, _, _ => .error .malformed
  | fuel + 1, depth, s =>
    match s with
    | [] => .error .malformed
    | c :: rest =>
      if c = 34 then
        match parseString rest with
        | none => .error .malformed
        | some (key, rest) =>
          match skipSpace rest with
          | [] => .error .malformed
          | colon :: rest =>
            if colon = 58 then
              match parseValue fuel depth (skipSpace rest) with
              | .error e => .error e
              | .ok (v, rest) =>
                match skipSpace rest with
                | [] => .error .malformed
                | d :: rest =>
                  if d = 125 then .ok ([(key, v)], rest)
                  else if d = 44 then
                    (parseMembers fuel depth (skipSpace rest)).map fun r => ((key, v) :: r.1, r.2)
                  else .error .malformed
            else .error .malformed
      else .error .malformed

end

/-- `json.loads(s)`. -/
def jsonLoads [Interpreter] (s : Str) : Except JsonFailure Json :=
  if s.head? = some 0xFEFF then .error .malformed
  else
    match parseValue (s.length + 1) Interpreter.jsonNesting (skipSpace s) with
    | .error e => .error e
    | .ok (v, rest) => if skipSpace rest = [] then .ok v else .error .malformed

/-- `members[key]` of the dict a JSON object decodes to: the last member of that name wins. -/
def jsonGet (members : List (Str × Json)) (key : Str) : Option Json := members.reverse.lookup key

/-! ## Writing -/

/-- How `json.dumps` writes one character of a string. -/
def dumpsChar (c : CodePoint) : Str :=
  if c = 34 ∨ c = 92 then [92, c]
  else if c = 8 then [92, 98]
  else if c = 12 then [92, 102]
  else if c = 10 then [92, 110]
  else if c = 13 then [92, 114]
  else if c = 9 then [92, 116]
  else if 0x20 ≤ c.val ∧ c.val ≤ 0x7E then [c]
  else if c.val < 0x10000 then 92 :: 117 :: hex 4 c.val
  else
    92 :: 117 :: hex 4 (0xD800 + (c.val - 0x10000) / 1024) ++
      92 :: 117 :: hex 4 (0xDC00 + (c.val - 0x10000) % 1024)

/-- `json.dumps(s)` of a string. -/
def dumpsStr (s : Str) : Str := 34 :: s.flatMap dumpsChar ++ [34]

/-- `json.dumps` of a list, from its items' texts and the item separator. -/
def dumpsArray (sep : Str) (items : List Str) : Str := 91 :: join sep items ++ [93]

/-- One member of a dict as `json.dumps` writes it, from its key and its value's text. -/
def dumpsMember (colon : Str) (m : Str × Str) : Str := dumpsStr m.1 ++ colon ++ m.2

/-- `json.dumps` of a dict, from its keys, its values' texts and the two separators. -/
def dumpsObject (sep colon : Str) (members : List (Str × Str)) : Str :=
  123 :: join sep (members.map (dumpsMember colon)) ++ [125]

/-- `json.dumps(list_of_str)` with the default separators. -/
def dumpsStrList (items : List Str) : Str := dumpsArray (str ", ") (items.map dumpsStr)

/-! ## Reading back a string -/

/-- A high surrogate. -/
def IsHigh (n : Nat) : Prop := 0xD800 ≤ n ∧ n < 0xDC00

/-- A low surrogate. -/
def IsLow (n : Nat) : Prop := 0xDC00 ≤ n ∧ n < 0xE000

instance (n : Nat) : Decidable (IsHigh n) := inferInstanceAs (Decidable (_ ∧ _))
instance (n : Nat) : Decidable (IsLow n) := inferInstanceAs (Decidable (_ ∧ _))

/-- `json.loads(json.dumps(s))`: a high surrogate before a low one becomes one character. -/
def joinPairs : Str → Str
  | [] => []
  | [c] => [c]
  | c :: d :: rest =>
    if IsHigh c.val ∧ IsLow d.val then joinSurrogates c.val d.val :: joinPairs rest
    else c :: joinPairs (d :: rest)

/-- Text without surrogates has no pair to join. -/
theorem joinPairs_of_scalar {s : Str} (h : Scalar s) : joinPairs s = s := by
  induction s with
  | nil => rfl
  | cons c s ih =>
    have hrest : joinPairs s = s := ih fun d hd => h d (List.mem_cons_of_mem _ hd)
    cases s with
    | nil => rfl
    | cons d rest =>
      have hc : ¬ (IsHigh c.val ∧ IsLow d.val) := fun hp => by
        have hs := h c List.mem_cons_self
        simp only [isSurrogate, Bool.and_eq_false_iff, decide_eq_false_iff_not] at hs
        have := hp.1
        unfold IsHigh at this
        omega
      rw [joinPairs, if_neg hc, hrest]

/-- A hexadecimal digit is read as its value. -/
theorem hexValue_hexDigit {n : Nat} (h : n < 16) : hexValue (hexDigit n) = some n := by
  unfold hexValue hexDigit
  simp only [Fin.val_ofNat]
  split_ifs <;> first | omega | (simp only [Option.some.injEq]; omega)

/-- The four digits of a `\u` escape. -/
theorem hex_four (n : Nat) :
    hex 4 n = [hexDigit (n / 16 / 16 / 16 % 16), hexDigit (n / 16 / 16 % 16), hexDigit (n / 16 % 16),
      hexDigit (n % 16)] := rfl

/-- Four hexadecimal digits are read as the number they write. -/
theorem hexValue4_hexDigits {n : Nat} (h : n < 0x10000) :
    hexValue4 (hexDigit (n / 16 / 16 / 16 % 16)) (hexDigit (n / 16 / 16 % 16))
      (hexDigit (n / 16 % 16)) (hexDigit (n % 16)) = some n := by
  have hlt : ∀ m, m % 16 < 16 := fun m => Nat.mod_lt _ (by decide)
  simp only [hexValue4, hexValue_hexDigit (hlt _), Option.some.injEq]
  omega

/-- A text that does not begin with the escape of a low surrogate. -/
def NoLowEscape (tail : Str) : Prop :=
  ∀ h₁ h₂ h₃ h₄ rest, tail = 92 :: 117 :: h₁ :: h₂ :: h₃ :: h₄ :: rest →
    ∃ m, hexValue4 h₁ h₂ h₃ h₄ = some m ∧ ¬ IsLow m

/-- A character that is not escaped is read as itself. -/
theorem parseString_plain {c : CodePoint} (h34 : c ≠ 34) (h92 : c ≠ 92) (h : 0x20 ≤ c.val)
    (tail : Str) : parseString (c :: tail) = (parseString tail).map fun r => (c :: r.1, r.2) := by
  rw [parseString.eq_def]
  simp only [if_neg h34, if_neg h92, if_neg (Nat.not_lt.mpr h)]

/-- A short escape is read as its character. -/
theorem parseString_escape {k c : CodePoint} (h : simpleEscape k = some c) (hk : k ≠ 117) (tail : Str) :
    parseString (92 :: k :: tail) = (parseString tail).map fun r => (c :: r.1, r.2) := by
  rw [parseString.eq_def]
  simp only [if_neg (show (92 : CodePoint) ≠ 34 by decide), if_pos, if_neg hk, h]

/-- A `\u` escape is read as its code point, unless the other half of its pair follows. -/
theorem parseString_hex {n : Nat} (h : n < 0x10000) {tail : Str}
    (hn : ¬ IsHigh n ∨ NoLowEscape tail) :
    parseString (92 :: 117 :: hex 4 n ++ tail) =
      (parseString tail).map fun r => (Fin.ofNat _ n :: r.1, r.2) := by
  rw [hex_four]
  simp only [List.cons_append, List.nil_append]
  rw [parseString.eq_def]
  simp only [if_neg (show (92 : CodePoint) ≠ 34 by decide), if_pos, hexValue4_hexDigits h]
  split
  next hhigh =>
    rcases hn with hn | hn
    · exact absurd hhigh hn
    split
    next b u l₁ l₂ l₃ l₄ rest =>
      split
      next hbu =>
        obtain ⟨rfl, rfl⟩ := hbu
        obtain ⟨m, hm, hlow⟩ := hn l₁ l₂ l₃ l₄ rest rfl
        simp only [hm]
        exact if_neg hlow
      next => rfl
    next => rfl
  next => rfl

/-- Two `\u` escapes of a surrogate pair are read as one character. -/
theorem parseString_pair {n m : Nat} (hn : IsHigh n) (hm : IsLow m) (tail : Str) :
    parseString (92 :: 117 :: hex 4 n ++ (92 :: 117 :: hex 4 m ++ tail)) =
      (parseString tail).map fun r => (joinSurrogates n m :: r.1, r.2) := by
  have hn' : n < 0x10000 := Nat.lt_trans hn.2 (by decide)
  have hm' : m < 0x10000 := Nat.lt_trans hm.2 (by decide)
  rw [hex_four, hex_four]
  simp only [List.cons_append, List.nil_append]
  rw [parseString.eq_def]
  have hn₀ : 0xD800 ≤ n ∧ n < 0xDC00 := hn
  have hm₀ : 0xDC00 ≤ m ∧ m < 0xE000 := hm
  simp only [if_neg (show (92 : CodePoint) ≠ 34 by decide), if_pos, hexValue4_hexDigits hn',
    hexValue4_hexDigits hm', hn₀, hm₀, and_self]

/-- A surrogate is written as a `\u` escape. -/
theorem dumpsChar_surrogate {c : CodePoint} (h : IsHigh c.val ∨ IsLow c.val) :
    dumpsChar c = 92 :: 117 :: hex 4 c.val := by
  have hc : 0xD800 ≤ c.val ∧ c.val < 0xE000 := by
    rcases h with h | h
    · exact ⟨h.1, Nat.lt_trans h.2 (by decide)⟩
    · exact ⟨Nat.le_trans (by decide) h.1, h.2⟩
  have hne : ∀ d : CodePoint, d.val < 0xD800 → c ≠ d := fun d hd he => by
    rw [he] at hc
    omega
  unfold dumpsChar
  rw [if_neg (not_or.mpr ⟨hne _ (by decide), hne _ (by decide)⟩), if_neg (hne _ (by decide)),
    if_neg (hne _ (by decide)), if_neg (hne _ (by decide)), if_neg (hne _ (by decide)),
    if_neg (hne _ (by decide)), if_neg (show ¬ (0x20 ≤ c.val ∧ c.val ≤ 0x7E) by omega),
    if_pos (show c.val < 0x10000 by omega)]

/-- One written character is read as itself, unless it could be half of a pair. -/
theorem parseString_dumpsChar {c : CodePoint} {tail : Str} (h : ¬ IsHigh c.val ∨ NoLowEscape tail) :
    parseString (dumpsChar c ++ tail) = (parseString tail).map fun r => (c :: r.1, r.2) := by
  unfold dumpsChar
  split_ifs with h₁ h₂ h₃ h₄ h₅ h₆ h₇ h₈
  · rcases h₁ with rfl | rfl
    · exact parseString_escape rfl (by decide) tail
    · exact parseString_escape rfl (by decide) tail
  · exact h₂ ▸ parseString_escape rfl (by decide) tail
  · exact h₃ ▸ parseString_escape rfl (by decide) tail
  · exact h₄ ▸ parseString_escape rfl (by decide) tail
  · exact h₅ ▸ parseString_escape rfl (by decide) tail
  · exact h₆ ▸ parseString_escape rfl (by decide) tail
  · exact parseString_plain (fun h => h₁ (.inl h)) (fun h => h₁ (.inr h)) h₇.1 tail
  · have hc : (Fin.ofNat _ c.val : CodePoint) = c := Fin.ext (Nat.mod_eq_of_lt c.isLt)
    have hread := parseString_hex h₈ h
    rw [hc] at hread
    exact hread
  · have hlt := c.isLt
    have hhigh : IsHigh (0xD800 + (c.val - 0x10000) / 1024) := by
      unfold IsHigh
      omega
    have hlow : IsLow (0xDC00 + (c.val - 0x10000) % 1024) := by
      unfold IsLow
      omega
    have hjoin : joinSurrogates (0xD800 + (c.val - 0x10000) / 1024)
        (0xDC00 + (c.val - 0x10000) % 1024) = c := by
      refine Fin.ext ?_
      simp only [joinSurrogates, Fin.val_ofNat]
      omega
    rw [List.append_assoc, parseString_pair hhigh hlow, hjoin]

/-- A closing quote starts no low surrogate. -/
theorem noLowEscape_quote (rest : Str) : NoLowEscape (34 :: rest) := by
  intro h₁ h₂ h₃ h₄ rest' heq
  exact absurd (List.cons.inj heq).1 (by decide)

/-- What is written for a character other than a low surrogate starts no escape of one. -/
theorem noLowEscape_dumpsChar {c : CodePoint} (h : ¬ IsLow c.val) (tail : Str) :
    NoLowEscape (dumpsChar c ++ tail) := by
  intro a₁ a₂ a₃ a₄ rest heq
  have hletter : ∀ k : CodePoint, k ≠ 117 →
      92 :: k :: tail ≠ 92 :: 117 :: a₁ :: a₂ :: a₃ :: a₄ :: rest := fun k hk he =>
    hk (List.cons.inj (List.cons.inj he).2).1
  have hhex : ∀ n tail', n < 0x10000 → ¬ IsLow n →
      92 :: 117 :: hex 4 n ++ tail' = 92 :: 117 :: a₁ :: a₂ :: a₃ :: a₄ :: rest →
      ∃ m, hexValue4 a₁ a₂ a₃ a₄ = some m ∧ ¬ IsLow m := fun n tail' hn hlow he => by
    rw [hex_four] at he
    simp only [List.cons_append, List.nil_append, List.cons.injEq, true_and] at he
    obtain ⟨rfl, rfl, rfl, rfl, -⟩ := he
    exact ⟨n, hexValue4_hexDigits hn, hlow⟩
  unfold dumpsChar at heq
  split_ifs at heq with h₁ h₂ h₃ h₄ h₅ h₆ h₇ h₈
  · refine absurd heq (hletter c fun hc => ?_)
    rcases h₁ with rfl | rfl <;> exact absurd hc (by decide)
  · exact absurd heq (hletter _ (by decide))
  · exact absurd heq (hletter _ (by decide))
  · exact absurd heq (hletter _ (by decide))
  · exact absurd heq (hletter _ (by decide))
  · exact absurd heq (hletter _ (by decide))
  · exact absurd (List.cons.inj heq).1 fun hc => h₁ (.inr hc)
  · exact hhex _ tail h₈ h heq
  · have hlt := c.isLt
    rw [List.append_assoc] at heq
    refine hhex _ _ (by omega) (fun hlow => ?_) heq
    have := hlow.1
    omega

/-- **Reading back a written string.** -/
theorem parseString_dumps (s rest : Str) :
    parseString (s.flatMap dumpsChar ++ 34 :: rest) = some (joinPairs s, rest) := by
  induction s using joinPairs.induct with
  | case1 =>
    rw [List.flatMap_nil, List.nil_append, parseString.eq_def]
    rfl
  | case2 c =>
    rw [List.flatMap_cons, List.flatMap_nil, List.append_nil,
      parseString_dumpsChar (.inr (noLowEscape_quote rest)), parseString.eq_def]
    rfl
  | case3 c d s h ih =>
    obtain ⟨hc, hd⟩ := h
    rw [List.flatMap_cons, List.flatMap_cons, dumpsChar_surrogate (.inl hc),
      dumpsChar_surrogate (.inr hd), List.append_assoc, List.append_assoc,
      parseString_pair hc hd, ih, joinPairs, if_pos ⟨hc, hd⟩]
    rfl
  | case4 c d s h ih =>
    have hnext : ¬ IsHigh c.val ∨ NoLowEscape ((d :: s).flatMap dumpsChar ++ 34 :: rest) := by
      by_cases hc : IsHigh c.val
      · rw [List.flatMap_cons, List.append_assoc]
        exact .inr (noLowEscape_dumpsChar (fun hd => h ⟨hc, hd⟩) _)
      · exact .inl hc
    rw [List.flatMap_cons, List.append_assoc, parseString_dumpsChar hnext, ih, joinPairs, if_neg h]
    rfl

/-! ## Reading back a value -/

/-- How the text of a string, a list or a dict begins. -/
def Opens (c : CodePoint) : Prop := c = 34 ∨ c = 91 ∨ c = 123

/-- What opens a value is no space. -/
theorem Opens.not_space {c : CodePoint} (h : Opens c) : isJsonSpace c = false := by
  rcases h with rfl | rfl | rfl <;> decide

/-- What opens a value is not what does not. -/
theorem Opens.ne {c d : CodePoint} (h : Opens c) (hd : ¬ Opens d) : c ≠ d := fun he => hd (he ▸ h)

/-- `text` reads as `v` when `depth` levels may be opened, whatever comes behind it. -/
structure Parses (depth : Nat) (text : Str) (v : Json) : Prop where
  head : ∃ c rest, text = c :: rest ∧ Opens c
  reads : ∀ fuel d rest, text.length < fuel → depth ≤ d →
    parseValue fuel d (text ++ rest) = .ok (v, rest)

/-- A separator: the character `c`, then whitespace. -/
def IsSeparator (c : CodePoint) (sep : Str) : Prop :=
  ∃ spaces : Str, sep = c :: spaces ∧ ∀ d ∈ spaces, isJsonSpace d = true

/-- The item separator that `json.dumps` writes by default. -/
theorem isSeparator_default : IsSeparator 44 (str ", ") :=
  ⟨[32], rfl, fun _ hd => List.mem_singleton.mp hd ▸ rfl⟩

/-- The key separator that `json.dumps` writes by default. -/
theorem isSeparator_colon_default : IsSeparator 58 (str ": ") :=
  ⟨[32], rfl, fun _ hd => List.mem_singleton.mp hd ▸ rfl⟩

/-- Spaces are skipped. -/
theorem skipSpace_append {spaces : Str} (h : ∀ d ∈ spaces, isJsonSpace d = true) (rest : Str) :
    skipSpace (spaces ++ rest) = skipSpace rest := by
  unfold skipSpace
  exact List.dropWhile_append_of_pos h

/-- Nothing is skipped before what is no space. -/
theorem skipSpace_cons {c : CodePoint} (h : isJsonSpace c = false) (rest : Str) :
    skipSpace (c :: rest) = c :: rest := by
  unfold skipSpace
  exact List.dropWhile_cons_of_neg (by rw [h]; exact Bool.false_ne_true)

variable {depth : Nat} {text : Str} {v : Json}

/-- Nothing is skipped before the text of a value. -/
theorem Parses.skipSpace_eq (h : Parses depth text v) (rest : Str) :
    skipSpace (text ++ rest) = text ++ rest := by
  obtain ⟨c, tail, rfl, hc⟩ := h.head
  exact skipSpace_cons hc.not_space _

/-- A value is read where more depth is allowed. -/
theorem Parses.mono {depth' : Nat} (h : Parses depth text v) (hd : depth ≤ depth') :
    Parses depth' text v :=
  ⟨h.head, fun fuel d rest hf hle => h.reads fuel d rest hf (Nat.le_trans hd hle)⟩

/-- **A string that was written is read back**, its surrogate pairs joined. -/
theorem parses_dumpsStr (s : Str) : Parses 0 (dumpsStr s) (.str (joinPairs s)) where
  head := ⟨34, _, rfl, .inl rfl⟩
  reads fuel d rest hf _ := by
    obtain ⟨fuel, rfl⟩ := Nat.exists_eq_add_one_of_ne_zero (Nat.ne_zero_of_lt hf)
    have htext : dumpsStr s ++ rest = 34 :: (s.flatMap dumpsChar ++ 34 :: rest) := by
      simp only [dumpsStr, List.cons_append, List.append_assoc, List.nil_append]
    rw [htext, parseValue.eq_def]
    simp only [if_pos, parseString_dumps]

/-- Nothing is skipped before a list of values. -/
theorem skipSpace_join (sep : Str) {a : Str} (h : Parses depth a v) (texts : List Str) (rest : Str) :
    skipSpace (join sep (a :: texts) ++ rest) = join sep (a :: texts) ++ rest := by
  unfold join
  cases texts with
  | nil =>
    rw [List.intercalate_singleton]
    exact h.skipSpace_eq rest
  | cons b texts =>
    rw [List.intercalate_cons_cons, List.append_assoc, List.append_assoc]
    exact h.skipSpace_eq _

/-- A list of values does not start with the bracket that closes it. -/
theorem join_head (sep : Str) {a : Str} (h : Parses depth a v) (texts : List Str) :
    ∃ c tail, join sep (a :: texts) = c :: tail ∧ c ≠ 93 := by
  obtain ⟨c, tail, rfl, hc⟩ := h.head
  have hne : c ≠ 93 := hc.ne (by unfold Opens; decide)
  cases texts with
  | nil => exact ⟨c, tail, List.intercalate_singleton, hne⟩
  | cons b texts => exact ⟨c, _, List.intercalate_cons_cons, hne⟩

/-- **The items of an array are read back**, each to its value. -/
theorem parseItems_join {sep : Str} (hsep : IsSeparator 44 sep) {a : Str} {w : Json}
    {texts : List Str} {vals : List Json} (ha : Parses depth a w)
    (h : List.Forall₂ (Parses depth) texts vals) (fuel d : Nat) (rest : Str)
    (hf : (join sep (a :: texts)).length + 1 < fuel) (hd : depth ≤ d) :
    parseItems fuel d (join sep (a :: texts) ++ 93 :: rest) = .ok (w :: vals, rest) := by
  obtain ⟨spaces, rfl, hspaces⟩ := hsep
  induction h generalizing a w fuel with
  | nil =>
    obtain ⟨fuel, rfl⟩ := Nat.exists_eq_add_one_of_ne_zero (Nat.ne_zero_of_lt hf)
    rw [join, List.intercalate_singleton] at hf ⊢
    rw [parseItems, ha.reads fuel d _ (by omega) hd]
    simp only [skipSpace_cons (show isJsonSpace 93 = false by decide), if_pos]
  | @cons b u texts vals hb _ ih =>
    obtain ⟨fuel, rfl⟩ := Nat.exists_eq_add_one_of_ne_zero (Nat.ne_zero_of_lt hf)
    have hnext := skipSpace_join (44 :: spaces) hb texts (93 :: rest)
    have hjoin : join (44 :: spaces) (a :: b :: texts) =
        a ++ 44 :: (spaces ++ join (44 :: spaces) (b :: texts)) := by
      simp only [join, List.intercalate_cons_cons, List.append_assoc, List.cons_append]
    rw [hjoin] at hf ⊢
    simp only [List.length_append, List.length_cons] at hf
    rw [parseItems, List.append_assoc, ha.reads fuel d _ (by omega) hd]
    simp only [List.cons_append, List.append_assoc, if_pos, skipSpace_append hspaces, hnext,
      skipSpace_cons (show isJsonSpace 44 = false by decide),
      if_neg (show (44 : CodePoint) ≠ 93 by decide)]
    rw [ih hb fuel (by omega)]
    rfl

/-- An array that was written is read back. -/
theorem parses_dumpsArray {sep : Str} (hsep : IsSeparator 44 sep) {texts : List Str}
    {vals : List Json} (h : List.Forall₂ (Parses depth) texts vals) :
    Parses (depth + 1) (dumpsArray sep texts) (.arr vals) where
  head := ⟨91, _, rfl, .inr (.inl rfl)⟩
  reads fuel d rest hf hd := by
    obtain ⟨fuel, rfl⟩ := Nat.exists_eq_add_one_of_ne_zero (Nat.ne_zero_of_lt hf)
    obtain ⟨d, rfl⟩ := Nat.exists_eq_add_one_of_ne_zero (show d ≠ 0 by omega)
    have htext : dumpsArray sep texts ++ rest = 91 :: (join sep texts ++ 93 :: rest) := by
      simp only [dumpsArray, List.cons_append, List.append_assoc, List.nil_append]
    have hlen : (dumpsArray sep texts).length = (join sep texts).length + 2 := by
      simp only [dumpsArray, List.length_append, List.length_cons, List.length_nil]
    rw [htext, parseValue.eq_def]
    simp only [if_neg (show (91 : CodePoint) ≠ 34 by decide), if_pos]
    cases h with
    | nil =>
      simp only [join, List.intercalate_nil, List.nil_append, if_pos,
        skipSpace_cons (show isJsonSpace 93 = false by decide)]
    | @cons a w texts vals ha h =>
      have hitems := parseItems_join hsep ha h fuel d rest (by omega) (by omega)
      obtain ⟨c, tail, hcons, hne⟩ := join_head sep ha texts
      rw [skipSpace_join sep ha]
      rw [hcons] at hitems ⊢
      simp only [List.cons_append] at hitems ⊢
      rw [if_neg hne, hitems]
      rfl

/-- The members of an object, from their keys, the texts of their values and the values. -/
inductive ParsesMembers (depth : Nat) : List (Str × Str) → List (Str × Json) → Prop where
  | nil : ParsesMembers depth [] []
  | cons (key : Str) {text : Str} {v : Json} {texts : List (Str × Str)} {vals : List (Str × Json)}
      (head : Parses depth text v) (tail : ParsesMembers depth texts vals) :
      ParsesMembers depth ((key, text) :: texts) ((joinPairs key, v) :: vals)

/-- A list of members starts with the quote of a key. -/
theorem join_members_head (sep colon : Str) (m : Str × Str) (texts : List (Str × Str)) :
    ∃ tail, join sep ((m :: texts).map (dumpsMember colon)) = 34 :: tail := by
  cases texts with
  | nil => exact ⟨_, List.intercalate_singleton⟩
  | cons b texts => exact ⟨_, List.intercalate_cons_cons⟩

/-- What every member begins with: its key, the colon, its value. -/
theorem parseMembers_read {colon : Str} (hcolon : IsSeparator 58 colon) {key a : Str} {w : Json}
    {fuel d : Nat} {tail : Str} (hskip : skipSpace (a ++ tail) = a ++ tail)
    (hread : parseValue fuel d (a ++ tail) = .ok (w, tail)) :
    parseMembers (fuel + 1) d (dumpsMember colon (key, a) ++ tail) =
      match skipSpace tail with
      | [] => .error .malformed
      | e :: rest =>
        if e = 125 then .ok ([(joinPairs key, w)], rest)
        else if e = 44 then
          (parseMembers fuel d (skipSpace rest)).map fun r => ((joinPairs key, w) :: r.1, r.2)
        else .error .malformed := by
  obtain ⟨blanks, rfl, hblanks⟩ := hcolon
  have htext : dumpsMember (58 :: blanks) (key, a) ++ tail =
      34 :: (key.flatMap dumpsChar ++ 34 :: (58 :: (blanks ++ (a ++ tail)))) := by
    simp only [dumpsMember, dumpsStr, List.cons_append, List.append_assoc, List.nil_append]
  rw [htext, parseMembers]
  simp only [if_pos, parseString_dumps, skipSpace_cons (show isJsonSpace 58 = false by decide),
    skipSpace_append hblanks, hskip, hread]

/-- One member is read, key and value, and then what follows it. -/
theorem parseMembers_member {colon : Str} (hcolon : IsSeparator 58 colon) {key a : Str} {w : Json}
    (ha : Parses depth a w) (fuel d : Nat) (tail : Str) (hf : a.length < fuel) (hd : depth ≤ d) :
    parseMembers (fuel + 1) d (dumpsMember colon (key, a) ++ tail) =
      match skipSpace tail with
      | [] => .error .malformed
      | e :: rest =>
        if e = 125 then .ok ([(joinPairs key, w)], rest)
        else if e = 44 then
          (parseMembers fuel d (skipSpace rest)).map fun r => ((joinPairs key, w) :: r.1, r.2)
        else .error .malformed :=
  parseMembers_read hcolon (ha.skipSpace_eq tail) (ha.reads fuel d tail hf hd)

/-- **The members of an object are read back**, in their order. -/
theorem parseMembers_join {sep colon : Str} (hsep : IsSeparator 44 sep)
    (hcolon : IsSeparator 58 colon) (key : Str) {a : Str} {w : Json} {texts : List (Str × Str)}
    {vals : List (Str × Json)} (ha : Parses depth a w) (h : ParsesMembers depth texts vals)
    (fuel d : Nat) (rest : Str)
    (hf : (join sep (((key, a) :: texts).map (dumpsMember colon))).length + 1 < fuel)
    (hd : depth ≤ d) :
    parseMembers fuel d (join sep (((key, a) :: texts).map (dumpsMember colon)) ++ 125 :: rest) =
      .ok ((joinPairs key, w) :: vals, rest) := by
  have hlen : ∀ key a : Str, a.length < (dumpsMember colon (key, a)).length := fun key a => by
    simp only [dumpsMember, dumpsStr, List.length_append, List.length_cons]
    omega
  obtain ⟨spaces, rfl, hspaces⟩ := hsep
  induction h generalizing key a w fuel with
  | nil =>
    obtain ⟨fuel, rfl⟩ := Nat.exists_eq_add_one_of_ne_zero (Nat.ne_zero_of_lt hf)
    simp only [List.map_cons, List.map_nil, join, List.intercalate_singleton] at hf ⊢
    have := hlen key a
    rw [parseMembers_member hcolon ha fuel d _ (by omega) hd,
      skipSpace_cons (show isJsonSpace 125 = false by decide)]
    rfl
  | @cons k b u texts vals hb _ ih =>
    obtain ⟨fuel, rfl⟩ := Nat.exists_eq_add_one_of_ne_zero (Nat.ne_zero_of_lt hf)
    obtain ⟨tail, hhead⟩ := join_members_head (44 :: spaces) colon (k, b) texts
    have hjoin : join (44 :: spaces) (((key, a) :: (k, b) :: texts).map (dumpsMember colon)) =
        dumpsMember colon (key, a) ++
          44 :: (spaces ++ join (44 :: spaces) (((k, b) :: texts).map (dumpsMember colon))) := by
      simp only [join, List.map_cons, List.intercalate_cons_cons, List.append_assoc,
        List.cons_append]
    rw [hjoin] at hf ⊢
    simp only [List.length_append, List.length_cons] at hf
    have := hlen key a
    have ih := ih k hb fuel (by omega)
    rw [hhead] at ih ⊢
    rw [List.append_assoc, parseMembers_member hcolon ha fuel d _ (by omega) hd]
    simp only [List.cons_append, List.append_assoc, skipSpace_append hspaces,
      skipSpace_cons (show isJsonSpace 44 = false by decide),
      skipSpace_cons (show isJsonSpace 34 = false by decide), if_pos,
      if_neg (show (44 : CodePoint) ≠ 125 by decide)] at ih ⊢
    rw [ih]
    rfl

/-- An object that was written is read back. -/
theorem parses_dumpsObject {sep colon : Str} (hsep : IsSeparator 44 sep)
    (hcolon : IsSeparator 58 colon) {texts : List (Str × Str)} {vals : List (Str × Json)}
    (h : ParsesMembers depth texts vals) :
    Parses (depth + 1) (dumpsObject sep colon texts) (.obj vals) where
  head := ⟨123, _, rfl, .inr (.inr rfl)⟩
  reads fuel d rest hf hd := by
    obtain ⟨fuel, rfl⟩ := Nat.exists_eq_add_one_of_ne_zero (Nat.ne_zero_of_lt hf)
    obtain ⟨d, rfl⟩ := Nat.exists_eq_add_one_of_ne_zero (show d ≠ 0 by omega)
    have htext : dumpsObject sep colon texts ++ rest =
        123 :: (join sep (texts.map (dumpsMember colon)) ++ 125 :: rest) := by
      simp only [dumpsObject, List.cons_append, List.append_assoc, List.nil_append]
    have hlen : (dumpsObject sep colon texts).length =
        (join sep (texts.map (dumpsMember colon))).length + 2 := by
      simp only [dumpsObject, List.length_append, List.length_cons, List.length_nil]
    rw [htext, parseValue.eq_def]
    simp only [if_neg (show (123 : CodePoint) ≠ 34 by decide),
      if_neg (show (123 : CodePoint) ≠ 91 by decide), if_pos]
    cases h with
    | nil =>
      simp only [List.map_nil, join, List.intercalate_nil, List.nil_append,
        skipSpace_cons (show isJsonSpace 125 = false by decide), if_pos]
    | @cons key a w texts vals ha h =>
      have hmembers := parseMembers_join hsep hcolon key ha h fuel d rest (by omega) (by omega)
      obtain ⟨tail, hhead⟩ := join_members_head sep colon (key, a) texts
      rw [hhead] at hmembers ⊢
      simp only [List.cons_append] at hmembers ⊢
      rw [skipSpace_cons (show isJsonSpace 34 = false by decide)]
      simp only [if_neg (show (34 : CodePoint) ≠ 125 by decide), hmembers]
      rfl

/-- **A written value is what `json.loads` reads**, if it is not nested too deep. -/
theorem Parses.jsonLoads [Interpreter] (h : Parses depth text v)
    (hd : depth ≤ Interpreter.jsonNesting) : jsonLoads text = .ok v := by
  obtain ⟨c, tail, hcons, hc⟩ := h.head
  have hne : text.head? ≠ some 0xFEFF := fun he => by
    rw [hcons] at he
    exact hc.ne (by unfold Opens; decide) (Option.some.inj he)
  have hread := h.reads (text.length + 1) Interpreter.jsonNesting [] (Nat.lt_succ_self _) hd
  rw [List.append_nil] at hread
  have hskip := h.skipSpace_eq []
  rw [List.append_nil] at hskip
  unfold Py.jsonLoads
  rw [if_neg hne, hskip, hread]
  rfl

/-! ## What is written is text -/

/-- Hexadecimal digits are no surrogates. -/
theorem scalar_hex (width n : Nat) : Scalar (hex width n) := by
  induction width generalizing n with
  | zero => exact scalar_nil
  | succ width ih =>
    have hdigit : ∀ d < 16, isSurrogate (hexDigit d) = false := by decide
    refine (ih (n / 16)).append fun c hc => ?_
    rw [List.mem_singleton.mp hc]
    exact hdigit _ (Nat.mod_lt _ (by decide))

/-- What is written for a character holds no surrogate. -/
theorem scalar_dumpsChar (c : CodePoint) : Scalar (dumpsChar c) := by
  have hpair : ∀ d : CodePoint, isSurrogate d = false → Scalar [92, d] := fun d hd =>
    .cons (by decide) (.cons hd scalar_nil)
  have hescape : ∀ n, Scalar (92 :: 117 :: hex 4 n) := fun n =>
    .cons (by decide) (.cons (by decide) (scalar_hex 4 n))
  unfold dumpsChar
  split
  next h =>
    rcases h with rfl | rfl
    · exact hpair 34 (by decide)
    · exact hpair 92 (by decide)
  split_ifs with h₁ h₂ h₃ h₄ h₅ h₆ h₇
  · exact hpair _ (by decide)
  · exact hpair _ (by decide)
  · exact hpair _ (by decide)
  · exact hpair _ (by decide)
  · exact hpair _ (by decide)
  · have hplain : isSurrogate c = false := by
      rw [isSurrogate, decide_eq_false (by omega), Bool.false_and]
    exact .cons hplain scalar_nil
  · exact hescape _
  · exact (hescape _).append (hescape _)

/-- What is written for a string holds no surrogate. -/
theorem scalar_dumpsStr (s : Str) : Scalar (dumpsStr s) := by
  have hchars : Scalar (s.flatMap dumpsChar) := fun c hc => by
    obtain ⟨d, -, hd⟩ := List.mem_flatMap.mp hc
    exact scalar_dumpsChar d c hd
  exact (Scalar.cons (by decide) hchars).append (.cons (by decide) scalar_nil)

/-- A joined text holds no surrogate if its parts and its separator hold none. -/
theorem scalar_join {sep : Str} (hsep : Scalar sep) {parts : List Str} (h : ∀ p ∈ parts, Scalar p) :
    Scalar (join sep parts) := by
  induction parts with
  | nil => exact scalar_nil
  | cons p parts ih =>
    have hrest := ih fun q hq => h q (List.mem_cons_of_mem _ hq)
    cases parts with
    | nil =>
      rw [join, List.intercalate_singleton]
      exact h p List.mem_cons_self
    | cons q parts =>
      rw [join, List.intercalate_cons_cons]
      exact ((h p List.mem_cons_self).append hsep).append hrest

/-- **`json.dumps` writes no surrogates**, whatever the strings are. -/
theorem scalar_dumpsObject {sep colon : Str} (hsep : Scalar sep) (hcolon : Scalar colon)
    {members : List (Str × Str)} (h : ∀ m ∈ members, Scalar m.2) :
    Scalar (dumpsObject sep colon members) := by
  have hmembers : Scalar (join sep (members.map (dumpsMember colon))) := by
    refine scalar_join hsep fun p hp => ?_
    obtain ⟨m, hm, rfl⟩ := List.mem_map.mp hp
    exact ((scalar_dumpsStr m.1).append hcolon).append (h m hm)
  exact (Scalar.cons (by decide) hmembers).append (.cons (by decide) scalar_nil)

end Py
