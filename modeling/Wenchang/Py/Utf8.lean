import Wenchang.Py.Repr

/-!
# UTF-8

`str.encode("utf-8")` and `bytes.decode("utf-8")` with the strict error handler, which names the
first offending position, and the size of a string encoded with `surrogatepass`. The strict encoder
refuses surrogates and nothing else (`utf8Encode_eq_ok`), and what it wrote, the decoder reads back
(`utf8Decode_encode`).
-/

namespace Py

/-- A number as a byte. -/
def byte (n : Nat) : Byte := Fin.ofNat _ n

/-- The bytes of one code point. For a surrogate, those `surrogatepass` writes. -/
def utf8EncodeChar (c : CodePoint) : Bytes :=
  let v := c.val
  if v < 0x80 then [byte v]
  else if v < 0x800 then [byte (0xC0 + v / 64), byte (0x80 + v % 64)]
  else if v < 0x10000 then
    [byte (0xE0 + v / 4096), byte (0x80 + v / 64 % 64), byte (0x80 + v % 64)]
  else
    [byte (0xF0 + v / 262144), byte (0x80 + v / 4096 % 64), byte (0x80 + v / 64 % 64),
      byte (0x80 + v % 64)]

/-- `s.encode("utf-8", errors="surrogatepass")`. -/
def utf8EncodePass (s : Str) : Bytes := s.flatMap utf8EncodeChar

/-- `UnicodeEncodeError` of the UTF-8 codec: the run of surrogates from `start` to before `stop`,
the first of them `char`. -/
structure UnicodeEncodeError where
  start : Nat
  stop : Nat
  char : CodePoint
  deriving DecidableEq

/-- `str(exc)`. -/
def UnicodeEncodeError.message (e : UnicodeEncodeError) : Str :=
  if e.stop = e.start + 1 then
    str "'utf-8' codec can't encode character '\\u" ++ hex 4 e.char.val ++ str "' in position " ++
      ofNat e.start ++ str ": surrogates not allowed"
  else
    str "'utf-8' codec can't encode characters in position " ++ ofNat e.start ++ str "-" ++
      ofNat (e.stop - 1) ++ str ": surrogates not allowed"

/-- `s.encode("utf-8")`. -/
def utf8Encode (s : Str) : Except UnicodeEncodeError Bytes :=
  match s.dropWhile (!isSurrogate ·) with
  | [] => .ok (utf8EncodePass s)
  | c :: rest =>
    let start := (s.takeWhile (!isSurrogate ·)).length
    .error ⟨start, start + 1 + (rest.takeWhile isSurrogate).length, c⟩

/-- `UnicodeDecodeError` of the UTF-8 codec: the bytes from `start` to before `stop`, the first of
them `byte`, are refused for `reason`. -/
structure UnicodeDecodeError where
  start : Nat
  stop : Nat
  byte : Byte
  reason : Str
  deriving DecidableEq

/-- `str(exc)`. -/
def UnicodeDecodeError.message (e : UnicodeDecodeError) : Str :=
  if e.stop = e.start + 1 then
    str "'utf-8' codec can't decode byte 0x" ++ hex 2 e.byte.val ++ str " in position " ++
      ofNat e.start ++ str ": " ++ e.reason
  else
    str "'utf-8' codec can't decode bytes in position " ++ ofNat e.start ++ str "-" ++
      ofNat (e.stop - 1) ++ str ": " ++ e.reason

/-- A continuation byte. -/
def isContinuation (b : Byte) : Bool := 0x80 ≤ b.val && b.val < 0xC0

/-- The code point that starts at `b`, with `rest` behind it, and the number of bytes it takes; or
how many bytes are refused, and why. -/
def utf8DecodeChar (b : Byte) (rest : Bytes) : Except (Nat × Str) (CodePoint × Nat) :=
  let invalidStart := .error (1, str "invalid start byte")
  let invalidContinuation := fun n => .error (n, str "invalid continuation byte")
  let unexpectedEnd := .error (rest.length + 1, str "unexpected end of data")
  let v := b.val
  if v < 0x80 then .ok (Fin.ofNat _ v, 1)
  else if v < 0xC2 then invalidStart
  else if v < 0xE0 then
    match rest with
    | [] => unexpectedEnd
    | b₁ :: _ =>
      if !isContinuation b₁ then invalidContinuation 1
      else .ok (Fin.ofNat _ ((v - 0xC0) * 64 + (b₁.val - 0x80)), 2)
  else if v < 0xF0 then
    match rest with
    | [] => unexpectedEnd
    | b₁ :: rest =>
      -- overlong forms and surrogates are refused at the second byte
      if !isContinuation b₁ || (v == 0xE0 && b₁.val < 0xA0) || (v == 0xED && 0xA0 ≤ b₁.val) then
        invalidContinuation 1
      else
        match rest with
        | [] => unexpectedEnd
        | b₂ :: _ =>
          if !isContinuation b₂ then invalidContinuation 2
          else .ok (Fin.ofNat _ ((v - 0xE0) * 4096 + (b₁.val - 0x80) * 64 + (b₂.val - 0x80)), 3)
  else if v < 0xF5 then
    match rest with
    | [] => unexpectedEnd
    | b₁ :: rest =>
      if !isContinuation b₁ || (v == 0xF0 && b₁.val < 0x90) || (v == 0xF4 && 0x90 ≤ b₁.val) then
        invalidContinuation 1
      else
        match rest with
        | [] => unexpectedEnd
        | b₂ :: rest =>
          if !isContinuation b₂ then invalidContinuation 2
          else
            match rest with
            | [] => unexpectedEnd
            | b₃ :: _ =>
              if !isContinuation b₃ then invalidContinuation 3
              else .ok (Fin.ofNat _ ((v - 0xF0) * 262144 + (b₁.val - 0x80) * 4096 +
                (b₂.val - 0x80) * 64 + (b₃.val - 0x80)), 4)
  else invalidStart

/-- Decode from position `pos`. The next `skip` bytes belong to a code point already decoded. -/
def utf8DecodeFrom (pos skip : Nat) : Bytes → Except UnicodeDecodeError Str
  | [] => .ok []
  | b :: rest =>
    match skip with
    | skip + 1 => utf8DecodeFrom (pos + 1) skip rest
    | 0 =>
      match utf8DecodeChar b rest with
      | .error (n, reason) => .error ⟨pos, pos + n, b, reason⟩
      | .ok (c, width) => (utf8DecodeFrom (pos + 1) (width - 1) rest).map (c :: ·)

/-- `data.decode("utf-8")`. -/
def utf8Decode (data : Bytes) : Except UnicodeDecodeError Str := utf8DecodeFrom 0 0 data

/-! ## What the strict encoder accepts -/

/-- Text is scalar where nothing is left from a surrogate on. -/
theorem dropWhile_eq_nil_iff_scalar {s : Str} : s.dropWhile (!isSurrogate ·) = [] ↔ Scalar s := by
  simp only [List.dropWhile_eq_nil_iff, Bool.not_eq_true', Scalar]

/-- The strict encoder accepts exactly the strings without a surrogate. -/
theorem utf8Encode_eq_ok {s : Str} {data : Bytes} :
    utf8Encode s = .ok data ↔ Scalar s ∧ data = utf8EncodePass s := by
  unfold utf8Encode
  split
  · next h =>
    rw [dropWhile_eq_nil_iff_scalar] at h
    exact ⟨fun heq => ⟨h, (Except.ok.inj heq).symm⟩, fun heq => congrArg _ heq.2.symm⟩
  · next c rest h =>
    refine ⟨fun heq => (nomatch heq), fun heq => ?_⟩
    rw [dropWhile_eq_nil_iff_scalar.mpr heq.1] at h
    cases h

/-- Scalar text is encoded. -/
theorem utf8Encode_of_scalar {s : Str} (h : Scalar s) : utf8Encode s = .ok (utf8EncodePass s) :=
  utf8Encode_eq_ok.mpr ⟨h, rfl⟩

/-! ## Decoding what was encoded -/

/-- The value of a byte in range. -/
theorem byte_val {n : Nat} (h : n < 256) : (byte n).val = n := Nat.mod_eq_of_lt h

/-- A byte of six bits and the mark is a continuation. -/
theorem isContinuation_byte {n : Nat} (h : n < 64) : isContinuation (byte (0x80 + n)) = true := by
  unfold isContinuation
  rw [byte_val (by omega)]
  simp only [Bool.and_eq_true, decide_eq_true_eq]
  omega

section

variable {b b₁ b₂ b₃ : Byte} {rest : Bytes}

/-- One byte. -/
theorem utf8DecodeChar_one (h : b.val < 0x80) :
    utf8DecodeChar b rest = .ok (Fin.ofNat _ b.val, 1) := by
  unfold utf8DecodeChar
  exact if_pos h

/-- Two bytes. -/
theorem utf8DecodeChar_two (h : 0xC2 ≤ b.val) (h' : b.val < 0xE0) (h₁ : isContinuation b₁ = true) :
    utf8DecodeChar b (b₁ :: rest) =
      .ok (Fin.ofNat _ ((b.val - 0xC0) * 64 + (b₁.val - 0x80)), 2) := by
  unfold utf8DecodeChar
  simp only
  rw [if_neg (show ¬ b.val < 0x80 by omega), if_neg (show ¬ b.val < 0xC2 by omega), if_pos h', h₁]
  rfl

/-- Three bytes, neither overlong nor a surrogate. -/
theorem utf8DecodeChar_three (h : 0xE0 ≤ b.val) (h' : b.val < 0xF0)
    (h₁ : isContinuation b₁ = true) (h₂ : isContinuation b₂ = true)
    (hover : b.val = 0xE0 → 0xA0 ≤ b₁.val) (hsur : b.val = 0xED → b₁.val < 0xA0) :
    utf8DecodeChar b (b₁ :: b₂ :: rest) = .ok
      (Fin.ofNat _ ((b.val - 0xE0) * 4096 + (b₁.val - 0x80) * 64 + (b₂.val - 0x80)), 3) := by
  unfold utf8DecodeChar
  simp only
  rw [if_neg (show ¬ b.val < 0x80 by omega), if_neg (show ¬ b.val < 0xC2 by omega),
    if_neg (show ¬ b.val < 0xE0 by omega), if_pos h', if_neg ?_, h₂]
  · rfl
  · simp only [h₁, Bool.not_true, Bool.false_or, Bool.or_eq_true, Bool.and_eq_true, beq_iff_eq,
      decide_eq_true_eq]
    omega

/-- Four bytes, neither overlong nor too large. -/
theorem utf8DecodeChar_four (h : 0xF0 ≤ b.val) (h' : b.val < 0xF5)
    (h₁ : isContinuation b₁ = true) (h₂ : isContinuation b₂ = true)
    (h₃ : isContinuation b₃ = true)
    (hover : b.val = 0xF0 → 0x90 ≤ b₁.val) (hmax : b.val = 0xF4 → b₁.val < 0x90) :
    utf8DecodeChar b (b₁ :: b₂ :: b₃ :: rest) = .ok
      (Fin.ofNat _ ((b.val - 0xF0) * 262144 + (b₁.val - 0x80) * 4096 + (b₂.val - 0x80) * 64 +
        (b₃.val - 0x80)), 4) := by
  unfold utf8DecodeChar
  simp only
  rw [if_neg (show ¬ b.val < 0x80 by omega), if_neg (show ¬ b.val < 0xC2 by omega),
    if_neg (show ¬ b.val < 0xE0 by omega), if_neg (show ¬ b.val < 0xF0 by omega), if_pos h',
    if_neg ?_, h₂, h₃]
  · rfl
  · simp only [h₁, Bool.not_true, Bool.false_or, Bool.or_eq_true, Bool.and_eq_true, beq_iff_eq,
      decide_eq_true_eq]
    omega

end

/-- A code point's bytes are read back as the code point and their own number. -/
theorem utf8DecodeChar_encodeChar {c : CodePoint} (hc : isSurrogate c = false) (rest : Bytes) :
    ∃ b tail, utf8EncodeChar c = b :: tail ∧
      utf8DecodeChar b (tail ++ rest) = .ok (c, tail.length + 1) := by
  have hlt := c.isLt
  have hsur : ¬ (0xD800 ≤ c.val ∧ c.val < 0xE000) := by
    simpa only [isSurrogate, Bool.and_eq_false_iff, decide_eq_false_iff_not, not_and_or] using hc
  have hpoint : ∀ {n : Nat}, n = c.val → (Fin.ofNat 0x110000 n : CodePoint) = c := by
    rintro _ rfl
    exact Fin.ext (Nat.mod_eq_of_lt hlt)
  have hcont : ∀ n : Nat, (byte (0x80 + n % 64)).val = 0x80 + n % 64 := fun n =>
    byte_val (by omega)
  have hmod : ∀ n : Nat, isContinuation (byte (0x80 + n % 64)) = true := fun n =>
    isContinuation_byte (Nat.mod_lt _ (by decide))
  unfold utf8EncodeChar
  simp only
  split_ifs with h₁ h₂ h₃
  · have hb : (byte c.val).val = c.val := byte_val (by omega)
    refine ⟨_, _, rfl, (utf8DecodeChar_one (by omega)).trans ?_⟩
    rw [hb, hpoint rfl]
    rfl
  · have hb : (byte (0xC0 + c.val / 64)).val = 0xC0 + c.val / 64 := byte_val (by omega)
    refine ⟨_, _, rfl, (utf8DecodeChar_two (by omega) (by omega) (hmod _)).trans ?_⟩
    rw [hb, hcont, hpoint (by omega)]
    rfl
  · have hb : (byte (0xE0 + c.val / 4096)).val = 0xE0 + c.val / 4096 := byte_val (by omega)
    have hb₁ := hcont (c.val / 64)
    refine ⟨_, _, rfl, (utf8DecodeChar_three (by omega) (by omega) (hmod _) (hmod _)
      (fun _ => by omega) (fun _ => by omega)).trans ?_⟩
    rw [hb, hb₁, hcont, hpoint (by omega)]
    rfl
  · have hb : (byte (0xF0 + c.val / 262144)).val = 0xF0 + c.val / 262144 := byte_val (by omega)
    have hb₁ := hcont (c.val / 4096)
    refine ⟨_, _, rfl, (utf8DecodeChar_four (by omega) (by omega) (hmod _) (hmod _) (hmod _)
      (fun _ => by omega) (fun _ => by omega)).trans ?_⟩
    rw [hb, hb₁, hcont, hcont, hpoint (by omega)]
    rfl

/-- The decoder steps over the rest of a code point it has decoded. -/
theorem utf8DecodeFrom_skip (tail rest : Bytes) (pos : Nat) :
    utf8DecodeFrom pos tail.length (tail ++ rest) = utf8DecodeFrom (pos + tail.length) 0 rest := by
  induction tail generalizing pos with
  | nil => rfl
  | cons b tail ih =>
    rw [List.length_cons, List.cons_append, utf8DecodeFrom, ih]
    congr 1
    omega

/-- **Scalar text is read back** from its bytes. -/
theorem utf8DecodeFrom_encodePass (pos : Nat) {s : Str} (h : Scalar s) :
    utf8DecodeFrom pos 0 (utf8EncodePass s) = .ok s := by
  induction s generalizing pos with
  | nil => rfl
  | cons c s ih =>
    obtain ⟨b, tail, henc, hdec⟩ :=
      utf8DecodeChar_encodeChar (h c List.mem_cons_self) (utf8EncodePass s)
    have hcons : utf8EncodePass (c :: s) = b :: (tail ++ utf8EncodePass s) := by
      rw [utf8EncodePass, List.flatMap_cons, henc]
      rfl
    rw [hcons, utf8DecodeFrom]
    simp only [hdec, Nat.add_sub_cancel]
    rw [utf8DecodeFrom_skip, ih _ fun d hd => h d (List.mem_cons_of_mem _ hd)]
    rfl

/-- **What the encoder wrote, the decoder reads.** -/
theorem utf8Decode_encode {s : Str} {data : Bytes} (h : utf8Encode s = .ok data) :
    utf8Decode data = .ok s := by
  obtain ⟨hs, rfl⟩ := utf8Encode_eq_ok.mp h
  exact utf8DecodeFrom_encodePass 0 hs

/-! ## The order of what was encoded -/

/-- A character has a first byte. -/
theorem utf8EncodeChar_eq_cons (c : CodePoint) : ∃ b tail, utf8EncodeChar c = b :: tail := by
  unfold utf8EncodeChar
  simp only
  split_ifs <;> exact ⟨_, _, rfl⟩

/-- Characters are in the order of their bytes, whatever follows. -/
theorem utf8EncodeChar_append_lt {c d : CodePoint} (h : c < d) (x y : Bytes) :
    utf8EncodeChar c ++ x < utf8EncodeChar d ++ y := by
  have hlt : c.val < d.val := h
  have hd := d.isLt
  -- The quotients by the powers of 64, each from the one before.
  have hdiv₂ : ∀ n : Nat, n / 4096 = n / 64 / 64 := fun n => (Nat.div_div_eq_div_mul n 64 64).symm
  have hdiv₃ : ∀ n : Nat, n / 262144 = n / 64 / 64 / 64 := fun n => by
    rw [Nat.div_div_eq_div_mul, Nat.div_div_eq_div_mul]
  have hc₂ := hdiv₂ c.val
  have hc₃ := hdiv₃ c.val
  have hd₂ := hdiv₂ d.val
  have hd₃ := hdiv₃ d.val
  unfold utf8EncodeChar
  simp only
  split_ifs <;>
    simp (disch := omega) only [List.cons_append, List.nil_append, List.cons_lt_cons_iff, Fin.lt_def,
      Fin.ext_iff, byte_val] <;>
    omega

/-- **UTF-8 keeps the order of code points.** -/
theorem utf8EncodePass_strictMono : StrictMono utf8EncodePass := by
  intro s t h
  induction s generalizing t with
  | nil =>
    cases t with
    | nil => exact absurd h (List.not_lt_nil _)
    | cons d t =>
      obtain ⟨b, tail, henc⟩ := utf8EncodeChar_eq_cons d
      simp only [utf8EncodePass, List.flatMap_cons, List.flatMap_nil, henc, List.cons_append]
      exact List.nil_lt_cons _ _
  | cons c s ih =>
    cases t with
    | nil => exact absurd h (List.not_lt_nil _)
    | cons d t =>
      simp only [utf8EncodePass, List.flatMap_cons]
      rcases List.cons_lt_cons_iff.mp h with hlt | ⟨rfl, hrest⟩
      · exact utf8EncodeChar_append_lt hlt _ _
      · exact List.append_left_lt (ih hrest)

/-! ## What the decoder yields -/

/-- No surrogate is decoded. -/
theorem not_surrogate_of_decodeChar {b : Byte} {rest : Bytes} {c : CodePoint} {n : Nat}
    (h : utf8DecodeChar b rest = .ok (c, n)) : isSurrogate c = false := by
  have hval : ∀ m : Nat, (m < 0xD800 ∨ 0xE000 ≤ m) → m < 0x110000 →
      isSurrogate (Fin.ofNat 0x110000 m) = false := fun m hm hlt => by
    have hv : (Fin.ofNat 0x110000 m).val = m := Nat.mod_eq_of_lt hlt
    simp only [isSurrogate, hv, Bool.and_eq_false_iff, decide_eq_false_iff_not]
    omega
  have hb := b.isLt
  have hcont : ∀ d : Byte, (!isContinuation d) = false → 0x80 ≤ d.val ∧ d.val < 0xC0 := fun d hd => by
    simpa [isContinuation] using hd
  unfold utf8DecodeChar at h
  simp only at h
  split at h
  · obtain ⟨rfl, -⟩ := Prod.mk.inj (Except.ok.inj h)
    exact hval _ (by omega) (by omega)
  split at h
  · cases h
  split at h
  · split at h
    · cases h
    · next b₁ _ =>
      split at h
      · cases h
      · next h₁ =>
        have hc₁ := hcont b₁ (Bool.eq_false_iff.mpr h₁)
        obtain ⟨rfl, -⟩ := Prod.mk.inj (Except.ok.inj h)
        exact hval _ (by omega) (by omega)
  split at h
  · split at h
    · cases h
    · next b₁ rest =>
      split at h
      · cases h
      · next h₁ =>
        simp only [Bool.or_eq_true, Bool.and_eq_true, beq_iff_eq, decide_eq_true_eq, not_or, not_and] at h₁
        have hc₁ := hcont b₁ (Bool.eq_false_iff.mpr h₁.1.1)
        split at h
        · cases h
        · next b₂ _ =>
          split at h
          · cases h
          · next h₂ =>
            have hc₂ := hcont b₂ (Bool.eq_false_iff.mpr h₂)
            obtain ⟨rfl, -⟩ := Prod.mk.inj (Except.ok.inj h)
            exact hval _ (by omega) (by omega)
  split at h
  · split at h
    · cases h
    · next b₁ rest =>
      split at h
      · cases h
      · next h₁ =>
        simp only [Bool.or_eq_true, Bool.and_eq_true, beq_iff_eq, decide_eq_true_eq, not_or, not_and] at h₁
        have hc₁ := hcont b₁ (Bool.eq_false_iff.mpr h₁.1.1)
        split at h
        · cases h
        · next b₂ rest =>
          split at h
          · cases h
          · next h₂ =>
            have hc₂ := hcont b₂ (Bool.eq_false_iff.mpr h₂)
            split at h
            · cases h
            · next b₃ _ =>
              split at h
              · cases h
              · next h₃ =>
                have hc₃ := hcont b₃ (Bool.eq_false_iff.mpr h₃)
                obtain ⟨rfl, -⟩ := Prod.mk.inj (Except.ok.inj h)
                exact hval _ (by omega) (by omega)
  · cases h

/-- Decoded text is scalar. -/
theorem scalar_of_utf8DecodeFrom {data : Bytes} {pos skip : Nat} {s : Str}
    (h : utf8DecodeFrom pos skip data = .ok s) : Scalar s := by
  induction data generalizing pos skip s with
  | nil =>
    cases h
    exact fun c hc => absurd hc List.not_mem_nil
  | cons b rest ih =>
    cases skip with
    | succ skip => exact ih h
    | zero =>
      rw [utf8DecodeFrom] at h
      cases hchar : utf8DecodeChar b rest with
      | error e =>
        rw [hchar] at h
        cases h
      | ok cw =>
        obtain ⟨c, width⟩ := cw
        simp only [hchar] at h
        cases htail : utf8DecodeFrom (pos + 1) (width - 1) rest with
        | error e =>
          rw [htail] at h
          cases h
        | ok tail =>
          rw [htail] at h
          obtain rfl := Except.ok.inj h
          exact List.forall_mem_cons.mpr ⟨not_surrogate_of_decodeChar hchar, ih htail⟩

/-- What the decoder yields has no surrogate. -/
theorem scalar_of_utf8Decode {data : Bytes} {s : Str} (h : utf8Decode data = .ok s) : Scalar s :=
  scalar_of_utf8DecodeFrom h

end Py
