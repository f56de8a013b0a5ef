import Wenchang.Backends.Filesystem

/-!
# File names

What `_encode_segment` writes, `_decode_segment` reads, and it reads nothing else
(`decodeSegment_eq_some`). An encoded name starts with no dot and ends with neither suffix, since both
suffixes hold a `%` with no two hexadecimal digits behind it. So the names of directories, bodies,
sidecars and hidden files are four kinds, and no two keys have the same files (`locate_injective`).
-/

namespace Wenchang

open Py Files

/-! ## Escapes -/

/-- The code point of a capital hexadecimal digit. -/
theorem upperHex_val {n : Nat} (h : n < 16) : (upperHex n).val = if n < 10 then 48 + n else 55 + n :=
  Nat.mod_eq_of_lt (by split <;> omega)

/-- A capital hexadecimal digit is read as its value. -/
theorem upperHexValue_upperHex {n : Nat} (h : n < 16) : upperHexValue (upperHex n) = some n := by
  unfold upperHexValue
  rw [upperHex_val h]
  split_ifs <;> first | omega | (congr 1; omega)

/-- A byte that is kept literally is ASCII and no percent sign. -/
theorem isLiteral_val {b : Byte} (h : isLiteral b = true) : b.val < 128 ∧ b.val ≠ 37 := by
  simp only [isLiteral, Bool.or_eq_true, Bool.and_eq_true, decide_eq_true_eq, beq_iff_eq] at h
  omega

/-- A literal character is read as its byte. -/
theorem unescapeName_literal {c : CodePoint} (h : c.val < 128) (hne : c.val ≠ 37) (rest : Str) :
    unescapeName (c :: rest) = (unescapeName rest).map (byte c.val :: ·) := by
  have hc : c ≠ 37 := fun he => hne (congrArg Fin.val he)
  rw [unescapeName.eq_def]
  simp only [if_neg hc, if_pos h]

/-- An escape is read as the byte of its two digits. -/
theorem unescapeName_escape (a b : CodePoint) (rest : Str) : unescapeName (37 :: a :: b :: rest) =
    match upperHexValue a, upperHexValue b with
    | some high, some low => (unescapeName rest).map (byte (16 * high + low) :: ·)
    | _, _ => none := by
  rw [unescapeName.eq_def]
  exact if_pos rfl

/-- What does not read does not read behind a literal either. -/
theorem unescapeName_cons_none {c : CodePoint} {rest : Str} (hc : c ≠ 37)
    (h : unescapeName rest = none) : unescapeName (c :: rest) = none := by
  rw [unescapeName.eq_def]
  simp [hc, h]

/-- One encoded byte is read back. -/
theorem unescapeName_encodeByte (first : Bool) (b : Byte) (rest : Str) :
    unescapeName (encodeByte first b ++ rest) = (unescapeName rest).map (b :: ·) := by
  have hb := b.isLt
  unfold encodeByte
  split
  · next h =>
    obtain ⟨hlt, hne⟩ := isLiteral_val (Bool.and_eq_true_iff.mp h).1
    have hval : (Fin.ofNat 0x110000 b.val).val = b.val := Nat.mod_eq_of_lt (by omega)
    rw [List.singleton_append, unescapeName_literal (by omega) (by omega), hval]
    simp [byte]
  · simp only [List.cons_append, List.nil_append]
    rw [unescapeName_escape, upperHexValue_upperHex (by omega), upperHexValue_upperHex (by omega)]
    simp only [show 16 * (b.val / 16) + b.val % 16 = b.val from Nat.div_add_mod b.val 16]
    simp [byte]

/-- **Encoded bytes are read back.** -/
theorem unescapeName_flatMap (raw : Bytes) : unescapeName (raw.flatMap (encodeByte false)) = some raw := by
  induction raw with
  | nil => rfl
  | cons b raw ih => rw [List.flatMap_cons, unescapeName_encodeByte, ih, Option.map_some]

/-- A lone percent sign does not read. -/
theorem unescapeName_percent : unescapeName (str "%") = none := by decide

/-! ## Encoded names -/

section

variable [Interpreter] {segment name : Str}

/-- What an encoded name is. -/
theorem encodeSegment_eq_ok : encodeSegment segment = .ok name ↔ segment = [] ∧ name = str "%" ∨
    ∃ b raw, utf8Encode segment = .ok (b :: raw) ∧
      name = encodeByte true b ++ raw.flatMap (encodeByte false) ∧ name.length ≤ maxSegmentBytes := by
  unfold encodeSegment
  by_cases hnil : segment = []
  · subst hnil
    simp [utf8Encode, utf8EncodePass, eq_comm]
  · rw [if_neg hnil]
    cases henc : utf8Encode segment with
    | error e => simp [hnil]
    | ok data =>
      cases data with
      | nil =>
        obtain ⟨c, rest, rfl⟩ := List.exists_cons_of_ne_nil hnil
        obtain ⟨b, tail, hcons⟩ := utf8EncodeChar_eq_cons c
        have hdata := (utf8Encode_eq_ok.mp henc).2
        simp [utf8EncodePass, hcons] at hdata
      | cons b raw =>
        simp only [hnil, false_and, false_or, Except.ok.injEq, List.cons.injEq]
        constructor
        · intro h
          split at h
          · cases h
          · next hle =>
            obtain rfl := Except.ok.inj h
            exact ⟨b, raw, ⟨rfl, rfl⟩, rfl, Nat.le_of_not_lt hle⟩
        · rintro ⟨_, _, ⟨rfl, rfl⟩, rfl, hle⟩
          rw [if_neg (Nat.not_lt.mpr hle)]

/-- The two kinds of an encoded name: the empty segment's, and one that is unescaped to its bytes. -/
theorem encoded_cases (h : encodeSegment segment = .ok name) : segment = [] ∧ name = str "%" ∨
    segment ≠ [] ∧ ∃ raw, utf8Encode segment = .ok raw ∧ unescapeName name = some raw := by
  rcases encodeSegment_eq_ok.mp h with ⟨hnil, rfl⟩ | ⟨b, raw, henc, rfl, -⟩
  · exact .inl ⟨hnil, rfl⟩
  · refine .inr ⟨?_, b :: raw, henc, ?_⟩
    · rintro rfl
      cases henc
    · rw [unescapeName_encodeByte, unescapeName_flatMap, Option.map_some]

/-- **The names that are decoded are the encoded ones.** -/
theorem decodeSegment_eq_some : decodeSegment name = some segment ↔ encodeSegment segment = .ok name := by
  unfold decodeSegment
  constructor
  · intro h
    split at h
    · next hname =>
      obtain rfl := Option.some.inj h
      exact encodeSegment_eq_ok.mpr (.inl ⟨rfl, hname⟩)
    · split at h
      · cases h
      · split at h
        · cases h
        · split at h
          · cases h
          · next canonical hcanonical =>
            split at h
            · next heq =>
              obtain rfl := Option.some.inj h
              rw [hcanonical, heq]
            · cases h
  · intro h
    rcases encoded_cases h with ⟨rfl, rfl⟩ | ⟨-, raw, henc, hraw⟩
    · rfl
    · have hne : name ≠ str "%" := fun he => by
        rw [he, unescapeName_percent] at hraw
        cases hraw
      rw [if_neg hne]
      simp only [hraw, utf8Decode_encode henc, h, if_pos]

/-- A name is encoded from one segment only. -/
theorem encodeSegment_injective {s t : Str} (hs : encodeSegment s = .ok name)
    (ht : encodeSegment t = .ok name) : s = t :=
  Option.some.inj ((decodeSegment_eq_some.mpr hs).symm.trans (decodeSegment_eq_some.mpr ht))

end

/-! ## Kinds of names -/

/-- A name that no listing shows. -/
def Hidden (name : Str) : Prop := str "." <+: name

/-- The name of a body or a sidecar. -/
def ObjectName (name : Str) : Prop := bodySuffix <:+ name ∨ sidecarSuffix <:+ name

/-- A name that directories have: neither hidden nor of an object. -/
def DirName (name : Str) : Prop := ¬ Hidden name ∧ ¬ ObjectName name

/-- A text with a `%` that is no escape is not unescaped. -/
theorem unescapeName_append {tail : Str} (htail : ∃ a b rest, tail = 37 :: a :: b :: rest ∧
    upperHexValue a = none) (s : Str) : unescapeName (s ++ tail) = none := by
  obtain ⟨a, b, rest, rfl, ha⟩ := htail
  have hpercent : upperHexValue 37 = none := by decide
  have hlen : ∀ n, ∀ s : Str, s.length = n → unescapeName (s ++ 37 :: a :: b :: rest) = none := by
    intro n
    induction n using Nat.strongRecOn with
    | ind n ih =>
      rintro s rfl
      match s with
      | [] => rw [List.nil_append, unescapeName_escape, ha]
      | [c] =>
        by_cases hc : c = 37
        · rw [hc, List.singleton_append, unescapeName_escape, hpercent]
        · exact unescapeName_cons_none hc (ih 0 (by simp) [] rfl)
      | [c, d] =>
        by_cases hc : c = 37
        · rw [hc, List.cons_append, List.singleton_append, unescapeName_escape, hpercent]
          split <;> simp_all
        · exact unescapeName_cons_none hc (ih 1 (by simp) [d] rfl)
      | c :: d :: e :: s =>
        by_cases hc : c = 37
        · have htail := ih s.length (by simp; omega) s rfl
          rw [hc, List.cons_append, List.cons_append, List.cons_append, unescapeName_escape, htail]
          split <;> simp
        · exact unescapeName_cons_none hc (ih (d :: e :: s).length (by simp) (d :: e :: s) rfl)
  exact hlen _ s rfl

/-- A body's name does not read as a segment. -/
theorem unescapeName_bodySuffix (s : Str) : unescapeName (s ++ bodySuffix) = none :=
  unescapeName_append ⟨_, _, _, rfl, by decide⟩ s

/-- A sidecar's name does not read as a segment. -/
theorem unescapeName_sidecarSuffix (s : Str) : unescapeName (s ++ sidecarSuffix) = none :=
  unescapeName_append ⟨_, _, _, rfl, by decide⟩ s

section

variable [Interpreter] {segment name : Str}

/-- An encoded segment is a name for a directory. -/
theorem dirName_of_encoded (h : encodeSegment segment = .ok name) : DirName name := by
  rcases encodeSegment_eq_ok.mp h with ⟨-, rfl⟩ | ⟨b, raw, -, rfl, -⟩
  · have hhead : ¬ Hidden (str "%") := by unfold Hidden; decide
    have hsuffix : ¬ ObjectName (str "%") := by unfold ObjectName; decide
    exact ⟨hhead, hsuffix⟩
  · refine ⟨?_, ?_⟩
    · -- The first byte is no dot, or it is escaped.
      rintro ⟨rest, hrest⟩
      have hhead : (encodeByte true b ++ raw.flatMap (encodeByte false)).head? = some 46 := by
        rw [← hrest]
        rfl
      unfold encodeByte at hhead
      split at hhead
      · next hlit =>
        simp only [List.singleton_append, List.head?_cons, Option.some.injEq] at hhead
        have hb := b.isLt
        have hval : (Fin.ofNat 0x110000 b.val).val = b.val := Nat.mod_eq_of_lt (by omega)
        rw [Fin.ext_iff, hval] at hhead
        have h46 : b.val = 46 := hhead
        simp [h46] at hlit
      · simp at hhead
    · have hraw : unescapeName (encodeByte true b ++ raw.flatMap (encodeByte false)) = some (b :: raw) := by
        rw [unescapeName_encodeByte, unescapeName_flatMap, Option.map_some]
      rintro (⟨s, hs⟩ | ⟨s, hs⟩)
      · rw [← hs, unescapeName_bodySuffix] at hraw
        cases hraw
      · rw [← hs, unescapeName_sidecarSuffix] at hraw
        cases hraw

end

/-- No sidecar has a body's name. -/
theorem sidecarName_ne_bodyName (s t : Str) : s ++ sidecarSuffix ≠ t ++ bodySuffix := fun h => by
  have hlast := congrArg List.getLast? h
  have hsidecar : sidecarSuffix.getLast? = some 97 := by decide
  have hbody : bodySuffix.getLast? = some 106 := by decide
  rw [List.getLast?_append, List.getLast?_append, hsidecar, hbody] at hlast
  simp at hlast

/-! ## Kinds of paths -/

/-- A path of directories. -/
def DirPath (p : FilePath) : Prop := ∀ name ∈ p, DirName name

/-- The path of a body or a sidecar. -/
def ObjectPath (p : FilePath) : Prop :=
  ∃ name directory, p = name :: directory ∧ ObjectName name ∧ ¬ Hidden name ∧ DirPath directory

/-- The path of a hidden file. -/
def HiddenPath (p : FilePath) : Prop := ∃ name directory, p = name :: directory ∧ Hidden name

/-- A directory of a key is no object's file. -/
theorem DirPath.not_object {p : FilePath} (h : DirPath p) : ¬ ObjectPath p := by
  rintro ⟨name, directory, rfl, hobject, -⟩
  exact (h name List.mem_cons_self).2 hobject

/-- A directory of a key is not hidden. -/
theorem DirPath.not_hidden {p : FilePath} (h : DirPath p) : ¬ HiddenPath p := by
  rintro ⟨name, directory, rfl, hhidden⟩
  exact (h name List.mem_cons_self).1 hhidden

/-- A hidden file is no object's. -/
theorem HiddenPath.not_object {p : FilePath} (h : HiddenPath p) : ¬ ObjectPath p := by
  obtain ⟨name, directory, rfl, hhidden⟩ := h
  rintro ⟨_, _, heq, -, hshown, -⟩
  exact hshown ((List.cons.inj heq).1 ▸ hhidden)

/-- What is above an object is a path of directories. -/
theorem ObjectPath.above {p q : FilePath} (h : ObjectPath p) (hq : q <:+ p) (hne : q ≠ p) : DirPath q := by
  obtain ⟨name, directory, rfl, -, -, hdirs⟩ := h
  rcases List.suffix_cons_iff.mp hq with rfl | hq
  · exact absurd rfl hne
  · exact fun n hn => hdirs n (hq.subset hn)

/-- Temporary files are hidden. -/
theorem hiddenPath_temp (name : Str) (directory : FilePath) :
    HiddenPath ((tempPrefix ++ name) :: directory) :=
  ⟨_, _, rfl, _, rfl⟩

/-! ## Keys and their files -/

section

variable [Interpreter] {key : Str} {directory : FilePath} {leaf : Str}

/-- Segments and their names, one for one. -/
abbrev EncodedAs (segments names : List Str) : Prop :=
  List.Forall₂ (fun segment name => encodeSegment segment = .ok name) segments names

/-- Segments are encoded one by one. -/
theorem mapM_encodeSegment_eq_ok {segments names : List Str} :
    segments.mapM encodeSegment = .ok names ↔ EncodedAs segments names := by
  induction segments generalizing names with
  | nil => simp [pure, Except.pure, eq_comm]
  | cons segment segments ih =>
    rw [List.mapM_cons]
    simp only [except_bind_eq_ok, ih, List.forall₂_cons_left_iff]
    constructor
    · rintro ⟨name, hname, names', hnames, hok⟩
      obtain rfl := Except.ok.inj hok
      exact ⟨name, names', hname, hnames, rfl⟩
    · rintro ⟨name, names', hname, hnames, rfl⟩
      exact ⟨name, hname, names', hnames, rfl⟩

/-- Names are encoded from one list of segments only. -/
theorem EncodedAs.injective {segments segments' names : List Str} (h : EncodedAs segments names)
    (h' : EncodedAs segments' names) : segments = segments' := by
  induction h generalizing segments' with
  | nil => cases h' with | nil => rfl
  | cons hname _ ih =>
    cases h' with
    | cons hname' hrest => rw [encodeSegment_injective hname hname', ih hrest]

/-- No segment is encoded as the empty name. -/
theorem encoded_ne_nil {segment name : Str} (h : encodeSegment segment = .ok name) : name ≠ [] := by
  rintro rfl
  rcases encoded_cases h with ⟨-, hname⟩ | ⟨hne, raw, henc, hraw⟩
  · cases hname
  · obtain rfl : [] = raw := Option.some.inj hraw
    refine hne ?_
    have hdec := utf8Decode_encode henc
    exact (Except.ok.inj hdec).symm

/-- Each of the names is an encoded segment. -/
theorem EncodedAs.encoded {segments names : List Str} (h : EncodedAs segments names) :
    ∀ name ∈ names, ∃ segment, encodeSegment segment = .ok name := by
  induction h with
  | nil => simp
  | cons hname _ ih => exact List.forall_mem_cons.mpr ⟨⟨_, hname⟩, ih⟩

/-- Each of the names is a directory's. -/
theorem EncodedAs.dirName {segments names : List Str} (h : EncodedAs segments names) :
    ∀ name ∈ names, DirName name := fun name hname => by
  obtain ⟨segment, henc⟩ := h.encoded name hname
  exact dirName_of_encoded henc

/-- The names of a storable key: those of the directory, and the leaf. -/
theorem locate_eq_ok : FilesystemStorage.locate key = .ok (directory, leaf) ↔
    key ≠ [] ∧ EncodedAs (key.splitOn slash) (directory.reverse ++ [leaf]) := by
  unfold FilesystemStorage.locate
  by_cases hkey : key = []
  · simp [hkey]
  · rw [if_neg hkey]
    simp only [except_bind_eq_ok, mapM_encodeSegment_eq_ok, ne_eq, hkey, not_false_eq_true, true_and]
    constructor
    · rintro ⟨names, hnames, hok⟩
      obtain ⟨hdirectory, hleaf⟩ := Prod.mk.inj (Except.ok.inj hok)
      have hne : names ≠ [] := by
        rintro rfl
        cases hsplit : key.splitOn slash with
        | nil => exact List.splitOn_ne_nil _ _ hsplit
        | cons segment segments =>
          rw [hsplit] at hnames
          cases hnames
      rw [← hdirectory, ← hleaf, List.reverse_reverse, List.getLast?_eq_some_getLast hne, Option.getD_some,
        List.dropLast_append_getLast]
      exact hnames
    · intro hnames
      refine ⟨_, hnames, ?_⟩
      simp [pure, Except.pure]

/-- **No two keys have the same files.** -/
theorem locate_injective {key' : Str} (h : FilesystemStorage.locate key = .ok (directory, leaf))
    (h' : FilesystemStorage.locate key' = .ok (directory, leaf)) : key = key' := by
  have hsegments := (locate_eq_ok.mp h).2.injective (locate_eq_ok.mp h').2
  calc key = [slash].intercalate (key.splitOn slash) := List.intercalate_splitOn slash |>.symm
    _ = [slash].intercalate (key'.splitOn slash) := by rw [hsegments]
    _ = key' := List.intercalate_splitOn slash

/-- What a key is located in is a directory of a key. -/
theorem dirPath_of_locate (h : FilesystemStorage.locate key = .ok (directory, leaf)) :
    DirPath directory := fun name hname =>
  (locate_eq_ok.mp h).2.dirName name (List.mem_append_left _ (List.mem_reverse.mpr hname))

/-- The body and the sidecar of a key are paths of objects. -/
theorem objectPath_of_locate (h : FilesystemStorage.locate key = .ok (directory, leaf)) {suffix : Str}
    (hsuffix : suffix = bodySuffix ∨ suffix = sidecarSuffix) :
    ObjectPath ((leaf ++ suffix) :: directory) := by
  have hmem : leaf ∈ directory.reverse ++ [leaf] := List.mem_append_right _ List.mem_cons_self
  obtain ⟨segment, henc⟩ := (locate_eq_ok.mp h).2.encoded leaf hmem
  refine ⟨_, _, rfl, ?_, ?_, dirPath_of_locate h⟩
  · rcases hsuffix with rfl | rfl
    · exact .inl (List.suffix_append _ _)
    · exact .inr (List.suffix_append _ _)
  · rintro ⟨rest, hrest⟩
    obtain ⟨c, leaf, rfl⟩ := List.exists_cons_of_ne_nil (encoded_ne_nil henc)
    refine (dirName_of_encoded henc).1 ⟨leaf, ?_⟩
    rw [← (List.cons.inj hrest).1]
    rfl

end

end Wenchang
