import Wenchang.Laws.FileNames

/-!
# Safe names

A filesystem that does not tell upper case from lower identifies names that fold to one. The encoding
survives that (`encoded_foldName_injective`), and so do the kinds of names: whatever two keys are, the
body, sidecar, directory, lock and temp paths that belong to them differ in more than case
(`KeyPath.apart`). No such path leaves the root (`KeyPath.resolve`).
-/

namespace Wenchang

open Py Files

/-! ## Folding -/

/-- ASCII case folding of one character. -/
def foldCase (c : CodePoint) : CodePoint := if 65 ≤ c.val ∧ c.val ≤ 90 then Fin.ofNat _ (c.val + 32) else c

/-- The name that a case-insensitive filesystem sees. -/
def foldName (name : Str) : Str := name.map foldCase

/-- The path that a case-insensitive filesystem sees. -/
def foldPath (p : FilePath) : FilePath := p.map foldName

/-- Folding goes part by part. -/
@[simp] theorem foldName_append (s t : Str) : foldName (s ++ t) = foldName s ++ foldName t :=
  List.map_append

/-- Folding moves the capital letters only. -/
theorem foldCase_val (c : CodePoint) :
    (foldCase c).val = if 65 ≤ c.val ∧ c.val ≤ 90 then c.val + 32 else c.val := by
  unfold foldCase
  split_ifs with h
  · exact Nat.mod_eq_of_lt (by omega)
  · rfl

/-- What is neither an upper-case nor a lower-case letter is folded to only from itself. -/
theorem foldCase_eq_iff {c d : CodePoint} (hupper : d.val < 65 ∨ 90 < d.val)
    (hlower : d.val < 97 ∨ 122 < d.val) : foldCase c = d ↔ c = d := by
  rw [Fin.ext_iff, Fin.ext_iff, foldCase_val]
  split_ifs <;> omega

/-- What is kept literally holds no capital letter. -/
theorem foldCase_literal {b : Byte} (h : isLiteral b = true) :
    foldCase (Fin.ofNat _ b.val) = Fin.ofNat _ b.val := by
  have hb := b.isLt
  have hval : (Fin.ofNat 0x110000 b.val).val = b.val := Nat.mod_eq_of_lt (by omega)
  have hupper : ¬ (65 ≤ b.val ∧ b.val ≤ 90) := by
    simp only [isLiteral, Bool.or_eq_true, Bool.and_eq_true, decide_eq_true_eq, beq_iff_eq] at h
    omega
  unfold foldCase
  rw [hval, if_neg hupper]

/-- Folding keeps hexadecimal digits apart. -/
theorem foldCase_upperHex {n m : Nat} (hn : n < 16) (hm : m < 16)
    (h : foldCase (upperHex n) = foldCase (upperHex m)) : n = m := by
  have hval := congrArg Fin.val h
  rw [foldCase_val, foldCase_val, upperHex_val hn, upperHex_val hm] at hval
  split_ifs at hval <;> omega

/-- **One encoded byte is known by its folded text**, and so is what is behind it. -/
theorem foldName_encodeByte {first first' : Bool} {b b' : Byte} {s s' : Str}
    (h : foldName (encodeByte first b ++ s) = foldName (encodeByte first' b' ++ s')) :
    b = b' ∧ foldName s = foldName s' := by
  have hb := b.isLt
  have hb' := b'.isLt
  have hpercent : foldCase 37 = 37 := by decide
  have hne : ∀ c : Byte, isLiteral c = true → Fin.ofNat 0x110000 c.val ≠ 37 := fun c hc he => by
    have hlt := c.isLt
    have hval : (Fin.ofNat 0x110000 c.val).val = c.val := Nat.mod_eq_of_lt (by omega)
    exact (isLiteral_val hc).2 (hval.symm.trans (congrArg Fin.val he))
  simp only [foldName_append] at h
  unfold encodeByte at h
  split_ifs at h with hlit hlit' hlit'
  · -- Both bytes are literal.
    have hl := (Bool.and_eq_true_iff.mp hlit).1
    have hl' := (Bool.and_eq_true_iff.mp hlit').1
    obtain ⟨hhead, htail⟩ := List.cons.inj h
    rw [foldCase_literal hl, foldCase_literal hl'] at hhead
    have hvals := congrArg Fin.val hhead
    simp only [Fin.ofNat] at hvals
    rw [Nat.mod_eq_of_lt (by omega), Nat.mod_eq_of_lt (by omega)] at hvals
    exact ⟨Fin.ext hvals, htail⟩
  · have hl := (Bool.and_eq_true_iff.mp hlit).1
    obtain ⟨hhead, -⟩ := List.cons.inj h
    rw [foldCase_literal hl, hpercent] at hhead
    exact absurd hhead (hne b hl)
  · have hl' := (Bool.and_eq_true_iff.mp hlit').1
    obtain ⟨hhead, -⟩ := List.cons.inj h
    rw [foldCase_literal hl', hpercent] at hhead
    exact absurd hhead.symm (hne b' hl')
  · -- Both are escaped: the digits are known by their folded texts.
    obtain ⟨-, hdigits⟩ := List.cons.inj h
    obtain ⟨hhigh, hrest⟩ := List.cons.inj hdigits
    obtain ⟨hlow, htail⟩ := List.cons.inj hrest
    have hhigh := foldCase_upperHex (by omega) (by omega) hhigh
    have hlow := foldCase_upperHex (by omega) (by omega) hlow
    refine ⟨Fin.ext ?_, htail⟩
    rw [← Nat.div_add_mod b.val 16, ← Nat.div_add_mod b'.val 16, hhigh, hlow]

/-- **Encoded names stay apart when folded.** -/
theorem foldName_flatMap {raw raw' : Bytes}
    (h : foldName (raw.flatMap (encodeByte false)) = foldName (raw'.flatMap (encodeByte false))) :
    raw = raw' := by
  have hne : ∀ (b : Byte) (rest : Bytes), foldName ((b :: rest).flatMap (encodeByte false)) ≠ [] := by
    intro b rest hnil
    rw [List.flatMap_cons, foldName_append] at hnil
    unfold encodeByte at hnil
    split at hnil <;> simp [foldName] at hnil
  induction raw generalizing raw' with
  | nil =>
    cases raw' with
    | nil => rfl
    | cons b' raw' => exact absurd h.symm (hne b' raw')
  | cons b raw ih =>
    cases raw' with
    | nil => exact absurd h (hne b raw)
    | cons b' raw' =>
      rw [List.flatMap_cons, List.flatMap_cons] at h
      obtain ⟨rfl, hrest⟩ := foldName_encodeByte h
      rw [ih hrest]

/-! ## Escapes in a folded name -/

/-- A hexadecimal digit of either case. -/
def isHexDigit (c : CodePoint) : Bool :=
  (48 ≤ c.val && c.val ≤ 57) || (65 ≤ c.val && c.val ≤ 70) || (97 ≤ c.val && c.val ≤ 102)

/-- Every `%` of a name has two hexadecimal digits behind it. -/
def Escaped (name : Str) : Prop :=
  ∀ before rest, name = before ++ 37 :: rest → ∃ a b tail, rest = a :: b :: tail ∧
    isHexDigit a = true ∧ isHexDigit b = true

/-- A capital hexadecimal digit is one. -/
theorem isHexDigit_upperHex {n : Nat} (h : n < 16) : isHexDigit (upperHex n) = true := by
  unfold isHexDigit
  rw [upperHex_val h]
  simp only [Bool.or_eq_true, Bool.and_eq_true, decide_eq_true_eq]
  split_ifs <;> omega

/-- Folding keeps hexadecimal digits. -/
theorem isHexDigit_foldCase (c : CodePoint) : isHexDigit (foldCase c) = isHexDigit c := by
  rw [Bool.eq_iff_iff]
  simp only [isHexDigit, foldCase_val, Bool.or_eq_true, Bool.and_eq_true, decide_eq_true_eq]
  split_ifs <;> omega

/-- The empty name is escaped. -/
theorem escaped_nil : Escaped [] := fun before rest h => by
  cases before <;> cases h

/-- An encoded byte before an escaped name is escaped. -/
theorem Escaped.encodeByte {s : Str} (h : Escaped s) (first : Bool) (b : Byte) :
    Escaped (Wenchang.encodeByte first b ++ s) := by
  have hb := b.isLt
  have hcons : ∀ (c : CodePoint) (t : Str), c ≠ 37 → Escaped t → Escaped (c :: t) := by
    intro c t hc ht before rest heq
    cases before with
    | nil => exact absurd (List.cons.inj heq).1 hc
    | cons d before => exact ht before rest (List.cons.inj heq).2
  have hdigit : ∀ n < 16, upperHex n ≠ 37 := by
    intro n hn he
    have hhex := isHexDigit_upperHex hn
    rw [he] at hhex
    exact absurd hhex (by decide)
  unfold Wenchang.encodeByte
  split
  next hlit =>
    refine hcons _ _ (fun he => ?_) h
    have hval : (Fin.ofNat 0x110000 b.val).val = b.val := Nat.mod_eq_of_lt (by omega)
    exact (isLiteral_val (Bool.and_eq_true_iff.mp hlit).1).2 (hval.symm.trans (congrArg Fin.val he))
  next =>
    intro before rest heq
    cases before with
    | nil =>
      obtain rfl := (List.cons.inj heq).2
      exact ⟨_, _, s, rfl, isHexDigit_upperHex (by omega), isHexDigit_upperHex (by omega)⟩
    | cons d before =>
      have hdigits := hcons _ _ (hdigit (b.val / 16) (by omega)) (hcons _ _ (hdigit (b.val % 16) (by omega)) h)
      exact hdigits before rest (List.cons.inj heq).2

/-- Encoded bytes are escaped. -/
theorem escaped_flatMap (raw : Bytes) : Escaped (raw.flatMap (encodeByte false)) := by
  induction raw with
  | nil => exact escaped_nil
  | cons b raw ih =>
    rw [List.flatMap_cons]
    exact ih.encodeByte false b

/-- A folded name is escaped as the name was. -/
theorem Escaped.foldName {name : Str} (h : Escaped name) : Escaped (foldName name) := by
  intro before rest heq
  obtain ⟨before', tail', rfl, -, htail⟩ := List.map_eq_append_iff.mp heq
  obtain ⟨c, rest', rfl, hc, rfl⟩ := List.map_eq_cons_iff.mp htail
  obtain rfl := (foldCase_eq_iff (by decide) (by decide)).mp hc
  obtain ⟨a, b, tail, rfl, ha, hb⟩ := h before' rest' rfl
  exact ⟨_, _, _, rfl, by rwa [isHexDigit_foldCase], by rwa [isHexDigit_foldCase]⟩

/-- Neither suffix ends such a name: its `%` is no escape. -/
theorem Escaped.not_object {name : Str} (h : Escaped name) : ¬ ObjectName name := by
  rintro (⟨s, rfl⟩ | ⟨s, rfl⟩)
  · obtain ⟨a, b, tail, heq, ha, -⟩ := h s _ rfl
    rw [← (List.cons.inj heq).1] at ha
    exact absurd ha (by decide)
  · obtain ⟨a, b, tail, heq, ha, -⟩ := h s _ rfl
    rw [← (List.cons.inj heq).1] at ha
    exact absurd ha (by decide)

/-! ## Kinds of names, folded -/

/-- A folded name is hidden as the name is. -/
theorem hidden_foldName {name : Str} : Hidden (foldName name) ↔ Hidden name := by
  have hiff : ∀ s : Str, Hidden s ↔ s.head? = some 46 := fun s => by
    cases s with
    | nil => exact iff_of_false (by unfold Hidden; decide) (by simp)
    | cons c s =>
      have hdot : str "." = [46] := by decide
      rw [Hidden, hdot, List.cons_prefix_cons, List.head?_cons, Option.some.injEq, eq_comm]
      exact and_iff_left List.nil_prefix
  rw [hiff, hiff, foldName, List.head?_map, Option.map_eq_some_iff]
  constructor
  · rintro ⟨c, hc, hfold⟩
    rwa [(foldCase_eq_iff (by decide) (by decide)).mp hfold] at hc
  · intro h
    exact ⟨46, h, by decide⟩

/-- Folding keeps the suffix of a body. -/
theorem foldName_bodySuffix : foldName bodySuffix = bodySuffix := by decide

/-- Folding keeps the suffix of a sidecar. -/
theorem foldName_sidecarSuffix : foldName sidecarSuffix = sidecarSuffix := by decide

/-- What an encoded name never is, in upper or lower case. -/
structure SafeName (name : Str) : Prop where
  ne_nil : name ≠ []
  slash_not_mem : slash ∉ name
  shown : ¬ Hidden name
  not_object : ¬ ObjectName (foldName name)

/-- Folding changes no suffix, so what holds of the folded name holds of the name. -/
theorem SafeName.not_suffix {name : Str} (h : SafeName name) : ¬ ObjectName name := by
  rintro (⟨s, rfl⟩ | ⟨s, rfl⟩)
  · exact h.not_object (.inl ⟨foldName s, by rw [foldName_append, foldName_bodySuffix]⟩)
  · exact h.not_object (.inr ⟨foldName s, by rw [foldName_append, foldName_sidecarSuffix]⟩)

/-- No byte is written with a slash. -/
theorem slash_not_mem_encodeByte (first : Bool) (b : Byte) : slash ∉ encodeByte first b := by
  have hb := b.isLt
  have hdigit : ∀ n < 16, slash ≠ upperHex n := fun n hn he => by
    have hhex := isHexDigit_upperHex hn
    rw [← he] at hhex
    exact absurd hhex (by decide)
  unfold encodeByte
  split
  next hlit =>
    rw [List.mem_singleton]
    intro he
    have hval : (Fin.ofNat 0x110000 b.val).val = b.val := Nat.mod_eq_of_lt (by omega)
    have h47 : 47 = b.val := (congrArg Fin.val he).trans hval
    simp [isLiteral, ← h47] at hlit
  next =>
    simp only [List.mem_cons, List.not_mem_nil, or_false, not_or]
    exact ⟨by decide, hdigit _ (by omega), hdigit _ (by omega)⟩

/-- The name of a body or a sidecar is not hidden, since its leaf is not. -/
theorem not_hidden_leaf {leaf : Str} (h : SafeName leaf) (suffix : Str) : ¬ Hidden (leaf ++ suffix) := by
  obtain ⟨c, rest, rfl⟩ := List.exists_cons_of_ne_nil h.ne_nil
  rintro ⟨tail, htail⟩
  refine h.shown ⟨rest, ?_⟩
  rw [← (List.cons.inj htail).1]
  rfl

/-- What a path of the storage is for. -/
inductive PathKind
  | lock
  | temp
  | directory
  | body
  | sidecar
  deriving DecidableEq

/-- The kind of a path by its last name alone. -/
def kindOf (name : Str) : PathKind :=
  if name = lockName then .lock
  else if tempPrefix.isPrefixOf name then .temp
  else if bodySuffix.isSuffixOf name then .body
  else if sidecarSuffix.isSuffixOf name then .sidecar
  else .directory

/-- The kind of a name that is shown is told by its suffix. -/
theorem kindOf_shown {name : Str} (h : ¬ Hidden name) : kindOf name =
    if bodySuffix.isSuffixOf name then .body
    else if sidecarSuffix.isSuffixOf name then .sidecar else .directory := by
  have hlock : name ≠ lockName := by
    rintro rfl
    exact h ⟨_, rfl⟩
  have htemp : ¬ tempPrefix.isPrefixOf name = true := fun hp => by
    have hdot : str "." <+: tempPrefix := ⟨_, rfl⟩
    exact h (hdot.trans (List.isPrefixOf_iff_prefix.mp hp))
  rw [kindOf, if_neg hlock, if_neg htemp]

section

variable [Interpreter] {segment segment' name name' : Str}

/-- An encoded name is safe. -/
theorem safeName_of_encoded (h : encodeSegment segment = .ok name) : SafeName name := by
  have hshown := (dirName_of_encoded h).1
  rcases encodeSegment_eq_ok.mp h with ⟨-, rfl⟩ | ⟨b, raw, -, rfl, -⟩
  · exact ⟨by decide, by decide, hshown, by unfold ObjectName; decide⟩
  · refine ⟨encoded_ne_nil h, fun hmem => ?_, hshown, ?_⟩
    · rcases List.mem_append.mp hmem with hmem | hmem
      · exact slash_not_mem_encodeByte true b hmem
      · obtain ⟨c, -, hc⟩ := List.mem_flatMap.mp hmem
        exact slash_not_mem_encodeByte false c hc
    · exact (((escaped_flatMap raw).encodeByte true b).foldName).not_object

/-- **The encoding survives case folding.** -/
theorem encoded_foldName_injective (h : encodeSegment segment = .ok name)
    (h' : encodeSegment segment' = .ok name') (hfold : foldName name = foldName name') :
    segment = segment' := by
  -- The bare `%` of the empty segment is no first byte: an escape is longer.
  have hpercent : ∀ (b : Byte) (raw : Bytes),
      foldName (str "%") ≠ foldName (encodeByte true b ++ raw.flatMap (encodeByte false)) := by
    intro b raw heq
    have hescaped := ((escaped_flatMap raw).encodeByte true b).foldName
    rw [← heq] at hescaped
    obtain ⟨_, _, _, hnil, -⟩ := hescaped [] [] (by decide)
    cases hnil
  rcases encodeSegment_eq_ok.mp h with ⟨rfl, rfl⟩ | ⟨b, raw, henc, rfl, -⟩
  · rcases encodeSegment_eq_ok.mp h' with ⟨rfl, -⟩ | ⟨b', raw', -, rfl, -⟩
    · rfl
    · exact absurd hfold (hpercent b' raw')
  · rcases encodeSegment_eq_ok.mp h' with ⟨rfl, rfl⟩ | ⟨b', raw', henc', rfl, -⟩
    · exact absurd hfold.symm (hpercent b raw)
    · obtain ⟨rfl, hrest⟩ := foldName_encodeByte hfold
      obtain rfl := foldName_flatMap hrest
      have hdec := utf8Decode_encode henc
      rw [utf8Decode_encode henc'] at hdec
      exact (Except.ok.inj hdec).symm

/-- What is accepted: UTF-8 encodes it, and the encoding is no longer than a name may be. -/
theorem encodeSegment_accepts : (∃ name, encodeSegment segment = .ok name) ↔ segment = [] ∨
    ∃ b raw, utf8Encode segment = .ok (b :: raw) ∧
      (encodeByte true b ++ raw.flatMap (encodeByte false)).length ≤ maxSegmentBytes := by
  constructor
  · rintro ⟨name, h⟩
    rcases encodeSegment_eq_ok.mp h with ⟨rfl, -⟩ | ⟨b, raw, henc, rfl, hlen⟩
    · exact .inl rfl
    · exact .inr ⟨b, raw, henc, hlen⟩
  · rintro (rfl | ⟨b, raw, henc, hlen⟩)
    · exact ⟨_, encodeSegment_eq_ok.mpr (.inl ⟨rfl, rfl⟩)⟩
    · exact ⟨_, encodeSegment_eq_ok.mpr (.inr ⟨b, raw, henc, rfl, hlen⟩)⟩

/-! ## The paths of keys -/

/-- A path that belongs to a storable key. The name of a temp file ends with what `uuid4` drew. -/
inductive KeyPath (key : Str) : PathKind → FilePath → Prop
  | lock {directory : FilePath} {leaf : Str} (located : FilesystemStorage.locate key = .ok (directory, leaf)) :
      KeyPath key .lock [lockName]
  | temp {directory : FilePath} {leaf draw : Str}
      (located : FilesystemStorage.locate key = .ok (directory, leaf)) (hex : ∀ c ∈ draw, isHexDigit c = true) :
      KeyPath key .temp ((tempPrefix ++ draw) :: directory)
  | directory {directory path : FilePath} {leaf : Str}
      (located : FilesystemStorage.locate key = .ok (directory, leaf)) (above : path <:+ directory)
      (ne_root : path ≠ []) : KeyPath key .directory path
  | body {directory : FilePath} {leaf : Str} (located : FilesystemStorage.locate key = .ok (directory, leaf)) :
      KeyPath key .body ((leaf ++ bodySuffix) :: directory)
  | sidecar {directory : FilePath} {leaf : Str}
      (located : FilesystemStorage.locate key = .ok (directory, leaf)) :
      KeyPath key .sidecar ((leaf ++ sidecarSuffix) :: directory)

variable {key key' leaf : Str} {directory p p' : FilePath} {kind kind' : PathKind}

/-- The leaf of a storable key is encoded. -/
theorem leaf_of_locate (h : FilesystemStorage.locate key = .ok (directory, leaf)) :
    ∃ segment, encodeSegment segment = .ok leaf :=
  (locate_eq_ok.mp h).2.encoded leaf (List.mem_append_right _ List.mem_cons_self)

/-- The directories of a key are encoded segments. -/
theorem directory_of_locate (h : FilesystemStorage.locate key = .ok (directory, leaf)) :
    ∀ name ∈ directory, ∃ segment, encodeSegment segment = .ok name := fun name hname =>
  (locate_eq_ok.mp h).2.encoded name (List.mem_append_left _ (List.mem_reverse.mpr hname))

/-- **The folded name of a path tells its kind.** -/
theorem KeyPath.kindOf (h : KeyPath key kind p) :
    ∃ name parent, p = name :: parent ∧ Wenchang.kindOf (foldName name) = kind := by
  cases h with
  | lock hlocated => exact ⟨_, _, rfl, by decide⟩
  | @temp directory leaf draw hlocated _ =>
    refine ⟨_, _, rfl, ?_⟩
    have hfold : foldName tempPrefix = tempPrefix := by decide
    have hlock : tempPrefix ++ foldName draw ≠ lockName := fun he => by
      have hsecond := congrArg (·[1]?) he
      have htemp : (tempPrefix ++ foldName draw)[1]? = some 116 := rfl
      rw [htemp] at hsecond
      exact absurd hsecond (by decide)
    rw [foldName_append, hfold, Wenchang.kindOf, if_neg hlock,
      if_pos (List.isPrefixOf_iff_prefix.mpr (List.prefix_append _ _))]
  | @directory directory path leaf hlocated habove hne =>
    obtain ⟨name, parent, rfl⟩ := List.exists_cons_of_ne_nil hne
    obtain ⟨segment, henc⟩ := directory_of_locate hlocated name (habove.subset List.mem_cons_self)
    have hsafe := safeName_of_encoded henc
    refine ⟨name, parent, rfl, ?_⟩
    rw [kindOf_shown (fun hh => hsafe.shown (hidden_foldName.mp hh)),
      if_neg (fun hs => hsafe.not_object (.inl (List.isSuffixOf_iff_suffix.mp hs))),
      if_neg (fun hs => hsafe.not_object (.inr (List.isSuffixOf_iff_suffix.mp hs)))]
  | @body directory leaf hlocated =>
    obtain ⟨segment, henc⟩ := leaf_of_locate hlocated
    have hshown := not_hidden_leaf (safeName_of_encoded henc) bodySuffix
    refine ⟨_, _, rfl, ?_⟩
    rw [kindOf_shown (fun hh => hshown (hidden_foldName.mp hh)), foldName_append, foldName_bodySuffix,
      if_pos (List.isSuffixOf_iff_suffix.mpr (List.suffix_append _ _))]
  | @sidecar directory leaf hlocated =>
    obtain ⟨segment, henc⟩ := leaf_of_locate hlocated
    have hshown := not_hidden_leaf (safeName_of_encoded henc) sidecarSuffix
    have hnot : ¬ bodySuffix.isSuffixOf (foldName leaf ++ sidecarSuffix) = true := fun hs => by
      obtain ⟨t, ht⟩ := List.isSuffixOf_iff_suffix.mp hs
      exact sidecarName_ne_bodyName (foldName leaf) t ht.symm
    refine ⟨_, _, rfl, ?_⟩
    rw [kindOf_shown (fun hh => hshown (hidden_foldName.mp hh)), foldName_append, foldName_sidecarSuffix,
      if_neg hnot, if_pos (List.isSuffixOf_iff_suffix.mpr (List.suffix_append _ _))]

/-- Directories that differ differ in more than case. -/
theorem foldPath_injective (h : ∀ name ∈ p, ∃ segment, encodeSegment segment = .ok name)
    (h' : ∀ name ∈ p', ∃ segment, encodeSegment segment = .ok name) (hfold : foldPath p = foldPath p') :
    p = p' := by
  induction p generalizing p' with
  | nil =>
    cases p' with
    | nil => rfl
    | cons name' p' => cases hfold
  | cons name p ih =>
    cases p' with
    | nil => cases hfold
    | cons name' p' =>
      obtain ⟨hname, hrest⟩ := List.cons.inj hfold
      obtain ⟨segment, henc⟩ := h name List.mem_cons_self
      obtain ⟨segment', henc'⟩ := h' name' List.mem_cons_self
      obtain rfl := encoded_foldName_injective henc henc' hname
      obtain rfl := Except.ok.inj (henc.symm.trans henc')
      rw [ih (fun n hn => h n (List.mem_cons_of_mem _ hn)) (fun n hn => h' n (List.mem_cons_of_mem _ hn)) hrest]

/-- Two keys whose files differ in case at most are one key. -/
theorem key_of_foldPath {leaf' : Str} {directory' : FilePath} {suffix : Str}
    (h : FilesystemStorage.locate key = .ok (directory, leaf))
    (h' : FilesystemStorage.locate key' = .ok (directory', leaf'))
    (hfold : foldPath ((leaf ++ suffix) :: directory) = foldPath ((leaf' ++ suffix) :: directory')) :
    key = key' ∧ (leaf ++ suffix) :: directory = (leaf' ++ suffix) :: directory' := by
  obtain ⟨hname, hrest⟩ := List.cons.inj hfold
  rw [foldName_append, foldName_append] at hname
  obtain ⟨segment, henc⟩ := leaf_of_locate h
  obtain ⟨segment', henc'⟩ := leaf_of_locate h'
  obtain rfl := encoded_foldName_injective henc henc' (List.append_cancel_right hname)
  obtain rfl := Except.ok.inj (henc.symm.trans henc')
  obtain rfl := foldPath_injective (directory_of_locate h) (directory_of_locate h') hrest
  exact ⟨locate_injective h h', rfl⟩

/-- **Paths that differ in case at most are of one kind**, and they are one path, a temp file's draw apart. -/
theorem KeyPath.apart (h : KeyPath key kind p) (h' : KeyPath key' kind' p') (hfold : foldPath p = foldPath p') :
    kind = kind' ∧ (kind ≠ .temp → p = p') ∧ (kind = .body ∨ kind = .sidecar → key = key') := by
  have hkind : kind = kind' := by
    obtain ⟨name, parent, rfl, hname⟩ := h.kindOf
    obtain ⟨name', parent', rfl, hname'⟩ := h'.kindOf
    rw [← hname, ← hname', (List.cons.inj hfold).1]
  subst hkind
  refine ⟨rfl, ?_⟩
  cases h with
  | lock _ =>
    cases h' with
    | lock _ => simp
  | temp _ _ => simp
  | directory hlocated habove _ =>
    cases h' with
    | directory hlocated' habove' _ =>
      have hsame := foldPath_injective (fun n hn => directory_of_locate hlocated n (habove.subset hn))
        (fun n hn => directory_of_locate hlocated' n (habove'.subset hn)) hfold
      simp [hsame]
  | body hlocated =>
    cases h' with
    | body hlocated' =>
      obtain ⟨hkey, hpath⟩ := key_of_foldPath hlocated hlocated' hfold
      exact ⟨fun _ => hpath, fun _ => hkey⟩
  | sidecar hlocated =>
    cases h' with
    | sidecar hlocated' =>
      obtain ⟨hkey, hpath⟩ := key_of_foldPath hlocated hlocated' hfold
      exact ⟨fun _ => hpath, fun _ => hkey⟩

end

/-! ## Below the root -/

/-- Where one component of a path leads from a directory. -/
def enter (directory : FilePath) (component : Str) : FilePath :=
  if component = [] ∨ component = str "." then directory
  else if component = str ".." then directory.tail
  else component :: directory

/-- Where a POSIX system takes the text of a path, from a directory. -/
def resolve (root : FilePath) (text : Str) : FilePath :=
  (text.splitOn slash).foldl enter (if [slash].isPrefixOf text then [] else root)

/-- A component that leads to an entry of the directory itself. -/
structure Component (name : Str) : Prop where
  ne_nil : name ≠ []
  slash_not_mem : slash ∉ name
  ne_dot : name ≠ str "."
  ne_dots : name ≠ str ".."

/-- A name that is shown, has no slash and is not empty is one component. -/
theorem Component.of_shown {name : Str} (hne : name ≠ []) (hslash : slash ∉ name) (h : ¬ Hidden name) :
    Component name where
  ne_nil := hne
  slash_not_mem := hslash
  ne_dot := by
    rintro rfl
    exact h ⟨[], rfl⟩
  ne_dots := by
    rintro rfl
    exact h ⟨str ".", rfl⟩

/-- One component goes one directory down. -/
theorem Component.enter {name : Str} (h : Component name) (root : FilePath) :
    Wenchang.enter root name = name :: root := by
  rw [Wenchang.enter, if_neg (not_or.mpr ⟨h.ne_nil, h.ne_dot⟩), if_neg h.ne_dots]

/-- Components go down one by one. -/
theorem foldl_enter {names : List Str} (h : ∀ name ∈ names, Component name) (root : FilePath) :
    names.foldl enter root = names.reverse ++ root := by
  induction names generalizing root with
  | nil => rfl
  | cons name names ih =>
    rw [List.foldl_cons, (h name List.mem_cons_self).enter, ih (fun n hn => h n (List.mem_cons_of_mem _ hn))]
    simp

/-- The text of a path of such components leads to that path, below the directory. -/
theorem resolve_join {names : List Str} (h : ∀ name ∈ names, Component name) (root : FilePath) :
    resolve root (join [slash] names) = names.reverse ++ root := by
  cases names with
  | nil => simp [resolve, join, Wenchang.enter]
  | cons name names =>
    have hsplit : (join [slash] (name :: names)).splitOn slash = name :: names :=
      List.splitOn_intercalate slash (fun n hn => (h n hn).slash_not_mem) (List.cons_ne_nil _ _)
    have hrelative : ¬ [slash].isPrefixOf (join [slash] (name :: names)) = true := by
      intro habs
      obtain ⟨rest, hrest⟩ := List.isPrefixOf_iff_prefix.mp habs
      rw [← hrest, List.singleton_append, List.splitOn_cons_eq_if_modifyHead, if_pos (by simp)] at hsplit
      exact (h name List.mem_cons_self).ne_nil (List.cons.inj hsplit).1.symm
    rw [resolve, hsplit, if_neg hrelative, foldl_enter h]

section

variable [Interpreter] {segment segment' name name' key key' leaf : Str} {p p' directory : FilePath}
  {kind kind' : PathKind}

/-- An encoded segment is one component. -/
theorem component_of_encoded (h : encodeSegment segment = .ok name) : Component name :=
  have hsafe := safeName_of_encoded h
  .of_shown hsafe.ne_nil hsafe.slash_not_mem hsafe.shown

/-- A leaf with its suffix is one component. -/
theorem component_leaf (h : FilesystemStorage.locate key = .ok (directory, leaf)) {suffix : Str}
    (hsuffix : slash ∉ suffix) : Component (leaf ++ suffix) := by
  obtain ⟨segment, henc⟩ := leaf_of_locate h
  have hsafe := safeName_of_encoded henc
  refine .of_shown (by simp [hsafe.ne_nil]) ?_ (not_hidden_leaf hsafe suffix)
  rw [List.mem_append, not_or]
  exact ⟨hsafe.slash_not_mem, hsuffix⟩

/-- What a key is stored at consists of components. -/
theorem KeyPath.component (h : KeyPath key kind p) : ∀ name ∈ p, Component name := by
  have hdirectory : ∀ {directory : FilePath} {leaf : Str},
      FilesystemStorage.locate key = .ok (directory, leaf) → ∀ name ∈ directory, Component name :=
    fun hlocated name hname => by
      obtain ⟨segment, henc⟩ := directory_of_locate hlocated name hname
      exact component_of_encoded henc
  cases h with
  | lock _ =>
    refine List.forall_mem_singleton.mpr ⟨?_, ?_, ?_, ?_⟩ <;> decide
  | @temp directory leaf draw hlocated hhex =>
    refine List.forall_mem_cons.mpr ⟨⟨?_, ?_, ?_, ?_⟩, hdirectory hlocated⟩
    · simp [tempPrefix, str]
    · rw [List.mem_append, not_or]
      refine ⟨by decide, fun hmem => ?_⟩
      exact absurd (hhex slash hmem) (by decide)
    · intro he
      have hlen := congrArg List.length he
      simp [tempPrefix, str] at hlen
    · intro he
      have hlen := congrArg List.length he
      simp [tempPrefix, str] at hlen
  | directory hlocated habove _ => exact fun name hname => hdirectory hlocated name (habove.subset hname)
  | body hlocated =>
    exact List.forall_mem_cons.mpr ⟨component_leaf hlocated (by decide), hdirectory hlocated⟩
  | sidecar hlocated =>
    exact List.forall_mem_cons.mpr ⟨component_leaf hlocated (by decide), hdirectory hlocated⟩

/-- **No key leaves the root**: the text of each of its paths leads to that path below the root. -/
theorem KeyPath.resolve (h : KeyPath key kind p) (root : FilePath) :
    Wenchang.resolve root (join [slash] p.reverse) = p ++ root := by
  rw [resolve_join (fun name hname => h.component name (List.mem_reverse.mp hname)), List.reverse_reverse]

/-- **File names are a safe, exact code of segments.** What is accepted is read back, nothing else is
read, upper and lower case tell no two names apart, and the paths of keys stay apart below the root. -/
theorem encodeSegment_safe :
    (∀ segment, (∃ name, encodeSegment segment = .ok name) ↔ segment = [] ∨ ∃ b raw,
      utf8Encode segment = .ok (b :: raw) ∧
        (encodeByte true b ++ raw.flatMap (encodeByte false)).length ≤ maxSegmentBytes) ∧
    (∀ segment name, encodeSegment segment = .ok name → decodeSegment name = some segment) ∧
    (∀ name segment, decodeSegment name = some segment → encodeSegment segment = .ok name) ∧
    (∀ name, (∀ segment, encodeSegment segment ≠ .ok name) → decodeSegment name = none) ∧
    (∀ segment segment' name name', encodeSegment segment = .ok name → encodeSegment segment' = .ok name' →
      foldName name = foldName name' → segment = segment') ∧
    (∀ segment name, encodeSegment segment = .ok name → slash ∉ name ∧ ¬ str "." <+: name ∧
      ¬ bodySuffix <:+ name ∧ ¬ sidecarSuffix <:+ name) ∧
    (∀ key key' kind kind' p p', KeyPath key kind p → KeyPath key' kind' p' → foldPath p = foldPath p' →
      kind = kind' ∧ (kind ≠ .temp → p = p') ∧ (kind = .body ∨ kind = .sidecar → key = key')) ∧
    ∀ key kind p root, KeyPath key kind p → resolve root (join [slash] p.reverse) = p ++ root := by
  refine ⟨fun segment => encodeSegment_accepts, fun segment name => decodeSegment_eq_some.mpr,
    fun name segment => decodeSegment_eq_some.mp, fun name hnot => ?_,
    fun segment segment' name name' => encoded_foldName_injective, fun segment name henc => ?_,
    fun key key' kind kind' p p' h h' => h.apart h', fun key kind p root h => h.resolve root⟩
  · cases hdec : decodeSegment name with
    | none => rfl
    | some segment => exact absurd (decodeSegment_eq_some.mp hdec) (hnot segment)
  · have hsafe := safeName_of_encoded henc
    obtain ⟨hbody, hsidecar⟩ := not_or.mp hsafe.not_suffix
    exact ⟨hsafe.slash_not_mem, hsafe.shown, hbody, hsidecar⟩

end

/-- `A` and `a` are stored as `%41` and `a`, and two keys that differ so have directories that differ. -/
theorem encodeSegment_safe_letters : let _ := Interpreter.ascii
    decodeSegment (str "%41") = some (str "A") ∧ decodeSegment (str "%4a") = none ∧
      foldName (str "%41") ≠ foldName (str "a") ∧
      resolve [str "root"] (str "%41/b%obj") = [str "b%obj", str "%41", str "root"] := by
  let _ := Interpreter.ascii
  have hupper : encodeSegment (str "A") = .ok (str "%41") := by decide
  have hlower : encodeSegment (str "a") = .ok (str "a") := by decide
  have hlocated : FilesystemStorage.locate (str "A/b") = .ok ([str "%41"], str "b") := by decide
  obtain ⟨-, hread, -, hnone, hfold, -, -, hresolve⟩ := encodeSegment_safe
  refine ⟨hread _ _ hupper, hnone _ fun segment henc => ?_, fun he => ?_, ?_⟩
  · have hdec := decodeSegment_eq_some.mpr henc
    have hreject : decodeSegment (str "%4a") = none := by decide
    rw [hreject] at hdec
    cases hdec
  · exact absurd (hfold _ _ _ _ hupper hlower he) (by decide)
  · exact hresolve (str "A/b") .body _ [str "root"] (.body hlocated)

end Wenchang
