import Wenchang.Py.DateTime

/-!
# JSON schemas

JSON values, and the part of JSON Schema that describes closed objects: `object` lists every property it
allows and the ones it requires. `accepts` decides. A value that is built item by item is accepted when its
first items are and every further one is accepted by its property (`accepts_setItem`), so a renderer is
followed step by step.

The format `date-time` is asserted, with the upper-case `T` and `Z`.
-/

namespace Py

/-- A JSON value without fractions. -/
inductive JsonValue where
  | null
  | bool (b : Bool)
  | int (n : Int)
  | str (s : Str)
  | arr (items : List JsonValue)
  | obj (members : List (Str × JsonValue))

/-- An array of strings. -/
def JsonValue.strs (items : List Str) : JsonValue := .arr (items.map .str)

/-- A string, or null. -/
def JsonValue.strOrNull : Option Str → JsonValue
  | none => .null
  | some s => .str s

/-- `d[key] = value`. -/
def setItem (members : List (Str × JsonValue)) (key : Str) (value : JsonValue) : List (Str × JsonValue) :=
  if members.any (·.1 == key) = true then members.map fun m => if m.1 = key then (key, value) else m
  else members ++ [(key, value)]

/-! ## Timestamps -/

/-- The zone of a timestamp. -/
def isZone : Str → Bool
  | [c] => c == 90
  | c :: rest => (c == 43 || c == 45) && (readInt 2 rest).any (· < 24) && rest[2]? == some 58 &&
    (readInt 2 (rest.drop 3)).any (· < 60) && rest.length == 5
  | [] => false

/-- The fraction and the zone of a timestamp. -/
def isFractionZone : Str → Bool
  | [] => false
  | c :: rest =>
    if c = 46 then rest.head?.any isDigit && isZone (rest.dropWhile isDigit) else isZone (c :: rest)

/-- A timestamp: a day of the calendar, a time of day with a leap second at most, a zone. -/
def isDateTime (s : Str) : Bool :=
  match readInt 4 s, readInt 2 (s.drop 5), readInt 2 (s.drop 8), readInt 2 (s.drop 11), readInt 2 (s.drop 14),
    readInt 2 (s.drop 17) with
  | some year, some month, some day, some hour, some minute, some second =>
    s[4]? == some 45 && s[7]? == some 45 && s[10]? == some 84 && s[13]? == some 58 && s[16]? == some 58 &&
      1 ≤ month && month ≤ 12 && 1 ≤ day && day ≤ daysInMonth year month &&
      hour < 24 && minute < 60 && second ≤ 60 && isFractionZone (s.drop 19)
  | _, _, _, _, _, _ => false

/-- What is written after the seconds is a fraction and `Z`. -/
theorem isFractionZone_micros (micros : Nat) :
    isFractionZone ((if micros = 0 then [] else 46 :: dec 6 micros) ++ str "Z") = true := by
  by_cases hzero : micros = 0
  · rw [if_pos hzero]
    decide
  have hdigits : ∀ c ∈ dec 6 micros, isDigit c = true := fun c hc => isDigit_of_mem_dec hc
  have hzone : (dec 6 micros ++ str "Z").dropWhile isDigit = str "Z" := by
    rw [List.dropWhile_append_of_pos hdigits]
    decide
  have hhead : (dec 6 micros ++ str "Z").head?.any isDigit = true :=
    hdigits _ (List.mem_of_mem_head? rfl)
  rw [if_neg hzero, List.cons_append, isFractionZone, if_pos rfl, hzone, hhead]
  decide

/-- What is written of a moment in UTC is a timestamp. -/
theorem isDateTime_zulu {d : DateTime} (hutc : d.utcoffset = some 0) :
    isDateTime (replaceAll d.isoformat (str "+00:00") (str "Z")) = true := by
  obtain ⟨hyear, hmonth, hday, hhour, hminute, hsecond, -, -⟩ := d.valid
  have hdays : daysInMonth d.year d.month ≤ 31 := by
    unfold daysInMonth
    split_ifs <;> decide
  rw [isoformat_zulu hutc, formatTime]
  generalize htail : (if d.microsecond = 0 then [] else 46 :: dec 6 d.microsecond) ++ str "Z" = tail
  have hfraction : isFractionZone tail = true := htail ▸ isFractionZone_micros d.microsecond
  generalize htext : (dec 4 d.year ++ 45 :: (dec 2 d.month ++ 45 :: dec 2 d.day)) ++ 84 :: ((dec 2 d.hour ++
    58 :: dec 2 d.minute ++ 58 :: dec 2 d.second ++ if d.microsecond = 0 then [] else 46 :: dec 6 d.microsecond) ++
    str "Z") = text
  have hsplit : text = dec 4 d.year ++ 45 :: (dec 2 d.month ++ 45 :: (dec 2 d.day ++ 84 :: (dec 2 d.hour ++
      58 :: (dec 2 d.minute ++ 58 :: (dec 2 d.second ++ tail))))) := by
    rw [← htext, ← htail]
    simp only [List.append_assoc, List.cons_append]
  have hread : readInt 4 text = some d.year ∧ readInt 2 (text.drop 5) = some d.month ∧
      readInt 2 (text.drop 8) = some d.day ∧ readInt 2 (text.drop 11) = some d.hour ∧
      readInt 2 (text.drop 14) = some d.minute ∧ readInt 2 (text.drop 17) = some d.second := by
    rw [hsplit]
    exact ⟨readInt_dec (by omega) _, readInt_dec (by omega) _, readInt_dec (by omega) _, readInt_dec (by omega) _,
      readInt_dec (by omega) _, readInt_dec (by omega) _⟩
  have hmarks : text[4]? = some 45 ∧ text[7]? = some 45 ∧ text[10]? = some 84 ∧ text[13]? = some 58 ∧
      text[16]? = some 58 ∧ text.drop 19 = tail := by
    rw [hsplit]
    exact ⟨rfl, rfl, rfl, rfl, rfl, rfl⟩
  obtain ⟨hy, hmo, hd, hh, hm, hs⟩ := hread
  obtain ⟨h4, h7, h10, h13, h16, h19⟩ := hmarks
  unfold isDateTime
  rw [hy, hmo, hd, hh, hm, hs, h4, h7, h10, h13, h16, h19, hfraction]
  simp only [beq_self_eq_true, Bool.true_and, Bool.and_true, Bool.and_eq_true, decide_eq_true_eq]
  omega

/-! ## Schemas -/

/-- A JSON schema. -/
inductive Schema where
  | string
  | dateTime
  | null
  | integer (minimum : Int)
  | const (value : Bool)
  | enum (values : List Str)
  | array (items : Schema)
  | anyOf (schemas : List Schema)
  | object (properties : List (Str × Schema)) (required : List Str)

mutual
/-- The value is one that the schema describes. -/
def Schema.accepts : Schema → JsonValue → Bool
  | .string, .str _ => true
  | .dateTime, .str s => isDateTime s
  | .null, .null => true
  | .integer minimum, .int n => minimum ≤ n
  | .const value, .bool b => value == b
  | .enum values, .str s => values.contains s
  | .array items, .arr values => values.all fun v => items.accepts v
  | .anyOf schemas, v => acceptsAny schemas v
  | .object properties required, .obj members =>
    (required.all fun key => members.any (·.1 == key)) && members.all fun m => acceptsMember properties m.1 m.2
  | _, _ => false
/-- One of the schemas describes the value. -/
def acceptsAny : List Schema → JsonValue → Bool
  | [], _ => false
  | s :: rest, v => s.accepts v || acceptsAny rest v
/-- There is a property under a key, and it describes the value. -/
def acceptsMember : List (Str × Schema) → Str → JsonValue → Bool
  | [], _, _ => false
  | (name, s) :: rest, key, v => if name = key then s.accepts v else acceptsMember rest key v
end

section

variable {properties : List (Str × Schema)} {required : List Str} {members : List (Str × JsonValue)}

/-- An object is accepted where it has what is required and each member is accepted. -/
theorem accepts_object : (Schema.object properties required).accepts (.obj members) = true ↔
    (∀ key ∈ required, key ∈ members.map (·.1)) ∧ ∀ m ∈ members, acceptsMember properties m.1 m.2 = true := by
  simp [Schema.accepts]

/-- An item that is set adds its key. -/
theorem mem_keys_setItem {key k : Str} {value : JsonValue} :
    k ∈ (setItem members key value).map (·.1) ↔ k = key ∨ k ∈ members.map (·.1) := by
  unfold setItem
  split
  next h =>
    obtain ⟨m, hm, heq⟩ := List.any_eq_true.mp h
    have hkeys : ((members.map fun m => if m.1 = key then (key, value) else m).map (·.1)) = members.map (·.1) := by
      rw [List.map_map]
      refine List.map_congr_left fun m _ => ?_
      by_cases hmk : m.1 = key
      · simp [hmk]
      · simp [hmk]
    rw [hkeys]
    refine ⟨.inr, fun hk => hk.elim (fun he => ?_) id⟩
    exact List.mem_map.mpr ⟨m, hm, he ▸ beq_iff_eq.mp heq⟩
  next => simp [or_comm]

/-- A member is the one set, or was there. -/
theorem mem_setItem {key : Str} {value : JsonValue} {m : Str × JsonValue} (h : m ∈ setItem members key value) :
    m = (key, value) ∨ m ∈ members := by
  unfold setItem at h
  split at h
  · obtain ⟨m', hm', rfl⟩ := List.mem_map.mp h
    split
    · exact .inl rfl
    · exact .inr hm'
  · exact (List.mem_append.mp h).symm.imp List.mem_singleton.mp id

/-- An object stays accepted when an item is set to a value that its property accepts. -/
theorem accepts_setItem {key : Str} {value : JsonValue}
    (h : (Schema.object properties required).accepts (.obj members) = true)
    (hvalue : acceptsMember properties key value = true) :
    (Schema.object properties required).accepts (.obj (setItem members key value)) = true := by
  obtain ⟨hrequired, hmembers⟩ := accepts_object.mp h
  refine accepts_object.mpr ⟨fun k hk => mem_keys_setItem.mpr (.inr (hrequired k hk)), fun m hm => ?_⟩
  rcases mem_setItem hm with rfl | hm
  · exact hvalue
  · exact hmembers m hm

/-- An object that lacks a required item is refused. -/
theorem refuses_object {key : Str} (hrequired : key ∈ required) (h : key ∉ members.map (·.1)) :
    (Schema.object properties required).accepts (.obj members) = false :=
  Bool.eq_false_iff.mpr fun haccepts => h ((accepts_object.mp haccepts).1 key hrequired)

end

/-- A list of strings is accepted as one. -/
theorem accepts_strs (items : List Str) : (Schema.array .string).accepts (.strs items) = true := by
  simp [Schema.accepts, JsonValue.strs]

/-- A text or null is accepted as one. -/
theorem accepts_strOrNull (s : Option Str) : (Schema.anyOf [.string, .null]).accepts (.strOrNull s) = true := by
  cases s <;> rfl

/-- An array is accepted where each item is. -/
theorem accepts_array {items : Schema} {values : List JsonValue} :
    (Schema.array items).accepts (.arr values) = true ↔ ∀ v ∈ values, items.accepts v = true := by
  simp [Schema.accepts]

end Py
