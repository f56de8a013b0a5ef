import Wenchang.Backends.Filesystem
import Wenchang.Py.Joined

/-!
# Sidecars

A sidecar that was written parses, to the version and the metadata that were written, each string with
the halves of its surrogate pairs joined, as JSON does.
-/

namespace Wenchang

open Py Ordered

/-! ## Maps as JSON reads them -/

/-- A string map with each string as JSON reads it back. -/
def joinedMap (metadata : Metadata) : Metadata :=
  (metadata.entries.map fun e => (joinPairs e.1, joinPairs e.2)).foldl (fun m e => m.insert e.1 e.2) .empty

/-- The members that a map is written as. -/
def mapJson (metadata : Metadata) : List (Str × Json) :=
  metadata.entries.map fun e => (joinPairs e.1, .str (joinPairs e.2))

/-- **A string map reads back.** -/
theorem stringMap_mapJson (metadata : Metadata) : stringMap (mapJson metadata) = some (joinedMap metadata) := by
  have hdict : (mapJson metadata).foldl (fun d m => d.insert m.1 m.2) .empty =
      (joinedMap metadata).map Json.str := by
    rw [joinedMap, FinMap.map_foldl_insert, mapJson, List.foldl_map, List.foldl_map]
    rfl
  have hfold : ∀ (step : Metadata → Str × Json → Option Metadata),
      (∀ m k v, step m (k, .str v) = some (m.insert k v)) → ∀ (l : List (Str × Str)) (m : Metadata),
      (l.map fun e => (e.1, Json.str e.2)).foldlM step m = some (l.foldl (fun m e => m.insert e.1 e.2) m) := by
    intro step hstep l
    induction l with
    | nil => exact fun m => rfl
    | cons e l ih =>
      intro m
      rw [List.map_cons, List.foldlM_cons, hstep]
      exact ih _
  rw [stringMap]
  simp only [hdict]
  exact (hfold _ (fun _ _ _ => rfl) _ _).trans (congrArg some (FinMap.foldl_insert_entries _))

/-! ## The text of a sidecar -/

/-- The text of the metadata. -/
def mapText (metadata : Metadata) : Str :=
  dumpsObject (str ", ") (str ": ") (metadata.entries.map fun e => (e.1, dumpsStr e.2))

/-- A map that was written is read back. -/
theorem parses_mapText (metadata : Metadata) : Parses 1 (mapText metadata) (.obj (mapJson metadata)) := by
  have hmembers : ∀ l : List (Str × Str), ParsesMembers 0 (l.map fun e => (e.1, dumpsStr e.2))
      (l.map fun e => (joinPairs e.1, .str (joinPairs e.2))) := by
    intro l
    induction l with
    | nil => exact .nil
    | cons e l ih => exact .cons e.1 (parses_dumpsStr e.2) ih
  exact parses_dumpsObject isSeparator_default isSeparator_colon_default (hmembers metadata.entries)

/-- `_FORMAT` is read up to the comma behind it. -/
theorem parseValue_format (fuel depth : Nat) (rest : Str) :
    parseValue (fuel + 1) depth (49 :: 44 :: rest) = .ok (.other, 44 :: rest) := by
  have hnumber : parseNumber (49 :: 44 :: rest) = .ok (.other, 44 :: rest) := by
    cases rest <;> simp [parseNumber, skipExponent, isDigit, intMaxStrDigits]
  have hwords : [str "null", str "true", str "false", str "NaN", str "Infinity", str "-Infinity"].find?
      (·.isPrefixOf (49 :: 44 :: rest)) = none := rfl
  rw [parseValue.eq_def]
  simp only [if_neg (show (49 : CodePoint) ≠ 34 by decide), if_neg (show (49 : CodePoint) ≠ 91 by decide),
    if_neg (show (49 : CodePoint) ≠ 123 by decide)]
  rw [parseScalar, hwords]
  exact hnumber

/-- The members that a sidecar reads as. -/
def sidecarJson (sidecar : Sidecar) : List (Str × Json) :=
  [(str "format", .other), (str "metadata", .obj (mapJson sidecar.metadata)),
    (str "version", .str (joinPairs sidecar.version))]

/-- The text of the members behind the first, whose value is a number. -/
def othersText (sidecar : Sidecar) : Str :=
  join (str ", ") ([(str "metadata", mapText sidecar.metadata),
    (str "version", dumpsStr sidecar.version)].map (dumpsMember (str ": ")))

/-- A sidecar is its format and the other members. -/
theorem sidecarText_append (sidecar : Sidecar) (rest : Str) : sidecarText sidecar ++ rest =
    123 :: (dumpsMember (str ": ") (str "format", str "1") ++
      44 :: 32 :: (othersText sidecar ++ 125 :: rest)) := by
  simp only [sidecarText, dumpsObject, List.map_cons, join, List.intercalate_cons_cons, List.cons_append,
    List.append_assoc, List.nil_append, othersText, mapText]
  rfl

/-- The other members are read back. -/
theorem parseMembers_others (sidecar : Sidecar) {fuel depth : Nat} (rest : Str)
    (hf : (othersText sidecar).length + 1 < fuel) (hd : 1 ≤ depth) :
    parseMembers fuel depth (skipSpace (32 :: (othersText sidecar ++ 125 :: rest))) =
      .ok ([(str "metadata", .obj (mapJson sidecar.metadata)),
        (str "version", .str (joinPairs sidecar.version))], rest) := by
  have hmembers := parseMembers_join isSeparator_default isSeparator_colon_default (str "metadata")
    (parses_mapText sidecar.metadata)
    (.cons (str "version") ((parses_dumpsStr sidecar.version).mono (Nat.zero_le 1)) .nil) fuel depth
    rest hf hd
  obtain ⟨tail, hhead⟩ := join_members_head (str ", ") (str ": ") (str "metadata", mapText sidecar.metadata)
    [(str "version", dumpsStr sidecar.version)]
  have hskip : skipSpace (32 :: (othersText sidecar ++ 125 :: rest)) = othersText sidecar ++ 125 :: rest := by
    rw [othersText, hhead]
    rfl
  rw [hskip]
  exact hmembers

/-- **A sidecar's text reads back.** -/
theorem parses_sidecarText (sidecar : Sidecar) :
    Parses 2 (sidecarText sidecar) (.obj (sidecarJson sidecar)) where
  head := ⟨123, _, rfl, .inr (.inr rfl)⟩
  reads fuel d rest hf hd := by
    have htext := sidecarText_append sidecar rest
    have hfirst : (dumpsMember (str ": ") (str "format", str "1")).length = 11 := rfl
    have hlen := congrArg List.length htext
    simp only [List.length_append, List.length_cons, hfirst] at hlen
    obtain ⟨fuel, rfl⟩ := Nat.exists_eq_add_of_le' (show 3 ≤ fuel by omega)
    obtain ⟨d, rfl⟩ := Nat.exists_eq_add_of_le' (show 1 ≤ d by omega)
    have hothers := parseMembers_others sidecar rest (show _ < fuel + 1 by omega) (show 1 ≤ d by omega)
    have hread : parseMembers (fuel + 2) d (dumpsMember (str ": ") (str "format", str "1") ++
        44 :: 32 :: (othersText sidecar ++ 125 :: rest)) = _ :=
      parseMembers_read isSeparator_colon_default rfl (parseValue_format fuel d _)
    have hmembers : parseMembers (fuel + 2) d (dumpsMember (str ": ") (str "format", str "1") ++
        44 :: 32 :: (othersText sidecar ++ 125 :: rest)) = .ok (sidecarJson sidecar, rest) := by
      rw [hread, skipSpace_cons (show isJsonSpace 44 = false by decide)]
      simp only [if_neg (show (44 : CodePoint) ≠ 125 by decide), if_pos, hothers]
      rfl
    have hkey : ∀ tail, dumpsMember (str ": ") (str "format", str "1") ++ tail =
        34 :: (str "format\": 1" ++ tail) := fun _ => rfl
    rw [hkey] at htext hmembers
    rw [htext, parseValue.eq_def]
    simp only [if_neg (show (123 : CodePoint) ≠ 34 by decide),
      if_neg (show (123 : CodePoint) ≠ 91 by decide), if_pos,
      skipSpace_cons (show isJsonSpace 34 = false by decide),
      if_neg (show (34 : CodePoint) ≠ 125 by decide), hmembers]
    rfl

/-- A sidecar is written without surrogates. -/
theorem scalar_sidecarText (sidecar : Sidecar) : Scalar (sidecarText sidecar) := by
  have hcomma : Scalar (str ", ") := scalar_str _
  have hcolon : Scalar (str ": ") := scalar_str _
  refine scalar_dumpsObject hcomma hcolon fun m hm => ?_
  simp only [List.mem_cons, List.not_mem_nil, or_false] at hm
  rcases hm with rfl | rfl | rfl
  · exact scalar_str _
  · refine scalar_dumpsObject hcomma hcolon fun e he => ?_
    obtain ⟨e, -, rfl⟩ := List.mem_map.mp he
    exact scalar_dumpsStr _
  · exact scalar_dumpsStr _

/-- **What was written is read**, with the pairs of surrogates joined. -/
theorem parseSidecar_sidecarBytes [Interpreter] (fs : FilesystemStorage) (path : FilePath)
    (version : Str) (metadata : Metadata) : fs.parseSidecar path (sidecarBytes ⟨version, metadata⟩) =
      .ok ⟨joinPairs version, joinedMap metadata⟩ := by
  have htext : utf8Decode (sidecarBytes ⟨version, metadata⟩) = .ok (sidecarText ⟨version, metadata⟩) :=
    utf8Decode_encode (utf8Encode_of_scalar (scalar_sidecarText _))
  have hjson : jsonLoads (sidecarText ⟨version, metadata⟩) = .ok (.obj (sidecarJson ⟨version, metadata⟩)) :=
    (parses_sidecarText _).jsonLoads (Nat.le_trans (by decide) Interpreter.four_le_jsonNesting)
  have hversion : jsonGet (sidecarJson ⟨version, metadata⟩) (str "version") =
      some (.str (joinPairs version)) := rfl
  have hmetadata : jsonGet (sidecarJson ⟨version, metadata⟩) (str "metadata") =
      some (.obj (mapJson metadata)) := rfl
  simp only [FilesystemStorage.parseSidecar, htext, hjson, hversion, hmetadata, stringMap_mapJson]

end Wenchang
