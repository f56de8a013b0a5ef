import Wenchang.Laws.Index

/-!
# Cached listings

What the text of a cached listing says: its tag and its entries, each string with the halves of its
surrogate pairs joined, as JSON does. A listing reads back under its own tag only, and to the entries
that were written if their strings are joined already. A tombstone reads back under no tag.
-/

namespace Wenchang

open Py Ordered Interaction

/-! ## What a listing reads as -/

/-- The members of an entry as `json.loads` reads it. -/
def entryMembers (e : FileEntry) : List (Str × Json) :=
  [(str "path", .str (joinPairs e.path)), (str "version", .str (joinPairs e.version)),
    (str "description", .str (joinPairs e.metadata.description)),
    (str "aliases", .arr (e.metadata.aliases.map fun a => .str (joinPairs a))),
    (str "sources", .arr (e.metadata.sources.toList.map fun a => .str (joinPairs a))),
    (str "last_updated", .str e.metadata.lastUpdated.isoformat)]

/-- An entry as `json.loads` reads it. -/
def entryJson (e : FileEntry) : Json := .obj (entryMembers e)

/-- A text of the source has no pair to join. -/
theorem joinPairs_str (s : String) : joinPairs (str s) = str s := (scalar_str s).joined

/-- A comma alone separates items. -/
theorem isSeparator_comma : IsSeparator 44 comma := ⟨[], rfl, by simp⟩

/-- A colon alone separates a key from its value. -/
theorem isSeparator_colon : IsSeparator 58 colon := ⟨[], rfl, by simp⟩

/-- A list of strings is read back, their surrogate pairs joined. -/
theorem parses_strings (items : List Str) : Parses 1 (dumpsArray comma (items.map dumpsStr))
    (.arr (items.map fun s => .str (joinPairs s))) := by
  refine parses_dumpsArray isSeparator_comma ?_
  rw [List.forall₂_map_left_iff, List.forall₂_map_right_iff]
  exact List.forall₂_same.mpr fun s _ => parses_dumpsStr s

/-- An encoded entry is read back. -/
theorem parses_encodeEntry (e : FileEntry) : Parses 2 (encodeEntry e) (entryJson e) := by
  have htext : ∀ s, Parses 1 (dumpsStr s) (.str (joinPairs s)) := fun s =>
    (parses_dumpsStr s).mono (Nat.zero_le 1)
  have hmembers := ParsesMembers.cons (str "path") (htext e.path) <|
    .cons (str "version") (htext e.version) <| .cons (str "description") (htext e.metadata.description) <|
    .cons (str "aliases") (parses_strings e.metadata.aliases) <|
    .cons (str "sources") (parses_strings e.metadata.sources.toList) <|
    .cons (str "last_updated") (htext e.metadata.lastUpdated.isoformat) .nil
  rw [joinPairs_str, joinPairs_str, joinPairs_str, joinPairs_str, joinPairs_str, joinPairs_str,
    (scalar_isoformat _).joined] at hmembers
  exact parses_dumpsObject isSeparator_comma isSeparator_colon hmembers

section

variable [Interpreter]

/-- An encoded listing is read back. -/
theorem jsonLoads_encodeListing (token : Str) (entries : List FileEntry) :
    jsonLoads (encodeListing token entries) =
      .ok (.obj [(str "token", .str (joinPairs token)), (str "entries", .arr (entries.map entryJson))]) := by
  have hentries : Parses 3 (dumpsArray comma (entries.map encodeEntry)) (.arr (entries.map entryJson)) := by
    refine parses_dumpsArray isSeparator_comma ?_
    rw [List.forall₂_map_left_iff, List.forall₂_map_right_iff]
    exact List.forall₂_same.mpr fun e _ => parses_encodeEntry e
  have hmembers := ParsesMembers.cons (str "token")
    ((parses_dumpsStr token).mono (Nat.zero_le 3)) <| .cons (str "entries") hentries .nil
  rw [joinPairs_str, joinPairs_str] at hmembers
  exact (parses_dumpsObject isSeparator_comma isSeparator_colon hmembers).jsonLoads
    Interpreter.four_le_jsonNesting

/-- What `_decode_listing` makes of a listing: nothing under another tag. -/
theorem decodeListing_encodeListing (token tag pre : Str) (entries : List FileEntry) :
    decodeListing (encodeListing tag entries) token pre =
      if joinPairs tag = token then decodeEntries pre [] (entries.map entryJson) else none := by
  have htoken : strField [(str "token", Json.str (joinPairs tag)),
      (str "entries", .arr (entries.map entryJson))] (str "token") = some (joinPairs tag) := rfl
  have hentries : jsonGet [(str "token", Json.str (joinPairs tag)),
      (str "entries", .arr (entries.map entryJson))] (str "entries") =
        some (.arr (entries.map entryJson)) := rfl
  unfold decodeListing
  rw [jsonLoads_encodeListing]
  simp only [htoken, hentries]
  by_cases h : joinPairs tag = token
  · rw [if_pos h, if_neg (by simp [h])]
  · rw [if_neg h, if_pos (by simpa using h)]

end

/-! ## Reading entries back -/

/-- An entry all of whose strings survive JSON. -/
structure FileEntry.Joined (e : FileEntry) : Prop where
  path : Py.Joined e.path
  version : Py.Joined e.version
  description : Py.Joined e.metadata.description
  aliases : ∀ a ∈ e.metadata.aliases, Py.Joined a
  sources : ∀ a ∈ e.metadata.sources, Py.Joined a

/-- An entry that survives being written and read: its strings do, and its last-updated is read back. -/
structure FileEntry.Survives (e : FileEntry) : Prop extends e.Joined where
  lastUpdated : e.metadata.lastUpdated.Readable

/-- An entry's fields, as the decoder takes them out of the dict. -/
theorem decodeEntry_fields (e : FileEntry) (pre : Str) : decodeEntry (entryJson e) pre =
    if ¬ (isValidPath (joinPairs e.path) ∧ pre.isPrefixOf (joinPairs e.path)) then none
    else (fromisoformat e.metadata.lastUpdated.isoformat).bind fun moment =>
      (FileMetadata.make (joinPairs e.metadata.description) (e.metadata.aliases.map joinPairs)
        (FinSet.ofList (e.metadata.sources.toList.map joinPairs)) moment).toOption.map fun metadata =>
          ⟨joinPairs e.path, metadata, joinPairs e.version⟩ := by
  have hitems : ∀ l : List Str, strItems (l.map fun a => Json.str (joinPairs a)) =
      some (l.map joinPairs) := fun l => strItems_eq_some.mpr (List.map_map).symm
  have hkeys : (entryMembers e).map (·.1) = entryFields := rfl
  have hpath : strField (entryMembers e) (str "path") = some (joinPairs e.path) := rfl
  have hversion : strField (entryMembers e) (str "version") = some (joinPairs e.version) := rfl
  have hdescription : strField (entryMembers e) (str "description") =
    some (joinPairs e.metadata.description) := rfl
  have hupdated : strField (entryMembers e) (str "last_updated") =
    some e.metadata.lastUpdated.isoformat := rfl
  have haliases : listField (entryMembers e) (str "aliases") =
    some (e.metadata.aliases.map joinPairs) := hitems _
  have hsources : listField (entryMembers e) (str "sources") =
    some (e.metadata.sources.toList.map joinPairs) := hitems _
  have hall : ¬ ¬ ((∀ key ∈ entryFields, key ∈ entryFields) ∧ ∀ field ∈ entryFields, field ∈ entryFields) :=
    not_not.mpr ⟨fun _ h => h, fun _ h => h⟩
  simp only [entryJson, decodeEntry, hkeys, if_neg hall, hpath, hversion, hdescription, hupdated,
    haliases, hsources, Option.bind_eq_bind, Option.bind_some]
  split
  · rfl
  · cases fromisoformat e.metadata.lastUpdated.isoformat with
    | none => rfl
    | some moment =>
      simp only [Option.bind_some]
      cases FileMetadata.make (joinPairs e.metadata.description) (e.metadata.aliases.map joinPairs)
        (FinSet.ofList (e.metadata.sources.toList.map joinPairs)) moment with
      | ok metadata => rfl
      | error e => rfl

/-- **An entry reads back** where it survives JSON. -/
theorem decodeEntry_entryJson {e : FileEntry} {pre : Str} (hjoined : e.Survives)
    (hpath : isValidPath e.path = true) (hunder : pre.isPrefixOf e.path = true) :
    decodeEntry (entryJson e) pre = some e := by
  have haliases : e.metadata.aliases.map joinPairs = e.metadata.aliases :=
    (List.map_congr_left hjoined.aliases).trans (List.map_id _)
  have hsources : e.metadata.sources.toList.map joinPairs = e.metadata.sources.toList :=
    (List.map_congr_left hjoined.sources).trans (List.map_id _)
  have hmake : FileMetadata.make e.metadata.description e.metadata.aliases
      (FinSet.ofList e.metadata.sources.toList) e.metadata.lastUpdated = .ok e.metadata := by
    rw [FinSet.ofList_toList, FileMetadata.make, dif_pos e.metadata.one_line, dif_pos e.metadata.aware]
  rw [decodeEntry_fields, hjoined.path, hjoined.version, hjoined.description, haliases, hsources,
    if_neg (not_not.mpr ⟨hpath, hunder⟩), fromisoformat_isoformat hjoined.lastUpdated, Option.bind_some, hmake]
  rfl

/-- What an entry reads back as, if at all, has its path as it was joined, and its moment as it was read. -/
theorem shown_of_decodeEntry {e e' : FileEntry} {pre : Str}
    (h : decodeEntry (entryJson e) pre = some e') :
    e'.path = joinPairs e.path ∧ fromisoformat e.metadata.lastUpdated.isoformat = some e'.metadata.lastUpdated := by
  rw [decodeEntry_fields] at h
  split at h
  · cases h
  · obtain ⟨moment, hmoment, h⟩ := Option.bind_eq_some_iff.mp h
    obtain ⟨metadata, hmake, rfl⟩ := Option.map_eq_some_iff.mp h
    refine ⟨rfl, ?_⟩
    have hok := eq_ok_of_toOption hmake
    unfold FileMetadata.make at hok
    split at hok
    · split at hok
      · cases hok
        exact hmoment
      · cases hok
    · cases hok

/-- **The entries of a listing read back**, in their order. -/
theorem decodeEntries_entryJson {entries : List FileEntry} {pre : Str} {seen : List Str}
    (hentries : ∀ e ∈ entries, e.Survives ∧ isValidPath e.path = true ∧ pre.isPrefixOf e.path = true)
    (hnodup : (entries.map (·.path)).Nodup) (hseen : ∀ e ∈ entries, e.path ∉ seen) :
    decodeEntries pre seen (entries.map entryJson) = some entries := by
  induction entries generalizing seen with
  | nil => rfl
  | cons e rest ih =>
    obtain ⟨hjoined, hpath, hunder⟩ := hentries e List.mem_cons_self
    rw [List.map_cons, List.nodup_cons] at hnodup
    have hrest : ∀ e' ∈ rest, e'.path ∉ e.path :: seen := by
      intro e' he' hmem
      rcases List.mem_cons.mp hmem with heq | hmem
      · exact hnodup.1 (heq ▸ List.mem_map_of_mem he')
      · exact hseen e' (List.mem_cons_of_mem _ he') hmem
    rw [List.map_cons, decodeEntries, decodeEntry_entryJson hjoined hpath hunder]
    simp only [Option.bind_eq_bind, Option.bind_some, if_neg (hseen e List.mem_cons_self)]
    rw [ih (fun e' he' => hentries e' (List.mem_cons_of_mem _ he')) hnodup.2 hrest]
    rfl

/-- What a listing reads back as, if at all, has its paths as they were joined, and its moments as they were read. -/
theorem shown_of_decodeEntries {entries hit : List FileEntry} {pre : Str} {seen : List Str}
    (h : decodeEntries pre seen (entries.map entryJson) = some hit) :
    hit.map (·.path) = entries.map (fun e => joinPairs e.path) ∧
      hit.map (some ·.metadata.lastUpdated) = entries.map (fromisoformat ·.metadata.lastUpdated.isoformat) := by
  induction entries generalizing seen hit with
  | nil =>
    obtain rfl := Option.some.inj h
    exact ⟨rfl, rfl⟩
  | cons e rest ih =>
    rw [List.map_cons, decodeEntries] at h
    obtain ⟨entry, hentry, h⟩ := Option.bind_eq_some_iff.mp h
    split at h
    · cases h
    · obtain ⟨tail, htail, h⟩ := Option.bind_eq_some_iff.mp h
      obtain rfl := Option.some.inj h
      obtain ⟨hpath, hupdated⟩ := shown_of_decodeEntry hentry
      obtain ⟨hpaths, hupdates⟩ := ih htail
      simp only [List.map_cons, hpath, hupdated, hpaths, hupdates, and_self]

/-- The tombstone's value is read to its end. -/
theorem parseScalar_true : parseScalar (str "true\x7d") = .ok (.other, [125]) := by
  have hfind : [str "null", str "true", str "false", str "NaN", str "Infinity", str "-Infinity"].find?
      (·.isPrefixOf (str "true\x7d")) = some (str "true") := by decide +kernel
  rw [parseScalar, hfind]
  rfl

/-- The text of the tombstone. -/
theorem tombstone_eq : tombstone = 123 :: 34 :: ((str "tombstone").flatMap dumpsChar ++
    34 :: 58 :: str "true\x7d") := by decide +kernel

/-- A tombstone is an object with one member. -/
theorem parseValue_tombstone (fuel depth : Nat) :
    parseValue (fuel + 3) (depth + 1) (123 :: 34 :: ((str "tombstone").flatMap dumpsChar ++
      34 :: 58 :: str "true\x7d")) = .ok (.obj [(str "tombstone", .other)], []) := by
  have hspace : skipSpace (str "true\x7d") = str "true\x7d" := by decide +kernel
  have hvalue : parseValue (fuel + 1) depth (str "true\x7d") = .ok (.other, [125]) := by
    rw [parseValue.eq_def]
    exact parseScalar_true
  have hmembers : parseMembers (fuel + 2) depth (34 :: ((str "tombstone").flatMap dumpsChar ++
      34 :: 58 :: str "true\x7d")) = .ok ([(str "tombstone", .other)], []) := by
    rw [parseMembers]
    simp only [if_pos, parseString_dumps, skipSpace_cons (show isJsonSpace 58 = false by decide), hspace,
      hvalue, skipSpace_cons (show isJsonSpace 125 = false by decide), joinPairs_str]
  rw [parseValue.eq_def]
  simp only [if_neg (show (123 : CodePoint) ≠ 34 by decide),
    if_neg (show (123 : CodePoint) ≠ 91 by decide), if_pos,
    skipSpace_cons (show isJsonSpace 34 = false by decide),
    if_neg (show (34 : CodePoint) ≠ 125 by decide), hmembers]
  rfl

variable [Interpreter]

/-- **A listing reads back** under its tag, to what was written. -/
theorem decodeListing_self {token pre : Str} {entries : List FileEntry} (htoken : Py.Joined token)
    (hentries : ∀ e ∈ entries, e.Survives ∧ isValidPath e.path = true ∧ pre.isPrefixOf e.path = true)
    (hnodup : (entries.map (·.path)).Nodup) :
    decodeListing (encodeListing token entries) token pre = some entries := by
  have htag : joinPairs token = token := htoken
  rw [decodeListing_encodeListing, if_pos htag]
  exact decodeEntries_entryJson hentries hnodup fun _ _ => List.not_mem_nil

/-- A listing that reads back under a tag was written under it. -/
theorem tag_of_decodeListing {token tag pre : Str} {entries hit : List FileEntry}
    (h : decodeListing (encodeListing tag entries) token pre = some hit) :
    joinPairs tag = token ∧ hit.map (·.path) = entries.map (fun e => joinPairs e.path) ∧
      hit.map (some ·.metadata.lastUpdated) = entries.map (fromisoformat ·.metadata.lastUpdated.isoformat) := by
  rw [decodeListing_encodeListing] at h
  split at h
  next htag => exact ⟨htag, shown_of_decodeEntries h⟩
  next => cases h

/-- A tombstone reads back under no tag. -/
theorem decodeListing_tombstone (token pre : Str) : decodeListing tombstone token pre = none := by
  obtain ⟨depth, hdepth⟩ := Nat.exists_eq_add_of_le' Interpreter.four_le_jsonNesting
  have hlength : tombstone.length + 1 = 16 + 3 := by decide +kernel
  have hloads : jsonLoads tombstone = .ok (.obj [(str "tombstone", .other)]) := by
    rw [jsonLoads, hdepth, hlength, tombstone_eq, skipSpace_cons (show isJsonSpace 123 = false by decide),
      parseValue_tombstone, if_neg (by decide)]
    rfl
  rw [decodeListing, hloads]
  rfl

end Wenchang
