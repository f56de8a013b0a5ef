import Wenchang.Laws.CachedListing
import Wenchang.Laws.FreshIndex
import Wenchang.Laws.Purge

/-!
# Any cached text

A cache is shared, so what it returns for a listing may be any text. `_decode_listing` with the
exceptions of its calls and its two `except` clauses is `Raising.decodeListing`: none of them gets out.
What it accepts is a listing (`ReadsAs`), and of a text that `_encode_listing` wrote it accepts what was
written, under the tag as JSON reads it.

`get_memory_index` puts such listings and drains together. What it raises is what the scope map is
refused for, what a listing of storage raised, or the one exception of the merge: the checks of
`MemoryIndex` and of `CappedPrefix` hold whatever was cached.
-/

namespace Wenchang

open Py Ordered Interaction

/-! ## What is accepted -/

/-- A dict that describes an entry: it has the fields of an entry and no other, each of its type, and
they are the entry's. -/
structure Describes (members : List (Str × Json)) (e : FileEntry) : Prop where
  keys : ∀ key, key ∈ members.map (·.1) ↔ key ∈ entryFields
  path : strField members (str "path") = some e.path
  version : strField members (str "version") = some e.version
  description : strField members (str "description") = some e.metadata.description
  aliases : listField members (str "aliases") = some e.metadata.aliases
  sources : (listField members (str "sources")).map FinSet.ofList = some e.metadata.sources
  lastUpdated : (strField members (str "last_updated")).bind fromisoformat = some e.metadata.lastUpdated

/-- Metadata that is made has the fields it is made of. -/
theorem FileMetadata.make_eq_ok {description : Str} {aliases : List Str} {sources : FinSet Str}
    {lastUpdated : DateTime} {metadata : FileMetadata} :
    FileMetadata.make description aliases sources lastUpdated = .ok metadata ↔
      metadata.description = description ∧ metadata.aliases = aliases ∧ metadata.sources = sources ∧
        metadata.lastUpdated = lastUpdated := by
  constructor
  · intro h
    unfold FileMetadata.make at h
    split at h
    · split at h
      · cases h
        exact ⟨rfl, rfl, rfl, rfl⟩
      · cases h
    · cases h
  · rintro ⟨rfl, rfl, rfl, rfl⟩
    rw [FileMetadata.make, dif_pos metadata.one_line, dif_pos metadata.aware]

/-- An entry is accepted as what its dict describes. -/
theorem decodeEntry_iff {raw : Json} {pre : Str} {e : FileEntry} :
    decodeEntry raw pre = some e ↔ (∃ members, raw = .obj members ∧ Describes members e) ∧
      isValidPath e.path = true ∧ pre.isPrefixOf e.path = true := by
  constructor
  · intro h
    refine ⟨?_, decodeEntry_eq_some h⟩
    cases raw with
    | obj members =>
      refine ⟨members, rfl, ?_⟩
      unfold decodeEntry at h
      simp only [Option.bind_eq_bind] at h
      split at h
      · cases h
      next hkeys =>
        rw [not_not] at hkeys
        obtain ⟨path, hpath, h⟩ := Option.bind_eq_some_iff.mp h
        obtain ⟨version, hversion, h⟩ := Option.bind_eq_some_iff.mp h
        obtain ⟨description, hdescription, h⟩ := Option.bind_eq_some_iff.mp h
        obtain ⟨lastUpdated, hupdated, h⟩ := Option.bind_eq_some_iff.mp h
        obtain ⟨aliases, haliases, h⟩ := Option.bind_eq_some_iff.mp h
        obtain ⟨sources, hsources, h⟩ := Option.bind_eq_some_iff.mp h
        split at h
        · cases h
        · obtain ⟨moment, hmoment, h⟩ := Option.bind_eq_some_iff.mp h
          split at h
          next metadata hmake =>
            obtain rfl := Option.some.inj h
            obtain ⟨rfl, rfl, hsame, rfl⟩ := FileMetadata.make_eq_ok.mp hmake
            constructor
            · exact fun key => ⟨hkeys.1 key, hkeys.2 key⟩
            · exact hpath
            · exact hversion
            · exact hdescription
            · exact haliases
            · rw [hsources, hsame]
              rfl
            · rw [hupdated]
              exact hmoment
          next => cases h
    | _ => cases h
  · rintro ⟨⟨members, rfl, h⟩, hpath, hunder⟩
    obtain ⟨sources, hsources, hset⟩ := Option.map_eq_some_iff.mp h.sources
    obtain ⟨lastUpdated, hupdated, hmoment⟩ := Option.bind_eq_some_iff.mp h.lastUpdated
    have hkeys : (∀ key ∈ members.map (·.1), key ∈ entryFields) ∧
        ∀ field ∈ entryFields, field ∈ members.map (·.1) :=
      ⟨fun key => (h.keys key).mp, fun key => (h.keys key).mpr⟩
    have hmake := FileMetadata.make_eq_ok.mpr
      (show _ ∧ _ ∧ e.metadata.sources = _ ∧ _ from ⟨rfl, rfl, hset.symm, rfl⟩)
    unfold decodeEntry
    simp only [if_neg (not_not.mpr hkeys), h.path, h.version, h.description, hupdated, h.aliases,
      hsources, Option.bind_eq_bind, Option.bind_some, hmoment, hmake]
    exact if_neg (not_not.mpr ⟨hpath, hunder⟩)

/-- Entries are accepted one by one, no path twice. -/
theorem decodeEntries_iff {pre : Str} {seen : List Str} {raws : List Json} {entries : List FileEntry} :
    decodeEntries pre seen raws = some entries ↔
      List.Forall₂ (fun raw e => decodeEntry raw pre = some e) raws entries ∧
        (entries.map (·.path)).Nodup ∧ ∀ e ∈ entries, e.path ∉ seen := by
  constructor
  · intro h
    obtain ⟨hone, hseen⟩ := decodeEntries_oneEntity h
    refine ⟨?_, hone.nodup, hseen⟩
    clear hone hseen
    induction raws generalizing seen entries with
    | nil =>
      obtain rfl := Option.some.inj h
      exact .nil
    | cons raw rest ih =>
      rw [decodeEntries] at h
      obtain ⟨entry, hentry, h⟩ := Option.bind_eq_some_iff.mp h
      split at h
      · cases h
      · obtain ⟨tail, htail, h⟩ := Option.bind_eq_some_iff.mp h
        obtain rfl := Option.some.inj h
        exact .cons hentry (ih htail)
  · rintro ⟨hall, hnodup, hseen⟩
    induction hall generalizing seen with
    | nil => rfl
    | @cons raw e rest tail hentry _ ih =>
      rw [List.map_cons, List.nodup_cons] at hnodup
      rw [List.forall_mem_cons] at hseen
      have htail : ∀ e' ∈ tail, e'.path ∉ e.path :: seen := by
        intro e' he' hmem
        rcases List.mem_cons.mp hmem with heq | hmem
        · exact hnodup.1 (heq ▸ List.mem_map_of_mem he')
        · exact hseen.2 e' he' hmem
      rw [decodeEntries, hentry]
      simp only [Option.bind_eq_bind, Option.bind_some, if_neg hseen.1, ih hnodup.2 htail]

/-- The text carries a listing: its tag, and its entries as dicts that describe them. -/
def ReadsAs [Interpreter] (raw token pre : Str) (entries : List FileEntry) : Prop :=
  OneEntity pre entries ∧ ∃ top rawEntries, jsonLoads raw = .ok (.obj top) ∧
    jsonGet top (str "token") = some (.str token) ∧
    jsonGet top (str "entries") = some (.arr rawEntries) ∧
    List.Forall₂ (fun raw e => ∃ members, raw = .obj members ∧ Describes members e) rawEntries entries

/-- A field is a text where the member is a string. -/
theorem strField_eq_some {members : List (Str × Json)} {field s : Str} :
    strField members field = some s ↔ jsonGet members field = some (.str s) := by
  unfold strField
  split
  next s' h => rw [h, Option.some.injEq, Option.some.injEq, Json.str.injEq]
  next hne => exact ⟨nofun, fun h => absurd h (hne s)⟩

/-- A property of the second list may be split off. -/
theorem forall₂_and_right {α β : Type} {R : α → β → Prop} {p : β → Prop} {l : List α} {u : List β} :
    List.Forall₂ (fun a b => R a b ∧ p b) l u ↔ List.Forall₂ R l u ∧ ∀ b ∈ u, p b := by
  constructor
  · intro h
    induction h with
    | nil => exact ⟨.nil, fun _ hb => absurd hb List.not_mem_nil⟩
    | cons h _ ih => exact ⟨.cons h.1 ih.1, List.forall_mem_cons.mpr ⟨h.2, ih.2⟩⟩
  · rintro ⟨h, hp⟩
    induction h with
    | nil => exact .nil
    | cons h _ ih =>
      rw [List.forall_mem_cons] at hp
      exact .cons ⟨h, hp.1⟩ (ih hp.2)

/-- Entries are accepted from dicts that describe them, and make up an entity's. -/
theorem decodeEntries_iff_oneEntity {pre : Str} {raws : List Json} {entries : List FileEntry} :
    decodeEntries pre [] raws = some entries ↔ OneEntity pre entries ∧
      List.Forall₂ (fun raw e => ∃ members, raw = .obj members ∧ Describes members e) raws entries := by
  rw [decodeEntries_iff]
  simp only [decodeEntry_iff, forall₂_and_right]
  constructor
  · rintro ⟨⟨hraws, hvalid⟩, hnodup, -⟩
    exact ⟨⟨hnodup, fun e he => (hvalid e he).1, fun e he => (hvalid e he).2⟩, hraws⟩
  · rintro ⟨hone, hraws⟩
    exact ⟨⟨hraws, fun e he => ⟨hone.path e he, hone.under e he⟩⟩, hone.nodup,
      fun _ _ => List.not_mem_nil⟩

/-- **What the decoder accepts.** -/
theorem decodeListing_iff [Interpreter] {raw token pre : Str} {entries : List FileEntry} :
    decodeListing raw token pre = some entries ↔ ReadsAs raw token pre entries := by
  constructor
  · intro h
    unfold decodeListing at h
    split at h
    next top hload =>
      split at h
      · cases h
      next htoken =>
        split at h
        next rawEntries hentries =>
          obtain ⟨hone, hraws⟩ := decodeEntries_iff_oneEntity.mp h
          have htag := strField_eq_some.mp (not_not.mp htoken)
          exact ⟨hone, top, rawEntries, hload, htag, hentries, hraws⟩
        next => cases h
    next => cases h
  · rintro ⟨hone, top, rawEntries, hload, htoken, hentries, hraws⟩
    unfold decodeListing
    rw [hload]
    simp only [strField_eq_some.mpr htoken, hentries]
    rw [if_neg (not_not.mpr rfl)]
    exact decodeEntries_iff_oneEntity.mpr ⟨hone, hraws⟩

/-- A key that a dict has is there. -/
theorem exists_jsonGet {members : List (Str × Json)} {key : Str} (h : key ∈ members.map (·.1)) :
    ∃ value, jsonGet members key = some value := by
  obtain ⟨member, hmember, rfl⟩ := List.mem_map.mp h
  apply Option.isSome_iff_exists.mp
  exact List.lookup_isSome_iff.mpr ⟨member, List.mem_reverse.mpr hmember, beq_self_eq_true _⟩

/-! ## Nothing gets out -/

/-- A list field is what its member reads as. -/
theorem listField_of_jsonGet {members : List (Str × Json)} {name : Str} {value : Json}
    (h : jsonGet members name = some value) : listField members name = Raising.strList value := by
  rw [listField, h]
  cases value with
  | arr items => rfl
  | _ => rfl

section

variable [Interpreter]

/-- What the `try` of `_decode_entry` comes to. -/
theorem orNone_metadata (description lastUpdated : Str) (aliases sources : List Str) :
    Raising.orNone Exc.isValueError (Raising.metadata description lastUpdated aliases sources) =
      .ok ((fromisoformat lastUpdated).bind fun moment =>
        (FileMetadata.make description aliases (FinSet.ofList sources) moment).toOption) := by
  unfold Raising.metadata Raising.fromisoformat
  cases fromisoformat lastUpdated with
  | none => rfl
  | some moment =>
    show Raising.orNone _ (Except.mapError _ _) = _
    rw [Option.bind_some]
    cases FileMetadata.make description aliases (FinSet.ofList sources) moment with
    | error message => rfl
    | ok metadata => rfl

/-- **No entry makes the decoder raise.** -/
theorem decodeEntry_raises_nothing (raw : Json) (pre : Str) :
    Raising.decodeEntry raw pre = .ok (decodeEntry raw pre) := by
  cases raw with
  | other => rfl
  | str s => rfl
  | arr items => rfl
  | obj fields =>
    unfold Raising.decodeEntry decodeEntry
    dsimp only
    by_cases hkeys : (∀ key ∈ fields.map (·.1), key ∈ entryFields) ∧
        ∀ field ∈ entryFields, field ∈ fields.map (·.1)
    · rw [if_neg (not_not.mpr hkeys), if_neg (not_not.mpr hkeys)]
      -- Every field is there, so no subscript raises.
      have hget : ∀ name ∈ entryFields, ∃ value, jsonGet fields name = some value :=
        fun name hname => exists_jsonGet (hkeys.2 name hname)
      obtain ⟨path, hpath⟩ := hget (str "path") (by simp [entryFields])
      obtain ⟨version, hversion⟩ := hget (str "version") (by simp [entryFields])
      obtain ⟨description, hdescription⟩ := hget (str "description") (by simp [entryFields])
      obtain ⟨lastUpdated, hupdated⟩ := hget (str "last_updated") (by simp [entryFields])
      obtain ⟨aliases, haliases⟩ := hget (str "aliases") (by simp [entryFields])
      obtain ⟨sources, hsources⟩ := hget (str "sources") (by simp [entryFields])
      simp only [Raising.subscript, strField, hpath, hversion, hdescription, hupdated, haliases,
        hsources, listField_of_jsonGet haliases, listField_of_jsonGet hsources]
      -- A field of another shape ends both decoders at once.
      cases path with
      | str path => ?_
      | _ => rfl
      cases version with
      | str version => ?_
      | _ => rfl
      cases description with
      | str description => ?_
      | _ => rfl
      cases lastUpdated with
      | str lastUpdated => ?_
      | _ => rfl
      simp only [bind, Except.bind, Option.bind_some]
      cases Raising.strList aliases with
      | none => rfl
      | some aliases =>
        cases Raising.strList sources with
        | none => rfl
        | some sources =>
          by_cases hpath : isValidPath path = true ∧ pre.isPrefixOf path = true
          · simp only [if_neg (not_not.mpr hpath), orNone_metadata]
            cases fromisoformat lastUpdated with
            | none => rfl
            | some moment =>
              simp only [Option.bind_some]
              cases FileMetadata.make description aliases (FinSet.ofList sources) moment with
              | error message => rfl
              | ok metadata => rfl
          · simp only [if_pos hpath, Option.bind_some]
    · rw [if_pos hkeys, if_pos hkeys]

/-- No entries raise. -/
theorem decodeEntries_raises_nothing (pre : Str) (paths : List Str) (raws : List Json) :
    Raising.decodeEntries pre paths raws = .ok (decodeEntries pre paths raws) := by
  induction raws generalizing paths with
  | nil => rfl
  | cons raw rest ih =>
    rw [Raising.decodeEntries, decodeEntries, decodeEntry_raises_nothing]
    cases decodeEntry raw pre with
    | none => rfl
    | some entry =>
      simp only [bind, Except.bind, Option.bind, ih]
      by_cases hseen : entry.path ∈ paths
      · rw [if_pos hseen, if_pos hseen]
      · rw [if_neg hseen, if_neg hseen]
        cases decodeEntries pre (entry.path :: paths) rest with
        | none => rfl
        | some entries => rfl

/-- **No text makes the decoder raise.** -/
theorem decodeListing_raises_nothing (raw token pre : Str) :
    Raising.decodeListing raw token pre = .ok (decodeListing raw token pre) := by
  unfold Raising.decodeListing decodeListing Raising.loads
  cases jsonLoads raw with
  | error failure =>
    -- Each of the three failures is caught.
    cases failure with
    | malformed => rfl
    | intTooLong => rfl
    | tooDeep => rfl
  | ok value =>
    cases value with
    | obj top =>
      simp only [bind, Except.bind, Raising.orNone]
      by_cases htoken : strField top (str "token") ≠ some token
      · rw [if_pos htoken, if_pos htoken]
      · rw [if_neg htoken, if_neg htoken]
        cases jsonGet top (str "entries") with
        | none => rfl
        | some value =>
          cases value with
          | arr rawEntries => exact decodeEntries_raises_nothing pre [] rawEntries
          | _ => rfl
    | _ => rfl

end

/-! ## Whatever is cached -/

/-- What a listing that storage answered makes its reader raise. -/
inductive ListingRaises [Interpreter] (e : Exc) : Event StoreSig InMemoryStorage → Prop
  /-- Storage raised it. -/
  | storage (pre : Str) (after : Option Str) (limit : Nat) (st : InMemoryStorage) :
    ListingRaises e (raisedEvent (.listPage pre after limit) e st)
  /-- A stored file's metadata cannot be read. -/
  | metadata (pre : Str) (after : Option Str) (limit : Nat) (st : InMemoryStorage) (o : ListedObject)
    (mem : o ∈ st.listPage pre after limit) (path : isValidPath o.key = true)
    (raised : metadataFromMap o.metadata = .error e) : ListingRaises e (listEvent pre after limit st)
  /-- A cursor would name a key that has no UTF-8. -/
  | cursor (pre : Str) (after : Option Str) (limit : Nat) (st : InMemoryStorage) (o : ListedObject)
    (mem : o ∈ st.listPage pre after limit) (raised : encodeCursor o.key = .error e) :
    ListingRaises e (listEvent pre after limit st)

/-- What is known of the entries that were drained from a position on. -/
structure Drained (pre : Str) (after : Option Str) (entries : List FileEntry) : Prop where
  ascending : (entries.map (·.path)).Pairwise (· < ·)
  path : ∀ e ∈ entries, isValidPath e.path = true
  under : ∀ e ∈ entries, pre.isPrefixOf e.path = true
  behind : ∀ e ∈ entries, Behind after e.path

/-- A page and what is drained behind it are drained. -/
theorem Drained.append {pre : Str} {after : Option Str} {b : Str} {entries rest : List FileEntry}
    (h : Drained pre after entries) (hle : ∀ e ∈ entries, e.path ≤ b) (hb : Behind after b)
    (hrest : Drained pre (some b) rest) : Drained pre after (entries ++ rest) where
  ascending := by
    rw [List.map_append, List.pairwise_append]
    refine ⟨h.ascending, hrest.ascending, ?_⟩
    intro x hx y hy
    obtain ⟨e, he, rfl⟩ := List.mem_map.mp hx
    obtain ⟨e', he', rfl⟩ := List.mem_map.mp hy
    exact lt_of_le_of_lt (hle e he) (hrest.behind e' he' b rfl)
  path e he := (List.mem_append.mp he).elim (h.path e) (hrest.path e)
  under e he := (List.mem_append.mp he).elim (h.under e) (hrest.under e)
  behind e he := (List.mem_append.mp he).elim (h.behind e) fun he => hb.trans (hrest.behind e he b rfl)

/-- What is known of the entries of several entities. -/
structure Gathered (pairs : List (Str × Str)) (entries : List FileEntry) : Prop where
  nodup : (entries.map (·.path)).Nodup
  path : ∀ e ∈ entries, isValidPath e.path = true
  under : ∀ e ∈ entries, ∃ pair ∈ pairs, (entityPrefix pair.1 pair.2).isPrefixOf e.path = true

/-- The entries of one more entity are gathered. -/
theorem Gathered.cons {scope entityId : Str} {pairs : List (Str × Str)}
    {entries collected : List FileEntry} (hpairs : ValidScopeMap ((scope, entityId) :: pairs))
    (h : OneEntity (entityPrefix scope entityId) entries) (hcollected : Gathered pairs collected) :
    Gathered ((scope, entityId) :: pairs) (entries ++ collected) where
  nodup := h.nodup_append hpairs hcollected.under hcollected.nodup
  path e he := (List.mem_append.mp he).elim (h.path e) (hcollected.path e)
  under e he := by
    rcases List.mem_append.mp he with he | he
    · exact ⟨_, List.mem_cons_self, h.under e he⟩
    · obtain ⟨pair, hpair, hunder⟩ := hcollected.under e he
      exact ⟨pair, List.mem_cons_of_mem _ hpair, hunder⟩

section

variable [Interpreter]

/-- A program that returns what is so and so, if its listings raise nothing. -/
def Yields {α : Type} (P : α → Prop) (p : Store α) : Prop :=
  ∀ tr, p.Sat failing (fun _ _ => True) (fun tr r =>
    (∀ a, r = .ok a → P a) ∧ ∀ e, r = .error e → ∃ ev ∈ tr, ListingRaises e ev) tr

variable {α β : Type} {P : α → Prop} {Q : β → Prop}

/-- A value is yielded as it is. -/
theorem Yields.ret {a : α} (h : P a) : Yields P (.ret a) := by
  intro tr
  refine ⟨fun a' ha => ?_, nofun⟩
  obtain rfl := Except.ok.inj ha
  exact h

/-- A sequence yields what its rest does. -/
theorem Yields.bind {p : Store α} {f : α → Store β} (hp : Yields P p)
    (hf : ∀ a, P a → Yields Q (f a)) : Yields Q (p >>= f) := by
  intro tr
  apply (hp tr).andThen
  · exact fun tr a h => hf a (h.1 a rfl) tr
  · intro tr e h
    refine ⟨nofun, fun e' he' => ?_⟩
    obtain rfl := Except.error.inj he'
    exact h.2 e rfl

/-- What is yielded may be said more widely. -/
theorem Yields.mono {P' : α → Prop} {p : Store α} (hp : Yields P p) (h : ∀ a, P a → P' a) :
    Yields P' p := by
  intro tr
  exact (hp tr).post fun tr r hr => ⟨fun a ha => h a (hr.1 a ha), hr.2⟩

/-- Nothing that is asked raises by itself. -/
theorem Yields.ask (o : StoreOp) : Yields (fun _ => True) (ask o) := by
  intro tr
  exact ⟨trivial, fun _ _ _ _ => ⟨fun _ _ => trivial, nofun⟩⟩

/-- The cache may answer anything. -/
theorem yields_cacheGet (key : Str) : Yields (fun _ => True) (cacheGet key) := by
  apply (Yields.ask (.cacheGet key)).bind
  intro value _
  split
  · exact Yields.ret trivial
  · exact Yields.ret trivial

/-- A set yields nothing to speak of. -/
theorem yields_cacheSet (key value : Str) : Yields (fun _ => True) (cacheSet key value) :=
  (Yields.ask (.cacheSet key value)).bind fun _ _ => Yields.ret trivial

/-- A page, whatever is stored. -/
theorem page_drained {pre : Str} {after : Option Str} {st : InMemoryStorage} {size : Nat}
    (hsize : 0 < size) {page : ListPage}
    (h : MemoryStore.pageOf size (st.listPage pre after (size + 1)) = .ok page) :
    Drained pre after page.entries ∧ ∀ next, page.nextCursor = some next →
      ∃ b, MemoryStore.decodeStart (some next) pre = .ok (some b) ∧ Behind after b ∧
        ∀ e ∈ page.entries, e.path ≤ b := by
  have htake : (st.listPage pre after (size + 1)).take size = st.listPage pre after size := by
    rw [InMemoryStorage.listPage, List.take_take, InMemoryStorage.listPage,
      Nat.min_eq_left (Nat.le_succ _)]
  obtain ⟨hentries, -, hmore⟩ := pageOf_eq_ok hsize h
  have hreadable := readable_of_pageOf h
  rw [htake] at hentries hmore hreadable
  have hlisted : ∀ e ∈ page.entries, isValidPath e.path = true ∧
      ∃ o ∈ st.listPage pre after size, e.path = o.key := by
    intro e he
    rw [hentries] at he
    obtain ⟨o, ho, hentry⟩ := List.mem_filterMap.mp he
    obtain ⟨hvalid, hkey, -⟩ := entryOf_eq_some hentry
    exact ⟨hkey ▸ hvalid, o, ho, hkey⟩
  have hfound : ∀ o ∈ st.listPage pre after size, pre.isPrefixOf o.key = true ∧ Behind after o.key := by
    intro o ho
    obtain ⟨hunder, hbehind, -⟩ := mem_listing.mp (List.mem_of_mem_take ho)
    exact ⟨hunder, hbehind⟩
  refine ⟨⟨?_, fun e he => (hlisted e he).1, fun e he => ?_, fun e he => ?_⟩, fun next hnext => ?_⟩
  · rw [hentries, paths_filterMap hreadable, InMemoryStorage.listPage, List.map_take]
    exact ((read_listing st pre after).sorted.sublist (List.take_sublist _ _)).filter _
  · obtain ⟨-, o, ho, hkey⟩ := hlisted e he
    exact hkey ▸ (hfound o ho).1
  · obtain ⟨-, o, ho, hkey⟩ := hlisted e he
    exact hkey ▸ (hfound o ho).2
  · obtain ⟨last, hlast, hencode⟩ := hmore next hnext
    obtain ⟨hunder, hbehind⟩ := hfound last (List.mem_of_getLast? hlast)
    refine ⟨last.key, ?_, hbehind, fun e he => ?_⟩
    · rw [MemoryStore.decodeStart, decodeCursor_encodeCursor hencode hunder]
      rfl
    · obtain ⟨-, o, ho, hkey⟩ := hlisted e he
      rw [hkey]
      exact ((read_listPage_full hlast).mem _ (List.mem_map_of_mem ho)).2.2 _ rfl

/-- A page raises for metadata that does not read. -/
theorem pageEntries_eq_error {objs : List ListedObject} {e : Exc}
    (h : MemoryStore.pageEntries objs = .error e) :
    ∃ o ∈ objs, isValidPath o.key = true ∧ metadataFromMap o.metadata = .error e := by
  induction objs with
  | nil => cases h
  | cons o rest ih =>
    unfold MemoryStore.pageEntries at h
    split at h
    next hvalid =>
      cases hmetadata : metadataFromMap o.metadata with
      | error e' =>
        rw [hmetadata] at h
        cases h
        exact ⟨o, List.mem_cons_self, hvalid, hmetadata⟩
      | ok metadata =>
        rw [hmetadata] at h
        cases hrest : MemoryStore.pageEntries rest with
        | error e' =>
          rw [hrest] at h
          cases h
          obtain ⟨o', ho', hraised⟩ := ih hrest
          exact ⟨o', List.mem_cons_of_mem _ ho', hraised⟩
        | ok entries =>
          rw [hrest] at h
          cases h
    next =>
      obtain ⟨o', ho', hraised⟩ := ih h
      exact ⟨o', List.mem_cons_of_mem _ ho', hraised⟩

/-- A page raises what reading its objects raises. -/
theorem listingRaises_of_pageOf {size : Nat} {pre : Str} {after : Option Str} {limit : Nat}
    {st : InMemoryStorage} {e : Exc}
    (h : MemoryStore.pageOf size (st.listPage pre after limit) = .error e) :
    ListingRaises e (listEvent pre after limit st) := by
  unfold MemoryStore.pageOf at h
  cases hentries : MemoryStore.pageEntries ((st.listPage pre after limit).take size) with
  | error e' =>
    simp only [hentries] at h
    obtain rfl := Except.error.inj h
    obtain ⟨o, ho, hvalid, hraised⟩ := pageEntries_eq_error hentries
    exact .metadata pre after limit st o (List.mem_of_mem_take ho) hvalid hraised
  | ok entries =>
    simp only [hentries, bind, Except.bind] at h
    split at h
    next last hlast _ =>
      cases hcursor : encodeCursor last.key with
      | error e' =>
        rw [hcursor] at h
        obtain rfl := Except.error.inj h
        have hmem := List.mem_of_mem_take (List.mem_of_getLast? hlast)
        exact .cursor pre after limit st last hmem hcursor
      | ok cursor =>
        rw [hcursor] at h
        cases h
    next => cases h

variable (s : MemoryStore)

/-- A page, or what makes it raise. -/
theorem yields_listPrefix {pre : Str} {cursor after : Option Str} (hpre : isValidPrefix pre = true)
    (hcursor : MemoryStore.decodeStart cursor pre = .ok after) :
    Yields (fun page : ListPage => Drained pre after page.entries ∧ ∀ next, page.nextCursor = some next →
      ∃ b, MemoryStore.decodeStart (some next) pre = .ok (some b) ∧ Behind after b ∧
        ∀ e ∈ page.entries, e.path ≤ b) (s.listPrefix pre cursor) := by
  intro tr
  have hvalid : ¬ isValidPrefix pre = false := by
    rw [hpre]
    exact nofun
  unfold MemoryStore.listPrefix
  rw [Prog.raiseIf_neg hvalid, Prog.ret_bind, hcursor, Prog.ofExcept_ok, Prog.ret_bind]
  refine (Prog.sat_bind _ _ _ _).mpr (sat_failing_list trivial (fun st _ => ?_) fun st e _ => ?_)
  · rw [Prog.andThen_ok, Prog.sat_ofExcept]
    refine ⟨fun page hpage => page_drained s.listPageSize_pos hpage, fun e he => ?_⟩
    exact ⟨_, List.mem_append_right _ (List.mem_singleton_self _), listingRaises_of_pageOf he⟩
  · refine ⟨nofun, fun e' he' => ?_⟩
    obtain rfl := Except.error.inj he'
    exact ⟨_, List.mem_append_right _ (List.mem_singleton_self _), .storage _ _ _ st⟩

/-- A drain yields entries in order, below its prefix. -/
theorem yields_drain {pre : Str} (hpre : isValidPrefix pre = true) (fuel : Nat)
    {cursor after : Option Str} (hcursor : MemoryStore.decodeStart cursor pre = .ok after) :
    Yields (Drained pre after) (s.drain pre fuel cursor) := by
  induction fuel generalizing cursor after with
  | zero => exact fun _ => trivial
  | succ fuel ih =>
    unfold MemoryStore.drain
    apply (yields_listPrefix s hpre hcursor).bind
    rintro ⟨entries, nextCursor⟩ ⟨hdrained, hnext⟩
    cases nextCursor with
    | none => exact Yields.ret hdrained
    | some next =>
      obtain ⟨b, hstart, hb, hle⟩ := hnext next rfl
      exact (ih hstart).bind fun rest hrest => Yields.ret (hdrained.append hle hb hrest)

/-! ### An index -/

/-- A whole drain yields the entries of one entity. -/
theorem yields_entity {pre : Str} (hpre : isValidPrefix pre = true) (fuel : Nat) :
    Yields (OneEntity pre) (s.drain pre fuel none) := by
  apply (yields_drain s hpre fuel (show MemoryStore.decodeStart none pre = .ok none from rfl)).mono
  exact fun entries h => ⟨h.ascending.imp ne_of_lt, h.path, h.under⟩

/-- **An entity's entries**, drained or from any text that a cache returned. -/
theorem yields_cachedEntityEntries {scope entityId : Str} (hs : isValidSegment scope = true)
    (he : isValidSegment entityId = true) (fuel : Nat) (cache : IndexCache) :
    Yields (OneEntity (entityPrefix scope entityId)) (s.cachedEntityEntries fuel cache scope entityId) := by
  have hrefill : ∀ token, Yields (OneEntity (entityPrefix scope entityId))
      (s.refill fuel cache scope entityId (entityPrefix scope entityId) token) := by
    intro token
    unfold MemoryStore.refill
    apply (yields_entity s (entityPrefix_valid hs he) fuel).bind
    exact fun entries h => (yields_cacheSet _ _).bind fun _ _ => Yields.ret h
  unfold MemoryStore.cachedEntityEntries
  rw [orValueError, buildPrefix_entity hs he]
  apply (yields_cacheGet _).bind
  intro token _
  cases token with
  | none =>
    apply (Yields.ask .uuid4).bind
    exact fun token _ => (yields_cacheSet _ _).bind fun _ _ => hrefill token
  | some token =>
    apply (yields_cacheGet _).bind
    intro raw _
    split
    next hit hhit =>
      obtain ⟨text, -, hdecode⟩ := Option.bind_eq_some_iff.mp hhit
      exact Yields.ret (decodeListing_oneEntity hdecode)
    next => exact hrefill token

/-- Collecting yields the entries of the mapped entities. -/
theorem yields_collect (fuel : Nat) {pairs : List (Str × Str)} (hpairs : ValidScopeMap pairs) :
    Yields (Gathered pairs) (s.collect fuel pairs) := by
  induction pairs with
  | nil =>
    apply Yields.ret
    exact ⟨.nil, fun _ he => absurd he List.not_mem_nil, fun _ he => absurd he List.not_mem_nil⟩
  | cons pair rest ih =>
    obtain ⟨scope, entityId⟩ := pair
    obtain ⟨hs, he⟩ := hpairs.segments _ List.mem_cons_self
    have hscopes := hpairs.scopes
    rw [List.map_cons, List.nodup_cons] at hscopes
    have hrest := ih ⟨fun pair hpair => hpairs.segments pair (List.mem_cons_of_mem _ hpair), hscopes.2⟩
    have hentity : Yields (OneEntity (entityPrefix scope entityId))
        (s.entityEntries fuel scope entityId) := by
      unfold MemoryStore.entityEntries
      split
      · rw [orValueError, buildPrefix_entity hs he]
        exact yields_entity s (entityPrefix_valid hs he) fuel
      · exact yields_cachedEntityEntries s hs he fuel _
    rw [collect_cons]
    apply hentity.bind
    intro entries hentries
    apply hrest.bind
    exact fun collected hcollected => Yields.ret (hcollected.cons hpairs hentries)

/-- What an index can raise, after a trace. -/
def IndexRaises (scopeMap : List (Str × Str)) (tr : StoreTrace) (e : Exc) : Prop :=
  checkPairs [] (sortedPairs scopeMap) = .error e ∨ e = unrenderable ∨ ∃ ev ∈ tr, ListingRaises e ev

/-- **An index, whatever is cached.** -/
theorem sat_getMemoryIndex_raises (fuel : Nat) (scopeMap : List (Str × Str)) :
    (s.getMemoryIndex fuel scopeMap).Sat failing (fun _ _ => True)
      (fun tr r => ∀ e, r = .error e → IndexRaises scopeMap tr e) [] := by
  unfold MemoryStore.getMemoryIndex
  simp only
  cases hcheck : checkPairs [] (sortedPairs scopeMap) with
  | error e =>
    intro e' he'
    obtain rfl := Except.error.inj he'
    exact .inl hcheck
  | ok u =>
    apply (yields_collect s fuel (of_checkPairs hcheck).1 []).andThen
    · intro tr collected h
      have hgathered := h.1 collected rfl
      rw [Prog.sat_ofExcept]
      exact fun e he => .inr (.inl (mergeIndex_error s hgathered.path hgathered.nodup he))
    · intro tr e h e' he'
      obtain rfl := Except.error.inj he'
      exact .inr (.inr (h.2 e rfl))

/-- What is asked of a call: an index raises nothing else. -/
def Invocation.RaisesOnly (i : Invocation AnyCall) (tr : StoreTrace) (r : Except Exc AnyResult) : Prop :=
  ∀ scopeMap, i.call = .store (.getMemoryIndex scopeMap) → ∀ e, r = .error e → IndexRaises scopeMap tr e

/-- Every call raises for an index only what an index may raise. -/
theorem sat_raisesOnly (i : Invocation AnyCall) :
    i.anyBody.Sat failing (fun _ _ => True) i.RaisesOnly [] := by
  by_cases hindex : ∃ scopeMap, i.call = .store (.getMemoryIndex scopeMap)
  · obtain ⟨scopeMap, hcall⟩ := hindex
    have hbody : i.anyBody = i.store.getMemoryIndex i.fuel scopeMap >>= fun index =>
        .ret (.store (.index index)) := by
      rw [Invocation.anyBody, hcall, AnyCall.body, StoreCall.body]
      exact bind_assoc _ _ _
    rw [hbody]
    apply (sat_getMemoryIndex_raises i.store i.fuel scopeMap).andThen
    · intro tr index _ scopeMap' _ e he
      cases he
    · intro tr e h scopeMap' hcall' e' he'
      cases hcall.symm.trans hcall'
      obtain rfl := Except.error.inj he'
      exact h e rfl
  · apply (Prog.issues_true _).sat
    · exact fun _ _ _ => trivial
    · exact fun _ _ _ scopeMap hcall => absurd ⟨scopeMap, hcall⟩ hindex

/-! ## The codec -/

/-- **The listing codec.** What was encoded is decoded under its tag, as JSON reads the tag, and under no
other, if no last-updated has an offset below a second. No text raises, and what is decoded stands in the
text. No index raises for what was cached, unless a last-updated cannot be rendered in UTC. -/
theorem listing_codec (pre : Str) :
    (∀ (token : Str) (entries : List FileEntry), OneEntity pre entries → (∀ e ∈ entries, e.Survives) →
      (∀ tag, decodeListing (encodeListing token entries) tag pre =
        if tag = joinPairs token then some entries else none) ∧
      (Scalar token → decodeListing (encodeListing token entries) token pre = some entries ∧
        ∀ tag, tag ≠ token → decodeListing (encodeListing token entries) tag pre = none)) ∧
    (∀ raw token : Str,
      Raising.decodeListing raw token pre = .ok (decodeListing raw token pre) ∧
      ∀ entries, decodeListing raw token pre = some entries → ReadsAs raw token pre entries ∧
        ∀ e ∈ entries, ((10 : CodePoint) ∉ e.metadata.description ∧
          (13 : CodePoint) ∉ e.metadata.description) ∧ e.metadata.lastUpdated.utcoffset.isSome = true) ∧
    ∀ (w : InMemoryStorage) (p : AnyPool) (t : Nat) (th : AnyThread) (scopeMap : List (Str × Str)) (e : Exc),
      Pool.Run failing Invocation.anyBody (fun _ => True) w p → p.threads[t]? = some th →
      th.call.call = .store (.getMemoryIndex scopeMap) → p.returned t = some (.error e) →
      IndexRaises scopeMap (ownTrace t p.log) e := by
  refine ⟨fun token entries hone hjoined => ?_, fun raw token => ⟨?_, fun entries h => ⟨?_, ?_⟩⟩, ?_⟩
  · have htag : ∀ tag, decodeListing (encodeListing token entries) tag pre =
        if tag = joinPairs token then some entries else none := by
      intro tag
      rw [decodeListing_encodeListing]
      simp only [eq_comm (a := tag)]
      split
      next =>
        apply decodeEntries_entryJson _ hone.nodup
        · exact fun _ _ => List.not_mem_nil
        · exact fun e he => ⟨hjoined e he, hone.path e he, hone.under e he⟩
      next => rfl
    refine ⟨htag, fun hscalar => ⟨?_, fun tag hne => ?_⟩⟩
    · rw [htag, joinPairs_of_scalar hscalar, if_pos rfl]
    · rw [htag, joinPairs_of_scalar hscalar, if_neg hne]
  · exact decodeListing_raises_nothing raw token pre
  · exact decodeListing_iff.mp h
  · exact fun e _ => ⟨e.metadata.one_line, e.metadata.aware⟩
  · intro w p t th scopeMap e hrun ht hcall hreturned
    obtain ⟨th', ht', hend⟩ := Pool.returned_eq_some.mp hreturned
    cases ht.symm.trans ht'
    exact hrun.post sat_raisesOnly ht hend scopeMap hcall e rfl

end

/-- A moment of the year 1 that is in the year 0 in UTC. -/
def beforeYearOne : DateTime := ⟨1, 1, 1, 0, 0, 0, 0, some 60000000, by decide⟩

/-- A file with that last-updated, as somebody put it into a cache. -/
def plantedEntry : FileEntry :=
  ⟨str "user/u1/notes/n.md", ⟨[], [], .empty, beforeYearOne, by decide, by decide⟩, str "1"⟩

/-- Another file of the entity, with strings of its own and an offset of some seconds. -/
def besideEntry : FileEntry :=
  ⟨str "user/u1/notes/o.md", ⟨str "two", [str "A", str "B"], FinSet.ofList [str "s"],
    ⟨2026, 1, 2, 12, 0, 0, 7, some (-19815000000), by decide⟩, by decide +kernel, by decide⟩, str "2"⟩

/-- What somebody put into a cache. -/
def plantedEntries : List FileEntry := [plantedEntry, besideEntry]

/-- A storage beside a cache that answers what is chosen. -/
def answerCached (value : CacheValue) : (o : StoreOp) → InMemoryStorage → o.Ans × InMemoryStorage
  | .cacheGet _, s => (.ok value, s)
  | o, s => answerAt noon o s

/-- A cache that answers one value to all is a cache. -/
theorem answerCached_failing (value : CacheValue) (o : StoreOp) (s : InMemoryStorage) :
    failing.handles s o (answerCached value o s).1 (answerCached value o s).2 := by
  cases o with
  | cacheGet key => rfl
  | storage o => exact answerAt_failing noon (.storage o) s
  | cacheSet key value => exact answerAt_failing noon (.cacheSet key value) s
  | clock => rfl
  | uuid4 => rfl

/-- An index of the entity, which a cache answers with the planted files. -/
def plantedIndex [Interpreter] : Option AnyPool :=
  Pool.exec answerCached Invocation.anyBody
    [.invoke ⟨cachedStore, 1, .store (.getMemoryIndex [(str "user", str "u1")])⟩,
      .act 0 (.text (str "t")), .act 0 (.text (encodeListing (str "t") plantedEntries))]
    (Pool.init .empty)

/-- The planted listing is read back under its tag only, and all it makes an index raise is that its
last-updated cannot be rendered. -/
theorem listing_codec_planted : let _ := Interpreter.ascii
    decodeListing (encodeListing (str "t") plantedEntries) (str "t") (str "user/u1/") =
        some plantedEntries ∧
      decodeListing (encodeListing (str "t") plantedEntries) (str "u") (str "user/u1/") = none ∧
      Raising.decodeListing tombstone (str "t") (str "user/u1/") = .ok none ∧
      ∃ p, plantedIndex = some p ∧ p.returned 0 = some (.error unrenderable) ∧
        IndexRaises [(str "user", str "u1")] (ownTrace 0 p.log) unrenderable := by
  intro _
  have hends : (plantedIndex.any fun p => p.returned 0 = some (.error unrenderable) ∧
      (p.threads[0]?.any fun th =>
        th.call.call = .store (.getMemoryIndex [(str "user", str "u1")])) = true) = true := by
    decide +kernel
  obtain ⟨p, hp, h⟩ := (Option.any_eq_true _ _).mp hends
  rw [decide_eq_true_eq] at h
  obtain ⟨hreturned, hthread⟩ := h
  obtain ⟨th, ht, hcall⟩ := (Option.any_eq_true _ _).mp hthread
  have hrun : Pool.Run failing Invocation.anyBody (fun _ => True) .empty p :=
    Pool.Run.exec answerCached answerCached_failing (.init trivial) hp
  have hone : OneEntity (str "user/u1/") plantedEntries := by
    constructor
    · decide +kernel
    · decide +kernel
    · decide +kernel
  have hjoined : ∀ e ∈ plantedEntries, e.Survives := by
    refine List.forall_mem_cons.mpr ⟨?_, List.forall_mem_singleton.mpr ?_⟩
    · refine ⟨⟨(scalar_str _).joined, (scalar_str _).joined, scalar_nil.joined, ?_, ?_⟩, ?_⟩
      · exact fun _ ha => absurd ha List.not_mem_nil
      · exact fun _ ha => absurd ha (FinSet.not_mem_empty _)
      · rintro o ⟨⟩
        exact .inr (by decide)
    · refine ⟨⟨(scalar_str _).joined, (scalar_str _).joined, (scalar_str _).joined, ?_, ?_⟩, ?_⟩
      · exact List.forall_mem_cons.mpr ⟨(scalar_str _).joined, List.forall_mem_singleton.mpr (scalar_str _).joined⟩
      · intro a ha
        obtain rfl := List.mem_singleton.mp (FinSet.mem_ofList.mp ha)
        exact (scalar_str _).joined
      · rintro o ⟨⟩
        exact .inr (by decide)
  obtain ⟨hself, hother⟩ := ((listing_codec (str "user/u1/")).1 (str "t") _ hone hjoined).2 (scalar_str _)
  refine ⟨hself, hother _ (by decide +kernel), ?_, p, hp, hreturned, ?_⟩
  · rw [((listing_codec (str "user/u1/")).2.1 tombstone (str "t")).1, decodeListing_tombstone]
  · exact (listing_codec []).2.2 .empty p 0 th _ _ hrun ht (of_decide_eq_true hcall) hreturned

/-- A file whose last-updated has an offset below a second. -/
def shortOffsetEntry : FileEntry :=
  ⟨str "user/u1/notes/n.md", ⟨[], [], .empty, ⟨2026, 1, 2, 12, 0, 0, 0, some 5, by decide⟩, by decide, by decide⟩,
    str "1"⟩

/-- A token of the two halves of a surrogate pair: its listing is read under the joined token, and not under its
own. And an offset below a second is read as the one of UTC. -/
theorem listing_codec_split : let _ := Interpreter.ascii
    (¬ ∀ (token : Str) (entries : List FileEntry) (pre : Str), OneEntity pre entries →
      (∀ e ∈ entries, e.Survives) →
      decodeListing (encodeListing token entries) token pre = some entries ∧
        ∀ tag, tag ≠ token → decodeListing (encodeListing token entries) tag pre = none) ∧
    ¬ ∀ (entries : List FileEntry) (pre : Str), OneEntity pre entries → (∀ e ∈ entries, e.Joined) →
      decodeListing (encodeListing (str "t") entries) (str "t") pre = some entries := by
  intro _
  constructor
  · intro hall
    have hsplit : decodeListing (encodeListing [0xD83D, 0xDE00] []) [0xD83D, 0xDE00] [] = none := by
      decide +kernel
    have hone : OneEntity [] [] := by
      constructor
      · exact .nil
      · exact fun _ he => absurd he List.not_mem_nil
      · exact fun _ he => absurd he List.not_mem_nil
    have hself := (hall [0xD83D, 0xDE00] [] [] hone fun _ he => absurd he List.not_mem_nil).1
    rw [hsplit] at hself
    cases hself
  · intro hall
    have hone : OneEntity (str "user/u1/") [shortOffsetEntry] := by
      constructor
      · exact List.nodup_singleton _
      · decide +kernel
      · decide +kernel
    have hjoined : ∀ e ∈ [shortOffsetEntry], e.Joined := by
      refine List.forall_mem_singleton.mpr ⟨(scalar_str _).joined, (scalar_str _).joined, scalar_nil.joined, ?_, ?_⟩
      · exact fun _ ha => absurd ha List.not_mem_nil
      · exact fun _ ha => absurd ha (FinSet.not_mem_empty _)
    have hread : (decodeListing (encodeListing (str "t") [shortOffsetEntry]) (str "t") (str "user/u1/")).map
        (List.map (·.metadata.lastUpdated.utcoffset)) = some [some 0] := by
      decide +kernel
    rw [hall _ _ hone hjoined] at hread
    cases hread

end Wenchang
