import Wenchang.Core.Worlds
import Wenchang.Ordered.Scan

/-!
# Paging

A listing is a read of the keys under its prefix (`read_listing`), and following `next_cursor` is a
scan of them (`follow_scan`), whatever becomes of storage between two pages: each page is read in one
step, and its cursor is the last key it read, whether that key is a file's or not. So the laws of a
traversal are those of `Ordered.Scan`.
-/

namespace Wenchang

open Py Ordered Interaction

/-! ## A listing reads -/

/-- The keys under a prefix. -/
def InMemoryStorage.under (s : InMemoryStorage) (pre : Str) : Set Str :=
  {k | (s.get k).isSome = true ∧ pre.isPrefixOf k = true}

/-- An object as a listing shows it. -/
def listed (key : Str) (obj : StoredObject) : ListedObject := ⟨key, obj.metadata, obj.version⟩

/-- A listing has the objects below its prefix that come after. -/
theorem mem_listing {s : InMemoryStorage} {pre : Str} {after : Option Str} {o : ListedObject} :
    o ∈ s.listing pre after ↔
      pre.isPrefixOf o.key = true ∧ Behind after o.key ∧
        ∃ obj, s.get o.key = some obj ∧ o = listed o.key obj := by
  simp only [InMemoryStorage.listing, List.mem_map, List.mem_filter, Bool.and_eq_true]
  constructor
  · rintro ⟨⟨k, obj⟩, ⟨hmem, hpre, hafter⟩, rfl⟩
    refine ⟨hpre, ?_, obj, FinMap.get?_eq_some.mpr hmem, rfl⟩
    intro b hb
    cases hb
    exact of_decide_eq_true hafter
  · rintro ⟨hpre, hafter, obj, hobj, ho⟩
    refine ⟨(o.key, obj), ⟨FinMap.get?_eq_some.mp hobj, hpre, ?_⟩, ho.symm⟩
    cases after with
    | none => rfl
    | some b => exact decide_eq_true (hafter b rfl)

/-- **A listing reads** the keys under its prefix, to the end. -/
theorem read_listing (s : InMemoryStorage) (pre : Str) (after : Option Str) :
    Read (s.under pre) after none ((s.listing pre after).map (·.key)) where
  sorted := by
    rw [InMemoryStorage.listing, List.map_map, List.pairwise_map]
    exact s.objects.sorted.filter _
  mem k hk := by
    obtain ⟨o, ho, rfl⟩ := List.mem_map.mp hk
    obtain ⟨hpre, hafter, obj, hobj, -⟩ := mem_listing.mp ho
    exact ⟨⟨by rw [hobj]; rfl, hpre⟩, hafter, nofun⟩
  complete k hk hafter _ := by
    obtain ⟨hsome, hpre⟩ := hk
    obtain ⟨obj, hobj⟩ := Option.isSome_iff_exists.mp hsome
    exact List.mem_map.mpr ⟨listed k obj, mem_listing.mpr ⟨hpre, hafter, obj, hobj, rfl⟩, rfl⟩
  last := nofun

/-- A page that is not full reads to the end. -/
theorem read_listPage_short {s : InMemoryStorage} {pre : Str} {after : Option Str} {limit : Nat}
    (h : (s.listPage pre after limit).length < limit) :
    Read (s.under pre) after none ((s.listPage pre after limit).map (·.key)) := by
  have hall : s.listPage pre after limit = s.listing pre after := by
    apply List.take_of_length_le
    rw [InMemoryStorage.listPage, List.length_take] at h
    omega
  rw [hall]
  exact read_listing s pre after

/-- Any page reads up to its last key. -/
theorem read_listPage_full {s : InMemoryStorage} {pre : Str} {after : Option Str} {limit : Nat}
    {o : ListedObject} (h : (s.listPage pre after limit).getLast? = some o) :
    Read (s.under pre) after (some o.key) ((s.listPage pre after limit).map (·.key)) := by
  rw [InMemoryStorage.listPage, List.map_take]
  apply (read_listing s pre after).take
  rw [← List.map_take, List.getLast?_map]
  exact congrArg _ h

/-- A page has objects that are stored. -/
theorem mem_listPage {s : InMemoryStorage} {pre : Str} {after : Option Str} {limit : Nat}
    {o : ListedObject} (h : o ∈ s.listPage pre after limit) :
    ∃ obj, s.get o.key = some obj ∧ o = listed o.key obj :=
  (mem_listing.mp (List.mem_of_mem_take h)).2.2

/-- A listing is no longer than the keys. -/
theorem length_listing_le (st : InMemoryStorage) (pre : Str) (after : Option Str) :
    (st.listing pre after).length ≤ st.objects.keys.length := by
  rw [InMemoryStorage.listing, List.length_map, FinMap.keys, List.length_map]
  exact List.length_filter_le _ _

/-- What is left behind a page is less than what was left before it. -/
theorem length_listing_lt {st : InMemoryStorage} {pre : Str} {after : Option Str} {limit : Nat}
    {last : ListedObject} (h : (st.listPage pre after limit).getLast? = some last) :
    (st.listing pre (some last.key)).length < (st.listing pre after).length := by
  have hmem : last ∈ st.listing pre after := List.mem_of_mem_take (List.mem_of_getLast? h)
  obtain ⟨-, hbehind, -⟩ := mem_listing.mp hmem
  have hfilter : st.listing pre (some last.key) =
      (st.listing pre after).filter fun o => decide (last.key < o.key) := by
    simp only [InMemoryStorage.listing, List.filter_map, List.filter_filter]
    congr 1
    refine List.filter_congr fun e _ => ?_
    cases after with
    | none => simp [Function.comp, Bool.and_comm]
    | some b =>
      have hb : b < last.key := hbehind b rfl
      by_cases hlt : last.key < e.1
      · simp [Function.comp, hlt, lt_trans hb hlt]
      · simp [Function.comp, hlt]
  rw [hfilter]
  exact List.length_filter_lt_length_iff_exists.mpr ⟨last, hmem, by simp⟩

/-- An ascending list with the members of a listing is that listing. -/
theorem eq_listing {st : InMemoryStorage} {pre : Str} {after : Option Str} {l : List ListedObject}
    (hsorted : (l.map (·.key)).Pairwise (· < ·)) (hmem : ∀ o, o ∈ l ↔ o ∈ st.listing pre after) :
    l = st.listing pre after := by
  have hlisting := List.pairwise_map.mp (read_listing st pre after).sorted
  have hl := List.pairwise_map.mp hsorted
  have hne : ∀ o o' : ListedObject, o.key < o'.key → o ≠ o' := fun o o' hlt he =>
    lt_irrefl _ (he ▸ hlt : o'.key < o'.key)
  refine List.Perm.eq_of_pairwise (fun o o' _ _ hlt hgt => absurd (hlt.trans hgt) (lt_irrefl _)) hl
    hlisting ((List.perm_ext_iff_of_nodup ?_ ?_).mpr hmem)
  · exact hl.imp fun hlt => hne _ _ hlt
  · exact hlisting.imp fun hlt => hne _ _ hlt

/-- A listing is its first page, then what is behind it. -/
theorem listing_eq_append {st : InMemoryStorage} {pre : Str} {after : Option Str} {limit : Nat}
    {last : ListedObject} (h : (st.listPage pre after limit).getLast? = some last) :
    st.listing pre after = st.listPage pre after limit ++ st.listing pre (some last.key) := by
  have hread := read_listPage_full h
  obtain ⟨-, hbehind, -⟩ := mem_listing.mp (List.mem_of_mem_take (List.mem_of_getLast? h))
  refine (eq_listing ?_ fun o => ?_).symm
  · rw [List.map_append]
    refine List.pairwise_append.mpr ⟨hread.sorted, (read_listing st pre _).sorted, fun k hk k' hk' => ?_⟩
    have hle := (hread.mem k hk).2.2 last.key rfl
    exact lt_of_le_of_lt hle (((read_listing st pre _).mem k' hk').2.1 last.key rfl)
  · rw [List.mem_append]
    constructor
    · rintro (ho | ho)
      · exact List.mem_of_mem_take ho
      · obtain ⟨hpre, hafter, hobj⟩ := mem_listing.mp ho
        exact mem_listing.mpr ⟨hpre, hbehind.trans (hafter last.key rfl), hobj⟩
    · intro ho
      obtain ⟨hpre, hafter, obj, hobj, hlisted⟩ := mem_listing.mp ho
      by_cases hlast : Behind (some last.key) o.key
      · exact .inr (mem_listing.mpr ⟨hpre, hlast, obj, hobj, hlisted⟩)
      · have hkey := hread.complete o.key ⟨by rw [hobj]; rfl, hpre⟩ hafter (upTo_of_not_behind hlast)
        obtain ⟨o', ho', hsame⟩ := List.mem_map.mp hkey
        obtain ⟨obj', hobj', hlisted'⟩ := mem_listPage ho'
        rw [hsame, hobj] at hobj'
        rw [hsame, ← Option.some.inj hobj', ← hlisted] at hlisted'
        exact .inl (hlisted' ▸ ho')

/-- What is behind a full page. -/
theorem listing_drop {st : InMemoryStorage} {pre : Str} {after : Option Str} {size : Nat}
    {last : ListedObject} (h : (st.listPage pre after size).getLast? = some last)
    (hmore : size ≤ (st.listing pre after).length) :
    st.listing pre (some last.key) = (st.listing pre after).drop size := by
  have hlength : (st.listPage pre after size).length = size := by
    rw [InMemoryStorage.listPage, List.length_take, Nat.min_eq_left hmore]
  rw [listing_eq_append h, List.drop_left' hlength]

/-- A listing depends on what is under its prefix and behind its position only. -/
theorem listing_congr {st st' : InMemoryStorage} {pre : Str} {after : Option Str}
    (h : ∀ k, pre.isPrefixOf k = true → Behind after k → st'.get k = st.get k) :
    st'.listing pre after = st.listing pre after := by
  refine eq_listing (read_listing st' pre after).sorted fun o => ?_
  simp only [mem_listing]
  exact and_congr_right fun hpre => and_congr_right fun hafter => by rw [h o.key hpre hafter]

/-! ## Where pages end -/

/-- The last key of every page but the last can be encoded. -/
def PagesEncode (size : Nat) (objs : List ListedObject) : Prop :=
  ∀ i o, (i + 1) * size < objs.length → objs[(i + 1) * size - 1]? = some o → Scalar o.key

/-- The first page, and the others. -/
theorem pagesEncode_iff {size : Nat} (hsize : 0 < size) {objs : List ListedObject} :
    PagesEncode size objs ↔
      (size < objs.length → ∀ o, (objs.take size).getLast? = some o → Scalar o.key) ∧
        PagesEncode size (objs.drop size) := by
  have hlast : size < objs.length → (objs.take size).getLast? = objs[size - 1]? := by
    intro hmore
    rw [List.getLast?_eq_getElem?, List.length_take, Nat.min_eq_left hmore.le,
      List.getElem?_take_of_lt (Nat.sub_lt hsize Nat.one_pos)]
  have hshift : ∀ i, (i + 1 + 1) * size = size + (i + 1) * size := by
    intro i
    ring
  constructor
  · intro h
    refine ⟨fun hmore o ho => ?_, fun i o hi ho => ?_⟩
    · rw [hlast hmore] at ho
      exact h 0 o (by simpa using hmore) (by simpa using ho)
    · rw [List.length_drop] at hi
      rw [List.getElem?_drop] at ho
      refine h (i + 1) o (by rw [hshift]; omega) ?_
      rw [hshift, ← ho]
      congr 1
      have hpos : 0 < (i + 1) * size := Nat.mul_pos (Nat.succ_pos i) hsize
      omega
  · rintro ⟨hfirst, hrest⟩ i o hi ho
    cases i with
    | zero =>
      rw [Nat.zero_add, Nat.one_mul] at hi ho
      exact hfirst hi o (by rw [hlast hi]; exact ho)
    | succ i =>
      rw [hshift] at hi ho
      have hpos : 0 < (i + 1) * size := Nat.mul_pos (Nat.succ_pos i) hsize
      refine hrest i o (by rw [List.length_drop]; omega) ?_
      rw [List.getElem?_drop, ← ho]
      congr 1
      omega

/-! ## A page of files -/

section Pages

variable [Interpreter]

/-- Every key can be encoded, and every file's metadata can be read. -/
structure Sound (s : InMemoryStorage) : Prop where
  encodable : ∀ k obj, s.get k = some obj → ∃ data, encodeUtf8 k = .ok data
  readable : ∀ k obj, s.get k = some obj → isValidPath k = true →
    ∃ metadata, metadataFromMap obj.metadata = .ok metadata

/-- A good storage, told by looking at each key. -/
theorem Sound.of_all {s : InMemoryStorage} (h : s.objects.entries.all (fun kv => kv.1.all (!isSurrogate ·) &&
    (!isValidPath kv.1 || (metadataFromMap kv.2.metadata).toOption.isSome)) = true) : Sound s := by
  have hfile := FinMap.all_entries.mp h
  constructor
  · intro k obj hobj
    obtain ⟨hkey, -⟩ := Bool.and_eq_true_iff.mp (hfile k obj hobj)
    exact ⟨_, encodeUtf8_eq_ok.mpr (utf8Encode_of_scalar (scalar_of_all hkey))⟩
  · intro k obj hobj hpath
    obtain ⟨-, hmetadata⟩ := Bool.and_eq_true_iff.mp (hfile k obj hobj)
    rw [show isValidPath (k, obj).1 = true from hpath, Bool.not_true, Bool.false_or] at hmetadata
    obtain ⟨m, hm⟩ := Option.isSome_iff_exists.mp hmetadata
    exact ⟨m, eq_ok_of_toOption hm⟩

/-- The entry of a listed object, if it is a file. -/
def entryOf (o : ListedObject) : Option FileEntry :=
  if isValidPath o.key then
    match metadataFromMap o.metadata with
    | .ok metadata => some ⟨o.key, metadata, o.version⟩
    | .error _ => none
  else none

/-- An entry shows a valid path with its version and its metadata. -/
theorem entryOf_eq_some {o : ListedObject} {entry : FileEntry} (h : entryOf o = some entry) :
    isValidPath o.key = true ∧ entry.path = o.key ∧ entry.version = o.version ∧
      metadataFromMap o.metadata = .ok entry.metadata := by
  unfold entryOf at h
  split at h
  next hpath =>
    split at h
    next metadata hmetadata =>
      cases h
      exact ⟨hpath, rfl, rfl, hmetadata⟩
    next => cases h
  next => cases h

/-- Objects whose files' metadata can all be read. -/
def Readable (objs : List ListedObject) : Prop :=
  ∀ o ∈ objs, isValidPath o.key = true → ∃ metadata, metadataFromMap o.metadata = .ok metadata

/-- A readable page shows its entries. -/
theorem pageEntries_eq {objs : List ListedObject} (h : Readable objs) :
    MemoryStore.pageEntries objs = .ok (objs.filterMap entryOf) := by
  induction objs with
  | nil => rfl
  | cons o rest ih =>
    have hrest := ih fun o' ho' => h o' (List.mem_cons_of_mem _ ho')
    unfold MemoryStore.pageEntries
    by_cases hpath : isValidPath o.key = true
    · obtain ⟨metadata, hmetadata⟩ := h o List.mem_cons_self hpath
      have hentry : entryOf o = some ⟨o.key, metadata, o.version⟩ := by
        rw [entryOf, if_pos hpath, hmetadata]
      rw [if_pos hpath, hmetadata, hrest, List.filterMap_cons_some hentry]
      rfl
    · have hentry : entryOf o = none := if_neg hpath
      rw [if_neg hpath, hrest, List.filterMap_cons_none hentry]

/-- A page that is shown was readable. -/
theorem readable_of_pageEntries {objs : List ListedObject} {entries : List FileEntry}
    (h : MemoryStore.pageEntries objs = .ok entries) : Readable objs := by
  induction objs generalizing entries with
  | nil => exact fun o ho => absurd ho List.not_mem_nil
  | cons o rest ih =>
    intro o' ho' hpath
    unfold MemoryStore.pageEntries at h
    split at h
    next hvalid =>
      obtain ⟨metadata, hmetadata, h⟩ := except_bind_eq_ok.mp h
      obtain ⟨tail, htail, -⟩ := except_bind_eq_ok.mp h
      rcases List.mem_cons.mp ho' with rfl | ho'
      · exact ⟨metadata, hmetadata⟩
      · exact ih htail o' ho' hpath
    next hinvalid =>
      rcases List.mem_cons.mp ho' with rfl | ho'
      · exact absurd hpath hinvalid
      · exact ih h o' ho' hpath

/-- The paths of the entries are the valid keys. -/
theorem paths_filterMap {objs : List ListedObject} (h : Readable objs) :
    (objs.filterMap entryOf).map (·.path) = (objs.map (·.key)).filter (isValidPath ·) := by
  induction objs with
  | nil => rfl
  | cons o rest ih =>
    have hrest := ih fun o' ho' => h o' (List.mem_cons_of_mem _ ho')
    by_cases hpath : isValidPath o.key = true
    · obtain ⟨metadata, hmetadata⟩ := h o List.mem_cons_self hpath
      have hentry : entryOf o = some ⟨o.key, metadata, o.version⟩ := by
        rw [entryOf, if_pos hpath, hmetadata]
      rw [List.filterMap_cons_some hentry, List.map_cons, List.map_cons,
        List.filter_cons_of_pos hpath, hrest]
    · have hentry : entryOf o = none := if_neg hpath
      rw [List.filterMap_cons_none hentry, List.map_cons, List.filter_cons_of_neg hpath, hrest]

/-- A page with more behind it. -/
theorem pageOf_more {size : Nat} {objs : List ListedObject} {last : ListedObject} {cursor : Str}
    (h : Readable (objs.take size)) (hmore : size < objs.length)
    (hlast : (objs.take size).getLast? = some last) (hcursor : encodeCursor last.key = .ok cursor) :
    MemoryStore.pageOf size objs = .ok ⟨(objs.take size).filterMap entryOf, some cursor⟩ := by
  simp only [MemoryStore.pageOf, pageEntries_eq h, hlast, decide_eq_true hmore, hcursor]
  rfl

/-- The last page. -/
theorem pageOf_end {size : Nat} {objs : List ListedObject} (h : Readable (objs.take size))
    (hend : ¬ size < objs.length) :
    MemoryStore.pageOf size objs = .ok ⟨(objs.take size).filterMap entryOf, none⟩ := by
  simp only [MemoryStore.pageOf, pageEntries_eq h, decide_eq_false hend]
  cases (objs.take size).getLast?
  · rfl
  · rfl

/-- What a page is, if there is one: its files as entries, and a cursor at its last key just when there
are more objects. -/
theorem pageOf_eq_ok {size : Nat} {objs : List ListedObject} {page : ListPage} (hsize : 0 < size)
    (h : MemoryStore.pageOf size objs = .ok page) :
    page.entries = (objs.take size).filterMap entryOf ∧
      (page.nextCursor = none → ¬ size < objs.length) ∧
      ∀ next, page.nextCursor = some next → ∃ last, (objs.take size).getLast? = some last ∧
        encodeCursor last.key = .ok next := by
  obtain ⟨entries, hentries, -⟩ := except_bind_eq_ok.mp h
  have hreadable := readable_of_pageEntries hentries
  by_cases hmore : size < objs.length
  · have hne : objs.take size ≠ [] := by
      rw [ne_eq, ← List.length_eq_zero_iff, List.length_take]
      omega
    obtain ⟨last, hlast⟩ := Option.isSome_iff_exists.mp (List.getLast?_isSome.mpr hne)
    cases hcursor : encodeCursor last.key with
    | error e =>
      simp only [MemoryStore.pageOf, pageEntries_eq hreadable, hlast, decide_eq_true hmore, hcursor] at h
      cases h
    | ok cursor =>
      rw [pageOf_more hreadable hmore hlast hcursor] at h
      cases h
      exact ⟨rfl, nofun, fun next hnext => ⟨last, hlast, Option.some.inj hnext ▸ hcursor⟩⟩
  · rw [pageOf_end hreadable hmore] at h
    cases h
    exact ⟨rfl, fun _ => hmore, nofun⟩

/-- Objects that can be listed in pages: their metadata can be read, and the pages end where a cursor
can be encoded. -/
structure Pageable (size : Nat) (objs : List ListedObject) : Prop where
  readable : Readable objs
  encode : PagesEncode size objs

/-- A page of pageable objects is one. -/
theorem pageOf_pageable {size : Nat} (hsize : 0 < size) {objs : List ListedObject}
    (h : Pageable size objs) : ∃ page, MemoryStore.pageOf size (objs.take (size + 1)) = .ok page := by
  have htake : (objs.take (size + 1)).take size = objs.take size := by
    rw [List.take_take, Nat.min_eq_left (Nat.le_succ size)]
  have hreadable : Readable ((objs.take (size + 1)).take size) := by
    rw [htake]
    exact fun o ho => h.readable o (List.mem_of_mem_take ho)
  by_cases hmore : size < (objs.take (size + 1)).length
  · have hlength : size < objs.length := by
      rw [List.length_take] at hmore
      omega
    obtain ⟨last, hlast⟩ : ∃ last, (objs.take size).getLast? = some last := by
      refine Option.isSome_iff_exists.mp (List.getLast?_isSome.mpr ?_)
      rw [ne_eq, ← List.length_eq_zero_iff, List.length_take]
      omega
    have hscalar := ((pagesEncode_iff hsize).mp h.encode).1 hlength last hlast
    have hcursor : encodeCursor last.key = .ok (urlsafeB64encode (utf8EncodePass last.key)) := by
      rw [encodeCursor, encodeUtf8_eq_ok.mpr (utf8Encode_of_scalar hscalar)]
      rfl
    rw [← htake] at hlast
    exact ⟨_, pageOf_more hreadable hmore hlast hcursor⟩
  · exact ⟨_, pageOf_end hreadable hmore⟩

/-- A page that is returned was readable. -/
theorem readable_of_pageOf {size : Nat} {objs : List ListedObject} {page : ListPage}
    (h : MemoryStore.pageOf size objs = .ok page) : Readable (objs.take size) := by
  obtain ⟨entries, hentries, -⟩ := except_bind_eq_ok.mp h
  exact readable_of_pageEntries hentries

/-- A first page that is one. -/
theorem pageable_of_pageOf {size : Nat} (hsize : 0 < size) {objs : List ListedObject} {page : ListPage}
    (h : MemoryStore.pageOf size (objs.take (size + 1)) = .ok page)
    (hrest : Pageable size (objs.drop size)) : Pageable size objs := by
  have htake : (objs.take (size + 1)).take size = objs.take size := by
    rw [List.take_take, Nat.min_eq_left (Nat.le_succ size)]
  obtain ⟨entries, hentries, -⟩ := except_bind_eq_ok.mp h
  obtain ⟨-, hend, hnext⟩ := pageOf_eq_ok hsize h
  rw [htake] at hentries hnext
  constructor
  · intro o ho
    rw [← List.take_append_drop size objs] at ho
    rcases List.mem_append.mp ho with ho | ho
    · exact readable_of_pageEntries hentries o ho
    · exact hrest.readable o ho
  · refine (pagesEncode_iff hsize).mpr ⟨fun hmore o ho => ?_, hrest.encode⟩
    cases hcursor : page.nextCursor with
    | none =>
      have hshort := hend hcursor
      rw [List.length_take] at hshort
      omega
    | some next =>
      obtain ⟨last, hlast, hencode⟩ := hnext next hcursor
      obtain rfl := Option.some.inj (hlast.symm.trans ho)
      cases hdata : encodeUtf8 last.key with
      | ok data => exact (utf8Encode_eq_ok.mp (encodeUtf8_eq_ok.mp hdata)).1
      | error e =>
        rw [encodeCursor, hdata] at hencode
        cases hencode

/-- What comes after a page is pageable. -/
theorem Pageable.drop {size : Nat} (hsize : 0 < size) {objs : List ListedObject}
    (h : Pageable size objs) : Pageable size (objs.drop size) where
  readable o ho := h.readable o (List.mem_of_mem_drop ho)
  encode := ((pagesEncode_iff hsize).mp h.encode).2

/-- Sound storage is pageable. -/
theorem Sound.pageable {st : InMemoryStorage} (h : Sound st) (size : Nat) (pre : Str)
    (after : Option Str) : Pageable size (st.listing pre after) where
  readable o ho hpath := by
    obtain ⟨-, -, obj, hobj, hlisted⟩ := mem_listing.mp ho
    obtain ⟨metadata, hmetadata⟩ := h.readable _ _ hobj hpath
    exact ⟨metadata, by rw [hlisted]; exact hmetadata⟩
  encode i o _ ho := by
    obtain ⟨-, -, obj, hobj, -⟩ := mem_listing.mp (List.mem_of_getElem? ho)
    obtain ⟨data, hdata⟩ := h.encodable _ _ hobj
    exact (utf8Encode_eq_ok.mp (encodeUtf8_eq_ok.mp hdata)).1

/-- A cursor is decoded to the key it was made of. -/
theorem decodeCursor_encodeCursor {key cursor pre : Str} (h : encodeCursor key = .ok cursor)
    (hpre : pre.isPrefixOf key = true) : decodeCursor cursor pre = .ok key := by
  unfold encodeCursor at h
  cases hdata : encodeUtf8 key with
  | error e =>
    rw [hdata] at h
    cases h
  | ok data =>
    rw [hdata] at h
    cases h
    rw [decodeCursor, b64decode_urlsafeB64encode]
    simp only [utf8Decode_encode (encodeUtf8_eq_ok.mp hdata), hpre, if_pos]

/-- The last page shows everything, and that is pageable. -/
theorem page_last {st : InMemoryStorage} {pre : Str} {after : Option Str} {size : Nat} (hsize : 0 < size)
    {page : ListPage} (h : MemoryStore.pageOf size (st.listPage pre after (size + 1)) = .ok page)
    (hnext : page.nextCursor = none) :
    page.entries = (st.listing pre after).filterMap entryOf ∧ Pageable size (st.listing pre after) := by
  obtain ⟨hentries, hend, -⟩ := pageOf_eq_ok hsize h
  have hlength := hend hnext
  rw [InMemoryStorage.listPage, List.length_take] at hlength
  have hall : (st.listing pre after).length ≤ size := by omega
  constructor
  · rw [hentries, InMemoryStorage.listPage, List.take_take, List.take_of_length_le (by omega)]
  · refine pageable_of_pageOf hsize h ?_
    rw [List.drop_of_length_le hall]
    exact ⟨fun o ho => absurd ho List.not_mem_nil, fun i o _ ho => by simp at ho⟩

/-- A page with a cursor shows what comes before the cursor's key. -/
theorem page_next {st : InMemoryStorage} {pre : Str} {after : Option Str} {size : Nat} (hsize : 0 < size)
    {page : ListPage} {next : Str}
    (h : MemoryStore.pageOf size (st.listPage pre after (size + 1)) = .ok page)
    (hnext : page.nextCursor = some next) :
    ∃ last : ListedObject, MemoryStore.decodeStart (some next) pre = .ok (some last.key) ∧
      (st.listing pre (some last.key)).length < (st.listing pre after).length ∧
      (st.listing pre after).filterMap entryOf =
        page.entries ++ (st.listing pre (some last.key)).filterMap entryOf ∧
      (Pageable size (st.listing pre (some last.key)) ↔ Pageable size (st.listing pre after)) := by
  obtain ⟨hentries, -, hmore⟩ := pageOf_eq_ok hsize h
  have htake : (st.listPage pre after (size + 1)).take size = st.listPage pre after size := by
    rw [InMemoryStorage.listPage, List.take_take, InMemoryStorage.listPage,
      Nat.min_eq_left (Nat.le_succ _)]
  rw [htake] at hentries hmore
  obtain ⟨last, hlast, hkey⟩ := hmore next hnext
  have hunder := (mem_listing.mp (List.mem_of_mem_take (List.mem_of_getLast? hlast))).1
  have hfull : size ≤ (st.listing pre after).length := by
    by_contra hshort
    have hnone : ¬ size < (st.listPage pre after (size + 1)).length := by
      rw [InMemoryStorage.listPage, List.length_take]
      omega
    rw [pageOf_end (readable_of_pageOf h) hnone] at h
    obtain rfl := Except.ok.inj h
    cases hnext
  have hbehind := listing_drop hlast hfull
  refine ⟨last, ?_, length_listing_lt hlast, ?_, fun hrest => ?_, fun hall => ?_⟩
  · rw [MemoryStore.decodeStart, decodeCursor_encodeCursor hkey hunder]
    rfl
  · rw [hentries, listing_eq_append hlast, List.filterMap_append]
  · exact pageable_of_pageOf hsize h (hbehind ▸ hrest)
  · rw [hbehind]
    exact hall.drop hsize

variable (s : MemoryStore)

/-- The answer of `list_prefix` in a storage. -/
def listAt (pre : Str) (cursor : Option Str) (st : InMemoryStorage) :
    Option (Except Exc ListPage) :=
  ((s.listPrefix pre cursor).run (answerAt noon) st).1

/-- `list_prefix` lists once. -/
theorem listAt_eq {pre : Str} {cursor after : Option Str} {st : InMemoryStorage}
    (hpre : isValidPrefix pre = true) (hcursor : MemoryStore.decodeStart cursor pre = .ok after) :
    listAt s pre cursor st =
      some (MemoryStore.pageOf s.listPageSize (st.listPage pre after (s.listPageSize + 1))) := by
  have hvalid : ¬ isValidPrefix pre = false := by
    rw [hpre]
    exact nofun
  unfold listAt MemoryStore.listPrefix
  rw [Prog.raiseIf_neg hvalid, Prog.ret_bind, hcursor, Prog.ofExcept_ok, Prog.ret_bind]
  show ((Prog.ofExcept (MemoryStore.pageOf s.listPageSize (st.listPage pre after (s.listPageSize + 1))) :
    Store ListPage).run (answerAt noon) st).1 = _
  cases MemoryStore.pageOf s.listPageSize (st.listPage pre after (s.listPageSize + 1))
  · rfl
  · rfl

/-- What a page of a sound storage is: a read of the keys under the prefix, its files as entries, and
a cursor at the last key read if there is a key behind it. -/
theorem listAt_sound {pre : Str} {cursor after : Option Str} {st : InMemoryStorage}
    (hpre : isValidPrefix pre = true) (hcursor : MemoryStore.decodeStart cursor pre = .ok after)
    (hst : Sound st) :
    ∃ page upTo seen, listAt s pre cursor st = some (.ok page) ∧
      Read (st.under pre) after upTo seen ∧
      page.entries.map (·.path) = seen.filter (isValidPath ·) ∧
      (∀ entry ∈ page.entries, ∃ obj, st.get entry.path = some obj ∧ obj.version = entry.version ∧
        metadataFromMap obj.metadata = .ok entry.metadata) ∧
      MemoryStore.decodeStart page.nextCursor pre = .ok upTo ∧
      (page.nextCursor = none ↔ upTo = none) ∧
      ∀ b ∈ upTo, ∃ k ∈ st.under pre, b < k := by
  rw [listAt_eq s hpre hcursor]
  generalize hobjs : st.listPage pre after (s.listPageSize + 1) = objs
  have hstored : ∀ o ∈ objs, ∃ obj, st.get o.key = some obj ∧ o = listed o.key obj := by
    intro o ho
    rw [← hobjs] at ho
    exact mem_listPage ho
  have hreadable : Readable (objs.take s.listPageSize) := by
    intro o ho hpath
    obtain ⟨obj, hobj, hlisted⟩ := hstored o (List.mem_of_mem_take ho)
    obtain ⟨metadata, hmetadata⟩ := hst.readable o.key obj hobj hpath
    exact ⟨metadata, by rw [hlisted]; exact hmetadata⟩
  have hentries : ∀ entry ∈ (objs.take s.listPageSize).filterMap entryOf,
      ∃ obj, st.get entry.path = some obj ∧ obj.version = entry.version ∧
        metadataFromMap obj.metadata = .ok entry.metadata := by
    intro entry hentry
    obtain ⟨o, ho, hsome⟩ := List.mem_filterMap.mp hentry
    obtain ⟨-, hpath, hversion, hmetadata⟩ := entryOf_eq_some hsome
    obtain ⟨obj, hobj, hlisted⟩ := hstored o (List.mem_of_mem_take ho)
    rw [hlisted] at hversion hmetadata
    exact ⟨obj, hpath ▸ hobj, hversion.symm, hmetadata⟩
  by_cases hmore : s.listPageSize < objs.length
  · -- The cursor is the last key of the page; the object read beyond the page is behind it.
    have htake : objs.take s.listPageSize = st.listPage pre after s.listPageSize := by
      rw [← hobjs, InMemoryStorage.listPage, List.take_take, InMemoryStorage.listPage,
        Nat.min_eq_left (Nat.le_succ _)]
    have hne : objs.take s.listPageSize ≠ [] := by
      intro hnil
      have hlen := congrArg List.length hnil
      rw [List.length_take, Nat.min_eq_left (Nat.le_of_lt hmore)] at hlen
      exact absurd hlen (Nat.ne_of_gt s.listPageSize_pos)
    obtain ⟨last, hlast⟩ := Option.isSome_iff_exists.mp (List.getLast?_isSome.mpr hne)
    have hmem : last ∈ objs.take s.listPageSize := List.mem_of_getLast? hlast
    obtain ⟨obj, hobj, -⟩ := hstored last (List.mem_of_mem_take hmem)
    obtain ⟨data, hdata⟩ := hst.encodable last.key obj hobj
    have hencode : encodeCursor last.key = .ok (urlsafeB64encode data) := by
      rw [encodeCursor, hdata]
      rfl
    have hread : Read (st.under pre) after (some last.key)
        ((objs.take s.listPageSize).map (·.key)) := by
      rw [htake] at hlast ⊢
      exact read_listPage_full hlast
    have hlastPre := (hread.mem last.key (List.mem_map_of_mem hmem)).1.2
    refine ⟨_, some last.key, _, congrArg some (pageOf_more hreadable hmore hlast hencode), hread,
      paths_filterMap hreadable, hentries, ?_, iff_of_false nofun nofun, ?_⟩
    · rw [MemoryStore.decodeStart, decodeCursor_encodeCursor hencode hlastPre]
      rfl
    · intro b hb
      cases hb
      have hsorted : (objs.map (·.key)).Pairwise (· < ·) := by
        rw [← hobjs, InMemoryStorage.listPage, List.map_take]
        exact (read_listing st pre after).sorted.sublist (List.take_sublist _ _)
      have hdrop : objs.drop s.listPageSize ≠ [] := by
        rw [ne_eq, List.drop_eq_nil_iff]
        exact Nat.not_le_of_lt hmore
      obtain ⟨beyond, hbeyond⟩ := List.exists_mem_of_ne_nil _ hdrop
      refine ⟨beyond.key, ?_, ?_⟩
      · have hin : beyond ∈ st.listing pre after := by
          apply List.mem_of_mem_take
          rw [← InMemoryStorage.listPage, hobjs]
          exact List.mem_of_mem_drop hbeyond
        exact ((read_listing st pre after).mem _ (List.mem_map_of_mem hin)).1
      · rw [← List.take_append_drop s.listPageSize objs, List.map_append] at hsorted
        exact (List.pairwise_append.mp hsorted).2.2 _ (List.mem_map_of_mem hmem) _
          (List.mem_map_of_mem hbeyond)
  · refine ⟨_, none, _, congrArg some (pageOf_end hreadable hmore), ?_, paths_filterMap hreadable,
      hentries, rfl, iff_of_true rfl rfl, nofun⟩
    have hshort : (st.listPage pre after (s.listPageSize + 1)).length < s.listPageSize + 1 := by
      rw [hobjs]
      omega
    rw [List.take_of_length_le (Nat.le_of_not_lt hmore), ← hobjs]
    exact read_listPage_short hshort

/-! ## Following `next_cursor` -/

/-- The answers to a caller that follows `next_cursor`, for so many calls: the first meets `S i`, the
next `S (i + 1)`, and so on. It stops at an exception and at a page without a cursor. -/
def follow (pre : Str) (S : Nat → InMemoryStorage) : Nat → Nat → Option Str →
    List (Option (Except Exc ListPage))
  | 0, _, _ => []
  | calls + 1, i, cursor =>
    listAt s pre cursor (S i) :: match listAt s pre cursor (S i) with
      | some (.ok ⟨_, some next⟩) => follow pre S calls (i + 1) (some next)
      | _ => []

/-- A page shows what was read: its files are the entries, and its cursor the last key. -/
structure PageShows (st : InMemoryStorage) (pre : Str) (page : ListPage) (seen : List Str) :
    Prop where
  paths : page.entries.map (·.path) = seen.filter (isValidPath ·)
  stored : ∀ entry ∈ page.entries, ∃ obj, st.get entry.path = some obj ∧
    obj.version = entry.version ∧ metadataFromMap obj.metadata = .ok entry.metadata
  more : ∀ cursor, page.nextCursor = some cursor → ∃ b, decodeCursor cursor pre = .ok b ∧
    (∀ a ∈ seen, a ≤ b) ∧ ∃ k ∈ st.under pre, b < k

/-- Pages show reads, one by one. -/
def PagesShow (pre : Str) (S : Nat → InMemoryStorage) : Nat → List ListPage → List (List Str) → Prop
  | _, [], [] => True
  | i, page :: pages, seen :: reads =>
    PageShows (S i) pre page seen ∧ PagesShow pre S (i + 1) pages reads
  | _, _, _ => False

/-- There is one read for each page. -/
theorem PagesShow.length_eq {pre : Str} {S : Nat → InMemoryStorage} {i : Nat} {pages : List ListPage}
    {reads : List (List Str)} (h : PagesShow pre S i pages reads) : pages.length = reads.length := by
  induction pages generalizing i reads with
  | nil =>
    cases reads with
    | nil => rfl
    | cons seen reads => exact absurd h not_false
  | cons page pages ih =>
    cases reads with
    | nil => exact absurd h not_false
    | cons seen reads => exact congrArg Nat.succ (ih h.2)

/-- Each page shows what its read saw. -/
theorem PagesShow.get {pre : Str} {S : Nat → InMemoryStorage} {i : Nat} {pages : List ListPage}
    {reads : List (List Str)} (h : PagesShow pre S i pages reads) {j : Nat} {page : ListPage}
    (hj : pages[j]? = some page) :
    ∃ seen, reads[j]? = some seen ∧ PageShows (S (i + j)) pre page seen := by
  induction pages generalizing i j reads with
  | nil => cases hj
  | cons page' pages ih =>
    cases reads with
    | nil => exact absurd h not_false
    | cons seen reads =>
      cases j with
      | zero =>
        cases hj
        exact ⟨seen, rfl, h.1⟩
      | succ j =>
        have hget := ih h.2 hj
        rw [Nat.succ_add_eq_add_succ] at hget
        exact hget

/-- The paths of the pages are the valid keys that were read. -/
theorem PagesShow.paths {pre : Str} {S : Nat → InMemoryStorage} {i : Nat} {pages : List ListPage}
    {reads : List (List Str)} (h : PagesShow pre S i pages reads) :
    (pages.flatMap (·.entries)).map (·.path) = reads.flatten.filter (isValidPath ·) := by
  induction pages generalizing i reads with
  | nil =>
    cases reads with
    | nil => rfl
    | cons seen reads => exact absurd h not_false
  | cons page pages ih =>
    cases reads with
    | nil => exact absurd h not_false
    | cons seen reads =>
      rw [List.flatMap_cons, List.map_append, h.1.paths, ih h.2, List.flatten_cons,
        List.filter_append]

/-- **Following `next_cursor` scans.** Every cursor that was returned is accepted. -/
theorem follow_scan {pre : Str} {S : Nat → InMemoryStorage} (hpre : isValidPrefix pre = true)
    (hS : ∀ j, Sound (S j)) (calls i : Nat) {cursor after : Option Str}
    (hcursor : MemoryStore.decodeStart cursor pre = .ok after) :
    ∃ pages reads done, follow s pre S calls i cursor = pages.map (fun page => some (.ok page)) ∧
      Scan (fun j => (S j).under pre) done i after reads ∧ PagesShow pre S i pages reads ∧
      ((∃ page ∈ pages, page.nextCursor = none) ↔ done = true) ∧
      (done = false → pages.length = calls) := by
  induction calls generalizing i cursor after with
  | zero => exact ⟨[], [], false, rfl, .stop i after, trivial, by simp, fun _ => rfl⟩
  | succ calls ih =>
    obtain ⟨page, upTo, seen, hpage, hread, hpaths, hstored, hnext, hend, hmore⟩ :=
      listAt_sound s hpre hcursor (hS i)
    obtain ⟨entries, nextCursor⟩ := page
    have hshows : PageShows (S i) pre ⟨entries, nextCursor⟩ seen := by
      refine ⟨hpaths, hstored, fun c hc => ?_⟩
      cases hc
      cases upTo with
      | none => cases hend.mpr rfl
      | some b =>
        refine ⟨b, ?_, fun a ha => (hread.mem a ha).2.2 b rfl, hmore b rfl⟩
        cases hdecode : decodeCursor c pre with
        | error e =>
          simp only [MemoryStore.decodeStart, hdecode] at hnext
          cases hnext
        | ok k =>
          simp only [MemoryStore.decodeStart, hdecode] at hnext
          cases hnext
          rfl
    unfold follow
    rw [hpage]
    cases nextCursor with
    | none =>
      rw [hend.mp rfl] at hread
      refine ⟨[⟨entries, none⟩], [seen], true, rfl, .last i after seen hread, ⟨hshows, trivial⟩,
        iff_of_true ⟨_, List.mem_singleton_self _, rfl⟩ rfl, nofun⟩
    | some next =>
      cases upTo with
      | none => cases hend.mpr rfl
      | some b =>
        obtain ⟨pages, reads, done, hfollow, hscan, hpages, hfinished, hcalls⟩ := ih (i + 1) hnext
        refine ⟨⟨entries, some next⟩ :: pages, seen :: reads, done, ?_,
          .next i after seen b done reads hread hscan, ⟨hshows, hpages⟩, ?_, fun hd => ?_⟩
        · rw [List.map_cons, ← hfollow]
        · rw [← hfinished]
          simp
        · rw [List.length_cons, hcalls hd]

/-! ## What a traversal is good for -/

/-- A file under a prefix, as a listing shows it. -/
structure IsFile (st : InMemoryStorage) (pre : Str) (entry : FileEntry) : Prop where
  path : isValidPath entry.path = true
  under : pre.isPrefixOf entry.path = true
  stored : ∃ obj, st.get entry.path = some obj ∧ obj.version = entry.version ∧
    metadataFromMap obj.metadata = .ok entry.metadata

/-- A storage holds one file at a path. -/
theorem IsFile.unique {st : InMemoryStorage} {pre : Str} {entry entry' : FileEntry}
    (h : IsFile st pre entry) (h' : IsFile st pre entry') (hpath : entry.path = entry'.path) :
    entry = entry' := by
  obtain ⟨path, metadata, version⟩ := entry
  obtain ⟨path', metadata', version'⟩ := entry'
  cases hpath
  obtain ⟨obj, hobj, rfl, hmetadata⟩ := h.stored
  obtain ⟨obj', hobj', rfl, hmetadata'⟩ := h'.stored
  cases hobj.symm.trans hobj'
  cases hmetadata.symm.trans hmetadata'
  rfl

section Shown

variable {pre : Str} {S : Nat → InMemoryStorage} {pages : List ListPage} {reads : List (List Str)}
  {done : Bool}

/-- The paths of all pages ascend. -/
theorem PagesShow.ascending (h : PagesShow pre S 0 pages reads)
    (hscan : Scan (fun j => (S j).under pre) done 0 none reads) :
    ((pages.flatMap (·.entries)).map (·.path)).Pairwise (· < ·) := by
  rw [h.paths]
  exact hscan.pairwise.filter _

/-- Every entry is a file that was there when its page was read. -/
theorem PagesShow.isFile (h : PagesShow pre S 0 pages reads)
    (hscan : Scan (fun j => (S j).under pre) done 0 none reads) {j : Nat} {page : ListPage}
    (hj : pages[j]? = some page) {entry : FileEntry} (hentry : entry ∈ page.entries) :
    IsFile (S j) pre entry := by
  obtain ⟨seen, hseen, hshows⟩ := h.get hj
  have hin : entry.path ∈ page.entries.map (·.path) := List.mem_map_of_mem hentry
  rw [hshows.paths, List.mem_filter] at hin
  have hunder := hscan.mem hseen hin.1
  rw [Nat.zero_add] at hunder hshows
  exact ⟨hin.2, hunder.2, hshows.stored entry hentry⟩

/-- Every file that was there all along is on a page. -/
theorem PagesShow.complete (h : PagesShow pre S 0 pages reads)
    (hscan : Scan (fun j => (S j).under pre) true 0 none reads) {k : Str}
    (hpath : isValidPath k = true) (hunder : pre.isPrefixOf k = true)
    (hthere : ∀ j < pages.length, ((S j).get k).isSome = true) :
    k ∈ (pages.flatMap (·.entries)).map (·.path) := by
  rw [h.paths, List.mem_filter]
  refine ⟨hscan.complete (behind_none k) fun j hj => ?_, hpath⟩
  rw [Nat.zero_add]
  exact ⟨hthere j (h.length_eq ▸ hj), hunder⟩

end Shown

/-- What holds of the pages of a traversal from the start, of so many calls. -/
structure Traversal (pre : Str) (S : Nat → InMemoryStorage) (calls : Nat) (pages : List ListPage) :
    Prop where
  /-- The entries ascend by path. -/
  ascending : ((pages.flatMap (·.entries)).map (·.path)).Pairwise (· < ·)
  /-- Every entry is a file under the prefix that was stored when its page was read. -/
  stored : ∀ (j : Nat) page, pages[j]? = some page → ∀ entry ∈ page.entries,
    isValidPath entry.path = true ∧ pre.isPrefixOf entry.path = true ∧
      ∃ obj, (S j).get entry.path = some obj ∧ obj.version = entry.version ∧
        metadataFromMap obj.metadata = .ok entry.metadata
  /-- A file that was there at every page of a finished traversal is in it once. -/
  complete : (∃ page ∈ pages, page.nextCursor = none) → ∀ k, isValidPath k = true →
    pre.isPrefixOf k = true → (∀ j < pages.length, ((S j).get k).isSome = true) →
    ((pages.flatMap (·.entries)).map (·.path)).count k = 1
  /-- A page with a cursor had a key behind everything it showed. -/
  more : ∀ (j : Nat) page cursor, pages[j]? = some page → page.nextCursor = some cursor →
    ∃ b, decodeCursor cursor pre = .ok b ∧ (∀ entry ∈ page.entries, entry.path ≤ b) ∧
      ∃ k obj, (S j).get k = some obj ∧ pre.isPrefixOf k = true ∧ b < k
  /-- Where only finitely many keys are ever stored, so many calls and one finish. -/
  finishes : ∀ K : Finset Str, (∀ j k, ((S j).get k).isSome = true → k ∈ K) → K.card + 1 < calls →
    ∃ page ∈ pages, page.nextCursor = none
  /-- Where nothing changes, a finished traversal is exactly the files under the prefix. -/
  unchanged : (∃ page ∈ pages, page.nextCursor = none) → (∀ j, S j = S 0) → ∀ k,
    k ∈ (pages.flatMap (·.entries)).map (·.path) ↔
      isValidPath k = true ∧ pre.isPrefixOf k = true ∧ ((S 0).get k).isSome = true

/-- **Pagination loses and repeats nothing**, whatever becomes of storage between the pages. -/
theorem follow_traversal {pre : Str} {S : Nat → InMemoryStorage} (hpre : isValidPrefix pre = true)
    (hS : ∀ j, Sound (S j)) (calls : Nat) :
    ∃ pages, follow s pre S calls 0 none = pages.map (fun page => some (.ok page)) ∧
      Traversal pre S calls pages := by
  obtain ⟨pages, reads, done, hfollow, hscan, hpages, hfinished, hcalls⟩ :=
    follow_scan s hpre hS calls 0 (show MemoryStore.decodeStart none pre = .ok none from rfl)
  refine ⟨pages, hfollow, ?_⟩
  have hascending := hpages.ascending hscan
  have hcomplete : (∃ page ∈ pages, page.nextCursor = none) → ∀ k, isValidPath k = true →
      pre.isPrefixOf k = true → (∀ j < pages.length, ((S j).get k).isSome = true) →
      k ∈ (pages.flatMap (·.entries)).map (·.path) := by
    intro hend k
    rw [hfinished.mp hend] at hscan
    exact hpages.complete hscan
  refine ⟨hascending, fun j page hj entry hentry => ?_, fun hend k hpath hprefix hthere => ?_,
    fun j page cursor hj hcursor => ?_, fun K hK hlt => ?_, fun hend hsame k => ?_⟩
  · obtain ⟨hpath, hunder, hstored⟩ := hpages.isFile hscan hj hentry
    exact ⟨hpath, hunder, hstored⟩
  · have hnodup : ((pages.flatMap (·.entries)).map (·.path)).Nodup := hascending.imp ne_of_lt
    exact List.count_eq_one_of_mem hnodup (hcomplete hend k hpath hprefix hthere)
  · obtain ⟨seen, hseen, hshows⟩ := hpages.get hj
    rw [Nat.zero_add] at hshows
    obtain ⟨b, hb, hle, k, ⟨hsome, hprefix⟩, hlt⟩ := hshows.more cursor hcursor
    obtain ⟨obj, hobj⟩ := Option.isSome_iff_exists.mp hsome
    refine ⟨b, hb, fun entry hentry => ?_, k, obj, hobj, hprefix, hlt⟩
    have hin : entry.path ∈ page.entries.map (·.path) := List.mem_map_of_mem hentry
    rw [hshows.paths, List.mem_filter] at hin
    exact hle _ hin.1
  · apply hfinished.mpr
    by_contra hdone
    have hlen := hscan.length_le K fun j k hk => hK j k hk.1
    have hcount := hcalls (Bool.eq_false_iff.mpr hdone)
    rw [← hpages.length_eq] at hlen
    omega
  · constructor
    · intro hk
      obtain ⟨entry, hentry, rfl⟩ := List.mem_map.mp hk
      obtain ⟨page, hpage, hentry⟩ := List.mem_flatMap.mp hentry
      obtain ⟨j, hj⟩ := List.mem_iff_getElem?.mp hpage
      obtain ⟨hpath, hunder, obj, hobj, -⟩ := hpages.isFile hscan hj hentry
      rw [hsame] at hobj
      exact ⟨hpath, hunder, Option.isSome_iff_exists.mpr ⟨obj, hobj⟩⟩
    · rintro ⟨hpath, hprefix, hsome⟩
      exact hcomplete hend k hpath hprefix fun j _ => hsame j ▸ hsome

end Pages

/-- A page of one key is a page. -/
theorem one_key_pos : 0 < 1 := Nat.one_pos

/-- A store that lists one key a page. -/
def onePerPage : MemoryStore :=
  { MemoryStore.default with listPageSize := 1, listPageSize_pos := one_key_pos }

/-- Two files of one area, one of another before them, and a key between that is no path. -/
def beforePages : InMemoryStorage :=
  let metadata := metadataMap [] (str "[]") (str "[]") (str "2026-01-01T00:00:00Z")
  (((InMemoryStorage.empty.putLocked (str "user/u1/a/x.md") [] metadata).putLocked
    (str "user/u1/junk") [0xFF] .empty).putLocked
    (str "user/u1/notes/n.md") [] metadata).putLocked (str "user/u1/notes/o.md") [] metadata

/-- Behind the first page a file is put and one is deleted. -/
def betweenPages : InMemoryStorage :=
  (beforePages.remove (str "user/u1/notes/n.md")).putLocked (str "user/u1/b/y.md") []
    (metadataMap [] (str "[]") (str "[]") (str "2026-01-02T00:00:00Z"))

/-- Behind the second page one file is put before the cursor, and one is overwritten. -/
def afterPages : InMemoryStorage :=
  let metadata := metadataMap [] (str "[]") (str "[]") (str "2026-01-03T00:00:00Z")
  (betweenPages.putLocked (str "user/u1/a/w.md") [] metadata).putLocked (str "user/u1/notes/o.md") [120] metadata

/-- What a caller meets, page by page. -/
def changing : Nat → InMemoryStorage
  | 0 => beforePages
  | 1 => betweenPages
  | _ => afterPages

/-- Pages of one key each, while storage changes between them. -/
theorem follow_changing : let _ := Interpreter.ascii
    ∃ pages, follow onePerPage (str "user/u1/") changing 6 0 none = pages.map (fun page => some (.ok page)) ∧
      Traversal (str "user/u1/") changing 6 pages ∧
      pages.map (·.entries.map (·.path)) =
        [[str "user/u1/a/x.md"], [str "user/u1/b/y.md"], [], [str "user/u1/notes/o.md"]] ∧
      ((pages.flatMap (·.entries)).map (·.path)).count (str "user/u1/notes/o.md") = 1 := by
  intro _
  have hpre : isValidPrefix (str "user/u1/") = true := by decide +kernel
  have hbefore : Sound beforePages := .of_all (by decide +kernel)
  have hbetween : Sound betweenPages := .of_all (by decide +kernel)
  have hafter : Sound afterPages := .of_all (by decide +kernel)
  have hsound : ∀ j, Sound (changing j)
    | 0 => hbefore
    | 1 => hbetween
    | _ + 2 => hafter
  have hthere : ∀ j, ((changing j).get (str "user/u1/notes/o.md")).isSome = true
    | 0 => by decide +kernel
    | 1 => by decide +kernel
    | _ + 2 => show (afterPages.get _).isSome = true by decide +kernel
  have hshown : (follow onePerPage (str "user/u1/") changing 6 0 none).map (fun r =>
      (r.bind (·.toOption)).elim ([], true) fun page => (page.entries.map (·.path), page.nextCursor.isSome)) =
      [([str "user/u1/a/x.md"], true), ([str "user/u1/b/y.md"], true), ([], true),
        ([str "user/u1/notes/o.md"], false)] := by
    decide +kernel
  obtain ⟨pages, hfollow, htraversal⟩ := follow_traversal onePerPage hpre hsound 6
  rw [hfollow, List.map_map] at hshown
  have hpaths := congrArg (List.map Prod.fst) hshown
  rw [List.map_map] at hpaths
  have hlast : ∃ page ∈ pages, page.nextCursor = none := by
    have hmem : ([str "user/u1/notes/o.md"], false) ∈ pages.map fun page =>
        (page.entries.map (·.path), page.nextCursor.isSome) := hshown ▸ by simp
    obtain ⟨page, hpage, heq⟩ := List.mem_map.mp hmem
    exact ⟨page, hpage, Option.isNone_iff_eq_none.mp (Option.isSome_eq_false_iff.mp (Prod.mk.inj heq).2)⟩
  exact ⟨pages, hfollow, htraversal, hpaths, htraversal.complete hlast _ (by decide +kernel)
    (by decide +kernel) fun j _ => hthere j⟩

end Wenchang
