import Wenchang.Laws.FileListings
import Wenchang.Laws.FileStore

/-!
# The pages of `FilesystemStorage`

On a disk that holds objects the walk below a prefix finds their keys (`found_iff`), so sorting what it
finds and reading the sidecars of the first ones is a page of the listing (`passes_perform_listPage`).
-/

namespace Wenchang

open Py Ordered Files Interaction FilesystemStorage

/-! ## Two lists in key order -/

/-- What a listing shows of the object at its key. -/
def Objects.Shows (s : Objects) (l : ListedObject) : Prop :=
  ∃ obj, s.get? l.key = some obj ∧ l = ⟨l.key, obj.metadata, obj.version⟩

/-- Two lists that show the same keys are one. -/
theorem Objects.Shows.eq_of_keys {s : Objects} {listed listed' : List ListedObject}
    (h : ∀ l ∈ listed, s.Shows l) (h' : ∀ l ∈ listed', s.Shows l)
    (hkeys : listed.map (·.key) = listed'.map (·.key)) : listed = listed' := by
  induction listed generalizing listed' with
  | nil => exact (List.map_eq_nil_iff.mp hkeys.symm).symm
  | cons l listed ih =>
    cases listed' with
    | nil => cases hkeys
    | cons l' listed' =>
      obtain ⟨hl, hlisted⟩ := List.forall_mem_cons.mp h
      obtain ⟨hl', hlisted'⟩ := List.forall_mem_cons.mp h'
      obtain ⟨hkey, hrest⟩ := List.cons.inj hkeys
      obtain hkey : l.key = l'.key := hkey
      obtain ⟨obj, hget, hobj⟩ := hl
      obtain ⟨obj', hget', hobj'⟩ := hl'
      have hsame : obj = obj' := by
        rw [hkey, hget'] at hget
        exact (Option.some.inj hget).symm
      rw [ih hlisted hlisted' hrest, hobj, hobj', hkey, hsame]

/-- What is listed is shown. -/
theorem Objects.shows_of_mem {s : Objects} {pre : Str} {startAfter : Option Str} {l : ListedObject}
    (h : l ∈ s.listing pre startAfter) : s.Shows l := by
  obtain ⟨obj, hget, hl, -⟩ := mem_listing.mp h
  exact ⟨obj, hget, hl⟩

/-- Ascending lists with the same members are one. -/
theorem eq_of_ascending {keys keys' : List Str} (h : keys.Pairwise (· < ·)) (h' : keys'.Pairwise (· < ·))
    (hmem : ∀ k, k ∈ keys ↔ k ∈ keys') : keys = keys' := by
  have hperm : keys.Perm keys' :=
    (List.perm_ext_iff_of_nodup (h.imp fun hlt => hlt.ne) (h'.imp fun hlt => hlt.ne)).mpr hmem
  exact hperm.eq_of_pairwise (fun a b _ _ hab hba => absurd (hab.trans hba) (lt_irrefl a)) h h'

/-! ## The segments of a key -/

/-- The segments of a key are those before its last slash, and what is behind it. -/
theorem exists_splitOn (key : Str) : ∃ segments last, key.splitOn slash = segments ++ [last] ∧
    key = joinSegments segments ++ last ∧ (∀ s ∈ segments, slash ∉ s) ∧ slash ∉ last := by
  have hne := List.splitOn_ne_nil slash key
  have hsplit := List.dropLast_append_getLast hne
  have hjoin := joinSegments_splitOn key
  rw [List.getLast?_eq_some_getLast hne, Option.getD_some] at hjoin
  refine ⟨_, _, hsplit.symm, hjoin.symm, fun s hs => ?_, ?_⟩
  · exact not_mem_of_mem_splitOn (List.mem_of_mem_dropLast hs)
  · exact not_mem_of_mem_splitOn (List.getLast_mem hne)

/-- A key is under a prefix just when its segments are. -/
theorem prefix_splitOn_iff {complete segments : List Str} {part key last : Str}
    (hcomplete : ∀ s ∈ complete, slash ∉ s) (hpart : slash ∉ part) (hsplit : key.splitOn slash = segments ++ [last]) :
    joinSegments complete ++ part <+: key ↔
      ∃ rest, segments = complete ++ rest ∧ part <+: (rest ++ [last]).headD [] := by
  obtain ⟨segments', last', hsplit', hkey, hsegments, hlast⟩ := exists_splitOn key
  obtain ⟨rfl, hlasts⟩ := List.append_inj' (hsplit.symm.trans hsplit') rfl
  obtain rfl := (List.cons.inj hlasts).1
  nth_rewrite 1 [hkey]
  exact prefix_joinSegments_iff hcomplete hsegments hpart hlast

/-! ## Depth -/

/-- Directories nest no deeper than the interpreter lets the walk go. -/
def Disk.Shallow (d : Disk) (frames : Nat) : Prop := ∀ p, d.tree.node p = some .dir → p.length < frames

/-- Locking makes no directory. -/
theorem shallow_lock {frames : Nat} {faults : Prop} {d' : Disk} {exclusive : Bool} {a : Except OsError Unit}
    (hh : (onDisk faults).handles d (.lock exclusive) a d') (h : d.Shallow frames) : d'.Shallow frames := by
  rcases hh with hh | ⟨-, hh⟩
  swap
  · exact hh.elim
  rcases does_cases hh with ⟨t, ht, -, rfl⟩ | ⟨e, -, -, rfl⟩
  swap
  · exact h
  unfold Disk.openLock at ht
  split at ht
  next => cases ht
  next =>
    split at ht
    next =>
      obtain rfl := Except.ok.inj ht
      exact h
    next =>
      intro p hp
      have hnode := (Tree.node_of_make ht).2 p
      rw [show t.node p = some .dir from hp] at hnode
      split at hnode
      next => cases hnode
      next => exact h p hnode.symm

section

variable [Interpreter]

/-! ## What the walk finds -/

/-- **What is found** is a sidecar at a path of encoded segments. -/
theorem foundBelow_segments {t : Tree Str Bytes} {directory : FilePath} {keyPrefix part : Str}
    {found : Str × FilePath} : FoundBelow t directory keyPrefix part found ↔
      ∃ segments names leaf name, EncodedAs segments names ∧ encodeSegment leaf = .ok name ∧
        part <+: (segments ++ [leaf]).headD [] ∧ found.1 = keyPrefix ++ (joinSegments segments ++ leaf) ∧
        found.2 = (name ++ sidecarSuffix) :: (names.reverse ++ directory) ∧
        (t.file? found.2).isSome = true := by
  constructor
  · intro h
    induction h with
    | @here directory keyPrefix part leaf name hencoded hstarts hfile =>
      exact ⟨[], [], leaf, name, .nil, hencoded, hstarts, rfl, rfl, hfile⟩
    | @deeper directory keyPrefix part segment name found hencoded hstarts _ ih =>
      obtain ⟨segments, names, leaf, leafName, hsegments, hleaf, -, hkey, hpath, hfile⟩ := ih
      refine ⟨segment :: segments, name :: names, leaf, leafName, .cons hencoded hsegments, hleaf, hstarts,
        ?_, ?_, hfile⟩
      · rw [hkey]
        simp only [joinSegments, List.flatMap_cons, List.append_assoc]
      · rw [hpath, List.reverse_cons, List.append_assoc, List.singleton_append]
  · rintro ⟨segments, names, leaf, name, hsegments, hleaf, hstarts, hkey, hpath, hfile⟩
    obtain ⟨key, path⟩ := found
    obtain rfl : key = _ := hkey
    obtain rfl : path = _ := hpath
    induction hsegments generalizing directory keyPrefix part with
    | nil => exact .here hleaf hstarts hfile
    | @cons segment dirname segments names hencoded _ ih =>
      have hkey : keyPrefix ++ (joinSegments (segment :: segments) ++ leaf) =
          keyPrefix ++ segment ++ [slash] ++ (joinSegments segments ++ leaf) := by
        simp only [joinSegments, List.flatMap_cons, List.append_assoc]
      have hpath : (dirname :: names).reverse ++ directory = names.reverse ++ dirname :: directory := by
        rw [List.reverse_cons, List.append_assoc, List.singleton_append]
      rw [hpath] at hfile
      rw [hkey, hpath]
      exact .deeper hencoded hstarts (ih List.nil_prefix hfile)

/-- Segments are encoded in one way. -/
theorem EncodedAs.unique {segments names names' : List Str} (h : EncodedAs segments names)
    (h' : EncodedAs segments names') : names = names' := by
  induction h generalizing names' with
  | nil => cases h' with | nil => rfl
  | cons hname _ ih =>
    cases h' with
    | cons hname' hrest => rw [Except.ok.inj (hname.symm.trans hname'), ih hrest]

/-- Segments in two parts are encoded in two parts. -/
theorem EncodedAs.append {segments segments' names names' : List Str} (h : EncodedAs segments names)
    (h' : EncodedAs segments' names') : EncodedAs (segments ++ segments') (names ++ names') :=
  List.rel_append h h'

/-- Names of two lists of segments are two lists of names. -/
theorem EncodedAs.split {segments segments' names : List Str} (h : EncodedAs (segments ++ segments') names) :
    ∃ names₁ names₂, names = names₁ ++ names₂ ∧ EncodedAs segments names₁ ∧ EncodedAs segments' names₂ := by
  induction segments generalizing names with
  | nil => exact ⟨[], names, rfl, .nil, h⟩
  | cons segment segments ih =>
    cases h with
    | cons hname hrest =>
      obtain ⟨names₁, names₂, rfl, h₁, h₂⟩ := ih hrest
      exact ⟨_ :: names₁, names₂, rfl, .cons hname h₁, h₂⟩

variable {fs : FilesystemStorage} {d : Disk} {s : Objects} {complete base : List Str} {part key : Str}
  {path : FilePath}

/-- **What the walk finds** on a disk that holds objects: their keys under the prefix. -/
theorem FilesystemStorage.Holds.found_iff (h : fs.Holds d s) (hbase : EncodedAs complete base)
    (hcomplete : ∀ s ∈ complete, slash ∉ s) (hpart : slash ∉ part) :
    FoundBelow d.tree base.reverse (joinSegments complete) part (key, path) ↔
      (s.get? key).isSome = true ∧ joinSegments complete ++ part <+: key ∧
        ∃ directory leaf, locate key = .ok (directory, leaf) ∧ path = (leaf ++ sidecarSuffix) :: directory := by
  rw [foundBelow_segments]
  constructor
  · rintro ⟨segments, names, last, leaf, hsegments, hleaf, hstarts, hkey, hpath, hfile⟩
    simp only at hkey hpath hfile
    have hnames : EncodedAs (complete ++ segments ++ [last]) (base ++ names ++ [leaf]) :=
      (hbase.append hsegments).append (.cons hleaf .nil)
    have hdirectory : names.reverse ++ base.reverse = (base ++ names).reverse := List.reverse_append.symm
    have hobject : ObjectPath path := by
      refine ⟨_, _, hpath, .inr (List.suffix_append _ _), not_hidden_append hleaf _, fun name hname => ?_⟩
      refine hnames.dirName name (List.mem_append_left _ (List.mem_reverse.mp ?_))
      rwa [← hdirectory]
    obtain ⟨raw, hraw⟩ := Option.isSome_iff_exists.mp hfile
    have hread : d.tree.read path = .ok raw := by rw [Tree.read, Tree.file?_eq_some.mp hraw]
    subst hpath
    -- The sidecar is that of a key, and its names are those of this one.
    obtain ⟨key', hkey'⟩ := h.sidecars _ _ raw hobject hread
    have hnames' := (locate_eq_ok.mp hkey').2
    rw [hdirectory, List.reverse_reverse] at hnames'
    have hsplit : key'.splitOn slash = complete ++ segments ++ [last] := hnames'.injective hnames
    have hsame : key' = key := by
      obtain ⟨segments', last', hsplit', hjoin, -⟩ := exists_splitOn key'
      obtain ⟨rfl, hlasts⟩ := List.append_inj' (hsplit.symm.trans hsplit') rfl
      obtain rfl := (List.cons.inj hlasts).1
      rw [hjoin, hkey, joinSegments_append, List.append_assoc]
    subst hsame
    refine ⟨?_, (prefix_splitOn_iff hcomplete hpart hsplit).mpr ⟨segments, rfl, hstarts⟩, _, _, hkey', rfl⟩
    have hat := h.objects key' _ _ hkey'
    cases hget : s.get? key' with
    | some obj => rfl
    | none =>
      rw [hget, objectAt_eq_none, hread] at hat
      cases hat
  · rintro ⟨hsome, hpre, directory, leaf, hkey, rfl⟩
    obtain ⟨obj, hget⟩ := Option.isSome_iff_exists.mp hsome
    have hnames := (locate_eq_ok.mp hkey).2
    obtain ⟨segments, last, hsplit, hjoin, -⟩ := exists_splitOn key
    obtain ⟨rest, rfl, hstarts⟩ := (prefix_splitOn_iff hcomplete hpart hsplit).mp hpre
    rw [hsplit] at hnames
    obtain ⟨above, leaves, hparts, habove, hleaf⟩ := hnames.split
    obtain ⟨base', names, rfl, hbase', hrest⟩ := habove.split
    obtain rfl := hbase.unique hbase'
    cases hleaf with
    | cons hleaf hnil =>
      cases hnil
      obtain ⟨hdirectory, hlast⟩ := List.append_inj' hparts rfl
      obtain rfl := (List.cons.inj hlast).1
      refine ⟨rest, names, last, leaf, hrest, hleaf, hstarts, ?_, ?_, ?_⟩
      · rw [hjoin, joinSegments_append, List.append_assoc]
      · rw [← List.reverse_append, ← hdirectory, List.reverse_reverse]
      · have hat := h.objects key _ _ hkey
        rw [hget, objectAt_eq_some] at hat
        obtain ⟨raw, hread, -⟩ := hat
        show (d.tree.file? ((leaf ++ sidecarSuffix) :: directory)).isSome = true
        unfold Tree.read at hread
        unfold Tree.file?
        split at hread
        next data hnode => rw [hnode]; rfl
        next => cases hread
        next => cases hread

/-! ## A page -/

/-- **The sidecars of a page** are those of the objects. -/
theorem FilesystemStorage.Holds.passes_readPage (h : fs.Holds d s) {keys : List (Str × FilePath)}
    (hkeys : ∀ e ∈ keys, (s.get? e.1).isSome = true ∧ ∃ directory leaf, locate e.1 = .ok (directory, leaf) ∧
      e.2 = (leaf ++ sidecarSuffix) :: directory) :
    (fs.readPage keys).Passes (onDisk False) (fun d' => d' = d) (fun r _ => ∃ listed, r = .ok listed ∧
      listed.map (·.key) = keys.map (·.1) ∧ ∀ l ∈ listed, s.Shows l) d := by
  induction keys with
  | nil => exact ⟨rfl, [], rfl, rfl, nofun⟩
  | cons e keys ih =>
    obtain ⟨⟨hsome, directory, leaf, hkey, hpath⟩, hrest⟩ := List.forall_mem_cons.mp hkeys
    obtain ⟨key, path⟩ := e
    obtain rfl : path = _ := hpath
    obtain ⟨obj, hget⟩ := Option.isSome_iff_exists.mp hsome
    rw [readPage]
    refine Prog.Passes.bind ((passes_readSidecar _).mono (fun _ hd => hd) fun r w hd hr => And.intro hd hr) ?_ ?_
    · rintro found _ - ⟨rfl, hread⟩
      obtain rfl := Except.ok.inj (h.sidecarRead hkey hread)
      rw [show s.get? key = some obj from hget]
      refine (ih hrest).bind ?_ ?_
      · rintro rest _ rfl ⟨_, hok, hnames, hshows⟩
        obtain rfl := Except.ok.inj hok
        refine ⟨rfl, _, rfl, congrArg (List.cons key) hnames, List.forall_mem_cons.mpr ⟨?_, hshows⟩⟩
        exact ⟨obj, hget, rfl⟩
      · rintro e _ - ⟨_, hok, -⟩
        cases hok
    · rintro e _ - ⟨rfl, hread⟩
      cases h.sidecarRead hkey hread

/-- **What the walk finds, sorted**, are the keys of the listing. -/
theorem FilesystemStorage.Holds.sorted_keys (h : fs.Holds d s) (hbase : EncodedAs complete base)
    (hcomplete : ∀ s ∈ complete, slash ∉ s) (hpart : slash ∉ part) {found : List (Str × FilePath)}
    (hfound : Collects (FoundBelow d.tree base.reverse (joinSegments complete) part) found)
    (startAfter : Option Str) :
    ((found.filter fun e => (joinSegments complete ++ part).isPrefixOf e.1 && startAfter.all (· < e.1)).insertionSort
      fun e e' => e.1 ≤ e'.1).map (·.1) = (s.listing (joinSegments complete ++ part) startAfter).map (·.key) := by
  have hmem : ∀ e : Str × FilePath, e ∈ found ↔ _ := fun e =>
    (hfound.mem e).trans (h.found_iff hbase hcomplete hpart)
  generalize hkeys : found.filter _ = keys
  have hsub : ∀ e ∈ keys, e ∈ found := fun e he => List.mem_of_mem_filter (hkeys ▸ he)
  have hperm := List.perm_insertionSort (fun e e' : Str × FilePath => e.1 ≤ e'.1) keys
  -- Two entries at one key have one path, and a path is found once.
  have honce : keys.Pairwise fun e e' => e.1 ≠ e'.1 := by
    have hpaths : keys.Pairwise fun e e' => e.2 ≠ e'.2 := by
      rw [← hkeys]
      exact (List.pairwise_map.mp hfound.once).filter _
    refine hpaths.imp_of_mem fun {e e'} he he' hne hkey => hne ?_
    obtain ⟨-, -, directory, leaf, hlocate, hpath⟩ := (hmem e).mp (hsub e he)
    obtain ⟨-, -, directory', leaf', hlocate', hpath'⟩ := (hmem e').mp (hsub e' he')
    rw [hkey, hlocate'] at hlocate
    obtain ⟨rfl, rfl⟩ := Prod.mk.inj (Except.ok.inj hlocate)
    rw [hpath, hpath']
  refine eq_of_ascending ?_ (List.pairwise_map.mpr (s.sorted_listing _ startAfter)) fun k => ?_
  · rw [List.pairwise_map]
    have hsorted := List.pairwise_insertionSort (fun e e' : Str × FilePath => e.1 ≤ e'.1) keys
    have hdistinct := (hperm.pairwise_iff fun {e e'} (hne : e.1 ≠ e'.1) => hne.symm).mpr honce
    exact (hsorted.and hdistinct).imp fun hboth => lt_of_le_of_ne hboth.1 hboth.2
  · have hmemKeys : k ∈ (keys.insertionSort fun e e' => e.1 ≤ e'.1).map (·.1) ↔ k ∈ keys.map (·.1) :=
      (hperm.map _).mem_iff
    have hafter : startAfter.all (· < k) = true ↔ ∀ a, startAfter = some a → a < k := by
      cases startAfter <;> simp
    rw [hmemKeys, List.mem_map, List.mem_map, ← hkeys]
    constructor
    · rintro ⟨e, he, rfl⟩
      obtain ⟨hin, hcond⟩ := List.mem_filter.mp he
      obtain ⟨hpre, hbehind⟩ := Bool.and_eq_true_iff.mp hcond
      obtain ⟨obj, hobj⟩ := Option.isSome_iff_exists.mp ((hmem e).mp hin).1
      exact ⟨⟨e.1, obj.metadata, obj.version⟩, Objects.mem_listing.mpr ⟨obj, hobj, rfl, hpre, hafter.mp hbehind⟩, rfl⟩
    · rintro ⟨l, hl, rfl⟩
      obtain ⟨obj, hobj, -, hpre, hbehind⟩ := Objects.mem_listing.mp hl
      obtain ⟨⟨directory, leaf⟩, hlocate⟩ := h.storable _ obj hobj
      refine ⟨(l.key, (leaf ++ sidecarSuffix) :: directory), List.mem_filter.mpr ⟨?_, ?_⟩, rfl⟩
      · refine (hmem _).mpr ⟨by rw [hobj]; rfl, List.isPrefixOf_iff_prefix.mp hpre, directory, leaf, hlocate, rfl⟩
      · exact Bool.and_eq_true_iff.mpr ⟨hpre, hafter.mpr hbehind⟩

/-- No storable key is under a prefix that is not. -/
theorem FilesystemStorage.Holds.listing_eq_nil (h : fs.Holds d s) {e : Exc}
    (hcomplete : complete.mapM encodeSegment = .error e) (hslash : ∀ s ∈ complete, slash ∉ s)
    (hpart : slash ∉ part) (startAfter : Option Str) :
    s.listing (joinSegments complete ++ part) startAfter = [] := by
  refine List.eq_nil_iff_forall_not_mem.mpr fun l hl => ?_
  obtain ⟨obj, hobj, -, hpre, -⟩ := Objects.mem_listing.mp hl
  obtain ⟨⟨directory, leaf⟩, hlocate⟩ := h.storable _ obj hobj
  obtain ⟨segments, last, hsplit, -⟩ := exists_splitOn l.key
  obtain ⟨rest, rfl, -⟩ := (prefix_splitOn_iff hslash hpart hsplit).mp (List.isPrefixOf_iff_prefix.mp hpre)
  have hnames := (locate_eq_ok.mp hlocate).2
  rw [hsplit, List.append_assoc] at hnames
  obtain ⟨names, -, -, habove, -⟩ := hnames.split
  rw [mapM_encodeSegment_eq_ok.mpr habove] at hcomplete
  cases hcomplete

/-- A page performs its operation. -/
theorem passes_perform_listPage {pre : Str} {startAfter : Option Str} {limit : Nat} (h : fs.Holds d s)
    (hshallow : d.Shallow fs.frames) :
    (fs.perform (.listPage pre startAfter limit)).Passes (onDisk False)
      (fs.Passing d s (.listPage pre startAfter limit)) (fs.Performed d s (.listPage pre startAfter limit)) d := by
  obtain ⟨complete, part, hsplit, hpre, hcomplete, hpart⟩ := exists_splitOn pre
  have hquiets : ∀ d', Quiet False d d' → fs.Performed d s (.listPage pre startAfter limit)
      (.ok (.ok ((s.listing pre startAfter).take limit))) d' := fun d' hquiet =>
    ⟨_, s, rfl, performs_quiet h hquiet (fun _ => rfl) rfl⟩
  refine Prog.passes_attempt.mpr ?_
  rw [listPage]
  simp only [hsplit, List.dropLast_concat, List.getLast?_concat, Option.getD_some]
  split
  next e herror =>
    refine ⟨passing_quiet h (Quiet.refl False d), ?_⟩
    have hnil := h.listing_eq_nil herror hcomplete hpart startAfter
    rw [← hpre] at hnil
    have hdone := hquiets d (Quiet.refl False d)
    rw [hnil, List.take_nil] at hdone
    exact hdone
  next base hbase =>
    rw [mapM_encodeSegment_eq_ok] at hbase
    refine passes_unavailable.mpr ?_
    have hlock : (FilesystemStorage.locked false).Passes (onDisk False) (Quiet False d)
        (fun r d₁ => Quiet False d d₁ ∧ r = .ok () ∧ d₁.Shallow fs.frames) d := by
      have hissues : (FilesystemStorage.locked false).Issues fun o => o = FsOp.lock false :=
        ⟨rfl, fun a => Prog.issues_ofExcept _⟩
      have hkeeps : ∀ w (o : FsOp) (a : o.Ans) w', o = .lock false → (onDisk False).handles w o a w' →
          w.Shallow fs.frames → w'.Shallow fs.frames := fun w o a w' ho hh hw => by
        subst ho
        exact shallow_lock hh hw
      have hcuts : ∀ w o w', o = FsOp.lock false → (onDisk False).cut w o w' → w.Shallow fs.frames →
          w'.Shallow fs.frames := fun w o w' ho hc _ => by
        subst ho
        exact hc.elim
      refine ((passes_locked false).keeps hissues hkeeps hcuts hshallow).mono (fun _ hI => hI.1) ?_
      rintro r d₁ ⟨hquiet, -⟩ ⟨⟨-, ⟨hr, -⟩ | ⟨-, -, hlock⟩⟩, hdeep⟩
      · exact ⟨hquiet, hr, hdeep⟩
      · exact absurd hlock h.tidy.lock
    refine (hlock.mono (fun d₁ hquiet => passing_quiet h hquiet) fun _ _ _ hr => hr).bind ?_ ?_
    swap
    · rintro e d₁ - ⟨-, hr, -⟩
      cases hr
    rintro u d₁ - ⟨hquiet, -, hdeep⟩
    have hholds := h.quiet hquiet
    have hpassing : fs.Passing d s (.listPage pre startAfter limit) d₁ := passing_quiet h hquiet
    have hroot : 0 < fs.frames := hshallow [] (Tree.node_nil _)
    have hdepth : ∀ q, d₁.tree.node (q ++ base.reverse) = some .dir → q.length < fs.frames := fun q hq => by
      have hlen := hdeep _ hq
      rw [List.length_append] at hlen
      omega
    have hwalk : Walks False d₁ (FoundBelow d₁.tree base.reverse (joinSegments complete) part) _ :=
      walks_collect hroot hdepth
    refine (hwalk.mono (fun w hw => hw ▸ hpassing) fun r w hw hr => And.intro hw hr).bind ?_ ?_
    swap
    · rintro e d₂ - ⟨-, found, hr, -⟩
      cases hr
    rintro found _ - ⟨rfl, found', hr, hfound⟩
    obtain rfl := Except.ok.inj hr
    have hkeys := hholds.sorted_keys hbase hcomplete hpart hfound startAfter
    rw [← hpre] at hkeys
    refine (hholds.passes_readPage fun e he => ?_).mono (fun w hw => hw ▸ hpassing) ?_
    · have hsorted := (List.perm_insertionSort _ _).mem_iff.mp (List.mem_of_mem_take he)
      have hin : e ∈ found := List.mem_of_mem_filter hsorted
      obtain ⟨hsome, -, hplace⟩ := (hholds.found_iff hbase hcomplete hpart).mp ((hfound.mem e).mp hin)
      exact ⟨hsome, hplace⟩
    · rintro r _ rfl ⟨listed, rfl, hnames, hshows⟩
      -- The first keys of both lists are the same, and so is what is shown of them.
      have hpage : listed = (s.listing pre startAfter).take limit := by
        refine Objects.Shows.eq_of_keys hshows (fun l hl => Objects.shows_of_mem (List.mem_of_mem_take hl)) ?_
        rw [hnames, List.map_take, hkeys, List.map_take]
      rw [hpage]
      exact hquiets _ hquiet

end

end Wenchang
