import Wenchang.Laws.FileReads

/-!
# `FilesystemStorage.list_page`

The walk finds the sidecars below a directory whose names decode (`FoundBelow`), each once, in whatever
order the directories are listed. On a disk that holds only what the storage wrote these are the keys
that read as an object (`found_iff`), so a page is the first keys of an ascending list of them.
-/

namespace Wenchang

open Py Ordered Files Interaction

/-! ## The walk -/

section

variable {faults : Prop} {d : Disk}

/-- The results of a walk: each once. -/
structure Collects (P : Str × FilePath → Prop) (found : List (Str × FilePath)) : Prop where
  mem : ∀ e, e ∈ found ↔ P e
  once : (found.map Prod.snd).Nodup

/-- A program that walks part of a disk, which it leaves as it is. -/
def Walks (faults : Prop) (d : Disk) (P : Str × FilePath → Prop) (p : Fs (List (Str × FilePath))) : Prop :=
  p.Passes (onDisk faults) (fun d' => d' = d) (fun r _ => ∃ found, r = .ok found ∧ Collects P found) d

/-- A walk that returned found what it found. -/
theorem walks_ret {P : Str × FilePath → Prop} {found : List (Str × FilePath)} (h : Collects P found) :
    Walks faults d P (.ret found) := ⟨rfl, found, rfl, h⟩

/-- Nothing is found where nothing is. -/
theorem collects_nil {P : Str × FilePath → Prop} (h : ∀ e, ¬ P e) : Collects P [] :=
  ⟨fun e => iff_of_false (by simp) (h e), .nil⟩

/-- A look into a directory leaves the disk. -/
theorem handles_scandir {path : FilePath} {a : Except OsError (List (Str × Bool))} {d' : Disk}
    (h : (onDisk faults).handles d (.scandir path) a d') : d' = d ∧
      ((d.tree.node path ≠ some .dir ∧ ∃ e, a = .error e ∧ (e.errno = .enoent ∨ e.errno = .enotdir)) ∨
        ∃ entries, a = .ok entries ∧ entries.Perm (d.tree.entries path)) := by
  rcases h with ⟨rfl, h⟩ | ⟨-, h⟩
  swap
  · exact h.elim
  refine ⟨rfl, ?_⟩
  rcases h with ⟨errno, text, hscan, rfl⟩ | ⟨entries, entries', hscan, rfl, hperm⟩
  · rw [Tree.scandir] at hscan
    split at hscan
    · cases hscan
    · next data hfile =>
      obtain rfl := Except.error.inj hscan
      exact .inl ⟨by simp [hfile], _, rfl, .inr rfl⟩
    · next hnone =>
      obtain rfl := Except.error.inj hscan
      refine .inl ⟨by simp [hnone], _, rfl, ?_⟩
      rcases d'.tree.missing_cases path with ⟨herr, -⟩ | ⟨herr, -⟩
      · exact .inl herr
      · exact .inr herr
  · rw [Tree.scandir] at hscan
    split at hscan
    · obtain rfl := Except.ok.inj hscan
      exact .inr ⟨entries', rfl, hperm⟩
    · cases hscan
    · cases hscan

end

section

variable [Interpreter]

/-- What `_collect` is to find: sidecars below a directory whose next segment starts with `part`. -/
inductive FoundBelow (t : Tree Str Bytes) : FilePath → Str → Str → Str × FilePath → Prop
  | here {directory : FilePath} {keyPrefix part leaf name : Str} (encoded : encodeSegment leaf = .ok name)
      (starts : part <+: leaf) (file : (t.file? ((name ++ sidecarSuffix) :: directory)).isSome = true) :
      FoundBelow t directory keyPrefix part (keyPrefix ++ leaf, (name ++ sidecarSuffix) :: directory)
  | deeper {directory : FilePath} {keyPrefix part segment name : Str} {found : Str × FilePath}
      (encoded : encodeSegment segment = .ok name) (starts : part <+: segment)
      (rest : FoundBelow t (name :: directory) (keyPrefix ++ segment ++ [slash]) [] found) :
      FoundBelow t directory keyPrefix part found

variable {faults : Prop} {d : Disk} {t : Tree Str Bytes} {directory : FilePath} {keyPrefix part : Str}
  {found : Str × FilePath}

/-- What is found is a file, below the directory. -/
theorem FoundBelow.file (h : FoundBelow t directory keyPrefix part found) :
    (t.file? found.2).isSome = true ∧ ∃ above, found.2 = above ++ directory ∧ above ≠ [] := by
  induction h with
  | @here directory keyPrefix part leaf name _ _ hfile =>
    exact ⟨hfile, [name ++ sidecarSuffix], rfl, by simp⟩
  | @deeper directory keyPrefix part segment name found _ _ _ ih =>
    obtain ⟨hfile, above, heq, -⟩ := ih
    exact ⟨hfile, above ++ [name], by rw [heq, List.append_assoc]; rfl, by simp⟩

/-- Nothing is found below what is no directory. -/
theorem FoundBelow.dir (h : FoundBelow t directory keyPrefix part found) :
    t.node directory = some .dir := by
  obtain ⟨hfile, above, heq, hne⟩ := h.file
  obtain ⟨data, hdata⟩ := Option.isSome_iff_exists.mp hfile
  rw [heq] at hdata
  have hnode : ∀ {above : FilePath} {n : Node Bytes}, t.node (above ++ directory) = some n → above ≠ [] →
      t.node directory = some .dir := fun {above} => by
    induction above with
    | nil => exact fun _ hne => absurd rfl hne
    | cons name above ih =>
      intro n hn _
      have hparent := Tree.node_parent hn
      cases above with
      | nil => exact hparent
      | cons c above => exact ih hparent (List.cons_ne_nil c above)
  exact hnode (Tree.file?_eq_some.mp hdata) hne

/-- What an entry of a directory leads to. -/
inductive FoundAt (t : Tree Str Bytes) (directory : FilePath) (keyPrefix part : Str) (name : Str) :
    Str × FilePath → Prop
  | here {leaf encodedLeaf : Str} (encoded : encodeSegment leaf = .ok encodedLeaf) (starts : part <+: leaf)
      (entry : name = encodedLeaf ++ sidecarSuffix) (file : (t.file? (name :: directory)).isSome = true) :
      FoundAt t directory keyPrefix part name (keyPrefix ++ leaf, name :: directory)
  | deeper {segment : Str} {found : Str × FilePath} (encoded : encodeSegment segment = .ok name)
      (starts : part <+: segment)
      (rest : FoundBelow t (name :: directory) (keyPrefix ++ segment ++ [slash]) [] found) :
      FoundAt t directory keyPrefix part name found

/-- What is found below a directory is found at one of its entries. -/
theorem foundBelow_iff : FoundBelow t directory keyPrefix part found ↔
    ∃ entry ∈ t.entries directory, FoundAt t directory keyPrefix part entry.1 found := by
  constructor
  · intro h
    cases h with
    | here hencoded hstarts hfile =>
      exact ⟨(_, true), Tree.mem_entries.mpr (.inr ⟨hfile, rfl⟩), .here hencoded hstarts rfl hfile⟩
    | deeper hencoded hstarts hrest =>
      exact ⟨(_, false), Tree.mem_entries.mpr (.inl ⟨hrest.dir, rfl⟩), .deeper hencoded hstarts hrest⟩
  · rintro ⟨⟨name, isFile⟩, -, hat⟩
    cases hat with
    | here hencoded hstarts hentry hfile =>
      obtain rfl : name = _ := hentry
      exact .here hencoded hstarts hfile
    | deeper hencoded hstarts hrest => exact .deeper hencoded hstarts hrest

/-- What an entry leads to is below it. -/
theorem FoundAt.suffix {name : Str} (h : FoundAt t directory keyPrefix part name found) :
    (name :: directory) <:+ found.2 := by
  cases h with
  | here => exact List.suffix_rfl
  | deeper _ _ hrest =>
    obtain ⟨-, above, heq, -⟩ := hrest.file
    exact ⟨above, heq.symm⟩

/-- An encoded segment with a suffix is not hidden. -/
theorem not_hidden_append {segment name : Str} (h : encodeSegment segment = .ok name) (suffix : Str) :
    ¬ Hidden (name ++ suffix) := by
  rintro ⟨rest, hrest⟩
  obtain ⟨c, tail, rfl⟩ := List.exists_cons_of_ne_nil (encoded_ne_nil h)
  refine (dirName_of_encoded h).1 ⟨tail, ?_⟩
  rw [← (List.cons.inj hrest).1]
  rfl

/-- The name of a sidecar, and what is decoded of it. -/
theorem sidecarName_iff {name leaf : Str} (h : sidecarSuffix <:+ name) :
    decodeSegment (name.take (name.length - sidecarSuffix.length)) = some leaf ↔
      ∃ encodedLeaf, encodeSegment leaf = .ok encodedLeaf ∧ name = encodedLeaf ++ sidecarSuffix := by
  obtain ⟨base, rfl⟩ := h
  have htake : (base ++ sidecarSuffix).take ((base ++ sidecarSuffix).length - sidecarSuffix.length) = base := by
    rw [List.length_append, Nat.add_sub_cancel, List.take_left']
    rfl
  rw [htake, decodeSegment_eq_some]
  constructor
  · exact fun henc => ⟨base, henc, rfl⟩
  · rintro ⟨encodedLeaf, henc, heq⟩
    rw [List.append_cancel_right heq]
    exact henc

/-- **One entry** of a directory. -/
theorem walks_collectEntry {descend : FilePath → Str → Fs (List (Str × FilePath))} {name : Str} {isFile : Bool}
    (hentry : (name, isFile) ∈ d.tree.entries directory)
    (hdescend : ∀ segment, encodeSegment segment = .ok name → isFile = false → Walks faults d
      (FoundBelow d.tree (name :: directory) (keyPrefix ++ segment ++ [slash]) [])
      (descend (name :: directory) (keyPrefix ++ segment ++ [slash]))) :
    Walks faults d (FoundAt d.tree directory keyPrefix part name)
      (FilesystemStorage.collectEntry descend directory keyPrefix part (name, isFile)) := by
  have hkind := Tree.mem_entries.mp hentry
  rw [FilesystemStorage.collectEntry]
  simp only [List.isPrefixOf_iff_prefix, List.isSuffixOf_iff_suffix]
  split
  · next hhidden =>
    refine walks_ret (collects_nil fun e hat => ?_)
    cases hat with
    | here hencoded _ hname _ => exact not_hidden_append hencoded _ (hname ▸ hhidden)
    | deeper hencoded _ _ => exact (dirName_of_encoded hencoded).1 hhidden
  split
  · next hsidecar =>
    -- A sidecar: its leaf is decoded.
    have hnot : ∀ segment, encodeSegment segment ≠ .ok name := fun segment henc =>
      (dirName_of_encoded henc).2 (.inr hsidecar)
    split
    · next leaf hleaf =>
      obtain ⟨encodedLeaf, hencoded, hname⟩ := (sidecarName_iff hsidecar).mp hleaf
      refine walks_ret ⟨fun e => ?_, by split <;> simp⟩
      constructor
      · intro he
        split at he
        · next hshown =>
          obtain rfl := List.mem_singleton.mp he
          obtain ⟨hstarts, rfl⟩ : part <+: leaf ∧ isFile = true := by simpa using hshown
          rcases hkind with ⟨-, hfalse⟩ | ⟨hfile, -⟩
          · cases hfalse
          · exact .here hencoded hstarts hname hfile
        · cases he
      · intro hat
        cases hat with
        | @here leaf' encodedLeaf' hencoded' hstarts hname' hfile =>
          obtain rfl : encodedLeaf = encodedLeaf' := List.append_cancel_right (hname.symm.trans hname')
          obtain rfl := encodeSegment_injective hencoded hencoded'
          have htrue : isFile = true := by
            rcases hkind with ⟨hdir, -⟩ | ⟨-, htrue⟩
            · rw [Tree.file?, hdir] at hfile
              cases hfile
            · exact htrue
          rw [if_pos (by simpa using And.intro hstarts htrue)]
          exact List.mem_cons_self
        | deeper hencoded' _ _ => exact absurd hencoded' (hnot _)
    · next hnone =>
      refine walks_ret (collects_nil fun e hat => ?_)
      cases hat with
      | here hencoded _ hname _ =>
        rw [(sidecarName_iff hsidecar).mpr ⟨_, hencoded, hname⟩] at hnone
        cases hnone
      | deeper hencoded _ _ => exact hnot _ hencoded
  · next hsidecar =>
    split
    · next hbody =>
      refine walks_ret (collects_nil fun e hat => ?_)
      cases hat with
      | here _ _ hname _ => exact hsidecar ⟨_, hname.symm⟩
      | deeper hencoded _ _ => exact (dirName_of_encoded hencoded).2 (.inl hbody)
    · split
      · next dirname hdirname =>
        have hencoded := decodeSegment_eq_some.mp hdirname
        split
        · next hshown =>
          obtain ⟨hstarts, rfl⟩ : part <+: dirname ∧ isFile = false := by simpa using hshown
          refine (hdescend dirname hencoded rfl).mono (fun _ h => h) ?_
          rintro r w - ⟨found, rfl, hfound⟩
          refine ⟨found, rfl, fun e => (hfound.mem e).trans ⟨fun h => .deeper hencoded hstarts h, ?_⟩, hfound.once⟩
          intro hat
          cases hat with
          | here _ _ hname _ => exact absurd ⟨_, hname.symm⟩ hsidecar
          | deeper hencoded' _ hrest =>
            obtain rfl := encodeSegment_injective hencoded hencoded'
            exact hrest
        · next hshown =>
          refine walks_ret (collects_nil fun e hat => hshown ?_)
          cases hat with
          | here _ _ hname _ => exact absurd ⟨_, hname.symm⟩ hsidecar
          | deeper hencoded' hstarts hrest =>
            obtain rfl := encodeSegment_injective hencoded hencoded'
            have hfalse : isFile = false := by
              rcases hkind with ⟨-, hfalse⟩ | ⟨hfile, -⟩
              · exact hfalse
              · rw [Tree.file?, hrest.dir] at hfile
                cases hfile
            simpa using And.intro hstarts hfalse
      · next hnone =>
        refine walks_ret (collects_nil fun e hat => ?_)
        cases hat with
        | here _ _ hname _ => exact hsidecar ⟨_, hname.symm⟩
        | deeper hencoded _ _ =>
          rw [decodeSegment_eq_some.mpr hencoded] at hnone
          cases hnone

/-- **The entries** of a directory, each visited. -/
theorem walks_collectAll {visit : Str × Bool → Fs (List (Str × FilePath))} {entries : List (Str × Bool)}
    (hvisit : ∀ e ∈ entries, Walks faults d (FoundAt d.tree directory keyPrefix part e.1) (visit e))
    (hnames : (entries.map Prod.fst).Nodup) :
    Walks faults d (fun found => ∃ e ∈ entries, FoundAt d.tree directory keyPrefix part e.1 found)
      (FilesystemStorage.collectAll visit entries) := by
  induction entries with
  | nil => exact walks_ret (collects_nil (by simp))
  | cons e entries ih =>
    obtain ⟨he, hentries⟩ := List.forall_mem_cons.mp hvisit
    obtain ⟨hfresh, hnames⟩ := List.nodup_cons.mp hnames
    refine Prog.Passes.bind (he.mono (fun _ h => h) fun r w h hr => And.intro h hr) ?_ ?_
    swap
    · rintro _ _ - ⟨-, _, hr, -⟩
      cases hr
    rintro found _ - ⟨rfl, _, hr, hfound⟩
    obtain rfl := Except.ok.inj hr
    refine Prog.Passes.bind ((ih hentries hnames).mono (fun _ h => h) fun r w h hr => And.intro h hr) ?_ ?_
    swap
    · rintro _ _ - ⟨-, _, hr, -⟩
      cases hr
    rintro rest _ - ⟨rfl, _, hr, hrest⟩
    obtain rfl := Except.ok.inj hr
    refine walks_ret ⟨fun f => ?_, ?_⟩
    · rw [List.mem_append, hfound.mem, hrest.mem, List.exists_mem_cons_iff]
    · -- What two entries lead to lies below different names.
      rw [List.map_append]
      refine List.nodup_append.mpr ⟨hfound.once, hrest.once, fun p hp q hq => ?_⟩
      obtain ⟨f, hf, rfl⟩ := List.mem_map.mp hp
      obtain ⟨f', hf', rfl⟩ := List.mem_map.mp hq
      obtain ⟨e', he', hat'⟩ := (hrest.mem f').mp hf'
      intro heq
      have hsuffix := ((hfound.mem f).mp hf).suffix
      have hsuffix' := hat'.suffix
      rw [← heq] at hsuffix'
      have hsame := (List.suffix_of_suffix_length_le hsuffix hsuffix' (by simp)).eq_of_length (by simp)
      exact hfresh ((List.cons.inj hsame).1 ▸ List.mem_map_of_mem he')

/-- **The walk** finds what is below the directory, if the directories do not nest deeper than the
interpreter lets it go. -/
theorem walks_collect {frames : Nat} (hframes : 0 < frames)
    (hdepth : ∀ q, d.tree.node (q ++ directory) = some .dir → q.length < frames) :
    Walks faults d (FoundBelow d.tree directory keyPrefix part)
      (FilesystemStorage.collect frames directory keyPrefix part) := by
  induction frames generalizing directory keyPrefix part with
  | zero => exact absurd hframes (lt_irrefl _)
  | succ frames ih =>
    rw [FilesystemStorage.collect]
    refine ⟨rfl, fun _ hcut => hcut.elim, fun a d' hh => ?_⟩
    obtain ⟨rfl, ⟨hnot, e, rfl, herrno⟩ | ⟨entries, rfl, hperm⟩⟩ := handles_scandir hh
    · show Prog.Passes _ _ _ (if e.errno = .enoent ∨ e.errno = .enotdir then _ else _) _
      rw [if_pos herrno]
      exact walks_ret (collects_nil fun f hf => hnot hf.dir)
    · have hvisit : ∀ e ∈ entries, Walks faults d' (FoundAt d'.tree directory keyPrefix part e.1)
          (FilesystemStorage.collectEntry
            (fun path pre => FilesystemStorage.collect frames path pre []) directory keyPrefix part e) := by
        rintro ⟨name, isFile⟩ he
        have hentry := hperm.mem_iff.mp he
        refine walks_collectEntry hentry fun segment _ hdir => ?_
        subst hdir
        have hnode : d'.tree.node (name :: directory) = some .dir := by
          rcases Tree.mem_entries.mp hentry with ⟨hnode, -⟩ | ⟨-, hfalse⟩
          · exact hnode
          · cases hfalse
        refine ih (Nat.lt_of_succ_lt_succ (hdepth [name] hnode)) fun q hq => ?_
        have hlen := hdepth (q ++ [name]) (by rwa [List.append_assoc, List.singleton_append])
        simpa using hlen
      have hnames := (hperm.map Prod.fst).nodup_iff.mpr (d'.tree.nodup_entries directory)
      refine (walks_collectAll hvisit hnames).mono (fun _ h => h) ?_
      rintro r w - ⟨found, rfl, hfound⟩
      refine ⟨found, rfl, fun f => ?_, hfound.once⟩
      rw [hfound.mem, foundBelow_iff]
      exact exists_congr fun e => and_congr_left' hperm.mem_iff

end

end Wenchang
