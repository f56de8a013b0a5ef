import Wenchang.Ordered.FinMap

/-!
# File trees

A `Tree` is a directory tree below one root: files and directories under paths, where every path but the
root stands in a directory. That is two fields of the structure, so an orphan cannot be built. The
operations are those of a POSIX filesystem, each all or nothing, with the error it gives when it does
nothing.

For each operation there is one lemma that says what it leaves at every path. A path names a file or
directory by its names from the last to the first, so the parent of `name :: p` is `p`.
-/

namespace Files

open Ordered

variable {ν β : Type}

/-- What stands at a path. -/
inductive Node (β : Type) where
  | file (data : β)
  | dir

/-- The errors of a filesystem. -/
inductive Errno where
  /-- No such file or directory. -/
  | enoent
  /-- File exists. -/
  | eexist
  /-- Not a directory. -/
  | enotdir
  /-- Is a directory. -/
  | eisdir
  /-- Directory not empty. -/
  | enotempty
  /-- Any other. -/
  | other
  deriving DecidableEq

/-- A path below the root, its last name first. -/
abbrev Path (ν : Type) := List ν

/-- A tree of files and directories. -/
structure Tree (ν β : Type) [LinearOrder ν] where
  nodes : FinMap (Path ν) (Node β)
  root : nodes.get? [] = some .dir
  rooted : ∀ name p n, nodes.get? (name :: p) = some n → nodes.get? p = some .dir

namespace Tree

variable [LinearOrder ν]

/-- What stands at a path. -/
def node (t : Tree ν β) (p : Path ν) : Option (Node β) := t.nodes.get? p

/-- A path is a directory. -/
def isDir (t : Tree ν β) (p : Path ν) : Bool :=
  match t.node p with
  | some .dir => true
  | _ => false

/-- The data of the file at a path. -/
def file? (t : Tree ν β) (p : Path ν) : Option β :=
  match t.node p with
  | some (.file data) => some data
  | _ => none

/-- A directory is what is recorded as one. -/
theorem isDir_iff {t : Tree ν β} {p : Path ν} : t.isDir p = true ↔ t.node p = some .dir := by
  unfold isDir
  cases t.node p with
  | none => simp
  | some n => cases n <;> simp

/-- A file is read as what is recorded. -/
theorem file?_eq_some {t : Tree ν β} {p : Path ν} {data : β} :
    t.file? p = some data ↔ t.node p = some (.file data) := by
  unfold file?
  cases t.node p with
  | none => simp
  | some n => cases n <;> simp

/-- The root is a directory. -/
theorem node_nil (t : Tree ν β) : t.node [] = some .dir := t.root

/-- What is there stands in a directory. -/
theorem node_parent {t : Tree ν β} {name : ν} {p : Path ν} {n : Node β} (h : t.node (name :: p) = some n) :
    t.node p = some .dir := t.rooted name p n h

/-- Nothing stands below a file or below nothing. -/
theorem node_of_not_dir {t : Tree ν β} {p : Path ν} (h : t.node p ≠ some .dir) (name : ν) :
    t.node (name :: p) = none := by
  cases hnode : t.node (name :: p) with
  | none => rfl
  | some n => exact absurd (node_parent hnode) h

/-! ## Two changes of a tree -/

/-- The empty tree. -/
def empty : Tree ν β where
  nodes := FinMap.empty.insert [] .dir
  root := FinMap.get?_insert_self _ _ _
  rooted name p n h := by
    rw [FinMap.get?_insert_of_ne _ _ (List.cons_ne_nil name p)] at h
    cases h

/-- A new node in a directory, or another file in place of one. -/
def insert (t : Tree ν β) (name : ν) (p : Path ν) (n : Node β) (hp : t.node p = some .dir)
    (hnew : t.node (name :: p) ≠ some .dir) : Tree ν β where
  nodes := t.nodes.insert (name :: p) n
  root := by
    rw [FinMap.get?_insert_of_ne _ _ (List.cons_ne_nil name p).symm]
    exact t.root
  rooted c q m h := by
    have hdir : t.nodes.get? q = some .dir := by
      rw [FinMap.get?_insert] at h
      split at h
      · next heq => exact (List.cons.inj heq).2 ▸ hp
      · exact t.rooted c q m h
    have hq : q ≠ name :: p := by
      rintro rfl
      exact hnew hdir
    rw [FinMap.get?_insert_of_ne _ _ hq]
    exact hdir

/-- A node removed below which nothing stands. -/
def erase (t : Tree ν β) (name : ν) (p : Path ν) (hleaf : ∀ c, t.node (c :: name :: p) = none) :
    Tree ν β where
  nodes := t.nodes.erase (name :: p)
  root := by
    rw [FinMap.get?_erase_of_ne _ (List.cons_ne_nil name p).symm]
    exact t.root
  rooted c q m h := by
    rw [FinMap.get?_erase] at h
    split at h
    · cases h
    · have hq : q ≠ name :: p := by
        rintro rfl
        rw [show t.nodes.get? (c :: name :: p) = none from hleaf c] at h
        cases h
      rw [FinMap.get?_erase_of_ne _ hq]
      exact t.rooted c q m h

/-- An insert adds its node and leaves the others. -/
theorem node_insert (t : Tree ν β) (name : ν) (p q : Path ν) [Decidable (q = name :: p)] (n : Node β)
    (hp : t.node p = some .dir) (hnew : t.node (name :: p) ≠ some .dir) :
    (t.insert name p n hp hnew).node q = if q = name :: p then some n else t.node q :=
  FinMap.get?_insert _ _ _ _

/-- An erase takes its node and leaves the others. -/
theorem node_erase (t : Tree ν β) (name : ν) (p q : Path ν) [Decidable (q = name :: p)]
    (hleaf : ∀ c, t.node (c :: name :: p) = none) :
    (t.erase name p hleaf).node q = if q = name :: p then none else t.node q :=
  FinMap.get?_erase _ _ _

/-! ## Operations -/

/-- The error of looking up a path where nothing stands. -/
def missing (t : Tree ν β) : Path ν → Errno
  | [] => .enoent
  | _ :: p =>
    match t.node p with
    | some (.file _) => .enotdir
    | some .dir => .enoent
    | none => missing t p

/-- Read a file. -/
def read (t : Tree ν β) (p : Path ν) : Except Errno β :=
  match t.node p with
  | some (.file data) => .ok data
  | some .dir => .error .eisdir
  | none => .error (t.missing p)

/-- Make a node where nothing stands. -/
def make (t : Tree ν β) (n : Node β) : Path ν → Except Errno (Tree ν β)
  | [] => .error .eexist
  | name :: p =>
    if h : (t.node (name :: p)).isSome = true then .error .eexist
    else if hp : t.isDir p = true then
      .ok (t.insert name p n (isDir_iff.mp hp) fun he => h (by rw [he]; rfl))
    else .error (t.missing (name :: p))

/-- Make a directory. -/
def mkdir (t : Tree ν β) (p : Path ν) : Except Errno (Tree ν β) := t.make .dir p

/-- Create a file that must not be there. -/
def create (t : Tree ν β) (p : Path ν) (data : β) : Except Errno (Tree ν β) := t.make (.file data) p

/-- A file with this data, in place of another if there is one. -/
def set (t : Tree ν β) (p : Path ν) (data : β) : Except Errno (Tree ν β) :=
  match p with
  | [] => .error .eisdir
  | name :: p =>
    if hnew : t.isDir (name :: p) = true then .error .eisdir
    else if hp : t.isDir p = true then
      .ok (t.insert name p (.file data) (isDir_iff.mp hp) fun he => hnew (isDir_iff.mpr he))
    else .error (t.missing (name :: p))

/-- Other data in a file that is there. -/
def write (t : Tree ν β) (p : Path ν) (data : β) : Except Errno (Tree ν β) :=
  if (t.file? p).isSome = true then t.set p data
  else .error (if t.isDir p then .eisdir else t.missing p)

/-- Nothing is below a file. -/
theorem leaf_of_file {t : Tree ν β} {p : Path ν} {data : β} (h : t.node p = some (.file data)) (c : ν) :
    t.node (c :: p) = none :=
  node_of_not_dir (by rw [h]; simp) c

/-- Remove a file. -/
def unlink (t : Tree ν β) (p : Path ν) : Except Errno (Tree ν β) :=
  match p with
  | [] => .error .eisdir
  | name :: p =>
    match h : t.node (name :: p) with
    | some (.file _) => .ok (t.erase name p (leaf_of_file h))
    | some .dir => .error .eisdir
    | none => .error (t.missing (name :: p))

/-- The names in a directory, each with whether it is a file. -/
def entries (t : Tree ν β) (p : Path ν) : List (ν × Bool) :=
  t.nodes.entries.filterMap fun e =>
    match e with
    | (name :: q, n) => if q = p then some (name, match n with | .file _ => true | .dir => false) else none
    | ([], _) => none

/-- A directory is read as the directories and files in it. -/
theorem mem_entries {t : Tree ν β} {p : Path ν} {name : ν} {isFile : Bool} :
    (name, isFile) ∈ t.entries p ↔
      (t.node (name :: p) = some .dir ∧ isFile = false) ∨
        ((t.file? (name :: p)).isSome = true ∧ isFile = true) := by
  have hmem : ∀ n, (name :: p, n) ∈ t.nodes.entries ↔ t.node (name :: p) = some n := fun n =>
    FinMap.get?_eq_some.symm
  simp only [entries, List.mem_filterMap]
  constructor
  · rintro ⟨⟨_ | ⟨c, q⟩, n⟩, he, h⟩
    · cases h
    · by_cases hq : q = p
      · subst hq
        simp only [if_pos, Option.some.injEq, Prod.mk.injEq] at h
        obtain ⟨rfl, rfl⟩ := h
        have hn := (hmem n).mp he
        cases n with
        | dir => exact .inl ⟨hn, rfl⟩
        | file data => exact .inr ⟨by rw [file?_eq_some.mpr hn]; rfl, rfl⟩
      · simp only [if_neg hq] at h
        cases h
  · rintro (⟨hn, rfl⟩ | ⟨hn, rfl⟩)
    · exact ⟨(name :: p, .dir), (hmem _).mpr hn, by simp⟩
    · obtain ⟨data, hdata⟩ := Option.isSome_iff_exists.mp hn
      exact ⟨(name :: p, .file data), (hmem _).mpr (file?_eq_some.mp hdata), by simp⟩

/-- A directory names nothing twice. -/
theorem nodup_entries (t : Tree ν β) (p : Path ν) : ((t.entries p).map Prod.fst).Nodup := by
  rw [entries, List.Nodup, List.pairwise_map, List.pairwise_filterMap]
  refine t.nodes.sorted.imp fun {e e'} hlt b hb b' hb' hname => ?_
  obtain ⟨_ | ⟨name, q⟩, n⟩ := e
  · cases hb
  obtain ⟨_ | ⟨name', q'⟩, n'⟩ := e'
  · cases hb'
  simp only [Option.ite_none_right_eq_some, Option.some.injEq] at hb hb'
  obtain ⟨rfl, rfl⟩ := hb
  obtain ⟨rfl, rfl⟩ := hb'
  obtain rfl : name = name' := hname
  exact absurd hlt (lt_irrefl _)

/-- List a directory. -/
def scandir (t : Tree ν β) (p : Path ν) : Except Errno (List (ν × Bool)) :=
  match t.node p with
  | some .dir => .ok (t.entries p)
  | some (.file _) => .error .enotdir
  | none => .error (t.missing p)

/-- Nothing is below a directory without entries. -/
theorem leaf_of_entries {t : Tree ν β} {p : Path ν} (h : t.entries p = []) (c : ν) :
    t.node (c :: p) = none := by
  cases hnode : t.node (c :: p) with
  | none => rfl
  | some n =>
    have hmem : ∃ isFile, (c, isFile) ∈ t.entries p := by
      cases n with
      | dir => exact ⟨false, mem_entries.mpr (.inl ⟨hnode, rfl⟩)⟩
      | file data => exact ⟨true, mem_entries.mpr (.inr ⟨by rw [file?_eq_some.mpr hnode]; rfl, rfl⟩)⟩
    obtain ⟨_, hmem⟩ := hmem
    rw [h] at hmem
    cases hmem

/-- Remove an empty directory. The root is in use. -/
def rmdir (t : Tree ν β) (p : Path ν) : Except Errno (Tree ν β) :=
  match p with
  | [] => .error .other
  | name :: p =>
    match t.node (name :: p) with
    | some .dir =>
      if h : t.entries (name :: p) = [] then .ok (t.erase name p (leaf_of_entries h))
      else .error .enotempty
    | some (.file _) => .error .enotdir
    | none => .error (t.missing (name :: p))

/-- Move a file, in place of another if there is one. -/
def replace (t : Tree ν β) (src dst : Path ν) : Except Errno (Tree ν β) :=
  match t.file? src with
  | none => .error (if t.isDir src then .other else t.missing src)
  | some data =>
    if src = dst then .ok t
    else
      match t.unlink src with
      | .error e => .error e
      | .ok t' => t'.set dst data

/-! ## What the operations leave -/

variable {t t' : Tree ν β} {p q : Path ν}

/-- What is made was absent, and is the only change. -/
theorem node_of_make [DecidableEq (Path ν)] {n : Node β} (h : t.make n p = .ok t') :
    t.node p = none ∧ ∀ q, t'.node q = if q = p then some n else t.node q := by
  cases p with
  | nil => cases h
  | cons name p =>
    rw [make] at h
    split at h
    · cases h
    · next habsent =>
      split at h
      · obtain rfl := Except.ok.inj h
        exact ⟨by simpa using habsent, fun q => node_insert ..⟩
      · cases h

/-- What is absent can be made in a directory. -/
theorem exists_make (n : Node β) {name : ν} (habsent : t.node (name :: p) = none)
    (hp : t.node p = some .dir) : ∃ t', t.make n (name :: p) = .ok t' := by
  rw [make, dif_neg (by simp [habsent]), dif_pos (isDir_iff.mpr hp)]
  exact ⟨_, rfl⟩

/-- A file that is set was no directory, and is the only change. -/
theorem node_of_set [DecidableEq (Path ν)] {data : β} (h : t.set p data = .ok t') :
    t.node p ≠ some .dir ∧ ∀ q, t'.node q = if q = p then some (.file data) else t.node q := by
  cases p with
  | nil => cases h
  | cons name p =>
    rw [set] at h
    split at h
    · cases h
    · next hnew =>
      split at h
      · obtain rfl := Except.ok.inj h
        exact ⟨fun he => hnew (isDir_iff.mpr he), fun q => node_insert ..⟩
      · cases h

/-- A file can be set in a directory, where there is no directory of its name. -/
theorem exists_set {data : β} {name : ν} (hnew : t.node (name :: p) ≠ some .dir)
    (hp : t.node p = some .dir) : ∃ t', t.set (name :: p) data = .ok t' := by
  rw [set, dif_neg (fun h => hnew (isDir_iff.mp h)), dif_pos (isDir_iff.mpr hp)]
  exact ⟨_, rfl⟩

/-- What is written was a file, and is the only change. -/
theorem node_of_write [DecidableEq (Path ν)] {data : β} (h : t.write p data = .ok t') :
    (t.file? p).isSome = true ∧ ∀ q, t'.node q = if q = p then some (.file data) else t.node q := by
  rw [write] at h
  split at h
  · next hfile => exact ⟨hfile, (node_of_set h).2⟩
  · cases h

/-- A file can be written. -/
theorem exists_write {old : β} (data : β) (h : t.node p = some (.file old)) :
    ∃ t', t.write p data = .ok t' := by
  cases p with
  | nil =>
    rw [node_nil] at h
    cases h
  | cons name p =>
    rw [write, if_pos (by rw [file?_eq_some.mpr h]; rfl)]
    exact exists_set (by rw [h]; simp) (node_parent h)

/-- What is unlinked was a file, and is the only change. -/
theorem node_of_unlink [DecidableEq (Path ν)] (h : t.unlink p = .ok t') :
    (∃ data, t.node p = some (.file data)) ∧ ∀ q, t'.node q = if q = p then none else t.node q := by
  cases p with
  | nil => cases h
  | cons name p =>
    rw [unlink] at h
    split at h
    · next data hfile =>
      obtain rfl := Except.ok.inj h
      exact ⟨⟨data, hfile⟩, fun q => node_erase ..⟩
    · cases h
    · cases h

/-- A file can be unlinked. -/
theorem exists_unlink {data : β} (h : t.node p = some (.file data)) : ∃ t', t.unlink p = .ok t' := by
  cases p with
  | nil =>
    rw [node_nil] at h
    cases h
  | cons name p =>
    rw [unlink]
    split
    · exact ⟨_, rfl⟩
    · next hdir =>
      rw [hdir] at h
      cases h
    · next hnone =>
      rw [hnone] at h
      cases h

/-- What is removed was a directory other than the root, and is the only change. -/
theorem node_of_rmdir [DecidableEq (Path ν)] (h : t.rmdir p = .ok t') :
    p ≠ [] ∧ t.node p = some .dir ∧ ∀ q, t'.node q = if q = p then none else t.node q := by
  cases p with
  | nil => cases h
  | cons name p =>
    rw [rmdir] at h
    split at h
    · next hdir =>
      split at h
      · obtain rfl := Except.ok.inj h
        exact ⟨List.cons_ne_nil name p, hdir, fun q => node_erase ..⟩
      · cases h
    · cases h
    · cases h

/-- A rename moves a file: it has the new name, not the old one, and the rest is unchanged. -/
theorem node_of_replace [DecidableEq (Path ν)] {src dst : Path ν} (h : t.replace src dst = .ok t') :
    ∃ data, t.node src = some (.file data) ∧
      ∀ q, t'.node q = if q = dst then some (.file data) else if q = src then none else t.node q := by
  rw [replace] at h
  split at h
  · cases h
  · next data hfile =>
    rw [file?_eq_some] at hfile
    refine ⟨data, hfile, fun q => ?_⟩
    split at h
    · next heq =>
      obtain rfl := Except.ok.inj h
      subst heq
      split
      · next hq => rw [hq, hfile]
      · rfl
    · split at h
      · cases h
      · next t₁ hunlink =>
        rw [(node_of_set h).2 q, (node_of_unlink hunlink).2 q]

/-- A file can be renamed into a directory, unless a directory has the new name. -/
theorem exists_replace {src : Path ν} {data : β} {name : ν} (hsrc : t.node src = some (.file data))
    (hdst : t.node (name :: p) ≠ some .dir) (hp : t.node p = some .dir) :
    ∃ t', t.replace src (name :: p) = .ok t' := by
  rw [replace]
  simp only [file?_eq_some.mpr hsrc]
  split
  · exact ⟨_, rfl⟩
  · obtain ⟨t₁, hunlink⟩ := exists_unlink hsrc
    have hnode := (node_of_unlink hunlink).2
    simp only [hunlink]
    refine exists_set ?_ ?_
    · rw [hnode]
      split
      · simp
      · exact hdst
    · rw [hnode, if_neg]
      · exact hp
      · rintro rfl
        rw [hsrc] at hp
        cases hp

/-! ## Looking up a path where nothing stands -/

/-- What is missing is refused by what is above it: a file there, or none. -/
theorem missing_cases (t : Tree ν β) (p : Path ν) :
    t.missing p = .enoent ∧ (∀ q, q <:+ p → q ≠ p → t.file? q = none) ∨
      t.missing p = .enotdir ∧ ∃ q, q <:+ p ∧ q ≠ p ∧ (t.file? q).isSome = true := by
  induction p with
  | nil => exact .inl ⟨rfl, fun q hq hne => absurd (List.suffix_nil.mp hq) hne⟩
  | cons name p ih =>
    have hne : p ≠ name :: p := fun h => absurd (congrArg List.length h) (by simp)
    -- Below a directory there are only directories.
    have hdir : ∀ {p : Path ν}, t.node p = some .dir → ∀ q, q <:+ p → t.file? q = none := fun {p} => by
      induction p with
      | nil =>
        rintro - q hq
        obtain rfl := List.suffix_nil.mp hq
        simp [file?, node_nil]
      | cons c p ih =>
        intro hp q hq
        rcases List.suffix_cons_iff.mp hq with rfl | hq
        · simp [file?, hp]
        · exact ih (node_parent hp) q hq
    rw [missing]
    split
    · next data hfile =>
      exact .inr ⟨rfl, p, List.suffix_cons name p, hne, by rw [file?_eq_some.mpr hfile]; rfl⟩
    · next hp =>
      refine .inl ⟨rfl, fun q hq hq' => ?_⟩
      rcases List.suffix_cons_iff.mp hq with rfl | hq
      · exact absurd rfl hq'
      · exact hdir hp q hq
    · next hp =>
      rcases ih with ⟨herr, hall⟩ | ⟨herr, q, hq, -, hfile⟩
      · refine .inl ⟨herr, fun q hq hq' => ?_⟩
        rcases List.suffix_cons_iff.mp hq with rfl | hq
        · exact absurd rfl hq'
        · by_cases hqp : q = p
          · rw [hqp, file?, hp]
          · exact hall q hq hqp
      · refine .inr ⟨herr, q, hq.trans (List.suffix_cons name p), ?_, hfile⟩
        rintro rfl
        have hlen := hq.length_le
        simp at hlen

/-- Reading a path depends on what stands there and on which paths above are files. -/
theorem read_congr (hnode : t'.node p = t.node p)
    (habove : ∀ q, q <:+ p → q ≠ p → ((t'.file? q).isSome = true ↔ (t.file? q).isSome = true)) :
    t'.read p = t.read p := by
  unfold read
  rw [hnode]
  split
  · rfl
  · rfl
  · congr 1
    rcases t.missing_cases p with ⟨herr, hnone⟩ | ⟨herr, q, hq, hne, hfile⟩ <;>
      rcases t'.missing_cases p with ⟨herr', hnone'⟩ | ⟨herr', q', hq', hne', hfile'⟩
    · rw [herr, herr']
    · have := (habove q' hq' hne').mp hfile'
      rw [hnone q' hq' hne'] at this
      cases this
    · have := (habove q hq hne).mpr hfile
      rw [hnone' q hq hne] at this
      cases this
    · rw [herr, herr']

end Tree

end Files
