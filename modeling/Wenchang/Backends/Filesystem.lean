import Wenchang.Files.Tree
import Wenchang.Interaction.Crash
import Wenchang.Paths
import Wenchang.Py.Json
import Wenchang.Storage

/-!
# `FilesystemStorage`

The methods of `FilesystemStorage` as programs over `FsSig`, the system calls that they make. An object
is a body file and a JSON sidecar under the path that its key encodes to, and each is replaced by a
rename of its own. `Disk` and `onDisk` say how a filesystem answers these calls, which of them may fail,
and what a call that is cut short leaves.
-/

namespace Wenchang

open Py Ordered Files Interaction

/-! ## File names -/

/-- `_BODY_SUFFIX`. -/
def bodySuffix : Str := str "%obj"

/-- `_SIDECAR_SUFFIX`. -/
def sidecarSuffix : Str := str "%meta"

/-- `_LOCK_NAME`. -/
def lockName : Str := str ".lock"

/-- `_TEMP_PREFIX`. -/
def tempPrefix : Str := str ".tmp-"

/-- `_MAX_SEGMENT_BYTES`. -/
def maxSegmentBytes : Nat := 200

/-- A byte that is in `_LITERAL`: a lowercase letter, a digit, `_`, `-` or `.`. -/
def isLiteral (b : Byte) : Bool :=
  (97 ≤ b.val && b.val ≤ 122) || (48 ≤ b.val && b.val ≤ 57) || b.val == 95 || b.val == 45 || b.val == 46

/-- An uppercase hexadecimal digit. -/
def upperHex (n : Nat) : CodePoint := Fin.ofNat _ (if n < 10 then 48 + n else 55 + n)

/-- The value of a digit in `_HEX`. -/
def upperHexValue (c : CodePoint) : Option Nat :=
  if 48 ≤ c.val ∧ c.val ≤ 57 then some (c.val - 48)
  else if 65 ≤ c.val ∧ c.val ≤ 70 then some (c.val - 55)
  else none

/-- How `_encode_segment` writes one byte; a `.` is literal only behind the first. -/
def encodeByte (first : Bool) (b : Byte) : Str :=
  if isLiteral b && !(first && b.val == 46) then [Fin.ofNat _ b.val]
  else [37, upperHex (b.val / 16), upperHex (b.val % 16)]

/-- `_encode_segment`. -/
def encodeSegment [Interpreter] (segment : Str) : Except Exc Str :=
  if segment = [] then .ok (str "%")
  else
    match utf8Encode segment with
    | .error _ => .error (.invalidStorageKeyError
        (str "Key segment " ++ Py.repr segment ++ str " is not encodable as UTF-8."))
    | .ok [] => .ok []
    | .ok (b :: raw) =>
      let encoded := encodeByte true b ++ raw.flatMap (encodeByte false)
      if maxSegmentBytes < encoded.length then
        .error (.invalidStorageKeyError
          (str "Key segment encodes to more than " ++ Py.ofNat maxSegmentBytes ++ str " bytes."))
      else .ok encoded

/-- The byte loop of `_decode_segment`. -/
def unescapeName : Str → Option Bytes
  | [] => some []
  | c :: rest =>
    if c = 37 then
      match rest with
      | a :: b :: rest =>
        match upperHexValue a, upperHexValue b with
        | some high, some low => (unescapeName rest).map (byte (16 * high + low) :: ·)
        | _, _ => none
      | _ => none
    else if c.val < 128 then (unescapeName rest).map (byte c.val :: ·)
    else none

/-- `_decode_segment`. -/
def decodeSegment [Interpreter] (name : Str) : Option Str :=
  if name = str "%" then some []
  else
    match unescapeName name with
    | none => none
    | some raw =>
      match utf8Decode raw with
      | .error _ => none
      | .ok decoded =>
        match encodeSegment decoded with
        | .error _ => none
        | .ok canonical => if canonical = name then some decoded else none

/-! ## System calls -/

/-- An `OSError`. -/
structure OsError where
  errno : Errno
  text : Str
  deriving DecidableEq

/-- A path below the storage's root. -/
abbrev FilePath := Files.Path Str

/-- A system call, or a draw from `uuid4`. -/
inductive FsOp where
  | uuid4
  /-- `os.open` of the lock file and `fcntl.flock`. -/
  | lock (exclusive : Bool)
  | readBytes (path : FilePath)
  | isDir (path : FilePath)
  | mkdir (path : FilePath)
  /-- `open(path, "xb")`. -/
  | create (path : FilePath)
  /-- `handle.write(data)` on the file just created. -/
  | write (path : FilePath) (data : Bytes)
  | replace (src dst : FilePath)
  | unlink (path : FilePath)
  | rmdir (path : FilePath)
  | scandir (path : FilePath)
  deriving DecidableEq

/-- What a call returns, or the `OSError` it raises. A listing tells the files from the directories. -/
abbrev FsOp.Ans : FsOp → Type
  | .uuid4 => Str
  | .isDir _ => Bool
  | .readBytes _ => Except OsError Bytes
  | .scandir _ => Except OsError (List (Str × Bool))
  | _ => Except OsError Unit

/-- The interface of a `FilesystemStorage` to the operating system. -/
abbrev FsSig : Sig := ⟨FsOp, FsOp.Ans⟩

/-- An exception inside a method: an `OSError`, or one that the caller sees. -/
inductive FsExc where
  | os (error : OsError)
  | exc (exc : Exc)
  deriving DecidableEq

/-- A program inside a method. -/
abbrev Fs (α : Type) := Prog FsSig FsExc α

/-- One call, returning its answer. -/
def sys (op : FsOp) : Fs op.Ans := .vis op .ret

/-- An `OSError` is raised. -/
def orRaise {α : Type} (answer : Except OsError α) : Fs α := .ofExcept (answer.mapError .os)

/-- `path.unlink(missing_ok=True)`. -/
def unlinkMissingOk (path : FilePath) : Fs Unit := do
  match ← sys (.unlink path) with
  | .ok () => return ()
  | .error e => if e.errno = .enoent then return () else .raise (.os e)

/-- `path.mkdir(exist_ok=True)`. -/
def mkdirExistOk (path : FilePath) : Fs Unit := do
  match ← sys (.mkdir path) with
  | .ok () => return ()
  | .error e =>
    if e.errno = .enoent then .raise (.os e)
    else
      match ← sys (.isDir path) with
      | true => return ()
      | false => .raise (.os e)

/-- `path.mkdir(parents=True, exist_ok=True)`. -/
def mkdirParents (path : FilePath) : Fs Unit := do
  match ← sys (.mkdir path) with
  | .ok () => return ()
  | .error e =>
    if e.errno = .enoent then
      match path with
      | [] => .raise (.os e)
      | name :: parent => do
        mkdirParents parent
        mkdirExistOk (name :: parent)
    else
      match ← sys (.isDir path) with
      | true => return ()
      | false => .raise (.os e)

/-- `_Sidecar`. -/
structure Sidecar where
  version : Str
  metadata : Metadata
  deriving DecidableEq

/-- The text of `json.dumps` of a sidecar. `_FORMAT` is 1. -/
def sidecarText (sidecar : Sidecar) : Str :=
  dumpsObject (str ", ") (str ": ")
    [(str "format", str "1"),
      (str "metadata", dumpsObject (str ", ") (str ": ")
        (sidecar.metadata.entries.map fun e => (e.1, dumpsStr e.2))),
      (str "version", dumpsStr sidecar.version)]

/-- The bytes of a sidecar. The text is ASCII, so they are its UTF-8. -/
def sidecarBytes (sidecar : Sidecar) : Bytes := utf8EncodePass (sidecarText sidecar)

/-- A dict of a JSON object whose values are all str. -/
def stringMap (members : List (Str × Json)) : Option Metadata :=
  let dict : FinMap Str Json := members.foldl (fun d m => d.insert m.1 m.2) .empty
  dict.entries.foldlM (fun m e => match e.2 with
    | .str value => some (m.insert e.1 value)
    | _ => none) .empty

/-- A `FilesystemStorage`: its root, and how deep the interpreter lets `_collect` recurse. -/
structure FilesystemStorage where
  root : Str
  frames : Nat

namespace FilesystemStorage

variable [Interpreter] (fs : FilesystemStorage)

/-- `str(path)`. -/
def pathText (path : FilePath) : Str := join [slash] (fs.root :: path.reverse)

/-- `_corrupt`. -/
def corrupt (path : FilePath) (problem : Str) : Exc :=
  .backendUnavailableError .unavailable
    (str "Invalid sidecar " ++ fs.pathText path ++ str ": " ++ problem)

/-- What `_read_sidecar` makes of the bytes of a sidecar. -/
def parseSidecar (path : FilePath) (raw : Bytes) : Except Exc Sidecar :=
  match utf8Decode raw with
  | .error e => .error (fs.corrupt path e.message)
  | .ok text =>
    match jsonLoads text with
    | .error .tooDeep => .error .recursionError
    | .error _ => .error (fs.corrupt path (Interpreter.jsonErrorText text))
    | .ok (.obj fields) =>
      match jsonGet fields (str "version"), jsonGet fields (str "metadata") with
      | some (.str version), some (.obj members) =>
        match stringMap members with
        | some metadata => .ok ⟨version, metadata⟩
        | none => .error (fs.corrupt path (str "metadata is not a string map"))
      | some (.str _), _ => .error (fs.corrupt path (str "missing metadata"))
      | _, _ => .error (fs.corrupt path (str "missing version"))
    | .ok _ => .error (fs.corrupt path (str "not an object"))

/-- `_read_sidecar`. -/
def readSidecar (path : FilePath) : Fs (Option Sidecar) := do
  match ← sys (.readBytes path) with
  | .error e => if e.errno = .enoent then return none else .raise (.os e)
  | .ok raw =>
    let sidecar ← Prog.ofExcept ((fs.parseSidecar path raw).mapError FsExc.exc)
    return some sidecar

/-- `_write_temp`. -/
def writeTemp (directory : FilePath) (data : Bytes) : Fs FilePath := do
  let name ← sys .uuid4
  let path := (tempPrefix ++ name) :: directory
  orRaise (← sys (.create path))
  orRaise (← sys (.write path data))
  return path

/-- `_locked`. Closing the lock file is not modelled. -/
def locked (exclusive : Bool) : Fs Unit := do orRaise (← sys (.lock exclusive))

/-- `except OSError as exc: raise _unavailable(exc)`. -/
def unavailable {α : Type} (p : Fs α) : Prog FsSig Exc α := do
  match ← p.attempt with
  | .ok a => return a
  | .error (.os e) => .raise (.backendUnavailableError .unavailable e.text)
  | .error (.exc e) => .raise e

/-- `_locate`: the parent directory of a key's files, and the leaf of their names. -/
def locate (key : Str) : Except Exc (FilePath × Str) :=
  if key = [] then .error (.invalidStorageKeyError (str "Key must not be empty."))
  else do
    let segments ← (key.splitOn slash).mapM encodeSegment
    return (segments.dropLast.reverse, segments.getLast?.getD [])

/-- `get`. -/
def get (key : Str) : Prog FsSig Exc (Option StoredObject) := do
  let (directory, leaf) ← Prog.ofExcept (locate key)
  unavailable do
    locked false
    match ← fs.readSidecar ((leaf ++ sidecarSuffix) :: directory) with
    | none => return none
    | some sidecar =>
      let bodyPath := (leaf ++ bodySuffix) :: directory
      match ← sys (.readBytes bodyPath) with
      | .ok data => return some ⟨data, sidecar.metadata, sidecar.version⟩
      | .error e =>
        if e.errno = .enoent then
          .raise (.exc (.backendUnavailableError .unavailable
            (str "Missing body file " ++ fs.pathText bodyPath ++ str ".")))
        else .raise (.os e)

/-- The cleanup of `_write`: the temp files are unlinked, and the exception goes on. -/
def cleanup {α : Type} (temps : List FilePath) (e : FsExc) : Fs α := do
  temps.forM unlinkMissingOk
  .raise e

/-- `_write`. -/
def write (directory : FilePath) (leaf : Str) (data : Bytes) (metadata : Metadata) : Fs Str := do
  let token ← sys .uuid4
  match ← (mkdirParents directory).attempt with
  | .error e => cleanup [] e
  | .ok () =>
    match ← (writeTemp directory data).attempt with
    | .error e => cleanup [] e
    | .ok bodyTmp =>
      match ← (writeTemp directory (sidecarBytes ⟨token, metadata⟩)).attempt with
      | .error e => cleanup [bodyTmp] e
      | .ok sidecarTmp =>
        match ← sys (.replace bodyTmp ((leaf ++ bodySuffix) :: directory)) with
        | .error e => cleanup [bodyTmp, sidecarTmp] (.os e)
        | .ok () =>
          match ← sys (.replace sidecarTmp ((leaf ++ sidecarSuffix) :: directory)) with
          | .error e => cleanup [bodyTmp, sidecarTmp] (.os e)
          | .ok () => return token

/-- `put`. -/
def put (key : Str) (data : Bytes) (metadata : Metadata) : Prog FsSig Exc Str := do
  let (directory, leaf) ← Prog.ofExcept (locate key)
  unavailable do
    locked true
    write directory leaf data metadata

/-- `put_if_version`. -/
def putIfVersion (key : Str) (data : Bytes) (metadata : Metadata) (expected : Option Str) :
    Prog FsSig Exc Str := do
  let (directory, leaf) ← Prog.ofExcept (locate key)
  unavailable do
    locked true
    let current ← fs.readSidecar ((leaf ++ sidecarSuffix) :: directory)
    Prog.raiseIf (current.map (·.version) ≠ expected) (.exc (.preconditionFailedError key))
    write directory leaf data metadata

/-- `_prune_empty`. -/
def pruneEmpty : FilePath → Fs Unit
  | [] => return ()
  | name :: parent => do
    match ← sys (.rmdir (name :: parent)) with
    | .ok () => pruneEmpty parent
    | .error _ => return ()

/-- `delete_if_version`. -/
def deleteIfVersion (key expected : Str) : Prog FsSig Exc Unit := do
  let (directory, leaf) ← Prog.ofExcept (locate key)
  unavailable do
    locked true
    let sidecarPath := (leaf ++ sidecarSuffix) :: directory
    let current ← fs.readSidecar sidecarPath
    Prog.raiseIf (current.map (·.version) ≠ some expected) (.exc (.preconditionFailedError key))
    orRaise (← sys (.unlink sidecarPath))
    unlinkMissingOk ((leaf ++ bodySuffix) :: directory)
    pruneEmpty directory

/-- One entry of the loop of `_collect`. -/
def collectEntry (descend : FilePath → Str → Fs (List (Str × FilePath))) (directory : FilePath)
    (keyPrefix part : Str) (entry : Str × Bool) : Fs (List (Str × FilePath)) :=
  let name := entry.1
  if (str ".").isPrefixOf name then return []
  else if sidecarSuffix.isSuffixOf name then
    match decodeSegment (name.take (name.length - sidecarSuffix.length)) with
    | some leaf =>
      return if part.isPrefixOf leaf && entry.2 then [(keyPrefix ++ leaf, name :: directory)] else []
    | none => return []
  else if bodySuffix.isSuffixOf name then return []
  else
    match decodeSegment name with
    | some dirname =>
      if part.isPrefixOf dirname && !entry.2 then
        descend (name :: directory) (keyPrefix ++ dirname ++ [slash])
      else return []
    | none => return []

/-- What a loop collects. -/
def collectAll (visit : Str × Bool → Fs (List (Str × FilePath))) :
    List (Str × Bool) → Fs (List (Str × FilePath))
  | [] => return []
  | entry :: entries => do
    let found ← visit entry
    let rest ← collectAll visit entries
    return found ++ rest

/-- `_collect`, with so many frames left. -/
def collect : Nat → FilePath → Str → Str → Fs (List (Str × FilePath))
  | 0, _, _, _ => .raise (.exc .recursionError)
  | frames + 1, directory, keyPrefix, part => do
    match ← sys (.scandir directory) with
    | .error e => if e.errno = .enoent ∨ e.errno = .enotdir then return [] else .raise (.os e)
    | .ok entries =>
      collectAll (collectEntry (fun path pre => collect frames path pre []) directory keyPrefix part)
        entries

/-- The loop of `list_page` over the keys of the page. -/
def readPage : List (Str × FilePath) → Fs (List ListedObject)
  | [] => return []
  | (key, path) :: keys => do
    match ← fs.readSidecar path with
    | none => .raise (.exc (fs.corrupt path (str "vanished during listing")))
    | some sidecar =>
      let rest ← readPage keys
      return ⟨key, sidecar.metadata, sidecar.version⟩ :: rest

/-- `list_page`. -/
def listPage (pre : Str) (startAfter : Option Str) (limit : Nat) :
    Prog FsSig Exc (List ListedObject) :=
  let segments := pre.splitOn slash
  let complete := segments.dropLast
  let part := segments.getLast?.getD []
  match complete.mapM encodeSegment with
  | .error _ => return []
  | .ok base => unavailable do
    locked false
    let found ← collect fs.frames base.reverse (joinSegments complete) part
    let keys := found.filter fun e => pre.isPrefixOf e.1 && startAfter.all (· < e.1)
    fs.readPage ((keys.insertionSort fun e e' => e.1 ≤ e'.1).take limit)

/-- One operation of the protocol. -/
def perform : (o : StorageOp) → Prog FsSig Exc o.Ans
  | .get key => (fs.get key).attempt
  | .put key data metadata => (put key data metadata).attempt
  | .putIfVersion key data metadata expected => (fs.putIfVersion key data metadata expected).attempt
  | .deleteIfVersion key expected => (fs.deleteIfVersion key expected).attempt
  | .listPage pre startAfter limit => (fs.listPage pre startAfter limit).attempt

end FilesystemStorage

/-! ## The disk -/

/-- `uuid4().hex`. -/
def isUuidHex (s : Str) : Bool :=
  s.length == 32 && s.all fun c => (48 ≤ c.val && c.val ≤ 57) || (97 ≤ c.val && c.val ≤ 102)

/-- The tree under the root, the draws from `uuid4`, and the calls that the device has failed. -/
structure Disk where
  tree : Tree Str Bytes
  drawn : FinSet Str
  failed : List FsOp

namespace Disk

/-- A new root. -/
def empty : Disk := ⟨.empty, .empty, []⟩

/-- What a call does that changes the tree or is refused. -/
inductive Does (d : Disk) : Except Errno (Tree Str Bytes) → Except OsError Unit → Disk → Prop
  | done (t : Tree Str Bytes) : Does d (.ok t) (.ok ()) { d with tree := t }
  | refused (errno : Errno) (text : Str) : Does d (.error errno) (.error ⟨errno, text⟩) d

/-- `os.open` of the lock file, which is made where there is none. -/
def openLock (t : Tree Str Bytes) : Except Errno (Tree Str Bytes) :=
  if t.isDir [lockName] = true then .error .eisdir
  else if (t.file? [lockName]).isSome = true then .ok t
  else t.create [lockName] []

/-- How a filesystem answers. A directory is listed in any order. -/
def answers (d : Disk) : (o : FsOp) → o.Ans → Disk → Prop
  | .uuid4, a, d' => isUuidHex a = true ∧ a ∉ d.drawn ∧ d' = { d with drawn := d.drawn.insert a }
  | .lock _, a, d' => d.Does (openLock d.tree) a d'
  | .readBytes path, a, d' => d' = d ∧ a.mapError (·.errno) = d.tree.read path
  | .isDir path, a, d' => d' = d ∧ a = d.tree.isDir path
  | .mkdir path, a, d' => d.Does (d.tree.mkdir path) a d'
  | .create path, a, d' => d.Does (d.tree.create path []) a d'
  | .write path data, a, d' => d.Does (d.tree.write path data) a d'
  | .replace src dst, a, d' => d.Does (d.tree.replace src dst) a d'
  | .unlink path, a, d' => d.Does (d.tree.unlink path) a d'
  | .rmdir path, a, d' => d.Does (d.tree.rmdir path) a d'
  | .scandir path, a, d' => d' = d ∧ ((∃ errno text, d.tree.scandir path = .error errno ∧
      a = .error ⟨errno, text⟩) ∨ ∃ entries entries', d.tree.scandir path = .ok entries ∧
      a = .ok entries' ∧ entries'.Perm entries)

/-- What a write leaves that is cut short: the start of the data. -/
def cut (d : Disk) : FsOp → Disk → Prop
  | .write path data, d' => ∃ part t, part <+: data ∧ d.tree.write path part = .ok t ∧
      d' = { d with tree := t }
  | _, _ => False

/-- A step of a write that raises an `OSError` of the device. -/
def fails (d : Disk) (o : FsOp) (a : o.Ans) (d' : Disk) : Prop :=
  match o, a with
  | .mkdir path, a => d.tree.isDir path = false ∧ (∃ e, a = .error e ∧ e.errno ≠ .enoent) ∧
      d' = { d with failed := d.failed ++ [.mkdir path] }
  | .create path, a => (∃ e, a = .error e) ∧ d' = { d with failed := d.failed ++ [.create path] }
  | .write path data, a => (∃ e, a = .error e) ∧ ∃ part t, part <+: data ∧
      d.tree.write path part = .ok t ∧
      d' = { d with tree := t, failed := d.failed ++ [.write path data] }
  | .replace src dst, a => (∃ e, a = .error e) ∧
      d' = { d with failed := d.failed ++ [.replace src dst] }
  | _, _ => False

end Disk

/-- A filesystem; `faults` says whether the steps of a write may fail. -/
def onDisk (faults : Prop) : Mortal FsSig Disk where
  handles d o a d' := d.answers o a d' ∨ faults ∧ d.fails o a d'
  cut := Disk.cut

namespace Disk

/-- What an action comes to. -/
def perform (d : Disk) : Except Errno (Tree Str Bytes) → Except OsError Unit × Disk
  | .ok t => (.ok (), { d with tree := t })
  | .error errno => (.error ⟨errno, []⟩, d)

/-- What is performed is done. -/
theorem does_perform (d : Disk) (result : Except Errno (Tree Str Bytes)) :
    d.Does result (d.perform result).1 (d.perform result).2 := by
  cases result with
  | ok t => exact .done t
  | error errno => exact .refused errno []

/-- The next draw of a disk that counts them. -/
def nextDraw (d : Disk) : Str := hex 32 d.drawn.toList.length

/-- A disk that counts its draws, and on which nothing can be moved onto a broken path. -/
def answer (broken : FilePath → Bool) : (o : FsOp) → Disk → o.Ans × Disk
  | .uuid4, d => (d.nextDraw, { d with drawn := d.drawn.insert d.nextDraw })
  | .lock _, d => d.perform (openLock d.tree)
  | .readBytes path, d => ((d.tree.read path).mapError (⟨·, []⟩), d)
  | .isDir path, d => (d.tree.isDir path, d)
  | .mkdir path, d => d.perform (d.tree.mkdir path)
  | .create path, d => d.perform (d.tree.create path [])
  | .write path data, d => d.perform (d.tree.write path data)
  | .replace src dst, d =>
    if broken dst then (.error ⟨.other, []⟩, { d with failed := d.failed ++ [.replace src dst] })
    else d.perform (d.tree.replace src dst)
  | .unlink path, d => d.perform (d.tree.unlink path)
  | .rmdir path, d => d.perform (d.tree.rmdir path)
  | .scandir path, d => ((d.tree.scandir path).mapError (⟨·, []⟩), d)

/-- A draw is a new one. -/
def drawsNew (d : Disk) : FsOp → Bool
  | .uuid4 => isUuidHex d.nextDraw && !decide (d.nextDraw ∈ d.drawn)
  | _ => true

/-- What is answered is handled. -/
theorem handles_answer (broken : FilePath → Bool) (d : Disk) (o : FsOp) (h : d.drawsNew o = true) :
    (onDisk True).handles d o (answer broken o d).1 (answer broken o d).2 := by
  cases o with
  | uuid4 =>
    have hnew : isUuidHex d.nextDraw = true ∧ d.nextDraw ∉ d.drawn := by simpa [drawsNew] using h
    exact .inl ⟨hnew.1, hnew.2, rfl⟩
  | lock exclusive => exact .inl (d.does_perform _)
  | readBytes path =>
    refine .inl ⟨rfl, ?_⟩
    show ((d.tree.read path).mapError _).mapError _ = _
    cases d.tree.read path <;> rfl
  | isDir path => exact .inl ⟨rfl, rfl⟩
  | mkdir path => exact .inl (d.does_perform _)
  | create path => exact .inl (d.does_perform _)
  | write path data => exact .inl (d.does_perform _)
  | replace src dst =>
    by_cases hbroken : broken dst = true
    · have hans : answer broken (.replace src dst) d = _ := if_pos hbroken
      rw [hans]
      exact .inr ⟨trivial, ⟨_, rfl⟩, rfl⟩
    · have hans : answer broken (.replace src dst) d = _ := if_neg hbroken
      rw [hans]
      exact .inl (d.does_perform _)
  | unlink path => exact .inl (d.does_perform _)
  | rmdir path => exact .inl (d.does_perform _)
  | scandir path =>
    refine .inl ⟨rfl, ?_⟩
    show (∃ errno text, _ ∧ (d.tree.scandir path).mapError _ = _) ∨
      ∃ entries entries', _ ∧ (d.tree.scandir path).mapError _ = _ ∧ _
    cases hscan : d.tree.scandir path with
    | error errno => exact .inl ⟨errno, [], rfl, rfl⟩
    | ok entries => exact .inr ⟨entries, entries, rfl, rfl, .refl _⟩

end Disk

end Wenchang
