import Wenchang.Interaction.Prog
import Wenchang.Py.Json
import Wenchang.Py.Repr
import Wenchang.Objects

/-!
# `GcsStorage`

The methods of `GcsStorage` as programs over `GcsSig`, the calls of the GCS client that it makes. What
these calls do is not part of it: `Bucket` and `gcs` state what the client library documents. Every call
reads or writes the live object of a key, and a write gives it a generation greater than all before.
-/

namespace Wenchang

open Py Ordered Interaction

/-! ## The client -/

/-- The exceptions of a client call that are told apart. -/
inductive ClientError where
  | deadlineExceeded
  | gatewayTimeout
  | retryError
  | requestsTimeout
  | serviceUnavailable
  | internalServerError
  | badGateway
  | tooManyRequests
  | requestsConnectionError
  | preconditionFailed
  | notFound
  /-- Another `GoogleAPICallError`. -/
  | apiCall (typeName : Str) (code : Nat)
  /-- Any other exception. -/
  | other (typeName : Str)
  deriving DecidableEq

/-- An exception of a client call, with its text. -/
structure ClientException where
  error : ClientError
  text : Str
  deriving DecidableEq

/-- The name of an exception's class. -/
def ClientError.typeName : ClientError → Str
  | .deadlineExceeded => str "DeadlineExceeded"
  | .gatewayTimeout => str "GatewayTimeout"
  | .retryError => str "RetryError"
  | .requestsTimeout => str "Timeout"
  | .serviceUnavailable => str "ServiceUnavailable"
  | .internalServerError => str "InternalServerError"
  | .badGateway => str "BadGateway"
  | .tooManyRequests => str "TooManyRequests"
  | .requestsConnectionError => str "ConnectionError"
  | .preconditionFailed => str "PreconditionFailed"
  | .notFound => str "NotFound"
  | .apiCall typeName _ => typeName
  | .other typeName => typeName

/-- What `get_blob` and `list_blobs` return of an object; `metadata` may be `None`. -/
structure Blob where
  name : Str
  generation : Nat
  metadata : Option Metadata
  deriving DecidableEq

/-- `dict(blob.metadata or {})`. -/
def Blob.metadataDict (blob : Blob) : Metadata := blob.metadata.getD .empty

/-- `VersionToken(str(blob.generation))`. -/
def Blob.version (blob : Blob) : Str := Py.ofNat blob.generation

/-- A call of the client. -/
inductive GcsOp where
  | getBlob (key : Str)
  | downloadAsBytes (key : Str) (ifGenerationMatch : Nat)
  | uploadFromString (key : Str) (metadata : Metadata) (data : Bytes) (contentType : Str)
      (ifGenerationMatch : Option Nat)
  | delete (key : Str) (ifGenerationMatch : Nat)
  | listBlobs (pre : Str) (startOffset : Option Str) (maxResults : Nat)
  deriving DecidableEq

/-- What a call returns, or the exception it raises. An upload sets the blob's generation. -/
abbrev GcsOp.Ans : GcsOp → Type
  | .getBlob _ => Except ClientException (Option Blob)
  | .downloadAsBytes _ _ => Except ClientException Bytes
  | .uploadFromString _ _ _ _ _ => Except ClientException Nat
  | .delete _ _ => Except ClientException Unit
  | .listBlobs _ _ _ => Except ClientException (List Blob)

/-- The interface of a `GcsStorage` to the client. -/
abbrev GcsSig : Sig := ⟨GcsOp, GcsOp.Ans⟩

/-- A program of the backend. -/
abbrev Gcs (α : Type) := Prog GcsSig Exc α

/-- One call, returning its answer. -/
def client (op : GcsOp) : Gcs op.Ans := .vis op .ret

/-! ## Errors -/

/-- `_HTTP_REQUEST_TIMEOUT`. -/
def httpRequestTimeout : Nat := 408

/-- `_map_backend_error`. -/
def mapBackendError (exc : ClientException) : Option Exc :=
  match exc.error with
  | .deadlineExceeded | .gatewayTimeout | .retryError | .requestsTimeout =>
    some (.backendUnavailableError .timeout exc.text)
  | .apiCall _ code =>
    if code = httpRequestTimeout then some (.backendUnavailableError .timeout exc.text) else none
  | .serviceUnavailable | .internalServerError | .badGateway | .tooManyRequests
  | .requestsConnectionError => some (.backendUnavailableError .unavailable exc.text)
  | .preconditionFailed | .notFound | .other _ => none

/-- `raise` if the exception is not mapped, else `raise mapped`. -/
def ClientException.raised (exc : ClientException) : Exc :=
  (mapBackendError exc).getD (.foreign exc.error.typeName)

/-! ## Tokens -/

/-- `_GENERATION_TOKEN_RE.fullmatch(token)`. -/
def isGenerationToken : Str → Bool
  | [] => false
  | c :: rest => 49 ≤ c.val && c.val ≤ 57 && rest.all isDigit

/-- The number that decimal digits write. -/
def ofDigits (digits : Str) : Nat := digits.foldl (fun n c => 10 * n + (c.val - 48)) 0

/-- `int(token)` of a generation token. -/
def intOfToken (token : Str) : Except Exc Nat :=
  if intMaxStrDigits < token.length then
    .error (.valueError (str "Exceeds the limit (4300 digits) for integer string conversion: value has " ++
      Py.ofNat token.length ++ str " digits; use sys.set_int_max_str_digits() to increase the limit"))
  else .ok (ofDigits token)

/-- The generation an expected token stands for. A token that no generation is written as matches none. -/
def generationOf (key expected : Str) : Except Exc Nat :=
  if isGenerationToken expected = false then .error (.preconditionFailedError key)
  else intOfToken expected

namespace GcsStorage

variable [Interpreter]

/-- `_GET_RETRY_ATTEMPTS`. -/
def getRetryAttempts : Nat := 3

/-- `_CONTENT_TYPE`. -/
def contentType : Str := str "text/markdown; charset=utf-8"

/-- The attempts of `get` that are left. -/
def getAttempts (key : Str) : Nat → Gcs (Option StoredObject)
  | 0 => .raise (.backendUnavailableError .unavailable
      (str "Repeated generation conflicts fetching " ++ Py.repr key ++ str "."))
  | attempts + 1 => do
    match ← client (.getBlob key) with
    | .error exc => .raise exc.raised
    | .ok none => return none
    | .ok (some blob) =>
      match ← client (.downloadAsBytes key blob.generation) with
      | .ok data => return some ⟨data, blob.metadataDict, blob.version⟩
      | .error exc =>
        if exc.error = .preconditionFailed ∨ exc.error = .notFound then getAttempts key attempts
        else .raise exc.raised

/-- `get`. -/
def get (key : Str) : Gcs (Option StoredObject) := getAttempts key getRetryAttempts

/-- `put`. -/
def put (key : Str) (data : Bytes) (metadata : Metadata) : Gcs Str := do
  match ← client (.uploadFromString key metadata data contentType none) with
  | .ok generation => return Py.ofNat generation
  | .error exc => .raise exc.raised

/-- `put_if_version`. -/
def putIfVersion (key : Str) (data : Bytes) (metadata : Metadata) (expected : Option Str) :
    Gcs Str := do
  let generation ← Prog.ofExcept (match expected with
    | none => .ok 0
    | some expected => generationOf key expected)
  match ← client (.uploadFromString key metadata data contentType (some generation)) with
  | .ok generation => return Py.ofNat generation
  | .error exc =>
    if exc.error = .preconditionFailed then .raise (.preconditionFailedError key)
    else .raise exc.raised

/-- `delete_if_version`. -/
def deleteIfVersion (key expected : Str) : Gcs Unit := do
  let generation ← Prog.ofExcept (generationOf key expected)
  match ← client (.delete key generation) with
  | .ok () => return ()
  | .error exc =>
    if exc.error = .preconditionFailed ∨ exc.error = .notFound then
      .raise (.preconditionFailedError key)
    else .raise exc.raised

/-- `list_page`. -/
def listPage (pre : Str) (startAfter : Option Str) (limit : Nat) : Gcs (List ListedObject) := do
  match ← client (.listBlobs pre startAfter (limit + 1)) with
  | .error exc => .raise exc.raised
  | .ok blobs =>
    let behind := blobs.filter fun blob => startAfter ≠ some blob.name
    return (behind.map fun blob => ⟨blob.name, blob.metadataDict, blob.version⟩).take limit

/-- One operation of the protocol. -/
def perform : (o : StorageOp) → Gcs o.Ans
  | .get key => (get key).attempt
  | .put key data metadata => (put key data metadata).attempt
  | .putIfVersion key data metadata expected => (putIfVersion key data metadata expected).attempt
  | .deleteIfVersion key expected => (deleteIfVersion key expected).attempt
  | .listPage pre startAfter limit => (listPage pre startAfter limit).attempt

end GcsStorage

/-- A caller's call of one operation. -/
def GcsStorage.call [Interpreter] (o : StorageOp) : Gcs Answered := do
  return ⟨o, ← perform o⟩

/-! ## The bucket -/

/-- A live object. -/
structure GcsObject where
  data : Bytes
  metadata : Metadata
  generation : Nat
  deriving DecidableEq

/-- A bucket: its live objects, and the last generation it gave out. -/
structure Bucket where
  objects : FinMap Str GcsObject
  last : Nat
  given : ∀ k o, objects.get? k = some o → 0 < o.generation ∧ o.generation ≤ last

/-- A blob as the client builds it of a live object. -/
structure Blob.Shows (blob : Blob) (key : Str) (o : GcsObject) : Prop where
  name : blob.name = key
  generation : blob.generation = o.generation
  metadata : blob.metadataDict = o.metadata

namespace Bucket

/-- A new bucket. -/
def empty : Bucket where
  objects := .empty
  last := 0
  given _ _ h := nomatch h

/-- The live object of a key. -/
def live (b : Bucket) (key : Str) : Option GcsObject := b.objects.get? key

/-- The live generation, 0 where there is none. -/
def generation (b : Bucket) (key : Str) : Nat := ((b.live key).map (·.generation)).getD 0

/-- The live generation of a key is `g`. -/
def At (b : Bucket) (key : Str) (g : Nat) : Prop := ∃ o, b.live key = some o ∧ o.generation = g

/-- A write gives its object the generation `g`. -/
def write (b : Bucket) (key : Str) (data : Bytes) (metadata : Metadata) (g : Nat) (hg : b.last < g) :
    Bucket where
  objects := b.objects.insert key ⟨data, metadata, g⟩
  last := g
  given k o h := by
    rw [FinMap.get?_insert] at h
    split at h
    · rw [← Option.some.inj h]
      exact ⟨Nat.zero_lt_of_lt hg, Nat.le_refl g⟩
    · obtain ⟨hpos, hle⟩ := b.given k o h
      exact ⟨hpos, Nat.le_trans hle (Nat.le_of_lt hg)⟩

/-- The live object of a key is deleted. -/
def remove (b : Bucket) (key : Str) : Bucket where
  objects := b.objects.erase key
  last := b.last
  given k o h := by
    rw [FinMap.get?_erase] at h
    split at h
    · cases h
    · exact b.given k o h

/-- After a write its name has the new blob and every other name its own. -/
theorem live_write (b : Bucket) (key k : Str) (data : Bytes) (metadata : Metadata) {g : Nat}
    (hg : b.last < g) : (b.write key data metadata g hg).live k =
      if k = key then some ⟨data, metadata, g⟩ else b.live k := FinMap.get?_insert _ _ _ _

/-- After a delete its name has no blob and every other name its own. -/
theorem live_remove (b : Bucket) (key k : Str) :
    (b.remove key).live k = if k = key then none else b.live k := FinMap.get?_erase _ _ _

/-- A name has generation zero where it has no blob. -/
theorem generation_eq_zero {b : Bucket} {key : Str} : b.generation key = 0 ↔ b.live key = none := by
  unfold generation
  cases hlive : b.live key with
  | none => simp
  | some o =>
    have hpos := (b.given key o hlive).1
    simp
    omega

/-- A name has a generation where its blob has it. -/
theorem generation_eq_pos {b : Bucket} {key : Str} {g : Nat} (hg : 0 < g) :
    b.generation key = g ↔ b.At key g := by
  unfold generation At
  cases b.live key with
  | none => simp; omega
  | some o => simp

/-- The keys of a listing: those under a prefix, in UTF-8 byte order from an offset on. -/
def InListing (b : Bucket) (pre : Str) (startOffset : Option Str) (key : Str) : Prop :=
  (b.live key).isSome = true ∧ pre.isPrefixOf key = true ∧
    ∀ offset, startOffset = some offset → utf8EncodePass offset ≤ utf8EncodePass key

/-- What `list_blobs` returns: the first of a listing, as many as asked for. -/
structure Lists (b : Bucket) (pre : Str) (startOffset : Option Str) (maxResults : Nat)
    (blobs : List Blob) : Prop where
  shows : ∀ blob ∈ blobs, ∃ o, b.live blob.name = some o ∧ blob.Shows blob.name o
  inListing : ∀ blob ∈ blobs, b.InListing pre startOffset blob.name
  sorted : blobs.Pairwise fun blob blob' => utf8EncodePass blob.name < utf8EncodePass blob'.name
  atMost : blobs.length ≤ maxResults
  first : ∀ key, b.InListing pre startOffset key → (∃ blob ∈ blobs, blob.name = key) ∨
    blobs.length = maxResults ∧ ∀ blob ∈ blobs, utf8EncodePass blob.name < utf8EncodePass key

/-- What may become of a bucket: generations grow, and an object that still has an old generation is the
old object. -/
structure Later (b b' : Bucket) : Prop where
  last_le : b.last ≤ b'.last
  old : ∀ k o, b'.live k = some o → o.generation ≤ b.last → b.live k = some o

/-- A bucket is later than itself. -/
theorem Later.refl (b : Bucket) : Later b b := ⟨Nat.le_refl _, fun _ _ h _ => h⟩

/-- Later than later is later. -/
theorem Later.trans {b₁ b₂ b₃ : Bucket} (h : Later b₁ b₂) (h' : Later b₂ b₃) : Later b₁ b₃ where
  last_le := Nat.le_trans h.last_le h'.last_le
  old k o ho hle := h.old k o (h'.old k o ho (Nat.le_trans hle h.last_le)) hle

/-- A write leads to a later bucket. -/
theorem later_write (b : Bucket) (key : Str) (data : Bytes) (metadata : Metadata) {g : Nat}
    (hg : b.last < g) : Later b (b.write key data metadata g hg) where
  last_le := Nat.le_of_lt hg
  old k o ho hle := by
    rw [live_write] at ho
    split at ho
    · rw [← Option.some.inj ho] at hle
      exact absurd hle (Nat.not_le.mpr hg)
    · exact ho

/-- A delete leads to a later bucket. -/
theorem later_remove (b : Bucket) (key : Str) : Later b (b.remove key) where
  last_le := Nat.le_refl _
  old k o ho _ := by
    rw [live_remove] at ho
    split at ho
    · cases ho
    · exact ho

/-- **A generation names one object for ever.** -/
theorem Later.object_eq {b b' : Bucket} (h : Later b b') {k : Str} {o o' : GcsObject}
    (ho : b.live k = some o) (ho' : b'.live k = some o') (hg : o'.generation = o.generation) : o' = o := by
  have hold := h.old k o' ho' (hg ▸ (b.given k o ho).2)
  exact Option.some.inj (hold.symm.trans ho)

/-- A blob of a live object. -/
def blob (key : Str) (o : GcsObject) : Blob := ⟨key, o.generation, some o.metadata⟩

/-- A blob shows the object it is of. -/
theorem blob_shows (key : Str) (o : GcsObject) : (blob key o).Shows key o := ⟨rfl, rfl, rfl⟩

/-- The listing as blobs, in the order of the keys. -/
def blobs (b : Bucket) (pre : Str) (startOffset : Option Str) : List Blob :=
  (b.objects.entries.filter fun e => pre.isPrefixOf e.1 && startOffset.all (· ≤ e.1)).map
    fun e => blob e.1 e.2

/-- A listing has the live blobs of its names. -/
theorem mem_blobs {b : Bucket} {pre : Str} {startOffset : Option Str} {blob : Blob} :
    blob ∈ b.blobs pre startOffset ↔ ∃ o, b.live blob.name = some o ∧
      blob = Bucket.blob blob.name o ∧ b.InListing pre startOffset blob.name := by
  have hoffset : ∀ key : Str, startOffset.all (· ≤ key) = true ↔ ∀ offset, startOffset = some offset →
      utf8EncodePass offset ≤ utf8EncodePass key := fun key => by
    cases startOffset <;> simp [utf8EncodePass_strictMono.le_iff_le]
  simp only [blobs, List.mem_map, List.mem_filter, Bool.and_eq_true, hoffset, InListing]
  constructor
  · rintro ⟨⟨key, o⟩, ⟨hmem, hlist⟩, rfl⟩
    have hlive : b.live key = some o := FinMap.get?_eq_some.mpr hmem
    exact ⟨o, hlive, rfl, by simp [Bucket.blob, hlive], hlist⟩
  · rintro ⟨o, hlive, hblob, -, hlist⟩
    exact ⟨(blob.name, o), ⟨FinMap.get?_eq_some.mp hlive, hlist⟩, hblob.symm⟩

/-- A listing is in the order of its names' bytes. -/
theorem sorted_blobs (b : Bucket) (pre : Str) (startOffset : Option Str) :
    (b.blobs pre startOffset).Pairwise fun blob blob' =>
      utf8EncodePass blob.name < utf8EncodePass blob'.name := by
  refine List.pairwise_map.mpr ((b.objects.sorted.filter _).imp fun h => ?_)
  exact utf8EncodePass_strictMono h

/-- The first blobs of the listing are what `list_blobs` returns. -/
theorem lists_blobs (b : Bucket) (pre : Str) (startOffset : Option Str) (maxResults : Nat) :
    b.Lists pre startOffset maxResults ((b.blobs pre startOffset).take maxResults) where
  shows blob hblob := by
    obtain ⟨o, hlive, hblob, -⟩ := mem_blobs.mp (List.mem_of_mem_take hblob)
    exact ⟨o, hlive, by rw [hblob]; exact blob_shows _ o⟩
  inListing blob hblob := by
    obtain ⟨o, -, -, hlist⟩ := mem_blobs.mp (List.mem_of_mem_take hblob)
    exact hlist
  sorted := (b.sorted_blobs pre startOffset).sublist (List.take_sublist _ _)
  atMost := List.length_take_le _ _
  first key hkey := by
    obtain ⟨o, hlive⟩ := Option.isSome_iff_exists.mp hkey.1
    have hmem : blob key o ∈ b.blobs pre startOffset := mem_blobs.mpr ⟨o, hlive, rfl, hkey⟩
    have hsorted := b.sorted_blobs pre startOffset
    rw [← List.take_append_drop maxResults (b.blobs pre startOffset)] at hmem hsorted
    rcases List.mem_append.mp hmem with htake | hdrop
    · exact .inl ⟨_, htake, rfl⟩
    · refine .inr ⟨?_, fun blob hblob => (List.pairwise_append.mp hsorted).2.2 blob hblob _ hdrop⟩
      have hlong : 0 < ((b.blobs pre startOffset).drop maxResults).length :=
        List.length_pos_of_mem hdrop
      rw [List.length_drop] at hlong
      rw [List.length_take]
      omega

end Bucket

/-- A write or delete of a key that a condition on its generation refuses. -/
def Refused {α : Type} (a : Except ClientException α) : Prop :=
  ∃ exc, a = .error exc ∧ (exc.error = .preconditionFailed ∨ exc.error = .notFound)

/-- How a bucket answers. -/
def handlesGcs (b : Bucket) : (o : GcsOp) → o.Ans → Bucket → Prop
  | .getBlob key, a, b' => b' = b ∧ ((b.live key = none ∧ a = .ok none) ∨
    ∃ o blob, b.live key = some o ∧ a = .ok (some blob) ∧ blob.Shows key o)
  | .downloadAsBytes key g, a, b' => b' = b ∧
    ((∃ o, b.live key = some o ∧ o.generation = g ∧ a = .ok o.data) ∨ ¬ b.At key g ∧ Refused a)
  | .uploadFromString key metadata data _ ifGenerationMatch, a, b' =>
    (∃ g, ∃ hg : b.last < g, (∀ m, ifGenerationMatch = some m → b.generation key = m) ∧ a = .ok g ∧
      b' = b.write key data metadata g hg) ∨
    ∃ m, ifGenerationMatch = some m ∧ b.generation key ≠ m ∧ b' = b ∧
      ∃ exc, a = .error exc ∧ exc.error = .preconditionFailed
  | .delete key g, a, b' =>
    (b.At key g ∧ a = .ok () ∧ b' = b.remove key) ∨ (¬ b.At key g ∧ Refused a ∧ b' = b)
  | .listBlobs pre startOffset maxResults, a, b' => b' = b ∧
    ∃ blobs, a = .ok blobs ∧ b.Lists pre startOffset maxResults blobs

/-- A bucket that others may write to. -/
def gcs : Env GcsSig Bucket where
  handles := handlesGcs
  rely := Bucket.Later
  rely_refl := Bucket.Later.refl
  rely_trans := Bucket.Later.trans
  rely_of_handles := fun {b o a b'} h => by
    cases o with
    | getBlob key => exact h.1 ▸ .refl b
    | downloadAsBytes key g => exact h.1 ▸ .refl b
    | uploadFromString key metadata data contentType ifGenerationMatch =>
      rcases h with ⟨g, hg, -, -, rfl⟩ | ⟨m, -, -, rfl, -⟩
      · exact b.later_write key data metadata hg
      · exact .refl b'
    | delete key g =>
      rcases h with ⟨-, -, rfl⟩ | ⟨-, -, rfl⟩
      · exact b.later_remove key
      · exact .refl b'
    | listBlobs pre startOffset maxResults => exact h.1 ▸ .refl b

/-- A refusal. -/
def ClientException.preconditionFailed : ClientException := ⟨.preconditionFailed, []⟩

/-- A bucket that counts its writes. -/
def answerGcs : (o : GcsOp) → Bucket → o.Ans × Bucket
  | .getBlob key, b => (.ok ((b.live key).map (Bucket.blob key)), b)
  | .downloadAsBytes key g, b => ((match b.live key with
    | some o => if o.generation = g then .ok o.data else .error .preconditionFailed
    | none => .error .preconditionFailed), b)
  | .uploadFromString key metadata data _ ifGenerationMatch, b =>
    if ifGenerationMatch.all (b.generation key = ·) then
      (.ok (b.last + 1), b.write key data metadata (b.last + 1) (Nat.lt_succ_self _))
    else (.error .preconditionFailed, b)
  | .delete key g, b =>
    if (b.live key).any (·.generation = g) then (.ok (), b.remove key)
    else (.error .preconditionFailed, b)
  | .listBlobs pre startOffset maxResults, b =>
    (.ok ((b.blobs pre startOffset).take maxResults), b)

/-- A failed precondition is a refusal. -/
theorem refused_preconditionFailed {α : Type} :
    Refused (.error .preconditionFailed : Except ClientException α) := ⟨_, rfl, .inl rfl⟩

/-- It answers as a bucket does. -/
theorem handlesGcs_answerGcs (o : GcsOp) (b : Bucket) :
    handlesGcs b o (answerGcs o b).1 (answerGcs o b).2 := by
  cases o with
  | getBlob key =>
    refine ⟨rfl, ?_⟩
    cases hlive : b.live key with
    | none => exact .inl ⟨rfl, by simp [answerGcs, hlive]⟩
    | some o => exact .inr ⟨o, _, rfl, by simp [answerGcs, hlive], Bucket.blob_shows key o⟩
  | downloadAsBytes key g =>
    refine ⟨rfl, ?_⟩
    cases hlive : b.live key with
    | none =>
      refine .inr ⟨by simp [Bucket.At, hlive], ?_⟩
      simpa [answerGcs, hlive] using refused_preconditionFailed
    | some o =>
      by_cases hg : o.generation = g
      · exact .inl ⟨o, rfl, hg, by simp [answerGcs, hlive, hg]⟩
      · refine .inr ⟨by simp [Bucket.At, hlive, hg], ?_⟩
        simpa [answerGcs, hlive, hg] using refused_preconditionFailed
  | uploadFromString key metadata data contentType ifGenerationMatch =>
    by_cases h : ifGenerationMatch.all (b.generation key = ·) = true
    · have hans : answerGcs (.uploadFromString key metadata data contentType ifGenerationMatch) b = _ :=
        if_pos h
      rw [hans]
      refine .inl ⟨b.last + 1, Nat.lt_succ_self _, ?_, rfl, rfl⟩
      rintro m rfl
      simpa using h
    · have hans : answerGcs (.uploadFromString key metadata data contentType ifGenerationMatch) b = _ :=
        if_neg h
      rw [hans]
      cases ifGenerationMatch with
      | none => simp at h
      | some m => exact .inr ⟨m, rfl, by simpa using h, rfl, _, rfl, rfl⟩
  | delete key g =>
    have hat : (b.live key).any (·.generation = g) = true ↔ b.At key g := by
      simp [Bucket.At, Option.any_eq_true]
    by_cases h : (b.live key).any (·.generation = g) = true
    · have hans : answerGcs (.delete key g) b = _ := if_pos h
      rw [hans]
      exact .inl ⟨hat.mp h, rfl, rfl⟩
    · have hans : answerGcs (.delete key g) b = _ := if_neg h
      rw [hans]
      exact .inr ⟨fun hg => h (hat.mpr hg), refused_preconditionFailed, rfl⟩
  | listBlobs pre startOffset maxResults =>
    exact ⟨rfl, _, rfl, b.lists_blobs pre startOffset maxResults⟩

end Wenchang
