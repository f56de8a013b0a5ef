import Wenchang.Laws.GcsReads
import Wenchang.Ordered.Scan

/-!
# `GcsStorage` refines the protocol

Run by one caller, the backend does to a bucket's live objects what `Objects.step id` does to a map of
objects, each write under the decimal text of the generation it got. Three things differ on the way: a
token is compared as a number, so a text that no generation is written as must never reach the
comparison; a listing starts at its offset, so one blob more is asked for and the offset's own is
dropped; and it is in the order of bytes, which is that of the code points.
-/

namespace Wenchang

open Py Ordered Interaction

/-! ## Tokens -/

/-- A number of one digit is written as it. -/
theorem ofNat_digit {d : Nat} (h : d < 10) : Py.ofNat d = [Fin.ofNat _ (48 + d)] := by
  have hdigit : ∀ d < 10, codePoint (Nat.digitChar d) = Fin.ofNat _ (48 + d) := by decide
  rw [Py.ofNat, Nat.toDigits_of_lt_base h, List.map_singleton, hdigit d h]

/-- Another digit is written behind a positive number. -/
theorem ofNat_snoc {n d : Nat} (hn : 0 < n) (hd : d < 10) :
    Py.ofNat n ++ [Fin.ofNat _ (48 + d)] = Py.ofNat (10 * n + d) := by
  rw [← ofNat_digit hd]
  simp only [Py.ofNat, ← List.map_append, Nat.toDigits_append_toDigits (by decide) hn hd]

/-- Digits behind a number that has been read. -/
theorem ofNat_append_digits {digits : Str} (h : digits.all isDigit = true) {n : Nat} (hn : 0 < n) :
    Py.ofNat n ++ digits = Py.ofNat (digits.foldl (fun n c => 10 * n + (c.val - 48)) n) := by
  induction digits generalizing n with
  | nil => exact List.append_nil _
  | cons c digits ih =>
    obtain ⟨hc, hdigits⟩ := Bool.and_eq_true_iff.mp (List.all_cons.symm.trans h)
    obtain ⟨hlow, hhigh⟩ := Bool.and_eq_true_iff.mp hc
    have hlow := of_decide_eq_true hlow
    have hhigh := of_decide_eq_true hhigh
    have hdigit : (Fin.ofNat _ (48 + (c.val - 48)) : CodePoint) = c := by
      apply Fin.ext
      rw [Fin.val_ofNat]
      have := c.isLt
      omega
    calc Py.ofNat n ++ c :: digits = Py.ofNat n ++ [Fin.ofNat _ (48 + (c.val - 48))] ++ digits := by
          rw [hdigit, List.append_assoc, List.singleton_append]
      _ = Py.ofNat (10 * n + (c.val - 48)) ++ digits := by rw [ofNat_snoc hn (by omega)]
      _ = _ := by rw [ih hdigits (by omega), List.foldl_cons]

/-- **A token is the text of the generation it is read as.** -/
theorem ofNat_ofDigits {token : Str} (h : isGenerationToken token = true) :
    Py.ofNat (ofDigits token) = token := by
  cases token with
  | nil => cases h
  | cons c rest =>
    obtain ⟨hfirst, hrest⟩ := Bool.and_eq_true_iff.mp h
    obtain ⟨hlow, hhigh⟩ := Bool.and_eq_true_iff.mp hfirst
    have hlow := of_decide_eq_true hlow
    have hhigh := of_decide_eq_true hhigh
    have hc : Py.ofNat (c.val - 48) = [c] := by
      rw [ofNat_digit (by omega), List.singleton_inj]
      apply Fin.ext
      rw [Fin.val_ofNat]
      have := c.isLt
      omega
    rw [ofDigits, List.foldl_cons, Nat.mul_zero, Nat.zero_add, ← ofNat_append_digits hrest (by omega), hc,
      List.singleton_append]

/-- The text of a generation is a token. -/
theorem isGenerationToken_ofNat {n : Nat} (hn : 0 < n) : isGenerationToken (Py.ofNat n) = true := by
  induction n using Nat.strongRecOn with
  | ind n ih =>
    by_cases hsmall : n < 10
    · have hdigit : ∀ d < 10, 0 < d → isGenerationToken [Fin.ofNat _ (48 + d)] = true := by decide
      rw [ofNat_digit hsmall]
      exact hdigit n hsmall hn
    · have hlast : n % 10 < 10 := Nat.mod_lt _ (by decide)
      have hinit : 0 < n / 10 := Nat.div_pos (Nat.le_of_not_lt hsmall) (by decide)
      have hdigit : ∀ d < 10, isDigit (Fin.ofNat _ (48 + d)) = true := by decide
      have htoken := ih (n / 10) (by omega) hinit
      have hsplit : Py.ofNat n = Py.ofNat (n / 10) ++ [Fin.ofNat _ (48 + n % 10)] := by
        rw [ofNat_snoc hinit hlast, Nat.div_add_mod]
      rw [hsplit]
      cases hdigits : Py.ofNat (n / 10) with
      | nil =>
        rw [hdigits] at htoken
        cases htoken
      | cons c rest =>
        rw [hdigits] at htoken
        simp only [isGenerationToken, List.cons_append, List.all_append, List.all_cons, List.all_nil,
          Bool.and_true, Bool.and_eq_true] at htoken ⊢
        exact ⟨htoken.1, htoken.2, hdigit _ hlast⟩

/-- The text of a generation is read as a positive number. -/
theorem ofDigits_pos {token : Str} (h : isGenerationToken token = true) : 0 < ofDigits token := by
  refine Nat.pos_of_ne_zero fun hzero => ?_
  have htext := ofNat_ofDigits h
  rw [hzero] at htext
  rw [← htext] at h
  revert h
  decide

/-- What is no generation's text is no token. -/
theorem not_isGenerationToken {token : Str} (h : ∀ g, 0 < g → token ≠ Py.ofNat g) :
    isGenerationToken token = false := by
  apply Bool.eq_false_iff.mpr
  intro htoken
  exact h _ (ofDigits_pos htoken) (ofNat_ofDigits htoken).symm

/-- The token an operation expects. -/
def StorageOp.expected? : StorageOp → Option Str
  | .putIfVersion _ _ _ expected => expected
  | .deleteIfVersion _ expected => some expected
  | _ => none

/-- The token an operation expects is one that `int` accepts. -/
def StorageOp.Short (o : StorageOp) : Prop := ∀ t, o.expected? = some t → t.length ≤ intMaxStrDigits

instance (o : StorageOp) : Decidable o.Short :=
  decidable_of_iff (o.expected?.all (·.length ≤ intMaxStrDigits) = true) (by
    unfold StorageOp.Short
    cases o.expected? <;> simp)

/-- What is no token is refused. -/
theorem generationOf_refused {key token : Str} (h : isGenerationToken token = false) :
    generationOf key token = .error (.preconditionFailedError key) := if_pos h

/-- A token that is short enough is read as its generation. -/
theorem generationOf_eq {key token : Str} (h : isGenerationToken token = true)
    (hlen : token.length ≤ intMaxStrDigits) : generationOf key token = .ok (ofDigits token) := by
  rw [generationOf, if_neg (by simp [h]), intOfToken, if_neg (Nat.not_lt.mpr hlen)]

/-! ## The objects of a bucket -/

/-- The live objects as the protocol shows them. -/
def Bucket.stored (b : Bucket) : Objects := b.objects.map GcsObject.stored

section

variable {b : Bucket} {key : Str}

/-- What is stored of a key is its live blob, with the generation as a token. -/
theorem get?_stored : b.stored.get? key = (b.live key).map (·.stored) := FinMap.get?_map _ _ _

/-- A write stores its object with the text of its generation. -/
theorem stored_write {data : Bytes} {metadata : Metadata} {g : Nat} (hg : b.last < g) :
    (b.write key data metadata g hg).stored = b.stored.insert key ⟨data, metadata, Py.ofNat g⟩ :=
  FinMap.map_insert _ _ _ _

/-- A delete removes the object. -/
theorem stored_remove : (b.remove key).stored = b.stored.erase key := FinMap.map_erase _ _ _

/-- The token of a key is the text of its live generation. -/
theorem version_stored {t : Str} : b.stored.version key = some t ↔ ∃ g, b.At key g ∧ t = Py.ofNat g := by
  simp only [Objects.version_eq_some, get?_stored, Option.map_eq_some_iff, Bucket.At]
  constructor
  · rintro ⟨_, ⟨o, ho, rfl⟩, rfl⟩
    exact ⟨_, ⟨o, ho, rfl⟩, rfl⟩
  · rintro ⟨_, ⟨o, ho, rfl⟩, rfl⟩
    exact ⟨_, ⟨o, ho, rfl⟩, rfl⟩

/-- A key has no token where its generation is zero. -/
theorem version_stored_eq_none : b.stored.version key = none ↔ b.generation key = 0 := by
  rw [Bucket.generation_eq_zero, Objects.version, get?_stored, Option.map_eq_none_iff,
    Option.map_eq_none_iff]

/-- A text that no generation is written as is the token of no object. -/
theorem version_stored_ne {t : Str} (h : isGenerationToken t = false) : b.stored.version key ≠ some t := by
  intro hversion
  obtain ⟨g, ⟨o, ho, hg⟩, rfl⟩ := version_stored.mp hversion
  rw [isGenerationToken_ofNat (hg ▸ (b.given key o ho).1)] at h
  cases h

/-- **Generations are compared as their texts are.** -/
theorem version_stored_iff {t : Str} (h : isGenerationToken t = true) :
    b.stored.version key = some t ↔ b.At key (ofDigits t) := by
  rw [version_stored]
  constructor
  · rintro ⟨g, hat, ht⟩
    have hsame : ofDigits t = g := ofNat_injective ((ofNat_ofDigits h).trans ht)
    exact hsame ▸ hat
  · intro hat
    exact ⟨_, hat, (ofNat_ofDigits h).symm⟩

/-! ## Listings -/

/-- What `list_page` makes of a blob. -/
def Blob.listed (blob : Blob) : ListedObject := ⟨blob.name, blob.metadataDict, blob.version⟩

/-- The objects under a prefix from an offset on, as a listing shows them. -/
def Bucket.listedFrom (b : Bucket) (pre : Str) (startOffset : Option Str) : List ListedObject :=
  (b.stored.entries.filter fun e => pre.isPrefixOf e.1 && startOffset.all (· ≤ e.1)).map
    fun e => ⟨e.1, e.2.metadata, e.2.version⟩

variable {pre : Str}

/-- A listing is in the order of its keys. -/
theorem sorted_listedFrom (b : Bucket) (pre : Str) (startOffset : Option Str) :
    (b.listedFrom pre startOffset).Pairwise fun obj obj' => obj.key < obj'.key :=
  List.pairwise_map.mpr (b.stored.sorted.filter _)

/-- A listing has the live blobs of its names. -/
theorem mem_listedFrom {startOffset : Option Str} {obj : ListedObject} :
    obj ∈ b.listedFrom pre startOffset ↔ b.InListing pre startOffset obj.key ∧
      ∃ o, b.live obj.key = some o ∧ obj = ⟨obj.key, o.metadata, Py.ofNat o.generation⟩ := by
  have hoffset : ∀ key : Str, startOffset.all (· ≤ key) = true ↔ ∀ offset, startOffset = some offset →
      utf8EncodePass offset ≤ utf8EncodePass key := fun key => by
    cases startOffset <;> simp [utf8EncodePass_strictMono.le_iff_le]
  simp only [Bucket.listedFrom, List.mem_map, List.mem_filter, Bool.and_eq_true, hoffset, Bucket.InListing]
  constructor
  · rintro ⟨⟨key, o⟩, ⟨hmem, hlist⟩, rfl⟩
    have hget : (b.live key).map (·.stored) = some o := get?_stored.symm.trans (FinMap.get?_eq_some.mpr hmem)
    obtain ⟨o, ho, rfl⟩ := Option.map_eq_some_iff.mp hget
    exact ⟨⟨by rw [ho]; rfl, hlist⟩, o, ho, rfl⟩
  · rintro ⟨⟨-, hlist⟩, o, ho, hobj⟩
    have hget : b.stored.get? obj.key = some o.stored := by rw [get?_stored, ho]; rfl
    exact ⟨(obj.key, o.stored), ⟨FinMap.get?_eq_some.mp hget, hlist⟩, hobj.symm⟩

/-- **What `list_blobs` returns** is the start of the objects from the offset on. -/
theorem map_listed {startOffset : Option Str} {maxResults : Nat} {blobs : List Blob}
    (h : b.Lists pre startOffset maxResults blobs) :
    blobs.map Blob.listed = (b.listedFrom pre startOffset).take maxResults := by
  have hshows : ∀ blob ∈ blobs, ∃ o, b.live blob.name = some o ∧
      blob.listed = ⟨blob.name, o.metadata, Py.ofNat o.generation⟩ := fun blob hblob => by
    obtain ⟨o, ho, hshows⟩ := h.shows blob hblob
    refine ⟨o, ho, ?_⟩
    simp only [Blob.listed, Blob.version, hshows.metadata, hshows.generation]
  have hsorted : (blobs.map Blob.listed).Pairwise fun obj obj' => obj.key < obj'.key :=
    List.pairwise_map.mpr (h.sorted.imp fun hlt => utf8EncodePass_strictMono.lt_iff_lt.mp hlt)
  refine eq_take_of_first hsorted (sorted_listedFrom b pre startOffset) ?_ ?_ ?_
  · intro obj hobj
    obtain ⟨blob, hblob, rfl⟩ := List.mem_map.mp hobj
    exact mem_listedFrom.mpr ⟨h.inListing blob hblob, hshows blob hblob⟩
  · rw [List.length_map]
    exact h.atMost
  · intro obj hobj
    obtain ⟨hlist, o, ho, hobj⟩ := mem_listedFrom.mp hobj
    rw [List.length_map]
    rcases h.first obj.key hlist with ⟨blob, hblob, hname⟩ | ⟨hlen, hbefore⟩
    · obtain ⟨o', ho', hlisted⟩ := hshows blob hblob
      rw [hname, ho, Option.some.injEq] at ho'
      refine .inl (List.mem_map.mpr ⟨blob, hblob, ?_⟩)
      rw [hlisted, hname, ← ho', ← hobj]
    · refine .inr ⟨hlen, fun obj' hobj' => ?_⟩
      obtain ⟨blob, hblob, rfl⟩ := List.mem_map.mp hobj'
      exact utf8EncodePass_strictMono.lt_iff_lt.mp (hbefore blob hblob)

/-- The objects behind a key are those from it on without its own. -/
theorem listing_eq_filter (startAfter : Str) : b.stored.listing pre (some startAfter) =
    (b.listedFrom pre (some startAfter)).filter (·.key ≠ startAfter) := by
  have hbehind : ∀ key : Str, (pre.isPrefixOf key && decide (startAfter < key)) =
      (decide (key ≠ startAfter) && (pre.isPrefixOf key && decide (startAfter ≤ key))) := fun key => by
    rw [Bool.eq_iff_iff]
    simp only [Bool.and_eq_true, decide_eq_true_eq, lt_iff_le_and_ne]
    constructor
    · rintro ⟨hpre, hle, hne⟩
      exact ⟨hne.symm, hpre, hle⟩
    · rintro ⟨hne, hpre, hle⟩
      exact ⟨hpre, hle, hne.symm⟩
  simp only [Objects.listing, Bucket.listedFrom, Option.all_some, List.filter_map, List.filter_filter,
    Function.comp_def, hbehind]

/-- **One blob more is enough.** -/
theorem page_eq {startAfter : Option Str} {limit : Nat} {blobs : List Blob}
    (h : b.Lists pre startAfter (limit + 1) blobs) :
    ((blobs.filter fun blob => startAfter ≠ some blob.name).map Blob.listed).take limit =
      (b.stored.listing pre startAfter).take limit := by
  have hfilter : (blobs.filter fun blob => startAfter ≠ some blob.name).map Blob.listed =
      ((b.listedFrom pre startAfter).take (limit + 1)).filter fun obj => startAfter ≠ some obj.key := by
    rw [← map_listed h, List.filter_map]
    rfl
  rw [hfilter]
  cases startAfter with
  | none =>
    have hall : ∀ l : List ListedObject, (l.filter fun obj => none ≠ some obj.key) = l := fun l =>
      List.filter_eq_self.mpr fun obj _ => rfl
    have hnone : b.stored.listing pre none = b.listedFrom pre none := rfl
    rw [hall, hnone, List.take_take, Nat.min_eq_left (Nat.le_succ limit)]
  | some startAfter =>
    have hle : ∀ obj ∈ b.listedFrom pre (some startAfter), startAfter ≤ obj.key := fun obj hobj =>
      utf8EncodePass_strictMono.le_iff_le.mp ((mem_listedFrom.mp hobj).1.2.2 _ rfl)
    rw [listing_eq_filter]
    refine (take_filter_ne (sorted_listedFrom b _ _) hle (fun obj _ => ?_) limit).trans ?_
    · rw [decide_eq_true_eq, ne_eq, Option.some.injEq, ne_comm]
    · simp only [ne_eq, Option.some.injEq, eq_comm]

end

/-! ## One call -/

/-- What one operation of the protocol has made of a bucket; a write has the generation that is last
now. -/
structure Bucket.Performs (b : Bucket) (o : StorageOp) (a : o.Ans) (b' : Bucket) : Prop where
  step : Objects.step id (Py.ofNat b'.last) o b.stored = (a, b'.stored)
  token : ∀ t, o.token? a = some t → b.last < b'.last ∧ t = Py.ofNat b'.last
  same : o.token? a = none → b'.last = b.last

section

variable {b b' : Bucket} {key : Str}

/-- An operation that wrote. -/
theorem performs_write {o : StorageOp} {a : o.Ans} {data : Bytes} {metadata : Metadata} {g : Nat}
    (hg : b.last < g) (hstep : Objects.step id (Py.ofNat g) o b.stored =
      (a, b.stored.insert key ⟨data, metadata, Py.ofNat g⟩)) (htoken : o.token? a = some (Py.ofNat g)) :
    b.Performs o a (b.write key data metadata g hg) where
  step := by
    rw [stored_write]
    exact hstep
  token t ht := by
    rw [htoken, Option.some.injEq] at ht
    exact ⟨hg, ht.symm⟩
  same hnone := by
    rw [htoken] at hnone
    cases hnone

/-- An operation that left the bucket as it is. -/
theorem performs_same {o : StorageOp} {a : o.Ans}
    (hstep : Objects.step id (Py.ofNat b.last) o b.stored = (a, b.stored)) (htoken : o.token? a = none) :
    b.Performs o a b where
  step := hstep
  token t ht := by
    rw [htoken] at ht
    cases ht
  same _ := rfl

/-- The rule for an expected token: one that no generation is written as is refused. -/
theorem ends_generationOf {α : Type} {token : Str} {f : Nat → Gcs α} {Q : Except Exc α → Bucket → Prop}
    (hrefused : isGenerationToken token = false → Q (.error (.preconditionFailedError key)) b)
    (hread : isGenerationToken token = true → token.length ≤ intMaxStrDigits ∧
      (f (ofDigits token)).Ends handlesGcs Q b) :
    (Prog.ofExcept (generationOf key token) >>= f).Ends handlesGcs Q b := by
  by_cases htoken : isGenerationToken token = true
  · obtain ⟨hlen, hf⟩ := hread htoken
    rw [generationOf_eq htoken hlen]
    exact hf
  · have htoken := Bool.eq_false_iff.mpr htoken
    rw [generationOf_refused htoken]
    exact hrefused htoken

/-- An upload under a condition that says what the protocol's does. -/
theorem ends_upload {data : Bytes} {metadata : Metadata} {expected : Option Str} {m : Nat}
    (hm : b.stored.version key = expected ↔ b.generation key = m) :
    (client (.uploadFromString key metadata data GcsStorage.contentType (some m)) >>= fun answer =>
      match answer with
      | .ok generation => (Prog.ret (Py.ofNat generation) : Gcs Str)
      | .error exc =>
        if exc.error = .preconditionFailed then .raise (.preconditionFailedError key)
        else .raise exc.raised).Ends handlesGcs
      (fun r b' => b.Performs (.putIfVersion key data metadata expected) r b') b := by
  rintro a b' (⟨g, hg, hmatch, rfl, rfl⟩ | ⟨m', hm', hne, rfl, exc, rfl, hexc⟩)
  · exact performs_write hg (Objects.step_putIfVersion (hm.mpr (hmatch m rfl))) rfl
  · obtain rfl := Option.some.inj hm'
    show Prog.Ends _ _ (if exc.error = .preconditionFailed then _ else _) _
    rw [if_pos hexc]
    exact performs_same (Objects.step_putIfVersion_ne fun hversion => hne (hm.mp hversion)) rfl

variable [Interpreter]

/-- How a method ends that performs an operation. -/
abbrev Performed (b : Bucket) (o : StorageOp) (r : Except Exc o.Ans) (b' : Bucket) : Prop :=
  ∃ a, r = .ok a ∧ b.Performs o a b'

/-- A get performs the protocol's get. -/
theorem ends_perform_get (b : Bucket) (key : Str) : (GcsStorage.perform (.get key)).Ends handlesGcs
    (Performed b (.get key)) b := by
  refine (Prog.ends_attempt _ _ _).mpr ?_
  have hsame : ∀ found, found = b.stored.get? key → Performed b (.get key) (.ok (.ok found)) b :=
    fun found hfound => ⟨_, rfl, performs_same (by rw [hfound]; rfl) rfl⟩
  rintro a b₁ ⟨rfl, ⟨hlive, rfl⟩ | ⟨o, blob, hlive, rfl, hshows⟩⟩
  · exact hsame none (by rw [get?_stored, hlive]; rfl)
  · rintro a b₂ ⟨rfl, ⟨o', ho', -, rfl⟩ | ⟨hgone, -⟩⟩
    · refine hsame _ ?_
      rw [hlive, Option.some.injEq] at ho'
      rw [get?_stored, hlive, ← ho']
      simp only [Blob.version, hshows.metadata, hshows.generation, Option.map_some, GcsObject.stored]
    · -- Nothing happens to the bucket between the two calls.
      exact absurd ⟨o, hlive, hshows.generation.symm⟩ hgone

/-- A put performs the protocol's put. -/
theorem ends_perform_put (b : Bucket) (key : Str) (data : Bytes) (metadata : Metadata) :
    (GcsStorage.perform (.put key data metadata)).Ends handlesGcs
      (Performed b (.put key data metadata)) b := by
  refine (Prog.ends_attempt _ _ _).mpr ?_
  rintro a b' (⟨g, hg, -, rfl, rfl⟩ | ⟨m, hm, -⟩)
  · exact ⟨_, rfl, performs_write hg rfl rfl⟩
  · cases hm

/-- A conditional put performs the protocol's, or is refused as it is. -/
theorem ends_perform_putIfVersion (b : Bucket) (key : Str) (data : Bytes) (metadata : Metadata)
    {expected : Option Str} (hshort : ∀ t, expected = some t → t.length ≤ intMaxStrDigits) :
    (GcsStorage.perform (.putIfVersion key data metadata expected)).Ends handlesGcs
      (Performed b (.putIfVersion key data metadata expected)) b := by
  refine (Prog.ends_attempt _ _ _).mpr (Prog.Ends.mono ?_ fun r b' hr => ⟨r, rfl, hr⟩)
  cases expected with
  | none => exact ends_upload version_stored_eq_none
  | some t =>
    refine ends_generationOf (fun htoken => ?_) fun htoken => ⟨hshort t rfl, ends_upload ?_⟩
    · exact performs_same (Objects.step_putIfVersion_ne (version_stored_ne htoken)) rfl
    · rw [version_stored_iff htoken, Bucket.generation_eq_pos (ofDigits_pos htoken)]

/-- A conditional delete performs the protocol's, or is refused as it is. -/
theorem ends_perform_deleteIfVersion (b : Bucket) (key : Str) {expected : Str}
    (hshort : expected.length ≤ intMaxStrDigits) :
    (GcsStorage.perform (.deleteIfVersion key expected)).Ends handlesGcs
      (Performed b (.deleteIfVersion key expected)) b := by
  refine (Prog.ends_attempt _ _ _).mpr (Prog.Ends.mono ?_ fun r b' hr => ⟨r, rfl, hr⟩)
  refine ends_generationOf (fun htoken => ?_) fun htoken => ⟨hshort, ?_⟩
  · exact performs_same (Objects.step_deleteIfVersion_ne (version_stored_ne htoken)) rfl
  · rintro a b' (⟨hat, rfl, rfl⟩ | ⟨hgone, ⟨exc, rfl, hexc⟩, rfl⟩)
    · refine ⟨?_, nofun, fun _ => rfl⟩
      rw [stored_remove]
      exact Objects.step_deleteIfVersion ((version_stored_iff htoken).mpr hat)
    · show Prog.Ends _ _ (if _ ∨ _ then _ else _) _
      rw [if_pos hexc]
      refine performs_same (Objects.step_deleteIfVersion_ne fun hversion => ?_) rfl
      exact hgone ((version_stored_iff htoken).mp hversion)

/-- A page is the protocol's page. -/
theorem ends_perform_listPage (b : Bucket) (pre : Str) (startAfter : Option Str) (limit : Nat) :
    (GcsStorage.perform (.listPage pre startAfter limit)).Ends handlesGcs
      (Performed b (.listPage pre startAfter limit)) b := by
  refine (Prog.ends_attempt _ _ _).mpr ?_
  rintro a b' ⟨rfl, blobs, rfl, hlists⟩
  refine ⟨_, rfl, performs_same ?_ rfl⟩
  exact congrArg (fun page => (Except.ok page, b'.stored)) (page_eq hlists).symm

/-- **One call does what the protocol says**, whatever the bucket answers. -/
theorem ends_perform (b : Bucket) {o : StorageOp} (hshort : o.Short) :
    (GcsStorage.perform o).Ends handlesGcs (Performed b o) b := by
  cases o with
  | get key => exact ends_perform_get b key
  | put key data metadata => exact ends_perform_put b key data metadata
  | putIfVersion key data metadata expected => exact ends_perform_putIfVersion b key data metadata hshort
  | deleteIfVersion key expected => exact ends_perform_deleteIfVersion b key (hshort expected rfl)
  | listPage pre startAfter limit => exact ends_perform_listPage b pre startAfter limit

/-- **Every call performs its operation** of the protocol. -/
theorem ends_call (b : Bucket) {o : StorageOp} (hshort : o.Short) :
    (GcsStorage.call o).Ends handlesGcs (fun r b' => ∃ a, r = .ok ⟨o, a⟩ ∧ b.Performs o a b') b := by
  refine (Prog.ends_bind _ _ _ _).mpr ((ends_perform b hshort).mono ?_)
  rintro r b' ⟨a, rfl, ha⟩
  exact ⟨a, rfl, ha⟩

end

/-! ## Every history -/

/-- The text of a generation that is greater than all before. -/
def NextGeneration (issued : List Str) (t : Str) : Prop :=
  ∃ g, 0 < g ∧ t = Py.ofNat g ∧ ∀ g', Py.ofNat g' ∈ issued → g' < g

/-- A store with the objects of a bucket, whose tokens are generations that the bucket gave out. -/
structure Bucket.Refines (b : Bucket) (s : Issuing) : Prop where
  objects : s.objects = b.stored
  issued : ∀ g, Py.ofNat g ∈ s.issued → g ≤ b.last

/-- What is performed on a bucket is a step of the protocol. -/
theorem Bucket.Performs.refines {b b' : Bucket} {o : StorageOp} {a : o.Ans} {s : Issuing}
    (h : b.Performs o a b') (hs : b.Refines s) :
    ∃ s', issuing id NextGeneration s o a s' ∧ b'.Refines s' := by
  refine ⟨⟨b'.stored, (o.token? a).toList ++ s.issued⟩, ⟨Py.ofNat b'.last, ?_, fun t ht => ?_, rfl⟩, rfl,
    fun g hg => ?_⟩
  · rw [hs.objects]
    exact h.step
  · obtain ⟨hlast, rfl⟩ := h.token t ht
    exact ⟨_, Nat.zero_lt_of_lt hlast, rfl, fun g hg => (hs.issued g hg).trans_lt hlast⟩
  · cases ht : o.token? a with
    | none =>
      rw [ht] at hg
      rw [h.same ht]
      exact hs.issued g hg
    | some t =>
      obtain ⟨hlast, rfl⟩ := h.token t ht
      rw [ht] at hg
      rcases List.mem_cons.mp hg with hg | hg
      · exact (ofNat_injective hg).le
      · exact (hs.issued g hg).trans hlast.le

/-- **`GcsStorage` refines the protocol.** What a history of calls returned and raised is what the
in-memory semantics returns and raises for them, with the decimal texts of growing generations as its
tokens and tokens compared as strings, and it leaves the same objects. Every further call comes to an end.
A token that is not the text of a positive number is refused, and a listing is a page of these objects. -/
theorem gcs_refines [Interpreter] {calls : List (StorageOp × Except Exc Answered)} {b : Bucket}
    (hist : History handlesGcs GcsStorage.call Bucket.empty calls b)
    (hshort : ∀ o ∈ calls.map (·.1), o.Short) :
    (∃ s, History (issuing id NextGeneration) StorageOp.call Issuing.empty calls s ∧ s.objects = b.stored) ∧
      (∀ o : StorageOp, o.Short → (GcsStorage.call o).Ends handlesGcs (fun _ _ => True) b) ∧
      (∀ t : Str, (∀ g, 0 < g → t ≠ Py.ofNat g) → ∀ key,
        (∀ data metadata, (GcsStorage.putIfVersion key data metadata (some t)).Ends handlesGcs
          (fun r b' => r = .error (.preconditionFailedError key) ∧ b' = b) b) ∧
        (GcsStorage.deleteIfVersion key t).Ends handlesGcs
          (fun r b' => r = .error (.preconditionFailedError key) ∧ b' = b) b) ∧
      ∀ pre startAfter limit, (GcsStorage.listPage pre startAfter limit).Ends handlesGcs
        (fun r b' => ∃ page, r = .ok page ∧ b.stored.IsPage pre startAfter limit page ∧ b' = b) b := by
  have hempty : Bucket.empty.Refines Issuing.empty := ⟨rfl, fun g hg => absurd hg List.not_mem_nil⟩
  refine ⟨?_, fun o ho => (ends_call b ho).mono fun _ _ _ => trivial, fun t ht key => ?_,
    fun pre startAfter limit => ?_⟩
  · obtain ⟨s, hrun, hs⟩ := hist.sim (fun o ho b₁ s r b₂ hs hrun => by
      obtain ⟨a, rfl, hperforms⟩ := (ends_call b₁ (hshort o ho)).of_runs hrun
      obtain ⟨s', hstep, hs'⟩ := hperforms.refines hs
      exact ⟨s', StorageOp.runs_call.mpr ⟨a, hstep, rfl⟩, hs'⟩) hempty
    exact ⟨s, hrun, hs.objects⟩
  · have htoken := not_isGenerationToken ht
    constructor
    · intro data metadata
      exact ends_generationOf (fun _ => ⟨rfl, rfl⟩) fun hread => absurd (hread.symm.trans htoken) nofun
    · exact ends_generationOf (fun _ => ⟨rfl, rfl⟩) fun hread => absurd (hread.symm.trans htoken) nofun
  · rintro a b' ⟨rfl, blobs, rfl, hlists⟩
    refine ⟨_, rfl, ?_, rfl⟩
    have hpage := b'.stored.isPage_take pre startAfter limit
    rw [← page_eq hlists] at hpage
    exact hpage

/-- A create, a write that expects a text that is read as its generation, and a listing. -/
def refinedCalls : List StorageOp :=
  [.putIfVersion (str "notes/a.md") [1] .empty none,
    .putIfVersion (str "notes/a.md") [2] .empty (some (str "01")), .listPage (str "not") none 1]

/-- A create, a write over it and a page. -/
theorem gcs_refines_three : let _ := Interpreter.ascii
    ∃ calls b, calls.map (·.1) = refinedCalls ∧ History handlesGcs GcsStorage.call Bucket.empty calls b ∧
      ∃ s, History (issuing id NextGeneration) StorageOp.call Issuing.empty calls s ∧ s.objects = b.stored := by
  intro _
  have hexec : ((History.exec answerGcs (fun _ _ => true) GcsStorage.call refinedCalls
      (Bucket.empty, true)).map (·.2.2)) = some true := by
    decide +kernel
  obtain ⟨⟨calls, b, flag⟩, hexec, rfl⟩ := Option.map_eq_some_iff.mp hexec
  obtain ⟨-, hist, hcalls⟩ := History.of_exec (fun b o _ => handlesGcs_answerGcs o b) hexec
  have hshort : ∀ o ∈ calls.map (·.1), o.Short := by
    rw [hcalls]
    decide
  exact ⟨calls, b, hcalls, hist, (gcs_refines hist hshort).1⟩

end Wenchang
