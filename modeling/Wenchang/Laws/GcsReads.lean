import Wenchang.Backends.Gcs
import Wenchang.Interaction.Alone

/-!
# `GcsStorage.get` is a snapshot

A read is two calls: the blob, and the bytes of the blob's generation. A generation names one object for
ever (`Later.object_eq`), so bytes that are found under it belong to the blob's metadata, whatever
happened in between. An attempt that finds another generation was overtaken, and three overtaken
attempts are an error.
-/

namespace Wenchang

open Py Ordered Interaction

/-- An object as a read returns it. -/
def GcsObject.stored (o : GcsObject) : StoredObject := ⟨o.data, o.metadata, Py.ofNat o.generation⟩

/-- A trace of client calls. -/
abbrev GcsTrace := Trace GcsSig Bucket

/-- An attempt of a read that saw a live object replaced or deleted. -/
def Overtaken (key : Str) (tr : GcsTrace) : Prop :=
  ∃ e e' o, tr = [e, e'] ∧ e.op = .getBlob key ∧ e.pre.live key = some o ∧
    e'.op = .downloadAsBytes key o.generation ∧ ¬ e'.pre.At key o.generation

/-- The error of a read whose attempts were all overtaken. -/
def repeatedConflicts [Interpreter] (key : Str) : Exc :=
  .backendUnavailableError .unavailable
    (str "Repeated generation conflicts fetching " ++ Py.repr key ++ str ".")

/-- What a read that ended has seen in so many attempts. -/
def ReadIn [Interpreter] (key : Str) (attempts : Nat) (tr : GcsTrace) :
    Except Exc (Option StoredObject) → Prop
  | .ok (some obj) => ∃ e ∈ tr, ∃ o, e.pre.live key = some o ∧ obj = o.stored
  | .ok none => ∃ e ∈ tr, e.pre.live key = none
  | .error e => e = repeatedConflicts key ∧ ∃ parts : List GcsTrace, parts.length = attempts ∧
      tr = parts.flatten ∧ ∀ part ∈ parts, Overtaken key part

section

variable [Interpreter] {key : Str}

/-- The attempts that are left, after some that were overtaken. -/
theorem sat_getAttempts (attempts : Nat) {parts : List GcsTrace}
    (hparts : ∀ part ∈ parts, Overtaken key part) :
    (GcsStorage.getAttempts key attempts).Sat gcs (fun _ _ => True)
      (ReadIn key (parts.length + attempts)) parts.flatten := by
  induction attempts generalizing parts with
  | zero => exact ⟨rfl, parts, rfl, rfl, hparts⟩
  | succ attempts ih =>
    refine ⟨trivial, fun b a b' hadmits => ?_⟩
    have hblob : handlesGcs b (.getBlob key) a b' := hadmits.handles
    obtain ⟨rfl, ⟨hlive, rfl⟩ | ⟨o, blob, hlive, rfl, hshows⟩⟩ := hblob
    · exact ⟨_, List.mem_concat_self, hlive⟩
    · refine ⟨trivial, fun b₁ a₁ b₁' hadmits₁ => ?_⟩
      have hlater : b'.Later b₁ := hadmits₁.rely _ List.mem_concat_self
      have hdata : handlesGcs b₁ (.downloadAsBytes key blob.generation) a₁ b₁' := hadmits₁.handles
      rw [hshows.generation] at hdata
      obtain ⟨rfl, ⟨o₁, ho₁, hgeneration, rfl⟩ | ⟨hgone, exc, rfl, hexc⟩⟩ := hdata
      · -- The bytes are those of the object that the blob shows.
        have hsame : o₁ = o := hlater.object_eq hlive ho₁ hgeneration
        subst hsame
        refine ⟨_, List.mem_append_left _ List.mem_concat_self, o₁, hlive, ?_⟩
        simp [GcsObject.stored, Blob.version, hshows.metadata, hshows.generation]
      · show Prog.Sat _ _ (if exc.error = .preconditionFailed ∨ exc.error = .notFound then _ else _) _ _
        rw [if_pos hexc]
        have hpart : Overtaken key [⟨b', .getBlob key, .ok (some blob), b'⟩,
            ⟨b₁', .downloadAsBytes key blob.generation, .error exc, b₁'⟩] :=
          ⟨_, _, o, rfl, rfl, hlive, by rw [hshows.generation], hgone⟩
        have hall := List.forall_mem_append.mpr ⟨hparts, List.forall_mem_singleton.mpr hpart⟩
        have hnext := ih hall
        rw [List.flatten_append, List.flatten_singleton, List.length_append, List.length_singleton,
          Nat.add_assoc, Nat.add_comm 1] at hnext
        rw [List.append_assoc]
        exact hnext

/-- **What a read returns**, whatever happens between its calls. -/
theorem sat_get : (GcsStorage.get key).Sat gcs (fun _ _ => True)
    (ReadIn key GcsStorage.getRetryAttempts) [] := by
  have h := @sat_getAttempts _ key GcsStorage.getRetryAttempts [] (by simp)
  rwa [List.length_nil, Nat.zero_add] at h

/-- A read comes to an end, whatever the client answers. -/
theorem ends_getAttempts {W : Type} {h : W → (o : GcsOp) → GcsSig.Ans o → W → Prop} (attempts : Nat)
    (w : W) : (GcsStorage.getAttempts key attempts).Ends h (fun _ _ => True) w := by
  induction attempts generalizing w with
  | zero => trivial
  | succ attempts ih =>
    rintro (exc | _ | blob) w' -
    · trivial
    · trivial
    · rintro (exc | data) w'' -
      · show Prog.Ends _ _ (if exc.error = .preconditionFailed ∨ exc.error = .notFound then _ else _) _
        split
        · exact ih w''
        · trivial
      · trivial

/-! ## A read among other calls -/

/-- What a call of `get` returns or raises, by what its trace has seen. -/
theorem sat_call_get : (GcsStorage.call (.get key)).Sat gcs (fun _ _ => True)
    (fun tr r => ∃ a, r = .ok ⟨.get key, a⟩ ∧ ReadIn key GcsStorage.getRetryAttempts tr a) [] := by
  have hperform : (GcsStorage.perform (.get key)).Sat gcs (fun _ _ => True)
      (fun tr r => ∃ a, r = .ok a ∧ ReadIn key GcsStorage.getRetryAttempts tr a) [] :=
    (Prog.sat_attempt _ _ _).mpr (sat_get.post fun tr a ha => ⟨a, rfl, ha⟩)
  refine hperform.andThen ?_ ?_
  · rintro tr _ ⟨a, ⟨⟩, ha⟩
    exact ⟨_, rfl, ha⟩
  · rintro tr e ⟨a, ⟨⟩, -⟩

/-- A get ends, whatever the bucket answers. -/
theorem ends_call_get {W : Type} {h : W → (o : GcsOp) → GcsSig.Ans o → W → Prop} (w : W) :
    (GcsStorage.call (.get key)).Ends h (fun _ _ => True) w := by
  refine (Prog.ends_bind _ _ _ _).mpr ((Prog.ends_attempt _ _ _).mpr ?_)
  exact (ends_getAttempts _ w).mono fun _ _ _ => trivial

end

/-- What the read of call `t` says of the pool it returned in: an object that was live while the call was
in flight, or that there was none at some moment of the call, or that every attempt was overtaken. -/
def ReadsSnapshot [Interpreter] {κ : Type} (p : Pool GcsSig Exc Answered κ Bucket) (t start : Nat)
    (key : Str) : Except Exc (Option StoredObject) → Prop
  | .ok found => ∃ before e after, p.log = before ++ (t, e) :: after ∧ start ≤ before.length ∧
      found = (e.pre.live key).map (·.stored)
  | .error exc => exc = repeatedConflicts key ∧ ∃ parts : List GcsTrace, parts.length = 3 ∧
      ownTrace t p.log = parts.flatten ∧ ∀ part ∈ parts, Overtaken key part

/-- **A read is a snapshot**, whatever other calls do to the bucket between its own two and across its
attempts. It comes to an end, and what it returns is the object, or the absence, of one moment of the
call. It raises only after three attempts that were each overtaken. -/
theorem get_snapshot [Interpreter] {κ : Type} {body : κ → Gcs Answered}
    {P : Pool GcsSig Exc Answered κ Bucket → Prop} {b : Bucket}
    {p : Pool GcsSig Exc Answered κ Bucket} (h : Pool.Run gcs body P b p) {t : Nat}
    {th : Thread GcsSig Exc Answered κ} (ht : p.threads[t]? = some th) {key : Str}
    (hcall : body th.call = GcsStorage.call (.get key)) :
    (∀ b', (body th.call).Ends handlesGcs (fun _ _ => True) b') ∧
      ∀ r, th.prog.outcome? = some r → ∃ a, r = .ok ⟨.get key, a⟩ ∧ ReadsSnapshot p t th.start key a := by
  refine ⟨fun b' => hcall ▸ ends_call_get b', fun r hr => ?_⟩
  -- Nothing is asked of the other calls.
  have hbody : ∀ c, (body c).Sat gcs (fun _ _ => True) (fun tr r => body c = GcsStorage.call (.get key) →
      ∃ a, r = .ok ⟨.get key, a⟩ ∧ ReadIn key GcsStorage.getRetryAttempts tr a) [] := fun c => by
    by_cases hc : body c = GcsStorage.call (.get key)
    · rw [hc]
      exact sat_call_get.post fun tr r hr _ => hr
    · exact (Prog.issues_true _).sat (fun _ _ _ => trivial) fun _ _ _ hc' => absurd hc' hc
  obtain ⟨a, rfl, ha⟩ := h.post hbody ht hr hcall
  refine ⟨a, rfl, ?_⟩
  -- An operation of the call stands in the log behind its invocation.
  have hseen : ∀ e ∈ ownTrace t p.log, ∃ before after, p.log = before ++ (t, e) :: after ∧
      th.start ≤ before.length := fun e he => by
    obtain ⟨before, after, hlog⟩ := List.append_of_mem (mem_ownTrace.mp he)
    obtain ⟨th', ht', hstart, -⟩ := h.guarantee (fun c => (hbody c)) hlog
    rw [ht, Option.some.injEq] at ht'
    exact ⟨before, after, hlog, ht' ▸ hstart⟩
  rcases a with exc | _ | obj
  · exact ha
  · obtain ⟨e, he, hlive⟩ := ha
    obtain ⟨before, after, hlog, hstart⟩ := hseen e he
    exact ⟨before, e, after, hlog, hstart, by rw [hlive]; rfl⟩
  · obtain ⟨e, he, o, hlive, hobj⟩ := ha
    obtain ⟨before, after, hlog, hstart⟩ := hseen e he
    exact ⟨before, e, after, hlog, hstart, by rw [hlive, hobj]; rfl⟩

/-- A read with a put between its two calls, and then a second attempt. -/
def overtakenGet [Interpreter] : Option (Pool GcsSig Exc Answered StorageOp Bucket) :=
  let key := str "user/u1/notes/n.md"
  Pool.exec (fun (_ : Unit) => answerGcs) GcsStorage.call
    [.invoke (.put key [1] .empty), .act 0 (), .invoke (.get key), .act 1 (),
      .invoke (.put key [2] .empty), .act 2 (), .act 1 (), .act 1 (), .act 1 ()]
    (Pool.init Bucket.empty)

/-- A get that is overtaken by a write reads one generation. -/
theorem get_snapshot_overtaken : let _ := Interpreter.ascii
    ∃ p th a, overtakenGet = some p ∧ p.threads[1]? = some th ∧
      th.prog.outcome? = some (.ok ⟨.get (str "user/u1/notes/n.md"), a⟩) ∧
      ReadsSnapshot p 1 th.start (str "user/u1/notes/n.md") a := by
  intro _
  have hends : (overtakenGet.any fun p => p.threads[1]?.any fun th =>
      th.call = .get (str "user/u1/notes/n.md") && th.prog.outcome?.isSome) = true := by
    decide +kernel
  obtain ⟨p, hp, h₁⟩ := (Option.any_eq_true _ _).mp hends
  obtain ⟨th, hth, h₂⟩ := (Option.any_eq_true _ _).mp h₁
  obtain ⟨hcall, hreturned⟩ := Bool.and_eq_true_iff.mp h₂
  obtain ⟨r, hr⟩ := Option.isSome_iff_exists.mp hreturned
  have hrun : Pool.Run gcs GcsStorage.call (fun _ => True) Bucket.empty p :=
    Pool.Run.exec _ (fun _ o b => handlesGcs_answerGcs o b) (.init trivial) hp
  obtain ⟨a, rfl, ha⟩ :=
    (get_snapshot hrun hth (congrArg GcsStorage.call (of_decide_eq_true hcall))).2 r hr
  exact ⟨p, th, a, hp, hth, hr, ha⟩

end Wenchang
