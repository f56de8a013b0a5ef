import Wenchang.Laws.Calls
import Wenchang.Laws.NoLostUpdate

/-!
# Lost responses

A backend whose client retries a conditional put may commit it and still report that its
precondition failed. The pools here run any calls over such a backend.

`append_line` puts once and recognizes its own write by its bytes and metadata, so where no two calls
write the same pair it returns for its own write only, and a repeat of it finds the version gone.
`replace_fact` takes every failed precondition for another writer's: it commits once in every run in
which what it reads after a lost response is not to be edited again, and twice where its new text
still matches.
-/

namespace Wenchang

open Py Ordered Interaction

/-- No two calls write the same bytes and metadata at one path. -/
def UniqueWrites (log : Log StoreSig InMemoryStorage) : Prop :=
  ∀ a ∈ log, ∀ b ∈ log, a.2.op.write?.isSome → a.2.op.write? = b.2.op.write? → a.1 = b.1

instance (log : Log StoreSig InMemoryStorage) : Decidable (UniqueWrites log) :=
  inferInstanceAs (Decidable (∀ a ∈ log, ∀ b ∈ log, _))

/-- An operation that would write. -/
def Writes (e : Event StoreSig InMemoryStorage) : Bool := e.op.write?.isSome

/-- What mutates nothing writes nothing. -/
theorem write_eq_none_of_not_mutates {o : StoreOp} (h : ¬ o.Mutates) : o.write? = none := by
  cases o with
  | storage o =>
    cases o with
    | put key data metadata => exact absurd trivial h
    | putIfVersion key data metadata expected => exact absurd trivial h
    | _ => rfl
  | _ => rfl

/-- A trace of reads has no write. -/
theorem ReadOnlyTrace.not_writes {tr : StoreTrace} (h : ReadOnlyTrace tr) :
    ∀ e ∈ tr, ¬ Writes e = true := by
  intro e he hw
  rw [Writes, write_eq_none_of_not_mutates (h e he)] at hw
  cases hw

/-- Of two places in a list, the later one stands behind the earlier. -/
theorem split_later {β : Type} {l l' m m' : List β} {a b : β} (h : l ++ a :: l' = m ++ b :: m')
    (hlen : l.length < m.length) : ∃ n, l' = n ++ b :: m' := by
  rcases List.append_eq_append_iff.mp h with ⟨n, rfl, hn⟩ | ⟨n, rfl, -⟩
  · cases n with
    | nil => exact absurd hlen (by rw [List.append_nil]; exact Nat.lt_irrefl _)
    | cons c n =>
      obtain ⟨-, rfl⟩ := List.cons.inj hn
      exact ⟨n, rfl⟩
  · rw [List.length_append] at hlen
    omega

/-- A put that storage reports as done has been done. -/
theorem post_of_put_ok {lossy : Prop} {tr : StoreTrace} {st st' : InMemoryStorage} {path version : Str}
    {wr : Written} {expected : Option Str}
    (ha : (inMemory lossy).Admits tr ⟨st, putOp path wr expected, .ok version, st'⟩) :
    version = st.token ∧ st' = st.putLocked path wr.data wr.map := by
  rcases ha.handles with hh | ⟨-, -, herr, -⟩
  · rcases st.putIfVersion_cases path wr.data wr.map expected with ⟨-, hres⟩ | ⟨-, hres⟩
    · obtain ⟨hversion, hpost⟩ := Prod.mk.inj (hh.trans hres)
      exact ⟨Except.ok.inj hversion, hpost⟩
    · cases (Prod.mk.inj (hh.trans hres)).1
  · cases herr

section Calls

variable [Interpreter]

/-! ## The first step of an append -/

/-- `append_line` refuses its arguments, or reads the file; it raises when the file is absent or has
another version. -/
theorem appendLine_cases (path line expected source : Str) (aliases : Option (List Str))
    (description : Option Str) :
    (∃ e, ∀ s fuel, (StoreCall.mutate
      (.appendLine path line expected source aliases description)).body s fuel = .raise e) ∨
    ∀ s fuel, ∃ k, (StoreCall.mutate
        (.appendLine path line expected source aliases description)).body s fuel =
        .vis (.storage (.get path)) k ∧
      k (.ok none) = .raise (.notFoundError path .fileAbsent) ∧
      ∀ obj content, decodeUtf8 obj.data = .ok content → obj.version ≠ expected →
        k (.ok (some obj)) = .raise (.versionConflictError path content obj.version) := by
  simp only [StoreCall.body, Mutator.body, MemoryStore.appendLine]
  by_cases hpath : isValidPath path = false
  · refine .inl ⟨.notFoundError path .invalidPath, fun s fuel => ?_⟩
    rw [Prog.raiseIf_pos hpath]
    rfl
  by_cases hargs : parseFact line = none ∨ source = []
  · refine .inl ⟨.valueError (str "line must be a single fact line and source must be non-empty"),
      fun s fuel => ?_⟩
    rw [Prog.raiseIf_neg hpath, Prog.ret_bind, Prog.raiseIf_pos hargs]
    rfl
  cases hdescription : normalizeOptional description with
  | error e =>
    refine .inl ⟨e, fun s fuel => ?_⟩
    rw [Prog.raiseIf_neg hpath, Prog.ret_bind, Prog.raiseIf_neg hargs]
    rfl
  | ok newDescription =>
    refine .inr fun s fuel => ?_
    rw [Prog.raiseIf_neg hpath, Prog.ret_bind, Prog.raiseIf_neg hargs]
    refine ⟨_, rfl, rfl, fun obj content hcontent hversion => ?_⟩
    show (((Prog.ofExcept (decodeUtf8 obj.data) >>= fun content =>
      Prog.raiseIf (obj.version ≠ expected) _ >>= _) >>= _) >>= _) = _
    rw [hcontent, Prog.ofExcept_ok, Prog.ret_bind, Prog.raiseIf_pos hversion]
    rfl

/-! ## What a run has written -/

section Runs

variable {lossy : Prop} {P : StorePool → Prop} {w : InMemoryStorage} {p : StorePool}

/-- What a call of a run would write is a content's bytes and metadata's map. -/
theorem written_of_run (h : Pool.Run (inMemory lossy) Invocation.body P w p) {t : Nat}
    {e : Event StoreSig InMemoryStorage} (he : (t, e) ∈ p.log) {key : Str} {data : Bytes}
    {metadata : Metadata} (hw : e.op.write? = some (key, data, metadata)) :
    ∃ wr : Written, wr.data = data ∧ wr.map = metadata := by
  obtain ⟨l, l', hl⟩ := List.append_of_mem he
  obtain ⟨th, -, -, hg, -⟩ := store_guarantee h hl
  cases hc : th.call.call with
  | mutate m =>
    rw [hc] at hg
    obtain ⟨st, o, a, st'⟩ := e
    cases o with
    | storage o =>
      cases o with
      | put key data metadata => exact absurd hg not_false
      | putIfVersion key data metadata expected =>
        cases hw
        obtain ⟨-, -, -, wr, hdata, hmap, -⟩ := hg
        exact ⟨wr, hdata, hmap⟩
      | _ => cases hw
    | _ => cases hw
  | _ =>
    rw [hc] at hg
    exact absurd (hg.symm.trans hw) nofun

/-- Before a mutator writes it has prepared what it writes. -/
theorem prepared_of_writes (h : Pool.Run (inMemory lossy) Invocation.body P w p) {t : Nat}
    {th : StoreThread} (ht : p.threads[t]? = some th) {m : Mutator} (hm : th.call.call = .mutate m)
    {tr tr' : StoreTrace} {e : Event StoreSig InMemoryStorage}
    (htr : ownTrace t p.log = tr ++ e :: tr') (hw : Writes e = true) :
    (m.Single → ReadOnlyTrace tr) ∧ ∃ data metadata expected,
      e.op = .storage (.putIfVersion m.path data metadata expected) ∧
      ∃ wr : Written, wr.data = data ∧ wr.map = metadata ∧
        m.Prepared th.call.store wr tr expected := by
  obtain ⟨l₁, l₂, hl, hown, -⟩ := ownTrace_split htr
  obtain ⟨th', ht', -, hg, -⟩ := store_guarantee h hl
  cases ht.symm.trans ht'
  rw [hm, hown] at hg
  obtain ⟨st, o, a, st'⟩ := e
  cases o with
  | storage o =>
    cases o with
    | put key data metadata => exact absurd hg not_false
    | putIfVersion key data metadata expected =>
      obtain ⟨rfl, -, honly, wr, rfl, rfl, hprep⟩ := hg
      exact ⟨honly, _, _, expected, rfl, wr, rfl, rfl, hprep⟩
    | _ => cases hw
  | _ => cases hw

/-- A mutator that does not delete commits only what it writes. -/
theorem writes_of_committed (h : Pool.Run (inMemory lossy) Invocation.body P w p) {t : Nat}
    {th : StoreThread} (ht : p.threads[t]? = some th) {m : Mutator} (hm : th.call.call = .mutate m)
    (hdelete : ∀ path v, m ≠ .deleteFile path v) {e : Event StoreSig InMemoryStorage}
    (he : e ∈ ownTrace t p.log) (hc : Committed e) : Writes e = true := by
  obtain ⟨l, l', hl⟩ := List.append_of_mem (mem_ownTrace.mp he)
  obtain ⟨th', ht', -, hg, ha⟩ := store_guarantee h hl
  cases ht.symm.trans ht'
  rw [hm] at hg
  rcases handles_cases ha.handles with ⟨_, _, _, hwrite, -⟩ | ⟨key, expected, hop, -⟩ | hsame
  · rw [Writes, hwrite]
    rfl
  · rw [hop] at hg
    exact absurd hg.1 (hdelete _ _)
  · exact absurd hsame hc

/-- One write at most, and so one commit at most. -/
theorem countP_writes_le (h : Pool.Run (inMemory lossy) Invocation.body P w p) {t : Nat}
    {th : StoreThread} (ht : p.threads[t]? = some th) {m : Mutator} (hm : th.call.call = .mutate m)
    (hsingle : m.Single) : (ownTrace t p.log).countP Writes ≤ 1 := by
  apply countP_le_one
  intro l₁ e l₂ hl hw
  exact ((prepared_of_writes h ht hm hl hw).1 hsingle).not_writes

/-- **An append that returns has put what it returns**, itself. -/
theorem put_of_append_returned (h : Pool.Run (inMemory lossy) Invocation.body P w p)
    (hunique : UniqueWrites p.log) {t : Nat} {th : StoreThread} (ht : p.threads[t]? = some th)
    {m : Mutator} (hm : th.call.call = .mutate m)
    (happend : ∃ path line v source aliases description,
      m = .appendLine path line v source aliases description)
    {r : StoreResult} (hr : th.prog.outcome? = some (.ok r)) :
    ∃ (e : Event StoreSig InMemoryStorage) (wr : Written), e ∈ ownTrace t p.log ∧
      e.post = e.pre.putLocked m.path wr.data wr.map ∧
      r = .file (some ⟨m.path, wr.content, wr.metadata, e.pre.token⟩) := by
  have hout := store_outcome h ht hr
  rw [hm] at hout
  cases r with
  | file file =>
    have hreturns : m.Returns (ownTrace t p.log) file := hout
    generalize htr : ownTrace t p.log = trace at hreturns
    cases hreturns with
    | put tr q st st' expected wr version before quiet =>
      obtain ⟨l₁, l₂, hl, -, -⟩ := ownTrace_split htr
      obtain ⟨_, -, -, -, ha⟩ := store_guarantee h hl
      obtain ⟨rfl, hpost⟩ := post_of_put_ok ha
      exact ⟨_, wr, List.mem_append_right _ List.mem_cons_self, hpost, rfl⟩
    | landed tr q st st' cur expected wr version before quiet append found =>
      obtain ⟨-, data, metadata, _, hop, hprep⟩ := prepared_of_writes h ht hm htr rfl
      cases hop
      obtain ⟨u, e, hmem, hwrite, hpost, rfl⟩ := put_of_landed h.chain htr hprep append found
      have hput : (⟨st, putOp m.path wr expected,
          .error (.preconditionFailedError m.path), st'⟩ : Event StoreSig InMemoryStorage) ∈
          ownTrace t p.log := htr ▸ List.mem_append_right _ List.mem_cons_self
      have hut : u = t := hunique (u, e) hmem (t, _) (mem_ownTrace.mp hput)
        (by rw [hwrite]; rfl) hwrite
      subst hut
      exact ⟨e, wr, htr ▸ mem_ownTrace.mpr hmem, hpost, rfl⟩
    | deleted tr q st st' expected before quiet delete =>
      obtain ⟨path, line, v, source, aliases, description, rfl⟩ := happend
      cases delete
  | _ => exact absurd hout not_false

/-- **A version that has been replaced is gone.** What stands at the path later has another version,
and is a text. -/
theorem replaced_by_written (h : Pool.Run (inMemory lossy) Invocation.body P w p)
    {l l' : Log StoreSig InMemoryStorage} {t : Nat} {e : Event StoreSig InMemoryStorage} {path v : Str}
    {wr : Written} (hl : p.log = l ++ (t, e) :: l') (hv : e.pre.version path = some v)
    (hpost : e.post = e.pre.putLocked path wr.data wr.map) {m m' : Log StoreSig InMemoryStorage}
    {u : Nat} {e' : Event StoreSig InMemoryStorage} (hm : l' = m ++ (u, e') :: m')
    {obj : StoredObject} (hobj : e'.pre.get path = some obj) :
    obj.version ≠ v ∧ ∃ content, decodeUtf8 obj.data = .ok content := by
  have hchain := h.chain
  rw [hl, hm] at hchain
  obtain ⟨-, hh, hafter⟩ := hchain.split
  obtain ⟨hbetween, -, -⟩ := hafter.split
  have hlater : e.pre.Later e.post := (inMemory lossy).rely_of_handles hh
  obtain ⟨o, ho, rfl⟩ := InMemoryStorage.version_eq_some.mp hv
  have hget : e.post.get path = some ⟨wr.data, wr.map, e.pre.token⟩ := by
    rw [hpost, InMemoryStorage.get_putLocked, if_pos rfl]
  have hgone : e.post.version path ≠ some o.version := by
    rw [InMemoryStorage.version, hget, Option.map_some]
    intro he
    exact InMemoryStorage.version_ne_token ho (Option.some.inj he).symm
  constructor
  · intro hsame
    have hissued := (InMemoryStorage.issued_of_get ho).later hlater
    exact InMemoryStorage.Later.version_ne hbetween.rely hissued hgone
      (InMemoryStorage.version_eq_some.mpr ⟨obj, hobj, hsame⟩)
  · by_cases hissued : e.post.Issued obj.version
    · have hold := hbetween.rely.old path obj hobj hissued
      cases hget.symm.trans hold
      exact ⟨wr.content, decodeUtf8_of_encodeUtf8 wr.encoded⟩
    · obtain ⟨t', e₂, hmem, hwrite, -⟩ := put_of_new hbetween hobj hissued
      have hlog : (t', e₂) ∈ p.log := by
        rw [hl, hm]
        exact List.mem_append_right _ (List.mem_cons_of_mem _ (List.mem_append_left _ hmem))
      obtain ⟨wr₂, hdata, -⟩ := written_of_run h hlog hwrite
      exact ⟨wr₂.content, hdata ▸ decodeUtf8_of_encodeUtf8 wr₂.encoded⟩

end Runs

/-! ## At most once -/

/-- What holds of an `append_line` in a run, and of its repeats. -/
structure AppendOnce (p : StorePool) (t : Nat) (th : StoreThread) (path : Str) : Prop where
  /-- It puts at most once. -/
  puts : (ownTrace t p.log).countP Writes ≤ 1
  /-- If it has returned, it has committed once, and returns what it stored. -/
  returned : ∀ r, th.prog.outcome? = some (.ok r) →
    (ownTrace t p.log).countP (Committed ·) = 1 ∧
    ∃ e ∈ ownTrace t p.log, ∃ content metadata data map,
      e.post = e.pre.putLocked path data map ∧ encodeUtf8 content = .ok data ∧
      metadataToMap metadata = .ok map ∧ r = .file (some ⟨path, content, metadata, e.pre.token⟩)
  /-- The same call, made after it has committed, commits nothing: it reads once, and then it has
  ended with a conflict or because the file is gone. -/
  repeated : ∀ u th' l e l', p.threads[u]? = some th' → th'.call.call = th.call.call →
    p.log = l ++ (t, e) :: l' → Committed e → l.length < th'.start →
    (∀ e' ∈ ownTrace u p.log, ¬ Committed e') ∧
    (∀ r, th'.prog.outcome? = some r → r = .error (.notFoundError path .fileAbsent) ∨
      ∃ content version, r = .error (.versionConflictError path content version)) ∧
    (ownTrace u p.log ≠ [] → ¬ th'.InFlight)

section Runs

variable {lossy : Prop} {P : StorePool → Prop} {w : InMemoryStorage} {p : StorePool}

/-- What an append commits replaces the version it was given. -/
theorem put_of_append_commit {s : MemoryStore} {path line v source : Str}
    {aliases : Option (List Str)} {description : Option Str} {e : Event StoreSig InMemoryStorage}
    (h : (Mutator.appendLine path line v source aliases description).Commits s e) :
    ∃ wr : Written, e.pre.version path = some v ∧
      e.post = e.pre.putLocked path wr.data wr.map := by
  cases h with
  | put now wr edits post =>
    cases hget : e.pre.get path with
    | none =>
      rw [Mutator.path, hget] at edits
      exact absurd edits not_false
    | some obj =>
      rw [Mutator.path, hget] at edits
      exact ⟨wr, InMemoryStorage.version_eq_some.mpr ⟨obj, hget, edits.1⟩, post⟩
  | delete expected delete version post => cases delete

/-- A repeat of an append that has committed ends by its first read. -/
theorem repeated_append (h : Pool.Run (inMemory lossy) Invocation.body P w p) {t u : Nat}
    {th th' : StoreThread} {path line v source : Str} {aliases : Option (List Str)}
    {description : Option Str}
    (hcall : th.call.call = .mutate (.appendLine path line v source aliases description))
    (ht : p.threads[t]? = some th) (hu : p.threads[u]? = some th')
    (hsame : th'.call.call = th.call.call) {l l' : Log StoreSig InMemoryStorage}
    {e : Event StoreSig InMemoryStorage} (hl : p.log = l ++ (t, e) :: l') (hc : Committed e)
    (hstart : l.length < th'.start) :
    ownTrace u p.log = [] ∧ th'.InFlight ∨
    ∃ st, ownTrace u p.log = [readEvent path st] ∧
      (th'.prog = .raise (.notFoundError path .fileAbsent) ∨
        ∃ content version, th'.prog = .raise (.versionConflictError path content version)) := by
  have hfollows := h.follows hu
  have hbody : Invocation.body th'.call = (StoreCall.mutate
      (.appendLine path line v source aliases description)).body th'.call.store th'.call.fuel := by
    rw [Invocation.body, hsame, hcall]
  rw [hbody] at hfollows
  rcases appendLine_cases path line v source aliases description with ⟨x, hraise⟩ | hread
  · -- The call that committed had the same arguments, and did not stop at them.
    have hfirst := h.follows ht
    rw [Invocation.body, hcall, hraise] at hfirst
    have hmem : e ∈ ownTrace t p.log :=
      mem_ownTrace.mpr (hl ▸ List.mem_append_right _ List.mem_cons_self)
    rw [hfirst.raise_eq.1] at hmem
    cases hmem
  obtain ⟨k, hk, hnone, hconflict⟩ := hread th'.call.store th'.call.fuel
  rw [hk] at hfollows
  generalize htr : ownTrace u p.log = tr at hfollows
  generalize hprog : th'.prog = prog at hfollows
  cases hfollows with
  | nil =>
    left
    refine ⟨rfl, ?_⟩
    rw [Thread.InFlight, hprog]
    rfl
  | cons st o a st' k rest =>
    obtain ⟨m₁, m₂, hm, -, -⟩ := ownTrace_split (show _ = [] ++ _ :: _ from htr)
    obtain ⟨th₂, hth₂, hstart₂, -, ha⟩ := store_guarantee h hm
    cases hu.symm.trans hth₂
    obtain ⟨n, hn⟩ := split_later (hl.symm.trans hm) (Nat.lt_of_lt_of_le hstart hstart₂)
    have hh : (a, st') = (.ok (st.get path), st) := ha.handles
    obtain ⟨rfl, rfl⟩ := Prod.mk.inj hh
    obtain ⟨th₁, hth₁, -, hg, hadm⟩ := store_guarantee h hl
    cases ht.symm.trans hth₁
    rw [hcall] at hg
    right
    refine ⟨st', ?_⟩
    cases hobj : st'.get path with
    | none =>
      rw [hobj, hnone] at rest
      obtain ⟨rfl, rfl⟩ := rest.raise_eq
      exact ⟨by rw [readEvent, hobj], .inl rfl⟩
    | some obj =>
      obtain ⟨wr, hv, hpost⟩ := put_of_append_commit (Mutator.commits_of_guarantee hg hadm hc)
      obtain ⟨hversion, content, hcontent⟩ := replaced_by_written h hl hv hpost hn hobj
      rw [hobj, hconflict obj content hcontent hversion] at rest
      obtain ⟨rfl, rfl⟩ := rest.raise_eq
      exact ⟨by rw [readEvent, hobj], .inr ⟨content, obj.version, rfl⟩⟩

/-- **`append_line` is at most once**, on a backend that may lose responses and beside any other
calls, where no two calls write the same. -/
theorem append_once (h : Pool.Run (inMemory True) Invocation.body (fun _ => True) w p)
    (hunique : UniqueWrites p.log) {t : Nat} {th : StoreThread} (ht : p.threads[t]? = some th)
    {path line v source : Str} {aliases : Option (List Str)} {description : Option Str}
    (hcall : th.call.call = .mutate (.appendLine path line v source aliases description)) :
    AppendOnce p t th path where
  puts := countP_writes_le h ht hcall trivial
  returned r hr := by
    obtain ⟨e, wr, he, hpost, hr⟩ := put_of_append_returned h hunique ht hcall
      ⟨_, _, _, _, _, _, rfl⟩ hr
    refine ⟨?_, e, he, wr.content, wr.metadata, wr.data, wr.map, hpost, wr.encoded, wr.mapped, hr⟩
    have hc : Committed e := fun hsame =>
      InMemoryStorage.putLocked_ne _ _ _ _ (hpost.symm.trans hsame)
    have hpos : 0 < (ownTrace t p.log).countP (Committed ·) :=
      List.countP_pos_iff.mpr ⟨e, he, decide_eq_true hc⟩
    have hle : (ownTrace t p.log).countP (Committed ·) ≤ (ownTrace t p.log).countP Writes := by
      apply List.countP_mono_left
      intro e' he' hc'
      exact writes_of_committed h ht hcall (fun _ _ => nofun) he' (of_decide_eq_true hc')
    have hone := countP_writes_le h ht hcall trivial
    omega
  repeated u th' l e l' hu hsame hl hc hstart := by
    rcases repeated_append h hcall ht hu hsame hl hc hstart with ⟨hnil, hflight⟩ | ⟨st, hread, hend⟩
    · refine ⟨fun e' he' => ?_, fun r hr => ?_, fun hne => absurd hnil hne⟩
      · rw [hnil] at he'
        cases he'
      · rw [hflight] at hr
        cases hr
    · refine ⟨fun e' he' => ?_, fun r hr => ?_, fun _ => ?_⟩
      · rw [hread, List.mem_singleton] at he'
        rw [he']
        exact fun hne => hne rfl
      · rcases hend with hend | ⟨content, version, hend⟩
        · rw [hend] at hr
          exact .inl (Option.some.inj hr).symm
        · rw [hend] at hr
          exact .inr ⟨content, version, (Option.some.inj hr).symm⟩
      · rcases hend with hend | ⟨content, version, hend⟩ <;>
        · rw [Thread.InFlight, hend]
          exact nofun

end Runs

/-- An append to the file that is stored under the first token. -/
def appendCall : Invocation StoreCall :=
  ⟨.default, 1, .mutate (.appendLine (str "user/u1/notes/n.md") (str "- [stated] x") (str "1")
    (str "s") none none)⟩

/-- The append's put is committed and its response lost; then the append is made again. -/
def lostAppend : List (Choice (Invocation StoreCall) Reply) :=
  [.invoke appendCall, .act 0 ⟨noon, false⟩, .act 0 ⟨noon, false⟩, .act 0 ⟨noon, true⟩,
    .act 0 ⟨noon, false⟩, .invoke appendCall, .act 1 ⟨noon, false⟩]

/-- The pool they lead to, from a storage that holds the file, empty. -/
def afterLostAppend : Option StorePool :=
  Pool.exec Reply.answer Invocation.body lostAppend
    (Pool.init (.single (str "user/u1/notes/n.md") []))

end Calls

/-- The append returns, once; its repeat raises. -/
theorem append_once_lost : let _ := Interpreter.ascii
    ∃ p th, afterLostAppend = some p ∧ p.threads[0]? = some th ∧
      ((p.returned 0).any (·.isOk) ∧ (p.returned 1).any (! ·.isOk)) ∧
      AppendOnce p 0 th (str "user/u1/notes/n.md") := by
  intro _
  have hends : (afterLostAppend.any fun p => UniqueWrites p.log ∧
      ((p.returned 0).any (·.isOk) ∧ (p.returned 1).any (! ·.isOk)) ∧
      p.threads[0]?.any (·.call.call = appendCall.call)) = true := by decide +kernel
  obtain ⟨p, hp, h⟩ := (Option.any_eq_true _ _).mp hends
  rw [decide_eq_true_eq] at h
  obtain ⟨hunique, hreturned, hthread⟩ := h
  obtain ⟨th, ht, hcall⟩ := (Option.any_eq_true _ _).mp hthread
  have hrun : Pool.Run (inMemory True) Invocation.body (fun _ => True) _ p :=
    Pool.Run.exec Reply.answer Reply.handles_lossy (.init trivial) hp
  exact ⟨p, th, hp, ht, hreturned, append_once hrun hunique ht (of_decide_eq_true hcall)⟩

/-! ## `replace_fact` -/

section Calls

variable [Interpreter]

/-- `replace_fact` edits this object again: it matches once, and the result fits. -/
def Mutator.wouldEdit (s : MemoryStore) : Mutator → Option StoredObject → Bool
  | .replaceFact _ oldString newString _ _ _ _, some obj =>
    match decodeUtf8 obj.data, metadataFromMap obj.metadata with
    | .ok content, .ok _ =>
      countOccurrences content oldString = 1 &&
        match encodeUtf8 (replaceFirst content oldString newString) with
        | .ok data => data.length ≤ s.maxFileBytes
        | .error _ => false
    | _, _ => false
  | _, _ => false

/-- Once the call has committed, every object it reads is one that it does not edit. -/
def RereadsStop (s : MemoryStore) (m : Mutator) : Bool → StoreTrace → Bool
  | _, [] => true
  | landed, e :: tr =>
    ! (landed && e.op = .storage (.get m.path) && m.wouldEdit s (e.pre.get m.path)) &&
      RereadsStop s m (landed || Committed e) tr

/-- What is read after a landed put would not be edited. -/
theorem RereadsStop.wouldEdit_eq_false {s : MemoryStore} {m : Mutator} {landed : Bool}
    {tr tr' : StoreTrace} {st : InMemoryStorage}
    (h : RereadsStop s m landed (tr ++ readEvent m.path st :: tr') = true)
    (hlanded : landed = true ∨ ∃ e ∈ tr, Committed e) : m.wouldEdit s (st.get m.path) = false := by
  induction tr generalizing landed with
  | nil =>
    rcases hlanded with rfl | ⟨e, he, -⟩
    · rw [List.nil_append, RereadsStop, Bool.and_eq_true, Bool.not_eq_true'] at h
      simpa only [Bool.true_and, readEvent, decide_true] using h.1
    · cases he
  | cons e tr ih =>
    rw [List.cons_append, RereadsStop, Bool.and_eq_true] at h
    apply ih h.2
    rw [Bool.or_eq_true, decide_eq_true_eq]
    rcases hlanded with hlanded | ⟨e', he', hc⟩
    · exact .inl (.inl hlanded)
    · rcases List.mem_cons.mp he' with rfl | he'
      · exact .inl (.inr hc)
      · exact .inr ⟨e', he', hc⟩

/-- What `replace_fact` writes over, it would edit. -/
theorem Mutator.Edits.wouldEdit {s : MemoryStore} {now : DateTime} {wr : Written}
    {obj : Option StoredObject} {path oldString newString expected source : Str}
    {aliases : Option (List Str)} {description : Option Str}
    (h : (Mutator.replaceFact path oldString newString expected source aliases description).Edits s
      now wr obj) :
    (Mutator.replaceFact path oldString newString expected source aliases description).wouldEdit s
      obj = true := by
  cases obj with
  | none => exact absurd h not_false
  | some obj =>
    obtain ⟨content, stored, hcontent, hstored, hcount, hwr, hstamped⟩ := h
    have hencoded := wr.encoded
    rw [hwr] at hencoded
    simp only [Mutator.wouldEdit, hcontent, hstored, hcount, hencoded, decide_true, Bool.true_and,
      decide_eq_true_eq]
    exact hstamped.size

section Runs

variable {lossy : Prop} {P : StorePool → Prop} {w : InMemoryStorage} {p : StorePool}

/-- What holds of a `replace_fact` in a run: it commits at most once, and if it has returned, once, and
it returns what it stored. -/
structure ReplaceOnce (p : StorePool) (t : Nat) (th : StoreThread) (m : Mutator) : Prop where
  commits : (ownTrace t p.log).countP (Committed ·) ≤ 1
  returned : ∀ r, th.prog.outcome? = some (.ok r) → (ownTrace t p.log).countP (Committed ·) = 1 ∧
    ∃ e ∈ ownTrace t p.log, m.Commits th.call.store e ∧ ∃ wr : Written,
      e.post = e.pre.putLocked m.path wr.data wr.map ∧
      r = .file (some ⟨m.path, wr.content, wr.metadata, e.pre.token⟩)

/-- **`replace_fact` commits at most once, and once if it returns**, in every run in which, once it
has committed, what it reads is not to be edited again. -/
theorem replace_fact_once (h : Pool.Run (inMemory True) Invocation.body (fun _ => True) w p) {t : Nat}
    {th : StoreThread} (ht : p.threads[t]? = some th)
    {path oldString newString expected source : Str} {aliases : Option (List Str)}
    {description : Option Str}
    (hcall : th.call.call =
      .mutate (.replaceFact path oldString newString expected source aliases description))
    (hstop : RereadsStop th.call.store
      (.replaceFact path oldString newString expected source aliases description) false
      (ownTrace t p.log) = true) :
    ReplaceOnce p t th
      (.replaceFact path oldString newString expected source aliases description) := by
  generalize hm : Mutator.replaceFact path oldString newString expected source aliases description = m
    at hcall hstop ⊢
  have hdelete : ∀ path v, m ≠ .deleteFile path v := by
    intro path v
    rw [← hm]
    exact nofun
  have hone : (ownTrace t p.log).countP (Committed ·) ≤ 1 := by
    apply countP_le_one
    intro tr e tr' htr hc e' he' hc'
    rw [decide_eq_true_eq] at hc hc'
    have hmem : e ∈ ownTrace t p.log := htr ▸ List.mem_append_right _ List.mem_cons_self
    have hwrites := writes_of_committed h ht hcall hdelete hmem hc
    obtain ⟨-, data, metadata, expected, hop, wr, -, -, hprep⟩ :=
      prepared_of_writes h ht hcall htr hwrites
    cases hprep with
    | create tr now st edits =>
      rw [← hm] at edits
      exact absurd edits not_false
    | edit tr now st st' obj read edits =>
      -- The earlier commit stands before the read that led to this one.
      have hbefore : e' ∈ tr := by
        rcases List.mem_append.mp he' with he' | he'
        · exact he'
        · simp only [List.mem_cons, List.not_mem_nil, or_false] at he'
          rcases he' with rfl | rfl
          · exact absurd rfl hc'
          · exact absurd rfl hc'
      rw [htr, List.append_assoc] at hstop
      have hnot := RereadsStop.wouldEdit_eq_false hstop (.inr ⟨e', hbefore, hc'⟩)
      rw [← hm] at edits
      rw [read, ← hm, edits.wouldEdit] at hnot
      cases hnot
  refine ⟨hone, fun r hr => ?_⟩
  have hout := store_outcome h ht hr
  rw [hcall] at hout
  cases r with
  | file file =>
    have hreturns : m.Returns (ownTrace t p.log) file := hout
    generalize htr : ownTrace t p.log = trace at hreturns
    cases hreturns with
    | put tr q st st' expected wr version before quiet =>
      obtain ⟨l₁, l₂, hl, -, -⟩ := ownTrace_split htr
      obtain ⟨th', ht', -, hg, ha⟩ := store_guarantee h hl
      cases ht.symm.trans ht'
      rw [hcall] at hg
      obtain ⟨rfl, hpost⟩ := post_of_put_ok ha
      have hc : st' ≠ st := hpost ▸ InMemoryStorage.putLocked_ne _ _ _ _
      have hmem : ⟨st, putOp m.path wr expected, .ok st.token, st'⟩ ∈ ownTrace t p.log :=
        htr ▸ List.mem_append_right _ List.mem_cons_self
      rw [← htr]
      have hpos : 0 < (ownTrace t p.log).countP (Committed ·) :=
        List.countP_pos_iff.mpr ⟨_, hmem, decide_eq_true hc⟩
      exact ⟨by omega, _, hmem, Mutator.commits_of_guarantee hg ha hc, wr, hpost, rfl⟩
    | landed tr q st st' cur expected wr version before quiet append found =>
      obtain ⟨_, _, _, _, _, _, happend⟩ := append
      rw [← hm] at happend
      cases happend
    | deleted tr q st st' expected before quiet delete =>
      exact absurd delete (hdelete _ _)
  | _ => exact absurd hout not_false

end Runs

/-- A replacement of `a` in the file that is stored under the first token. -/
def replaceCall (newString : String) : Invocation StoreCall :=
  ⟨.default, 1, .mutate (.replaceFact (str "user/u1/notes/n.md") (str "a") (str newString) (str "1")
    (str "s") none none)⟩

/-- The replacement's first put is committed and its response lost; it goes on for so many steps. -/
def lostReplace (newString : String) (steps : Nat) : List (Choice (Invocation StoreCall) Reply) :=
  .invoke (replaceCall newString) :: .act 0 ⟨noon, false⟩ :: .act 0 ⟨noon, false⟩ ::
    .act 0 ⟨noon, true⟩ :: List.replicate steps (.act 0 ⟨noon, false⟩)

/-- The pool they lead to, from a storage that holds the file, with the text `a`. -/
def afterLostReplace (newString : String) (steps : Nat) : Option StorePool :=
  Pool.exec Reply.answer Invocation.body (lostReplace newString steps)
    (Pool.init (.single (str "user/u1/notes/n.md") [97]))

/-- What is executed after the lost response is a run. -/
theorem run_afterLostReplace {newString : String} {steps : Nat} {p : StorePool}
    (hp : afterLostReplace newString steps = some p) :
    Pool.Run (inMemory True) Invocation.body (fun _ => True)
      (.single (str "user/u1/notes/n.md") [97]) p :=
  Pool.Run.exec Reply.answer Reply.handles_lossy (.init trivial) hp

end Calls

/-- A replacement whose new text contains its old text, and whose first response is lost, commits
twice: the file holds the edit of the edit. -/
theorem replace_commits_twice : let _ := Interpreter.ascii
    ∃ (w : InMemoryStorage) (p : StorePool) (r : StoreResult),
      afterLostReplace "xa" 3 = some p ∧
      Pool.Run (inMemory True) Invocation.body (fun _ => True) w p ∧
      p.returned 0 = some (.ok r) ∧ (ownTrace 0 p.log).countP (Committed ·) = 2 ∧
      dataAt p.world (str "user/u1/notes/n.md") = some [120, 120, 97] := by
  intro _
  have hends : ((afterLostReplace "xa" 3).any fun p => (p.returned 0).any (·.isOk) ∧
      (ownTrace 0 p.log).countP (Committed ·) = 2 ∧
      dataAt p.world (str "user/u1/notes/n.md") = some [120, 120, 97]) = true := by decide +kernel
  obtain ⟨p, hp, h⟩ := (Option.any_eq_true _ _).mp hends
  rw [decide_eq_true_eq] at h
  obtain ⟨hreturned, hcount, hdata⟩ := h
  obtain ⟨r, hr, hok⟩ := (Option.any_eq_true _ _).mp hreturned
  cases r with
  | error e => cases hok
  | ok r => exact ⟨_, p, r, hp, run_afterLostReplace hp, hr, hcount, hdata⟩

/-- A replacement whose new text does not contain its old text ends at the re-read. -/
theorem replace_fact_once_lost : let _ := Interpreter.ascii
    ∃ p th, afterLostReplace "b" 1 = some p ∧ p.threads[0]? = some th ∧
      (p.returned 0).any (! ·.isOk) = true ∧
      ReplaceOnce p 0 th (.replaceFact (str "user/u1/notes/n.md") (str "a") (str "b") (str "1")
        (str "s") none none) := by
  intro _
  have hends : ((afterLostReplace "b" 1).any fun p => (p.returned 0).any (! ·.isOk) ∧
      p.threads[0]?.any fun th => th.call.call = (replaceCall "b").call ∧
        RereadsStop th.call.store (.replaceFact (str "user/u1/notes/n.md") (str "a") (str "b")
          (str "1") (str "s") none none) false (ownTrace 0 p.log) = true) = true := by
    decide +kernel
  obtain ⟨p, hp, h⟩ := (Option.any_eq_true _ _).mp hends
  rw [decide_eq_true_eq] at h
  obtain ⟨hreturned, hthread⟩ := h
  obtain ⟨th, ht, hth⟩ := (Option.any_eq_true _ _).mp hthread
  rw [decide_eq_true_eq] at hth
  exact ⟨p, th, hp, ht, hreturned, replace_fact_once (run_afterLostReplace hp) ht hth.1 hth.2⟩

end Wenchang
