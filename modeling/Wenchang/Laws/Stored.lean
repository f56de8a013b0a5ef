import Wenchang.Laws.Edits
import Wenchang.Laws.Index
import Wenchang.Laws.NoLostUpdate

/-!
# What is stored

An invariant of storage over every run of calls that starts from an empty storage: what a mutator puts
is sound (`Kept`), whatever it read and whoever was faster. A read of it raises no data error. While a
file exists its sources only grow, and an `append_line` or `replace_fact` only adds aliases.
-/

namespace Wenchang

open Py Ordered Interaction

/-- A stored map's metadata can be sized for the index when its last-updated has a UTC form. -/
theorem indexEntryBytes_of_utc (entry : FileEntry)
    (h : entry.metadata.lastUpdated.astimezoneUTC.isSome = true) :
    ∃ size, indexEntryBytes entry = .ok size := by
  rcases indexEntryBytes_cases entry with hok | ⟨-, hnone⟩
  · exact ⟨_, hok⟩
  · rw [hnone] at h
    cases h

/-- An entry that is rendered has a moment that can be converted. -/
theorem utc_of_indexEntryBytes {entry : FileEntry} {size : Nat} (h : indexEntryBytes entry = .ok size) :
    entry.metadata.lastUpdated.astimezoneUTC.isSome = true := by
  rcases indexEntryBytes_cases entry with hok | ⟨herr, -⟩
  · cases hutc : entry.metadata.lastUpdated.astimezoneUTC with
    | some utc => rfl
    | none =>
      simp [indexEntryBytes, metadataToMap, hutc] at h
  · rw [herr] at h
    cases h

section

variable [Interpreter]

/-! ## One step of a run -/

/-- A mutator stops at once when its path is not well formed. -/
theorem Mutator.body_of_invalid (s : MemoryStore) (m : Mutator) (fuel : Nat)
    (h : isValidPath m.path = false) : ∃ e, m.body s fuel = .raise e := by
  cases m with
  | writeFile path content metadata expected source =>
    exact ⟨_, congrArg (· >>= _) (Prog.raiseIf_bind_pos (show isValidPath path = false from h) _ _)⟩
  | replaceFact path oldString newString expected source aliases description =>
    exact ⟨_, congrArg (· >>= _) (Prog.raiseIf_bind_pos (show isValidPath path = false from h) _ _)⟩
  | appendLine path line expected source aliases description =>
    exact ⟨_, congrArg (· >>= _) (Prog.raiseIf_bind_pos (show isValidPath path = false from h) _ _)⟩
  | deleteFile path expected =>
    exact ⟨_, congrArg (· >>= _) (Prog.raiseIf_bind_pos (show isValidPath path = false from h) _ _)⟩

/-- A call asks for something only where its path is valid. -/
theorem StoreCall.issues_valid (s : MemoryStore) (c : StoreCall) (fuel : Nat) :
    (c.body s fuel).Issues fun _ => ∀ m, c = .mutate m → isValidPath m.path = true := by
  cases c with
  | mutate m =>
    by_cases h : isValidPath m.path = true
    · exact (Prog.issues_true _).mono fun _ _ m' hm' => by
        cases hm'
        exact h
    · obtain ⟨e, he⟩ := m.body_of_invalid s fuel (Bool.eq_false_iff.mpr h)
      show ((m.body s fuel) >>= _).Issues _
      rw [he]
      exact trivial
  | _ => exact (Prog.issues_true _).mono fun _ _ m hm => nomatch hm

section Runs

variable {lossy : Prop} {P : StorePool → Prop} {w : InMemoryStorage} {p : StorePool}

/-- **What a step of a run does to storage**: nothing, it removes a key, or it is the put of a mutator
over what storage holds. -/
theorem store_event_cases (h : Pool.Run (inMemory lossy) Invocation.body P w p)
    {l l' : Log StoreSig InMemoryStorage} {t : Nat} {e : Event StoreSig InMemoryStorage}
    (hl : p.log = l ++ (t, e) :: l') :
    e.post = e.pre ∨ (∃ key, e.post = e.pre.remove key) ∨
    ∃ th m now wr, p.threads[t]? = some th ∧ th.call.call = .mutate m ∧
      isValidPath m.path = true ∧ m.Edits th.call.store now wr (e.pre.get m.path) ∧
      e.post = e.pre.putLocked m.path wr.data wr.map := by
  obtain ⟨th, ht, -, hG, ha⟩ := store_guarantee h hl
  have hvalid : ∀ i : Invocation StoreCall, i.body.Sat (inMemory lossy)
      (fun _ _ => ∀ m, i.call = .mutate m → isValidPath m.path = true) (fun _ _ => True) [] :=
    fun i => (i.call.issues_valid i.store i.fuel).sat (fun _ _ ho => ho) fun _ _ _ => trivial
  obtain ⟨th', ht', -, hpath, -⟩ := h.guarantee hvalid hl
  cases ht.symm.trans ht'
  rcases handles_cases ha.handles with ⟨key, data, metadata, hwrite, hput⟩ | ⟨key, -, -, hremove⟩ | hsame
  · refine .inr (.inr ?_)
    cases hcall : th.call.call with
    | mutate m =>
      rw [hcall] at hG
      have hc : Committed e := fun he => InMemoryStorage.putLocked_ne _ _ _ _ (hput.symm.trans he)
      cases Mutator.commits_of_guarantee hG ha hc with
      | put now wr edits post => exact ⟨th, m, now, wr, ht, hcall, hpath m hcall, edits, post⟩
      | delete expected delete version post =>
        -- A put issues a token, a removal does not.
        have htoken := congrArg InMemoryStorage.nextToken (hput.symm.trans post)
        exact absurd htoken (Nat.succ_ne_self _)
    | _ =>
      rw [hcall] at hG
      have hnone : e.op.write? = none := hG
      rw [hnone] at hwrite
      cases hwrite
  · exact .inr (.inl ⟨key, hremove⟩)
  · exact .inl hsame

end Runs

/-! ## The invariant -/

/-- A storage as the core leaves it, with bodies of at most `bytes` bytes. -/
structure Kept (bytes : Nat) (st : InMemoryStorage) : Prop where
  path : ∀ key obj, st.get key = some obj → isValidPath key = true
  scalar : ∀ key obj, st.get key = some obj → Py.Scalar key
  content : ∀ key obj, st.get key = some obj → ∃ content, decodeUtf8 obj.data = .ok content
  size : ∀ key obj, st.get key = some obj → obj.data.length ≤ bytes
  metadata : ∀ key obj, st.get key = some obj → ∃ metadata size,
    metadataFromMap obj.metadata = .ok metadata ∧ metadata.Storable ∧
      indexEntryBytes ⟨key, metadata, obj.version⟩ = .ok size ∧
      10 ∉ metadata.description ∧ 13 ∉ metadata.description

/-- A call on a store that takes files of at most `bytes` bytes; the texts of a mutator's path, aliases
and sources have no surrogates. -/
structure Admitted (bytes : Nat) (i : Invocation StoreCall) : Prop where
  size : i.store.maxFileBytes ≤ bytes
  path : ∀ m, i.call = .mutate m → Py.Scalar m.path
  names : ∀ m, i.call = .mutate m → ∀ a ∈ m.names, Py.Scalar a

/-- The empty storage holds nothing that would break the invariant. -/
theorem kept_empty (bytes : Nat) : Kept bytes .empty := by
  constructor <;> exact fun key obj h => nomatch h

variable {bytes : Nat} {st : InMemoryStorage}

/-- A delete keeps it. -/
theorem Kept.remove (h : Kept bytes st) (key : Str) : Kept bytes (st.remove key) := by
  have hold : ∀ k obj, (st.remove key).get k = some obj → st.get k = some obj := fun k obj hobj => by
    rw [InMemoryStorage.get_remove] at hobj
    split at hobj
    · cases hobj
    · exact hobj
  exact ⟨fun k obj hobj => h.path k obj (hold k obj hobj), fun k obj hobj => h.scalar k obj (hold k obj hobj),
    fun k obj hobj => h.content k obj (hold k obj hobj), fun k obj hobj => h.size k obj (hold k obj hobj),
    fun k obj hobj => h.metadata k obj (hold k obj hobj)⟩

/-- **A mutator's put keeps the invariant.** -/
theorem Kept.put (h : Kept bytes st) {s : MemoryStore} {m : Mutator} {now : DateTime} {wr : Written}
    (hedits : m.Edits s now wr (st.get m.path)) (hsize : s.maxFileBytes ≤ bytes)
    (hpath : isValidPath m.path = true) (hscalar : Py.Scalar m.path)
    (hnames : ∀ a ∈ m.names, Py.Scalar a) : Kept bytes (st.putLocked m.path wr.data wr.map) := by
  have hcases : ∀ {Q : Str → StoredObject → Prop}, Q m.path ⟨wr.data, wr.map, st.token⟩ →
      (∀ k obj, st.get k = some obj → Q k obj) →
      ∀ k obj, (st.putLocked m.path wr.data wr.map).get k = some obj → Q k obj := by
    intro Q hnew hold k obj hobj
    rw [InMemoryStorage.get_putLocked] at hobj
    split at hobj
    next hk =>
      cases hobj
      exact hk ▸ hnew
    · exact hold k obj hobj
  have hstorable : wr.metadata.Storable := by
    refine hedits.storable (fun obj hobj stored hstored => ?_) hnames
    obtain ⟨metadata, -, hmetadata, hold, -⟩ := h.metadata _ _ hobj
    cases hmetadata.symm.trans hstored
    exact hold
  constructor
  · exact hcases hpath h.path
  · exact hcases hscalar h.scalar
  · exact hcases ⟨wr.content, decodeUtf8_of_encodeUtf8 wr.encoded⟩ h.content
  · exact hcases (Nat.le_trans hedits.size hsize) h.size
  · refine hcases ?_ h.metadata
    obtain ⟨metadata, hmetadata, hsame, hutc⟩ := metadataFromMap_toMap hstorable wr.mapped
    have hstorable' : metadata.Storable := by
      refine ⟨fun a ha => hstorable.aliases a (hsame.aliases ▸ ha), fun a ha => ?_⟩
      exact hstorable.sources a (hsame.sources ▸ ha)
    obtain ⟨size, hbytes⟩ := indexEntryBytes_of_utc ⟨m.path, metadata, st.token⟩ hutc
    obtain ⟨hline, hreturn⟩ := metadata.one_line
    exact ⟨metadata, size, hmetadata, hstorable', hbytes, hline, hreturn⟩

/-- What is kept can be indexed. -/
theorem Kept.indexable (h : Kept bytes st) : Indexable st where
  encodable k obj hobj := ⟨_, encodeUtf8_eq_ok.mpr (utf8Encode_of_scalar (h.scalar k obj hobj))⟩
  readable k obj hobj _ := by
    obtain ⟨metadata, size, hmetadata, -⟩ := h.metadata k obj hobj
    exact ⟨metadata, hmetadata⟩
  renderable k obj metadata hobj _ hmetadata := by
    obtain ⟨metadata', size, hmetadata', -, hbytes, -⟩ := h.metadata k obj hobj
    have hutc := utc_of_indexEntryBytes hbytes
    rw [Except.ok.inj (hmetadata.symm.trans hmetadata')]
    exact hutc

/-! ## Reads of it -/

/-- The errors of a read that no stored data is to blame for. -/
def StoreCall.Refuses (s : MemoryStore) : StoreCall → Exc → Prop
  | .readFile path, e => ∃ reason, e = .notFoundError path reason
  | .listPrefix pre cursor, e => e = .notFoundError pre .invalidPath ∨
      MemoryStore.decodeStart cursor pre = .error e
  | .getMemoryIndex scopeMap, e => checkPairs [] (sortedPairs scopeMap) = .error e ∨ IndexFails s e
  | _, _ => True

/-- A read of what is kept raises for a missing file only. -/
theorem sat_readFile_kept {lossy : Prop} (path : Str) :
    (MemoryStore.readFile path).Sat (inMemory lossy) (fun _ _ => True)
      (fun tr r => Meets (Kept bytes) tr → ∀ e, r = .error e → ∃ reason, e = .notFoundError path reason)
      [] := by
  unfold MemoryStore.readFile
  refine Prog.sat_raiseIf_bind (fun _ _ e he => ⟨_, (Except.error.inj he).symm⟩) fun _ => ?_
  refine (Prog.sat_bind _ _ _ _).mpr (sat_storageGet trivial fun st _ => ?_)
  cases hobj : st.get path with
  | none => exact fun _ e he => ⟨_, (Except.error.inj he).symm⟩
  | some obj =>
    have hkept : Meets (Kept bytes) [readEvent path st] → Kept bytes st := fun h =>
      h _ (List.mem_singleton_self _)
    refine Prog.sat_ofExcept_bind (fun e he hmeets => ?_) fun content _ => ?_
    · obtain ⟨content, hcontent⟩ := (hkept hmeets).content path obj hobj
      rw [hcontent] at he
      cases he
    · refine Prog.sat_ofExcept_bind (fun e he hmeets => ?_) fun metadata _ _ e he => nomatch he
      obtain ⟨metadata, size, hmetadata, -⟩ := (hkept hmeets).metadata path obj hobj
      rw [hmetadata] at he
      cases he

/-- A page of what is kept raises for its arguments only. -/
theorem sat_listPrefix_kept {lossy : Prop} (s : MemoryStore) (pre : Str) (cursor : Option Str) :
    (s.listPrefix pre cursor).Sat (inMemory lossy) (fun _ _ => True)
      (fun tr r => Meets (Kept bytes) tr → ∀ e, r = .error e →
        e = .notFoundError pre .invalidPath ∨ MemoryStore.decodeStart cursor pre = .error e) [] := by
  by_cases hpre : isValidPrefix pre = true
  · cases hcursor : MemoryStore.decodeStart cursor pre with
    | error e =>
      unfold MemoryStore.listPrefix
      rw [Prog.raiseIf_neg (by simp [hpre]), Prog.ret_bind, hcursor]
      exact fun _ e' he => .inr (congrArg _ (Except.error.inj he))
    | ok after =>
      refine sat_listPrefix s hpre hcursor (fun _ _ _ => trivial) fun st hmeets e he => ?_
      have hst : Kept bytes st := hmeets _ (List.mem_append_right _ (List.mem_singleton_self _))
      obtain ⟨page, upTo, hpage, -⟩ := pageOf_indexable s hpre hcursor hst.indexable
      rw [hpage] at he
      cases he
  · unfold MemoryStore.listPrefix
    rw [Prog.raiseIf_bind_pos (Bool.eq_false_iff.mpr hpre)]
    exact fun _ e he => .inl (Except.error.inj he).symm

/-- An index of what is kept raises for its scope map, or where its merge fails. -/
theorem sat_getMemoryIndex_kept {lossy : Prop} (s : MemoryStore) (fuel : Nat)
    (scopeMap : List (Str × Str)) :
    (s.getMemoryIndex fuel scopeMap).Sat (inMemory lossy) (fun _ _ => True)
      (fun tr r => Meets (Kept bytes) tr → ∀ e, r = .error e →
        checkPairs [] (sortedPairs scopeMap) = .error e ∨ IndexFails s e) [] := by
  cases hcheck : checkPairs [] (sortedPairs scopeMap) with
  | error e =>
    unfold MemoryStore.getMemoryIndex
    simp only
    rw [hcheck]
    exact fun _ e' he => .inl (congrArg _ (Except.error.inj he))
  | ok u =>
    refine (sat_getMemoryIndex s (of_checkPairs hcheck).1.of_sortedPairs fuel).post fun tr r h hmeets => ?_
    exact fun e he => .inr (h (fun ev hev => (hmeets ev hev).indexable) e he)

/-- **A read of a sound storage raises no data error**, whoever writes meanwhile. -/
theorem sat_refuses {lossy : Prop} (i : Invocation StoreCall) :
    i.body.Sat (inMemory lossy) (fun _ _ => True)
      (fun tr r => Meets (Kept bytes) tr → ∀ e, r = .error e → i.call.Refuses i.store e) [] := by
  obtain ⟨s, fuel, call⟩ := i
  -- The result is wrapped behind the read; its error is the read's.
  have hwrap : ∀ {α : Type} {p : Store α} {g : α → StoreResult},
      p.Sat (inMemory lossy) (fun _ _ => True)
        (fun tr r => Meets (Kept bytes) tr → ∀ e, r = .error e → call.Refuses s e) [] →
      (do return g (← p) : Store StoreResult).Sat (inMemory lossy) (fun _ _ => True)
        (fun tr r => Meets (Kept bytes) tr → ∀ e, r = .error e → call.Refuses s e) [] := by
    intro α p g h
    refine h.andThen (fun tr a _ _ e he => ?_) fun tr e h hmeets e' he => ?_
    · cases he
    · exact h hmeets e' (congrArg _ (Except.error.inj he))
  cases call with
  | readFile path => exact hwrap (sat_readFile_kept path)
  | listPrefix pre cursor => exact hwrap (sat_listPrefix_kept s pre cursor)
  | getMemoryIndex scopeMap => exact hwrap (sat_getMemoryIndex_kept s fuel scopeMap)
  | _ => exact (Prog.issues_true _).sat (fun _ _ _ => trivial) fun _ _ _ _ _ _ => trivial

/-! ## Runs from an empty storage -/

section Spec

variable {lossy : Prop} {P : StorePool → Prop} {p : StorePool}

/-- **The invariant holds at every moment of a run.** -/
theorem kept_of_run (h : Pool.Run (inMemory lossy) Invocation.body P .empty p)
    (hcalls : ∀ th ∈ p.threads, Admitted bytes th.call) :
    Kept bytes p.world ∧ ∀ te ∈ p.log, Kept bytes te.2.pre := by
  refine h.chain.keeps (kept_empty bytes) fun l t e l' hl _ hkept => ?_
  rcases store_event_cases h hl with
    hsame | ⟨key, hremove⟩ | ⟨th, m, now, wr, ht, hcall, hpath, hedits, hput⟩
  · rw [hsame]
    exact hkept
  · rw [hremove]
    exact hkept.remove key
  · have hadmitted := hcalls th (List.mem_of_getElem? ht)
    rw [hput]
    exact hkept.put hedits hadmitted.size hpath (hadmitted.path m hcall) (hadmitted.names m hcall)

/-- A file in storage records a source. -/
def HasSource (path source : Str) (st : InMemoryStorage) : Prop :=
  ∃ obj metadata, st.get path = some obj ∧ metadataFromMap obj.metadata = .ok metadata ∧
    source ∈ metadata.sources

/-- What a put of a run stored reads back as what it wrote. -/
theorem stored_of_put (h : Pool.Run (inMemory lossy) Invocation.body P .empty p)
    (hcalls : ∀ th ∈ p.threads, Admitted bytes th.call) {l l' : Log StoreSig InMemoryStorage} {t : Nat}
    {e : Event StoreSig InMemoryStorage} (hl : p.log = l ++ (t, e) :: l') {th : StoreThread}
    (ht : p.threads[t]? = some th) {m : Mutator} (hcall : th.call.call = .mutate m) {now : DateTime}
    {wr : Written} (hedits : m.Edits th.call.store now wr (e.pre.get m.path))
    (hput : e.post = e.pre.putLocked m.path wr.data wr.map) :
    ∃ obj metadata, e.post.get m.path = some obj ∧ metadataFromMap obj.metadata = .ok metadata ∧
      wr.metadata.Same metadata := by
  have hkept : Kept bytes e.pre := by
    refine (kept_of_run h hcalls).2 (t, e) ?_
    rw [hl]
    exact List.mem_append_right _ List.mem_cons_self
  have hstorable : wr.metadata.Storable := by
    refine hedits.storable (fun obj hobj stored hstored => ?_) ?_
    · obtain ⟨metadata, -, hmetadata, hold, -⟩ := hkept.metadata _ _ hobj
      rw [Except.ok.inj (hstored.symm.trans hmetadata)]
      exact hold
    · exact (hcalls th (List.mem_of_getElem? ht)).names m hcall
  obtain ⟨metadata, hmetadata, hsame, -⟩ := metadataFromMap_toMap hstorable wr.mapped
  refine ⟨⟨wr.data, wr.map, e.pre.token⟩, metadata, ?_, hmetadata, hsame⟩
  rw [hput, InMemoryStorage.get_putLocked, if_pos rfl]

/-- **No write drops a source**, as long as there is a file. -/
theorem hasSource_keeps (h : Pool.Run (inMemory lossy) Invocation.body P .empty p)
    (hcalls : ∀ th ∈ p.threads, Admitted bytes th.call) {l l' : Log StoreSig InMemoryStorage} {t : Nat}
    {e : Event StoreSig InMemoryStorage} (hl : p.log = l ++ (t, e) :: l') {path source : Str}
    (hthere : (e.post.get path).isSome = true) (hsource : HasSource path source e.pre) :
    HasSource path source e.post := by
  obtain ⟨obj, metadata, hobj, hmetadata, hin⟩ := hsource
  rcases store_event_cases h hl with
    hsame | ⟨key, hremove⟩ | ⟨th, m, now, wr, ht, hcall, -, hedits, hput⟩
  · rw [hsame]
    exact ⟨obj, metadata, hobj, hmetadata, hin⟩
  · by_cases hkey : path = key
    · rw [hremove, InMemoryStorage.get_remove, if_pos hkey] at hthere
      cases hthere
    · refine ⟨obj, metadata, ?_, hmetadata, hin⟩
      rw [hremove, InMemoryStorage.get_remove, if_neg hkey, hobj]
  · by_cases hkey : path = m.path
    · subst hkey
      obtain ⟨obj', metadata', hobj', hmetadata', hsame⟩ := stored_of_put h hcalls hl ht hcall hedits hput
      refine ⟨obj', metadata', hobj', hmetadata', hsame.sources ▸ ?_⟩
      exact hedits.sources.2 obj hobj metadata hmetadata source hin
    · refine ⟨obj, metadata, ?_, hmetadata, hin⟩
      rw [hput, InMemoryStorage.get_putLocked, if_neg hkey, hobj]

/-- What holds of storage after a run that began with an empty one. -/
structure StoredState (bytes : Nat) (p : StorePool) : Prop where
  /-- Keys are paths, bodies are text that fits, and metadata can be read, listed and indexed. -/
  kept : Kept bytes p.world
  /-- No read has failed because of what is stored. -/
  reads : ∀ (t : Nat) (th : StoreThread) (e : Exc), p.threads[t]? = some th →
    p.returned t = some (.error e) → th.call.call.Refuses th.call.store e
  /-- The source of every write that was committed since the file was last absent is recorded. -/
  sources : ∀ (l l' : Log StoreSig InMemoryStorage) (t : Nat) (e : Event StoreSig InMemoryStorage)
    (th : StoreThread) (m : Mutator), p.log = l ++ (t, e) :: l' → p.threads[t]? = some th →
    th.call.call = .mutate m → Committed e →
    (∀ te ∈ l', (te.2.post.get m.path).isSome = true) →
    ∀ source ∈ m.source, HasSource m.path source p.world
  /-- An `append_line` or `replace_fact` keeps the aliases, and behind them puts those of its own that
  are new, each at its first occurrence. -/
  aliases : ∀ (t : Nat) (e : Event StoreSig InMemoryStorage) (th : StoreThread) (m : Mutator)
    (added : List Str), (t, e) ∈ p.log → p.threads[t]? = some th → th.call.call = .mutate m →
    Committed e → m.addedAliases = some added →
    ∃ old stored new metadata, e.pre.get m.path = some old ∧
      metadataFromMap old.metadata = .ok stored ∧ e.post.get m.path = some new ∧
      metadataFromMap new.metadata = .ok metadata ∧
      metadata.aliases = stored.aliases ++ (added.filter (· ∉ stored.aliases)).eraseDups

/-- A commit of a mutator that records a source is its put. -/
theorem put_of_committed (h : Pool.Run (inMemory lossy) Invocation.body P .empty p)
    {l l' : Log StoreSig InMemoryStorage} {t : Nat} {e : Event StoreSig InMemoryStorage}
    (hl : p.log = l ++ (t, e) :: l') {th : StoreThread} (ht : p.threads[t]? = some th) {m : Mutator}
    (hcall : th.call.call = .mutate m) (hc : Committed e)
    (hwrites : ∀ expected, m ≠ .deleteFile m.path expected) :
    ∃ now wr, m.Edits th.call.store now wr (e.pre.get m.path) ∧
      e.post = e.pre.putLocked m.path wr.data wr.map := by
  obtain ⟨th', ht', -, hG, ha⟩ := store_guarantee h hl
  cases ht.symm.trans ht'
  rw [hcall] at hG
  cases Mutator.commits_of_guarantee hG ha hc with
  | put now wr edits post => exact ⟨now, wr, edits, post⟩
  | delete expected delete version post => exact absurd delete (hwrites expected)

/-- **The stored state**, after any interleaving of any calls. -/
theorem stored_state (h : Pool.Run (inMemory lossy) Invocation.body P .empty p)
    (hcalls : ∀ th ∈ p.threads, Admitted bytes th.call) : StoredState bytes p := by
  refine ⟨(kept_of_run h hcalls).1, fun t th e ht hreturned => ?_, ?_, ?_⟩
  · obtain ⟨th', ht', hend⟩ := Pool.returned_eq_some.mp hreturned
    cases ht.symm.trans ht'
    have hmeets : Meets (Kept bytes) (ownTrace t p.log) := fun ev hev =>
      (kept_of_run h hcalls).2 _ (mem_ownTrace.mp hev)
    exact h.post (fun i : Invocation StoreCall => sat_refuses i) ht hend hmeets e rfl
  · intro l l' t e th m hl ht hcall hc hthere source hsource
    have hwrites : ∀ expected, m ≠ .deleteFile m.path expected := fun expected hm => by
      rw [hm] at hsource
      cases hsource
    obtain ⟨now, wr, hedits, hput⟩ := put_of_committed h hl ht hcall hc hwrites
    have hwritten : HasSource m.path source e.post := by
      obtain ⟨obj, metadata, hobj, hmetadata, hsame⟩ := stored_of_put h hcalls hl ht hcall hedits hput
      exact ⟨obj, metadata, hobj, hmetadata, hsame.sources ▸ hedits.sources.1 source hsource⟩
    have hchain := h.chain
    rw [hl] at hchain
    refine (hchain.split.2.2.keeps hwritten fun l₁ u e' l₂ hl' _ hpre => ?_).1
    have hsplit : p.log = (l ++ (t, e) :: l₁) ++ (u, e') :: l₂ := by
      rw [hl, hl', List.append_assoc, List.cons_append]
    have hmem : (u, e') ∈ l' := hl' ▸ List.mem_append_right _ List.mem_cons_self
    exact hasSource_keeps h hcalls hsplit (hthere _ hmem) hpre
  · intro t e th m added hmem ht hcall hc hadded
    obtain ⟨l, l', hl⟩ := List.append_of_mem hmem
    have hwrites : ∀ expected, m ≠ .deleteFile m.path expected := fun expected hm => by
      rw [hm] at hadded
      cases hadded
    obtain ⟨now, wr, hedits, hput⟩ := put_of_committed h hl ht hcall hc hwrites
    obtain ⟨old, stored, hold, hstored, haliases⟩ := hedits.aliases hadded
    obtain ⟨new, metadata, hnew, hmetadata, hsame⟩ := stored_of_put h hcalls hl ht hcall hedits hput
    exact ⟨old, stored, new, metadata, hold, hstored, hnew, hmetadata, hsame.aliases.trans haliases⟩

end Spec

/-- A create of a file with an alias. -/
def createCall (path : Str) : Invocation StoreCall :=
  ⟨.default, 1, .mutate (.writeFile path [] ⟨[], [str "a"], .empty, noon, one_line_nil, noon_aware⟩ none
    (str "s"))⟩

/-- A line for the file, with aliases of which one is there already and one is given twice. -/
def lineCall : Invocation StoreCall :=
  ⟨.default, 1, .mutate (.appendLine (str "user/u1/notes/n.md") (str "- [stated] x") (str "1") (str "t")
    (some [str "b", str "a", str "b"]) none)⟩

/-- An edit of that line, with another alias. -/
def editCall : Invocation StoreCall :=
  ⟨.default, 2, .mutate (.replaceFact (str "user/u1/notes/n.md") (str "x") (str "y") (str "2") (str "u")
    (some [str "c", str "a"]) none)⟩

/-- The file is created, appended to and edited, while another one is created. -/
def afterCalls : Option StorePool :=
  Pool.exec Reply.answer Invocation.body
    ([.invoke (createCall (str "user/u1/notes/n.md")), .invoke lineCall, .invoke editCall,
      .invoke (createCall (str "user/u1/notes/o.md"))] ++
      [0, 3, 0, 0, 1, 1, 3, 1, 2, 2, 3, 2].map fun t => .act t ⟨noon, false⟩) (Pool.init .empty)

end

/-- The texts of such a call are scalar. -/
theorem scalar_calls {c : StoreCall} (h : c ∈ [(createCall (str "user/u1/notes/n.md")).call,
    (createCall (str "user/u1/notes/o.md")).call, lineCall.call, editCall.call]) {m : Mutator}
    (hm : c = .mutate m) : Py.Scalar m.path ∧ ∀ a ∈ m.names, Py.Scalar a := by
  rw [hm] at h
  simp only [List.mem_cons, List.not_mem_nil, or_false] at h
  rcases h with h | h | h | h
  all_goals
    cases h
    exact ⟨scalar_str _, by simp [Mutator.names, scalar_str, FinSet.empty]⟩

/-- The calls return, and what they stored is as specified. -/
theorem stored_state_calls : let _ := Interpreter.ascii
    ∃ p, afterCalls = some p ∧ (∀ t < 4, (p.returned t).any (·.isOk) = true) ∧
      ((p.world.get (str "user/u1/notes/n.md")).any fun obj =>
        obj.metadata.get? aliasesKey = some (str "[\"a\", \"b\", \"c\"]") ∧
          obj.metadata.get? sourcesKey = some (str "[\"s\", \"t\", \"u\"]")) = true ∧
      StoredState 16384 p := by
  intro _
  have hends : (afterCalls.any fun p => (∀ t < 4, (p.returned t).any (·.isOk) = true) ∧
      ((p.world.get (str "user/u1/notes/n.md")).any fun obj =>
        obj.metadata.get? aliasesKey = some (str "[\"a\", \"b\", \"c\"]") ∧
          obj.metadata.get? sourcesKey = some (str "[\"s\", \"t\", \"u\"]")) = true ∧
      (p.threads.all fun th => th.call.store.maxFileBytes ≤ 16384 ∧
        th.call.call ∈ [(createCall (str "user/u1/notes/n.md")).call,
          (createCall (str "user/u1/notes/o.md")).call, lineCall.call, editCall.call]) = true) = true := by
    decide +kernel
  obtain ⟨p, hp, h⟩ := (Option.any_eq_true _ _).mp hends
  rw [decide_eq_true_eq] at h
  obtain ⟨hreturned, hstored, hthreads⟩ := h
  have hrun : Pool.Run (inMemory True) Invocation.body (fun _ => True) .empty p :=
    Pool.Run.exec Reply.answer Reply.handles_lossy (.init trivial) hp
  refine ⟨p, hp, hreturned, hstored, stored_state hrun fun th hth => ?_⟩
  obtain ⟨hsize, hcall⟩ := of_decide_eq_true (List.all_eq_true.mp hthreads th hth)
  exact ⟨hsize, fun m hm => (scalar_calls hcall hm).1, fun m hm => (scalar_calls hcall hm).2⟩

end Wenchang
