import Wenchang.Core.MemoryIndex
import Wenchang.Interaction.Pool

/-!
# The worlds a store runs in

An `Env` for `StoreSig` says how storage, clock, `uuid4` and the index cache answer. `inMemory lossy` is
an `InMemoryStorage` with everything else at liberty: clocks and caches answer what they like. With
`lossy` a conditional put may commit and still raise `PreconditionFailedError`, which is what a client
sees that retries a write whose response was lost.
-/

namespace Wenchang

open Py Ordered Interaction

/-- An answer of an `InMemoryStorage`, and the storage after it. -/
def handlesStorage (lossy : Prop) (s : InMemoryStorage) :
    (o : StorageOp) → o.Ans → InMemoryStorage → Prop
  | .putIfVersion key data metadata expected, a, s' =>
    (a, s') = s.putIfVersion key data metadata expected ∨
      (lossy ∧ s.version key = expected ∧ a = .error (.preconditionFailedError key) ∧
        s' = s.putLocked key data metadata)
  | o, a, s' => (a, s') = InMemoryStorage.step o s

/-- What an answer does to storage: what the operation writes is put, what it deletes is removed, or
nothing happens. -/
theorem handlesStorage_cases {lossy : Prop} {s s' : InMemoryStorage} {o : StorageOp} {a : o.Ans}
    (h : handlesStorage lossy s o a s') :
    (∃ key data metadata, o.write? = some (key, data, metadata) ∧
      s' = s.putLocked key data metadata) ∨
    (∃ key expected, o = .deleteIfVersion key expected ∧ s' = s.remove key) ∨ s' = s := by
  have hstep : (a, s') = InMemoryStorage.step o s →
      (∃ key data metadata, o.write? = some (key, data, metadata) ∧
        s' = s.putLocked key data metadata) ∨
      (∃ key expected, o = .deleteIfVersion key expected ∧ s' = s.remove key) ∨ s' = s := by
    intro h
    have hs' : s' = (InMemoryStorage.step o s).2 := congrArg Prod.snd h
    exact hs' ▸ InMemoryStorage.step_cases o s
  cases o with
  | putIfVersion key data metadata expected =>
    rcases h with h | ⟨-, -, -, hpost⟩
    · exact hstep h
    · exact .inl ⟨key, data, metadata, rfl, hpost⟩
  | _ => exact hstep h

/-- Whatever storage does leads to a later storage. -/
theorem later_of_handlesStorage {lossy : Prop} {s s' : InMemoryStorage} {o : StorageOp} {a : o.Ans}
    (h : handlesStorage lossy s o a s') : s.Later s' := by
  rcases handlesStorage_cases h with ⟨key, data, metadata, -, rfl⟩ | ⟨key, expected, -, rfl⟩ | rfl
  · exact InMemoryStorage.later_putLocked s key data metadata
  · exact InMemoryStorage.later_remove s key
  · exact InMemoryStorage.Later.refl _

/-- An in-memory storage, its puts perhaps lossy; clock, tokens and cache are arbitrary. -/
def inMemory (lossy : Prop) : Env StoreSig InMemoryStorage where
  handles s o a s' :=
    match o, a with
    | .storage o, a => handlesStorage lossy s o a s'
    | _, _ => s' = s
  rely := InMemoryStorage.Later
  rely_refl := InMemoryStorage.Later.refl
  rely_trans := InMemoryStorage.Later.trans
  rely_of_handles := fun {s o a s'} h => by
    cases o with
    | storage o => exact later_of_handlesStorage h
    | _ => exact h ▸ InMemoryStorage.Later.refl s

/-- A reply of a world with no cache: the clock's reading, and whether the response to a put is
lost. -/
structure Reply where
  now : DateTime
  lost : Bool

/-- Answer an operation with storage and a reply. -/
def Reply.answer (r : Reply) : (o : StoreOp) → InMemoryStorage → o.Ans × InMemoryStorage
  | .storage (.putIfVersion key data metadata expected), s =>
    if r.lost ∧ s.version key = expected then
      (.error (.preconditionFailedError key), s.putLocked key data metadata)
    else s.putIfVersion key data metadata expected
  | .storage o, s => InMemoryStorage.step o s
  | .clock, s => (r.now, s)
  | .uuid4, s => ([], s)
  | .cacheGet _, s => (.ok .absent, s)
  | .cacheSet _ _, s => (.ok (), s)

/-- A world that loses no response answers by the clock's readings alone. -/
def answerAt (now : DateTime) : (o : StoreOp) → InMemoryStorage → o.Ans × InMemoryStorage :=
  Reply.answer ⟨now, false⟩

/-- What is replied is handled, if losses are allowed where there is one. -/
theorem Reply.handles (r : Reply) (o : StoreOp) (s : InMemoryStorage) :
    (inMemory (r.lost = true)).handles s o (r.answer o s).1 (r.answer o s).2 := by
  cases o with
  | storage o =>
    cases o with
    | putIfVersion key data metadata expected =>
      by_cases hc : r.lost ∧ s.version key = expected
      · rw [answer, if_pos hc]
        exact .inr ⟨hc.1, hc.2, rfl, rfl⟩
      · rw [answer, if_neg hc]
        exact .inl rfl
    | _ => exact rfl
  | _ => exact rfl

/-- A storage without losses is one that may have them. -/
theorem inMemory_mono {lossy lossy' : Prop} (h : lossy → lossy') {s s' : InMemoryStorage}
    {o : StoreOp} {a : o.Ans} (hh : (inMemory lossy).handles s o a s') :
    (inMemory lossy').handles s o a s' := by
  cases o with
  | storage o =>
    cases o with
    | putIfVersion key data metadata expected => exact hh.imp id fun hl => ⟨h hl.1, hl.2⟩
    | _ => exact hh
  | _ => exact hh

/-- What is replied is handled where losses are allowed. -/
theorem Reply.handles_lossy (r : Reply) (o : StoreOp) (s : InMemoryStorage) :
    (inMemory True).handles s o (r.answer o s).1 (r.answer o s).2 :=
  inMemory_mono (fun _ => trivial) (r.handles o s)

/-- What is answered is handled. -/
theorem answerAt_handles (now : DateTime) (o : StoreOp) (s : InMemoryStorage) :
    (inMemory False).handles s o (answerAt now o s).1 (answerAt now o s).2 :=
  inMemory_mono Bool.false_ne_true (Reply.handles ⟨now, false⟩ o s)

/-- An operation that only concerns the index cache. -/
def StoreOp.OfCache : StoreOp → Prop
  | .uuid4 => True
  | .cacheGet _ => True
  | .cacheSet _ _ => True
  | _ => False

/-- What a call meets that runs alone: storage as it stands and a clock that reads `now`. The cache and
its tokens answer what they like, exceptions included. -/
def handlesAlone (now : DateTime) (s : InMemoryStorage) :
    (o : StoreOp) → o.Ans → InMemoryStorage → Prop
  | .storage o, a, s' => (a, s') = InMemoryStorage.step o s
  | .clock, a, s' => a = now ∧ s' = s
  | .uuid4, _, s' => s' = s
  | .cacheGet _, _, s' => s' = s
  | .cacheSet _ _, _, s' => s' = s

/-- A cache alone changes no storage. -/
theorem handlesAlone_ofCache {now : DateTime} {s s' : InMemoryStorage} {o : StoreOp} {a : o.Ans}
    (ho : o.OfCache) (h : handlesAlone now s o a s') : s' = s := by
  cases o with
  | storage o => exact absurd ho not_false
  | clock => exact absurd ho not_false
  | uuid4 => exact h
  | cacheGet key => exact h
  | cacheSet key value => exact h

/-- What is handled alone is what is answered. -/
theorem handlesAlone_answerAt {now : DateTime} {s s' : InMemoryStorage} {o : StoreOp} {a : o.Ans}
    (ho : ¬ o.OfCache) (h : handlesAlone now s o a s') : (a, s') = answerAt now o s := by
  cases o with
  | storage o =>
    cases o with
    | putIfVersion key data metadata expected =>
      have hanswer : answerAt now (.storage (.putIfVersion key data metadata expected)) s =
          s.putIfVersion key data metadata expected := by simp [answerAt, Reply.answer]
      exact h.trans hanswer.symm
    | _ => exact h
  | clock =>
    obtain ⟨rfl, rfl⟩ := h
    rfl
  | uuid4 => exact absurd trivial ho
  | cacheGet key => exact absurd trivial ho
  | cacheSet key value => exact absurd trivial ho

/-- What is answered is handled alone. -/
theorem answerAt_handlesAlone (now : DateTime) (s : InMemoryStorage) (o : StoreOp) :
    handlesAlone now s o (answerAt now o s).1 (answerAt now o s).2 := by
  cases o with
  | storage o =>
    cases o with
    | putIfVersion key data metadata expected => simp [handlesAlone, answerAt, Reply.answer,
        InMemoryStorage.step]
    | _ => rfl
  | clock => exact ⟨rfl, rfl⟩
  | _ => rfl

/-- The map of four texts. -/
def metadataMap (description aliases sources lastUpdated : Str) : Metadata :=
  (((FinMap.empty.insert descriptionKey description).insert aliasesKey aliases).insert
    sourcesKey sources).insert lastUpdatedKey lastUpdated

/-- A storage that holds one file with empty metadata. -/
def InMemoryStorage.single (path : Str) (data : Bytes) : InMemoryStorage :=
  InMemoryStorage.empty.putLocked path data <|
    (((FinMap.empty.insert descriptionKey []).insert aliasesKey (str "[]")).insert sourcesKey
      (str "[]")).insert lastUpdatedKey (str "2026-01-01T00:00:00Z")

/-- A reading of the clock in 2026. -/
def noon : DateTime := ⟨2026, 1, 2, 12, 0, 0, 0, some 0, by decide⟩

/-- Noon is aware. -/
theorem noon_aware : noon.utcoffset.isSome = true := rfl

/-- The empty description is on one line. -/
theorem one_line_nil : (10 : CodePoint) ∉ ([] : Str) ∧ (13 : CodePoint) ∉ ([] : Str) := by simp

end Wenchang
