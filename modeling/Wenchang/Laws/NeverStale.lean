import Wenchang.Interaction.Register
import Wenchang.Laws.CacheGuarantees
import Wenchang.Laws.FreshIndex

/-!
# No stale listing, whatever the interleaving

Any number of readers, mutators, purges and invalidations over one storage and one cache, interleaved at their
storage and cache operations. A token is drawn once and set once, so it is a register's value that, where it
stands twice, has stood between: a listing tagged with the token that a reader finds was drained after every
token that was replaced before. With the replacement that follows each change of a file (`Settled`), an index
shows nothing that was listed before a change that had been made when the reader began (`index_never_stale`).
-/

namespace Wenchang

open Py Ordered Interaction

/-! ## Tokens are set once -/

section Registers

variable (raises : Exc → Prop)

/-- What was last set at a key of the cache. -/
def cacheRegister (key : Str) : Register (shared raises) Str where
  value w := w.cache.get? key
  write?
    | .cacheSet k value => if k = key then some value else none
    | _ => none
  handled {w o a w'} h := by
    cases o with
    | storage o =>
      obtain ⟨st, -, rfl⟩ := h
      rfl
    | clock => exact congrArg (·.cache.get? key) h
    | uuid4 =>
      obtain ⟨-, -, rfl⟩ := h
      rfl
    | cacheGet k => exact congrArg (·.cache.get? key) h.1
    | cacheSet k value =>
      obtain ⟨-, rfl⟩ := h
      dsimp only
      rw [SharedWorld.set_cache, FinMap.get?_insert]
      by_cases hk : k = key
      · rw [if_pos hk, if_pos hk.symm, Option.some_or]
      · rw [if_neg hk, if_neg (Ne.symm hk), Option.none_or]

/-- A register of the cache is written by a set of its key. -/
theorem cacheRegister_write?_eq_some {key value : Str} {o : StoreOp} :
    (cacheRegister raises key).write? o = some value ↔ o = .cacheSet key value := by
  cases o with
  | cacheSet k v => simp [cacheRegister, ite_eq_iff]
  | _ => simp [cacheRegister]

end Registers

/-- The token that an operation drew. -/
def drawnToken (e : Event StoreSig SharedWorld) : Option Str :=
  match e with
  | ⟨_, .uuid4, token, _⟩ => some token
  | _ => none

/-- A token is drawn by `uuid4`. -/
theorem drawnToken_eq_some {e : Event StoreSig SharedWorld} {token : Str} :
    drawnToken e = some token ↔ ∃ w w', e = ⟨w, .uuid4, token, w'⟩ := by
  obtain ⟨w, o, a, w'⟩ := e
  cases o with
  | uuid4 =>
    constructor
    · intro h
      cases h
      exact ⟨w, w', rfl⟩
    · rintro ⟨v, v', h⟩
      cases h
      rfl
  | _ =>
    constructor
    · intro h
      cases h
    · rintro ⟨v, v', h⟩
      cases h

/-- No token is drawn twice. -/
theorem drawn_once {raises : Exc → Prop} {w w' : SharedWorld} {l : Log StoreSig SharedWorld}
    (h : Chain (shared raises) w l w') {i j t u : Nat} {e e' : Event StoreSig SharedWorld} {token : Str}
    (hi : l[i]? = some (t, e)) (hj : l[j]? = some (u, e')) (he : drawnToken e = some token)
    (he' : drawnToken e' = some token) : i = j := by
  have hlater : ∀ {i j t u : Nat} {e e' : Event StoreSig SharedWorld}, l[i]? = some (t, e) →
      l[j]? = some (u, e') → drawnToken e = some token → drawnToken e' = some token → ¬ i < j := by
    intro i j t u e e' hi hj he he' hlt
    have hrely := h.rely_at hi hj hlt
    have hdrawn := (h.at hi).2.1
    have hagain := (h.at hj).2.1
    obtain ⟨v, v', rfl⟩ := drawnToken_eq_some.mp he
    obtain ⟨x, x', rfl⟩ := drawnToken_eq_some.mp he'
    have hminted : v' = v.mint token := hdrawn.2.2
    have hmem : token ∈ v'.minted := hminted ▸ List.mem_cons_self
    exact hagain.2.1 (hrely.minted hmem)
  rcases Nat.lt_trichotomy i j with hlt | heq | hgt
  · exact absurd hlt (hlater hi hj he he')
  · exact heq
  · exact absurd hgt (hlater hj hi he' he)

/-- What a program did that first performs one operation. -/
theorem follows_ask_bind {W α : Type} {o : StoreOp} {f : o.Ans → Store α} {tr : Trace StoreSig W} {b : α}
    (h : (ask o >>= f).Follows tr (.ret b)) :
    ∃ w a w' tr', tr = ⟨w, o, a, w'⟩ :: tr' ∧ (f a).Follows tr' (.ret b) := by
  obtain ⟨a, tr₁, tr₂, rfl, hask, hrest⟩ := h.of_bind
  unfold ask at hask
  cases hask with
  | cons w o a w' k hret =>
    cases hret
    exact ⟨w, _, w', tr₂, rfl, hrest⟩

/-- A result at hand was returned at once. -/
theorem follows_ofExcept {W α : Type} {r : Except Exc α} {a : α} {tr : Trace StoreSig W}
    (h : (Prog.ofExcept r : Store α).Follows tr (.ret a)) : r = .ok a ∧ tr = [] := by
  cases r with
  | error e => cases h
  | ok b =>
    cases h
    exact ⟨rfl, rfl⟩

/-! ## Calls over one cache -/

section

variable [Interpreter]

/-- The specification of a call, where it uses this cache. -/
theorem sat_invocation (raises : Exc → Prop) (cache : IndexCache) (i : Invocation StoreCall) :
    i.body.Sat (shared raises) (fun tr o => UsesCache cache i → CacheGuarantee i.store cache tr o)
      (fun tr _ => UsesCache cache i → Settled cache none tr) [] := by
  by_cases huses : UsesCache cache i
  · exact (sat_call huses).mono (fun _ _ hG _ => hG) fun _ _ hsettled _ => hsettled
  · exact (Prog.issues_true _).sat (fun _ _ _ h => absurd h huses) fun _ _ _ h => absurd h huses

section Run

variable {raises : Exc → Prop} {cache : IndexCache} {P : SharedPool → Prop} {w₀ : SharedWorld} {p : SharedPool}

/-- What is set is as the call that sets it guarantees. -/
theorem set_guarantee (h : Pool.Run (shared raises) Invocation.body P w₀ p)
    (huses : ∀ th ∈ p.threads, UsesCache cache th.call) {n t : Nat} {e : Event StoreSig SharedWorld}
    (hn : p.log[n]? = some (t, e)) : ∃ th, p.threads[t]? = some th ∧ th.start ≤ n ∧
      CacheGuarantee th.call.store cache (ownTrace t (p.log.take n)) e.op := by
  obtain ⟨hlt, hget⟩ := List.getElem?_eq_some_iff.mp hn
  have hsplit : p.log = p.log.take n ++ (t, e) :: p.log.drop (n + 1) := by
    rw [← hget, List.getElem_cons_drop, List.take_append_drop]
  obtain ⟨th, ht, hstart, hG, -⟩ := h.guarantee (sat_invocation raises cache) hsplit
  rw [List.length_take_of_le (Nat.le_of_lt hlt)] at hstart
  exact ⟨th, ht, hstart, hG (huses th (List.mem_of_getElem? ht))⟩

/-- A token that is set was drawn by the call just before. -/
theorem drawn_of_token_set (h : Pool.Run (shared raises) Invocation.body P w₀ p)
    (huses : ∀ th ∈ p.threads, UsesCache cache th.call) {scope entityId token : Str} {n t : Nat}
    {e : Event StoreSig SharedWorld} (hn : p.log[n]? = some (t, e))
    (he : e.op = .cacheSet (tokenKey cache scope entityId) token) :
    ∃ tr d, ownTrace t (p.log.take n) = tr ++ [d] ∧ drawnToken d = some token := by
  obtain ⟨th, -, -, hG⟩ := set_guarantee h huses hn
  rw [he] at hG
  obtain ⟨scope', entityId', -, -, ⟨-, tr, w, w', htr⟩ | ⟨hkey, -⟩⟩ := hG
  · exact ⟨tr, _, htr, rfl⟩
  · exact absurd hkey tokenKey_ne_listingKey

/-- No token of an entity is set twice. -/
theorem token_once (h : Pool.Run (shared raises) Invocation.body P w₀ p)
    (huses : ∀ th ∈ p.threads, UsesCache cache th.call) (scope entityId : Str) :
    (cacheRegister raises (tokenKey cache scope entityId)).Once p.log := by
  apply Register.once_of_drawn
  · intro i j t u e e' token hi hj he he'
    exact drawn_once h.chain hi hj he he'
  · intro n t e token hn he
    exact drawn_of_token_set h huses hn ((cacheRegister_write?_eq_some raises).mp he)

/-- A token that was observed stood there, or was set. -/
theorem value_of_observes {scope entityId token : Str} (h : Pool.Run (shared raises) Invocation.body P w₀ p)
    {n t : Nat} {e : Event StoreSig SharedWorld} (hn : p.log[n]? = some (t, e))
    (he : Observes cache scope entityId token e) :
    (cacheRegister raises (tokenKey cache scope entityId)).value e.pre = some token ∨
      (cacheRegister raises (tokenKey cache scope entityId)).write? e.op = some token := by
  rcases he with ⟨w, w', rfl⟩ | hset
  · exact .inl ((h.chain.at hn).2.1.2 token rfl)
  · exact .inr ((cacheRegister_write?_eq_some raises).mpr hset)

/-- A token that was observed is one. -/
theorem hex_of_observes (hempty : ∀ key, w₀.cache.get? key = none)
    (h : Pool.Run (shared raises) Invocation.body P w₀ p)
    (huses : ∀ th ∈ p.threads, UsesCache cache th.call) {scope entityId token : Str} {n t : Nat}
    {e : Event StoreSig SharedWorld} (hn : p.log[n]? = some (t, e))
    (he : Observes cache scope entityId token e) : IsHexToken token := by
  have hset : ∀ {m u : Nat} {e' : Event StoreSig SharedWorld}, p.log[m]? = some (u, e') →
      (cacheRegister raises (tokenKey cache scope entityId)).write? e'.op = some token → IsHexToken token := by
    intro m u e' hm hwrite
    obtain ⟨tr, d, htr, hd⟩ :=
      drawn_of_token_set h huses hm ((cacheRegister_write?_eq_some raises).mp hwrite)
    obtain ⟨k, hk, -⟩ := ownTrace_last htr
    have hkm : k < m := by
      have := (List.getElem?_eq_some_iff.mp hk).1
      rw [List.length_take] at this
      omega
    rw [List.getElem?_take_of_lt hkm] at hk
    have hdrawn := (h.chain.at hk).2.1
    obtain ⟨v, v', rfl⟩ := drawnToken_eq_some.mp hd
    exact hdrawn.1
  rcases value_of_observes h hn he with hvalue | hwrite
  · obtain ⟨m, u, e', hm, -, hwrite, -⟩ :=
      (cacheRegister raises _).last_write_before h.chain (hempty _) hn hvalue
    exact hset hm hwrite
  · exact hset hn hwrite

end Run

/-! ## What a reader is shown -/

/-- A call drained an entity, from a moment on. -/
def SharedPool.Drained (p : SharedPool) (pre : Str) (since : Nat) (entries : List FileEntry) : Prop :=
  ∃ (v fuel : Nat) (th : Thread StoreSig Exc StoreResult (Invocation StoreCall))
    (l l' : Log StoreSig SharedWorld), p.threads[v]? = some th ∧ p.log.drop since = l ++ l' ∧
    (th.call.store.drain pre fuel none).Follows (ownTrace v l) (.ret entries)

/-- A call had ended when the log was of some length. -/
def SharedPool.EndedBefore (p : SharedPool) (u n : Nat) : Prop :=
  (∃ r, p.returned u = some r) ∧ ∀ (j : Nat) (e : Event StoreSig SharedWorld), p.log[j]? = some (u, e) → j < n

/-- Entries of an entity that are no older than a reader: they were drained, by the reader or by the call whose
listing it found, after every token of the entity that had been replaced before the reader began, and after every
change that calls had made which had ended by then. What was drained is shown as it is, or as it reads back from
the cache. -/
def SharedPool.Fresh (p : SharedPool) (cache : IndexCache) (start : Nat) (scope entityId : Str)
    (entries : List FileEntry) : Prop :=
  ∃ since listed, p.Drained (entityPrefix scope entityId) since listed ∧
    (entries = listed ∨ ∃ token,
      decodeListing (encodeListing token listed) token (entityPrefix scope entityId) = some entries) ∧
    (∀ (j u : Nat) (e : Event StoreSig SharedWorld), p.log[j]? = some (u, e) → j < start →
      e.op.Replaces cache scope entityId → j < since) ∧
    ∀ (j u : Nat) (e : Event StoreSig SharedWorld), p.log[j]? = some (u, e) → p.EndedBefore u start →
      e.op.Changes (entityPrefix scope entityId) → j < since

section Reader

variable {raises : Exc → Prop} {cache : IndexCache} {P : SharedPool → Prop} {w₀ : SharedWorld} {p : SharedPool}
  {scope entityId : Str}

/-- A change of a call that has ended was followed by another token. -/
theorem replaced_after_change (h : Pool.Run (shared raises) Invocation.body P w₀ p)
    (huses : ∀ th ∈ p.threads, UsesCache cache th.call) (hs : isValidSegment scope = true)
    (he : isValidSegment entityId = true) {j u n : Nat} {e : Event StoreSig SharedWorld}
    (hj : p.log[j]? = some (u, e)) (hended : p.EndedBefore u n)
    (hchanges : e.op.Changes (entityPrefix scope entityId)) :
    ∃ (k : Nat) (e' : Event StoreSig SharedWorld), p.log[k]? = some (u, e') ∧ j < k ∧ k < n ∧
      e'.op.Replaces cache scope entityId := by
  obtain ⟨⟨r, hr⟩, hbefore⟩ := hended
  obtain ⟨th, ht, hout⟩ := Pool.returned_eq_some.mp hr
  have hsettled := h.post (sat_invocation raises cache) ht hout (huses th (List.mem_of_getElem? ht))
  obtain ⟨hlt, hget⟩ := List.getElem?_eq_some_iff.mp hj
  have hsplit : p.log = p.log.take j ++ (u, e) :: p.log.drop (j + 1) := by
    rw [← hget, List.getElem_cons_drop, List.take_append_drop]
  have hown : ownTrace u p.log = ownTrace u (p.log.take j) ++ e :: ownTrace u (p.log.drop (j + 1)) := by
    conv => lhs; rw [hsplit, ownTrace_append]
    congr 1
    simp [ownTrace]
  rcases hsettled _ e _ scope entityId hown hs he hchanges with hopen | ⟨e', he', hreplaces⟩
  · cases hopen
  · obtain ⟨i, hi⟩ := List.getElem?_of_mem (mem_ownTrace.mp he')
    rw [List.getElem?_drop] at hi
    exact ⟨j + 1 + i, e', hi, by omega, hbefore _ _ hi, hreplaces⟩

/-- It is enough that the tokens that were replaced before had been. -/
theorem SharedPool.fresh_of_replaced (h : Pool.Run (shared raises) Invocation.body P w₀ p)
    (huses : ∀ th ∈ p.threads, UsesCache cache th.call) (hs : isValidSegment scope = true)
    (he : isValidSegment entityId = true) {start since : Nat} {entries listed : List FileEntry}
    (hdrained : p.Drained (entityPrefix scope entityId) since listed)
    (hshown : entries = listed ∨ ∃ token,
      decodeListing (encodeListing token listed) token (entityPrefix scope entityId) = some entries)
    (hreplaced : ∀ (j u : Nat) (e : Event StoreSig SharedWorld), p.log[j]? = some (u, e) → j < start →
      e.op.Replaces cache scope entityId → j < since) : p.Fresh cache start scope entityId entries := by
  refine ⟨since, listed, hdrained, hshown, hreplaced, fun j u e hj hended hchanges => ?_⟩
  obtain ⟨k, e', hk, hjk, hkn, hreplaces⟩ := replaced_after_change h huses hs he hj hended hchanges
  exact hjk.trans (hreplaced k u e' hk hkn hreplaces)

/-- Where a call drained, in its part of the log. -/
theorem drained_of_ownTrace {v n fuel : Nat} {th : Thread StoreSig Exc StoreResult (Invocation StoreCall)}
    (hv : p.threads[v]? = some th) {tr drained tr' : SharedTrace} {pre : Str} {entries : List FileEntry}
    (htr : ownTrace v (p.log.take n) = tr ++ drained ++ tr')
    (hfollows : (th.call.store.drain pre fuel none).Follows drained (.ret entries)) :
    ∃ since, p.Drained pre since entries ∧ ∀ e ∈ tr, ∃ m : Nat, p.log[m]? = some (v, e) ∧ m < since := by
  obtain ⟨l₁₂, l₃, hl, hl₁₂, -⟩ := ownTrace_eq_append htr
  obtain ⟨l₁, l₂, rfl, rfl, rfl⟩ := ownTrace_eq_append hl₁₂
  have hlog : p.log = l₁ ++ (l₂ ++ (l₃ ++ p.log.drop n)) := by
    rw [← List.append_assoc, ← List.append_assoc, ← hl, List.take_append_drop]
  refine ⟨l₁.length, ⟨v, fuel, th, l₂, l₃ ++ p.log.drop n, hv, ?_, hfollows⟩, fun e hmem => ?_⟩
  · have hdrop := congrArg (List.drop l₁.length) hlog
    rwa [List.drop_left] at hdrop
  · obtain ⟨m, hm⟩ := List.getElem?_of_mem (mem_ownTrace.mp hmem)
    have hlt := (List.getElem?_eq_some_iff.mp hm).1
    exact ⟨m, by rw [hlog, List.getElem?_append_left hlt, hm], hlt⟩

/-- A listing that is found was drained by a call that knew the token it is tagged with. -/
theorem drained_of_found (hempty : ∀ key, w₀.cache.get? key = none)
    (h : Pool.Run (shared raises) Invocation.body P w₀ p)
    (huses : ∀ th ∈ p.threads, UsesCache cache th.call) (hs : isValidSegment scope = true) {n t : Nat}
    {e : Event StoreSig SharedWorld} (hn : p.log[n]? = some (t, e)) {token raw : Str} {hit : List FileEntry}
    (hfound : e.pre.cache.get? (listingKey cache scope entityId) = some raw)
    (hdecode : decodeListing raw token (entityPrefix scope entityId) = some hit) :
    ∃ (since m v : Nat) (listed : List FileEntry) (e' : Event StoreSig SharedWorld),
      p.Drained (entityPrefix scope entityId) since listed ∧
      raw = encodeListing token listed ∧ p.log[m]? = some (v, e') ∧ m < since ∧
      Observes cache scope entityId token e' := by
  obtain ⟨k, v, d, hk, -, hwrite, -⟩ :=
    (cacheRegister raises _).last_write_before h.chain (hempty _) hn hfound
  obtain ⟨th, hv, -, hG⟩ := set_guarantee h huses hk
  rw [(cacheRegister_write?_eq_some raises).mp hwrite] at hG
  obtain ⟨scope', entityId', hs', -, ⟨hkey, -⟩ | ⟨hkey, htomb | htagged⟩⟩ := hG
  · exact absurd hkey.symm tokenKey_ne_listingKey
  · rw [htomb, decodeListing_tombstone] at hdecode
    cases hdecode
  · obtain ⟨rfl, rfl⟩ := listingKey_inj hs hs' hkey
    obtain ⟨tr₁, e', tr₂, drained, fuel, token', listed, htr, hobserves, hfollows, rfl⟩ := htagged
    have htrace : ownTrace v (p.log.take k) = (tr₁ ++ e' :: tr₂) ++ drained ++ [] := by
      rw [htr, List.append_nil]
    obtain ⟨since, hdrained, hbefore⟩ := drained_of_ownTrace hv htrace hfollows
    obtain ⟨m, hm, hlt⟩ := hbefore e' (List.mem_append_right _ List.mem_cons_self)
    have htag : joinPairs token' = token := (tag_of_decodeListing hdecode).1
    rw [(hex_of_observes hempty h huses hm hobserves).scalar.joined] at htag
    subst htag
    exact ⟨since, m, v, listed, e', hdrained, rfl, hm, hlt, hobserves⟩

end Reader

/-! ## What a reader did -/

/-- What a refill returns it drained first. -/
theorem follows_refill {s : MemoryStore} {cache : IndexCache} {scope entityId pre token : Str} {fuel : Nat}
    {tr : SharedTrace} {part : List FileEntry}
    (h : (s.refill fuel cache scope entityId pre token).Follows tr (.ret part)) :
    ∃ drained tr', tr = drained ++ tr' ∧ (s.drain pre fuel none).Follows drained (.ret part) := by
  obtain ⟨entries, drained, tr', rfl, hdrain, hset⟩ := h.of_bind
  obtain ⟨w, a, w', tr'', rfl, hret⟩ := follows_ask_bind hset
  cases hret
  exact ⟨drained, _, rfl, hdrain⟩

/-- A reader found a listing under the token that it found, or it drained the entity. -/
theorem follows_cachedEntityEntries {s : MemoryStore} {cache : IndexCache} {scope entityId : Str} {fuel : Nat}
    {tr : SharedTrace} {part : List FileEntry} (hs : isValidSegment scope = true)
    (he : isValidSegment entityId = true)
    (h : (s.cachedEntityEntries fuel cache scope entityId).Follows tr (.ret part)) :
    (∃ w w' v v' token raw, tr = [⟨w, .cacheGet (tokenKey cache scope entityId), .ok (.text token), w'⟩,
        ⟨v, .cacheGet (listingKey cache scope entityId), .ok (.text raw), v'⟩] ∧
      decodeListing raw token (entityPrefix scope entityId) = some part) ∨
    ∃ e tr₁ drained tr₂, tr = (e :: tr₁) ++ drained ++ tr₂ ∧
      (s.drain (entityPrefix scope entityId) fuel none).Follows drained (.ret part) := by
  unfold MemoryStore.cachedEntityEntries orValueError at h
  have hprefix : joinSegments [scope, entityId] = entityPrefix scope entityId := rfl
  simp only [buildPrefix_entity hs he, Except.mapError, Prog.ofExcept_ok, Prog.ret_bind, hprefix, cacheGet,
    cacheSet, bind_assoc] at h
  obtain ⟨w, found, w', tr₁, rfl, hrest⟩ := follows_ask_bind h
  have hmiss : (ask .uuid4 >>= fun token => ask (.cacheSet (tokenKey cache scope entityId) token) >>= fun _ =>
      s.refill fuel cache scope entityId (entityPrefix scope entityId) token : Store (List FileEntry)).Follows
        tr₁ (.ret part) → ∃ tr₂ drained tr₃, tr₁ = tr₂ ++ drained ++ tr₃ ∧
          (s.drain (entityPrefix scope entityId) fuel none).Follows drained (.ret part) := by
    intro hdraw
    obtain ⟨v, token, v', tr₂, rfl, hset⟩ := follows_ask_bind hdraw
    obtain ⟨u, a, u', tr₃, rfl, hrefill⟩ := follows_ask_bind hset
    obtain ⟨drained, tr₄, rfl, hdrain⟩ := follows_refill hrefill
    exact ⟨[_, _], drained, tr₄, rfl, hdrain⟩
  have hdrains : (∃ tr₂ drained tr₃, tr₁ = tr₂ ++ drained ++ tr₃ ∧
      (s.drain (entityPrefix scope entityId) fuel none).Follows drained (.ret part)) →
      ∃ e tr₂ drained tr₃, ⟨w, .cacheGet (tokenKey cache scope entityId), found, w'⟩ :: tr₁ =
        (e :: tr₂) ++ drained ++ tr₃ ∧
        (s.drain (entityPrefix scope entityId) fuel none).Follows drained (.ret part) := by
    rintro ⟨tr₂, drained, tr₃, rfl, hdrain⟩
    exact ⟨_, tr₂, drained, tr₃, rfl, hdrain⟩
  cases found with
  | error e => exact .inr (hdrains (hmiss hrest))
  | ok value =>
    cases value with
    | absent => exact .inr (hdrains (hmiss hrest))
    | other => exact .inr (hdrains (hmiss hrest))
    | text token =>
      obtain ⟨v, raw, v', tr₂, rfl, hread⟩ := follows_ask_bind hrest
      have hrefill : (s.refill fuel cache scope entityId (entityPrefix scope entityId) token).Follows tr₂
          (.ret part) → ∃ tr₃ drained tr₄,
            ⟨v, .cacheGet (listingKey cache scope entityId), raw, v'⟩ :: tr₂ = tr₃ ++ drained ++ tr₄ ∧
            (s.drain (entityPrefix scope entityId) fuel none).Follows drained (.ret part) := by
        intro hrefill
        obtain ⟨drained, tr₃, rfl, hdrain⟩ := follows_refill hrefill
        exact ⟨[_], drained, tr₃, rfl, hdrain⟩
      cases raw with
      | error e => exact .inr (hdrains (hrefill hread))
      | ok cached =>
        cases cached with
        | absent => exact .inr (hdrains (hrefill hread))
        | other => exact .inr (hdrains (hrefill hread))
        | text raw =>
          cases hdecode : decodeListing raw token (entityPrefix scope entityId) with
          | none =>
            simp only [pure_bind, Option.bind_some, hdecode] at hread
            exact .inr (hdrains (hrefill hread))
          | some hit =>
            simp only [pure_bind, Option.bind_some, hdecode] at hread
            cases hread
            exact .inl ⟨w, w', v, v', token, raw, rfl, hdecode⟩

/-- What is collected is what each entity's read returned. -/
theorem follows_collect {s : MemoryStore} {fuel : Nat} {pairs : List (Str × Str)} {tr : SharedTrace}
    {collected : List FileEntry} (h : (s.collect fuel pairs).Follows tr (.ret collected)) :
    ∃ parts, collected = parts.flatten ∧ List.Forall₂ (fun pair part => pair ∈ pairs ∧
      ∃ tr₁ tr₂ tr₃, tr = tr₁ ++ tr₂ ++ tr₃ ∧ (s.entityEntries fuel pair.1 pair.2).Follows tr₂ (.ret part))
      pairs parts := by
  induction pairs generalizing tr collected with
  | nil =>
    cases h
    exact ⟨[], rfl, .nil⟩
  | cons pair rest ih =>
    obtain ⟨scope, entityId⟩ := pair
    rw [collect_cons] at h
    obtain ⟨part, tr₁, tr₂, rfl, hentity, hrest⟩ := h.of_bind
    obtain ⟨others, tr₃, tr₄, rfl, hcollect, hret⟩ := hrest.of_bind
    cases hret
    obtain ⟨parts, rfl, hparts⟩ := ih hcollect
    refine ⟨part :: parts, rfl, .cons ⟨List.mem_cons_self, [], tr₁, tr₃ ++ [], rfl, hentity⟩ (hparts.imp ?_)⟩
    rintro pair part ⟨hpair, tr₅, tr₆, tr₇, rfl, hfollows⟩
    exact ⟨List.mem_cons_of_mem _ hpair, tr₁ ++ tr₅, tr₆, tr₇ ++ [], by simp, hfollows⟩

/-- An index is merged from what each entity's read returned. -/
theorem follows_getMemoryIndex {s : MemoryStore} {fuel : Nat} {scopeMap : List (Str × Str)} {tr : SharedTrace}
    {index : MemoryIndex} (h : (s.getMemoryIndex fuel scopeMap).Follows tr (.ret index)) :
    ∃ parts, s.mergeIndex parts.flatten = .ok index ∧ List.Forall₂ (fun pair part =>
      (isValidSegment pair.1 = true ∧ isValidSegment pair.2 = true) ∧ ∃ tr₁ tr₂ tr₃, tr = tr₁ ++ tr₂ ++ tr₃ ∧
        (s.entityEntries fuel pair.1 pair.2).Follows tr₂ (.ret part)) (sortedPairs scopeMap) parts := by
  obtain ⟨u, tr₀, tr₁, rfl, hcheck, hrest⟩ := Prog.Follows.of_bind h
  obtain ⟨hok, rfl⟩ := follows_ofExcept hcheck
  obtain ⟨collected, tr₂, tr₃, rfl, hcollect, hmerge⟩ := hrest.of_bind
  obtain ⟨hmerged, rfl⟩ := follows_ofExcept hmerge
  obtain ⟨parts, rfl, hparts⟩ := follows_collect hcollect
  refine ⟨parts, hmerged, hparts.imp ?_⟩
  rintro pair part ⟨hpair, tr₄, tr₅, tr₆, rfl, hfollows⟩
  refine ⟨(of_checkPairs hok).1.segments pair hpair, tr₄, tr₅, tr₆, by simp, hfollows⟩

/-! ## An index -/

section Index

variable {raises : Exc → Prop} {cache : IndexCache} {P : SharedPool → Prop} {w₀ : SharedWorld} {p : SharedPool}

/-- What a reader shows of an entity is fresh. -/
theorem fresh_of_follows (hempty : ∀ key, w₀.cache.get? key = none)
    (h : Pool.Run (shared raises) Invocation.body P w₀ p)
    (huses : ∀ th ∈ p.threads, UsesCache cache th.call) {t fuel : Nat}
    {th : Thread StoreSig Exc StoreResult (Invocation StoreCall)} (ht : p.threads[t]? = some th)
    {scope entityId : Str} (hs : isValidSegment scope = true) (he : isValidSegment entityId = true)
    {tr₁ tr₂ tr₃ : SharedTrace} (htr : ownTrace t p.log = tr₁ ++ tr₂ ++ tr₃) {part : List FileEntry}
    (hfollows : (th.call.store.cachedEntityEntries fuel cache scope entityId).Follows tr₂ (.ret part)) :
    p.Fresh cache th.start scope entityId part := by
  -- What the reader did it did since it began.
  have hstart : ∀ {m : Nat} {e : Event StoreSig SharedWorld}, p.log[m]? = some (t, e) → th.start ≤ m := by
    intro m e hm
    obtain ⟨th', ht', hle, -⟩ := set_guarantee h huses hm
    rw [ht] at ht'
    exact Option.some.inj ht' ▸ hle
  have hown : ∀ e ∈ tr₂, ∃ m : Nat, p.log[m]? = some (t, e) := by
    intro e hmem
    apply List.getElem?_of_mem
    apply mem_ownTrace.mp
    rw [htr]
    exact List.mem_append_left _ (List.mem_append_right _ hmem)
  rcases follows_cachedEntityEntries hs he hfollows with
    ⟨w, w', v, v', token, raw, rfl, hdecode⟩ | ⟨e, tr, drained, tr', rfl, hdrain⟩
  · obtain ⟨n, hn⟩ := hown _ List.mem_cons_self
    obtain ⟨k, hk⟩ := hown _ (List.mem_cons_of_mem _ List.mem_cons_self)
    have hcurrent := (h.chain.at hn).2.1.2 token rfl
    have hfound := (h.chain.at hk).2.1.2 raw rfl
    obtain ⟨since, m, u, listed, e', hdrained, rfl, hm, hlt, hobserves⟩ :=
      drained_of_found hempty h huses hs hk hfound hdecode
    refine SharedPool.fresh_of_replaced h huses hs he hdrained (.inr ⟨token, hdecode⟩) fun j u' e hj hjs hset => ?_
    obtain ⟨token', hset⟩ := hset
    have hwritten := (cacheRegister_write?_eq_some raises).mpr hset
    have hjm := Register.stood _ h.chain (hempty _) (token_once h huses scope entityId) hn hcurrent hm
      (value_of_observes h hm hobserves) hj (by rw [hwritten]; rfl) (Nat.lt_of_lt_of_le hjs (hstart hn))
    exact Nat.lt_of_le_of_lt hjm hlt
  · have htrace : ownTrace t (p.log.take p.log.length) = (tr₁ ++ e :: tr) ++ drained ++ (tr' ++ tr₃) := by
      rw [List.take_length, htr]
      simp
    obtain ⟨since, hdrained, hbefore⟩ := drained_of_ownTrace ht htrace hdrain
    obtain ⟨m, hm, hlt⟩ := hbefore e (List.mem_append_right _ List.mem_cons_self)
    refine SharedPool.fresh_of_replaced h huses hs he hdrained (.inl rfl) fun j u e' hj hjs _ => ?_
    exact hjs.trans (Nat.lt_of_le_of_lt (hstart hm) hlt)

/-- **An index is never stale.** However readers, mutators, purges and invalidations of any number of stores over
one storage and one cache interleave, what an index merges of each entity was drained after every token of the
entity that had been replaced, and every change of one of its files that had been made by a call that had ended,
when the reader began. -/
theorem index_never_stale (hempty : ∀ key, w₀.cache.get? key = none)
    (h : Pool.Run (shared raises) Invocation.body P w₀ p)
    (huses : ∀ th ∈ p.threads, UsesCache cache th.call) {t : Nat}
    {th : Thread StoreSig Exc StoreResult (Invocation StoreCall)} (ht : p.threads[t]? = some th)
    {scopeMap : List (Str × Str)} (hcall : th.call.call = .getMemoryIndex scopeMap) {index : MemoryIndex}
    (hreturned : p.returned t = some (.ok (.index index))) :
    ∃ parts : List (List FileEntry), th.call.store.mergeIndex parts.flatten = .ok index ∧
      List.Forall₂ (fun pair part => p.Fresh cache th.start pair.1 pair.2 part) (sortedPairs scopeMap) parts := by
  obtain ⟨th', ht', hout⟩ := Pool.returned_eq_some.mp hreturned
  rw [ht] at ht'
  obtain rfl := Option.some.inj ht'
  have hret : th.prog = .ret (.index index) := Prog.eq_of_outcome hout
  have hfollows := h.follows ht
  rw [hret, Invocation.body, hcall, StoreCall.body] at hfollows
  obtain ⟨index', tr, tr', htr, hindex, hlast⟩ := hfollows.of_bind
  cases hlast
  obtain ⟨parts, hmerge, hparts⟩ := follows_getMemoryIndex hindex
  refine ⟨parts, hmerge, hparts.imp ?_⟩
  rintro pair part ⟨⟨hs, he⟩, tr₁, tr₂, tr₃, rfl, hentity⟩
  have hcache : th.call.store.indexCache = some cache := huses th (List.mem_of_getElem? ht)
  simp only [MemoryStore.entityEntries, hcache] at hentity
  exact fresh_of_follows hempty h huses ht hs he (by rw [htr, List.append_nil]) hentity

end Index

end

/-! ## Two readers and two writers -/

/-- A file is put into an entity that holds none. -/
def writeCall (path : Str) : Invocation StoreCall :=
  ⟨cachedStore, 2, .mutate (.writeFile path [] ⟨[], [], .empty, noon, one_line_nil, noon_aware⟩ none (str "s"))⟩

/-- The entity's index. -/
def indexCall : Invocation StoreCall := ⟨cachedStore, 2, .getMemoryIndex [(str "user", str "u1")]⟩

/-- A reader lists an entity, a file is written, and the reader stores what it listed. The next reader lists anew,
and the one after it is served from the cache. -/
def racingSchedule : List (Choice (Invocation StoreCall) Unit) := List.flatten
  [.invoke (writeCall (str "user/u1/notes/n.md")) :: List.replicate 5 (.act 0 ()),
    .invoke indexCall :: List.replicate 3 (.act 1 ()),
    .invoke (writeCall (str "user/u1/notes/m.md")) :: List.replicate 5 (.act 2 ()), [.act 1 ()],
    .invoke indexCall :: List.replicate 4 (.act 3 ()), .invoke indexCall :: List.replicate 2 (.act 4 ())]

/-- A drain races with a write, and a later index, served from the cache, has both files. -/
theorem index_never_stale_racing : let _ := Interpreter.ascii
    ∃ (p : SharedPool) (th : Thread StoreSig Exc StoreResult (Invocation StoreCall)) (index : MemoryIndex)
      (parts : List (List FileEntry)),
      Pool.Run (shared fun _ => False) Invocation.body (fun _ => True) SharedWorld.start p ∧
      p.threads[4]? = some th ∧ (ownTrace 4 p.log).length = 2 ∧ p.returned 4 = some (.ok (.index index)) ∧
      cachedStore.mergeIndex (p.world.storage.listEntries (entityPrefix (str "user") (str "u1"))) = .ok index ∧
      th.call.store.mergeIndex parts.flatten = .ok index ∧
      List.Forall₂ (fun pair part => p.Fresh ⟨[]⟩ th.start pair.1 pair.2 part)
        (sortedPairs [(str "user", str "u1")]) parts := by
  intro _
  have hends : ((Pool.execWhere (fun _ o w => answerShared o w) (fun _ w o => answersShared w o) Invocation.body
      racingSchedule ⟨SharedWorld.start, [], []⟩).any fun p =>
        (p.threads.all fun th => th.call.store.indexCache = some ⟨[]⟩) = true ∧
        (ownTrace 4 p.log).length = 2 ∧
        p.threads[4]?.map (·.call.call) = some (.getMemoryIndex [(str "user", str "u1")]) ∧
        (cachedStore.mergeIndex (p.world.storage.listEntries (entityPrefix (str "user") (str "u1")))).isOk = true ∧
        (p.returned 4).any (fun r => r.toOption = (cachedStore.mergeIndex (p.world.storage.listEntries
          (entityPrefix (str "user") (str "u1")))).toOption.map .index) = true) = true := by
    decide +kernel
  obtain ⟨p, hp, h⟩ := (Option.any_eq_true _ _).mp hends
  rw [decide_eq_true_eq] at h
  obtain ⟨hcaches, htwo, hcall, hmerged, hreturned⟩ := h
  have hrun : Pool.Run (shared fun _ => False) Invocation.body (fun _ => True) SharedWorld.start p :=
    Pool.Run.execWhere (fun _ o w => answerShared o w)
      (fun _ o w hok => answerShared_handles (fun _ => False) w o hok) (.init trivial) hp
  have huses : ∀ th ∈ p.threads, UsesCache ⟨[]⟩ th.call := by
    intro th hth
    have huses := List.all_eq_true.mp hcaches th hth
    rwa [decide_eq_true_eq] at huses
  obtain ⟨th, ht, hcall⟩ := Option.map_eq_some_iff.mp hcall
  cases hindex : cachedStore.mergeIndex (p.world.storage.listEntries (entityPrefix (str "user") (str "u1"))) with
  | error e =>
    rw [hindex] at hmerged
    cases hmerged
  | ok index =>
    obtain ⟨r, hr, heq⟩ := (Option.any_eq_true _ _).mp hreturned
    rw [decide_eq_true_eq, hindex] at heq
    have hret : p.returned 4 = some (.ok (.index index)) := by
      cases r with
      | error e => cases heq
      | ok result =>
        cases heq
        exact hr
    obtain ⟨parts, hmerge, hfresh⟩ := index_never_stale (fun _ => rfl) hrun huses ht hcall hret
    exact ⟨p, th, index, parts, hrun, ht, htwo, hret, hindex, hmerge, hfresh⟩

end Wenchang
