import Wenchang.Laws.TimedCache

/-!
# When an entry expires

`get` finds the value last set for its key as long as the `ttl` set with it has not run out, and nothing from then on
(`get_eq_lastSet`). The clock reads UTC, as the default one does, and no `get` reads it earlier than a call before.
-/

namespace Wenchang

open Py Ordered

/-- A call of the cache. -/
inductive CacheCall where
  | get (key : Str)
  | set (key value : Str) (ttl : Option Int)

namespace CacheCall

/-- What a call sets for a key. -/
def sets? (key : Str) : CacheCall → Option (Str × Option Int)
  | .get _ => none
  | .set key' value ttl => if key' = key then some (value, ttl) else none

/-- How long what a call sets is to live. -/
def ttl? : CacheCall → Option Int
  | .get _ => none
  | .set _ _ ttl => ttl

/-- The cache after a call, when the clock reads `now`. -/
def act (now : DateTime) (c : InMemoryIndexCache) : CacheCall → InMemoryIndexCache
  | .get key => (c.get now key).2
  | .set key value ttl => c.set now key value ttl

/-- A call sets a key where it is a set of it. -/
theorem sets?_eq_some {key : Str} {call : CacheCall} {set : Str × Option Int} :
    call.sets? key = some set ↔ call = .set key set.1 set.2 := by
  cases call with
  | get key' => exact ⟨fun h => (nomatch h), fun h => (nomatch h)⟩
  | set key' value ttl =>
    by_cases hkey : key' = key
    · rw [sets?, if_pos hkey, hkey, Option.some.injEq, CacheCall.set.injEq]
      exact ⟨fun h => h ▸ ⟨rfl, rfl, rfl⟩, fun h => Prod.ext h.2.1 h.2.2⟩
    · rw [sets?, if_neg hkey]
      exact ⟨fun h => (nomatch h), fun h => absurd (CacheCall.set.inj h).1 hkey⟩

end CacheCall

/-- The calls of a cache, in order, each with what the clock read. -/
abbrev CacheHistory := List (DateTime × CacheCall)

/-- A new cache after such calls. -/
def CacheHistory.cache (calls : CacheHistory) : InMemoryIndexCache :=
  calls.foldl (fun c call => call.2.act call.1 c) .empty

/-- A value with the moment it was set, and how long it lives. -/
structure SetValue where
  moment : DateTime
  value : Str
  ttl : Option Int
  deriving DecidableEq

/-- Its time has not run out. -/
def SetValue.Live (s : SetValue) (now : DateTime) : Prop :=
  ∀ ttl ∈ s.ttl, now.epochMicros < s.moment.epochMicros + ttl

instance (s : SetValue) (now : DateTime) : Decidable (s.Live now) :=
  inferInstanceAs (Decidable (∀ ttl ∈ s.ttl, now.epochMicros < s.moment.epochMicros + ttl))

/-- What a call sets for a key, and when. -/
def setAt? (key : Str) (call : DateTime × CacheCall) : Option SetValue :=
  (call.2.sets? key).map fun set => ⟨call.1, set.1, set.2⟩

/-- What was last set for a key. -/
def CacheHistory.lastSet? (calls : CacheHistory) (key : Str) : Option SetValue :=
  (calls.filterMap (setAt? key)).getLast?

/-- The clock reads UTC, and what is set lives a while. -/
structure CacheHistory.Proper (calls : CacheHistory) : Prop where
  utc : ∀ call ∈ calls, call.1.utcoffset = some 0
  ttl_pos : ∀ call ∈ calls, ∀ ttl ∈ call.2.ttl?, 0 < ttl

namespace CacheHistory

variable {calls : CacheHistory} {now : DateTime} {key : Str}

/-- A get sets nothing. -/
theorem lastSet?_get (key' : Str) : lastSet? (calls ++ [(now, .get key')]) key = lastSet? calls key := by
  rw [lastSet?, List.filterMap_append, List.filterMap_cons_none rfl, List.filterMap_nil, List.append_nil]
  rfl

/-- A set is the last one of its key and leaves the others. -/
theorem lastSet?_set (key' value : Str) (ttl : Option Int) : lastSet? (calls ++ [(now, .set key' value ttl)]) key =
    if key' = key then some ⟨now, value, ttl⟩ else lastSet? calls key := by
  rw [lastSet?, List.filterMap_append]
  by_cases hkey : key' = key
  · have hset : setAt? key (now, .set key' value ttl) = some ⟨now, value, ttl⟩ := by
      rw [setAt?, CacheCall.sets?, if_pos hkey]
      rfl
    rw [if_pos hkey, List.filterMap_cons_some hset, List.filterMap_nil, List.getLast?_concat]
  · have hset : setAt? key (now, .set key' value ttl) = none := by
      rw [setAt?, CacheCall.sets?, if_neg hkey]
      rfl
    rw [if_neg hkey, List.filterMap_cons_none hset, List.filterMap_nil, List.append_nil]
    rfl

/-- What was last set is one of the calls. -/
theorem lastSet?_mem {s : SetValue} (h : lastSet? calls key = some s) :
    (s.moment, .set key s.value s.ttl) ∈ calls := by
  obtain ⟨⟨moment, call⟩, hcall, hset⟩ := List.mem_filterMap.mp (List.mem_of_getLast? h)
  obtain ⟨set, hsets, rfl⟩ := Option.map_eq_some_iff.mp hset
  obtain rfl := CacheCall.sets?_eq_some.mp hsets
  exact hcall

/-- One more call acts on the cache of the calls before. -/
theorem cache_concat (call : CacheCall) : cache (calls ++ [(now, call)]) = call.act now (cache calls) := by
  unfold cache
  rw [List.foldl_append, List.foldl_cons, List.foldl_nil]

/-! ## What a `get` finds -/

/-- What a `get` does with the entry of a value that was set: it is found as long as it lives, else dropped. -/
theorem get_of_held {c : InMemoryIndexCache} {s : SetValue}
    (hheld : c.entries.get? key = some (s.value, s.ttl.bind s.moment.plusMicros)) (hnow : now.utcoffset = some 0)
    (hset : s.moment.utcoffset = some 0) (hpos : ∀ ttl ∈ s.ttl, 0 < ttl) :
    c.get now key = if s.Live now then (.ok (some s.value), c) else (.ok none, ⟨c.entries.erase key⟩) := by
  cases httl : s.ttl with
  | none =>
    have hlive : s.Live now := fun ttl h => by
      rw [httl] at h
      cases h
    rw [httl, Option.bind_none] at hheld
    rw [if_pos hlive, InMemoryIndexCache.get, hheld]
  | some ttl =>
    have hlive : s.Live now ↔ now.epochMicros < s.moment.epochMicros + ttl := by
      simp only [SetValue.Live, httl, Option.mem_def, Option.some.injEq, forall_eq']
    rw [httl, Option.bind_some] at hheld
    cases hsum : s.moment.plusMicros ttl with
    | none =>
      have hlater := DateTime.epochMicros_lt_of_overflow hsum (Int.le_of_lt (hpos ttl httl)) (hnow.trans hset.symm)
      rw [hsum] at hheld
      rw [if_pos (hlive.mpr hlater), InMemoryIndexCache.get, hheld]
    | some expiresAt =>
      obtain ⟨hinstant, hzone⟩ := DateTime.epochMicros_plusMicros hsum
      rw [hsum] at hheld
      have hcompare : notBefore now expiresAt = .ok (decide (s.moment.epochMicros + ttl ≤ now.epochMicros)) := by
        rw [notBefore, hnow, hzone, hset, hinstant]
      by_cases hlater : s.moment.epochMicros + ttl ≤ now.epochMicros
      · rw [decide_eq_true hlater] at hcompare
        rw [if_neg fun h => Int.not_lt.mpr hlater (hlive.mp h)]
        simp only [InMemoryIndexCache.get, hheld, hcompare]
      · rw [decide_eq_false hlater] at hcompare
        rw [if_pos (hlive.mpr (Int.not_le.mp hlater))]
        simp only [InMemoryIndexCache.get, hheld, hcompare]

/-! ## What the cache holds -/

/-- What a cache holds was set last, and what it no longer holds had run out when some call read the clock. -/
structure Tracks (c : InMemoryIndexCache) (calls : CacheHistory) : Prop where
  held : ∀ key entry, c.entries.get? key = some entry →
    ∃ s, lastSet? calls key = some s ∧ entry = (s.value, s.ttl.bind s.moment.plusMicros)
  gone : ∀ key s, lastSet? calls key = some s → c.entries.get? key = none → ∃ call ∈ calls, ¬ s.Live call.1

/-- What was last set was set in UTC, with a positive ttl or none. -/
theorem Proper.lastSet? (h : calls.Proper) {s : SetValue} (hs : lastSet? calls key = some s) :
    s.moment.utcoffset = some 0 ∧ ∀ ttl ∈ s.ttl, 0 < ttl :=
  ⟨h.utc _ (lastSet?_mem hs), h.ttl_pos _ (lastSet?_mem hs)⟩

/-- A get keeps track, also where it drops what expired. -/
theorem Tracks.get {c : InMemoryIndexCache} (h : Tracks c calls) (hproper : calls.Proper)
    (hnow : now.utcoffset = some 0) (key : Str) : Tracks (c.get now key).2 (calls ++ [(now, .get key)]) where
  held key' entry hheld := by
    rw [lastSet?_get]
    exact h.held key' entry (InMemoryIndexCache.held_of_get hheld)
  gone key' s hs hnone := by
    rw [lastSet?_get] at hs
    cases hbefore : c.entries.get? key' with
    | none =>
      obtain ⟨call, hcall, hrun⟩ := h.gone key' s hs hbefore
      exact ⟨call, List.mem_append_left _ hcall, hrun⟩
    | some entry =>
      obtain ⟨s', hs', rfl⟩ := h.held key' entry hbefore
      obtain rfl := Option.some.inj (hs.symm.trans hs')
      by_cases hkey : key' = key
      · subst hkey
        have hget := get_of_held hbefore hnow (hproper.lastSet? hs).1 (hproper.lastSet? hs).2
        by_cases hlive : s.Live now
        · rw [hget, if_pos hlive, hbefore] at hnone
          cases hnone
        · exact ⟨_, List.mem_append_right _ List.mem_cons_self, hlive⟩
      · rcases InMemoryIndexCache.get_entries c now key with hsame | hdropped
        · rw [hsame, hbefore] at hnone
          cases hnone
        · rw [hdropped, FinMap.get?_erase_of_ne _ hkey, hbefore] at hnone
          cases hnone

/-- A set keeps track. -/
theorem Tracks.set {c : InMemoryIndexCache} (h : Tracks c calls) (key value : Str) (ttl : Option Int) :
    Tracks (c.set now key value ttl) (calls ++ [(now, .set key value ttl)]) where
  held key' entry hheld := by
    rw [lastSet?_set]
    by_cases hkey : key' = key
    · rw [hkey, InMemoryIndexCache.set, FinMap.get?_insert_self] at hheld
      exact ⟨_, if_pos hkey.symm, (Option.some.inj hheld).symm⟩
    · rw [InMemoryIndexCache.set, FinMap.get?_insert_of_ne _ _ hkey] at hheld
      rw [if_neg fun heq => hkey heq.symm]
      exact h.held key' entry hheld
  gone key' s hs hnone := by
    by_cases hkey : key' = key
    · rw [hkey, InMemoryIndexCache.set, FinMap.get?_insert_self] at hnone
      cases hnone
    · rw [InMemoryIndexCache.set, FinMap.get?_insert_of_ne _ _ hkey] at hnone
      rw [lastSet?_set, if_neg fun heq => hkey heq.symm] at hs
      obtain ⟨call, hcall, hrun⟩ := h.gone key' s hs hnone
      exact ⟨call, List.mem_append_left _ hcall, hrun⟩

/-- **The cache tracks what was last set**, after any history. -/
theorem tracks_cache (hproper : calls.Proper) : Tracks (cache calls) calls := by
  induction calls using List.reverseRecOn with
  | nil => exact ⟨fun _ _ h => (nomatch h), fun _ _ h => (nomatch h)⟩
  | append_singleton calls call ih =>
    obtain ⟨now, call⟩ := call
    have hbefore : Proper calls := ⟨fun call hcall => hproper.utc call (List.mem_append_left _ hcall),
      fun call hcall => hproper.ttl_pos call (List.mem_append_left _ hcall)⟩
    rw [cache_concat]
    cases call with
    | get key => exact (ih hbefore).get hbefore (hproper.utc _ (List.mem_append_right _ List.mem_cons_self)) key
    | set key value ttl => exact (ih hbefore).set key value ttl

end CacheHistory

/-- **A `get` finds what was set last, until it expires.** After any calls of a new `InMemoryIndexCache` whose clock
reads UTC, each `set` with a positive `ttl` or none, a `get` that reads the clock no earlier than they did returns
the value last set for its key if the `ttl` set with it has not run out, and otherwise nothing. -/
theorem get_eq_lastSet {calls : CacheHistory} (hproper : calls.Proper) (now : DateTime)
    (hnow : now.utcoffset = some 0) (hlast : ∀ call ∈ calls, call.1.epochMicros ≤ now.epochMicros) (key : Str) :
    (calls.cache.get now key).1 = .ok (((calls.lastSet? key).filter (·.Live now)).map (·.value)) := by
  have htracks := CacheHistory.tracks_cache hproper
  cases hget : calls.cache.entries.get? key with
  | none =>
    have hnothing : (calls.lastSet? key).filter (·.Live now) = none := by
      rw [Option.filter_eq_none_iff]
      intro s hs hlive
      obtain ⟨call, hcall, hrun⟩ := htracks.gone key s hs hget
      refine hrun fun ttl httl => ?_
      exact Int.lt_of_le_of_lt (hlast call hcall) (of_decide_eq_true hlive ttl httl)
    rw [hnothing, InMemoryIndexCache.get, hget]
    rfl
  | some entry =>
    obtain ⟨s, hs, rfl⟩ := htracks.held key entry hget
    rw [CacheHistory.get_of_held hget hnow (hproper.lastSet? hs).1 (hproper.lastSet? hs).2, hs]
    by_cases hlive : s.Live now
    · rw [if_pos hlive, Option.filter_some, if_pos (decide_eq_true hlive)]
      rfl
    · rw [if_neg hlive, Option.filter_some, if_neg fun h => hlive (of_decide_eq_true h)]
      rfl

/-- A value is set for a minute, and read meanwhile. -/
def minuteHistory : CacheHistory :=
  [(noon, .set (str "key") (str "value") (some 60000000)), (afterNoon 30, .get (str "key"))]

/-- The history has positive ttls and reads UTC. -/
theorem minuteHistory_proper : minuteHistory.Proper where
  utc := by decide +kernel
  ttl_pos := by decide +kernel

/-- A value set for a minute is there after 59 seconds and gone after 60. -/
theorem get_eq_lastSet_minute :
    (minuteHistory.cache.get (afterNoon 59) (str "key")).1 = .ok (some (str "value")) ∧
      (minuteHistory.cache.get (afterNoon 60) (str "key")).1 = .ok none := by
  have hlive : (minuteHistory.lastSet? (str "key")).filter (·.Live (afterNoon 59)) =
      some ⟨noon, str "value", some 60000000⟩ := by
    decide +kernel
  have hrun : (minuteHistory.lastSet? (str "key")).filter (·.Live (afterNoon 60)) = none := by decide +kernel
  have hbefore :=
    get_eq_lastSet minuteHistory_proper (afterNoon 59) (by decide +kernel) (by decide +kernel) (str "key")
  have hafter :=
    get_eq_lastSet minuteHistory_proper (afterNoon 60) (by decide +kernel) (by decide +kernel) (str "key")
  rw [hlive] at hbefore
  rw [hrun] at hafter
  exact ⟨hbefore, hafter⟩

end Wenchang
