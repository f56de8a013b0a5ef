import Wenchang.Core.Worlds

/-!
# Proof rules for the core's operations

One rule for each kind of operation of a `MemoryStore` in an in-memory world, and one for the two
methods that wrap a conditional step in its invalidation. A specification allows some operations by
its guarantee; all of them here allow every operation that does not mutate storage, and the rules
carry that as a hypothesis instead of repeating it at every step.
-/

namespace Wenchang

open Py Ordered Interaction

/-- An operation that may change storage. -/
def StoreOp.Mutates : StoreOp → Prop
  | .storage (.put _ _ _) => True
  | .storage (.putIfVersion _ _ _ _) => True
  | .storage (.deleteIfVersion _ _) => True
  | _ => False

/-- An operation that does not reach storage. -/
def StoreOp.Quiet : StoreOp → Prop
  | .storage _ => False
  | _ => True

/-- What asks nothing of storage mutates nothing. -/
theorem StoreOp.Quiet.not_mutates {o : StoreOp} (h : o.Quiet) : ¬ o.Mutates := by
  cases o with
  | storage o => exact absurd h not_false
  | _ => exact not_false

/-- A trace of the core in an in-memory world. -/
abbrev StoreTrace := Trace StoreSig InMemoryStorage

/-- A trace without storage operations. -/
def QuietTrace (tr : StoreTrace) : Prop := ∀ e ∈ tr, e.op.Quiet

/-- A trace that does not mutate storage. -/
def ReadOnlyTrace (tr : StoreTrace) : Prop := ∀ e ∈ tr, ¬ e.op.Mutates

/-- A trace without storage reads only. -/
theorem QuietTrace.readOnly {tr : StoreTrace} (h : QuietTrace tr) : ReadOnlyTrace tr :=
  fun e he => (h e he).not_mutates

/-- Two traces of reads in sequence are one. -/
theorem ReadOnlyTrace.append {tr tr' : StoreTrace} (h : ReadOnlyTrace tr) (h' : ReadOnlyTrace tr') :
    ReadOnlyTrace (tr ++ tr') := fun e he => (List.mem_append.mp he).elim (h e) (h' e)

/-- The read of a key, in the storage it met. -/
def readEvent (key : Str) (s : InMemoryStorage) : Event StoreSig InMemoryStorage :=
  ⟨s, .storage (.get key), .ok (s.get key), s⟩

/-- The listing of a page, in the storage it met. -/
def listEvent (pre : Str) (startAfter : Option Str) (limit : Nat) (s : InMemoryStorage) :
    Event StoreSig InMemoryStorage :=
  ⟨s, .storage (.listPage pre startAfter limit), .ok (s.listPage pre startAfter limit), s⟩

/-- A clock reading. -/
def clockEvent (now : DateTime) (s : InMemoryStorage) : Event StoreSig InMemoryStorage :=
  ⟨s, .clock, now, s⟩

/-- Storage as the next operation meets it: later than everything the call has seen. -/
def LaterThan (tr : StoreTrace) (s : InMemoryStorage) : Prop := ∀ e ∈ tr, e.post.Later s

section

variable {lossy : Prop} {α : Type} {G : StoreTrace → StoreOp → Prop} {tr : StoreTrace}

/-- **The rule of a get**: it returns what is stored then. -/
theorem sat_storageGet {key : Str} {Q : StoreTrace → Except Exc (Option StoredObject) → Prop}
    (hG : G tr (.storage (.get key)))
    (hQ : ∀ s, LaterThan tr s → Q (tr ++ [readEvent key s]) (.ok (s.get key))) :
    (storageGet key).Sat (inMemory lossy) G Q tr := by
  refine ⟨hG, fun s a s' h => ?_⟩
  have hh : (a, s') = (.ok (s.get key), s) := h.handles
  obtain ⟨rfl, rfl⟩ := Prod.mk.inj hh
  exact hQ s' h.rely

/-- **The rule of a page**: it returns what is stored then. -/
theorem sat_storageListPage {pre : Str} {startAfter : Option Str} {limit : Nat}
    {Q : StoreTrace → Except Exc (List ListedObject) → Prop}
    (hG : G tr (.storage (.listPage pre startAfter limit)))
    (hQ : ∀ s, LaterThan tr s →
      Q (tr ++ [listEvent pre startAfter limit s]) (.ok (s.listPage pre startAfter limit))) :
    (storageListPage pre startAfter limit).Sat (inMemory lossy) G Q tr := by
  refine ⟨hG, fun s a s' h => ?_⟩
  have hh : (a, s') = (.ok (s.listPage pre startAfter limit), s) := h.handles
  obtain ⟨rfl, rfl⟩ := Prod.mk.inj hh
  exact hQ s' h.rely

/-- **The rule of the clock**: it may read anything. -/
theorem sat_clock {Q : StoreTrace → Except Exc DateTime → Prop} (hG : G tr .clock)
    (hQ : ∀ s now, LaterThan tr s → Q (tr ++ [clockEvent now s]) (.ok now)) :
    (ask .clock).Sat (inMemory lossy) G Q tr := by
  refine ⟨hG, fun s now s' h => ?_⟩
  have hs : s' = s := h.handles
  subst hs
  exact hQ s' now h.rely

/-- A quiet operation, when only its being quiet matters. -/
theorem sat_ask_quiet (o : StoreOp) (ho : o.Quiet) {Q : StoreTrace → Except Exc o.Ans → Prop}
    (hG : G tr o) (hQ : ∀ q a, QuietTrace q → Q (tr ++ q) (.ok a)) :
    (ask o).Sat (inMemory lossy) G Q tr := by
  refine ⟨hG, fun s a s' _ => hQ _ a fun e he => ?_⟩
  rw [List.mem_singleton.mp he]
  exact ho

/-- Two traces without storage in sequence are one. -/
theorem QuietTrace.append {q q' : StoreTrace} (h : QuietTrace q) (h' : QuietTrace q') :
    QuietTrace (q ++ q') := fun e he => (List.mem_append.mp he).elim (h e) (h' e)

/-- **The rule of a set of the cache**: it returns, however the cache does. -/
theorem sat_cacheSet {key value : Str} {Q : StoreTrace → Except Exc Unit → Prop}
    (hG : ∀ tr o, StoreOp.Quiet o → G tr o) (hQ : ∀ q, QuietTrace q → Q (tr ++ q) (.ok ())) :
    (cacheSet key value).Sat (inMemory lossy) G Q tr :=
  (Prog.sat_bind _ _ _ _).mpr <|
    sat_ask_quiet (.cacheSet key value) trivial (hG _ _ trivial) fun q _ hq => hQ q hq

variable [Interpreter] (s : MemoryStore)

/-- Invalidation reaches no storage and, on a well-formed path, does not raise. -/
theorem sat_invalidatePath {path : Str} (hpath : isValidPath path = true) (tombstone : Bool)
    {Q : StoreTrace → Except Exc Unit → Prop} (hG : ∀ tr o, StoreOp.Quiet o → G tr o)
    (hQ : ∀ q, QuietTrace q → Q (tr ++ q) (.ok ())) :
    (s.invalidatePath path tombstone).Sat (inMemory lossy) G Q tr := by
  unfold MemoryStore.invalidatePath
  cases s.indexCache with
  | none =>
    have hnil := hQ [] fun e he => absurd he List.not_mem_nil
    rwa [List.append_nil] at hnil
  | some cache =>
    obtain ⟨p, hp, rfl⟩ := exists_parts hpath
    simp only [orValueError, parsePath_path hp, Except.mapError, Prog.ofExcept_ok, Prog.ret_bind,
      Prog.sat_bind]
    refine sat_ask_quiet .uuid4 trivial (hG _ _ trivial) fun q token hq => ?_
    refine (Prog.sat_bind _ _ _ _).mpr (sat_cacheSet hG fun q' hq' => ?_)
    cases tombstone with
    | false =>
      rw [List.append_assoc]
      exact hQ _ (hq.append hq')
    | true =>
      refine sat_cacheSet hG fun q'' hq'' => ?_
      rw [List.append_assoc, List.append_assoc]
      exact hQ _ (hq.append (hq'.append hq''))

/-- A conditional put and its invalidation, as `try` sees it: the answer of storage is the result. -/
theorem sat_putIfVersion {path : Str} {data : Bytes} {metadata : Metadata} {expected : Option Str}
    (hpath : isValidPath path = true) {Q : StoreTrace → Except Exc (Except Exc Str) → Prop}
    (hG : ∀ tr o, StoreOp.Quiet o → G tr o)
    (hput : G tr (.storage (.putIfVersion path data metadata expected)))
    (hQ : ∀ st a st', LaterThan tr st →
      handlesStorage lossy st (.putIfVersion path data metadata expected) a st' →
      ∀ q, QuietTrace q →
        Q (tr ++ ⟨st, .storage (.putIfVersion path data metadata expected), a, st'⟩ :: q) (.ok a)) :
    (Prog.attempt (s.putIfVersion path data metadata expected)).Sat (inMemory lossy) G Q tr := by
  refine (Prog.sat_attempt _ _ _).mpr ((Prog.sat_bind _ _ _ _).mpr ⟨hput, fun st a st' h => ?_⟩)
  refine (Prog.sat_bind _ _ _ _).mpr (sat_invalidatePath s hpath false hG fun q hq => ?_)
  rw [Prog.andThen_ok, Prog.sat_ofExcept, List.append_assoc]
  exact hQ st a st' h.rely h.handles q hq

/-- **The rule of a conditional delete**: it lands, is refused, or its response is lost. -/
theorem sat_deleteIfVersion {path expected : Str} (hpath : isValidPath path = true)
    {Q : StoreTrace → Except Exc (Except Exc Unit) → Prop}
    (hG : ∀ tr o, StoreOp.Quiet o → G tr o)
    (hdelete : G tr (.storage (.deleteIfVersion path expected)))
    (hQ : ∀ st, LaterThan tr st → ∀ q, QuietTrace q →
      Q (tr ++ ⟨st, .storage (.deleteIfVersion path expected), (st.deleteIfVersion path expected).1,
        (st.deleteIfVersion path expected).2⟩ :: q) (.ok (st.deleteIfVersion path expected).1)) :
    (Prog.attempt (s.deleteIfVersion path expected)).Sat (inMemory lossy) G Q tr := by
  refine (Prog.sat_attempt _ _ _).mpr
    ((Prog.sat_bind _ _ _ _).mpr ⟨hdelete, fun st a st' h => ?_⟩)
  have hh : (a, st') = st.deleteIfVersion path expected := h.handles
  have hans : a = (st.deleteIfVersion path expected).1 := congrArg Prod.fst hh
  have hpost : st' = (st.deleteIfVersion path expected).2 := congrArg Prod.snd hh
  refine (Prog.sat_bind _ _ _ _).mpr (sat_invalidatePath s hpath true hG fun q hq => ?_)
  rw [Prog.andThen_ok, Prog.sat_ofExcept, List.append_assoc]
  subst hans
  subst hpost
  exact hQ st h.rely q hq

end

/-! ## Programs that only list -/

section

variable {P : StoreOp → Prop}

/-- A get asks for itself. -/
theorem issues_storageGet {key : Str} (hP : P (.storage (.get key))) : (storageGet key).Issues P :=
  ⟨hP, fun _ => Prog.issues_ofExcept _⟩

/-- A page asks for itself. -/
theorem issues_storageListPage {pre : Str} {startAfter : Option Str} {limit : Nat}
    (hP : P (.storage (.listPage pre startAfter limit))) :
    (storageListPage pre startAfter limit).Issues P :=
  ⟨hP, fun _ => Prog.issues_ofExcept _⟩

variable [Interpreter] (s : MemoryStore)

/-- Counting asks for pages of its prefix. -/
theorem issues_capLoop {pre : Str} (hP : ∀ a n, P (.storage (.listPage pre a n)))
    (limit fuel count : Nat) (startAfter : Option Str) :
    (s.capLoop pre limit fuel count startAfter).Issues P := by
  induction fuel generalizing count startAfter with
  | zero => exact trivial
  | succ fuel ih =>
    unfold MemoryStore.capLoop
    split
    · exact trivial
    · refine (issues_storageListPage (hP _ _)).bind fun objs => ?_
      dsimp only
      split
      · exact trivial
      · exact ih _ _

/-- The check of a create asks for pages of the entity. -/
theorem issues_createCap {path : Str} (hP : ∀ parts, parsePath path = .ok parts →
      ∀ a n, P (.storage (.listPage (joinSegments [parts.scope, parts.entityId]) a n)))
    (fuel : Nat) : (s.createCap fuel path).Issues P := by
  unfold MemoryStore.createCap orValueError
  cases hparse : parsePath path with
  | error e => exact trivial
  | ok parts =>
    have hparts := (parsePath_eq_ok.mp hparse).1
    simp only [Except.mapError, Prog.ofExcept_ok, Prog.ret_bind,
      buildPrefix_entity hparts.scope hparts.entityId]
    split
    · exact trivial
    · split
      · exact trivial
      · exact (issues_capLoop s (hP parts hparse) _ _ _ _).bind fun _ => trivial

end

end Wenchang
