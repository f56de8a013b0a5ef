import Wenchang.Py.Repr

/-!
# Memory paths and prefixes

A well-formed path is `{scope}/{entity_id}/{area}/{name}.md`, four valid segments; a well-formed
prefix is one to three valid segments, each followed by a slash. `buildPath`, `buildPrefix` and
`parsePath` fail as the source does, with the text of the `ValueError` they raise.
-/

namespace Wenchang

open Py

/-- `_MD_SUFFIX`. -/
def mdSuffix : Str := str ".md"

/-- The separator of segments. -/
def slash : CodePoint := 47

/-- `is_valid_segment`. -/
def isValidSegment (segment : Str) : Bool :=
  segment ≠ [] && segment ≠ str "." && segment ≠ str ".." && !segment.contains slash &&
    !segment.contains backslash && segment.all (!isControl ·)

/-- `is_valid_path`. -/
def isValidPath (path : Str) : Bool :=
  let segments := path.splitOn slash
  segments.length = 4 && segments.all isValidSegment &&
    match segments.getLast? with
    | some name => mdSuffix.isSuffixOf name && mdSuffix.length < name.length
    | none => false

/-- `is_valid_prefix`. -/
def isValidPrefix (pre : Str) : Bool :=
  [slash].isSuffixOf pre &&
    let segments := pre.dropLast.splitOn slash
    1 ≤ segments.length && segments.length ≤ 3 && segments.all isValidSegment

/-- The four components of a memory path; `name` is without the final `.md`. -/
structure PathParts where
  scope : Str
  entityId : Str
  area : Str
  name : Str
  deriving DecidableEq

/-- `f"{scope}/{entity_id}/{area}/{name}.md"`. -/
def PathParts.path (p : PathParts) : Str :=
  p.scope ++ slash :: (p.entityId ++ slash :: (p.area ++ slash :: (p.name ++ mdSuffix)))

/-- `"".join(value + "/" for value in segments)`. -/
def joinSegments (segments : List Str) : Str := segments.flatMap (· ++ [slash])

section

variable [Interpreter]

/-- `_check_segment`. -/
def checkSegment (arg : String) (value : Str) : Except Str Unit :=
  if isValidSegment value then .ok () else
    .error (str "invalid " ++ str arg ++ str ": " ++ Py.repr value)

/-- `build_path`. -/
def buildPath (scope entityId area name : Str) : Except Str Str := do
  checkSegment "scope" scope
  checkSegment "entity_id" entityId
  checkSegment "area" area
  if name = [] ∨ isValidSegment (name ++ mdSuffix) = false then
    .error (str "invalid name: " ++ Py.repr name)
  else .ok (PathParts.path ⟨scope, entityId, area, name⟩)

/-- The segment loop of `build_prefix`. -/
def checkSegments : List (String × Str) → Except Str Unit
  | [] => .ok ()
  | (arg, value) :: rest => do
    checkSegment arg value
    checkSegments rest

/-- `build_prefix`. -/
def buildPrefix (scope : Str) (entityId area : Option Str) : Except Str Str :=
  if area.isSome ∧ entityId.isNone then .error (str "area requires entity_id")
  else do
    let segments := ("scope", scope) ::
      (entityId.toList.map (("entity_id", ·)) ++ area.toList.map (("area", ·)))
    checkSegments segments
    .ok (joinSegments (segments.map (·.2)))

/-- `parse_path`. -/
def parsePath (path : Str) : Except Str PathParts :=
  if isValidPath path then
    match path.splitOn slash with
    | [scope, entityId, area, last] =>
      .ok ⟨scope, entityId, area, last.take (last.length - mdSuffix.length)⟩
    | _ => .error (str "invalid path: " ++ Py.repr path)
  else .error (str "invalid path: " ++ Py.repr path)

end

/-! ## What is well formed -/

/-- Parts that make a well-formed path. -/
structure PathParts.Valid (p : PathParts) : Prop where
  scope : isValidSegment p.scope = true
  entityId : isValidSegment p.entityId = true
  area : isValidSegment p.area = true
  name_ne : p.name ≠ []
  name : isValidSegment (p.name ++ mdSuffix) = true

/-- A valid segment holds no slash. -/
theorem slash_not_mem {segment : Str} (h : isValidSegment segment = true) : slash ∉ segment := by
  simp only [isValidSegment, Bool.and_eq_true, Bool.not_eq_true', List.contains_eq_mem,
    decide_eq_false_iff_not] at h
  exact h.1.1.2

/-- Two texts that agree up to the first slash. -/
theorem append_slash_inj {a b x y : Str} (ha : slash ∉ a) (hb : slash ∉ b)
    (h : a ++ slash :: x = b ++ slash :: y) : a = b ∧ x = y := by
  induction a generalizing b with
  | nil =>
    cases b with
    | nil => exact ⟨rfl, (List.cons.inj h).2⟩
    | cons d b => exact absurd ((List.cons.inj h).1 ▸ List.mem_cons_self) hb
  | cons c a ih =>
    cases b with
    | nil => exact absurd ((List.cons.inj h).1 ▸ List.mem_cons_self) ha
    | cons d b =>
      obtain ⟨rfl, hrest⟩ := List.cons.inj h
      obtain ⟨rfl, hxy⟩ := ih (fun hm => ha (List.mem_cons_of_mem _ hm))
        (fun hm => hb (List.mem_cons_of_mem _ hm)) hrest
      exact ⟨rfl, hxy⟩

/-- A list of segments is a prefix of another just when its text is. -/
theorem isPrefix_joinSegments {segments segments' : List Str} {last : Str}
    (h : ∀ s ∈ segments, slash ∉ s) (h' : ∀ s ∈ segments', slash ∉ s) (hlast : slash ∉ last) :
    joinSegments segments <+: joinSegments segments' ++ last ↔ segments <+: segments' := by
  induction segments generalizing segments' with
  | nil => exact ⟨fun _ => List.nil_prefix, fun _ => List.nil_prefix⟩
  | cons s segments ih =>
    have hs := h s List.mem_cons_self
    have htail := fun t ht => h t (List.mem_cons_of_mem _ ht)
    cases segments' with
    | nil =>
      refine ⟨fun hp => absurd (hp.subset ?_) hlast, fun hp => absurd hp.length_le (by simp)⟩
      exact List.mem_append_left _ (List.mem_append_right _ List.mem_cons_self)
    | cons s' segments' =>
      have hs' := h' s' List.mem_cons_self
      have htail' := fun t ht => h' t (List.mem_cons_of_mem _ ht)
      have hsplit : ∀ (t : Str) (ts : List Str) (r : Str),
          joinSegments (t :: ts) ++ r = t ++ slash :: (joinSegments ts ++ r) := fun t ts r => by
        simp only [joinSegments, List.flatMap_cons, List.append_assoc, List.cons_append,
          List.nil_append]
      rw [List.cons_prefix_cons, ← ih htail htail']
      constructor
      · rintro ⟨r, hr⟩
        rw [hsplit, hsplit] at hr
        obtain ⟨rfl, hrest⟩ := append_slash_inj hs hs' hr
        exact ⟨rfl, r, hrest⟩
      · rintro ⟨rfl, r, hr⟩
        exact ⟨r, by rw [hsplit, hsplit, hr]⟩

/-- Segments are joined part by part. -/
theorem joinSegments_append (segments segments' : List Str) :
    joinSegments (segments ++ segments') = joinSegments segments ++ joinSegments segments' :=
  List.flatMap_append

/-- What stands before the first slash. -/
theorem prefix_append_slash {part s rest : Str} (hpart : slash ∉ part) :
    part <+: s ++ slash :: rest ↔ part <+: s := by
  refine ⟨fun h => ?_, fun h => h.trans (List.prefix_append _ _)⟩
  obtain ⟨r, hr⟩ := h
  rcases List.append_eq_append_iff.mp hr with ⟨tail, hs, -⟩ | ⟨tail, rfl, htail⟩
  · exact ⟨tail, hs.symm⟩
  · cases tail with
    | nil => exact (List.append_nil s).symm ▸ List.prefix_rfl
    | cons c tail =>
      obtain ⟨rfl, -⟩ := List.cons.inj htail
      exact absurd (List.mem_append_right _ List.mem_cons_self) hpart

/-- **A text is under a prefix that ends inside a segment** just when it has its segments, and the next
one starts with the rest. -/
theorem prefix_joinSegments_iff {complete segments : List Str} {part last : Str}
    (hcomplete : ∀ s ∈ complete, slash ∉ s) (h : ∀ s ∈ segments, slash ∉ s) (hpart : slash ∉ part)
    (hlast : slash ∉ last) : joinSegments complete ++ part <+: joinSegments segments ++ last ↔
      ∃ rest, segments = complete ++ rest ∧ part <+: (rest ++ [last]).headD [] := by
  have hsplit : ∀ (t : Str) (ts : List Str) (r : Str),
      joinSegments (t :: ts) ++ r = t ++ slash :: (joinSegments ts ++ r) := fun t ts r => by
    simp only [joinSegments, List.flatMap_cons, List.append_assoc, List.cons_append, List.nil_append]
  induction complete generalizing segments with
  | nil =>
    simp only [joinSegments, List.flatMap_nil, List.nil_append, exists_eq_left']
    cases segments with
    | nil => rfl
    | cons s segments =>
      rw [← joinSegments, hsplit, prefix_append_slash hpart]
      rfl
  | cons c complete ih =>
    have hc := hcomplete c List.mem_cons_self
    have htail := fun t ht => hcomplete t (List.mem_cons_of_mem _ ht)
    rw [hsplit]
    cases segments with
    | nil =>
      refine iff_of_false (fun hp => hlast (hp.subset ?_)) (by simp)
      exact List.mem_append_right _ List.mem_cons_self
    | cons s segments =>
      have hs := h s List.mem_cons_self
      have htail' := fun t ht => h t (List.mem_cons_of_mem s ht)
      have ih := ih htail htail'
      rw [hsplit]
      constructor
      · rintro ⟨r, hr⟩
        rw [List.append_assoc, List.cons_append] at hr
        obtain ⟨rfl, htexts⟩ := append_slash_inj hc hs hr
        obtain ⟨rest, rfl, hstarts⟩ := ih.mp ⟨r, htexts⟩
        exact ⟨rest, rfl, hstarts⟩
      · rintro ⟨rest, heq, hrest⟩
        obtain ⟨rfl, rfl⟩ := List.cons.inj heq
        obtain ⟨r, hr⟩ := ih.mpr ⟨rest, rfl, hrest⟩
        exact ⟨r, by rw [List.append_assoc, List.cons_append, hr]⟩

/-- A path is its three segments, its name and the suffix. -/
theorem PathParts.path_eq (p : PathParts) :
    p.path = joinSegments [p.scope, p.entityId, p.area] ++ (p.name ++ mdSuffix) := by
  simp only [PathParts.path, joinSegments, List.flatMap_cons, List.flatMap_nil, List.append_nil,
    List.append_assoc, List.cons_append, List.nil_append]

/-- A path is split at its slashes as it was joined. -/
theorem PathParts.Valid.splitOn {p : PathParts} (h : p.Valid) :
    p.path.splitOn slash = [p.scope, p.entityId, p.area, p.name ++ mdSuffix] := by
  have hjoin : p.path = [slash].intercalate [p.scope, p.entityId, p.area, p.name ++ mdSuffix] := by
    simp only [PathParts.path, List.intercalate_cons_cons, List.intercalate_singleton,
      List.append_assoc, List.cons_append, List.nil_append]
  rw [hjoin]
  refine List.splitOn_intercalate slash (fun l hl => ?_) (List.cons_ne_nil _ _)
  simp only [List.mem_cons, List.not_mem_nil, or_false] at hl
  rcases hl with rfl | rfl | rfl | rfl
  · exact slash_not_mem h.scope
  · exact slash_not_mem h.entityId
  · exact slash_not_mem h.area
  · exact slash_not_mem h.name

/-- A path of valid parts is valid. -/
theorem PathParts.Valid.isValidPath {p : PathParts} (h : p.Valid) : isValidPath p.path = true := by
  have hlen : mdSuffix.length < (p.name ++ mdSuffix).length := by
    rw [List.length_append]
    have := List.length_pos_iff.mpr h.name_ne
    omega
  simp only [Wenchang.isValidPath, h.splitOn, List.length_cons, List.length_nil, List.all_cons, h.scope,
    h.entityId, h.area, h.name, List.all_nil, List.getLast?_cons_cons, List.getLast?_singleton, hlen,
    decide_true, Bool.and_self, Bool.true_and, Bool.and_true, List.isSuffixOf_iff_suffix]
  exact List.suffix_append _ _

/-- Every well-formed path has parts. -/
theorem exists_parts {path : Str} (h : isValidPath path = true) :
    ∃ p : PathParts, p.Valid ∧ path = p.path := by
  simp only [isValidPath, Bool.and_eq_true, decide_eq_true_eq] at h
  obtain ⟨⟨hlen, hall⟩, hname⟩ := h
  have hjoin : [slash].intercalate (path.splitOn slash) = path := List.intercalate_splitOn slash
  match hsegs : path.splitOn slash, hlen with
  | [scope, entityId, area, last], _ =>
    rw [hsegs] at hall hname hjoin
    simp only [List.getLast?_cons_cons, List.getLast?_singleton, Bool.and_eq_true,
      decide_eq_true_eq, List.isSuffixOf_iff_suffix] at hname
    simp only [List.all_cons, List.all_nil, Bool.and_true, Bool.and_eq_true] at hall
    obtain ⟨⟨name, rfl⟩, hlt⟩ := hname
    refine ⟨⟨scope, entityId, area, name⟩, ⟨hall.1, hall.2.1, hall.2.2.1, ?_, hall.2.2.2⟩, ?_⟩
    · rintro rfl
      exact absurd hlt (Nat.lt_irrefl _)
    · rw [← hjoin]
      simp only [PathParts.path, List.intercalate_cons_cons, List.intercalate_singleton,
        List.append_assoc, List.cons_append, List.nil_append]

/-- **A path is valid where it has valid parts.** -/
theorem isValidPath_iff {path : Str} :
    isValidPath path = true ↔ ∃ p : PathParts, p.Valid ∧ path = p.path :=
  ⟨exists_parts, fun ⟨_, hp, he⟩ => he ▸ hp.isValidPath⟩

/-- A result with a value is that value. -/
theorem eq_ok_of_toOption {ε α : Type} {r : Except ε α} {a : α} (h : r.toOption = some a) : r = .ok a := by
  cases r with
  | ok b => exact congrArg Except.ok (Option.some.inj h)
  | error e => cases h

/-- A sequence has a value where its parts have. -/
theorem except_bind_eq_ok {ε α β : Type} {x : Except ε α} {f : α → Except ε β} {b : β} :
    (x >>= f) = .ok b ↔ ∃ a, x = .ok a ∧ f a = .ok b := by
  cases x with
  | ok a => exact ⟨fun h => ⟨a, rfl, h⟩, fun ⟨_, ha, h⟩ => Except.ok.inj ha ▸ h⟩
  | error e => exact ⟨nofun, fun ⟨_, ha, _⟩ => nomatch ha⟩

section

variable [Interpreter]

/-- `parse_path` inverts the text of parts. -/
theorem parsePath_path {p : PathParts} (h : p.Valid) : parsePath p.path = .ok p := by
  have htake : (p.name ++ mdSuffix).take ((p.name ++ mdSuffix).length - mdSuffix.length) = p.name := by
    rw [List.length_append, Nat.add_sub_cancel, List.take_left']
    rfl
  rw [parsePath, if_pos h.isValidPath]
  simp only [h.splitOn, htake]

/-- A path parses as its valid parts. -/
theorem parsePath_eq_ok {path : Str} {p : PathParts} :
    parsePath path = .ok p ↔ p.Valid ∧ path = p.path := by
  constructor
  · intro h
    by_cases hv : isValidPath path = true
    · obtain ⟨q, hq, rfl⟩ := exists_parts hv
      rw [parsePath_path hq] at h
      exact Except.ok.inj h ▸ ⟨hq, rfl⟩
    · rw [parsePath, if_neg hv] at h
      exact nomatch h
  · rintro ⟨hp, rfl⟩
    exact parsePath_path hp

/-- A segment is accepted where it is valid. -/
theorem checkSegment_eq_ok {arg : String} {value : Str} {u : Unit} :
    checkSegment arg value = .ok u ↔ isValidSegment value = true := by
  unfold checkSegment
  split
  next h => exact ⟨fun _ => h, fun _ => rfl⟩
  next h => exact ⟨nofun, fun he => absurd he h⟩

/-- `build_path` accepts exactly the parts of well-formed paths. -/
theorem buildPath_eq_ok {scope entityId area name path : Str} :
    buildPath scope entityId area name = .ok path ↔
      PathParts.Valid ⟨scope, entityId, area, name⟩ ∧
        path = PathParts.path ⟨scope, entityId, area, name⟩ := by
  simp only [buildPath, except_bind_eq_ok, checkSegment_eq_ok]
  constructor
  · rintro ⟨_, hs, _, he, _, ha, h⟩
    split at h
    next => exact nomatch h
    next hn =>
      rw [not_or, Bool.not_eq_false] at hn
      exact ⟨⟨hs, he, ha, hn.1, hn.2⟩, (Except.ok.inj h).symm⟩
  · rintro ⟨hv, rfl⟩
    refine ⟨(), hv.scope, (), hv.entityId, (), hv.area, if_neg ?_⟩
    rw [not_or, Bool.not_eq_false]
    exact ⟨hv.name_ne, hv.name⟩

/-- Segments are accepted where each of them is valid. -/
theorem checkSegments_eq_ok {segments : List (String × Str)} {u : Unit} :
    checkSegments segments = .ok u ↔ ∀ s ∈ segments.map (·.2), isValidSegment s = true := by
  induction segments with
  | nil => exact ⟨fun _ s hs => absurd hs List.not_mem_nil, fun _ => rfl⟩
  | cons s segments ih =>
    simp only [checkSegments, except_bind_eq_ok, checkSegment_eq_ok, ih, List.map_cons,
      List.forall_mem_cons, exists_const]

/-- `build_prefix` accepts exactly valid segments, an area only behind an entity. -/
theorem buildPrefix_eq_ok {scope pre : Str} {entityId area : Option Str} :
    buildPrefix scope entityId area = .ok pre ↔ ¬ (area.isSome ∧ entityId.isNone) ∧
      (∀ s ∈ scope :: (entityId.toList ++ area.toList), isValidSegment s = true) ∧
      pre = joinSegments (scope :: (entityId.toList ++ area.toList)) := by
  have hmap : (("scope", scope) :: (entityId.toList.map (("entity_id", ·)) ++
      area.toList.map (("area", ·)))).map (·.2) = scope :: (entityId.toList ++ area.toList) := by
    simp only [List.map_cons, List.map_append, List.map_map, Function.comp_def, List.map_id']
  unfold buildPrefix
  split
  next h => exact ⟨nofun, fun hn => absurd h hn.1⟩
  next h =>
    simp only [except_bind_eq_ok, checkSegments_eq_ok, hmap, exists_const, Except.ok.injEq]
    exact ⟨fun ⟨hs, hp⟩ => ⟨h, hs, hp.symm⟩, fun ⟨_, hs, hp⟩ => ⟨hs, hp.symm⟩⟩

/-- The prefix of an entity. -/
theorem buildPrefix_entity {scope entityId : Str} (hs : isValidSegment scope = true)
    (he : isValidSegment entityId = true) :
    buildPrefix scope (some entityId) none = .ok (joinSegments [scope, entityId]) := by
  refine buildPrefix_eq_ok.mpr ⟨nofun, ?_, rfl⟩
  simp only [Option.toList_some, Option.toList_none, List.append_nil, List.forall_mem_cons, hs, he,
    List.not_mem_nil, false_implies, implies_true, and_self]

end

/-! ## Prefixes -/

/-- Segments are joined with a slash after each. -/
theorem joinSegments_eq {segments : List Str} (hne : segments ≠ []) :
    joinSegments segments = [slash].intercalate segments ++ [slash] := by
  induction segments with
  | nil => exact absurd rfl hne
  | cons s segments ih =>
    cases segments with
    | nil => simp only [joinSegments, List.flatMap_cons, List.flatMap_nil, List.append_nil,
        List.intercalate_singleton]
    | cons t segments =>
      rw [List.intercalate_cons_cons, List.append_assoc, ← ih (List.cons_ne_nil _ _)]
      simp only [joinSegments, List.flatMap_cons]

/-- A text is its pieces: all but the last end with a slash. -/
theorem joinSegments_splitOn (s : Str) :
    joinSegments (s.splitOn slash).dropLast ++ (s.splitOn slash).getLast?.getD [] = s := by
  have hne := List.splitOn_ne_nil slash s
  have hjoin : [slash].intercalate (s.splitOn slash) = s := List.intercalate_splitOn slash
  rw [List.getLast?_eq_some_getLast hne, Option.getD_some]
  have hsnoc : joinSegments (s.splitOn slash).dropLast ++ (s.splitOn slash).getLast hne ++ [slash] =
      joinSegments ((s.splitOn slash).dropLast ++ [(s.splitOn slash).getLast hne]) := by
    rw [joinSegments_append, List.append_assoc]
    simp [joinSegments]
  have htexts : joinSegments (s.splitOn slash).dropLast ++ (s.splitOn slash).getLast hne ++ [slash] =
      s ++ [slash] := by
    rw [hsnoc, List.dropLast_append_getLast, joinSegments_eq hne, hjoin]
  exact List.append_cancel_right htexts

/-- One to three valid segments are a valid prefix. -/
theorem isValidPrefix_joinSegments {segments : List Str} (hne : segments ≠ [])
    (hlen : segments.length ≤ 3) (h : ∀ s ∈ segments, isValidSegment s = true) :
    isValidPrefix (joinSegments segments) = true := by
  have hsplit : ([slash].intercalate segments).splitOn slash = segments :=
    List.splitOn_intercalate slash (fun s hs => slash_not_mem (h s hs)) hne
  have hpos : 1 ≤ segments.length := List.length_pos_iff.mpr hne
  simp only [isValidPrefix, joinSegments_eq hne, List.dropLast_concat, hsplit, hpos, hlen,
    decide_true, Bool.true_and, Bool.and_eq_true, List.isSuffixOf_iff_suffix, List.all_eq_true]
  exact ⟨List.suffix_append _ _, h⟩

/-- A valid prefix has one to three valid segments. -/
theorem exists_segments {pre : Str} (h : isValidPrefix pre = true) :
    ∃ segments : List Str, segments ≠ [] ∧ segments.length ≤ 3 ∧
      (∀ s ∈ segments, isValidSegment s = true) ∧ pre = joinSegments segments := by
  simp only [isValidPrefix, Bool.and_eq_true, decide_eq_true_eq, List.isSuffixOf_iff_suffix,
    List.all_eq_true] at h
  obtain ⟨⟨front, rfl⟩, ⟨hpos, hlen⟩, hall⟩ := h
  rw [List.dropLast_concat] at hpos hlen hall
  have hne := List.splitOn_ne_nil slash front
  refine ⟨front.splitOn slash, hne, hlen, hall, ?_⟩
  rw [joinSegments_eq hne, List.intercalate_splitOn]

/-- **A path is under a prefix just when its leading segments are the prefix's.** -/
theorem PathParts.Valid.prefix_iff {p : PathParts} (h : p.Valid) {segments : List Str}
    (hs : ∀ s ∈ segments, isValidSegment s = true) :
    joinSegments segments <+: p.path ↔ segments <+: [p.scope, p.entityId, p.area] := by
  have hlast : slash ∉ p.name ++ mdSuffix := slash_not_mem h.name
  rw [p.path_eq, isPrefix_joinSegments (fun s hm => slash_not_mem (hs s hm)) (fun s hm => ?_) hlast]
  simp only [List.mem_cons, List.not_mem_nil, or_false] at hm
  rcases hm with rfl | rfl | rfl
  · exact slash_not_mem h.scope
  · exact slash_not_mem h.entityId
  · exact slash_not_mem h.area

end Wenchang
