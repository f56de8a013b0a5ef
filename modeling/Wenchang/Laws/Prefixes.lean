import Wenchang.Paths

/-!
# Paths, prefixes and their parts

`build_path` and `parse_path` are inverse to each other (`buildPath_iff_parsePath`), a valid prefix is
built from unique parts (`existsUnique_buildPrefix`), and a path is under a built prefix just when its
parts agree (`prefix_iff_agrees`). So no key at all is under the prefixes of two entities
(`entity_of_key`), also where one id or scope extends another.
-/

namespace Wenchang

open Py

/-! ## Joined segments -/

/-- A prefix of joined segments is of the segments. -/
theorem prefix_of_joinSegments {segments segments' : List Str} (h : ∀ s ∈ segments, slash ∉ s)
    (h' : ∀ s ∈ segments', slash ∉ s) (hp : joinSegments segments <+: joinSegments segments') :
    segments <+: segments' := by
  rw [← List.append_nil (joinSegments segments')] at hp
  rwa [isPrefix_joinSegments h h' List.not_mem_nil] at hp

/-- Two lists of as many segments that a text starts with are one. -/
theorem joinSegments_unique {segments segments' : List Str} {key : Str} (h : ∀ s ∈ segments, slash ∉ s)
    (h' : ∀ s ∈ segments', slash ∉ s) (hlen : segments.length = segments'.length)
    (hkey : joinSegments segments <+: key) (hkey' : joinSegments segments' <+: key) :
    segments = segments' := by
  rcases List.prefix_or_prefix_of_prefix hkey hkey' with hp | hp
  · exact (prefix_of_joinSegments h h' hp).eq_of_length hlen
  · exact ((prefix_of_joinSegments h' h hp).eq_of_length hlen.symm).symm

/-- Joined segments tell the segments. -/
theorem joinSegments_injective {segments segments' : List Str} (h : ∀ s ∈ segments, slash ∉ s)
    (h' : ∀ s ∈ segments', slash ∉ s) (heq : joinSegments segments = joinSegments segments') :
    segments = segments' := by
  have hle := prefix_of_joinSegments h h' (heq ▸ List.prefix_rfl)
  have hge := prefix_of_joinSegments h' h (heq ▸ List.prefix_rfl)
  exact hle.eq_of_length (le_antisymm hle.length_le hge.length_le)

/-- The segments of a prefix, in order. -/
def prefixSegments (scope : Str) (entityId area : Option Str) : List Str :=
  scope :: (entityId.toList ++ area.toList)

/-- The segments tell which of them were given, if no area stands without an entity. -/
theorem prefixSegments_injective {scope scope' : Str} {entityId entityId' area area' : Option Str}
    (h : ¬ (area.isSome ∧ entityId.isNone)) (h' : ¬ (area'.isSome ∧ entityId'.isNone))
    (heq : prefixSegments scope entityId area = prefixSegments scope' entityId' area') :
    scope = scope' ∧ entityId = entityId' ∧ area = area' := by
  obtain ⟨hscope, hrest⟩ := List.cons.inj heq
  refine ⟨hscope, ?_⟩
  cases entityId <;> cases area <;> cases entityId' <;> cases area' <;> simp_all

section

variable [Interpreter] {scope entityId area name path pre : Str} {parts : PathParts}

/-! ## Paths -/

/-- **Built and parsed are inverse.** -/
theorem buildPath_iff_parsePath :
    buildPath scope entityId area name = .ok path ↔ parsePath path = .ok ⟨scope, entityId, area, name⟩ := by
  rw [buildPath_eq_ok, parsePath_eq_ok]

/-- Parts are accepted just when their text is a valid path with exactly these parts. -/
theorem buildPath_accepts : (∃ path, buildPath scope entityId area name = .ok path) ↔
    isValidPath (PathParts.path ⟨scope, entityId, area, name⟩) = true ∧
      parsePath (PathParts.path ⟨scope, entityId, area, name⟩) = .ok ⟨scope, entityId, area, name⟩ := by
  simp only [buildPath_eq_ok]
  constructor
  · rintro ⟨path, hvalid, -⟩
    exact ⟨hvalid.isValidPath, parsePath_path hvalid⟩
  · rintro ⟨-, hparse⟩
    exact ⟨_, (parsePath_eq_ok.mp hparse).1, rfl⟩

/-- A path is valid where it parses. -/
theorem isValidPath_iff_parsePath : isValidPath path = true ↔ ∃ parts, parsePath path = .ok parts := by
  simp only [isValidPath_iff, parsePath_eq_ok]

/-! ## Prefixes -/

/-- The segments of a prefix hold no slash. -/
theorem buildPrefix_slash {scope pre : Str} {entityId area : Option Str}
    (h : buildPrefix scope entityId area = .ok pre) :
    ∀ s ∈ prefixSegments scope entityId area, slash ∉ s := fun s hs =>
  slash_not_mem ((buildPrefix_eq_ok.mp h).2.1 s hs)

/-- A prefix that is built is valid. -/
theorem isValidPrefix_of_buildPrefix {entityId area : Option Str}
    (h : buildPrefix scope entityId area = .ok pre) : isValidPrefix pre = true := by
  obtain ⟨-, hvalid, rfl⟩ := buildPrefix_eq_ok.mp h
  refine isValidPrefix_joinSegments (List.cons_ne_nil _ _) ?_ hvalid
  cases entityId <;> cases area <;> simp

/-- The parts of a prefix are known. -/
theorem buildPrefix_injective {scope' : Str} {entityId entityId' area area' : Option Str}
    (h : buildPrefix scope entityId area = .ok pre) (h' : buildPrefix scope' entityId' area' = .ok pre) :
    scope = scope' ∧ entityId = entityId' ∧ area = area' := by
  have hsegments := joinSegments_injective (buildPrefix_slash h) (buildPrefix_slash h')
  obtain ⟨harea, -, hpre⟩ := buildPrefix_eq_ok.mp h
  obtain ⟨harea', -, hpre'⟩ := buildPrefix_eq_ok.mp h'
  exact prefixSegments_injective harea harea' (hsegments (hpre.symm.trans hpre'))

/-- One to three segments are those of some parts. -/
theorem exists_buildPrefix {segments : List Str} (hne : segments ≠ []) (hlen : segments.length ≤ 3)
    (h : ∀ s ∈ segments, isValidSegment s = true) :
    ∃ scope entityId area, buildPrefix scope entityId area = .ok (joinSegments segments) := by
  match segments, hlen with
  | [scope], _ => exact ⟨scope, none, none, buildPrefix_eq_ok.mpr ⟨by simp, h, rfl⟩⟩
  | [scope, entityId], _ => exact ⟨scope, some entityId, none, buildPrefix_eq_ok.mpr ⟨by simp, h, rfl⟩⟩
  | [scope, entityId, area], _ =>
    exact ⟨scope, some entityId, some area, buildPrefix_eq_ok.mpr ⟨by simp, h, rfl⟩⟩

/-- **A valid prefix is built from unique parts.** -/
theorem existsUnique_buildPrefix : isValidPrefix pre = true ↔
    ∃! parts : Str × Option Str × Option Str, buildPrefix parts.1 parts.2.1 parts.2.2 = .ok pre := by
  constructor
  · intro h
    obtain ⟨segments, hne, hlen, hvalid, rfl⟩ := exists_segments h
    obtain ⟨scope, entityId, area, hbuilt⟩ := exists_buildPrefix hne hlen hvalid
    refine ⟨(scope, entityId, area), hbuilt, fun parts hparts => ?_⟩
    obtain ⟨hscope, hentity, harea⟩ := buildPrefix_injective hparts hbuilt
    exact Prod.ext hscope (Prod.ext hentity harea)
  · rintro ⟨parts, hbuilt, -⟩
    exact isValidPrefix_of_buildPrefix hbuilt

/-- The parts of a path agree with those that a prefix gives. -/
structure Agrees (parts : PathParts) (scope : Str) (entityId area : Option Str) : Prop where
  scope : parts.scope = scope
  entityId : ∀ e ∈ entityId, parts.entityId = e
  area : ∀ a ∈ area, parts.area = a

/-- **A valid path is under a built prefix just when its parts agree.** -/
theorem prefix_iff_agrees {entityId area : Option Str} (hparse : parsePath path = .ok parts)
    (hbuilt : buildPrefix scope entityId area = .ok pre) :
    pre <+: path ↔ Agrees parts scope entityId area := by
  obtain ⟨hvalid, rfl⟩ := parsePath_eq_ok.mp hparse
  obtain ⟨harea, hsegments, rfl⟩ := buildPrefix_eq_ok.mp hbuilt
  rw [hvalid.prefix_iff hsegments]
  constructor
  · intro h
    cases entityId with
    | none =>
      cases area with
      | none =>
        have hs : scope = parts.scope := (List.cons_prefix_cons.mp h).1
        exact ⟨hs.symm, nofun, nofun⟩
      | some a => exact absurd ⟨rfl, rfl⟩ harea
    | some e =>
      obtain ⟨hs, h⟩ := List.cons_prefix_cons.mp h
      obtain ⟨he, h⟩ := List.cons_prefix_cons.mp h
      refine ⟨hs.symm, fun e' hmem => by rw [← he, Option.mem_some.mp hmem], ?_⟩
      cases area with
      | none => exact nofun
      | some a =>
        obtain ⟨ha, -⟩ := List.cons_prefix_cons.mp h
        exact fun a' hmem => by rw [← ha, Option.mem_some.mp hmem]
  · rintro ⟨hs, he, ha⟩
    cases entityId with
    | none =>
      cases area with
      | none => simp [hs]
      | some a => exact absurd ⟨rfl, rfl⟩ harea
    | some e =>
      cases area with
      | none => simp [hs, he e rfl]
      | some a => simp [hs, he e rfl, ha a rfl]

/-- **No key belongs to two entities**: the entity whose prefix a text has is known. -/
theorem entity_of_key {scope' entityId' pre' key : Str} (h : buildPrefix scope (some entityId) none = .ok pre)
    (h' : buildPrefix scope' (some entityId') none = .ok pre') (hkey : pre <+: key) (hkey' : pre' <+: key) :
    scope = scope' ∧ entityId = entityId' := by
  have hslash := buildPrefix_slash h
  have hslash' := buildPrefix_slash h'
  obtain ⟨-, -, rfl⟩ := buildPrefix_eq_ok.mp h
  obtain ⟨-, -, rfl⟩ := buildPrefix_eq_ok.mp h'
  have hsegments := joinSegments_unique hslash hslash' rfl hkey hkey'
  simpa [prefixSegments] using hsegments

/-- **Paths and prefixes are their parts**, and matching a key against a built prefix separates the
entities. -/
theorem path_algebra :
    (∀ scope entityId area name, (∃ path, buildPath scope entityId area name = .ok path) ↔
      isValidPath (PathParts.path ⟨scope, entityId, area, name⟩) = true ∧
        parsePath (PathParts.path ⟨scope, entityId, area, name⟩) = .ok ⟨scope, entityId, area, name⟩) ∧
    (∀ scope entityId area name path, buildPath scope entityId area name = .ok path ↔
      parsePath path = .ok ⟨scope, entityId, area, name⟩) ∧
    (∀ path, isValidPath path = true ↔ ∃ parts, parsePath path = .ok parts) ∧
    (∀ scope entityId area pre, buildPrefix scope entityId area = .ok pre → isValidPrefix pre = true) ∧
    (∀ pre, isValidPrefix pre = true ↔ ∃! parts : Str × Option Str × Option Str,
      buildPrefix parts.1 parts.2.1 parts.2.2 = .ok pre) ∧
    (∀ path parts scope entityId area pre, parsePath path = .ok parts →
      buildPrefix scope entityId area = .ok pre → (pre <+: path ↔ Agrees parts scope entityId area)) ∧
    ∀ scope entityId scope' entityId' pre pre', buildPrefix scope (some entityId) none = .ok pre →
      buildPrefix scope' (some entityId') none = .ok pre' → (scope, entityId) ≠ (scope', entityId') →
      ∀ key, pre <+: key → ¬ pre' <+: key := by
  refine ⟨fun scope entityId area name => buildPath_accepts,
    fun scope entityId area name path => buildPath_iff_parsePath, fun path => isValidPath_iff_parsePath,
    fun scope entityId area pre => isValidPrefix_of_buildPrefix, fun pre => existsUnique_buildPrefix,
    fun path parts scope entityId area pre => prefix_iff_agrees, ?_⟩
  intro scope entityId scope' entityId' pre pre' h h' hne key hkey hkey'
  obtain ⟨rfl, rfl⟩ := entity_of_key h h' hkey hkey'
  exact hne rfl

end

/-- An entity id that extends another, and a scope that does: their keys stay apart. -/
theorem path_algebra_extended : let _ := Interpreter.ascii
    str "u/ab/notes/x.md" ∈ {key | str "u/ab/" <+: key ∧ ¬ str "u/a/" <+: key ∧ ¬ str "u/ab/x/" <+: key} ∧
      isValidPrefix (str "u/ab/") = true := by
  let _ := Interpreter.ascii
  obtain ⟨-, -, -, hvalid, -, hagrees, hapart⟩ := path_algebra
  have hlong : buildPrefix (str "u") (some (str "ab")) none = .ok (str "u/ab/") := by decide
  have hshort : buildPrefix (str "u") (some (str "a")) none = .ok (str "u/a/") := by decide
  have harea : buildPrefix (str "u") (some (str "ab")) (some (str "x")) = .ok (str "u/ab/x/") := by decide
  have hparse : parsePath (str "u/ab/notes/x.md") = .ok ⟨str "u", str "ab", str "notes", str "x"⟩ := by decide
  have hkey : str "u/ab/" <+: str "u/ab/notes/x.md" := by decide
  refine ⟨⟨hkey, hapart _ _ _ _ _ _ hlong hshort (by decide) _ hkey, fun hx => ?_⟩, hvalid _ _ _ _ hlong⟩
  have hsame := ((hagrees _ _ _ _ _ _ hparse harea).mp hx).area (str "x") rfl
  exact absurd hsame (by decide)

end Wenchang
