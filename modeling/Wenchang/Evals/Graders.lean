import Wenchang.Py.Repr
import Wenchang.Ordered.Greedy

/-!
# Graders

`_seed_lines_preserved` of the deterministic graders, and what it reads: the seed files of a scenario
and the files of a store dump, each addressed by scope, area and name. A grader answers `none` where
the assertion passes, and what is wrong where it does not. Whether a pattern matches somewhere in a
line, `re.search`, is the parameter `search`.
-/

namespace Wenchang.Evals

open Py Ordered

/-- `FileRef`: one file, addressed scope-relative as the tools address it. -/
structure FileRef where
  scope : Str
  area : Str
  name : Str
  deriving DecidableEq

/-- `SeedFile`: one file the seeding job writes. -/
structure SeedFile where
  scope : Str
  area : Str
  name : Str
  content : Str

/-- `Scenario`, as far as its seed. -/
structure Scenario where
  seedFiles : List SeedFile

/-- `StoredFile`: one file of the final store. -/
structure StoredFile where
  path : Str
  scope : Str
  area : Str
  name : Str
  content : Str

/-- `StoreDump`. -/
structure StoreDump where
  files : List StoredFile

/-- `SeedLinesPreserved`. -/
structure SeedLinesPreserved where
  file : FileRef
  exceptPattern : Option Str

/-- `StoreDump.get`. -/
def StoreDump.get (store : StoreDump) (scope area name : Str) : Option StoredFile :=
  store.files.find? fun f => (f.scope, f.area, f.name) = (scope, area, name)

/-- The seed file an assertion names. -/
def Scenario.seed (s : Scenario) (ref : FileRef) : Option SeedFile :=
  s.seedFiles.find? fun x => (x.scope, x.area, x.name) = (ref.scope, ref.area, ref.name)

/-- The lines of a seed that have to be kept. -/
def wantedLines (search : Str → Str → Bool) (a : SeedLinesPreserved) (seed : SeedFile) : List Str :=
  (splitlines seed.content).filter fun line =>
    match a.exceptPattern with
    | none => true
    | some pattern => !search pattern line

/-- `f"{ref.scope}/{ref.area}/{ref.name}"`. -/
def FileRef.text (ref : FileRef) : Str := ref.scope ++ str "/" ++ ref.area ++ str "/" ++ ref.name

variable [Interpreter]

/-- `_seed_lines_preserved`. -/
def seedLinesPreserved (search : Str → Str → Bool) (a : SeedLinesPreserved) (s : Scenario)
    (store : StoreDump) : Option Str :=
  match s.seed a.file with
  | none => some (a.file.text ++ str " is not a seed file")
  | some seed =>
    match store.get a.file.scope a.file.area a.file.name with
    | none => some (a.file.text ++ str " no longer exists")
    | some found =>
      match firstMissing (wantedLines search a seed) (splitlines found.content) with
      | some line => some (found.path ++ str " lost or reordered seed line " ++ Py.repr line)
      | none => none

end Wenchang.Evals
