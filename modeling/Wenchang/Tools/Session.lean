import Wenchang.Core.MemoryIndex
import Wenchang.Tools.MemoryTools

/-!
# A session over a store

`inProcess` answers a tool's operations with a `MemoryStore`, as `InProcessClient` does, and `runCall`
runs one tool call alone against an `InMemoryStorage` and a clock. A session is its calls, one after
another: each meets the storage and the clock that the calls before it left.
-/

namespace Wenchang

open Py Ordered Interaction

/-- `InProcessClient`. -/
def inProcess [Interpreter] (s : MemoryStore) (fuel : Nat) : (o : ClientOp) → Store o.Ans
  | .getMemoryIndex scopeMap => (s.getMemoryIndex fuel scopeMap).attempt
  | .readFile path => (MemoryStore.readFile path).attempt
  | .listPrefix pre cursor => (s.listPrefix pre cursor).attempt
  | .writeFile path content metadata expectedVersion source =>
    (s.writeFile fuel path content metadata expectedVersion source).attempt
  | .appendLine path line expectedVersion source aliases description =>
    (s.appendLine path line expectedVersion source aliases description).attempt
  | .replaceFact path oldString newString expectedVersion source aliases description =>
    (s.replaceFact path oldString newString expectedVersion source aliases description).attempt
  | .deleteFile path expectedVersion => (s.deleteFile path expectedVersion).attempt

/-- What a session meets: storage, and the readings that the clock gives from now on. -/
structure SessionWorld where
  storage : InMemoryStorage
  clock : Nat → DateTime

/-- One operation of a store. A store without an index cache asks for no token and for no entry. -/
def SessionWorld.answer : (o : StoreOp) → SessionWorld → o.Ans × SessionWorld
  | .storage o, w =>
    ((InMemoryStorage.step o w.storage).1, { w with storage := (InMemoryStorage.step o w.storage).2 })
  | .clock, w => (w.clock 0, { w with clock := fun n => w.clock (n + 1) })
  | .uuid4, w => ([], w)
  | .cacheGet _, w => (.ok .absent, w)
  | .cacheSet _ _, w => (.ok (), w)

namespace MemoryTools

variable [Interpreter] (t : MemoryTools) (s : MemoryStore) (fuel : Nat)

/-- The program of a tool call over a store. -/
def program (c : ToolCall) : Store ToolResult := (t.call c).interp (inProcess s fuel)

/-- One call: its result or its exception, and the world behind it. -/
def runCall (c : ToolCall) (w : SessionWorld) : Option (Except Exc ToolResult) × SessionWorld :=
  (t.program s fuel c).run SessionWorld.answer w

/-- Calls in order: the outcome of each, and the world behind the last. -/
def session : List ToolCall → SessionWorld → List (Option (Except Exc ToolResult)) × SessionWorld
  | [], w => ([], w)
  | c :: rest, w =>
    let out := t.runCall s fuel c w
    let outs := session rest out.2
    (out.1 :: outs.1, outs.2)

end MemoryTools

end Wenchang
