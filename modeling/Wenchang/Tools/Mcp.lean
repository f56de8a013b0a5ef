import Wenchang.Tools.Rendering
import Wenchang.Tools.Session

/-!
# Tool calls as requests

`resolveIdentity` turns a caller's credentials into an identity, through a resolver that the adopter
injects, and `serve` answers one request of an MCP server: it reads the credentials, binds the caller's own
tools, runs the call and renders how it ended. A resolver may return or raise anything; what it raised is
reported by its type only.
-/

namespace Wenchang

open Py Ordered Interaction

/-- What `resolver.resolve(credentials)` returns or raises. -/
inductive Resolution where
  | identity (identity : Identity)
  | failure (detail : Str)
  /-- A `ResolutionFailure` whose detail cannot be formatted. -/
  | unreadableFailure
  /-- A value of another type. -/
  | other (typeName : Str)
  | raised (typeName : Str)

/-- A resolver for credentials of a type, by the name of its own type. -/
structure IdentityResolver (C : Type) where
  typeName : Str
  resolve : C → Resolution

/-- `SandboxResolver`. -/
def sandboxResolver (C : Type) (identity : Identity) : IdentityResolver C :=
  ⟨str "SandboxResolver", fun _ => .identity identity⟩

/-- What a server is given to run with, but for its client. -/
structure McpServer (C : Type) where
  resolver : IdentityResolver C
  policy : ScopePolicy
  source : Str
  source_ne : source ≠ []

/-- A tool call as it comes in: at a server, with the credentials that `credentials_from_context` reads, or
the name of the exception's type that it raises. -/
structure McpRequest (C : Type) where
  server : McpServer C
  credentials : Except Str C
  call : ToolCall

/-- What a request is answered with: `structured_content` and `is_error`. -/
structure CallToolResult where
  payload : List (Str × JsonValue)
  isError : Bool

section

variable {C : Type}

/-- `resolve_identity`. -/
def resolveIdentity (resolver : IdentityResolver C) (credentials : C) : Except Failure Identity :=
  match resolver.resolve credentials with
  | .raised typeName =>
    .error (.resolverFailureError (str "Resolver " ++ resolver.typeName ++ str " raised " ++ typeName ++ str "."))
  | .identity identity => .ok identity
  | .failure detail => .error (.resolverFailureError detail)
  | .unreadableFailure =>
    .error (.resolverFailureError (str "Resolver " ++ resolver.typeName ++
      str " returned an invalid ResolutionFailure."))
  | .other typeName =>
    .error (.resolverFailureError (str "Resolver " ++ resolver.typeName ++ str " returned " ++ typeName ++
      str ", not Identity or ResolutionFailure."))

/-- `bind_tools`. -/
def bindTools (server : McpServer C) (credentials : C) : Except Failure MemoryTools :=
  (resolveIdentity server.resolver credentials).map fun identity =>
    ⟨identity, server.policy, server.source, server.source_ne⟩

/-- The tools a request is bound to, or why there are none. -/
def McpRequest.tools (request : McpRequest C) : Except Failure MemoryTools :=
  match request.credentials with
  | .error _ => .error (.resolverFailureError (str "Credentials could not be read from the request."))
  | .ok credentials => bindTools request.server credentials

variable [Interpreter]

/-- How a call that ended is shown. -/
def renderOutcome : Except Exc ToolResult → CallToolResult
  | .ok result => ⟨renderResult result, false⟩
  | .error e => ⟨renderError (.exc e), true⟩

/-- `_run`, over a `MemoryStore`. -/
def serve (i : Invocation (McpRequest C)) : Store CallToolResult :=
  match i.call.tools with
  | .error failure => return ⟨renderError failure, true⟩
  | .ok tools => do
    let outcome ← (tools.program i.store i.fuel i.call.call).attempt
    return renderOutcome outcome

end

end Wenchang
