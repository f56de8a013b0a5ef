import Wenchang.Ordered.FinMap
import Wenchang.Py.Utf8

/-!
# Exceptions

Every exception the library raises or lets through, with what it carries. `errors.py` gives the
taxonomy; around it stand the plain Python ones a call can meet, and the two internal ones of
storage and purge. Exceptions of adopter code (a cache, a resolver) are `foreign`, by type name.
-/

namespace Wenchang

open Py Ordered

/-- Why a memory location could not be resolved to an existing file. -/
inductive NotFoundReason where
  | invalidPath
  | fileAbsent
  deriving DecidableEq

/-- Why a scope is closed to the write the caller attempted. -/
inductive RestrictionReason where
  | systemReadOnly
  | roleRequired
  | notGranted
  deriving DecidableEq

/-- Why the storage backend could not complete a call. -/
inductive TransientReason where
  | timeout
  | unavailable
  deriving DecidableEq

/-- An exception. -/
inductive Exc where
  | valueError (message : Str)
  | typeError (message : Str)
  | overflowError
  | recursionError
  | unicodeEncodeError (error : UnicodeEncodeError)
  | unicodeDecodeError (error : UnicodeDecodeError)
  | metadataFormatError (key detail : Str)
  | preconditionFailedError (key : Str)
  | invalidStorageKeyError (message : Str)
  | versionConflictError (path content version : Str)
  | oversizeWriteError (path : Str) (size limit : Nat)
  | fileQuotaExceededError (path : Str) (limit : Nat)
  | replaceFactMatchError (path content version : Str) (matchCount : Nat)
  | invalidArgumentError (argument detail : Str)
  | notFoundError (path : Str) (reason : NotFoundReason)
  | restrictedScopeError (path scope : Str) (reason : RestrictionReason)
      (requiredRoles : Option (FinSet Str))
  | backendUnavailableError (reason : TransientReason) (detail : Str)
  | purgeIncompleteError (scope entityId : Str) (passes : Nat)
  | foreign (typeName : Str)
  deriving DecidableEq

/-- `isinstance(exc, ValueError)`. -/
def Exc.isValueError : Exc → Bool
  | .valueError _ => true
  | .unicodeEncodeError _ => true
  | .unicodeDecodeError _ => true
  | .metadataFormatError _ _ => true
  | .invalidStorageKeyError _ => true
  | _ => false

/-- `s.encode("utf-8")`. -/
def encodeUtf8 (s : Str) : Except Exc Bytes := (utf8Encode s).mapError .unicodeEncodeError

/-- `data.decode("utf-8")`. -/
def decodeUtf8 (data : Bytes) : Except Exc Str := (utf8Decode data).mapError .unicodeDecodeError

/-- Content is encoded as UTF-8. -/
theorem encodeUtf8_eq_ok {s : Str} {data : Bytes} :
    encodeUtf8 s = .ok data ↔ utf8Encode s = .ok data := by
  unfold encodeUtf8
  cases utf8Encode s with
  | ok a => simp only [Except.mapError, Except.ok.injEq]
  | error e => simp only [Except.mapError, reduceCtorEq]

/-- Content is decoded as UTF-8. -/
theorem decodeUtf8_eq_ok {s : Str} {data : Bytes} :
    decodeUtf8 data = .ok s ↔ utf8Decode data = .ok s := by
  unfold decodeUtf8
  cases utf8Decode data with
  | ok a => simp only [Except.mapError, Except.ok.injEq]
  | error e => simp only [Except.mapError, reduceCtorEq]

/-- What was encoded is decoded. -/
theorem decodeUtf8_of_encodeUtf8 {s : Str} {data : Bytes} (h : encodeUtf8 s = .ok data) :
    decodeUtf8 data = .ok s :=
  decodeUtf8_eq_ok.mpr (utf8Decode_encode (encodeUtf8_eq_ok.mp h))

end Wenchang
