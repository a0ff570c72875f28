import FileFerry.Io.Copy
import FileFerry.Posix.Path
import FileFerry.Support.Window

/-!
# Source — Model

`model.rs`, `error.rs` and `validate.rs`: the values that pass between a request and a backend,
the errors, the cap on the text of a message, and the check of a path.

* `length_clipUserMessage`: a clipped text has at most `MAX_USER_MESSAGE_LEN` characters.
* `clean_of_valid`: no segment of an accepted path leads up.
-/

namespace FileFerry
open Text AsyncIo

/-! ### `model.rs` -/

/-- The two kinds of backend a request may name. -/
inductive StorageType where
  | fs
  | s3
  deriving DecidableEq

/-- `StorageType::as_str`. -/
def StorageType.asStr : StorageType → String
  | .fs => "FS"
  | .s3 => "S3"

/-- The derived `Debug` of a `StorageType`. -/
def StorageType.debug : StorageType → String
  | .fs => "Fs"
  | .s3 => "S3"

/-- A file of a listing. -/
structure FileEntry where
  name : String
  size : Nat
  lastModified : Option String
  deriving DecidableEq

structure ListFilesMeta where
  count : Nat
  nextCursor : Option String
  deriving DecidableEq

/-- The answer to a listing. -/
structure ListFilesResponse where
  data : List FileEntry
  metaData : ListFilesMeta
  deriving DecidableEq

structure ListFilesQuery where
  storageType : StorageType
  limit : Option Nat
  startAfter : Option String
  deriving DecidableEq

/-- The body of a copy request. -/
structure CopyFileRequest where
  sourceStorageType : StorageType
  sourceFilePath : String
  destinationStorageType : StorageType
  destinationFilePath : String
  deriving DecidableEq

/-! ### `error.rs` -/

def MAX_USER_MESSAGE_LEN : Nat := 256

/-- A text that is longer than `MAX_USER_MESSAGE_LEN` loses its end to an ellipsis. -/
def clipUserMessage (s : String) : String :=
  if s.toList.length ≤ MAX_USER_MESSAGE_LEN then s
  else String.ofList (s.toList.take (MAX_USER_MESSAGE_LEN - 3)) ++ "..."

/-- **A clipped text** fits the cap. -/
theorem length_clipUserMessage (s : String) :
    (clipUserMessage s).toList.length ≤ MAX_USER_MESSAGE_LEN := by
  rw [clipUserMessage]
  split
  · assumption
  · simp [MAX_USER_MESSAGE_LEN]

theorem clipUserMessage_of_le {s : String} (h : s.toList.length ≤ MAX_USER_MESSAGE_LEN) :
    clipUserMessage s = s := if_pos h

/-- The errors of the service, each with what its message tells. -/
inductive FerryError where
  | invalidPath (message : String)
  | sameStorageType
  | backendNotConfigured (kind : StorageType)
  | notFound (path : String)
  | transferTooLarge (cap : Nat)
  | listLimitTooLarge (cap : Nat)
  | badQuery (message : String)
  | badBody (message : String)
  | bodyTooLarge (cap : Nat)
  | bodyReadTimeout
  | upstream (message : String)
  | io (e : IoError)
  | internal (message : String)
  deriving DecidableEq

namespace FerryError

/-- The `Display` of an error. -/
def display : FerryError → String
  | invalidPath message => "path is not valid: " ++ message
  | sameStorageType => "source and destination storage types must differ"
  | backendNotConfigured kind => "storage backend " ++ kind.debug ++ " is not configured"
  | notFound _ => "file not found"
  | transferTooLarge cap =>
    "transfer exceeded configured size cap of " ++ toString cap ++ " bytes"
  | listLimitTooLarge cap => "requested list limit exceeds server cap of " ++ toString cap
  | badQuery message => "invalid query string: " ++ message
  | badBody message => "invalid request body: " ++ message
  | bodyTooLarge cap => "request body exceeds server cap of " ++ toString cap ++ " bytes"
  | bodyReadTimeout => "timed out waiting for request body"
  | upstream message => "upstream storage error: " ++ message
  | io e => "i/o error: " ++ e.display
  | internal message => "internal error: " ++ message

/-- The HTTP status of an error. -/
def status : FerryError → Nat
  | invalidPath _ | sameStorageType | badQuery _ | badBody _ => 400
  | backendNotConfigured _ => 503
  | notFound _ => 404
  | transferTooLarge _ | listLimitTooLarge _ | bodyTooLarge _ => 413
  | bodyReadTimeout => 408
  | upstream _ => 502
  | io _ | internal _ => 500

/-- The `error` of the envelope. -/
def code : FerryError → String
  | invalidPath _ => "invalid_path"
  | sameStorageType => "same_storage_type"
  | backendNotConfigured _ => "backend_not_configured"
  | notFound _ => "not_found"
  | transferTooLarge _ => "transfer_too_large"
  | listLimitTooLarge _ => "list_limit_too_large"
  | badQuery _ => "bad_query"
  | badBody _ => "bad_body"
  | bodyTooLarge _ => "body_too_large"
  | bodyReadTimeout => "body_read_timeout"
  | upstream _ => "upstream_error"
  | io _ => "io_error"
  | internal _ => "internal_error"

/-- Every error is answered as a client's or a server's. -/
theorem status_error (e : FerryError) : 400 ≤ e.status ∧ e.status < 600 := by
  cases e <;> simp [status]

end FerryError

/-! ### `validate.rs` -/

/-- ASCII letters and digits, hyphen, dot, underscore and slash. -/
def allowedByte (b : UInt8) : Bool :=
  (0x30 ≤ b && b ≤ 0x39) || (0x41 ≤ b && b ≤ 0x5A) || (0x61 ≤ b && b ≤ 0x7A)
    || b == 0x2D || b == 0x2E || b == 0x5F || b == 0x2F

/-- A segment `.` or `..`. -/
def isTraversal (path : String) : Bool :=
  ((bytes path).splitOn Posix.slash).any fun seg => seg == Posix.dotdot || seg == Posix.dot

/-- What paths the service takes. -/
def validatePath (path : String) : Except FerryError Unit :=
  if path = "" then .error (.invalidPath "empty path")
  else if 0 ∈ bytes path then .error (.invalidPath "null byte in path")
  else if !(bytes path).all allowedByte then
    .error (.invalidPath "path contains disallowed characters (allowed: 0-9 a-z A-Z - . _ /)")
  else if isTraversal path then .error (.invalidPath "path traversal detected")
  else .ok ()

/-- What an accepted path is. -/
theorem validatePath_ok {path : String} :
    validatePath path = .ok () ↔ path ≠ "" ∧ 0 ∉ bytes path ∧ (bytes path).all allowedByte = true ∧
      isTraversal path = false := by
  rw [validatePath]
  by_cases h₁ : path = ""
  · simp [h₁]
  · by_cases h₂ : 0 ∈ bytes path
    · simp [h₁, h₂]
    · cases h₃ : (bytes path).all allowedByte <;> cases h₄ : isTraversal path <;> simp [h₁, h₂]

/-- **The segments of an accepted path** are names, or empty. -/
theorem clean_of_valid {path : String} (h : validatePath path = .ok ()) :
    Posix.Clean (Posix.Path.ofBytes (bytes path)) := by
  obtain ⟨-, -, -, ht⟩ := validatePath_ok.mp h
  rw [isTraversal, List.any_eq_false] at ht
  intro s hs
  have hd := ht s hs
  simp only [Bool.or_eq_true, beq_iff_eq, not_or] at hd
  by_cases he : s = []
  · exact .inl (.inl he)
  · exact .inr ⟨fun h => h.elim he hd.2, hd.1⟩

end FileFerry
