import WebCrawler.Models
import Mathlib.Data.List.AList

/-!
# Raw page bodies

The three stores of `crawler/storage/object_store.py`.  Bodies are gzipped on the way
in and out, so that a store is a dictionary from content hashes to bodies.
-/

namespace WebCrawler

/-- The bodies kept by a store, with their content types. -/
abbrev Bodies : Type := AList fun _ : String => List UInt8 × Option String

/-- The implementations of `ObjectStore`. -/
inductive BodyBackend
  /-- `NoopObjectStore`. -/
  | noop
  /-- `PostgresObjectStore`. -/
  | postgres
  /-- `MinioObjectStore`. -/
  | minio (bucket : String)
deriving DecidableEq, Repr

namespace BodyBackend

/-- The key under which a body with the given content hash is found again. -/
def storageKey : BodyBackend → String → String
  | .noop, _ => ""
  | .postgres, contentHash => "pg:" ++ contentHash
  | .minio bucket, contentHash => "s3://" ++ bucket ++ "/" ++ contentHash

/-- Stores a body: `ON CONFLICT DO NOTHING` in Postgres, an overwrite in MinIO. -/
def put (backend : BodyBackend) (contentHash : String) (body : List UInt8)
    (contentType : Option String) (bodies : Bodies) : String × Bodies :=
  (backend.storageKey contentHash,
    match backend with
    | .noop => bodies
    | .postgres =>
        if (bodies.lookup contentHash).isSome then bodies
        else bodies.insert contentHash (body, contentType)
    | .minio _ => bodies.insert contentHash (body, some "application/gzip"))

end BodyBackend

end WebCrawler
