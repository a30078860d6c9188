import LiveQuery.Keyed
import LiveQuery.Text.Utf8

/-! # The store

Named buckets of byte keys and byte values in key order. A store is a value, so a snapshot of it is
the store itself, and a write transaction is a store that has not been put in place of the one it
started from.

* `Bucket` and `Store` with their reads and writes; every write makes the bucket it names.
* `Cursor` reads a bucket forward in batches, each resuming after the last key that was given out.
-/
namespace LiveQuery

/-- The entries of a bucket, in key order. -/
abbrev Bucket := List (Bytes × Bytes)

/-- The buckets by name. -/
structure Store where
  buckets : List (String × Bucket) := []
deriving Inhabited, DecidableEq

namespace Store

/-- The store without buckets. -/
def empty : Store := {}

/-- The bucket of that name, if some writer has made it. -/
def bucket? (s : Store) (name : String) : Option Bucket := Keyed.find? s.buckets name

/-- The entries of a bucket; one that was never made has none. -/
def entries (s : Store) (name : String) : Bucket := (s.bucket? name).getD []

/-- Makes the bucket if it is missing. -/
def touch (s : Store) (name : String) : Store :=
  { s with buckets := Keyed.insert s.buckets name (s.entries name) }

/-- The value under a key. -/
def get? (s : Store) (name : String) (key : Bytes) : Option Bytes :=
  Keyed.find? (s.entries name) key

/-- Puts a value under a key. -/
def put (s : Store) (name : String) (key value : Bytes) : Store :=
  { s with buckets := Keyed.insert s.buckets name (Keyed.insert (s.entries name) key value) }

/-- Takes a key out. -/
def delete (s : Store) (name : String) (key : Bytes) : Store :=
  { s with buckets := Keyed.insert s.buckets name (Keyed.erase (s.entries name) key) }

end Store

/-! ## Cursors -/

/-- A forward reader of a bucket: the bucket while it may hold more, the key given out last, and the
entries read but not yet given out. -/
structure Cursor where
  source : Option Bucket
  last : Option Bytes := none
  batch : List (Bytes × Bytes) := []
deriving Inhabited, DecidableEq

namespace Cursor

/-- How many entries are read at once. -/
def batchSize : Nat := 64

/-- A cursor before the first entry of a bucket. -/
def start (b : Bucket) : Cursor := { source := some b }

/-- The entries of a bucket whose keys lie above a bound. -/
def above (bound : Option Bytes) (b : Bucket) : Bucket :=
  match bound with
  | none => b
  | some key => b.dropWhile fun e => !decide (key < e.1)

/-- Reads the next batch; a short one means that the bucket holds no more. -/
def refill (c : Cursor) : Cursor :=
  match c.source with
  | none => c
  | some b =>
    let batch := (above c.last b).take batchSize
    { c with batch, source := if batch.length < batchSize then none else some b }

/-- The next entry, and the cursor after it. -/
def next (c : Cursor) : Option (Bytes × Bytes) × Cursor :=
  let c := if c.batch.isEmpty then c.refill else c
  match c.batch with
  | [] => (none, c)
  | e :: rest => (some e, { c with batch := rest, last := some e.1 })

/-- The cursor without anything left to give. -/
def close (c : Cursor) : Cursor := { c with source := none, batch := [] }

end Cursor

end LiveQuery
