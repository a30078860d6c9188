import LiveQuery.Store

/-! # Transactions

A store through its transactions: one writer at a time works on a store of its own, which takes the place of
the committed one at the commit; a snapshot is the committed store at the time it is taken, and cursors read
the buckets of snapshots.

* `Storage` is the committed store, the writer's, and every snapshot and cursor by the number it was opened
  under.
* `Storage.step` serves a request, `Storage.after` is the state after some, and `Storage.replies` are the
  replies to one of them each time it is made.
-/
namespace LiveQuery

/-- What a writer does with a bucket. Each of these makes the bucket. -/
inductive Edit
  | create
  | get (key : Bytes)
  | put (key value : Bytes)
  | delete (key : Bytes)
deriving DecidableEq, Repr

namespace Storage

/-- What is asked of the storage. -/
inductive Request
  /-- Begins the write transaction. -/
  | begin
  | edit (bucket : String) (e : Edit)
  | commit
  | rollback
  /-- Takes a snapshot. -/
  | snapshot
  /-- Reads a key of a bucket in a snapshot. -/
  | read (snapshot : Nat) (bucket : String) (key : Bytes)
  /-- Opens a cursor on a bucket of a snapshot. -/
  | cursor (snapshot : Nat) (bucket : String)
  /-- Asks a cursor for its next entry. -/
  | pull (cursor : Nat)
  | close (cursor : Nat)
deriving DecidableEq, Repr

inductive Reply
  | done
  /-- There is a write transaction already, which a second one waits for, or none to work in. -/
  | refused
  /-- There is no such bucket in the snapshot, or nothing was opened under the number. -/
  | missing
  | opened (number : Nat)
  | value (v : Option Bytes)
  | entry (e : Option (Bytes × Bytes))
deriving DecidableEq, Repr

end Storage

/-- What a writer's store answers, and the store after it. -/
def Edit.apply (bucket : String) (s : Store) : Edit → Storage.Reply × Store
  | .create => (.done, s.touch bucket)
  | .get key => (.value (s.get? bucket key), s.touch bucket)
  | .put key value => (.done, s.put bucket key value)
  | .delete key => (.value (s.get? bucket key), s.delete bucket key)

structure Storage where
  /-- What is committed. -/
  store : Store := {}
  /-- What the write transaction would commit. -/
  writing : Option Store := none
  snapshots : Array Store := #[]
  cursors : Array Cursor := #[]
deriving Inhabited, DecidableEq

namespace Storage

/-- Serves a request. -/
def step (s : Storage) : Request → Reply × Storage
  | .begin =>
    match s.writing with
    | some _ => (.refused, s)
    | none => (.done, { s with writing := some s.store })
  | .edit bucket e =>
    match s.writing with
    | some store =>
      let (reply, store) := e.apply bucket store
      (reply, { s with writing := some store })
    | none => (.refused, s)
  | .commit =>
    match s.writing with
    | some store => (.done, { s with store, writing := none })
    | none => (.refused, s)
  | .rollback =>
    match s.writing with
    | some _ => (.done, { s with writing := none })
    | none => (.refused, s)
  | .snapshot => (.opened s.snapshots.size, { s with snapshots := s.snapshots.push s.store })
  | .read n bucket key =>
    match s.snapshots[n]?.bind (·.bucket? bucket) with
    | some b => (.value (Keyed.find? b key), s)
    | none => (.missing, s)
  | .cursor n bucket =>
    match s.snapshots[n]?.bind (·.bucket? bucket) with
    | some b => (.opened s.cursors.size, { s with cursors := s.cursors.push (.start b) })
    | none => (.missing, s)
  | .pull c =>
    match s.cursors[c]? with
    | some cursor =>
      let (e, cursor) := cursor.next
      (.entry e, { s with cursors := s.cursors.setIfInBounds c cursor })
    | none => (.missing, s)
  | .close c =>
    match s.cursors[c]? with
    | some cursor => (.done, { s with cursors := s.cursors.setIfInBounds c cursor.close })
    | none => (.missing, s)

/-- The state after requests. -/
def after (s : Storage) (rs : List Request) : Storage := rs.foldl (fun s r => (s.step r).2) s

/-- The replies to the request `q`, each time it is one of those that are made. -/
def replies (q : Request) : Storage → List Request → List Reply
  | _, [] => []
  | s, r :: rs =>
    let (reply, s) := s.step r
    if r = q then reply :: replies q s rs else replies q s rs

end Storage

end LiveQuery
