import Thingd.ThingDb.Store

namespace Thingd.ThingDb

structure Keyspace where
  name : Bytes
  nonempty : name ≠ []
  noNul : (0 : Byte) ∉ name
  deriving DecidableEq

def Keyspace.namespace (keyspace : Keyspace) : Bytes := keyspace.name ++ [0]

def physicalKey (keyspace : Keyspace) (key : Bytes) : Bytes := keyspace.namespace ++ key

structure BatchOperation where
  keyspace : Keyspace
  key : Bytes
  value : Option Bytes

def BatchOperation.operation (operation : BatchOperation) : Operation :=
  match operation.value with
  | some value => .put (physicalKey operation.keyspace operation.key) value
  | none => .delete (physicalKey operation.keyspace operation.key)

structure CommitRequest where
  operations : List Operation
  nonempty : operations ≠ []

structure Batch where
  operations : List BatchOperation
  nonempty : operations ≠ []

def Batch.request (batch : Batch) : CommitRequest :=
  ⟨batch.operations.map BatchOperation.operation, by simpa using batch.nonempty⟩

def Database.get (db : Database) (keyspace : Keyspace) (key : Bytes) : Option Bytes :=
  db.inner.getDurableValue (physicalKey keyspace key)

def entryBytes (key : Bytes) (value : Option Bytes) : ℕ :=
  saturatingAdd (saturatingAdd key.length 1) (match value with | some value => value.length | none => 0)

def applyOperationWithPending (inner : Inner) (operation : Operation) : Inner :=
  let replaced := match inner.pendingTable.get operation.key with
    | some previous => inner.pendingTableBytes - entryBytes operation.key previous
    | none => inner.pendingTableBytes
  { inner with
    state := applyOperation inner.state operation
    pendingTable := inner.pendingTable.insert operation.key operation.value
    pendingTableBytes := saturatingAdd replaced (entryBytes operation.key operation.value) }

def applyRequests (inner : Inner) (requests : List CommitRequest) : Inner :=
  requests.foldl (fun inner request => request.operations.foldl applyOperationWithPending inner) inner

def encodeGroup (buffer : Bytes) (nextSequence : ℕ) : List CommitRequest → Result (Bytes × ℕ)
  | [] => .ok (buffer, nextSequence)
  | request :: requests => do
    let buffer ← encodeFrameInto buffer nextSequence request.operations
    encodeGroup buffer (saturatingAdd nextSequence 1) requests

inductive WalOutcome
  | synced
  | appendFails (written : ℕ)
  | syncFails (truncated : Bool)
  deriving DecidableEq

def setLen (bytes : Bytes) (length : ℕ) : Bytes :=
  bytes.take length ++ List.replicate (length - bytes.length) 0

namespace Database

section

variable (db : Database)

def commitGroup (requests : List CommitRequest) (buffer : Bytes) (nextSequence : ℕ) : Database :=
  { disk := { db.disk with wal := db.disk.wal ++ buffer }
    inner := { applyRequests db.inner requests with
      sequence := nextSequence - 1
      journalBytes := saturatingAdd db.inner.journalBytes buffer.length
      stateGeneration := saturatingAdd db.inner.stateGeneration 1 } }

def flushDue : Bool :=
  decide (db.inner.maxMemtableBytes ≤ db.inner.pendingTableBytes) ||
    (decide (0 < db.inner.maxJournalingSize) && decide (db.inner.maxJournalingSize ≤ db.inner.journalBytes))

def compactIfFull : Result Unit × Database :=
  if db.inner.maxTableLayers ≤ db.inner.tableLayers.length then db.compactTablesLocked none else (.ok (), db)

def maintain : Result Unit × Database :=
  if db.flushDue && decide (db.inner.maxMemtableBytes ≤ 1) then
    match db.flushTableLocked none with
    | (.ok (), flushed) => flushed.compactIfFull
    | failed => failed
  else (.ok (), db)

def executeGroup (requests : List CommitRequest) (outcome : WalOutcome) : (Result Unit × Bool) × Database :=
  match encodeGroup [] (saturatingAdd db.inner.sequence 1) requests with
  | .error message => ((.error message, false), db)
  | .ok (buffer, nextSequence) =>
    let appended := { db with disk := { db.disk with wal := db.disk.wal ++ buffer } }
    match outcome with
    | .appendFails written =>
      let wal := db.disk.wal ++ buffer.take (min written (buffer.length - 1))
      ((.error ioError, false), { db with disk := { db.disk with wal := wal } })
    | .syncFails true =>
      let wal := setLen appended.disk.wal db.inner.journalBytes
      ((.error ioError, false), { db with disk := { db.disk with wal := wal } })
    | .syncFails false => ((.error ioError, false), appended)
    | .synced =>
      let (result, maintained) := (db.commitGroup requests buffer nextSequence).maintain
      ((result, true), maintained)

def requireRecovery : Database := { db with inner := { db.inner with recoveryRequired := true } }

def backpressure : Bool :=
  decide (1 < db.inner.maxMemtableBytes) &&
    decide (saturatingMul db.inner.maxMemtableBytes 2 ≤ db.inner.pendingTableBytes)

def admitGroup : Result Unit × Database :=
  if db.backpressure then db.flushTableLocked none else (.ok (), db)

def processGroup (requests : List CommitRequest) (outcome : WalOutcome) : Result Unit × Database :=
  if db.inner.recoveryRequired then (.error recoveryMessage, db)
  else
    match db.admitGroup with
    | (.error message, failed) => (.error message, failed.requireRecovery)
    | (.ok (), admitted) =>
      match admitted.executeGroup requests outcome with
      | ((.ok (), _), executed) => (.ok (), executed)
      | ((.error message, true), executed) => (.error message, executed.requireRecovery)
      | ((.error message, false), executed) => (.error message, executed)

end

end Database

end Thingd.ThingDb
