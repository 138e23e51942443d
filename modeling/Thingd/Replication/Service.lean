import Thingd.Data.Json
import Thingd.Data.StoreCall
import Thingd.Data.Text
import Thingd.Engine.EventListing
import Thingd.Engine.UniqueRun

namespace Thingd.Replication

open Engine StoreCall

def replicationStateCollection : Bytes := bytesOf "__thingd:sync_state"

def replicationProvenanceCollection : Bytes := bytesOf "__thingd:sync_provenance"

def replicationTombstoneCollection : Bytes := bytesOf "__thingd:sync_tombstones"

def replicationQuarantineCollection : Bytes := bytesOf "__thingd:sync_conflicts"

inductive ReplicationRole
  | source
  | replica
  deriving DecidableEq

structure ReplicationConfig where
  sourceId : Bytes
  role : ReplicationRole
  collections : List Bytes

def isSystem (name : Bytes) : Bool := (bytesOf "__thingd").isPrefixOf name

def ReplicationConfig.allowed (config : ReplicationConfig) (collection : Bytes) : Bool :=
  !isSystem collection && (config.collections.isEmpty || config.collections.contains collection)

structure ReplicationChange where
  sourceId : Bytes
  cursor : UInt64
  idempotencyKey : Bytes
  change : Value

structure ReplicationPage where
  sourceId : Bytes
  after : UInt64
  next : UInt64
  changes : List ReplicationChange

structure ReplicationApplyResult where
  applied : UInt64
  skipped : UInt64
  conflicts : UInt64
  lastAppliedCursor : UInt64
  deriving DecidableEq

structure ThingStore where
  objects : ObjectState
  log : EventLog

def emptyLog : EventLog := ⟨⟨.empty, .empty⟩, EventStore.noCounters⟩

def emptyStore : ThingStore := ⟨ObjectState.emptyState, emptyLog⟩

abbrev EngineCall := StoreCall ThingStore ThingdError

def newObject (collection id body : Bytes) : MemoryObject := ⟨⟨collection, id⟩, body, 0, [], [], none⟩

def newEvent (stream eventType body : Bytes) : MemoryEvent := ⟨stream, eventType, body, 0, [], []⟩

structure StoreEngine where
  codec : StorageCodec
  json : JsonReader
  format : JsonFormat
  now : Bytes

namespace StoreEngine

variable (engine : StoreEngine)

def getObject (collection id : Bytes) : EngineCall (Option MemoryObject) := do
  let store ← load
  pure (store.objects.objects.get (engine.codec.makeObjectKey collection id))

def putObject (object : MemoryObject) : EngineCall MemoryObject := commit fun store =>
  (store.objects.putObject engine.codec engine.json engine.now object).map fun put =>
    (put.1, { store with objects := put.2 })

def deleteObject (collection id : Bytes) : EngineCall Bool := commit fun store =>
  let (existed, objects) := store.objects.deleteObject engine.codec engine.json ⟨collection, id⟩
  .ok (existed, { store with objects })

def withSourceMetadata (stored object : MemoryObject) : MemoryObject :=
  { stored with
    version := if 0 < object.version then object.version else stored.version
    createdAt := if object.createdAt.isEmpty then stored.createdAt else object.createdAt
    updatedAt := if object.updatedAt.isEmpty then stored.updatedAt else object.updatedAt }

def restoreMetadata (object stored : MemoryObject) : EngineCall MemoryObject := commit fun store =>
  let replicated := withSourceMetadata stored object
  .ok (replicated, { store with objects := { store.objects with
    objects := store.objects.objects.insert (engine.codec.makeObjectKey object.key.collection object.key.id) replicated
      } })

def checkExpectedVersion (object : MemoryObject) (expectedVersion : Option UInt64) : EngineCall Unit :=
  match expectedVersion with
  | none => pure ()
  | some expected => do
    match ← engine.getObject object.key.collection object.key.id with
    | none =>
      fail (.conflict ("object '" ++ textOf object.key.collection ++ "/" ++ textOf object.key.id ++ "' does not exist"))
    | some existing =>
      if existing.version ≠ expected then
        fail (.conflict ("expected version " ++ toString expected ++ " but current version is " ++
          toString existing.version))
      else pure ()

def putObjectWithSourceMetadata (object : MemoryObject) (expectedVersion : Option UInt64) : EngineCall MemoryObject :=
  do
  engine.checkExpectedVersion object expectedVersion
  let stored ← engine.putObject object
  engine.restoreMetadata object stored

def appendEvent (event : MemoryEvent) : EngineCall MemoryEvent := fun store =>
  let (stored, effect) := store.log.appendEvent engine.codec engine.now event
  (if effect.commits.isEmpty then [] else [{ store with log := store.log.after effect }], .ok stored)

def listEvents (stream : Option Bytes) (options : ListEventsOptions) : EngineCall (List MemoryEvent) := do
  let store ← load
  pure (store.log.store.listEvents engine.codec stream options)

end StoreEngine

def jsonText (text : String) : Value := .string (bytesOf text)

def jsonU64 (n : UInt64) : Value := .number (.unsigned n)

def jsonObject (fields : List (String × Value)) : Value :=
  .object (fields.map fun field => (bytesOf field.1, field.2))

section

variable (value : Value) (field : String)

def Value.getStr : Option Bytes := (value.get (bytesOf field)).bind Value.asStr

def Value.getU64 : Option UInt64 := (value.get (bytesOf field)).bind Value.asU64

def Value.getOrNull : Value := (value.get (bytesOf field)).getD .null

end

/-- `format!("{source_id}:{cursor}")`, the retry key of a change and the id of a quarantine record. -/
def cursorKey (sourceId : Bytes) (cursor : UInt64) : Bytes := sourceId ++ 58 :: decimal cursor.toNat

def replicationMetadataId (sourceId collection id : Bytes) : Bytes := sourceId ++ 58 :: (collection ++ 58 :: id)

def checkpointId (sourceId : Bytes) : Bytes := bytesOf "source:" ++ sourceId

def checkpointBody (sourceId : Bytes) (cursor : UInt64) : Value :=
  jsonObject [("lastAppliedCursor", jsonU64 cursor), ("sourceId", .string sourceId)]

section

variable (sourceId : Bytes) (cursor : UInt64) (collection id : Bytes)

def provenanceBody (payload : Value) : Value :=
  jsonObject [("collection", .string collection), ("createdAt", .string ((Value.getStr payload "createdAt").getD [])),
    ("cursor", jsonU64 cursor), ("deleted", .bool false), ("id", .string id), ("sourceId", .string sourceId),
    ("sourceVersion", jsonU64 ((Value.getU64 payload "version").getD 0)),
    ("updatedAt", .string ((Value.getStr payload "updatedAt").getD []))]

def tombstoneBody : Value :=
  jsonObject [("collection", .string collection), ("cursor", jsonU64 cursor), ("deleted", .bool true),
    ("id", .string id), ("sourceId", .string sourceId)]

def conflictBody : Value :=
  jsonObject [("conflict", jsonObject [("collection", .string collection), ("id", .string id),
      ("operation", jsonText "object.upsert"), ("reason", jsonText "target_object_has_no_replication_provenance")]),
    ("cursor", jsonU64 cursor), ("sourceId", .string sourceId), ("status", jsonText "quarantined")]

end

structure Service extends StoreEngine where
  config : ReplicationConfig

namespace Service

variable (service : Service)

def parseOrNull (body : Bytes) : Value := (service.format.parse body).getD .null

def upsertChange (object : MemoryObject) : Value :=
  jsonObject [("collection", .string object.key.collection), ("id", .string object.key.id),
    ("operation", jsonText "object.upsert"),
    ("payload", jsonObject [("body", service.parseOrNull object.body), ("collection", .string object.key.collection),
      ("createdAt", .string object.createdAt), ("id", .string object.key.id), ("updatedAt", .string object.updatedAt),
      ("version", jsonU64 object.version)])]

def deleteChange (collection id : Bytes) : Value :=
  jsonObject [("collection", .string collection), ("id", .string id), ("operation", jsonText "object.delete"),
    ("payload", .null)]

def changeEvent (change : Value) : MemoryEvent :=
  newEvent replicationStream ((Value.getStr change "operation").getD (bytesOf "change")) (service.format.print change)

def recordChange (change : Value) : EngineCall Unit :=
  if service.config.role ≠ .source then
    fail (.invalidInput "replication changes can only be recorded by a source")
  else do
    let _ ← service.appendEvent (service.changeEvent change)

def envelope (cursor : UInt64) (change : Value) : ReplicationChange :=
  ⟨service.config.sourceId, cursor, cursorKey service.config.sourceId cursor, change⟩

def readChange (event : MemoryEvent) : Option ReplicationChange :=
  (service.format.parse event.body).map (service.envelope event.sequence)

def clampLimit (limit : UInt64) : UInt64 := if limit < 1 then 1 else if 1000 < limit then 1000 else limit

def saturatingSucc (cursor : UInt64) : UInt64 := if cursor = UInt64.ofNat (2 ^ 64 - 1) then cursor else cursor + 1

def checkCursor (after : UInt64) : EngineCall Unit :=
  if 0 < after then do
    let first ← service.listEvents (some replicationStream) ⟨none, none, some 1⟩
    if first.head?.any fun first => saturatingSucc after < first.sequence then
      fail (.conflict "replication cursor is no longer available; bootstrap from a snapshot")
    else pure ()
  else pure ()

def events (after limit : UInt64) : EngineCall ReplicationPage := do
  service.checkCursor after
  let events ← service.listEvents (some replicationStream) ⟨some after, none, some (clampLimit limit)⟩
  pure ⟨service.config.sourceId, after, (events.getLast?.map MemoryEvent.sequence).getD after,
    events.filterMap service.readChange⟩

def readAppliedCursor (sourceId : Bytes) : EngineCall UInt64 := do
  let checkpoint ← service.getObject replicationStateCollection (checkpointId sourceId)
  pure (((checkpoint.bind fun object => service.format.parse object.body).bind fun body =>
    Value.getU64 body "lastAppliedCursor").getD 0)

def record (collection id : Bytes) (body : Value) : MemoryObject := newObject collection id (service.format.print body)

def putRecord (collection id : Bytes) (body : Value) : EngineCall Unit := do
  let _ ← service.putObject (service.record collection id body)

def writeAppliedCursor (sourceId : Bytes) (cursor : UInt64) : EngineCall Unit :=
  service.putRecord replicationStateCollection (checkpointId sourceId) (checkpointBody sourceId cursor)

section

variable (sourceId : Bytes) (cursor : UInt64) (collection id : Bytes)

def writeProvenance (payload : Value) : EngineCall Unit :=
  service.putRecord replicationProvenanceCollection (replicationMetadataId sourceId collection id)
    (provenanceBody sourceId cursor collection id payload)

def writeTombstone : EngineCall Unit :=
  service.putRecord replicationTombstoneCollection (replicationMetadataId sourceId collection id)
    (tombstoneBody sourceId cursor collection id)

def writeConflict : EngineCall Unit :=
  service.putRecord replicationQuarantineCollection (cursorKey sourceId cursor)
    (conflictBody sourceId cursor collection id)

end

def require (value : Option Bytes) (message : String) : EngineCall Bytes :=
  match value with
  | some value => pure value
  | none => fail (.invalidInput message)

def payloadObject (collection id : Bytes) (payload : Value) : MemoryObject :=
  ⟨⟨collection, id⟩, service.format.print (Value.getOrNull payload "body"), (Value.getU64 payload "version").getD 0,
    (Value.getStr payload "createdAt").getD [], (Value.getStr payload "updatedAt").getD [], none⟩

def replicationConflict (collection id : Bytes) : ThingdError :=
  .conflict ("replication conflict for " ++ textOf collection ++ "/" ++ textOf id)

section

variable (item : ReplicationChange)

def applyUpsert (collection id : Bytes) : EngineCall Unit := do
  let payload := Value.getOrNull item.change "payload"
  let existing ← service.getObject collection id
  let provenance ← service.getObject replicationProvenanceCollection (replicationMetadataId item.sourceId collection id)
  if existing.isSome && provenance.isNone then do
    service.writeConflict item.sourceId item.cursor collection id
    fail (replicationConflict collection id)
  else do
    let _ ← service.putObjectWithSourceMetadata (service.payloadObject collection id payload)
      (existing.map MemoryObject.version)
    service.writeProvenance item.sourceId item.cursor collection id payload

def applyObject (collection : Option Bytes) : EngineCall Unit := do
  let collection ← require collection "missing collection"
  let id ← require (Value.getStr item.change "id") "missing object id"
  service.applyUpsert item collection id

def applyDelete (collection : Option Bytes) : EngineCall Unit := do
  let collection ← require collection "missing collection"
  let id ← require (Value.getStr item.change "id") "missing object id"
  let _ ← service.deleteObject collection id
  service.writeTombstone item.sourceId item.cursor collection id

def applyEvent : EngineCall Unit :=
  match item.change.get (bytesOf "payload") with
  | none => fail (.invalidInput "missing event payload")
  | some payload => do
    let stream ← require (Value.getStr payload "stream") "missing event stream"
    let eventType ← require (Value.getStr payload "type") "missing event type"
    let _ ← service.appendEvent { newEvent stream eventType (service.format.print (Value.getOrNull payload "body")) with
      idempotencyKey := item.idempotencyKey }

def applyOperation (operation : Bytes) (collection : Option Bytes) : EngineCall Unit :=
  if operation = bytesOf "object.upsert" then service.applyObject item collection
  else if operation = bytesOf "object.delete" then service.applyDelete item collection
  else if operation = bytesOf "event.append" then service.applyEvent item
  else fail (.invalidInput ("unknown replication operation: " ++ textOf operation))

end

structure Progress where
  result : ReplicationApplyResult
  sourceId : Option Bytes
  checkpoint : UInt64

def Progress.reach (progress : Progress) (cursor : UInt64) : UInt64 := max progress.result.lastAppliedCursor cursor

def Progress.skip (progress : Progress) (last : UInt64) : Progress :=
  { progress with result := { progress.result with skipped := progress.result.skipped + 1, lastAppliedCursor := last } }

def Progress.advance (progress : Progress) (cursor : UInt64) : Progress :=
  { progress with result := { progress.result with
    applied := progress.result.applied + 1, lastAppliedCursor := progress.reach cursor } }

def applyNew (item : ReplicationChange) (progress : Progress) : EngineCall Progress :=
  match Value.getStr item.change "operation" with
  | none => fail (.invalidInput "replication change is missing operation")
  | some operation =>
    let collection := Value.getStr item.change "collection"
    if collection.any fun collection => !service.config.allowed collection then
      pure (progress.skip (progress.reach item.cursor))
    else do
      service.applyOperation item operation collection
      pure (progress.advance item.cursor)

def applyItem (item : ReplicationChange) (progress : Progress) : EngineCall Progress :=
  if progress.sourceId.any fun sourceId => sourceId ≠ item.sourceId then
    fail (.invalidInput "a replication batch cannot contain multiple source IDs")
  else do
    let checkpoint ← if progress.checkpoint =
      0 then service.readAppliedCursor item.sourceId else pure progress.checkpoint
    let progress := { progress with sourceId := some item.sourceId, checkpoint := checkpoint }
    if 0 < item.cursor ∧ item.cursor ≤ checkpoint then pure (progress.skip progress.result.lastAppliedCursor)
    else service.applyNew item progress

def applyItems : List ReplicationChange → Progress → EngineCall Progress
  | [], progress => pure progress
  | item :: items, progress => do
    let progress ← service.applyItem item progress
    applyItems items progress

def finishApply (progress : Progress) : EngineCall ReplicationApplyResult :=
  match progress.sourceId with
  | none => pure progress.result
  | some sourceId =>
    if progress.checkpoint < progress.result.lastAppliedCursor then do
      service.writeAppliedCursor sourceId progress.result.lastAppliedCursor
      pure progress.result
    else pure progress.result

def apply (changes : List ReplicationChange) : EngineCall ReplicationApplyResult :=
  if service.config.role ≠ .replica then
    fail (.invalidInput "replication apply requires a replica role")
  else do
    let progress ← service.applyItems changes ⟨⟨0, 0, 0, 0⟩, none, 0⟩
    service.finishApply progress

end Service

end Thingd.Replication
