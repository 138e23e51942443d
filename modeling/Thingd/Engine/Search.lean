import Thingd.Data.Keyed
import Thingd.Data.Paging
import Thingd.Data.Text
import Thingd.Engine.Events

namespace Thingd.Engine

def StorageCodec.encrypted (codec : StorageCodec) : Bool := codec.crypto.isSome

inductive DocumentKind
  | object
  | event
  deriving DecidableEq

structure Document where
  docKey : Bytes
  collection : Bytes
  id : Bytes
  body : Bytes
  kind : DocumentKind
  deriving DecidableEq

abbrev SearchIndex := List Document

def objectDocKey (key : ObjectKey) : Bytes := key.collection ++ 47 :: key.id

def eventDocKey (stream : Bytes) (sequence : UInt64) : Bytes :=
  bytesOf "event:" ++ (stream ++ 47 :: decimal sequence.toNat)

def objectDocument (object : MemoryObject) : Document :=
  ⟨objectDocKey object.key, object.key.collection, object.key.id, object.body, .object⟩

def eventDocument (event : MemoryEvent) : Document :=
  ⟨eventDocKey event.stream event.sequence, event.stream, decimal event.sequence.toNat, event.body, .event⟩

namespace SearchIndex

section

variable (index : SearchIndex)

def deleteTerm (docKey : Bytes) : SearchIndex := Keyed.without Document.docKey index docKey

def indexObjectForSearch (object : MemoryObject) : SearchIndex :=
  deleteTerm index (objectDocKey object.key) ++ [objectDocument object]

def indexEventForSearch (event : MemoryEvent) : SearchIndex := index ++ [eventDocument event]

def deleteObjectFromSearchIndex (collection id : Bytes) : SearchIndex :=
  deleteTerm index (objectDocKey ⟨collection, id⟩)

def deleteEventFromSearchIndex (stream : Bytes) (sequence : UInt64) : SearchIndex :=
  deleteTerm index (eventDocKey stream sequence)

end

end SearchIndex

inductive Change
  | putObject (object : MemoryObject)
  | deleteObject (key : ObjectKey)
  | storeEvent (event : MemoryEvent)
  | removeEvent (stream : Bytes) (sequence : UInt64)

inductive SearchReplayMutation
  | upsertObject
  | deleteObject
  | upsertEvent
  | deleteEvent
  deriving DecidableEq

inductive SearchIndexMutation
  | upsertObject (collection id body : Bytes)
  | deleteObject (collection id : Bytes)
  | upsertEvent (stream : Bytes) (sequence : UInt64) (body : Bytes)
  | deleteEvent (stream : Bytes) (sequence : UInt64)
  deriving DecidableEq

namespace Change

def searchKey : Change → Bytes
  | putObject object => bytesOf "object:" ++ objectDocKey object.key
  | deleteObject key => bytesOf "object:" ++ objectDocKey key
  | storeEvent event => eventDocKey event.stream event.sequence
  | removeEvent stream sequence => eventDocKey stream sequence

def replayMutation : Change → SearchReplayMutation
  | putObject _ => .upsertObject
  | deleteObject _ => .deleteObject
  | storeEvent _ => .upsertEvent
  | removeEvent _ _ => .deleteEvent

def indexMutation : Change → SearchIndexMutation
  | putObject object => .upsertObject object.key.collection object.key.id object.body
  | deleteObject key => .deleteObject key.collection key.id
  | storeEvent event => .upsertEvent event.stream event.sequence event.body
  | removeEvent stream sequence => .deleteEvent stream sequence

end Change

inductive SearchRebuildPhase
  | objects
  | events
  | replay
  deriving DecidableEq

structure SearchRebuildProgress where
  phase : SearchRebuildPhase
  objectCursor : Option Bytes
  eventCursor : Option Bytes
  replay : SortedMap Bytes SearchReplayMutation
  replayOverflow : Bool

def searchRebuildReplayLimit : ℕ := 100000

namespace SearchRebuildProgress

def start : SearchRebuildProgress := ⟨.objects, none, none, .empty, false⟩

def recordSearchMutation (progress : SearchRebuildProgress) (change : Change) : SearchRebuildProgress :=
  if searchRebuildReplayLimit ≤ progress.replay.size ∧ progress.replay.get change.searchKey = none then
    { progress with replayOverflow := true }
  else { progress with replay := progress.replay.insert change.searchKey change.replayMutation }

end SearchRebuildProgress

def replaySearchMutation (codec : StorageCodec) (objects : SortedMap Bytes MemoryObject)
    (events : SortedMap Bytes MemoryEvent) (index : SearchIndex) (entry : Bytes × SearchReplayMutation) : SearchIndex :=
  let object := (stripPrefix (bytesOf "object:") entry.1).bind (splitOnce 47)
  let event := ((stripPrefix (bytesOf "event:") entry.1).bind (rsplitOnce 47)).bind fun parts =>
    (parseDecimal (2 ^ 64) parts.2).map fun sequence => (parts.1, UInt64.ofNat sequence)
  match entry.2 with
  | .upsertObject =>
    match object with
    | none => index
    | some (collection, id) =>
      match objects.get (codec.makeObjectKey collection id) with
      | some object => index.indexObjectForSearch object
      | none => index.deleteObjectFromSearchIndex collection id
  | .deleteObject =>
    match object with
    | none => index
    | some (collection, id) => index.deleteObjectFromSearchIndex collection id
  | .upsertEvent =>
    match event with
    | none => index
    | some (stream, sequence) =>
      match events.get (codec.makeEventKey stream sequence) with
      | some event => index.indexEventForSearch event
      | none => index.deleteEventFromSearchIndex stream sequence
  | .deleteEvent =>
    match event with
    | none => index
    | some (stream, sequence) => index.deleteEventFromSearchIndex stream sequence

structure SearchQueue where
  pending : SortedMap Bytes SearchIndexMutation
  taken : List SearchIndexMutation
  stale : Bool

namespace SearchQueue

def new : SearchQueue := ⟨.empty, [], false⟩

def enqueue (maxKeys : ℕ) (queue : SearchQueue) (change : Change) : SearchQueue :=
  if queue.pending.get change.searchKey = none ∧ max maxKeys 1 ≤ queue.pending.size then
    { queue with pending := .empty, stale := true }
  else { queue with pending := queue.pending.insert change.searchKey change.indexMutation }

end SearchQueue

def applySearchMutation (index : SearchIndex) : SearchIndexMutation → SearchIndex
  | .upsertObject collection id body =>
    index.deleteTerm (objectDocKey ⟨collection, id⟩) ++ [⟨objectDocKey ⟨collection, id⟩, collection, id, body, .object⟩]
  | .deleteObject collection id => index.deleteTerm (objectDocKey ⟨collection, id⟩)
  | .upsertEvent stream sequence body =>
    index.deleteTerm (eventDocKey stream sequence) ++
      [⟨eventDocKey stream sequence, stream, decimal sequence.toNat, body, .event⟩]
  | .deleteEvent stream sequence => index.deleteTerm (eventDocKey stream sequence)

inductive PersistentSearchMode
  | persistent
  | persistentAsync
  | persistentRecovery
  | persistentNoRebuild
  | disabled
  deriving DecidableEq

inductive OpenIndex
  | memory (documents : SearchIndex)
  | directory
  | rebuild (documents : SearchIndex)

inductive MaintenanceState
  | idle
  | rebuildingSearch
  | degraded
  deriving DecidableEq

/-- The part of the engine that search depends on; `searchDirectory` is what a compatible index on disk has committed,
and `marker` says whether the rebuild marker is on disk. -/
structure SearchEngine where
  objects : ObjectState
  log : EventLog
  inMemory : Bool
  searchMode : PersistentSearchMode
  searchQueueMaxKeys : ℕ
  searchIndex : Option OpenIndex
  searchDirectory : Option SearchIndex
  marker : Bool
  searchQueue : Option SearchQueue
  searchRebuildRequired : Bool
  searchRebuild : Option SearchRebuildProgress
  maintenance : MaintenanceState

inductive Call
  | putObject (object : MemoryObject) (expectedVersion : Option UInt64)
  | putObjectsBatch (objects : List MemoryObject)
  | deleteObject (key : ObjectKey)
  | deleteObjectsBatch (keys : List ObjectKey)
  | appendEvent (event : MemoryEvent)
  | appendEventsBatch (events : List MemoryEvent)
  | deleteLastEvent (stream : Bytes)
  | deleteStream (stream : Bytes)
  | retain (options : EventLog.RetentionOptions) (affectedStreams : List Bytes)

namespace SearchEngine

section Calls

variable (codec : StorageCodec) (json : JsonReader) (now : Bytes)

def perform (s : SearchEngine) : Call → ObjectState × EventLog × List Change
  | .putObject object expectedVersion =>
    match s.objects.putObjectWithOptions codec json now object expectedVersion with
    | .ok (stored, objects) => (objects, s.log, [.putObject stored])
    | .error _ => (s.objects, s.log, [])
  | .putObjectsBatch batch =>
    match s.objects.putObjectsBatch codec json now batch with
    | .ok (stored, objects) => (objects, s.log, stored.map .putObject)
    | .error _ => (s.objects, s.log, [])
  | .deleteObject key => ((s.objects.deleteObject codec json key).2, s.log, [.deleteObject key])
  | .deleteObjectsBatch keys => ((s.objects.deleteObjectsBatch codec json keys).2, s.log, keys.map .deleteObject)
  | .appendEvent event =>
    let (stored, effect) := s.log.appendEvent codec now event
    (s.objects, s.log.after effect, if effect.commits.isEmpty then [] else [.storeEvent stored])
  | .appendEventsBatch events =>
    let batch := events.foldl (EventLog.appendToBatch codec now s.log.store) ⟨[], [], fun _ => none, s.log.counters⟩
    (s.objects, s.log.after (s.log.appendEventsBatch codec now events).2, batch.pending.map .storeEvent)
  | .deleteLastEvent stream =>
    match s.log.deleteLastEvent codec stream with
    | .ok (deleted, effect) =>
      (s.objects, s.log.after effect, deleted.toList.map fun event => .removeEvent event.stream event.sequence)
    | .error _ => (s.objects, s.log, [])
  | .deleteStream stream =>
    match s.log.deleteStream codec stream with
    | .ok (_, effect) =>
      (s.objects, s.log.after effect,
        (s.log.store.events.entries.filter fun entry => entry.2.stream = stream).map fun entry =>
          .removeEvent stream entry.2.sequence)
    | .error _ => (s.objects, s.log, [])
  | .retain options affectedStreams =>
    (s.objects, s.log.after (s.log.retain codec options affectedStreams),
      (s.log.eligibleEvents options).map fun entry => .removeEvent entry.2.stream entry.2.sequence)

/-- A rebuild that is going on records the changes; the queue of the worker, when there is one, takes them. -/
def call (s : SearchEngine) (call : Call) : SearchEngine :=
  let (objects, log, changes) := s.perform codec json now call
  { s with
    objects := objects
    log := log
    searchRebuild := s.searchRebuild.map fun progress =>
      changes.foldl SearchRebuildProgress.recordSearchMutation progress
    searchQueue := if s.searchMode = .persistentNoRebuild then s.searchQueue
      else s.searchQueue.map fun queue => changes.foldl (SearchQueue.enqueue s.searchQueueMaxKeys) queue }

end Calls

section Index

def documents (s : SearchEngine) : Option SearchIndex :=
  match s.searchIndex with
  | none => none
  | some (.memory documents) => some documents
  | some .directory => s.searchDirectory
  | some (.rebuild documents) => some documents

def updateIndex (f : SearchIndex → SearchIndex) (s : SearchEngine) : SearchEngine :=
  match s.searchIndex with
  | none => s
  | some (.memory documents) => { s with searchIndex := some (.memory (f documents)) }
  | some .directory => { s with searchDirectory := s.searchDirectory.map f }
  | some (.rebuild documents) => { s with searchIndex := some (.rebuild (f documents)) }

def initSearchIndex (rebuildIncompatible : Bool) (s : SearchEngine) : Bool × SearchEngine :=
  if s.marker && !rebuildIncompatible then (true, { s with searchIndex := none })
  else
    let s := if rebuildIncompatible then { s with marker := false } else s
    if s.searchDirectory.isSome then (false, { s with searchIndex := some .directory })
    else if !rebuildIncompatible then (false, { s with searchIndex := none })
    else (true, { s with searchIndex := some .directory, searchDirectory := some [] })

def stopSearchWorker (s : SearchEngine) : SearchEngine :=
  match s.searchQueue with
  | none => s
  | some queue => { s.updateIndex fun index => queue.taken.foldl applySearchMutation index with searchQueue := none }

def startSearchWorker (s : SearchEngine) : SearchEngine :=
  if s.searchQueue.isSome || s.searchIndex.isNone || s.searchMode =
    .persistentNoRebuild || s.searchRebuildRequired then s
  else { s with searchQueue := some .new }

end Index

section Rebuild

variable (codec : StorageCodec)

def beginSearchRebuild (s : SearchEngine) : SearchEngine :=
  let s := if s.searchIndex.isSome then s
    else if s.inMemory then { s with searchIndex := some (.memory []) }
    else if codec.encrypted then { (s.initSearchIndex true).2 with marker := true }
    else { s with searchIndex := some (.rebuild []), marker := true }
  { s with searchRebuild := some .start }

section

variable (batchSize : ℕ) (progress : SearchRebuildProgress) (s : SearchEngine)

def scanObjects : SearchEngine :=
  let items := s.objects.objects.pageAfter progress.objectCursor (max batchSize 1)
  let cursor := SortedMap.lastKey items
  { s.updateIndex fun index => items.foldl (fun index entry => index.indexObjectForSearch entry.2) index with
    searchRebuild := some { progress with
      objectCursor := cursor
      phase := if s.objects.objects.exhausted cursor then .events else .objects } }

def scanEvents : SearchEngine :=
  let items := s.log.store.events.pageAfter progress.eventCursor (max batchSize 1)
  let cursor := SortedMap.lastKey items
  { s.updateIndex fun index => items.foldl (fun index entry => index.indexEventForSearch entry.2) index with
    searchRebuild := some { progress with
      eventCursor := cursor
      phase := if s.log.store.events.exhausted cursor then .replay else .events } }

end

def promoteSearchGeneration (s : SearchEngine) : SearchEngine :=
  match s.searchIndex with
  | some (.rebuild documents) =>
    { s with searchIndex := some .directory, searchDirectory := some documents, marker := false }
  | _ => s

def finishRebuild (order : List (Bytes × SearchReplayMutation)) (s : SearchEngine) : SearchEngine :=
  let s := s.updateIndex fun index =>
    order.foldl (replaySearchMutation codec s.objects.objects s.log.store.events) index
  let s := s.promoteSearchGeneration
  let s := { s with searchRebuildRequired := false, searchRebuild := none }
  { s.startSearchWorker with
    marker := if s.inMemory then s.marker else false
    maintenance := .idle }

def rebuildPhase (order : List (Bytes × SearchReplayMutation)) (batchSize : ℕ) (progress : SearchRebuildProgress)
    (s : SearchEngine) : Bool × SearchEngine :=
  match progress.phase with
  | .objects => (false, s.scanObjects batchSize progress)
  | .events => (false, s.scanEvents batchSize progress)
  | .replay => (true, s.finishRebuild codec order)

def noticeStaleQueue (s : SearchEngine) : SearchEngine :=
  if (s.searchQueue.any fun queue => queue.stale) && s.searchRebuild.isNone then
    { s.stopSearchWorker with searchRebuildRequired := true, searchIndex := none }
  else s

def searchRebuildStep (order : List (Bytes × SearchReplayMutation)) (batchSize : ℕ) (s : SearchEngine) :
    Bool × SearchEngine :=
  let s := s.noticeStaleQueue
  if !s.searchRebuildRequired then (true, s)
  else if s.searchRebuild.any fun progress => progress.replayOverflow then (false, { s with maintenance := .degraded })
  else
    let s := if s.searchRebuild.isNone then s.beginSearchRebuild codec else s
    match s.searchRebuild with
    | none => (false, s)
    | some progress => s.rebuildPhase codec order batchSize progress

end Rebuild

end SearchEngine

end Thingd.Engine
