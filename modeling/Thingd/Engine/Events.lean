import Thingd.Engine.Objects

namespace Thingd.Engine

def bytesOf (text : String) : Bytes := text.toList.map fun character => Fin.ofNat 256 character.toNat

structure MemoryEvent where
  stream : Bytes
  eventType : Bytes
  body : Bytes
  sequence : UInt64
  createdAt : Bytes
  idempotencyKey : Bytes
  deriving DecidableEq

structure EventMetadata where
  stream : Bytes
  maxSequence : UInt64
  idempotencyKeys : Bytes → Option UInt64

inductive EventWrite
  | insertEvent (key : Bytes) (event : MemoryEvent)
  | removeEvent (key : Bytes)
  | insertMetadata (key : Bytes) (metadata : EventMetadata)
  | removeMetadata (key : Bytes)

structure EventStore where
  events : SortedMap Bytes MemoryEvent
  eventMeta : SortedMap Bytes EventMetadata

namespace EventStore

def write (store : EventStore) : EventWrite → EventStore
  | .insertEvent key event => { store with events := store.events.insert key event }
  | .removeEvent key => { store with events := store.events.erase key }
  | .insertMetadata key metadata => { store with eventMeta := store.eventMeta.insert key metadata }
  | .removeMetadata key => { store with eventMeta := store.eventMeta.erase key }

def commit (store : EventStore) (batch : List EventWrite) : EventStore := batch.foldl write store

end EventStore

structure EventCounters where
  seqCounters : SortedMap Bytes UInt64
  idempotencyKeys : Bytes × Bytes → Option UInt64

structure EventEffect where
  commits : List (List EventWrite)
  counters : EventCounters

structure EventLog where
  store : EventStore
  counters : EventCounters

def EventLog.after (log : EventLog) (effect : EventEffect) : EventLog :=
  ⟨effect.commits.foldl EventStore.commit log.store, effect.counters⟩

def StorageCodec.makeEventMetadataKey (codec : StorageCodec) (stream : Bytes) : Bytes :=
  codec.encodeKey "event_metadata.stream" stream

def replicationStream : Bytes := bytesOf "__thingd:system:replication"

def isProtectedStream (stream : Bytes) : Bool := (bytesOf "__thingd:").isPrefixOf stream

namespace EventCounters

def encodeEventMetadata (codec : StorageCodec) (counters : EventCounters) (stream : Bytes) : EventWrite :=
  .insertMetadata (codec.makeEventMetadataKey stream)
    ⟨stream, (counters.seqCounters.get stream).getD 0, fun key => counters.idempotencyKeys (stream, key)⟩

section

variable (counters : EventCounters)

/-- The next sequence of the stream; the addition wraps. -/
def nextSequence (stream : Bytes) : UInt64 :=
  match counters.seqCounters.get stream with
  | some sequence => sequence + 1
  | none => 1

def stampedEvent (now : Bytes) (event : MemoryEvent) : MemoryEvent :=
  { event with
    sequence := counters.nextSequence event.stream
    createdAt := if event.createdAt.isEmpty then now else event.createdAt }

def advance (event : MemoryEvent) : EventCounters where
  seqCounters := counters.seqCounters.insert event.stream event.sequence
  idempotencyKeys := if event.idempotencyKey.isEmpty then counters.idempotencyKeys
    else Function.update counters.idempotencyKeys (event.stream, event.idempotencyKey) (some event.sequence)

def forgetEvent (event : MemoryEvent) : EventCounters :=
  { counters with
    idempotencyKeys := fun place => (counters.idempotencyKeys place).filter fun sequence =>
      place.1 ≠ event.stream || sequence ≠ event.sequence }

def forgetStream (stream : Bytes) : EventCounters where
  seqCounters := counters.seqCounters.erase stream
  idempotencyKeys := fun place => if place.1 = stream then none else counters.idempotencyKeys place

theorem seqCounters_advance (event : MemoryEvent) (stream : Bytes) : (counters.advance event).seqCounters.get stream =
    if stream = event.stream then some event.sequence else counters.seqCounters.get stream := by
  simp [advance]

theorem idempotencyKeys_advance (event : MemoryEvent) (place : Bytes × Bytes) :
    (counters.advance event).idempotencyKeys place =
      if event.idempotencyKey ≠ [] ∧ place = (event.stream, event.idempotencyKey) then some event.sequence
      else counters.idempotencyKeys place := by
  by_cases hempty : event.idempotencyKey = []
  · simp [advance, hempty]
  · simp [advance, hempty, Function.update_apply]

end

end EventCounters

namespace EventLog

section

variable (codec : StorageCodec) (now : Bytes)

def existingEvent (store : EventStore) (counters : EventCounters) (event : MemoryEvent) : Option MemoryEvent :=
  if event.idempotencyKey.isEmpty then none
  else (counters.idempotencyKeys (event.stream, event.idempotencyKey)).bind fun sequence =>
    store.events.get (codec.makeEventKey event.stream sequence)

def insertEvent (event : MemoryEvent) : EventWrite :=
  .insertEvent (codec.makeEventKey event.stream event.sequence) event

def appendEvent (log : EventLog) (event : MemoryEvent) : MemoryEvent × EventEffect :=
  match existingEvent codec log.store log.counters event with
  | some existing => (existing, ⟨[], log.counters⟩)
  | none =>
    let event := log.counters.stampedEvent now event
    let counters := log.counters.advance event
    (event, ⟨[[insertEvent codec event, counters.encodeEventMetadata codec event.stream]], counters⟩)

structure BatchAppend where
  results : List MemoryEvent
  pending : List MemoryEvent
  pendingIdempotency : Bytes × Bytes → Option MemoryEvent
  counters : EventCounters

def existingInBatch (store : EventStore) (batch : BatchAppend) (event : MemoryEvent) : Option MemoryEvent :=
  if event.idempotencyKey.isEmpty then none
  else (batch.counters.idempotencyKeys (event.stream, event.idempotencyKey)).bind fun sequence =>
    (store.events.get (codec.makeEventKey event.stream sequence)).or
      (batch.pendingIdempotency (event.stream, event.idempotencyKey))

def appendToBatch (store : EventStore) (batch : BatchAppend) (event : MemoryEvent) : BatchAppend :=
  match existingInBatch codec store batch event with
  | some existing => { batch with results := batch.results ++ [existing] }
  | none =>
    let event := batch.counters.stampedEvent now event
    { results := batch.results ++ [event]
      pending := batch.pending ++ [event]
      pendingIdempotency := if event.idempotencyKey.isEmpty then batch.pendingIdempotency
        else Function.update batch.pendingIdempotency (event.stream, event.idempotencyKey) (some event)
      counters := batch.counters.advance event }

def appendEventsBatch (log : EventLog) (events : List MemoryEvent) : List MemoryEvent × EventEffect :=
  let batch := events.foldl (appendToBatch codec now log.store) ⟨[], [], fun _ => none, log.counters⟩
  if batch.pending.isEmpty then (batch.results, ⟨[], log.counters⟩)
  else
    let affectedStreams := (batch.pending.map MemoryEvent.stream).dedup.insertionSort (· ≤ ·)
    (batch.results, ⟨[batch.pending.map (insertEvent codec) ++
      affectedStreams.map (batch.counters.encodeEventMetadata codec)], batch.counters⟩)

def lastEvent (log : EventLog) (stream : Bytes) : Option (Bytes × MemoryEvent) :=
  log.store.events.entries.foldl (fun last entry =>
    if entry.2.stream = stream && last.all fun last => last.2.sequence <
      entry.2.sequence then some entry else last) none

def protectedError (stream : Bytes) : ThingdError :=
  .isProtected ("stream '" ++ textOf stream ++ "' is protected and cannot be modified")

def deleteLastEvent (log : EventLog) (stream : Bytes) : ThingdResult (Option MemoryEvent × EventEffect) :=
  if isProtectedStream stream then .error (protectedError stream)
  else
    match log.lastEvent stream with
    | none => .ok (none, ⟨[], log.counters⟩)
    | some (key, event) =>
      let counters := log.counters.forgetEvent event
      .ok (some event, ⟨[[.removeEvent key], [counters.encodeEventMetadata codec stream]], counters⟩)

def deleteStream (log : EventLog) (stream : Bytes) : ThingdResult (ℕ × EventEffect) :=
  if isProtectedStream stream then .error (protectedError stream)
  else
    let entries := log.store.events.entries.filter fun entry => entry.2.stream = stream
    .ok (entries.length, ⟨entries.map (fun entry => [.removeEvent entry.1]) ++
      [[.removeMetadata (codec.makeEventMetadataKey stream)]], log.counters.forgetStream stream⟩)

structure RetentionOptions where
  old : Bytes → Bool
  includeReplication : Bool
  safeReplicationCursor : Option UInt64

def RetentionOptions.eligible (options : RetentionOptions) (event : MemoryEvent) : Bool :=
  if event.stream = replicationStream then
    options.old event.createdAt && options.includeReplication &&
      options.safeReplicationCursor.any fun cursor => event.sequence ≤ cursor
  else !isProtectedStream event.stream && options.old event.createdAt

def eligibleEvents (log : EventLog) (options : RetentionOptions) : List (Bytes × MemoryEvent) :=
  log.store.events.entries.filter fun entry => options.eligible entry.2

/-- The streams that lose events come in the order in which the hash set gives them. -/
def retain (log : EventLog) (options : RetentionOptions) (affectedStreams : List Bytes) : EventEffect :=
  let deletions := log.eligibleEvents options
  let counters := deletions.foldl (fun counters entry => counters.forgetEvent entry.2) log.counters
  ⟨(if deletions.isEmpty then [] else [deletions.map fun entry => .removeEvent entry.1]) ++
    affectedStreams.map (fun stream => [counters.encodeEventMetadata codec stream]), counters⟩

end

end EventLog

namespace EventStore

def loadMetadata (counters : EventCounters) (metadata : EventMetadata) : EventCounters where
  seqCounters := counters.seqCounters.insert metadata.stream metadata.maxSequence
  idempotencyKeys := fun place =>
    if place.1 = metadata.stream then (metadata.idempotencyKeys place.2).or (counters.idempotencyKeys place)
    else counters.idempotencyKeys place

def scanEvent (counters : EventCounters) (event : MemoryEvent) : EventCounters where
  seqCounters := counters.seqCounters.insert event.stream
    (match counters.seqCounters.get event.stream with
      | some highest => max highest event.sequence
      | none => event.sequence)
  idempotencyKeys := if event.idempotencyKey.isEmpty then counters.idempotencyKeys
    else Function.update counters.idempotencyKeys (event.stream, event.idempotencyKey) (some event.sequence)

def noCounters : EventCounters := ⟨.empty, fun _ => none⟩

/-- With any metadata at all, the events are not looked at. -/
def loadCounters (store : EventStore) : EventCounters :=
  if store.eventMeta.isEmpty then (store.events.entries.map Prod.snd).foldl scanEvent noCounters
  else (store.eventMeta.entries.map Prod.snd).foldl loadMetadata noCounters

/-- Opening writes metadata only for a store without any, one stream after the other in the order of the hash map. -/
def openLog (codec : StorageCodec) (store : EventStore) (streams : List Bytes) : EventEffect :=
  let counters := store.loadCounters
  ⟨if store.eventMeta.isEmpty then streams.map fun stream => [counters.encodeEventMetadata codec stream] else [],
    counters⟩

end EventStore

end Thingd.Engine
