import Thingd.Data.Trace
import Thingd.Engine.SearchRebuild

namespace Thingd.Engine

open EventStore

structure PersistentOpenOptions where
  searchMode : PersistentSearchMode
  searchQueueMaxKeys : ℕ

structure SearchDisk where
  objects : SortedMap Bytes MemoryObject
  vectors : SortedMap Bytes StoredVector
  indexes : SortedMap Bytes IndexDefinition
  events : EventStore
  searchDirectory : Option SearchIndex
  marker : Bool

namespace SearchQueue

def takeBatch (keys : List Bytes) (queue : SearchQueue) : SearchQueue :=
  if queue.stale || !queue.taken.isEmpty then queue
  else { queue with pending := keys.foldl SortedMap.erase queue.pending, taken := keys.filterMap queue.pending.get }

end SearchQueue

namespace SearchEngine

variable (codec : StorageCodec) (json : JsonReader)

def disk (s : SearchEngine) : SearchDisk :=
  ⟨s.objects.objects, s.objects.vectors, s.objects.indexes, s.log.store, s.searchDirectory, s.marker⟩

def chooseSearchIndex (s : SearchEngine) : Bool × SearchEngine :=
  let inMemory := (true, { s with searchIndex := some (.memory []) })
  let onDisk := ((s.initSearchIndex false).2.searchIndex.isNone, (s.initSearchIndex false).2)
  match s.searchMode with
  | .disabled => (false, s)
  | .persistent => if codec.encrypted then inMemory else s.initSearchIndex true
  | .persistentAsync => if codec.encrypted then inMemory else onDisk
  | .persistentRecovery => if codec.encrypted then (true, s) else onDisk
  | .persistentNoRebuild => if codec.encrypted then (false, s) else s.initSearchIndex false

def indexRecords (s : SearchEngine) : SearchEngine :=
  s.updateIndex fun index =>
    let index := s.objects.objects.entries.foldl (fun index entry => index.indexObjectForSearch entry.2) index
    s.log.store.events.entries.foldl (fun index entry => index.indexEventForSearch entry.2) index

section

variable (disk : SearchDisk) (options : PersistentOpenOptions) (streams : List Bytes)

def load : SearchEngine where
  objects := ObjectState.refreshUniqueIndexCache json
    ⟨disk.objects, disk.vectors, disk.indexes, [], fun _ => none, false⟩
  log := EventLog.after ⟨disk.events, noCounters⟩ (disk.events.openLog codec streams)
  inMemory := false
  searchMode := options.searchMode
  searchQueueMaxKeys := max options.searchQueueMaxKeys 1
  searchIndex := none
  searchDirectory := disk.searchDirectory
  marker := disk.marker
  searchQueue := none
  searchRebuildRequired := false
  searchRebuild := none
  maintenance := .idle

def openFromDatabase : SearchEngine :=
  let (rebuild, s) := (load codec json disk options streams).chooseSearchIndex codec
  if rebuild && (options.searchMode = .persistentAsync || options.searchMode = .persistentRecovery) then
    { s with searchRebuildRequired := true, maintenance := .rebuildingSearch }
  else (if rebuild then s.indexRecords else s).startSearchWorker

end

def commitBatch (s : SearchEngine) : SearchEngine :=
  match s.searchQueue with
  | none => s
  | some queue =>
    { s.updateIndex fun index => queue.taken.foldl applySearchMutation index with
      searchQueue := some { queue with taken := [] } }

def failBatch (s : SearchEngine) : SearchEngine :=
  { s with searchQueue := s.searchQueue.map fun queue => { queue with taken := [], stale := true } }

def retrySearchRebuild (retryCount recoveryMaxRetries : ℕ) (s : SearchEngine) : Bool × SearchEngine :=
  if s.maintenance ≠ .degraded ∨ recoveryMaxRetries ≤ retryCount then (false, s)
  else (true, { s with
    searchQueue := none
    searchIndex := none
    searchDirectory := none
    marker := false
    searchRebuild := none
    searchRebuildRequired := true
    maintenance := .rebuildingSearch })

def shutDown (drained : List Bytes) (s : SearchEngine) : SearchDisk :=
  let drain (queue : SearchQueue) : SearchQueue :=
    if queue.stale then queue else { queue with taken := queue.taken ++ drained.filterMap queue.pending.get }
  SearchEngine.disk (stopSearchWorker { s with searchQueue := s.searchQueue.map drain })

end SearchEngine

namespace Call

def eventOp (now : Bytes) : Call → Option EventLog.Op
  | .appendEvent event => some (.append now event)
  | .appendEventsBatch events => some (.appendBatch now events)
  | .deleteLastEvent stream => some (.deleteLast stream)
  | .deleteStream stream => some (.deleteStream stream)
  | .retain options affectedStreams => some (.retain options affectedStreams)
  | _ => none

end Call

namespace SearchEngine

variable (codec : StorageCodec) (json : JsonReader)

/-- What a crash leaves when it comes after the first commits of a call: a call on objects has one commit. -/
def crashDuring (now : Bytes) (call : Call) (commits : ℕ) (s : SearchEngine) : SearchDisk :=
  match call.eventOp now with
  | some op => { s.disk with events := ((op.effect codec s.log).commits.take commits).foldl commit s.log.store }
  | none => if commits = 0 then s.disk else (s.call codec json now call).disk

def beginsWithoutIndex (s : SearchEngine) : Bool :=
  s.searchRebuild.isNone &&
    ((s.searchQueue.any fun queue => queue.stale) || (s.searchRebuildRequired && s.searchIndex.isNone))

def crashDuringRebuildStep (order : List (Bytes × SearchReplayMutation)) (batchSize : ℕ) (promoted : Bool)
    (s : SearchEngine) : SearchDisk :=
  if codec.encrypted && s.beginsWithoutIndex then (s.noticeStaleQueue.initSearchIndex true).2.disk
  else
    let t := (s.searchRebuildStep codec order batchSize).2
    match s.searchIndex, t.searchIndex with
    | some (.rebuild _), some .directory =>
      { t.disk with searchDirectory := if promoted then t.searchDirectory else none, marker := true }
    | _, _ => s.disk

def crashDuringOpen (disk : SearchDisk) (options : PersistentOpenOptions) (streams : List Bytes) (commits : ℕ) :
    SearchDisk :=
  { ((load codec json disk options streams).chooseSearchIndex codec).2.disk with
    events := ((disk.events.openLog codec streams).commits.take commits).foldl commit disk.events }

end SearchEngine

/-- What can happen to a database: calls, the steps of the worker, maintenance, and the ends and beginnings of an
engine's life. The lists of keys are the orders in which hash maps give them. -/
inductive SearchOp
  | call (now : Bytes) (call : Call)
  | take (keys : List Bytes)
  | commit
  | fail
  | rebuildStep (order : List (Bytes × SearchReplayMutation)) (batchSize : ℕ)
  | retry (retryCount recoveryMaxRetries : ℕ)
  | close (drained : List Bytes)
  | crash
  | crashDuring (now : Bytes) (call : Call) (commits : ℕ)
  | crashDuringRebuildStep (order : List (Bytes × SearchReplayMutation)) (batchSize : ℕ) (promoted : Bool)
  | crashDuringOpen (options : PersistentOpenOptions) (streams : List Bytes) (commits : ℕ)
  | reopen (options : PersistentOpenOptions) (streams : List Bytes)

inductive SearchLife
  | closed (disk : SearchDisk)
  | opened (engine : SearchEngine)

namespace SearchLife

def disk : SearchLife → SearchDisk
  | closed disk => disk
  | opened s => s.disk

def step (codec : StorageCodec) (json : JsonReader) : SearchLife → SearchOp → SearchLife
  | closed disk, .reopen options streams => opened (SearchEngine.openFromDatabase codec json disk options streams)
  | closed disk, .crashDuringOpen options streams commits =>
    closed (SearchEngine.crashDuringOpen codec json disk options streams commits)
  | closed disk, _ => closed disk
  | opened s, .call now call => opened (s.call codec json now call)
  | opened s, .take keys => opened { s with searchQueue := s.searchQueue.map (SearchQueue.takeBatch keys) }
  | opened s, .commit => opened s.commitBatch
  | opened s, .fail => opened s.failBatch
  | opened s, .rebuildStep order batchSize => opened (s.searchRebuildStep codec order batchSize).2
  | opened s, .retry retryCount recoveryMaxRetries => opened (s.retrySearchRebuild retryCount recoveryMaxRetries).2
  | opened s, .close drained => closed (s.shutDown drained)
  | opened s, .crash => closed s.disk
  | opened s, .crashDuring now call commits => closed (s.crashDuring codec json now call commits)
  | opened s, .crashDuringRebuildStep order batchSize promoted =>
    closed (s.crashDuringRebuildStep codec order batchSize promoted)
  | opened s, _ => opened s

end SearchLife

end Thingd.Engine
