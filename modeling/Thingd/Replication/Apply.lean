import Thingd.Replication.Service

namespace Thingd.Replication

open Engine ObjectState StoreCall MemoryObject

def SystemKeys (codec : StorageCodec) : Prop :=
  ∀ collection id system record, isSystem collection = false → isSystem system = true →
    codec.makeObjectKey collection id ≠ codec.makeObjectKey system record

theorem isSystem_of_isPrefix_append {name rest : Bytes} (h : bytesOf "__thingd" <+: name ++ 0 :: rest) :
    isSystem name = true := by
  have hzero : (0 : Byte) ∉ bytesOf "__thingd" := by decide +kernel
  rw [isSystem, List.isPrefixOf_iff_prefix]
  generalize bytesOf "__thingd" = word at h hzero
  induction name generalizing word with
  | nil =>
    cases word with
    | nil => exact List.nil_prefix
    | cons byte word =>
      obtain ⟨rfl, -⟩ := List.cons_prefix_cons.mp h
      exact absurd List.mem_cons_self hzero
  | cons first name ih =>
    cases word with
    | nil => exact List.nil_prefix
    | cons byte word =>
      obtain ⟨rfl, hrest⟩ := List.cons_prefix_cons.mp h
      exact List.cons_prefix_cons.mpr ⟨rfl, ih word hrest fun hmem => hzero (List.mem_cons_of_mem _ hmem)⟩

theorem systemKeys_rawCodec (parseString : Bytes → ThingdResult Bytes) : SystemKeys (rawCodec parseString) := by
  intro collection id system record hcollection hsystem heq
  change collection ++ 0 :: id = system ++ 0 :: record at heq
  have hprefix : bytesOf "__thingd" <+: collection ++ 0 :: id := by
    rw [heq]
    exact (List.isPrefixOf_iff_prefix.mp hsystem).trans (List.prefix_append _ _)
  rw [isSystem_of_isPrefix_append hprefix] at hcollection
  cases hcollection

abbrev ThingStore.get (store : ThingStore) (key : Bytes) : Option MemoryObject := store.objects.objects.get key

namespace StoreEngine

variable {engine : StoreEngine} {store : ThingStore} {object : MemoryObject} {key : Bytes}

abbrev keyOf (engine : StoreEngine) (key : ObjectKey) : Bytes := engine.codec.makeObjectKey key.collection key.id

section

variable (engine store)

def stored (object : MemoryObject) : MemoryObject :=
  stamped engine.now object (store.get (engine.keyOf object.key))

def placed (object : MemoryObject) : ThingStore :=
  let written := (writeObject engine.codec engine.now store.objects object).2
  let previous := if hasUniqueIndexes store.objects.indexDefinitions then store.get (engine.keyOf object.key) else none
  ⟨written.updateUniqueIndexCacheForObject engine.json (engine.stored store object) previous, store.log⟩

def removed (key : ObjectKey) : ThingStore :=
  { store with objects := (store.objects.deleteObject engine.codec engine.json key).2 }

def restored (object stored : MemoryObject) : ThingStore :=
  { store with objects := { store.objects with
    objects := store.objects.objects.insert (engine.keyOf object.key) (withSourceMetadata stored object) } }

def Accepts (object : MemoryObject) : Prop :=
  store.objects.validateUniqueIndexes engine.codec engine.json object = .ok ()

end

theorem putObject_of_accepts (h : engine.Accepts store object) :
    engine.putObject object store = ([engine.placed store object], .ok (engine.stored store object)) := by
  simp only [putObject, commit, putObject_eq_writeObject]
  rw [h]
  rfl

theorem putObject_of_error {error : ThingdError}
    (h : store.objects.validateUniqueIndexes engine.codec engine.json object = .error error) :
    engine.putObject object store = ([], .error error) := by
  simp only [putObject, commit, putObject_eq_writeObject]
  rw [h]
  rfl

theorem deleteObject_run (collection id : Bytes) :
    engine.deleteObject collection id store =
      ([engine.removed store ⟨collection, id⟩], .ok (store.get (engine.codec.makeObjectKey collection id)).isSome) :=
        rfl

theorem restoreMetadata_run (stored : MemoryObject) :
    engine.restoreMetadata object stored store =
      ([engine.restored store object stored], .ok (withSourceMetadata stored object)) := rfl

theorem getObject_run (collection id : Bytes) :
    engine.getObject collection id store = ([], .ok (store.get (engine.codec.makeObjectKey collection id))) := rfl

theorem getObject_bind {α : Type} (collection id : Bytes) (next : Option MemoryObject → EngineCall α) :
    (engine.getObject collection id >>= next) store =
      next (store.get (engine.codec.makeObjectKey collection id)) store := rfl

theorem placed_get : (engine.placed store object).get key =
    if key = engine.keyOf object.key then some (engine.stored store object) else store.get key := by
  have hobjects : (engine.placed store object).objects.objects =
      store.objects.objects.insert (engine.keyOf object.key) (engine.stored store object) :=
    (updateUniqueIndexCacheForObject_objects _ _ _).1
  simp only [ThingStore.get, hobjects, SortedMap.get_insert]
  split_ifs <;> rfl

theorem removed_get (target : ObjectKey) : (engine.removed store target).get key =
    if key = engine.keyOf target then none else store.get key := by
  have hobjects : (engine.removed store target).objects.objects =
    store.objects.objects.erase (engine.keyOf target) := by
    simp only [removed, ObjectState.deleteObject]
    cases store.objects.objects.get (objectKey engine.codec target) with
    | none => rfl
    | some existing => exact (removeUniqueIndexCacheForObject_objects _ _).1
  simp only [ThingStore.get, hobjects, SortedMap.get_erase]
  split_ifs <;> rfl

theorem restored_get (stored : MemoryObject) : (engine.restored store object stored).get key =
    if key = engine.keyOf object.key then some (withSourceMetadata stored object) else store.get key := by
  simp only [ThingStore.get, restored, SortedMap.get_insert]
  split_ifs <;> rfl

theorem checkExpectedVersion_run (engine : StoreEngine) (store : ThingStore) (object : MemoryObject) :
    engine.checkExpectedVersion object ((store.get (engine.keyOf object.key)).map version) store = ([], .ok ()) := by
  cases hget : store.get (engine.keyOf object.key) with
  | none => rfl
  | some existing =>
    have hread : (engine.getObject object.key.collection object.key.id).result store = .ok (some existing) :=
      congrArg Except.ok hget
    simp only [Option.map_some, checkExpectedVersion]
    rw [bind_of_ok hread]
    simp [commits, result, getObject_run, pure]

def replicated (engine : StoreEngine) (store : ThingStore) (object : MemoryObject) : MemoryObject :=
  withSourceMetadata (engine.stored store object) object

theorem putObjectWithSourceMetadata_of_accepts (h : engine.Accepts store object) :
    engine.putObjectWithSourceMetadata object ((store.get (engine.keyOf object.key)).map version) store =
      ([engine.placed store object, engine.restored (engine.placed store object) object (engine.stored store object)],
        .ok (engine.replicated store object)) := by
  have hcheck := checkExpectedVersion_run engine store object
  have hput := putObject_of_accepts h
  rw [putObjectWithSourceMetadata, bind_of_ok (congrArg Prod.snd hcheck), commits, hcheck,
    last_of_commits_eq_nil (congrArg Prod.fst hcheck), commits_bind_of_ok (congrArg Prod.snd hput),
    result_bind_of_ok (congrArg Prod.snd hput), last, commits, hput]
  rfl

theorem putObjectWithSourceMetadata_of_error {error : ThingdError}
    (h : store.objects.validateUniqueIndexes engine.codec engine.json object = .error error) :
    engine.putObjectWithSourceMetadata object ((store.get (engine.keyOf object.key)).map version) store =
      ([], .error error) := by
  have hcheck := checkExpectedVersion_run engine store object
  have hput := putObject_of_error h
  rw [putObjectWithSourceMetadata, bind_of_ok (congrArg Prod.snd hcheck), commits, hcheck,
    last_of_commits_eq_nil (congrArg Prod.fst hcheck), commits_bind_of_error (congrArg Prod.snd hput),
    result_bind_of_error (congrArg Prod.snd hput), commits, hput]
  rfl

end StoreEngine

inductive Action
  | ignore
  | upsert (key : ObjectKey)
  | delete (key : ObjectKey)
  | append (event : MemoryEvent)

namespace Service

variable {service : Service} {item : ReplicationChange} {progress : Progress} {store : ThingStore}

def targetKey (item : ReplicationChange) (collection : Option Bytes) : ThingdResult ObjectKey :=
  match collection with
  | none => .error (.invalidInput "missing collection")
  | some collection =>
    match Value.getStr item.change "id" with
    | none => .error (.invalidInput "missing object id")
    | some id => .ok ⟨collection, id⟩

section

variable (service item)

def replicatedEvent : ThingdResult MemoryEvent :=
  match item.change.get (bytesOf "payload") with
  | none => .error (.invalidInput "missing event payload")
  | some payload =>
    match Value.getStr payload "stream" with
    | none => .error (.invalidInput "missing event stream")
    | some stream =>
      match Value.getStr payload "type" with
      | none => .error (.invalidInput "missing event type")
      | some eventType =>
        .ok { newEvent stream eventType (service.format.print (Value.getOrNull payload "body")) with
          idempotencyKey := item.idempotencyKey }

def action : ThingdResult Action :=
  match Value.getStr item.change "operation" with
  | none => .error (.invalidInput "replication change is missing operation")
  | some operation =>
    let collection := Value.getStr item.change "collection"
    if collection.any fun collection => !service.config.allowed collection then .ok .ignore
    else if operation = bytesOf "object.upsert" then (targetKey item collection).map .upsert
    else if operation = bytesOf "object.delete" then (targetKey item collection).map .delete
    else if operation = bytesOf "event.append" then (service.replicatedEvent item).map .append
    else .error (.invalidInput ("unknown replication operation: " ++ textOf operation))

def perform : Action → EngineCall Unit
  | .ignore => pure ()
  | .upsert key => service.applyUpsert item key.collection key.id
  | .delete key => do
    let _ ← service.deleteObject key.collection key.id
    service.writeTombstone item.sourceId item.cursor key.collection key.id
  | .append event => do
    let _ ← service.appendEvent event

end

def Progress.after (progress : Progress) (item : ReplicationChange) : Action → Progress
  | .ignore => progress.skip (progress.reach item.cursor)
  | _ => progress.advance item.cursor

def runAction (service : Service) (item : ReplicationChange) (progress : Progress) :
    ThingdResult Action → EngineCall Progress
  | .error error => fail error
  | .ok action => do
    service.perform item action
    pure (progress.after item action)

theorem applyObject_eq (collection : Option Bytes) :
    (do service.applyObject item collection; pure (progress.advance item.cursor)) =
      service.runAction item progress ((targetKey item collection).map .upsert) := by
  cases collection with
  | none => rfl
  | some collection =>
    cases hid : Value.getStr item.change "id" with
    | none => simp [applyObject, targetKey, hid, require, runAction, Except.map]
    | some id => simp [applyObject, targetKey, hid, require, runAction, Except.map, perform, Progress.after]

theorem applyDelete_eq (collection : Option Bytes) :
    (do service.applyDelete item collection; pure (progress.advance item.cursor)) =
      service.runAction item progress ((targetKey item collection).map .delete) := by
  cases collection with
  | none => rfl
  | some collection =>
    cases hid : Value.getStr item.change "id" with
    | none => simp [applyDelete, targetKey, hid, require, runAction, Except.map]
    | some id => simp [applyDelete, targetKey, hid, require, runAction, Except.map, perform, Progress.after]

theorem applyEvent_eq :
    (do service.applyEvent item; pure (progress.advance item.cursor)) =
      service.runAction item progress ((service.replicatedEvent item).map .append) := by
  cases hpayload : item.change.get (bytesOf "payload") with
  | none => simp [applyEvent, replicatedEvent, hpayload, runAction, Except.map]
  | some payload =>
    cases hstream : Value.getStr payload "stream" with
    | none => simp [applyEvent, replicatedEvent, hpayload, hstream, require, runAction, Except.map]
    | some stream =>
      cases htype : Value.getStr payload "type" with
      | none => simp [applyEvent, replicatedEvent, hpayload, hstream, htype, require, runAction, Except.map]
      | some eventType =>
        simp [applyEvent, replicatedEvent, hpayload, hstream, htype, require, runAction, Except.map, perform,
          Progress.after]

theorem applyNew_eq : service.applyNew item progress = service.runAction item progress (service.action item) := by
  cases hoperation : Value.getStr item.change "operation" with
  | none => simp [applyNew, action, hoperation, runAction]
  | some operation =>
    simp only [applyNew, action, hoperation, applyOperation]
    split_ifs
    · rfl
    · exact applyObject_eq _
    · exact applyDelete_eq _
    · exact applyEvent_eq
    · rfl

section Records

variable {collection id : Bytes} {body : Value} {key : ObjectKey} {error : ThingdError}

section

variable (service item key)

def provenanceRecord : MemoryObject :=
  service.record replicationProvenanceCollection (replicationMetadataId item.sourceId key.collection key.id)
    (provenanceBody item.sourceId item.cursor key.collection key.id (Value.getOrNull item.change "payload"))

def tombstoneRecord : MemoryObject :=
  service.record replicationTombstoneCollection (replicationMetadataId item.sourceId key.collection key.id)
    (tombstoneBody item.sourceId item.cursor key.collection key.id)

def quarantineRecord : MemoryObject :=
  service.record replicationQuarantineCollection (cursorKey item.sourceId item.cursor)
    (conflictBody item.sourceId item.cursor key.collection key.id)

def upserted : MemoryObject :=
  service.payloadObject key.collection key.id (Value.getOrNull item.change "payload")

end

theorem putRecord_of_accepts (h : service.Accepts store (service.record collection id body)) :
    service.putRecord collection id body store =
      ([service.placed store (service.record collection id body)], .ok ()) := by
  have hput := StoreEngine.putObject_of_accepts h
  rw [putRecord, bind_of_ok (congrArg Prod.snd hput), commits, hput]
  rfl

theorem putRecord_of_error
    (h : store.objects.validateUniqueIndexes service.codec service.json (service.record collection id body) =
      .error error) :
    service.putRecord collection id body store = ([], .error error) := by
  have hput := StoreEngine.putObject_of_error h
  rw [putRecord, bind_of_error (congrArg Prod.snd hput), commits, hput]

section

variable (service item) (key : ObjectKey) (store : ThingStore)

def conflicts : Bool :=
  (store.get (service.codec.makeObjectKey key.collection key.id)).isSome &&
    (store.get (service.codec.makeObjectKey replicationProvenanceCollection
      (replicationMetadataId item.sourceId key.collection key.id))).isNone

def putUpserted : EngineCall Unit := do
  let _ ← service.putObjectWithSourceMetadata (service.upserted item key)
    ((store.get (service.keyOf (service.upserted item key).key)).map version)
  service.writeProvenance item.sourceId item.cursor key.collection key.id (Value.getOrNull item.change "payload")

end

theorem applyUpsert_run : service.applyUpsert item key.collection key.id store =
    if service.conflicts item key store then
      (do
        service.writeConflict item.sourceId item.cursor key.collection key.id
        fail (replicationConflict key.collection key.id) : EngineCall Unit) store
    else service.putUpserted item key store store := by
  rw [applyUpsert, StoreEngine.getObject_bind, StoreEngine.getObject_bind]
  rw [conflicts]
  split_ifs
  · rfl
  · rfl

theorem applyUpsert_of_conflicts (h : service.conflicts item key store = true)
    (haccepts : service.Accepts store (service.quarantineRecord item key)) :
    service.applyUpsert item key.collection key.id store =
      ([service.placed store (service.quarantineRecord item key)],
        .error (replicationConflict key.collection key.id)) := by
  have hput := putRecord_of_accepts haccepts
  rw [applyUpsert_run, if_pos h, writeConflict, bind_of_ok (congrArg Prod.snd hput), commits, hput]
  rfl

theorem applyUpsert_of_conflicts_of_error (h : service.conflicts item key store = true)
    (herror : store.objects.validateUniqueIndexes service.codec service.json (service.quarantineRecord item key) =
      .error error) :
    service.applyUpsert item key.collection key.id store = ([], .error error) := by
  have hput := putRecord_of_error herror
  rw [applyUpsert_run, if_pos h, writeConflict, bind_of_error (congrArg Prod.snd hput), commits, hput]

theorem applyUpsert_of_accepts (h : service.conflicts item key store = false)
    (haccepts : service.Accepts store (service.upserted item key)) :
    let placed := service.placed store (service.upserted item key)
    let restored := service.restored placed (service.upserted item key)
      (service.stored store (service.upserted item key))
    let written := service.writeProvenance item.sourceId item.cursor key.collection key.id
      (Value.getOrNull item.change "payload")
    service.applyUpsert item key.collection key.id store =
      (placed :: restored :: written.commits restored, written.result restored) := by
  have hput := StoreEngine.putObjectWithSourceMetadata_of_accepts haccepts
  rw [applyUpsert_run, if_neg (by simp [h]), putUpserted, bind_of_ok (congrArg Prod.snd hput), last,
    commits, hput]
  rfl

theorem applyUpsert_of_error (h : service.conflicts item key store = false)
    (herror : store.objects.validateUniqueIndexes service.codec service.json (service.upserted item key) =
      .error error) :
    service.applyUpsert item key.collection key.id store = ([], .error error) := by
  have hput := StoreEngine.putObjectWithSourceMetadata_of_error herror
  rw [applyUpsert_run, if_neg (by simp [h]), putUpserted, bind_of_error (congrArg Prod.snd hput),
    commits, hput]

end Records

def Stays (place : Bytes) (value : Option MemoryObject) (store : ThingStore) : Prop := store.get place = value

section Frame

variable {place : Bytes} {value : Option MemoryObject}

theorem keeps_putObject {object : MemoryObject} (h : place ≠ service.keyOf object.key) :
    Keeps (Stays place value) (service.putObject object) := by
  intro store hstore after hafter
  cases hvalid : store.objects.validateUniqueIndexes service.codec service.json object with
  | error error =>
    rw [commits, StoreEngine.putObject_of_error hvalid] at hafter
    cases hafter
  | ok done =>
    rw [commits, StoreEngine.putObject_of_accepts hvalid, List.mem_singleton] at hafter
    rw [hafter, Stays, StoreEngine.placed_get, if_neg h]
    exact hstore

theorem keeps_putRecord {collection id : Bytes} (h : place ≠ service.codec.makeObjectKey collection id) (body : Value) :
    Keeps (Stays place value) (service.putRecord collection id body) := by
  apply Keeps.bind
  · apply keeps_putObject
    exact h
  · exact fun _ => keeps_pure

theorem keeps_deleteObject {key : ObjectKey} (h : place ≠ service.keyOf key) :
    Keeps (Stays place value) (service.deleteObject key.collection key.id) := by
  intro store hstore after hafter
  rw [commits, StoreEngine.deleteObject_run, List.mem_singleton] at hafter
  rw [hafter, Stays, StoreEngine.removed_get, if_neg h]
  exact hstore

theorem keeps_appendEvent (event : MemoryEvent) : Keeps (Stays place value) (service.appendEvent event) := by
  intro store hstore after hafter
  simp only [commits, StoreEngine.appendEvent] at hafter
  split_ifs at hafter
  · cases hafter
  · rw [List.mem_singleton.mp hafter]
    exact hstore

theorem keeps_checkExpectedVersion (object : MemoryObject) (expectedVersion : Option UInt64) :
    Keeps (Stays place value) (service.checkExpectedVersion object expectedVersion) := by
  cases expectedVersion with
  | none => exact keeps_pure
  | some expected =>
    apply Keeps.bind
    · exact keeps_load.bind fun _ => keeps_pure
    intro existing
    cases existing with
    | none => exact keeps_fail
    | some existing =>
      by_cases hversion : existing.version ≠ expected
      · simpa only [if_pos hversion] using keeps_fail
      · simpa only [if_neg hversion] using keeps_pure

theorem keeps_restoreMetadata {object : MemoryObject} (h : place ≠ service.keyOf object.key) (stored : MemoryObject) :
    Keeps (Stays place value) (service.restoreMetadata object stored) := by
  intro store hstore after hafter
  rw [commits, StoreEngine.restoreMetadata_run, List.mem_singleton] at hafter
  rw [hafter, Stays, StoreEngine.restored_get, if_neg h]
  exact hstore

theorem keeps_putObjectWithSourceMetadata {object : MemoryObject} (h : place ≠ service.keyOf object.key)
    (expectedVersion : Option UInt64) :
    Keeps (Stays place value) (service.putObjectWithSourceMetadata object expectedVersion) := by
  apply (keeps_checkExpectedVersion _ _).bind
  intro _
  apply (keeps_putObject h).bind
  exact fun stored => keeps_restoreMetadata h stored

theorem isSystem_replicationProvenanceCollection : isSystem replicationProvenanceCollection = true := by decide +kernel

theorem isSystem_replicationTombstoneCollection : isSystem replicationTombstoneCollection = true := by decide +kernel

theorem isSystem_replicationQuarantineCollection : isSystem replicationQuarantineCollection = true := by decide +kernel

theorem isSystem_replicationStateCollection : isSystem replicationStateCollection = true := by decide +kernel

def quarantineKey (service : Service) (item : ReplicationChange) : Bytes :=
  service.codec.makeObjectKey replicationQuarantineCollection (cursorKey item.sourceId item.cursor)

def writes (service : Service) (item : ReplicationChange) : Action → List (Bytes × Option MemoryObject)
  | .ignore => []
  | .upsert key => [(service.keyOf key, some (service.upserted item key)),
      (service.keyOf (service.provenanceRecord item key).key, some (service.provenanceRecord item key))]
  | .delete key => [(service.keyOf key, none),
      (service.keyOf (service.tombstoneRecord item key).key, some (service.tombstoneRecord item key))]
  | .append _ => []

theorem keeps_perform {action : Action} (h : ∀ write ∈ service.writes item action, place ≠ write.1)
    (hquarantine : place ≠ service.quarantineKey item) : Keeps (Stays place value) (service.perform item action) := by
  cases action with
  | ignore => exact keeps_pure
  | append event => exact (keeps_appendEvent event).bind fun _ => keeps_pure
  | delete key =>
    obtain ⟨hobject, hrest⟩ := List.forall_mem_cons.mp h
    have hrecord := hrest _ List.mem_cons_self
    apply Keeps.bind
    · exact keeps_deleteObject hobject
    · exact fun _ => keeps_putRecord hrecord _
  | upsert key =>
    obtain ⟨hobject, hrest⟩ := List.forall_mem_cons.mp h
    have hrecord := hrest _ List.mem_cons_self
    intro store hstore after hafter
    rw [commits, perform, applyUpsert_run] at hafter
    split_ifs at hafter
    · refine Keeps.bind ?_ (fun _ => keeps_fail) store hstore after hafter
      exact keeps_putRecord hquarantine _
    · refine Keeps.bind ?_ (fun _ => ?_) store hstore after hafter
      · exact keeps_putObjectWithSourceMetadata hobject _
      · exact keeps_putRecord hrecord _

end Frame

section Items

def appliedCursor (service : Service) (sourceId : Bytes) (store : ThingStore) : UInt64 :=
  (((store.get (service.codec.makeObjectKey replicationStateCollection (checkpointId sourceId))).bind fun object =>
    service.format.parse object.body).bind fun body => Value.getU64 body "lastAppliedCursor").getD 0

theorem readAppliedCursor_run (sourceId : Bytes) :
    service.readAppliedCursor sourceId store = ([], .ok (service.appliedCursor sourceId store)) := rfl

def begun (service : Service) (item : ReplicationChange) (progress : Progress) (store : ThingStore) : Progress :=
  { progress with
    sourceId := some item.sourceId
    checkpoint := if progress.checkpoint = 0 then service.appliedCursor item.sourceId store else progress.checkpoint }

def sameSource (item : ReplicationChange) (progress : Progress) : Bool :=
  progress.sourceId.all fun sourceId => sourceId = item.sourceId

def isNew (service : Service) (item : ReplicationChange) (progress : Progress) (store : ThingStore) : Bool :=
  item.cursor = 0 || (service.begun item progress store).checkpoint < item.cursor

theorem applyItem_of_other (h : sameSource item progress = false) :
    service.applyItem item progress =
      fail (.invalidInput "a replication batch cannot contain multiple source IDs") := by
  rw [applyItem, if_pos]
  cases hsource : progress.sourceId with
  | none => simp [sameSource, hsource] at h
  | some sourceId => simpa [sameSource, hsource] using h

section

variable (h : sameSource item progress = true)
include h

theorem applyItem_run :
    service.applyItem item progress store =
      if 0 < item.cursor ∧ item.cursor ≤ (service.begun item progress store).checkpoint then
        ([], .ok ((service.begun item progress store).skip progress.result.lastAppliedCursor))
      else service.applyNew item (service.begun item progress store) store := by
  have hsource : ¬(progress.sourceId.any fun sourceId => sourceId ≠ item.sourceId) = true := by
    cases hid : progress.sourceId with
    | none => simp
    | some sourceId => simpa [sameSource, hid] using h
  rw [applyItem, if_neg hsource, begun]
  by_cases hzero : progress.checkpoint = 0
  · simp only [hzero, if_true]
    rw [bind_of_ok (congrArg Prod.snd (readAppliedCursor_run item.sourceId))]
    simp only [commits]
    split_ifs
    · rfl
    · rfl
  · simp only [hzero, if_false, pure_bind]
    split_ifs
    · rfl
    · rfl

theorem applyItem_of_new (hnew : service.isNew item progress store = true) :
    service.applyItem item progress store = service.applyNew item (service.begun item progress store) store := by
  rw [applyItem_run h, if_neg]
  rintro ⟨hpos, hle⟩
  simp only [isNew, Bool.or_eq_true, decide_eq_true_eq] at hnew
  rcases hnew with hzero | hlt
  · rw [hzero] at hpos
    exact absurd hpos (UInt64.lt_irrefl 0)
  · exact absurd hlt (UInt64.not_lt.mpr hle)

theorem applyItem_of_old (hold : service.isNew item progress store = false) :
    service.applyItem item progress store =
      ([], .ok ((service.begun item progress store).skip progress.result.lastAppliedCursor)) := by
  rw [applyItem_run h, if_pos]
  simp only [isNew, Bool.or_eq_false_iff, decide_eq_false_iff_not] at hold
  refine ⟨?_, UInt64.not_lt.mp hold.2⟩
  rw [UInt64.lt_iff_toNat_lt]
  have hne : item.cursor.toNat ≠ 0 := fun hzero => hold.1 (UInt64.toNat_inj.mp hzero)
  change 0 < item.cursor.toNat
  omega

end

end Items

end Service

end Thingd.Replication
