import Thingd.Engine.EventReplay
import Thingd.Replication.Apply

namespace Thingd.Replication

open Engine StoreCall StoreEngine ObjectState

def Plain (store : ThingStore) : Prop :=
  store.objects = { emptyState with objects := store.objects.objects, vectors := store.objects.vectors }

section Plain

variable {engine : StoreEngine} {service : Service} {store : ThingStore} {item : ReplicationChange} {action : Action}

section

variable (h : Plain store)
include h

theorem Plain.indexDefinitions : store.objects.indexDefinitions = [] := by
  rw [h]
  rfl

theorem Plain.accepts (object : MemoryObject) : engine.Accepts store object := by
  simp [Accepts, validateUniqueIndexes, uniqueDefinitions, h.indexDefinitions]

theorem Plain.placed (object : MemoryObject) : Plain (engine.placed store object) := by
  have hunique : hasUniqueIndexes store.objects.indexDefinitions = false := by
    simp [hasUniqueIndexes, h.indexDefinitions]
  rw [Plain, StoreEngine.placed]
  simp only [updateUniqueIndexCacheForObject, writeObject, hunique, Bool.not_false, Bool.or_true,
    if_true]
  conv_lhs => rw [h]

theorem Plain.removed (key : ObjectKey) : Plain (engine.removed store key) := by
  have hunique : hasUniqueIndexes store.objects.indexDefinitions = false := by
    simp [hasUniqueIndexes, h.indexDefinitions]
  rw [Plain, StoreEngine.removed]
  cases hget : store.objects.objects.get (objectKey engine.codec key) with
  | none =>
    simp only [ObjectState.deleteObject, hget, Option.elim_none]
    conv_lhs => rw [h]
  | some existing =>
    simp only [ObjectState.deleteObject, hget, Option.elim_some, removeUniqueIndexCacheForObject, hunique,
      Bool.not_false, Bool.or_true, if_true]
    conv_lhs => rw [h]

theorem Plain.restored (object stored : MemoryObject) : Plain (engine.restored store object stored) := by
  rw [Plain, StoreEngine.restored]
  conv_lhs => rw [h]

end

theorem keeps_plain_putObject (object : MemoryObject) : Keeps Plain (engine.putObject object) := by
  intro store hstore after hafter
  rw [commits, putObject_of_accepts (hstore.accepts object), List.mem_singleton] at hafter
  rw [hafter]
  exact hstore.placed object

theorem keeps_plain_putRecord (collection id : Bytes) (body : Value) :
    Keeps Plain (service.putRecord collection id body) :=
  (keeps_plain_putObject _).bind fun _ => keeps_pure

theorem keeps_plain_appendEvent (event : MemoryEvent) : Keeps Plain (engine.appendEvent event) := by
  intro store hstore after hafter
  simp only [commits, appendEvent] at hafter
  split_ifs at hafter
  · cases hafter
  · rw [List.mem_singleton.mp hafter]
    exact hstore

theorem keeps_plain_deleteObject (collection id : Bytes) : Keeps Plain (engine.deleteObject collection id) := by
  intro store hstore after hafter
  rw [commits, deleteObject_run, List.mem_singleton] at hafter
  rw [hafter]
  exact hstore.removed _

theorem keeps_plain_perform : Keeps Plain (service.perform item action) := by
  cases action with
  | ignore => exact keeps_pure
  | append event => exact (keeps_plain_appendEvent event).bind fun _ => keeps_pure
  | delete key => exact (keeps_plain_deleteObject _ _).bind fun _ => keeps_plain_putRecord _ _ _
  | upsert key =>
    intro store hstore after hafter
    rw [commits, Service.perform] at hafter
    cases hconflicts : service.conflicts item key store with
    | true =>
      rw [Service.applyUpsert_of_conflicts hconflicts (hstore.accepts _), List.mem_singleton] at hafter
      rw [hafter]
      exact hstore.placed _
    | false =>
      rw [Service.applyUpsert_of_accepts hconflicts (hstore.accepts _)] at hafter
      have hplaced : Plain (service.placed store (service.upserted item key)) := hstore.placed _
      have hrestored : Plain
        (service.restored (service.placed store (service.upserted item key)) (service.upserted item key)
        (service.stored store (service.upserted item key))) := hplaced.restored _ _
      rcases List.mem_cons.mp hafter with rfl | hafter
      · exact hplaced
      · rcases List.mem_cons.mp hafter with rfl | hafter
        · exact hrestored
        · exact keeps_plain_putRecord _ _ _ _ hrestored after hafter

end Plain

def content (object : MemoryObject) : ObjectKey × Bytes × Option Embedding := (object.key, object.body, object.vector)

structure Lands (written stored : MemoryObject) : Prop where
  content : content stored = content written
  version : 0 < written.version → stored.version = written.version
  createdAt : written.createdAt ≠ [] → stored.createdAt = written.createdAt
  updatedAt : written.updatedAt ≠ [] → stored.updatedAt = written.updatedAt

/-- The version and both times are given, as in every change that `record_object_upsert` writes for a stored object. -/
structure Stamped (object : MemoryObject) : Prop where
  version : 0 < object.version
  createdAt : object.createdAt ≠ []
  updatedAt : object.updatedAt ≠ []

theorem Lands.eq_of_stamped {written stored other : MemoryObject} (h : Lands written stored)
    (h' : Lands written other) (hstamped : Stamped written) : stored = other := by
  have hcontent := h.content.trans h'.content.symm
  simp only [Replication.content, Prod.mk.injEq] at hcontent
  have hversion := (h.version hstamped.version).trans (h'.version hstamped.version).symm
  have hcreated := (h.createdAt hstamped.createdAt).trans (h'.createdAt hstamped.createdAt).symm
  have hupdated := (h.updatedAt hstamped.updatedAt).trans (h'.updatedAt hstamped.updatedAt).symm
  cases stored
  cases other
  simp_all

def Verdict : Option (Option MemoryObject) → Option MemoryObject → Option MemoryObject → Prop
  | none, before, after => after = before
  | some none, _, after => after = none
  | some (some written), _, after => ∃ stored, after = some stored ∧ Lands written stored

abbrev Writes := List (Bytes × Option MemoryObject)

def lastWrite (writes : Writes) (place : Bytes) : Option (Option MemoryObject) :=
  ((writes.filter fun write => write.1 = place).getLast?).map Prod.snd

variable {value : Option MemoryObject}

section Verdicts

variable {writes more : Writes} {place : Bytes} {before between after : Option MemoryObject}

theorem lastWrite_append : lastWrite (writes ++ more) place = (lastWrite more place).or (lastWrite writes place) := by
  rw [lastWrite, List.filter_append, List.getLast?_append, lastWrite, lastWrite]
  cases (more.filter fun write => write.1 = place).getLast? <;> rfl

theorem lastWrite_singleton (key : Bytes) (value : Option MemoryObject) :
    lastWrite [(key, value)] place = if place = key then some value else none := by
  by_cases hplace : key = place
  · simp [lastWrite, hplace]
  · simp [lastWrite, hplace, Ne.symm hplace]

theorem lastWrite_eq_none : lastWrite writes place = none ↔ ∀ write ∈ writes, place ≠ write.1 := by
  simp only [lastWrite, Option.map_eq_none_iff, List.getLast?_eq_none_iff, List.filter_eq_nil_iff, decide_eq_true_eq]
  exact forall₂_congr fun _ _ => ne_comm

theorem Verdict.trans {first second : Option (Option MemoryObject)} (h : Verdict first before between)
    (hnext : Verdict second between after) : Verdict (second.or first) before after := by
  cases second with
  | none =>
    have hsame : after = between := hnext
    rw [hsame]
    exact h
  | some value =>
    cases value with
    | none => exact hnext
    | some written => exact hnext

theorem Verdict.isSome_eq {last : Option (Option MemoryObject)} (h : Verdict last before after) :
    after.isSome = (last.map Option.isSome).getD before.isSome := by
  cases last with
  | none => exact congrArg Option.isSome h
  | some value =>
    cases value with
    | none => exact congrArg Option.isSome h
    | some written =>
      obtain ⟨stored, rfl, -⟩ := h
      rfl

theorem Verdict.content_eq {before' after' : Option MemoryObject} (h : Verdict (some value) before after)
    (h' : Verdict (some value) before' after') : after.map content = after'.map content := by
  cases value with
  | none =>
    have hnone : after = none := h
    have hnone' : after' = none := h'
    rw [hnone, hnone']
  | some written =>
    obtain ⟨stored, rfl, hlands⟩ := h
    obtain ⟨stored', rfl, hlands'⟩ := h'
    rw [Option.map_some, Option.map_some, hlands.content, hlands'.content]

end Verdicts

theorem lands_record (service : Service) (store : ThingStore) (collection id : Bytes) (body : Value) :
    Lands (service.record collection id body) (service.stored store (service.record collection id body)) :=
  ⟨rfl, fun h => absurd h (UInt64.lt_irrefl 0), fun h => absurd rfl h, fun h => absurd rfl h⟩

theorem lands_withSourceMetadata (engine : StoreEngine) (store : ThingStore) (object : MemoryObject) :
    Lands object (withSourceMetadata (engine.stored store object) object) := by
  refine ⟨rfl, fun h => ?_, fun h => ?_, fun h => ?_⟩
  · simp only [withSourceMetadata, h, if_true]
  · simp only [withSourceMetadata, List.isEmpty_iff, h, if_false]
  · simp only [withSourceMetadata, List.isEmpty_iff, h, if_false]

namespace Service

variable {service : Service} {store : ThingStore} {item : ReplicationChange} {action : Action} {place : Bytes}
  {items more : List ReplicationChange}

theorem verdict_placed_record (store : ThingStore) (collection id : Bytes) (body : Value) (place : Bytes) :
    Verdict (lastWrite [(service.keyOf (service.record collection id body).key,
      some (service.record collection id body))] place)
      (store.get place) ((service.placed store (service.record collection id body)).get place) := by
  rw [placed_get, lastWrite_singleton]
  split_ifs
  · exact ⟨_, rfl, lands_record service store collection id body⟩
  · rfl

theorem verdict_removed (engine : StoreEngine) (store : ThingStore) (key : ObjectKey) (place : Bytes) :
    Verdict (lastWrite [(engine.keyOf key, none)] place) (store.get place) ((engine.removed store key).get place) := by
  rw [removed_get, lastWrite_singleton]
  split_ifs
  · rfl
  · rfl

theorem verdict_restored (engine : StoreEngine) (store : ThingStore) (object : MemoryObject) (place : Bytes) :
    Verdict (lastWrite [(engine.keyOf object.key, some object)] place) (store.get place)
      ((engine.restored (engine.placed store object) object (engine.stored store object)).get place) := by
  rw [restored_get, placed_get, lastWrite_singleton]
  split_ifs
  · exact ⟨_, rfl, lands_withSourceMetadata engine store object⟩
  · rfl

section

variable (service item)

def Free (store : ThingStore) : Action → Prop
  | .upsert key => service.conflicts item key store = false
  | _ => True

theorem perform_delete_run (hplain : Plain store) (key : ObjectKey) :
    service.perform item (.delete key) store = ([service.removed store key,
      service.placed (service.removed store key) (service.tombstoneRecord item key)], .ok ()) := by
  have hremoved : Plain (service.removed store key) := hplain.removed key
  have hput := putRecord_of_accepts (hremoved.accepts (service.tombstoneRecord item key))
  rw [perform, bind_of_ok (congrArg Prod.snd (deleteObject_run _ _)), writeTombstone, StoreCall.last,
    commits]
  exact congrArg (fun run => (service.removed store key :: run.1, run.2)) hput

def objectWritten (key : ObjectKey) (store : ThingStore) : ThingStore :=
  service.restored (service.placed store (service.upserted item key)) (service.upserted item key)
    (service.stored store (service.upserted item key))

end

theorem perform_upsert_run (hplain : Plain store) {key : ObjectKey} (hfree : service.conflicts item key store = false) :
    service.perform item (.upsert key) store = ([service.placed store (service.upserted item key),
      service.objectWritten item key store,
      service.placed (service.objectWritten item key store) (service.provenanceRecord item key)], .ok ()) := by
  have hplaced : Plain (service.placed store (service.upserted item key)) := hplain.placed _
  have hwritten : Plain (service.objectWritten item key store) := hplaced.restored _ _
  have hput := putRecord_of_accepts (hwritten.accepts (service.provenanceRecord item key))
  rw [perform, applyUpsert_of_accepts hfree (hplain.accepts _), writeProvenance]
  exact congrArg (fun run =>
    (service.placed store (service.upserted item key) :: service.objectWritten item key store ::
    run.1, run.2)) hput

theorem perform_of_free (hplain : Plain store) (hfree : service.Free item store action) :
    (service.perform item action).result store = .ok () ∧
      ∀ place, Verdict (lastWrite (service.writes item action) place) (store.get place)
        (((service.perform item action).last store).get place) := by
  cases action with
  | ignore => exact ⟨rfl, fun _ => rfl⟩
  | append event =>
    refine ⟨rfl, fun place => ?_⟩
    have hkeeps : Keeps (Stays place (store.get place)) (service.perform item (.append event)) :=
      (keeps_appendEvent event).bind fun _ => keeps_pure
    exact hkeeps.last (show Stays place (store.get place) store from rfl)
  | delete key =>
    have hrun := perform_delete_run service item hplain key
    refine ⟨congrArg Prod.snd hrun, fun place => ?_⟩
    rw [StoreCall.last, commits, hrun, writes, ← List.singleton_append, lastWrite_append]
    exact (verdict_removed _ store key place).trans (verdict_placed_record _ _ _ _ place)
  | upsert key =>
    have hrun := perform_upsert_run hplain hfree
    refine ⟨congrArg Prod.snd hrun, fun place => ?_⟩
    rw [StoreCall.last, commits, hrun, writes, ← List.singleton_append, lastWrite_append]
    exact (verdict_restored _ store (service.upserted item key) place).trans (verdict_placed_record _ _ _ _ place)

theorem result_perform_eq_ok (hplain : Plain store) :
    (service.perform item action).result store = .ok () ↔ service.Free item store action := by
  refine ⟨fun hok => ?_, fun hfree => (perform_of_free hplain hfree).1⟩
  cases action with
  | ignore => trivial
  | append event => trivial
  | delete key => trivial
  | upsert key =>
    cases hconflicts : service.conflicts item key store with
    | false => exact hconflicts
    | true =>
      rw [result, perform, applyUpsert_of_conflicts hconflicts (hplain.accepts _)] at hok
      cases hok

section Each

def performItem (service : Service) (item : ReplicationChange) : EngineCall Unit :=
  match service.action item with
  | .error error => fail error
  | .ok action => service.perform item action

theorem performItem_of_action (h : service.action item = .ok action) :
    service.performItem item = service.perform item action := by
  simp only [performItem, h]

def applyEach (service : Service) : List ReplicationChange → EngineCall Unit
  | [] => pure ()
  | item :: items => do
    service.performItem item
    applyEach service items

def writesOf (service : Service) (item : ReplicationChange) : Writes :=
  match service.action item with
  | .error _ => []
  | .ok action => service.writes item action

def allWrites (service : Service) (items : List ReplicationChange) : Writes := items.flatMap service.writesOf

theorem allWrites_cons (item : ReplicationChange) (items : List ReplicationChange) :
    service.allWrites (item :: items) = service.writesOf item ++ service.allWrites items := List.flatMap_cons

theorem allWrites_append : service.allWrites (items ++ more) = service.allWrites items ++ service.allWrites more :=
  List.flatMap_append

theorem applyEach_append :
    service.applyEach (items ++ more) = (do service.applyEach items; service.applyEach more) := by
  induction items with
  | nil => rfl
  | cons item items ih => simp only [List.cons_append, applyEach, ih, bind_assoc]

theorem keeps_plain_performItem : Keeps Plain (service.performItem item) := by
  rw [performItem]
  cases service.action item with
  | error error => exact keeps_fail
  | ok action => exact keeps_plain_perform

theorem keeps_plain_applyEach : Keeps Plain (service.applyEach items) := by
  induction items with
  | nil => exact keeps_pure
  | cons item items ih => exact Keeps.bind keeps_plain_performItem fun _ => ih

theorem keeps_applyEach (h : ∀ write ∈ service.allWrites items, place ≠ write.1)
    (hquarantine : ∀ item ∈ items, place ≠ service.quarantineKey item) :
    Keeps (Stays place value) (service.applyEach items) := by
  induction items with
  | nil => exact keeps_pure
  | cons item items ih =>
    obtain ⟨hfirst, hrest⟩ := List.forall_mem_cons.mp hquarantine
    rw [allWrites_cons, List.forall_mem_append] at h
    apply Keeps.bind _ fun _ => ih h.2 hrest
    rw [performItem]
    cases haction : service.action item with
    | error error => exact keeps_fail
    | ok action =>
      apply keeps_perform _ hfirst
      simpa only [writesOf, haction] using h.1

theorem result_performItem_eq_ok (hplain : Plain store) : (service.performItem item).result store = .ok () ↔
    ∃ action, service.action item = .ok action ∧ service.Free item store action := by
  rw [performItem]
  cases haction : service.action item with
  | error error => simp
  | ok action => simp [result_perform_eq_ok hplain]

theorem verdict_performItem (hplain : Plain store) (hok : (service.performItem item).result store = .ok ())
    (place : Bytes) :
    Verdict (lastWrite (service.writesOf item) place) (store.get place)
      (((service.performItem item).last store).get place) := by
  obtain ⟨action, haction, hfree⟩ := (result_performItem_eq_ok hplain).mp hok
  rw [performItem_of_action haction, writesOf, haction]
  exact (perform_of_free hplain hfree).2 place

theorem verdict_applyEach (hplain : Plain store) (hok : (service.applyEach items).result store = .ok ())
    (place : Bytes) :
    Verdict (lastWrite (service.allWrites items) place) (store.get place)
      (((service.applyEach items).last store).get place) := by
  induction items generalizing store with
  | nil => rfl
  | cons item items ih =>
    obtain ⟨⟨⟩, hfirst, hrest⟩ := result_bind_eq_ok.mp hok
    have hnext : Plain ((service.performItem item).last store) := keeps_plain_performItem.last hplain
    rw [applyEach, last_bind_of_ok hfirst, allWrites_cons, lastWrite_append]
    exact (verdict_performItem hplain hfirst place).trans (ih hnext hrest)

end Each

section Presence

abbrev provenanceKey (service : Service) (item : ReplicationChange) (key : ObjectKey) : Bytes :=
  service.codec.makeObjectKey replicationProvenanceCollection
    (replicationMetadataId item.sourceId key.collection key.id)

def occupied (writes : Writes) (store : ThingStore) (place : Bytes) : Bool :=
  ((lastWrite writes place).map Option.isSome).getD (store.get place).isSome

def Clear (service : Service) (item : ReplicationChange) (writes : Writes) (store : ThingStore) : Action → Prop
  | .upsert key =>
    occupied writes store (service.keyOf key) = true → occupied writes store (service.provenanceKey item key) = true
  | _ => True

variable {first second : Writes} {next : ThingStore}

theorem occupied_append (h : ∀ place, (next.get place).isSome = occupied first store place) (place : Bytes) :
    occupied (first ++ second) store place = occupied second next place := by
  rw [occupied, occupied, lastWrite_append, h, occupied]
  cases lastWrite second place <;> rfl

theorem free_iff_clear : service.Free item store action ↔ service.Clear item [] store action := by
  cases action with
  | upsert key =>
    have hoccupied (place : Bytes) : occupied [] store place = (store.get place).isSome := rfl
    simp only [Free, Clear, conflicts, hoccupied]
    cases (store.get (service.keyOf key)).isSome <;> cases store.get (service.provenanceKey item key) <;> simp
  | ignore => exact Iff.rfl
  | delete key => exact Iff.rfl
  | append event => exact Iff.rfl

theorem clear_append (h : ∀ place, (next.get place).isSome = occupied first store place) :
    service.Clear item (first ++ second) store action ↔ service.Clear item second next action := by
  cases action with
  | upsert key => simp only [Clear, occupied_append h]
  | ignore => exact Iff.rfl
  | delete key => exact Iff.rfl
  | append event => exact Iff.rfl

theorem result_applyEach_eq_ok (hplain : Plain store) : (service.applyEach items).result store = .ok () ↔
    ∀ done item rest, items = done ++ item :: rest →
      ∃ action, service.action item = .ok action ∧ service.Clear item (service.allWrites done) store action := by
  induction items generalizing store with
  | nil =>
    refine iff_of_true rfl fun done item rest hsplit => ?_
    simp at hsplit
  | cons first items ih =>
    have hnext : Plain ((service.performItem first).last store) := keeps_plain_performItem.last hplain
    have hoccupied (hok : (service.performItem first).result store = .ok ()) (place : Bytes) :
        (((service.performItem first).last store).get place).isSome = occupied (service.writesOf first) store place :=
      (verdict_performItem hplain hok place).isSome_eq
    constructor
    · intro hok done item rest hsplit
      obtain ⟨⟨⟩, hfirst, hrest⟩ := result_bind_eq_ok.mp hok
      cases done with
      | nil =>
        obtain ⟨rfl, rfl⟩ := List.cons.inj hsplit
        obtain ⟨action, haction, hfree⟩ := (result_performItem_eq_ok hplain).mp hfirst
        exact ⟨action, haction, free_iff_clear.mp hfree⟩
      | cons head done =>
        obtain ⟨rfl, hrests⟩ := List.cons.inj hsplit
        obtain ⟨action, haction, hclear⟩ := (ih hnext).mp hrest done item rest hrests
        exact ⟨action, haction, by rwa [allWrites_cons, clear_append (hoccupied hfirst)]⟩
    · intro hall
      obtain ⟨action, haction, hclear⟩ := hall [] first items rfl
      have hfirst : (service.performItem first).result store = .ok () :=
        (result_performItem_eq_ok hplain).mpr ⟨action, haction, free_iff_clear.mpr hclear⟩
      refine result_bind_eq_ok.mpr ⟨(), hfirst, (ih hnext).mpr ?_⟩
      rintro done item rest rfl
      obtain ⟨action, haction, hclear⟩ := hall (first :: done) item rest rfl
      rw [allWrites_cons, clear_append (hoccupied hfirst)] at hclear
      exact ⟨action, haction, hclear⟩

end Presence

section Events

def eventsOf (service : Service) (item : ReplicationChange) : List MemoryEvent :=
  match service.action item with
  | .ok (.append event) => [event]
  | _ => []

def allEvents (service : Service) (items : List ReplicationChange) : List MemoryEvent := items.flatMap service.eventsOf

theorem log_of_mem_commits (hplain : Plain store) {after : ThingStore}
    (h : after ∈ (service.performItem item).commits store) :
    after.log = store.log.replayed service.codec service.now (service.eventsOf item) := by
  cases haction : service.action item with
  | error error =>
    rw [performItem, haction] at h
    cases h
  | ok action =>
    rw [performItem_of_action haction] at h
    cases action with
    | ignore => cases h
    | append event =>
      have hevents : service.eventsOf item = [event] := by simp only [eventsOf, haction]
      have hresult : (service.appendEvent event).result store =
        .ok (store.log.appendEvent service.codec service.now event).1 := rfl
      rw [perform, commits_bind_of_ok hresult, commits_pure] at h
      simp only [commits, appendEvent] at h
      rw [hevents]
      split_ifs at h
      · cases h
      · rw [List.mem_singleton.mp h]
        rfl
    | delete key =>
      have hevents : service.eventsOf item = [] := by simp only [eventsOf, haction]
      rw [commits, perform_delete_run service item hplain key] at h
      simp only [List.mem_cons, List.not_mem_nil, or_false] at h
      rw [hevents]
      rcases h with rfl | rfl <;> rfl
    | upsert key =>
      have hevents : service.eventsOf item = [] := by simp only [eventsOf, haction]
      rw [hevents]
      cases hconflicts : service.conflicts item key store with
      | true =>
        rw [commits, perform, applyUpsert_of_conflicts hconflicts (hplain.accepts _), List.mem_singleton] at h
        rw [h]
        rfl
      | false =>
        rw [commits, perform_upsert_run hplain hconflicts] at h
        simp only [List.mem_cons, List.not_mem_nil, or_false] at h
        rcases h with rfl | rfl | rfl <;> rfl

theorem log_performItem (hplain : Plain store) :
    ((service.performItem item).last store).log =
      store.log.replayed service.codec service.now (service.eventsOf item) := by
  cases hlast : ((service.performItem item).commits store).getLast? with
  | some after =>
    rw [StoreCall.last, List.getLastD_eq_getLast?, hlast]
    exact log_of_mem_commits hplain (List.mem_of_mem_getLast? hlast)
  | none =>
    have hnil := List.getLast?_eq_none_iff.mp hlast
    rw [last_of_commits_eq_nil hnil]
    cases haction : service.action item with
    | error error =>
      rw [eventsOf, haction]
      rfl
    | ok action =>
      cases action with
      | append event =>
        -- no commit: the event is there already
        have hevents : service.eventsOf item = [event] := by simp only [eventsOf, haction]
        have hresult : (service.appendEvent event).result store =
            .ok (store.log.appendEvent service.codec service.now event).1 := rfl
        rw [performItem_of_action haction, perform, commits_bind_of_ok hresult, commits_pure] at hnil
        rw [hevents]
        cases hfound : EventLog.existingEvent service.codec store.log.store store.log.counters event with
        | some existing => exact (appended_of_known (by simp [EventLog.Known, hfound])).symm
        | none => simp [commits, appendEvent, appendEvent_of_new hfound] at hnil
      | ignore =>
        rw [eventsOf, haction]
        rfl
      | delete key =>
        rw [eventsOf, haction]
        rfl
      | upsert key =>
        rw [eventsOf, haction]
        rfl

theorem log_applyEach (hplain : Plain store) (hok : (service.applyEach items).result store = .ok ()) :
    ((service.applyEach items).last store).log =
      store.log.replayed service.codec service.now (service.allEvents items) := by
  induction items generalizing store with
  | nil => rfl
  | cons item items ih =>
    obtain ⟨⟨⟩, hfirst, hrest⟩ := result_bind_eq_ok.mp hok
    have hnext : Plain ((service.performItem item).last store) := keeps_plain_performItem.last hplain
    rw [applyEach, last_bind_of_ok hfirst, ih hnext hrest, log_performItem hplain, ← EventLog.replayed_append]
    rfl

end Events

end Service

end Thingd.Replication
