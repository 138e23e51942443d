import Thingd.Replication.Batch

namespace Thingd.Replication

open Engine StoreCall

structure Batch (sourceId : Bytes) (changes : List ReplicationChange) : Prop where
  source : ∀ item ∈ changes, item.sourceId = sourceId
  positive : ∀ item ∈ changes, 0 < item.cursor
  keyed : ∀ item ∈ changes, item.idempotencyKey ≠ []
  increasing : changes.Pairwise fun item later => item.cursor < later.cursor

def fresh (checkpoint : UInt64) (changes : List ReplicationChange) : List ReplicationChange :=
  changes.filter fun item => checkpoint < item.cursor

def topCursor (changes : List ReplicationChange) : UInt64 := changes.foldl (fun cursor item => max cursor item.cursor) 0

theorem le_topCursor {changes : List ReplicationChange} {item : ReplicationChange} (h : item ∈ changes) :
    item.cursor ≤ topCursor changes := by
  have hfold (start : UInt64) : ∀ changes : List ReplicationChange,
      start.toNat ≤ (changes.foldl (fun cursor item => max cursor item.cursor) start).toNat ∧
        ∀ item ∈ changes, item.cursor.toNat ≤
          (changes.foldl (fun cursor item => max cursor item.cursor) start).toNat := by
    intro changes
    induction changes generalizing start with
    | nil => exact ⟨le_rfl, List.forall_mem_nil _⟩
    | cons first changes ih =>
      obtain ⟨hstart, hrest⟩ := ih (max start first.cursor)
      rw [UInt64.toNat_max] at hstart
      refine ⟨le_trans (le_max_left _ _) hstart, List.forall_mem_cons.mpr ⟨?_, hrest⟩⟩
      exact le_trans (le_max_right _ _) hstart
  rw [UInt64.le_iff_toNat_le]
  exact (hfold 0 changes).2 item h

def RecordKeys (codec : StorageCodec) : Prop :=
  Set.Pairwise {replicationStateCollection, replicationProvenanceCollection, replicationTombstoneCollection,
    replicationQuarantineCollection} fun collection other =>
    ∀ id otherId, codec.makeObjectKey collection id ≠ codec.makeObjectKey other otherId

theorem recordKeys_rawCodec (parseString : Bytes → ThingdResult Bytes) : RecordKeys (rawCodec parseString) := by
  have hzero : ∀ collection ∈ [replicationStateCollection, replicationProvenanceCollection,
      replicationTombstoneCollection, replicationQuarantineCollection], (0 : Byte) ∉ collection := by decide +kernel
  intro collection hcollection other hother hne id otherId heq
  apply hne
  refine (Bytes.append_nul_inj ?_ ?_ heq).1
  · exact hzero collection (by simpa using hcollection)
  · exact hzero other (by simpa using hother)

namespace Service

variable {service : Service} {store : ThingStore} {item : ReplicationChange} {sourceId : Bytes}
  {items : List ReplicationChange} {progress : Progress} {checkpoint : UInt64}

abbrev checkpointKey (service : Service) (sourceId : Bytes) : Bytes :=
  service.codec.makeObjectKey replicationStateCollection (checkpointId sourceId)

section Places

theorem collection_of_targetKey {collection : Option Bytes} {key : ObjectKey}
    (h : targetKey item collection = .ok key) : collection = some key.collection := by
  cases collection with
  | none => cases h
  | some collection =>
    cases hid : Value.getStr item.change "id" with
    | none => simp [targetKey, hid] at h
    | some id =>
      simp only [targetKey, hid, Except.ok.injEq] at h
      rw [← h]

theorem isSystem_target {key : ObjectKey}
    (h : service.action item = .ok (.upsert key) ∨ service.action item = .ok (.delete key)) :
    isSystem key.collection = false := by
  have hallowed : Value.getStr item.change "collection" = some key.collection ∧
      ¬((Value.getStr item.change "collection").any fun collection => !service.config.allowed collection) = true := by
    cases hoperation : Value.getStr item.change "operation" with
    | none => simp [action, hoperation] at h
    | some operation =>
      simp only [action, hoperation] at h
      split_ifs at h with hallowed hupsert hdelete happend
      · simp at h
      all_goals refine ⟨?_, hallowed⟩
      iterate 2
        cases htarget : targetKey item (Value.getStr item.change "collection") with
        | error error => simp [htarget, Except.map] at h
        | ok target =>
          simp only [htarget, Except.map, Except.ok.injEq, Action.upsert.injEq, Action.delete.injEq, reduceCtorEq,
            or_false, false_or] at h
          exact h ▸ collection_of_targetKey htarget
      · cases hevent : service.replicatedEvent item with
        | error error => simp [hevent, Except.map] at h
        | ok event => simp [hevent, Except.map] at h
      · simp at h
  obtain ⟨hcollection, hany⟩ := hallowed
  rw [hcollection, Option.any_some, ReplicationConfig.allowed] at hany
  cases hsystem : isSystem key.collection with
  | false => rfl
  | true => simp [hsystem] at hany

theorem place_of_mem_allWrites {write : Bytes × Option MemoryObject} (h : write ∈ service.allWrites items) :
    (∃ key : ObjectKey, isSystem key.collection = false ∧ write.1 = service.keyOf key ∧
        ∀ written ∈ write.2, ∃ item ∈ items,
          service.action item = .ok (.upsert key) ∧ written = service.upserted item key) ∨
      ∃ collection id, (collection = replicationProvenanceCollection ∨ collection = replicationTombstoneCollection) ∧
        write.1 = service.codec.makeObjectKey collection id ∧ write.2.isSome = true := by
  obtain ⟨item, hitem, hwrite⟩ := List.mem_flatMap.mp h
  cases haction : service.action item with
  | error error => simp [writesOf, haction] at hwrite
  | ok action =>
    simp only [writesOf, haction] at hwrite
    cases action with
    | ignore => cases hwrite
    | append event => cases hwrite
    | upsert key =>
      rcases List.mem_cons.mp hwrite with rfl | hwrite
      · refine Or.inl ⟨key, isSystem_target (Or.inl haction), rfl, ?_⟩
        rintro written ⟨⟩
        exact ⟨item, hitem, haction, rfl⟩
      · rw [List.mem_singleton.mp hwrite]
        exact Or.inr ⟨_, _, Or.inl rfl, rfl, rfl⟩
    | delete key =>
      rcases List.mem_cons.mp hwrite with rfl | hwrite
      · refine Or.inl ⟨key, isSystem_target (Or.inr haction), rfl, ?_⟩
        rintro written ⟨⟩
      · rw [List.mem_singleton.mp hwrite]
        exact Or.inr ⟨_, _, Or.inr rfl, rfl, rfl⟩

theorem record_not_written (hsystem : SystemKeys service.codec) (hrecords : RecordKeys service.codec)
    {collection : Bytes}
    (hcollection : collection = replicationStateCollection ∨ collection = replicationQuarantineCollection)
    (id : Bytes) : ∀ write ∈ service.allWrites items, service.codec.makeObjectKey collection id ≠ write.1 := by
  intro write hwrite
  have hmember : collection ∈ ({replicationStateCollection, replicationProvenanceCollection,
      replicationTombstoneCollection, replicationQuarantineCollection} : Set Bytes) := by
    rcases hcollection with rfl | rfl <;> simp
  have hisSystem : isSystem collection = true := by
    rcases hcollection with rfl | rfl
    · exact isSystem_replicationStateCollection
    · exact isSystem_replicationQuarantineCollection
  have hdistinct : collection ≠ replicationProvenanceCollection ∧ collection ≠ replicationTombstoneCollection := by
    rcases hcollection with rfl | rfl <;> decide +kernel
  rcases place_of_mem_allWrites hwrite with ⟨key, hkey, hplace, -⟩ | ⟨other, otherId, rfl | rfl, hplace, -⟩
  · rw [hplace]
    exact (hsystem _ _ _ _ hkey hisSystem).symm
  · rw [hplace]
    exact hrecords hmember (by simp) hdistinct.1 id otherId
  · rw [hplace]
    exact hrecords hmember (by simp) hdistinct.2 id otherId

theorem state_ne_quarantine (hrecords : RecordKeys service.codec) (id : Bytes) (item : ReplicationChange) :
    service.codec.makeObjectKey replicationStateCollection id ≠ service.quarantineKey item := by
  have hne : replicationStateCollection ≠ replicationQuarantineCollection := by decide +kernel
  exact hrecords (by simp) (by simp) hne _ _

theorem keeps_checkpoint_applyEach (hsystem : SystemKeys service.codec) (hrecords : RecordKeys service.codec)
    (sourceId : Bytes) (value : Option MemoryObject) :
    StoreCall.Keeps (Stays (service.checkpointKey sourceId) value) (service.applyEach items) :=
  keeps_applyEach (record_not_written hsystem hrecords (Or.inl rfl) _) fun item _ => state_ne_quarantine hrecords _ item

theorem appliedCursor_performItem (hsystem : SystemKeys service.codec) (hrecords : RecordKeys service.codec)
    (sourceId : Bytes) :
    service.appliedCursor sourceId ((service.performItem item).last store) = service.appliedCursor sourceId store := by
  have hkeeps : StoreCall.Keeps (Stays (service.checkpointKey sourceId) (store.get (service.checkpointKey sourceId)))
      (service.applyEach [item]) := keeps_checkpoint_applyEach hsystem hrecords sourceId _
  rw [applyEach, applyEach, bind_pure_unit] at hkeeps
  have hsame : ((service.performItem item).last store).get (service.checkpointKey sourceId) =
      store.get (service.checkpointKey sourceId) := hkeeps.last rfl
  rw [appliedCursor, hsame]
  rfl

end Places

section Run

def visit (service : Service) (checkpoint : UInt64) (progress : Progress) (item : ReplicationChange) : Progress :=
  let begun := { progress with sourceId := some item.sourceId, checkpoint := checkpoint }
  if checkpoint < item.cursor then
    match service.action item with
    | .ok action => begun.after item action
    | .error _ => begun.advance item.cursor
  else begun.skip progress.result.lastAppliedCursor

theorem begun_eq (h : progress.checkpoint = 0 ∨ progress.checkpoint = checkpoint)
    (hcheckpoint : service.appliedCursor item.sourceId store = checkpoint) :
    service.begun item progress store = { progress with sourceId := some item.sourceId, checkpoint := checkpoint } := by
  rw [begun, hcheckpoint]
  rcases h with hzero | hsame
  · rw [hzero, if_pos rfl]
  · by_cases hzero : progress.checkpoint = 0
    · rw [if_pos hzero]
    · rw [if_neg hzero, hsame]

theorem visit_fields (service : Service) (checkpoint : UInt64) (progress : Progress) (item : ReplicationChange) :
    (service.visit checkpoint progress item).sourceId = some item.sourceId ∧
      (service.visit checkpoint progress item).checkpoint = checkpoint := by
  rw [visit]
  split_ifs
  · cases service.action item with
    | error error => exact ⟨rfl, rfl⟩
    | ok action => cases action <;> exact ⟨rfl, rfl⟩
  · exact ⟨rfl, rfl⟩

theorem applyItem_eq_visit (hsame : sameSource item progress = true) (hpositive : 0 < item.cursor)
    (hprogress : progress.checkpoint = 0 ∨ progress.checkpoint = checkpoint)
    (hcheckpoint : service.appliedCursor item.sourceId store = checkpoint) :
    service.applyItem item progress store = (do
      (if checkpoint < item.cursor then service.performItem item else pure ())
      pure (service.visit checkpoint progress item) : EngineCall Progress) store := by
  have hbegin := begun_eq hprogress hcheckpoint
  rw [applyItem_run hsame, hbegin]
  by_cases hnew : checkpoint < item.cursor
  · rw [if_neg fun hold => absurd hnew (UInt64.not_lt.mpr hold.2), if_pos hnew, applyNew_eq]
    cases haction : service.action item with
    | error error => simp [runAction, performItem, haction]
    | ok action => simp [runAction, performItem, visit, haction, hnew]
  · rw [if_pos ⟨hpositive, UInt64.not_lt.mp hnew⟩, if_neg hnew, visit, if_neg hnew]
    rfl

theorem applyItems_run (hsystem : SystemKeys service.codec) (hrecords : RecordKeys service.codec)
    (hsource : ∀ item ∈ items, item.sourceId = sourceId) (hpositive : ∀ item ∈ items, 0 < item.cursor)
    (hcheckpoint : service.appliedCursor sourceId store = checkpoint)
    (hprogress : progress.checkpoint = 0 ∨ progress.checkpoint = checkpoint)
    (hbegun : ∀ id ∈ progress.sourceId, id = sourceId) :
    service.applyItems items progress store =
      (do service.applyEach (fresh checkpoint items); pure (items.foldl (service.visit checkpoint) progress) :
        EngineCall Progress) store := by
  induction items generalizing store progress with
  | nil => rfl
  | cons item items ih =>
    obtain ⟨rfl, hsources⟩ := List.forall_mem_cons.mp hsource
    obtain ⟨hpos, hpositives⟩ := List.forall_mem_cons.mp hpositive
    have hsame : sameSource item progress = true := by
      cases hid : progress.sourceId with
      | none => simp [sameSource, hid]
      | some id => simpa [sameSource, hid] using hbegun id hid
    obtain ⟨hid, hsaved⟩ := visit_fields service checkpoint progress item
    have hrest (next : ThingStore) (hnext : service.appliedCursor item.sourceId next = checkpoint) :
        service.applyItems items (service.visit checkpoint progress item) next = (do
          service.applyEach (fresh checkpoint items)
          pure (items.foldl (service.visit checkpoint) (service.visit checkpoint progress item)) :
            EngineCall Progress) next := by
      apply ih hsources hpositives hnext (Or.inr hsaved)
      exact fun id hmem => (Option.some.inj (hid.symm.trans hmem)).symm
    rw [applyItems, bind_congr_call (applyItem_eq_visit hsame hpos hprogress hcheckpoint), bind_assoc]
    by_cases hnew : checkpoint < item.cursor
    · have hfresh : fresh checkpoint (item :: items) = item :: fresh checkpoint items := by simp [fresh, hnew]
      rw [hfresh, applyEach, bind_assoc, if_pos hnew]
      apply bind_congr_next
      intro done hdone
      rw [pure_bind]
      apply hrest
      rw [appliedCursor_performItem hsystem hrecords, hcheckpoint]
    · have hfresh : fresh checkpoint (item :: items) = fresh checkpoint items := by simp [fresh, hnew]
      rw [hfresh, if_neg hnew]
      exact hrest store hcheckpoint

theorem lastAppliedCursor_visit (progress : Progress) (item : ReplicationChange) :
    (service.visit checkpoint progress item).result.lastAppliedCursor =
      if checkpoint < item.cursor then max progress.result.lastAppliedCursor item.cursor
      else progress.result.lastAppliedCursor := by
  rw [visit]
  split_ifs
  · cases service.action item with
    | error error => rfl
    | ok action => cases action <;> rfl
  · rfl

theorem lastAppliedCursor_foldl_visit (progress : Progress) :
    (items.foldl (service.visit checkpoint) progress).result.lastAppliedCursor =
      (fresh checkpoint items).foldl (fun cursor item => max cursor item.cursor) progress.result.lastAppliedCursor := by
  induction items generalizing progress with
  | nil => rfl
  | cons item items ih =>
    rw [List.foldl_cons, ih, lastAppliedCursor_visit]
    by_cases hnew : checkpoint < item.cursor
    · simp [fresh, hnew]
    · simp [fresh, hnew]

theorem foldl_visit_fields {first : ReplicationChange} (hsource : ∀ item ∈ first :: items, item.sourceId = sourceId) :
    ((first :: items).foldl (service.visit checkpoint) progress).sourceId = some sourceId ∧
      ((first :: items).foldl (service.visit checkpoint) progress).checkpoint = checkpoint := by
  induction items generalizing first progress with
  | nil =>
    obtain ⟨hid, hsaved⟩ := visit_fields service checkpoint progress first
    rw [hsource first List.mem_cons_self] at hid
    exact ⟨hid, hsaved⟩
  | cons second items ih => exact ih (List.forall_mem_cons.mp hsource).2

structure Receives (service : Service) (sourceId : Bytes) (items : List ReplicationChange) : Prop where
  role : service.config.role = .replica
  system : SystemKeys service.codec
  records : RecordKeys service.codec
  batch : Batch sourceId items

def saveCursor (service : Service) (sourceId : Bytes) (changes : List ReplicationChange) : EngineCall Unit :=
  if changes.isEmpty then pure () else service.writeAppliedCursor sourceId (topCursor changes)

/-- `apply` is the changes past the checkpoint one after the other, and then the new checkpoint. -/
theorem apply_run (h : service.Receives sourceId items)
    (hcheckpoint : service.appliedCursor sourceId store = checkpoint) :
    service.apply items store = (do
      service.applyEach (fresh checkpoint items)
      service.saveCursor sourceId (fresh checkpoint items)
      pure (items.foldl (service.visit checkpoint) ⟨⟨0, 0, 0, 0⟩, none, 0⟩).result : EngineCall ReplicationApplyResult)
        store := by
  have hrun : service.applyItems items ⟨⟨0, 0, 0, 0⟩, none, 0⟩ store = _ :=
    applyItems_run h.system h.records h.batch.source h.batch.positive hcheckpoint (Or.inl rfl) nofun
  have hfinish : service.finishApply (items.foldl (service.visit checkpoint) ⟨⟨0, 0, 0, 0⟩, none, 0⟩) = (do
      service.saveCursor sourceId (fresh checkpoint items)
      pure (items.foldl (service.visit checkpoint) ⟨⟨0, 0, 0, 0⟩, none, 0⟩).result) := by
    cases items with
    | nil => rfl
    | cons first items =>
      obtain ⟨hid, hsaved⟩ := foldl_visit_fields h.batch.source
      rw [finishApply, hid, saveCursor]
      simp only [hsaved, lastAppliedCursor_foldl_visit]
      cases hfresh : fresh checkpoint (first :: items) with
      | nil => simp
      | cons item rest =>
        have hmem : item ∈ fresh checkpoint (first :: items) := hfresh ▸ List.mem_cons_self
        have hlt : checkpoint < topCursor (item :: rest) :=
          UInt64.lt_of_lt_of_le (by simpa using (List.mem_filter.mp hmem).2) (hfresh ▸ le_topCursor hmem)
        rw [topCursor] at hlt
        rw [if_pos hlt, List.isEmpty_cons]
        rfl
  rw [apply, if_neg (not_not.mpr h.role), bind_congr_call hrun, bind_assoc]
  simp only [pure_bind, hfinish]

end Run

section Keeps

variable {p : ThingStore → Prop}

theorem keeps_applyItem (h : StoreCall.Keeps p (service.performItem item)) :
    StoreCall.Keeps p (service.applyItem item progress) := by
  intro store hstore after hafter
  cases hsame : sameSource item progress with
  | false =>
    rw [applyItem_of_other hsame] at hafter
    cases hafter
  | true =>
    cases hnew : service.isNew item progress store with
    | false =>
      rw [commits, applyItem_of_old hsame hnew] at hafter
      cases hafter
    | true =>
      rw [commits, applyItem_of_new hsame hnew, applyNew_eq] at hafter
      cases haction : service.action item with
      | error error =>
        rw [haction] at hafter
        cases hafter
      | ok action =>
        rw [haction] at hafter
        rw [performItem_of_action haction] at h
        exact (h.bind fun _ => keeps_pure) store hstore after hafter

theorem keeps_applyItems (h : ∀ item ∈ items, StoreCall.Keeps p (service.performItem item)) (progress : Progress) :
    StoreCall.Keeps p (service.applyItems items progress) := by
  induction items generalizing progress with
  | nil => exact keeps_pure
  | cons item items ih =>
    obtain ⟨hfirst, hrest⟩ := List.forall_mem_cons.mp h
    exact (keeps_applyItem hfirst).bind fun progress => ih hrest progress

theorem keeps_apply (h : ∀ item ∈ items, StoreCall.Keeps p (service.performItem item))
    (hcheckpoint : ∀ sourceId cursor, StoreCall.Keeps p (service.writeAppliedCursor sourceId cursor)) :
    StoreCall.Keeps p (service.apply items) := by
  rw [apply]
  split_ifs
  · exact keeps_fail
  · apply (keeps_applyItems h _).bind
    intro progress
    rw [finishApply]
    cases progress.sourceId with
    | none => exact keeps_pure
    | some sourceId =>
      split_ifs
      · exact (hcheckpoint _ _).bind fun _ => keeps_pure
      · exact keeps_pure

end Keeps

section Outcome

def checkpointRecord (service : Service) (sourceId : Bytes) (changes : List ReplicationChange) : MemoryObject :=
  service.record replicationStateCollection (checkpointId sourceId) (checkpointBody sourceId (topCursor changes))

theorem saveCursor_run (hplain : Plain store) (sourceId : Bytes) :
    service.saveCursor sourceId items store =
      (if items.isEmpty then [] else [service.placed store (service.checkpointRecord sourceId items)], .ok ()) := by
  rw [saveCursor]
  split_ifs
  · rfl
  · exact putRecord_of_accepts (hplain.accepts _)

def batchWrites (service : Service) (sourceId : Bytes) (changes : List ReplicationChange) : Writes :=
  service.allWrites changes ++
    if changes.isEmpty then [] else [(service.checkpointKey sourceId, some (service.checkpointRecord sourceId changes))]

theorem verdict_saveCursor (hplain : Plain store) (place : Bytes) :
    Verdict (lastWrite (if items.isEmpty then [] else
        [(service.checkpointKey sourceId, some (service.checkpointRecord sourceId items))]) place)
      (store.get place) (((service.saveCursor sourceId items).last store).get place) := by
  rw [last, commits, saveCursor_run hplain]
  split_ifs
  · rfl
  · exact verdict_placed_record store _ _ _ place

theorem result_saveCursor (hplain : Plain store) : (service.saveCursor sourceId items).result store = .ok () :=
  congrArg Prod.snd (saveCursor_run hplain sourceId)

theorem log_saveCursor (hplain : Plain store) : ((service.saveCursor sourceId items).last store).log = store.log := by
  rw [last, commits, saveCursor_run hplain]
  split_ifs
  · rfl
  · rfl

section Apply

variable (h : service.Receives sourceId items) (hplain : Plain store)
  (hcheckpoint : service.appliedCursor sourceId store = checkpoint)
include h hplain hcheckpoint

theorem result_apply_isOk_iff :
    ((service.apply items).result store).isOk = true ↔
      (service.applyEach (fresh checkpoint items)).result store = .ok () := by
  rw [result, apply_run h hcheckpoint, ← result]
  cases hresult : (service.applyEach (fresh checkpoint items)).result store with
  | error error =>
    rw [result_bind_of_error hresult]
    simp [Except.toBool]
  | ok done =>
    rw [result_bind_of_ok hresult, result_bind_of_ok (result_saveCursor (keeps_plain_applyEach.last hplain))]
    simp [Except.toBool]

variable (hok : (service.applyEach (fresh checkpoint items)).result store = .ok ())
include hok

theorem last_apply :
    (service.apply items).last store = (service.saveCursor sourceId (fresh checkpoint items)).last
      ((service.applyEach (fresh checkpoint items)).last store) := by
  rw [last, commits, apply_run h hcheckpoint, ← commits, ← last,
    last_bind_of_ok hok, last_bind_of_ok (result_saveCursor (keeps_plain_applyEach.last hplain)),
    last_pure]

theorem verdict_apply (place : Bytes) :
    Verdict (lastWrite (service.batchWrites sourceId (fresh checkpoint items)) place) (store.get place)
      (((service.apply items).last store).get place) := by
  rw [last_apply h hplain hcheckpoint hok, batchWrites, lastWrite_append]
  exact (verdict_applyEach hplain hok place).trans (verdict_saveCursor (keeps_plain_applyEach.last hplain) place)

theorem log_apply :
    ((service.apply items).last store).log =
      store.log.replayed service.codec service.now (service.allEvents (fresh checkpoint items)) := by
  rw [last_apply h hplain hcheckpoint hok, log_saveCursor (keeps_plain_applyEach.last hplain), log_applyEach hplain hok]

theorem content_checkpoint (hfresh : fresh checkpoint items ≠ []) :
    (((service.apply items).last store).get (service.checkpointKey sourceId)).map content =
      some (content (service.checkpointRecord sourceId (fresh checkpoint items))) := by
  have hverdict := verdict_apply h hplain hcheckpoint hok (service.checkpointKey sourceId)
  rw [batchWrites, lastWrite_append, if_neg (by simpa using hfresh), lastWrite_singleton, if_pos rfl] at hverdict
  obtain ⟨stored, hstored, hlands⟩ := hverdict
  rw [hstored, Option.map_some, hlands.content]

end Apply

theorem appliedCursor_congr {other : ThingStore}
    (h : (store.get (service.checkpointKey sourceId)).map content =
      (other.get (service.checkpointKey sourceId)).map content) :
    service.appliedCursor sourceId store = service.appliedCursor sourceId other := by
  have hread (store : ThingStore) : service.appliedCursor sourceId store =
      ((((store.get (service.checkpointKey sourceId)).map content).bind fun content =>
        service.format.parse content.2.1).bind
        fun body => Value.getU64 body "lastAppliedCursor").getD 0 := by
    rw [Option.bind_map]
    rfl
  rw [hread, hread, h]

theorem appliedCursor_of_content (hformat : service.format.Keeps (checkpointBody sourceId (topCursor items)))
    (h : (store.get (service.checkpointKey sourceId)).map content =
      some (content (service.checkpointRecord sourceId items))) :
    service.appliedCursor sourceId store = topCursor items := by
  obtain ⟨stored, hstored, hcontent⟩ := Option.map_eq_some_iff.mp h
  have hbody : stored.body = service.format.print (checkpointBody sourceId (topCursor items)) :=
    congrArg (fun content => content.2.1) hcontent
  have hread : Value.getU64 (checkpointBody sourceId (topCursor items)) "lastAppliedCursor" =
    some (topCursor items) := by
    simp [Value.getU64, checkpointBody, jsonObject, Value.get, jsonU64, Value.asU64]
  rw [appliedCursor, hstored, Option.bind_some, hbody, hformat, Option.bind_some, hread, Option.getD_some]

theorem fresh_topCursor (h : fresh checkpoint items ≠ []) : fresh (topCursor (fresh checkpoint items)) items = [] := by
  obtain ⟨first, hfirst⟩ := List.exists_mem_of_ne_nil _ h
  have habove : checkpoint < topCursor (fresh checkpoint items) :=
    UInt64.lt_of_lt_of_le (by simpa using (List.mem_filter.mp hfirst).2) (le_topCursor hfirst)
  rw [fresh, List.filter_eq_nil_iff]
  intro item hitem hnew
  rw [decide_eq_true_eq] at hnew
  have hmem : item ∈ fresh checkpoint items :=
    List.mem_filter.mpr ⟨hitem, decide_eq_true (UInt64.lt_trans habove hnew)⟩
  exact absurd hnew (UInt64.not_lt.mpr (le_topCursor hmem))

theorem apply_of_fresh_eq_nil (h : service.Receives sourceId items)
    (hfresh : fresh (service.appliedCursor sourceId store) items = []) :
    ((service.apply items).result store).isOk = true ∧ (service.apply items).commits store = [] := by
  rw [result, commits, apply_run h rfl, hfresh]
  exact ⟨rfl, rfl⟩

theorem fresh_after_apply (h : service.Receives sourceId items)
    (hformat : ∀ sourceId cursor, service.format.Keeps (checkpointBody sourceId cursor)) (hplain : Plain store)
    (hcheckpoint : service.appliedCursor sourceId store = checkpoint)
    (hok : (service.applyEach (fresh checkpoint items)).result store = .ok ()) :
    fresh (service.appliedCursor sourceId ((service.apply items).last store)) items = [] := by
  by_cases hfresh : fresh checkpoint items = []
  · have hcommits := (apply_of_fresh_eq_nil h (hcheckpoint ▸ hfresh)).2
    rw [last_of_commits_eq_nil hcommits, hcheckpoint, hfresh]
  · rw [appliedCursor_of_content (hformat _ _) (content_checkpoint h hplain hcheckpoint hok hfresh)]
    exact fresh_topCursor hfresh

end Outcome

end Service

end Thingd.Replication
