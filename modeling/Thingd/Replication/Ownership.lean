import Thingd.Data.Trace
import Thingd.Replication.Apply

namespace Thingd.Replication

open Engine StoreCall StoreEngine

inductive Writer
  | here
  | source (id : Bytes)
  deriving DecidableEq

structure Replica where
  store : ThingStore
  owner : Bytes → Writer

variable {items : List ReplicationChange}

namespace Service

variable {service : Service} {item : ReplicationChange} {progress : Progress} {replica : Replica} {store : ThingStore}

def overwrites (service : Service) (item : ReplicationChange) (key : ObjectKey) (store : ThingStore) : Bool :=
  !service.conflicts item key store &&
    (store.objects.validateUniqueIndexes service.codec service.json (service.upserted item key)).isOk

def claim (service : Service) (item : ReplicationChange) (replica : Replica) : Bytes → Writer :=
  match service.action item with
  | .ok (.upsert key) =>
    if service.overwrites item key replica.store then
      Function.update replica.owner (service.keyOf key) (.source item.sourceId)
    else replica.owner
  | _ => replica.owner

structure Visit where
  item : ReplicationChange
  progress : Progress
  before : Replica

section

variable (service item progress replica)

def reached : Bool :=
  sameSource item progress && service.isNew item progress replica.store

def afterItem : Replica :=
  ⟨(service.applyItem item progress).last replica.store,
    if service.reached item progress replica then service.claim item replica else replica.owner⟩

end

def visits (service : Service) : List ReplicationChange → Progress → Replica → List Visit
  | [], _, _ => []
  | item :: items, progress, replica =>
    let here := if service.reached item progress
      replica then [⟨item, service.begun item progress replica.store, replica⟩] else []
    match (service.applyItem item progress).result replica.store with
    | .ok next => here ++ visits service items next (service.afterItem item progress replica)
    | .error _ => here

def ownersAfter (service : Service) : List ReplicationChange → Progress → Replica → Bytes → Writer
  | [], _, replica => replica.owner
  | item :: items, progress, replica =>
    match (service.applyItem item progress).result replica.store with
    | .ok next => ownersAfter service items next (service.afterItem item progress replica)
    | .error _ => (service.afterItem item progress replica).owner

section

variable (service)

def Foreign (visit : Visit) (key : ObjectKey) (object : MemoryObject) : Prop :=
  isSystem key.collection = false ∧ visit.before.store.get (service.keyOf key) = some object ∧
    visit.before.owner (service.keyOf key) ≠ .source visit.item.sourceId

def Aims (item : ReplicationChange) (key : ObjectKey) : Prop :=
  ∃ target, (service.action item = .ok (.upsert target) ∨ service.action item = .ok (.delete target)) ∧
    service.keyOf target = service.keyOf key

def Rejected (visit : Visit) : Prop :=
  ∃ after message record,
    service.applyNew visit.item visit.progress visit.before.store = ([after], .error (.conflict message)) ∧
      after.get (service.quarantineKey visit.item) = some record ∧
      visit.before.store.get (service.quarantineKey visit.item) ≠ some record

/-- A foreign object stays as it is while the change is worked on, and a change of it is rejected. -/
def Respects (visit : Visit) : Prop :=
  ∀ key object, service.Foreign visit key object →
    (∀ after ∈ (service.applyNew visit.item visit.progress).commits visit.before.store,
      after.get (service.keyOf key) = some object) ∧
    (service.Aims visit.item key → service.Rejected visit)

/-- A change of a foreign object is an upsert, the source has no provenance record for it, and the quarantine record can
be written. -/
def Guarded (visit : Visit) : Prop :=
  ∀ key object, service.Foreign visit key object → service.Aims visit.item key →
    ∃ target, service.action visit.item = .ok (.upsert target) ∧
      visit.before.store.get (service.keyOf (service.provenanceRecord visit.item target).key) = none ∧
      service.Accepts visit.before.store (service.quarantineRecord visit.item target)

end

variable {key : ObjectKey}

theorem keeps_applyNew {value : Option MemoryObject} (hsystem : SystemKeys service.codec)
    (hkey : isSystem key.collection = false) (h : ¬service.Aims item key) :
    Keeps (Stays (service.keyOf key) value) (service.applyNew item progress) := by
  rw [applyNew_eq]
  cases haction : service.action item with
  | error error => exact keeps_fail
  | ok action =>
    apply Keeps.bind
    · apply keeps_perform
      · intro write hwrite
        cases action with
        | ignore => cases hwrite
        | append event => cases hwrite
        | upsert target =>
          rcases List.mem_cons.mp hwrite with rfl | hwrite
          · exact fun heq => h ⟨target, Or.inl haction, heq.symm⟩
          · rw [List.mem_singleton.mp hwrite]
            exact hsystem _ _ _ _ hkey isSystem_replicationProvenanceCollection
        | delete target =>
          rcases List.mem_cons.mp hwrite with rfl | hwrite
          · exact fun heq => h ⟨target, Or.inr haction, heq.symm⟩
          · rw [List.mem_singleton.mp hwrite]
            exact hsystem _ _ _ _ hkey isSystem_replicationTombstoneCollection
      · exact hsystem _ _ _ _ hkey isSystem_replicationQuarantineCollection
    · exact fun _ => keeps_pure

section Visits

variable {visit : Visit} {action : Action} {error : ThingdError}

theorem applyNew_of_perform_error {commits : List ThingStore} (haction : service.action item = .ok action)
    (h : service.perform item action store = (commits, .error error)) :
    service.applyNew item progress store = (commits, .error error) := by
  rw [applyNew_eq, haction, runAction, bind_of_error (congrArg Prod.snd h), StoreCall.commits, h]

theorem commits_applyNew (haction : service.action item = .ok action) :
    (service.applyNew item progress).commits store = (service.perform item action).commits store := by
  rw [applyNew_eq, haction, runAction]
  cases hresult : (service.perform item action).result store with
  | ok done => rw [commits_bind_of_ok hresult, commits_pure, List.append_nil]
  | error error => rw [commits_bind_of_error hresult]

theorem conflicts_iff : service.conflicts item key store = true ↔
    (store.get (service.keyOf key)).isSome = true ∧
      store.get (service.keyOf (service.provenanceRecord item key).key) = none := by
  simp only [conflicts, Bool.and_eq_true, Option.isNone_iff_eq_none]
  rfl

theorem get_ne_stored (engine : StoreEngine) (store : ThingStore) (object : MemoryObject) :
    store.get (engine.keyOf object.key) ≠ some (engine.stored store object) := by
  intro heq
  have hversion : (engine.stored store object).version = (engine.stored store object).version + 1 := by
    conv_lhs => rw [stored, heq]
    rfl
  have hne : ∀ n : UInt64, n ≠ n + 1 := by
    intro n hn
    have hzero : (1 : UInt64) = 0 := (UInt64.left_eq_add).mp hn
    exact absurd hzero (by decide)
  exact hne _ hversion

theorem Guarded.respects (hsystem : SystemKeys service.codec) (h : service.Guarded visit) : service.Respects visit := by
  intro key object hforeign
  by_cases haims : service.Aims visit.item key
  · obtain ⟨target, haction, hprovenance, haccepts⟩ := h key object hforeign haims
    have hsame : service.keyOf target = service.keyOf key := by
      obtain ⟨other, hother | hother, hkey⟩ := haims
      · cases haction.symm.trans hother
        exact hkey
      · cases haction.symm.trans hother
    have hconflicts : service.conflicts visit.item target visit.before.store = true := by
      apply conflicts_iff.mpr
      rw [hsame, hforeign.2.1]
      exact ⟨rfl, hprovenance⟩
    have hrun : service.applyNew visit.item visit.progress visit.before.store = _ :=
      applyNew_of_perform_error haction (applyUpsert_of_conflicts hconflicts haccepts)
    constructor
    · intro after hafter
      rw [StoreCall.commits, hrun, List.mem_singleton] at hafter
      rw [hafter, placed_get, if_neg]
      · exact hforeign.2.1
      · exact hsystem _ _ _ _ hforeign.1 isSystem_replicationQuarantineCollection
    · intro _
      refine ⟨_, _, service.stored visit.before.store (service.quarantineRecord visit.item target), hrun, ?_, ?_⟩
      · exact placed_get.trans (if_pos rfl)
      · exact get_ne_stored service.toStoreEngine visit.before.store (service.quarantineRecord visit.item target)
  · constructor
    · exact keeps_applyNew hsystem hforeign.1 haims visit.before.store hforeign.2.1
    · exact fun h => absurd h haims

theorem conflicts_of_commits {target : ObjectKey} {after : ThingStore}
    (h : (service.applyUpsert item target.collection target.id).commits store = [after]) :
    service.conflicts item target store = true ∧ service.Accepts store (service.quarantineRecord item target) := by
  cases hconflicts : service.conflicts item target store with
  | false =>
    cases hvalid : store.objects.validateUniqueIndexes service.codec service.json (service.upserted item target) with
    | error error =>
      rw [StoreCall.commits, applyUpsert_of_error hconflicts hvalid] at h
      cases h
    | ok done =>
      rw [StoreCall.commits, applyUpsert_of_accepts hconflicts hvalid] at h
      cases (List.cons.inj h).2
  | true =>
    refine ⟨rfl, ?_⟩
    cases hvalid : store.objects.validateUniqueIndexes service.codec service.json
      (service.quarantineRecord item target) with
    | error error =>
      rw [StoreCall.commits, applyUpsert_of_conflicts_of_error hconflicts hvalid] at h
      cases h
    | ok done => exact hvalid

theorem Respects.guarded (h : service.Respects visit) : service.Guarded visit := by
  intro key object hforeign haims
  obtain ⟨hstays, hrejected⟩ := h key object hforeign
  obtain ⟨after, message, record, hrun, -, -⟩ := hrejected haims
  obtain ⟨target, haction | haction, hkey⟩ := haims
  · have hcommits := (commits_applyNew haction).symm.trans (congrArg Prod.fst hrun)
    obtain ⟨hconflicts, haccepts⟩ := conflicts_of_commits hcommits
    exact ⟨target, haction, (conflicts_iff.mp hconflicts).2, haccepts⟩
  · -- The first commit of a delete takes the object away.
    have hfirst : service.removed visit.before.store target ∈
        (service.applyNew visit.item visit.progress).commits visit.before.store := by
      rw [commits_applyNew haction, perform]
      exact List.mem_cons_self
    have hgone := hstays _ hfirst
    rw [removed_get, if_pos hkey.symm] at hgone
    cases hgone

theorem respects_iff (hsystem : SystemKeys service.codec) : service.Respects visit ↔ service.Guarded visit :=
  ⟨Respects.guarded, Guarded.respects hsystem⟩

theorem result_applyItems_of_visit (h : visit ∈ service.visits items progress replica)
    (herror : (service.applyNew visit.item visit.progress).result visit.before.store = .error error) :
    (service.applyItems items progress).result replica.store = .error error := by
  induction items generalizing progress replica with
  | nil => cases h
  | cons item items ih =>
    rw [applyItems]
    have hhere (hmem : visit ∈ if service.reached item progress replica then
        [(⟨item, service.begun item progress replica.store, replica⟩ : Visit)] else []) :
        (service.applyItem item progress).result replica.store = .error error := by
      split_ifs at hmem with hreached
      · rw [List.mem_singleton.mp hmem] at herror
        rw [reached, Bool.and_eq_true] at hreached
        rw [result, applyItem_of_new hreached.1 hreached.2]
        exact herror
      · cases hmem
    cases hresult : (service.applyItem item progress).result replica.store with
    | error failure =>
      simp only [visits, hresult] at h
      rw [result_bind_of_error hresult, ← hresult]
      exact hhere h
    | ok next =>
      simp only [visits, hresult, List.mem_append] at h
      rw [result_bind_of_ok hresult]
      rcases h with h | h
      · cases hresult.symm.trans (hhere h)
      · exact ih h

end Visits

end Service

inductive ReplicaOp
  | put (now : Bytes) (object : MemoryObject)
  | delete (key : ObjectKey)
  | apply (now : Bytes) (config : ReplicationConfig) (changes : List ReplicationChange)

section Runs

variable (codec : StorageCodec) (json : JsonReader) (format : JsonFormat)

def serviceOf (now : Bytes) (config : ReplicationConfig) : Service := ⟨⟨codec, json, format, now⟩, config⟩

def startProgress : Service.Progress := ⟨⟨0, 0, 0, 0⟩, none, 0⟩

def Service.applyVisits (service : Service) (changes : List ReplicationChange) (replica : Replica) :
    List Service.Visit :=
  if service.config.role = .replica then service.visits changes startProgress replica else []

def Replica.step (replica : Replica) : ReplicaOp → Replica
  | .put now object =>
    let put := putObject ⟨codec, json, format, now⟩ object
    ⟨put.last replica.store, if (put.result replica.store).isOk then
      Function.update replica.owner (codec.makeObjectKey object.key.collection object.key.id) .here else replica.owner⟩
  | .delete key => ⟨(deleteObject ⟨codec, json, format, []⟩ key.collection key.id).last replica.store, replica.owner⟩
  | .apply now config changes =>
    let service := serviceOf codec json format now config
    ⟨(service.apply changes).last replica.store,
      if config.role = .replica then service.ownersAfter changes startProgress replica else replica.owner⟩

/-- Replication leaves the objects of others alone: every change that is worked on respects them, and a change that
fails makes the call fail. -/
def ReplicaOp.Respects (replica : Replica) : ReplicaOp → Prop
  | .apply now config changes =>
    let service := serviceOf codec json format now config
    ∀ visit ∈ service.applyVisits changes replica, service.Respects visit ∧
      ∀ error, (service.applyNew visit.item visit.progress).result visit.before.store = .error error →
        (service.apply changes).result replica.store = .error error
  | _ => True

def ReplicaOp.Guarded (replica : Replica) : ReplicaOp → Prop
  | .apply now config changes =>
    let service := serviceOf codec json format now config
    ∀ visit ∈ service.applyVisits changes replica, service.Guarded visit
  | _ => True

variable {codec json format}

theorem ReplicaOp.respects_iff (hsystem : SystemKeys codec) (replica : Replica) (op : ReplicaOp) :
    op.Respects codec json format replica ↔ op.Guarded codec json format replica := by
  cases op with
  | put now object => exact Iff.rfl
  | delete key => exact Iff.rfl
  | apply now config changes =>
    apply forall_congr'
    intro visit
    apply forall_congr'
    intro hvisit
    rw [Service.respects_iff hsystem]
    apply and_iff_left
    intro error herror
    rw [Service.applyVisits] at hvisit
    split_ifs at hvisit with hrole
    · have hitems := Service.result_applyItems_of_visit hvisit herror
      rw [Service.apply, if_neg (not_not.mpr hrole)]
      exact result_bind_of_error hitems
    · cases hvisit

/-- In every run, replication leaves alone what it does not own exactly if each change that meets an object of another
writer is an upsert, finds no provenance record under its id, and can be quarantined. -/
theorem replication_respects_owners_iff (hsystem : SystemKeys codec) (replica : Replica) (ops : List ReplicaOp) :
    Trace.EveryStep (Replica.step codec json format) (ReplicaOp.Respects codec json format) replica ops ↔
      Trace.EveryStep (Replica.step codec json format) (ReplicaOp.Guarded codec json format) replica ops := by
  induction ops generalizing replica with
  | nil => exact Iff.rfl
  | cons op ops ih => exact and_congr (ReplicaOp.respects_iff hsystem replica op) (ih _)

end Runs

section Samples

def sampleJson : JsonReader := fun _ => .ok fun _ => none

def replicaConfig : ReplicationConfig := ⟨bytesOf "s", .replica, []⟩

def sampleReplica : Service := serviceOf (rawCodec .ok) sampleJson Json.tagged (bytesOf "2024") replicaConfig

def noteObject : MemoryObject := newObject (bytesOf "c") (bytesOf "1") (bytesOf "mine")

def noteKey : ObjectKey := ⟨bytesOf "c", bytesOf "1"⟩

def sourceChange (change : Value) : ReplicationChange := ⟨bytesOf "s", 1, cursorKey (bytesOf "s") 1, change⟩

def upsertNote : ReplicationChange := sourceChange (sampleReplica.upsertChange noteObject)

def deleteNote : ReplicationChange := sourceChange (Service.deleteChange (bytesOf "c") (bytesOf "1"))

def localReplica : Replica :=
  Replica.step (rawCodec .ok) sampleJson Json.tagged ⟨emptyStore, fun _ => .here⟩ (.put (bytesOf "2024") noteObject)

theorem mem_visits_singleton {service : Service} {item : ReplicationChange} {progress : Service.Progress}
    {replica : Replica} {visit : Service.Visit} (h : visit ∈ service.visits [item] progress replica) :
    visit.item = item ∧ visit.before = replica := by
  have hmem : visit ∈ (if service.reached item progress replica then
      [(⟨item, service.begun item progress replica.store, replica⟩ : Service.Visit)] else []) := by
    cases hresult : (service.applyItem item progress).result replica.store with
    | ok next => simpa [Service.visits, hresult] using h
    | error error => simpa [Service.visits, hresult] using h
  split_ifs at hmem
  · rw [List.mem_singleton.mp hmem]
    exact ⟨rfl, rfl⟩
  · cases hmem

theorem visit_of_reached {service : Service} {item : ReplicationChange} {progress : Service.Progress}
    {replica : Replica} (h : service.reached item progress replica = true) :
    ⟨item, service.begun item progress replica.store, replica⟩ ∈ service.visits (item :: items) progress replica := by
  cases hresult : (service.applyItem item progress).result replica.store with
  | ok next => simp [Service.visits, hresult, h]
  | error error => simp [Service.visits, hresult, h]

theorem upsert_of_local_object_is_quarantined :
    Trace.EveryStep (Replica.step (rawCodec .ok) sampleJson Json.tagged)
      (ReplicaOp.Respects (rawCodec .ok) sampleJson Json.tagged) ⟨emptyStore, fun _ => .here⟩
      [.put (bytesOf "2024") noteObject, .apply (bytesOf "2024") replicaConfig [upsertNote]] := by
  rw [replication_respects_owners_iff (systemKeys_rawCodec _)]
  refine ⟨trivial, ?_, trivial⟩
  intro visit hvisit key object _ _
  change visit ∈ sampleReplica.visits [upsertNote] startProgress localReplica at hvisit
  obtain ⟨hitem, hbefore⟩ := mem_visits_singleton hvisit
  refine ⟨noteKey, ?_, ?_, ?_⟩
  · rw [hitem]
    rfl
  · rw [hitem, hbefore]
    decide +kernel
  · rw [hbefore]
    rfl

/-- A delete is not checked: it removes the object that the replica has written itself. -/
theorem delete_removes_local_object :
    localReplica.owner (sampleReplica.keyOf noteKey) = .here ∧
      (localReplica.store.get (sampleReplica.keyOf noteKey)).map MemoryObject.body = some (bytesOf "mine") ∧
      ((sampleReplica.apply [deleteNote]).result localReplica.store).toOption = some ⟨1, 0, 0, 1⟩ ∧
      ((sampleReplica.apply [deleteNote]).last localReplica.store).get (sampleReplica.keyOf noteKey) = none ∧
      ¬(ReplicaOp.apply (bytesOf "2024") replicaConfig [deleteNote]).Respects (rawCodec .ok) sampleJson Json.tagged
        localReplica := by
  refine ⟨by decide +kernel, by decide +kernel, by decide +kernel, by decide +kernel, ?_⟩
  rw [ReplicaOp.respects_iff (systemKeys_rawCodec _)]
  intro hguarded
  have hreached : sampleReplica.reached deleteNote startProgress localReplica = true := by decide +kernel
  have hobject : (localReplica.store.get (sampleReplica.keyOf noteKey)).isSome = true := by decide +kernel
  obtain ⟨object, hobject⟩ := Option.isSome_iff_exists.mp hobject
  have haction : sampleReplica.action deleteNote = .ok (.delete noteKey) := rfl
  have hforeign : sampleReplica.Foreign ⟨deleteNote, sampleReplica.begun deleteNote startProgress localReplica.store,
      localReplica⟩ noteKey object := ⟨by decide +kernel, hobject, by decide +kernel⟩
  obtain ⟨target, hupsert, -⟩ := hguarded _ (visit_of_reached hreached) noteKey object hforeign
    ⟨noteKey, Or.inr haction, rfl⟩
  cases haction.symm.trans hupsert

end Samples

end Thingd.Replication
