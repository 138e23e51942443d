import Thingd.ThingDb.Flush

namespace Thingd.ThingDb

open Writes CommitRequest

theorem Keyspace.name_injective : Function.Injective Keyspace.name := by
  rintro ⟨name, _, _⟩ ⟨other, _, _⟩ h
  cases h
  rfl

theorem physicalKey_injective : Function.Injective (fun p : Keyspace × Bytes => physicalKey p.1 p.2) := by
  rintro ⟨a, k⟩ ⟨b, l⟩ h
  simp only [physicalKey, Keyspace.namespace, List.append_assoc, List.singleton_append] at h
  obtain ⟨hname, rfl⟩ := Bytes.append_nul_inj a.noNul b.noNul h
  rw [Keyspace.name_injective hname]

inductive SessionStep
  | commit (group : List Batch)
  | flush
  | compact
  | reopen (builder : DatabaseBuilder)

def SessionStep.action : SessionStep → Action
  | .commit group => .commit (group.map Batch.request)
  | .flush => .flush
  | .compact => .compact
  | .reopen builder => .reopen builder none

def SessionStep.batches : SessionStep → List Batch
  | .commit group => group
  | _ => []

def acknowledged (steps : List SessionStep) : List Batch := steps.flatMap SessionStep.batches

def BatchOperation.write (operation : BatchOperation) : (Keyspace × Bytes) × Option Bytes :=
  ((operation.keyspace, operation.key), operation.value)

section

variable (batches : List Batch)

def batchWrites : List ((Keyspace × Bytes) × Option Bytes) :=
  batches.flatMap fun batch => batch.operations.map BatchOperation.write

/-- What folding every acknowledged batch in commit order leaves at each key of each keyspace. -/
def committed : Keyspace × Bytes → Option Bytes := writeAll (fun _ => none) (batchWrites batches)

theorem writes_request :
    writes (batches.map Batch.request) =
      (batchWrites batches).map fun write => (physicalKey write.1.1 write.1.2, write.2) := by
  have hoperation (operation : BatchOperation) :
      operation.operation.write = (physicalKey operation.keyspace operation.key, operation.value) := by
    unfold BatchOperation.operation
    cases hvalue : operation.value with
    | none => rfl
    | some value => rfl
  induction batches with
  | nil => rfl
  | cons batch batches ih =>
    have hbatch : writesOf batch.request.operations =
        (batch.operations.map BatchOperation.write).map fun write => (physicalKey write.1.1 write.1.2, write.2) := by
      simp only [writesOf, Batch.request, List.map_map]
      refine List.map_congr_left fun operation _ => ?_
      exact hoperation operation
    simp only [writes, List.map_cons, List.flatMap_cons, writesOf_append, batchWrites,
      List.map_append] at ih ⊢
    rw [ih, hbatch]

theorem lastWrite_request (keyspace : Keyspace) (key : Bytes) :
    lastWrite (writes (batches.map Batch.request)) (physicalKey keyspace key) =
      lastWrite (batchWrites batches) (keyspace, key) := by
  rw [writes_request]
  exact lastWrite_map physicalKey_injective (batchWrites batches) (keyspace, key)

theorem batchWrites_append (later : List Batch) :
    batchWrites (batches ++ later) = batchWrites batches ++ batchWrites later := List.flatMap_append

theorem committed_append (later : List Batch) (keyspace : Keyspace) (key : Bytes) :
    committed (batches ++ later) (keyspace, key) =
      (lastWrite (batchWrites later) (keyspace, key)).getD (committed batches (keyspace, key)) := by
  rw [committed, batchWrites_append, writeAll_append, writeAll_apply]
  rfl

end

def frameWrites (frames : List Frame) : List (Bytes × Option Bytes) := writesOf (frames.flatMap Frame.operations)

theorem frameWrites_append (frames later : List Frame) :
    frameWrites (frames ++ later) = frameWrites frames ++ frameWrites later := by
  simp [frameWrites]

variable {frames : List Frame} {db : Database}

theorem applyAll_sorted {replayed : Replayed} (hsorted : frames.Pairwise fun f g => f.sequence < g.sequence)
    (hnew : ∀ frame ∈ frames, replayed.lastSequence < frame.sequence) :
    (replayed.applyAll frames).state = (frames.flatMap Frame.operations).foldl applyOperation replayed.state := by
  rw [applyAll_state, appliedFrames_sorted hsorted hnew]

structure LogOf (db : Database) (frames : List Frame) : Prop where
  consistent : Consistent db
  framed : Frames db.disk.wal frames
  sorted : frames.Pairwise fun f g => f.sequence < g.sequence
  newer : ∀ frame ∈ frames, db.inner.tableSequence < frame.sequence ∧ frame.sequence ≤ db.inner.sequence

theorem LogOf.reopens (h : LogOf db frames) (builder : DatabaseBuilder) :
    ∃ db', openLocked builder db.disk = .ok db' ∧ LogOf db' frames ∧
      db'.inner.tableLayers = db.inner.tableLayers ∧
      ∀ key, db'.inner.getDurableValue key =
        ((lastWrite (frameWrites frames) key).getD none).or (tableView db.inner.tableLayers key) := by
  obtain ⟨db', hopen, hconsistent, hframed, hlayers, htables, hsequence, hpending, hstate⟩ :=
    h.consistent.reopens h.framed builder
  have hstate' := hstate.trans (applyAll_sorted h.sorted fun frame hframe => (h.newer frame hframe).1)
  have hlast := Replayed.le_lastSequence ⟨db.inner.tableSequence, 0, 0, SortedMap.empty⟩ frames
  refine ⟨db', hopen, ⟨hconsistent, hframed, h.sorted, ?_⟩, hlayers, ?_⟩
  · intro frame hframe
    rw [htables, hsequence]
    exact ⟨(h.newer frame hframe).1, (hlast.2 frame hframe).trans (le_max_left _ _)⟩
  · intro key
    rw [getDurableValue_reopened hlayers hpending hstate', get_foldl_applyOperation, writeAll_apply]
    rfl

/-- The key has the committed value in the process, in the log over the tables, and after a reopen. -/
structure Tracked (db : Database) (frames : List Frame) (key : Bytes) (value : Option Bytes) : Prop where
  current : db.inner.getDurableValue key = value
  logged : (lastWrite (frameWrites frames) key).getD (tableView db.inner.tableLayers key) = value
  recovered : lastWrite (frameWrites frames) key = some none → tableView db.inner.tableLayers key = none

theorem Tracked.reopened {key : Bytes} {value : Option Bytes} (h : Tracked db frames key value) :
    ((lastWrite (frameWrites frames) key).getD none).or (tableView db.inner.tableLayers key) = value := by
  rw [← h.logged]
  cases hlast : lastWrite (frameWrites frames) key with
  | none => simp
  | some last =>
    cases last with
    | none => simpa using h.recovered hlast
    | some bytes => simp

def SessionStep.SafeAt (db : Database) (key : Bytes) : SessionStep → Prop
  | .commit group =>
    lastWrite (writes (group.map Batch.request)) key = some none →
      tableView db.inner.tableLayers key = none
  | .flush =>
    db.inner.pendingTable = SortedMap.empty ∨
      ∀ value, db.inner.pendingTable.get key = none → db.inner.state.get key = some value →
        tableView db.inner.tableLayers key = some value
  | .compact => True
  | .reopen _ => True

theorem commit_tracked {db' : Database} {group : List Batch} (h : LogOf db frames)
    (hroom : db.inner.sequence + (group.map Batch.request).length < u64Max)
    (hstep : db.commit (group.map Batch.request) = .ok db') :
    ∃ frames', LogOf db' frames' ∧ db'.inner.tableLayers = db.inner.tableLayers ∧
      frameWrites frames' = frameWrites frames ++ writes (group.map Batch.request) ∧
      db'.inner.getDurableValue =
        writeAll db.inner.getDurableValue (writes (group.map Batch.request)) := by
  obtain ⟨bytes, hbytes, rfl⟩ := Database.commit_ok hstep hroom
  obtain ⟨hlayers, -, htables, -⟩ := applyRequests_fields db.inner (group.map Batch.request)
  have hle := h.consistent.tableSequence_le
  refine ⟨frames ++ requestFrames (db.inner.sequence + 1) (group.map Batch.request), ?_, hlayers, ?_,
    Inner.getDurableValue_applyRequests db.inner _⟩
  · refine ⟨Database.commitGroup_consistent h.consistent hbytes hroom, h.framed.append hbytes, ?_, ?_⟩
    · refine List.pairwise_append.mpr ⟨h.sorted, requestFrames_sorted _ _, ?_⟩
      intro f hf g hg
      have hold := (h.newer f hf).2
      have hnew := mem_requestFrames hg
      omega
    · intro frame hframe
      change (applyRequests db.inner (group.map Batch.request)).tableSequence < frame.sequence ∧
        frame.sequence ≤ db.inner.sequence + 1 + (group.map Batch.request).length - 1
      rw [htables]
      rcases List.mem_append.mp hframe with hold | hnew
      · have := h.newer frame hold
        omega
      · have := mem_requestFrames hnew
        omega
  · rw [frameWrites_append, frameWrites, frameWrites, requestFrames_operations]
    rfl

end Thingd.ThingDb
