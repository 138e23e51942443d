import Thingd.ThingDb.Recovery

namespace Thingd.ThingDb

open Writes Database

def Replays (wal : Bytes) (tableSequence : ℕ) (applied : List Frame) : Prop :=
  ∃ frames replayed, Frames wal frames ∧ appliedFrames tableSequence frames = applied ∧
    replayWal wal tableSequence SortedMap.empty = .ok replayed ∧ replayed.validOffset = wal.length ∧
    ∀ key, replayed.state.get key = (lastWrite (frameWrites applied) key).getD none

theorem replays_of_frames {wal : Bytes} {frames : List Frame} (h : Frames wal frames) (tableSequence : ℕ) :
    Replays wal tableSequence (appliedFrames tableSequence frames) := by
  refine ⟨frames, _, h, rfl, replayWal_frames h tableSequence SortedMap.empty, rfl, fun key => ?_⟩
  have hstate := applyAll_state ⟨tableSequence, 0, 0, SortedMap.empty⟩ frames
  rw [Replayed.stoppedAt, hstate, get_foldl_applyOperation, writeAll_apply]
  rfl

def acknowledgedBy (result : Result Unit) (acked group : List Frame) : List Frame :=
  match result with
  | .ok () => acked ++ group
  | .error _ => acked

def groupStep (run : Database × List Frame) (group : List CommitRequest × WalOutcome) : Database × List Frame :=
  let (result, db) := run.1.processGroup group.1 group.2
  (db, acknowledgedBy result run.2 (requestFrames (run.1.inner.sequence + 1) group.1))

def processGroups (db : Database) (groups : List (List CommitRequest × WalOutcome)) : Database × List Frame :=
  groups.foldl groupStep (db, [])

def WalOutcome.Restores : WalOutcome → Prop
  | .synced => True
  | .appendFails written => written = 0
  | .syncFails truncated => truncated = true

instance : DecidablePred WalOutcome.Restores
  | .synced => inferInstanceAs (Decidable True)
  | .appendFails written => inferInstanceAs (Decidable (written = 0))
  | .syncFails truncated => inferInstanceAs (Decidable (truncated = true))

def groupLength (db : Database) (requests : List CommitRequest) : ℕ :=
  match encodeGroup [] (saturatingAdd db.inner.sequence 1) requests with
  | .ok (buffer, _) => buffer.length
  | .error _ => 0

def GroupFits (db : Database) (requests : List CommitRequest) : Prop :=
  db.inner.sequence + requests.length < u64Max ∧ db.disk.wal.length + groupLength db requests ≤ u64Max

instance (db : Database) (requests : List CommitRequest) : Decidable (GroupFits db requests) :=
  inferInstanceAs (Decidable (_ ∧ _))

def GroupsRestore (db : Database) : List (List CommitRequest × WalOutcome) → Prop
  | [] => True
  | (requests, outcome) :: groups =>
    (outcome.Restores ∧ GroupFits db requests) ∧ GroupsRestore (db.processGroup requests outcome).2 groups

instance decidableGroupsRestore : (db : Database) → (groups : List (List CommitRequest × WalOutcome)) →
    Decidable (GroupsRestore db groups)
  | _, [] => inferInstanceAs (Decidable True)
  | db, (requests, outcome) :: groups =>
    have := decidableGroupsRestore (db.processGroup requests outcome).2 groups
    inferInstanceAs (Decidable ((_ ∧ _) ∧ GroupsRestore _ groups))

/-- The frames acknowledged in this process: those a flush moved to the tables, then those still pending. -/
structure Stored (inner : Inner) (stored live : List Frame) : Prop where
  live_newer : ∀ frame ∈ live, inner.tableSequence < frame.sequence
  stored_le : ∀ frame ∈ stored, frame.sequence ≤ inner.tableSequence
  pending : ∀ key, inner.pendingTable.get key = lastWrite (frameWrites live) key
  tables : ∀ key value, lastWrite (frameWrites stored) key = some value → tableView inner.tableLayers key = value
  current : ∀ key value, lastWrite (frameWrites (stored ++ live)) key = some value →
    inner.getDurableValue key = value

structure Acknowledges (db : Database) (recovered acked : List Frame) : Prop where
  framed : ∃ frames, Frames db.disk.wal frames ∧ (∀ frame ∈ frames, frame.sequence ≤ db.inner.sequence) ∧
    appliedFrames db.inner.tableSequence frames =
      (recovered ++ acked).filter fun frame => db.inner.tableSequence < frame.sequence
  acked_le : ∀ frame ∈ recovered ++ acked, frame.sequence ≤ db.inner.sequence
  tableSequence_le : db.inner.tableSequence ≤ db.inner.sequence
  journal : db.inner.journalBytes = db.disk.wal.length
  stored : ∃ stored live, acked = stored ++ live ∧ Stored db.inner stored live

variable {inner : Inner} {stored live : List Frame}

theorem Stored.filter (h : Stored inner stored live) :
    (stored ++ live).filter (fun frame => inner.tableSequence < frame.sequence) = live := by
  have hstored : stored.filter (fun frame => inner.tableSequence < frame.sequence) = [] := by
    apply List.filter_eq_nil_iff.mpr
    intro frame hframe
    simpa using h.stored_le frame hframe
  have hlive : live.filter (fun frame => inner.tableSequence < frame.sequence) = live := by
    apply List.filter_eq_self.mpr
    intro frame hframe
    simpa using h.live_newer frame hframe
  rw [List.filter_append, hstored, hlive, List.nil_append]

variable {acked : List Frame}

theorem Stored.emptied (hle : ∀ frame ∈ acked, frame.sequence ≤ inner.tableSequence)
    (hpending : inner.pendingTable = SortedMap.empty) (hstate : inner.state = SortedMap.empty)
    (hcurrent : ∀ key value, lastWrite (frameWrites acked) key = some value → inner.getDurableValue key = value) :
    Stored inner acked [] where
  live_newer := by simp
  stored_le := hle
  pending := by intro key; rw [hpending]; rfl
  tables := by
    intro key value hlast
    rw [← hcurrent key value hlast, getDurableValue_reopened rfl hpending hstate]
    rfl
  current := by rwa [List.append_nil]

variable {db : Database}

theorem Stored.flushed_current (h : Stored db.inner stored live) {key : Bytes} {value : Option Bytes}
    (hlast : lastWrite (frameWrites (stored ++ live)) key = some value) :
    db.flushed.inner.getDurableValue key = value := by
  rw [getDurableValue_flushed, h.pending]
  rw [frameWrites_append, lastWrite_append] at hlast
  cases hlive : lastWrite (frameWrites live) key with
  | some last =>
    rw [hlive] at hlast
    exact Option.some.inj hlast
  | none =>
    rw [hlive] at hlast
    exact h.tables key value hlast

variable {requests : List CommitRequest}

theorem Stored.commit {group : List Frame} (h : Stored inner stored live)
    (hwrites : frameWrites group = CommitRequest.writes requests)
    (hnewer : ∀ frame ∈ group, inner.tableSequence < frame.sequence) :
    Stored (applyRequests inner requests) stored (live ++ group) := by
  obtain ⟨hlayers, -, htables, -⟩ := applyRequests_fields inner requests
  exact {
    live_newer := by
      intro frame hframe
      rw [htables]
      rcases List.mem_append.mp hframe with hlive | hgroup
      · exact h.live_newer frame hlive
      · exact hnewer frame hgroup
    stored_le := by rw [htables]; exact h.stored_le
    pending := by
      intro key
      rw [get_pendingTable_applyRequests, frameWrites_append, lastWrite_append, hwrites, h.pending]
    tables := by rw [hlayers]; exact h.tables
    current := by
      intro key value hlast
      rw [← List.append_assoc, frameWrites_append, lastWrite_append, hwrites] at hlast
      rw [Inner.getDurableValue_applyRequests, writeAll_apply]
      cases hrequests : lastWrite (CommitRequest.writes requests) key with
      | some last =>
        rw [hrequests] at hlast
        exact Option.some.inj hlast
      | none =>
        rw [hrequests] at hlast
        exact h.current key value hlast }

variable {recovered : List Frame} {db' : Database} {outcome : WalOutcome}
  {groups : List (List CommitRequest × WalOutcome)}

section

variable (h : Acknowledges db recovered acked)
include h

theorem Acknowledges.truncate (hwal : db'.disk.wal = []) (hsequence : db'.inner.sequence = db.inner.sequence)
    (htables : db'.inner.tableSequence = db.inner.sequence) (hjournal : db'.inner.journalBytes = 0)
    (hpending : db'.inner.pendingTable = SortedMap.empty) (hstate : db'.inner.state = SortedMap.empty)
    (hcurrent : ∀ key value, lastWrite (frameWrites acked) key = some value → db'.inner.getDurableValue key = value) :
    Acknowledges db' recovered acked where
  framed := by
    refine ⟨[], hwal ▸ Frames.nil, by simp, ?_⟩
    rw [htables]
    symm
    apply List.filter_eq_nil_iff.mpr
    intro frame hframe
    simpa using h.acked_le frame hframe
  acked_le := by rw [hsequence]; exact h.acked_le
  tableSequence_le := by rw [htables, hsequence]
  journal := by rw [hjournal, hwal]; rfl
  stored := by
    refine ⟨acked, [], by simp, Stored.emptied ?_ hpending hstate hcurrent⟩
    intro frame hframe
    rw [htables]
    exact h.acked_le frame (List.mem_append_right _ hframe)

theorem Acknowledges.requireRecovery : Acknowledges db.requireRecovery recovered acked := by
  obtain ⟨stored, live, hacked, hstored⟩ := h.stored
  exact ⟨h.framed, h.acked_le, h.tableSequence_le, h.journal, stored, live, hacked, hstored.live_newer,
    hstored.stored_le, hstored.pending, hstored.tables, hstored.current⟩

theorem Acknowledges.flush : Acknowledges (db.flushTableLocked none).2 recovered acked := by
  rw [flushTableLocked_none]
  split_ifs
  · exact h
  · exact h
  · obtain ⟨stored, live, rfl, hstored⟩ := h.stored
    exact h.truncate rfl rfl rfl rfl rfl rfl fun key value => hstored.flushed_current

theorem Acknowledges.compact : Acknowledges (db.compactTablesLocked none).2 recovered acked := by
  rw [compactTablesLocked_none]
  split_ifs
  · exact h
  · obtain ⟨stored, live, rfl, hstored⟩ := h.stored
    refine h.truncate rfl rfl rfl rfl rfl rfl ?_
    intro key value hlast
    rw [getDurableValue_compacted]
    exact hstored.current key value hlast

end

theorem flushTableLocked_succeeds (h : db.inner.recoveryRequired = false) :
    ∃ db', db.flushTableLocked none = (.ok (), db') ∧ db'.inner.recoveryRequired = false := by
  rw [flushTableLocked_none, if_neg (by simp [h])]
  split_ifs
  · exact ⟨db, rfl, h⟩
  · exact ⟨db.flushed, rfl, h⟩

theorem compactIfFull_succeeds (h : db.inner.recoveryRequired = false) : ∃ db', db.compactIfFull = (.ok (), db') := by
  unfold compactIfFull
  split_ifs
  · rw [compactTablesLocked_none, if_neg (by simp [h])]
    exact ⟨db.compacted, rfl⟩
  · exact ⟨db, rfl⟩

section

variable (h : Acknowledges db recovered acked)
include h

theorem Acknowledges.maintain (hrunning : db.inner.recoveryRequired = false) :
    ∃ db', db.maintain = (.ok (), db') ∧ Acknowledges db' recovered acked := by
  unfold Database.maintain
  split_ifs
  · obtain ⟨flushed, hflush, hflushed⟩ := flushTableLocked_succeeds hrunning
    obtain ⟨db', hcompact⟩ := compactIfFull_succeeds hflushed
    have hacked := h.flush
    rw [hflush] at hacked ⊢
    refine ⟨db', hcompact, ?_⟩
    unfold compactIfFull at hcompact
    split_ifs at hcompact
    · have hcompacted := hacked.compact
      rwa [hcompact] at hcompacted
    · cases hcompact
      exact hacked
  · exact ⟨db, rfl, h⟩

theorem Acknowledges.commitGroup {group : Bytes}
    (hgroup : Frames group (requestFrames (db.inner.sequence + 1) requests))
    (hlength : db.disk.wal.length + group.length ≤ u64Max) :
    Acknowledges (db.commitGroup requests group (db.inner.sequence + 1 + requests.length)) recovered
      (acked ++ requestFrames (db.inner.sequence + 1) requests) := by
  obtain ⟨frames, hframes, hbound, happlied⟩ := h.framed
  obtain ⟨-, -, htables, -⟩ := applyRequests_fields db.inner requests
  have hle := h.tableSequence_le
  have hnext : (db.commitGroup requests group (db.inner.sequence + 1 + requests.length)).inner.sequence =
      db.inner.sequence + requests.length := by
    change db.inner.sequence + 1 + requests.length - 1 = _
    omega
  have hnew : ∀ frame ∈ requestFrames (db.inner.sequence + 1) requests,
      db.inner.sequence < frame.sequence ∧ frame.sequence ≤ db.inner.sequence + requests.length := by
    intro frame hframe
    have := mem_requestFrames hframe
    omega
  have hmem {old : List Frame} (hold : ∀ frame ∈ old, frame.sequence ≤ db.inner.sequence) :
      ∀ frame ∈ old ++ requestFrames (db.inner.sequence + 1) requests,
        frame.sequence ≤ db.inner.sequence + requests.length := by
    intro frame hframe
    rcases List.mem_append.mp hframe with hold' | hadded
    · exact (hold frame hold').trans (Nat.le_add_right _ _)
    · exact (hnew frame hadded).2
  exact {
    framed := by
      refine ⟨frames ++ requestFrames (db.inner.sequence + 1) requests, hframes.append hgroup, ?_, ?_⟩
      · rw [hnext]
        exact hmem hbound
      · change appliedFrames (applyRequests db.inner requests).tableSequence _ =
          List.filter (fun frame => (applyRequests db.inner requests).tableSequence < frame.sequence) _
        have hsplit := appliedFrames_append ⟨db.inner.tableSequence, 0, 0, SortedMap.empty⟩ frames
          (requestFrames (db.inner.sequence + 1) requests)
        have hlast : (Replayed.applyAll ⟨db.inner.tableSequence, 0, 0, SortedMap.empty⟩ frames).lastSequence ≤
            db.inner.sequence := Replayed.lastSequence_le hle hbound
        rw [appliedFrames_sorted (requestFrames_sorted _ _)
          fun frame hframe => hlast.trans_lt (hnew frame hframe).1] at hsplit
        have hkept : (requestFrames (db.inner.sequence + 1) requests).filter
            (fun frame => db.inner.tableSequence < frame.sequence) =
              requestFrames (db.inner.sequence + 1) requests := by
          apply List.filter_eq_self.mpr
          intro frame hframe
          simpa using hle.trans_lt (hnew frame hframe).1
        rw [htables, ← List.append_assoc, List.filter_append, hkept, ← happlied]
        exact hsplit
    acked_le := by
      rw [hnext, ← List.append_assoc]
      exact hmem h.acked_le
    tableSequence_le := by
      rw [hnext]
      change (applyRequests db.inner requests).tableSequence ≤ _
      omega
    journal := by
      change saturatingAdd db.inner.journalBytes group.length = (db.disk.wal ++ group).length
      rw [h.journal, saturatingAdd_of_le hlength, List.length_append]
    stored := by
      obtain ⟨stored, live, rfl, hstored⟩ := h.stored
      have hwrites : frameWrites (requestFrames (db.inner.sequence + 1) requests) = CommitRequest.writes requests := by
        rw [frameWrites, requestFrames_operations]
        rfl
      have hcommit := hstored.commit hwrites fun frame hframe => hle.trans_lt (hnew frame hframe).1
      exact ⟨stored, _, List.append_assoc _ _ _, hcommit.live_newer, hcommit.stored_le, hcommit.pending,
        hcommit.tables, hcommit.current⟩ }

theorem Acknowledges.executeGroup (hrunning : db.inner.recoveryRequired = false) (hrestores : outcome.Restores)
    (hfits : GroupFits db requests) :
    Acknowledges (db.executeGroup requests outcome).2 recovered
      (acknowledgedBy (db.executeGroup requests outcome).1.1 acked
        (requestFrames (db.inner.sequence + 1) requests)) := by
  obtain ⟨hroom, hlength⟩ := hfits
  unfold Database.executeGroup
  cases hencode : encodeGroup [] (saturatingAdd db.inner.sequence 1) requests with
  | error message => exact h
  | ok encoded =>
    obtain ⟨buffer, nextSequence⟩ := encoded
    have hbuffer : db.disk.wal.length + buffer.length ≤ u64Max := by
      rwa [groupLength, hencode] at hlength
    cases outcome with
    | appendFails written =>
      have hwal : db.disk.wal ++ buffer.take (min written (buffer.length - 1)) = db.disk.wal := by
        rw [show written = 0 from hrestores]
        simp
      dsimp only
      rw [hwal]
      exact h
    | syncFails truncated =>
      have htruncated : truncated = true := hrestores
      subst htruncated
      have hwal : setLen (db.disk.wal ++ buffer) db.inner.journalBytes = db.disk.wal := by
        rw [h.journal, setLen]
        simp
      dsimp only
      rw [hwal]
      exact h
    | synced =>
      rw [saturatingAdd_of_le (by omega)] at hencode
      obtain ⟨rfl, group, hgroup, hframes⟩ := encodeGroup_ok hencode (by omega)
      rw [List.nil_append] at hgroup
      subst hgroup
      obtain ⟨-, -, -, hrecovery⟩ := applyRequests_fields db.inner requests
      obtain ⟨db', hmaintain, hacked⟩ := (h.commitGroup hframes hbuffer).maintain (hrecovery.trans hrunning)
      dsimp only
      rw [hmaintain]
      exact hacked

end

theorem GroupFits.of_admitted {admitted : Database} (h : GroupFits db requests)
    (hsequence : admitted.inner.sequence = db.inner.sequence) (hwal : admitted.disk.wal.length ≤ db.disk.wal.length) :
    GroupFits admitted requests := by
  obtain ⟨hroom, hlength⟩ := h
  have hgroup : groupLength admitted requests = groupLength db requests := by
    unfold groupLength
    rw [hsequence]
  exact ⟨by omega, by omega⟩

theorem Acknowledges.processGroup (h : Acknowledges db recovered acked) (hrestores : outcome.Restores)
    (hfits : GroupFits db requests) :
    Acknowledges (db.processGroup requests outcome).2 recovered
      (acknowledgedBy (db.processGroup requests outcome).1 acked
        (requestFrames (db.inner.sequence + 1) requests)) := by
  unfold Database.processGroup
  split_ifs with hrecovery
  · exact h
  have hrunning : db.inner.recoveryRequired = false := by simpa using hrecovery
  have hadmitted : ∃ admitted, db.admitGroup = (.ok (), admitted) ∧ Acknowledges admitted recovered acked ∧
      admitted.inner.recoveryRequired = false ∧ admitted.inner.sequence = db.inner.sequence ∧
      admitted.disk.wal.length ≤ db.disk.wal.length := by
    unfold admitGroup
    split_ifs
    · obtain ⟨flushed, hflush, hflushed⟩ := flushTableLocked_succeeds hrunning
      have hacked := h.flush
      rw [hflush] at hacked
      refine ⟨flushed, hflush, hacked, hflushed, ?_⟩
      obtain ⟨-, ⟨-, rfl⟩ | ⟨-, rfl⟩⟩ := flushTableLocked_ok hflush
      · exact ⟨rfl, le_rfl⟩
      · exact ⟨rfl, Nat.zero_le _⟩
    · exact ⟨db, rfl, h, hrunning, rfl, le_rfl⟩
  obtain ⟨admitted, hadmission, hacked, hadmittedRunning, hsequence, hwal⟩ := hadmitted
  have hexecuted := hacked.executeGroup hadmittedRunning hrestores (hfits.of_admitted hsequence hwal)
  rw [hadmission]
  dsimp only
  rw [hsequence] at hexecuted
  generalize admitted.executeGroup requests outcome = executed at hexecuted ⊢
  obtain ⟨⟨result, synced⟩, db'⟩ := executed
  cases result with
  | ok u => exact hexecuted
  | error message =>
    cases synced with
    | false => exact hexecuted
    | true => exact hexecuted.requireRecovery

theorem openLocked_acknowledges {builder : DatabaseBuilder} {disk : Disk} (hopen : openLocked builder disk = .ok db) :
    ∃ recovered, (∀ frame ∈ recovered, db.inner.tableSequence < frame.sequence) ∧ Acknowledges db recovered [] := by
  obtain ⟨manifest, hmanifest, hopen⟩ := result_bind_ok.mp hopen
  obtain ⟨layers, hlayers, hopen⟩ := result_bind_ok.mp hopen
  obtain ⟨replayed, hreplay, hopen⟩ := result_bind_ok.mp hopen
  cases hopen
  obtain ⟨wal, frames, tail, hwal, hframes, rfl⟩ := replayWal_ok hreplay
  have htake : disk.wal.take wal.length = wal := by rw [hwal]; simp
  have happlied := appliedFrames_newer manifest.tableSequence frames
  have hlast := Replayed.le_lastSequence ⟨manifest.tableSequence, 0, 0, SortedMap.empty⟩ frames
  have hle : ∀ frame ∈ frames, frame.sequence ≤
      max (Replayed.applyAll ⟨manifest.tableSequence, 0, 0, SortedMap.empty⟩ frames).lastSequence
        manifest.tableSequence := fun frame hframe => (hlast.2 frame hframe).trans (le_max_left _ _)
  refine ⟨appliedFrames manifest.tableSequence frames, fun frame hframe => (happlied frame hframe).2, ?_⟩
  exact {
    framed := by
      refine ⟨frames, ?_, hle, ?_⟩
      · change Frames (disk.wal.take wal.length) frames
        rw [htake]
        exact hframes
      · rw [List.append_nil]
        symm
        apply List.filter_eq_self.mpr
        intro frame hframe
        exact decide_eq_true (happlied frame hframe).2
    acked_le := by
      intro frame hframe
      rw [List.append_nil] at hframe
      exact hle frame (happlied frame hframe).1
    tableSequence_le := le_max_right _ _
    journal := rfl
    stored := ⟨[], [], rfl, by simp, by simp, fun _ => rfl, by simp [frameWrites, writesOf],
      by simp [frameWrites, writesOf]⟩ }

theorem Acknowledges.foldl {run : Database × List Frame} (h : Acknowledges run.1 recovered run.2)
    (hgroups : GroupsRestore run.1 groups) :
    Acknowledges (groups.foldl groupStep run).1 recovered (groups.foldl groupStep run).2 := by
  induction groups generalizing run with
  | nil => exact h
  | cons group groups ih =>
    obtain ⟨⟨hrestores, hfits⟩, hrest⟩ := hgroups
    rw [List.foldl_cons]
    exact ih (h.processGroup hrestores hfits) hrest

/-- When every failed group leaves the log as it was, a replay after any number of groups applies the recovered
frames and the acknowledged ones, in order and no others; those it skips are in the tables, which read them. -/
theorem acknowledged_groups_survive_failures {builder : DatabaseBuilder} {disk : Disk} {db : Database}
    (hopen : openLocked builder disk = .ok db) :
    ∃ recovered, Replays db.disk.wal db.inner.tableSequence recovered ∧
      ∀ groups db' acked, GroupsRestore db groups → processGroups db groups = (db', acked) →
        (∀ key value, lastWrite (frameWrites acked) key = some value → db'.inner.getDurableValue key = value) ∧
        ∃ stored live, acked = stored ++ live ∧
          Replays db'.disk.wal db'.inner.tableSequence
            (recovered.filter (fun frame => db'.inner.tableSequence < frame.sequence) ++ live) ∧
          ∀ key value, lastWrite (frameWrites stored) key = some value →
            tableView db'.inner.tableLayers key = value := by
  obtain ⟨recovered, hnewer, hstart⟩ := openLocked_acknowledges hopen
  refine ⟨recovered, ?_, ?_⟩
  · obtain ⟨frames, hframes, -, happlied⟩ := hstart.framed
    have hall : recovered.filter (fun frame => db.inner.tableSequence < frame.sequence) = recovered := by
      apply List.filter_eq_self.mpr
      intro frame hframe
      simpa using hnewer frame hframe
    rw [List.append_nil, hall] at happlied
    rw [← happlied]
    exact replays_of_frames hframes _
  · intro groups db' acked hgroups hprocess
    have hrun := @Acknowledges.foldl recovered groups (db, []) hstart hgroups
    rw [← processGroups, hprocess] at hrun
    obtain ⟨frames, hframes, -, happlied⟩ := hrun.framed
    obtain ⟨stored, live, rfl, hstored⟩ := hrun.stored
    rw [List.filter_append, hstored.filter] at happlied
    refine ⟨hstored.current, stored, live, rfl, ?_, hstored.tables⟩
    rw [← happlied]
    exact replays_of_frames hframes _

def sampleProcess (groups : List (List CommitRequest × WalOutcome)) : Option (Database × Database × List Frame) :=
  (openLocked sampleBuilder Disk.empty).toOption.map fun db => (db, processGroups db groups)

theorem sampleProcess_eq (h : sampleProcess groups = some (db, db', acked)) :
    openLocked sampleBuilder Disk.empty = .ok db ∧ processGroups db groups = (db', acked) := by
  unfold sampleProcess at h
  cases hopen : openLocked sampleBuilder Disk.empty with
  | error message => rw [hopen] at h; cases h
  | ok opened =>
    rw [hopen] at h
    obtain ⟨rfl, hprocess⟩ := Prod.mk.inj (Option.some.inj h)
    exact ⟨rfl, hprocess⟩

-- the second group fails at the sync and is truncated away, the third reuses its sequence
def sampleGroups : List (List CommitRequest × WalOutcome) :=
  [([samplePut [97, 0, 1] [1]], .synced), ([samplePut [97, 0, 2] [2]], .syncFails true),
    ([samplePut [97, 0, 3] [3]], .synced)]

theorem truncated_group_leaves_acknowledged :
    ∃ db db', ∃ acked recovered stored live : List Frame, openLocked sampleBuilder Disk.empty = .ok db ∧
      GroupsRestore db sampleGroups ∧ processGroups db sampleGroups = (db', acked) ∧
      acked.map Frame.operations = [[.put [97, 0, 1] [1]], [.put [97, 0, 3] [3]]] ∧ acked = stored ++ live ∧
      Replays db'.disk.wal db'.inner.tableSequence
        (recovered.filter (fun frame => db'.inner.tableSequence < frame.sequence) ++ live) := by
  have hrun : (sampleProcess sampleGroups).map (fun run =>
      (decide (GroupsRestore run.1 sampleGroups), run.2.2.map Frame.operations)) =
      some (true, [[.put [97, 0, 1] [1]], [.put [97, 0, 3] [3]]]) := by decide +kernel
  obtain ⟨⟨db, db', acked⟩, hsample, hvalues⟩ := Option.map_eq_some_iff.mp hrun
  obtain ⟨hrestore, hacked⟩ := Prod.mk.inj hvalues
  obtain ⟨hopen, hprocess⟩ := sampleProcess_eq hsample
  have hgroups : GroupsRestore db sampleGroups := of_decide_eq_true hrestore
  obtain ⟨recovered, -, hsurvive⟩ := acknowledged_groups_survive_failures hopen
  obtain ⟨-, stored, live, hsplit, hreplays, -⟩ := hsurvive sampleGroups db' acked hgroups hprocess
  exact ⟨db, db', acked, recovered, stored, live, hopen, hgroups, hprocess, hacked, hsplit, hreplays⟩

-- a torn append makes the log unreadable; a failed truncation hides the next group behind its reused sequence
theorem failed_groups_lose_acknowledged :
    (∃ db db' acked, openLocked sampleBuilder Disk.empty = .ok db ∧
      processGroups db [([samplePut [97, 0, 1] [1]], .appendFails 1), ([samplePut [97, 0, 2] [2]], .synced)] =
        (db', acked) ∧
      acked.map Frame.operations = [[.put [97, 0, 2] [2]]] ∧
      replayWal db'.disk.wal db'.inner.tableSequence SortedMap.empty = .error "invalid ThingDB WAL magic") ∧
    (∃ db db' acked replayed, openLocked sampleBuilder Disk.empty = .ok db ∧
      processGroups db [([samplePut [97, 0, 1] [1]], .syncFails false), ([samplePut [97, 0, 2] [2]], .synced)] =
        (db', acked) ∧
      acked.map Frame.operations = [[.put [97, 0, 2] [2]]] ∧
      replayWal db'.disk.wal db'.inner.tableSequence SortedMap.empty = .ok replayed ∧
      replayed.state.get [97, 0, 1] = some [1] ∧ replayed.state.get [97, 0, 2] = none) := by
  constructor
  · have hrun : (sampleProcess [([samplePut [97, 0, 1] [1]], .appendFails 1),
        ([samplePut [97, 0, 2] [2]], .synced)]).map (fun run => (run.2.2.map Frame.operations,
          (replayWal run.2.1.disk.wal run.2.1.inner.tableSequence SortedMap.empty).map Replayed.frameCount)) =
        some ([[.put [97, 0, 2] [2]]], .error "invalid ThingDB WAL magic") := by decide +kernel
    obtain ⟨⟨db, db', acked⟩, hsample, hvalues⟩ := Option.map_eq_some_iff.mp hrun
    obtain ⟨hacked, hreplay⟩ := Prod.mk.inj hvalues
    obtain ⟨hopen, hprocess⟩ := sampleProcess_eq hsample
    refine ⟨db, db', acked, hopen, hprocess, hacked, ?_⟩
    cases hwal : replayWal db'.disk.wal db'.inner.tableSequence SortedMap.empty with
    | ok replayed => rw [hwal] at hreplay; cases hreplay
    | error message =>
      rw [hwal] at hreplay
      cases hreplay
      rfl
  · have hrun : (sampleProcess [([samplePut [97, 0, 1] [1]], .syncFails false),
        ([samplePut [97, 0, 2] [2]], .synced)]).map (fun run => (run.2.2.map Frame.operations,
          (replayWal run.2.1.disk.wal run.2.1.inner.tableSequence SortedMap.empty).map fun replayed =>
            (replayed.state.get [97, 0, 1], replayed.state.get [97, 0, 2]))) =
        some ([[.put [97, 0, 2] [2]]], .ok (some [1], none)) := by decide +kernel
    obtain ⟨⟨db, db', acked⟩, hsample, hvalues⟩ := Option.map_eq_some_iff.mp hrun
    obtain ⟨hacked, hreplay⟩ := Prod.mk.inj hvalues
    obtain ⟨hopen, hprocess⟩ := sampleProcess_eq hsample
    cases hwal : replayWal db'.disk.wal db'.inner.tableSequence SortedMap.empty with
    | error message => rw [hwal] at hreplay; cases hreplay
    | ok replayed =>
      rw [hwal] at hreplay
      obtain ⟨hfirst, hsecond⟩ := Prod.mk.inj (Except.ok.inj hreplay)
      exact ⟨db, db', acked, replayed, hopen, hprocess, hacked, hwal, hfirst, hsecond⟩

end Thingd.ThingDb
