import Thingd.ThingDb.Steps

namespace Thingd.ThingDb

open Writes

def requestFrames (sequence : ℕ) : List CommitRequest → List Frame
  | [] => []
  | request :: requests => ⟨sequence, request.operations⟩ :: requestFrames (sequence + 1) requests

variable {requests : List CommitRequest}

theorem mem_requestFrames {sequence : ℕ} {frame : Frame} (h : frame ∈ requestFrames sequence requests) :
    sequence ≤ frame.sequence ∧ frame.sequence < sequence + requests.length := by
  induction requests generalizing sequence with
  | nil => simp [requestFrames] at h
  | cons request requests ih =>
    simp only [requestFrames, List.mem_cons] at h
    rcases h with rfl | h
    · simp
    · have hrest := ih h
      simp only [List.length_cons]
      omega

theorem requestFrames_sorted (sequence : ℕ) (requests : List CommitRequest) :
    (requestFrames sequence requests).Pairwise (fun f g => f.sequence < g.sequence) := by
  induction requests generalizing sequence with
  | nil => exact List.Pairwise.nil
  | cons request requests ih =>
    refine List.pairwise_cons.mpr ⟨?_, ih (sequence + 1)⟩
    intro frame hframe
    have := mem_requestFrames hframe
    dsimp only
    omega

theorem requestFrames_operations (sequence : ℕ) (requests : List CommitRequest) :
    (requestFrames sequence requests).flatMap Frame.operations = requests.flatMap CommitRequest.operations := by
  induction requests generalizing sequence with
  | nil => rfl
  | cons request requests ih => simp [requestFrames, ih]

theorem saturatingAdd_of_le {a b : ℕ} (h : a + b ≤ u64Max) : saturatingAdd a b = a + b := min_eq_left h

theorem encodeGroup_ok {buffer out : Bytes} {next next' : ℕ} (h : encodeGroup buffer next requests = .ok (out, next'))
    (hroom : next + requests.length ≤ u64Max) :
    next' = next + requests.length ∧ ∃ group, out = buffer ++ group ∧ Frames group (requestFrames next requests) := by
  induction requests generalizing buffer next with
  | nil =>
    cases h
    exact ⟨rfl, [], by simp, Frames.nil⟩
  | cons request requests ih =>
    rw [List.length_cons] at hroom
    obtain ⟨buffer', hframe, h⟩ := result_bind_ok.mp h
    obtain ⟨frame, hencode, hframe⟩ := result_bind_ok.mp hframe
    cases hframe
    rw [saturatingAdd_of_le (by omega)] at h
    obtain ⟨hnext, group, hout, hgroup⟩ := ih h (by omega)
    refine ⟨by rw [List.length_cons]; omega, frame ++ group, by rw [hout, List.append_assoc], ?_⟩
    exact (frames_encodeFrame (by omega) hencode).append hgroup

theorem applyRequests_fields (inner : Inner) (requests : List CommitRequest) :
    (applyRequests inner requests).tableLayers = inner.tableLayers ∧
      (applyRequests inner requests).tableFiles = inner.tableFiles ∧
      (applyRequests inner requests).tableSequence = inner.tableSequence ∧
      (applyRequests inner requests).recoveryRequired = inner.recoveryRequired := by
  rw [applyRequests_eq]
  induction requests.flatMap CommitRequest.operations generalizing inner with
  | nil => exact ⟨rfl, rfl, rfl, rfl⟩
  | cons operation operations ih => exact ih (applyOperationWithPending inner operation)

theorem get_pendingTable_foldl (inner : Inner) (operations : List Operation) (key : Bytes) :
    (operations.foldl applyOperationWithPending inner).pendingTable.get key =
      (lastWrite (writesOf operations) key).or (inner.pendingTable.get key) := by
  induction operations generalizing inner with
  | nil => rfl
  | cons operation operations ih =>
    rw [List.foldl_cons, ih]
    change _ = ((lastWrite (writesOf operations) key).or
      (if key = operation.key then some operation.value else none)).or (inner.pendingTable.get key)
    rw [Option.or_assoc]
    congr 1
    simp only [applyOperationWithPending, SortedMap.get_insert]
    split_ifs <;> rfl

theorem get_pendingTable_applyRequests (inner : Inner) (requests : List CommitRequest) (key : Bytes) :
    (applyRequests inner requests).pendingTable.get key =
      (lastWrite (CommitRequest.writes requests) key).or (inner.pendingTable.get key) := by
  rw [applyRequests_eq, get_pendingTable_foldl, CommitRequest.writes]

theorem lastWrite_head {operation : Operation} {operations : List Operation} :
    (lastWrite (writesOf (operation :: operations)) operation.key).isSome = true := by
  change ((lastWrite (writesOf operations) operation.key).or
    (if operation.key = operation.key then some operation.value else none)).isSome = true
  cases lastWrite (writesOf operations) operation.key <;> simp

theorem pendingTable_ne_empty {inner : Inner} (h : requests ≠ []) :
    (applyRequests inner requests).pendingTable ≠ SortedMap.empty := by
  obtain ⟨request, requests, rfl⟩ := List.exists_cons_of_ne_nil h
  obtain ⟨operation, operations, hoperations⟩ := List.exists_cons_of_ne_nil request.nonempty
  intro hempty
  have hget := get_pendingTable_applyRequests inner (request :: requests) operation.key
  rw [hempty, CommitRequest.writes, List.flatMap_cons, hoperations, List.cons_append] at hget
  have hsome := @lastWrite_head operation (operations ++ requests.flatMap CommitRequest.operations)
  obtain ⟨value, hvalue⟩ := Option.isSome_iff_exists.mp hsome
  rw [hvalue] at hget
  cases hget

namespace Database

def commit (db : Database) (requests : List CommitRequest) : Result Database :=
  match encodeGroup [] (saturatingAdd db.inner.sequence 1) requests with
  | .error message => .error message
  | .ok (buffer, nextSequence) => .ok (db.commitGroup requests buffer nextSequence)

theorem commit_ok {db db' : Database} (h : db.commit requests = .ok db')
    (hroom : db.inner.sequence + requests.length < u64Max) :
    ∃ group, Frames group (requestFrames (db.inner.sequence + 1) requests) ∧
      db' = db.commitGroup requests group (db.inner.sequence + 1 + requests.length) := by
  unfold commit at h
  rw [saturatingAdd_of_le (by omega)] at h
  cases hencode : encodeGroup [] (db.inner.sequence + 1) requests with
  | error message => rw [hencode] at h; cases h
  | ok p =>
    obtain ⟨buffer, nextSequence⟩ := p
    rw [hencode] at h
    cases h
    obtain ⟨rfl, group, hbuffer, hgroup⟩ := encodeGroup_ok hencode (by omega)
    exact ⟨buffer, hbuffer.symm ▸ hgroup, rfl⟩

theorem commitGroup_consistent {db : Database} (h : Consistent db) {group : Bytes}
    (hgroup : Frames group (requestFrames (db.inner.sequence + 1) requests))
    (hroom : db.inner.sequence + requests.length < u64Max) :
    Consistent (db.commitGroup requests group (db.inner.sequence + 1 + requests.length)) := by
  obtain ⟨hlayers, hfiles, hsequence, hrecovery⟩ := applyRequests_fields db.inner requests
  obtain ⟨frames, hframes, hbound, hstate⟩ := h.framed
  have hnext : db.inner.sequence + 1 + requests.length - 1 = db.inner.sequence + requests.length := by omega
  exact {
    layout := by
      change TableLayout _ (applyRequests db.inner requests).tableFiles
        (applyRequests db.inner requests).tableSequence (applyRequests db.inner requests).tableLayers
      rw [hfiles, hsequence, hlayers]
      exact h.layout.withWal _
    tableSequence_le := by
      change (applyRequests db.inner requests).tableSequence ≤ db.inner.sequence + 1 + requests.length - 1
      have := h.tableSequence_le
      omega
    sequence_le := by
      change db.inner.sequence + 1 + requests.length - 1 ≤ u64Max
      omega
    pendingNewer := by
      intro hne
      change (applyRequests db.inner requests).tableSequence < db.inner.sequence + 1 + requests.length - 1
      rw [hnext]
      cases requests with
      | nil => exact h.pendingNewer hne
      | cons request requests =>
        have := h.tableSequence_le
        simp only [List.length_cons]
        omega
    framed := by
      refine ⟨frames ++ requestFrames (db.inner.sequence + 1) requests, hframes.append hgroup, ?_, ?_⟩
      · intro frame hframe
        change frame.sequence ≤ db.inner.sequence + 1 + requests.length - 1
        rcases List.mem_append.mp hframe with hold | hnew
        · have := hbound frame hold
          omega
        · have := mem_requestFrames hnew
          omega
      · intro hempty
        cases requests with
        | nil =>
          rw [requestFrames, List.append_nil]
          exact hstate hempty
        | cons request requests => exact absurd hempty (pendingTable_ne_empty (by simp))
    running := hrecovery.trans h.running }

end Database

end Thingd.ThingDb
