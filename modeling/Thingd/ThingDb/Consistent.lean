import Thingd.ThingDb.Layout

namespace Thingd.ThingDb

open Replayed

structure TableLayout (disk : Disk) (files : List Bytes) (tableSequence : ℕ) (layers : List TableLayer) : Prop where
  loaded : loadManifest disk = .ok (manifestOf files tableSequence)
  validNames : ∀ file ∈ files, validTableName file = true
  sortedNames : files.Pairwise (· < ·)
  olderNames : ∀ file ∈ files, ∀ sequence n, tableSequence < sequence → sequence ≤ u64Max →
    file < tableName sequence n
  opened : openLayers disk.tables tableSequence 0 files = .ok layers

structure Consistent (db : Database) : Prop where
  layout : TableLayout db.disk db.inner.tableFiles db.inner.tableSequence db.inner.tableLayers
  tableSequence_le : db.inner.tableSequence ≤ db.inner.sequence
  sequence_le : db.inner.sequence ≤ u64Max
  pendingNewer : db.inner.pendingTable ≠ SortedMap.empty → db.inner.tableSequence < db.inner.sequence
  framed : ∃ frames, Frames db.disk.wal frames ∧ (∀ frame ∈ frames, frame.sequence ≤ db.inner.sequence) ∧
    (db.inner.pendingTable = SortedMap.empty →
      (applyAll ⟨db.inner.tableSequence, 0, 0, SortedMap.empty⟩ frames).state = db.inner.state)
  running : db.inner.recoveryRequired = false

theorem TableLayout.empty (wal : Bytes) : TableLayout { Disk.empty with wal := wal } [] 0 [] where
  loaded := rfl
  validNames := by simp
  sortedNames := List.Pairwise.nil
  olderNames := by simp
  opened := rfl

variable {disk : Disk} {files : List Bytes} {tableSequence : ℕ} {layers : List TableLayer}

theorem TableLayout.withWal (h : TableLayout disk files tableSequence layers) (wal : Bytes) :
    TableLayout { disk with wal := wal } files tableSequence layers :=
  ⟨h.loaded, h.validNames, h.sortedNames, h.olderNames, h.opened⟩

theorem loadManifest_written {manifest : Manifest} (h : loadManifest disk = .ok manifest) (wal : Bytes) :
    loadManifest { disk with manifest := some manifest, wal := wal } = .ok manifest := by
  unfold loadManifest at h
  cases hdisk : disk.manifest with
  | none =>
    rw [hdisk] at h
    cases h
    rfl
  | some stored =>
    rw [hdisk] at h
    dsimp only at h
    split_ifs at h with hversion
    obtain ⟨_, hvalid, hpure⟩ := result_bind_ok.mp h
    cases hpure
    unfold loadManifest
    dsimp only
    rw [if_neg hversion, hvalid]
    rfl

theorem Replayed.lastSequence_apply (replayed : Replayed) (frame : Frame) :
    (replayed.apply frame).lastSequence = max replayed.lastSequence frame.sequence := by
  unfold Replayed.apply
  split_ifs with h
  · exact (max_eq_right h.le).symm
  · exact (max_eq_left (not_lt.mp h)).symm

variable {frames : List Frame} {replayed : Replayed} {lastSequence : ℕ} {db : Database}

theorem Replayed.lastSequence_le {bound : ℕ} (h : replayed.lastSequence ≤ bound)
    (hframes : ∀ frame ∈ frames, frame.sequence ≤ bound) : (replayed.applyAll frames).lastSequence ≤ bound := by
  induction frames generalizing replayed with
  | nil => exact h
  | cons frame frames ih =>
    apply ih
    · rw [Replayed.lastSequence_apply]
      exact max_le h (hframes frame List.mem_cons_self)
    · exact fun f hf => hframes f (List.mem_cons_of_mem _ hf)

theorem Replayed.le_lastSequence (replayed : Replayed) (frames : List Frame) :
    replayed.lastSequence ≤ (replayed.applyAll frames).lastSequence ∧
      ∀ frame ∈ frames, frame.sequence ≤ (replayed.applyAll frames).lastSequence := by
  induction frames generalizing replayed with
  | nil => exact ⟨le_rfl, by simp⟩
  | cons frame frames ih =>
    obtain ⟨hlast, hframes⟩ := ih (replayed.apply frame)
    rw [Replayed.lastSequence_apply] at hlast
    refine ⟨(le_max_left _ _).trans hlast, ?_⟩
    intro f hf
    rcases List.mem_cons.mp hf with rfl | hf
    · exact (le_max_right _ _).trans hlast
    · exact hframes f hf

def appliedFrames (lastSequence : ℕ) : List Frame → List Frame
  | [] => []
  | frame :: frames =>
    if lastSequence < frame.sequence then frame :: appliedFrames frame.sequence frames
    else appliedFrames lastSequence frames

theorem appliedFrames_append (replayed : Replayed) (frames later : List Frame) :
    appliedFrames replayed.lastSequence (frames ++ later) =
      appliedFrames replayed.lastSequence frames ++
        appliedFrames (replayed.applyAll frames).lastSequence later := by
  induction frames generalizing replayed with
  | nil => rfl
  | cons frame frames ih =>
    have hstep := ih (replayed.apply frame)
    rw [lastSequence_apply] at hstep
    change _ = _ ++ appliedFrames ((replayed.apply frame).applyAll frames).lastSequence later
    simp only [List.cons_append, appliedFrames]
    split_ifs with hlt
    · rw [max_eq_right hlt.le] at hstep
      rw [hstep, List.cons_append]
    · rw [max_eq_left (not_lt.mp hlt)] at hstep
      exact hstep

theorem appliedFrames_sorted (hsorted : frames.Pairwise fun f g => f.sequence < g.sequence)
    (hnew : ∀ frame ∈ frames, lastSequence < frame.sequence) : appliedFrames lastSequence frames = frames := by
  induction frames generalizing lastSequence with
  | nil => rfl
  | cons frame frames ih =>
    obtain ⟨hframe, hframes⟩ := List.pairwise_cons.mp hsorted
    rw [appliedFrames, if_pos (hnew frame List.mem_cons_self), ih hframes hframe]

theorem appliedFrames_newer (lastSequence : ℕ) (frames : List Frame) :
    ∀ frame ∈ appliedFrames lastSequence frames, frame ∈ frames ∧ lastSequence < frame.sequence := by
  induction frames generalizing lastSequence with
  | nil => simp [appliedFrames]
  | cons head frames ih =>
    intro frame hframe
    rw [appliedFrames] at hframe
    split_ifs at hframe with hlt
    · rcases List.mem_cons.mp hframe with rfl | hframe
      · exact ⟨List.mem_cons_self, hlt⟩
      · obtain ⟨hmem, hnewer⟩ := ih head.sequence frame hframe
        exact ⟨List.mem_cons_of_mem _ hmem, hlt.trans hnewer⟩
    · obtain ⟨hmem, hnewer⟩ := ih lastSequence frame hframe
      exact ⟨List.mem_cons_of_mem _ hmem, hnewer⟩

theorem applyAll_state (replayed : Replayed) (frames : List Frame) :
    (replayed.applyAll frames).state =
      ((appliedFrames replayed.lastSequence frames).flatMap Frame.operations).foldl applyOperation replayed.state := by
  induction frames generalizing replayed with
  | nil => rfl
  | cons frame frames ih =>
    change ((replayed.apply frame).applyAll frames).state = _
    rw [ih, lastSequence_apply, appliedFrames]
    unfold Replayed.apply
    split_ifs with hlt
    · rw [max_eq_right hlt.le, List.flatMap_cons, List.foldl_append]
    · rw [max_eq_left (not_lt.mp hlt)]

theorem appliedFrames_old (hold : ∀ frame ∈ frames, frame.sequence ≤ lastSequence) :
    appliedFrames lastSequence frames = [] := by
  apply List.eq_nil_iff_forall_not_mem.mpr
  intro frame hframe
  obtain ⟨hmem, hnewer⟩ := appliedFrames_newer lastSequence frames frame hframe
  exact absurd hnewer (not_lt.mpr (hold frame hmem))

theorem openLocked_eq (builder : DatabaseBuilder) (h : TableLayout disk files tableSequence layers) :
    openLocked builder disk = (replayWal disk.wal tableSequence SortedMap.empty).map
      (openedDatabase builder disk (manifestOf files tableSequence) layers) := by
  unfold openLocked
  rw [h.loaded]
  have hsequence : (manifestOf files tableSequence).tableSequence = tableSequence := rfl
  simp only [bind, Except.bind, hsequence, manifestOf_layerFiles, h.opened]
  cases replayWal disk.wal tableSequence SortedMap.empty <;> rfl

section

variable (h : TableLayout disk files tableSequence layers) (hsequence : tableSequence ≤ u64Max)
include h hsequence

variable {builder : DatabaseBuilder}

theorem openedDatabase_consistent {wal : Bytes} (hwal : disk.wal.take replayed.validOffset = wal)
    (hframes : Frames wal frames)
    (hlast : replayed.lastSequence = (applyAll ⟨tableSequence, 0, 0, SortedMap.empty⟩ frames).lastSequence)
    (hstate : replayed.state = (applyAll ⟨tableSequence, 0, 0, SortedMap.empty⟩ frames).state) :
    Consistent (openedDatabase builder disk (manifestOf files tableSequence) layers replayed) := by
  have hle := le_lastSequence ⟨tableSequence, 0, 0, SortedMap.empty⟩ frames
  have hbound : (applyAll ⟨tableSequence, 0, 0, SortedMap.empty⟩ frames).lastSequence ≤ u64Max :=
    lastSequence_le hsequence hframes.sequence_le
  have hlayout : TableLayout { disk with
      manifest := some (manifestOf files tableSequence), wal := disk.wal.take replayed.validOffset }
      files tableSequence layers := {
    loaded := loadManifest_written h.loaded _
    validNames := h.validNames
    sortedNames := h.sortedNames
    olderNames := h.olderNames
    opened := h.opened }
  exact {
    layout := by
      change TableLayout _ (manifestOf files tableSequence).layerFiles tableSequence layers
      rw [manifestOf_layerFiles]
      exact hlayout
    tableSequence_le := le_max_right _ _
    sequence_le := max_le (hlast.trans_le hbound) hsequence
    pendingNewer := fun hne => absurd rfl hne
    framed := by
      refine ⟨frames, ?_, fun f hf => ((hle.2 f hf).trans_eq hlast.symm).trans (le_max_left _ _), fun _ => hstate.symm⟩
      change Frames (disk.wal.take replayed.validOffset) frames
      rw [hwal]
      exact hframes
    running := rfl }

theorem openLocked_consistent (hopen : openLocked builder disk = .ok db) : Consistent db := by
  rw [openLocked_eq builder h] at hopen
  cases hreplay : replayWal disk.wal tableSequence SortedMap.empty with
  | error message => rw [hreplay] at hopen; cases hopen
  | ok replayed =>
    rw [hreplay] at hopen
    cases hopen
    obtain ⟨wal, frames, tail, hwal, hframes, rfl⟩ := replayWal_ok hreplay
    have htake : disk.wal.take wal.length = wal := by rw [hwal]; simp
    exact openedDatabase_consistent h hsequence htake hframes rfl rfl

end

theorem Consistent.reopens (h : Consistent db) (hframes : Frames db.disk.wal frames) (builder : DatabaseBuilder) :
    ∃ db', openLocked builder db.disk = .ok db' ∧ Consistent db' ∧ Frames db'.disk.wal frames ∧
      db'.inner.tableLayers = db.inner.tableLayers ∧ db'.inner.tableSequence = db.inner.tableSequence ∧
      db'.inner.sequence = max (applyAll ⟨db.inner.tableSequence, 0, 0, SortedMap.empty⟩ frames).lastSequence
        db.inner.tableSequence ∧
      db'.inner.pendingTable = SortedMap.empty ∧
      db'.inner.state = (applyAll ⟨db.inner.tableSequence, 0, 0, SortedMap.empty⟩ frames).state := by
  have hopen := openLocked_eq builder h.layout
  rw [replayWal_frames hframes] at hopen
  have hconsistent := openLocked_consistent h.layout (h.tableSequence_le.trans h.sequence_le) hopen
  refine ⟨_, hopen, hconsistent, ?_, rfl, rfl, rfl, rfl, rfl⟩
  change Frames (db.disk.wal.take db.disk.wal.length) frames
  rw [List.take_length]
  exact hframes

/-- The disk after an open cut short: it truncates the log, then writes a missing manifest. -/
def openCut (disk : Disk) (attempt : DatabaseBuilder × ℕ) : Disk :=
  match openLocked attempt.1 disk with
  | .error _ => disk
  | .ok db => if attempt.2 = 0 then disk else if attempt.2 = 1 then { disk with wal := db.disk.wal } else db.disk

theorem openLocked_openCut (builder : DatabaseBuilder) (attempt : DatabaseBuilder × ℕ) :
    openLocked builder (openCut disk attempt) = openLocked builder disk := by
  cases hopen : openLocked attempt.1 disk with
  | error message => rw [openCut, hopen]
  | ok db =>
    obtain ⟨manifest, hmanifest, h⟩ := result_bind_ok.mp hopen
    obtain ⟨layers, hlayers, h⟩ := result_bind_ok.mp h
    obtain ⟨replayed, hreplay, h⟩ := result_bind_ok.mp h
    cases h
    obtain ⟨wal, frames, tail, hbytes, hframes, hout⟩ := replayWal_ok hreplay
    have htake : disk.wal.take replayed.validOffset = wal ∧ wal.take replayed.validOffset = wal := by
      simp [hout, hbytes]
    have hagain : replayWal wal manifest.tableSequence SortedMap.empty = .ok replayed :=
      hout ▸ replayWal_frames hframes _ _
    have hcut : loadManifest { disk with wal } = .ok manifest := hmanifest
    rw [openCut, hopen]
    split_ifs <;> simp only [openLocked, openedDatabase, bind, Except.bind, hmanifest, hcut,
      loadManifest_written hmanifest, hlayers, hreplay, hagain, htake]

/-- A database directory: its data, and whether `LOCK` is there. -/
structure Directory where
  disk : Disk
  locked : Bool

def openDirectory (path : String) (builder : DatabaseBuilder) (directory : Directory) : Result Database × Directory :=
  if directory.locked then (.error ("database is locked: " ++ path), directory)
  else
    match openLocked builder directory.disk with
    | .error message => (.error message, directory)
    | .ok db => (.ok db, ⟨db.disk, true⟩)

/-- An open returns, or the process stops within it and leaves `LOCK`; or `LOCK` is removed, by the end of a database or
by hand. -/
inductive OpenEvent
  | returns (builder : DatabaseBuilder)
  | stops (builder : DatabaseBuilder) (writes : ℕ)
  | unlocks

def Directory.step (path : String) (directory : Directory) : OpenEvent → Directory
  | .returns builder => (openDirectory path builder directory).2
  | .stops builder writes =>
    if directory.locked then directory else ⟨openCut directory.disk (builder, writes), true⟩
  | .unlocks => { directory with locked := false }

theorem openLocked_step (path : String) (builder : DatabaseBuilder) (directory : Directory) (event : OpenEvent) :
    openLocked builder (directory.step path event).disk = openLocked builder directory.disk := by
  cases event with
  | returns other =>
    have hwhole := @openLocked_openCut directory.disk builder (other, 2)
    rw [openCut] at hwhole
    simp only [Directory.step, openDirectory]
    split_ifs
    · rfl
    · cases hopen : openLocked other directory.disk with
      | error message => rfl
      | ok db => simpa [hopen] using hwhole
  | stops other writes =>
    simp only [Directory.step]
    split_ifs
    · rfl
    · exact openLocked_openCut builder (other, writes)
  | unlocks => rfl

theorem reopening_survives_crashes (path : String) (directory : Directory) (events : List OpenEvent)
    (builder : DatabaseBuilder) :
    (openDirectory path builder (events.foldl (Directory.step path) directory)).1 =
      if (events.foldl (Directory.step path) directory).locked then .error ("database is locked: " ++ path)
      else openLocked builder directory.disk := by
  have hsame : openLocked builder (events.foldl (Directory.step path) directory).disk =
      openLocked builder directory.disk := by
    induction events generalizing directory with
    | nil => rfl
    | cons event events ih => exact (ih _).trans (openLocked_step path builder directory event)
  rw [openDirectory, hsame]
  split_ifs
  · rfl
  · cases openLocked builder directory.disk <;> rfl

theorem getDurableValue_reopened {inner : Inner} {state : SortedMap Bytes Bytes}
    (hlayers : inner.tableLayers = layers) (hpending : inner.pendingTable = SortedMap.empty)
    (hstate : inner.state = state) (key : Bytes) :
    inner.getDurableValue key = (state.get key).or (tableView layers key) := by
  rw [Inner.getDurableValue_eq, hlayers, hpending, hstate]
  rfl

end Thingd.ThingDb
