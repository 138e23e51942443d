import Thingd.ThingDb.Consistent

namespace Thingd.ThingDb

variable {db : Database} {tables : SortedMap Bytes TableLayer} {layer : TableLayer} {sequence : ℕ}

namespace Database

variable {fault : Option StorageFault} {db' : Database}

theorem flushTableLocked_ok (h : db.flushTableLocked fault = (.ok (), db')) :
    db.inner.recoveryRequired = false ∧
      ((db.inner.pendingTable = SortedMap.empty ∧ db' = db) ∨
        (db.inner.pendingTable ≠ SortedMap.empty ∧ db' = db.flushed)) := by
  unfold flushTableLocked at h
  split_ifs at h with hrecovery hpending hfault
  · cases h
  · cases h
  · cases h
    exact ⟨by simpa using hrecovery, Or.inl ⟨SortedMap.isEmpty_iff.mp hpending, rfl⟩⟩
  · have hne : db.inner.pendingTable ≠ SortedMap.empty := fun he => hpending (SortedMap.isEmpty_iff.mpr he)
    refine ⟨by simpa using hrecovery, Or.inr ⟨hne, ?_⟩⟩
    split at h
    all_goals
      cases h
      try rfl

theorem flushTableLocked_none (db : Database) :
    db.flushTableLocked none =
      if db.inner.recoveryRequired then (.error recoveryMessage, db)
      else if db.inner.pendingTable.isEmpty then (.ok (), db) else (.ok (), db.flushed) := by
  unfold flushTableLocked
  split_ifs <;> first | rfl | contradiction

theorem compactTablesLocked_none (db : Database) :
    db.compactTablesLocked none =
      if db.inner.recoveryRequired then (.error recoveryMessage, db) else (.ok (), db.compacted) := rfl

theorem compactTablesLocked_ok (h : db.compactTablesLocked fault = (.ok (), db')) :
    db.inner.recoveryRequired = false ∧ db' = db.compacted := by
  unfold compactTablesLocked at h
  split_ifs at h with hrecovery
  · cases h
  · refine ⟨by simpa using hrecovery, ?_⟩
    split at h
    all_goals
      cases h
      try rfl

end Database

theorem get_removeTables {name : Bytes} {oldTables : List Bytes} (h : tables.get name = some layer) :
    (Database.removeTables tables name oldTables).get name = some layer := by
  induction oldTables generalizing tables with
  | nil => exact h
  | cons oldTable oldTables ih =>
    apply ih
    dsimp only
    split_ifs with hname
    · exact h
    · rw [SortedMap.get_erase, if_neg (Ne.symm hname)]
      exact h

theorem TableLayout.append {disk : Disk} {files : List Bytes} {tableSequence : ℕ} {layers : List TableLayer}
    (h : TableLayout disk files tableSequence layers) (hlt : tableSequence < sequence) (hle : sequence ≤ u64Max)
    (layer : TableLayer) (hlayer : layer.sequence = sequence) (wal : Bytes) :
    let name := tableName sequence files.length
    TableLayout ⟨some (manifestOf (files ++ [name]) sequence), disk.tables.insert name layer, wal⟩
      (files ++ [name]) sequence (layers ++ [layer]) := by
  intro name
  have hnew : ∀ file ∈ files, file < name := fun file hfile => h.olderNames file hfile _ _ hlt hle
  have hvalid : ∀ file ∈ files ++ [name], validTableName file = true := by
    intro file hfile
    rcases List.mem_append.mp hfile with hold | hlast
    · exact h.validNames file hold
    · rw [List.mem_singleton.mp hlast]
      exact validTableName_tableName _ _
  have hsorted : (files ++ [name]).Pairwise (· < ·) := by
    refine List.pairwise_append.mpr ⟨h.sortedNames, List.pairwise_singleton _ _, ?_⟩
    intro file hfile last hlast
    rw [List.mem_singleton.mp hlast]
    exact hnew file hfile
  obtain ⟨hfiles, hchain, hbound⟩ := openLayers_eq_ok.mp h.opened
  refine ⟨loadManifest_manifestOf rfl hvalid hsorted (by simp), hvalid, hsorted, ?_, ?_⟩
  · intro file hfile sequence' n hlt' hle'
    rcases List.mem_append.mp hfile with hold | hlast
    · exact h.olderNames file hold _ _ (hlt.trans hlt') hle'
    · rw [List.mem_singleton.mp hlast]
      exact tableStem_lt hlt' hle' _ _
  · apply openLayers_eq_ok.mpr
    refine ⟨?_, ?_, ?_⟩
    · refine List.rel_append ?_ (List.Forall₂.cons (by simp) List.Forall₂.nil)
      have hboth := (List.forall₂_and_left files layers).mpr ⟨hnew, hfiles⟩
      refine hboth.imp ?_
      rintro file old ⟨hfile, hold⟩
      rw [SortedMap.get_insert, if_neg hfile.ne]
      exact hold
    · rw [List.map_append]
      refine List.pairwise_append.mpr ⟨hchain, List.pairwise_singleton _ _, ?_⟩
      intro s hs t ht
      have ht' : t = sequence := by simpa [hlayer] using ht
      rcases List.mem_cons.mp hs with rfl | hs
      · omega
      · obtain ⟨old, hold, rfl⟩ := List.mem_map.mp hs
        have := hbound old hold
        omega
    · intro l hl
      rcases List.mem_append.mp hl with hold | hlast
      · exact (hbound l hold).trans hlt.le
      · rw [List.mem_singleton.mp hlast, hlayer]

theorem TableLayout.compacted (hget : tables.get (compactName sequence) = some layer)
    (hlayer : layer.sequence = sequence) (wal : Bytes) :
    TableLayout ⟨some (manifestOf [compactName sequence] sequence), tables, wal⟩ [compactName sequence] sequence
      [layer] := by
  have hvalid : ∀ file ∈ [compactName sequence], validTableName file = true := by
    intro file hfile
    rw [List.mem_singleton.mp hfile]
    exact validTableName_compactName sequence
  refine ⟨loadManifest_manifestOf rfl hvalid (List.pairwise_singleton _ _) (by simp), hvalid,
    List.pairwise_singleton _ _, ?_, ?_⟩
  · intro file hfile sequence' n hlt hle
    rw [List.mem_singleton.mp hfile]
    exact tableStem_lt hlt hle _ _
  · apply openLayers_eq_ok.mpr
    refine ⟨List.Forall₂.cons hget List.Forall₂.nil, by simp, ?_⟩
    intro l hl
    rw [List.mem_singleton.mp hl, hlayer]

namespace Database

theorem flushed_consistent (h : Consistent db) (hpending : db.inner.pendingTable ≠ SortedMap.empty) :
    Consistent db.flushed where
  layout := by
    have hlayout := h.layout.append (h.pendingNewer hpending) h.sequence_le db.flushLayer rfl []
    have hmanifest : db.flushManifest =
        manifestOf (db.inner.tableFiles ++ [db.flushName]) db.inner.sequence := by
      simp [flushManifest, manifestOf]
    change TableLayout ⟨some db.flushManifest, db.disk.tables.insert db.flushName db.flushLayer, []⟩
      (db.inner.tableFiles ++ [db.flushName]) db.inner.sequence (db.inner.tableLayers ++ [db.flushLayer])
    rw [hmanifest]
    exact hlayout
  tableSequence_le := le_rfl
  sequence_le := h.sequence_le
  pendingNewer := fun hne => absurd rfl hne
  framed := ⟨[], Frames.nil, by simp, fun _ => rfl⟩
  running := h.running

theorem compacted_consistent (h : Consistent db) : Consistent db.compacted where
  layout := by
    have hget : (removeTables db.compactRenamed.tables (compactName db.inner.sequence) db.inner.tableFiles).get
        (compactName db.inner.sequence) = some db.compactLayer := by
      apply get_removeTables
      simp [compactRenamed, renameTable]
    have hsequence : db.compactLayer.sequence = db.inner.sequence := rfl
    exact TableLayout.compacted hget hsequence []
  tableSequence_le := le_rfl
  sequence_le := h.sequence_le
  pendingNewer := fun hne => absurd rfl hne
  framed := ⟨[], Frames.nil, by simp, fun _ => rfl⟩
  running := h.running

theorem getDurableValue_flushed (db : Database) (key : Bytes) :
    db.flushed.inner.getDurableValue key =
      (db.inner.pendingTable.get key).getD (tableView db.inner.tableLayers key) := by
  rw [getDurableValue_reopened rfl rfl rfl]
  change (none : Option Bytes).or (tableView (db.inner.tableLayers ++ [db.flushLayer]) key) = _
  rw [tableView_append]
  rfl

theorem getDurableValue_compacted (db : Database) (key : Bytes) :
    db.compacted.inner.getDurableValue key = db.inner.getDurableValue key := by
  rw [getDurableValue_reopened rfl rfl rfl, ← Inner.get_materializeState]
  change (none : Option Bytes).or (tableView ([] ++ [db.compactLayer]) key) = _
  rw [tableView_append]
  change ((db.inner.materializeState.mapValues some).get key).getD none = _
  rw [SortedMap.get_mapValues]
  cases db.inner.materializeState.get key <;> rfl

end Database

end Thingd.ThingDb
