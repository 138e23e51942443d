import Thingd.ThingDb.Table
import Thingd.ThingDb.WalReplay

namespace Thingd.ThingDb

open Bytes

def saturatingAdd (a b : ℕ) : ℕ := min (a + b) u64Max

def saturatingMul (a b : ℕ) : ℕ := min (a * b) u64Max

structure Manifest where
  formatVersion : ℕ
  tableFile : Option Bytes
  tableFiles : List Bytes
  tableSequence : ℕ

structure Disk where
  manifest : Option Manifest
  tables : SortedMap Bytes TableLayer
  wal : Bytes

structure Inner where
  state : SortedMap Bytes Bytes
  sequence : ℕ
  tableSequence : ℕ
  tableFiles : List Bytes
  tableLayers : List TableLayer
  pendingTable : SortedMap Bytes (Option Bytes)
  pendingTableBytes : ℕ
  maxJournalingSize : ℕ
  maxMemtableBytes : ℕ
  maxTableLayers : ℕ
  journalBytes : ℕ
  recoveryRequired : Bool
  stateGeneration : ℕ

structure Database where
  disk : Disk
  inner : Inner

structure DatabaseBuilder where
  maxJournalingSize : ℕ
  maxMemtableBytes : ℕ
  maxTableLayers : ℕ

def formatVersion : ℕ := 1

def ioError : String := "i/o error"

def recoveryMessage : String := "ThingDB requires reopen and recovery before writing"

-- "table-" and ".tdb"
def tableStem (sequence : ℕ) : Bytes := [116, 97, 98, 108, 101, 45] ++ paddedDecimal 20 sequence

def tableName (sequence layers : ℕ) : Bytes :=
  tableStem sequence ++ (45 :: (paddedDecimal 4 layers ++ [46, 116, 100, 98]))

-- "-compact.tdb"
def compactName (sequence : ℕ) : Bytes :=
  tableStem sequence ++ [45, 99, 111, 109, 112, 97, 99, 116, 46, 116, 100, 98]

def validTableName (name : Bytes) : Bool :=
  !name.isEmpty && name.head? != some 47 && (name.splitOn 47).head? != some [46] &&
    !(name.splitOn 47).contains [46, 46]

def validateTableFiles (files : List Bytes) : List Bytes → Result Unit
  | [] => .ok ()
  | tableFile :: tableFiles =>
    if !validTableName tableFile then .error "invalid ThingDB table filename"
    else if tableFile ∈ files then .error "duplicate ThingDB table filename"
    else validateTableFiles (tableFile :: files) tableFiles

def Manifest.layerFiles (manifest : Manifest) : List Bytes :=
  if manifest.tableFiles.isEmpty then manifest.tableFile.toList else manifest.tableFiles

def validateLegacyFile (manifest : Manifest) : Result Unit :=
  match manifest.tableFile with
  | none => .ok ()
  | some tableFile =>
    if !validTableName tableFile then .error "invalid ThingDB table filename"
    else if manifest.tableFiles ≠ [] ∧ manifest.tableFiles.getLast? ≠ some tableFile then
      .error "ThingDB manifest legacy table filename does not match table layers"
    else .ok ()

def validateManifest (manifest : Manifest) : Result Unit := do
  validateTableFiles [] manifest.tableFiles
  validateLegacyFile manifest
  if manifest.layerFiles.isEmpty ∧ manifest.tableSequence ≠ 0 then
    throw "ThingDB manifest has a table sequence without a table"
  else if (manifest.layerFiles.zip manifest.layerFiles.tail).any (fun files => decide (files.2 ≤ files.1)) then
    throw "ThingDB manifest table layers are not in filename order"
  else pure ()

def initialManifest : Manifest := ⟨formatVersion, none, [], 0⟩

def loadManifest (disk : Disk) : Result Manifest :=
  match disk.manifest with
  | none => .ok initialManifest
  | some manifest =>
    if manifest.formatVersion ≠ formatVersion then
      .error ("unsupported ThingDB format version " ++ toString manifest.formatVersion)
    else do
      validateManifest manifest
      pure manifest

def openLayers (tables : SortedMap Bytes TableLayer) (tableSequence : ℕ) : ℕ → List Bytes → Result (List TableLayer)
  | _, [] => .ok []
  | previousSequence, tableFile :: tableFiles =>
    match tables.get tableFile with
    | none => .error ("ThingDB manifest references missing table: " ++
        String.ofList (tableFile.map fun byte => Char.ofNat byte.val))
    | some layer =>
      if tableSequence < layer.sequence then .error "table sequence exceeds manifest sequence"
      else if layer.sequence < previousSequence then .error "ThingDB table layers are not in sequence order"
      else do
        let layers ← openLayers tables tableSequence layer.sequence tableFiles
        pure (layer :: layers)

def openedDatabase (builder : DatabaseBuilder) (disk : Disk) (manifest : Manifest) (layers : List TableLayer)
    (replayed : Replayed) : Database :=
  let wal := disk.wal.take replayed.validOffset
  { disk := { disk with manifest := some manifest, wal := wal }
    inner := {
      state := replayed.state
      sequence := max replayed.lastSequence manifest.tableSequence
      tableSequence := manifest.tableSequence
      tableFiles := manifest.layerFiles
      tableLayers := layers
      pendingTable := SortedMap.empty
      pendingTableBytes := 0
      maxJournalingSize := builder.maxJournalingSize
      maxMemtableBytes := max builder.maxMemtableBytes 1
      maxTableLayers := max builder.maxTableLayers 1
      journalBytes := wal.length
      recoveryRequired := false
      stateGeneration := 0 } }

def openLocked (builder : DatabaseBuilder) (disk : Disk) : Result Database := do
  let manifest ← loadManifest disk
  let layers ← openLayers disk.tables manifest.tableSequence 0 manifest.layerFiles
  let replayed ← replayWal disk.wal manifest.tableSequence SortedMap.empty
  pure (openedDatabase builder disk manifest layers replayed)

inductive StorageFault
  | walSync
  | tableWrite
  | tableRename
  | manifestWrite
  | directorySync
  | tableOpen
  | walTruncate
  | truncateSync
  deriving DecidableEq

namespace Database

section

variable (db : Database)

def renameTable (name : Bytes) (layer : TableLayer) : Disk :=
  { db.disk with tables := db.disk.tables.insert name layer }

def nextGeneration : Inner :=
  { db.inner with stateGeneration := saturatingAdd db.inner.stateGeneration 1 }

def flushName : Bytes := tableName db.inner.sequence db.inner.tableFiles.length

def flushManifest : Manifest :=
  ⟨formatVersion, some db.flushName, db.inner.tableFiles ++ [db.flushName], db.inner.sequence⟩

def flushLayer : TableLayer := writeTable db.inner.sequence db.inner.pendingTable

def flushRenamed : Disk := db.renameTable db.flushName db.flushLayer

def flushPublished : Disk := { db.flushRenamed with manifest := some db.flushManifest }

-- the pending table stays in place until the log is truncated
def flushInner : Inner :=
  { db.nextGeneration with
    tableFiles := db.flushManifest.tableFiles
    tableLayers := db.inner.tableLayers ++ [db.flushLayer]
    tableSequence := db.inner.sequence
    state := SortedMap.empty }

def flushed : Database :=
  { disk := { db.flushPublished with wal := [] }
    inner := { db.flushInner with
      pendingTable := SortedMap.empty
      pendingTableBytes := 0
      journalBytes := 0 } }

end

def flushTableLocked (fault : Option StorageFault) (db : Database) : Result Unit × Database :=
  if db.inner.recoveryRequired then (.error recoveryMessage, db)
  else if db.inner.pendingTable.isEmpty then
    if fault = some .walSync then (.error ioError, db) else (.ok (), db)
  else
    match fault with
    | some .tableWrite | some .tableRename => (.error ioError, { db with inner := db.nextGeneration })
    | some .manifestWrite => (.error ioError, ⟨db.flushRenamed, db.nextGeneration⟩)
    | some .directorySync => (.error ioError, ⟨db.flushPublished, db.nextGeneration⟩)
    | some .tableOpen =>
      (.error ioError, ⟨db.flushPublished, { db.nextGeneration with tableFiles := db.flushManifest.tableFiles }⟩)
    | some .walTruncate => (.error ioError, ⟨db.flushPublished, db.flushInner⟩)
    | some .truncateSync => (.error ioError, ⟨{ db.flushPublished with wal := [] }, db.flushInner⟩)
    | some .walSync | none => (.ok (), db.flushed)

end Database

namespace Inner

def materializeState (inner : Inner) : SortedMap Bytes Bytes :=
  let tables := inner.tableLayers.foldl (fun state layer => state.applyUpdates layer.records.entries) SortedMap.empty
  let state := inner.state.entries.foldl (fun state entry => state.insert entry.1 entry.2) tables
  state.applyUpdates inner.pendingTable.entries

def getDurableValue (inner : Inner) (key : Bytes) : Option Bytes :=
  match inner.pendingTable.get key with
  | some value => value
  | none =>
    match inner.state.get key with
    | some value => some value
    | none => (lookupLayers inner.tableLayers key).join

end Inner

namespace Database

def compactManifest (db : Database) : Manifest :=
  let name := compactName db.inner.sequence
  ⟨formatVersion, some name, [name], db.inner.sequence⟩

def compactLayer (db : Database) : TableLayer :=
  writeTable db.inner.sequence (db.inner.materializeState.mapValues some)

def compactRenamed (db : Database) : Disk := db.renameTable (compactName db.inner.sequence) db.compactLayer

def compactAnnounced (db : Database) : Disk := { db.compactRenamed with manifest := some db.compactManifest }

def removeTables (tables : SortedMap Bytes TableLayer) (name : Bytes) (oldTables : List Bytes) :
    SortedMap Bytes TableLayer :=
  oldTables.foldl (fun tables oldTable => if oldTable = name then tables else tables.erase oldTable) tables

def compactPublished (db : Database) : Disk :=
  { db.compactAnnounced with
    tables := removeTables db.compactRenamed.tables (compactName db.inner.sequence) db.inner.tableFiles }

def compactInner (db : Database) : Inner :=
  { db.nextGeneration with
    tableFiles := db.compactManifest.tableFiles
    tableLayers := [db.compactLayer]
    tableSequence := db.inner.sequence
    state := SortedMap.empty
    pendingTable := SortedMap.empty
    pendingTableBytes := 0 }

def compacted (db : Database) : Database :=
  { disk := { db.compactPublished with wal := [] }, inner := { db.compactInner with journalBytes := 0 } }

def compactTablesLocked (fault : Option StorageFault) (db : Database) : Result Unit × Database :=
  if db.inner.recoveryRequired then (.error recoveryMessage, db)
  else
    match fault with
    | some .walSync | some .tableWrite | some .tableRename => (.error ioError, db)
    | some .manifestWrite => (.error ioError, { db with disk := db.compactRenamed })
    | some .directorySync => (.error ioError, { db with disk := db.compactAnnounced })
    | some .tableOpen =>
      (.error ioError, ⟨db.compactPublished, { db.inner with tableFiles := db.compactManifest.tableFiles }⟩)
    | some .walTruncate => (.error ioError, ⟨db.compactPublished, db.compactInner⟩)
    | some .truncateSync => (.error ioError, ⟨{ db.compactPublished with wal := [] }, db.compactInner⟩)
    | none => (.ok (), db.compacted)

end Database

def Disk.empty : Disk := ⟨none, SortedMap.empty, []⟩

end Thingd.ThingDb
