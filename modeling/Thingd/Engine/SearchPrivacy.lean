import Thingd.Engine.SearchLife

namespace Thingd.Engine

variable {codec : StorageCodec} {json : JsonReader}

namespace SearchEngine

variable {s : SearchEngine} {progress : SearchRebuildProgress} {order : List (Bytes × SearchReplayMutation)} {n : ℕ}

def indexOnDisk (s : SearchEngine) : Bool :=
  match s.searchIndex with
  | some .directory => true
  | some (.rebuild _) => true
  | _ => false

structure RamOnly (s : SearchEngine) : Prop where
  index : s.indexOnDisk = false
  directory : s.searchDirectory = none
  durable : s.inMemory = false

section

variable (h : RamOnly s)
include h

theorem ramOnly_of_eq {t : SearchEngine} (hindex : t.searchIndex = s.searchIndex)
    (hdirectory : t.searchDirectory = s.searchDirectory) (hmemory : t.inMemory = s.inMemory) : RamOnly t := by
  refine ⟨?_, hdirectory.trans h.directory, hmemory.trans h.durable⟩
  rw [indexOnDisk, hindex]
  exact h.index

theorem RamOnly.updateIndex (f : SearchIndex → SearchIndex) : RamOnly (s.updateIndex f) := by
  have hindex := h.index
  cases hplace : s.searchIndex with
  | none => simpa [SearchEngine.updateIndex, hplace] using h
  | some place =>
    cases place with
    | memory documents => exact ⟨by simp [SearchEngine.updateIndex, hplace, indexOnDisk],
        by simpa [SearchEngine.updateIndex, hplace] using h.directory,
        by simpa [SearchEngine.updateIndex, hplace] using h.durable⟩
    | directory => simp [indexOnDisk, hplace] at hindex
    | rebuild documents => simp [indexOnDisk, hplace] at hindex

theorem RamOnly.startSearchWorker : RamOnly s.startSearchWorker := by
  rw [SearchEngine.startSearchWorker]
  split_ifs
  · exact h
  · exact ramOnly_of_eq h rfl rfl rfl

theorem RamOnly.stopSearchWorker : RamOnly s.stopSearchWorker := by
  cases hqueue : s.searchQueue with
  | none => simpa [SearchEngine.stopSearchWorker, hqueue] using h
  | some queue =>
    rw [SearchEngine.stopSearchWorker]
    simp only [hqueue]
    exact ramOnly_of_eq (h.updateIndex _) rfl rfl rfl

theorem RamOnly.commitBatch : RamOnly s.commitBatch := by
  cases hqueue : s.searchQueue with
  | none => simpa [SearchEngine.commitBatch, hqueue] using h
  | some queue =>
    rw [SearchEngine.commitBatch]
    simp only [hqueue]
    exact ramOnly_of_eq (h.updateIndex _) rfl rfl rfl

theorem RamOnly.promoteSearchGeneration : s.promoteSearchGeneration = s := by
  have hindex := h.index
  cases hplace : s.searchIndex with
  | none => simp [SearchEngine.promoteSearchGeneration, hplace]
  | some place =>
    cases place with
    | memory documents => simp [SearchEngine.promoteSearchGeneration, hplace]
    | directory => simp [SearchEngine.promoteSearchGeneration, hplace]
    | rebuild documents => simp [indexOnDisk, hplace] at hindex

theorem RamOnly.finishRebuild : RamOnly (s.finishRebuild codec order) := by
  have hreplayed := h.updateIndex fun index =>
    order.foldl (replaySearchMutation codec s.objects.objects s.log.store.events) index
  have hended : RamOnly { s.updateIndex fun index => order.foldl (replaySearchMutation codec s.objects.objects
      s.log.store.events) index with searchRebuildRequired := false, searchRebuild := none } :=
    ramOnly_of_eq hreplayed rfl rfl rfl
  rw [SearchEngine.finishRebuild, hreplayed.promoteSearchGeneration]
  exact ramOnly_of_eq hended.startSearchWorker rfl rfl rfl

theorem RamOnly.rebuildPhase : RamOnly (s.rebuildPhase codec order n progress).2 := by
  cases hphase : progress.phase with
  | objects =>
    simp only [SearchEngine.rebuildPhase, hphase]
    exact ramOnly_of_eq (h.updateIndex _) rfl rfl rfl
  | events =>
    simp only [SearchEngine.rebuildPhase, hphase]
    exact ramOnly_of_eq (h.updateIndex _) rfl rfl rfl
  | replay =>
    simp only [SearchEngine.rebuildPhase, hphase]
    exact h.finishRebuild

end

theorem indexOnDisk_updateIndex (f : SearchIndex → SearchIndex) : (s.updateIndex f).indexOnDisk = s.indexOnDisk := by
  cases hplace : s.searchIndex with
  | none => simp [updateIndex, hplace]
  | some place => cases place <;> simp [updateIndex, indexOnDisk, hplace]

theorem indexOnDisk_initSearchIndex : (s.initSearchIndex true).2.indexOnDisk = true := by
  rw [initSearchIndex, if_neg (by simp)]
  simp only [if_true]
  split_ifs
  · rfl
  · contradiction
  · rfl

theorem stopSearchWorker_keeps :
    s.stopSearchWorker.inMemory = s.inMemory ∧ s.stopSearchWorker.searchRebuild = s.searchRebuild := by
  cases hqueue : s.searchQueue with
  | none => simp [stopSearchWorker, hqueue]
  | some queue =>
    simp only [stopSearchWorker, hqueue]
    cases hplace : s.searchIndex with
    | none => simp [updateIndex, hplace]
    | some place => cases place <;> simp [updateIndex, hplace]

theorem noticeStaleQueue_eq
    (h : s.searchRebuild.isNone = false ∨ (s.searchQueue.any fun queue => queue.stale) = false) :
    s.noticeStaleQueue = s := by
  rw [noticeStaleQueue]
  rcases h with h | h <;> simp [h]

theorem searchRebuildStep_of_begins (codec : StorageCodec) (order : List (Bytes × SearchReplayMutation)) (n : ℕ)
    (h : s.beginsWithoutIndex = true) :
    s.noticeStaleQueue.searchIndex = none ∧ s.noticeStaleQueue.inMemory = s.inMemory ∧
      s.searchRebuildStep codec order n =
        (false, (s.noticeStaleQueue.beginSearchRebuild codec).scanObjects n .start) := by
  rw [beginsWithoutIndex, Bool.and_eq_true, Bool.or_eq_true, Bool.and_eq_true, Option.isNone_iff_eq_none,
    Option.isNone_iff_eq_none] at h
  obtain ⟨hnone, hcase⟩ := h
  have hnotice : s.noticeStaleQueue.searchIndex = none ∧ s.noticeStaleQueue.inMemory = s.inMemory ∧
      s.noticeStaleQueue.searchRebuildRequired = true ∧ s.noticeStaleQueue.searchRebuild = none := by
    by_cases hstale : (s.searchQueue.any fun queue => queue.stale) = true
    · rw [noticeStaleQueue, if_pos (by simp [hstale, hnone])]
      exact ⟨rfl, stopSearchWorker_keeps.1, rfl, stopSearchWorker_keeps.2.trans hnone⟩
    · obtain ⟨hrequired, hindex⟩ := hcase.resolve_left hstale
      rw [noticeStaleQueue_eq (.inr (by simpa using hstale))]
      exact ⟨hindex, rfl, hrequired, hnone⟩
  obtain ⟨hindex, hmemory, hrequired, hrebuild⟩ := hnotice
  refine ⟨hindex, hmemory, ?_⟩
  simp only [searchRebuildStep, hrequired, hrebuild]
  rfl

theorem indexOnDisk_searchRebuildStep (hencrypted : codec.encrypted = true) (hdurable : s.inMemory = false)
    (h : s.beginsWithoutIndex = true) : (s.searchRebuildStep codec order n).2.indexOnDisk = true := by
  obtain ⟨hindex, hmemory, hstep⟩ := searchRebuildStep_of_begins codec order n h
  rw [hstep]
  have hbegin : (s.noticeStaleQueue.beginSearchRebuild codec).indexOnDisk = true := by
    simp only [beginSearchRebuild, hindex, hmemory, hdurable, hencrypted]
    exact indexOnDisk_initSearchIndex
  exact (indexOnDisk_updateIndex _).trans hbegin

theorem RamOnly.beginSearchRebuild (h : RamOnly s) (hindex : s.searchIndex ≠ none) :
    RamOnly (s.beginSearchRebuild codec) := by
  rw [SearchEngine.beginSearchRebuild, if_pos (Option.isSome_iff_ne_none.mpr hindex)]
  exact ramOnly_of_eq h rfl rfl rfl

theorem RamOnly.searchRebuildStep (h : RamOnly s) (hbegins : s.beginsWithoutIndex = false) :
    RamOnly (s.searchRebuildStep codec order n).2 := by
  have hnotice : s.noticeStaleQueue = s := by
    apply noticeStaleQueue_eq
    rw [beginsWithoutIndex, Bool.and_eq_false_iff, Bool.or_eq_false_iff] at hbegins
    exact hbegins.imp_right And.left
  rw [SearchEngine.searchRebuildStep, hnotice]
  cases hrequired : s.searchRebuildRequired with
  | false => exact h
  | true =>
    cases hrebuild : s.searchRebuild with
    | some progress =>
      cases hroom : progress.replayOverflow with
      | true =>
        simp only [Option.any_some, hroom]
        exact ramOnly_of_eq h rfl rfl rfl
      | false =>
        simp only [Option.any_some, hroom, Option.isNone_some]
        simp only [Bool.false_eq_true, if_false, hrebuild]
        exact h.rebuildPhase
    | none =>
      have hindex : s.searchIndex ≠ none := by
        intro hindex
        simp [beginsWithoutIndex, hrebuild, hrequired, hindex] at hbegins
      have hbegun : (s.beginSearchRebuild codec).searchRebuild = some .start := rfl
      simp only [Option.any_none, Option.isNone_none, Bool.not_true, Bool.false_eq_true, if_false, if_true]
      exact (h.beginSearchRebuild hindex).rebuildPhase

theorem directory_initSearchIndex : (s.initSearchIndex true).2.searchDirectory ≠ none := by
  rw [initSearchIndex, if_neg (by simp)]
  simp only [if_true]
  split_ifs with hdirectory
  · exact Option.isSome_iff_ne_none.mp hdirectory
  · contradiction
  · exact Option.some_ne_none _

theorem RamOnly.directory_crashDuringRebuildStep {promoted : Bool} (h : RamOnly s)
    (hbegins : s.beginsWithoutIndex = false) :
    (s.crashDuringRebuildStep codec order n promoted).searchDirectory = none := by
  have hindex := h.index
  rw [crashDuringRebuildStep, if_neg (by simp [hbegins])]
  cases hplace : s.searchIndex with
  | none => exact h.directory
  | some place =>
    cases place with
    | rebuild documents => simp [indexOnDisk, hplace] at hindex
    | _ => exact h.directory

theorem RamOnly.directory_crashDuring {now : Bytes} {call : Call} {commits : ℕ} (h : RamOnly s) :
    (s.crashDuring codec json now call commits).searchDirectory = none := by
  cases hevent : call.eventOp now with
  | some op =>
    simp only [crashDuring, hevent]
    exact h.directory
  | none =>
    simp only [crashDuring, hevent]
    split_ifs <;> exact h.directory

theorem RamOnly.directory_shutDown {drained : List Bytes} (h : RamOnly s) :
    (s.shutDown drained).searchDirectory = none := by
  have hdrained {queue : Option SearchQueue} : RamOnly { s with searchQueue := queue } := ramOnly_of_eq h rfl rfl rfl
  exact hdrained.stopSearchWorker.directory

theorem RamOnly.retrySearchRebuild {retryCount recoveryMaxRetries : ℕ} (h : RamOnly s) :
    RamOnly (s.retrySearchRebuild retryCount recoveryMaxRetries).2 := by
  rw [SearchEngine.retrySearchRebuild]
  split_ifs
  · exact h
  · exact ⟨rfl, rfl, h.durable⟩

theorem RamOnly.indexRecords (h : RamOnly s) : RamOnly s.indexRecords := h.updateIndex _

theorem RamOnly.chooseSearchIndex (hencrypted : codec.encrypted = true) (h : RamOnly s) :
    RamOnly (s.chooseSearchIndex codec).2 := by
  cases hmode : s.searchMode <;> simp only [SearchEngine.chooseSearchIndex, hmode, hencrypted]
  · exact ⟨rfl, h.directory, h.durable⟩
  · exact ⟨rfl, h.directory, h.durable⟩
  · exact h
  · exact h
  · exact h

section

variable (hencrypted : codec.encrypted = true) (disk : SearchDisk) (hdirectory : disk.searchDirectory = none)
  (options : PersistentOpenOptions) (streams : List Bytes)
include hencrypted hdirectory

theorem ramOnly_chosen : RamOnly ((load codec json disk options streams).chooseSearchIndex codec).2 :=
  RamOnly.chooseSearchIndex hencrypted ⟨rfl, hdirectory, rfl⟩

theorem ramOnly_openFromDatabase : RamOnly (openFromDatabase codec json disk options streams) := by
  have hchosen : RamOnly ((load codec json disk options streams).chooseSearchIndex codec).2 :=
    ramOnly_chosen hencrypted disk hdirectory options streams
  simp only [openFromDatabase]
  split_ifs
  · exact ramOnly_of_eq hchosen rfl rfl rfl
  · exact hchosen.indexRecords.startSearchWorker
  · exact hchosen.startSearchWorker

end

end SearchEngine

namespace SearchLife

def RamOnly : SearchLife → Prop
  | closed disk => disk.searchDirectory = none
  | opened s => s.RamOnly

def KeepsIndexInMemory : SearchLife → SearchOp → Prop
  | opened s, .rebuildStep _ _ => s.beginsWithoutIndex = false
  | opened s, .crashDuringRebuildStep _ _ _ => s.beginsWithoutIndex = false
  | _, _ => True

theorem ramOnly_step_iff (hencrypted : codec.encrypted = true) (life : SearchLife) (op : SearchOp) (h : life.RamOnly) :
    (life.step codec json op).RamOnly ↔ life.KeepsIndexInMemory op := by
  cases life with
  | closed disk =>
    apply iff_of_true _ trivial
    cases op with
    | reopen options streams => exact SearchEngine.ramOnly_openFromDatabase hencrypted disk h options streams
    | crashDuringOpen options streams commits =>
      exact (SearchEngine.ramOnly_chosen hencrypted disk h options streams).directory
    | _ => exact h
  | opened s =>
    have hsame {t : SearchEngine} := SearchEngine.ramOnly_of_eq (t := t) h
    cases op with
    | rebuildStep order batchSize =>
      cases hbegins : s.beginsWithoutIndex with
      | false => exact iff_of_true (h.searchRebuildStep hbegins) hbegins
      | true =>
        refine iff_of_false (fun hafter => ?_) (by simp [KeepsIndexInMemory, hbegins])
        exact absurd hafter.index (by simp [SearchEngine.indexOnDisk_searchRebuildStep hencrypted h.durable hbegins])
    | crashDuringRebuildStep order batchSize promoted =>
      cases hbegins : s.beginsWithoutIndex with
      | false => exact iff_of_true (h.directory_crashDuringRebuildStep hbegins) hbegins
      | true =>
        refine iff_of_false (fun hafter => ?_) (by simp [KeepsIndexInMemory, hbegins])
        have hdirectory : (s.crashDuringRebuildStep codec order batchSize promoted).searchDirectory = none := hafter
        rw [SearchEngine.crashDuringRebuildStep, if_pos (by simp [hencrypted, hbegins])] at hdirectory
        exact SearchEngine.directory_initSearchIndex hdirectory
    | call now call => exact iff_of_true (hsame rfl rfl rfl) trivial
    | take keys => exact iff_of_true (hsame rfl rfl rfl) trivial
    | commit => exact iff_of_true h.commitBatch trivial
    | fail => exact iff_of_true (hsame rfl rfl rfl) trivial
    | retry retryCount recoveryMaxRetries => exact iff_of_true h.retrySearchRebuild trivial
    | close drained => exact iff_of_true h.directory_shutDown trivial
    | crash => exact iff_of_true h.directory trivial
    | crashDuring now call commits => exact iff_of_true h.directory_crashDuring trivial
    | crashDuringOpen options streams commits => exact iff_of_true h trivial
    | reopen options streams => exact iff_of_true h trivial

end SearchLife

open Trace ObjectState

/-- Starting from a database without a search directory, an encrypted engine never makes or opens one exactly if no step
of a rebuild has to begin it without an index. -/
theorem encrypted_search_stays_in_memory_iff (hencrypted : codec.encrypted = true) (disk : SearchDisk)
    (hdirectory : disk.searchDirectory = none) (ops : List SearchOp) :
    EveryState (SearchLife.step codec json) SearchLife.RamOnly (.closed disk) ops ↔
      EveryStep (SearchLife.step codec json) SearchLife.KeepsIndexInMemory (.closed disk) ops :=
  everyState_iff_everyStep (q := fun _ => True) (fun _ _ _ => trivial)
    (fun life op _ h => SearchLife.ramOnly_step_iff hencrypted life op h) trivial hdirectory

def sampleCrypto : StorageCrypto := ⟨fun _ key => key, fun _ bytes => bytes, fun _ bytes => .ok bytes⟩

def encryptedCodec : StorageCodec := ⟨some sampleCrypto, fun bytes => .ok bytes⟩

def emptyDisk : SearchDisk := ⟨.empty, .empty, .empty, ⟨.empty, .empty⟩, none, false⟩

def secretObject : MemoryObject := ⟨⟨bytesOf "c", bytesOf "1"⟩, bytesOf "secret", 0, [], [], none⟩

theorem asynchronous_rebuild_stays_in_memory :
    EveryState (SearchLife.step encryptedCodec sampleJson) SearchLife.RamOnly (.closed emptyDisk)
      [.reopen ⟨.persistentAsync, 10000⟩ [], .call [] (.putObject secretObject none), .rebuildStep [] 10, .crash,
        .reopen ⟨.persistentAsync, 10000⟩ [], .rebuildStep [] 10, .rebuildStep [] 10] := by
  refine (encrypted_search_stays_in_memory_iff rfl emptyDisk rfl _).mpr
    ⟨trivial, trivial, ?_, trivial, trivial, ?_, ?_, trivial⟩
  · exact rfl
  · exact rfl
  · exact rfl

/-- In recovery mode, the first step of the rebuild writes the body of an object to the search directory. -/
theorem recovery_writes_search_directory :
    encryptedCodec.encrypted = true ∧
      ([SearchOp.reopen ⟨.persistentRecovery, 10000⟩ [], .call [] (.putObject secretObject none), .rebuildStep [] 10,
          .crash].foldl (SearchLife.step encryptedCodec sampleJson) (.closed emptyDisk)).disk.searchDirectory =
        some [objectDocument secretObject] := by
  decide +kernel

end Thingd.Engine
