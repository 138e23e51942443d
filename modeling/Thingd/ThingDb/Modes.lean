import Thingd.ThingDb.Memory
import Thingd.ThingDb.Recovery

namespace Thingd.ThingDb

open Bytes Writes SortedMap List

namespace Memory

section Reads

section

variable (memory : Memory) (keyspace : Keyspace)

theorem getManyShared_eq (keys : List Bytes) : memory.getManyShared keyspace keys = keys.map (memory.get keyspace) := by
  unfold getManyShared
  split_ifs with hempty
  · rw [List.isEmpty_iff.mp hempty]
    rfl
  · rfl

theorem count_eq_length : memory.count keyspace = (memory.visible keyspace ⟨none, none, none⟩).length := by
  unfold count visible
  cases memory.keyspaces.get keyspace.name with
  | none => rfl
  | some entries => simp [ScanBounds.memoryLower, ScanBounds.memoryUpper, Bound.above, Bound.below, size]

theorem length_visible_le (bounds : ScanBounds) : (memory.visible keyspace bounds).length ≤ memory.count keyspace := by
  unfold count visible
  cases memory.keyspaces.get keyspace.name with
  | none => exact le_rfl
  | some entries => exact length_filter_le _ _

theorem countPrefix_eq_length (keyPrefix : Bytes) :
    memory.countPrefix keyspace keyPrefix = (memory.visible keyspace ⟨some keyPrefix, none, none⟩).length := by
  unfold countPrefix visible
  cases memory.keyspaces.get keyspace.name with
  | none => rfl
  | some entries =>
    have hsorted : (entries.entries.filter fun entry => (Bound.included keyPrefix).above entry.1).Pairwise
        fun x y => keyPrefix.isPrefixOf y.1 = true → keyPrefix.isPrefixOf x.1 = true := by
      apply List.Pairwise.imp_of_mem _ (entries.sorted.filter _)
      intro x y hx _ hlt hy
      have hle : keyPrefix ≤ x.1 := by simpa [Bound.above] using (mem_filter.mp hx).2
      have hbelow := (isPrefix_iff_lt_successor keyPrefix y.1).mp (List.isPrefixOf_iff_prefix.mp hy)
      apply List.isPrefixOf_iff_prefix.mpr
      apply (isPrefix_iff_lt_successor keyPrefix x.1).mpr
      refine ⟨hle, ?_⟩
      cases hnext : successor keyPrefix with
      | none => rfl
      | some next =>
        rw [hnext] at hbelow
        simpa using hlt.trans (of_decide_eq_true hbelow.2)
    simp only [Option.elim_some, countMemoryPrefix]
    rw [takeWhile_eq_filter hsorted, filter_filter]
    congr 1
    apply filter_congr
    intro entry _
    rw [Bool.eq_iff_iff, within_iff_admits (Or.inr rfl), Bool.and_eq_true, List.isPrefixOf_iff_prefix]
    simp only [ScanBounds.Admits, Bound.above, decide_eq_true_eq]
    constructor
    · rintro ⟨hstarts, -⟩
      simpa using hstarts
    · rintro ⟨hstarts, -⟩
      have hentry := hstarts keyPrefix rfl
      exact ⟨hentry, ((isPrefix_iff_lt_successor _ _).mp hentry).1⟩

end

theorem get_foldl_insert_eq (writes : List Entry) (state : SortedMap Bytes Bytes) :
    (writes.foldl (fun state entry => state.insert entry.1 entry.2) state).get =
      writeAll state.get (writes.map fun entry => (entry.1, some entry.2)) := by
  induction writes generalizing state with
  | nil => rfl
  | cons entry writes ih =>
    have hinsert : (state.insert entry.1 entry.2).get = Function.update state.get entry.1 (some entry.2) := by
      funext key
      by_cases hkey : key = entry.1 <;> simp [hkey]
    rw [foldl_cons, ih, hinsert]
    rfl

theorem lastWrite_entries (entries : SortedMap Bytes Bytes) (key : Bytes) :
    lastWrite (entries.entries.map fun entry => (entry.1, some entry.2)) key = (entries.get key).map some := by
  obtain ⟨entries, hsorted⟩ := entries
  induction entries with
  | nil => rfl
  | cons entry entries ih =>
    obtain ⟨hhead, htail⟩ := pairwise_cons.mp hsorted
    rw [map_cons, lastWrite, get_cons]
    simp only [@eq_comm _ entry.1]
    split_ifs with hkey
    · have hnone : lastWrite (entries.map fun entry => (entry.1, some entry.2)) key = none := by
        apply lastWrite_eq_none
        rw [map_map]
        intro hmem
        obtain ⟨other, hother, heq⟩ := mem_map.mp hmem
        have hlt := hhead other hother
        rw [← hkey] at hlt
        exact hlt.ne heq.symm
      rw [hnone]
      rfl
    · rw [ih htail, Option.or_none]

def snapshotWrites (keyspaces : List (Bytes × SortedMap Bytes Bytes)) : List Entry :=
  keyspaces.flatMap fun keyspace => keyspace.2.entries.map fun entry => ((keyspace.1 ++ [0]) ++ entry.1, entry.2)

theorem snapshot_eq_foldl (memory : Memory) :
    memory.snapshot = (snapshotWrites memory.keyspaces.entries).foldl (fun state entry => state.insert entry.1 entry.2)
      SortedMap.empty := by
  unfold snapshot snapshotWrites
  rw [foldl_flatMap]
  congr 1
  funext state keyspace
  rw [foldl_map]

theorem lastWrite_namespace {name : Bytes} (hname : (0 : Byte) ∉ name) (entries : SortedMap Bytes Bytes)
    (keyspace : Keyspace) (key : Bytes) :
    lastWrite ((entries.entries.map fun entry => ((name ++ [0]) ++ entry.1, entry.2)).map
        fun entry => (entry.1, some entry.2)) (physicalKey keyspace key) =
      if name = keyspace.name then (entries.get key).map some else none := by
  rw [map_map]
  split_ifs with heq
  · rw [← lastWrite_entries, physicalKey, Keyspace.namespace, ← heq]
    have hinjective : Function.Injective fun user : Bytes => (name ++ [0]) ++ user := fun _ _ h => append_cancel_left h
    have hmap := lastWrite_map hinjective (entries.entries.map fun entry => (entry.1, some entry.2)) key
    rw [map_map] at hmap
    exact hmap
  · apply lastWrite_eq_none
    rw [map_map]
    intro hmem
    obtain ⟨entry, -, hkey⟩ := mem_map.mp hmem
    simp only [physicalKey, Keyspace.namespace, append_assoc] at hkey
    exact heq (append_nul_inj hname keyspace.noNul hkey).1

theorem lastWrite_snapshotWrites {keyspaces : List (Bytes × SortedMap Bytes Bytes)}
    (hsorted : keyspaces.Pairwise fun x y => x.1 < y.1) (hnul : ∀ entry ∈ keyspaces, (0 : Byte) ∉ entry.1)
    (keyspace : Keyspace) (key : Bytes) :
    lastWrite ((snapshotWrites keyspaces).map fun entry => (entry.1, some entry.2)) (physicalKey keyspace key) =
      ((SortedMap.get ⟨keyspaces, hsorted⟩ keyspace.name).bind fun entries => entries.get key).map some := by
  induction keyspaces with
  | nil => rfl
  | cons entry keyspaces ih =>
    obtain ⟨hhead, htail⟩ := pairwise_cons.mp hsorted
    have hrest := ih htail fun other hother => hnul other (mem_cons_of_mem _ hother)
    rw [snapshotWrites, flatMap_cons, map_append, lastWrite_append,
      lastWrite_namespace (hnul entry (mem_cons_self ..)), get_cons]
    split_ifs with hname
    · have hnone : SortedMap.get ⟨keyspaces, htail⟩ keyspace.name = none := by
        apply get_eq_none_iff.mpr
        intro entries hmem
        have hlt := hhead _ hmem
        rw [hname] at hlt
        exact lt_irrefl _ hlt
      rw [hnone] at hrest
      rw [snapshotWrites] at hrest
      rw [hrest]
      rfl
    · rw [Option.or_none]
      exact hrest

theorem snapshotGet_snapshot (memory : Memory) (keyspace : Keyspace) (key : Bytes) :
    snapshotGet memory.snapshot keyspace key = memory.get keyspace key := by
  have hnul : ∀ entry ∈ memory.keyspaces.entries, (0 : Byte) ∉ entry.1 :=
    fun entry hentry => memory.noNul entry.1 (mem_map_of_mem hentry)
  rw [snapshotGet, snapshot_eq_foldl, get_foldl_insert_eq, writeAll_apply,
    lastWrite_snapshotWrites memory.keyspaces.sorted hnul]
  unfold get
  cases (memory.keyspaces.get keyspace.name).bind fun entries => entries.get key <;> rfl

end Reads

end Memory

namespace Database

theorem getManyShared_eq (db : Database) (keyspace : Keyspace) (keys : List Bytes) :
    db.getManyShared keyspace keys = keys.map (db.get keyspace) := by
  unfold getManyShared getManyDurableValues
  split_ifs with hempty
  · rw [List.isEmpty_iff.mp hempty]
    rfl
  · simp only [map_map]
    apply map_congr_left
    intro key _
    simp only [Function.comp_apply, get, Inner.getDurableValue]
    cases db.inner.pendingTable.get (physicalKey keyspace key) with
    | some value => rfl
    | none => cases db.inner.state.get (physicalKey keyspace key) <;> rfl

theorem snapshotGet_snapshot (db : Database) (keyspace : Keyspace) (key : Bytes) :
    snapshotGet db.snapshot keyspace key = db.get keyspace key := db.inner.get_materializeState _

theorem length_pageOf_of_le {α : Type} {entries : List α} {limit : ℕ} (h : entries.length ≤ limit) :
    (pageOf 0 (some limit) entries).length = entries.length := by
  simp [pageOf, h]

end Database

section Live

def Unflushed (inner : Inner) : Prop := ∀ key, inner.pendingTable.get key = none → inner.state.get key = none

theorem Unflushed.applyOperation {inner : Inner} (h : Unflushed inner) (operation : Operation) :
    Unflushed (applyOperationWithPending inner operation) := by
  intro key hpending
  simp only [applyOperationWithPending, get_insert] at hpending ⊢
  split_ifs at hpending with hkey
  rw [get_applyOperation, Function.update_of_ne hkey]
  exact h key hpending

theorem Unflushed.applyRequests {inner : Inner} (h : Unflushed inner) (requests : List CommitRequest) :
    Unflushed (applyRequests inner requests) := by
  rw [applyRequests_eq]
  exact List.foldlRecOn _ _ h fun _ h operation _ => h.applyOperation operation

theorem Unflushed.getDurableValue_flushed {db : Database} (h : Unflushed db.inner) (key : Bytes) :
    db.flushed.inner.getDurableValue key = db.inner.getDurableValue key := by
  apply (getDurableValue_flushed_eq_iff db key).mpr
  intro value hpending hstate
  rw [h key hpending] at hstate
  cases hstate

structure SameEntries (memory : Memory) (db : Database) : Prop where
  unflushed : Unflushed db.inner
  entries : ∀ keyspace key, memory.get keyspace key = db.get keyspace key

def commitBatches (memory : Memory) (batches : List Batch) : Result Memory :=
  batches.foldlM (fun memory batch => memory.commitBatch batch.operations) memory

def SessionStep.Live : SessionStep → Prop
  | .reopen _ => False
  | _ => True

theorem commitBatches_eq (memory : Memory) (batches : List Batch) :
    ∃ next, commitBatches memory batches = .ok next ∧
      ∀ keyspace key, next.get keyspace key =
        (lastWrite (batchWrites batches) (keyspace, key)).getD (memory.get keyspace key) := by
  induction batches generalizing memory with
  | nil => exact ⟨memory, rfl, fun _ _ => rfl⟩
  | cons batch batches ih =>
    obtain ⟨next, hnext, hget⟩ := ih (batch.operations.foldl Memory.applyMemoryBatchOperation memory)
    refine ⟨next, ?_, ?_⟩
    · unfold commitBatches at hnext ⊢
      rw [foldlM_cons, Memory.commitBatch_eq]
      exact hnext
    · intro keyspace key
      rw [hget, Memory.get_foldl_apply, writeAll_apply]
      have hwrites : batchWrites (batch :: batches) =
        batch.operations.map BatchOperation.write ++ batchWrites batches :=
        flatMap_cons
      rw [hwrites, lastWrite_append]
      cases lastWrite (batchWrites batches) (keyspace, key) <;> rfl

theorem commitBatches_append (memory : Memory) (batches later : List Batch) :
    commitBatches memory (batches ++ later) = (commitBatches memory batches).bind (commitBatches · later) :=
  foldlM_append

theorem SameEntries.step {memory : Memory} {db db' : Database} {action : SessionStep} (h : SameEntries memory db)
    (hlive : action.Live) (hstep : advance db action.action = some db') :
    ∃ next, commitBatches memory action.batches = .ok next ∧ SameEntries next db' := by
  obtain ⟨hroom, hok⟩ := advance_eq_some hstep
  cases action with
  | commit group =>
    obtain ⟨bytes, -, rfl⟩ := Database.commit_ok hok hroom
    obtain ⟨next, hnext, hget⟩ := commitBatches_eq memory group
    refine ⟨next, hnext, h.unflushed.applyRequests _, fun keyspace key => ?_⟩
    have hview : (db.commitGroup (group.map Batch.request) bytes
        (db.inner.sequence + 1 + (group.map Batch.request).length)).get keyspace key =
        writeAll db.inner.getDurableValue (CommitRequest.writes (group.map Batch.request)) (physicalKey keyspace key) :=
      congrFun (Inner.getDurableValue_applyRequests db.inner _) _
    rw [hview, writeAll_apply, lastWrite_request, hget, h.entries]
    rfl
  | flush =>
    obtain ⟨-, ⟨-, rfl⟩ | ⟨-, rfl⟩⟩ := Database.flushTableLocked_ok (finish_ok hok)
    · exact ⟨memory, rfl, h⟩
    · exact ⟨memory, rfl, fun _ _ => rfl, fun keyspace key =>
        (h.entries keyspace key).trans (h.unflushed.getDurableValue_flushed _).symm⟩
  | compact =>
    obtain ⟨-, rfl⟩ := Database.compactTablesLocked_ok (finish_ok hok)
    exact ⟨memory, rfl, fun _ _ => rfl, fun keyspace key =>
      (h.entries keyspace key).trans (Database.getDurableValue_compacted db _).symm⟩
  | reopen builder => exact hlive.elim

theorem SameEntries.run {memory : Memory} {db db' : Database} {steps : List SessionStep} (h : SameEntries memory db)
    (hlive : ∀ action ∈ steps, action.Live) (hrun : ThingDb.run db (steps.map SessionStep.action) = some db') :
    ∃ next, commitBatches memory (acknowledged steps) = .ok next ∧ SameEntries next db' := by
  induction steps generalizing memory db with
  | nil =>
    cases hrun
    exact ⟨memory, rfl, h⟩
  | cons action steps ih =>
    obtain ⟨mid, hmid, hrest⟩ := Option.bind_eq_some_iff.mp hrun
    obtain ⟨between, hbetween, hsame⟩ := h.step (hlive action (mem_cons_self ..)) hmid
    obtain ⟨next, hnext, hend⟩ := ih hsame (fun other hother => hlive other (mem_cons_of_mem _ hother)) hrest
    refine ⟨next, ?_, hend⟩
    have hsplit : acknowledged (action :: steps) = action.batches ++ acknowledged steps := flatMap_cons
    rw [hsplit, commitBatches_append, hbetween]
    exact hnext

theorem sameEntries_opened {builder : DatabaseBuilder} {db : Database} (h : openLocked builder Disk.empty = .ok db) :
    SameEntries Memory.empty db := by
  have hlayout : TableLayout Disk.empty [] 0 [] := TableLayout.empty []
  rw [openLocked_eq builder hlayout] at h
  cases h
  exact ⟨fun _ _ => rfl, fun _ _ => rfl⟩

end Live

namespace SameEntries

variable {memory : Memory} {db : Database}

theorem visible_eq (h : SameEntries memory db) (keyspace : Keyspace) {bounds : ScanBounds}
    (hpublic : bounds.keyPrefix = none ∨ bounds.finish = none) :
    db.inner.visible keyspace.namespace bounds = memory.visible keyspace bounds := by
  apply (db.matching_visible keyspace bounds).unique
  have hview : db.get keyspace = memory.get keyspace := funext fun key => (h.entries keyspace key).symm
  rw [hview]
  exact memory.matching_visible keyspace hpublic

theorem count (h : SameEntries memory db) {keyspace : Keyspace} (hsize : memory.count keyspace ≤ u64Max) :
    db.count keyspace = memory.count keyspace := by
  rw [Memory.count_eq_length] at hsize ⊢
  rw [Database.count, Database.count_eq, h.visible_eq keyspace (Or.inl rfl), Database.length_pageOf_of_le hsize]

theorem countPrefix (h : SameEntries memory db) {keyspace : Keyspace} (hsize : memory.count keyspace ≤ u64Max)
    (keyPrefix : Bytes) : db.countPrefix keyspace keyPrefix = memory.countPrefix keyspace keyPrefix := by
  have hle := (memory.length_visible_le keyspace ⟨some keyPrefix, none, none⟩).trans hsize
  rw [Memory.countPrefix_eq_length, Database.countPrefix, Database.count_eq, h.visible_eq keyspace (Or.inr rfl),
    Database.length_pageOf_of_le hle]

end SameEntries

structure ReadsAgree (memory : Memory) (db : Database) (keyspace : Keyspace) : Prop where
  get : ∀ key, db.get keyspace key = memory.get keyspace key
  getManyShared : ∀ keys, db.getManyShared keyspace keys = memory.getManyShared keyspace keys
  count : memory.count keyspace ≤ u64Max → db.count keyspace = memory.count keyspace
  countPrefix : ∀ keyPrefix, memory.count keyspace ≤ u64Max →
    db.countPrefix keyspace keyPrefix = memory.countPrefix keyspace keyPrefix
  snapshot : ∀ key, snapshotGet db.snapshot keyspace key = snapshotGet memory.snapshot keyspace key

theorem SameEntries.readsAgree {memory : Memory} {db : Database} (h : SameEntries memory db) (keyspace : Keyspace) :
    ReadsAgree memory db keyspace where
  get key := (h.entries keyspace key).symm
  getManyShared keys := by
    rw [Database.getManyShared_eq, Memory.getManyShared_eq]
    exact map_congr_left fun key _ => (h.entries keyspace key).symm
  count := h.count
  countPrefix keyPrefix hsize := h.countPrefix hsize keyPrefix
  snapshot key := by rw [db.snapshotGet_snapshot, memory.snapshotGet_snapshot, h.entries]

/-- A database in memory and one on disk that is never closed answer every read alike after the same batches, and a
scan alike when neither passes bounds to `BTreeMap::range` that it rejects. -/
theorem modes_agree_iff {builder : DatabaseBuilder} {opened db : Database} {steps : List SessionStep}
    (hopened : openLocked builder Disk.empty = .ok opened) (hlive : ∀ action ∈ steps, action.Live)
    (hrun : run opened (steps.map SessionStep.action) = some db) :
    ∃ memory, commitBatches Memory.empty (acknowledged steps) = .ok memory ∧
      ∀ keyspace, ReadsAgree memory db keyspace ∧
        ∀ (emptied durableEmptied : Bool) (scan : Scan),
          (∃ page, memory.scan emptied keyspace scan = some page ∧ db.scan durableEmptied keyspace scan = some page) ↔
            ¬ memory.Panics emptied keyspace scan ∧ ¬ Panics db.inner durableEmptied scan := by
  obtain ⟨memory, hmemory, hsame⟩ := (sameEntries_opened hopened).run hlive hrun
  refine ⟨memory, hmemory, fun keyspace => ⟨hsame.readsAgree keyspace, fun emptied durableEmptied scan => ?_⟩⟩
  constructor
  · rintro ⟨page, hmemoryScan, hdurableScan⟩
    constructor
    · intro hpanics
      rw [Memory.scan_of_panics hpanics] at hmemoryScan
      cases hmemoryScan
    · intro hpanics
      rw [Database.scan_of_panics hpanics] at hdurableScan
      cases hdurableScan
  · rintro ⟨hmemoryPanics, hdurablePanics⟩
    refine ⟨_, Memory.scan_of_not_panics hmemoryPanics, ?_⟩
    rw [Database.scan_of_not_panics hdurablePanics, hsame.visible_eq keyspace scan.bounds_public]

def sampleSession : List SessionStep := [.commit [sampleBatch [1] (some [1])], .flush]

theorem modes_agree_after_flush :
    ∃ opened db, openLocked sampleBuilder Disk.empty = .ok opened ∧
      run opened (sampleSession.map SessionStep.action) = some db ∧
      ∃ memory, commitBatches Memory.empty (acknowledged sampleSession) = .ok memory ∧
        ∀ keyspace, ReadsAgree memory db keyspace ∧
          ∀ (emptied durableEmptied : Bool) (scan : Scan),
            (∃ page, memory.scan emptied keyspace scan = some page ∧ db.scan durableEmptied keyspace scan = some page) ↔
              ¬ memory.Panics emptied keyspace scan ∧ ¬ Panics db.inner durableEmptied scan := by
  have hruns : ((openLocked sampleBuilder Disk.empty).toOption.any fun opened =>
      (run opened (sampleSession.map SessionStep.action)).isSome) = true := by decide +kernel
  cases hopened : openLocked sampleBuilder Disk.empty with
  | error message =>
    rw [hopened] at hruns
    cases hruns
  | ok opened =>
    rw [hopened] at hruns
    obtain ⟨db, hdb⟩ := Option.isSome_iff_exists.mp hruns
    refine ⟨opened, db, rfl, hdb, modes_agree_iff hopened ?_ hdb⟩
    simp [sampleSession, SessionStep.Live]

-- the bounds admit no key: the durable scan is empty, the range over the map is rejected
theorem reversed_range_panics_in_memory :
    ∃ memory ∈ (commitBatches Memory.empty [sampleBatch [1] (some [1])]).toOption,
      ∃ db ∈ sampleRun [.commit [(sampleBatch [1] (some [1])).request]],
        memory.scan false sampleKeyspace (.rangeBounds (some ([2], true)) (some ([1], true))) = none ∧
          db.scan false sampleKeyspace (.rangeBounds (some ([2], true)) (some ([1], true))) = some [] := by
  decide +kernel

end Thingd.ThingDb
