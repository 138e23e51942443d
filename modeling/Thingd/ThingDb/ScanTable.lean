import Thingd.ThingDb.ScanFirst

namespace Thingd.ThingDb

open Merge TableScanCursor MemtableChunk List

section PartitionPoint

variable {α : Type} {p q : α → Bool} {xs : List α}

theorem partitionPoint_cons (p : α → Bool) (x : α) (xs : List α) :
    partitionPoint p (x :: xs) = if p x then partitionPoint p xs + 1 else 0 := by
  cases hx : p x <;> simp [partitionPoint, hx]

theorem drop_partitionPoint (hdown : xs.Pairwise fun x y => p y = true → p x = true) :
    xs.drop (partitionPoint p xs) = xs.filter fun x => !p x := by
  induction xs with
  | nil => rfl
  | cons x xs ih =>
    obtain ⟨hx, hxs⟩ := pairwise_cons.mp hdown
    rw [partitionPoint_cons]
    by_cases hp : p x = true
    · rw [if_pos hp, drop_succ_cons, ih hxs, filter_cons_of_neg (by simp [hp])]
    · have hkeep : xs.filter (fun y => !p y) = xs := by
        apply filter_eq_self.mpr
        intro y hy
        by_contra hpy
        exact hp (hx y hy (by simpa using hpy))
      rw [if_neg hp, drop_zero, filter_cons_of_pos (by simpa using hp), hkeep]

theorem take_partitionPoint (hdown : xs.Pairwise fun x y => p y = true → p x = true) :
    xs.take (partitionPoint p xs) = xs.filter p := by
  induction xs with
  | nil => rfl
  | cons x xs ih =>
    obtain ⟨hx, hxs⟩ := pairwise_cons.mp hdown
    rw [partitionPoint_cons]
    by_cases hp : p x = true
    · rw [if_pos hp, take_succ_cons, ih hxs, filter_cons_of_pos hp]
    · have hnone : xs.filter p = [] := by
        apply filter_eq_nil_iff.mpr
        exact fun y hy hpy => hp (hx y hy hpy)
      rw [if_neg hp, take_zero, filter_cons_of_neg hp, hnone]

theorem partitionPoint_mono (h : ∀ x, p x = true → q x = true) (xs : List α) :
    partitionPoint p xs ≤ partitionPoint q xs := by
  induction xs with
  | nil => exact le_rfl
  | cons x xs ih =>
    rw [partitionPoint_cons, partitionPoint_cons]
    by_cases hp : p x = true
    · rw [if_pos hp, if_pos (h x hp)]
      omega
    · rw [if_neg hp]
      omega

theorem filter_between_eq_nil (hp : xs.Pairwise fun x y => p y = true → p x = true)
    (hq : xs.Pairwise fun x y => q y = true → q x = true) (h : partitionPoint q xs ≤ partitionPoint p xs) :
    xs.filter (fun x => !p x && q x) = [] := by
  have hsplit : xs.filter (fun x => !p x && q x) = (xs.filter q).filter fun x => !p x := by
    rw [filter_filter]
  rw [hsplit, ← take_partitionPoint hq]
  apply filter_eq_nil_iff.mpr
  intro x hx hpx
  have hmem : x ∈ xs.take (partitionPoint p xs) := take_subset_take_left xs h hx
  rw [take_partitionPoint hp] at hmem
  rw [(mem_filter.mp hmem).2] at hpx
  cases hpx

end PartitionPoint

section Chunk

variable {β : Type} {map : SortedMap Bytes β} {value : β → Option Bytes} {lower : Bytes} {upper after : Option Bytes}

section

variable (map : SortedMap Bytes β) (value : β → Option Bytes) (lower : Bytes)

def rangeRecords (upper after : Option Bytes) : List Record :=
  (mapRange map lower upper after).map fun entry => (entry.1, value entry.2)

def MemtableChunk.remaining (upper : Option Bytes) (chunk : MemtableChunk) : List Record :=
  chunk.records ++ if chunk.hasMore then rangeRecords map value lower upper chunk.after else []

theorem remaining_capture (upper after : Option Bytes) :
    (captureDurableMemtableChunk map value lower upper after).remaining map value lower upper =
      rangeRecords map value lower upper after := by
  unfold captureDurableMemtableChunk remaining
  dsimp only
  by_cases hmore : durableScanMemtableChunkSize < (mapRange map lower upper after).length
  · rw [if_pos (decide_eq_true hmore)]
    have hne : (mapRange map lower upper after).take durableScanMemtableChunkSize ≠ [] := by
      apply ne_nil_of_length_pos
      rw [length_take, min_eq_left hmore.le]
      exact Nat.succ_pos 255
    obtain ⟨before, last, hlast⟩ := eq_nil_or_concat _ |>.resolve_left hne
    have hsplit : mapRange map lower upper after =
        before ++ last :: (mapRange map lower upper after).drop durableScanMemtableChunkSize := by
      conv_lhs => rw [← take_append_drop durableScanMemtableChunkSize (mapRange map lower upper after), hlast]
      simp
    have hafter : (((mapRange map lower upper after).take durableScanMemtableChunkSize).map
        fun entry => (entry.1, value entry.2)).getLast?.map Prod.fst = some last.1 := by
      rw [hlast]
      simp
    rw [hafter, rangeRecords, mapRange_next hsplit, ← map_append, take_append_drop]
    rfl
  · rw [if_neg (by simpa using hmore), append_nil, take_of_length_le (not_lt.mp hmore)]
    rfl

end

section

variable (chunk : MemtableChunk)

theorem remaining_refill :
    (refill map value lower upper chunk).remaining map value lower upper = chunk.remaining map value lower upper := by
  unfold refill
  split_ifs with hempty
  · obtain ⟨hrecords, hmore⟩ := Bool.and_eq_true_iff.mp hempty
    rw [remaining_capture, remaining, if_pos hmore, List.isEmpty_iff.mp hrecords, nil_append]
  · rfl

theorem refill_records (h : (refill map value lower upper chunk).records = []) :
    (refill map value lower upper chunk).hasMore = false := by
  unfold refill at h ⊢
  split_ifs at h ⊢ with hempty
  · have hrange : mapRange map lower upper chunk.after = [] := by
      simpa [captureDurableMemtableChunk, durableScanMemtableChunkSize] using h
    simp [captureDurableMemtableChunk, hrange]
  · simpa [h] using hempty

theorem refill_refill :
    refill map value lower upper (refill map value lower upper chunk) = refill map value lower upper chunk := by
  apply if_neg
  rw [Bool.and_eq_true_iff, List.isEmpty_iff]
  rintro ⟨hrecords, hmore⟩
  rw [refill_records chunk hrecords] at hmore
  cases hmore

theorem follows_chunk (hbelow : ∀ record ∈ chunk.remaining map value lower upper, belowUpper upper record.1 = true) :
    Follows Prod.fst (belowUpper upper) (fun chunk => chunk.records.head?)
      (fun chunk => refill map value lower upper chunk.dropHead) (refill map value lower upper chunk)
      (chunk.remaining map value lower upper) := by
  generalize hremaining : chunk.remaining map value lower upper = records at hbelow ⊢
  induction records generalizing chunk with
  | nil =>
    have hrecords := @remaining_refill _ map value lower upper chunk
    rw [hremaining, remaining] at hrecords
    intro record hrecord
    dsimp only at hrecord
    rw [(append_eq_nil_iff.mp hrecords).1] at hrecord
    cases hrecord
  | cons record records ih =>
    have hrecords := @remaining_refill _ map value lower upper chunk
    rw [hremaining, remaining] at hrecords
    cases hhead : (refill map value lower upper chunk).records with
    | nil =>
      rw [hhead, refill_records chunk hhead] at hrecords
      cases hrecords
    | cons first rest =>
      rw [hhead, cons_append, List.cons.injEq] at hrecords
      obtain ⟨rfl, hrest⟩ := hrecords
      have hdrop : (refill map value lower upper chunk).dropHead.remaining map value lower upper = records := by
        rw [← hrest]
        simp [remaining, dropHead, hhead]
      refine ⟨by dsimp only; rw [hhead]; rfl, hbelow first mem_cons_self, ?_⟩
      exact ih _ hdrop fun r hr => hbelow r (mem_cons_of_mem _ hr)

theorem refill_advanceAt (key : Bytes) :
    refill map value lower upper (advanceAt Prod.fst (fun chunk : MemtableChunk => chunk.records.head?)
        dropHead key (refill map value lower upper chunk)) =
      advanceAt Prod.fst (fun chunk : MemtableChunk => chunk.records.head?)
        (fun chunk => refill map value lower upper chunk.dropHead) key (refill map value lower upper chunk) := by
  unfold advanceAt
  split_ifs
  · rfl
  · exact refill_refill chunk

end

end Chunk

section Cursor

variable {lower : Bytes} {upper after : Option Bytes}

def fromStart (lower : Bytes) (after : Option Bytes) (key : Bytes) : Bool :=
  match after with
  | some after => after < key
  | none => lower ≤ key

theorem inRange_eq (lower : Bytes) (upper after : Option Bytes) (key : Bytes) :
    inRange lower upper after key = (fromStart lower after key && belowUpper upper key) := by
  cases after <;> rfl

theorem fromStart_up {x y : Bytes} (hle : x ≤ y) (h : fromStart lower after x = true) :
    fromStart lower after y = true := by
  cases after with
  | none => simpa [fromStart] using (show lower ≤ x by simpa [fromStart] using h).trans hle
  | some cursor => simpa [fromStart] using (show cursor < x by simpa [fromStart] using h).trans_le hle

theorem le_of_fromStart {key : Bytes} (hafter : after = none ∨ after = some lower)
    (h : fromStart lower after key = true) : lower ≤ key := by
  rcases hafter with rfl | rfl
  · simpa [fromStart] using h
  · exact le_of_lt (by simpa [fromStart] using h)

theorem startIndex_eq (hafter : after = none ∨ after = some lower) (records : List Record) :
    startIndex lower after records = partitionPoint (fun record => !fromStart lower after record.1) records := by
  have hpoint {p q : Record → Bool} (hpq : ∀ record, p record = q record) :
      partitionPoint p records = partitionPoint q records := by rw [funext hpq]
  rcases hafter with rfl | rfl
  · apply hpoint
    intro record
    rw [Bool.eq_iff_iff]
    simp [fromStart]
  · have hle : partitionPoint (fun record : Record => record.1 < lower) records ≤
        partitionPoint (fun record : Record => record.1 ≤ lower) records := by
      apply partitionPoint_mono
      intro record hrecord
      exact decide_eq_true (le_of_lt (of_decide_eq_true hrecord))
    rw [startIndex, max_eq_left hle]
    apply hpoint
    intro record
    rw [Bool.eq_iff_iff]
    simp [fromStart]

variable {records : List Record}

section

variable (hsorted : records.Pairwise fun x y => x.1 < y.1)
include hsorted

theorem fromStart_down :
    records.Pairwise fun x y => (!fromStart lower after y.1) = true → (!fromStart lower after x.1) = true := by
  apply hsorted.imp
  intro x y hlt hy
  by_contra hx
  rw [fromStart_up hlt.le (by simpa using hx)] at hy
  cases hy

theorem belowUpper_pairwise : records.Pairwise fun x y => belowUpper upper y.1 = true → belowUpper upper x.1 = true :=
  hsorted.imp fun hlt => belowUpper_down _ _ (le_of_lt hlt)

theorem drop_startIndex (hafter : after = none ∨ after = some lower) :
    records.drop (startIndex lower after records) = records.filter fun record => fromStart lower after record.1 := by
  rw [startIndex_eq hafter, drop_partitionPoint (fromStart_down hsorted)]
  simp

end

structure BlockLoad (lower : Bytes) (upper after : Option Bytes) (blocks : List TableBlock)
    (loaded : List TableBlock × List Record) : Prop where
  suffix : loaded.2 ++ loaded.1.flatMap TableBlock.records <:+ blocks.flatMap TableBlock.records
  filtered : (loaded.2 ++ loaded.1.flatMap TableBlock.records).filter (fun record => belowUpper upper record.1) =
    (blocks.flatMap TableBlock.records).filter fun record => inRange lower upper after record.1
  started : loaded.2 ≠ [] → ∀ record ∈ loaded.2 ++ loaded.1.flatMap TableBlock.records,
    fromStart lower after record.1 = true
  finished : loaded.2 = [] → (blocks.flatMap TableBlock.records).filter
    (fun record => inRange lower upper after record.1) = []

variable {blocks : List TableBlock} {cursor : TableScanCursor}

theorem BlockLoad.skip {block : TableBlock} {loaded : List TableBlock × List Record}
    (h : BlockLoad lower upper after blocks loaded)
    (hblock : block.records.filter (fun record => inRange lower upper after record.1) = []) :
    BlockLoad lower upper after (block :: blocks) loaded where
  suffix := by
    rw [flatMap_cons]
    exact h.suffix.trans (suffix_append _ _)
  filtered := by
    rw [h.filtered, flatMap_cons, filter_append, hblock, nil_append]
  started := h.started
  finished := by
    rw [flatMap_cons, filter_append, hblock]
    exact h.finished

theorem endIndex_eq (upper : Option Bytes) (records : List Record) :
    endIndex upper records = partitionPoint (fun record => belowUpper upper record.1) records := by
  cases upper with
  | some bound => rfl
  | none =>
    have hall : records.takeWhile (fun record => belowUpper none record.1) = records := by
      apply takeWhile_eq_self_iff.mpr
      intro record _
      rfl
    rw [partitionPoint, hall]
    rfl

theorem nextBlock_load (hafter : after = none ∨ after = some lower)
    (hsorted : (blocks.flatMap TableBlock.records).Pairwise fun x y => x.1 < y.1) :
    BlockLoad lower upper after blocks (nextBlock lower upper after blocks) := by
  induction blocks with
  | nil => exact ⟨suffix_rfl, rfl, by simp [nextBlock], by simp⟩
  | cons block blocks ih =>
    rw [flatMap_cons] at hsorted
    obtain ⟨hblock, hblocks, hcross⟩ := pairwise_append.mp hsorted
    have hload := ih hblocks
    rw [nextBlock]
    by_cases hlast : block.lastKey < lower
    · rw [if_pos hlast]
      apply hload.skip
      apply filter_eq_nil_iff.mpr
      intro record hrecord hrange
      rw [inRange_eq, Bool.and_eq_true] at hrange
      have hle := (le_of_fromStart hafter hrange.1).trans (TableBlock.le_lastKey hblock hrecord)
      exact absurd hlast (not_lt.mpr hle)
    rw [if_neg hlast]
    by_cases hfirst : upper.any (· ≤ block.firstKey) = true
    · rw [if_pos hfirst]
      have habove : ∀ record ∈ block.records ++ blocks.flatMap TableBlock.records,
        belowUpper upper record.1 = false := by
        intro record hrecord
        have hle : block.firstKey ≤ record.1 := by
          rcases mem_append.mp hrecord with hmem | hmem
          · exact TableBlock.firstKey_le hblock hmem
          · exact (hcross _ (head_mem block.nonempty) record hmem).le
        by_contra hbelow
        have hdown := belowUpper_down _ _ hle (by simpa using hbelow)
        rw [belowUpper_eq_not_any, hfirst] at hdown
        cases hdown
      have hnone : (block.records ++ blocks.flatMap TableBlock.records).filter
          (fun record => inRange lower upper after record.1) = [] := by
        apply filter_eq_nil_iff.mpr
        intro record hrecord hrange
        rw [inRange_eq, habove record hrecord, Bool.and_false] at hrange
        cases hrange
      refine ⟨?_, ?_, by simp, fun _ => hnone⟩
      · rw [flatMap_cons]
        exact suffix_append _ _
      · rw [flatMap_cons, hnone]
        apply filter_eq_nil_iff.mpr
        intro record hrecord
        rw [habove record (mem_append_right _ hrecord)]
        exact Bool.false_ne_true
    rw [if_neg hfirst]
    rw [endIndex_eq]
    by_cases hindex : startIndex lower after block.records <
        partitionPoint (fun record => belowUpper upper record.1) block.records
    · rw [if_pos hindex]
      have hlen : startIndex lower after block.records < block.records.length :=
        hindex.trans_le (takeWhile_sublist _).length_le
      have hne : block.records.drop (startIndex lower after block.records) ≠ [] := by
        rw [ne_eq, drop_eq_nil_iff]
        exact not_le.mpr hlen
      have hdrop := drop_startIndex hblock hafter
      obtain ⟨first, hfirstMem⟩ := exists_mem_of_ne_nil _ hne
      have hstarted : ∀ record ∈ blocks.flatMap TableBlock.records, fromStart lower after record.1 = true := by
        intro record hrecord
        have hmem := hfirstMem
        rw [hdrop] at hmem
        obtain ⟨hmem, hfrom⟩ := mem_filter.mp hmem
        exact fromStart_up (hcross first hmem record hrecord).le hfrom
      refine ⟨?_, ?_, ?_, fun hnil => absurd hnil hne⟩
      · rw [flatMap_cons]
        exact (suffix_append_inj_of_length_eq rfl).mpr ⟨drop_suffix _ _, rfl⟩
      · rw [flatMap_cons, filter_append, filter_append, hdrop, filter_filter]
        congr 1
        · apply filter_congr
          intro record _
          rw [inRange_eq, Bool.and_comm]
        · apply filter_congr
          intro record hrecord
          rw [inRange_eq, hstarted record hrecord, Bool.true_and]
      · intro _ record hrecord
        rcases mem_append.mp hrecord with hmem | hmem
        · rw [hdrop] at hmem
          exact (mem_filter.mp hmem).2
        · exact hstarted record hmem
    · rw [if_neg hindex]
      apply hload.skip
      have hnone := filter_between_eq_nil (fromStart_down hblock) (belowUpper_pairwise hblock)
        ((not_lt.mp hindex).trans_eq (startIndex_eq hafter block.records))
      rw [← hnone]
      apply filter_congr
      intro record _
      rw [inRange_eq, Bool.not_not]

def TableScanCursor.unread (cursor : TableScanCursor) : List Record :=
  match cursor.legacyEntries with
  | some entries => entries
  | none => cursor.blocks.flatMap TableBlock.records

def TableScanCursor.total (cursor : TableScanCursor) : List Record := cursor.records ++ cursor.unread

structure CursorAt (lower : Bytes) (upper : Option Bytes) (cursor : TableScanCursor) (records : List Record) :
    Prop where
  sorted : cursor.total.Pairwise fun x y => x.1 < y.1
  below : cursor.total.filter (fun record => belowUpper upper record.1) = records
  loaded : cursor.records = [] → records = []
  started : cursor.records ≠ [] → ∀ record ∈ cursor.total, lower ≤ record.1

theorem loadNextLegacyEntry_at {entries : List Record} (hlegacy : cursor.legacyEntries = some entries)
    (hsorted : entries.Pairwise fun x y => x.1 < y.1) (hlower : ∀ record ∈ entries, lower ≤ record.1) :
    CursorAt lower upper (cursor.loadNextLegacyEntry lower upper)
      (entries.filter fun record => belowUpper upper record.1) := by
  obtain ⟨blocks, legacyEntries, read⟩ := cursor
  obtain rfl : legacyEntries = some entries := hlegacy
  unfold loadNextLegacyEntry
  cases entries with
  | nil => exact ⟨List.Pairwise.nil, rfl, fun _ => rfl, fun hne => absurd rfl hne⟩
  | cons entry entries =>
    dsimp only
    by_cases hstop : (decide (entry.1 < lower) || upper.any (· ≤ entry.1)) = true
    · rw [if_pos hstop]
      have hnlt : ¬ entry.1 < lower := not_lt.mpr (hlower entry mem_cons_self)
      have hup : upper.any (· ≤ entry.1) = true := by simpa [hnlt] using hstop
      have hnone : (entry :: entries).filter (fun record => belowUpper upper record.1) = [] := by
        apply filter_eq_nil_iff.mpr
        intro record hrecord hbelow
        have hle : entry.1 ≤ record.1 := by
          rcases mem_cons.mp hrecord with rfl | hlater
          · exact le_rfl
          · exact ((pairwise_cons.mp hsorted).1 record hlater).le
        have hdown := belowUpper_down _ _ hle hbelow
        rw [belowUpper_eq_not_any, hup] at hdown
        cases hdown
      exact ⟨hsorted, rfl, fun _ => hnone, fun hne => absurd rfl hne⟩
    · rw [if_neg hstop]
      refine ⟨hsorted, rfl, ?_, fun _ => hlower⟩
      intro hnil
      cases hnil

theorem loadNextBlock_at (hafter : after = none ∨ after = some lower) (hlegacy : cursor.legacyEntries = none)
    (hsorted : (cursor.blocks.flatMap TableBlock.records).Pairwise fun x y => x.1 < y.1) :
    CursorAt lower upper (cursor.loadNextBlock lower upper after)
      ((cursor.blocks.flatMap TableBlock.records).filter fun record => inRange lower upper after record.1) := by
  have hload := @nextBlock_load lower upper after cursor.blocks hafter hsorted
  have htotal : (cursor.loadNextBlock lower upper after).total =
      (nextBlock lower upper after cursor.blocks).2 ++
        (nextBlock lower upper after cursor.blocks).1.flatMap TableBlock.records := by
    simp [total, unread, loadNextBlock, hlegacy]
  refine ⟨?_, ?_, hload.finished, ?_⟩
  · rw [htotal]
    exact hsorted.sublist hload.suffix.sublist
  · rw [htotal]
    exact hload.filtered
  · intro hne record hrecord
    rw [htotal] at hrecord
    exact le_of_fromStart hafter (hload.started hne record hrecord)

theorem CursorAt.advance {record : Record} (h : CursorAt lower upper cursor (record :: records)) :
    cursor.head = some record ∧ CursorAt lower upper (cursor.advance lower upper) records := by
  have hne : cursor.records ≠ [] := fun hnil => by cases h.loaded hnil
  obtain ⟨first, rest, hrecords⟩ := exists_cons_of_ne_nil hne
  have hlower := h.started hne
  have hbelow := h.below
  have hsorted := h.sorted
  have htotal : cursor.total = first :: (rest ++ cursor.unread) := by
    rw [total, hrecords]
    rfl
  rw [htotal] at hbelow hsorted hlower
  obtain ⟨hfirst, hrest⟩ := pairwise_cons.mp hsorted
  have hhead : belowUpper upper first.1 = true := by
    by_contra habove
    have hmem : record ∈ (first :: (rest ++ cursor.unread)).filter (fun record => belowUpper upper record.1) := by
      rw [hbelow]
      exact mem_cons_self
    obtain ⟨hmem, hrecord⟩ := mem_filter.mp hmem
    rcases mem_cons.mp hmem with rfl | hlater
    · exact habove hrecord
    · exact habove (belowUpper_down _ _ (hfirst record hlater).le hrecord)
  rw [filter_cons_of_pos (by simpa using hhead), List.cons.injEq] at hbelow
  obtain ⟨rfl, hbelow⟩ := hbelow
  have hlowerRest := fun r hr => hlower r (mem_cons_of_mem _ hr)
  refine ⟨by rw [TableScanCursor.head, hrecords]; rfl, ?_⟩
  unfold TableScanCursor.advance
  cases rest with
  | cons second rest =>
    rw [if_pos (by simp [hrecords])]
    have htail : ({ cursor with records := cursor.records.tail } : TableScanCursor).total =
        second :: rest ++ cursor.unread := by
      rw [total, hrecords]
      rfl
    refine ⟨htail ▸ hrest, by rw [htail, hbelow], ?_, fun _ => htail ▸ hlowerRest⟩
    intro hnil
    rw [hrecords] at hnil
    cases hnil
  | nil =>
    rw [if_neg (by simp [hrecords])]
    rw [nil_append] at hbelow hrest hlowerRest
    cases hlegacy : cursor.legacyEntries with
    | some entries =>
      have hunread : cursor.unread = entries := by rw [unread, hlegacy]
      rw [hunread] at hbelow hrest hlowerRest
      rw [← hbelow]
      exact loadNextLegacyEntry_at hlegacy hrest hlowerRest
    | none =>
      have hunread : cursor.unread = cursor.blocks.flatMap TableBlock.records := by rw [unread, hlegacy]
      rw [hunread] at hbelow hrest hlowerRest
      have hload := @loadNextBlock_at lower upper none cursor (Or.inl rfl) hlegacy hrest
      have hrange : (cursor.blocks.flatMap TableBlock.records).filter
        (fun record => inRange lower upper none record.1) =
          (cursor.blocks.flatMap TableBlock.records).filter fun record => belowUpper upper record.1 := by
        apply filter_congr
        intro r hr
        have hle : fromStart lower none r.1 = true := decide_eq_true (hlowerRest r hr)
        rw [inRange_eq, hle, Bool.true_and]
      rw [hrange] at hload
      rw [← hbelow]
      exact hload

theorem CursorAt.follows (h : CursorAt lower upper cursor records) :
    Follows Prod.fst (belowUpper upper) head (TableScanCursor.advance lower upper) cursor records := by
  induction records generalizing cursor with
  | nil =>
    intro record hrecord
    have hmem : record ∈ cursor.total := mem_append_left _ (mem_of_mem_head? hrecord)
    have hnone := filter_eq_nil_iff.mp h.below record hmem
    simpa using hnone
  | cons record records ih =>
    obtain ⟨hhead, hadvance⟩ := h.advance
    have hbelow : belowUpper upper record.1 = true := by
      have hmem : record ∈ cursor.total.filter (fun record => belowUpper upper record.1) := by
        rw [h.below]
        exact mem_cons_self
      exact (mem_filter.mp hmem).2
    exact ⟨hhead, hbelow, ih hadvance⟩

end Cursor

end Thingd.ThingDb
