import Thingd.ThingDb.ScanTable

namespace Thingd.ThingDb

open Merge TableScanCursor List

section New

variable {lower : Bytes} {upper after : Option Bytes}

theorem drop_blocks_filter (hafter : after = none ∨ after = some lower) {blocks : List TableBlock}
    (hsorted : (blocks.flatMap TableBlock.records).Pairwise fun x y => x.1 < y.1) :
    ((blocks.drop (partitionPoint (fun block => block.lastKey < lower) blocks)).flatMap TableBlock.records).filter
        (fun record => inRange lower upper after record.1) =
      (blocks.flatMap TableBlock.records).filter fun record => inRange lower upper after record.1 := by
  induction blocks with
  | nil => rfl
  | cons block blocks ih =>
    rw [flatMap_cons] at hsorted
    obtain ⟨hblock, hblocks, -⟩ := pairwise_append.mp hsorted
    rw [partitionPoint_cons]
    by_cases hlast : block.lastKey < lower
    · have hnone : block.records.filter (fun record => inRange lower upper after record.1) = [] := by
        apply filter_eq_nil_iff.mpr
        intro record hrecord hrange
        rw [inRange_eq, Bool.and_eq_true] at hrange
        have hle := (le_of_fromStart hafter hrange.1).trans (TableBlock.le_lastKey hblock hrecord)
        exact absurd hlast (not_lt.mpr hle)
      rw [if_pos (decide_eq_true hlast), drop_succ_cons, ih hblocks, flatMap_cons, filter_append, hnone,
        nil_append]
    · rw [if_neg (by simpa using hlast), drop_zero]

theorem new_at (layer : TableLayer) (hafter : after = none ∨ after = some lower) :
    CursorAt lower upper (new lower upper layer after) (mapRange layer.records lower upper after) := by
  have hsorted := layer.records.sorted
  unfold new
  by_cases hblocks : layer.blocks.isEmpty = true
  · rw [if_pos hblocks, drop_startIndex hsorted hafter]
    have hload := @loadNextLegacyEntry_at lower upper
      ⟨[], some (layer.records.entries.filter fun record => fromStart lower after record.1), []⟩ _ rfl
      (hsorted.filter _) fun record hrecord => le_of_fromStart hafter (mem_filter.mp hrecord).2
    rw [filter_filter] at hload
    have hrange : mapRange layer.records lower upper after = layer.records.entries.filter
        fun record => belowUpper upper record.1 && fromStart lower after record.1 := by
      apply filter_congr
      intro record _
      rw [inRange_eq, Bool.and_comm]
    rw [hrange]
    exact hload
  · rw [if_neg hblocks]
    have hcover := layer.blocks_cover.resolve_left (by simpa using hblocks)
    rw [← hcover] at hsorted
    have hdrop : ((layer.blocks.drop (partitionPoint (fun block => block.lastKey < lower) layer.blocks)).flatMap
        TableBlock.records).Pairwise fun x y => x.1 < y.1 := by
      have hsplit := hsorted
      rw [← take_append_drop (partitionPoint (fun block => block.lastKey < lower) layer.blocks) layer.blocks,
        flatMap_append] at hsplit
      exact (pairwise_append.mp hsplit).2.1
    have hload := @loadNextBlock_at lower upper after
      ⟨layer.blocks.drop (partitionPoint (fun block => block.lastKey < lower) layer.blocks), none, []⟩ hafter rfl hdrop
    rw [drop_blocks_filter hafter hsorted, hcover] at hload
    exact hload

end New

section Select

variable {key : Bytes}

theorem select_eq (selected : Option (ℕ × Option Bytes)) (source : ℕ × Option Record) :
    select key selected source =
      match (headAt Prod.fst key source.2).map Prod.snd with
      | none => selected
      | some value => if selected.all (fun best => best.1 < source.1) then some (source.1, value) else selected := by
  unfold select
  cases headAt Prod.fst key source.2 <;> rfl

theorem foldl_select_keep {priority : ℕ} {value : Option Bytes} {sources : List (ℕ × Option Record)}
    (h : ∀ source ∈ sources, source.1 ≤ priority) :
    sources.foldl (select key) (some (priority, value)) = some (priority, value) := by
  induction sources with
  | nil => rfl
  | cons source sources ih =>
    have hkeep : select key (some (priority, value)) source = some (priority, value) := by
      have hle := h source mem_cons_self
      rw [select_eq]
      split
      · rfl
      · rw [if_neg (by simpa using hle)]
    rw [foldl_cons, hkeep]
    exact ih fun other hother => h other (mem_cons_of_mem _ hother)

theorem select_maps (priority : ℕ) (state pending : Option Record) :
    select key (select key none (priority + 1, state)) (priority + 2, pending) =
      match (headAt Prod.fst key pending).map Prod.snd with
      | some value => some (priority + 2, value)
      | none => ((headAt Prod.fst key state).map Prod.snd).map fun value => (priority + 1, value) := by
  rw [select_eq, select_eq]
  cases headAt Prod.fst key pending <;> cases headAt Prod.fst key state <;> simp

def liveLayers (layers : List TableLayer) : List (TableLayer × ℕ) :=
  layers.zipIdx.filter fun layer => !(layer.1.blocks.isEmpty && layer.1.records.isEmpty)

theorem liveLayers_append (layers : List TableLayer) (layer : TableLayer) :
    liveLayers (layers ++ [layer]) = liveLayers layers ++
      if layer.blocks.isEmpty && layer.records.isEmpty then [] else [(layer, layers.length)] := by
  unfold liveLayers
  rw [zipIdx_append, filter_append, zipIdx_singleton, Nat.zero_add]
  congr 1
  split_ifs with hempty
  · rw [filter_cons_of_neg (by simpa using hempty)]
    rfl
  · rw [filter_cons_of_pos (by rw [Bool.not_eq_true'] ; exact Bool.eq_false_of_not_eq_true hempty)]
    rfl

theorem select_layers {layers : List TableLayer} {head : TableLayer × ℕ → Option Record}
    (hhead : ∀ layer ∈ liveLayers layers, (headAt Prod.fst key (head layer)).map Prod.snd = layer.1.records.get key) :
    (((liveLayers layers).map fun layer => (layer.2 + 1, head layer)).foldl (select key) none).map Prod.snd =
        lookupLayers layers key ∧
      ∀ best, ((liveLayers layers).map fun layer => (layer.2 + 1, head layer)).foldl (select key) none = some best →
        best.1 ≤ layers.length := by
  induction layers using List.reverseRecOn with
  | nil => exact ⟨rfl, by simp [liveLayers]⟩
  | append_singleton layers layer ih =>
    rw [liveLayers_append] at hhead ⊢
    obtain ⟨hvalue, hbound⟩ := ih fun other hother => hhead other (mem_append_left _ hother)
    rw [lookupLayers_append, length_append, length_singleton]
    by_cases hempty : (layer.blocks.isEmpty && layer.records.isEmpty) = true
    · have hnone : layer.records.get key = none := by
        rw [SortedMap.isEmpty_iff.mp (Bool.and_eq_true_iff.mp hempty).2]
        rfl
      rw [if_pos hempty, append_nil, hnone]
      exact ⟨hvalue, fun best hbest => (hbound best hbest).trans (Nat.le_succ _)⟩
    · rw [if_neg hempty] at hhead ⊢
      have hlast := hhead (layer, layers.length) (mem_append_right _ (mem_singleton.mpr rfl))
      rw [map_append, foldl_append, map_singleton, foldl_cons, select_eq, hlast]
      cases hget : layer.records.get key with
      | none =>
        rw [Option.none_or]
        exact ⟨hvalue, fun best hbest => (hbound best hbest).trans (Nat.le_succ _)⟩
      | some value =>
        have hnewer : (((liveLayers layers).map fun layer => (layer.2 + 1, head layer)).foldl (select key) none).all
            (fun best => best.1 < layers.length + 1) = true := by
          rw [Option.all_eq_true]
          intro best hbest
          exact decide_eq_true (Nat.lt_succ_of_le (hbound best hbest))
        dsimp only
        rw [if_pos hnewer]
        refine ⟨rfl, ?_⟩
        intro best hbest
        rw [← Option.some.inj hbest]

end Select

section Page

variable {inner : Inner} {lower : Bytes} {upper after : Option Bytes}

abbrev chunkHead (chunk : MemtableChunk) : Option Record := chunk.records.head?

structure TablePageAt (inner : Inner) (lower : Bytes) (upper : Option Bytes) (page : TablePage) (keys : List Bytes)
    (stateRecords pendingRecords : List Record) (cursor : TableLayer × ℕ → TableScanCursor)
    (layerRecords : TableLayer × ℕ → List Record) : Prop where
  cursors : page.cursors = (liveLayers inner.tableLayers).map fun layer => (layer.2 + 1, cursor layer)
  merges : Merges id keys (stateRecords.map Prod.fst :: pendingRecords.map Prod.fst ::
    (liveLayers inner.tableLayers).map fun layer => (layerRecords layer).map Prod.fst)
  below : ∀ key ∈ keys, belowUpper upper key = true
  state : Reads upper chunkHead (fun chunk => refill inner.state some lower upper chunk.dropHead)
    (fun key => (inner.state.get key).map some) keys (refill inner.state some lower upper page.state) stateRecords
  pending : Reads upper chunkHead (fun chunk => refill inner.pendingTable id lower upper chunk.dropHead)
    inner.pendingTable.get keys (refill inner.pendingTable id lower upper page.pending) pendingRecords
  layers : ∀ layer ∈ liveLayers inner.tableLayers, Reads upper TableScanCursor.head
    (TableScanCursor.advance lower upper) layer.1.records.get keys (cursor layer) (layerRecords layer)

variable {page : TablePage} {keys : List Bytes} {stateRecords pendingRecords : List Record}
  {cursor : TableLayer × ℕ → TableScanCursor} {layerRecords : TableLayer × ℕ → List Record}

theorem TablePageAt.least
    (h : TablePageAt inner lower upper page keys stateRecords pendingRecords cursor layerRecords) :
    (leastKey (((refill inner.state some lower upper page.state).records.head? ::
      (refill inner.pendingTable id lower upper page.pending).records.head? ::
      (page.cursors.map fun cursor => (cursor.1, cursor.2.head)).map Prod.snd).map (Option.map Prod.fst))).filter
      (belowUpper upper) = keys.head? := by
  have hheads : List.Forall₂ (Shows id (belowUpper upper))
      ((liveLayers inner.tableLayers).map fun layer => (cursor layer).head.map Prod.fst)
      ((liveLayers inner.tableLayers).map fun layer => (layerRecords layer).map Prod.fst) := by
    apply forall₂_map_left_iff.mpr
    apply forall₂_map_right_iff.mpr
    apply forall₂_same.mpr
    intro layer hlayer
    exact (h.layers layer hlayer).follows.shows.keys
  have hleast := h.merges.least_head belowUpper_down h.below
    (List.Forall₂.cons h.state.follows.shows.keys (List.Forall₂.cons h.pending.follows.shows.keys hheads))
  rw [h.cursors]
  simpa [Function.comp_def] using hleast

theorem TablePageAt.selected {key : Bytes}
    (h : TablePageAt inner lower upper page (key :: keys) stateRecords pendingRecords cursor layerRecords) :
    (((inner.tableLayers.length + 1, (refill inner.state some lower upper page.state).records.head?) ::
      (inner.tableLayers.length + 2, (refill inner.pendingTable id lower upper page.pending).records.head?) ::
      page.cursors.map fun cursor => (cursor.1, cursor.2.head)).foldl (select key) none).bind Prod.snd =
      inner.getDurableValue key := by
  have hbelow := h.below key mem_cons_self
  have hle := h.merges.le
  have hstate := h.state.headAt hbelow fun record hrecord =>
    hle _ mem_cons_self record.1 (mem_map_of_mem hrecord)
  have hpending := h.pending.headAt hbelow fun record hrecord =>
    hle _ (mem_cons_of_mem _ mem_cons_self) record.1 (mem_map_of_mem hrecord)
  have hlayers : ∀ layer ∈ liveLayers inner.tableLayers,
      (headAt Prod.fst key (cursor layer).head).map Prod.snd = layer.1.records.get key := by
    intro layer hlayer
    apply (h.layers layer hlayer).headAt hbelow
    intro record hrecord
    exact hle _ (mem_cons_of_mem _ (mem_cons_of_mem _ (mem_map_of_mem hlayer))) record.1
      (mem_map_of_mem hrecord)
  have hpriority : ∀ source ∈ (liveLayers inner.tableLayers).map (fun layer => (layer.2 + 1, (cursor layer).head)),
      source.1 ≤ inner.tableLayers.length + 1 := by
    intro source hsource
    obtain ⟨layer, hlayer, rfl⟩ := mem_map.mp hsource
    have hindex := snd_lt_of_mem_zipIdx (mem_filter.mp hlayer).1
    omega
  rw [h.cursors, map_map, foldl_cons, foldl_cons, select_maps, hstate, hpending,
    Inner.getDurableValue_eq]
  change (List.foldl (select key) _ ((liveLayers inner.tableLayers).map fun layer =>
    (layer.2 + 1, (cursor layer).head))).bind Prod.snd = _
  cases inner.pendingTable.get key with
  | some value =>
    rw [foldl_select_keep fun source hsource => (hpriority source hsource).trans (Nat.le_succ _)]
    rfl
  | none =>
    cases inner.state.get key with
    | some state =>
      dsimp only [Option.map_some]
      rw [foldl_select_keep hpriority]
      rfl
    | none =>
      have hselect := (select_layers hlayers).1
      dsimp only [Option.map_none]
      rw [tableView, ← hselect]
      cases ((liveLayers inner.tableLayers).map fun layer => (layer.2 + 1, (cursor layer).head)).foldl (select key) none
        <;> rfl

theorem TablePageAt.step {key : Bytes}
    (h : TablePageAt inner lower upper page (key :: keys) stateRecords pendingRecords cursor layerRecords) :
    ∃ page', tablePageNext inner lower upper page = some ((key, inner.getDurableValue key), page') ∧
      ∃ stateRecords' pendingRecords' cursor' layerRecords',
        TablePageAt inner lower upper page' keys stateRecords' pendingRecords' cursor' layerRecords' := by
  have hbelow := h.below key mem_cons_self
  have hleast := h.least
  rw [List.head?_cons, Option.filter_eq_some_iff] at hleast
  have hstop : upper.any (· ≤ key) = false := by
    rw [belowUpper_eq_not_any] at hbelow
    simpa using hbelow
  have hkeys : ∀ k ∈ keys, k ≠ key := fun k hk => ((pairwise_cons.mp h.merges.sorted).1 k hk).ne'
  have hle := h.merges.le
  unfold tablePageNext
  dsimp only
  rw [hleast.1]
  simp only [hstop, Bool.false_eq_true]
  rw [h.selected]
  refine ⟨_, rfl, without Prod.fst key stateRecords, without Prod.fst key pendingRecords,
    fun layer => advanceAt Prod.fst TableScanCursor.head (TableScanCursor.advance lower upper) key (cursor layer),
    fun layer => without Prod.fst key (layerRecords layer), ?_⟩
  exact {
    cursors := by
      rw [h.cursors, map_map]
      rfl
    merges := by
      have hstep := h.merges.step
      simp only [map_cons, map_map, map_without, Function.comp_def] at hstep
      exact hstep
    below := fun k hk => h.below k (mem_cons_of_mem _ hk)
    state := by
      rw [refill_advanceAt]
      exact h.state.advanceAt hkeys hbelow fun record hrecord =>
        hle _ mem_cons_self record.1 (mem_map_of_mem hrecord)
    pending := by
      rw [refill_advanceAt]
      exact h.pending.advanceAt hkeys hbelow fun record hrecord =>
        hle _ (mem_cons_of_mem _ mem_cons_self) record.1 (mem_map_of_mem hrecord)
    layers := by
      intro layer hlayer
      apply (h.layers layer hlayer).advanceAt hkeys hbelow
      intro record hrecord
      exact hle _ (mem_cons_of_mem _ (mem_cons_of_mem _ (mem_map_of_mem hlayer))) record.1
        (mem_map_of_mem hrecord) }

theorem TablePageAt.yields
    (h : TablePageAt inner lower upper page keys stateRecords pendingRecords cursor layerRecords) :
    Yields (tablePageNext inner lower upper) page (keys.map fun key => (key, inner.getDurableValue key)) := by
  apply yields_of_invariant (fun page keys => ∃ stateRecords pendingRecords cursor layerRecords,
    TablePageAt inner lower upper page keys stateRecords pendingRecords cursor layerRecords)
  · rintro page ⟨stateRecords, pendingRecords, cursor, layerRecords, hpage⟩
    have hleast := hpage.least
    rw [List.head?_nil, Option.filter_eq_none_iff] at hleast
    unfold tablePageNext
    dsimp only
    split
    · rfl
    · rename_i key hkey
      have habove := hleast key hkey
      rw [belowUpper_eq_not_any] at habove
      rw [if_pos (by simpa using habove)]
  · rintro page key keys ⟨stateRecords, pendingRecords, cursor, layerRecords, hpage⟩
    exact hpage.step
  · exact ⟨stateRecords, pendingRecords, cursor, layerRecords, h⟩

theorem reads_capture {β : Type} {map : SortedMap Bytes β} {value : β → Option Bytes}
    (hkeys : ∀ k ∈ keys, inRange lower upper after k = true) :
    Reads upper chunkHead (fun chunk => refill map value lower upper chunk.dropHead)
      (fun key => (map.get key).map value)
      keys (refill map value lower upper (captureDurableMemtableChunk map value lower upper after))
      (rangeRecords map value lower upper after) where
  follows := by
    have hfollows := @follows_chunk _ map value lower upper (captureDurableMemtableChunk map value lower upper after)
    rw [remaining_capture] at hfollows
    apply hfollows
    intro record hrecord
    obtain ⟨entry, hentry, rfl⟩ := mem_map.mp hrecord
    exact inRange_below (mem_mapRange.mp hentry).1
  sorted := pairwise_map.mpr (mapRange_sorted map lower upper after)
  agrees := by
    intro key hkey
    have hfind := @findAt_mapRange _ map lower upper after key (hkeys key hkey)
    rw [← hfind, findAt, findAt, rangeRecords, List.find?_map, Option.map_map, Option.map_map]
    rfl

theorem mem_liveLayers {layers : List TableLayer} {layer : TableLayer} {entry : Record} (hlayer : layer ∈ layers)
    (hentry : entry ∈ layer.records.entries) : ∃ index, (layer, index) ∈ liveLayers layers := by
  obtain ⟨index, hindex⟩ := mem_iff_getElem?.mp hlayer
  refine ⟨index, mem_filter.mpr ⟨mem_zipIdx_iff_getElem?.mpr hindex, ?_⟩⟩
  have hne : layer.records.isEmpty = false := by
    rw [SortedMap.isEmpty, isEmpty_eq_false_iff]
    exact ne_nil_of_mem hentry
  simp [hne]

theorem Candidates.merges_live (h : Candidates inner lower upper after keys) :
    Merges id keys ((rangeRecords inner.state some lower upper after).map Prod.fst ::
      (rangeRecords inner.pendingTable id lower upper after).map Prod.fst ::
      (liveLayers inner.tableLayers).map fun layer => (mapRange layer.1.records lower upper after).map Prod.fst) := by
  have hmerges := h.merges
  have hkeys {β : Type} (map : SortedMap Bytes β) (value : β → Option Bytes) :
      (rangeRecords map value lower upper after).map Prod.fst = (mapRange map lower upper after).map Prod.fst := by
    rw [rangeRecords, map_map]
    rfl
  have hlive : ∀ layer ∈ liveLayers inner.tableLayers, layer.1 ∈ inner.tableLayers := by
    intro layer hlayer
    exact fst_mem_of_mem_zipIdx (mem_filter.mp hlayer).1
  rw [hkeys, hkeys]
  refine ⟨h.sorted, ?_, ?_⟩
  · intro records hrecords
    apply hmerges.sources_sorted
    rcases mem_cons.mp hrecords with rfl | hrecords
    · exact mem_cons_self
    rcases mem_cons.mp hrecords with rfl | hrecords
    · exact mem_cons_of_mem _ mem_cons_self
    obtain ⟨layer, hlayer, rfl⟩ := mem_map.mp hrecords
    exact mem_cons_of_mem _ (mem_cons_of_mem _ (mem_map.mpr ⟨layer.1, hlive layer hlayer, rfl⟩))
  · intro key
    rw [hmerges.mem key]
    simp only [mem_cons, mem_map, exists_eq_or_imp, exists_exists_and_eq_and]
    refine or_congr_right (or_congr_right ?_)
    constructor
    · rintro ⟨layer, hlayer, entry, hentry, hkey⟩
      obtain ⟨index, hindex⟩ := mem_liveLayers hlayer (mem_filter.mp hentry).1
      exact ⟨(layer, index), hindex, entry, hentry, hkey⟩
    · rintro ⟨layer, hlayer, entry, hentry, hkey⟩
      exact ⟨layer.1, hlive layer hlayer, entry, hentry, hkey⟩

theorem captureDurableTablePage_at (h : Candidates inner lower upper after keys)
    (hafter : after = none ∨ after = some lower) :
    TablePageAt inner lower upper (captureDurableTablePage inner lower upper after) keys
      (rangeRecords inner.state some lower upper after) (rangeRecords inner.pendingTable id lower upper after)
      (fun layer => new lower upper layer.1 after)
      (fun layer => mapRange layer.1.records lower upper after) where
  cursors := by
    change tableCursors inner.tableLayers lower upper after = _
    rw [tableCursors, liveLayers, ← filterMap_eq_map, filterMap_filter]
    apply filterMap_congr
    intro layer _
    cases layer.1.blocks.isEmpty && layer.1.records.isEmpty <;> rfl
  merges := h.merges_live
  below := h.below
  state := reads_capture fun key hkey => ((h.mem key).mp hkey).1
  pending := by
    have hget : (fun key => (inner.pendingTable.get key).map id) = inner.pendingTable.get := by
      funext key
      exact congrFun Option.map_id _
    rw [← hget]
    exact reads_capture fun key hkey => ((h.mem key).mp hkey).1
  layers := by
    intro layer _
    apply reads_mapRange fun key hkey => ((h.mem key).mp hkey).1
    exact (new_at layer.1 hafter).follows

theorem iterDurableTablePage_eq (inner : Inner) (ns : Bytes) (bounds : ScanBounds) (offset limit : ℕ) :
    iterDurableTablePage inner ns bounds offset limit = pageOf offset (some limit) (inner.visible ns bounds) := by
  unfold iterDurableTablePage
  by_cases hempty : bounds.emptyRange ns = true
  · rw [if_pos hempty, visible_of_emptyRange hempty]
    simp [pageOf]
  · rw [if_neg hempty]
    obtain ⟨keys, hkeys⟩ := exists_candidates inner (bounds.lower ns) (bounds.upper ns) (bounds.cursorAfter ns)
    have hyields := (captureDurableTablePage_at hkeys cursorAfter_eq_lower).yields
    have hloop := @scanLoop_yields _ _ (bounds.userKey ns) offset inner.recordCount 0 0 (some limit) _ [] _ hyields
      (by simpa using hkeys.length_le) (Nat.zero_le _)
    dsimp only
    rw [hloop, hkeys.visible]
    simp

end Page

end Thingd.ThingDb
