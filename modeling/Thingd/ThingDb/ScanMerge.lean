import Thingd.ThingDb.ScanView

namespace Thingd.ThingDb

open Bytes Merge List

theorem map_without {β : Type} (key : Bytes) (records : List (Bytes × β)) :
    without id key (records.map Prod.fst) = (without Prod.fst key records).map Prod.fst := by
  unfold without
  rw [filter_map]
  rfl

def belowUpper (upper : Option Bytes) (key : Bytes) : Bool := upper.all (key < ·)

theorem belowUpper_down {upper : Option Bytes} (x y : Bytes) (hle : x ≤ y) (h : belowUpper upper y = true) :
    belowUpper upper x = true := by
  cases upper with
  | none => rfl
  | some bound =>
    have hlt : y < bound := by simpa [belowUpper] using h
    simpa [belowUpper] using hle.trans_lt hlt

theorem belowUpper_eq_not_any (upper : Option Bytes) (key : Bytes) : belowUpper upper key = !upper.any (· ≤ key) := by
  cases upper with
  | none => rfl
  | some bound =>
    by_cases hlt : key < bound
    · simp [belowUpper, hlt]
    · simp [belowUpper, not_lt.mp hlt]

section Range

variable {β : Type} {map : SortedMap Bytes β} {lower : Bytes} {upper after : Option Bytes}

theorem mapRange_sorted (map : SortedMap Bytes β) (lower : Bytes) (upper after : Option Bytes) :
    (mapRange map lower upper after).Pairwise fun x y => x.1 < y.1 := map.sorted.filter _

theorem mem_mapRange {entry : Bytes × β} :
    entry ∈ mapRange map lower upper after ↔
      inRange lower upper after entry.1 = true ∧ map.get entry.1 = some entry.2 := by
  rw [mapRange, mem_filter, SortedMap.get_eq_some_iff, and_comm]

theorem inRange_below {key : Bytes} (h : inRange lower upper after key = true) : belowUpper upper key = true := by
  simp only [inRange, Bool.and_eq_true] at h
  exact h.2

theorem mapRange_next {before rest : List (Bytes × β)} {entry : Bytes × β}
    (h : mapRange map lower upper after = before ++ entry :: rest) :
    mapRange map lower upper (some entry.1) = rest := by
  have hentry : entry ∈ mapRange map lower upper after := by rw [h]; simp
  have hstart := (inRange_iff.mp (mem_mapRange.mp hentry).1).1
  have hlater : mapRange map lower upper (some entry.1) =
      (mapRange map lower upper after).filter fun e => entry.1 < e.1 := by
    rw [mapRange, mapRange, filter_filter]
    apply filter_congr
    intro e _
    rw [Bool.eq_iff_iff]
    simp only [Bool.and_eq_true, decide_eq_true_eq, inRange_iff]
    constructor
    · rintro ⟨hlt, hupper⟩
      refine ⟨hlt, ?_, hupper⟩
      cases after with
      | none => exact le_of_lt (lt_of_le_of_lt hstart hlt)
      | some a => exact lt_trans hstart hlt
    · rintro ⟨hlt, -, hupper⟩
      exact ⟨hlt, hupper⟩
  have hsorted := mapRange_sorted map lower upper after
  rw [h] at hsorted hlater
  obtain ⟨-, hright, hcross⟩ := pairwise_append.mp hsorted
  obtain ⟨hrest, -⟩ := pairwise_cons.mp hright
  have hbefore : before.filter (fun e => entry.1 < e.1) = [] := by
    apply filter_eq_nil_iff.mpr
    intro e he
    have := hcross e he entry mem_cons_self
    simpa using this.le
  have hafter : rest.filter (fun e => entry.1 < e.1) = rest := by
    apply filter_eq_self.mpr
    intro e he
    simpa using hrest e he
  rw [hlater, filter_append, hbefore, filter_cons_of_neg (by simp), hafter, nil_append]

def mapKeyAdvance (map : SortedMap Bytes β) (lower : Bytes) (upper : Option Bytes) (key : Option Bytes) :
    Option Bytes := key.bind fun key => nextMapKey map lower upper (some key)

theorem follows_nextMapKey (map : SortedMap Bytes β) (lower : Bytes) (upper after : Option Bytes) :
    Follows id (belowUpper upper) id (mapKeyAdvance map lower upper) (nextMapKey map lower upper after)
      ((mapRange map lower upper after).map Prod.fst) := by
  generalize hrange : mapRange map lower upper after = records
  induction records generalizing after with
  | nil =>
    rw [nextMapKey, hrange]
    intro key hkey
    cases hkey
  | cons entry records ih =>
    have hentry : entry ∈ mapRange map lower upper after := by rw [hrange]; exact mem_cons_self
    have hnext : mapRange map lower upper (some entry.1) = records := @mapRange_next _ _ _ _ _ [] _ _ hrange
    have hkey : nextMapKey map lower upper after = some entry.1 := by rw [nextMapKey, hrange]; rfl
    rw [hkey]
    exact ⟨rfl, inRange_below (mem_mapRange.mp hentry).1, ih (some entry.1) hnext⟩

theorem follows_list {records : List (Bytes × β)} (hsorted : records.Pairwise fun x y => x.1 < y.1)
    (upper : Option Bytes) :
    Follows Prod.fst (belowUpper upper) List.head? List.tail records
      (records.filter fun record => belowUpper upper record.1) := by
  induction records with
  | nil =>
    intro record hrecord
    cases hrecord
  | cons first records ih =>
    obtain ⟨hfirst, hrest⟩ := pairwise_cons.mp hsorted
    by_cases hbelow : belowUpper upper first.1 = true
    · rw [filter_cons_of_pos (by simpa using hbelow)]
      exact ⟨rfl, hbelow, ih hrest⟩
    · have hnil : (first :: records).filter (fun record => belowUpper upper record.1) = [] := by
        apply filter_eq_nil_iff.mpr
        intro record hrecord habove
        rcases mem_cons.mp hrecord with rfl | hlater
        · exact hbelow habove
        · exact hbelow (belowUpper_down _ _ (hfirst record hlater).le habove)
      rw [hnil]
      intro record hrecord
      cases hrecord
      simpa using hbelow

theorem mapRange_below (map : SortedMap Bytes β) (lower : Bytes) (upper after : Option Bytes) :
    (mapRange map lower upper after).filter (fun entry => belowUpper upper entry.1) =
      mapRange map lower upper after := by
  apply filter_eq_self.mpr
  intro entry hentry
  exact inRange_below (mem_mapRange.mp hentry).1

theorem findAt_mapRange {key : Bytes} (h : inRange lower upper after key = true) :
    (findAt Prod.fst key (mapRange map lower upper after)).map Prod.snd = map.get key := by
  have hget : map.get key = (findAt Prod.fst key map.entries).map Prod.snd := rfl
  rw [hget, findAt, findAt, mapRange, List.find?_filter]
  congr 2
  funext entry
  rw [Bool.eq_iff_iff]
  simp only [decide_eq_true_eq]
  refine ⟨fun hboth => hboth.2, fun heq => ⟨?_, heq⟩⟩
  rw [heq]
  exact h

end Range

section Reads

variable {β σ : Type} {upper : Option Bytes} {head : σ → Option (Bytes × β)} {advance : σ → σ}

structure Reads (upper : Option Bytes) (head : σ → Option (Bytes × β)) (advance : σ → σ) (get : Bytes → Option β)
    (keys : List Bytes) (cursor : σ) (records : List (Bytes × β)) : Prop where
  follows : Follows Prod.fst (belowUpper upper) head advance cursor records
  sorted : records.Pairwise fun x y => x.1 < y.1
  agrees : ∀ key ∈ keys, (findAt Prod.fst key records).map Prod.snd = get key

variable {get : Bytes → Option β} {key : Bytes} {keys : List Bytes} {cursor : σ} {records : List (Bytes × β)}

theorem Reads.headAt (h : Reads upper head advance get (key :: keys) cursor records)
    (hbelow : belowUpper upper key = true) (hle : ∀ record ∈ records, key ≤ record.1) :
    (headAt Prod.fst key (head cursor)).map Prod.snd = get key := by
  rw [h.follows.shows.find h.sorted hbelow hle]
  exact h.agrees key mem_cons_self

theorem Reads.advanceAt (h : Reads upper head advance get (key :: keys) cursor records) (hkeys : ∀ k ∈ keys, k ≠ key)
    (hbelow : belowUpper upper key = true) (hle : ∀ record ∈ records, key ≤ record.1) :
    Reads upper head advance get keys (advanceAt Prod.fst head advance key cursor) (without Prod.fst key records) where
  follows := h.follows.advanceAt h.sorted hbelow hle
  sorted := h.sorted.filter _
  agrees := by
    intro k hk
    rw [findAt_without (hkeys k hk)]
    exact h.agrees k (mem_cons_of_mem _ hk)

theorem reads_mapRange {map : SortedMap Bytes β} {lower : Bytes} {after : Option Bytes}
    (hkeys : ∀ k ∈ keys, inRange lower upper after k = true)
    (hfollows : Follows Prod.fst (belowUpper upper) head advance cursor (mapRange map lower upper after)) :
    Reads upper head advance map.get keys cursor (mapRange map lower upper after) where
  follows := hfollows
  sorted := mapRange_sorted map lower upper after
  agrees := fun k hk => findAt_mapRange (hkeys k hk)

end Reads

section Full

variable {inner : Inner} {lower : Bytes} {upper after : Option Bytes}

theorem Candidates.merges {keys : List Bytes} (h : Candidates inner lower upper after keys) :
    Merges id keys ((mapRange inner.state lower upper after).map Prod.fst ::
      (mapRange inner.pendingTable lower upper after).map Prod.fst ::
      inner.tableLayers.map fun layer => (mapRange layer.records lower upper after).map Prod.fst) where
  sorted := h.sorted
  sources_sorted := by
    have hkeys {β : Type} (map : SortedMap Bytes β) :
        ((mapRange map lower upper after).map Prod.fst).Pairwise (fun x y => id x < id y) :=
      pairwise_map.mpr (mapRange_sorted map lower upper after)
    intro records hrecords
    rcases mem_cons.mp hrecords with rfl | hrecords
    · exact hkeys inner.state
    · rcases mem_cons.mp hrecords with rfl | hrecords
      · exact hkeys inner.pendingTable
      · obtain ⟨layer, -, rfl⟩ := mem_map.mp hrecords
        exact hkeys layer.records
  mem := by
    have hkeys {β : Type} (map : SortedMap Bytes β) (key : Bytes) :
        (∃ entry ∈ mapRange map lower upper after, id entry.1 = key) ↔
          inRange lower upper after key = true ∧ ∃ value, map.get key = some value := by
      simp [mem_mapRange]
    intro key
    rw [h.mem key, Inner.holds]
    simp only [mem_cons, mem_map, exists_eq_or_imp, exists_exists_and_eq_and]
    rw [hkeys]
    simp only [hkeys]
    constructor
    · rintro ⟨hrange, hstate | hpending | ⟨layer, hlayer, hget⟩⟩
      · exact Or.inl ⟨hrange, hstate⟩
      · exact Or.inr (Or.inl ⟨hrange, hpending⟩)
      · exact Or.inr (Or.inr ⟨layer, hlayer, hrange, hget⟩)
    · rintro (⟨hrange, hstate⟩ | ⟨hrange, hpending⟩ | ⟨layer, hlayer, hrange, hget⟩)
      · exact ⟨hrange, Or.inl hstate⟩
      · exact ⟨hrange, Or.inr (Or.inl hpending)⟩
      · exact ⟨hrange, Or.inr (Or.inr ⟨layer, hlayer, hget⟩)⟩

theorem Candidates.below {keys : List Bytes} (h : Candidates inner lower upper after keys) :
    ∀ key ∈ keys, belowUpper upper key = true := fun key hkey => inRange_below ((h.mem key).mp hkey).1

structure FullScanAt (inner : Inner) (lower : Bytes) (upper : Option Bytes) (scan : FullScan) (keys : List Bytes)
    (stateKeys pendingKeys : List Bytes) (layers : List (List Record)) : Prop where
  merges : Merges id keys (stateKeys :: pendingKeys :: layers.map (List.map Prod.fst))
  below : ∀ key ∈ keys, belowUpper upper key = true
  state : Follows id (belowUpper upper) id (mapKeyAdvance inner.state lower upper) scan.stateKey stateKeys
  pending : Follows id (belowUpper upper) id (mapKeyAdvance inner.pendingTable lower upper) scan.pendingKey pendingKeys
  layers : List.Forall₂ (Follows Prod.fst (belowUpper upper) List.head? List.tail) scan.layers layers

variable {scan : FullScan} {stateKeys pendingKeys : List Bytes} {layers : List (List Record)}

theorem FullScanAt.least {keys : List Bytes} (h : FullScanAt inner lower upper scan keys stateKeys pendingKeys layers) :
    (leastKey (scan.stateKey :: scan.pendingKey :: scan.layers.map fun records => records.head?.map Prod.fst)).filter
      (belowUpper upper) = keys.head? := by
  have hlayers : List.Forall₂ (Shows id (belowUpper upper))
      (scan.layers.map fun records => records.head?.map Prod.fst) (layers.map (List.map Prod.fst)) := by
    apply forall₂_map_left_iff.mpr
    apply forall₂_map_right_iff.mpr
    exact h.layers.imp fun records source hfollows => hfollows.shows.keys
  have hleast := h.merges.least_head belowUpper_down h.below
    (List.Forall₂.cons h.state.shows (List.Forall₂.cons h.pending.shows hlayers))
  simpa using hleast

theorem advanceAt_mapKeyAdvance {β : Type} (map : SortedMap Bytes β) (scanKey : Option Bytes) (key : Bytes) :
    advanceAt id id (mapKeyAdvance map lower upper) key scanKey =
      if scanKey = some key then nextMapKey map lower upper (some key) else scanKey := by
  cases scanKey with
  | none => rfl
  | some current =>
    by_cases heq : current = key
    · simp [advanceAt, mapKeyAdvance, heq]
    · simp [advanceAt, heq]

theorem FullScanAt.step {key : Bytes} {keys : List Bytes}
    (h : FullScanAt inner lower upper scan (key :: keys) stateKeys pendingKeys layers) :
    ∃ scan', fullScanNext inner lower upper scan = some ((key, inner.getDurableValue key), scan') ∧
      ∃ stateKeys' pendingKeys' layers', FullScanAt inner lower upper scan' keys stateKeys' pendingKeys' layers' := by
  have hbelow := h.below key mem_cons_self
  have hleast := h.least
  rw [List.head?_cons, Option.filter_eq_some_iff] at hleast
  have hstop : upper.any (· ≤ key) = false := by
    rw [belowUpper_eq_not_any] at hbelow
    simpa using hbelow
  have hsorted := h.merges.sources_sorted
  have hge := h.merges.le
  unfold fullScanNext
  rw [hleast.1]
  simp only [hstop, Bool.false_eq_true]
  refine ⟨_, rfl, without id key stateKeys, without id key pendingKeys, layers.map (without Prod.fst key), ?_⟩
  exact {
    merges := by
      have hstep := h.merges.step
      simp only [map_cons, map_map] at hstep
      have hkeys : List.map Prod.fst ∘ without Prod.fst key =
        without id key ∘ List.map (Prod.fst : Record → Bytes) := by
        funext records
        exact (map_without ..).symm
      rw [map_map, hkeys]
      exact hstep
    below := fun k hk => h.below k (mem_cons_of_mem _ hk)
    state := by
      rw [← advanceAt_mapKeyAdvance]
      exact h.state.advanceAt (hsorted _ mem_cons_self) hbelow (hge _ mem_cons_self)
    pending := by
      have hmem : pendingKeys ∈ stateKeys :: pendingKeys :: layers.map (List.map Prod.fst) := by simp
      dsimp only
      rw [← advanceAt_mapKeyAdvance]
      exact h.pending.advanceAt (hsorted _ hmem) hbelow (hge _ hmem)
    layers := by
      have hmem : ∀ records ∈ layers,
        records.map Prod.fst ∈ stateKeys :: pendingKeys :: layers.map (List.map Prod.fst) :=
        fun records hrecords =>
          mem_cons_of_mem _ (mem_cons_of_mem _ (mem_map_of_mem hrecords))
      refine Follows.forall₂_advanceAt h.layers ?_ hbelow ?_
      · intro records hrecords
        exact pairwise_map.mp (hsorted _ (hmem records hrecords))
      · intro records hrecords record hrecord
        exact hge _ (hmem records hrecords) record.1 (mem_map_of_mem hrecord) }

theorem FullScanAt.yields {keys : List Bytes}
    (h : FullScanAt inner lower upper scan keys stateKeys pendingKeys layers) :
    Yields (fullScanNext inner lower upper) scan (keys.map fun key => (key, inner.getDurableValue key)) := by
  apply yields_of_invariant (fun scan keys => ∃ stateKeys pendingKeys layers,
    FullScanAt inner lower upper scan keys stateKeys pendingKeys layers)
  · rintro scan ⟨stateKeys, pendingKeys, layers, hscan⟩
    have hleast := hscan.least
    rw [List.head?_nil, Option.filter_eq_none_iff] at hleast
    unfold fullScanNext
    split
    · rfl
    · rename_i key hkey
      have habove := hleast key hkey
      rw [belowUpper_eq_not_any] at habove
      rw [if_pos (by simpa using habove)]
  · rintro scan key keys ⟨stateKeys, pendingKeys, layers, hscan⟩
    exact hscan.step
  · exact ⟨stateKeys, pendingKeys, layers, h⟩

theorem seek_filter {records : List Record} (hsorted : records.Pairwise fun x y => x.1 < y.1) (seek : Bytes) :
    records.dropWhile (fun record => record.1 < seek) = records.filter fun record => seek ≤ record.1 := by
  induction records with
  | nil => rfl
  | cons first records ih =>
    obtain ⟨hfirst, hrest⟩ := pairwise_cons.mp hsorted
    by_cases hlt : first.1 < seek
    · rw [dropWhile_cons_of_pos (by simpa using hlt), filter_cons_of_neg (by simpa using hlt), ih hrest]
    · have hkeep : (first :: records).filter (fun record => seek ≤ record.1) = first :: records := by
        apply filter_eq_self.mpr
        intro record hrecord
        rcases mem_cons.mp hrecord with rfl | hlater
        · simpa using hlt
        · simpa using (not_lt.mp hlt).trans (hfirst record hlater).le
      rw [dropWhile_cons_of_neg (by simpa using hlt), hkeep]

theorem skip_filter {records : List Record} (hsorted : records.Pairwise fun x y => x.1 < y.1) (seek : Bytes) :
    (let found := records.dropWhile fun record => record.1 < seek
      if found.head?.any (fun record => record.1 = seek) then found.tail else found) =
      records.filter fun record => seek < record.1 := by
  rw [seek_filter hsorted]
  have hlater : records.filter (fun record => seek < record.1) =
      (records.filter fun record => seek ≤ record.1).filter fun record => seek < record.1 := by
    rw [filter_filter]
    apply filter_congr
    intro record _
    rw [Bool.eq_iff_iff]
    simp only [Bool.and_eq_true, decide_eq_true_eq]
    exact ⟨fun hlt => ⟨hlt, hlt.le⟩, fun h => h.1⟩
  have hfound := hsorted.filter (fun record => decide (seek ≤ record.1))
  have hle : ∀ record ∈ records.filter (fun record => decide (seek ≤ record.1)), seek ≤ record.1 := by
    intro record hrecord
    exact of_decide_eq_true (mem_filter.mp hrecord).2
  rw [hlater]
  generalize records.filter (fun record => decide (seek ≤ record.1)) = found at hfound hle ⊢
  cases found with
  | nil => rfl
  | cons first found =>
    obtain ⟨hfirst, -⟩ := pairwise_cons.mp hfound
    have hrest : found.filter (fun record => seek < record.1) = found := by
      apply filter_eq_self.mpr
      intro record hrecord
      simpa using (hle first mem_cons_self).trans_lt (hfirst record hrecord)
    by_cases heq : first.1 = seek
    · rw [if_pos (by simp [heq]), filter_cons_of_neg (by simp [heq]), hrest]
      rfl
    · have hlt : seek < first.1 := lt_of_le_of_ne (hle first mem_cons_self) (Ne.symm heq)
      rw [if_neg (by simp [heq]), filter_cons_of_pos (by simpa using hlt), hrest]

theorem cursorAfter_eq_lower {bounds : ScanBounds} {ns : Bytes} :
    bounds.cursorAfter ns = none ∨ bounds.cursorAfter ns = some (bounds.lower ns) := by
  cases hcursor : bounds.cursorAfter ns with
  | none => exact Or.inl rfl
  | some cursor =>
    right
    obtain ⟨hafter, hle⟩ := Option.filter_eq_some_iff.mp hcursor
    obtain ⟨⟨start, inclusive⟩, hstart, hexclusive⟩ := Option.bind_eq_some_iff.mp hafter
    cases inclusive with
    | true => cases hexclusive
    | false =>
      cases hexclusive
      have hlower : bounds.lower ns ≤ ns ++ start := of_decide_eq_true hle
      unfold ScanBounds.lower at hlower ⊢
      rw [hstart] at hlower ⊢
      cases hstarts : bounds.keyPrefix with
      | none => rfl
      | some keyPrefix =>
        rw [hstarts] at hlower
        dsimp only at hlower ⊢
        by_cases hle : keyPrefix ≤ start
        · rw [if_pos hle]
        · rw [if_neg hle, append_left_le_iff] at hlower
          exact absurd hlower hle

theorem fullScanStart_layer (layer : TableLayer) (hafter : after = none ∨ after = some lower) :
    ∃ found : List Record, found.Pairwise (fun x y => x.1 < y.1) ∧
      (let found := layer.records.entries.dropWhile fun record => record.1 < lower
        if after.any (fun after => found.head?.any fun record => record.1 = after) then found.tail else found) = found ∧
      found.filter (fun record => belowUpper upper record.1) = mapRange layer.records lower upper after := by
  have hsorted := layer.records.sorted
  rcases hafter with rfl | rfl
  · refine ⟨_, hsorted.filter _, seek_filter hsorted lower, ?_⟩
    rw [mapRange, filter_filter]
    apply filter_congr
    intro record _
    rw [Bool.and_comm]
    rfl
  · refine ⟨_, hsorted.filter _, skip_filter hsorted lower, ?_⟩
    rw [mapRange, filter_filter]
    apply filter_congr
    intro record _
    rw [Bool.and_comm]
    rfl

theorem fullScanStart_at {keys : List Bytes} (h : Candidates inner lower upper after keys)
    (hafter : after = none ∨ after = some lower) :
    FullScanAt inner lower upper (fullScanStart inner lower upper after) keys
      ((mapRange inner.state lower upper after).map Prod.fst)
      ((mapRange inner.pendingTable lower upper after).map Prod.fst)
      (inner.tableLayers.map fun layer => mapRange layer.records lower upper after) where
  merges := by
    rw [map_map]
    exact h.merges
  below := h.below
  state := follows_nextMapKey ..
  pending := follows_nextMapKey ..
  layers := by
    apply forall₂_map_left_iff.mpr
    apply forall₂_map_right_iff.mpr
    apply forall₂_same.mpr
    intro layer _
    obtain ⟨found, hsorted, hfound, hrange⟩ := fullScanStart_layer layer hafter
    rw [hfound, ← hrange]
    exact follows_list hsorted upper

theorem iterDurableMerge_eq (inner : Inner) (ns : Bytes) (bounds : ScanBounds) (offset : ℕ) (limit : Option ℕ) :
    iterDurableMerge inner ns bounds offset limit = pageOf offset limit (inner.visible ns bounds) := by
  unfold iterDurableMerge
  by_cases hempty : bounds.emptyRange ns = true
  · rw [if_pos hempty, visible_of_emptyRange hempty]
    cases limit <;> simp [pageOf]
  · rw [if_neg hempty]
    obtain ⟨keys, hkeys⟩ := exists_candidates inner (bounds.lower ns) (bounds.upper ns) (bounds.cursorAfter ns)
    have hyields := (fullScanStart_at hkeys cursorAfter_eq_lower).yields
    have hloop := @scanLoop_yields _ _ (bounds.userKey ns) offset inner.recordCount 0 0 limit _ [] _ hyields
      (by simpa using hkeys.length_le) (Nat.zero_le _)
    dsimp only
    rw [hloop, hkeys.visible]
    simp

end Full

end Thingd.ThingDb
