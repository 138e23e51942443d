import Thingd.ThingDb.ScanMerge

namespace Thingd.ThingDb

open Merge List

variable {β : Type} {key : Bytes} {keys : List Bytes} {ns : Bytes} {bounds : ScanBounds}

section Memtable

variable {inner : Inner} {lower : Bytes} {upper after : Option Bytes} {entry : Bytes × β}

theorem advanceAt_head_pos (entries : List (Bytes × β)) (h : entry.1 = key) :
    advanceAt Prod.fst List.head? List.tail key (entry :: entries) = entries := by
  simp [advanceAt, h]

theorem advanceAt_head_neg (entries : List (Bytes × β)) (h : entry.1 ≠ key) :
    advanceAt Prod.fst List.head? List.tail key (entry :: entries) = entry :: entries := by
  simp [advanceAt, h]

theorem headAt_pos (h : entry.1 = key) : headAt Prod.fst key (some entry) = some entry := by
  simp [headAt, h]

theorem headAt_neg (h : entry.1 ≠ key) : headAt Prod.fst key (some entry) = none := by
  simp [headAt, h]

theorem memtableNext_eq {state : List (Bytes × Bytes)} {pending : List Record}
    (h : leastKey [state.head?.map Prod.fst, pending.head?.map Prod.fst] = some key) :
    memtableNext (state, pending) =
      some ((key, ((headAt Prod.fst key pending.head?).map Prod.snd).getD
        ((headAt Prod.fst key state.head?).map Prod.snd)),
        advanceAt Prod.fst List.head? List.tail key state, advanceAt Prod.fst List.head? List.tail key pending) := by
  obtain ⟨hmem, hle⟩ := leastKey_eq_some.mp h
  cases state with
  | nil =>
    cases pending with
    | nil => simp at hmem
    | cons record pending =>
      have hkey : record.1 = key := by simpa [eq_comm] using hmem
      rw [advanceAt_head_pos _ hkey, List.head?_cons, headAt_pos hkey]
      rw [← hkey]
      rfl
  | cons entry state =>
    cases pending with
    | nil =>
      have hkey : entry.1 = key := by simpa [eq_comm] using hmem
      rw [advanceAt_head_pos _ hkey, List.head?_cons, headAt_pos hkey]
      rw [← hkey]
      rfl
    | cons record pending =>
      have hentry : key ≤ entry.1 := hle entry.1 (by simp)
      have hrecord : key ≤ record.1 := hle record.1 (by simp)
      have hkeys : entry.1 = key ∨ record.1 = key := by simpa [eq_comm] using hmem
      rw [memtableNext, List.head?_cons, List.head?_cons]
      rcases lt_trichotomy entry.1 record.1 with hlt | heq | hgt
      · have hkey : entry.1 = key := hkeys.resolve_right fun hother => absurd (hother ▸ hlt) (not_lt.mpr hentry)
        have hne : record.1 ≠ key := fun hother => absurd hlt (by rw [hother, hkey]; exact lt_irrefl _)
        rw [if_pos hlt, advanceAt_head_pos _ hkey, advanceAt_head_neg _ hne, headAt_pos hkey,
          headAt_neg hne, ← hkey]
        rfl
      · have hkey : entry.1 = key := hkeys.elim id fun hother => heq.trans hother
        have hother : record.1 = key := heq.symm.trans hkey
        rw [if_neg heq.not_lt, if_pos heq, advanceAt_head_pos _ hkey, advanceAt_head_pos _ hother, headAt_pos hother,
          ← hother]
        rfl
      · have hother : record.1 = key := hkeys.resolve_left fun hkey => absurd (hkey ▸ hgt) (not_lt.mpr hrecord)
        have hne : entry.1 ≠ key := fun hkey => absurd hgt (by rw [hother, hkey]; exact lt_irrefl _)
        rw [if_neg (lt_asymm hgt), if_neg hgt.ne', advanceAt_head_neg _ hne, advanceAt_head_pos _ hother,
          headAt_pos hother, ← hother]
        rfl

structure MemtableAt (inner : Inner) (upper : Option Bytes) (cursors : List (Bytes × Bytes) × List Record)
    (keys : List Bytes) : Prop where
  merges : Merges id keys [cursors.1.map Prod.fst, cursors.2.map Prod.fst]
  below : ∀ key ∈ keys, belowUpper upper key = true
  state : Reads upper List.head? List.tail inner.state.get keys cursors.1 cursors.1
  pending : Reads upper List.head? List.tail inner.pendingTable.get keys cursors.2 cursors.2

theorem advanceAt_eq_without {entries : List (Bytes × β)} (hsorted : entries.Pairwise fun x y => x.1 < y.1)
    (hle : ∀ entry ∈ entries, key ≤ entry.1) :
    advanceAt Prod.fst List.head? List.tail key entries = without Prod.fst key entries := by
  unfold without
  cases entries with
  | nil => rfl
  | cons entry entries =>
    obtain ⟨hfirst, -⟩ := pairwise_cons.mp hsorted
    have hrest : without Prod.fst key entries = entries := by
      apply filter_eq_self.mpr
      intro other hother
      simpa using ((hle entry mem_cons_self).trans_lt (hfirst other hother)).ne'
    by_cases heq : entry.1 = key
    · rw [advanceAt_head_pos _ heq, filter_cons_of_neg (by simp [heq])]
      exact hrest.symm
    · rw [advanceAt_head_neg _ heq, filter_cons_of_pos (by simp [heq])]
      exact congrArg _ hrest.symm

variable {cursors : List (Bytes × Bytes) × List Record}

theorem MemtableAt.least (h : MemtableAt inner upper cursors keys) :
    (leastKey [cursors.1.head?.map Prod.fst, cursors.2.head?.map Prod.fst]).filter (belowUpper upper) = keys.head? := by
  have hleast := h.merges.least_head belowUpper_down h.below
    (List.Forall₂.cons h.state.follows.shows.keys (List.Forall₂.cons h.pending.follows.shows.keys List.Forall₂.nil))
  simpa using hleast

section

variable (hlayers : inner.tableLayers = [])
include hlayers

theorem MemtableAt.step (h : MemtableAt inner upper cursors (key :: keys)) :
    ∃ cursors', memtableNext cursors = some ((key, inner.getDurableValue key), cursors') ∧
      MemtableAt inner upper cursors' keys := by
  have hbelow := h.below key mem_cons_self
  have hleast := h.least
  rw [List.head?_cons, Option.filter_eq_some_iff] at hleast
  have hkeys : ∀ k ∈ keys, k ≠ key := fun k hk => ((pairwise_cons.mp h.merges.sorted).1 k hk).ne'
  have hstate : ∀ entry ∈ cursors.1, key ≤ entry.1 := fun entry hentry =>
    h.merges.le _ mem_cons_self entry.1 (mem_map_of_mem hentry)
  have hpending : ∀ record ∈ cursors.2, key ≤ record.1 := fun record hrecord =>
    h.merges.le _ (mem_cons_of_mem _ mem_cons_self) record.1 (mem_map_of_mem hrecord)
  have hvalue : inner.getDurableValue key = (inner.pendingTable.get key).getD (inner.state.get key) := by
    rw [Inner.getDurableValue_eq, hlayers]
    simp [tableView]
  have hnext := memtableNext_eq hleast.1
  have hstate' := h.state.advanceAt hkeys hbelow hstate
  have hpending' := h.pending.advanceAt hkeys hbelow hpending
  rw [h.pending.headAt hbelow hpending, h.state.headAt hbelow hstate, ← hvalue] at hnext
  rw [advanceAt_eq_without h.state.sorted hstate] at hnext hstate'
  rw [advanceAt_eq_without h.pending.sorted hpending] at hnext hpending'
  refine ⟨_, hnext, ?_, fun k hk => h.below k (mem_cons_of_mem _ hk), hstate', hpending'⟩
  have hstep := h.merges.step
  simp only [map_cons, map_without] at hstep
  exact hstep

theorem MemtableAt.yields (h : MemtableAt inner upper cursors keys) :
    Yields memtableNext cursors (keys.map fun key => (key, inner.getDurableValue key)) := by
  apply yields_of_invariant (MemtableAt inner upper) _ _ h
  · rintro ⟨state, pending⟩ hnil
    have hnone : ∀ k, ¬ ∃ records ∈ [state.map Prod.fst, pending.map Prod.fst], ∃ record ∈ records, id record = k :=
      fun k hk => by cases (hnil.merges.mem k).mpr hk
    cases state with
    | cons entry state => exact absurd ⟨_, mem_cons_self, entry.1, by simp, rfl⟩ (hnone entry.1)
    | nil =>
      cases pending with
      | cons record pending =>
        exact absurd ⟨record.1 :: pending.map Prod.fst, by simp, record.1, by simp, rfl⟩ (hnone record.1)
      | nil => rfl
  · exact fun cursors key keys hcons => hcons.step hlayers

theorem Candidates.memtableAt (h : Candidates inner lower upper after keys) :
    MemtableAt inner upper (mapRange inner.state lower upper after, mapRange inner.pendingTable lower upper after)
      keys := by
  have hrange : ∀ key ∈ keys, inRange lower upper after key = true := fun key hkey => ((h.mem key).mp hkey).1
  have hmerges := h.merges
  rw [hlayers] at hmerges
  have hstate := follows_list (mapRange_sorted inner.state lower upper after) upper
  have hpending := follows_list (mapRange_sorted inner.pendingTable lower upper after) upper
  rw [mapRange_below] at hstate hpending
  exact ⟨hmerges, h.below, reads_mapRange hrange hstate, reads_mapRange hrange hpending⟩

theorem iterDurableMemtablePage_eq {offset limit : ℕ} {page : List Entry}
    (h : iterDurableMemtablePage inner ns bounds offset limit = some page) :
    page = pageOf offset (some limit) (inner.visible ns bounds) := by
  unfold iterDurableMemtablePage at h
  by_cases hempty : bounds.emptyRange ns = true
  · rw [if_pos hempty] at h
    rw [← Option.some.inj h, visible_of_emptyRange hempty]
    simp [pageOf]
  · rw [if_neg hempty] at h
    obtain ⟨keys, hkeys⟩ := exists_candidates inner (bounds.lower ns) (bounds.upper ns) (bounds.cursorAfter ns)
    have hyields := (hkeys.memtableAt hlayers).yields hlayers
    have hloop := @scanLoop_yields _ _ (bounds.userKey ns) offset inner.recordCount 0 0 (some limit) _ [] _ hyields
      (by simpa using hkeys.length_le) (Nat.zero_le _)
    have hpage := scanLoop_budget h
    rw [hloop, hkeys.visible] at hpage
    simpa using (Option.some.inj hpage).symm

end

end Memtable

section First

variable {inner : Inner} {lower : Bytes} {upper after : Option Bytes}

theorem head_filter_below {records : List Record} (hsorted : records.Pairwise fun x y => x.1 < y.1)
    (upper : Option Bytes) :
    (records.head?.map Prod.fst).filter (fun key => upper.all (key < ·)) =
      (records.filter fun record => belowUpper upper record.1).head?.map Prod.fst := by
  have hfollows := follows_list hsorted upper
  cases hbelow : records.filter (fun record => belowUpper upper record.1) with
  | nil =>
    rw [hbelow] at hfollows
    rw [List.head?_nil, Option.map_none, Option.filter_eq_none_iff]
    intro key hkey
    obtain ⟨record, hrecord, rfl⟩ := Option.map_eq_some_iff.mp hkey
    have hpast := hfollows record hrecord
    simpa [belowUpper] using hpast
  | cons record rest =>
    rw [hbelow] at hfollows
    obtain ⟨hhead, hkey, -⟩ := hfollows
    rw [hhead]
    exact Option.filter_eq_some_iff.mpr ⟨rfl, hkey⟩

theorem firstTableKey_eq (layer : TableLayer) (lower : Bytes) (upper after : Option Bytes) :
    firstTableKey layer.records.entries lower upper after =
      nextMapKey layer.records lower upper (after.filter fun key => lower ≤ key) := by
  have hsorted := layer.records.sorted
  have hrange (p : Record → Bool) (cursor : Option Bytes)
      (hp : ∀ record, inRange lower upper cursor record.1 = (p record && belowUpper upper record.1)) :
      ((layer.records.entries.filter p).head?.map Prod.fst).filter (fun key => upper.all (key < ·)) =
        nextMapKey layer.records lower upper cursor := by
    rw [head_filter_below (hsorted.filter p), nextMapKey, mapRange, filter_filter]
    congr 2
    apply filter_congr
    intro record _
    rw [hp, Bool.and_comm]
  unfold firstTableKey
  cases after with
  | none =>
    have hseek := seek_filter hsorted lower
    simp only [Option.filter_none, Option.getD_none, Option.any_none, Bool.false_eq_true]
    rw [hseek]
    exact hrange _ none fun record => rfl
  | some key =>
    by_cases hlt : lower < key
    · have hskip := skip_filter hsorted key
      have hcursor : (some key).filter (fun key => decide (lower ≤ key)) = some key :=
        Option.filter_eq_some_iff.mpr ⟨rfl, decide_eq_true hlt.le⟩
      have hseek : ((some key).filter (fun key => decide (lower < key))).getD lower = key := by
        have hkeep : (some key).filter (fun key => decide (lower < key)) = some key :=
          Option.filter_eq_some_iff.mpr ⟨rfl, decide_eq_true hlt⟩
        rw [hkeep, Option.getD_some]
      rw [hcursor, hseek]
      simp only [Option.any_some]
      rw [hskip]
      exact hrange _ (some key) fun record => rfl
    · have hseek : ((some key).filter (fun key => decide (lower < key))).getD lower = lower := by
        rw [Option.filter_eq_none_iff.mpr, Option.getD_none]
        rintro other hother
        rw [← Option.some.inj hother]
        simpa using hlt
      rw [hseek]
      by_cases heq : key = lower
      · have hskip := skip_filter hsorted lower
        have hcursor : (some key).filter (fun key => decide (lower ≤ key)) = some lower :=
          Option.filter_eq_some_iff.mpr ⟨congrArg some heq, decide_eq_true le_rfl⟩
        simp only [Option.any_some]
        rw [hcursor, heq, hskip]
        exact hrange _ (some lower) fun record => rfl
      · have habove : key < lower := lt_of_le_of_ne (not_lt.mp hlt) heq
        have hcursor : (some key).filter (fun key => decide (lower ≤ key)) = none := by
          apply Option.filter_eq_none_iff.mpr
          intro other hsome
          rw [← Option.some.inj hsome]
          simpa using habove
        have hother : (layer.records.entries.filter (fun record => decide (lower ≤ record.1))).head?.any
            (fun record => decide (record.1 = key)) = false := by
          rw [Option.any_eq_false]
          intro record hrecord
          have hmem := mem_filter.mp (mem_of_mem_head? hrecord)
          simpa using (habove.trans_le (of_decide_eq_true hmem.2)).ne'
        dsimp only
        rw [hcursor, seek_filter hsorted lower, if_neg (by rw [Option.any_some, hother]; exact Bool.false_ne_true)]
        exact hrange _ none fun record => rfl

theorem shows_mapRange (map : SortedMap Bytes β) (lower : Bytes) (upper after : Option Bytes) :
    Shows Prod.fst (belowUpper upper) (mapRange map lower upper after).head? (mapRange map lower upper after) := by
  cases mapRange map lower upper after with
  | nil =>
    intro entry hentry
    cases hentry
  | cons entry entries => rfl

theorem headAt_mapRange {map : SortedMap Bytes β} (hkey : inRange lower upper after key = true)
    (hle : ∀ entry ∈ mapRange map lower upper after, key ≤ entry.1) :
    (headAt Prod.fst key (mapRange map lower upper after).head?).map Prod.snd = map.get key := by
  rw [(shows_mapRange map lower upper after).find (mapRange_sorted _ _ _ _) (inRange_below hkey) hle]
  exact findAt_mapRange hkey

theorem Candidates.least (h : Candidates inner lower upper after keys) :
    leastKey ((mapRange inner.state lower upper after).head?.map Prod.fst ::
      (mapRange inner.pendingTable lower upper after).head?.map Prod.fst ::
      inner.tableLayers.map fun layer => nextMapKey layer.records lower upper after) = keys.head? := by
  have hheads : List.Forall₂ (Shows id (belowUpper upper))
      (inner.tableLayers.map fun layer => nextMapKey layer.records lower upper after)
      (inner.tableLayers.map fun layer => (mapRange layer.records lower upper after).map Prod.fst) := by
    apply forall₂_map_left_iff.mpr
    apply forall₂_map_right_iff.mpr
    apply forall₂_same.mpr
    intro layer _
    exact (shows_mapRange layer.records lower upper after).keys
  have hleast := h.merges.least_head belowUpper_down h.below (List.Forall₂.cons
    (shows_mapRange inner.state lower upper after).keys (List.Forall₂.cons
      (shows_mapRange inner.pendingTable lower upper after).keys hheads))
  simp only [map_cons, Option.map_id, map_id, id_eq] at hleast
  rw [← hleast]
  symm
  cases hcandidates : leastKey ((mapRange inner.state lower upper after).head?.map Prod.fst ::
      (mapRange inner.pendingTable lower upper after).head?.map Prod.fst ::
      inner.tableLayers.map fun layer => nextMapKey layer.records lower upper after) with
  | none => rfl
  | some key =>
    -- every candidate comes from a range, so it is below the bound
    obtain ⟨hmem, -⟩ := leastKey_eq_some.mp hcandidates
    have hrange {β : Type} (map : SortedMap Bytes β)
        (hsome : some key = (mapRange map lower upper after).head?.map Prod.fst) : belowUpper upper key = true := by
      obtain ⟨entry, hentry, rfl⟩ := Option.map_eq_some_iff.mp hsome.symm
      exact inRange_below (mem_mapRange.mp (mem_of_mem_head? hentry)).1
    apply Option.filter_eq_some_iff.mpr
    refine ⟨rfl, ?_⟩
    rcases mem_cons.mp hmem with hstate | hmem
    · exact hrange inner.state hstate
    · rcases mem_cons.mp hmem with hpending | hmem
      · exact hrange inner.pendingTable hpending
      · obtain ⟨layer, -, hlayer⟩ := mem_map.mp hmem
        exact hrange layer.records hlayer.symm

theorem Candidates.tail (h : Candidates inner lower upper after (key :: keys)) :
    Candidates inner lower upper (some key) keys where
  sorted := (pairwise_cons.mp h.sorted).2
  mem := by
    intro k
    have hkey := inRange_iff.mp ((h.mem key).mp mem_cons_self).1
    have hlater := (pairwise_cons.mp h.sorted).1
    constructor
    · intro hk
      obtain ⟨hrange, hholds⟩ := (h.mem k).mp (mem_cons_of_mem _ hk)
      exact ⟨inRange_iff.mpr ⟨hlater k hk, (inRange_iff.mp hrange).2⟩, hholds⟩
    · rintro ⟨hrange, hholds⟩
      obtain ⟨hlt, hupper⟩ := inRange_iff.mp hrange
      have hmem : k ∈ key :: keys := by
        apply (h.mem k).mpr
        refine ⟨inRange_iff.mpr ⟨?_, hupper⟩, hholds⟩
        cases after with
        | none => exact le_of_lt (lt_of_le_of_lt hkey.1 hlt)
        | some cursor => exact lt_trans hkey.1 hlt
      exact (mem_cons.mp hmem).resolve_left (ne_of_gt hlt)

theorem durableFirstNext_cons (h : Candidates inner lower upper (after.filter fun key => lower ≤ key) (key :: keys)) :
    durableFirstNext inner lower upper after = some ((key, inner.getDurableValue key), some key) := by
  have hleast := h.least
  have hkey := ((h.mem key).mp mem_cons_self).1
  have hle := h.merges.le
  have hpending := @headAt_mapRange _ _ _ _ _ inner.pendingTable hkey fun entry hentry =>
    hle _ (mem_cons_of_mem _ mem_cons_self) entry.1 (mem_map_of_mem hentry)
  have hstate := @headAt_mapRange _ _ _ _ _ inner.state hkey fun entry hentry =>
    hle _ mem_cons_self entry.1 (mem_map_of_mem hentry)
  unfold durableFirstNext
  simp only [firstTableKey_eq]
  rw [hleast]
  simp only [List.head?_cons, Option.map_some]
  congr 3
  rw [Inner.getDurableValue, ← hpending, ← hstate]
  cases headAt Prod.fst key
      (mapRange inner.pendingTable lower upper (after.filter fun key => decide (lower ≤ key))).head? with
  | some record => rfl
  | none =>
    cases headAt Prod.fst key
        (mapRange inner.state lower upper (after.filter fun key => decide (lower ≤ key))).head? with
    | some entry => rfl
    | none => rfl

theorem durableFirstNext_nil (h : Candidates inner lower upper (after.filter fun key => lower ≤ key) []) :
    durableFirstNext inner lower upper after = none := by
  have hleast := h.least
  unfold durableFirstNext
  simp only [firstTableKey_eq]
  rw [hleast]
  rfl

theorem durableFirstLoop_eq {fuel : ℕ} (h : Candidates inner lower upper (after.filter fun key => lower ≤ key) keys)
    (huser : ∀ key ∈ keys, ∃ user, bounds.userKey ns key = some user) (hfuel : keys.length < fuel) :
    durableFirstLoop inner ns lower upper fuel after =
      ((keys.map fun key => (key, inner.getDurableValue key)).filterMap (shownEntry (bounds.userKey ns))).take 1 := by
  induction fuel generalizing after keys with
  | zero => omega
  | succ fuel ih =>
    cases keys with
    | nil =>
      rw [durableFirstLoop, durableFirstNext_nil h]
      rfl
    | cons key keys =>
      rw [length_cons] at hfuel
      obtain ⟨user, hkey⟩ := huser key mem_cons_self
      have hdrop : key.dropPrefix? ns = some user := (Option.filter_eq_some_iff.mp hkey).1
      rw [durableFirstLoop, durableFirstNext_cons h, map_cons]
      cases hvalue : inner.getDurableValue key with
      | some value => simp [hdrop, shownEntry, hkey]
      | none =>
        have hfrom : lower ≤ key := by
          obtain ⟨hrange, -⟩ := inRange_iff.mp ((h.mem key).mp mem_cons_self).1
          cases hafter : after.filter fun key => decide (lower ≤ key) with
          | none => rwa [hafter] at hrange
          | some cursor =>
            rw [hafter] at hrange
            exact (of_decide_eq_true (Option.filter_eq_some_iff.mp hafter).2).trans (le_of_lt hrange)
        have hcursor : (some key).filter (fun key => decide (lower ≤ key)) = some key :=
          Option.filter_eq_some_iff.mpr ⟨rfl, decide_eq_true hfrom⟩
        have htail := h.tail
        rw [← hcursor] at htail
        exact ih htail (fun k hk => huser k (mem_cons_of_mem _ hk)) (by omega)

theorem iterDurableFirst_eq {emptied : Bool}
    (hstart : ∀ start inclusive, bounds.start = some (start, inclusive) → inclusive = false)
    (hfinish : bounds.finish = none) :
    iterDurableFirst inner emptied ns bounds =
      if (emptied || !inner.state.isEmpty || !inner.pendingTable.isEmpty) &&
          invalidRange (bounds.lower ns) (bounds.upper ns) (bounds.cursorAfter ns) then none
      else some (pageOf 0 (some 1) (inner.visible ns bounds)) := by
  unfold iterDurableFirst
  dsimp only
  split_ifs with hpanic
  · rfl
  · obtain ⟨keys, hkeys⟩ := exists_candidates inner (bounds.lower ns) (bounds.upper ns) (bounds.cursorAfter ns)
    have huser : ∀ key ∈ keys, ∃ user, bounds.userKey ns key = some user := fun key hkey =>
      ScanBounds.userKey_of_inRange hstart hfinish ((hkeys.mem key).mp hkey).1
    have hloop := durableFirstLoop_eq hkeys huser (Nat.lt_succ_of_le hkeys.length_le)
    rw [hkeys.visible] at hloop
    rw [hloop]
    simp [pageOf]

end First

end Thingd.ThingDb
