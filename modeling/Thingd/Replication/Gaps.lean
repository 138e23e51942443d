import Thingd.Replication.Feed

namespace Thingd.Replication

open Engine EventStore EventLog StoreCall Service ObjectState List

variable {service : Service} {names : Set Bytes} {history : List Value} {log : EventLog} {store : EventStore}
  {objects : ObjectState} {after limit : UInt64}

def recordedAfter (history : List Value) (after limit : UInt64) : List (Value × ℕ) :=
  ((history.zipIdx 1).drop after.toNat).take (clampLimit limit).toNat

def Survives (store : EventStore) (cursor : ℕ) : Prop :=
  ∃ event, store.Stored event ∧ event.stream = replicationStream ∧ event.sequence.toNat = cursor

/-- A page is the recorded changes that follow on the cursor and nothing behind the cursor has been pruned, or the
consumer is told to bootstrap. -/
def Gapless (service : Service) (history : List Value) (store : EventStore) (after limit : UInt64) :
    ThingdResult ReplicationPage → Prop
  | .ok page =>
    page.changes = (recordedAfter history after limit).map
      (fun entry => service.envelope (UInt64.ofNat entry.2) entry.1) ∧
      page.next.toNat = after.toNat + page.changes.length ∧
      ∀ cursor, after.toNat < cursor → cursor ≤ history.length → Survives store cursor
  | .error error => ∃ message, error = .conflict message

section Pages

def storedAfter (store : EventStore) (after : UInt64) : List MemoryEvent :=
  (store.streamEvents replicationStream).filter fun event => after < event.sequence

theorem saturatingSucc_lt_iff {sequence : UInt64} :
    saturatingSucc after < sequence ↔ after.toNat + 1 < sequence.toNat := by
  have hlt := sequence.toNat_lt
  rw [UInt64.lt_iff_toNat_lt, saturatingSucc]
  split_ifs with hmax
  · rw [hmax, UInt64.toNat_ofNat']
    omega
  · have hne : after.toNat ≠ 2 ^ 64 - 1 := fun heq => hmax (UInt64.toNat_inj.mp (by rw [heq]; rfl))
    have hafter := after.toNat_lt
    rw [UInt64.toNat_add, UInt64.toNat_one, Nat.mod_eq_of_lt (by omega)]

def Ahead (store : EventStore) (after : UInt64) : Prop :=
  0 < after ∧ ∃ first,
    (store.streamEvents replicationStream).head? = some first ∧ after.toNat + 1 < first.sequence.toNat

theorem result_listEvents (engine : StoreEngine) (stream : Option Bytes) (options : ListEventsOptions)
    (store : ThingStore) :
    (engine.listEvents stream options).result store = .ok (store.log.store.listEvents engine.codec stream options) ∧
      (engine.listEvents stream options).last store = store := ⟨rfl, rfl⟩

variable {ever : Set (Bytes × UInt64)}

theorem result_checkCursor (objects : ObjectState) (after : UInt64)
    (hplaced : Placed service.codec names ever log.store) :
    (Ahead log.store after →
      ∃ message, (service.checkCursor after).result ⟨objects, log⟩ = .error (.conflict message)) ∧
      (¬Ahead log.store after → (service.checkCursor after).result ⟨objects, log⟩ = .ok ()) ∧
      (service.checkCursor after).last ⟨objects, log⟩ = ⟨objects, log⟩ := by
  by_cases hzero : 0 < after
  · obtain ⟨hlist, hstay⟩ :=
      result_listEvents service.toStoreEngine (some replicationStream) ⟨none, none, some 1⟩ ⟨objects, log⟩
    have hhead : (log.store.listEvents service.codec (some replicationStream) ⟨none, none, some 1⟩).head? =
        (log.store.streamEvents replicationStream).head? := by
      rw [listEvents, EventsKeyed.listEventsOn_stream hplaced.events]
      cases hevents : log.store.streamEvents replicationStream <;> simp [ListEventsOptions.takeLimit]
    rw [checkCursor, if_pos hzero, result_bind_of_ok hlist, last_bind_of_ok hlist, hstay]
    cases hfirst : (log.store.streamEvents replicationStream).head? with
    | none => simp [Ahead, hhead, hfirst]
    | some first =>
      by_cases hahead : saturatingSucc after < first.sequence
      · simp [Ahead, hzero, hhead, hfirst, hahead, saturatingSucc_lt_iff.mp hahead]
      · simp [Ahead, hhead, hfirst, hahead, saturatingSucc_lt_iff.not.mp hahead]
  · rw [checkCursor]
    simp [Ahead, hzero]

theorem result_events (objects : ObjectState) (after limit : UInt64)
    (hplaced : Placed service.codec names ever log.store) :
    (Ahead log.store after →
      ∃ message, (service.events after limit).result ⟨objects, log⟩ = .error (.conflict message)) ∧
    (¬Ahead log.store after → (service.events after limit).result ⟨objects, log⟩ = .ok
      ⟨service.config.sourceId, after,
        (((storedAfter log.store after).take (clampLimit limit).toNat).getLast?.map MemoryEvent.sequence).getD after,
        ((storedAfter log.store after).take (clampLimit limit).toNat).filterMap service.readChange⟩) := by
  obtain ⟨hconflict, hpass, hstay⟩ := result_checkCursor objects after hplaced
  constructor
  · intro hahead
    obtain ⟨message, herror⟩ := hconflict hahead
    exact ⟨message, result_bind_of_error herror⟩
  · intro hahead
    obtain ⟨hlist, -⟩ := result_listEvents service.toStoreEngine (some replicationStream)
      ⟨some after, none, some (clampLimit limit)⟩ ⟨objects, log⟩
    have hrest : log.store.listEvents service.codec (some replicationStream)
        ⟨some after, none, some (clampLimit limit)⟩ =
          (storedAfter log.store after).take (clampLimit limit).toNat := by
      rw [listEvents, EventsKeyed.listEventsOn_stream hplaced.events]
      simp [ListEventsOptions.takeLimit, storedAfter]
    rw [Service.events, result_bind_of_ok (hpass hahead), hstay, result_bind_of_ok hlist, hrest]
    rfl

def storedText (event : MemoryEvent) : ℕ × Bytes := (event.sequence.toNat, event.body)

theorem mem_recorded {change : Value} {cursor k : ℕ} :
    (change, cursor) ∈ (history.zipIdx 1).drop k ↔ k < cursor ∧ history[cursor - 1]? = some change := by
  rw [mem_iff_getElem?]
  simp only [List.getElem?_drop, List.getElem?_zipIdx, Option.map_eq_some_iff, Prod.mk.injEq]
  constructor
  · rintro ⟨i, change, hchange, rfl, rfl⟩
    refine ⟨by omega, ?_⟩
    rwa [show 1 + (k + i) - 1 = k + i by omega]
  · rintro ⟨hlt, hchange⟩
    refine ⟨cursor - 1 - k, change, ?_, rfl, by omega⟩
    rwa [show k + (cursor - 1 - k) = cursor - 1 by omega]

theorem recorded_sorted (history : List Value) (k : ℕ) :
    ((history.zipIdx 1).drop k).Pairwise fun entry other => entry.2 < other.2 := by
  have hall : ((history.zipIdx 1).map Prod.snd).Pairwise (· < ·) := by
    rw [zipIdx_map_snd]
    exact pairwise_lt_range'
  exact (pairwise_map.mp hall).sublist (drop_sublist k _)

theorem Feeds.storedAfter_eq (h : Feeds service names history log)
    (hsurvive : ∀ cursor, after.toNat < cursor → cursor ≤ history.length → Survives log.store cursor) :
    (storedAfter log.store after).map storedText =
      ((history.zipIdx 1).drop after.toNat).map fun entry => (entry.2, service.format.print entry.1) := by
  obtain ⟨ever, hready⟩ := h.ready
  apply SortedMap.eq_of_sorted
  · rw [pairwise_map]
    exact ((EventsKeyed.streamEvents_sorted hready.settled.placed.events _).filter _).imp fun hlt =>
      UInt64.lt_iff_toNat_lt.mp hlt
  · rw [pairwise_map]
    exact recorded_sorted history _
  · rintro ⟨cursor, text⟩
    simp only [mem_map, storedAfter, mem_filter, mem_streamEvents, decide_eq_true_eq, Prod.exists, mem_recorded,
      storedText, Prod.mk.injEq, UInt64.lt_iff_toNat_lt]
    constructor
    · rintro ⟨event, ⟨⟨hstored, hstream⟩, hafter⟩, rfl, rfl⟩
      obtain ⟨-, change, hchange, hbody⟩ := h.holds.bodies event hstored hstream
      exact ⟨change, _, ⟨hafter, hchange⟩, rfl, hbody.symm⟩
    · rintro ⟨change, place, ⟨hafter, hchange⟩, rfl, rfl⟩
      have hlt := (List.getElem?_eq_some_iff.mp hchange).1
      obtain ⟨event, hstored, hstream, hcursor⟩ := hsurvive place hafter (by omega)
      obtain ⟨-, other, hother, hbody⟩ := h.holds.bodies event hstored hstream
      rw [hcursor, hchange] at hother
      obtain rfl := Option.some.inj hother
      exact ⟨event, ⟨⟨hstored, hstream⟩, hcursor ▸ hafter⟩, hcursor, hbody⟩

def readText (service : Service) (entry : ℕ × Bytes) : Option ReplicationChange :=
  (service.format.parse entry.2).map (service.envelope (UInt64.ofNat entry.1))

theorem filterMap_eq_map_iff (service : Service) (entries : List (Value × ℕ)) :
    (entries.map fun entry => (entry.2, service.format.print entry.1)).filterMap (readText service) =
      entries.map (fun entry => service.envelope (UInt64.ofNat entry.2) entry.1) ↔
      ∀ entry ∈ entries, service.format.Keeps entry.1 := by
  induction entries with
  | nil => simp
  | cons entry entries ih =>
    rw [map_cons, map_cons, forall_mem_cons, ← ih]
    cases hparse : service.format.parse (service.format.print entry.1) with
    | none =>
      have hread : readText service (entry.2, service.format.print entry.1) = none := by simp [readText, hparse]
      rw [filterMap_cons_none hread]
      constructor
      · intro heq
        have hlength := congrArg List.length heq
        have hle := length_filterMap_le (readText service)
          (entries.map fun entry => (entry.2, service.format.print entry.1))
        simp only [length_cons, length_map] at hlength hle
        omega
      · rintro ⟨hkeeps, -⟩
        cases hparse.symm.trans hkeeps
    | some value =>
      have hread : readText service (entry.2, service.format.print entry.1) =
          some (service.envelope (UInt64.ofNat entry.2) value) := by simp [readText, hparse]
      rw [filterMap_cons_some hread]
      constructor
      · intro heq
        obtain ⟨hfirst, hrest⟩ := List.cons.inj heq
        refine ⟨?_, hrest⟩
        rw [JsonFormat.Keeps, hparse, (ReplicationChange.mk.inj hfirst).2.2.2]
      · rintro ⟨hkeeps, hrest⟩
        rw [hrest, Option.some.inj (hparse.symm.trans hkeeps)]

theorem filterMap_readChange (service : Service) (events : List MemoryEvent) :
    events.filterMap service.readChange = (events.map storedText).filterMap (readText service) := by
  rw [filterMap_map]
  apply filterMap_congr
  simp [readChange, readText, storedText]

theorem getLast_recorded (history : List Value) (k n : ℕ) :
    (((history.zipIdx 1).drop k).take n).getLast?.map Prod.snd =
      if (((history.zipIdx 1).drop k).take n).length = 0 then none
      else some (k + (((history.zipIdx 1).drop k).take n).length) := by
  split_ifs with hnil
  · rw [length_eq_zero_iff.mp hnil]
    rfl
  · have hlt : (((history.zipIdx 1).drop k).take n).length - 1 < n := by
      rw [length_take] at hnil ⊢
      omega
    rw [List.getLast?_eq_getElem?, List.getElem?_take_of_lt hlt, List.getElem?_drop, List.getElem?_zipIdx]
    have hbound : k + ((((history.zipIdx 1).drop k).take n).length - 1) < history.length := by
      simp only [length_take, length_drop, length_zipIdx] at hnil ⊢
      omega
    rw [List.getElem?_eq_getElem hbound]
    simp only [Option.map_some, Option.some.injEq]
    omega

theorem toNat_next {events : List MemoryEvent}
    (h : events.map storedText =
      (recordedAfter history after limit).map fun entry => (entry.2, service.format.print entry.1)) :
    ((events.getLast?.map MemoryEvent.sequence).getD after).toNat =
      after.toNat + (recordedAfter history after limit).length := by
  have hlast : events.getLast?.map (fun event => event.sequence.toNat) =
      (recordedAfter history after limit).getLast?.map Prod.snd := by
    have hboth := congrArg (fun entries => (entries.map Prod.fst).getLast?) h
    simpa [storedText, Function.comp_def] using hboth
  rw [recordedAfter, getLast_recorded] at hlast
  rw [recordedAfter]
  cases hevents : events.getLast? with
  | none =>
    rw [hevents] at hlast
    split_ifs at hlast with hnil
    · simp [hnil]
    · cases hlast
  | some event =>
    rw [hevents] at hlast
    split_ifs at hlast with hnil
    · simp at hlast
    · exact Option.some.inj hlast

theorem ahead_iff (hplaced : Placed service.codec names ever store) :
    Ahead store after ↔ 0 < after ∧ (∃ event, store.Stored event ∧ event.stream = replicationStream) ∧
      ∀ event, store.Stored event → event.stream = replicationStream → after.toNat + 1 < event.sequence.toNat := by
  have hsorted : (store.streamEvents replicationStream).Pairwise fun event other => event.sequence < other.sequence :=
    EventsKeyed.streamEvents_sorted hplaced.events _
  rw [Ahead]
  apply and_congr_right
  intro _
  constructor
  · rintro ⟨first, hfirst, hlt⟩
    obtain ⟨rest, hevents⟩ := List.head?_eq_some_iff.mp hfirst
    refine ⟨⟨first, mem_streamEvents.mp (by rw [hevents]; exact mem_cons_self)⟩, ?_⟩
    intro event hstored hstream
    have hmem : event ∈ store.streamEvents replicationStream := mem_streamEvents.mpr ⟨hstored, hstream⟩
    rw [hevents] at hmem hsorted
    rcases mem_cons.mp hmem with rfl | hmem
    · exact hlt
    · have hle := UInt64.lt_iff_toNat_lt.mp ((pairwise_cons.mp hsorted).1 event hmem)
      omega
  · rintro ⟨⟨event, hstored, hstream⟩, hall⟩
    cases hfirst : (store.streamEvents replicationStream).head? with
    | none =>
      have hmem : event ∈ store.streamEvents replicationStream := mem_streamEvents.mpr ⟨hstored, hstream⟩
      rw [List.head?_eq_none_iff.mp hfirst] at hmem
      cases hmem
    | some first =>
      obtain ⟨hfirstStored, hfirstStream⟩ := mem_streamEvents.mp (mem_of_mem_head? hfirst)
      exact ⟨first, rfl, hall first hfirstStored hfirstStream⟩

end Pages

/-- A page of the feed is complete exactly if the check of the cursor refuses it, or if nothing behind the cursor has
been pruned and every change of the page reads back as it was recorded. -/
theorem feed_has_no_gaps_iff (hkeys : StreamKeys service.codec names) (hname : replicationStream ∈ names)
    (hrole : service.config.role = .source) (h : FeedRun service names history log) (objects : ObjectState)
    (after limit : UInt64) :
    Gapless service history log.store after limit ((service.events after limit).result ⟨objects, log⟩) ↔
      (0 < after ∧ (∃ event, log.store.Stored event ∧ event.stream = replicationStream) ∧
        ∀ event, log.store.Stored event → event.stream = replicationStream → after.toNat + 1 < event.sequence.toNat) ∨
      ((∀ cursor, after.toNat < cursor → cursor ≤ history.length → Survives log.store cursor) ∧
        ∀ entry ∈ recordedAfter history after limit, service.format.Keeps entry.1) := by
  have hfeeds := h.feeds hkeys hname hrole
  obtain ⟨ever, hready⟩ := hfeeds.ready
  have hplaced := hready.settled.placed
  obtain ⟨hconflict, hpage⟩ := result_events objects after limit hplaced
  rw [← ahead_iff hplaced]
  by_cases hahead : Ahead log.store after
  · obtain ⟨message, herror⟩ := hconflict hahead
    rw [herror]
    exact iff_of_true ⟨message, rfl⟩ (Or.inl hahead)
  · rw [hpage hahead, or_iff_right hahead]
    constructor
    · rintro ⟨hchanges, -, hsurvive⟩
      refine ⟨hsurvive, ?_⟩
      rw [filterMap_readChange, map_take, hfeeds.storedAfter_eq hsurvive, ← map_take] at hchanges
      exact (filterMap_eq_map_iff service _).mp hchanges
    · rintro ⟨hsurvive, hkeeps⟩
      have htexts : ((storedAfter log.store after).take (clampLimit limit).toNat).map storedText =
          (recordedAfter history after limit).map fun entry => (entry.2, service.format.print entry.1) := by
        rw [map_take, hfeeds.storedAfter_eq hsurvive, ← map_take]
        rfl
      have hchanges := (filterMap_eq_map_iff service _).mpr hkeeps
      rw [← htexts, ← filterMap_readChange] at hchanges
      refine ⟨hchanges, ?_, hsurvive⟩
      rw [toNat_next htexts, hchanges, length_map]

def sampleSource : Service :=
  ⟨⟨plainCodec, fun _ => .ok fun _ => none, Json.tagged, bytesOf "2024"⟩, ⟨bytesOf "s", .source, []⟩⟩

def deletion (id : String) : Value := deleteChange (bytesOf "c") (bytesOf id)

def recordedLog : EventLog :=
  ((sampleSource.recordChange (deletion "b")).last ⟨emptyState,
    ((sampleSource.recordChange (deletion "a")).last ⟨emptyState, emptyLog⟩).log⟩).log

theorem feedRun_recordedLog : FeedRun sampleSource Set.univ [deletion "a", deletion "b"] recordedLog := by
  have hstart : FeedRun sampleSource Set.univ [] emptyLog := .start
  have hfirst := hstart.record (bytesOf "2024") (deletion "a") emptyState
    (room_of_entries (by decide +kernel) (by decide))
  exact hfirst.record (bytesOf "2024") (deletion "b") emptyState (room_of_entries (by decide +kernel) (by decide))

theorem second_page_is_complete :
    Gapless sampleSource [deletion "a", deletion "b"] recordedLog.store 1 10
      ((sampleSource.events 1 10).result ⟨emptyState, recordedLog⟩) := by
  have hkeys : StreamKeys sampleSource.codec Set.univ := streamKeys_rawCodec _ Set.univ
  rw [feed_has_no_gaps_iff hkeys (Set.mem_univ _) rfl feedRun_recordedLog emptyState 1 10]
  refine Or.inr ⟨?_, fun entry _ => Json.keeps_tagged entry.1⟩
  intro cursor hafter hle
  obtain rfl : cursor = 2 := by
    change 1 < cursor at hafter
    change cursor ≤ 2 at hle
    omega
  have hstored : ∃ event ∈ recordedLog.store.events.entries.map Prod.snd,
      event.stream = replicationStream ∧ event.sequence.toNat = 2 := by decide +kernel
  obtain ⟨event, hmem, hevent⟩ := hstored
  exact ⟨event, stored_iff_mem.mpr hmem, hevent⟩

def pruning : RetentionOptions := ⟨fun _ => true, true, some 1⟩

/-- Retention prunes the first change, and a consumer that starts at zero is given the second one alone. -/
theorem pruned_change_is_skipped_silently :
    let log := recordedLog.after (recordedLog.retain plainCodec pruning [replicationStream])
    FeedRun sampleSource Set.univ [deletion "a", deletion "b"] log ∧ ¬Survives log.store 1 ∧
      ((sampleSource.events 0 10).result ⟨emptyState, log⟩).toOption.map
        (fun page => (page.next, page.changes.map ReplicationChange.cursor)) = some (2, [2]) ∧
      ¬Gapless sampleSource [deletion "a", deletion "b"] log.store 0 10
        ((sampleSource.events 0 10).result ⟨emptyState, log⟩) := by
  intro log
  have hrun : FeedRun sampleSource Set.univ [deletion "a", deletion "b"] log := by
    have hfits : (EventLog.Op.retain pruning [replicationStream]).Fits Set.univ recordedLog := by
      show Perm _ _
      decide +kernel
    exact feedRun_recordedLog.called (.retain pruning [replicationStream]) hfits trivial
  have hgone : ¬Survives log.store 1 := by
    rintro ⟨event, hstored, hstream, hcursor⟩
    have hall : ∀ event ∈ log.store.events.entries.map Prod.snd, event.sequence.toNat ≠ 1 := by decide +kernel
    exact hall event (stored_iff_mem.mp hstored) hcursor
  have hpage : ((sampleSource.events 0 10).result ⟨emptyState, log⟩).toOption.map
      (fun page => (page.next, page.changes.map ReplicationChange.cursor)) = some (2, [2]) := by decide +kernel
  refine ⟨hrun, hgone, hpage, ?_⟩
  cases hresult : (sampleSource.events 0 10).result ⟨emptyState, log⟩ with
  | error error =>
    rw [hresult] at hpage
    cases hpage
  | ok page => exact fun hgapless => hgone (hgapless.2.2 1 (by decide) (by decide))

end Thingd.Replication
