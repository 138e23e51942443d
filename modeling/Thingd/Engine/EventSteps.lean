import Thingd.Engine.EventSafety

namespace Thingd.Engine

open EventStore SortedMap EventCounters EventLog EventWrite

variable {codec : StorageCodec} {names : Set Bytes} {ever : Set (Bytes × UInt64)} {store : EventStore}
  {counters : EventCounters} {log : EventLog} {now : Bytes} {event : MemoryEvent} {stream : Bytes}

structure Settled (codec : StorageCodec) (names : Set Bytes) (ever : Set (Bytes × UInt64)) (store : EventStore) :
    Prop where
  placed : Placed codec names ever store
  covers : Covers codec Set.univ ever store

structure Ready (codec : StorageCodec) (names : Set Bytes) (ever : Set (Bytes × UInt64)) (log : EventLog) : Prop where
  settled : Settled codec names ever log.store
  knows : Knows log.counters ever log.store

theorem Settled.shrink {next : EventStore} (h : Settled codec names ever store) (hshrinks : Shrinks store next) :
    Settled codec names ever next := ⟨h.placed.shrink hshrinks, h.covers.shrink hshrinks⟩

theorem Settled.writeMetadata (hkeys : StreamKeys codec names) (h : Settled codec names ever store)
    (hknows : Knows counters ever store) (hstream : stream ∈ names) :
    Settled codec names ever (store.write (counters.encodeEventMetadata codec stream)) := by
  refine ⟨h.placed.writeMetadata hstream, ?_⟩
  have hcovers := h.covers.writeMetadata hkeys h.placed hknows hstream
  rwa [Set.insert_eq_of_mem (Set.mem_univ stream)] at hcovers

def EveryCrash (P : EventStore → Prop) (store : EventStore) (commits : List (List EventWrite)) : Prop :=
  ∀ n, P ((commits.take n).foldl commit store)

variable {P : EventStore → Prop} {commits : List (List EventWrite)}

theorem everyCrash_nil : EveryCrash P store [] ↔ P store := by simp [EveryCrash]

theorem everyCrash_cons {batch : List EventWrite} :
    EveryCrash P store (batch :: commits) ↔ P store ∧ EveryCrash P (store.commit batch) commits := by
  constructor
  · intro h
    exact ⟨h 0, fun n => h (n + 1)⟩
  · rintro ⟨hnow, hrest⟩ n
    cases n with
    | zero => exact hnow
    | succ n => exact hrest n

theorem EveryCrash.final (h : EveryCrash P store commits) : P (commits.foldl commit store) := by
  have hall := h commits.length
  rwa [List.take_length] at hall

theorem everyCrash_writeMetadata (hkeys : StreamKeys codec names) (h : Settled codec names ever store)
    (hknows : Knows counters ever store) {streams : List Bytes} (hstreams : ∀ stream ∈ streams, stream ∈ names) :
    EveryCrash (fun store => Settled codec names ever store ∧ Knows counters ever store) store
      (streams.map fun stream => [counters.encodeEventMetadata codec stream]) := by
  induction streams generalizing store with
  | nil => exact everyCrash_nil.mpr ⟨h, hknows⟩
  | cons stream streams ih =>
    obtain ⟨hstream, hrest⟩ := List.forall_mem_cons.mp hstreams
    exact everyCrash_cons.mpr ⟨⟨h, hknows⟩, ih (h.writeMetadata hkeys hknows hstream) hknows.writeMetadata hrest⟩

theorem appendEvent_of_existing {existing : MemoryEvent}
    (h : existingEvent codec log.store log.counters event = some existing) :
    log.appendEvent codec now event = (existing, ⟨[], log.counters⟩) := by
  simp [appendEvent, h]

theorem appendEvent_of_new (h : existingEvent codec log.store log.counters event = none) :
    log.appendEvent codec now event = (log.counters.stampedEvent now event,
      ⟨[[insertEvent codec (log.counters.stampedEvent now event),
        (log.counters.advance (log.counters.stampedEvent now event)).encodeEventMetadata codec event.stream]],
        log.counters.advance (log.counters.stampedEvent now event)⟩) := by
  rw [appendEvent, h]
  rfl

theorem Ready.append (hkeys : StreamKeys codec names) (h : Ready codec names ever log)
    (hstream : event.stream ∈ names) (hroom : Room log.counters 1)
    (hnone : existingEvent codec log.store log.counters event = none) :
    Ready codec names (insert (event.stream, (log.counters.stampedEvent now event).sequence) ever)
      (log.after (log.appendEvent codec now event).2) := by
  have hplaced := h.settled.placed.insertEvent (log.counters.stampedEvent now event) hstream
  have hknows := h.knows.insertEvent now h.settled.placed hroom hnone
  have hothers : Covers codec {event.stream}ᶜ
    (insert (event.stream, (log.counters.stampedEvent now event).sequence) ever)
      (log.store.write (insertEvent codec (log.counters.stampedEvent now event))) := by
    obtain ⟨hcounters, hkeep, hbounded⟩ := h.settled.covers
    refine ⟨?_, ?_, hbounded⟩
    · rintro other hother sequence (hnew | hever)
      · exact absurd (Prod.mk.inj hnew).1 hother
      · exact hcounters other trivial sequence hever
    · intro other hstored hother hkey
      rcases stored_insertEvent hstored with rfl | hold
      · exact absurd rfl hother
      · exact hkeep other hold trivial hkey
  have hcovers := hothers.writeMetadata hkeys hplaced hknows hstream
  have huniv : insert event.stream {event.stream}ᶜ = (Set.univ : Set Bytes) := by
    ext other
    simp [em]
  replace hcovers := huniv ▸ hcovers
  rw [appendEvent_of_new hnone]
  exact ⟨⟨hplaced.writeMetadata hstream, hcovers⟩, hknows.writeMetadata⟩

section Deletes

theorem commit_removeEvents (keys : List Bytes) :
    store.commit (keys.map removeEvent) = { store with events := keys.foldl SortedMap.erase store.events } := by
  induction keys generalizing store with
  | nil => rfl
  | cons key keys ih => exact ih

theorem shrinks_removeEvents (keys : List Bytes) : Shrinks store (store.commit (keys.map removeEvent)) := by
  rw [commit_removeEvents]
  refine ⟨fun key event hkey => ?_, rfl⟩
  rw [get_foldl_erase] at hkey
  split_ifs at hkey
  exact hkey

theorem EventStore.Knows.forgetEvent (h : Knows counters ever store)
    (hgone : ∀ other, store.Stored other → other.stream = event.stream → other.sequence ≠ event.sequence) :
    Knows (counters.forgetEvent event) ever store := by
  refine ⟨h.highest, ?_, ?_⟩
  · intro other hother hkey
    simp only [EventCounters.forgetEvent, h.keys other hother hkey]
    apply Option.filter_eq_some_iff.mpr
    refine ⟨rfl, ?_⟩
    by_cases hstream : other.stream = event.stream
    · simp [hgone other hother hstream]
    · simp [hstream]
  · intro stream idempotencyKey sequence hsequence
    exact h.bounded stream idempotencyKey sequence (Option.filter_eq_some_iff.mp hsequence).1

theorem EventStore.Knows.forgetEvents (h : Knows counters ever store) {deleted : List (Bytes × MemoryEvent)}
    (hgone : ∀ entry ∈ deleted, ∀ other, store.Stored other → other.stream = entry.2.stream →
      other.sequence ≠ entry.2.sequence) :
    Knows (deleted.foldl (fun counters entry => counters.forgetEvent entry.2) counters) ever store :=
  List.foldlRecOn (motive := (Knows · ever store)) deleted _ h fun _ h entry hentry =>
    h.forgetEvent (hgone entry hentry)

theorem ne_of_removed (hplaced : Placed codec names ever store) {keys : List Bytes} {key : Bytes} (hkey : key ∈ keys)
    (hget : store.events.get key = some event) {other : MemoryEvent}
    (hother : (store.commit (keys.map removeEvent)).Stored other) (hstream : other.stream = event.stream) :
    other.sequence ≠ event.sequence := by
  intro hsequence
  obtain ⟨place, hplace⟩ := hother
  rw [commit_removeEvents, get_foldl_erase] at hplace
  split_ifs at hplace with hmem
  apply hmem
  rw [hplaced.events place other hplace, hstream, hsequence, ← hplaced.events key event hget]
  exact hkey

theorem lastEvent_spec {entry : Bytes × MemoryEvent} (h : log.lastEvent stream = some entry) :
    log.store.events.get entry.1 = some entry.2 ∧ entry.2.stream = stream := by
  have hfold (entries : List (Bytes × MemoryEvent)) (last : Option (Bytes × MemoryEvent))
      (hresult : entries.foldl (fun last entry =>
        if entry.2.stream = stream && last.all fun last => last.2.sequence < entry.2.sequence then some entry else last)
        last = some entry) : last = some entry ∨ entry ∈ entries ∧ entry.2.stream = stream := by
    induction entries generalizing last with
    | nil => exact Or.inl hresult
    | cons first entries ih =>
      rw [List.foldl_cons] at hresult
      rcases ih _ hresult with hlast | ⟨hmem, hstream⟩
      · split_ifs at hlast with htaken
        · obtain rfl := Option.some.inj hlast
          simp only [Bool.and_eq_true, decide_eq_true_eq] at htaken
          exact Or.inr ⟨List.mem_cons_self, htaken.1⟩
        · exact Or.inl hlast
      · exact Or.inr ⟨List.mem_cons_of_mem _ hmem, hstream⟩
  rcases hfold _ none h with hnone | ⟨hmem, hstream⟩
  · exact absurd hnone nofun
  · exact ⟨get_eq_some_iff.mpr hmem, hstream⟩

theorem deleteLastEvent_safe (hkeys : StreamKeys codec names) (h : Ready codec names ever log)
    {result : Option MemoryEvent × EventEffect} (hresult : log.deleteLastEvent codec stream = .ok result) :
    EveryCrash (Settled codec names ever) log.store result.2.commits ∧ Ready codec names ever (log.after result.2) := by
  rw [deleteLastEvent] at hresult
  split_ifs at hresult
  cases hlast : log.lastEvent stream with
  | none =>
    simp only [hlast, Except.ok.injEq] at hresult
    subst hresult
    exact ⟨everyCrash_nil.mpr h.settled, h⟩
  | some entry =>
    obtain ⟨key, event⟩ := entry
    obtain ⟨hget, rfl⟩ := lastEvent_spec hlast
    simp only [hlast, Except.ok.injEq] at hresult
    subst hresult
    have hshrinks : Shrinks log.store (log.store.commit [.removeEvent key]) := shrinks_removeEvent key
    have hsettled := h.settled.shrink hshrinks
    have hknows := (h.knows.shrink hshrinks).forgetEvent fun other hother hstream =>
      ne_of_removed h.settled.placed (List.mem_singleton.mpr rfl) hget hother hstream
    have hwritten := hsettled.writeMetadata hkeys hknows (h.settled.placed.stream_mem ⟨key, hget⟩)
    refine ⟨?_, hwritten, hknows.writeMetadata⟩
    exact everyCrash_cons.mpr ⟨h.settled, everyCrash_cons.mpr ⟨hsettled, everyCrash_nil.mpr hwritten⟩⟩

theorem retain_safe (hkeys : StreamKeys codec names) (h : Ready codec names ever log) (options : RetentionOptions)
    {affectedStreams : List Bytes}
    (haffected : ∀ stream ∈ affectedStreams, ∃ entry ∈ log.eligibleEvents options, entry.2.stream = stream) :
    EveryCrash (Settled codec names ever) log.store (log.retain codec options affectedStreams).commits ∧
      Ready codec names ever (log.after (log.retain codec options affectedStreams)) := by
  have hget {entry : Bytes × MemoryEvent} (hentry : entry ∈ log.eligibleEvents options) :
      log.store.events.get entry.1 = some entry.2 :=
    get_eq_some_iff.mpr (List.mem_of_mem_filter hentry)
  have hstreams : ∀ stream ∈ affectedStreams, stream ∈ names := by
    intro stream hstream
    obtain ⟨entry, hentry, rfl⟩ := haffected stream hstream
    exact h.settled.placed.stream_mem ⟨entry.1, hget hentry⟩
  have hremove : (log.eligibleEvents options).map (fun entry => removeEvent entry.1) =
      ((log.eligibleEvents options).map Prod.fst).map removeEvent := by
    rw [List.map_map]
    rfl
  have hshrinks : Shrinks log.store (log.store.commit
      (((log.eligibleEvents options).map Prod.fst).map removeEvent)) := shrinks_removeEvents _
  have hsettled := h.settled.shrink hshrinks
  have hknows : Knows ((log.eligibleEvents options).foldl (fun counters entry => counters.forgetEvent entry.2)
      log.counters) ever _ := (h.knows.shrink hshrinks).forgetEvents fun entry hentry other hother hstream =>
      ne_of_removed h.settled.placed (List.mem_map_of_mem hentry) (hget hentry) hother hstream
  have hmetadata := everyCrash_writeMetadata hkeys hsettled hknows hstreams
  rw [← hremove] at hmetadata
  by_cases hnone : log.eligibleEvents options = []
  · simp only [hnone] at hmetadata
    have hcommits : (log.retain codec options affectedStreams).commits =
        affectedStreams.map fun stream => [log.counters.encodeEventMetadata codec stream] := by
      simp [retain, hnone]
    have hcounters : (log.retain codec options affectedStreams).counters = log.counters := by
      simp [retain, hnone]
    rw [EventLog.after, hcommits, hcounters]
    exact ⟨fun n => (hmetadata n).1, hmetadata.final.1, hmetadata.final.2⟩
  · have hcommits : (log.retain codec options affectedStreams).commits =
        (log.eligibleEvents options).map (fun entry => removeEvent entry.1) ::
          affectedStreams.map fun stream => [((log.eligibleEvents options).foldl
            (fun counters entry => counters.forgetEvent entry.2) log.counters).encodeEventMetadata codec stream] := by
      simp [retain, hnone]
    rw [EventLog.after, hcommits]
    refine ⟨everyCrash_cons.mpr ⟨h.settled, fun n => (hmetadata n).1⟩, ?_⟩
    exact ⟨hmetadata.final.1, hmetadata.final.2⟩

theorem everyCrash_removeEvents (h : Settled codec names ever store) (keys : List Bytes) :
    EveryCrash (Settled codec names ever) store (keys.map fun key => [removeEvent key]) := by
  induction keys generalizing store with
  | nil => exact everyCrash_nil.mpr h
  | cons key keys ih => exact everyCrash_cons.mpr ⟨h, ih (h.shrink (shrinks_removeEvent key))⟩

theorem foldl_commit_removeEvents (keys : List Bytes) :
    (keys.map fun key => [removeEvent key]).foldl commit store =
      { store with events := keys.foldl SortedMap.erase store.events } := by
  induction keys generalizing store with
  | nil => rfl
  | cons key keys ih => exact ih

def withoutStream (ever : Set (Bytes × UInt64)) (stream : Bytes) : Set (Bytes × UInt64) :=
  {place ∈ ever | place.1 ≠ stream}

theorem deleteStream_safe (hkeys : StreamKeys codec names) (h : Ready codec names ever log) (hstream : stream ∈ names)
    {result : ℕ × EventEffect} (hresult : log.deleteStream codec stream = .ok result) :
    (∀ n < result.2.commits.length, Settled codec names ever ((result.2.commits.take n).foldl commit log.store)) ∧
      Ready codec names (withoutStream ever stream) (log.after result.2) := by
  rw [deleteStream] at hresult
  split_ifs at hresult
  obtain rfl := Except.ok.inj hresult
  generalize hentries : (log.store.events.entries.filter fun entry => entry.2.stream = stream) = entries
  have hcommits : entries.map (fun entry => [removeEvent entry.1]) =
      (entries.map Prod.fst).map fun key => [removeEvent key] := by
    rw [List.map_map]
    rfl
  constructor
  · intro n hn
    simp only [List.length_append, List.length_map, List.length_singleton] at hn
    rw [List.take_append_of_le_length (by simp; omega), hcommits]
    exact everyCrash_removeEvents h.settled (entries.map Prod.fst) n
  · have hafter : (entries.map (fun entry => [removeEvent entry.1]) ++
        [[removeMetadata (codec.makeEventMetadataKey stream)]]).foldl commit log.store =
        ⟨(entries.map Prod.fst).foldl SortedMap.erase log.store.events,
          log.store.eventMeta.erase (codec.makeEventMetadataKey stream)⟩ := by
      rw [List.foldl_append, hcommits, foldl_commit_removeEvents]
      rfl
    -- Every event of the stream is gone, and the other streams are as before.
    have hother {event : MemoryEvent} (hstored : EventStore.Stored ⟨(entries.map Prod.fst).foldl SortedMap.erase
        log.store.events, log.store.eventMeta.erase (codec.makeEventMetadataKey stream)⟩ event) :
        log.store.Stored event ∧ event.stream ≠ stream := by
      obtain ⟨key, hkey⟩ := hstored
      rw [get_foldl_erase] at hkey
      split_ifs at hkey with hmem
      refine ⟨⟨key, hkey⟩, fun heq => hmem ?_⟩
      rw [← hentries]
      exact List.mem_map.mpr ⟨(key, event), List.mem_filter.mpr ⟨get_eq_some_iff.mp hkey, by simpa using heq⟩, rfl⟩
    have hmeta {other : Bytes} (hname : other ∈ names) (hne : other ≠ stream) :
        (log.store.eventMeta.erase (codec.makeEventMetadataKey stream)).get (codec.makeEventMetadataKey other) =
          log.store.eventMeta.get (codec.makeEventMetadataKey other) := by
      rw [get_erase, if_neg fun heq => hne (hkeys.metadata hname hstream heq)]
    have hkept {key : Bytes} {metadata : EventMetadata}
        (hget : (log.store.eventMeta.erase (codec.makeEventMetadataKey stream)).get key = some metadata) :
        log.store.eventMeta.get key = some metadata := by
      rw [get_erase] at hget
      split_ifs at hget
      exact hget
    rw [EventLog.after, hafter]
    refine ⟨⟨⟨?_, ?_, ?_, ?_⟩, ?_, ?_, ?_⟩, ?_, ?_, ?_⟩
    · intro key event hkey
      rw [get_foldl_erase] at hkey
      split_ifs at hkey
      exact h.settled.placed.events key event hkey
    · exact fun key metadata hget => h.settled.placed.metadata key metadata (hkept hget)
    · exact fun event hstored => ⟨h.settled.placed.recorded event (hother hstored).1, (hother hstored).2⟩
    · exact fun place hplace => h.settled.placed.named place hplace.1
    · rintro other - sequence ⟨hever, hne⟩
      rw [hmeta (h.settled.placed.named _ hever) hne]
      exact h.settled.covers.counters other trivial sequence hever
    · intro event hstored _ hkey
      obtain ⟨hold, hne⟩ := hother hstored
      rw [hmeta (h.settled.placed.stream_mem hold) hne]
      exact h.settled.covers.keys event hold trivial hkey
    · exact fun key metadata hget => h.settled.covers.bounded key metadata (hkept hget)
    · rintro other sequence ⟨hever, hne⟩
      simpa [forgetStream, hne] using h.knows.highest other sequence hever
    · intro event hstored hkey
      obtain ⟨hold, hne⟩ := hother hstored
      simpa [forgetStream, hne] using h.knows.keys event hold hkey
    · intro other idempotencyKey sequence hsequence
      by_cases hsame : other = stream
      · simp [forgetStream, hsame] at hsequence
      · simp only [forgetStream, hsame] at hsequence
        simpa [forgetStream, hsame] using h.knows.bounded other idempotencyKey sequence hsequence

end Deletes

end Thingd.Engine
