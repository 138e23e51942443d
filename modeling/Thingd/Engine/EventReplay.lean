import Thingd.Engine.EventBatch
import Thingd.Engine.EventOpen

namespace Thingd.Engine

open EventStore EventLog SortedMap EventCounters

def EventLog.appended (codec : StorageCodec) (now : Bytes) (log : EventLog) (event : MemoryEvent) : EventLog :=
  log.after (log.appendEvent codec now event).2

def EventLog.replayed (codec : StorageCodec) (now : Bytes) (log : EventLog) (events : List MemoryEvent) : EventLog :=
  events.foldl (EventLog.appended codec now) log

def EventLog.Known (codec : StorageCodec) (log : EventLog) (event : MemoryEvent) : Prop :=
  (existingEvent codec log.store log.counters event).isSome = true

def MemoryEvent.timeless (event : MemoryEvent) : MemoryEvent := { event with createdAt := [] }

structure EventLog.Alike (names : Set Bytes) (left right : EventLog) : Prop where
  events : ∀ key, (left.store.events.get key).map MemoryEvent.timeless =
    (right.store.events.get key).map MemoryEvent.timeless
  sequences : ∀ stream ∈ names, left.counters.seqCounters.get stream = right.counters.seqCounters.get stream
  keys : ∀ stream ∈ names, ∀ key,
    left.counters.idempotencyKeys (stream, key) = right.counters.idempotencyKeys (stream, key)

structure EventLog.Saved (codec : StorageCodec) (names : Set Bytes) (log : EventLog) : Prop where
  placed : ∃ ever, Placed codec names ever log.store
  saved : ∀ stream ∈ names, log.store.eventMeta.get (codec.makeEventMetadataKey stream) =
    (log.counters.seqCounters.get stream).map fun _ => metadataOf log.counters stream
  idle : ∀ stream ∈ names, log.counters.seqCounters.get stream = none →
    ∀ key, log.counters.idempotencyKeys (stream, key) = none
  bare : log.store.eventMeta.isEmpty = true → log.store.events.entries = []

variable {codec : StorageCodec} {names : Set Bytes} {log left right : EventLog} {now later : Bytes}
  {event other : MemoryEvent} {events : List MemoryEvent}

section Appended

theorem appended_of_known (h : log.Known codec event) : log.appended codec now event = log := by
  obtain ⟨existing, hexisting⟩ := Option.isSome_iff_exists.mp h
  rw [EventLog.appended, appendEvent_of_existing hexisting]
  rfl

theorem appended_of_new (h : existingEvent codec log.store log.counters event = none) :
    log.appended codec now event =
      ⟨(log.store.write (insertEvent codec (log.counters.stampedEvent now event))).write
        ((log.counters.advance (log.counters.stampedEvent now event)).encodeEventMetadata codec event.stream),
        log.counters.advance (log.counters.stampedEvent now event)⟩ := by
  rw [EventLog.appended, appendEvent_of_new h]
  rfl

theorem known_appended_self (hkey : event.idempotencyKey ≠ []) : (log.appended codec now event).Known codec event := by
  cases hfound : existingEvent codec log.store log.counters event with
  | some existing =>
    have hknown : log.Known codec event := by simp [EventLog.Known, hfound]
    rw [appended_of_known hknown]
    exact hknown
  | none =>
    rw [appended_of_new hfound]
    simp [EventLog.Known, existingEvent, hkey, advance, stampedEvent, insertEvent,
      EventStore.write, encodeEventMetadata]

theorem EventLog.Known.appended (h : log.Known codec other) : (log.appended codec now event).Known codec other := by
  cases hfound : existingEvent codec log.store log.counters event with
  | some existing =>
    rw [appended_of_known (by simp [EventLog.Known, hfound])]
    exact h
  | none =>
    have hkey : other.idempotencyKey ≠ [] := by
      intro hempty
      simp [EventLog.Known, existingEvent, hempty] at h
    -- the same stream and key would have been found
    have hplace : event.idempotencyKey ≠ [] →
      (other.stream, other.idempotencyKey) ≠ (event.stream, event.idempotencyKey) := by
      intro _ heq
      obtain ⟨hstream, hsame⟩ := Prod.mk.inj heq
      rw [EventLog.Known, existingEvent, hstream, hsame, ← existingEvent, hfound] at h
      cases h
    have hcounters : (log.counters.advance (log.counters.stampedEvent now event)).idempotencyKeys
        (other.stream, other.idempotencyKey) = log.counters.idempotencyKeys (other.stream, other.idempotencyKey) := by
      rw [idempotencyKeys_advance]
      exact if_neg fun hsame => hplace hsame.1 hsame.2
    rw [appended_of_new hfound]
    simp only [EventLog.Known, existingEvent, List.isEmpty_iff, hkey, if_false, hcounters] at h ⊢
    obtain ⟨stored, hstored⟩ := Option.isSome_iff_exists.mp h
    obtain ⟨sequence, hsequence, hget⟩ := Option.bind_eq_some_iff.mp hstored
    rw [hsequence, Option.bind_some]
    simp only [EventStore.write, insertEvent, encodeEventMetadata, get_insert]
    split_ifs
    · rfl
    · simp [hget]

end Appended

section Replayed

theorem EventLog.replayed_append (more : List MemoryEvent) :
    log.replayed codec now (events ++ more) = (log.replayed codec now events).replayed codec now more :=
      List.foldl_append

theorem EventLog.Known.replayed (h : log.Known codec other) : (log.replayed codec now events).Known codec other :=
  List.foldlRecOn (motive := (Known codec · other)) events _ h fun _ h _ _ => h.appended

theorem known_replayed (hkeyed : ∀ event ∈ events, event.idempotencyKey ≠ []) :
    ∀ event ∈ events, (log.replayed codec now events).Known codec event := by
  induction events generalizing log with
  | nil => exact List.forall_mem_nil _
  | cons first events ih =>
    obtain ⟨hfirst, hrest⟩ := List.forall_mem_cons.mp hkeyed
    exact List.forall_mem_cons.mpr ⟨(known_appended_self hfirst).replayed, ih hrest⟩

theorem replayed_of_known (h : ∀ event ∈ events, log.Known codec event) : log.replayed codec now events = log := by
  induction events with
  | nil => rfl
  | cons event events ih =>
    obtain ⟨hfirst, hrest⟩ := List.forall_mem_cons.mp h
    rw [EventLog.replayed, List.foldl_cons, appended_of_known hfirst]
    exact ih hrest

end Replayed

section Alike

theorem EventLog.Alike.refl (log : EventLog) : log.Alike names log := ⟨fun _ => rfl, fun _ _ => rfl, fun _ _ _ => rfl⟩

section

variable (h : left.Alike names right)
include h

theorem EventLog.Alike.isSome_get (key : Bytes) :
    (left.store.events.get key).isSome = (right.store.events.get key).isSome := by
  have hevents := congrArg Option.isSome (h.events key)
  rwa [Option.isSome_map, Option.isSome_map] at hevents

theorem EventLog.Alike.known_iff (hstream : event.stream ∈ names) :
    left.Known codec event ↔ right.Known codec event := by
  simp only [EventLog.Known, existingEvent, h.keys event.stream hstream]
  split_ifs
  · exact Iff.rfl
  · cases right.counters.idempotencyKeys (event.stream, event.idempotencyKey) with
    | none => exact Iff.rfl
    | some sequence => rw [Option.bind_some, Option.bind_some, h.isSome_get]

theorem EventLog.Alike.appended (hstream : event.stream ∈ names) :
    (left.appended codec now event).Alike names (right.appended codec later event) := by
  cases hfound : existingEvent codec left.store left.counters event with
  | some existing =>
    have hknown : left.Known codec event := by simp [EventLog.Known, hfound]
    rw [appended_of_known hknown, appended_of_known ((h.known_iff hstream).mp hknown)]
    exact h
  | none =>
    have hother : existingEvent codec right.store right.counters event = none := by
      rw [← Option.not_isSome_iff_eq_none]
      intro hknown
      have hleft := (h.known_iff hstream).mpr hknown
      rw [EventLog.Known, hfound] at hleft
      cases hleft
    have hsequence : left.counters.nextSequence event.stream = right.counters.nextSequence event.stream := by
      rw [nextSequence, h.sequences event.stream hstream, ← nextSequence]
    rw [appended_of_new hfound, appended_of_new hother]
    refine ⟨fun key => ?_, fun stream hmem => ?_, fun stream hmem key => ?_⟩
    · simp only [EventStore.write, insertEvent, encodeEventMetadata, get_insert,
        stampedEvent, hsequence]
      split_ifs
      · simp [MemoryEvent.timeless]
      all_goals first | rfl | exact h.events key
    · simp only [seqCounters_advance, stampedEvent, hsequence]
      split_ifs
      · rfl
      · exact h.sequences stream hmem
    · simp only [idempotencyKeys_advance, stampedEvent, hsequence]
      split_ifs
      · rfl
      · exact h.keys stream hmem key

theorem EventLog.Alike.replayed (hstreams : ∀ event ∈ events, event.stream ∈ names) :
    (left.replayed codec now events).Alike names (right.replayed codec later events) := by
  induction events generalizing left right with
  | nil => exact h
  | cons event events ih =>
    obtain ⟨hfirst, hrest⟩ := List.forall_mem_cons.mp hstreams
    exact ih (h.appended hfirst) hrest

end

end Alike

section Saved

theorem EventLog.Saved.appended (hkeys : StreamKeys codec names) (h : log.Saved codec names)
    (hstream : event.stream ∈ names) : (log.appended codec now event).Saved codec names := by
  cases hfound : existingEvent codec log.store log.counters event with
  | some existing =>
    rw [appended_of_known (by simp [EventLog.Known, hfound])]
    exact h
  | none =>
    obtain ⟨ever, hplaced⟩ := h.placed
    have hinserted := hplaced.insertEvent (log.counters.stampedEvent now event) hstream
    have hself : (log.counters.advance (log.counters.stampedEvent now event)).seqCounters.get event.stream =
        some (log.counters.stampedEvent now event).sequence :=
      (seqCounters_advance _ _ _).trans (if_pos rfl)
    have hrest {stream : Bytes} (hne : stream ≠ event.stream) :
        (log.counters.advance (log.counters.stampedEvent now event)).seqCounters.get stream =
          log.counters.seqCounters.get stream := (seqCounters_advance _ _ _).trans (if_neg hne)
    rw [appended_of_new hfound]
    refine ⟨⟨_, hinserted.writeMetadata hstream⟩, fun stream hmem => ?_, fun stream hmem hnone key => ?_,
      fun hbare => ?_⟩
    · simp only [encodeEventMetadata, EventStore.write, get_insert]
      by_cases heq : stream = event.stream
      · subst heq
        rw [if_pos rfl, hself, Option.map_some, metadataOf, hself]
      · have hkey : codec.makeEventMetadataKey stream ≠ codec.makeEventMetadataKey event.stream :=
          fun hsame => heq (hkeys.metadata hmem hstream hsame)
        rw [if_neg hkey, hrest heq]
        have hsame : metadataOf (log.counters.advance (log.counters.stampedEvent now event)) stream =
          metadataOf log.counters stream :=
          metadataOf_advance heq
        rw [hsame]
        exact h.saved stream hmem
    · have hne : stream ≠ event.stream := by
        rintro rfl
        rw [hself] at hnone
        cases hnone
      rw [hrest hne] at hnone
      rw [idempotencyKeys_advance, if_neg fun hplace => hne (Prod.mk.inj hplace.2).1]
      exact h.idle stream hmem hnone key
    · have hget : ((log.store.write (insertEvent codec (log.counters.stampedEvent now event))).write
          ((log.counters.advance (log.counters.stampedEvent now event)).encodeEventMetadata codec
            event.stream)).eventMeta.get
            (codec.makeEventMetadataKey event.stream) =
              some (metadataOf (log.counters.advance (log.counters.stampedEvent now event)) event.stream) := by
        simp [encodeEventMetadata, EventStore.write, metadataOf]
      rw [SortedMap.isEmpty_iff.mp hbare] at hget
      cases hget

theorem EventLog.Saved.replayed (hkeys : StreamKeys codec names) (h : log.Saved codec names)
    (hstreams : ∀ event ∈ events, event.stream ∈ names) : (log.replayed codec now events).Saved codec names :=
  List.foldlRecOn (motive := Saved codec names) events _ h fun _ h event hevent =>
    h.appended hkeys (hstreams event hevent)

theorem openLog_commits_of_saved (h : log.Saved codec names) {streams : List Bytes}
    (hstreams : streams.Perm log.store.loadCounters.seqCounters.keys) :
    (openLog codec log.store streams).commits = [] := by
  rw [openLog]
  split_ifs with hbare
  · have hnone : log.store.loadCounters.seqCounters.keys = [] := by
      rw [loadCounters, if_pos hbare, h.bare hbare]
      rfl
    rw [hnone] at hstreams
    rw [hstreams.eq_nil]
    rfl
  · rfl

theorem EventLog.Saved.loadCounters (hkeys : StreamKeys codec names) (h : log.Saved codec names) {stream : Bytes}
    (hstream : stream ∈ names) :
    log.store.loadCounters.seqCounters.get stream = log.counters.seqCounters.get stream ∧
      ∀ key, log.store.loadCounters.idempotencyKeys (stream, key) = log.counters.idempotencyKeys (stream, key) := by
  obtain ⟨ever, hplaced⟩ := h.placed
  have hnoCounters : noCounters.seqCounters.get stream = none := eq_empty_iff.mp rfl stream
  have hsaved := h.saved stream hstream
  cases hbare : log.store.eventMeta.isEmpty with
  | true =>
    have hnone : log.counters.seqCounters.get stream = none := by
      rw [SortedMap.isEmpty_iff.mp hbare, eq_empty_iff.mp rfl, eq_comm, Option.map_eq_none_iff] at hsaved
      exact hsaved
    rw [EventStore.loadCounters, if_pos hbare, h.bare hbare, hnone]
    exact ⟨hnoCounters, fun key => (h.idle stream hstream hnone key).symm⟩
  | false =>
    obtain ⟨hloaded, hrest⟩ := loadMetadata_foldl (metadata_streams_nodup hplaced)
    rw [EventStore.loadCounters, if_neg (by simp [hbare])]
    cases hget : log.store.eventMeta.get (codec.makeEventMetadataKey stream) with
    | some metadata =>
      obtain ⟨hmem, rfl⟩ := loaded_of_get hkeys hplaced hstream hget
      rw [hget, eq_comm, Option.map_eq_some_iff] at hsaved
      obtain ⟨highest, hhighest, hmetadata⟩ := hsaved
      obtain ⟨hsequence, hkey⟩ := hloaded metadata hmem
      rw [hsequence]
      refine ⟨?_, fun key => ?_⟩
      · rw [← hmetadata, metadataOf, hhighest, Option.getD_some]
      · rw [hkey, ← hmetadata]
        rfl
    | none =>
      rw [hget, eq_comm, Option.map_eq_none_iff] at hsaved
      have hnotmem : stream ∉ (log.store.eventMeta.entries.map Prod.snd).map EventMetadata.stream := by
        intro hmem
        obtain ⟨metadata, hmetadata, rfl⟩ := List.mem_map.mp hmem
        obtain ⟨entry, hentry, rfl⟩ := List.mem_map.mp hmetadata
        have hfound := get_eq_some_iff.mpr hentry
        rw [(hplaced.metadata entry.1 entry.2 hfound).1, hget] at hfound
        cases hfound
      rw [get_loadMetadata_of_not_mem hnotmem, hsaved]
      exact ⟨hnoCounters, fun key => (hrest stream hnotmem key).trans (h.idle stream hstream hsaved key).symm⟩

theorem EventLog.Saved.reopen (hkeys : StreamKeys codec names) (h : log.Saved codec names) {streams : List Bytes}
    (hstreams : streams.Perm log.store.loadCounters.seqCounters.keys) :
    log.Alike names (EventLog.after ⟨log.store, noCounters⟩ (openLog codec log.store streams)) ∧
      (EventLog.after ⟨log.store, noCounters⟩ (openLog codec log.store streams)).Saved codec names := by
  rw [EventLog.after, openLog_commits_of_saved h hstreams]
  have hsame : ∀ stream ∈ names, metadataOf log.store.loadCounters stream = metadataOf log.counters stream := by
    intro stream hstream
    obtain ⟨hsequence, hkey⟩ := h.loadCounters hkeys hstream
    rw [metadataOf, metadataOf, hsequence]
    congr 1
    funext key
    exact hkey key
  refine ⟨⟨fun _ => rfl, fun stream hstream => ?_, fun stream hstream key => ?_⟩, h.placed, ?_, ?_, h.bare⟩
  · exact (h.loadCounters hkeys hstream).1.symm
  · exact ((h.loadCounters hkeys hstream).2 key).symm
  · intro stream hstream
    change log.store.eventMeta.get _ = (log.store.loadCounters.seqCounters.get stream).map _
    rw [(h.loadCounters hkeys hstream).1, h.saved stream hstream]
    apply Option.map_congr
    exact fun _ _ => (hsame stream hstream).symm
  · intro stream hstream hnone key
    change log.store.loadCounters.idempotencyKeys (stream, key) = none
    rw [(h.loadCounters hkeys hstream).2 key]
    exact h.idle stream hstream ((h.loadCounters hkeys hstream).1.symm.trans hnone) key

end Saved

end Thingd.Engine
