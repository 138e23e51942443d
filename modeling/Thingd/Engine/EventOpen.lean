import Thingd.Engine.EventSteps

namespace Thingd.Engine

open EventStore SortedMap List

variable {codec : StorageCodec} {names : Set Bytes} {ever : Set (Bytes × UInt64)} {store : EventStore}
  {counters : EventCounters} {stream : Bytes}

def EventStore.places (store : EventStore) : Set (Bytes × UInt64) :=
  {place | ∃ event, store.Stored event ∧ (event.stream, event.sequence) = place}

theorem EventStore.Placed.places_subset (h : Placed codec names ever store) : store.places ⊆ ever := by
  rintro place ⟨event, hstored, rfl⟩
  exact h.recorded event hstored

structure Legacy (codec : StorageCodec) (names : Set Bytes) (ever : Set (Bytes × UInt64)) (store : EventStore) :
    Prop where
  placed : Placed codec names ever store
  bare : store.eventMeta = .empty
  present : ever ⊆ store.places
  distinct : ∀ event other, store.Stored event → store.Stored other → event.stream = other.stream →
    event.idempotencyKey = other.idempotencyKey → event.idempotencyKey ≠ [] → event.sequence = other.sequence

theorem Settled.legacy (h : Settled codec names ever store) (hbare : store.eventMeta = .empty) :
    Legacy codec names ever store := by
  have hnone : ∀ place, place ∉ ever := by
    intro place hplace
    obtain ⟨metadata, hget, -⟩ := h.covers.counters place.1 trivial place.2 hplace
    rw [hbare] at hget
    cases hget
  refine ⟨h.placed, hbare, fun place hplace => absurd hplace (hnone place), ?_⟩
  intro event other hstored
  exact absurd (h.placed.recorded event hstored) (hnone _)

variable {fewer : Set (Bytes × UInt64)}

theorem Settled.anti (h : Settled codec names ever store) (hsub : fewer ⊆ ever) (hstored : store.places ⊆ fewer) :
    Settled codec names fewer store := by
  refine ⟨⟨h.placed.events, h.placed.metadata, ?_, ?_⟩, ?_, h.covers.keys, h.covers.bounded⟩
  · exact fun event hevent => hstored ⟨event, hevent, rfl⟩
  · exact fun place hplace => h.placed.named place (hsub hplace)
  · exact fun stream hstream sequence hever => h.covers.counters stream hstream sequence (hsub hever)

theorem Ready.anti {log : EventLog} (h : Ready codec names ever log) (hsub : fewer ⊆ ever)
    (hstored : log.store.places ⊆ fewer) : Ready codec names fewer log :=
  ⟨h.settled.anti hsub hstored, fun stream sequence hever => h.knows.highest stream sequence (hsub hever), h.knows.keys,
    h.knows.bounded⟩

section Load

variable {entries : List EventMetadata}

theorem loadMetadata_foldl (hdistinct : (entries.map EventMetadata.stream).Nodup) :
    (∀ metadata ∈ entries,
      (entries.foldl loadMetadata noCounters).seqCounters.get metadata.stream = some metadata.maxSequence ∧
        ∀ key, (entries.foldl loadMetadata noCounters).idempotencyKeys (metadata.stream, key) =
          metadata.idempotencyKeys key) ∧
      ∀ stream, stream ∉ entries.map EventMetadata.stream →
        ∀ key, (entries.foldl loadMetadata noCounters).idempotencyKeys (stream, key) = none := by
  induction entries using List.reverseRecOn with
  | nil => simp [noCounters]
  | append_singleton entries last ih =>
    rw [map_append, nodup_append] at hdistinct
    obtain ⟨hnodup, -, hdisjoint⟩ := hdistinct
    obtain ⟨hloaded, hrest⟩ := ih hnodup
    have hlast : last.stream ∉ entries.map EventMetadata.stream :=
      fun hmem => hdisjoint _ hmem last.stream (by simp) rfl
    rw [foldl_append, foldl_cons]
    constructor
    · intro metadata hmem
      rcases mem_append.mp hmem with hmem | hmem
      · have hne : metadata.stream ≠ last.stream := fun heq => hlast (heq ▸ mem_map_of_mem hmem)
        simpa [loadMetadata, hne] using hloaded metadata hmem
      · obtain rfl := mem_singleton.mp hmem
        simp [loadMetadata, hrest metadata.stream hlast]
    · intro stream hstream key
      rw [map_append, mem_append, not_or] at hstream
      have hne : stream ≠ last.stream := fun heq => hstream.2 (by simp [heq])
      simpa [loadMetadata, hne] using hrest stream hstream.1 key

theorem metadata_streams_nodup (hplaced : Placed codec names ever store) :
    ((store.eventMeta.entries.map Prod.snd).map EventMetadata.stream).Nodup := by
  rw [map_map]
  apply pairwise_map.mpr
  apply store.eventMeta.sorted.imp_of_mem
  intro entry other hentry hother hlt hsame
  have hkey := (hplaced.metadata entry.1 entry.2 (get_eq_some_iff.mpr hentry)).1
  have hotherKey := (hplaced.metadata other.1 other.2 (get_eq_some_iff.mpr hother)).1
  have hsame : entry.2.stream = other.2.stream := hsame
  rw [hkey, hotherKey, hsame] at hlt
  exact lt_irrefl _ hlt

theorem loaded_of_get (hkeys : StreamKeys codec names) (hplaced : Placed codec names ever store)
    (hstream : stream ∈ names) {metadata : EventMetadata}
    (hget : store.eventMeta.get (codec.makeEventMetadataKey stream) = some metadata) :
    metadata ∈ store.eventMeta.entries.map Prod.snd ∧ metadata.stream = stream := by
  obtain ⟨hkey, hname⟩ := hplaced.metadata _ metadata hget
  exact ⟨mem_map.mpr ⟨_, get_eq_some_iff.mp hget, rfl⟩, (hkeys.metadata hstream hname hkey).symm⟩

theorem Settled.knows_load (hkeys : StreamKeys codec names) (h : Settled codec names ever store)
    (hmeta : store.eventMeta.isEmpty = false) : Knows store.loadCounters ever store := by
  rw [loadCounters, if_neg (by simp [hmeta])]
  obtain ⟨hloaded, hrest⟩ := loadMetadata_foldl (metadata_streams_nodup h.placed)
  refine ⟨?_, ?_, ?_⟩
  · intro stream sequence hever
    obtain ⟨metadata, hget, hle⟩ := h.covers.counters stream trivial sequence hever
    obtain ⟨hmem, rfl⟩ := loaded_of_get hkeys h.placed (h.placed.named _ hever) hget
    exact ⟨metadata.maxSequence, (hloaded metadata hmem).1, hle⟩
  · intro event hstored hkey
    obtain ⟨metadata, hget, hsequence⟩ := h.covers.keys event hstored trivial hkey
    obtain ⟨hmem, hstream⟩ := loaded_of_get hkeys h.placed (h.placed.stream_mem hstored) hget
    rw [← hstream, (hloaded metadata hmem).2, hsequence]
  · intro stream idempotencyKey sequence hsequence
    by_cases hmem : stream ∈ (store.eventMeta.entries.map Prod.snd).map EventMetadata.stream
    · obtain ⟨metadata, hmetadata, rfl⟩ := mem_map.mp hmem
      rw [(hloaded metadata hmetadata).2] at hsequence
      obtain ⟨entry, hentry, rfl⟩ := mem_map.mp hmetadata
      exact ⟨entry.2.maxSequence, (hloaded entry.2 hmetadata).1,
        h.covers.bounded entry.1 entry.2 (get_eq_some_iff.mpr hentry) idempotencyKey sequence hsequence⟩
    · rw [hrest stream hmem] at hsequence
      cases hsequence

theorem get_loadMetadata_of_not_mem (h : stream ∉ entries.map EventMetadata.stream) :
    (entries.foldl loadMetadata counters).seqCounters.get stream = counters.seqCounters.get stream := by
  induction entries generalizing counters with
  | nil => rfl
  | cons metadata entries ih =>
    rw [map_cons, mem_cons, not_or] at h
    rw [foldl_cons, ih h.2]
    simp [loadMetadata, h.1]

theorem Settled.no_events (h : Settled codec names ever store) (hbare : store.eventMeta.isEmpty = true) :
    store.events.entries = [] := by
  apply eq_nil_iff_forall_not_mem.mpr
  intro entry hentry
  have hever := h.placed.recorded entry.2 ⟨entry.1, get_eq_some_iff.mpr hentry⟩
  obtain ⟨metadata, hget, -⟩ := h.covers.counters _ trivial _ hever
  rw [SortedMap.isEmpty_iff.mp hbare] at hget
  cases hget

theorem Settled.get_loadCounters (hkeys : StreamKeys codec names) (h : Settled codec names ever store)
    (hstream : stream ∈ names) : store.loadCounters.seqCounters.get stream =
      (store.eventMeta.get (codec.makeEventMetadataKey stream)).map EventMetadata.maxSequence := by
  cases hbare : store.eventMeta.isEmpty with
  | true =>
    rw [loadCounters, h.no_events hbare, SortedMap.isEmpty_iff.mp hbare]
    exact eq_empty_iff.mp rfl stream
  | false =>
    rw [loadCounters, if_neg (by simp [hbare])]
    cases hget : store.eventMeta.get (codec.makeEventMetadataKey stream) with
    | some metadata =>
      obtain ⟨hmem, rfl⟩ := loaded_of_get hkeys h.placed hstream hget
      exact ((loadMetadata_foldl (metadata_streams_nodup h.placed)).1 metadata hmem).1
    | none =>
      rw [get_loadMetadata_of_not_mem]
      · exact eq_empty_iff.mp rfl stream
      · intro hmem
        obtain ⟨metadata, hmetadata, rfl⟩ := mem_map.mp hmem
        obtain ⟨entry, hentry, rfl⟩ := mem_map.mp hmetadata
        have hfound := get_eq_some_iff.mpr hentry
        rw [(h.placed.metadata entry.1 entry.2 hfound).1, hget] at hfound
        cases hfound

end Load

section Scan

structure Scanned (counters : EventCounters) (events : List MemoryEvent) : Prop where
  highest : ∀ event ∈ events, ∃ highest, counters.seqCounters.get event.stream = some highest ∧ event.sequence ≤ highest
  keys : ∀ event ∈ events, event.idempotencyKey ≠ [] →
    ∃ last ∈ events, last.stream = event.stream ∧ last.idempotencyKey = event.idempotencyKey ∧
      counters.idempotencyKeys (event.stream, event.idempotencyKey) = some last.sequence
  bounded : ∀ stream key sequence, counters.idempotencyKeys (stream, key) = some sequence →
    ∃ event ∈ events, event.stream = stream ∧ event.sequence = sequence
  streams : ∀ stream highest, counters.seqCounters.get stream = some highest → ∃ event ∈ events, event.stream = stream

variable {event : MemoryEvent}

theorem get_scanEvent_of_ne (h : stream ≠ event.stream) :
    (scanEvent counters event).seqCounters.get stream = counters.seqCounters.get stream := by
  simp [scanEvent, h]

theorem get_scanEvent_self (counters : EventCounters) (event : MemoryEvent) :
    ∃ highest, (scanEvent counters event).seqCounters.get event.stream = some highest ∧ event.sequence ≤ highest ∧
      ∀ before, counters.seqCounters.get event.stream = some before → before ≤ highest := by
  cases hget : counters.seqCounters.get event.stream with
  | none => exact ⟨event.sequence, by simp [scanEvent, hget], UInt64.le_refl _, nofun⟩
  | some before =>
    have hmax : max before event.sequence = if before ≤ event.sequence then event.sequence else before := rfl
    refine ⟨max before event.sequence, by simp [scanEvent, hget], ?_, ?_⟩
    · rw [hmax]
      split_ifs with hle
      · exact UInt64.le_refl _
      · exact (UInt64.le_total before event.sequence).resolve_left hle
    · intro other hother
      obtain rfl := Option.some.inj hother
      rw [hmax]
      split_ifs with hle
      · exact hle
      · exact UInt64.le_refl _

theorem scanEvent_foldl (events : List MemoryEvent) : Scanned (events.foldl scanEvent noCounters) events := by
  induction events using List.reverseRecOn with
  | nil => exact ⟨nofun, nofun, by simp [noCounters], by simp [noCounters]⟩
  | append_singleton events last ih =>
    rw [foldl_append, foldl_cons, foldl_nil]
    generalize events.foldl scanEvent noCounters = counters at ih
    obtain ⟨highest, hself, hle, hbefore⟩ := get_scanEvent_self counters last
    have hidempotency {place : Bytes × Bytes} (hne : last.idempotencyKey = [] ∨
      place ≠ (last.stream, last.idempotencyKey)) :
        (scanEvent counters last).idempotencyKeys place = counters.idempotencyKeys place := by
      by_cases hempty : last.idempotencyKey = []
      · simp [scanEvent, hempty]
      · simp [scanEvent, hempty, hne.resolve_left hempty]
    have hlast (hkey : last.idempotencyKey ≠ []) :
        (scanEvent counters last).idempotencyKeys (last.stream, last.idempotencyKey) = some last.sequence := by
      simp [scanEvent, hkey]
    refine ⟨?_, ?_, ?_, ?_⟩
    · intro event hmem
      rcases mem_append.mp hmem with hmem | hmem
      · obtain ⟨before, hget, hsequence⟩ := ih.highest event hmem
        by_cases hsame : event.stream = last.stream
        · rw [hsame] at hget ⊢
          exact ⟨highest, hself, UInt64.le_trans hsequence (hbefore before hget)⟩
        · rw [get_scanEvent_of_ne hsame]
          exact ⟨before, hget, hsequence⟩
      · obtain rfl := mem_singleton.mp hmem
        exact ⟨highest, hself, hle⟩
    · intro event hmem hkey
      by_cases hsame : (event.stream, event.idempotencyKey) = (last.stream, last.idempotencyKey)
      · obtain ⟨hstream, hidem⟩ := Prod.mk.inj hsame
        refine ⟨last, by simp, hstream.symm, hidem.symm, ?_⟩
        rw [hsame]
        exact hlast (hidem ▸ hkey)
      · rcases mem_append.mp hmem with hmem | hmem
        · obtain ⟨other, hother, hstream, hidem, hsequence⟩ := ih.keys event hmem hkey
          exact ⟨other, mem_append_left _ hother, hstream, hidem, by rw [hidempotency (Or.inr hsame), hsequence]⟩
        · exact absurd (by rw [mem_singleton.mp hmem]) hsame
    · intro stream key sequence hsequence
      by_cases hplace : last.idempotencyKey = [] ∨ (stream, key) ≠ (last.stream, last.idempotencyKey)
      · rw [hidempotency hplace] at hsequence
        obtain ⟨event, hmem, hevent⟩ := ih.bounded stream key sequence hsequence
        exact ⟨event, mem_append_left _ hmem, hevent⟩
      · obtain ⟨hkey, hsame⟩ := not_or.mp hplace
        obtain ⟨rfl, rfl⟩ := Prod.mk.inj (not_not.mp hsame)
        rw [hlast hkey] at hsequence
        exact ⟨last, by simp, rfl, Option.some.inj hsequence⟩
    · intro stream reached hget
      by_cases hsame : stream = last.stream
      · exact ⟨last, by simp, hsame.symm⟩
      · rw [get_scanEvent_of_ne hsame] at hget
        obtain ⟨event, hmem, hstream⟩ := ih.streams stream reached hget
        exact ⟨event, mem_append_left _ hmem, hstream⟩

theorem stored_iff_mem : store.Stored event ↔ event ∈ store.events.entries.map Prod.snd := by
  simp [Stored, get_eq_some_iff]

theorem Legacy.scanned (h : Legacy codec names ever store) :
    Scanned store.loadCounters (store.events.entries.map Prod.snd) := by
  rw [loadCounters, if_pos (SortedMap.isEmpty_iff.mpr h.bare)]
  exact scanEvent_foldl _

theorem Legacy.knows (h : Legacy codec names ever store) : Knows store.loadCounters ever store := by
  have hscan := h.scanned
  refine ⟨?_, ?_, ?_⟩
  · intro stream sequence hever
    obtain ⟨event, hstored, hplace⟩ := h.present hever
    obtain ⟨rfl, rfl⟩ := Prod.mk.inj hplace
    exact hscan.highest event (stored_iff_mem.mp hstored)
  · intro event hstored hkey
    obtain ⟨last, hlast, hstream, hidem, hsequence⟩ := hscan.keys event (stored_iff_mem.mp hstored) hkey
    rw [hsequence, h.distinct last event (stored_iff_mem.mpr hlast) hstored hstream hidem (hidem ▸ hkey)]
  · intro stream key sequence hsequence
    obtain ⟨event, hmem, rfl, rfl⟩ := hscan.bounded stream key sequence hsequence
    exact hscan.highest event hmem

end Scan

section Open

variable {streams : List Bytes}

theorem covers_writeMetadata_foldl (hkeys : StreamKeys codec names) {done : Set Bytes}
    (hplaced : Placed codec names ever store) (hknows : Knows counters ever store)
    (hcovers : Covers codec done ever store) (hstreams : ∀ stream ∈ streams, stream ∈ names) :
    let last := (streams.map fun stream => [counters.encodeEventMetadata codec stream]).foldl commit store
    Placed codec names ever last ∧ Knows counters ever last ∧
      Covers codec (done ∪ {stream | stream ∈ streams}) ever last := by
  induction streams generalizing store done with
  | nil => simpa using ⟨hplaced, hknows, hcovers⟩
  | cons stream streams ih =>
    obtain ⟨hstream, hrest⟩ := forall_mem_cons.mp hstreams
    have hknown : Knows counters ever (store.write (counters.encodeEventMetadata codec stream)) := hknows.writeMetadata
    have hnext := ih (hplaced.writeMetadata hstream) hknown
      (hcovers.writeMetadata hkeys hplaced hknows hstream) hrest
    have hset : insert stream done ∪ {stream | stream ∈ streams} = done ∪ {other | other ∈ stream :: streams} := by
      ext other
      simp [or_assoc, or_left_comm]
    rw [hset] at hnext
    exact hnext

theorem openLog_ready (hkeys : StreamKeys codec names)
    (h : Settled codec names ever store ∨ Legacy codec names ever store)
    (hstreams : streams.Perm store.loadCounters.seqCounters.keys) :
    Ready codec names ever (EventLog.after ⟨store, noCounters⟩ (openLog codec store streams)) := by
  by_cases hbare : store.eventMeta = .empty
  · have hlegacy : Legacy codec names ever store := h.elim (fun hsettled => hsettled.legacy hbare) id
    have hnone : Covers codec ∅ ever store := by
      refine ⟨nofun, nofun, fun key metadata hget => ?_⟩
      rw [hbare] at hget
      cases hget
    have hmem : ∀ stream ∈ streams, stream ∈ names := by
      intro stream hstream
      obtain ⟨highest, hget⟩ := mem_keys.mp (hstreams.mem_iff.mp hstream)
      obtain ⟨event, hevent, rfl⟩ := hlegacy.scanned.streams stream highest hget
      exact hlegacy.placed.stream_mem (stored_iff_mem.mpr hevent)
    have hfull : ∀ stream sequence, (stream, sequence) ∈ ever → stream ∈ streams := by
      intro stream sequence hever
      obtain ⟨highest, hget, -⟩ := hlegacy.knows.highest stream sequence hever
      exact hstreams.mem_iff.mpr (mem_keys.mpr ⟨highest, hget⟩)
    obtain ⟨hplaced, hknows, hcovers⟩ := covers_writeMetadata_foldl hkeys hlegacy.placed hlegacy.knows hnone hmem
    have hcommits : (openLog codec store streams).commits =
        streams.map fun stream => [store.loadCounters.encodeEventMetadata codec stream] := by
      simp [openLog, SortedMap.isEmpty_iff.mpr hbare]
    rw [EventLog.after, hcommits]
    refine ⟨⟨hplaced, ?_, ?_, hcovers.bounded⟩, hknows⟩
    · exact fun stream _ sequence hever => hcovers.counters stream (Or.inr (hfull stream sequence hever)) sequence hever
    · exact fun event hstored _ => hcovers.keys event hstored (Or.inr (hfull _ _ (hplaced.recorded event hstored)))
  · have hsettled : Settled codec names ever store := h.resolve_right fun hlegacy => hbare hlegacy.bare
    have hmeta : store.eventMeta.isEmpty = false := by
      rw [← Bool.not_eq_true, SortedMap.isEmpty_iff]
      exact hbare
    have hcommits : (openLog codec store streams).commits = [] := by simp [openLog, hmeta]
    rw [EventLog.after, hcommits]
    exact ⟨hsettled, hsettled.knows_load hkeys hmeta⟩

end Open

end Thingd.Engine
