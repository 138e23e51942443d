import Thingd.Engine.Events

namespace Thingd.Engine

open Bytes SortedMap EventCounters EventLog

structure StreamKeys (codec : StorageCodec) (names : Set Bytes) : Prop where
  metadata : Set.InjOn codec.makeEventMetadataKey names
  events : ∀ stream ∈ names, ∀ other ∈ names, ∀ sequence otherSequence,
    codec.makeEventKey stream sequence = codec.makeEventKey other otherSequence →
      stream = other ∧ sequence = otherSequence

theorem streamKeys_rawCodec (parseString : Bytes → ThingdResult Bytes) (names : Set Bytes) :
    StreamKeys (rawCodec parseString) names := by
  refine ⟨fun _ _ _ _ h => h, ?_⟩
  intro stream _ other _ sequence otherSequence h
  have hlength : (0 :: bigEndian 8 sequence.toNat).length = (0 :: bigEndian 8 otherSequence.toNat).length := by simp
  obtain ⟨hstream, hsequence⟩ := List.append_inj' h hlength
  refine ⟨hstream, UInt64.toNat_inj.mp (bigEndian_inj ?_ ?_ (List.cons.inj hsequence).2)⟩
  · exact sequence.toNat_lt
  · exact otherSequence.toNat_lt

namespace EventStore

variable {codec : StorageCodec} {names : Set Bytes} {ever : Set (Bytes × UInt64)} {store : EventStore}
  {counters : EventCounters} {stream : Bytes}

def Stored (store : EventStore) (event : MemoryEvent) : Prop := ∃ key, store.events.get key = some event

structure Placed (codec : StorageCodec) (names : Set Bytes) (ever : Set (Bytes × UInt64)) (store : EventStore) :
    Prop where
  events : ∀ key event, store.events.get key = some event → key = codec.makeEventKey event.stream event.sequence
  metadata : ∀ key metadata, store.eventMeta.get key = some metadata →
    key = codec.makeEventMetadataKey metadata.stream ∧ metadata.stream ∈ names
  recorded : ∀ event, store.Stored event → (event.stream, event.sequence) ∈ ever
  named : ∀ place ∈ ever, place.1 ∈ names

structure Covers (codec : StorageCodec) (streams : Set Bytes) (ever : Set (Bytes × UInt64)) (store : EventStore) :
    Prop where
  counters : ∀ stream ∈ streams, ∀ sequence, (stream, sequence) ∈ ever →
    ∃ metadata, store.eventMeta.get (codec.makeEventMetadataKey stream) = some metadata ∧
      sequence ≤ metadata.maxSequence
  keys : ∀ event, store.Stored event → event.stream ∈ streams → event.idempotencyKey ≠ [] →
    ∃ metadata, store.eventMeta.get (codec.makeEventMetadataKey event.stream) = some metadata ∧
      metadata.idempotencyKeys event.idempotencyKey = some event.sequence
  bounded : ∀ key metadata, store.eventMeta.get key = some metadata →
    ∀ idempotencyKey sequence, metadata.idempotencyKeys idempotencyKey = some sequence → sequence ≤ metadata.maxSequence

structure Knows (counters : EventCounters) (ever : Set (Bytes × UInt64)) (store : EventStore) : Prop where
  highest : ∀ stream sequence, (stream, sequence) ∈ ever →
    ∃ highest, counters.seqCounters.get stream = some highest ∧ sequence ≤ highest
  keys : ∀ event, store.Stored event → event.idempotencyKey ≠ [] →
    counters.idempotencyKeys (event.stream, event.idempotencyKey) = some event.sequence
  bounded : ∀ stream idempotencyKey sequence, counters.idempotencyKeys (stream, idempotencyKey) = some sequence →
    ∃ highest, counters.seqCounters.get stream = some highest ∧ sequence ≤ highest

theorem Placed.stored_iff (h : Placed codec names ever store) (event : MemoryEvent) :
    store.Stored event ↔ store.events.get (codec.makeEventKey event.stream event.sequence) = some event := by
  constructor
  · rintro ⟨key, hkey⟩
    exact h.events key event hkey ▸ hkey
  · exact fun hget => ⟨_, hget⟩

theorem Placed.stream_mem (h : Placed codec names ever store) {event : MemoryEvent} (hstored : store.Stored event) :
    event.stream ∈ names := h.named _ (h.recorded event hstored)

variable {sequence : UInt64} {next : EventStore}

theorem Placed.of_get (hkeys : StreamKeys codec names) (h : Placed codec names ever store) (hstream : stream ∈ names)
    {event : MemoryEvent} (hget : store.events.get (codec.makeEventKey stream sequence) = some event) :
    event.stream = stream ∧ event.sequence = sequence := by
  have hkey := h.events _ event hget
  obtain ⟨rfl, rfl⟩ := hkeys.events stream hstream event.stream (h.stream_mem ⟨_, hget⟩) _ _ hkey
  exact ⟨rfl, rfl⟩

structure Shrinks (store next : EventStore) : Prop where
  events : ∀ key event, next.events.get key = some event → store.events.get key = some event
  metadata : next.eventMeta = store.eventMeta

theorem Shrinks.stored (h : Shrinks store next) {event : MemoryEvent} (hstored : next.Stored event) :
    store.Stored event := by
  obtain ⟨key, hkey⟩ := hstored
  exact ⟨key, h.events key event hkey⟩

theorem shrinks_removeEvent (key : Bytes) : Shrinks store (store.write (.removeEvent key)) := by
  refine ⟨fun place event hplace => ?_, rfl⟩
  simp only [write, get_erase] at hplace
  split_ifs at hplace
  exact hplace

theorem Placed.shrink (h : Placed codec names ever store) (hshrinks : Shrinks store next) :
    Placed codec names ever next :=
  ⟨fun key event hkey => h.events key event (hshrinks.events key event hkey),
    fun key metadata hkey => h.metadata key metadata (hshrinks.metadata ▸ hkey),
    fun event hstored => h.recorded event (hshrinks.stored hstored), h.named⟩

theorem Covers.shrink {streams : Set Bytes} (h : Covers codec streams ever store) (hshrinks : Shrinks store next) :
    Covers codec streams ever next := by
  obtain ⟨hcounters, hkeys, hbounded⟩ := h
  rw [← hshrinks.metadata] at hcounters hkeys hbounded
  exact ⟨hcounters, fun event hstored => hkeys event (hshrinks.stored hstored), hbounded⟩

theorem Knows.shrink (h : Knows counters ever store) (hshrinks : Shrinks store next) : Knows counters ever next :=
  ⟨h.highest, fun event hstored => h.keys event (hshrinks.stored hstored), h.bounded⟩

section Metadata

variable {streams : Set Bytes}

theorem Placed.writeMetadata (h : Placed codec names ever store) (hstream : stream ∈ names) :
    Placed codec names ever (store.write (counters.encodeEventMetadata codec stream)) := by
  refine ⟨h.events, fun key metadata hkey => ?_, h.recorded, h.named⟩
  simp only [encodeEventMetadata, write, get_insert] at hkey
  split_ifs at hkey with heq
  · obtain rfl := Option.some.inj hkey
    exact ⟨heq, hstream⟩
  · exact h.metadata key metadata hkey

theorem Knows.writeMetadata (h : Knows counters ever store) :
    Knows counters ever (store.write (counters.encodeEventMetadata codec stream)) := ⟨h.highest, h.keys, h.bounded⟩

theorem Covers.writeMetadata (hkeys : StreamKeys codec names) (hplaced : Placed codec names ever store)
    (hknows : Knows counters ever store) (h : Covers codec streams ever store) (hstream : stream ∈ names) :
    Covers codec (insert stream streams) ever (store.write (counters.encodeEventMetadata codec stream)) := by
  have hself : (store.write (counters.encodeEventMetadata codec stream)).eventMeta.get
    (codec.makeEventMetadataKey stream) =
      some ⟨stream, (counters.seqCounters.get stream).getD 0, fun key => counters.idempotencyKeys (stream, key)⟩ := by
    simp [encodeEventMetadata, write]
  have hother {other : Bytes} (hname : other ∈ names) (hne : other ≠ stream) :
      (store.write (counters.encodeEventMetadata codec stream)).eventMeta.get (codec.makeEventMetadataKey other) =
        store.eventMeta.get (codec.makeEventMetadataKey other) := by
    have hkey : codec.makeEventMetadataKey other ≠ codec.makeEventMetadataKey stream :=
      fun heq => hne (hkeys.metadata hname hstream heq)
    simp [encodeEventMetadata, write, hkey]
  refine ⟨?_, ?_, ?_⟩
  · intro other hmem sequence hever
    by_cases heq : other = stream
    · subst heq
      obtain ⟨highest, hhighest, hle⟩ := hknows.highest other sequence hever
      exact ⟨_, hself, by simpa [hhighest] using hle⟩
    · rw [hother (hplaced.named _ hever) heq]
      exact h.counters other (hmem.resolve_left heq) sequence hever
  · intro event hstored hmem hidempotency
    by_cases heq : event.stream = stream
    · subst heq
      exact ⟨_, hself, hknows.keys event hstored hidempotency⟩
    · rw [hother (hplaced.stream_mem hstored) heq]
      exact h.keys event hstored (hmem.resolve_left heq) hidempotency
  · intro key metadata hkey idempotencyKey sequence hsequence
    simp only [encodeEventMetadata, write, get_insert] at hkey
    split_ifs at hkey
    · obtain rfl := Option.some.inj hkey
      obtain ⟨highest, hhighest, hle⟩ := hknows.bounded stream idempotencyKey sequence hsequence
      simpa [hhighest] using hle
    · exact h.bounded key metadata hkey idempotencyKey sequence hsequence

end Metadata

def Room (counters : EventCounters) (n : ℕ) : Prop :=
  ∀ stream, ((counters.seqCounters.get stream).getD 0).toNat + n < 2 ^ 64

theorem toNat_nextSequence (hroom : Room counters 1) :
    (counters.nextSequence stream).toNat = ((counters.seqCounters.get stream).getD 0).toNat + 1 := by
  have hlt := hroom stream
  cases hget : counters.seqCounters.get stream with
  | none => simp [nextSequence, hget]
  | some highest =>
    rw [hget, Option.getD_some] at hlt
    simp only [nextSequence, hget, Option.getD_some, UInt64.toNat_add, UInt64.reduceToNat]
    omega

theorem lt_nextSequence (hroom : Room counters 1) {highest : UInt64}
    (hget : counters.seqCounters.get stream = some highest) : highest < counters.nextSequence stream := by
  rw [UInt64.lt_iff_toNat_lt, toNat_nextSequence hroom, hget, Option.getD_some]
  omega

section Append

variable {now : Bytes} {event : MemoryEvent}

theorem lt_stampedEvent (hknows : Knows counters ever store) (hroom : Room counters 1)
    (hever : (event.stream, sequence) ∈ ever) : sequence < (counters.stampedEvent now event).sequence := by
  obtain ⟨highest, hget, hle⟩ := hknows.highest _ _ hever
  exact UInt64.lt_of_le_of_lt hle (lt_nextSequence hroom hget)

theorem get_stampedEvent (now : Bytes) (hkeys : StreamKeys codec names) (hplaced : Placed codec names ever store)
    (hknows : Knows counters ever store) (hroom : Room counters 1) (hstream : event.stream ∈ names) :
    store.events.get (codec.makeEventKey event.stream (counters.stampedEvent now event).sequence) = none := by
  cases hget : store.events.get (codec.makeEventKey event.stream (counters.stampedEvent now event).sequence) with
  | none => rfl
  | some old =>
    obtain ⟨hsame, hsequence⟩ := hplaced.of_get hkeys hstream hget
    have hever := hplaced.recorded old ⟨_, hget⟩
    rw [hsame] at hever
    exact absurd hsequence (UInt64.ne_of_lt (lt_stampedEvent hknows hroom hever))

variable {other : MemoryEvent}

theorem stored_insertEvent (h : (store.write (insertEvent codec event)).Stored other) :
    other = event ∨ store.Stored other := by
  obtain ⟨key, hkey⟩ := h
  simp only [insertEvent, write, get_insert] at hkey
  split_ifs at hkey
  · exact Or.inl (Option.some.inj hkey).symm
  · exact Or.inr ⟨key, hkey⟩

theorem Placed.insertEvent (event : MemoryEvent) (h : Placed codec names ever store) (hstream : event.stream ∈ names) :
    Placed codec names (insert (event.stream, event.sequence) ever)
      (store.write (EventLog.insertEvent codec event)) := by
  refine ⟨?_, h.metadata, ?_, ?_⟩
  · intro key other hother
    simp only [EventLog.insertEvent, write, get_insert] at hother
    split_ifs at hother with hkey
    · obtain rfl := Option.some.inj hother
      exact hkey
    · exact h.events key other hother
  · intro other hother
    rcases stored_insertEvent hother with rfl | hold
    · exact Set.mem_insert _ _
    · exact Set.mem_insert_of_mem _ (h.recorded other hold)
  · rintro place (rfl | hplace)
    · exact hstream
    · exact h.named place hplace

theorem ne_of_existingEvent (hplaced : Placed codec names ever store) (hknows : Knows counters ever store)
    (hnone : existingEvent codec store counters event = none) (hkey : event.idempotencyKey ≠ [])
    (hother : store.Stored other) (hstream : other.stream = event.stream) :
    other.idempotencyKey ≠ event.idempotencyKey := by
  intro hsame
  have hknown := hknows.keys other hother (hsame ▸ hkey)
  rw [hstream, hsame] at hknown
  have hget := (hplaced.stored_iff other).mp hother
  rw [hstream] at hget
  simp [existingEvent, hkey, hknown, hget] at hnone

theorem Knows.insertEvent (now : Bytes) (hplaced : Placed codec names ever store) (h : Knows counters ever store)
    (hroom : Room counters 1) (hnone : existingEvent codec store counters event = none) :
    Knows (counters.advance (counters.stampedEvent now event))
      (insert (event.stream, (counters.stampedEvent now event).sequence) ever)
      (store.write (EventLog.insertEvent codec (counters.stampedEvent now event))) := by
  refine ⟨?_, ?_, ?_⟩
  · rintro stream sequence hever
    rw [seqCounters_advance]
    rcases hever with hnew | hever
    · obtain ⟨rfl, rfl⟩ := Prod.mk.inj hnew
      exact ⟨_, if_pos rfl, UInt64.le_refl _⟩
    · split_ifs with hstream
      · exact ⟨_, rfl, UInt64.le_of_lt (lt_stampedEvent h hroom (hstream ▸ hever))⟩
      · exact h.highest stream sequence hever
  · intro other hother hkey
    rw [idempotencyKeys_advance]
    rcases stored_insertEvent hother with rfl | hold
    · exact if_pos ⟨hkey, rfl⟩
    · refine (if_neg ?_).trans (h.keys other hold hkey)
      rintro ⟨hempty, heq⟩
      obtain ⟨hstream, hsame⟩ := Prod.mk.inj heq
      exact ne_of_existingEvent hplaced h hnone hempty hold hstream hsame
  · intro stream idempotencyKey sequence hsequence
    rw [idempotencyKeys_advance] at hsequence
    rw [seqCounters_advance]
    split_ifs at hsequence with hplace
    · obtain rfl := Option.some.inj hsequence
      exact ⟨_, if_pos (Prod.mk.inj hplace.2).1, UInt64.le_refl _⟩
    · obtain ⟨highest, hget, hle⟩ := h.bounded _ _ _ hsequence
      split_ifs with hstream
      · exact ⟨_, rfl, UInt64.le_trans hle (UInt64.le_of_lt (lt_nextSequence hroom (hstream ▸ hget)))⟩
      · exact ⟨highest, hget, hle⟩

end Append

end EventStore

end Thingd.Engine
