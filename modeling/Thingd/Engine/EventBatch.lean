import Thingd.Engine.EventSteps

namespace Thingd.Engine

open EventStore EventLog SortedMap EventCounters List

def EventLog.appendAll (codec : StorageCodec) (now : Bytes) (log : EventLog) (events : List MemoryEvent) :
    List MemoryEvent × EventLog :=
  events.foldl (fun done event =>
    let (result, effect) := done.2.appendEvent codec now event
    (done.1 ++ [result], done.2.after effect)) ([], log)

variable {codec : StorageCodec} {names : Set Bytes} {ever : Set (Bytes × UInt64)} {log : EventLog} {now : Bytes}
  {event : MemoryEvent} {events : List MemoryEvent}

theorem appendAll_concat :
    log.appendAll codec now (events ++ [event]) =
      ((log.appendAll codec now events).1 ++ [((log.appendAll codec now events).2.appendEvent codec now event).1],
        (log.appendAll codec now events).2.after
          ((log.appendAll codec now events).2.appendEvent codec now event).2) := by
  simp [EventLog.appendAll]

def metadataOf (counters : EventCounters) (stream : Bytes) : EventMetadata :=
  ⟨stream, (counters.seqCounters.get stream).getD 0, fun key => counters.idempotencyKeys (stream, key)⟩

variable {counters : EventCounters} {stream : Bytes}

theorem metadataOf_advance (h : stream ≠ event.stream) :
    metadataOf (counters.advance event) stream = metadataOf counters stream := by
  have hkeys : (fun key => (counters.advance event).idempotencyKeys (stream, key)) =
      fun key => counters.idempotencyKeys (stream, key) := by
    funext key
    rw [idempotencyKeys_advance, if_neg fun hplace => h (Prod.mk.inj hplace.2).1]
  rw [metadataOf, metadataOf, hkeys, seqCounters_advance, if_neg h]

def EventCounters.highest (counters : EventCounters) (stream : Bytes) : UInt64 :=
  (counters.seqCounters.get stream).getD 0

/-- No stored event and no recorded key of the streams lies above their counters; the last sequence apart, which no
event can follow. -/
structure Ahead (codec : StorageCodec) (names : Set Bytes) (log : EventLog) : Prop where
  free : ∀ stream ∈ names, ∀ sequence, log.counters.highest stream < sequence → sequence.toNat + 1 < 2 ^ 64 →
    log.store.events.get (codec.makeEventKey stream sequence) = none
  keys : ∀ stream ∈ names, ∀ key ≠ [], ∀ sequence, log.counters.idempotencyKeys (stream, key) = some sequence →
    sequence.toNat + 1 < 2 ^ 64 → sequence ≤ log.counters.highest stream

theorem Ready.ahead (hkeys : StreamKeys codec names) (h : Ready codec names ever log) : Ahead codec names log where
  free stream hstream sequence hlt _ := by
    cases hget : log.store.events.get (codec.makeEventKey stream sequence) with
    | none => rfl
    | some event =>
      obtain ⟨rfl, rfl⟩ := h.settled.placed.of_get hkeys hstream hget
      obtain ⟨highest, hhighest, hle⟩ := h.knows.highest _ _ (h.settled.placed.recorded event ⟨_, hget⟩)
      rw [EventCounters.highest, hhighest] at hlt
      exact absurd (UInt64.lt_of_lt_of_le hlt hle) (UInt64.lt_irrefl _)
  keys stream _ key _ sequence hsequence _ := by
    obtain ⟨highest, hhighest, hle⟩ := h.knows.bounded _ _ _ hsequence
    rw [EventCounters.highest, hhighest]
    exact hle

def RoomFor (counters : EventCounters) (events : List MemoryEvent) : Prop :=
  ∀ stream, (counters.highest stream).toNat + events.countP (fun event => event.stream = stream) < 2 ^ 64

theorem toNat_nextSequence_eq (hroom : (counters.highest stream).toNat + 1 < 2 ^ 64) :
    (counters.nextSequence stream).toNat = (counters.highest stream).toNat + 1 := by
  rw [EventCounters.highest] at hroom ⊢
  cases hget : counters.seqCounters.get stream with
  | none => simp [nextSequence, hget]
  | some highest =>
    rw [hget, Option.getD_some] at hroom
    simp only [nextSequence, hget, Option.getD_some, UInt64.toNat_add, UInt64.reduceToNat]
    omega

theorem highest_lt_nextSequence (hroom : (counters.highest stream).toNat + 1 < 2 ^ 64) :
    counters.highest stream < counters.nextSequence stream := by
  rw [UInt64.lt_iff_toNat_lt, toNat_nextSequence_eq hroom]
  omega

theorem highest_advance (counters : EventCounters) (stream : Bytes) :
    (counters.advance (counters.stampedEvent now event)).highest stream =
      if stream = event.stream then counters.nextSequence event.stream else counters.highest stream := by
  rw [EventCounters.highest, seqCounters_advance, EventCounters.highest]
  exact apply_ite (Option.getD · 0) _ _ _

structure Matches (codec : StorageCodec) (names : Set Bytes) (log : EventLog) (batch : BatchAppend)
    (single : EventLog) : Prop where
  counters : single.counters = batch.counters
  idle : batch.pending = [] → batch.counters = log.counters
  named : ∀ event ∈ batch.pending, event.stream ∈ names
  inserted : ∀ event ∈ batch.pending,
    single.store.events.get (codec.makeEventKey event.stream event.sequence) = some event
  kept : ∀ key, (∀ event ∈ batch.pending, codec.makeEventKey event.stream event.sequence ≠ key) →
    single.store.events.get key = log.store.events.get key
  above : ∀ event ∈ batch.pending, log.counters.highest event.stream < event.sequence
  below : ∀ event ∈ batch.pending, event.sequence ≤ single.counters.highest event.stream
  grown : ∀ stream, log.counters.highest stream ≤ single.counters.highest stream
  repeated : ∀ stream key sequence, batch.counters.idempotencyKeys (stream, key) = some sequence →
    (batch.pendingIdempotency (stream, key) = none ∧ log.counters.idempotencyKeys (stream, key) = some sequence) ∨
      ∃ event ∈ batch.pending, batch.pendingIdempotency (stream, key) = some event ∧ event.stream = stream ∧
        event.sequence = sequence
  metadata : ∀ stream ∈ names, single.store.eventMeta.get (codec.makeEventMetadataKey stream) =
    if stream ∈ batch.pending.map MemoryEvent.stream then some (metadataOf batch.counters stream)
    else log.store.eventMeta.get (codec.makeEventMetadataKey stream)
  unnamed : ∀ key, (∀ stream ∈ names, codec.makeEventMetadataKey stream ≠ key) →
    single.store.eventMeta.get key = log.store.eventMeta.get key

theorem matches_nil : Matches codec names log ⟨[], [], fun _ => none, log.counters⟩ log where
  counters := rfl
  idle _ := rfl
  named := nofun
  inserted := nofun
  kept _ _ := rfl
  above := nofun
  below := nofun
  grown _ := UInt64.le_refl _
  repeated stream key sequence h := Or.inl ⟨rfl, h⟩
  metadata stream _ := by simp
  unnamed _ _ := rfl

variable {batch : BatchAppend} {single : EventLog}

theorem Matches.pending_lt (h : Matches codec names log batch single)
    (hroom : (single.counters.highest stream).toNat + 1 < 2 ^ 64) {other : MemoryEvent}
    (hother : other ∈ batch.pending) (hsame : other.stream = stream) : other.sequence.toNat + 1 < 2 ^ 64 := by
  have hle := UInt64.le_iff_toNat_le.mp (h.below other hother)
  rw [hsame] at hle
  omega

theorem Matches.existing (hkeys : StreamKeys codec names) (h : Matches codec names log batch single)
    (hahead : Ahead codec names log) (hroom : (single.counters.highest event.stream).toNat + 1 < 2 ^ 64)
    (hstream : event.stream ∈ names) :
    existingInBatch codec log.store batch event = existingEvent codec single.store single.counters event := by
  rw [existingInBatch, existingEvent, h.counters]
  by_cases hempty : event.idempotencyKey.isEmpty = true
  · rw [if_pos hempty, if_pos hempty]
  · rw [if_neg hempty, if_neg hempty]
    cases hsequence : batch.counters.idempotencyKeys (event.stream, event.idempotencyKey) with
    | none => rfl
    | some sequence =>
      simp only [Option.bind_some]
      rcases h.repeated _ _ _ hsequence with ⟨hpending, hold⟩ | ⟨other, hother, hpending, hsame, rfl⟩
      · rw [hpending, Option.or_none]
        refine (h.kept _ fun other hother heq => ?_).symm
        obtain ⟨hsame, rfl⟩ := hkeys.events _ (h.named other hother) _ hstream _ _ heq
        have hle := hahead.keys _ hstream _ (by simpa using hempty) _ hold (h.pending_lt hroom hother hsame)
        rw [← hsame] at hle
        exact absurd (UInt64.lt_of_lt_of_le (h.above other hother) hle) (UInt64.lt_irrefl _)
      · have hnone := hahead.free _ (h.named other hother) _ (h.above other hother) (h.pending_lt hroom hother hsame)
        rw [← hsame, h.inserted other hother, hnone, hsame, hpending]
        rfl

theorem Matches.append (hkeys : StreamKeys codec names) (h : Matches codec names log batch single)
    (hroom : (single.counters.highest event.stream).toNat + 1 < 2 ^ 64) (hstream : event.stream ∈ names)
    (hnone : existingEvent codec single.store single.counters event = none) {new : MemoryEvent}
    (hstamped : batch.counters.stampedEvent now event = new) :
    Matches codec names log
      { results := batch.results ++ [new]
        pending := batch.pending ++ [new]
        pendingIdempotency := if event.idempotencyKey.isEmpty then batch.pendingIdempotency
          else Function.update batch.pendingIdempotency (event.stream, event.idempotencyKey) (some new)
        counters := batch.counters.advance new }
      (single.after (single.appendEvent codec now event).2) := by
  have hself : new.stream = event.stream := hstamped ▸ rfl
  have hnext : single.counters.highest event.stream < new.sequence :=
    hstamped ▸ h.counters ▸ highest_lt_nextSequence hroom
  have hnew : ∀ other ∈ batch.pending, codec.makeEventKey other.stream other.sequence ≠
      codec.makeEventKey new.stream new.sequence := by
    intro other hother heq
    obtain ⟨hsame, hsequence⟩ := hkeys.events _ (h.named other hother) _ (hself ▸ hstream) _ _ heq
    have hle := h.below other hother
    rw [hsame, hself, hsequence] at hle
    exact absurd (UInt64.lt_of_lt_of_le hnext hle) (UInt64.lt_irrefl _)
  obtain ⟨hevents, hmeta, hcounters⟩ : (single.after (single.appendEvent codec now event).2).store.events =
        single.store.events.insert (codec.makeEventKey new.stream new.sequence) new ∧
      (single.after (single.appendEvent codec now event).2).store.eventMeta = single.store.eventMeta.insert
        (codec.makeEventMetadataKey event.stream) (metadataOf (batch.counters.advance new) event.stream) ∧
      (single.after (single.appendEvent codec now event).2).counters = batch.counters.advance new := by
    rw [appendEvent_of_new hnone, h.counters, hstamped]
    exact ⟨rfl, rfl, rfl⟩
  have hhighest : ∀ stream, (batch.counters.advance new).highest stream =
      if stream = event.stream then new.sequence else single.counters.highest stream := by
    rw [h.counters, ← hstamped]
    exact highest_advance batch.counters
  have hgrown : ∀ stream, single.counters.highest stream ≤ (batch.counters.advance new).highest stream := by
    intro stream
    rw [hhighest]
    split_ifs with hsame
    · exact UInt64.le_of_lt (hsame ▸ hnext)
    · exact UInt64.le_refl _
  refine ⟨hcounters, fun hempty => absurd hempty (by simp), ?_, ?_, ?_, ?_, ?_, ?_, ?_, ?_, ?_⟩
  · exact forall_mem_append.mpr ⟨h.named, forall_mem_singleton.mpr (hself ▸ hstream)⟩
  · rw [hevents]
    refine forall_mem_append.mpr ⟨fun other hother => ?_, forall_mem_singleton.mpr (by simp)⟩
    rw [get_insert, if_neg (hnew other hother)]
    exact h.inserted other hother
  · intro key hkey
    rw [hevents, get_insert, if_neg (hkey new (by simp)).symm]
    exact h.kept key fun other hother => hkey other (mem_append_left _ hother)
  · refine forall_mem_append.mpr ⟨h.above, forall_mem_singleton.mpr ?_⟩
    exact UInt64.lt_of_le_of_lt (h.grown new.stream) (hself ▸ hnext)
  · rw [hcounters]
    refine forall_mem_append.mpr ⟨fun other hother => UInt64.le_trans (h.below other hother) (hgrown other.stream),
      forall_mem_singleton.mpr ?_⟩
    rw [hhighest, if_pos hself]
    exact UInt64.le_refl _
  · intro stream
    rw [hcounters]
    exact UInt64.le_trans (h.grown stream) (hgrown stream)
  · intro stream key sequence hsequence
    have hkey : new.idempotencyKey = event.idempotencyKey := hstamped ▸ rfl
    rw [idempotencyKeys_advance, hself, hkey] at hsequence
    split_ifs at hsequence with hplace
    · obtain ⟨hempty, hsame⟩ := hplace
      obtain ⟨rfl, rfl⟩ := Prod.mk.inj hsame
      exact Or.inr ⟨new, by simp, by simp [hempty], hself, Option.some.inj hsequence⟩
    · -- the place of another key is as it was
      have hidem : (if event.idempotencyKey.isEmpty then batch.pendingIdempotency
          else Function.update batch.pendingIdempotency (event.stream, event.idempotencyKey) (some new)) (stream, key) =
            batch.pendingIdempotency (stream, key) := by
        split_ifs with hempty
        · rfl
        · exact Function.update_of_ne (fun heq => hplace ⟨by simpa using hempty, heq⟩) _ _
      simp only [hidem]
      exact (h.repeated stream key sequence hsequence).imp_right
        (Exists.imp fun _ => And.imp_left (mem_append_left [new]))
  · intro stream hname
    rw [hmeta, get_insert]
    by_cases hsame : stream = event.stream
    · subst hsame
      simp [hself]
    · have hkept : metadataOf (batch.counters.advance new) stream = metadataOf batch.counters stream :=
        hstamped ▸ metadataOf_advance hsame
      rw [if_neg fun heq => hsame (hkeys.metadata hname hstream heq), h.metadata stream hname]
      simp [hkept, hself, hsame]
  · intro key hkey
    rw [hmeta, get_insert, if_neg (Ne.symm (hkey event.stream hstream))]
    exact h.unnamed key hkey

variable {n : ℕ}

theorem room_mono {m : ℕ} (h : Room counters n) (hle : m ≤ n) : Room counters m := by
  intro stream
  have hlt := h stream
  omega

theorem room_advance (h : Room counters (n + 1)) : Room (counters.advance (counters.stampedEvent now event)) n := by
  intro stream
  have hlt := h stream
  rw [seqCounters_advance]
  split_ifs with hsame
  · have hnext : (counters.nextSequence event.stream).toNat = _ := toNat_nextSequence (room_mono h (by omega))
    rw [show stream = event.stream from hsame] at hlt
    change (counters.nextSequence event.stream).toNat + n < 2 ^ 64
    omega
  · omega

theorem room_appendEvent (h : Room log.counters (n + 1)) :
    Room (log.after (log.appendEvent codec now event).2).counters n := by
  cases hfound : existingEvent codec log.store log.counters event with
  | some existing =>
    rw [appendEvent_of_existing hfound]
    exact room_mono h (Nat.le_succ n)
  | none =>
    rw [appendEvent_of_new hfound]
    exact room_advance h

theorem room_appendAll (h : Room log.counters (events.length + n)) :
    Room (log.appendAll codec now events).2.counters n := by
  induction events using List.reverseRecOn generalizing n with
  | nil => simpa [EventLog.appendAll] using h
  | append_singleton events event ih =>
    rw [appendAll_concat]
    apply room_appendEvent
    apply ih
    simpa [add_comm, add_left_comm] using h

theorem roomFor_of_room (h : Room counters events.length) : RoomFor counters events := by
  intro stream
  have hlt := h stream
  have hle : events.countP (fun event => event.stream = stream) ≤ events.length := countP_le_length
  rw [EventCounters.highest]
  omega

theorem RoomFor.dropLast (h : RoomFor counters (events ++ [event])) : RoomFor counters events := by
  intro stream
  have hlt := h stream
  rw [countP_append] at hlt
  omega

theorem toNat_highest_appendAll (hroom : RoomFor log.counters events) (stream : Bytes) :
    ((log.appendAll codec now events).2.counters.highest stream).toNat ≤
      (log.counters.highest stream).toNat + events.countP (fun event => event.stream = stream) := by
  induction events using List.reverseRecOn generalizing stream with
  | nil => simp [EventLog.appendAll]
  | append_singleton events event ih =>
    have hle := ih hroom.dropLast
    have hlt := hroom event.stream
    rw [countP_append, countP_singleton] at hlt ⊢
    rw [appendAll_concat]
    cases hfound : existingEvent codec (log.appendAll codec now events).2.store
      (log.appendAll codec now events).2.counters
        event with
    | some existing =>
      rw [appendEvent_of_existing hfound]
      have hsame := hle stream
      change ((log.appendAll codec now events).2.counters.highest stream).toNat ≤ _
      omega
    | none =>
      rw [appendEvent_of_new hfound]
      change ((advance _ (stampedEvent _ now event)).highest stream).toNat ≤ _
      rw [highest_advance]
      by_cases hsame : stream = event.stream
      · have hown := hle event.stream
        simp only [decide_true, if_true] at hlt
        rw [if_pos hsame, toNat_nextSequence_eq (by omega), hsame]
        simp only [decide_true, if_true]
        omega
      · have hother := hle stream
        rw [if_neg hsame]
        omega

theorem highest_appendAll_lt (hroom : RoomFor log.counters (events ++ [event])) :
    ((log.appendAll codec now events).2.counters.highest event.stream).toNat + 1 < 2 ^ 64 := by
  have hle := @toNat_highest_appendAll codec log now events hroom.dropLast event.stream
  have hlt := hroom event.stream
  rw [countP_append, countP_singleton] at hlt
  simp only [decide_true, if_true] at hlt
  omega

theorem matches_foldl (now : Bytes) (hkeys : StreamKeys codec names) (hahead : Ahead codec names log)
    (hroom : RoomFor log.counters events) (hstreams : ∀ event ∈ events, event.stream ∈ names) :
    (events.foldl (appendToBatch codec now log.store) ⟨[], [], fun _ => none, log.counters⟩).results =
        (log.appendAll codec now events).1 ∧
      Matches codec names log (events.foldl (appendToBatch codec now log.store) ⟨[], [], fun _ => none, log.counters⟩)
        (log.appendAll codec now events).2 := by
  induction events using List.reverseRecOn with
  | nil => exact ⟨rfl, matches_nil⟩
  | append_singleton events event ih =>
    have hstream : event.stream ∈ names := hstreams event (by simp)
    have hroomOne := @highest_appendAll_lt codec log now event events hroom
    obtain ⟨hresults, hmatches⟩ := ih hroom.dropLast fun other hother => hstreams other (mem_append_left _ hother)
    rw [foldl_append, appendAll_concat, foldl_cons, foldl_nil]
    generalize events.foldl (appendToBatch codec now log.store) ⟨[], [], fun _ => none, log.counters⟩ = batch at *
    generalize log.appendAll codec now events = done at *
    have hexisting := hmatches.existing hkeys hahead hroomOne hstream
    cases hfound : existingEvent codec done.2.store done.2.counters event with
    | some existing =>
      rw [hfound] at hexisting
      rw [appendEvent_of_existing hfound]
      simp only [appendToBatch, hexisting]
      refine ⟨by rw [hresults], ?_⟩
      exact ⟨hmatches.counters, hmatches.idle, hmatches.named, hmatches.inserted, hmatches.kept, hmatches.above,
        hmatches.below, hmatches.grown, hmatches.repeated, hmatches.metadata, hmatches.unnamed⟩
    | none =>
      rw [hfound] at hexisting
      constructor
      · simp only [appendToBatch, hexisting, appendEvent_of_new hfound, hresults, hmatches.counters]
      · simp only [appendToBatch, hexisting]
        exact hmatches.append hkeys hroomOne hstream hfound rfl

theorem ready_appendAll (now : Bytes) (hkeys : StreamKeys codec names) (hready : Ready codec names ever log)
    (hroom : Room log.counters events.length) (hstreams : ∀ event ∈ events, event.stream ∈ names) :
    ∃ everNow, ever ⊆ everNow ∧ Ready codec names everNow (log.appendAll codec now events).2 := by
  induction events using List.reverseRecOn with
  | nil => exact ⟨ever, subset_rfl, hready⟩
  | append_singleton events event ih =>
    rw [length_append] at hroom
    have hroomOne : Room (log.appendAll codec now events).2.counters 1 := room_appendAll hroom
    obtain ⟨everNow, hever, hnow⟩ := ih (room_mono hroom (Nat.le_succ _))
      fun other hother => hstreams other (mem_append_left _ hother)
    rw [appendAll_concat]
    cases hfound : existingEvent codec (log.appendAll codec now events).2.store
      (log.appendAll codec now events).2.counters
        event with
    | some existing =>
      rw [appendEvent_of_existing hfound]
      exact ⟨everNow, hever, hnow⟩
    | none =>
      exact ⟨_, hever.trans (Set.subset_insert _ _), hnow.append hkeys (hstreams event (by simp)) hroomOne hfound⟩

theorem commit_insertEvents (pending : List MemoryEvent) (store : EventStore) :
    store.commit (pending.map (insertEvent codec)) = { store with
      events := pending.foldl (fun events event =>
        events.insert (codec.makeEventKey event.stream event.sequence) event) store.events } := by
  induction pending generalizing store with
  | nil => rfl
  | cons event pending ih => exact ih _

theorem commit_writeMetadata (streams : List Bytes) (counters : EventCounters) (store : EventStore) :
    store.commit (streams.map (counters.encodeEventMetadata codec)) = { store with
      eventMeta := streams.foldl (fun metadata stream =>
        metadata.insert (codec.makeEventMetadataKey stream) (metadataOf counters stream)) store.eventMeta } := by
  induction streams generalizing store with
  | nil => rfl
  | cons stream streams ih => exact ih _

theorem Matches.store (h : Matches codec names log batch single) (streams : List Bytes)
    (hstreams : ∀ stream, stream ∈ streams ↔ stream ∈ batch.pending.map MemoryEvent.stream) :
    log.store.commit (batch.pending.map (insertEvent codec) ++ streams.map (batch.counters.encodeEventMetadata codec)) =
      single.store := by
  have hcommit : log.store.commit (batch.pending.map (insertEvent codec) ++
      streams.map (batch.counters.encodeEventMetadata codec)) =
      (log.store.commit (batch.pending.map (insertEvent codec))).commit
        (streams.map (batch.counters.encodeEventMetadata codec)) := foldl_append
  have hname : ∀ stream ∈ streams, stream ∈ names := by
    intro stream hstream
    obtain ⟨event, hevent, rfl⟩ := mem_map.mp ((hstreams stream).mp hstream)
    exact h.named event hevent
  rw [hcommit, commit_insertEvents, commit_writeMetadata]
  have hevents : batch.pending.foldl (fun events event =>
      events.insert (codec.makeEventKey event.stream event.sequence) event) log.store.events = single.store.events := by
    apply ext
    intro key
    rcases get_foldl_insert_cases (fun event : MemoryEvent => codec.makeEventKey event.stream event.sequence)
        (fun event => event) batch.pending log.store.events key with ⟨hnone, hsame⟩ | ⟨event, hevent, rfl, hsome⟩
    · exact hsame.trans (h.kept key hnone).symm
    · exact hsome.trans (h.inserted event hevent).symm
  have hmeta : streams.foldl (fun metadata stream =>
      metadata.insert (codec.makeEventMetadataKey stream) (metadataOf batch.counters stream)) log.store.eventMeta =
        single.store.eventMeta := by
    apply ext
    intro key
    rcases get_foldl_insert_cases codec.makeEventMetadataKey (metadataOf batch.counters) streams
        log.store.eventMeta key with ⟨hnone, hsame⟩ | ⟨stream, hstream, rfl, hsome⟩
    · rw [hsame]
      by_cases hnamed : ∃ stream ∈ names, codec.makeEventMetadataKey stream = key
      · obtain ⟨stream, hmem, rfl⟩ := hnamed
        rw [h.metadata stream hmem, if_neg fun hpending => hnone stream ((hstreams stream).mpr hpending) rfl]
      · exact (h.unnamed key fun stream hmem heq => hnamed ⟨stream, hmem, heq⟩).symm
    · rw [hsome, h.metadata stream (hname stream hstream), if_pos ((hstreams stream).mp hstream)]
  rw [hevents, hmeta]

theorem appendEventsBatch_eq (now : Bytes) (hkeys : StreamKeys codec names) (hahead : Ahead codec names log)
    (hroom : RoomFor log.counters events) (hstreams : ∀ event ∈ events, event.stream ∈ names) :
    (log.appendEventsBatch codec now events).1 = (log.appendAll codec now events).1 ∧
      log.after (log.appendEventsBatch codec now events).2 = (log.appendAll codec now events).2 := by
  obtain ⟨hresults, hmatches⟩ := matches_foldl now hkeys hahead hroom hstreams
  rw [appendEventsBatch]
  generalize events.foldl (appendToBatch codec now log.store) ⟨[], [], fun _ => none, log.counters⟩ = batch at *
  generalize log.appendAll codec now events = done at *
  have hdone : done.2 = ⟨done.2.store, batch.counters⟩ := by rw [← hmatches.counters]
  by_cases hempty : batch.pending = []
  · have hstore := hmatches.store [] (by simp [hempty])
    simp only [hempty, map_nil] at hstore
    rw [if_pos (by simp [hempty])]
    refine ⟨hresults, ?_⟩
    rw [hdone, hmatches.idle hempty, ← hstore]
    rfl
  · rw [if_neg (by simpa using hempty)]
    refine ⟨hresults, ?_⟩
    rw [hdone, ← hmatches.store ((batch.pending.map MemoryEvent.stream).dedup.insertionSort (· ≤ ·))
      fun stream => by rw [(perm_insertionSort _ _).mem_iff, mem_dedup]]
    rfl

end Thingd.Engine
