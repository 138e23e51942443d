import Thingd.Engine.EventBatch
import Thingd.Engine.EventOpen

namespace Thingd.Engine

open EventStore

namespace EventLog

inductive Op
  | append (now : Bytes) (event : MemoryEvent)
  | appendBatch (now : Bytes) (events : List MemoryEvent)
  | deleteLast (stream : Bytes)
  | deleteStream (stream : Bytes)
  | retain (options : RetentionOptions) (affectedStreams : List Bytes)

def Op.effect (codec : StorageCodec) (log : EventLog) : Op → EventEffect
  | .append now event => (log.appendEvent codec now event).2
  | .appendBatch now events => (log.appendEventsBatch codec now events).2
  | .deleteLast stream => match log.deleteLastEvent codec stream with
    | .ok result => result.2
    | .error _ => ⟨[], log.counters⟩
  | .deleteStream stream => match log.deleteStream codec stream with
    | .ok result => result.2
    | .error _ => ⟨[], log.counters⟩
  | .retain options affectedStreams => log.retain codec options affectedStreams

def Op.Fits (names : Set Bytes) (log : EventLog) : Op → Prop
  | .append _ event => event.stream ∈ names ∧ Room log.counters 1
  | .appendBatch _ events => (∀ event ∈ events, event.stream ∈ names) ∧ Room log.counters events.length
  | .deleteLast _ => True
  | .deleteStream stream => stream ∈ names
  | .retain options affectedStreams =>
    affectedStreams.Perm ((log.eligibleEvents options).map fun entry => entry.2.stream).dedup

def Op.remembered (codec : StorageCodec) (log : EventLog) (ever : Set (Bytes × UInt64)) (n : ℕ) :
    Op → Set (Bytes × UInt64)
  | .deleteStream stream => match log.deleteStream codec stream with
    | .ok result => if result.2.commits.length ≤ n then withoutStream ever stream else ever
    | .error _ => ever
  | _ => ever

end EventLog

open EventLog

/-- The states of a durable engine's event log: what has been stored since its stream was last removed, the database,
and the counters while the engine is open. -/
inductive EventRun (codec : StorageCodec) (names : Set Bytes) :
    Set (Bytes × UInt64) → EventStore → Option EventCounters → Prop
  | start {store} (h : Legacy codec names store.places store) : EventRun codec names store.places store none
  | opened {ever store streams} (h : EventRun codec names ever store none)
      (hstreams : streams.Perm store.loadCounters.seqCounters.keys) :
      EventRun codec names ever ((openLog codec store streams).commits.foldl commit store)
        (some (openLog codec store streams).counters)
  | openCrashed {ever store streams n} (h : EventRun codec names ever store none)
      (hstreams : streams.Perm store.loadCounters.seqCounters.keys)
      (hn : n = 0 ∨ (openLog codec store streams).commits.length ≤ n) :
      EventRun codec names ever (((openLog codec store streams).commits.take n).foldl commit store) none
  | called {ever store counters} (op : Op) (h : EventRun codec names ever store (some counters))
      (hfits : op.Fits names ⟨store, counters⟩) :
      EventRun codec names
        (op.remembered codec ⟨store, counters⟩ ever (op.effect codec ⟨store, counters⟩).commits.length ∪
          (EventLog.after ⟨store, counters⟩ (op.effect codec ⟨store, counters⟩)).store.places)
        (EventLog.after ⟨store, counters⟩ (op.effect codec ⟨store, counters⟩)).store
        (some (op.effect codec ⟨store, counters⟩).counters)
  | crashed {ever store counters} (op : Op) (n : ℕ) (h : EventRun codec names ever store (some counters))
      (hfits : op.Fits names ⟨store, counters⟩) :
      EventRun codec names (op.remembered codec ⟨store, counters⟩ ever n ∪
          (((op.effect codec ⟨store, counters⟩).commits.take n).foldl commit store).places)
        (((op.effect codec ⟨store, counters⟩).commits.take n).foldl commit store) none
  | closed {ever store counters} (h : EventRun codec names ever store (some counters)) :
    EventRun codec names ever store none

variable {codec : StorageCodec} {names : Set Bytes} {ever : Set (Bytes × UInt64)} {store : EventStore}
  {counters : EventCounters} {log : EventLog}

structure EventLog.Op.Safe (codec : StorageCodec) (names : Set Bytes) (ever : Set (Bytes × UInt64)) (log : EventLog)
    (op : Op)
    (next : Set (Bytes × UInt64)) : Prop where
  before : ∀ n < (op.effect codec log).commits.length,
    Settled codec names ever (((op.effect codec log).commits.take n).foldl commit log.store)
  after : Ready codec names next (log.after (op.effect codec log))
  early : ∀ n < (op.effect codec log).commits.length, op.remembered codec log ever n ⊆ ever
  late : ∀ n, (op.effect codec log).commits.length ≤ n → op.remembered codec log ever n ⊆ next

variable {op : Op} {next : Set (Bytes × UInt64)}

theorem EventLog.Op.Safe.crashed (h : op.Safe codec names ever log next) (n : ℕ) :
    Settled codec names
      (op.remembered codec log ever n ∪ (((op.effect codec log).commits.take n).foldl commit log.store).places)
      (((op.effect codec log).commits.take n).foldl commit log.store) := by
  by_cases hn : n < (op.effect codec log).commits.length
  · have hsettled := h.before n hn
    exact hsettled.anti (Set.union_subset (h.early n hn) hsettled.placed.places_subset) Set.subset_union_right
  · have hle := not_lt.mp hn
    have hsettled := h.after.settled
    rw [List.take_of_length_le hle]
    exact hsettled.anti (Set.union_subset (h.late n hle) hsettled.placed.places_subset) Set.subset_union_right

theorem EventLog.Op.Safe.called (h : op.Safe codec names ever log next) :
    Ready codec names (op.remembered codec log ever (op.effect codec log).commits.length ∪
      (log.after (op.effect codec log)).store.places) (log.after (op.effect codec log)) :=
  h.after.anti (Set.union_subset (h.late _ le_rfl) h.after.settled.placed.places_subset) Set.subset_union_right

theorem safe_of_single (h : Ready codec names ever log) (hlength : (op.effect codec log).commits.length ≤ 1)
    (hremembered : ∀ n, op.remembered codec log ever n = ever) (hsub : ever ⊆ next)
    (hafter : Ready codec names next (log.after (op.effect codec log))) : op.Safe codec names ever log next := by
  refine ⟨fun n hn => ?_, hafter, fun n _ => (hremembered n).subset, fun n _ => (hremembered n).subset.trans hsub⟩
  obtain rfl : n = 0 := by omega
  exact h.settled

theorem safe_of_everyCrash (hremembered : ∀ n, op.remembered codec log ever n = ever)
    (hcrash : EveryCrash (Settled codec names ever) log.store (op.effect codec log).commits)
    (hafter : Ready codec names ever (log.after (op.effect codec log))) : op.Safe codec names ever log ever :=
  ⟨fun n _ => hcrash n, hafter, fun n _ => (hremembered n).subset, fun n _ => (hremembered n).subset⟩

variable {now : Bytes} {event : MemoryEvent}

section

variable (hkeys : StreamKeys codec names) (h : Ready codec names ever log)
include hkeys h

theorem safe_append (hfits : (Op.append now event).Fits names log) :
    ∃ next, (Op.append now event).Safe codec names ever log next := by
  cases hfound : existingEvent codec log.store log.counters event with
  | some existing =>
    have heffect : (Op.append now event).effect codec log = ⟨[], log.counters⟩ := by
      rw [Op.effect, appendEvent_of_existing hfound]
    refine ⟨ever, safe_of_single h (by simp [heffect]) (fun _ => rfl) subset_rfl ?_⟩
    rw [heffect]
    exact h
  | none =>
    refine ⟨_, safe_of_single h ?_ (fun _ => rfl) (Set.subset_insert _ _) (h.append hkeys hfits.1 hfits.2 hfound)⟩
    rw [Op.effect, appendEvent_of_new hfound]
    exact le_rfl

theorem safe_appendBatch {events : List MemoryEvent} (hfits : (Op.appendBatch now events).Fits names log) :
    ∃ next, (Op.appendBatch now events).Safe codec names ever log next := by
  obtain ⟨-, hafter⟩ := appendEventsBatch_eq now hkeys (h.ahead hkeys) (roomFor_of_room hfits.2) hfits.1
  obtain ⟨next, hsub, hready⟩ := ready_appendAll now hkeys h hfits.2 hfits.1
  refine ⟨next, safe_of_single h ?_ (fun _ => rfl) hsub ?_⟩
  · rw [Op.effect, appendEventsBatch]
    split_ifs <;> simp
  · rw [Op.effect, hafter]
    exact hready

theorem safe_deleteStream {stream : Bytes} (hstream : stream ∈ names) :
    ∃ next, (Op.deleteStream stream).Safe codec names ever log next := by
  cases hresult : log.deleteStream codec stream with
  | error error =>
    have heffect : (Op.deleteStream stream).effect codec log = ⟨[], log.counters⟩ := by simp [Op.effect, hresult]
    refine ⟨ever, safe_of_everyCrash (fun n => by simp [Op.remembered, hresult]) ?_ ?_⟩
    · rw [heffect]
      exact everyCrash_nil.mpr h.settled
    · rw [heffect]
      exact h
  | ok result =>
    obtain ⟨hbefore, hafter⟩ := deleteStream_safe hkeys h hstream hresult
    have heffect : (Op.deleteStream stream).effect codec log = result.2 := by simp [Op.effect, hresult]
    refine ⟨withoutStream ever stream, ?_, ?_, ?_, ?_⟩
    · rw [heffect]
      exact hbefore
    · rw [heffect]
      exact hafter
    · intro n hn
      rw [heffect] at hn
      simp [Op.remembered, hresult, not_le.mpr hn]
    · intro n hn
      rw [heffect] at hn
      simp [Op.remembered, hresult, hn]

theorem op_safe (hfits : op.Fits names log) : ∃ next, op.Safe codec names ever log next := by
  cases op with
  | append now event => exact safe_append hkeys h hfits
  | appendBatch now events => exact safe_appendBatch hkeys h hfits
  | deleteStream stream => exact safe_deleteStream hkeys h hfits
  | deleteLast stream =>
    refine ⟨ever, ?_⟩
    cases hresult : log.deleteLastEvent codec stream with
    | error error =>
      have heffect : (Op.deleteLast stream).effect codec log = ⟨[], log.counters⟩ := by simp [Op.effect, hresult]
      apply safe_of_everyCrash fun _ => rfl
      · rw [heffect]
        exact everyCrash_nil.mpr h.settled
      · rw [heffect]
        exact h
    | ok result =>
      have heffect : (Op.deleteLast stream).effect codec log = result.2 := by simp [Op.effect, hresult]
      obtain ⟨hcrash, hafter⟩ := deleteLastEvent_safe hkeys h hresult
      apply safe_of_everyCrash fun _ => rfl
      · rw [heffect]
        exact hcrash
      · rw [heffect]
        exact hafter
  | retain options affectedStreams =>
    have haffected : ∀ stream ∈ affectedStreams, ∃ entry ∈ log.eligibleEvents options, entry.2.stream = stream := by
      intro stream hstream
      exact List.mem_map.mp (List.mem_dedup.mp (hfits.mem_iff.mp hstream))
    obtain ⟨hcrash, hafter⟩ := retain_safe hkeys h options haffected
    exact ⟨ever, safe_of_everyCrash (fun _ => rfl) hcrash hafter⟩

end

def EventRun.Sound (codec : StorageCodec) (names : Set Bytes) (ever : Set (Bytes × UInt64)) (store : EventStore) :
    Option EventCounters → Prop
  | some counters => Ready codec names ever ⟨store, counters⟩
  | none => Settled codec names ever store ∨ Legacy codec names ever store

theorem EventRun.sound (hkeys : StreamKeys codec names) {counters : Option EventCounters}
    (h : EventRun codec names ever store counters) : EventRun.Sound codec names ever store counters := by
  induction h with
  | start h => exact Or.inr h
  | opened h hstreams ih => exact openLog_ready hkeys ih hstreams
  | openCrashed h hstreams hn ih =>
    rcases hn with rfl | hn
    · exact ih
    · rw [List.take_of_length_le hn]
      exact Or.inl (openLog_ready hkeys ih hstreams).settled
  | called op h hfits ih =>
    obtain ⟨next, hsafe⟩ := op_safe hkeys ih hfits
    exact hsafe.called
  | crashed op n h hfits ih =>
    obtain ⟨next, hsafe⟩ := op_safe hkeys ih hfits
    exact Or.inl (hsafe.crashed n)
  | closed h ih => exact Or.inl ih.settled

theorem existingEvent_of_stored (h : Ready codec names ever log) {stored : MemoryEvent}
    (hstored : log.store.Stored stored) (hstream : stored.stream = event.stream)
    (hidem : stored.idempotencyKey = event.idempotencyKey) (hkey : event.idempotencyKey ≠ []) :
    existingEvent codec log.store log.counters event = some stored := by
  have hknown := h.knows.keys stored hstored (hidem ▸ hkey)
  have hget := (h.settled.placed.stored_iff stored).mp hstored
  rw [hstream, hidem] at hknown
  rw [hstream] at hget
  simp [existingEvent, hkey, hknown, hget]

theorem stored_of_append (hkeys : StreamKeys codec names) (h : Ready codec names ever log)
    (hstream : event.stream ∈ names) (hroom : Room log.counters 1) {other : MemoryEvent}
    (hother : log.store.Stored other) : (log.after (log.appendEvent codec now event).2).store.Stored other := by
  cases hfound : existingEvent codec log.store log.counters event with
  | some existing =>
    rw [appendEvent_of_existing hfound]
    exact hother
  | none =>
    obtain ⟨key, hget⟩ := hother
    have hempty := get_stampedEvent now hkeys h.settled.placed h.knows hroom hstream
    rw [appendEvent_of_new hfound]
    refine ⟨key, ?_⟩
    have hne : key ≠ codec.makeEventKey event.stream (log.counters.stampedEvent now event).sequence := by
      rintro rfl
      rw [hempty] at hget
      cases hget
    have hlookup : (log.after ⟨[[insertEvent codec (log.counters.stampedEvent now event),
        (log.counters.advance (log.counters.stampedEvent now event)).encodeEventMetadata codec event.stream]],
        log.counters.advance (log.counters.stampedEvent now event)⟩).store.events =
        log.store.events.insert (codec.makeEventKey event.stream (log.counters.stampedEvent now event).sequence)
          (log.counters.stampedEvent now event) := rfl
    rw [hlookup, SortedMap.get_insert, if_neg hne]
    exact hget

theorem legacy_of_entries (hbare : store.eventMeta = .empty)
    (hkeys : ∀ entry ∈ store.events.entries, entry.1 = codec.makeEventKey entry.2.stream entry.2.sequence)
    (hdistinct : ∀ event ∈ store.events.entries.map Prod.snd, ∀ other ∈ store.events.entries.map Prod.snd,
      event.stream = other.stream → event.idempotencyKey = other.idempotencyKey → event.idempotencyKey ≠ [] →
      event.sequence = other.sequence) :
    Legacy codec Set.univ store.places store := by
  refine ⟨⟨?_, ?_, ?_, fun _ _ => trivial⟩, hbare, subset_rfl, ?_⟩
  · exact fun key event hget => hkeys (key, event) (SortedMap.get_eq_some_iff.mp hget)
  · intro key metadata hget
    rw [hbare] at hget
    cases hget
  · exact fun event hstored => ⟨event, hstored, rfl⟩
  · exact fun event other hevent hother => hdistinct event (stored_iff_mem.mp hevent) other (stored_iff_mem.mp hother)

theorem room_of_entries {n : ℕ} (h : ∀ entry ∈ counters.seqCounters.entries, entry.2.toNat + n < 2 ^ 64)
    (hn : n < 2 ^ 64) : Room counters n := by
  intro stream
  cases hget : counters.seqCounters.get stream with
  | none => simpa using hn
  | some highest => exact h (stream, highest) (SortedMap.get_eq_some_iff.mp hget)

def plainCodec : StorageCodec := rawCodec fun bytes => .ok bytes

def sampleEvent (stream : String) (sequence : UInt64) (body key : String) : MemoryEvent :=
  ⟨bytesOf stream, bytesOf "note", bytesOf body, sequence, bytesOf "2024", bytesOf key⟩

def legacyStore : EventStore :=
  ⟨(SortedMap.empty.insert (plainCodec.makeEventKey (bytesOf "a") 1) (sampleEvent "a" 1 "x" "k")).insert
    (plainCodec.makeEventKey (bytesOf "b") 1) (sampleEvent "b" 1 "y" "k"), .empty⟩

theorem legacy_legacyStore : Legacy plainCodec Set.univ legacyStore.places legacyStore := by
  apply legacy_of_entries rfl
  · decide +kernel
  · decide +kernel

/-- In every run in which no open that has to write all the metadata stops half way, an append finds the stored event
with its key, and what it stores comes after everything that its stream has held; a batch is a row of appends. -/
theorem events_are_never_replaced (hkeys : StreamKeys codec names)
    (h : EventRun codec names ever store (some counters)) :
    (∀ now event, event.stream ∈ names → Room counters 1 →
      (∀ stored, store.Stored stored → stored.stream = event.stream → stored.idempotencyKey = event.idempotencyKey →
        event.idempotencyKey ≠ [] →
        EventLog.appendEvent codec now ⟨store, counters⟩ event = (stored, ⟨[], counters⟩)) ∧
      ((EventLog.appendEvent codec now ⟨store, counters⟩ event).2.commits ≠ [] →
        ∀ sequence, (event.stream, sequence) ∈ ever →
          sequence < (EventLog.appendEvent codec now ⟨store, counters⟩ event).1.sequence) ∧
      ∀ stored, store.Stored stored →
        (EventLog.after ⟨store, counters⟩ (EventLog.appendEvent codec now ⟨store, counters⟩ event).2).store.Stored
          stored) ∧
    ∀ now events, (∀ event ∈ events, event.stream ∈ names) → Room counters events.length →
      ((EventLog.appendEventsBatch codec now ⟨store, counters⟩ events).1,
        EventLog.after ⟨store, counters⟩ (EventLog.appendEventsBatch codec now ⟨store, counters⟩ events).2) =
      EventLog.appendAll codec now ⟨store, counters⟩ events := by
  have hready : Ready codec names ever ⟨store, counters⟩ := h.sound hkeys
  constructor
  · intro now event hstream hroom
    refine ⟨?_, ?_, fun stored hstored => stored_of_append hkeys hready hstream hroom hstored⟩
    · intro stored hstored hsame hidem hkey
      exact appendEvent_of_existing (existingEvent_of_stored hready hstored hsame hidem hkey)
    · intro hcommits sequence hever
      cases hfound : existingEvent codec store counters event with
      | some existing =>
        rw [appendEvent_of_existing hfound] at hcommits
        exact absurd rfl hcommits
      | none =>
        rw [appendEvent_of_new hfound]
        exact lt_stampedEvent hready.knows hroom hever
  · intro now events hstreams hroom
    obtain ⟨hresults, hafter⟩ := appendEventsBatch_eq now hkeys (hready.ahead hkeys) (roomFor_of_room hroom) hstreams
    exact Prod.ext hresults hafter

theorem first_open_keeps_event :
    legacyStore.Stored (sampleEvent "b" 1 "y" "k") ∧
      EventLog.appendEvent plainCodec [] (EventLog.after ⟨legacyStore, noCounters⟩
          (openLog plainCodec legacyStore [bytesOf "a", bytesOf "b"])) (sampleEvent "b" 0 "z" "k") =
        (sampleEvent "b" 1 "y" "k", ⟨[], legacyStore.loadCounters⟩) := by
  have hstored : legacyStore.Stored (sampleEvent "b" 1 "y" "k") := stored_iff_mem.mpr (by decide +kernel)
  have hstreams : [bytesOf "a", bytesOf "b"].Perm legacyStore.loadCounters.seqCounters.keys := by decide +kernel
  have hroom : Room legacyStore.loadCounters 1 := room_of_entries (by decide +kernel) (by decide)
  refine ⟨hstored, ?_⟩
  have hrun := (EventRun.start legacy_legacyStore).opened hstreams
  apply ((events_are_never_replaced (streamKeys_rawCodec _ Set.univ) hrun).1 [] (sampleEvent "b" 0 "z" "k") trivial
    hroom).1
  · exact stored_iff_mem.mpr (by decide +kernel)
  · rfl
  · rfl
  · decide +kernel

/-- The first open stops after the metadata of the first stream, the next one finds metadata and does not look at the
events, and the append to the other stream starts at one again. -/
theorem crash_in_first_open_replaces_event :
    let crashed := ((openLog plainCodec legacyStore [bytesOf "a", bytesOf "b"]).commits.take 1).foldl commit legacyStore
    let log := EventLog.after ⟨crashed, noCounters⟩ (openLog plainCodec crashed [bytesOf "a"])
    let result := log.appendEvent plainCodec [] (sampleEvent "b" 0 "z" "n")
    Legacy plainCodec Set.univ legacyStore.places legacyStore ∧
      [bytesOf "a", bytesOf "b"].Perm legacyStore.loadCounters.seqCounters.keys ∧
      [bytesOf "a"].Perm crashed.loadCounters.seqCounters.keys ∧
      log.store.Stored (sampleEvent "b" 1 "y" "k") ∧ result.2.commits.length = 1 ∧ result.1.sequence = 1 ∧
      ¬(log.after result.2).store.Stored (sampleEvent "b" 1 "y" "k") := by
  refine ⟨legacy_legacyStore, ?_, ?_, stored_iff_mem.mpr ?_, ?_, ?_, stored_iff_mem.not.mpr ?_⟩
  all_goals decide +kernel

end Thingd.Engine
