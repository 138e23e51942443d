import Thingd.Engine.EventRun

namespace Thingd.Engine

open EventStore EventLog EventCounters

def EventWrite.ofEvent : EventWrite → Bool
  | .insertEvent _ _ => true
  | .removeEvent _ => true
  | .insertMetadata _ _ => false
  | .removeMetadata _ => false

def EventEffect.onBackend (inMemory : Bool) (effect : EventEffect) : EventEffect :=
  if inMemory then { effect with commits := effect.commits.map (List.filter EventWrite.ofEvent) } else effect

namespace EventLog

variable (codec : StorageCodec) (now : Bytes) (inMemory : Bool)

def appendEventOn (log : EventLog) (event : MemoryEvent) : MemoryEvent × EventLog :=
  let (result, effect) := log.appendEvent codec now event
  (result, log.after (effect.onBackend inMemory))

def appendEventsOn (log : EventLog) (events : List MemoryEvent) : List MemoryEvent × EventLog :=
  events.foldl (fun done event =>
    let (result, log) := done.2.appendEventOn codec now inMemory event
    (done.1 ++ [result], log)) ([], log)

/-- The commit of a batch may fail; `failure` is the message it then gives. -/
def appendEventsBatchOn (failure : Option String) (log : EventLog) (events : List MemoryEvent) :
    ThingdResult (List MemoryEvent) × EventLog :=
  let (results, effect) := log.appendEventsBatch codec now events
  if effect.commits.isEmpty then (.ok results, log)
  else
    match failure with
    | some message => (.error (.storage message), log)
    | none => (.ok results, log.after (effect.onBackend inMemory))

end EventLog

variable {codec : StorageCodec} {names : Set Bytes} {log : EventLog} {now : Bytes} {inMemory : Bool}
  {events : List MemoryEvent} {event : MemoryEvent} {stream : Bytes}

section Backend

def onBackend (inMemory : Bool) (start log : EventLog) : EventLog :=
  if inMemory then ⟨⟨log.store.events, start.store.eventMeta⟩, log.counters⟩ else log

theorem commit_cons (w : EventWrite) (batch : List EventWrite) (store : EventStore) :
    store.commit (w :: batch) = (store.write w).commit batch := rfl

theorem events_commit_congr (batch : List EventWrite) {store other : EventStore} (h : store.events = other.events) :
    (store.commit batch).events = (other.commit batch).events := by
  induction batch generalizing store other with
  | nil => exact h
  | cons w batch ih =>
    apply ih
    cases w with
    | insertEvent key event => exact congrArg (fun events => events.insert key event) h
    | removeEvent key => exact congrArg (fun events => events.erase key) h
    | insertMetadata key metadata => exact h
    | removeMetadata key => exact h

theorem commit_ofEvent (batch : List EventWrite) (store : EventStore) :
    store.commit (batch.filter EventWrite.ofEvent) = ⟨(store.commit batch).events, store.eventMeta⟩ := by
  induction batch generalizing store with
  | nil => rfl
  | cons w batch ih =>
    cases hw : w.ofEvent with
    | true =>
      have hmeta : (store.write w).eventMeta = store.eventMeta := by
        cases w with
        | insertEvent key event => rfl
        | removeEvent key => rfl
        | insertMetadata key metadata => cases hw
        | removeMetadata key => cases hw
      rw [List.filter_cons_of_pos hw, commit_cons, ih, hmeta, commit_cons]
    | false =>
      have hevents : (store.write w).events = store.events := by
        cases w with
        | insertEvent key event => cases hw
        | removeEvent key => cases hw
        | insertMetadata key metadata => rfl
        | removeMetadata key => rfl
      rw [List.filter_cons_of_neg (by rw [hw]; exact Bool.false_ne_true), ih, commit_cons,
        events_commit_congr batch hevents]

theorem foldl_commit (commits : List (List EventWrite)) (store : EventStore) :
    commits.foldl EventStore.commit store = store.commit commits.flatten := List.foldl_flatten.symm

theorem after_onBackend (inMemory : Bool) (start log : EventLog) (effect : EventEffect) :
    (onBackend inMemory start log).after (effect.onBackend inMemory) = onBackend inMemory start (log.after effect) := by
  cases inMemory with
  | false => rfl
  | true =>
    have hevents : (EventStore.commit ⟨log.store.events, start.store.eventMeta⟩ effect.commits.flatten).events =
        (log.store.commit effect.commits.flatten).events := events_commit_congr _ rfl
    simp only [onBackend, EventEffect.onBackend, EventLog.after, if_true, foldl_commit]
    rw [← List.filter_flatten, commit_ofEvent, hevents]

theorem appendEventOn_eq (inMemory : Bool) (start log : EventLog) (event : MemoryEvent) :
    (onBackend inMemory start log).appendEventOn codec now inMemory event =
      ((log.appendEvent codec now event).1,
        onBackend inMemory start (log.after (log.appendEvent codec now event).2)) := by
  have hsame : (onBackend inMemory start log).appendEvent codec now event = log.appendEvent codec now event := by
    cases inMemory <;> rfl
  rw [appendEventOn, hsame, ← after_onBackend]

theorem appendEventsOn_eq (log : EventLog) (events : List MemoryEvent) :
    log.appendEventsOn codec now inMemory events =
      ((log.appendAll codec now events).1, onBackend inMemory log (log.appendAll codec now events).2) := by
  induction events using List.reverseRecOn with
  | nil =>
    cases inMemory <;> rfl
  | append_singleton events event ih =>
    rw [appendEventsOn] at ih ⊢
    rw [List.foldl_append, ih, List.foldl_cons, List.foldl_nil, appendAll_concat, appendEventOn_eq]

theorem appendEventsBatchOn_eq (log : EventLog) (events : List MemoryEvent) :
    log.appendEventsBatchOn codec now inMemory none events =
      (.ok (log.appendEventsBatch codec now events).1,
        onBackend inMemory log (log.after (log.appendEventsBatch codec now events).2)) := by
  have hself : onBackend inMemory log log = log := by cases inMemory <;> rfl
  rw [appendEventsBatchOn]
  cases hcommits : (log.appendEventsBatch codec now events).2.commits with
  | nil =>
    have hcounters : (log.appendEventsBatch codec now events).2.counters = log.counters := by
      rw [appendEventsBatch] at hcommits ⊢
      split_ifs at hcommits ⊢
      rfl
    have hafter : log.after (log.appendEventsBatch codec now events).2 = log := by
      rw [EventLog.after, hcommits, hcounters]
      rfl
    rw [hafter, hself]
    simp [hcommits]
  | cons batch commits =>
    rw [← after_onBackend, hself]
    simp [hcommits]

end Backend

section Necessity

variable {b : BatchAppend} {n : ℕ}

theorem existing_of_keyless (h : event.idempotencyKey = []) (store : EventStore) (counters : EventCounters) :
    existingEvent codec store counters event = none := by
  rw [existingEvent, h]
  rfl

def filler (stream : Bytes) : MemoryEvent := ⟨stream, [], [], 0, [], []⟩

variable {counters : EventCounters} {sequence : UInt64}

theorem toNat_highest_filler (hroom : (counters.highest stream).toNat + 1 < 2 ^ 64) :
    ((counters.advance (counters.stampedEvent now (filler stream))).highest stream).toNat =
      (counters.highest stream).toNat + 1 := by
  have hself : stream = (filler stream).stream := rfl
  rw [highest_advance, if_pos hself]
  exact toNat_nextSequence_eq hroom

theorem foldl_filler (store : EventStore) (hroom : (b.counters.highest stream).toNat + n < 2 ^ 64) :
    let filled := (List.replicate n (filler stream)).foldl (appendToBatch codec now store) b
    filled.counters.idempotencyKeys = b.counters.idempotencyKeys ∧ filled.pendingIdempotency = b.pendingIdempotency ∧
      (filled.counters.highest stream).toNat = (b.counters.highest stream).toNat + n := by
  induction n with
  | zero => exact ⟨rfl, rfl, rfl⟩
  | succ n ih =>
    obtain ⟨hkeys, hpending, hhighest⟩ := ih (by omega)
    have hcount := @toNat_highest_filler now stream
      ((List.replicate n (filler stream)).foldl (appendToBatch codec now store) b).counters (by rw [hhighest]; omega)
    rw [List.replicate_succ', List.foldl_append, List.foldl_cons, appendToBatch]
    refine ⟨hkeys, hpending, hcount.trans ?_⟩
    rw [hhighest]
    omega

theorem appendAll_filler (log : EventLog) (hroom : (log.counters.highest stream).toNat + n < 2 ^ 64) :
    let filled := (log.appendAll codec now (List.replicate n (filler stream))).2
    filled.counters.idempotencyKeys = log.counters.idempotencyKeys ∧
      (filled.counters.highest stream).toNat = (log.counters.highest stream).toNat + n := by
  induction n with
  | zero => exact ⟨rfl, rfl⟩
  | succ n ih =>
    obtain ⟨hkeys, hhighest⟩ := ih (by omega)
    have hcount := @toNat_highest_filler now stream
      (log.appendAll codec now (List.replicate n (filler stream))).2.counters (by rw [hhighest]; omega)
    rw [List.replicate_succ', appendAll_concat]
    refine ⟨hkeys, hcount.trans ?_⟩
    rw [hhighest]
    omega

theorem getLast_batch (store : EventStore) (b : BatchAppend) (event : MemoryEvent) :
    ((events ++ [event]).foldl (appendToBatch codec now store) b).results.getLast? =
      some ((existingInBatch codec store (events.foldl (appendToBatch codec now store) b) event).getD
        ((events.foldl (appendToBatch codec now store) b).counters.stampedEvent now event)) := by
  rw [List.foldl_append, List.foldl_cons, appendToBatch]
  cases existingInBatch codec store (events.foldl (appendToBatch codec now store) b) event with
  | none => exact List.getLast?_concat
  | some existing => exact List.getLast?_concat

theorem getLast_appendAll (log : EventLog) (event : MemoryEvent) :
    (log.appendAll codec now (events ++ [event])).1.getLast? =
      some ((log.appendAll codec now events).2.appendEvent codec now event).1 := by
  rw [appendAll_concat]
  exact List.getLast?_concat

theorem results_appendEventsBatch (log : EventLog) (events : List MemoryEvent) :
    (log.appendEventsBatch codec now events).1 =
      (events.foldl (appendToBatch codec now log.store) ⟨[], [], fun _ => none, log.counters⟩).results := by
  rw [appendEventsBatch]
  split_ifs <;> rfl

def SameResults (codec : StorageCodec) (names : Set Bytes) (log : EventLog) : Prop :=
  ∀ now events, (∀ event ∈ events, event.stream ∈ names) → RoomFor log.counters events →
    (log.appendEventsBatch codec now events).1 = (log.appendAll codec now events).1

theorem SameResults.getLast (h : SameResults codec names log) (hstream : stream ∈ names)
    (hevents : ∀ other ∈ events ++ [event], other.stream = stream)
    (hroom : (log.counters.highest stream).toNat + (events ++ [event]).length < 2 ^ 64) :
    (existingInBatch codec log.store
        (events.foldl (appendToBatch codec now log.store) ⟨[], [], fun _ => none, log.counters⟩) event).getD
      ((events.foldl (appendToBatch codec now log.store) ⟨[], [], fun _ => none, log.counters⟩).counters.stampedEvent
        now event) =
        ((log.appendAll codec now events).2.appendEvent codec now event).1 := by
  have hroomFor : RoomFor log.counters (events ++ [event]) := by
    intro other
    by_cases hsame : other = stream
    · subst hsame
      have hle : (events ++ [event]).countP (fun event => event.stream = other) ≤ (events ++ [event]).length :=
        List.countP_le_length
      omega
    · have hzero : (events ++ [event]).countP (fun event => event.stream = other) = 0 := by
        rw [List.countP_eq_zero]
        intro e he
        rw [hevents e he, decide_eq_true_iff]
        exact Ne.symm hsame
      rw [hzero]
      exact (log.counters.highest other).toNat_lt
  have hresults := h now (events ++ [event]) (fun e he => hevents e he ▸ hstream) hroomFor
  have hlast := congrArg List.getLast? hresults
  rw [results_appendEventsBatch, getLast_batch, getLast_appendAll] at hlast
  exact Option.some.inj hlast

theorem appendEvent_again {first : MemoryEvent} (hnew : existingEvent codec log.store log.counters first = none)
    (hkey : event.idempotencyKey.isEmpty = false) (hsame : event.stream = first.stream)
    (hfound : (log.counters.advance (log.counters.stampedEvent now first)).idempotencyKeys
      (event.stream, event.idempotencyKey) = some (log.counters.stampedEvent now first).sequence) :
    ((log.after (log.appendEvent codec now first).2).appendEvent codec now event).1 =
      log.counters.stampedEvent now first := by
  have hexisting : existingEvent codec (log.after (log.appendEvent codec now first).2).store
      (log.after (log.appendEvent codec now first).2).counters event = some (log.counters.stampedEvent now first) := by
    have hstream : (log.counters.stampedEvent now first).stream = event.stream := hsame.symm
    rw [appendEvent_of_new hnew]
    simp [existingEvent, hkey, EventLog.after, hfound, hstream, EventStore.commit, EventStore.write, insertEvent,
      encodeEventMetadata]
  rw [appendEvent_of_existing hexisting]

theorem nextSequence_eq (h : (counters.highest stream).toNat + 1 = sequence.toNat) :
    counters.nextSequence stream = sequence := by
  rw [← UInt64.toNat_inj, toNat_nextSequence_eq, h]
  rw [h]
  exact sequence.toNat_lt

section

variable (h : SameResults codec names log) (hstream : stream ∈ names)
include h hstream

/-- Events of the stream up to the one before the sequence: where both ways of appending stand then, and what the next
two events get from each. -/
theorem SameResults.filled (habove : log.counters.highest stream < sequence) (hlast : sequence.toNat + 1 < 2 ^ 64) :
    ∃ (b : BatchAppend) (filled : EventLog), b.counters.idempotencyKeys = log.counters.idempotencyKeys ∧
      b.pendingIdempotency = (fun _ => none) ∧ b.counters.nextSequence stream = sequence ∧
      filled.counters.idempotencyKeys = log.counters.idempotencyKeys ∧ filled.counters.nextSequence stream = sequence ∧
      ∀ first event, first.stream = stream → event.stream = stream →
        (existingInBatch codec log.store (appendToBatch codec [] log.store b first) event).getD
            ((appendToBatch codec [] log.store b first).counters.stampedEvent [] event) =
          ((filled.after (filled.appendEvent codec [] first).2).appendEvent codec [] event).1 := by
  rw [UInt64.lt_iff_toNat_lt] at habove
  obtain ⟨n, hn⟩ : ∃ n, (log.counters.highest stream).toNat + n + 1 = sequence.toNat :=
    ⟨sequence.toNat - (log.counters.highest stream).toNat - 1, by omega⟩
  obtain ⟨hidem, hpending, hhighest⟩ :=
    @foldl_filler codec [] stream ⟨[], [], fun _ => none, log.counters⟩ n log.store (by
    change (log.counters.highest stream).toNat + n < 2 ^ 64
    omega)
  obtain ⟨hidem', hhighest'⟩ := @appendAll_filler codec [] stream n log (by omega)
  refine ⟨_, _, hidem, hpending, nextSequence_eq (by rw [hhighest]; exact hn), hidem', nextSequence_eq (by omega), ?_⟩
  intro first event hfirst hevent
  have hevents : ∀ other ∈ (List.replicate n (filler stream) ++ [first]) ++ [event], other.stream = stream := by
    intro other hother
    simp only [List.mem_append, List.mem_replicate, List.mem_singleton] at hother
    rcases hother with (⟨-, rfl⟩ | rfl) | rfl
    · rfl
    · exact hfirst
    · exact hevent
  have heq := @SameResults.getLast codec names log [] _ event stream h hstream hevents
    (by simp only [List.length_append, List.length_replicate, List.length_singleton]; omega)
  rw [appendAll_concat, List.foldl_append] at heq
  exact heq

theorem SameResults.free (hfresh : ∃ key, key ≠ [] ∧ log.counters.idempotencyKeys (stream, key) = none)
    (habove : log.counters.highest stream < sequence) (hlast : sequence.toNat + 1 < 2 ^ 64) :
    log.store.events.get (codec.makeEventKey stream sequence) = none := by
  by_contra hsome
  obtain ⟨old, hold⟩ := Option.ne_none_iff_exists'.mp hsome
  obtain ⟨key, hkey, hnew⟩ := hfresh
  obtain ⟨b, filled, hidem, hpending, hsequence, hidem', -, heq⟩ := h.filled hstream habove hlast
  let event : MemoryEvent := ⟨stream, [], 0 :: old.body, 0, [], key⟩
  have hempty : event.idempotencyKey.isEmpty = false := by simpa [event] using hkey
  -- the batch: the key points at the place of the old event
  have hbatch : existingInBatch codec log.store (appendToBatch codec [] log.store b event) event = some old := by
    have hnone : existingInBatch codec log.store b event = none := by
      simp [existingInBatch, hidem, event, hnew]
    rw [appendToBatch, hnone]
    simp only [existingInBatch, hempty, advance, stampedEvent, event, if_false,
      Function.update_self, Option.bind_some, hsequence, hold, Option.some_or, Bool.false_eq_true]
  -- the single appends: it points at the first of the two
  have hsingle : ((filled.after (filled.appendEvent codec [] event).2).appendEvent codec [] event).1.body =
    event.body := by
    have hnone : existingEvent codec filled.store filled.counters event = none := by
      simp [existingEvent, hidem', event, hnew]
    rw [appendEvent_again hnone hempty rfl (by simp [advance, stampedEvent, event, hkey])]
    rfl
  rw [← heq event event rfl rfl, hbatch] at hsingle
  exact List.cons_ne_self 0 old.body hsingle.symm

theorem SameResults.keys (hfresh : ∃ key, key ≠ [] ∧ log.counters.idempotencyKeys (stream, key) = none) {key : Bytes}
    (hkey : key ≠ []) (hrecorded : log.counters.idempotencyKeys (stream, key) = some sequence)
    (hlast : sequence.toNat + 1 < 2 ^ 64) : sequence ≤ log.counters.highest stream := by
  by_contra hnot
  have habove : log.counters.highest stream < sequence := UInt64.not_le.mp hnot
  have hfree := h.free hstream hfresh habove hlast
  obtain ⟨b, filled, hidem, hpending, -, hidem', hsequence, heq⟩ := h.filled hstream habove hlast
  let event : MemoryEvent := ⟨stream, [], [], 0, [], key⟩
  have hempty : event.idempotencyKey.isEmpty = false := by simpa [event] using hkey
  have hbatch : existingInBatch codec log.store (appendToBatch codec [] log.store b (filler stream)) event = none := by
    rw [appendToBatch]
    simp [existingInBatch, hidem, event, filler, advance, stampedEvent, hrecorded, hfree, hpending]
  have hsingle : ((filled.after (filled.appendEvent codec [] (filler stream)).2).appendEvent codec []
    event).1.idempotencyKey = [] := by
    have hnone := @existing_of_keyless codec (filler stream) rfl filled.store filled.counters
    rw [appendEvent_again hnone hempty rfl]
    · rfl
    · simp [advance, stampedEvent, event, filler, hidem', hrecorded, hsequence]
  rw [← heq (filler stream) event rfl rfl, hbatch] at hsingle
  exact hkey hsingle

end

end Necessity

theorem batch_append_is_sequential_iff (hkeys : StreamKeys codec names) (inMemory : Bool)
    (hfresh : ∀ stream ∈ names, ∃ key, key ≠ [] ∧ log.counters.idempotencyKeys (stream, key) = none) :
    ((∀ now events, (∀ event ∈ events, event.stream ∈ names) → RoomFor log.counters events →
        log.appendEventsBatchOn codec now inMemory none events =
          (.ok (log.appendEventsOn codec now inMemory events).1, (log.appendEventsOn codec now inMemory events).2)) ↔
      Ahead codec names log) ∧
    ∀ now events message, (log.appendEventsBatchOn codec now inMemory (some message) events).2 = log := by
  refine ⟨⟨?_, ?_⟩, ?_⟩
  · intro h
    have hsame : SameResults codec names log := by
      intro now events hstreams hroom
      have hresults := congrArg Prod.fst (h now events hstreams hroom)
      rw [appendEventsBatchOn_eq, appendEventsOn_eq] at hresults
      exact Except.ok.inj hresults
    constructor
    · intro stream hstream sequence habove hlast
      exact hsame.free hstream (hfresh stream hstream) habove hlast
    · intro stream hstream key hkey sequence hrecorded hlast
      exact hsame.keys hstream (hfresh stream hstream) hkey hrecorded hlast
  · intro hahead now events hstreams hroom
    obtain ⟨hresults, hafter⟩ := appendEventsBatch_eq now hkeys hahead hroom hstreams
    rw [appendEventsBatchOn_eq, appendEventsOn_eq, hresults, hafter]
  · intro now events message
    rw [appendEventsBatchOn]
    dsimp only
    split_ifs <;> rfl

theorem batch_append_to_an_empty_log :
    (∀ now events, RoomFor noCounters events →
      appendEventsBatchOn plainCodec now false none ⟨⟨.empty, .empty⟩, noCounters⟩ events =
        (.ok (appendEventsOn plainCodec now false ⟨⟨.empty, .empty⟩, noCounters⟩ events).1,
          (appendEventsOn plainCodec now false ⟨⟨.empty, .empty⟩, noCounters⟩ events).2)) ∧
      (appendEventsBatchOn plainCodec [] false (some "disk full") ⟨⟨.empty, .empty⟩, noCounters⟩
        [sampleEvent "a" 0 "x" "k"]).2 =
        ⟨⟨.empty, .empty⟩, noCounters⟩ := by
  obtain ⟨hiff, hfailed⟩ := @batch_append_is_sequential_iff plainCodec Set.univ ⟨⟨.empty, .empty⟩, noCounters⟩
    (streamKeys_rawCodec _ _) false fun _ _ => ⟨[1], List.cons_ne_nil _ _, rfl⟩
  refine ⟨fun now events hroom => hiff.mpr ⟨?_, ?_⟩ now events (fun _ _ => trivial) hroom, hfailed _ _ _⟩
  · intro stream _ sequence _ _
    rfl
  · intro stream _ key _ sequence hrecorded
    cases hrecorded

/-- After a first open that stopped half way, a repeated element of a batch is answered with an old event. -/
theorem batch_after_a_crash_answers_with_an_old_event :
    let crashed := ((openLog plainCodec legacyStore [bytesOf "a", bytesOf "b"]).commits.take 1).foldl commit legacyStore
    let log := EventLog.after ⟨crashed, noCounters⟩ (openLog plainCodec crashed [bytesOf "a"])
    let events := [sampleEvent "b" 0 "z" "n", sampleEvent "b" 0 "z" "n"]
    (log.appendEventsBatchOn plainCodec [] false none events).1.toOption =
        some [sampleEvent "b" 1 "z" "n", sampleEvent "b" 1 "y" "k"] ∧
      (log.appendEventsOn plainCodec [] false events).1 = [sampleEvent "b" 1 "z" "n", sampleEvent "b" 1 "z" "n"] := by
  decide +kernel

end Thingd.Engine
