import Thingd.Engine.EventRun
import Thingd.Replication.Service

namespace Thingd.Replication

open Engine EventStore EventLog SortedMap StoreCall EventCounters List

def Service.at (service : Service) (now : Bytes) : Service := { service with now := now }

def LeavesFeed : EventLog.Op → Prop
  | .append _ event => event.stream ≠ replicationStream
  | .appendBatch _ events => ∀ event ∈ events, event.stream ≠ replicationStream
  | .deleteLast _ => True
  | .deleteStream _ => True
  | .retain _ _ => True

def reopen (codec : StorageCodec) (store : EventStore) (streams : List Bytes) : EventLog :=
  EventLog.after ⟨store, noCounters⟩ (openLog codec store streams)

inductive FeedRun (service : Service) (names : Set Bytes) : List Value → EventLog → Prop
  | start : FeedRun service names [] emptyLog
  | record {history log} (now : Bytes) (change : Value) (objects : ObjectState) (h : FeedRun service names history log)
      (hroom : Room log.counters 1) :
      FeedRun service names (history ++ [change]) (((service.at now).recordChange change).last ⟨objects, log⟩).log
  | called {history log} (op : EventLog.Op) (h : FeedRun service names history log) (hfits : op.Fits names log)
      (hleaves : LeavesFeed op) : FeedRun service names history (log.after (op.effect service.codec log))
  | crashed {history log streams} (op : EventLog.Op) (n : ℕ) (h : FeedRun service names history log)
      (hfits : op.Fits names log) (hleaves : LeavesFeed op)
      (hstreams : streams.Perm
        (((op.effect service.codec log).commits.take n).foldl commit log.store).loadCounters.seqCounters.keys) :
      FeedRun service names history
        (reopen service.codec (((op.effect service.codec log).commits.take n).foldl commit log.store) streams)
  | reopened {history log streams} (h : FeedRun service names history log)
      (hstreams : streams.Perm log.store.loadCounters.seqCounters.keys) :
      FeedRun service names history (reopen service.codec log.store streams)

variable {service : Service} {names : Set Bytes} {history : List Value} {log : EventLog} {store : EventStore}

def savedCursor (codec : StorageCodec) (store : EventStore) : UInt64 :=
  (store.eventMeta.get (codec.makeEventMetadataKey replicationStream)).elim 0 EventMetadata.maxSequence

structure Holds (service : Service) (history : List Value) (store : EventStore) : Prop where
  saved : (savedCursor service.codec store).toNat = history.length
  bodies : ∀ event, store.Stored event → event.stream = replicationStream →
    0 < event.sequence.toNat ∧ ∃ change, history[event.sequence.toNat - 1]? = some change ∧
      event.body = service.format.print change

structure Feeds (service : Service) (names : Set Bytes) (history : List Value) (log : EventLog) : Prop where
  ready : ∃ ever, Ready service.codec names ever log
  holds : Holds service history log.store
  counter : ((log.counters.seqCounters.get replicationStream).getD 0).toNat = history.length

variable {stream : Bytes} {op : EventLog.Op}

section Writes

def Spares (codec : StorageCodec) (counter : UInt64) : EventWrite → Prop
  | .insertEvent _ event => event.stream ≠ replicationStream
  | .removeEvent _ => True
  | .insertMetadata key metadata => key = codec.makeEventMetadataKey replicationStream → metadata.maxSequence = counter
  | .removeMetadata key => key ≠ codec.makeEventMetadataKey replicationStream

variable {counter : UInt64}

theorem Holds.write {write : EventWrite} (h : Holds service history store) (hcounter : counter.toNat = history.length)
    (hspares : Spares service.codec counter write) : Holds service history (store.write write) := by
  cases write with
  | insertEvent key event =>
    refine ⟨h.saved, ?_⟩
    rintro other ⟨place, hplace⟩ hstream
    simp only [EventStore.write, get_insert] at hplace
    split_ifs at hplace
    · obtain rfl := Option.some.inj hplace
      exact absurd hstream hspares
    · exact h.bodies other ⟨place, hplace⟩ hstream
  | removeEvent key =>
    exact ⟨h.saved, fun other hother => h.bodies other ((shrinks_removeEvent key).stored hother)⟩
  | insertMetadata key metadata =>
    refine ⟨?_, h.bodies⟩
    by_cases hkey : service.codec.makeEventMetadataKey replicationStream = key
    · simp [savedCursor, EventStore.write, hkey, hspares hkey.symm, hcounter]
    · simpa [savedCursor, EventStore.write, hkey] using h.saved
  | removeMetadata key =>
    refine ⟨?_, h.bodies⟩
    have hkey : service.codec.makeEventMetadataKey replicationStream ≠ key := hspares.symm
    simpa [savedCursor, EventStore.write, hkey] using h.saved

theorem Holds.commits {commits : List (List EventWrite)} (h : Holds service history store)
    (hcounter : counter.toNat = history.length)
    (hspares : ∀ batch ∈ commits, ∀ write ∈ batch, Spares service.codec counter write) :
    Holds service history (commits.foldl commit store) := by
  have hbatch (batch : List EventWrite) (hall : ∀ write ∈ batch, Spares service.codec counter write)
    (store : EventStore)
      (hstore : Holds service history store) : Holds service history (store.commit batch) := by
    induction batch generalizing store with
    | nil => exact hstore
    | cons write batch ih =>
      obtain ⟨hfirst, hrest⟩ := forall_mem_cons.mp hall
      exact ih hrest _ (hstore.write hcounter hfirst)
  induction commits generalizing store with
  | nil => exact h
  | cons batch commits ih =>
    obtain ⟨hfirst, hrest⟩ := forall_mem_cons.mp hspares
    exact ih (hbatch batch hfirst store h) hrest

theorem spares_encodeEventMetadata (hkeys : StreamKeys service.codec names) (hname : replicationStream ∈ names)
    {counters : EventCounters} {highest : Option UInt64}
    (hcounter : counters.seqCounters.get replicationStream = highest) (hstream : stream ∈ names) :
    Spares service.codec (highest.getD 0) (counters.encodeEventMetadata service.codec stream) := by
  intro hkey
  rw [hkeys.metadata hstream hname hkey, hcounter]

end Writes

variable {ever : Set (Bytes × UInt64)}

section Calls

variable {codec : StorageCodec} {counters : EventCounters}

structure Effect (codec : StorageCodec) (log : EventLog) (effect : EventEffect) : Prop where
  counter : effect.counters.seqCounters.get replicationStream = log.counters.seqCounters.get replicationStream
  spares : ∀ batch ∈ effect.commits, ∀ write ∈ batch,
    Spares codec ((log.counters.seqCounters.get replicationStream).getD 0) write

theorem effect_none : Effect codec log ⟨[], log.counters⟩ := ⟨rfl, forall_mem_nil _⟩

variable {event : MemoryEvent} {now : Bytes} {events : List MemoryEvent}

theorem get_advance (h : event.stream ≠ replicationStream) :
    (counters.advance event).seqCounters.get replicationStream = counters.seqCounters.get replicationStream := by
  simp [advance, h.symm]

theorem effect_append (hkeys : StreamKeys service.codec names) (hname : replicationStream ∈ names)
    (hstream : event.stream ∈ names) (hother : event.stream ≠ replicationStream) :
    Effect service.codec log (log.appendEvent service.codec now event).2 := by
  cases hfound : existingEvent service.codec log.store log.counters event with
  | some existing =>
    rw [appendEvent_of_existing hfound]
    exact effect_none
  | none =>
    have hcounter : (log.counters.advance (log.counters.stampedEvent now event)).seqCounters.get replicationStream =
        log.counters.seqCounters.get replicationStream := get_advance hother
    rw [appendEvent_of_new hfound]
    refine ⟨hcounter, ?_⟩
    simp only [forall_eq, mem_cons, not_mem_nil, or_false, forall_eq_or_imp]
    exact ⟨hother, spares_encodeEventMetadata hkeys hname hcounter hstream⟩

theorem appendToBatch_foldl (codec : StorageCodec) (now : Bytes) (store : EventStore) (batch : BatchAppend)
    (h : ∀ event ∈ events, event.stream ∈ names ∧ event.stream ≠ replicationStream)
    (hpending : ∀ event ∈ batch.pending, event.stream ∈ names ∧ event.stream ≠ replicationStream) :
    (events.foldl (appendToBatch codec now store) batch).counters.seqCounters.get replicationStream =
        batch.counters.seqCounters.get replicationStream ∧
      ∀ event ∈ (events.foldl (appendToBatch codec now store) batch).pending,
        event.stream ∈ names ∧ event.stream ≠ replicationStream := by
  induction events generalizing batch with
  | nil => exact ⟨rfl, hpending⟩
  | cons event events ih =>
    obtain ⟨hfirst, hrest⟩ := forall_mem_cons.mp h
    rw [foldl_cons]
    cases hfound : existingInBatch codec store batch event with
    | some existing =>
      have hstep : appendToBatch codec now store batch event =
        { batch with results := batch.results ++ [existing] } := by
        simp only [appendToBatch, hfound]
      rw [hstep]
      exact ih _ hrest hpending
    | none =>
      have hcounter : (appendToBatch codec now store batch event).counters.seqCounters.get replicationStream =
          batch.counters.seqCounters.get replicationStream := by
        simp only [appendToBatch, hfound]
        exact get_advance hfirst.2
      have hnext : ∀ other ∈ (appendToBatch codec now store batch event).pending,
          other.stream ∈ names ∧ other.stream ≠ replicationStream := by
        simp only [appendToBatch, hfound, mem_append, mem_singleton]
        rintro other (hother | rfl)
        · exact hpending other hother
        · exact hfirst
      rw [← hcounter]
      exact ih _ hrest hnext

theorem effect_appendBatch (hkeys : StreamKeys service.codec names) (hname : replicationStream ∈ names)
    (h : ∀ event ∈ events, event.stream ∈ names ∧ event.stream ≠ replicationStream) :
    Effect service.codec log (log.appendEventsBatch service.codec now events).2 := by
  obtain ⟨hcounter, hpending⟩ := appendToBatch_foldl service.codec now log.store
    ⟨[], [], fun _ => none, log.counters⟩ h (forall_mem_nil _)
  rw [appendEventsBatch]
  split_ifs
  · exact effect_none
  · refine ⟨hcounter, ?_⟩
    simp only [mem_singleton, forall_eq, mem_append, mem_map]
    rintro write (⟨event, hevent, rfl⟩ | ⟨stream, hstream, rfl⟩)
    · exact (hpending event hevent).2
    · rw [mem_insertionSort, mem_dedup] at hstream
      obtain ⟨event, hevent, rfl⟩ := mem_map.mp hstream
      exact spares_encodeEventMetadata hkeys hname hcounter (hpending event hevent).1

theorem isProtectedStream_replicationStream : isProtectedStream replicationStream = true := by decide +kernel

theorem effect_deleteLast (hkeys : StreamKeys service.codec names) (hname : replicationStream ∈ names)
    (h : Ready service.codec names ever log) (stream : Bytes) :
    Effect service.codec log ((EventLog.Op.deleteLast stream).effect service.codec log) := by
  rw [Op.effect, deleteLastEvent]
  split_ifs with hprotected
  · exact effect_none
  · cases hlast : log.lastEvent stream with
    | none => exact effect_none
    | some entry =>
      obtain ⟨hget, hstream⟩ := lastEvent_spec hlast
      have hmem : stream ∈ names := hstream ▸ h.settled.placed.stream_mem ⟨entry.1, hget⟩
      refine ⟨rfl, ?_⟩
      simp only [mem_cons, not_mem_nil, or_false, forall_eq_or_imp, forall_eq]
      exact ⟨trivial, spares_encodeEventMetadata hkeys hname rfl hmem⟩

theorem effect_deleteStream (hkeys : StreamKeys service.codec names) (hname : replicationStream ∈ names)
    (hstream : stream ∈ names) :
    Effect service.codec log ((EventLog.Op.deleteStream stream).effect service.codec log) := by
  rw [Op.effect, EventLog.deleteStream]
  split_ifs with hprotected
  · exact effect_none
  · have hne : stream ≠ replicationStream := fun heq => hprotected (heq ▸ isProtectedStream_replicationStream)
    refine ⟨?_, ?_⟩
    · simp [forgetStream, hne.symm]
    · simp only [mem_append, mem_map, mem_singleton]
      rintro batch (⟨entry, -, rfl⟩ | rfl)
      · simp [Spares]
      · simpa [Spares] using fun heq => hne (hkeys.metadata hstream hname heq)

theorem seqCounters_forgetEvents (deletions : List (Bytes × MemoryEvent)) (counters : EventCounters) :
    (deletions.foldl (fun counters entry => counters.forgetEvent entry.2) counters).seqCounters =
      counters.seqCounters := by
  induction deletions generalizing counters with
  | nil => rfl
  | cons entry deletions ih => exact ih _

section

variable (hkeys : StreamKeys service.codec names) (hname : replicationStream ∈ names)
  (h : Ready service.codec names ever log)
include hkeys hname h

theorem effect_retain {options : RetentionOptions} {affectedStreams : List Bytes}
    (hfits : (EventLog.Op.retain options affectedStreams).Fits names log) :
    Effect service.codec log (log.retain service.codec options affectedStreams) := by
  refine ⟨congrArg (SortedMap.get · replicationStream) (seqCounters_forgetEvents _ _), ?_⟩
  intro batch hbatch write hwrite
  rcases mem_append.mp hbatch with hbatch | hbatch
  · split_ifs at hbatch
    · cases hbatch
    · rw [mem_singleton.mp hbatch] at hwrite
      obtain ⟨entry, -, rfl⟩ := mem_map.mp hwrite
      trivial
  · obtain ⟨stream, hstream, rfl⟩ := mem_map.mp hbatch
    rw [mem_singleton.mp hwrite]
    obtain ⟨entry, hentry, rfl⟩ := mem_map.mp (mem_dedup.mp (hfits.mem_iff.mp hstream))
    have hmem := h.settled.placed.stream_mem ⟨entry.1, get_eq_some_iff.mpr (mem_of_mem_filter hentry)⟩
    exact spares_encodeEventMetadata hkeys hname
      (congrArg (SortedMap.get · replicationStream) (seqCounters_forgetEvents _ _)) hmem

theorem effect_of_leavesFeed (hfits : op.Fits names log) (hleaves : LeavesFeed op) :
    Effect service.codec log (op.effect service.codec log) := by
  cases op with
  | append now event => exact effect_append hkeys hname hfits.1 hleaves
  | appendBatch now events =>
    exact effect_appendBatch hkeys hname fun event hevent => ⟨hfits.1 event hevent, hleaves event hevent⟩
  | deleteLast stream => exact effect_deleteLast hkeys hname h stream
  | deleteStream stream => exact effect_deleteStream hkeys hname hfits
  | retain options affectedStreams => exact effect_retain hkeys hname h hfits

end

end Calls

section Runs

theorem last_appendEvent (engine : StoreEngine) (event : MemoryEvent) (store : ThingStore) :
    (engine.appendEvent event).last store =
      { store with log := store.log.after (store.log.appendEvent engine.codec engine.now event).2 } := by
  cases hfound : existingEvent engine.codec store.log.store store.log.counters event with
  | some existing =>
    have hcommits : (engine.appendEvent event).commits store = [] := by
      simp [StoreCall.commits, StoreEngine.appendEvent, appendEvent_of_existing hfound]
    rw [last_of_commits_eq_nil hcommits, appendEvent_of_existing hfound]
    rfl
  | none =>
    simp only [last, StoreCall.commits, StoreEngine.appendEvent, appendEvent_of_new hfound]
    rfl

theorem last_recordChange (service : Service) (hrole : service.config.role = .source) (change : Value)
    (store : ThingStore) :
    (service.recordChange change).last store = { store with
      log := store.log.after (store.log.appendEvent service.codec service.now (service.changeEvent change)).2 } := by
  have hok : (service.appendEvent (service.changeEvent change)).result store =
      .ok (store.log.appendEvent service.codec service.now (service.changeEvent change)).1 := rfl
  rw [Service.recordChange, if_neg (not_not.mpr hrole), last_bind_of_ok hok, last_pure, last_appendEvent]

section

variable (hkeys : StreamKeys service.codec names) (hname : replicationStream ∈ names)
include hkeys hname

theorem Feeds.record (h : Feeds service names history log) (hroom : Room log.counters 1) (now : Bytes)
    (change : Value) :
    Feeds service names (history ++ [change])
      (log.after (log.appendEvent service.codec now (service.changeEvent change)).2) := by
  obtain ⟨ever, hready⟩ := h.ready
  have hnone : existingEvent service.codec log.store log.counters (service.changeEvent change) = none := by
    simp [existingEvent, Service.changeEvent, newEvent]
  have hnext : Ready service.codec names _
    (log.after (log.appendEvent service.codec now (service.changeEvent change)).2) :=
    hready.append hkeys hname hroom hnone
  have hsequence : (log.counters.nextSequence replicationStream).toNat = history.length + 1 := by
    rw [toNat_nextSequence hroom, h.counter]
  rw [appendEvent_of_new hnone] at hnext ⊢
  refine ⟨⟨_, hnext⟩, ⟨?_, ?_⟩, ?_⟩
  · simpa [savedCursor, EventLog.after, EventStore.commit, EventStore.write, encodeEventMetadata,
      advance, stampedEvent, Service.changeEvent, newEvent]
      using hsequence
  · intro event hstored hstream
    rcases stored_insertEvent hstored with rfl | hold
    · have hlast : (log.counters.stampedEvent now (service.changeEvent change)).sequence.toNat = history.length + 1 :=
        hsequence
      refine ⟨by omega, change, ?_, rfl⟩
      rw [hlast]
      simp
    · obtain ⟨hpos, old, hold, hbody⟩ := h.holds.bodies event hold hstream
      refine ⟨hpos, old, ?_, hbody⟩
      rw [List.getElem?_append_left (List.getElem?_eq_some_iff.mp hold).1, hold]
  · simpa [EventLog.after, advance, stampedEvent, Service.changeEvent, newEvent] using hsequence

theorem Feeds.called (h : Feeds service names history log) (hfits : op.Fits names log) (hleaves : LeavesFeed op) :
    Feeds service names history (log.after (op.effect service.codec log)) := by
  obtain ⟨ever, hready⟩ := h.ready
  obtain ⟨next, hsafe⟩ := op_safe hkeys hready hfits
  have heffect := effect_of_leavesFeed hkeys hname hready hfits hleaves
  refine ⟨⟨_, hsafe.called⟩, h.holds.commits h.counter heffect.spares, ?_⟩
  rw [EventLog.after, heffect.counter]
  exact h.counter

theorem feeds_reopen (hsettled : Settled service.codec names ever store) (h : Holds service history store)
    {streams : List Bytes} (hstreams : streams.Perm store.loadCounters.seqCounters.keys) :
    Feeds service names history (reopen service.codec store streams) := by
  have hready := openLog_ready hkeys (Or.inl hsettled) hstreams
  have hcounter : ((store.loadCounters.seqCounters.get replicationStream).getD 0).toNat = history.length := by
    rw [hsettled.get_loadCounters hkeys hname, ← h.saved, savedCursor]
    cases store.eventMeta.get (service.codec.makeEventMetadataKey replicationStream) <;> rfl
  have hspares : ∀ batch ∈ (openLog service.codec store streams).commits, ∀ write ∈ batch,
      Spares service.codec ((store.loadCounters.seqCounters.get replicationStream).getD 0) write := by
    rw [openLog]
    split_ifs with hbare
    · intro batch hbatch
      obtain ⟨stream, hstream, -⟩ := mem_map.mp hbatch
      have hnone : store.loadCounters.seqCounters.keys = [] := by
        rw [loadCounters, if_pos hbare, hsettled.no_events hbare]
        rfl
      rw [hnone] at hstreams
      rw [hstreams.eq_nil] at hstream
      cases hstream
    · exact forall_mem_nil _
  exact ⟨⟨ever, hready⟩, h.commits hcounter hspares, hcounter⟩

end

theorem not_stored_emptyLog (event : MemoryEvent) : ¬emptyLog.store.Stored event := by
  rintro ⟨key, hkey⟩
  cases (eq_empty_iff.mp rfl key).symm.trans hkey

theorem ready_emptyLog (codec : StorageCodec) (names : Set Bytes) : Ready codec names ∅ emptyLog := by
  have hbare (key : Bytes) (metadata : EventMetadata) : emptyLog.store.eventMeta.get key ≠ some metadata := by
    intro hkey
    cases (eq_empty_iff.mp rfl key).symm.trans hkey
  refine ⟨⟨⟨?_, ?_, ?_, nofun⟩, nofun, ?_, ?_⟩, nofun, ?_, nofun⟩
  · exact fun key event hkey => absurd ⟨key, hkey⟩ (not_stored_emptyLog event)
  · exact fun key metadata hkey => absurd hkey (hbare key metadata)
  · exact fun event hstored => absurd hstored (not_stored_emptyLog event)
  · exact fun event hstored => absurd hstored (not_stored_emptyLog event)
  · exact fun key metadata hkey => absurd hkey (hbare key metadata)
  · exact fun event hstored => absurd hstored (not_stored_emptyLog event)

theorem feeds_start : Feeds service names [] emptyLog :=
  ⟨⟨∅, ready_emptyLog _ _⟩, ⟨rfl, fun event hstored => absurd hstored (not_stored_emptyLog event)⟩, rfl⟩

theorem FeedRun.feeds (hkeys : StreamKeys service.codec names) (hname : replicationStream ∈ names)
    (hrole : service.config.role = .source) (h : FeedRun service names history log) :
    Feeds service names history log := by
  induction h with
  | start => exact feeds_start
  | record now change objects h hroom ih =>
    rw [last_recordChange (service.at now) hrole]
    exact ih.record hkeys hname hroom now change
  | called op h hfits hleaves ih => exact ih.called hkeys hname hfits hleaves
  | crashed op n h hfits hleaves hstreams ih =>
    obtain ⟨ever, hready⟩ := ih.ready
    obtain ⟨next, hsafe⟩ := op_safe hkeys hready hfits
    have heffect := effect_of_leavesFeed hkeys hname hready hfits hleaves
    apply feeds_reopen hkeys hname (hsafe.crashed n) _ hstreams
    exact ih.holds.commits ih.counter fun batch hbatch => heffect.spares batch (mem_of_mem_take hbatch)
  | reopened h hstreams ih =>
    obtain ⟨ever, hready⟩ := ih.ready
    exact feeds_reopen hkeys hname hready.settled ih.holds hstreams

end Runs

end Thingd.Replication
