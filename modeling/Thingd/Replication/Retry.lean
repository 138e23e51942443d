import Thingd.Replication.Checkpoint
import Thingd.Replication.Feed
import Thingd.Replication.Ownership

namespace Thingd.Replication

open Engine StoreCall Service List

def ThingStore.reopen (codec : StorageCodec) (json : JsonReader) (streams : List Bytes) (store : ThingStore) :
    ThingStore :=
  ⟨store.objects.refreshUniqueIndexCache json, Replication.reopen codec store.log.store streams⟩

inductive Resumed (codec : StorageCodec) (store : ThingStore) : ThingStore → Prop
  | running : Resumed codec store store
  | reopened {streams} (json : JsonReader) (h : streams.Perm store.log.store.loadCounters.seqCounters.keys) :
      Resumed codec store (store.reopen codec json streams)

inductive ReplicaRun (codec : StorageCodec) (names : Set Bytes) : ThingStore → Prop
  | start : ReplicaRun codec names emptyStore
  | applied {store} (service : Service) (changes : List ReplicationChange) (hcodec : service.codec = codec)
      (hnames : ∀ event ∈ service.allEvents changes, event.stream ∈ names) (h : ReplicaRun codec names store)
      (hok : ((service.apply changes).result store).isOk = true) :
        ReplicaRun codec names ((service.apply changes).last store)
  | resumed {store next} (h : ReplicaRun codec names store) (hnext : Resumed codec store next) :
    ReplicaRun codec names next

structure Sound (codec : StorageCodec) (names : Set Bytes) (store : ThingStore) : Prop where
  plain : Plain store
  saved : store.log.Saved codec names

variable {codec : StorageCodec} {names : Set Bytes} {store next resumed : ThingStore} {service : Service}
  {sourceId : Bytes} {items : List ReplicationChange} {item : ReplicationChange} {later last : Bytes} {k : ℕ}

section Runs

theorem Plain.reopen (json : JsonReader) (streams : List Bytes) (h : Plain store) :
    Plain (store.reopen codec json streams) ∧ ∀ place,
      (store.reopen codec json streams).get place = store.get place := by
  have hobjects : (store.reopen codec json streams).objects = store.objects := by
    rw [ThingStore.reopen, h]
    rfl
  refine ⟨?_, fun place => ?_⟩
  · rw [Plain, hobjects]
    exact h
  · rw [ThingStore.get, hobjects]

theorem Resumed.spec (hkeys : StreamKeys codec names) (h : Sound codec names store) (hnext : Resumed codec store next) :
    Sound codec names next ∧ (∀ place, next.get place = store.get place) ∧ store.log.Alike names next.log := by
  cases hnext with
  | running => exact ⟨h, fun _ => rfl, .refl _⟩
  | @reopened streams json hstreams =>
    have hreopen : Plain (store.reopen codec json streams) ∧ _ := h.plain.reopen json streams
    obtain ⟨hplain, hget⟩ := hreopen
    obtain ⟨halike, hsaved⟩ := h.saved.reopen hkeys hstreams
    exact ⟨⟨hplain, hsaved⟩, hget, halike⟩

theorem sound_emptyStore : Sound codec names emptyStore := by
  have hget (stream : Bytes) : emptyLog.counters.seqCounters.get stream = none := SortedMap.eq_empty_iff.mp rfl stream
  refine ⟨rfl, ⟨∅, (ready_emptyLog codec names).settled.placed⟩, fun stream _ => ?_, fun _ _ _ _ => rfl, fun _ => rfl⟩
  rw [show emptyStore.log.counters.seqCounters.get stream = none from hget stream]
  exact SortedMap.eq_empty_iff.mp rfl _

theorem keeps_sound_performItem (hkeys : StreamKeys service.codec names)
    (hnames : ∀ event ∈ service.eventsOf item, event.stream ∈ names) :
    Keeps (Sound service.codec names) (service.performItem item) := by
  intro store hstore after hafter
  refine ⟨keeps_plain_performItem store hstore.plain after hafter, ?_⟩
  rw [log_of_mem_commits hstore.plain hafter]
  exact hstore.saved.replayed hkeys hnames

theorem keeps_sound_writeAppliedCursor (sourceId : Bytes) (cursor : UInt64) :
    Keeps (Sound service.codec names) (service.writeAppliedCursor sourceId cursor) := by
  intro store hstore after hafter
  rw [StoreCall.commits, writeAppliedCursor, putRecord_of_accepts (hstore.plain.accepts _),
    mem_singleton] at hafter
  rw [hafter]
  exact ⟨hstore.plain.placed _, hstore.saved⟩

theorem keeps_sound_apply (hkeys : StreamKeys service.codec names)
    (hnames : ∀ event ∈ service.allEvents items, event.stream ∈ names) :
    Keeps (Sound service.codec names) (service.apply items) := by
  apply keeps_apply
  · intro item hitem
    apply keeps_sound_performItem hkeys
    exact fun event hevent => hnames event (mem_flatMap.mpr ⟨item, hitem, hevent⟩)
  · exact keeps_sound_writeAppliedCursor

theorem ReplicaRun.sound (hkeys : StreamKeys codec names) (h : ReplicaRun codec names store) :
    Sound codec names store := by
  induction h with
  | start => exact sound_emptyStore
  | applied service changes hcodec hnames h hok ih =>
    subst hcodec
    exact (keeps_sound_apply hkeys hnames).last ih
  | resumed h hnext ih => exact (hnext.spec hkeys ih).1

end Runs

variable {rest done : List ReplicationChange} {n : ℕ} {part : Writes} {stopped : ThingStore}

section Cuts

inductive Part (service : Service) : List ReplicationChange → ℕ → Writes → Prop
  | whole (rest : List ReplicationChange) : Part service rest 0 []
  | put {item : ReplicationChange} {n : ℕ} {key : ObjectKey} (rest : List ReplicationChange)
    (haction : service.action item = .ok (.upsert key))
      (hn : n = 1 ∨ n = 2) : Part service (item :: rest) n [(service.keyOf key, some (service.upserted item key))]
  | removal {item : ReplicationChange} {key : ObjectKey} (rest : List ReplicationChange)
    (haction : service.action item = .ok (.delete key)) :
      Part service (item :: rest) 1 [(service.keyOf key, none)]

structure Halfway (service : Service) (store : ThingStore) (done rest : List ReplicationChange) (n : ℕ) (part : Writes)
    (stopped : ThingStore) : Prop where
  stage : Part service rest n part
  present : ∀ place, (stopped.get place).isSome = occupied (service.allWrites done ++ part) store place
  log : stopped.log = store.log.replayed service.codec service.now (service.allEvents done)

theorem halfway_self (rest : List ReplicationChange) : Halfway service store [] rest 0 [] store :=
  ⟨.whole rest, fun _ => rfl, rfl⟩

theorem Halfway.cons (hplain : Plain store) (hfirst : (service.performItem item).result store = .ok ())
    (h : Halfway service ((service.performItem item).last store) done rest n part stopped) :
    Halfway service store (item :: done) rest n part stopped := by
  have hoccupied (place : Bytes) :
      (((service.performItem item).last store).get place).isSome = occupied (service.writesOf item) store place :=
    (verdict_performItem hplain hfirst place).isSome_eq
  refine ⟨h.stage, fun place => ?_, ?_⟩
  · rw [h.present place, allWrites_cons, append_assoc, occupied_append hoccupied]
  · rw [h.log, log_performItem hplain, ← EventLog.replayed_append]
    rfl

theorem halfway_performItem (hplain : Plain store) (rest : List ReplicationChange)
    (hfirst : (service.performItem item).result store = .ok ())
    (hk : k < ((service.performItem item).commits store).length) :
    ∃ part, Halfway service store [] (item :: rest) k part ((service.performItem item).cut k store) := by
  obtain ⟨action, haction, hfree⟩ := (result_performItem_eq_ok hplain).mp hfirst
  rw [performItem_of_action haction] at hk ⊢
  by_cases hzero : k = 0
  · subst hzero
    exact ⟨[], halfway_self _⟩
  cases action with
  | ignore => exact absurd hk (Nat.not_lt_zero _)
  | append event =>
    have hresult : (service.appendEvent event).result store =
      .ok (store.log.appendEvent service.codec service.now event).1 := rfl
    rw [perform, commits_bind_of_ok hresult, commits_pure, append_nil, StoreCall.commits,
      StoreEngine.appendEvent] at hk
    dsimp only at hk
    split_ifs at hk
    · exact absurd hk (Nat.not_lt_zero _)
    · rw [length_singleton] at hk
      omega
  | delete key =>
    have hrun := perform_delete_run service item hplain key
    rw [StoreCall.commits, hrun] at hk
    obtain rfl : k = 1 := by
      simp only [length_cons, length_nil] at hk
      omega
    have hcut : (service.perform item (.delete key)).cut 1 store = service.removed store key := by
      rw [StoreCall.cut, StoreCall.commits]
      rfl
    rw [hcut]
    refine ⟨_, .removal rest haction, fun place => ?_, rfl⟩
    exact (verdict_removed _ store key place).isSome_eq
  | upsert key =>
    have hrun := perform_upsert_run hplain hfree
    rw [StoreCall.commits, hrun] at hk
    simp only [length_cons, length_nil] at hk
    obtain rfl | rfl : k = 1 ∨ k = 2 := by omega
    · have hcut : (service.perform item (.upsert key)).cut 1 store =
        service.placed store (service.upserted item key) := by
        rw [StoreCall.cut, StoreCall.commits, hrun]
        rfl
      rw [hcut]
      have hkey : service.keyOf (service.upserted item key).key = service.keyOf key := rfl
      refine ⟨_, .put rest haction (Or.inl rfl), fun place => ?_, rfl⟩
      rw [StoreEngine.placed_get, occupied, allWrites, flatMap_nil, nil_append, lastWrite_singleton,
        hkey]
      split_ifs
      · rfl
      · rfl
    · have hcut : (service.perform item (.upsert key)).cut 2 store = service.objectWritten item key store := by
        rw [StoreCall.cut, StoreCall.commits, hrun]
        rfl
      rw [hcut]
      refine ⟨_, .put rest haction (Or.inr rfl), fun place => ?_, rfl⟩
      exact (verdict_restored _ store (service.upserted item key) place).isSome_eq

theorem halfway_applyEach (hplain : Plain store) (hok : (service.applyEach items).result store = .ok ())
    (hk : k ≤ ((service.applyEach items).commits store).length) :
    ∃ done rest n part, items = done ++ rest ∧ k = ((service.applyEach done).commits store).length + n ∧
      Halfway service store done rest n part ((service.applyEach items).cut k store) := by
  induction items generalizing store k with
  | nil =>
    have hzero : k = 0 := Nat.le_zero.mp hk
    subst hzero
    exact ⟨[], [], 0, [], rfl, rfl, halfway_self _⟩
  | cons item items ih =>
    obtain ⟨⟨⟩, hfirst, hrest⟩ := result_bind_eq_ok.mp hok
    by_cases hwithin : k < ((service.performItem item).commits store).length
    · obtain ⟨part, hhalfway⟩ := halfway_performItem hplain items hfirst hwithin
      refine ⟨[], item :: items, k, part, rfl, (Nat.zero_add k).symm, ?_⟩
      rw [applyEach, cut_bind_of_le hfirst hwithin.le]
      exact hhalfway
    · obtain ⟨more, rfl⟩ := Nat.exists_eq_add_of_le (Nat.not_lt.mp hwithin)
      rw [applyEach, commits_bind_of_ok hfirst, length_append] at hk
      have hnext : Plain ((service.performItem item).last store) := keeps_plain_performItem.last hplain
      obtain ⟨done, rest, n, part, rfl, rfl, hhalfway⟩ := ih hnext hrest (Nat.le_of_add_le_add_left hk)
      refine ⟨item :: done, rest, n, part, rfl, ?_, ?_⟩
      · rw [applyEach, commits_bind_of_ok hfirst, length_append, Nat.add_assoc]
      · rw [applyEach, cut_bind_of_ge _ hfirst]
        exact hhalfway.cons hplain hfirst

end Cuts

section Torn

/-- The series is stopped between the first commit of an upsert and its provenance record, the replica has no such
record from before, and no earlier change of the series is about the object or the record. -/
def Torn (service : Service) (items : List ReplicationChange) (store : ThingStore) (k : ℕ) : Prop :=
  ∃ done item rest key, items = done ++ item :: rest ∧ service.action item = .ok (.upsert key) ∧
    store.get (service.provenanceKey item key) = none ∧
    (∀ write ∈ service.allWrites done, service.keyOf key ≠ write.1 ∧ service.provenanceKey item key ≠ write.1) ∧
    (k = ((service.applyEach done).commits store).length + 1 ∨ k = ((service.applyEach done).commits store).length + 2)

variable {key : ObjectKey} {writes more : Writes} {place : Bytes} {value : Option MemoryObject}

theorem mem_of_lastWrite (h : lastWrite writes place = some value) : (place, value) ∈ writes := by
  obtain ⟨write, hlast, rfl⟩ := Option.map_eq_some_iff.mp h
  have hmem := mem_filter.mp (mem_of_mem_getLast? hlast)
  have hplace : write.1 = place := by simpa using hmem.2
  exact hplace ▸ hmem.1

theorem occupied_eq_false (h : ∀ value, (place, value) ∈ writes → value.isSome = true)
    (hfree : occupied writes store place = false) : lastWrite writes place = none ∧ store.get place = none := by
  cases hlast : lastWrite writes place with
  | some value =>
    have hsome := h value (mem_of_lastWrite hlast)
    simp [occupied, hlast, hsome] at hfree
  | none =>
    rw [occupied, hlast] at hfree
    exact ⟨rfl, by simpa using hfree⟩

theorem isSome_of_provenance (hsystem : SystemKeys service.codec) {id : Bytes}
    (h : (service.codec.makeObjectKey replicationProvenanceCollection id, value) ∈ service.allWrites items) :
    value.isSome = true := by
  rcases place_of_mem_allWrites h with ⟨key, hkey, hplace, -⟩ | ⟨collection, other, -, -, hsome⟩
  · exact absurd hplace.symm (hsystem _ _ _ _ hkey isSystem_replicationProvenanceCollection)
  · exact hsome

theorem lastWrite_part_provenance (hsystem : SystemKeys service.codec) (h : Part service rest n part) (id : Bytes) :
    lastWrite part (service.codec.makeObjectKey replicationProvenanceCollection id) = none := by
  have hne {key : ObjectKey} (hkey : isSystem key.collection = false) :
      service.codec.makeObjectKey replicationProvenanceCollection id ≠ service.keyOf key :=
    (hsystem _ _ _ _ hkey isSystem_replicationProvenanceCollection).symm
  cases h with
  | whole => rfl
  | put rest haction hn => rw [lastWrite_singleton, if_neg (hne (isSystem_target (Or.inl haction)))]
  | removal rest haction => rw [lastWrite_singleton, if_neg (hne (isSystem_target (Or.inr haction)))]

theorem mem_allWrites_of_upsert (hitem : item ∈ items) (haction : service.action item = .ok (.upsert key)) :
    (service.keyOf key, some (service.upserted item key)) ∈ service.allWrites items ∧
      (service.provenanceKey item key, some (service.provenanceRecord item key)) ∈ service.allWrites items := by
  have hwrites : service.writesOf item = service.writes item (.upsert key) := by simp only [writesOf, haction]
  refine ⟨mem_flatMap.mpr ⟨item, hitem, ?_⟩, mem_flatMap.mpr ⟨item, hitem, ?_⟩⟩
  · rw [hwrites]
    exact mem_cons_self
  · rw [hwrites]
    exact mem_cons_of_mem _ mem_cons_self

theorem clear_of_halfway (hsystem : SystemKeys service.codec) {before after : List ReplicationChange}
    (h : Halfway service store done rest n part stopped) (hsplit : before ++ item :: after = done ++ rest)
    (haction : service.action item = .ok (.upsert key))
    (hclear : service.Clear item (service.allWrites before) store (.upsert key))
    (hnot : ¬Torn service (done ++ rest) store (((service.applyEach done).commits store).length + n)) :
    service.Clear item (service.allWrites before) stopped (.upsert key) := by
  intro hobject
  by_contra hprovenance
  rw [Bool.not_eq_true] at hprovenance
  obtain ⟨hbefore, hnone⟩ := occupied_eq_false (fun value => isSome_of_provenance hsystem) hprovenance
  -- nothing before the cut has written the provenance record
  have hstopped : occupied (service.allWrites done ++ part) store (service.provenanceKey item key) = false := by
    rw [← h.present, hnone]
    rfl
  have hdone : occupied (service.allWrites done) store (service.provenanceKey item key) = false := by
    rw [occupied, lastWrite_append, lastWrite_part_provenance hsystem h.stage] at hstopped
    exact hstopped
  obtain ⟨hwritten, hstore⟩ := occupied_eq_false (fun value => isSome_of_provenance hsystem) hdone
  rw [lastWrite_eq_none] at hwritten
  have hfree : occupied (service.allWrites before) store (service.keyOf key) = false := by
    have hunknown : occupied (service.allWrites before) store (service.provenanceKey item key) = false := by
      rw [occupied, hbefore, hstore]
      rfl
    rw [← Bool.not_eq_true]
    intro hoccupied
    rw [hclear hoccupied] at hunknown
    cases hunknown
  obtain ⟨between, rfl, hrest⟩ : ∃ between, before = done ++ between ∧ rest = between ++ item :: after := by
    rcases append_eq_append_iff.mp hsplit with ⟨between, hdone, hafter⟩ | ⟨between, hbefore, hrest⟩
    · cases between with
      | nil => exact ⟨[], by simpa using hdone.symm, by simpa using hafter.symm⟩
      | cons first between =>
        -- the change itself would be before the cut
        obtain ⟨rfl, -⟩ := List.cons.inj hafter
        have hmem := (mem_allWrites_of_upsert (hdone ▸ mem_append_right _ mem_cons_self) haction).2
        exact absurd rfl (hwritten _ hmem)
    · exact ⟨between, hbefore, hrest⟩
  cases hlast : lastWrite (service.allWrites (done ++ between)) (service.keyOf key) with
  | some value =>
    rw [occupied, hlast] at hobject hfree
    rw [Option.map_some, Option.getD_some] at hobject hfree
    rw [hobject] at hfree
    cases hfree
  | none =>
    have hmissing : store.get (service.keyOf key) = none := by
      rw [occupied, hlast] at hfree
      simpa using hfree
    have hpresent : occupied (service.allWrites done ++ part) store (service.keyOf key) = true := by
      rw [occupied, hlast] at hobject
      rw [← h.present]
      exact hobject
    rw [lastWrite_eq_none, allWrites_append, forall_mem_append] at hlast
    rw [occupied, lastWrite_append, lastWrite_eq_none.mpr hlast.1, hmissing] at hpresent
    have hstage := h.stage
    cases hstage with
    | whole => simp [lastWrite] at hpresent
    | removal more haction' =>
      rw [lastWrite_singleton] at hpresent
      split_ifs at hpresent
      · cases hpresent
      · cases hpresent
    | @put item' n key' more haction' hn =>
      rw [lastWrite_singleton] at hpresent
      split_ifs at hpresent with hsame
      · cases between with
        | nil =>
          obtain ⟨rfl, rfl⟩ := List.cons.inj hrest
          have hkey : key = key' := by simpa [haction] using haction'
          subst hkey
          refine hnot ⟨done, item', more, key, rfl, haction, hstore, fun write hwrite => ?_, ?_⟩
          · exact ⟨hlast.1 write hwrite, hwritten write hwrite⟩
          · rcases hn with rfl | rfl
            · exact Or.inl rfl
            · exact Or.inr rfl
        | cons first between =>
          obtain ⟨rfl, -⟩ := List.cons.inj hrest
          exact absurd hsame (hlast.2 _ (mem_allWrites_of_upsert mem_cons_self haction').1)
      · cases hpresent

theorem commits_upsert_length (hplain : Plain store) (haction : service.action item = .ok (.upsert key))
    (hok : (service.performItem item).result store = .ok ()) :
    ((service.performItem item).commits store).length = 3 := by
  obtain ⟨action, haction', hfree⟩ := (result_performItem_eq_ok hplain).mp hok
  obtain rfl : Action.upsert key = action := Except.ok.inj (haction.symm.trans haction')
  rw [performItem_of_action haction, StoreCall.commits, perform_upsert_run hplain hfree]
  rfl

theorem not_clear_of_torn (hsystem : SystemKeys service.codec) (hplain : Plain store)
    (hok : (service.applyEach items).result store = .ok ()) (h : Torn service items store k) :
    ∃ done item rest key, items = done ++ item :: rest ∧ service.action item = .ok (.upsert key) ∧
      ¬service.Clear item (service.allWrites done) ((service.applyEach items).cut k store) (.upsert key) := by
  obtain ⟨done, item, rest, key, rfl, haction, hnone, hapart, hk⟩ := h
  refine ⟨done, item, rest, key, rfl, haction, ?_⟩
  rw [applyEach_append] at hok
  obtain ⟨⟨⟩, hdone, hrest⟩ := result_bind_eq_ok.mp hok
  obtain ⟨⟨⟩, hitem, -⟩ := result_bind_eq_ok.mp hrest
  have hbefore : Plain ((service.applyEach done).last store) := keeps_plain_applyEach.last hplain
  obtain ⟨n, hn, rfl⟩ : ∃ n, (n = 1 ∨ n = 2) ∧ k = ((service.applyEach done).commits store).length + n := by
    rcases hk with rfl | rfl
    · exact ⟨1, Or.inl rfl, rfl⟩
    · exact ⟨2, Or.inr rfl, rfl⟩
  have hcommits := commits_upsert_length hbefore haction hitem
  have hcut : (service.applyEach (done ++ item :: rest)).cut (((service.applyEach done).commits store).length + n)
    store =
      (service.performItem item).cut n ((service.applyEach done).last store) := by
    rw [applyEach_append, cut_bind_of_ge n hdone, applyEach,
      cut_bind_of_le hitem (by omega)]
  obtain ⟨part, hhalfway⟩ := halfway_performItem hbefore rest hitem (show n < _ by omega)
  rw [hcut]
  generalize (service.performItem item).cut n ((service.applyEach done).last store) = stopped at hhalfway ⊢
  have hunwritten : lastWrite (service.allWrites done) (service.keyOf key) = none ∧
      lastWrite (service.allWrites done) (service.provenanceKey item key) = none :=
    ⟨lastWrite_eq_none.mpr fun write hwrite => (hapart write hwrite).1,
      lastWrite_eq_none.mpr fun write hwrite => (hapart write hwrite).2⟩
  have hobject : (stopped.get (service.keyOf key)).isSome = true := by
    rw [hhalfway.present]
    have hstage := hhalfway.stage
    cases hstage with
    | whole => omega
    | removal more haction' => simp [haction] at haction'
    | @put _ _ key' more haction' hn =>
      obtain rfl : key = key' := by simpa [haction] using haction'
      simp [occupied, lastWrite]
  have hprovenance : (stopped.get (service.provenanceKey item key)).isSome = false := by
    have hsame := verdict_applyEach hplain hdone (service.provenanceKey item key)
    rw [hunwritten.2] at hsame
    have hkept : ((service.applyEach done).last store).get (service.provenanceKey item key) =
        store.get (service.provenanceKey item key) := hsame
    have hnothing := hkept.trans hnone
    rw [hhalfway.present, occupied, lastWrite_append, lastWrite_part_provenance hsystem hhalfway.stage, hnothing]
    rfl
  intro hclear
  have hfound := hclear (by rw [occupied, hunwritten.1]; exact hobject)
  rw [occupied, hunwritten.2] at hfound
  exact absurd hfound (by simp [hprovenance])

theorem result_retry_eq_ok (hsystem : SystemKeys service.codec) (hplain : Plain store)
    (hok : (service.applyEach items).result store = .ok ())
    (hk : k ≤ ((service.applyEach items).commits store).length) (hresumed : Plain resumed)
    (hget : ∀ place, resumed.get place = ((service.applyEach items).cut k store).get place) :
    ((service.at later).applyEach items).result resumed = .ok () ↔ ¬Torn service items store k := by
  have hoccupied (writes : Writes) (place : Bytes) : occupied writes resumed place =
      occupied writes ((service.applyEach items).cut k store) place := by
    rw [occupied, occupied, hget]
  have hclear {item : ReplicationChange} {writes : Writes} {action : Action} :
      (service.at later).Clear item writes resumed action ↔
        service.Clear item writes ((service.applyEach items).cut k store) action := by
    cases action with
    | upsert key =>
      simp only [Clear, hoccupied]
      exact Iff.rfl
    | ignore => exact Iff.rfl
    | delete key => exact Iff.rfl
    | append event => exact Iff.rfl
  have hfirst := (result_applyEach_eq_ok hplain).mp hok
  rw [result_applyEach_eq_ok hresumed]
  constructor
  · intro hall htorn
    obtain ⟨done, item, rest, key, hsplit, haction, hnot⟩ := not_clear_of_torn hsystem hplain hok htorn
    obtain ⟨action, haction', hclears⟩ := hall done item rest hsplit
    obtain rfl : Action.upsert key = action := Except.ok.inj (haction.symm.trans haction')
    exact hnot (hclear.mp hclears)
  · intro hnot before item after hsplit
    obtain ⟨action, haction, hclears⟩ := hfirst before item after hsplit
    refine ⟨action, haction, hclear.mpr ?_⟩
    obtain ⟨done, rest, n, part, rfl, rfl, hhalfway⟩ := halfway_applyEach hplain hok hk
    cases action with
    | upsert key => exact clear_of_halfway hsystem hhalfway hsplit.symm haction hclears hnot
    | ignore => trivial
    | delete key => trivial
    | append event => trivial

theorem torn_lt (hplain : Plain store) (hok : (service.applyEach items).result store = .ok ())
    (h : Torn service items store k) : k < ((service.applyEach items).commits store).length := by
  obtain ⟨done, item, rest, key, rfl, haction, -, -, hk⟩ := h
  rw [applyEach_append] at hok ⊢
  obtain ⟨⟨⟩, hdone, hrest⟩ := result_bind_eq_ok.mp hok
  obtain ⟨⟨⟩, hitem, -⟩ := result_bind_eq_ok.mp hrest
  have hbefore : Plain ((service.applyEach done).last store) := keeps_plain_applyEach.last hplain
  have hcommits := commits_upsert_length hbefore haction hitem
  rw [commits_bind_of_ok hdone, applyEach, commits_bind_of_ok hitem, length_append,
    length_append]
  omega

end Torn

section Retries

/-- The stores have the same objects, provenance, checkpoints and events, and the objects are what the changes say, with
the source's version and times, or what was there before. -/
structure Same (service : Service) (items : List ReplicationChange) (store left right : ThingStore) : Prop where
  objects : ∀ key : ObjectKey, isSystem key.collection = false →
    left.get (service.keyOf key) = right.get (service.keyOf key) ∧
    Verdict (lastWrite (service.allWrites items) (service.keyOf key)) (store.get (service.keyOf key))
      (left.get (service.keyOf key))
  provenance : ∀ id, (left.get (service.codec.makeObjectKey replicationProvenanceCollection id)).map MemoryObject.body =
    (right.get (service.codec.makeObjectKey replicationProvenanceCollection id)).map MemoryObject.body
  checkpoint : ∀ source, service.appliedCursor source left = service.appliedCursor source right
  events : ∀ key, (left.log.store.events.get key).map MemoryEvent.timeless =
    (right.log.store.events.get key).map MemoryEvent.timeless

/-- The retry succeeds and leaves what one uninterrupted apply leaves, and applying the batch once more commits
nothing. -/
structure Retries (service : Service) (later last sourceId : Bytes) (items : List ReplicationChange)
    (store resumed : ThingStore) : Prop where
  succeeds : (((service.at later).apply items).result resumed).isOk = true
  same : Same service (fresh (service.appliedCursor sourceId store) items) store ((service.apply items).last store)
    (((service.at later).apply items).last resumed)
  settled : (((service.at last).apply items).result (((service.at later).apply items).last resumed)).isOk = true ∧
    ((service.at last).apply items).commits (((service.at later).apply items).last resumed) = []

/-- Every upsert among the changes gives the version and the times of its object. -/
def Service.Stamps (service : Service) (items : List ReplicationChange) : Prop :=
  ∀ item ∈ items, ∀ key, service.action item = .ok (.upsert key) → Stamped (service.upserted item key)

theorem get_jsonObject_cons (name field : String) (value : Value) (fields : List (String × Value)) :
    (jsonObject ((name, value) :: fields)).get (bytesOf field) =
      if bytesOf name = bytesOf field then some value else (jsonObject fields).get (bytesOf field) := by
  by_cases hname : bytesOf name = bytesOf field
  · simp [jsonObject, Value.get, hname]
  · simp [jsonObject, Value.get, hname]

theorem stamped_upsertChange (service source : Service) {object : MemoryObject} (h : Stamped object)
    (hchange : item.change = source.upsertChange object) (key : ObjectKey) : Stamped (service.upserted item key) := by
  obtain ⟨hversion, hcreated, hupdated⟩ : (service.upserted item key).version = object.version ∧
      (service.upserted item key).createdAt = object.createdAt ∧
      (service.upserted item key).updatedAt = object.updatedAt := by
    simp +decide only [upserted, payloadObject, hchange, Value.getOrNull, upsertChange,
      Value.getU64, Value.getStr, get_jsonObject_cons, if_true, if_false, Option.getD_some, Option.bind_some, jsonU64,
      Value.asU64, Value.asStr, and_self]
  exact ⟨hversion ▸ h.version, hcreated ▸ h.createdAt, hupdated ▸ h.updatedAt⟩

variable {before : Option MemoryObject}

theorem Verdict.rebase {last : Option (Option MemoryObject)} {other after : Option MemoryObject}
    (h : Verdict last before after) (hsame : last = none → before = other) : Verdict last other after := by
  cases last with
  | none =>
    have hafter : after = before := h
    exact hafter.trans (hsame rfl)
  | some value =>
    cases value with
    | none => exact h
    | some written => exact h

theorem Verdict.content_congr {last : Option (Option MemoryObject)} {left right : Option MemoryObject}
    (h : Verdict last before left) (h' : Verdict last before right) : left.map content = right.map content := by
  cases last with
  | none =>
    have hleft : left = before := h
    have hright : right = before := h'
    rw [hleft, hright]
  | some value => exact h.content_eq h'

theorem Verdict.eq_of_stamped {last : Option (Option MemoryObject)} {left right : Option MemoryObject}
    (h : Verdict last before left) (h' : Verdict last before right)
    (hstamped : ∀ written, last = some (some written) → Stamped written) : left = right := by
  cases last with
  | none =>
    have hleft : left = before := h
    have hright : right = before := h'
    rw [hleft, hright]
  | some value =>
    cases value with
    | none =>
      have hleft : left = none := h
      have hright : right = none := h'
      rw [hleft, hright]
    | some written =>
      obtain ⟨stored, rfl, hlands⟩ := h
      obtain ⟨other, rfl, hlands'⟩ := h'
      rw [hlands.eq_of_stamped hlands' (hstamped written rfl)]

theorem stamped_of_lastWrite (hsystem : SystemKeys service.codec) (hstamps : service.Stamps items) {key : ObjectKey}
    (hkey : isSystem key.collection = false) {written : MemoryObject}
    (h : lastWrite (service.allWrites items) (service.keyOf key) = some (some written)) : Stamped written := by
  rcases place_of_mem_allWrites (mem_of_lastWrite h) with ⟨other, -, -, hvalue⟩ | ⟨collection, id, hrecord, hplace, -⟩
  · obtain ⟨item, hitem, haction, rfl⟩ := hvalue written rfl
    exact hstamps item hitem other haction
  · have hcollection : isSystem collection = true := by
      rcases hrecord with rfl | rfl <;> decide +kernel
    exact absurd hplace (hsystem _ _ _ _ hkey hcollection)

variable {left right : ThingStore}

theorem same_of_verdicts (hsystem : SystemKeys service.codec) (hrecords : RecordKeys service.codec)
    (hstamps : service.Stamps items)
    (hleft : ∀ place, (∀ item ∈ items, place ≠ service.quarantineKey item) →
      Verdict (lastWrite (service.batchWrites sourceId items) place) (store.get place) (left.get place))
    (hright : ∀ place, (∀ item ∈ items, place ≠ service.quarantineKey item) →
      Verdict (lastWrite (service.batchWrites sourceId items) place) (store.get place) (right.get place))
    (hlogs : left.log.Alike names right.log) : Same service items store left right := by
  refine ⟨fun key hkey => ?_, fun id => ?_, fun source => ?_, hlogs.events⟩
  · have hquarantine : ∀ item ∈ items, service.keyOf key ≠ service.quarantineKey item :=
      fun item _ => hsystem _ _ _ _ hkey isSystem_replicationQuarantineCollection
    have hcheckpoint : service.keyOf key ≠ service.checkpointKey sourceId :=
      hsystem _ _ _ _ hkey isSystem_replicationStateCollection
    have hlast : lastWrite (service.batchWrites sourceId items) (service.keyOf key) =
        lastWrite (service.allWrites items) (service.keyOf key) := by
      rw [batchWrites, lastWrite_append]
      split_ifs
      · rfl
      · rw [lastWrite_singleton, if_neg hcheckpoint]
        rfl
    have hsame := (hleft _ hquarantine).eq_of_stamped (hright _ hquarantine) fun written hwritten =>
      stamped_of_lastWrite hsystem hstamps hkey (hlast.symm.trans hwritten)
    exact ⟨hsame, hlast ▸ hleft _ hquarantine⟩
  · have hne : replicationProvenanceCollection ≠ replicationQuarantineCollection := by decide +kernel
    have hquarantine : ∀ item ∈ items, service.codec.makeObjectKey replicationProvenanceCollection id ≠
        service.quarantineKey item := fun item _ => hrecords (by simp) (by simp) hne _ _
    have hcontent := (hleft _ hquarantine).content_congr (hright _ hquarantine)
    simpa [Function.comp_def, content] using congrArg (Option.map fun content => content.2.1) hcontent
  · have hquarantine : ∀ item ∈ items, service.checkpointKey source ≠ service.quarantineKey item :=
      fun item _ => state_ne_quarantine hrecords _ item
    exact appliedCursor_congr ((hleft _ hquarantine).content_congr (hright _ hquarantine))

theorem idempotencyKey_of_mem_eventsOf {event : MemoryEvent} (h : event ∈ service.eventsOf item) :
    event.idempotencyKey = item.idempotencyKey := by
  have haction : service.action item = .ok (.append event) := by
    cases haction : service.action item with
    | error error => simp [eventsOf, haction] at h
    | ok action => cases action <;> simp [eventsOf, haction] at h; simp [h]
  have hevent : service.replicatedEvent item = .ok event := by
    cases hoperation : Value.getStr item.change "operation" with
    | none => simp [Service.action, hoperation] at haction
    | some operation =>
      simp only [Service.action, hoperation] at haction
      split_ifs at haction
      · simp at haction
      · cases hkey : targetKey item (Value.getStr item.change "collection") <;> simp [hkey, Except.map] at haction
      · cases hkey : targetKey item (Value.getStr item.change "collection") <;> simp [hkey, Except.map] at haction
      · cases hevent : service.replicatedEvent item with
        | error error => simp [hevent, Except.map] at haction
        | ok other => simpa [hevent, Except.map] using haction
  cases hpayload : item.change.get (bytesOf "payload") with
  | none => simp [replicatedEvent, hpayload] at hevent
  | some payload =>
    cases hstream : Value.getStr payload "stream" with
    | none => simp [replicatedEvent, hpayload, hstream] at hevent
    | some stream =>
      cases htype : Value.getStr payload "type" with
      | none => simp [replicatedEvent, hpayload, hstream, htype] at hevent
      | some eventType =>
        simp only [replicatedEvent, hpayload, hstream, htype, Except.ok.injEq] at hevent
        rw [← hevent]

theorem log_retry (hplain : Plain store) (hok : (service.applyEach items).result store = .ok ())
    (hk : k ≤ ((service.applyEach items).commits store).length) (hkeyed : ∀ item ∈ items, item.idempotencyKey ≠ [])
    (hnames : ∀ event ∈ service.allEvents items, event.stream ∈ names)
    (halike : ((service.applyEach items).cut k store).log.Alike names resumed.log) :
    (store.log.replayed service.codec service.now (service.allEvents items)).Alike names
      (resumed.log.replayed service.codec later (service.allEvents items)) := by
  obtain ⟨done, rest, n, part, rfl, -, hhalfway⟩ := halfway_applyEach hplain hok hk
  have hsplit : service.allEvents (done ++ rest) = service.allEvents done ++ service.allEvents rest := flatMap_append
  rw [hsplit] at hnames ⊢
  have hknown : ∀ event ∈ service.allEvents done, resumed.log.Known service.codec event := by
    intro event hevent
    rw [← halike.known_iff (hnames event (mem_append_left _ hevent)), hhalfway.log]
    apply known_replayed _ event hevent
    intro other hother
    obtain ⟨item, hitem, hmem⟩ := mem_flatMap.mp hother
    rw [idempotencyKey_of_mem_eventsOf hmem]
    exact hkeyed item (mem_append_left _ hitem)
  rw [EventLog.replayed_append, EventLog.replayed_append, replayed_of_known hknown, ← hhalfway.log]
  exact halike.replayed fun event hevent => hnames event (mem_append_right _ hevent)

theorem get_cut {place : Bytes} (hquarantine : ∀ item ∈ items, place ≠ service.quarantineKey item)
    (h : lastWrite (service.batchWrites sourceId items) place = none) :
    ((service.applyEach items).cut k store).get place = store.get place := by
  have hwrites : ∀ write ∈ service.allWrites items, place ≠ write.1 := by
    rw [lastWrite_eq_none, batchWrites, forall_mem_append] at h
    exact h.1
  have hkeeps : Keeps (Stays place (store.get place)) (service.applyEach items) :=
    keeps_applyEach hwrites hquarantine
  exact hkeeps.cut rfl k

section Receives

variable {checkpoint : UInt64} (h : service.Receives sourceId items) (hplain : Plain store)
  (hcheckpoint : service.appliedCursor sourceId store = checkpoint)
  (hok : (service.applyEach (fresh checkpoint items)).result store = .ok ())
include h hplain hcheckpoint hok

theorem retries_within_iff (hstamps : service.Stamps (fresh checkpoint items))
    (hformat : ∀ sourceId cursor, service.format.Keeps (checkpointBody sourceId cursor))
    (hnames : ∀ event ∈ service.allEvents items, event.stream ∈ names)
    (hk : k ≤ ((service.applyEach (fresh checkpoint items)).commits store).length) (hresumed : Plain resumed)
    (hget : ∀ place, resumed.get place = ((service.applyEach (fresh checkpoint items)).cut k store).get place)
    (halike : ((service.applyEach (fresh checkpoint items)).cut k store).log.Alike names resumed.log) :
    Retries service later last sourceId items store resumed ↔ ¬Torn service (fresh checkpoint items) store k := by
  have hlater : (service.at later).Receives sourceId items := ⟨h.role, h.system, h.records, h.batch⟩
  have hcursor : (service.at later).appliedCursor sourceId resumed = checkpoint := by
    have hkeeps : Keeps (Stays (service.checkpointKey sourceId) (store.get (service.checkpointKey sourceId)))
        (service.applyEach (fresh checkpoint items)) := keeps_checkpoint_applyEach h.system h.records sourceId _
    have hsame : resumed.get (service.checkpointKey sourceId) = store.get (service.checkpointKey sourceId) :=
      (hget _).trans (hkeeps.cut rfl k)
    rw [← hcheckpoint]
    exact appliedCursor_congr (congrArg (Option.map content) hsame)
  have hretry : ((service.at later).applyEach (fresh checkpoint items)).result resumed = .ok () ↔ _ :=
    result_retry_eq_ok h.system hplain hok hk hresumed hget
  have hiff := result_apply_isOk_iff hlater hresumed hcursor
  refine ⟨fun hretries => hretry.mp (hiff.mp hretries.succeeds), fun hnot => ?_⟩
  have hdone := hretry.mpr hnot
  refine ⟨hiff.mpr hdone, ?_, ?_⟩
  · rw [hcheckpoint]
    apply same_of_verdicts h.system h.records hstamps
    · intro place _
      exact verdict_apply h hplain hcheckpoint hok place
    · intro place hquarantine
      apply (verdict_apply hlater hresumed hcursor hdone place).rebase
      intro hlast
      rw [hget]
      exact get_cut hquarantine hlast
    · rw [log_apply h hplain hcheckpoint hok, log_apply hlater hresumed hcursor hdone]
      apply log_retry hplain hok hk
      · exact fun item hitem => h.batch.keyed item (mem_of_mem_filter hitem)
      · intro event hevent
        obtain ⟨item, hitem, hmem⟩ := mem_flatMap.mp hevent
        exact hnames event (mem_flatMap.mpr ⟨item, mem_of_mem_filter hitem, hmem⟩)
      · exact halike
  · have hfresh := fresh_after_apply hlater hformat hresumed hcursor hdone
    exact apply_of_fresh_eq_nil ⟨h.role, h.system, h.records, h.batch⟩ hfresh

omit hplain in
theorem cut_apply_of_le (hk : k ≤ ((service.applyEach (fresh checkpoint items)).commits store).length) :
    (service.apply items).cut k store = (service.applyEach (fresh checkpoint items)).cut k store := by
  rw [StoreCall.cut, StoreCall.commits, apply_run h hcheckpoint, ← StoreCall.commits, ← StoreCall.cut,
    cut_bind_of_le hok hk]

theorem cut_apply_of_gt (hk : ((service.applyEach (fresh checkpoint items)).commits store).length < k) :
    (service.apply items).cut k store = (service.apply items).last store := by
  apply cut_of_length_le
  have hnext : Plain ((service.applyEach (fresh checkpoint items)).last store) := keeps_plain_applyEach.last hplain
  have hone : ((service.saveCursor sourceId (fresh checkpoint items)).commits
      ((service.applyEach (fresh checkpoint items)).last store)).length ≤ 1 := by
    rw [StoreCall.commits, saveCursor_run hnext]
    split_ifs
    · exact Nat.zero_le 1
    · exact le_rfl
  rw [StoreCall.commits, apply_run h hcheckpoint, ← StoreCall.commits, commits_bind_of_ok hok,
    commits_bind_of_ok (result_saveCursor hnext), commits_pure, append_nil,
    length_append]
  omega

theorem retries_of_complete (hstamps : service.Stamps (fresh checkpoint items))
    (hformat : ∀ sourceId cursor, service.format.Keeps (checkpointBody sourceId cursor))
    (hget : ∀ place, resumed.get place = ((service.apply items).last store).get place)
    (halike : ((service.apply items).last store).log.Alike names resumed.log) :
    Retries service later last sourceId items store resumed := by
  have hfresh : fresh ((service.at later).appliedCursor sourceId resumed) items = [] := by
    have hcursor : (service.at later).appliedCursor sourceId resumed =
        service.appliedCursor sourceId ((service.apply items).last store) :=
      appliedCursor_congr (congrArg (Option.map content) (hget _))
    rw [hcursor]
    exact fresh_after_apply h hformat hplain hcheckpoint hok
  have hagain (now : Bytes) : (((service.at now).apply items).result resumed).isOk = true ∧
      ((service.at now).apply items).commits resumed = [] :=
    apply_of_fresh_eq_nil ⟨h.role, h.system, h.records, h.batch⟩ hfresh
  have hlast := last_of_commits_eq_nil (hagain later).2
  have hverdict := verdict_apply h hplain hcheckpoint hok
  refine ⟨(hagain later).1, ?_, ?_⟩
  · rw [hlast, hcheckpoint]
    apply same_of_verdicts h.system h.records hstamps
    · exact fun place _ => hverdict place
    · intro place _
      rw [hget]
      exact hverdict place
    · exact halike
  · rw [hlast]
    exact hagain last

end Receives

/-- A replica that successful applies have filled can have any batch applied again that was stopped between two commits,
exactly if the batch was not torn; the upserts of the batch give the versions and times of their objects. -/
theorem apply_is_safe_to_retry_iff (hsystem : SystemKeys service.codec) (hrecords : RecordKeys service.codec)
    (hkeys : StreamKeys service.codec names)
    (hformat : ∀ sourceId cursor, service.format.Keeps (checkpointBody sourceId cursor))
    (hrun : ReplicaRun service.codec names store) (hbatch : Batch sourceId items)
    (hstamps : service.Stamps (fresh (service.appliedCursor sourceId store) items))
    (hnames : ∀ event ∈ service.allEvents items, event.stream ∈ names)
    (hok : ((service.apply items).result store).isOk = true)
    (hresumed : Resumed service.codec ((service.apply items).cut k store) resumed) (later last : Bytes) :
    Retries service later last sourceId items store resumed ↔
      ¬Torn service (fresh (service.appliedCursor sourceId store) items) store k := by
  have hrole : service.config.role = .replica := by
    by_contra hrole
    rw [result, Service.apply, if_pos hrole] at hok
    cases hok
  have h : service.Receives sourceId items := ⟨hrole, hsystem, hrecords, hbatch⟩
  have hsound := hrun.sound hkeys
  have hcut := (keeps_sound_apply hkeys hnames).cut hsound k
  obtain ⟨hplain, hget, halike⟩ := hresumed.spec hkeys hcut
  generalize hcheckpoint : service.appliedCursor sourceId store = checkpoint at hstamps ⊢
  have hdone := (result_apply_isOk_iff h hsound.plain hcheckpoint).mp hok
  by_cases hk : k ≤ ((service.applyEach (fresh checkpoint items)).commits store).length
  · rw [cut_apply_of_le h hcheckpoint hdone hk] at hget halike
    exact retries_within_iff h hsound.plain hcheckpoint hdone hstamps hformat hnames hk hplain.plain hget halike
  · rw [not_le] at hk
    rw [cut_apply_of_gt h hsound.plain hcheckpoint hdone hk] at hget halike
    refine iff_of_true ?_ fun htorn => ?_
    · exact retries_of_complete h hsound.plain hcheckpoint hdone hstamps hformat hget halike
    · exact absurd (torn_lt hsound.plain hdone htorn) (by omega)

def upsertVersion : ReplicationChange :=
  sourceChange (sampleReplica.upsertChange ⟨noteKey, bytesOf "mine", 7, bytesOf "2022", bytesOf "2023", none⟩)

theorem batch_upsertVersion : Batch (bytesOf "s") [upsertVersion] := by
  refine ⟨?_, ?_, ?_, pairwise_singleton _ _⟩
  · exact forall_mem_singleton.mpr rfl
  · exact forall_mem_singleton.mpr (by decide +kernel)
  · exact forall_mem_singleton.mpr (by decide +kernel)

/-- Stopped between the provenance record and the checkpoint, the batch can be applied again. -/
theorem retry_before_checkpoint_succeeds :
    Retries sampleReplica (bytesOf "2025") (bytesOf "2026") (bytesOf "s") [upsertVersion] emptyStore
      ((sampleReplica.apply [upsertVersion]).cut 3 emptyStore) := by
  have hfresh : fresh (sampleReplica.appliedCursor (bytesOf "s") emptyStore) [upsertVersion] = [upsertVersion] := by rfl
  have hstamps : sampleReplica.Stamps
    (fresh (sampleReplica.appliedCursor (bytesOf "s") emptyStore) [upsertVersion]) := by
    intro item hitem key _
    rw [hfresh, mem_singleton] at hitem
    subst hitem
    exact stamped_upsertChange sampleReplica sampleReplica ⟨by decide, by decide, by decide⟩ rfl key
  rw [apply_is_safe_to_retry_iff (systemKeys_rawCodec _) (recordKeys_rawCodec _) (streamKeys_rawCodec _ Set.univ)
    (fun _ _ => Json.keeps_tagged _) .start batch_upsertVersion hstamps (fun event _ => Set.mem_univ event.stream)
      (by decide +kernel) .running]
  rintro ⟨done, item, rest, key, hsplit, -, -, -, hk⟩
  rw [hfresh] at hsplit
  have hdone : done = [] := by
    cases done with
    | nil => rfl
    | cons first done => simp at hsplit
  subst hdone
  rcases hk with hk | hk
  · cases hk
  · cases hk

/-- A crash after the first commit of an upsert leaves an object without provenance, and every retry is a conflict. -/
theorem retry_of_torn_upsert_conflicts :
    ((sampleReplica.apply [upsertVersion]).result emptyStore).toOption = some ⟨1, 0, 0, 1⟩ ∧
      (sampleReplica.apply [upsertVersion]).result ((sampleReplica.apply [upsertVersion]).cut 1 emptyStore) =
        .error (replicationConflict (bytesOf "c") (bytesOf "1")) ∧
      ¬Retries sampleReplica sampleReplica.now sampleReplica.now (bytesOf "s") [upsertVersion] emptyStore
        ((sampleReplica.apply [upsertVersion]).cut 1 emptyStore) := by
  have hconflict : (sampleReplica.apply [upsertVersion]).result
    ((sampleReplica.apply [upsertVersion]).cut 1 emptyStore) =
      .error (replicationConflict (bytesOf "c") (bytesOf "1")) := by rfl
  refine ⟨by decide +kernel, hconflict, fun h => ?_⟩
  have hok : ((sampleReplica.apply [upsertVersion]).result
    ((sampleReplica.apply [upsertVersion]).cut 1 emptyStore)).isOk = true :=
    h.succeeds
  rw [hconflict] at hok
  cases hok

end Retries

end Thingd.Replication
