import Thingd.Engine.QueueSteps

namespace Thingd.Engine.Queues

open Index QueueStore

variable {codec : StorageCodec} {naming : Naming codec} {s : Queues} {queue : Bytes}

theorem commit_removeLeases (store : QueueStore) (keys : List Bytes) :
    store.commit (keys.map QueueWrite.removeLease) =
      { store with leaseJobs := keys.foldl (fun leases key => leases.erase key) store.leaseJobs } := by
  induction keys generalizing store with
  | nil => rfl
  | cons key keys ih => exact ih (store.write (.removeLease key))

theorem commit_insertLeases (store : QueueStore) (entries : List (Bytes × Bytes)) :
    store.commit (entries.map fun entry => .insertLease entry.1 entry.2) =
      { store with
        leaseJobs := entries.foldl (fun leases entry => leases.insert entry.1 entry.2) store.leaseJobs } := by
  induction entries generalizing store with
  | nil => rfl
  | cons entry entries ih => exact ih (store.write (.insertLease entry.1 entry.2))

theorem foldl_erase_keys (leases : SortedMap Bytes Bytes) :
    leases.keys.foldl (fun leases key => leases.erase key) leases = SortedMap.empty := by
  have hget : ∀ (keys : List Bytes) (leases : SortedMap Bytes Bytes) (key : Bytes),
      (keys.foldl (fun leases key => leases.erase key) leases).get key = none ↔ key ∈ keys ∨ leases.get key = none := by
    intro keys
    induction keys with
    | nil => simp
    | cons first keys ih =>
      intro leases key
      rw [List.foldl_cons, ih]
      by_cases heq : key = first
      · simp [heq]
      · simp [heq]
  rw [SortedMap.eq_empty_iff]
  intro key
  rw [hget]
  by_cases hmem : key ∈ leases.keys
  · exact Or.inl hmem
  · right
    rw [SortedMap.mem_keys, not_exists] at hmem
    exact Option.eq_none_iff_forall_ne_some.mpr hmem

variable (codec s) in
def rebuilt : QueueStore := { s.store with leaseJobs := build (leaseEntry codec) s.store.queueJobs }

theorem foldl_filterMap_insert (rows : List (Bytes × QueueJob)) (leases : SortedMap Bytes Bytes) :
    ((rows.map Prod.snd).filterMap (leaseEntry codec)).foldl (fun leases entry => leases.insert entry.1 entry.2)
      leases =
      rows.foldl (fun index row => insertEntry (leaseEntry codec row.2) index) leases := by
  induction rows generalizing leases with
  | nil => rfl
  | cons row rows ih =>
    rw [List.map_cons, List.filterMap_cons, List.foldl_cons]
    cases hentry : leaseEntry codec row.2 with
    | none => exact ih leases
    | some entry => exact ih (leases.insert entry.1 entry.2)

variable (codec) in
theorem commit_rebuild (store : QueueStore) :
    store.commit (store.leaseJobs.entries.map (fun entry => QueueWrite.removeLease entry.1) ++
      ((store.queueJobs.entries.map Prod.snd).filterMap (leaseEntry codec)).map fun entry =>
        .insertLease entry.1 entry.2) =
      { store with leaseJobs := build (leaseEntry codec) store.queueJobs } := by
  have hkeys : store.leaseJobs.entries.map (fun entry => QueueWrite.removeLease entry.1) =
      store.leaseJobs.keys.map QueueWrite.removeLease := by
    rw [SortedMap.keys, List.map_map]
    rfl
  rw [commit_append, hkeys, commit_removeLeases, foldl_erase_keys, commit_insertLeases, foldl_filterMap_insert]
  rfl

theorem countLease_state (s : Queues) (job : QueueJob) :
    (countLease s job).store = s.store ∧ (countLease s job).readyCursors = s.readyCursors := by
  unfold countLease
  split_ifs
  · cases job.leaseExpiresAtMs <;> exact ⟨rfl, rfl⟩
  · exact ⟨rfl, rfl⟩

theorem expirationCount_countLease (s : Queues) (job : QueueJob) (queue : Bytes) (expiry : Millis) :
    (countLease s job).expirationCount queue expiry =
      s.expirationCount queue expiry + if leasedUntil queue expiry job then 1 else 0 := by
  unfold countLease
  by_cases hleased : job.status = .leased
  · rw [if_pos hleased]
    cases hexpiry : job.leaseExpiresAtMs with
    | none => simp [leasedUntil, hexpiry]
    | some other =>
      by_cases hqueue : queue = job.queue
      · subst hqueue
        simp only [expirationCount, SortedMap.get_insert, if_true, Option.getD_some, countOf_addExpiration]
        by_cases heq : other = expiry
        · subst heq
          simp [leasedUntil, hleased, hexpiry]
        · rw [List.count_eq_zero.mpr (by simpa using Ne.symm heq)]
          simp [leasedUntil, hexpiry, heq]
      · simp [expirationCount, hqueue, leasedUntil, Ne.symm hqueue]
  · simp [hleased, leasedUntil]

theorem foldl_countLease (jobs : List QueueJob) (s : Queues) :
    (jobs.foldl countLease s).store = s.store ∧ (jobs.foldl countLease s).readyCursors = s.readyCursors ∧
      ∀ queue expiry, (jobs.foldl countLease s).expirationCount queue expiry =
        s.expirationCount queue expiry + jobs.countP (leasedUntil queue expiry) := by
  induction jobs generalizing s with
  | nil => exact ⟨rfl, rfl, fun _ _ => rfl⟩
  | cons job jobs ih =>
    obtain ⟨hstore, hcursors, hcount⟩ := ih (countLease s job)
    obtain ⟨hstore', hcursors'⟩ := countLease_state s job
    refine ⟨hstore.trans hstore', hcursors.trans hcursors', ?_⟩
    intro queue expiry
    rw [List.foldl_cons, hcount, expirationCount_countLease, List.countP_cons]
    omega

variable (codec s) in
theorem reopen_state :
    (reopen codec s).store = rebuilt codec s ∧ (∀ queue, (reopen codec s).readyCursors.get queue = none) ∧
      ∀ queue expiry, (reopen codec s).expirationCount queue expiry = s.store.leasedCount queue expiry := by
  have hrebuild := commit_rebuild codec s.store
  obtain ⟨hstore, hcursors, hcount⟩ := foldl_countLease (s.store.queueJobs.entries.map Prod.snd)
    { store := rebuilt codec s, leaseCounts := SortedMap.empty, leaseExpirations := SortedMap.empty,
      readyCursors := SortedMap.empty }
  have hreopen : reopen codec s = (s.store.queueJobs.entries.map Prod.snd).foldl countLease
      { store := rebuilt codec s, leaseCounts := SortedMap.empty, leaseExpirations := SortedMap.empty,
        readyCursors := SortedMap.empty } := by
    unfold reopen rebuildLeaseIndex rebuilt
    dsimp only [Queues.commit]
    rw [hrebuild]
  rw [hreopen]
  refine ⟨hstore, fun queue => by rw [hcursors]; rfl, ?_⟩
  intro queue expiry
  rw [hcount, List.countP_map]
  exact Nat.zero_add _

theorem Indexed.reopen (h : Indexed naming s.store) : Indexed naming (rebuilt codec s) :=
  ⟨h.keyed, h.readySound, h.readyComplete, build_sound _⟩

theorem Exact.reopen (h : Exact naming s) : Exact naming (reopen codec s) := by
  obtain ⟨hstore, hcursors, hcount⟩ := reopen_state codec s
  refine ⟨?_, ?_, ?_, ?_, ?_⟩
  · rw [hstore]
    exact Indexed.reopen h.indexed
  · rw [hstore]
    exact build_complete (leaseApart h.indexed.keyed)
  · rw [hstore]
    exact h.leased
  · intro queue expiry
    rw [hcount, hstore]
    exact le_rfl
  · intro queue _ cursor hcursor
    rw [hcursors] at hcursor
    cases hcursor

end Thingd.Engine.Queues
