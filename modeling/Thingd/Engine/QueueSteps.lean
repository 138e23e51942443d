import Thingd.Engine.QueueExact

namespace Thingd.Engine.Queues

open QueueStore QueueJob

variable {codec : StorageCodec} {naming : Naming codec} {s s' : Queues} {queue : Bytes} {now : Millis}
  {options : QueueClaimOptions} {ack : Bool} {job : QueueJob} {jobs : List QueueJob}

section Requeue

variable {expiring : List QueueJob}

theorem Exact.leaseDue_eq (h : Exact naming s) (hdue : Due naming s.store queue now job) :
    job.leaseExpiresAtMs = some (leaseDue job) := by
  obtain ⟨hleased, expiry, hexpiry, -⟩ := expired_iff.mp hdue.expired
  obtain ⟨hnonneg, -⟩ := h.leased job hdue.stored hleased expiry hexpiry
  rw [leaseDue, hexpiry, Option.getD_some, Millis.nonneg_of_le hnonneg]

theorem Exact.countP_expiring (h : Exact naming s) (hexpiring : Expiring naming s.store queue now expiring)
    (expiry : Millis) : expiring.countP (leasedUntil queue expiry) = (expiring.map leaseDue).count expiry := by
  rw [List.count, List.countP_map]
  apply List.countP_congr
  intro job hjob
  have hdue := hexpiring.due job hjob
  simp [leasedUntil, hdue.leased, hdue.queue_eq, h.leaseDue_eq hdue, Subtype.ext_iff]

theorem countP_leasedUntil_eq_zero (hjobs : ∀ job ∈ jobs, job.status ≠ .leased) (expiry : Millis) :
    jobs.countP (leasedUntil queue expiry) = 0 := by
  rw [List.countP_eq_zero]
  intro job hjob
  simp [leasedUntil, hjobs job hjob]

theorem Exact.withRequeued (h : Exact naming s) (hqueue : naming.queue queue)
    (hexpiring : Expiring naming s.store queue now expiring) : Exact naming (withRequeued codec s queue expiring) := by
  refine h.updated (counted_withRequeued expiring).toUpdated hexpiring.names ?_ ?_ hexpiring.requeued_nodup ?_ ?_
  · intro job hjob
    obtain ⟨old, hold, rfl⟩ := List.mem_map.mp hjob
    exact (hexpiring.due old hold).queue_eq
  · intro job hjob
    obtain ⟨old, hold, rfl⟩ := List.mem_map.mp hjob
    exact nofun
  · intro expiry
    have hzero : (expiring.map requeued).countP (leasedUntil queue expiry) = 0 :=
      countP_leasedUntil_eq_zero (by simp [requeued]) expiry
    rw [store_withRequeued, ← h.countP_expiring hexpiring,
      leasedCount_foldl_replace expiry (requeued_keys expiring).symm
      (fun old hold => (hexpiring.due old hold).stored) hexpiring.requeued_nodup, hzero, List.count_nil]
  · intro _ first hfirst
    obtain ⟨cursor, hcursor, rfl⟩ := Option.map_eq_some_iff.mp hfirst
    refine ((h.cursors queue hqueue cursor hcursor).foldl_leastCursor _).congr fun entry => ?_
    rw [mem_readyEntries_withRequeued h.indexed hqueue hexpiring hqueue]
    simp

end Requeue

section Claim

variable {expiring : List QueueJob}

variable (options ack) in
theorem leaseGiven_claimed (hnow : 0 ≤ now.val) (havailable : job.availableAtMs ≤ now) :
    LeaseGiven (job.claimed now options ack) := by
  cases ack with
  | true => exact nofun
  | false =>
    rintro - expiry hexpiry
    cases hexpiry
    have hle : now ≤ leaseDeadline now options := by
      change now.val ≤ _
      simp only [leaseDeadline, Millis.saturating]
      omega
    exact ⟨hnow.trans hle, havailable.trans hle⟩

variable (now options ack) in
theorem countP_claimed (job : QueueJob) (expiry : Millis) :
    [job.claimed now options ack].countP (leasedUntil job.queue expiry) =
      (leaseAdded now options ack).count expiry := by
  cases ack with
  | true => rfl
  | false =>
    by_cases heq : leaseDeadline now options = expiry
    · subst heq
      simp [leaseAdded, claimed, leasedUntil, leasedNow]
    · rw [leaseAdded]
      simp [claimed, leasedUntil, leasedNow, heq]

theorem names_claimed {store : QueueStore} {entry : Bytes × Bytes} (hjob : ReadyAt naming store queue entry job) :
    naming.Names (job.claimed now options ack) ∧ (job.claimed now options ack).queue = queue := by
  cases ack <;> exact ⟨⟨hjob.names.queue, hjob.names.stamp, hjob.names.id⟩, hjob.queue_eq⟩

section Claimed

variable {t : Queues} {before rest : List (Bytes × Bytes)} {entry : Bytes × Bytes} (hqueue : naming.queue queue)
  (hentries : readyEntries codec t.store queue = before ++ entry :: rest)
    (hjob : ReadyAt naming t.store queue entry job)
include hqueue hentries hjob

theorem mem_readyEntries_claimed (h : Indexed naming t.store) {other : Bytes × Bytes} :
    other ∈ readyEntries codec (t.store.replace codec (job.claimed now options ack)) queue ↔
      other ∈ before ++ rest := by
  have hsorted := t.store.readyJobs.withPrefix_sorted (codec.makeReadyPrefix queue)
  rw [← readyEntries, hentries] at hsorted
  have hnodup : (before ++ entry :: rest).Nodup := hsorted.imp fun hlt => ne_of_apply_ne Prod.fst (ne_of_lt hlt)
  have hnot := (List.nodup_cons.mp (List.nodup_middle.mp hnodup)).1
  rw [mem_readyEntries_replace h hqueue hjob.stored (jobKey_claimed job now options ack) (names_claimed hjob).1,
    hjob.entry_eq, hentries, List.perm_middle.mem_iff, List.mem_cons]
  constructor
  · rintro (⟨-, hready, -⟩ | ⟨hother, hne⟩)
    · exact absurd hready (claimed_status_ne job now options ack)
    · exact hother.resolve_left (Ne.symm hne)
  · intro hother
    exact Or.inr ⟨Or.inr hother, fun heq => hnot (heq ▸ hother)⟩

theorem Exact.claimed (h : Exact naming t) (hnow : 0 ≤ now.val) (havailable : job.availableAtMs ≤ now)
    (hupdated : Updated t s' queue (t.store.replace codec (job.claimed now options ack)) [] (leaseAdded now options ack)
      (some (before ++ rest).head?)) :
    Exact naming s' := by
  refine h.updated_one hjob.stored (jobKey_claimed job now options ack) (names_claimed hjob).1 (names_claimed hjob).2
    (leaseGiven_claimed options ack hnow havailable) hupdated ?_ ?_ ?_
  · intro expiry
    rw [countP_leasedUntil_eq_zero (by simp [hjob.ready])]
    rfl
  · intro expiry
    rw [← hjob.queue_eq, countP_claimed]
  · rintro _ first hfirst
    cases hfirst
    have hsorted := t.store.readyJobs.withPrefix_sorted (codec.makeReadyPrefix queue)
    rw [← readyEntries, hentries] at hsorted
    have hsublist : (before ++ rest).Sublist (before ++ entry :: rest) :=
      List.Sublist.append_left (List.sublist_cons_self entry rest) before
    exact (isFirst_head? (hsorted.sublist hsublist)).congr fun other =>
      (mem_readyEntries_claimed hqueue hentries hjob h.indexed).symm

end Claimed

theorem stored_withRequeued (hexpiring : Expiring naming s.store queue now expiring)
    (hstored : Stored codec s.store job) (hlive : job.expired now = false) :
    Stored codec (Queues.withRequeued codec s queue expiring).store job := by
  rw [store_withRequeued, stored_foldl_replace_iff hexpiring.requeued_nodup, requeued_keys]
  refine Or.inr ⟨hstored, fun hmem => ?_⟩
  obtain ⟨old, hold, hkey⟩ := List.mem_map.mp hmem
  have hexpired := (hexpiring.due old hold).expired
  rw [Stored.inj (hexpiring.due old hold).stored hstored hkey, hlive] at hexpired
  cases hexpired

variable (codec queue now) in
def Claimable (store : QueueStore) (job : QueueJob) : Prop :=
  Stored codec store job ∧ job.queue = queue ∧
    ((job.status = .ready ∧ job.availableAtMs ≤ now) ∨ job.expired now = true)

instance (store : QueueStore) (job : QueueJob) : Decidable (Claimable codec queue now store job) :=
  inferInstanceAs (Decidable (_ ∧ _ ∧ _))

variable (codec queue now) in
structure LeastClaimable (store : QueueStore) (job : QueueJob) : Prop where
  claimable : Claimable codec queue now store job
  least : ∀ other, Claimable codec queue now store other → (readyEntry codec job).1 ≤ (readyEntry codec other).1

variable (now) in
def freed (job : QueueJob) : QueueJob := if job.expired now then job.requeued else job

theorem readyEntry_freed (job : QueueJob) : readyEntry codec (freed now job) = readyEntry codec job := by
  unfold freed
  split_ifs <;> rfl

variable (options ack) in
theorem claimed_freed (job : QueueJob) : (freed now job).claimed now options ack = job.claimed now options ack := by
  unfold freed
  split_ifs <;> rfl

theorem Exact.readyAt_of_claimable (h : Exact naming s) (hqueue : naming.queue queue)
    (hexpiring : Expires naming s queue now expiring) (hjob : Claimable codec queue now s.store job) :
    ReadyAt naming (Queues.withRequeued codec s queue expiring).store queue (readyEntry codec job) (freed now job) ∧
      (freed now job).availableAtMs ≤ now := by
  obtain ⟨hstored, hjobQueue, hstate⟩ := hjob
  obtain ⟨-, hnames⟩ := h.indexed.keyed _ job hstored
  rcases hstate with ⟨hready, havailable⟩ | hexpired
  · have hlive : job.expired now = false := by simp [expired, hready]
    rw [freed, hlive]
    exact ⟨⟨stored_withRequeued hexpiring.toExpiring hstored hlive, hnames, hjobQueue, hready, rfl⟩, havailable⟩
  · have hfreed : freed now job = job.requeued := if_pos hexpired
    have hmem := h.mem_expiring hqueue hexpiring hstored hjobQueue hexpired
    obtain ⟨hleased, expiry, hexpiry, hle⟩ := expired_iff.mp hexpired
    rw [hfreed]
    refine ⟨⟨?_, ⟨hnames.queue, hnames.stamp, hnames.id⟩, hjobQueue, rfl, rfl⟩,
      (h.leased job hstored hleased expiry hexpiry).2.trans hle⟩
    rw [store_withRequeued]
    exact stored_foldl_replace hexpiring.requeued_nodup (List.mem_map_of_mem hmem)

theorem claimable_of_readyAt (hexpiring : Expiring naming s.store queue now expiring) {entry : Bytes × Bytes}
    (hjob : ReadyAt naming (Queues.withRequeued codec s queue expiring).store queue entry job)
    (havailable : job.availableAtMs ≤ now) : ∃ old, Claimable codec queue now s.store old ∧ freed now old = job := by
  have hstored := hjob.stored
  rw [store_withRequeued, stored_foldl_replace_iff hexpiring.requeued_nodup] at hstored
  rcases hstored with hmem | ⟨hstored, -⟩
  · obtain ⟨old, hold, rfl⟩ := List.mem_map.mp hmem
    have hdue := hexpiring.due old hold
    exact ⟨old, ⟨hdue.stored, hdue.queue_eq, Or.inr hdue.expired⟩, if_pos hdue.expired⟩
  · exact ⟨job, ⟨hstored, hjob.queue_eq, Or.inl ⟨hjob.ready, havailable⟩⟩, if_neg (by simp [expired, hjob.ready])⟩

variable (options ack) in
theorem Exact.claimJob_expiring (h : Exact naming s) (hnow : 0 ≤ now.val) (hqueue : naming.queue queue)
    (hexpiring : Expires naming s queue now expiring) :
    ∃ result s', claimJob codec queue now s options ack = .ok (result, s') ∧ Exact naming s' ∧
      s'.store = result.toList.foldl (replace codec) (Queues.withRequeued codec s queue expiring).store ∧
      ((result = none ∧ ∀ job, ¬ Claimable codec queue now s.store job) ∨
        ∃ job, LeastClaimable codec queue now s.store job ∧ result = some (job.claimed now options ack)) := by
  have ht := h.withRequeued hqueue hexpiring.toExpiring
  have hstart := startEntries_eq (ht.cursors queue hqueue)
  have hsorted := (Queues.withRequeued codec s queue expiring).store.readyJobs.withPrefix_sorted
    (codec.makeReadyPrefix queue)
  rw [← readyEntries] at hsorted
  have hclaimable : ∀ job, Claimable codec queue now s.store job →
      readyEntry codec job ∈ readyEntries codec (Queues.withRequeued codec s queue expiring).store queue ∧
      ¬ DelayedAt naming (Queues.withRequeued codec s queue expiring).store queue now (readyEntry codec job) := by
    intro job hjob
    obtain ⟨hother, havailable⟩ := h.readyAt_of_claimable hqueue hexpiring hjob
    refine ⟨(mem_readyEntries_iff ht.indexed hqueue).mpr ⟨_, hother⟩, ?_⟩
    rintro ⟨delayed, hdelayed, hlt⟩
    have hsame := readyEntry_inj ht.indexed hdelayed.stored hother.stored (hdelayed.entry_eq.trans hother.entry_eq.symm)
    rw [hsame] at hlt
    exact absurd havailable (not_le.mpr hlt)
  rcases claimJob_cases h.indexed h.cursorsIn hqueue hexpiring options ack rfl with
    ⟨hdelayed, s', heq, hupdated⟩ | ⟨before, entry, rest, job, s', hentries, hbefore, hjob, havailable, heq, hupdated⟩
  · refine ⟨none, s', heq, ?_, hupdated.store_eq, Or.inl ⟨rfl, ?_⟩⟩
    · have hupdated' : Updated (Queues.withRequeued codec s queue expiring) s' queue
          (([] : List QueueJob).foldl (replace codec) (Queues.withRequeued codec s queue expiring).store) _ _ _ :=
            hupdated.toUpdated
      refine ht.updated hupdated' (by simp) (by simp) (by simp) (by simp) ?_ ?_
      · intro expiry
        rw [hupdated.store_eq]
      · rintro - first hfirst
        cases hfirst
        rw [hstart, hupdated.store_eq]
        exact isFirst_head? hsorted
    · intro job hjob
      obtain ⟨hmem, hnot⟩ := hclaimable job hjob
      exact hnot (hdelayed _ (hstart ▸ hmem))
  · rw [hstart] at hentries
    refine ⟨some (job.claimed now options ack), s', heq,
      ht.claimed hqueue hentries hjob hnow havailable hupdated.toUpdated, hupdated.store_eq, Or.inr ?_⟩
    obtain ⟨old, hold, rfl⟩ := claimable_of_readyAt hexpiring.toExpiring hjob havailable
    have hentry : readyEntry codec old = entry := readyEntry_freed old ▸ hjob.entry_eq
    refine ⟨old, ⟨hold, ?_⟩, by rw [claimed_freed]⟩
    intro other hother
    obtain ⟨hmem, hnot⟩ := hclaimable other hother
    rw [hentries] at hmem hsorted
    rw [hentry]
    rcases List.mem_append.mp hmem with hmem | hmem
    · exact absurd (hbefore _ hmem) hnot
    · rcases List.mem_cons.mp hmem with heq | hmem
      · rw [heq]
      · exact ((List.pairwise_cons.mp (List.pairwise_append.mp hsorted).2.1).1 _ hmem).le

variable (options ack) in
theorem Exact.claimJob (h : Exact naming s) (hnow : 0 ≤ now.val) (hqueue : naming.queue queue) :
    ∃ result s', claimJob codec queue now s options ack = .ok (result, s') ∧ Exact naming s' ∧
      ((result = none ∧ ∀ job, ¬ Claimable codec queue now s.store job) ∨
        ∃ job, LeastClaimable codec queue now s.store job ∧ result = some (job.claimed now options ack)) := by
  obtain ⟨expiring, hexpiring⟩ := exists_expires now h.indexed hqueue
  obtain ⟨result, s', heq, hexact, -, hresult⟩ := h.claimJob_expiring options ack hnow hqueue hexpiring
  exact ⟨result, s', heq, hexact, hresult⟩

end Claim

section Release

variable {new : QueueJob} {settle : QueueJob → QueueJob}

theorem Exact.entered (h : Exact naming s) (hnames : naming.Names new)
    (hold : ∀ old, Stored codec s.store old → jobKey codec old = jobKey codec new → old.status ≠ .ready)
    (hgiven : LeaseGiven new) {removed added : List Millis}
    (hupdated : Updated s s' new.queue (s.store.replace codec new) removed added
      (if new.status = .ready then (s.readyCursors.get new.queue).map (leastCursor · (readyEntry codec new))
        else s.readyCursors.get new.queue))
    (hcount : ∀ expiry, (s.store.replace codec new).leasedCount new.queue expiry + removed.count expiry ≤
      s.store.leasedCount new.queue expiry + added.count expiry) :
    Exact naming s' := by
  have hupdated' : Updated s s' new.queue ([new].foldl (replace codec) s.store) removed added _ := hupdated
  refine h.updated hupdated' (by simpa using hnames) (by simp) (by simpa using hgiven) (by simp) ?_ ?_
  · rwa [hupdated.store_eq]
  · intro hqueue first hfirst
    have hmem : ∀ entry, entry ∈ readyEntries codec s'.store new.queue ↔
        entry ∈ readyEntries codec s.store new.queue ∨ (new.status = .ready ∧ readyEntry codec new = entry) := by
      intro entry
      rw [hupdated'.store_eq, mem_readyEntries_foldl_replace h.indexed hqueue (by simpa using hnames) (by simp)]
      have hother : entry ∈ readyEntries codec s.store new.queue →
          ∀ old, Stored codec s.store old → jobKey codec old ∈ [new].map (jobKey codec) →
            readyEntry codec old ≠ entry := by
        intro hentry old hstored hkey heq
        obtain ⟨job, hjob⟩ := exists_readyAt h.indexed hqueue hentry
        have hsame := readyEntry_inj h.indexed hstored hjob.stored (heq.trans hjob.entry_eq.symm)
        exact hold old hstored (by simpa using hkey) (hsame ▸ hjob.ready)
      rw [and_iff_left_of_imp hother]
      simp [or_comm]
    split_ifs at hfirst with hready
    · obtain ⟨cursor, hcursor, rfl⟩ := Option.map_eq_some_iff.mp hfirst
      refine ((h.cursors _ hqueue cursor hcursor).leastCursor _).congr fun entry => ?_
      rw [hmem]
      simp [hready, eq_comm]
    · refine (h.cursors _ hqueue first hfirst).congr fun entry => ?_
      rw [hmem]
      simp [hready]

variable {store : QueueStore}

theorem Counted.releaseCounters {cursor : Option (Option (Bytes × Bytes))} (h : Counted s s' queue store [] [] cursor)
    (leaseExpiresAtMs : Option Millis) :
    Counted s (s'.releaseCounters queue leaseExpiresAtMs) queue store leaseExpiresAtMs.toList [] cursor := by
  cases leaseExpiresAtMs with
  | none => exact h
  | some expiresAtMs => exact h.deltas [expiresAtMs] []

variable {id : Bytes}

theorem job_of_get (h : Indexed naming s.store) (hqueue : naming.queue queue) (hid : naming.id id)
    (hget : s.store.queueJobs.get (codec.makeQueueKey queue id) = some job) :
    Stored codec s.store job ∧ naming.Names job ∧ job.queue = queue ∧ job.id = id := by
  obtain ⟨hkey, hnames⟩ := h.keyed _ job hget
  obtain ⟨hjobQueue, hjobId⟩ := naming.queueKey_inj hqueue hnames.queue hid hnames.id hkey
  rw [hkey] at hget
  exact ⟨hget, hnames, hjobQueue.symm, hjobId.symm⟩

theorem releaseWrites_eq (hleased : job.status = .leased) :
    releaseWrites codec job.queue job.id job.leaseExpiresAtMs = removeLeaseOf codec job := by
  unfold releaseWrites removeLeaseOf leaseEntry
  cases hexpiry : job.leaseExpiresAtMs <;> simp [hleased]

structure Settling (settle : QueueJob → QueueJob) : Prop where
  queue_eq : ∀ job, (settle job).queue = job.queue
  id_eq : ∀ job, (settle job).id = job.id
  stamp_eq : ∀ job, (settle job).createdAt = job.createdAt
  unleased : ∀ job, (settle job).status ≠ .leased

theorem settling_completedNow (now : Millis) : Settling (completedNow · now) :=
  ⟨fun _ => rfl, fun _ => rfl, fun _ => rfl, fun _ => by simp [completedNow]⟩

theorem settling_nacked (now : Millis) (options : QueueNackOptions) : Settling (nacked · now options) := by
  constructor <;> intro job <;> unfold nacked <;> dsimp only <;> split_ifs <;> simp

variable (codec) in
def settleLease (s : Queues) (queue id : Bytes) (settle : QueueJob → QueueJob) : Option QueueJob × Queues :=
  match s.store.queueJobs.get (codec.makeQueueKey queue id) with
  | none => (none, s)
  | some job =>
    if job.status ≠ .leased then (none, s)
    else
      let entry := readyEntry codec (settle job)
      let retry := if (settle job).status = .ready then [.insertReady entry.1 entry.2] else []
      let committed := s.commit
        (.insertJob (codec.makeQueueKey queue id) (settle job) :: releaseWrites codec queue id job.leaseExpiresAtMs ++
          retry)
      let released := committed.releaseCounters queue job.leaseExpiresAtMs
      (some (settle job), if (settle job).status =
        .ready then released.cacheQueueReadyMin queue entry.1 entry.2 else released)

theorem ackJob_eq (now : Millis) : ackJob codec s queue id now = settleLease codec s queue id (completedNow · now) := by
  unfold ackJob settleLease
  dsimp only
  cases s.store.queueJobs.get (codec.makeQueueKey queue id) with
  | none => rfl
  | some job => simp [completedNow]

/-- The lease of a stored job ends. -/
structure LeaseSettled (naming : Naming codec) (s : Queues) (job new : QueueJob) (s' : Queues) : Prop where
  stored : Stored codec s.store job
  leased : job.status = .leased
  key_eq : jobKey codec new = jobKey codec job
  queue_eq : new.queue = job.queue
  names : naming.Names new
  unleased : new.status ≠ .leased
  counted : Counted s s' new.queue (s.store.replace codec new) job.leaseExpiresAtMs.toList []
    (if new.status = .ready then (s.readyCursors.get new.queue).map (leastCursor · (readyEntry codec new))
      else s.readyCursors.get new.queue)

theorem settleLease_cases (h : Indexed naming s.store) (hqueue : naming.queue queue) (hid : naming.id id)
    (hsettle : Settling settle) :
    (settleLease codec s queue id settle = (none, s) ∧
      ∀ job, Stored codec s.store job → job.queue = queue → job.id = id → job.status ≠ .leased) ∨
    ∃ job s', settleLease codec s queue id settle = (some (settle job), s') ∧ job.queue = queue ∧ job.id = id ∧
      LeaseSettled naming s job (settle job) s' := by
  cases hget : s.store.queueJobs.get (codec.makeQueueKey queue id) with
  | none =>
    refine Or.inl ⟨by simp [settleLease, hget], ?_⟩
    rintro job hstored rfl rfl
    exact absurd (hget.symm.trans hstored) nofun
  | some job =>
    obtain ⟨hstored, hnames, rfl, rfl⟩ := job_of_get h hqueue hid hget
    by_cases hleased : job.status = .leased
    · have hjobQueue := hsettle.queue_eq job
      have hkey : jobKey codec (settle job) = jobKey codec job := jobKey_congr hjobQueue (hsettle.id_eq job)
      have hcommit : s.store.commit (.insertJob (jobKey codec job) (settle job) ::
          (removeLeaseOf codec job ++ insertReadyOf codec (settle job))) = _ :=
        commit_release hstored hkey hleased (hsettle.unleased job)
      rw [← releaseWrites_eq hleased, jobKey] at hcommit
      refine Or.inr ⟨job, _,
        by simp only [settleLease, hget, hleased, ne_eq, not_true]; rfl, rfl, rfl, hstored, hleased,
        hkey, hjobQueue, ⟨hjobQueue ▸ hnames.queue, hsettle.stamp_eq job ▸ hnames.stamp, hsettle.id_eq job ▸ hnames.id⟩,
        hsettle.unleased job, ?_⟩
      rw [hjobQueue]
      by_cases hready : (settle job).status = .ready
      · simp only [hready]
        apply Counted.cacheQueueReadyMin
        apply Counted.releaseCounters
        apply counted_commit
        simpa [insertReadyOf, readyIndexEntry, hready] using hcommit
      · simp only [hready]
        apply Counted.releaseCounters
        apply counted_commit
        simpa [insertReadyOf, readyIndexEntry, hready] using hcommit
    · refine Or.inl ⟨by simp [settleLease, hget, hleased], fun other hother hsame hsameId => ?_⟩
      rwa [Stored.inj hother hstored (jobKey_congr hsame hsameId)]

theorem leasedCount_release {old : QueueJob} (hstored : Stored codec s.store old) (hleased : old.status = .leased)
    (hkey : jobKey codec new = jobKey codec old) (hnew : new.status ≠ .leased) (expiry : Millis) :
    (s.store.replace codec new).leasedCount old.queue expiry + old.leaseExpiresAtMs.toList.count expiry =
      s.store.leasedCount old.queue expiry := by
  have hcount := leasedCount_replace codec s.store old.queue expiry new
  rw [hkey, show s.store.queueJobs.get (jobKey codec old) = some old from hstored] at hcount
  have hzero : leasedUntil old.queue expiry new = false := by simp [leasedUntil, hnew]
  have hold : old.leaseExpiresAtMs.toList.count expiry = if leasedUntil old.queue expiry old then 1 else 0 := by
    cases hexpiry : old.leaseExpiresAtMs with
    | none => simp [leasedUntil, hexpiry]
    | some other =>
      by_cases heq : other = expiry
      · subst heq
        simp [leasedUntil, hexpiry, hleased]
      · rw [Option.toList_some]
        simp [leasedUntil, hexpiry, heq]
  rw [hzero] at hcount
  rw [hold]
  simpa using hcount

section

variable (h : Exact naming s) (hqueue : naming.queue queue) (hid : naming.id id)
include h hqueue hid

theorem Exact.settleLease (hsettle : Settling settle) : Exact naming (settleLease codec s queue id settle).2 := by
  rcases settleLease_cases h.indexed hqueue hid hsettle with ⟨heq, -⟩ | ⟨job, s', heq, -, -, hsettled⟩
  · rw [heq]
    exact h
  · rw [heq]
    refine h.entered hsettled.names ?_ (fun hleased => absurd hleased hsettled.unleased) hsettled.counted.toUpdated ?_
    · intro old hold hkey
      rw [Stored.inj hold hsettled.stored (hkey.trans hsettled.key_eq), hsettled.leased]
      decide
    · intro expiry
      rw [hsettled.queue_eq]
      exact (leasedCount_release hsettled.stored hsettled.leased hsettled.key_eq hsettled.unleased expiry).le

theorem Exact.ackJob :
    Exact naming (ackJob codec s queue id now).2 := ackJob_eq now ▸ h.settleLease hqueue hid (settling_completedNow now)

theorem Exact.nackJobWithOptions (options : QueueNackOptions) :
    Exact naming (nackJobWithOptions codec s queue id options now).2 :=
  h.settleLease hqueue hid (settling_nacked now options)

end

end Release

section Push

variable (codec) in
structure Fresh (naming : Naming codec) (store : QueueStore) (job : QueueJob) : Prop where
  names : naming.Names job
  fresh : store.queueJobs.get (jobKey codec job) = none
  unleased : leaseEntry codec job = none

variable (codec) in
def pushOne (s : Queues) (job : QueueJob) : Queues := cachePushed codec (s.commit (pushWrites codec job)) job

theorem counted_pushOne (hjob : Fresh codec naming s.store job) :
    Counted s (pushOne codec s job) job.queue (s.store.replace codec job) [] []
      (if job.status = .ready then (s.readyCursors.get job.queue).map (leastCursor · (readyEntry codec job))
        else s.readyCursors.get job.queue) := by
  have hcommit : Counted s (s.commit (pushWrites codec job)) job.queue (s.store.replace codec job) [] []
      (s.readyCursors.get job.queue) := counted_commit (commit_push hjob.fresh hjob.unleased)
  unfold pushOne cachePushed
  split_ifs with hready
  · exact hcommit.cacheQueueReadyMin _
  · exact hcommit

theorem Exact.pushOne (h : Exact naming s) (hjob : Fresh codec naming s.store job) :
    Exact naming (pushOne codec s job) := by
  have hunleased : ∀ expiry, leasedUntil job.queue expiry job = false := by
    have hnone := hjob.unleased
    unfold leaseEntry at hnone
    by_cases hleased : job.status = .leased
    · rw [if_pos hleased, Option.map_eq_none_iff] at hnone
      simp [leasedUntil, hnone]
    · simp [leasedUntil, hleased]
  refine h.entered hjob.names ?_ ?_ (counted_pushOne hjob).toUpdated ?_
  · intro old hold hkey
    rw [Stored, hkey, hjob.fresh] at hold
    cases hold
  · intro hleased expiry hexpiry
    have hfalse := hunleased expiry
    simp [leasedUntil, hleased, hexpiry] at hfalse
  · intro expiry
    have hcount := leasedCount_replace codec s.store job.queue expiry job
    rw [hjob.fresh, hunleased] at hcount
    simpa using hcount.le

theorem cachePushed_commit (s : Queues) (job : QueueJob) (batch : List QueueWrite) :
    (cachePushed codec s job).commit batch = cachePushed codec (s.commit batch) job := by
  unfold cachePushed cacheQueueReadyMin
  dsimp only [Queues.commit]
  split_ifs
  · cases s.readyCursors.get job.queue with
    | none => rfl
    | some cursor =>
      dsimp only
      split_ifs <;> rfl
  · rfl

theorem foldl_pushOne (s : Queues) (jobs : List QueueJob) :
    jobs.foldl (cachePushed codec) (s.commit (jobs.flatMap (pushWrites codec))) = jobs.foldl (pushOne codec) s := by
  induction jobs generalizing s with
  | nil => rfl
  | cons job jobs ih =>
    have hcommit : s.commit ((job :: jobs).flatMap (pushWrites codec)) =
        (s.commit (pushWrites codec job)).commit (jobs.flatMap (pushWrites codec)) := by
      simp only [Queues.commit, List.flatMap_cons, commit_append]
    rw [List.foldl_cons, hcommit, ← cachePushed_commit, ih]
    rfl

theorem Exact.foldl_pushOne (h : Exact naming s) (hjobs : ∀ job ∈ jobs, Fresh codec naming s.store job)
    (hnodup : (jobs.map (jobKey codec)).Nodup) : Exact naming (jobs.foldl (Queues.pushOne codec) s) := by
  induction jobs generalizing s with
  | nil => exact h
  | cons job jobs ih =>
    obtain ⟨hjob, hjobs⟩ := List.forall_mem_cons.mp hjobs
    obtain ⟨hnot, hnodup⟩ := List.nodup_cons.mp hnodup
    refine ih (h.pushOne hjob) (fun other hother => ?_) hnodup
    have hfresh := hjobs other hother
    refine ⟨hfresh.names, ?_, hfresh.unleased⟩
    have hne : jobKey codec other ≠ jobKey codec job := by
      intro heq
      exact hnot (heq ▸ List.mem_map_of_mem hother)
    rw [(counted_pushOne hjob).store_eq, get_replace_of_ne _ hne]
    exact hfresh.fresh

end Push

end Thingd.Engine.Queues
