import Thingd.Engine.QueueCache
import Thingd.Engine.QueueIndex

namespace Thingd.Engine

open Queues SortedMap QueueJob List

variable {entry : Bytes × Bytes} {job : QueueJob} {entries rest : List (Bytes × Bytes)} {jobs : List QueueJob}

namespace QueueStore

variable {codec : StorageCodec} {naming : Naming codec} {s : QueueStore} {queue : Bytes} {now : Millis}

def leaseDue (job : QueueJob) : Millis := (job.leaseExpiresAtMs.getD Millis.zero).nonneg

variable (naming s queue now) in
structure Due (job : QueueJob) : Prop where
  stored : Stored codec s job
  names : naming.Names job
  queue_eq : job.queue = queue
  leased : job.status = .leased
  expired : job.expired now = true
  due : leaseDue job ≤ now

theorem Indexed.exists_leased (h : Indexed naming s) (hqueue : naming.queue queue)
    (hentry : entry ∈ s.leaseJobs.withPrefix (codec.makeLeasePrefix queue)) :
    ∃ job, Stored codec s job ∧ naming.Names job ∧ job.queue = queue ∧ leaseEntry codec job = some entry := by
  obtain ⟨hget, hstarts⟩ := mem_withPrefix.mp hentry
  obtain ⟨key, job, hjob, hlease⟩ := h.leaseSound _ _ hget
  obtain ⟨rfl, hnames⟩ := h.keyed key job hjob
  obtain ⟨-, expiry, -, heq⟩ := leaseEntry_eq_some hlease
  rw [congrArg Prod.fst heq] at hstarts
  exact ⟨job, hjob, hnames, (naming.leasePrefix hqueue hnames.queue hstarts).symm, hlease⟩

theorem leaseExpiration_of_leaseEntry (h : leaseEntry codec job = some entry) :
    codec.leaseExpiration job.queue entry.1 = .ok (leaseDue job) := by
  obtain ⟨-, expiry, hexpiry, rfl⟩ := leaseEntry_eq_some h
  rw [StorageCodec.leaseExpiration_makeLeaseKey, leaseDue, hexpiry]
  rfl

theorem expired_of_leaseDue (h : leaseEntry codec job = some entry) (hdue : leaseDue job ≤ now) :
    job.expired now = true := by
  obtain ⟨hleased, expiry, hexpiry, -⟩ := leaseEntry_eq_some h
  rw [leaseDue, hexpiry] at hdue
  have hle : expiry ≤ now := le_trans expiry.le_nonneg hdue
  simp [QueueJob.expired, hleased, hexpiry, hle]

variable (codec queue now) in
def Unexpired (rest : List (Bytes × Bytes)) : Prop :=
  ∀ entry ∈ rest.head?, ∃ expiry, codec.leaseExpiration queue entry.1 = .ok expiry ∧ now < expiry

variable (now) in
theorem Indexed.exists_due (h : Indexed naming s) (hqueue : naming.queue queue)
    (hentries : ∀ entry ∈ entries, entry ∈ s.leaseJobs.withPrefix (codec.makeLeasePrefix queue)) :
    ∃ (jobs : List QueueJob) (rest : List (Bytes × Bytes)),
      entries.map some = jobs.map (leaseEntry codec) ++ rest.map some ∧
      (∀ job ∈ jobs, Due naming s queue now job) ∧ Unexpired codec queue now rest := by
  induction entries with
  | nil => exact ⟨[], [], rfl, by simp, by simp [Unexpired]⟩
  | cons entry entries ih =>
    obtain ⟨job, hstored, hnames, rfl, hlease⟩ := h.exists_leased hqueue (hentries entry mem_cons_self)
    have hexpiration := leaseExpiration_of_leaseEntry hlease
    by_cases hdue : leaseDue job ≤ now
    · obtain ⟨jobs, rest, hsplit, hjobs, hrest⟩ := ih fun other hother => hentries other (mem_cons_of_mem _ hother)
      refine ⟨job :: jobs, rest, by rw [map_cons, map_cons, hsplit, hlease]; rfl, ?_, hrest⟩
      intro other hother
      rcases mem_cons.mp hother with rfl | hother
      · exact ⟨hstored, hnames, rfl, (leaseEntry_eq_some hlease).1, expired_of_leaseDue hlease hdue, hdue⟩
      · exact hjobs other hother
    · refine ⟨[], entry :: entries, rfl, by simp, ?_⟩
      intro other hother
      cases hother
      exact ⟨leaseDue job, hexpiration, not_le.mp hdue⟩

variable (codec) in
def requeueWrites (job : QueueJob) : List QueueWrite :=
  removeLeaseOf codec job ++ [.insertJob (jobKey codec job) job.requeued,
    .insertReady (readyEntry codec job).1 (readyEntry codec job).2]

theorem Due.exists_entry (h : Due naming s queue now job) {more : List (Option (Bytes × Bytes))}
    (hsplit : entries.map some = leaseEntry codec job :: more) :
    ∃ entry after, entries = entry :: after ∧ after.map some = more ∧ leaseEntry codec job = some entry ∧
      codec.leaseExpiration queue entry.1 = .ok (leaseDue job) ∧ codec.decodeQueueId entry.2 = .ok job.id := by
  cases entries with
  | nil => cases hsplit
  | cons entry entries =>
    obtain ⟨hentry, hsplit⟩ := List.cons.inj hsplit
    obtain ⟨-, _, -, hvalue⟩ := leaseEntry_eq_some hentry.symm
    have hexpiration := leaseExpiration_of_leaseEntry hentry.symm
    rw [h.queue_eq] at hexpiration
    refine ⟨entry, entries, rfl, hsplit, hentry.symm, hexpiration, ?_⟩
    rw [hvalue]
    exact naming.decode_encode h.names.id

theorem expireEntries_eq (hjobs : ∀ job ∈ jobs, Due naming s queue now job) (hrest : Unexpired codec queue now rest)
    (hsplit : entries.map some = jobs.map (leaseEntry codec) ++ rest.map some) (expiry : Expiry) :
    expireEntries codec queue now s entries expiry = .ok ⟨expiry.batch ++ jobs.flatMap (requeueWrites codec),
      expiry.removed ++ jobs.map leaseDue, expiry.ready ++ jobs.map (readyEntry codec)⟩ := by
  induction jobs generalizing entries expiry with
  | nil =>
    have heq : entries = rest := map_injective_iff.mpr (Option.some_injective _) hsplit
    subst heq
    cases entries with
    | nil => simp [expireEntries]
    | cons entry entries =>
      obtain ⟨expiresAtMs, hexpiration, hlt⟩ := hrest entry rfl
      simp [expireEntries, hexpiration, hlt, bind, Except.bind]
  | cons job jobs ih =>
    obtain ⟨hjob, hjobs⟩ := forall_mem_cons.mp hjobs
    obtain ⟨entry, after, rfl, hsplit, hentry, hexpiration, hdecode⟩ := hjob.exists_entry hsplit
    obtain ⟨hstored, -, rfl, -, hexpired, hdue⟩ := hjob
    have hget : s.queueJobs.get (codec.makeQueueKey job.queue job.id) = some job := hstored
    simp only [expireEntries, hexpiration, hdecode, bind, Except.bind, not_lt.mpr hdue, hget, hexpired]
    rw [ih hjobs hsplit]
    simp [requeueWrites, removeLeaseOf, hentry, jobKey]

theorem Stored.inj {a b : QueueJob} (ha : Stored codec s a) (hb : Stored codec s b)
    (h : jobKey codec a = jobKey codec b) : a = b := by
  have ha : s.queueJobs.get (jobKey codec a) = some a := ha
  rw [h] at ha
  exact Option.some.inj (ha.symm.trans hb)

theorem nodup_jobKey (hstored : ∀ job ∈ jobs, Stored codec s job) (hnodup : jobs.Nodup) :
    (jobs.map (jobKey codec)).Nodup :=
  hnodup.map_on fun a ha b hb h => Stored.inj (hstored a ha) (hstored b hb) h

theorem nodup_of_leaseEntry (hsorted : entries.Pairwise fun x y => x.1 < y.1)
    (hsplit : entries.map some = jobs.map (leaseEntry codec) ++ rest.map some) : jobs.Nodup := by
  have hnodup : (entries.map some).Nodup :=
    Nodup.map (Option.some_injective _) (hsorted.imp fun hlt => ne_of_apply_ne Prod.fst hlt.ne)
  rw [hsplit] at hnodup
  exact Nodup.of_map _ (nodup_append.mp hnodup).1

variable (codec) in
def requeueRewrite (job : QueueJob) : Rewrite := ⟨job, job.requeued, requeueWrites codec job⟩

theorem requeueRewrite_valid (hnames : naming.Names job) (hleased : job.status = .leased) :
    (requeueRewrite codec job).Valid naming where
  names := ⟨hnames.queue, hnames.stamp, hnames.id⟩
  key := rfl
  commit := fun _ _ hstored => commit_requeue hstored hleased

structure Expiring (naming : Naming codec) (s : QueueStore) (queue : Bytes) (now : Millis) (jobs : List QueueJob) :
    Prop where
  due : ∀ job ∈ jobs, Due naming s queue now job
  nodup : (jobs.map (jobKey codec)).Nodup

theorem requeued_keys (jobs : List QueueJob) : (jobs.map requeued).map (jobKey codec) = jobs.map (jobKey codec) := by
  rw [map_map]
  rfl

theorem Expiring.requeued_nodup (hjobs : Expiring naming s queue now jobs) :
    ((jobs.map requeued).map (jobKey codec)).Nodup := by
  rw [requeued_keys]
  exact hjobs.nodup

theorem Expiring.names (hjobs : Expiring naming s queue now jobs) : ∀ job ∈ jobs.map requeued, naming.Names job := by
  intro job hjob
  obtain ⟨old, hold, rfl⟩ := mem_map.mp hjob
  exact (requeueRewrite_valid (hjobs.due old hold).names (hjobs.due old hold).leased).names

theorem commit_requeueWrites (h : Indexed naming s) (hjobs : Expiring naming s queue now jobs) :
    s.commit (jobs.flatMap (requeueWrites codec)) = (jobs.map requeued).foldl (replace codec) s := by
  have hcommit : s.commit ((jobs.map (requeueRewrite codec)).flatMap Rewrite.writes) = _ := commit_rewrites h ?_ ?_ ?_
  · rwa [flatMap_map, map_map] at hcommit
  · intro r hr
    obtain ⟨job, hjob, rfl⟩ := mem_map.mp hr
    exact requeueRewrite_valid (hjobs.due job hjob).names (hjobs.due job hjob).leased
  · intro r hr
    obtain ⟨job, hjob, rfl⟩ := mem_map.mp hr
    exact (hjobs.due job hjob).stored
  · rw [map_map]
    exact hjobs.nodup

variable (codec s queue) in
def readyEntries : List (Bytes × Bytes) := s.readyJobs.withPrefix (codec.makeReadyPrefix queue)

variable (naming s queue) in
structure ReadyAt (entry : Bytes × Bytes) (job : QueueJob) : Prop where
  stored : Stored codec s job
  names : naming.Names job
  queue_eq : job.queue = queue
  ready : job.status = .ready
  entry_eq : readyEntry codec job = entry

theorem exists_readyAt (h : Indexed naming s) (hqueue : naming.queue queue)
    (hentry : entry ∈ readyEntries codec s queue) : ∃ job, ReadyAt naming s queue entry job := by
  obtain ⟨hget, hstarts⟩ := mem_withPrefix.mp hentry
  obtain ⟨key, job, hjob, hready⟩ := h.readySound _ _ hget
  obtain ⟨rfl, hnames⟩ := h.keyed key job hjob
  obtain ⟨hstatus, heq⟩ := readyEntry_of_readyIndexEntry hready
  rw [congrArg Prod.fst heq] at hstarts
  exact ⟨job, hjob, hnames, (naming.readyPrefix hqueue hnames.queue hstarts).symm, hstatus, heq.symm⟩

theorem mem_readyEntries (h : Indexed naming s) (hstored : Stored codec s job) (hready : job.status = .ready) :
    readyEntry codec job ∈ readyEntries codec s job.queue := by
  refine mem_withPrefix.mpr ⟨?_, codec.makeReadyPrefix_isPrefix _ _ _ _⟩
  rw [h.get_readyJobs hstored, if_pos hready]

theorem ReadyAt.readyJobId (h : ReadyAt naming s queue entry job) :
    codec.readyJobId entry.1 entry.2 = .ok (some job.id) := by
  have hvalue : entry.2 = codec.encodeQueueId job.id := by rw [← h.entry_eq]; rfl
  have hne : (codec.encodeQueueId job.id).isEmpty = false := by simpa using naming.encode_ne_nil h.names.id
  rw [StorageCodec.readyJobId, hvalue, hne, naming.decode_encode h.names.id]
  rfl

theorem ReadyAt.get (h : ReadyAt naming s queue entry job) :
    s.queueJobs.get (codec.makeQueueKey queue job.id) = some job := by
  have hstored := h.stored
  rw [Stored, jobKey, h.queue_eq] at hstored
  exact hstored

variable (naming s queue now) in
def DelayedAt (entry : Bytes × Bytes) : Prop := ∃ job, ReadyAt naming s queue entry job ∧ now < job.availableAtMs

end QueueStore

namespace Queues

open QueueStore

variable {codec : StorageCodec} {naming : Naming codec} {s : Queues} {queue : Bytes} {now : Millis}

variable (codec s queue now) in
def readLeases : List (Bytes × Bytes) :=
  if s.queueHasExpiredLeases queue now then s.store.leaseJobs.withPrefix (codec.makeLeasePrefix queue) else []

variable (naming s queue now) in
structure Expires (jobs : List QueueJob) : Prop extends Expiring naming s.store queue now jobs where
  split : ∃ rest, Unexpired codec queue now rest ∧
    (readLeases codec s queue now).map some = jobs.map (leaseEntry codec) ++ rest.map some

variable (now) in
theorem exists_expires (h : Indexed naming s.store) (hqueue : naming.queue queue) :
    ∃ jobs, Expires naming s queue now jobs := by
  by_cases hexpired : s.queueHasExpiredLeases queue now
  · obtain ⟨jobs, rest, hsplit, hjobs, hrest⟩ := h.exists_due now hqueue fun entry hentry => hentry
    have hnodup := nodup_of_leaseEntry (s.store.leaseJobs.withPrefix_sorted _) hsplit
    refine ⟨jobs, ⟨hjobs, nodup_jobKey (fun job hjob => (hjobs job hjob).stored) hnodup⟩, rest, hrest, ?_⟩
    rwa [readLeases, if_pos hexpired]
  · refine ⟨[], ⟨by simp, by simp⟩, [], by simp [Unexpired], ?_⟩
    rw [readLeases, if_neg hexpired]
    rfl

variable (codec) in
def withRequeued (s : Queues) (queue : Bytes) (jobs : List QueueJob) : Queues :=
  let replaced := { s with store := (jobs.map requeued).foldl (replace codec) s.store }
  ((replaced.applyQueueLeaseDelta queue jobs.length 0).applyQueueLeaseExpirationDelta queue
    (jobs.map leaseDue) []).cacheReady queue (jobs.map (readyEntry codec))

theorem expireLeases_eq (h : Indexed naming s.store) (hjobs : Expires naming s queue now jobs) :
    expireLeases codec queue now s = .ok (withRequeued codec s queue jobs) := by
  obtain ⟨hjobs, rest, hrest, hsplit⟩ := hjobs
  have hentries := expireEntries_eq hjobs.due hrest hsplit ⟨[], [], []⟩
  simp only [nil_append] at hentries
  unfold expireLeases
  rw [← readLeases]
  dsimp only
  rw [hentries]
  simp only [bind, Except.bind]
  cases hcases : jobs with
  | nil => rfl
  | cons job others =>
    have hcommit := commit_requeueWrites h hjobs
    have hne : (jobs.flatMap (requeueWrites codec)).isEmpty = false := by
      simp [hcases, requeueWrites]
    rw [← hcases, hne]
    simp only [Bool.false_eq_true, Queues.commit, hcommit, length_map]
    rfl

variable {other : Bytes}

structure Updated (s s' : Queues) (queue : Bytes) (store : QueueStore) (removed added : List Millis)
    (cursor : Option (Option (Bytes × Bytes))) : Prop where
  store_eq : s'.store = store
  count : ∀ expiry, s'.expirationCount queue expiry =
    s.expirationCount queue expiry - removed.count expiry + added.count expiry
  count_other : ∀ other, other ≠ queue → ∀ expiry, s'.expirationCount other expiry = s.expirationCount other expiry
  cursor_eq : s'.readyCursors.get queue = cursor
  cursor_other : ∀ other, other ≠ queue → s'.readyCursors.get other = s.readyCursors.get other

structure Counted (s s' : Queues) (queue : Bytes) (store : QueueStore) (removed added : List Millis)
    (cursor : Option (Option (Bytes × Bytes))) : Prop extends Updated s s' queue store removed added cursor where
  total : s'.leaseCountOf queue = s.leaseCountOf queue - removed.length + added.length
  total_other : ∀ other, other ≠ queue → s'.leaseCountOf other = s.leaseCountOf other

section Counted

variable {s' : Queues} {store : QueueStore} {removed added : List Millis} {cursor : Option (Option (Bytes × Bytes))}

variable (s queue store) in
theorem counted_store : Counted s { s with store } queue store [] [] (s.readyCursors.get queue) where
  store_eq := rfl
  count _ := by simp [expirationCount]
  count_other _ _ _ := rfl
  cursor_eq := rfl
  cursor_other _ _ := rfl
  total := rfl
  total_other _ _ := rfl

theorem counted_commit {batch : List QueueWrite} (hstore : s.store.commit batch = store) :
    Counted s (s.commit batch) queue store [] [] (s.readyCursors.get queue) :=
  hstore ▸ counted_store s queue (s.store.commit batch)

theorem Counted.setCursor (h : Counted s s' queue store removed added cursor) (next : Option (Bytes × Bytes)) :
    Counted s (s'.setCursor queue next) queue store removed added (some next) where
  store_eq := h.store_eq
  count := h.count
  count_other := h.count_other
  cursor_eq := by simp [Queues.setCursor]
  cursor_other other hne := by simp [Queues.setCursor, hne, h.cursor_other other hne]
  total := h.total
  total_other := h.total_other

theorem Counted.deltas (h : Counted s s' queue store [] [] cursor) (removed added : List Millis) :
    Counted s ((s'.applyQueueLeaseDelta queue removed.length added.length).applyQueueLeaseExpirationDelta queue removed
      added) queue store removed added cursor := by
  obtain ⟨hstore, hexpirations, hcursors⟩ := store_applyQueueLeaseDelta s' queue removed.length added.length
  obtain ⟨hstore', hcursors'⟩ := store_applyQueueLeaseExpirationDelta
    (s'.applyQueueLeaseDelta queue removed.length added.length) queue removed added
  refine ⟨⟨?_, ?_, ?_, ?_, ?_⟩, ?_, ?_⟩
  · rw [hstore', hstore, h.store_eq]
  · intro expiry
    have hcount := h.count expiry
    rw [count_nil] at hcount
    rw [expirationCount_delta, expirationCount, hexpirations, ← expirationCount, hcount]
    rfl
  · intro other hne expiry
    rw [expirationCount_delta_of_ne hne, expirationCount, hexpirations, ← expirationCount, h.count_other other hne]
  · rw [hcursors', hcursors, h.cursor_eq]
  · intro other hne
    rw [hcursors', hcursors, h.cursor_other other hne]
  · rw [leaseCountOf_deltas, h.total]
    rfl
  · intro other hne
    rw [leaseCountOf_deltas_of_ne hne, h.total_other other hne]

theorem Counted.cacheQueueReadyMin (h : Counted s s' queue store removed added cursor) (entry : Bytes × Bytes) :
    Counted s (s'.cacheQueueReadyMin queue entry.1 entry.2) queue store removed added
      (cursor.map (leastCursor · entry)) where
  store_eq := (store_cacheQueueReadyMin _ _ _ _).1.trans h.store_eq
  count expiry := by rw [expirationCount, (store_cacheQueueReadyMin _ _ _ _).2, ← expirationCount, h.count]
  count_other other hne expiry := by
    rw [expirationCount, (store_cacheQueueReadyMin _ _ _ _).2, ← expirationCount, h.count_other other hne]
  cursor_eq := by rw [get_cacheQueueReadyMin, h.cursor_eq]
  cursor_other other hne := by rw [get_cacheQueueReadyMin_of_ne hne, h.cursor_other other hne]
  total := by rw [leaseCountOf, leaseCounts_cacheQueueReadyMin, ← leaseCountOf, h.total]
  total_other other hne := by rw [leaseCountOf, leaseCounts_cacheQueueReadyMin, ← leaseCountOf, h.total_other other hne]

theorem Counted.cacheReady (h : Counted s s' queue store removed added cursor) (entries : List (Bytes × Bytes)) :
    Counted s (s'.cacheReady queue entries) queue store removed added
      (cursor.map fun cursor => entries.foldl leastCursor cursor) := by
  induction entries generalizing s' cursor with
  | nil => simpa [Queues.cacheReady] using h
  | cons entry entries ih =>
    have hstep := ih (h.cacheQueueReadyMin entry)
    rw [Option.map_map] at hstep
    exact hstep

theorem counted_withRequeued (jobs : List QueueJob) :
    Counted s (withRequeued codec s queue jobs) queue ((jobs.map requeued).foldl (replace codec) s.store)
      (jobs.map leaseDue) []
      ((s.readyCursors.get queue).map fun cursor => (jobs.map (readyEntry codec)).foldl leastCursor cursor) := by
  have hdeltas := (counted_store s queue ((jobs.map requeued).foldl (replace codec) s.store)).deltas
    (jobs.map leaseDue) []
  rw [length_map] at hdeltas
  exact hdeltas.cacheReady _

theorem store_withRequeued : (withRequeued codec s queue jobs).store =
    (jobs.map requeued).foldl (replace codec) s.store :=
  (counted_withRequeued jobs).store_eq

end Counted

section Ready

variable (now) in
theorem claimEntries_eq (h : Indexed naming s.store) (hqueue : naming.queue queue) (options : QueueClaimOptions)
    (ack : Bool) (hentries : ∀ entry ∈ entries, entry ∈ readyEntries codec s.store queue)
    (delayed : Option (Bytes × Bytes)) :
    ((∀ entry ∈ entries, DelayedAt naming s.store queue now entry) ∧
      claimEntries codec queue now options ack entries s delayed =
        .ok (none, s.setCursor queue (delayed.or entries.head?))) ∨
    ∃ before entry rest job, entries = before ++ entry :: rest ∧
      (∀ other ∈ before, DelayedAt naming s.store queue now other) ∧ ReadyAt naming s.store queue entry job ∧
      job.availableAtMs ≤ now ∧
      claimEntries codec queue now options ack entries s delayed =
        .ok (some (claimReady codec queue now s options ack entry.1 (jobKey codec job) job (delayed.or before.head?)).1,
          (claimReady codec queue now s options ack entry.1 (jobKey codec job) job (delayed.or before.head?)).2) := by
  induction entries generalizing delayed with
  | nil => exact Or.inl ⟨by simp, by simp [claimEntries]⟩
  | cons entry entries ih =>
    obtain ⟨job, hjob⟩ := exists_readyAt h hqueue (hentries entry mem_cons_self)
    have hexpired : job.expired now = false := by simp [QueueJob.expired, hjob.ready]
    by_cases hdelayed : now < job.availableAtMs
    · have hstep : claimEntries codec queue now options ack (entry :: entries) s delayed =
          claimEntries codec queue now options ack entries s (delayed.or (some entry)) := by
        simp [claimEntries, hjob.readyJobId, hjob.get, hexpired, hjob.ready, hdelayed, bind, Except.bind]
      have hhead : ∀ others : List (Bytes × Bytes), (delayed.or (some entry)).or others.head? =
          delayed.or (entry :: others).head? := by
        intro others
        cases delayed <;> rfl
      rcases ih (fun other hother => hentries other (mem_cons_of_mem _ hother)) (delayed.or (some entry)) with
        ⟨hall, hclaim⟩ | ⟨before, first, rest, claimed, rfl, hbefore, hclaimed, havailable, hclaim⟩
      · refine Or.inl ⟨forall_mem_cons.mpr ⟨⟨job, hjob, hdelayed⟩, hall⟩, ?_⟩
        rw [hstep, hclaim, hhead]
      · refine Or.inr ⟨entry :: before, first, rest, claimed, rfl,
          forall_mem_cons.mpr ⟨⟨job, hjob, hdelayed⟩, hbefore⟩, hclaimed, havailable, ?_⟩
        rw [hstep, hclaim, hhead]
    · refine Or.inr ⟨[], entry, entries, job, rfl, by simp, hjob, not_lt.mp hdelayed, ?_⟩
      have hkey : jobKey codec job = codec.makeQueueKey queue job.id := by rw [jobKey, hjob.queue_eq]
      simp [claimEntries, hjob.readyJobId, hjob.get, hexpired, hjob.ready, hdelayed, bind, Except.bind, hkey]

end Ready

section Claim

def leaseAdded (now : Millis) (options : QueueClaimOptions) (ack : Bool) : List Millis :=
  if ack then [] else [leaseDeadline now options]

section

variable (job) (now) (options : QueueClaimOptions) (ack : Bool)

theorem jobKey_claimed : jobKey codec (job.claimed now options ack) = jobKey codec job := by
  cases ack <;> rfl

theorem claimed_status_ne : (job.claimed now options ack).status ≠ .ready := by
  cases ack <;> simp [QueueJob.claimed, leasedNow, completedNow]

end

variable (now) in
theorem counted_claimReady (h : Indexed naming s.store) (hjob : ReadyAt naming s.store queue entry job)
    (options : QueueClaimOptions) (ack : Bool) (delayed : Option (Bytes × Bytes)) :
    (claimReady codec queue now s options ack entry.1 (jobKey codec job) job delayed).1 = job.claimed now options ack ∧
    Counted s (claimReady codec queue now s options ack entry.1 (jobKey codec job) job delayed).2 queue
      (s.store.replace codec (job.claimed now options ack)) [] (leaseAdded now options ack)
      (some (delayed.or (s.store.readyJobs.firstPrefixAfter (codec.makeReadyPrefix queue) (some entry.1)))) := by
  have hcommit := commit_claim h hjob.stored (jobKey_claimed job now options ack)
    (claimed_status_ne job now options ack)
  have hnone : removeLeaseOf codec job = [] := by simp [removeLeaseOf, leaseEntry, hjob.ready]
  rw [hnone, hjob.entry_eq] at hcommit
  have hqueue := hjob.queue_eq
  cases ack with
  | true =>
    have hlease : insertLeaseOf codec (job.claimed now options true) = [] := by
      simp [insertLeaseOf, leaseEntry, QueueJob.claimed, completedNow]
    rw [hlease] at hcommit
    exact ⟨rfl, (counted_commit hcommit).setCursor _⟩
  | false =>
    have hlease : insertLeaseOf codec (job.claimed now options false) =
        [.insertLease (codec.makeLeaseKey queue (leaseDeadline now options) job.id)
          (codec.encodeQueueId job.id)] := by
      simp [insertLeaseOf, leaseEntry, QueueJob.claimed, leasedNow, hqueue]
    rw [hlease] at hcommit
    exact ⟨rfl, ((counted_commit hcommit).setCursor _).deltas [] [leaseDeadline now options]⟩

theorem mem_readyEntries_withRequeued (h : Indexed naming s.store) (hqueue : naming.queue queue)
    (hjobs : Expiring naming s.store queue now jobs) (hother : naming.queue other) :
    entry ∈ readyEntries codec (withRequeued codec s queue jobs).store other ↔
      entry ∈ readyEntries codec s.store other ∨ (other = queue ∧ entry ∈ jobs.map (readyEntry codec)) := by
  have hnodup := hjobs.requeued_nodup
  have hindexed : Indexed naming (withRequeued codec s queue jobs).store := by
    rw [store_withRequeued]
    exact h.foldl_replace hjobs.names
  constructor
  · intro hentry
    obtain ⟨job, hstored, hjobNames, rfl, hready, rfl⟩ := exists_readyAt hindexed hother hentry
    rw [store_withRequeued, stored_foldl_replace_iff hnodup] at hstored
    rcases hstored with hjob | ⟨hstored, -⟩
    · obtain ⟨old, hold, rfl⟩ := mem_map.mp hjob
      exact Or.inr ⟨(hjobs.due old hold).queue_eq, mem_map.mpr ⟨old, hold, rfl⟩⟩
    · exact Or.inl (mem_readyEntries h hstored hready)
  · rintro (hentry | ⟨rfl, hentry⟩)
    · obtain ⟨job, hstored, hjobNames, rfl, hready, rfl⟩ := exists_readyAt h hother hentry
      apply mem_readyEntries hindexed _ hready
      rw [store_withRequeued, stored_foldl_replace_iff hnodup, requeued_keys]
      refine Or.inr ⟨hstored, ?_⟩
      intro hkey
      obtain ⟨old, hold, heq⟩ := mem_map.mp hkey
      have hsame := Stored.inj (hjobs.due old hold).stored hstored heq
      have hleased := (hjobs.due old hold).leased
      rw [hsame, hready] at hleased
      cases hleased
    · obtain ⟨old, hold, rfl⟩ := mem_map.mp hentry
      have hdue := hjobs.due old hold
      have hstored : Stored codec (withRequeued codec s other jobs).store old.requeued := by
        rw [store_withRequeued, stored_foldl_replace_iff hnodup]
        exact Or.inl (mem_map_of_mem hold)
      have hmem := mem_readyEntries hindexed hstored rfl
      rwa [show old.requeued.queue = other from hdue.queue_eq] at hmem

variable (codec s queue) in
def startEntries : List (Bytes × Bytes) :=
  match (firstQueueReadyEntry codec s queue).1 with
  | none => []
  | some entry => entry :: SortedMap.after (readyEntries codec s.store queue) (some entry.1)

theorem startEntries_of_cursor (hentry : entry ∈ readyEntries codec s.store queue)
    (hcursor : (firstQueueReadyEntry codec s queue).1 = some entry) :
    ∃ skipped, readyEntries codec s.store queue = skipped ++ startEntries codec s queue := by
  obtain ⟨skipped, rest, hsplit⟩ := append_of_mem hentry
  have hsorted := s.store.readyJobs.withPrefix_sorted (codec.makeReadyPrefix queue)
  rw [← readyEntries, hsplit] at hsorted
  refine ⟨skipped, ?_⟩
  rw [startEntries, hcursor, hsplit]
  dsimp only
  rw [after_of_append hsorted]

theorem exists_skipped
    (hcursors : ∀ entry, s.readyCursors.get queue = some (some entry) → entry ∈ readyEntries codec s.store queue) :
    ∃ skipped, readyEntries codec s.store queue = skipped ++ startEntries codec s queue := by
  cases hfirst : (firstQueueReadyEntry codec s queue).1 with
  | none => exact ⟨readyEntries codec s.store queue, by simp [startEntries, hfirst]⟩
  | some entry =>
    refine startEntries_of_cursor ?_ hfirst
    unfold firstQueueReadyEntry at hfirst
    cases hget : s.readyCursors.get queue with
    | some cursor =>
      rw [hget] at hfirst
      cases hfirst
      exact hcursors entry hget
    | none =>
      rw [hget] at hfirst
      rw [firstPrefixAfter_none] at hfirst
      exact mem_of_mem_head? hfirst

theorem startEntries_eq
    (hcursors : ∀ cursor, s.readyCursors.get queue = some cursor →
      IsFirst (· ∈ readyEntries codec s.store queue) cursor) :
    startEntries codec s queue = readyEntries codec s.store queue := by
  have hsorted := s.store.readyJobs.withPrefix_sorted (codec.makeReadyPrefix queue)
  have hfirst : (firstQueueReadyEntry codec s queue).1 = (readyEntries codec s.store queue).head? := by
    unfold firstQueueReadyEntry
    cases hget : s.readyCursors.get queue with
    | some cursor => exact (hcursors cursor hget).eq_head? hsorted
    | none => exact firstPrefixAfter_none _ _
  rw [startEntries, hfirst]
  cases hentries : readyEntries codec s.store queue with
  | nil => rfl
  | cons entry rest =>
    rw [← readyEntries, hentries] at hsorted
    dsimp only [List.head?_cons]
    rw [after_cons_self hsorted]

variable (codec) in
theorem firstQueueReadyEntry_state (s : Queues) (queue : Bytes) :
    (firstQueueReadyEntry codec s queue).2.store = s.store ∧
      (firstQueueReadyEntry codec s queue).2.leaseExpirations = s.leaseExpirations ∧
      (firstQueueReadyEntry codec s queue).2.leaseCounts = s.leaseCounts ∧
      ∀ other, other ≠ queue →
        (firstQueueReadyEntry codec s queue).2.readyCursors.get other = s.readyCursors.get other := by
  unfold firstQueueReadyEntry
  cases s.readyCursors.get queue with
  | some cursor => exact ⟨rfl, rfl, rfl, fun _ _ => rfl⟩
  | none => exact ⟨rfl, rfl, rfl, fun other hne => by simp [setCursor, hne]⟩

variable {t : Queues}

theorem Counted.of_state {s' : Queues} {store : QueueStore} {removed added : List Millis}
    {cursor : Option (Option (Bytes × Bytes))} (h : Counted t s' queue store removed added cursor)
    (hexpirations : t.leaseExpirations = s.leaseExpirations) (hcounts : t.leaseCounts = s.leaseCounts)
    (hcursors : ∀ other, other ≠ queue → t.readyCursors.get other = s.readyCursors.get other) :
    Counted s s' queue store removed added cursor where
  store_eq := h.store_eq
  count expiry := by rw [h.count, expirationCount, hexpirations, expirationCount]
  count_other other hne expiry := by rw [h.count_other other hne, expirationCount, hexpirations, expirationCount]
  cursor_eq := h.cursor_eq
  cursor_other other hne := (h.cursor_other other hne).trans (hcursors other hne)
  total := by rw [h.total, leaseCountOf, hcounts, leaseCountOf]
  total_other other hne := by rw [h.total_other other hne, leaseCountOf, hcounts, leaseCountOf]

variable (naming s) in
def CursorsIn : Prop :=
  ∀ queue, naming.queue queue → ∀ entry, s.readyCursors.get queue = some (some entry) →
    entry ∈ readyEntries codec s.store queue

theorem leastCursor_mem {cursor : Option (Bytes × Bytes)} {added : List (Bytes × Bytes)}
    (h : added.foldl leastCursor cursor = some entry) : cursor = some entry ∨ entry ∈ added := by
  induction added generalizing cursor with
  | nil => exact Or.inl h
  | cons first added ih =>
    rcases ih h with hfirst | hmem
    · unfold leastCursor at hfirst
      split_ifs at hfirst
      · cases hfirst
        exact Or.inr mem_cons_self
      · exact Or.inl hfirst
    · exact Or.inr (mem_cons_of_mem _ hmem)

theorem CursorsIn.withRequeued (hcursors : CursorsIn naming s) (h : Indexed naming s.store)
    (hqueue : naming.queue queue) (hjobs : Expiring naming s.store queue now jobs) :
    CursorsIn naming (withRequeued codec s queue jobs) := by
  intro other hother entry hget
  rw [mem_readyEntries_withRequeued h hqueue hjobs hother]
  by_cases hne : other = queue
  · subst hne
    rw [(counted_withRequeued jobs).cursor_eq] at hget
    obtain ⟨cursor, hcursor, hleast⟩ := Option.map_eq_some_iff.mp hget
    rcases leastCursor_mem hleast with rfl | hmem
    · exact Or.inl (hcursors other hother entry hcursor)
    · exact Or.inr ⟨rfl, hmem⟩
  · rw [(counted_withRequeued jobs).cursor_other other hne] at hget
    exact Or.inl (hcursors other hother entry hget)

theorem claimJob_cases (h : Indexed naming s.store) (hcursors : CursorsIn naming s) (hqueue : naming.queue queue)
    (hjobs : Expires naming s queue now jobs) (options : QueueClaimOptions) (ack : Bool)
    (ht : t = withRequeued codec s queue jobs) :
    ((∀ entry ∈ startEntries codec t queue, DelayedAt naming t.store queue now entry) ∧
      ∃ s', claimJob codec queue now s options ack = .ok (none, s') ∧
        Counted t s' queue t.store [] [] (some (startEntries codec t queue).head?)) ∨
    ∃ before entry rest job s', startEntries codec t queue = before ++ entry :: rest ∧
      (∀ other ∈ before, DelayedAt naming t.store queue now other) ∧ ReadyAt naming t.store queue entry job ∧
      job.availableAtMs ≤ now ∧ claimJob codec queue now s options ack = .ok (some (job.claimed now options ack), s') ∧
      Counted t s' queue (t.store.replace codec (job.claimed now options ack)) [] (leaseAdded now options ack)
        (some (before ++ rest).head?) := by
  have hindexed : Indexed naming t.store := by
    rw [ht, store_withRequeued]
    exact h.foldl_replace hjobs.names
  have hin : CursorsIn naming t := ht ▸ hcursors.withRequeued h hqueue hjobs.toExpiring
  obtain ⟨skipped, hskipped⟩ := exists_skipped (hin queue hqueue)
  obtain ⟨hstore, hexpirations, hcounts, hothers⟩ := firstQueueReadyEntry_state codec t queue
  have hclaim : claimJob codec queue now s options ack =
      claimEntries codec queue now options ack (startEntries codec t queue) (firstQueueReadyEntry codec t queue).2
        none := by
    unfold claimJob
    rw [expireLeases_eq h hjobs, ← ht]
    simp only [bind, Except.bind, hstore]
    rfl
  have hentries : ∀ entry ∈ startEntries codec t queue,
      entry ∈ readyEntries codec (firstQueueReadyEntry codec t queue).2.store queue := by
    intro entry hentry
    rw [hstore, hskipped]
    exact mem_append_right _ hentry
  rw [hclaim]
  rcases claimEntries_eq now (hstore ▸ hindexed) hqueue options ack hentries none with
    ⟨hall, heq⟩ | ⟨before, entry, rest, job, hsplit', hbefore, hjob, havailable, heq⟩
  · rw [hstore] at hall
    refine Or.inl ⟨hall, _, heq, ?_⟩
    have hupdated := (counted_store (firstQueueReadyEntry codec t queue).2 queue t.store).setCursor
      (startEntries codec t queue).head?
    rw [← hstore] at hupdated ⊢
    exact hupdated.of_state hexpirations hcounts hothers
  · obtain ⟨hresult, hupdated⟩ := counted_claimReady now (hstore ▸ hindexed) hjob options ack
      (none.or before.head?)
    have hentry : t.store.readyJobs.withPrefix (codec.makeReadyPrefix queue) =
      (skipped ++ before) ++ entry :: rest := by
      rw [← readyEntries, hskipped, hsplit', append_assoc]
    have hnext := firstPrefixAfter_of_append hentry
    rw [hstore] at hbefore hjob
    rw [hstore, hnext] at hupdated
    rw [hresult] at heq
    have hcursor : (none.or before.head?).or rest.head? = (before ++ rest).head? := by
      cases before <;> rfl
    rw [hcursor] at hupdated
    exact Or.inr ⟨before, entry, rest, job, _, hsplit', hbefore, hjob, havailable, heq,
      hupdated.of_state hexpirations hcounts hothers⟩

end Claim

end Queues

end Thingd.Engine
