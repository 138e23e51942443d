import Thingd.Engine.QueueSettle

namespace Thingd.Engine

open Index Queues List

variable {job : QueueJob} {entry : Bytes × Bytes} {other : Bytes} {old new : QueueJob}

namespace QueueStore

variable {codec : StorageCodec} {naming : Naming codec} {s : QueueStore} {queue : Bytes} {news : List QueueJob}

def leasedUntil (queue : Bytes) (expiry : Millis) (job : QueueJob) : Bool :=
  job.status = .leased && job.queue = queue && job.leaseExpiresAtMs = some expiry

def leasedCount (s : QueueStore) (queue : Bytes) (expiry : Millis) : ℕ :=
  s.queueJobs.entries.countP fun entry => leasedUntil queue expiry entry.2

theorem leasedCount_pos {expiry : Millis} (hstored : Stored codec s job)
    (hleased : leasedUntil queue expiry job = true) : 0 < s.leasedCount queue expiry :=
  countP_pos_iff.mpr ⟨_, SortedMap.get_eq_some_iff.mp hstored, hleased⟩

variable (codec) in
theorem leasedCount_replace (s : QueueStore) (queue : Bytes) (expiry : Millis) (job : QueueJob) :
    (s.replace codec job).leasedCount queue expiry +
        (s.queueJobs.get (jobKey codec job)).elim 0 (fun old => if leasedUntil queue expiry old then 1 else 0) =
      s.leasedCount queue expiry + if leasedUntil queue expiry job then 1 else 0 :=
  SortedMap.countP_insert _ _ _ _

theorem leasedCount_foldl_replace {olds : List QueueJob} (expiry : Millis)
    (hkeys : olds.map (jobKey codec) = news.map (jobKey codec)) (hstored : ∀ old ∈ olds, Stored codec s old)
    (hnodup : (news.map (jobKey codec)).Nodup) :
    (news.foldl (QueueStore.replace codec) s).leasedCount queue expiry + olds.countP (leasedUntil queue expiry) =
      s.leasedCount queue expiry + news.countP (leasedUntil queue expiry) := by
  induction news generalizing s olds with
  | nil =>
    rw [map_nil, map_eq_nil_iff] at hkeys
    rw [hkeys]
    rfl
  | cons new news ih =>
    cases olds with
    | nil => cases hkeys
    | cons old olds =>
      obtain ⟨hkey, hkeys⟩ := List.cons.inj hkeys
      obtain ⟨hold, hstored⟩ := forall_mem_cons.mp hstored
      obtain ⟨hnot, hnodup⟩ := nodup_cons.mp hnodup
      have hrest : ∀ other ∈ olds, Stored codec (s.replace codec new) other := by
        intro other hother
        have hne : jobKey codec other ≠ jobKey codec new := by
          intro heq
          apply hnot
          rw [← heq, ← hkeys]
          exact mem_map_of_mem hother
        rw [Stored, get_replace_of_ne s hne]
        exact hstored other hother
      have hfirst := leasedCount_replace codec s queue expiry new
      rw [← hkey, show s.queueJobs.get (jobKey codec old) = some old from hold] at hfirst
      have hlast := ih hkeys hrest hnodup
      rw [foldl_cons, countP_cons, countP_cons]
      dsimp only [Option.elim] at hfirst
      omega

theorem leasedCount_foldl_replace_of_ne (expiry : Millis) (hqueue : ∀ job ∈ news, job.queue ≠ other) :
    (news.foldl (QueueStore.replace codec) s).leasedCount other expiry ≤ s.leasedCount other expiry := by
  induction news generalizing s with
  | nil => exact le_rfl
  | cons job news ih =>
    obtain ⟨hjob, hqueue⟩ := forall_mem_cons.mp hqueue
    have hfirst := leasedCount_replace codec s other expiry job
    have hnot : leasedUntil other expiry job = false := by simp [leasedUntil, hjob]
    rw [hnot, if_neg Bool.false_ne_true] at hfirst
    have hlast := ih (s := s.replace codec job) hqueue
    rw [foldl_cons]
    omega

section

variable (h : Indexed naming s)
include h

theorem mem_readyEntries_iff (hqueue : naming.queue queue) :
    entry ∈ readyEntries codec s queue ↔ ∃ job, ReadyAt naming s queue entry job := by
  constructor
  · exact exists_readyAt h hqueue
  · rintro ⟨job, hstored, hnames, rfl, hready, rfl⟩
    exact mem_readyEntries h hstored hready

variable {a b : QueueJob}

theorem readyKey_inj (ha : Stored codec s a) (hb : Stored codec s b)
    (heq : (readyEntry codec a).1 = (readyEntry codec b).1) : a = b := by
  obtain ⟨-, hna⟩ := h.keyed _ a ha
  obtain ⟨-, hnb⟩ := h.keyed _ b hb
  obtain ⟨hqueue, hid⟩ := naming.readyKey_inj hna.queue hnb.queue hna.stamp hnb.stamp hna.id hnb.id heq
  exact Stored.inj ha hb (jobKey_congr hqueue hid)

theorem readyEntry_inj (ha : Stored codec s a) (hb : Stored codec s b) (heq : readyEntry codec a = readyEntry codec b) :
    a = b := readyKey_inj h ha hb (congrArg Prod.fst heq)

theorem mem_readyEntries_foldl_replace (hqueue : naming.queue queue) (hnames : ∀ job ∈ news, naming.Names job)
    (hnodup : (news.map (jobKey codec)).Nodup) :
    entry ∈ readyEntries codec (news.foldl (QueueStore.replace codec) s) queue ↔
      (∃ job ∈ news, job.queue = queue ∧ job.status = .ready ∧ readyEntry codec job = entry) ∨
      (entry ∈ readyEntries codec s queue ∧
        ∀ old, Stored codec s old → jobKey codec old ∈ news.map (jobKey codec) → readyEntry codec old ≠ entry) := by
  rw [mem_readyEntries_iff (h.foldl_replace hnames) hqueue, mem_readyEntries_iff h hqueue]
  constructor
  · rintro ⟨job, hjob⟩
    rcases (stored_foldl_replace_iff hnodup).mp hjob.stored with hnew | ⟨hstored, hnot⟩
    · exact Or.inl ⟨job, hnew, hjob.queue_eq, hjob.ready, hjob.entry_eq⟩
    · refine Or.inr ⟨⟨job, hstored, hjob.names, hjob.queue_eq, hjob.ready, hjob.entry_eq⟩, ?_⟩
      intro old hold hkey heq
      rw [readyEntry_inj h hold hstored (heq.trans hjob.entry_eq.symm)] at hkey
      exact hnot hkey
  · rintro (⟨job, hnew, hjobQueue, hready, hentry⟩ | ⟨⟨job, hjob⟩, hnot⟩)
    · exact ⟨job, stored_foldl_replace hnodup hnew, hnames job hnew, hjobQueue, hready, hentry⟩
    · refine ⟨job, (stored_foldl_replace_iff hnodup).mpr (Or.inr ⟨hjob.stored, ?_⟩), hjob.names, hjob.queue_eq,
        hjob.ready, hjob.entry_eq⟩
      intro hkey
      exact hnot job hjob.stored hkey hjob.entry_eq

theorem mem_readyEntries_replace (hqueue : naming.queue queue) (hstored : Stored codec s old)
    (hkey : jobKey codec new = jobKey codec old) (hnames : naming.Names new) :
    entry ∈ readyEntries codec (s.replace codec new) queue ↔
      (new.queue = queue ∧ new.status = .ready ∧ readyEntry codec new = entry) ∨
      (entry ∈ readyEntries codec s queue ∧ readyEntry codec old ≠ entry) := by
  have hmem : entry ∈ readyEntries codec ([new].foldl (QueueStore.replace codec) s) queue ↔ _ :=
    mem_readyEntries_foldl_replace h hqueue (by simpa using hnames) (by simp)
  rw [foldl_cons, foldl_nil] at hmem
  rw [hmem]
  simp only [mem_singleton, exists_eq_left, map_cons, map_nil, hkey]
  refine or_congr_right (and_congr_right fun _ => ?_)
  constructor
  · intro hall
    exact hall old hstored rfl
  · intro hne other hother heq
    rwa [Stored.inj hother hstored heq]

end

theorem stored_foldl_replace_of_ne (hnames : ∀ job ∈ news, naming.Names job) (hjob : naming.Names job)
    (hqueue : ∀ new ∈ news, new.queue ≠ job.queue) :
    Stored codec (news.foldl (QueueStore.replace codec) s) job ↔ Stored codec s job := by
  have hnot : jobKey codec job ∉ news.map (jobKey codec) := by
    intro hmem
    obtain ⟨new, hnew, hkey⟩ := mem_map.mp hmem
    exact hqueue new hnew (jobKey_inj (hnames new hnew) hjob hkey).1
  rw [Stored, get_foldl_replace_of_not_mem hnot, Stored]

end QueueStore

namespace Queues

open QueueStore

variable {codec : StorageCodec} {naming : Naming codec} {s s' : Queues} {queue : Bytes} {now : Millis}

def LeaseGiven (job : QueueJob) : Prop :=
  job.status = .leased → ∀ expiry, job.leaseExpiresAtMs = some expiry → 0 ≤ expiry.val ∧ job.availableAtMs ≤ expiry

/-- The indexes and caches are those that the records call for; cached counts may be too high. -/
structure Exact (naming : Naming codec) (s : Queues) : Prop where
  indexed : Indexed naming s.store
  leaseComplete : Complete (leaseEntry codec) s.store.queueJobs s.store.leaseJobs
  leased : ∀ job, Stored codec s.store job → LeaseGiven job
  counted : ∀ queue expiry, s.store.leasedCount queue expiry ≤ s.expirationCount queue expiry
  cursors : ∀ queue, naming.queue queue → ∀ cursor, s.readyCursors.get queue = some cursor →
    IsFirst (· ∈ readyEntries codec s.store queue) cursor

theorem Exact.cursorsIn (h : Exact naming s) : CursorsIn naming s :=
  fun queue hqueue entry hget => (h.cursors queue hqueue _ hget).mem entry rfl

variable {removed added : List Millis} {cursor : Option (Option (Bytes × Bytes))}

theorem Updated.mem_readyEntries_of_ne {news : List QueueJob}
    (hupdated : Updated s s' queue (news.foldl (replace codec) s.store) removed added cursor)
    (h : Indexed naming s.store) (hnames : ∀ job ∈ news, naming.Names job) (hqueue : ∀ job ∈ news, job.queue = queue)
    (hnamed : naming.queue other) (hother : other ≠ queue) :
    entry ∈ readyEntries codec s.store other ↔ entry ∈ readyEntries codec s'.store other := by
  have hindexed : Indexed naming s'.store := by
    rw [hupdated.store_eq]
    exact h.foldl_replace hnames
  rw [mem_readyEntries_iff h hnamed, mem_readyEntries_iff hindexed hnamed]
  have hsame : ∀ job, naming.Names job → job.queue = other →
      (Stored codec s'.store job ↔ Stored codec s.store job) := by
    intro job hjob hjobQueue
    rw [hupdated.store_eq]
    refine stored_foldl_replace_of_ne hnames hjob fun new hnew => ?_
    rw [hqueue new hnew, hjobQueue]
    exact Ne.symm hother
  constructor
  · rintro ⟨job, hjob⟩
    exact ⟨job, (hsame job hjob.names hjob.queue_eq).mpr hjob.stored, hjob.names, hjob.queue_eq, hjob.ready,
      hjob.entry_eq⟩
  · rintro ⟨job, hjob⟩
    exact ⟨job, (hsame job hjob.names hjob.queue_eq).mp hjob.stored, hjob.names, hjob.queue_eq, hjob.ready,
      hjob.entry_eq⟩

theorem CursorsIn.updated (hcursors : CursorsIn naming s) {news : List QueueJob}
    (hupdated : Updated s s' queue (news.foldl (replace codec) s.store) removed added cursor)
    (h : Indexed naming s.store) (hnames : ∀ job ∈ news, naming.Names job) (hqueue : ∀ job ∈ news, job.queue = queue)
    (hcursor : naming.queue queue → ∀ entry, cursor = some (some entry) → entry ∈ readyEntries codec s'.store queue) :
    CursorsIn naming s' := by
  intro other hnamed entry hget
  by_cases hother : other = queue
  · subst hother
    rw [hupdated.cursor_eq] at hget
    exact hcursor hnamed entry hget
  · rw [hupdated.cursor_other other hother] at hget
    exact (hupdated.mem_readyEntries_of_ne h hnames hqueue hnamed hother).mp (hcursors other hnamed entry hget)

theorem Exact.updated (h : Exact naming s) {news : List QueueJob}
    (hupdated : Updated s s' queue (news.foldl (replace codec) s.store) removed added cursor)
    (hnames : ∀ job ∈ news, naming.Names job) (hqueue : ∀ job ∈ news, job.queue = queue)
    (hgiven : ∀ job ∈ news, LeaseGiven job) (hnodup : (news.map (jobKey codec)).Nodup)
    (hcount : ∀ expiry, s'.store.leasedCount queue expiry + removed.count expiry ≤
      s.store.leasedCount queue expiry + added.count expiry)
    (hcursor : naming.queue queue → ∀ first, cursor = some first →
      IsFirst (· ∈ readyEntries codec s'.store queue) first) :
    Exact naming s' := by
  have hindexed : Indexed naming s'.store := by
    rw [hupdated.store_eq]
    exact h.indexed.foldl_replace hnames
  refine ⟨hindexed, ?_, ?_, ?_, ?_⟩
  · rw [hupdated.store_eq]
    exact leaseComplete_foldl_replace h.indexed h.leaseComplete hnames
  · intro job hjob
    rw [hupdated.store_eq, stored_foldl_replace_iff hnodup] at hjob
    rcases hjob with hjob | ⟨hjob, -⟩
    · exact hgiven job hjob
    · exact h.leased job hjob
  · intro other expiry
    by_cases hother : other = queue
    · subst hother
      have hold := h.counted other expiry
      have hnew := hcount expiry
      rw [hupdated.count]
      omega
    · rw [hupdated.count_other other hother, hupdated.store_eq]
      refine (leasedCount_foldl_replace_of_ne expiry ?_).trans (h.counted other expiry)
      intro job hjob
      rw [hqueue job hjob]
      exact Ne.symm hother
  · intro other hnamed first hfirst
    by_cases hother : other = queue
    · subst hother
      rw [hupdated.cursor_eq] at hfirst
      exact hcursor hnamed first hfirst
    · rw [hupdated.cursor_other other hother] at hfirst
      exact (h.cursors other hnamed first hfirst).congr fun entry =>
        hupdated.mem_readyEntries_of_ne h.indexed hnames hqueue hnamed hother

theorem Exact.updated_one (h : Exact naming s) (hstored : Stored codec s.store old)
    (hkey : jobKey codec new = jobKey codec old) (hnames : naming.Names new) (hqueue : new.queue = queue)
    (hgiven : LeaseGiven new) (hupdated : Updated s s' queue (s.store.replace codec new) removed added cursor)
    (hremoved : ∀ expiry, removed.count expiry = [old].countP (leasedUntil queue expiry))
    (hadded : ∀ expiry, added.count expiry = [new].countP (leasedUntil queue expiry))
    (hcursor : naming.queue queue → ∀ first, cursor = some first →
      IsFirst (· ∈ readyEntries codec (s.store.replace codec new) queue) first) :
    Exact naming s' := by
  have hupdated' : Updated s s' queue ([new].foldl (replace codec) s.store) removed added cursor := hupdated
  refine h.updated hupdated' (by simpa using hnames) (by simpa using hqueue) (by simpa using hgiven) (by simp) ?_ ?_
  · intro expiry
    have hcount : ([new].foldl (replace codec) s.store).leasedCount queue expiry +
      [old].countP (leasedUntil queue expiry) = _ :=
      leasedCount_foldl_replace expiry (by simpa using hkey.symm) (by simpa using hstored) (by simp)
    rw [hupdated'.store_eq, hremoved, hadded, hcount]
  · rwa [hupdated.store_eq]

section Expired

variable {expiring : List QueueJob} {unexpired : List (Bytes × Bytes)}

theorem expired_iff : job.expired now = true ↔
    job.status = .leased ∧ ∃ expiry, job.leaseExpiresAtMs = some expiry ∧ expiry ≤ now := by
  simp [QueueJob.expired, Option.any_eq_true]

theorem Exact.readLeases_eq (h : Exact naming s) (hstored : Stored codec s.store job)
    (hexpired : job.expired now = true) :
    readLeases codec s job.queue now = s.store.leaseJobs.withPrefix (codec.makeLeasePrefix job.queue) := by
  obtain ⟨hleased, expiry, hexpiry, hle⟩ := expired_iff.mp hexpired
  have hcount : 0 < s.store.leasedCount job.queue expiry :=
    leasedCount_pos hstored (by simp [leasedUntil, hleased, hexpiry])
  have hexpirations := hasExpiredLeases_of_count (hcount.trans_le (h.counted _ _)) hle
  rw [readLeases, if_pos hexpirations]

theorem Exact.mem_expiring (h : Exact naming s) (hqueue : naming.queue queue)
    (hexpiring : Expires naming s queue now expiring) (hstored : Stored codec s.store job) (hjob : job.queue = queue)
    (hexpired : job.expired now = true) : job ∈ expiring := by
  obtain ⟨hexpiring, unexpired, hunexpired, hsplit⟩ := hexpiring
  subst hjob
  obtain ⟨hleased, expiry, hexpiry, hle⟩ := expired_iff.mp hexpired
  obtain ⟨hnonneg, -⟩ := h.leased job hstored hleased expiry hexpiry
  have hread := h.readLeases_eq hstored hexpired
  have hlease : leaseEntry codec job =
    some (codec.makeLeaseKey job.queue expiry job.id, codec.encodeQueueId job.id) := by
    rw [leaseEntry, if_pos hleased, hexpiry]
    rfl
  have hmem : (codec.makeLeaseKey job.queue expiry job.id, codec.encodeQueueId job.id) ∈
      s.store.leaseJobs.withPrefix (codec.makeLeasePrefix job.queue) :=
    SortedMap.mem_withPrefix.mpr ⟨h.leaseComplete _ _ _ _ hstored hlease, codec.makeLeasePrefix_isPrefix _ _ _⟩
  have hsome := mem_map_of_mem (f := some) hmem
  rw [← hread, hsplit] at hsome
  rcases mem_append.mp hsome with hfound | hlater
  · obtain ⟨other, hother, heq⟩ := mem_map.mp hfound
    have hdue := hexpiring.due other hother
    have hkey := leaseApart h.indexed.keyed _ _ _ _ _ _ _ hdue.stored heq hstored hlease
    rwa [← Stored.inj hdue.stored hstored hkey]
  · exfalso
    obtain ⟨before, rest, hentries, -, hrest⟩ := map_eq_append_iff.mp hsplit
    have hrest : rest = unexpired := map_injective_iff.mpr (Option.some_injective _) hrest
    subst hrest
    have hsorted := s.store.leaseJobs.withPrefix_sorted (codec.makeLeasePrefix job.queue)
    rw [← hread, hentries] at hsorted
    rw [mem_map_of_injective (Option.some_injective _)] at hlater
    cases rest with
    | nil => cases hlater
    | cons first rest =>
      obtain ⟨due, hdue, hlt⟩ := hunexpired first rfl
      have hfirst : first ∈ s.store.leaseJobs.withPrefix (codec.makeLeasePrefix job.queue) := by
        rw [← hread, hentries]
        simp
      obtain ⟨other, -, -, hotherQueue, hotherLease⟩ := h.indexed.exists_leased hqueue hfirst
      have hexpiration := leaseExpiration_of_leaseEntry hotherLease
      obtain ⟨-, expiry', hexpiry', hentry⟩ := leaseEntry_eq_some hotherLease
      rw [hotherQueue, hdue] at hexpiration
      cases hexpiration
      -- the first unexpired lease ends later, so its key is greater than the one behind it
      have hbefore : expiry < expiry' := by
        rw [leaseDue, hexpiry'] at hlt
        have hlt : now.val < max 0 expiry'.val := hlt
        have hle : expiry.val ≤ now.val := hle
        change expiry.val < expiry'.val
        omega
      have hkeys : codec.makeLeaseKey job.queue expiry job.id < codec.makeLeaseKey job.queue expiry' other.id :=
        StorageCodec.makeLeaseKey_lt hnonneg hbefore
      have hfirstKey : first.1 = codec.makeLeaseKey job.queue expiry' other.id := by rw [hentry, hotherQueue]
      rw [← hfirstKey] at hkeys
      rcases mem_cons.mp hlater with heq | hlater
      · rw [← heq] at hkeys
        exact lt_irrefl _ hkeys
      · have hafter := (pairwise_cons.mp (pairwise_append.mp hsorted).2.1).1 _ hlater
        exact lt_asymm hkeys hafter

end Expired

end Queues

end Thingd.Engine
