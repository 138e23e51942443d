import Thingd.Engine.QueueRun

namespace Thingd.Engine

open Index QueueStore Queues QueueJob List

section Prefixes

variable {α : Type} {key : α → Bytes} {l : List α}

theorem mem_take_iff_rank (hsorted : l.Pairwise fun a b => key a < key b) (n : ℕ) (x : α) :
    x ∈ l.take n ↔ x ∈ l ∧ (l.countP fun y => key y < key x) < n := by
  have hnodup : l.Nodup := hsorted.imp fun hlt => ne_of_apply_ne key hlt.ne
  have hdrop := mem_drop_iff_rank hsorted n x
  rw [← take_append_drop n l] at hnodup
  constructor
  · intro hx
    refine ⟨mem_of_mem_take hx, not_le.mp fun hle => ?_⟩
    exact (nodup_append.mp hnodup).2.2 x hx x (hdrop.mpr ⟨mem_of_mem_take hx, hle⟩) rfl
  · rintro ⟨hx, hlt⟩
    rw [← take_append_drop n l] at hx
    exact (mem_append.mp hx).resolve_right fun hmem => absurd (hdrop.mp hmem).2 (not_le.mpr hlt)

theorem take_eq_of_late {all late : List α} (hsorted : l.Pairwise fun a b => key a < key b)
    (hall : all.Pairwise fun a b => key a < key b) (hperm : all.Perm (l ++ late)) {n : ℕ}
    (hlate : ∀ x ∈ late, n ≤ l.countP fun y => key y < key x) : l.take n = all.take n := by
  have hnodup {m : List α} (hm : m.Pairwise fun a b => key a < key b) : m.Nodup :=
    hm.imp fun hlt => ne_of_apply_ne key hlt.ne
  refine Perm.eq_of_pairwise ?_ (hsorted.sublist (take_sublist n l)) (hall.sublist (take_sublist n all))
    ((perm_ext_iff_of_nodup (hnodup hsorted).take (hnodup hall).take).mpr fun x => ?_)
  · intro a b _ _ hab hba
    exact absurd (hab.trans hba) (lt_irrefl _)
  rw [mem_take_iff_rank hsorted, mem_take_iff_rank hall, hperm.mem_iff, hperm.countP_eq, countP_append,
    mem_append]
  constructor
  · rintro ⟨hx, hlt⟩
    have hzero : (late.countP fun y => key y < key x) = 0 := by
      rw [countP_eq_zero]
      intro y hy hyx
      have hmono : (l.countP fun z => key z < key y) ≤ l.countP fun z => key z < key x :=
        countP_mono_left fun z _ hz => by
          simp only [decide_eq_true_eq] at hz hyx ⊢
          exact hz.trans hyx
      have hmany := hlate y hy
      omega
    exact ⟨Or.inl hx, by omega⟩
  · rintro ⟨hx | hx, hlt⟩
    · exact ⟨hx, by omega⟩
    · have hmany := hlate x hx
      omega

end Prefixes

namespace Queues

variable {codec : StorageCodec} {naming : Naming codec} {s t : Queues} {queue : Bytes} {now : Millis}
  {options : QueueClaimOptions} {ack : Bool} {limit : ℕ} {expiring scanned remaining jobs : List QueueJob}

variable (codec queue now) in
def claimRepeatedly (options : QueueClaimOptions) (acknowledgeImmediately : Bool) :
    ℕ → Queues → ThingdResult (List QueueJob × Queues)
  | 0, s => .ok ([], s)
  | n + 1, s => do
    match ← claimJob codec queue now s options acknowledgeImmediately with
    | (none, s) => .ok ([], s)
    | (some job, s) =>
      let (jobs, s) ← claimRepeatedly options acknowledgeImmediately n s
      .ok (job :: jobs, s)

variable (codec queue now) in
structure ClaimOrder (store : QueueStore) (jobs : List QueueJob) : Prop where
  sorted : jobs.Pairwise fun a b => (readyEntry codec a).1 < (readyEntry codec b).1
  mem : ∀ job, job ∈ jobs ↔ Claimable codec queue now store job

def OutlivesNow (now : Millis) (options : QueueClaimOptions) (ack : Bool) : Prop :=
  ack = true ∨ (0 < options.leaseMs ∧ now.val < 2 ^ 63 - 1)

theorem OutlivesNow.not_expired (h : OutlivesNow now options ack) (job : QueueJob) :
    (job.claimed now options ack).expired now = false := by
  rcases h with rfl | ⟨hpos, hlt⟩
  · simp [expired, claimed, completedNow]
  · cases ack with
    | true => simp [expired, claimed, completedNow]
    | false =>
      have hlater : now < leaseDeadline now options := by
        change now.val < _
        simp only [leaseDeadline, Millis.saturating]
        omega
      simp [expired, claimed, leasedNow, hlater]

variable {store : QueueStore} {job : QueueJob}

theorem stored_replace_iff {new : QueueJob} :
    Stored codec (store.replace codec new) job ↔
      job = new ∨ (Stored codec store job ∧ jobKey codec job ≠ jobKey codec new) := by
  have hiff : Stored codec ([new].foldl (QueueStore.replace codec) store) job ↔ _ := stored_foldl_replace_iff (by simp)
  simpa using hiff

theorem ClaimOrder.nodup (horder : ClaimOrder codec queue now store jobs) : jobs.Nodup :=
  horder.sorted.imp fun hlt => ne_of_apply_ne (fun job => (readyEntry codec job).1) hlt.ne

theorem ClaimOrder.claimed {first : QueueJob} {rest : List QueueJob}
    (horder : ClaimOrder codec queue now store (first :: rest)) (hlease : OutlivesNow now options ack) :
    ClaimOrder codec queue now (store.replace codec (first.claimed now options ack)) rest where
  sorted := (pairwise_cons.mp horder.sorted).2
  mem job := by
    obtain ⟨hnot, -⟩ := nodup_cons.mp horder.nodup
    obtain ⟨hfirst, -, -⟩ := (horder.mem first).mp mem_cons_self
    rw [Claimable, stored_replace_iff, jobKey_claimed]
    constructor
    · intro hjob
      obtain ⟨hstored, hqueue, hstate⟩ := (horder.mem job).mp (mem_cons_of_mem _ hjob)
      refine ⟨Or.inr ⟨hstored, fun heq => hnot ?_⟩, hqueue, hstate⟩
      rwa [← Stored.inj hstored hfirst heq]
    · rintro ⟨rfl | ⟨hstored, hne⟩, hqueue, hstate⟩
      · rw [hlease.not_expired] at hstate
        rcases hstate with ⟨hready, -⟩ | hexpired
        · exact absurd hready (claimed_status_ne first now options ack)
        · cases hexpired
      · have hmem := (horder.mem job).mpr ⟨hstored, hqueue, hstate⟩
        refine (mem_cons.mp hmem).resolve_left ?_
        rintro rfl
        exact hne rfl

variable (codec queue now) in
def NoneExpired (store : QueueStore) : Prop :=
  ∀ job, Stored codec store job → job.queue = queue → job.expired now = false

theorem NoneExpired.expiring_eq_nil (hnone : NoneExpired codec queue now s.store)
    (hexpiring : Expiring naming s.store queue now expiring) : expiring = [] := by
  apply eq_nil_iff_forall_not_mem.mpr
  intro job hjob
  have hdue := hexpiring.due job hjob
  have hexpired := hnone job hdue.stored hdue.queue_eq
  rw [hdue.expired] at hexpired
  cases hexpired

theorem NoneExpired.claimed (hnone : NoneExpired codec queue now s.store) (hlease : OutlivesNow now options ack)
    (job : QueueJob) : NoneExpired codec queue now (s.store.replace codec (job.claimed now options ack)) := by
  intro other hstored hqueue
  rcases stored_replace_iff.mp hstored with rfl | ⟨hstored, -⟩
  · exact hlease.not_expired job
  · exact hnone other hstored hqueue

theorem withRequeued_nil (s : Queues) (queue : Bytes) : withRequeued codec s queue [] = s := rfl

theorem claimRepeatedly_eq (h : Exact naming s) (hnow : 0 ≤ now.val) (hqueue : naming.queue queue)
    (hlease : OutlivesNow now options ack) (hnone : NoneExpired codec queue now s.store)
    (horder : ClaimOrder codec queue now s.store jobs) (n : ℕ) :
    ∃ s', claimRepeatedly codec queue now options ack n s = .ok ((jobs.take n).map (·.claimed now options ack), s') ∧
      s'.store = ((jobs.take n).map (·.claimed now options ack)).foldl (replace codec) s.store := by
  induction n generalizing s jobs with
  | zero => exact ⟨s, by simp [claimRepeatedly], by simp⟩
  | succ n ih =>
    obtain ⟨expiring, hexpiring⟩ := exists_expires now h.indexed hqueue
    obtain rfl := hnone.expiring_eq_nil hexpiring.toExpiring
    obtain ⟨result, s₁, heq, hexact, hstore, hresult⟩ :=
      h.claimJob_expiring options ack hnow hqueue hexpiring
    rw [withRequeued_nil] at hstore
    rcases hresult with ⟨rfl, hempty⟩ | ⟨job, hleast, rfl⟩
    · have hnil : jobs = [] := by
        apply eq_nil_iff_forall_not_mem.mpr
        intro job hjob
        exact hempty job ((horder.mem job).mp hjob)
      subst hnil
      refine ⟨s₁, ?_, hstore⟩
      simp [claimRepeatedly, heq, bind, Except.bind]
    · have hmem := (horder.mem job).mpr hleast.claimable
      cases jobs with
      | nil => cases hmem
      | cons first rest =>
        have hfirst := (horder.mem first).mp mem_cons_self
        have hle : (readyEntry codec first).1 ≤ (readyEntry codec job).1 := by
          rcases mem_cons.mp hmem with rfl | hmem
          · exact le_rfl
          · exact ((pairwise_cons.mp horder.sorted).1 job hmem).le
        obtain rfl := readyKey_inj h.indexed hfirst.1 hleast.claimable.1 (le_antisymm hle (hleast.least first hfirst))
        have hreplaced : s₁.store = s.store.replace codec (first.claimed now options ack) := hstore
        obtain ⟨s', hrest, hstore'⟩ :=
          ih hexact (hreplaced ▸ hnone.claimed hlease first) (hreplaced ▸ horder.claimed hlease)
        refine ⟨s', ?_, ?_⟩
        · simp [claimRepeatedly, heq, hrest, bind, Except.bind]
        · rw [hstore', hreplaced]
          rfl

section Expired

variable (h : Exact naming s) (hqueue : naming.queue queue) (hexpiring : Expires naming s queue now expiring)
include h hqueue hexpiring

theorem noneExpired_withRequeued : NoneExpired codec queue now (withRequeued codec s queue expiring).store := by
  intro job hstored hjobQueue
  rw [store_withRequeued, stored_foldl_replace_iff hexpiring.requeued_nodup, requeued_keys] at hstored
  rcases hstored with hmem | ⟨hstored, hnot⟩
  · obtain ⟨old, -, rfl⟩ := mem_map.mp hmem
    simp [expired, requeued]
  · apply Bool.eq_false_iff.mpr
    intro hexpired
    apply hnot
    exact mem_map_of_mem (h.mem_expiring hqueue hexpiring hstored hjobQueue hexpired)

theorem claimJob_withRequeued (options : QueueClaimOptions) (ack : Bool) :
    claimJob codec queue now s options ack =
      claimJob codec queue now (withRequeued codec s queue expiring) options ack := by
  have ht := h.withRequeued hqueue hexpiring.toExpiring
  have hnone := noneExpired_withRequeued h hqueue hexpiring
  obtain ⟨others, hothers⟩ := exists_expires now ht.indexed hqueue
  obtain rfl := hnone.expiring_eq_nil hothers.toExpiring
  unfold claimJob
  rw [expireLeases_eq h.indexed hexpiring, expireLeases_eq ht.indexed hothers, withRequeued_nil]

theorem claimRepeatedly_withRequeued (options : QueueClaimOptions) (ack : Bool) (n : ℕ) :
    claimRepeatedly codec queue now options ack (n + 1) s =
      claimRepeatedly codec queue now options ack (n + 1) (withRequeued codec s queue expiring) := by
  unfold claimRepeatedly
  rw [claimJob_withRequeued h hqueue hexpiring]

theorem claimOrder_withRequeued (horder : ClaimOrder codec queue now s.store jobs) :
    ClaimOrder codec queue now (withRequeued codec s queue expiring).store (jobs.map (freed now)) where
  sorted := by
    rw [pairwise_map]
    simpa only [readyEntry_freed] using horder.sorted
  mem job := by
    rw [mem_map]
    constructor
    · rintro ⟨old, hold, rfl⟩
      obtain ⟨hready, havailable⟩ :=
        h.readyAt_of_claimable hqueue hexpiring ((horder.mem old).mp hold)
      exact ⟨hready.stored, hready.queue_eq, Or.inl ⟨hready.ready, havailable⟩⟩
    · rintro ⟨hstored, hjobQueue, hstate⟩
      have hnone := noneExpired_withRequeued h hqueue hexpiring job hstored hjobQueue
      rw [hnone] at hstate
      obtain ⟨hready, havailable⟩ := hstate.resolve_right Bool.false_ne_true
      have hnames := ((h.withRequeued hqueue hexpiring.toExpiring).indexed.keyed _ job hstored).2
      obtain ⟨old, hold, hfreed⟩ :=
        claimable_of_readyAt hexpiring.toExpiring ⟨hstored, hnames, hjobQueue, hready, rfl⟩ havailable
      exact ⟨old, (horder.mem old).mpr hold, hfreed⟩

end Expired

variable (codec queue now) in
def claimableJobs (store : QueueStore) : List QueueJob :=
  ((store.queueJobs.entries.map Prod.snd).filter (claimableNow queue now)).insertionSort
    fun a b => (readyEntry codec a).1 ≤ (readyEntry codec b).1

variable (queue now) in
theorem claimOrder_claimableJobs (h : Indexed naming store) :
    ClaimOrder codec queue now store (claimableJobs codec queue now store) := by
  have hmem : ∀ job, job ∈ claimableJobs codec queue now store ↔ Claimable codec queue now store job := by
    intro job
    rw [claimableJobs, mem_insertionSort, mem_filter, mem_values_iff h, Claimable, claimableNow, availableNow]
    simp only [Bool.or_eq_true, Bool.and_eq_true, decide_eq_true_eq]
    tauto
  have hstored : ∀ job ∈ claimableJobs codec queue now store, Stored codec store job :=
    fun job hjob => ((hmem job).mp hjob).1
  refine ⟨?_, hmem⟩
  apply sorted_of_nodup (fun job hjob => (h.keyed _ job (hstored job hjob)).2)
  · apply nodup_jobKey hstored
    exact (perm_insertionSort _ _).nodup_iff.mpr ((nodup_values h).filter _)
  · exact pairwise_sortBy (fun job => (readyEntry codec job).1) _

section Selected

variable (h : Exact naming s) (hqueue : naming.queue queue) (hexpiring : Expiring naming s.store queue now expiring)
  (hall : ∀ job, Stored codec s.store job → job.queue = queue → job.expired now = true → job ∈ expiring)
  (hselection : Selection naming s queue now limit expiring scanned remaining jobs)
include h hqueue hexpiring hall hselection

theorem take_selection : jobs.take limit = (claimableJobs codec queue now s.store).take limit := by
  have hsplit : (claimableJobs codec queue now s.store).Perm
      (jobs ++ remaining.filter fun job => job.availableAtMs ≤ now) := by
    refine (perm_insertionSort _ _).trans ((claimable_perm h hqueue hexpiring hall hselection).trans ?_)
    rw [filter_append, append_assoc]
    refine (perm_append_comm.append_left _).trans ?_
    rw [← append_assoc]
    exact hselection.perm.symm.append_right _
  apply take_eq_of_late hselection.sorted (claimOrder_claimableJobs queue now h.indexed).sorted hsplit
  intro job hjob
  have hremaining := mem_of_mem_filter hjob
  have hfull := hselection.full.resolve_left (ne_nil_of_mem hremaining)
  have hsorted := (pairwise_append.mp (sorted_of_selection h.cursorsIn hqueue hselection)).2.2
  -- the scan stopped before this job because it had found enough available ones
  have hcount : ((scanned.filter fun job => job.availableAtMs ≤ now).countP
      fun before => (readyEntry codec before).1 < (readyEntry codec job).1) = limit := by
    rw [← hfull, countP_eq_length]
    intro before hbefore
    exact decide_eq_true (hsorted before (mem_of_mem_filter hbefore) job hremaining)
  rw [hselection.perm.countP_eq, countP_append, hcount]
  exact Nat.le_add_right _ _

omit h hqueue hall in
theorem mem_requeued_iff :
    job ∈ (jobs.drop limit).filter (holdsLease codec) ↔ job ∈ expiring ∧ job ∉ jobs.take limit := by
  have hnodup : jobs.Nodup := Nodup.of_map _ hselection.nodup
  rw [← take_append_drop limit jobs] at hnodup
  have hmem : job ∈ jobs ↔ job ∈ jobs.take limit ∨ job ∈ jobs.drop limit := by
    rw [← mem_append, take_append_drop]
  rw [mem_filter]
  constructor
  · rintro ⟨hdrop, hlease⟩
    refine ⟨?_, fun htake => (nodup_append.mp hnodup).2.2 job htake job hdrop rfl⟩
    refine (mem_append.mp (hselection.perm.mem_iff.mp (hmem.mpr (Or.inr hdrop)))).resolve_left fun hscanned => ?_
    have hready := (hselection.ready job (mem_append_left _ (mem_of_mem_filter hscanned))).ready
    rw [leased_of_holdsLease hlease] at hready
    cases hready
  · rintro ⟨hmemExpiring, hnot⟩
    refine ⟨(hmem.mp (hselection.perm.mem_iff.mpr (mem_append_right _ hmemExpiring))).resolve_left hnot, ?_⟩
    obtain ⟨hleased, expiry, hexpiry, -⟩ := expired_iff.mp (hexpiring.due job hmemExpiring).expired
    simp [holdsLease, leaseEntry, hleased, hexpiry]

omit h hqueue hall in
theorem stored_settled_iff
    (hsame : ∀ job ∈ jobs.take limit, job.claimedInBatch now options ack = job.claimed now options ack) :
    Stored codec ((settledJobs codec now options ack limit jobs).foldl (replace codec) s.store) job ↔
      Stored codec (((jobs.take limit).map (·.claimed now options ack)).foldl (replace codec)
        (withRequeued codec s queue expiring).store) job := by
  have hclaimed : (jobs.take limit).map (·.claimedInBatch now options ack) =
      (jobs.take limit).map (·.claimed now options ack) := map_congr_left hsame
  have hkeys : ((jobs.take limit).map (·.claimed now options ack)).map (jobKey codec) =
      (jobs.take limit).map (jobKey codec) := by
    rw [map_map]
    exact map_congr_left fun job _ => jobKey_claimed job now options ack
  have hnodup : ((jobs.take limit).map (jobKey codec)).Nodup :=
    ((take_sublist limit jobs).map _).nodup hselection.nodup
  have hstored := hselection.stored hexpiring
  have hkey : ∀ old ∈ expiring, jobKey codec old ∈ (jobs.take limit).map (jobKey codec) → old ∈ jobs.take limit := by
    intro old hold hmem
    obtain ⟨other, hother, heq⟩ := mem_map.mp hmem
    rwa [← Stored.inj (hstored other (mem_of_mem_take hother)).1 (hexpiring.due old hold).stored heq]
  rw [stored_foldl_replace_iff (settledJobs_nodup hselection), stored_foldl_replace_iff (hkeys ▸ hnodup), hkeys,
    settledJobs_keys, settledJobs, hclaimed, store_withRequeued, stored_foldl_replace_iff hexpiring.requeued_nodup,
    requeued_keys]
  simp only [mem_append, map_append, not_or]
  rw [or_assoc]
  apply or_congr_right
  constructor
  · rintro (hjob | ⟨hjob, htaken, hleft⟩)
    · obtain ⟨old, hold, rfl⟩ := mem_map.mp hjob
      obtain ⟨hmem, hnot⟩ := (mem_requeued_iff hexpiring hselection).mp hold
      exact ⟨Or.inl (mem_map_of_mem hmem), fun htaken => hnot (hkey old hmem htaken)⟩
    · refine ⟨Or.inr ⟨hjob, fun hmem => ?_⟩, htaken⟩
      obtain ⟨old, hold, heq⟩ := mem_map.mp hmem
      obtain rfl := Stored.inj (hexpiring.due old hold).stored hjob heq
      refine hleft (mem_map_of_mem ((mem_requeued_iff hexpiring hselection).mpr ⟨hold, fun htake => ?_⟩))
      exact htaken (mem_map_of_mem htake)
  · rintro ⟨hjob | ⟨hjob, hnot⟩, htaken⟩
    · obtain ⟨old, hold, rfl⟩ := mem_map.mp hjob
      refine Or.inl (mem_map_of_mem ((mem_requeued_iff hexpiring hselection).mpr ⟨hold, fun htake => ?_⟩))
      have htaken : jobKey codec old ∉ (jobs.take limit).map (jobKey codec) := htaken
      exact htaken (mem_map_of_mem htake)
    · refine Or.inr ⟨hjob, htaken, fun hmem => hnot ?_⟩
      obtain ⟨old, hold, heq⟩ := mem_map.mp hmem
      exact heq ▸ mem_map_of_mem ((mem_requeued_iff hexpiring hselection).mp hold).1

end Selected

theorem eq_of_stored {a b : QueueStore} (ha : Indexed naming a) (hb : Indexed naming b)
    (hleases : Complete (leaseEntry codec) a.queueJobs a.leaseJobs)
    (hleases' : Complete (leaseEntry codec) b.queueJobs b.leaseJobs)
    (hsame : ∀ job, Stored codec a job ↔ Stored codec b job) : a = b := by
  have hjobs : a.queueJobs = b.queueJobs := by
    apply SortedMap.ext
    intro key
    ext job
    constructor
    · intro hget
      obtain ⟨rfl, -⟩ := ha.keyed key job hget
      exact (hsame job).mp hget
    · intro hget
      obtain ⟨rfl, -⟩ := hb.keyed key job hget
      exact (hsame job).mpr hget
  have hready := eq_of_exact ha.readySound ha.readyComplete (hjobs ▸ hb.readySound) (hjobs ▸ hb.readyComplete)
  have hlease := eq_of_exact ha.leaseSound hleases (hjobs ▸ hb.leaseSound) (hjobs ▸ hleases')
  cases a
  cases b
  simp_all

theorem claimedInBatch_eq_iff (job : QueueJob) :
    job.claimedInBatch now options ack = job.claimed now options ack ↔ ack = true ∨ job.completedAtMs = none := by
  cases ack with
  | true => simp [claimedInBatch, claimed]
  | false => simp [claimedInBatch, claimed, leasedNow, eq_comm]

theorem map_claimedInBatch_eq_iff (jobs : List QueueJob) :
    jobs.map (·.claimedInBatch now options ack) = jobs.map (·.claimed now options ack) ↔
      ack = true ∨ ∀ job ∈ jobs, job.completedAtMs = none := by
  simp only [map_inj_left, claimedInBatch_eq_iff]
  constructor
  · intro hall
    cases ack with
    | true => exact Or.inl rfl
    | false => exact Or.inr fun job hjob => (hall job hjob).resolve_left Bool.false_ne_true
  · rintro (hack | hnone) job hjob
    · exact Or.inl hack
    · exact Or.inr (hnone job hjob)

end Queues

variable {codec : StorageCodec} {naming : Naming codec} {s : Queues} {queue : Bytes} {now : Millis} {limit : ℕ}

/-- In every state of a run whose steps fit, a batch claim is the same as single claims, unless it takes a job that was
pushed with a completion time. -/
theorem batch_claim_eq_single_claims (hrun : QueueRun naming s) (hnow : 0 ≤ now.val) (hqueue : naming.queue queue)
    (hlimit : limit ≤ maxQueueBatchItems) {options : QueueClaimOptions} {ack : Bool}
    (hlease : OutlivesNow now options ack) :
    ∃ batch s₁ single s₂, claimBatchAtomic codec queue now s options limit ack = .ok (batch, s₁) ∧
      claimRepeatedly codec queue now options ack limit s = .ok (single, s₂) ∧
      ((batch = single ∧ s₁.store = s₂.store) ↔
        (ack = true ∨ ∀ job ∈ (claimableJobs codec queue now s.store).take limit, job.completedAtMs = none)) := by
  have h := hrun.exact
  cases limit with
  | zero =>
    refine ⟨[], s, [], s, ?_, rfl, by simp⟩
    rw [claimBatchAtomic, if_neg (by simp), if_pos rfl]
  | succ n =>
    obtain ⟨expiring, hexpiring⟩ := exists_expires now h.indexed hqueue
    have hall : ∀ job, Stored codec s.store job → job.queue = queue → job.expired now = true → job ∈ expiring :=
      fun job hstored hjob hexpired => h.mem_expiring hqueue hexpiring hstored hjob hexpired
    have horder := claimOrder_claimableJobs queue now h.indexed
    have ht := h.withRequeued hqueue hexpiring.toExpiring
    obtain ⟨scanned, remaining, jobs, s₁, hselection, hbatch, hupdated⟩ := claimBatchAtomic_cases options ack h.indexed
      h.cursorsIn hqueue n.succ_pos hlimit hexpiring
    obtain ⟨s₂, hsingle, hstore⟩ := claimRepeatedly_eq ht hnow hqueue hlease
      (noneExpired_withRequeued h hqueue hexpiring)
      (claimOrder_withRequeued h hqueue hexpiring horder) (n + 1)
    have htake := take_selection h hqueue hexpiring.toExpiring hall hselection
    have hclaims : (((claimableJobs codec queue now s.store).map (freed now)).take (n + 1)).map
      (·.claimed now options ack) =
        (jobs.take (n + 1)).map (·.claimed now options ack) := by
      rw [← map_take, map_map, htake]
      exact map_congr_left fun job _ => claimed_freed options ack job
    rw [hclaims] at hsingle hstore
    rw [← claimRepeatedly_withRequeued h hqueue hexpiring] at hsingle
    refine ⟨_, s₁, _, s₂, hbatch, hsingle, ?_⟩
    rw [← htake, ← map_claimedInBatch_eq_iff]
    refine and_iff_left_of_imp fun hsame => ?_
    have hnames := settledJobs_names options ack hexpiring.toExpiring hselection
    have hclaimedNames : ∀ job ∈ (jobs.take (n + 1)).map (·.claimed now options ack), naming.Names job := by
      intro job hjob
      rw [← hsame] at hjob
      exact (hnames job (mem_append_left _ hjob)).1
    rw [hupdated.store_eq, hstore]
    apply eq_of_stored (h.indexed.foldl_replace fun job hjob => (hnames job hjob).1)
      (ht.indexed.foldl_replace hclaimedNames)
      (leaseComplete_foldl_replace h.indexed h.leaseComplete fun job hjob => (hnames job hjob).1)
      (leaseComplete_foldl_replace ht.indexed ht.leaseComplete hclaimedNames)
    intro job
    exact stored_settled_iff hexpiring.toExpiring hselection (map_inj_left.mp hsame)

theorem batch_claim_takes_expired_lease :
    ∃ s ∈ (QueueOp.runAll sampleCodec sampleOps Queues.empty).toOption, QueueRun sampleNaming s ∧
      ∃ batch s₁ single s₂,
        claimBatchAtomic sampleCodec [113] (Millis.saturating 20) s ⟨5⟩ 2 false = .ok (batch, s₁) ∧
        claimRepeatedly sampleCodec [113] (Millis.saturating 20) ⟨5⟩ false 2 s = .ok (single, s₂) ∧
        batch = single ∧ s₁.store = s₂.store ∧ batch.map (·.id) = [[65], [66]] := by
  obtain ⟨s, hs, hrun⟩ := run_sampleOps
  have hnul : (0 : Byte) ∉ ([113] : Bytes) := by decide
  have hnow : 0 ≤ (Millis.saturating 20).val := by decide
  have hlimit : 2 ≤ maxQueueBatchItems := by decide
  have hlease : OutlivesNow (Millis.saturating 20) ⟨5⟩ false := Or.inr (by decide)
  obtain ⟨batch, s₁, single, s₂, hbatch, hsingle, hsame⟩ := batch_claim_eq_single_claims hrun hnow hnul hlimit hlease
  have hopen : ∀ s ∈ (QueueOp.runAll sampleCodec sampleOps Queues.empty).toOption,
      (∀ job ∈ (claimableJobs sampleCodec [113] (Millis.saturating 20) s.store).take 2, job.completedAtMs = none) ∧
        (claimBatchAtomic sampleCodec [113] (Millis.saturating 20) s ⟨5⟩ 2 false).toOption.map
          (fun result => result.1.map (·.id)) = some [[65], [66]] := by decide +kernel
  obtain ⟨hnone, hids⟩ := hopen s hs
  rw [hbatch] at hids
  obtain ⟨heq, hstores⟩ := hsame.mpr (Or.inr hnone)
  exact ⟨s, hs, hrun, batch, s₁, single, s₂, hbatch, hsingle, heq, hstores, Option.some.inj hids⟩

/-- A job that a batch claim starves is found by a second batch claim but not by a single one. -/
theorem batch_claim_finds_starved_job :
    ∃ s ∈ (QueueOp.runAll sampleCodec [(Millis.saturating 0, .pushJob (sampleJob 65 9) []),
      (Millis.saturating 10, .claim [113] ⟨5⟩ false), (Millis.saturating 12, .pushJob (sampleJob 66 0) []),
      (Millis.saturating 20, .claimBatch [113] ⟨5⟩ 1 false)] Queues.empty).toOption,
      (claimJobsWithOptions sampleCodec [113] (Millis.saturating 20) s ⟨5⟩ 1).toOption.map (fun r => r.1.map (·.id)) =
        some [[66]] ∧
      (claimRepeatedly sampleCodec [113] (Millis.saturating 20) ⟨5⟩ false 1 s).toOption.map Prod.fst = some [] := by
  decide +kernel

end Thingd.Engine
