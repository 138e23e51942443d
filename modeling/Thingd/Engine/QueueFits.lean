import Thingd.Engine.QueueReopen

namespace Thingd.Engine

open Queues SortedMap List

section Rank

variable {α : Type} {key : α → Bytes}

theorem mem_drop_iff_rank {l : List α} (hsorted : l.Pairwise fun a b => key a < key b) (n : ℕ) (x : α) :
    x ∈ l.drop n ↔ x ∈ l ∧ n ≤ l.countP fun y => key y < key x := by
  induction l generalizing n with
  | nil => simp
  | cons first l ih =>
    obtain ⟨hfirst, hsorted⟩ := pairwise_cons.mp hsorted
    cases n with
    | zero => simp
    | succ n =>
      rw [drop_succ_cons, ih hsorted, countP_cons, mem_cons]
      constructor
      · rintro ⟨hx, hn⟩
        refine ⟨Or.inr hx, ?_⟩
        rw [if_pos (decide_eq_true (hfirst x hx))]
        omega
      · rintro ⟨rfl | hx, hn⟩
        · have hzero : (l.countP fun y => key y < key x) = 0 := by
            rw [countP_eq_zero]
            intro y hy
            simpa using (hfirst y hy).le
          rw [if_neg (by simp)] at hn
          omega
        · rw [if_pos (decide_eq_true (hfirst x hx))] at hn
          exact ⟨hx, by omega⟩

end Rank

variable {job : QueueJob}

namespace QueueStore

variable {codec : StorageCodec} {naming : Naming codec} {s : QueueStore} {queue : Bytes} {now : Millis}

def availableNow (queue : Bytes) (now : Millis) (job : QueueJob) : Bool :=
  job.queue = queue && job.status = .ready && job.availableAtMs ≤ now

def claimableNow (queue : Bytes) (now : Millis) (job : QueueJob) : Bool :=
  availableNow queue now job || (job.queue = queue && job.expired now)

variable (codec) in
def rank (s : QueueStore) (kind : QueueJob → Bool) (job : QueueJob) : ℕ :=
  s.queueJobs.entries.countP fun row => kind row.2 && (readyEntry codec row.2).1 < (readyEntry codec job).1

variable (codec) in
def BatchFits (s : QueueStore) (queue : Bytes) (now : Millis) (limit : ℕ) : Prop :=
  ∀ job, Stored codec s job → availableNow queue now job = true → rank codec s (availableNow queue now) job < limit →
    limit ≤ rank codec s (claimableNow queue now) job →
    ∃ other, Stored codec s other ∧ other.queue = queue ∧ (readyEntry codec other).1 < (readyEntry codec job).1 ∧
      ((other.status = .ready ∧ now < other.availableAtMs) ∨
        (other.expired now = true ∧ limit ≤ rank codec s (claimableNow queue now) other))

theorem mem_values_iff (h : Indexed naming s) : job ∈ s.queueJobs.entries.map Prod.snd ↔ Stored codec s job := by
  rw [mem_map]
  constructor
  · rintro ⟨⟨key, _⟩, hmem, rfl⟩
    have hget := get_eq_some_iff.mpr hmem
    rwa [(h.keyed key _ hget).1] at hget
  · intro hstored
    exact ⟨_, get_eq_some_iff.mp hstored, rfl⟩

theorem nodup_values (h : Indexed naming s) : (s.queueJobs.entries.map Prod.snd).Nodup := by
  refine s.queueJobs.entries_nodup.map_on fun a ha b hb heq => ?_
  obtain ⟨keyA, jobA⟩ := a
  obtain ⟨keyB, jobB⟩ := b
  cases heq
  rw [(h.keyed _ _ (get_eq_some_iff.mpr ha)).1, (h.keyed _ _ (get_eq_some_iff.mpr hb)).1]

theorem rank_eq (s : QueueStore) (kind : QueueJob → Bool) (job : QueueJob) :
    rank codec s kind job = ((s.queueJobs.entries.map Prod.snd).filter kind).countP
      fun other => (readyEntry codec other).1 < (readyEntry codec job).1 := by
  rw [countP_filter, countP_map, rank]
  congr 1
  funext row
  exact Bool.and_comm _ _

variable {kind : QueueJob → Bool}

theorem rank_of_perm {jobs : List QueueJob} (hperm : ((s.queueJobs.entries.map Prod.snd).filter kind).Perm jobs)
    (job : QueueJob) :
    rank codec s kind job = jobs.countP fun other => (readyEntry codec other).1 < (readyEntry codec job).1 := by
  rw [rank_eq]
  exact hperm.countP_eq _

theorem values_perm (h : Indexed naming s) {jobs : List QueueJob} (hnodup : jobs.Nodup)
    (hjobs : ∀ job, job ∈ jobs ↔ Stored codec s job ∧ kind job = true) :
    ((s.queueJobs.entries.map Prod.snd).filter kind).Perm jobs := by
  rw [perm_ext_iff_of_nodup ((nodup_values h).filter _) hnodup]
  intro job
  rw [mem_filter, mem_values_iff h, hjobs]

end QueueStore

namespace Queues

open QueueStore

variable {codec : StorageCodec} {naming : Naming codec} {s s' : Queues} {queue : Bytes} {now : Millis}
  {options : QueueClaimOptions} {ack : Bool} {limit : ℕ} {expiring scanned remaining jobs : List QueueJob}

section Sorted

variable (hcursors : CursorsIn naming s) (hqueue : naming.queue queue)
  (hselection : Selection naming s queue now limit expiring scanned remaining jobs)

include hcursors hqueue hselection

theorem sorted_of_selection :
    (scanned ++ remaining).Pairwise fun a b => (readyEntry codec a).1 < (readyEntry codec b).1 := by
  obtain ⟨skipped, hskipped⟩ := exists_skippedInBatch hcursors hqueue
  have hsorted := s.store.readyJobs.withPrefix_sorted (codec.makeReadyPrefix queue)
  rw [← readyEntries, hskipped, hselection.entries] at hsorted
  have hsorted := (pairwise_append.mp hsorted).2.1
  rw [pairwise_map] at hsorted
  exact hsorted

theorem nodup_of_selection : (scanned ++ remaining).Nodup :=
  (sorted_of_selection hcursors hqueue hselection).imp fun hlt =>
    ne_of_apply_ne (fun job => (readyEntry codec job).1) hlt.ne

end Sorted

section Settled

variable (codec now options ack limit jobs) in
theorem settledJobs_keys : (settledJobs codec now options ack limit jobs).map (jobKey codec) =
    (jobs.take limit ++ (jobs.drop limit).filter (holdsLease codec)).map (jobKey codec) := by
  have hclaimed : ∀ job : QueueJob, jobKey codec (job.claimedInBatch now options ack) = jobKey codec job := by
    intro job
    cases ack <;> rfl
  simp only [settledJobs, map_append, map_map]
  congr 1
  exact map_congr_left fun job _ => hclaimed job

variable (codec limit jobs) in
theorem settled_sublist : (jobs.take limit ++ (jobs.drop limit).filter (holdsLease codec)).Sublist jobs := by
  conv_rhs => rw [← take_append_drop limit jobs]
  exact Sublist.append_left filter_sublist _

theorem settledJobs_nodup (hselection : Selection naming s queue now limit expiring scanned remaining jobs) :
    ((settledJobs codec now options ack limit jobs).map (jobKey codec)).Nodup := by
  rw [settledJobs_keys]
  exact ((settled_sublist codec limit jobs).map _).nodup hselection.nodup

variable (options ack) in
theorem settledJobs_names (hexpiring : Expiring naming s.store queue now expiring)
    (hselection : Selection naming s queue now limit expiring scanned remaining jobs) :
    ∀ job ∈ settledJobs codec now options ack limit jobs,
    naming.Names job ∧ job.queue = queue := by
  have hstored := hselection.stored hexpiring
  intro job hjob
  rcases mem_append.mp hjob with hjob | hjob
  · obtain ⟨old, hold, rfl⟩ := mem_map.mp hjob
    obtain ⟨-, hnames, hold⟩ := hstored old (mem_of_mem_take hold)
    cases ack <;> exact ⟨⟨hnames.queue, hnames.stamp, hnames.id⟩, hold⟩
  · obtain ⟨old, hold, rfl⟩ := mem_map.mp hjob
    obtain ⟨-, hnames, hold⟩ := hstored old (mem_of_mem_drop (mem_of_mem_filter hold))
    exact ⟨⟨hnames.queue, hnames.stamp, hnames.id⟩, hold⟩

theorem claimedInBatch_status_ne (job : QueueJob) : (job.claimedInBatch now options ack).status ≠ .ready := by
  cases ack <;> simp [QueueJob.claimedInBatch, QueueJob.leasedNow, QueueJob.completedNow]

theorem readyEntry_mem_settled (h : Indexed naming s.store) (hqueue : naming.queue queue)
    (hexpiring : Expiring naming s.store queue now expiring)
    (hselection : Selection naming s queue now limit expiring scanned remaining jobs)
    (hjob : (job ∈ scanned ++ remaining ∧ job ∉ jobs.take limit) ∨ job ∈ (jobs.drop limit).filter (holdsLease codec)) :
    readyEntry codec job ∈ readyEntries codec
      ((settledJobs codec now options ack limit jobs).foldl (replace codec) s.store) queue := by
  have hnames := settledJobs_names options ack hexpiring hselection
  rw [mem_readyEntries_foldl_replace h hqueue (fun job hjob => (hnames job hjob).1) (settledJobs_nodup hselection),
    settledJobs_keys]
  rcases hjob with ⟨hjob, hnot⟩ | hjob
  · have hready := hselection.ready job hjob
    refine Or.inr ⟨(mem_readyEntries_iff h hqueue).mpr ⟨job, hready⟩, fun old hold hkey heq => ?_⟩
    obtain rfl := readyEntry_inj h hold hready.stored heq
    obtain ⟨other, hother, hsame⟩ := mem_map.mp hkey
    have hmem := (settled_sublist codec limit jobs).subset hother
    rw [Stored.inj (hselection.stored hexpiring other hmem).1 hold hsame] at hother
    rcases mem_append.mp hother with htaken | hleft
    · exact hnot htaken
    · have hleased := leased_of_holdsLease (mem_filter.mp hleft).2
      rw [hready.ready] at hleased
      cases hleased
  · have hmem : job.requeued ∈ settledJobs codec now options ack limit jobs :=
      mem_append_right _ (mem_map_of_mem hjob)
    exact Or.inl ⟨job.requeued, hmem, (hnames _ hmem).2, rfl, rfl⟩

theorem kept_of_delayed (hcursors : CursorsIn naming s) (hqueue : naming.queue queue)
    (hexpiring : Expiring naming s.store queue now expiring)
    (hselection : Selection naming s queue now limit expiring scanned remaining jobs)
    (hjob : job ∈ (scanned.filter fun job => now < job.availableAtMs) ++ remaining) :
    job ∈ scanned ++ remaining ∧ job ∉ jobs.take limit := by
  have hmem : job ∈ scanned ++ remaining := (Sublist.append_right filter_sublist _).subset hjob
  refine ⟨hmem, fun htaken => ?_⟩
  -- a settled job is available or leased, and this one is neither
  rcases mem_append.mp (hselection.perm.mem_iff.mp (mem_of_mem_take htaken)) with hother | hother
  · obtain ⟨hscanned, havailable⟩ := mem_filter.mp hother
    rcases mem_append.mp hjob with hdelayed | hremaining
    · have hlt := of_decide_eq_true (mem_filter.mp hdelayed).2
      exact absurd (of_decide_eq_true havailable) (not_le.mpr hlt)
    · exact (nodup_append.mp (nodup_of_selection hcursors hqueue hselection)).2.2 _ hscanned _ hremaining rfl
  · have hleased := (hexpiring.due _ hother).leased
    rw [(hselection.ready job hmem).ready] at hleased
    cases hleased

end Settled

section Selected

variable (h : Exact naming s) (hqueue : naming.queue queue)
  (hexpiring : Expiring naming s.store queue now expiring)
  (hall : ∀ job, Stored codec s.store job → job.queue = queue → job.expired now = true → job ∈ expiring)
  (hselection : Selection naming s queue now limit expiring scanned remaining jobs)

include h hqueue hselection

theorem readyEntries_of_selection :
    readyEntries codec s.store queue = (scanned ++ remaining).map (readyEntry codec) := by
  rw [← hselection.entries, batchEntries_eq (h.cursors queue hqueue)]

theorem mem_scan_iff :
    job ∈ scanned ++ remaining ↔ Stored codec s.store job ∧ job.queue = queue ∧ job.status = .ready := by
  constructor
  · intro hjob
    have hready := hselection.ready job hjob
    exact ⟨hready.stored, hready.queue_eq, hready.ready⟩
  · rintro ⟨hstored, rfl, hready⟩
    have hentry := mem_readyEntries h.indexed hstored hready
    rw [readyEntries_of_selection h hqueue hselection] at hentry
    obtain ⟨other, hother, heq⟩ := mem_map.mp hentry
    rwa [← readyEntry_inj h.indexed (hselection.ready other hother).stored hstored heq]

theorem available_perm : ((s.store.queueJobs.entries.map Prod.snd).filter (availableNow queue now)).Perm
    ((scanned ++ remaining).filter fun job => job.availableAtMs ≤ now) := by
  refine values_perm h.indexed ((nodup_of_selection h.cursorsIn hqueue hselection).filter _) fun job => ?_
  rw [mem_filter, mem_scan_iff h hqueue hselection]
  simp [availableNow, and_assoc]

include hexpiring hall in
theorem claimable_perm : ((s.store.queueJobs.entries.map Prod.snd).filter (claimableNow queue now)).Perm
    (((scanned ++ remaining).filter fun job => job.availableAtMs ≤ now) ++ expiring) := by
  refine values_perm h.indexed ?_ fun job => ?_
  · rw [nodup_append]
    refine ⟨(nodup_of_selection h.cursorsIn hqueue hselection).filter _, Nodup.of_map _ hexpiring.nodup, ?_⟩
    rintro job hjob _ hdue rfl
    have hready := hselection.ready job (mem_of_mem_filter hjob)
    have hleased := (hexpiring.due job hdue).leased
    rw [hready.ready] at hleased
    cases hleased
  · have hdue : job ∈ expiring ↔ Stored codec s.store job ∧ job.queue = queue ∧ job.expired now = true := by
      constructor
      · intro hjob
        exact ⟨(hexpiring.due job hjob).stored, (hexpiring.due job hjob).queue_eq, (hexpiring.due job hjob).expired⟩
      · rintro ⟨hstored, hjobQueue, hexpired⟩
        exact hall job hstored hjobQueue hexpired
    rw [mem_append, mem_filter, mem_scan_iff h hqueue hselection]
    simp only [claimableNow, availableNow, Bool.or_eq_true, Bool.and_eq_true, decide_eq_true_eq]
    tauto

variable {other : QueueJob}

theorem countP_remaining_eq_zero (hjob : job ∈ scanned) (hle : (readyEntry codec other).1 ≤ (readyEntry codec job).1) :
    ((remaining.filter fun job => job.availableAtMs ≤ now).countP
      fun before => (readyEntry codec before).1 < (readyEntry codec other).1) = 0 := by
  rw [countP_eq_zero]
  intro before hbefore
  have hsorted := (pairwise_append.mp (sorted_of_selection h.cursorsIn hqueue hselection)).2.2
  simpa using hle.trans (hsorted job hjob before (mem_of_mem_filter hbefore)).le

theorem rank_available (hjob : job ∈ scanned) (hle : (readyEntry codec other).1 ≤ (readyEntry codec job).1) :
    rank codec s.store (availableNow queue now) other = (scanned.filter fun job => job.availableAtMs ≤ now).countP
      fun before => (readyEntry codec before).1 < (readyEntry codec other).1 := by
  rw [rank_of_perm (available_perm h hqueue hselection), filter_append, countP_append,
    countP_remaining_eq_zero h hqueue hselection hjob hle, Nat.add_zero]

include hexpiring hall in
theorem rank_claimable (hjob : job ∈ scanned) (hle : (readyEntry codec other).1 ≤ (readyEntry codec job).1) :
    rank codec s.store (claimableNow queue now) other =
      jobs.countP fun before => (readyEntry codec before).1 < (readyEntry codec other).1 := by
  rw [rank_of_perm (claimable_perm h hqueue hexpiring hall hselection), filter_append, countP_append,
    countP_append, countP_remaining_eq_zero h hqueue hselection hjob hle, Nat.add_zero, hselection.perm.countP_eq,
    countP_append]

include hexpiring hall in
theorem exists_before_displaced (hfits : BatchFits codec s.store queue now limit) (hscanned : job ∈ scanned)
    (havailable : job.availableAtMs ≤ now) (hleft : job ∈ jobs.drop limit) :
    ∃ other, (readyEntry codec other).1 ≤ (readyEntry codec job).1 ∧
      ((other ∈ scanned ∧ now < other.availableAtMs) ∨
        other ∈ (jobs.drop limit).filter (holdsLease codec)) := by
  have hjob := mem_scan_iff h hqueue hselection |>.mp (mem_append_left remaining hscanned)
  have hrank := (mem_drop_iff_rank hselection.sorted limit job).mp hleft
  have hfew : (scanned.filter fun job => job.availableAtMs ≤ now).countP
      (fun before => (readyEntry codec before).1 < (readyEntry codec job).1) < limit := by
    refine lt_of_lt_of_le (countP_lt_length_iff.mpr ⟨job, ?_, by simp⟩) hselection.le
    exact mem_filter.mpr ⟨hscanned, decide_eq_true havailable⟩
  rw [← rank_available h hqueue hselection hscanned le_rfl] at hfew
  have hmany := hrank.2
  rw [← rank_claimable h hqueue hexpiring hall hselection hscanned le_rfl] at hmany
  obtain ⟨other, hstored, hotherQueue, hlt, hother⟩ :=
    hfits job hjob.1 (by simp [availableNow, hjob.2.1, hjob.2.2, havailable]) hfew hmany
  refine ⟨other, hlt.le, ?_⟩
  rcases hother with ⟨hready, hdelayed⟩ | ⟨hexpired, hrankOther⟩
  · left
    have hmem := (mem_scan_iff h hqueue hselection).mpr ⟨hstored, hotherQueue, hready⟩
    rcases mem_append.mp hmem with hmem | hmem
    · exact ⟨hmem, hdelayed⟩
    · have hafter := (pairwise_append.mp (sorted_of_selection h.cursorsIn hqueue hselection)).2.2 job hscanned other
        hmem
      exact absurd hlt (lt_asymm hafter)
  · right
    have hmem := hall other hstored hotherQueue hexpired
    have hmemJobs : other ∈ jobs := hselection.perm.mem_iff.mpr (mem_append_right _ hmem)
    rw [rank_claimable h hqueue hexpiring hall hselection hscanned hlt.le] at hrankOther
    refine mem_filter.mpr ⟨(mem_drop_iff_rank hselection.sorted limit other).mpr ⟨hmemJobs, hrankOther⟩, ?_⟩
    obtain ⟨hleased, expiry, hexpiry, -⟩ := expired_iff.mp hexpired
    simp [holdsLease, leaseEntry, hleased, hexpiry]

include hexpiring in
theorem mem_readyEntries_settled {entry : Bytes × Bytes} :
    entry ∈ readyEntries codec ((settledJobs codec now options ack limit jobs).foldl (replace codec) s.store) queue ↔
      (∃ job ∈ (jobs.drop limit).filter (holdsLease codec), readyEntry codec job = entry) ∨
      ∃ job ∈ scanned ++ remaining, readyEntry codec job = entry ∧ job ∉ jobs.take limit := by
  constructor
  · have hnames := settledJobs_names options ack hexpiring hselection
    rw [mem_readyEntries_foldl_replace h.indexed hqueue (fun job hjob => (hnames job hjob).1)
      (settledJobs_nodup hselection), settledJobs_keys, readyEntries_of_selection h hqueue hselection, mem_map]
    rintro (⟨job, hjob, -, hready, rfl⟩ | ⟨⟨job, hjob, rfl⟩, hnot⟩)
    · rcases mem_append.mp hjob with hjob | hjob
      · obtain ⟨old, -, rfl⟩ := mem_map.mp hjob
        exact absurd hready (claimedInBatch_status_ne old)
      · obtain ⟨old, hold, rfl⟩ := mem_map.mp hjob
        exact Or.inl ⟨old, hold, rfl⟩
    · refine Or.inr ⟨job, hjob, rfl, fun htaken => hnot job (hselection.ready job hjob).stored ?_ rfl⟩
      exact mem_map_of_mem (mem_append_left _ htaken)
  · rintro (⟨job, hjob, rfl⟩ | ⟨job, hjob, rfl, hnot⟩)
    · exact readyEntry_mem_settled h.indexed hqueue hexpiring hselection (Or.inr hjob)
    · exact readyEntry_mem_settled h.indexed hqueue hexpiring hselection (Or.inl ⟨hjob, hnot⟩)

include hexpiring hall in
theorem isFirst_settled (hfits : BatchFits codec s.store queue now limit) :
    IsFirst (· ∈ readyEntries codec ((settledJobs codec now options ack limit jobs).foldl (replace codec) s.store)
      queue)
      ((((jobs.drop limit).filter (holdsLease codec)).map (readyEntry codec)).foldl leastCursor
        (((scanned.filter fun job => now < job.availableAtMs) ++ remaining).map (readyEntry codec)).head?) := by
  have hsublist : ((scanned.filter fun job => now < job.availableAtMs) ++ remaining).Sublist (scanned ++ remaining) :=
    Sublist.append_right filter_sublist _
  have hsorted := (sorted_of_selection h.cursorsIn hqueue hselection).sublist hsublist
  have hbase := isFirst_head? (pairwise_map.mpr hsorted)
  have hleast := hbase.foldl_leastCursor (((jobs.drop limit).filter (holdsLease codec)).map (readyEntry codec))
  refine hleast.extend ?_ ?_
  · intro entry hentry
    rcases hentry with hentry | hentry
    · obtain ⟨job, hjob, rfl⟩ := mem_map.mp hentry
      have hkept := kept_of_delayed h.cursorsIn hqueue hexpiring hselection hjob
      exact readyEntry_mem_settled h.indexed hqueue hexpiring hselection (Or.inl hkept)
    · obtain ⟨job, hjob, rfl⟩ := mem_map.mp hentry
      exact readyEntry_mem_settled h.indexed hqueue hexpiring hselection (Or.inr hjob)
  · intro entry hentry
    rw [mem_readyEntries_settled h hqueue hexpiring hselection] at hentry
    rcases hentry with ⟨job, hjob, rfl⟩ | ⟨job, hjob, rfl, hnot⟩
    · exact ⟨_, Or.inr (mem_map_of_mem hjob), le_rfl⟩
    · rcases mem_append.mp hjob with hscanned | hremaining
      · by_cases havailable : job.availableAtMs ≤ now
        · have hmem : job ∈ jobs := hselection.perm.mem_iff.mpr
            (mem_append_left _ (mem_filter.mpr ⟨hscanned, decide_eq_true havailable⟩))
          rw [← take_append_drop limit jobs] at hmem
          have hleft := (mem_append.mp hmem).resolve_left hnot
          obtain ⟨other, hle, hother⟩ :=
            exists_before_displaced h hqueue hexpiring hall hselection hfits hscanned havailable hleft
          refine ⟨readyEntry codec other, ?_, hle⟩
          rcases hother with ⟨hother, hdelayed⟩ | hother
          · exact Or.inl (mem_map_of_mem (mem_append_left _ (mem_filter.mpr ⟨hother, decide_eq_true hdelayed⟩)))
          · exact Or.inr (mem_map_of_mem hother)
        · refine ⟨_, Or.inl (mem_map_of_mem (mem_append_left _ ?_)), le_rfl⟩
          exact mem_filter.mpr ⟨hscanned, decide_eq_true (not_le.mp havailable)⟩
      · exact ⟨_, Or.inl (mem_map_of_mem (mem_append_right _ hremaining)), le_rfl⟩

omit h hqueue hselection in
theorem count_leaseRemoved (hjob : job.queue = queue) (expiry : Millis) :
    (leaseRemoved codec job).count expiry = if leasedUntil queue expiry job then 1 else 0 := by
  unfold leaseRemoved holdsLease leaseEntry
  by_cases hleased : job.status = .leased
  · cases hexpiry : job.leaseExpiresAtMs with
    | none => simp [leasedUntil, hexpiry]
    | some other =>
      by_cases heq : other = expiry
      · subst heq
        simp [leasedUntil, hexpiry, hleased, hjob]
      · simp only [hleased, if_true, Option.map_some]
        rw [count_eq_zero.mpr (by simpa using Ne.symm heq)]
        simp [leasedUntil, hexpiry, heq]
  · simp [hleased, leasedUntil]

omit h hqueue hselection in
theorem count_flatMap_leaseRemoved (hjobs : ∀ job ∈ jobs, job.queue = queue) (expiry : Millis) :
    (jobs.flatMap (leaseRemoved codec)).count expiry = jobs.countP (leasedUntil queue expiry) := by
  induction jobs with
  | nil => rfl
  | cons job jobs ih =>
    obtain ⟨hjob, hjobs⟩ := forall_mem_cons.mp hjobs
    rw [flatMap_cons, count_append, ih hjobs, count_leaseRemoved hjob, countP_cons, Nat.add_comm]

omit h hqueue hselection in
theorem countP_claimedInBatch (hjobs : ∀ job ∈ jobs, job.queue = queue) (expiry : Millis) :
    (jobs.map (·.claimedInBatch now options ack)).countP (leasedUntil queue expiry) =
      (jobs.flatMap fun _ => leaseAdded now options ack).count expiry := by
  induction jobs with
  | nil => rfl
  | cons job jobs ih =>
    obtain ⟨rfl, hjobs⟩ := forall_mem_cons.mp hjobs
    have hone : leasedUntil job.queue expiry (job.claimedInBatch now options ack) =
        leasedUntil job.queue expiry (job.claimed now options ack) := by
      cases ack <;> rfl
    have hcount := countP_claimed now options ack job expiry
    rw [countP_singleton] at hcount
    rw [map_cons, countP_cons, ih hjobs, hone, hcount, flatMap_cons, count_append, Nat.add_comm]

omit h hqueue in
include hexpiring in
theorem leasedCount_settled (expiry : Millis) :
    ((settledJobs codec now options ack limit jobs).foldl (replace codec) s.store).leasedCount queue expiry +
        (jobs.flatMap (leaseRemoved codec)).count expiry =
      s.store.leasedCount queue expiry +
        ((jobs.take limit).flatMap fun _ => leaseAdded now options ack).count expiry := by
  have hstored := hselection.stored hexpiring
  have hqueues : ∀ job ∈ jobs, job.queue = queue := fun job hjob => (hstored job hjob).2.2
  have hfold : ((settledJobs codec now options ack limit jobs).foldl (replace codec) s.store).leasedCount queue expiry +
    _ = _ :=
    leasedCount_foldl_replace expiry (settledJobs_keys codec now options ack limit jobs).symm
    (fun old hold => (hstored old ((settled_sublist codec limit jobs).subset hold)).1)
    (settledJobs_nodup hselection)
  have hold : (jobs.take limit ++ (jobs.drop limit).filter (holdsLease codec)).countP (leasedUntil queue expiry) =
      jobs.countP (leasedUntil queue expiry) := by
    conv_rhs => rw [← take_append_drop limit jobs]
    rw [countP_append, countP_append, countP_filter]
    congr 1
    refine countP_congr fun job _ => ?_
    simp only [leasedUntil, holdsLease, leaseEntry, Bool.and_eq_true, decide_eq_true_eq]
    constructor
    · exact fun hboth => hboth.1
    · rintro ⟨⟨hleased, hjob⟩, hexpiry⟩
      refine ⟨⟨⟨hleased, hjob⟩, hexpiry⟩, by simp [hleased, hexpiry]⟩
  have hnew : (settledJobs codec now options ack limit jobs).countP (leasedUntil queue expiry) =
      ((jobs.take limit).flatMap fun _ => leaseAdded now options ack).count expiry := by
    rw [settledJobs, countP_append, countP_claimedInBatch fun job hjob => hqueues job (mem_of_mem_take hjob),
      countP_leasedUntil_eq_zero (forall_mem_map.mpr fun old _ => by simp [QueueJob.requeued]), Nat.add_zero]
  rw [count_flatMap_leaseRemoved hqueues, ← hold, hfold, hnew]

end Selected

variable (options ack) in
theorem Exact.claimBatchAtomic (h : Exact naming s) (hnow : 0 ≤ now.val) (hqueue : naming.queue queue)
    (hfits : BatchFits codec s.store queue now limit) {result : List QueueJob × Queues}
    (hclaim : claimBatchAtomic codec queue now s options limit ack = .ok result) : Exact naming result.2 := by
  by_cases hmax : maxQueueBatchItems < limit
  · rw [Queues.claimBatchAtomic, if_pos hmax] at hclaim
    cases hclaim
  by_cases hpos : limit = 0
  · rw [Queues.claimBatchAtomic, if_neg hmax, if_pos hpos] at hclaim
    cases hclaim
    exact h
  obtain ⟨expiring, hexpires⟩ := exists_expires now h.indexed hqueue
  have hexpiring := hexpires.toExpiring
  obtain ⟨scanned, remaining, jobs, s', hselection, heq, hupdated⟩ := claimBatchAtomic_cases options ack h.indexed
    h.cursorsIn hqueue (Nat.pos_of_ne_zero hpos) (not_lt.mp hmax) hexpires
  have hall : ∀ job, Stored codec s.store job → job.queue = queue → job.expired now = true → job ∈ expiring :=
    fun job hstored hjob hexpired => h.mem_expiring hqueue hexpires hstored hjob hexpired
  have hnames := settledJobs_names options ack hexpiring hselection
  rw [heq] at hclaim
  cases hclaim
  refine h.updated hupdated.toUpdated (fun job hjob => (hnames job hjob).1) (fun job hjob => (hnames job hjob).2) ?_
    (settledJobs_nodup hselection) ?_ ?_
  · intro job hjob
    rcases mem_append.mp hjob with hjob | hjob
    · obtain ⟨old, hold, rfl⟩ := mem_map.mp hjob
      have havailable : old.availableAtMs ≤ now := by
        rcases mem_append.mp (hselection.perm.mem_iff.mp (mem_of_mem_take hold)) with hmem | hmem
        · exact of_decide_eq_true (mem_filter.mp hmem).2
        · have hdue := hexpiring.due old hmem
          obtain ⟨-, expiry, hexpiry, hle⟩ := expired_iff.mp hdue.expired
          exact (h.leased old hdue.stored hdue.leased expiry hexpiry).2.trans hle
      have hgiven := leaseGiven_claimed options ack hnow havailable
      cases ack with
      | true => exact nofun
      | false => exact fun hleased expiry hexpiry => hgiven hleased expiry hexpiry
    · obtain ⟨old, -, rfl⟩ := mem_map.mp hjob
      exact nofun
  · intro expiry
    rw [hupdated.store_eq]
    exact (leasedCount_settled hexpiring hselection expiry).le
  · rintro - first hfirst
    cases hfirst
    rw [hupdated.store_eq]
    exact isFirst_settled h hqueue hexpiring hall hselection hfits

end Queues

end Thingd.Engine
