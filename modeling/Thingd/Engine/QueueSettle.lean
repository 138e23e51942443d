import Thingd.Engine.QueueBatch

namespace Thingd.Engine.Queues

open QueueStore QueueJob List

variable {codec : StorageCodec} {naming : Naming codec} {s : Queues} {queue : Bytes} {now : Millis}
  {options : QueueClaimOptions} {ack : Bool}

variable (codec) in
def holdsLease (job : QueueJob) : Bool := (leaseEntry codec job).isSome

variable (codec) in
def leaseRemoved (job : QueueJob) : List Millis := if holdsLease codec job then job.leaseExpiresAtMs.toList else []

variable (codec now options ack) in
def takeRewrite (job : QueueJob) : Rewrite :=
  ⟨job, job.claimedInBatch now options ack,
    removeLeaseOf codec job ++ [.removeReady (readyEntry codec job).1, .insertJob (jobKey codec job)
      (job.claimedInBatch now options ack)] ++ insertLeaseOf codec (job.claimedInBatch now options ack)⟩

variable {job : QueueJob}

theorem takeRewrite_valid (hnames : naming.Names job) :
    (takeRewrite codec now options ack job).Valid naming where
  names := by cases ack <;> exact ⟨hnames.queue, hnames.stamp, hnames.id⟩
  key := by cases ack <;> rfl
  commit s h hstored := by
    apply commit_claim h hstored
    · cases ack <;> rfl
    · cases ack <;> simp [claimedInBatch, leasedNow, completedNow]

variable (codec now options ack) in
def settleRewrites (room : ℕ) (jobs : List QueueJob) : List Rewrite :=
  (jobs.take room).map (takeRewrite codec now options ack) ++
    ((jobs.drop room).filter (holdsLease codec)).map (requeueRewrite codec)

variable (codec now options ack) in
structure Settled (room : ℕ) (jobs : List QueueJob) (claim claim' : BatchClaim) : Prop where
  batch : claim'.batch = claim.batch ++ (settleRewrites codec now options ack room jobs).flatMap Rewrite.writes
  completed : claim'.completed = claim.completed ++ (jobs.take room).map (·.claimedInBatch now options ack)
  requeued : claim'.requeued = claim.requeued ++ ((jobs.drop room).filter (holdsLease codec)).map (readyEntry codec)
  removed : claim'.expirationsRemoved = claim.expirationsRemoved ++ jobs.flatMap (leaseRemoved codec)
  added : claim'.expirationsAdded =
    claim.expirationsAdded ++ (jobs.take room).flatMap fun _ => leaseAdded now options ack

theorem completed_releaseLease (candidate : BatchCandidate) (claim : BatchClaim) :
    (releaseLease candidate claim).completed = claim.completed := by
  unfold releaseLease
  cases candidate.leaseKey <;> rfl

variable (codec now options ack) in
theorem insertLeaseOf_claimedInBatch (job : QueueJob) : insertLeaseOf codec (job.claimedInBatch now options ack) =
    if ack then [] else [.insertLease (codec.makeLeaseKey job.queue (leaseDeadline now options) job.id)
      (codec.encodeQueueId job.id)] := by
  cases ack <;> rfl

variable {claim : BatchClaim}

theorem settleCandidate_take {limit : ℕ} (hroom : claim.completed.length < limit) (hqueue : job.queue = queue) :
    Settled codec now options ack 1 [job] claim
      (settleCandidate codec queue now options limit ack claim (candidateOf codec job)) := by
  have hlease := insertLeaseOf_claimedInBatch codec now options ack job
  unfold settleCandidate
  dsimp only
  rw [completed_releaseLease, if_pos hroom]
  subst hqueue
  constructor
  · have hrewrites : settleRewrites codec now options ack 1 [job] = [takeRewrite codec now options ack job] := rfl
    simp only [hrewrites, takeRewrite, hlease]
    cases hentry : leaseEntry codec job <;> cases ack <;>
      simp [takeCandidate, releaseLease, candidateOf, hentry, removeLeaseOf, claimedInBatch, leasedNow]
  all_goals
    cases hentry : leaseEntry codec job <;> cases ack <;>
      simp [takeCandidate, releaseLease, candidateOf, hentry, leaseRemoved, holdsLease, leaseAdded,
        claimedInBatch, leasedNow]

theorem settleCandidate_leave {limit : ℕ} (hfull : limit ≤ claim.completed.length) (job : QueueJob) :
    Settled codec now options ack 0 [job] claim
      (settleCandidate codec queue now options limit ack claim (candidateOf codec job)) := by
  unfold settleCandidate
  dsimp only
  rw [completed_releaseLease, if_neg (not_lt.mpr hfull)]
  cases hentry : leaseEntry codec job <;> constructor <;>
    simp [requeueCandidate, releaseLease, candidateOf, hentry, settleRewrites, requeueRewrite, requeueWrites,
      removeLeaseOf, leaseRemoved, holdsLease, readyEntry]

variable (codec now options ack) in
theorem settled_foldl (limit : ℕ) {jobs : List QueueJob} (hqueue : ∀ job ∈ jobs, job.queue = queue)
    (claim : BatchClaim) :
    Settled codec now options ack (limit - claim.completed.length) jobs claim
      ((jobs.map (candidateOf codec)).foldl (settleCandidate codec queue now options limit ack) claim) := by
  induction jobs generalizing claim with
  | nil => constructor <;> simp [settleRewrites]
  | cons job jobs ih =>
    obtain ⟨hjob, hjobs⟩ := forall_mem_cons.mp hqueue
    set next := settleCandidate codec queue now options limit ack claim (candidateOf codec job) with hnext
    have hrest := ih hjobs next
    rw [map_cons, foldl_cons, ← hnext]
    by_cases hroom : claim.completed.length < limit
    · have hfirst : Settled codec now options ack 1 [job] claim next := settleCandidate_take hroom hjob
      obtain ⟨room, hlimit⟩ : ∃ room, limit - claim.completed.length = room + 1 :=
        ⟨limit - claim.completed.length - 1, by omega⟩
      have hlength : limit - next.completed.length = room := by
        rw [hfirst.completed]
        simp
        omega
      rw [hlength] at hrest
      rw [hlimit]
      constructor
      · simp [hrest.batch, hfirst.batch, settleRewrites]
      · simp [hrest.completed, hfirst.completed]
      · simp [hrest.requeued, hfirst.requeued]
      · simp [hrest.removed, hfirst.removed]
      · simp [hrest.added, hfirst.added]
    · have hfirst : Settled codec now options ack 0 [job] claim next := settleCandidate_leave (not_lt.mp hroom) job
      have hzero : limit - claim.completed.length = 0 := by omega
      have hlength : limit - next.completed.length = 0 := by
        rw [hfirst.completed]
        simp
        omega
      rw [hlength] at hrest
      rw [hzero]
      constructor
      · cases hlease : holdsLease codec job <;> simp [hrest.batch, hfirst.batch, settleRewrites, hlease]
      · simp [hrest.completed, hfirst.completed]
      · cases hlease : holdsLease codec job <;> simp [hrest.requeued, hfirst.requeued, hlease]
      · simp [hrest.removed, hfirst.removed]
      · simp [hrest.added, hfirst.added]

def Balanced (claim : BatchClaim) : Prop :=
  claim.leaseCountRemoved = claim.expirationsRemoved.length ∧ claim.leaseCountAdded = claim.expirationsAdded.length

theorem balanced_releaseLease (h : Balanced claim) (job : QueueJob) :
    Balanced (releaseLease (candidateOf codec job) claim) := by
  unfold releaseLease candidateOf
  cases hentry : leaseEntry codec job with
  | none => exact h
  | some entry =>
    obtain ⟨-, expiry, hexpiry, -⟩ := leaseEntry_eq_some hentry
    obtain ⟨hremoved, hadded⟩ := h
    refine ⟨?_, hadded⟩
    simp [hexpiry, hremoved]

theorem balanced_settleCandidate {limit : ℕ} (h : Balanced claim) (job : QueueJob) :
    Balanced (settleCandidate codec queue now options limit ack claim (candidateOf codec job)) := by
  obtain ⟨hremoved, hadded⟩ := @balanced_releaseLease codec claim h job
  unfold settleCandidate
  dsimp only
  split_ifs
  · unfold takeCandidate
    cases ack with
    | true => exact ⟨hremoved, hadded⟩
    | false =>
      refine ⟨hremoved, ?_⟩
      simp [hadded]
  · exact ⟨hremoved, hadded⟩
  · exact ⟨hremoved, hadded⟩

theorem balanced_foldl {limit : ℕ} (h : Balanced claim) (jobs : List QueueJob) :
    Balanced ((jobs.map (candidateOf codec)).foldl (settleCandidate codec queue now options limit ack) claim) := by
  rw [foldl_map]
  exact List.foldlRecOn jobs _ h fun _ h job _ => balanced_settleCandidate h job

section Selection

structure Selection (naming : Naming codec) (s : Queues) (queue : Bytes) (now : Millis) (limit : ℕ)
    (expiring scanned remaining jobs : List QueueJob) : Prop where
  entries : batchEntries codec s queue = (scanned ++ remaining).map (readyEntry codec)
  ready : ReadyJobs naming s queue (scanned ++ remaining)
  full : remaining = [] ∨ (scanned.filter fun job => job.availableAtMs ≤ now).length = limit
  le : (scanned.filter fun job => job.availableAtMs ≤ now).length ≤ limit
  perm : jobs.Perm ((scanned.filter fun job => job.availableAtMs ≤ now) ++ expiring)
  nodup : (jobs.map (jobKey codec)).Nodup
  sorted : jobs.Pairwise fun a b => (readyEntry codec a).1 < (readyEntry codec b).1

variable {limit : ℕ} {expiring scanned remaining jobs : List QueueJob}

theorem nodup_candidates (hnodup : (scanned ++ remaining).Nodup)
    (hready : ReadyJobs naming s queue (scanned ++ remaining))
    (hexpiring : Expiring naming s.store queue now expiring) :
    (((scanned.filter fun job => job.availableAtMs ≤ now) ++ expiring).map (jobKey codec)).Nodup := by
  have hscanned : ∀ job ∈ scanned.filter (fun job => job.availableAtMs ≤ now),
      ReadyAt naming s.store queue (readyEntry codec job) job := fun job hjob =>
    hready job (mem_append_left _ (mem_of_mem_filter hjob))
  rw [map_append, nodup_append]
  refine ⟨?_, hexpiring.nodup, ?_⟩
  · exact nodup_jobKey (fun job hjob => (hscanned job hjob).stored) ((nodup_append.mp hnodup).1.filter _)
  · rintro _ hkey _ hkey' rfl
    obtain ⟨job, hjob, hone⟩ := mem_map.mp hkey
    obtain ⟨old, hold, htwo⟩ := mem_map.mp hkey'
    have hsame := Stored.inj (hscanned job hjob).stored (hexpiring.due old hold).stored (hone.trans htwo.symm)
    have hleased := (hexpiring.due old hold).leased
    rw [← hsame, (hscanned job hjob).ready] at hleased
    cases hleased

theorem sorted_of_nodup (hnames : ∀ job ∈ jobs, naming.Names job) (hnodup : (jobs.map (jobKey codec)).Nodup)
    (hsorted : jobs.Pairwise fun a b => (readyEntry codec a).1 ≤ (readyEntry codec b).1) :
    jobs.Pairwise fun a b => (readyEntry codec a).1 < (readyEntry codec b).1 := by
  have hne := pairwise_map.mp hnodup
  refine (hsorted.and hne).imp_of_mem fun {a b} ha hb hab => lt_of_le_of_ne hab.1 fun heq => hab.2 ?_
  have hna := hnames a ha
  have hnb := hnames b hb
  obtain ⟨hqueue, hid⟩ := naming.readyKey_inj hna.queue hnb.queue hna.stamp hnb.stamp hna.id hnb.id heq
  exact jobKey_congr hqueue hid

variable (codec now options ack limit) in
def settledJobs (jobs : List QueueJob) : List QueueJob :=
  (jobs.take limit).map (·.claimedInBatch now options ack) ++
    ((jobs.drop limit).filter (holdsLease codec)).map QueueJob.requeued

theorem settleRewrites_new : (settleRewrites codec now options ack limit jobs).map Rewrite.new =
    settledJobs codec now options ack limit jobs := by
  simp [settleRewrites, settledJobs, takeRewrite, requeueRewrite, Function.comp_def]

theorem settleRewrites_old_sublist :
    ((settleRewrites codec now options ack limit jobs).map Rewrite.old).Sublist jobs := by
  have hold : (settleRewrites codec now options ack limit jobs).map Rewrite.old =
      jobs.take limit ++ (jobs.drop limit).filter (holdsLease codec) := by
    simp [settleRewrites, takeRewrite, requeueRewrite, Function.comp_def]
  rw [hold]
  conv_rhs => rw [← take_append_drop limit jobs]
  exact Sublist.append_left filter_sublist _

theorem leased_of_holdsLease (h : holdsLease codec job = true) : job.status = .leased := by
  obtain ⟨entry, hentry⟩ := Option.isSome_iff_exists.mp h
  exact (leaseEntry_eq_some hentry).1

variable (now options ack limit) in
theorem commit_settleRewrites (h : Indexed naming s.store) (hnames : ∀ job ∈ jobs, naming.Names job)
    (hstored : ∀ job ∈ jobs, Stored codec s.store job) (hnodup : (jobs.map (jobKey codec)).Nodup) :
    s.store.commit ((settleRewrites codec now options ack limit jobs).flatMap Rewrite.writes) =
      (settledJobs codec now options ack limit jobs).foldl (replace codec) s.store := by
  have hsublist : ((settleRewrites codec now options ack limit jobs).map Rewrite.old).Sublist jobs :=
    settleRewrites_old_sublist
  rw [← settleRewrites_new]
  apply commit_rewrites h
  · intro r hr
    rcases mem_append.mp hr with hr | hr
    · obtain ⟨job, hjob, rfl⟩ := mem_map.mp hr
      exact takeRewrite_valid (hnames job (mem_of_mem_take hjob))
    · obtain ⟨job, hjob, rfl⟩ := mem_map.mp hr
      obtain ⟨hmem, hlease⟩ := mem_filter.mp hjob
      exact requeueRewrite_valid (hnames job (mem_of_mem_drop hmem)) (leased_of_holdsLease hlease)
  · intro r hr
    exact hstored r.old (hsublist.subset (mem_map_of_mem hr))
  · have hkeys := (hsublist.map (jobKey codec)).nodup hnodup
    rwa [map_map] at hkeys

theorem Selection.stored (hselection : Selection naming s queue now limit expiring scanned remaining jobs)
    (hexpiring : Expiring naming s.store queue now expiring) :
    ∀ job ∈ jobs, Stored codec s.store job ∧ naming.Names job ∧ job.queue = queue := by
  intro job hjob
  rcases mem_append.mp (hselection.perm.mem_iff.mp hjob) with hjob | hjob
  · have hready := hselection.ready job (mem_append_left _ (mem_of_mem_filter hjob))
    exact ⟨hready.stored, hready.names, hready.queue_eq⟩
  · have hdue := hexpiring.due job hjob
    exact ⟨hdue.stored, hdue.names, hdue.queue_eq⟩

variable (now) in
theorem exists_selection (h : Indexed naming s.store) (hcursors : CursorsIn naming s) (hqueue : naming.queue queue)
    (hpos : 0 < limit) (hexpiring : Expiring naming s.store queue now expiring) :
    ∃ scanned remaining jobs scan, Selection naming s queue now limit expiring scanned remaining jobs ∧
      scanReady codec queue now s limit = .ok scan ∧
      (scan.candidates ++ expiring.map (candidateOf codec)).insertionSort (fun a b => a.readyKey ≤ b.readyKey) =
        jobs.map (candidateOf codec) ∧ scan.stale = [] ∧
      scan.delayed.or scan.next =
        (((scanned.filter fun job => now < job.availableAtMs) ++ remaining).map (readyEntry codec)).head? := by
  obtain ⟨scanned, remaining, scan, hentries, hready, hscan, hof, hnext⟩ := scanReady_eq now h hcursors hqueue hpos
  obtain ⟨skipped, hskipped⟩ := exists_skippedInBatch hcursors hqueue
  have hsorted := s.store.readyJobs.withPrefix_sorted (codec.makeReadyPrefix queue)
  rw [← readyEntries, hskipped, hentries] at hsorted
  have hnodup : (scanned ++ remaining).Nodup :=
    Nodup.of_map (readyEntry codec)
      ((pairwise_append.mp hsorted).2.1.imp fun hlt => ne_of_apply_ne Prod.fst hlt.ne)
  set candidates := (scanned.filter fun job => job.availableAtMs ≤ now) ++ expiring with hcandidates
  set jobs := candidates.insertionSort fun a b => (readyEntry codec a).1 ≤ (readyEntry codec b).1 with hjobs
  have hperm : jobs.Perm candidates := perm_insertionSort _ _
  have hkeys : (jobs.map (jobKey codec)).Nodup :=
    (hperm.map _).nodup_iff.mpr (nodup_candidates hnodup hready hexpiring)
  have hnames : ∀ job ∈ jobs, naming.Names job := by
    intro job hjob
    rcases mem_append.mp (hperm.mem_iff.mp hjob) with hjob | hjob
    · exact (hready job (mem_append_left _ (mem_of_mem_filter hjob))).names
    · exact (hexpiring.due job hjob).names
  refine ⟨scanned, remaining, jobs, scan, ⟨hentries, hready, ?_, ?_, hperm, hkeys, sorted_of_nodup hnames hkeys ?_⟩,
    hscan, ?_, hof.stale, ?_⟩
  · simpa [hof.candidates] using hof.full
  · simpa [hof.candidates] using hof.le
  · exact pairwise_sortBy (fun job => (readyEntry codec job).1) _
  · rw [hof.candidates, ← map_append]
    apply Eq.symm
    apply map_insertionSort
    exact fun a _ b _ => Iff.rfl
  · rw [hof.delayed, hnext, map_append, List.head?_append, List.head?_map, List.head?_map]

variable (s queue) in
theorem counted_commitBatch {store : QueueStore} (hstore : s.store.commit claim.batch = store)
    (hempty : claim.batch = [] → claim.expirationsRemoved = [] ∧ claim.expirationsAdded = [])
    (hbalanced : Balanced claim) (cursor : Option (Bytes × Bytes)) :
    Counted s ((if claim.batch.isEmpty then s
      else ((s.commit claim.batch).applyQueueLeaseDelta queue claim.leaseCountRemoved
        claim.leaseCountAdded).applyQueueLeaseExpirationDelta queue claim.expirationsRemoved
          claim.expirationsAdded).setCursor queue cursor)
      queue store claim.expirationsRemoved claim.expirationsAdded (some cursor) := by
  split_ifs with hbatch
  · have hbatch := List.isEmpty_iff.mp hbatch
    obtain ⟨hremoved, hadded⟩ := hempty hbatch
    rw [hbatch] at hstore
    rw [hremoved, hadded, ← hstore]
    exact (counted_store s queue s.store).setCursor cursor
  · rw [hbalanced.1, hbalanced.2]
    exact ((counted_commit hstore).deltas _ _).setCursor cursor

variable (options ack) in
theorem claimBatchAtomic_cases (h : Indexed naming s.store) (hcursors : CursorsIn naming s)
    (hqueue : naming.queue queue) (hpos : 0 < limit) (hmax : limit ≤ maxQueueBatchItems)
    (hexpires : Expires naming s queue now expiring) :
    ∃ scanned remaining jobs s', Selection naming s queue now limit expiring scanned remaining jobs ∧
      claimBatchAtomic codec queue now s options limit ack =
        .ok ((jobs.take limit).map (·.claimedInBatch now options ack), s') ∧
      Counted s s' queue ((settledJobs codec now options ack limit jobs).foldl (replace codec) s.store)
        (jobs.flatMap (leaseRemoved codec)) ((jobs.take limit).flatMap fun _ => leaseAdded now options ack)
        (some ((((jobs.drop limit).filter (holdsLease codec)).map (readyEntry codec)).foldl leastCursor
          (((scanned.filter fun job => now < job.availableAtMs) ++ remaining).map (readyEntry codec)).head?)) := by
  obtain ⟨hexpiring, rest, hunexpired, hsplit⟩ := hexpires
  obtain ⟨scanned, remaining, jobs, scan, hselection, hscan, hsort, hstale, hcursor⟩ :=
    exists_selection now h hcursors hqueue hpos hexpiring
  have hstored := hselection.stored hexpiring
  have hcollect := collectExpired_eq hexpiring.due hunexpired hsplit ⟨[], 0, 0, [], [], [], []⟩ []
  have hcommit := commit_settleRewrites now options ack limit h (fun job hjob => (hstored job hjob).2.1)
    (fun job hjob => (hstored job hjob).1) hselection.nodup
  have hsettled := settled_foldl codec now options ack limit (fun job hjob => (hstored job hjob).2.2)
    ⟨[], 0, 0, [], [], [], []⟩
  set claim := (jobs.map (candidateOf codec)).foldl (settleCandidate codec queue now options limit ack)
    ⟨[], 0, 0, [], [], [], []⟩ with hclaim
  obtain ⟨hbatch, hcompleted, hrequeued, hremoved, hadded⟩ := hsettled
  simp only [length_nil, Nat.sub_zero, nil_append] at hbatch hcompleted hrequeued hremoved hadded
  have hempty : claim.batch = [] → claim.expirationsRemoved = [] ∧ claim.expirationsAdded = [] := by
    intro hnil
    have hjobs : jobs = [] := by
      cases jobs with
      | nil => rfl
      | cons job jobs =>
        obtain ⟨room, rfl⟩ := Nat.exists_eq_succ_of_ne_zero hpos.ne'
        rw [hbatch] at hnil
        simp [settleRewrites, takeRewrite] at hnil
    rw [hremoved, hadded, hjobs]
    exact ⟨rfl, by simp⟩
  have hbalanced : Balanced claim := balanced_foldl ⟨rfl, rfl⟩ jobs
  have hupdated := counted_commitBatch s queue (hbatch ▸ hcommit) hempty hbalanced
    (claim.requeued.foldl leastCursor (scan.delayed.or scan.next))
  rw [hremoved, hadded, hrequeued, hcursor] at hupdated
  refine ⟨scanned, remaining, jobs, _, hselection, ?_, hupdated⟩
  unfold claimBatchAtomic
  rw [if_neg (not_lt.mpr hmax), if_neg hpos.ne', ← readLeases]
  dsimp only
  rw [hcollect]
  simp only [bind, Except.bind, hscan, nil_append, hsort, hstale]
  rw [hcompleted, hrequeued, hremoved, hadded, hcursor]

end Selection

end Thingd.Engine.Queues
