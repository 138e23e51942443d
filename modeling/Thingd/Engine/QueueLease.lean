import Thingd.Engine.QueueRun

namespace Thingd.Engine

open Index QueueStore Queues

variable {codec : StorageCodec} {naming : Naming codec} {s s' : Queues} {queue id : Bytes} {now : Millis}
  {options : QueueClaimOptions} {ack : Bool}

/-- Records, ready index and cursors agree; leases may be missing from the lease index. -/
structure Agrees (naming : Naming codec) (s : Queues) : Prop where
  indexed : Indexed naming s.store
  cursors : CursorsIn naming s

def Rests (now : Millis) (job : QueueJob) : Prop := job.status ≠ .ready ∧ job.expired now = false

variable {job : QueueJob}

section Claims

variable {expiring : List QueueJob}

variable (now options ack) in
theorem Agrees.claimJob (h : Agrees naming s) (hqueue : naming.queue queue) :
    ∃ result s', claimJob codec queue now s options ack = .ok (result, s') ∧ Agrees naming s' ∧
      (∀ job, result = some job → Stored codec s'.store job ∧
        ∃ old, Claimable codec queue now s.store old ∧ job = old.claimed now options ack) ∧
      ∀ kept, Stored codec s.store kept → Rests now kept → Stored codec s'.store kept := by
  obtain ⟨expiring, hexpires⟩ := exists_expires now h.indexed hqueue
  have hexpiring := hexpires.toExpiring
  have hindexed : Indexed naming (withRequeued codec s queue expiring).store := by
    rw [store_withRequeued]
    exact h.indexed.foldl_replace hexpiring.names
  have hcursors := h.cursors.withRequeued h.indexed hqueue hexpiring
  obtain ⟨skipped, hskipped⟩ := exists_skipped (hcursors queue hqueue)
  rcases claimJob_cases h.indexed h.cursors hqueue hexpires options ack rfl with
    ⟨-, s', heq, hupdated⟩ | ⟨before, entry, rest, job, s', hentries, -, hjob, havailable, heq, hupdated⟩
  · have hupdated' : Updated (withRequeued codec s queue expiring) s' queue
        (([] : List QueueJob).foldl (replace codec) (withRequeued codec s queue expiring).store) _ _ _ :=
          hupdated.toUpdated
    refine ⟨none, s', heq, ⟨by rwa [hupdated.store_eq], ?_⟩, by simp, ?_⟩
    · refine hcursors.updated hupdated' hindexed (by simp) (by simp) fun _ entry hentry => ?_
      rw [hupdated.store_eq, hskipped]
      exact List.mem_append_right _ (List.mem_of_mem_head? (Option.some.inj hentry))
    · intro kept hkept hrests
      rw [hupdated.store_eq]
      exact stored_withRequeued hexpiring hkept hrests.2
  · have hkey : jobKey codec (job.claimed now options ack) = jobKey codec job := jobKey_claimed job now options ack
    obtain ⟨hnames, hclaimedQueue⟩ : naming.Names (job.claimed now options ack) ∧ _ := names_claimed hjob
    have hupdated' : Updated (withRequeued codec s queue expiring) s' queue
        ([job.claimed now options ack].foldl (replace codec) (withRequeued codec s queue expiring).store) _ _ _ :=
          hupdated.toUpdated
    refine ⟨some (job.claimed now options ack), s', heq, ⟨?_, ?_⟩, ?_, ?_⟩
    · rw [hupdated.store_eq]
      exact hindexed.replace hnames
    · refine hcursors.updated hupdated' hindexed (by simpa using hnames) (by simpa using hclaimedQueue)
        fun _ other hother => ?_
      have hmem : other ∈ before ++ rest := List.mem_of_mem_head? (Option.some.inj hother)
      rw [hentries, ← List.append_assoc] at hskipped
      rw [hupdated.store_eq, mem_readyEntries_claimed hqueue hskipped hjob hindexed, List.append_assoc]
      exact List.mem_append_right _ hmem
    · intro claimed hclaim
      cases hclaim
      obtain ⟨old, hold, rfl⟩ := claimable_of_readyAt hexpiring hjob havailable
      refine ⟨?_, old, hold, claimed_freed options ack old⟩
      rw [hupdated.store_eq]
      exact get_replace_self _ _
    · intro kept hkept hrests
      have hstored := stored_withRequeued hexpiring hkept hrests.2
      rw [hupdated.store_eq, Stored, get_replace_of_ne]
      · exact hstored
      · rw [hkey]
        intro hsame
        rw [Stored.inj hstored hjob.stored hsame] at hrests
        exact hrests.1 hjob.ready

theorem claimable_of_selection {limit : ℕ} {scanned remaining jobs : List QueueJob}
    (hexpiring : Expiring naming s.store queue now expiring)
    (hselection : Selection naming s queue now limit expiring scanned remaining jobs) (hjob : job ∈ jobs) :
    Claimable codec queue now s.store job := by
  rcases List.mem_append.mp (hselection.perm.mem_iff.mp hjob) with hmem | hmem
  · have hready := hselection.ready job (List.mem_append_left _ (List.mem_of_mem_filter hmem))
    exact ⟨hready.stored, hready.queue_eq, Or.inl ⟨hready.ready, of_decide_eq_true (List.mem_filter.mp hmem).2⟩⟩
  · have hdue := hexpiring.due job hmem
    exact ⟨hdue.stored, hdue.queue_eq, Or.inr hdue.expired⟩

theorem not_claimable_of_rests (h : Rests now job) : ¬ Claimable codec queue now s.store job := by
  rintro ⟨-, -, ⟨hready, -⟩ | hexpired⟩
  · exact h.1 hready
  · rw [h.2] at hexpired
    cases hexpired

theorem Agrees.claimBatchAtomic (h : Agrees naming s) (hqueue : naming.queue queue) {limit : ℕ}
    {claimed : List QueueJob} (hclaim : claimBatchAtomic codec queue now s options limit ack = .ok (claimed, s')) :
    Agrees naming s' ∧ (claimed.map (jobKey codec)).Nodup ∧
      (∀ job ∈ claimed, Stored codec s'.store job ∧
        ∃ old, Claimable codec queue now s.store old ∧ job = old.claimedInBatch now options ack) ∧
      ∀ kept, Stored codec s.store kept → Rests now kept → Stored codec s'.store kept := by
  by_cases hmax : maxQueueBatchItems < limit
  · rw [Queues.claimBatchAtomic, if_pos hmax] at hclaim
    cases hclaim
  by_cases hpos : limit = 0
  · rw [Queues.claimBatchAtomic, if_neg hmax, if_pos hpos] at hclaim
    cases hclaim
    exact ⟨h, List.nodup_nil, by simp, fun _ hkept _ => hkept⟩
  obtain ⟨expiring, hexpires⟩ := exists_expires now h.indexed hqueue
  have hexpiring := hexpires.toExpiring
  obtain ⟨scanned, remaining, jobs, t, hselection, heq, hupdated⟩ := claimBatchAtomic_cases options ack h.indexed
    h.cursors hqueue (Nat.pos_of_ne_zero hpos) (not_lt.mp hmax) hexpires
  rw [heq] at hclaim
  cases hclaim
  have hnames := settledJobs_names options ack hexpiring hselection
  have hnodup : ((settledJobs codec now options ack limit jobs).map (jobKey codec)).Nodup :=
    settledJobs_nodup hselection
  refine ⟨⟨?_, ?_⟩, ?_, ?_, ?_⟩
  · rw [hupdated.store_eq]
    exact h.indexed.foldl_replace fun job hjob => (hnames job hjob).1
  · refine h.cursors.updated hupdated.toUpdated h.indexed (fun job hjob => (hnames job hjob).1)
      (fun job hjob => (hnames job hjob).2)
      fun _ entry hentry => ?_
    rw [hupdated.store_eq]
    rcases leastCursor_mem (Option.some.inj hentry) with hhead | hmem
    · obtain ⟨job, hjob, rfl⟩ := List.mem_map.mp (List.mem_of_mem_head? hhead)
      have hkept := kept_of_delayed h.cursors hqueue hexpiring hselection hjob
      exact readyEntry_mem_settled h.indexed hqueue hexpiring hselection (Or.inl hkept)
    · obtain ⟨job, hjob, rfl⟩ := List.mem_map.mp hmem
      exact readyEntry_mem_settled h.indexed hqueue hexpiring hselection (Or.inr hjob)
  · rw [settledJobs, List.map_append] at hnodup
    exact (List.nodup_append.mp hnodup).1
  · intro job hjob
    obtain ⟨old, hold, rfl⟩ := List.mem_map.mp hjob
    refine ⟨?_, old, claimable_of_selection hexpiring hselection (List.mem_of_mem_take hold), rfl⟩
    rw [hupdated.store_eq]
    exact stored_foldl_replace hnodup (List.mem_append_left _ hjob)
  · intro kept hkept hrests
    rw [hupdated.store_eq, stored_foldl_replace_iff hnodup, settledJobs_keys]
    refine Or.inr ⟨hkept, fun hmem => ?_⟩
    obtain ⟨old, hold, hkey⟩ := List.mem_map.mp hmem
    have hclaimable := claimable_of_selection hexpiring hselection ((settled_sublist codec limit jobs).subset hold)
    rw [Stored.inj hclaimable.1 hkept hkey] at hclaimable
    exact not_claimable_of_rests hrests hclaimable

end Claims

section Release

theorem stored_replace_of_ne {new kept : QueueJob} (hjob : Stored codec s.store job)
    (hkey : jobKey codec new = jobKey codec job) (hkept : Stored codec s.store kept) (hne : kept ≠ job) :
    Stored codec (s.store.replace codec new) kept := by
  rw [Stored, get_replace_of_ne]
  · exact hkept
  · rw [hkey]
    exact fun hsame => hne (Stored.inj hkept hjob hsame)

theorem Agrees.settled (h : Agrees naming s) {new : QueueJob} (hsettled : LeaseSettled naming s job new s') :
    Agrees naming s' := by
  have hupdated : Updated s s' new.queue ([new].foldl (replace codec) s.store) _ [] _ := hsettled.counted.toUpdated
  refine ⟨by rw [hupdated.store_eq]; exact h.indexed.replace hsettled.names, ?_⟩
  refine h.cursors.updated hupdated h.indexed (by simpa using hsettled.names) (by simp) fun hqueue entry hentry => ?_
  rw [hsettled.counted.store_eq,
    mem_readyEntries_replace h.indexed hqueue hsettled.stored hsettled.key_eq hsettled.names]
  have hold : ∀ entry, s.readyCursors.get new.queue = some (some entry) →
      entry ∈ readyEntries codec s.store new.queue ∧ readyEntry codec job ≠ entry := by
    intro entry hget
    have hmem := h.cursors new.queue hqueue entry hget
    refine ⟨hmem, fun heq => ?_⟩
    obtain ⟨other, hother⟩ := exists_readyAt h.indexed hqueue hmem
    have hleased := hsettled.leased
    rw [readyEntry_inj h.indexed hsettled.stored hother.stored (heq.trans hother.entry_eq.symm),
      hother.ready] at hleased
    cases hleased
  split_ifs at hentry with hready
  · obtain ⟨cursor, hcursor, hleast⟩ := Option.map_eq_some_iff.mp hentry
    have hcases : cursor = some entry ∨ entry ∈ [readyEntry codec new] := leastCursor_mem hleast
    rcases hcases with rfl | hmem
    · exact Or.inr (hold entry hcursor)
    · exact Or.inl ⟨rfl, hready, (List.mem_singleton.mp hmem).symm⟩
  · exact Or.inr (hold entry hentry)

theorem Agrees.settleLease (h : Agrees naming s) (hqueue : naming.queue queue) (hid : naming.id id)
    {settle : QueueJob → QueueJob} (hsettle : Settling settle) :
    Agrees naming (settleLease codec s queue id settle).2 ∧
      ∀ kept, Stored codec s.store kept → (kept.status = .leased → (kept.queue, kept.id) ≠ (queue, id)) →
        Stored codec (Queues.settleLease codec s queue id settle).2.store kept := by
  rcases settleLease_cases h.indexed hqueue hid hsettle with ⟨heq, -⟩ | ⟨job, s', heq, rfl, rfl, hsettled⟩
  · rw [heq]
    exact ⟨h, fun _ hkept _ => hkept⟩
  · rw [heq]
    refine ⟨h.settled hsettled, fun kept hkept hother => ?_⟩
    rw [hsettled.counted.store_eq]
    refine stored_replace_of_ne hsettled.stored hsettled.key_eq hkept ?_
    rintro rfl
    exact hother hsettled.leased rfl

theorem Agrees.reopen (h : Agrees naming s) : Agrees naming (reopen codec s) := by
  obtain ⟨hstore, hcursors, -⟩ := reopen_state codec s
  refine ⟨by rw [hstore]; exact Indexed.reopen h.indexed, ?_⟩
  intro queue _ entry hget
  rw [hcursors] at hget
  cases hget

end Release

section Push

structure Pushable (naming : Naming codec) (s : QueueStore) (job : QueueJob) : Prop where
  names : naming.Names job
  kept : ∀ old, s.queueJobs.get (jobKey codec job) = some old → job = old

theorem commit_push_stored (h : Indexed naming s.store) (hjob : Stored codec s.store job) :
    s.store.commit (pushWrites codec job) = s.store := by
  have hjobs : s.store.queueJobs.insert (codec.makeQueueKey job.queue job.id) job = s.store.queueJobs :=
    SortedMap.insert_eq_self hjob
  unfold pushWrites
  by_cases hready : job.status = .ready
  · have hget := h.get_readyJobs hjob
    rw [if_pos hready] at hget
    have hindex := SortedMap.insert_eq_self hget
    simp [QueueStore.commit, write, hready, hjobs, hindex]
  · simp [QueueStore.commit, write, hready, hjobs]

theorem commit_push_fresh (h : Indexed naming s.store) (hnames : naming.Names job)
    (hfresh : s.store.queueJobs.get (jobKey codec job) = none) :
    Indexed naming (s.store.commit (pushWrites codec job)) ∧
      (s.store.commit (pushWrites codec job)).queueJobs = s.store.queueJobs.insert (jobKey codec job) job ∧
      (s.store.commit (pushWrites codec job)).readyJobs = (s.store.replace codec job).readyJobs := by
  have hcommit : s.store.commit (pushWrites codec job) =
      { s.store.replace codec job with leaseJobs := s.store.leaseJobs } := by
    rw [replace, hfresh]
    unfold pushWrites
    by_cases hready : job.status = .ready
    · simp [QueueStore.commit, write, reindex, readyIndexEntry, hready, eraseEntry, insertEntry, jobKey]
    · simp [QueueStore.commit, write, reindex, readyIndexEntry, hready, eraseEntry, insertEntry, jobKey]
  have hreplaced := h.replace hnames
  rw [hcommit]
  refine ⟨⟨hreplaced.keyed, hreplaced.readySound, hreplaced.readyComplete, ?_⟩, rfl, rfl⟩
  intro key value hget
  obtain ⟨jobKey', other, hother, hentry⟩ := h.leaseSound key value hget
  refine ⟨jobKey', other, ?_, hentry⟩
  have hne : jobKey' ≠ jobKey codec job := by
    rintro rfl
    rw [hfresh] at hother
    cases hother
  exact (get_replace_of_ne s.store hne).trans hother

theorem CursorsIn.cacheQueueReadyMin (h : CursorsIn naming s) {entry : Bytes × Bytes}
    (hentry : entry ∈ readyEntries codec s.store queue) :
    CursorsIn naming (s.cacheQueueReadyMin queue entry.1 entry.2) := by
  intro other hother first hget
  rw [(store_cacheQueueReadyMin _ _ _ _).1]
  by_cases hne : other = queue
  · subst hne
    rw [get_cacheQueueReadyMin] at hget
    obtain ⟨cursor, hcursor, hleast⟩ := Option.map_eq_some_iff.mp hget
    have hcases : cursor = some first ∨ first ∈ [entry] := leastCursor_mem hleast
    rcases hcases with rfl | hmem
    · exact h other hother first hcursor
    · rwa [List.mem_singleton.mp hmem]
  · rw [get_cacheQueueReadyMin_of_ne hne] at hget
    exact h other hother first hget

theorem agrees_cachePushed (h : Agrees naming s) (hjob : Stored codec s.store job) :
    Agrees naming (cachePushed codec s job) ∧ (cachePushed codec s job).store = s.store := by
  unfold cachePushed
  split_ifs with hready
  · have hstore := (store_cacheQueueReadyMin s job.queue (readyEntry codec job).1 (readyEntry codec job).2).1
    refine ⟨⟨by rw [hstore]; exact h.indexed, ?_⟩, hstore⟩
    exact CursorsIn.cacheQueueReadyMin h.cursors (mem_readyEntries h.indexed hjob hready)
  · exact ⟨h, rfl⟩

theorem Agrees.pushOne (h : Agrees naming s) (hjob : Pushable naming s.store job) :
    Agrees naming (pushOne codec s job) ∧ Stored codec (Queues.pushOne codec s job).store job ∧
      ∀ kept, Stored codec s.store kept → Stored codec (Queues.pushOne codec s job).store kept := by
  cases hget : s.store.queueJobs.get (jobKey codec job) with
  | some old =>
    obtain rfl := hjob.kept old hget
    have hstored : Stored codec s.store job := hget
    have hcommit : s.commit (pushWrites codec job) = s := by
      rw [Queues.commit, commit_push_stored h.indexed hstored]
    obtain ⟨hagrees, hstore⟩ := agrees_cachePushed h hstored
    rw [Queues.pushOne, hcommit, hstore]
    exact ⟨hagrees, hstored, fun _ hkept => hkept⟩
  | none =>
    obtain ⟨hindexed, hjobs, hready⟩ := commit_push_fresh h.indexed hjob.names hget
    have hstored : Stored codec (s.commit (pushWrites codec job)).store job := by
      rw [Stored, Queues.commit, hjobs]
      simp
    have hkept : ∀ kept, Stored codec s.store kept → Stored codec (s.commit (pushWrites codec job)).store kept := by
      intro kept hkept
      have hne : jobKey codec kept ≠ jobKey codec job := by
        intro heq
        rw [Stored, heq, hget] at hkept
        cases hkept
      rw [Stored, Queues.commit, hjobs, SortedMap.get_insert, if_neg hne]
      exact hkept
    have hagrees : Agrees naming (s.commit (pushWrites codec job)) := by
      refine ⟨hindexed, fun queue hqueue entry hcursor => ?_⟩
      obtain ⟨other, hother⟩ := exists_readyAt h.indexed hqueue (h.cursors queue hqueue entry hcursor)
      exact (mem_readyEntries_iff hindexed hqueue).mpr
        ⟨other, hkept other hother.stored, hother.names, hother.queue_eq, hother.ready, hother.entry_eq⟩
    obtain ⟨hcached, hstore⟩ := agrees_cachePushed hagrees hstored
    refine ⟨hcached, ?_, ?_⟩
    · rw [Queues.pushOne, hstore]
      exact hstored
    · rw [Queues.pushOne, hstore]
      exact hkept

variable (codec) in
def PushableAll (naming : Naming codec) : Queues → List QueueJob → Prop
  | _, [] => True
  | s, job :: jobs => Pushable naming s.store job ∧ PushableAll naming (pushOne codec s job) jobs

theorem Agrees.foldl_pushOne (h : Agrees naming s) {jobs : List QueueJob} (hjobs : PushableAll codec naming s jobs) :
    Agrees naming (jobs.foldl (Queues.pushOne codec) s) ∧
      (∀ kept, Stored codec s.store kept → Stored codec (jobs.foldl (Queues.pushOne codec) s).store kept) ∧
      ∀ job ∈ jobs, ∀ old, s.store.queueJobs.get (jobKey codec job) = some old → job = old := by
  induction jobs generalizing s with
  | nil => exact ⟨h, fun _ hkept => hkept, by simp⟩
  | cons first jobs ih =>
    obtain ⟨hfirst, hjobs⟩ := hjobs
    obtain ⟨hagrees, -, hkept⟩ := h.pushOne hfirst
    obtain ⟨hagrees', hkept', hsame⟩ := ih hagrees hjobs
    refine ⟨hagrees', fun kept hstored => hkept' kept (hkept kept hstored), ?_⟩
    intro job hjob old hget
    rcases List.mem_cons.mp hjob with rfl | hjob
    · exact hfirst.kept old hget
    · obtain ⟨hkey, -⟩ := h.indexed.keyed _ old hget
      have hold : Stored codec s.store old := by rwa [Stored, ← hkey]
      refine hsame job hjob old ?_
      rw [hkey]
      exact hkept old hold

end Push

namespace QueueOp

def isClaim : QueueOp → Bool
  | .claim _ _ _ => true
  | .claimBatch _ _ _ _ => true
  | _ => false

def isPush : QueueOp → Bool
  | .pushJob _ _ => true
  | .pushJobsBatch _ => true
  | _ => false

def Releases (job : QueueJob) : QueueOp → Prop
  | .ackJob queue id => job.status = .leased ∧ (job.queue, job.id) = (queue, id)
  | .nackJob queue id _ => job.status = .leased ∧ (job.queue, job.id) = (queue, id)
  | _ => False

def Repeats (naming : Naming codec) (s : Queues) : QueueOp → Prop
  | .pushJob job nowIso => Pushable naming s.store (dated job nowIso)
  | .pushJobsBatch jobs => PushableAll codec naming s (jobs.map fun job => dated job.1 job.2)
  | .claim queue _ _ => naming.queue queue
  | .claimBatch queue _ _ _ => naming.queue queue
  | .ackJob queue id => naming.queue queue ∧ naming.id id
  | .nackJob queue id _ => naming.queue queue ∧ naming.id id
  | .reopen => True

end QueueOp

inductive QueueTrace (naming : Naming codec) : Queues → List (Millis × QueueOp × List QueueJob) → Queues → Prop
  | nil (s : Queues) : QueueTrace naming s [] s
  | cons {s s' t : Queues} {now : Millis} {op : QueueOp} {jobs : List QueueJob}
      {rest : List (Millis × QueueOp × List QueueJob)} (hop : op.Repeats naming s)
      (happly : op.apply codec now s = .ok (jobs, s')) (hrest : QueueTrace naming s' rest t) :
      QueueTrace naming s ((now, op, jobs) :: rest) t

variable {op : QueueOp} {jobs : List QueueJob}

section

variable (h : Agrees naming s) (hop : op.Repeats naming s) (happly : op.apply codec now s = .ok (jobs, s'))
include h hop happly

theorem stored_step {kept : QueueJob} (hkept : Stored codec s.store kept) (hrests : Rests now kept)
    (hnot : ¬ op.Releases kept) : Stored codec s'.store kept := by
  cases op with
  | pushJob job nowIso =>
    cases happly
    exact (h.pushOne hop).2.2 kept hkept
  | pushJobsBatch pushed =>
    cases happly
    rw [foldl_pushOne]
    exact (h.foldl_pushOne hop).2.1 kept hkept
  | claim queue options ack =>
    obtain ⟨result, t, heq, -, -, hstored⟩ := h.claimJob now options ack hop
    simp only [QueueOp.apply, heq] at happly
    cases happly
    exact hstored kept hkept hrests
  | claimBatch queue options limit ack => exact (h.claimBatchAtomic hop happly).2.2.2 kept hkept hrests
  | ackJob queue id =>
    cases happly
    rw [ackJob_eq]
    exact (h.settleLease hop.1 hop.2 (settling_completedNow now)).2 kept hkept fun hleased hsame =>
      hnot ⟨hleased, hsame⟩
  | nackJob queue id options =>
    cases happly
    exact (h.settleLease hop.1 hop.2 (settling_nacked now options)).2 kept hkept fun hleased hsame =>
      hnot ⟨hleased, hsame⟩
  | reopen =>
    cases happly
    rw [(reopen_state codec s).1]
    exact hkept

theorem agrees_step : Agrees naming s' := by
  cases op with
  | pushJob job nowIso =>
    cases happly
    exact (h.pushOne hop).1
  | pushJobsBatch pushed =>
    cases happly
    rw [foldl_pushOne]
    exact (h.foldl_pushOne hop).1
  | claim queue options ack =>
    obtain ⟨result, t, heq, hagrees, -, -⟩ := h.claimJob now options ack hop
    simp only [QueueOp.apply, heq] at happly
    cases happly
    exact hagrees
  | claimBatch queue options limit ack => exact (h.claimBatchAtomic hop happly).1
  | ackJob queue id =>
    cases happly
    rw [ackJob_eq]
    exact (h.settleLease hop.1 hop.2 (settling_completedNow now)).1
  | nackJob queue id options =>
    cases happly
    exact (h.settleLease hop.1 hop.2 (settling_nacked now options)).1
  | reopen =>
    cases happly
    exact h.reopen

theorem claimed_step (hclaim : op.isClaim = true) :
    (jobs.map fun job => (job.queue, job.id)).Nodup ∧ ∀ job ∈ jobs, Stored codec s'.store job ∧ job.status ≠ .ready ∧
      ∃ queue old, Claimable codec queue now s.store old ∧ (old.queue, old.id) = (job.queue, job.id) := by
  cases op with
  | claim queue options ack =>
    obtain ⟨result, t, heq, -, hresult, -⟩ := h.claimJob now options ack hop
    simp only [QueueOp.apply, heq] at happly
    cases happly
    refine ⟨by cases result <;> simp, fun job hjob => ?_⟩
    obtain ⟨hstored, old, hold, rfl⟩ := hresult job (Option.mem_toList.mp hjob)
    exact ⟨hstored, claimed_status_ne old now options ack, queue, old, hold, by cases ack <;> rfl⟩
  | claimBatch queue options limit ack =>
    obtain ⟨-, hnodup, hjobs, -⟩ := h.claimBatchAtomic hop happly
    constructor
    · refine List.Nodup.of_map (fun name => codec.makeQueueKey name.1 name.2) ?_
      rw [List.map_map]
      exact hnodup
    · intro job hjob
      obtain ⟨hstored, old, hold, rfl⟩ := hjobs job hjob
      exact ⟨hstored, claimedInBatch_status_ne old, queue, old, hold, by cases ack <;> rfl⟩
  | pushJob job nowIso => cases hclaim
  | pushJobsBatch pushed => cases hclaim
  | ackJob queue id => cases hclaim
  | nackJob queue id options => cases hclaim
  | reopen => cases hclaim

theorem pushed_step (hpush : op.isPush = true) :
    (∀ kept, Stored codec s.store kept → Stored codec s'.store kept) ∧
      ∀ job ∈ jobs, ∀ old, s.store.queueJobs.get (jobKey codec job) = some old → job = old := by
  cases op with
  | pushJob job nowIso =>
    cases happly
    refine ⟨(h.pushOne hop).2.2, fun pushed hpushed old hget => ?_⟩
    obtain rfl := List.mem_singleton.mp hpushed
    exact hop.kept old hget
  | pushJobsBatch pushed =>
    cases happly
    rw [foldl_pushOne]
    exact ⟨(h.foldl_pushOne hop).2.1, (h.foldl_pushOne hop).2.2⟩
  | claim queue options ack => cases hpush
  | claimBatch queue options limit ack => cases hpush
  | ackJob queue id => cases hpush
  | nackJob queue id options => cases hpush
  | reopen => cases hpush

end

variable {trace : List (Millis × QueueOp × List QueueJob)}

theorem QueueTrace.agrees (htrace : QueueTrace naming s trace s') (h : Agrees naming s) : Agrees naming s' := by
  induction htrace with
  | nil => exact h
  | cons hop happly _ ih => exact ih (agrees_step h hop happly)

theorem QueueTrace.stored (htrace : QueueTrace naming s trace s') (h : Agrees naming s)
    (hstored : Stored codec s.store job) (hready : job.status ≠ .ready)
    (hsteps : ∀ step ∈ trace, job.expired step.1 = false ∧ ¬ step.2.1.Releases job) :
    Stored codec s'.store job ∧ ∀ step ∈ trace, step.2.1.isClaim = true →
      ∀ other ∈ step.2.2, (other.queue, other.id) ≠ (job.queue, job.id) := by
  induction htrace with
  | nil => exact ⟨hstored, by simp⟩
  | @cons s s₁ t now op jobs rest hop happly _ ih =>
    obtain ⟨⟨hexpired, hnot⟩, hrest⟩ := List.forall_mem_cons.mp hsteps
    have hrests : Rests now job := ⟨hready, hexpired⟩
    obtain ⟨hlast, hothers⟩ := ih (agrees_step h hop happly) (stored_step h hop happly hstored hrests hnot) hrest
    refine ⟨hlast, List.forall_mem_cons.mpr ⟨fun hclaim other hother hsame => ?_, hothers⟩⟩
    obtain ⟨-, -, queue, old, hold, hname⟩ := (claimed_step h hop happly hclaim).2 other hother
    obtain ⟨hqueue, hid⟩ := Prod.mk.inj (hname.trans hsame)
    have heq := Stored.inj hold.1 hstored (jobKey_congr hqueue hid)
    rw [heq] at hold
    exact not_claimable_of_rests hrests hold

theorem agrees_empty (naming : Naming codec) : Agrees naming Queues.empty :=
  ⟨(exact_empty naming).indexed, (exact_empty naming).cursorsIn⟩

/-- In every run whose pushes repeat stored records or are new, pushes change no stored job, a claim never returns a job
twice, and no claim returns a job that is completed, dead or leased to another claim. -/
theorem leases_are_exclusive (hrun : QueueTrace naming Queues.empty trace s) :
    (∀ (job : QueueJob) (nowIso : Bytes) (stored : QueueJob), naming.Names (dated job nowIso) →
      s.store.queueJobs.get (jobKey codec (dated job nowIso)) = some stored →
      (((Queues.pushJob codec s job nowIso).1 = stored ∧ (Queues.pushJob codec s job nowIso).2.store = s.store) ↔
        dated job nowIso = stored)) ∧
    (∀ (now : Millis) (op : QueueOp) (jobs : List QueueJob) (s' : Queues), op.Repeats naming s →
      op.apply codec now s = .ok (jobs, s') →
      (op.isPush = true → (∀ kept, Stored codec s.store kept → Stored codec s'.store kept) ∧
        ∀ job ∈ jobs, ∀ old, s.store.queueJobs.get (jobKey codec job) = some old → job = old) ∧
      (op.isClaim = true → (jobs.map fun job => (job.queue, job.id)).Nodup ∧
        ∀ job ∈ jobs, Stored codec s'.store job ∧ job.status ≠ .ready)) ∧
    ∀ (job : QueueJob) (later : List (Millis × QueueOp × List QueueJob)) (t : Queues), Stored codec s.store job →
      job.status ≠ .ready → QueueTrace naming s later t →
      (∀ step ∈ later, job.expired step.1 = false ∧ ¬ step.2.1.Releases job) →
      ∀ step ∈ later, step.2.1.isClaim = true → ∀ other ∈ step.2.2, (other.queue, other.id) ≠ (job.queue, job.id) := by
  have h := hrun.agrees (agrees_empty naming)
  refine ⟨?_, ?_, ?_⟩
  · intro job nowIso stored hnames hget
    constructor
    · exact fun hpush => hpush.1
    · intro hsame
      refine ⟨hsame, ?_⟩
      have hstored : Stored codec s.store (dated job nowIso) := by rw [Stored, hget, hsame]
      have hcommit : s.commit (pushWrites codec (dated job nowIso)) = s := by
        rw [Queues.commit, commit_push_stored h.indexed hstored]
      simp only [Queues.pushJob, hcommit]
      exact (agrees_cachePushed h hstored).2
  · intro now op jobs s' hop happly
    refine ⟨pushed_step h hop happly, fun hclaim => ?_⟩
    obtain ⟨hnodup, hjobs⟩ := claimed_step h hop happly hclaim
    exact ⟨hnodup, fun job hjob => ⟨(hjobs job hjob).1, (hjobs job hjob).2.1⟩⟩
  · intro job later t hstored hready htrace hsteps
    exact (htrace.stored h hstored hready hsteps).2

theorem completed_job_stays_unclaimed :
    ∃ s, QueueTrace sampleNaming Queues.empty
        [(Millis.zero, .pushJob ((sampleJob 65 9).completedNow Millis.zero) [],
          [(sampleJob 65 9).completedNow Millis.zero])] s ∧
      ∀ jobs t, (QueueOp.claim [113] ⟨5⟩ false).apply sampleCodec Millis.zero s = .ok (jobs, t) →
        ∀ other ∈ jobs, (other.queue, other.id) ≠ ([113], [65]) := by
  have hnul : (0 : Byte) ∉ ([113] : Bytes) := by decide
  have hpush : (QueueOp.pushJob ((sampleJob 65 9).completedNow Millis.zero) []).Repeats sampleNaming Queues.empty := by
    refine ⟨⟨hnul, ?_, trivial⟩, fun old hget => absurd hget (by simp [Queues.empty])⟩
    change (0 : Byte) ∉ ([49] : Bytes)
    decide
  have happly : (QueueOp.pushJob ((sampleJob 65 9).completedNow Millis.zero) []).apply sampleCodec Millis.zero
      Queues.empty = .ok (_, _) := rfl
  have hrun := QueueTrace.cons hpush happly (QueueTrace.nil _)
  refine ⟨_, hrun, fun jobs t happly other hother => ?_⟩
  have hclaim : (QueueOp.claim [113] ⟨5⟩ false).Repeats sampleNaming
      (Queues.pushJob sampleCodec Queues.empty ((sampleJob 65 9).completedNow Millis.zero) []).2 := hnul
  have hlater := QueueTrace.cons hclaim happly (QueueTrace.nil t)
  exact (leases_are_exclusive hrun).2.2 ((sampleJob 65 9).completedNow Millis.zero) _ t (by decide) (by decide) hlater
    (by simp [QueueOp.Releases, QueueJob.expired, QueueJob.completedNow]) _ List.mem_cons_self rfl other hother

/-- Pushing a completed job again makes it claimable. -/
theorem push_revives_completed_job :
    ∃ s ∈ (QueueOp.runAll sampleCodec [(Millis.saturating 0, .pushJob (sampleJob 65 9) []),
      (Millis.saturating 10, .claim [113] ⟨5⟩ true)] Queues.empty).toOption,
      (s.store.queueJobs.get (sampleCodec.makeQueueKey [113] [65])).map (·.status) = some .completed ∧
      (Queues.pushJob sampleCodec s (sampleJob 65 9) []).1.status = .ready ∧
      ((claimJobWithOptions sampleCodec [113] (Millis.saturating 11)
        (Queues.pushJob sampleCodec s (sampleJob 65 9) []).2 ⟨5⟩).toOption.bind Prod.fst).map (·.id) = some [65] := by
  decide +kernel

/-- Opening rebuilds only the lease index, but both indexes are then those of the records. -/
theorem reopening_restores_indexes (hrun : QueueTrace naming .empty trace s) :
    (reopen codec s).store = ⟨s.store.queueJobs, build (readyIndexEntry codec) s.store.queueJobs,
      build (leaseEntry codec) s.store.queueJobs⟩ ∧
    ∀ queue expiry, (reopen codec s).expirationCount queue expiry = s.store.leasedCount queue expiry := by
  obtain ⟨hstore, -, hcount⟩ := reopen_state codec s
  have h := (hrun.agrees (agrees_empty naming)).indexed
  refine ⟨?_, hcount⟩
  rw [hstore, ← eq_of_exact h.readySound h.readyComplete (build_sound _) (build_complete (readyApart h.keyed))]
  rfl

theorem reopening_restores_pushed_job :
    ∃ s, QueueTrace sampleNaming .empty [(Millis.zero, .pushJob (sampleJob 65 9) [], [sampleJob 65 9])] s ∧
      (reopen sampleCodec s).store.readyJobs = build (readyIndexEntry sampleCodec) s.store.queueJobs := by
  have hpush : (QueueOp.pushJob (sampleJob 65 9) []).Repeats sampleNaming .empty :=
    ⟨by constructor <;> simp [sampleNaming, rawNaming, sampleJob, dated], by simp [Queues.empty]⟩
  have hrun : QueueTrace sampleNaming .empty [(Millis.zero, _, _)] _ := .cons hpush rfl (.nil _)
  exact ⟨_, hrun, congrArg QueueStore.readyJobs (reopening_restores_indexes hrun).1⟩

end Thingd.Engine
