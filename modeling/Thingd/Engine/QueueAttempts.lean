import Thingd.Engine.QueueLease
import Thingd.Engine.MemoryLife

namespace Thingd.Engine

open QueueStore Queues QueueJob

variable {codec : StorageCodec} {naming : Naming codec} {s s' : Queues} {queue id : Bytes} {now : Millis}
  {options : QueueClaimOptions} {ack : Bool} {job : QueueJob}

section Offers

variable {expiring : List QueueJob}

theorem offer_withRequeued (hexpiring : Expiring naming s.store queue now expiring)
    (hstored : Stored codec s.store job) :
    ∃ new, Stored codec (withRequeued codec s queue expiring).store new ∧ Offer now job false new := by
  by_cases hmem : job ∈ expiring
  · refine ⟨job.requeued, ?_, .expires (hexpiring.due job hmem).expired⟩
    rw [store_withRequeued]
    exact stored_foldl_replace hexpiring.requeued_nodup (List.mem_map_of_mem hmem)
  · refine ⟨job, ?_, .stays job⟩
    rw [store_withRequeued, stored_foldl_replace_iff hexpiring.requeued_nodup, requeued_keys]
    refine Or.inr ⟨hstored, fun hkey => ?_⟩
    obtain ⟨old, hold, hsame⟩ := List.mem_map.mp hkey
    rw [Stored.inj (hexpiring.due old hold).stored hstored hsame] at hold
    exact hmem hold

theorem jobKey_of_name {a b : QueueJob} (h : a.name = b.name) : jobKey codec a = jobKey codec b :=
  jobKey_congr (congrArg Prod.fst h) (congrArg Prod.snd h)

theorem offer_claimed (hclaimable : Claimable codec queue now s.store job) {new : QueueJob}
    (hname : new.name = job.name) (hmax : new.maxAttempts = job.maxAttempts)
    (hattempts : new.attempts = min (job.attempts + 1) u32Max) (hready : new.status ≠ .ready)
    (hdead : new.status ≠ .dead) : Offer now job true new := by
  obtain ⟨-, -, hstate⟩ := hclaimable
  exact .handed (hstate.imp_left And.left) hname hmax hattempts hready hdead

theorem Agrees.offer_claimJob (h : Agrees naming s) (hqueue : naming.queue queue) {result : Option QueueJob}
    (hclaim : Queues.claimJob codec queue now s options ack = .ok (result, s')) (hstored : Stored codec s.store job) :
    ∃ new given, Stored codec s'.store new ∧ Offer now job given new ∧
      (result.toList.countP fun other => other.name = job.name) = given.toNat := by
  obtain ⟨expiring, hexpires⟩ := exists_expires now h.indexed hqueue
  have hexpiring := hexpires.toExpiring
  obtain ⟨freedJob, hfreed, hoffer⟩ := offer_withRequeued hexpiring hstored
  rcases claimJob_cases h.indexed h.cursors hqueue hexpires options ack rfl with
    ⟨-, t, heq, hupdated⟩ | ⟨before, entry, rest, taken, t, -, -, htaken, havailable, heq, hupdated⟩
  · rw [heq] at hclaim
    cases hclaim
    refine ⟨freedJob, false, ?_, hoffer, rfl⟩
    rw [hupdated.store_eq]
    exact hfreed
  · rw [heq] at hclaim
    cases hclaim
    obtain ⟨old, hold, rfl⟩ := claimable_of_readyAt hexpiring htaken havailable
    rw [claimed_freed] at hupdated ⊢
    have hkey : jobKey codec (old.claimed now options ack) = jobKey codec old := jobKey_claimed old now options ack
    by_cases hsame : old = job
    · subst hsame
      refine ⟨old.claimed now options ack, true, ?_, ?_, ?_⟩
      · rw [hupdated.store_eq]
        exact get_replace_self _ _
      · apply offer_claimed hold
        · cases ack <;> rfl
        · cases ack <;> rfl
        · cases ack <;> rfl
        · exact claimed_status_ne old now options ack
        · cases ack
          · change QueueJobStatus.leased ≠ .dead
            decide
          · change QueueJobStatus.completed ≠ .dead
            decide
      · have hname : (old.claimed now options ack).name = old.name := by cases ack <;> rfl
        simp only [Option.toList_some, List.countP_cons, hname]
        rfl
    · refine ⟨freedJob, false, ?_, hoffer, ?_⟩
      · rw [hupdated.store_eq, Stored, get_replace_of_ne]
        · exact hfreed
        · rw [hkey, jobKey_of_name hoffer.same.1]
          exact fun heq => hsame (Stored.inj hold.1 hstored heq.symm)
      · have hname : (old.claimed now options ack).name = old.name := by cases ack <;> rfl
        have hne : old.name ≠ job.name := fun heq => hsame (Stored.inj hold.1 hstored (jobKey_of_name heq))
        simp only [Option.toList_some, List.countP_cons, hname, hne]
        rfl

theorem Agrees.offer_claimBatchAtomic (h : Agrees naming s) (hqueue : naming.queue queue) {limit : ℕ}
    {claimed : List QueueJob}
    (hclaim : Queues.claimBatchAtomic codec queue now s options limit ack = .ok (claimed, s'))
    (hstored : Stored codec s.store job) :
    ∃ new given, Stored codec s'.store new ∧ Offer now job given new ∧
      (claimed.countP fun other => other.name = job.name) = given.toNat := by
  obtain ⟨-, hnodup, -, -⟩ := h.claimBatchAtomic hqueue hclaim
  by_cases hmax : maxQueueBatchItems < limit
  · rw [Queues.claimBatchAtomic, if_pos hmax] at hclaim
    cases hclaim
  by_cases hpos : limit = 0
  · rw [Queues.claimBatchAtomic, if_neg hmax, if_pos hpos] at hclaim
    cases hclaim
    exact ⟨job, false, hstored, .stays job, rfl⟩
  obtain ⟨expiring, hexpires⟩ := exists_expires now h.indexed hqueue
  have hexpiring := hexpires.toExpiring
  obtain ⟨scanned, remaining, jobs, t, hselection, heq, hupdated⟩ := claimBatchAtomic_cases options ack h.indexed
    h.cursors hqueue (Nat.pos_of_ne_zero hpos) (not_lt.mp hmax) hexpires
  rw [heq] at hclaim
  cases hclaim
  have hsettled : ((settledJobs codec now options ack limit jobs).map (jobKey codec)).Nodup :=
    settledJobs_nodup hselection
  have hclaimable : ∀ {old}, old ∈ jobs → Claimable codec queue now s.store old :=
    fun hold => claimable_of_selection hexpiring hselection hold
  have hname : ∀ old : QueueJob, (old.claimedInBatch now options ack).name = old.name := by
    intro old
    cases ack <;> rfl
  by_cases htaken : job ∈ jobs.take limit
  · refine ⟨job.claimedInBatch now options ack, true, ?_, ?_, ?_⟩
    · rw [hupdated.store_eq]
      exact stored_foldl_replace hsettled (List.mem_append_left _ (List.mem_map_of_mem htaken))
    · apply offer_claimed (hclaimable (List.mem_of_mem_take htaken)) (hname job)
      · cases ack <;> rfl
      · cases ack <;> rfl
      · exact claimedInBatch_status_ne job
      · cases ack
        · change QueueJobStatus.leased ≠ .dead
          decide
        · change QueueJobStatus.completed ≠ .dead
          decide
    · rw [countP_name]
      apply List.count_eq_one_of_mem
      · refine List.Nodup.of_map (fun name => codec.makeQueueKey name.1 name.2) ?_
        rw [List.map_map]
        exact hnodup
      · rw [← hname job]
        exact List.mem_map_of_mem (List.mem_map_of_mem htaken)
  · have hnot : ∀ other ∈ (jobs.take limit).map (fun job => job.claimedInBatch now options ack),
      other.name ≠ job.name := by
      intro other hother hsame
      obtain ⟨old, hold, rfl⟩ := List.mem_map.mp hother
      rw [hname] at hsame
      have hold' := (hclaimable (List.mem_of_mem_take hold)).1
      rw [Stored.inj hold' hstored (jobKey_of_name hsame)] at hold
      exact htaken hold
    have hcount : (((jobs.take limit).map fun job => job.claimedInBatch now options ack).countP
        fun other => other.name = job.name) = 0 := by
      rw [List.countP_eq_zero]
      intro other hother
      simpa using hnot other hother
    by_cases hheld : job ∈ (jobs.drop limit).filter (holdsLease codec)
    · refine ⟨job.requeued, false, ?_, ?_, hcount⟩
      · rw [hupdated.store_eq]
        exact stored_foldl_replace hsettled (List.mem_append_right _ (List.mem_map_of_mem hheld))
      · apply Offer.expires
        obtain ⟨hdropped, hlease⟩ := List.mem_filter.mp hheld
        obtain ⟨-, -, ⟨hready, -⟩ | hexpired⟩ := hclaimable (List.mem_of_mem_drop hdropped)
        · rw [leased_of_holdsLease hlease] at hready
          cases hready
        · exact hexpired
    · refine ⟨job, false, ?_, .stays job, hcount⟩
      rw [hupdated.store_eq, stored_foldl_replace_iff hsettled, settledJobs_keys]
      refine Or.inr ⟨hstored, fun hmem => ?_⟩
      obtain ⟨old, hold, hkey⟩ := List.mem_map.mp hmem
      have hold' := (hclaimable ((settled_sublist codec limit jobs).subset hold)).1
      rw [Stored.inj hold' hstored hkey] at hold
      rcases List.mem_append.mp hold with hold | hold
      · exact htaken hold
      · exact hheld hold

end Offers

namespace QueueOp

def Claims (queue : Bytes) : QueueOp → Prop
  | .claim other _ _ => other = queue
  | .claimBatch other _ _ _ => other = queue
  | _ => False

def Nacks (name : Bytes × Bytes) : QueueOp → Prop
  | .nackJob queue id _ => (queue, id) = name
  | _ => False

def handed (op : QueueOp) (jobs : List QueueJob) : List QueueJob := if op.isClaim then jobs else []

end QueueOp

variable {op : QueueOp} {jobs : List QueueJob}

theorem offer_step (h : Agrees naming s) (hop : op.Repeats naming s) (happly : op.apply codec now s = .ok (jobs, s'))
    (hclaim : op.isClaim = true) (hstored : Stored codec s.store job) :
    ∃ new given, Stored codec s'.store new ∧ Offer now job given new ∧
      (jobs.countP fun other => other.name = job.name) = given.toNat := by
  cases op with
  | claim queue options ack =>
    obtain ⟨result, t, heq, -⟩ := h.claimJob now options ack hop
    simp only [QueueOp.apply, heq] at happly
    cases happly
    exact h.offer_claimJob hop heq hstored
  | claimBatch queue options limit ack => exact h.offer_claimBatchAtomic hop happly hstored
  | pushJob job nowIso => cases hclaim
  | pushJobsBatch pushed => cases hclaim
  | ackJob queue id => cases hclaim
  | nackJob queue id options => cases hclaim
  | reopen => cases hclaim

theorem nacked_status (job : QueueJob) (now : Millis) (options : QueueNackOptions) :
    (job.nacked now options).name = job.name ∧ (job.nacked now options).maxAttempts = job.maxAttempts ∧
      (job.nacked now options).attempts = job.attempts ∧
      (job.nacked now options).status = if job.Exhausted then .dead else .ready := by
  by_cases hexhausted : job.maxAttempts ≤ job.attempts
  · have hpos : job.Exhausted := hexhausted
    rw [if_pos hpos]
    simp [nacked, name, hexhausted]
  · have hneg : ¬ job.Exhausted := hexhausted
    rw [if_neg hneg]
    simp [nacked, name, hexhausted]

theorem Agrees.move_settleLease (h : Agrees naming s) (hqueue : naming.queue queue) (hid : naming.id id)
    {settle : QueueJob → QueueJob} (hsettle : Settling settle)
    (hmove : ∀ job : QueueJob, job.status = .leased → Move now job false (settle job))
    (hstored : Stored codec s.store job) :
    ∃ new, Stored codec (Queues.settleLease codec s queue id settle).2.store new ∧ Move now job false new ∧
      ((queue, id) = job.name → job.status = .leased → new = settle job) := by
  rcases settleLease_cases h.indexed hqueue hid hsettle with ⟨heq, hnone⟩ | ⟨old, t, heq, rfl, rfl, hsettled⟩
  · refine ⟨job, by rwa [heq], .offered (.stays job), fun hname hleased => absurd hleased ?_⟩
    exact hnone job hstored (congrArg Prod.fst hname).symm (congrArg Prod.snd hname).symm
  · rw [heq, hsettled.counted.store_eq]
    by_cases hsame : job = old
    · subst hsame
      exact ⟨settle job, get_replace_self _ _, hmove job hsettled.leased, fun _ _ => rfl⟩
    · refine ⟨job, stored_replace_of_ne hsettled.stored hsettled.key_eq hstored hsame, .offered (.stays job),
        fun heq _ => absurd ?_ hsame⟩
      exact Stored.inj hstored hsettled.stored (jobKey_of_name heq.symm)

theorem move_nacked (options : QueueNackOptions) (hleased : job.status = .leased) :
    Move now job false (job.nacked now options) :=
  have ⟨hname, hmax, hattempts, hstatus⟩ := nacked_status job now options
  .nacked hleased hname hmax hattempts hstatus

section

variable (h : Agrees naming s) (hop : op.Repeats naming s) (happly : op.apply codec now s = .ok (jobs, s'))
include h hop happly

theorem move_step (hstored : Stored codec s.store job) :
    ∃ new given, Stored codec s'.store new ∧ Move now job given new ∧
      ((op.handed jobs).countP fun other => other.name = job.name) = given.toNat := by
  cases op with
  | pushJob pushed nowIso =>
    cases happly
    exact ⟨job, false, (h.pushOne hop).2.2 job hstored, .offered (.stays job), rfl⟩
  | pushJobsBatch pushed =>
    cases happly
    rw [foldl_pushOne]
    exact ⟨job, false, (h.foldl_pushOne hop).2.1 job hstored, .offered (.stays job), rfl⟩
  | claim queue options ack =>
    obtain ⟨new, given, hnew, hoffer, hcount⟩ := offer_step h hop happly rfl hstored
    exact ⟨new, given, hnew, .offered hoffer, hcount⟩
  | claimBatch queue options limit ack =>
    obtain ⟨new, given, hnew, hoffer, hcount⟩ := offer_step h hop happly rfl hstored
    exact ⟨new, given, hnew, .offered hoffer, hcount⟩
  | ackJob queue id =>
    cases happly
    rw [ackJob_eq]
    obtain ⟨new, hnew, hmove, -⟩ := h.move_settleLease hop.1 hop.2 (settling_completedNow now)
      (fun job hleased => .acked hleased rfl rfl rfl rfl) hstored
    exact ⟨new, false, hnew, hmove, rfl⟩
  | nackJob queue id options =>
    cases happly
    obtain ⟨new, hnew, hmove, -⟩ := h.move_settleLease hop.1 hop.2 (settling_nacked now options)
      (fun job => move_nacked options) hstored
    exact ⟨new, false, hnew, hmove, rfl⟩
  | reopen =>
    cases happly
    refine ⟨job, false, ?_, .offered (.stays job), rfl⟩
    rw [(reopen_state codec s).1]
    exact hstored

theorem nacks_step (hnack : op.Nacks job.name) (hstored : Stored codec s.store job) (hleased : job.status = .leased)
    (hexhausted : job.Exhausted) : ∃ new, Stored codec s'.store new ∧ new.name = job.name ∧ new.status = .dead := by
  cases op with
  | nackJob queue id options =>
    cases happly
    obtain ⟨new, hnew, hmove, hsame⟩ := h.move_settleLease hop.1 hop.2 (settling_nacked now options)
      (fun job => move_nacked options) hstored
    refine ⟨new, hnew, hmove.same.1, ?_⟩
    rw [hsame hnack hleased, (nacked_status job now options).2.2.2, if_pos hexhausted]
  | pushJob pushed nowIso => cases hnack
  | pushJobsBatch pushed => cases hnack
  | claim queue options ack => cases hnack
  | claimBatch queue options limit ack => cases hnack
  | ackJob queue id => cases hnack
  | reopen => cases hnack

end

theorem mem_listDeadJobs (h : Agrees naming s) :
    job ∈ listDeadJobs codec s queue ↔
      (Stored codec s.store job ∧ job.status = .dead) ∧ codec.makeQueuePrefix queue <+: jobKey codec job := by
  rw [listDeadJobs, List.mem_filter, listJobs, List.mem_map, decide_eq_true_iff]
  constructor
  · rintro ⟨⟨⟨key, found⟩, hentry, rfl⟩, hdead⟩
    obtain ⟨hget, hprefix⟩ := SortedMap.mem_withPrefix.mp hentry
    obtain ⟨rfl, -⟩ := h.indexed.keyed key found hget
    exact ⟨⟨hget, hdead⟩, hprefix⟩
  · rintro ⟨⟨hstored, hdead⟩, hprefix⟩
    exact ⟨⟨(jobKey codec job, job), SortedMap.mem_withPrefix.mpr ⟨hstored, hprefix⟩, rfl⟩, hdead⟩

def persistentKeeper (naming : Naming codec) : JobKeeper where
  State := Queues
  Call := Millis × QueueOp × List QueueJob
  init := Queues.empty
  Step s call s' := call.2.1.Repeats naming s ∧ call.2.1.apply codec call.1 s = .ok (call.2.2, s')
  Held s job := Stored codec s.store job
  time call := call.1
  handed call := call.2.1.handed call.2.2
  claims call queue := call.2.1.Claims queue
  nacks call name := call.2.1.Nacks name
  listDeadJobs := listDeadJobs codec
  saturates := true
  Sound := Agrees naming
  sound_init := agrees_empty naming
  sound_step h hstep := agrees_step h hstep.1 hstep.2
  unique _ ha hb hname := Stored.inj ha hb (jobKey_of_name hname)
  moves h hstep hheld _ := move_step h hstep.1 hstep.2 hheld
  claims_keep := by
    rintro s ⟨now, op, jobs⟩ s' job h ⟨hop, happly⟩ hclaim hheld hleased
    have hisClaim : op.isClaim = true := by cases op <;> first | rfl | cases hclaim
    obtain ⟨new, given, hnew, hoffer, -⟩ := offer_step h hop happly hisClaim hheld
    exact ⟨new, hnew, hoffer.same.1, hoffer.not_dead hleased⟩
  nacks_bury h hstep hnack hheld hleased hexhausted := nacks_step h hstep.1 hstep.2 hnack hheld hleased hexhausted
  listed h hheld hdead := (mem_listDeadJobs h).mpr ⟨⟨hheld, hdead⟩, codec.makeQueuePrefix_isPrefix _ _⟩
  held_of_listed h hlisted := ((mem_listDeadJobs h).mp hlisted).1

/-- In both engines, in every run in which no call meets the expired lease of a job that has used up its attempts, the
job is handed out at most as often as it may be; once the last attempt is returned the job is dead, listed and never
handed out. A claim that meets such an expired lease does not bury the job. -/
theorem queue_attempts_bounded_iff (naming : Naming codec) :
    (∀ (before : List (Millis × QueueOp × List QueueJob)) (s : Queues) (job : QueueJob),
      (persistentKeeper naming).Run Queues.empty before s → Stored codec s.store job → 1 ≤ job.maxAttempts →
      job.maxAttempts ≤ u32Max → (persistentKeeper naming).Bounds s job) ∧
    ∀ (before : List (Millis × MemoryQueueOp × List QueueJob)) (s : MemoryQueues) (job : QueueJob),
      memoryKeeper.Run SortedMap.empty before s → s.Held job → 1 ≤ job.maxAttempts → job.maxAttempts ≤ u32Max →
      memoryKeeper.Bounds s job := by
  constructor
  · intro before s job hrun hheld hpos hmax
    exact JobKeeper.bounds (hrun.sound (persistentKeeper naming).sound_init) hheld hpos hmax
  · intro before s job hrun hheld hpos hmax
    exact JobKeeper.bounds (hrun.sound memoryKeeper.sound_init) hheld hpos hmax

theorem pushed_job_is_bounded :
    (persistentKeeper sampleNaming).Bounds (Queues.pushJob sampleCodec Queues.empty (sampleJob 65 9) []).2
      (sampleJob 65 9) ∧
      memoryKeeper.Bounds (MemoryQueues.pushJob SortedMap.empty (sampleJob 65 9)).2 (sampleJob 65 9) := by
  have hnul : (0 : Byte) ∉ ([113] : Bytes) := by decide
  have hpush : (QueueOp.pushJob (sampleJob 65 9) []).Repeats sampleNaming Queues.empty := by
    refine ⟨⟨hnul, ?_, trivial⟩, fun old hget => absurd hget (by simp [Queues.empty])⟩
    change (0 : Byte) ∉ ([49] : Bytes)
    decide
  obtain ⟨hpersistent, hmemory⟩ := queue_attempts_bounded_iff sampleNaming
  constructor
  · refine hpersistent [(Millis.zero, .pushJob (sampleJob 65 9) [], [sampleJob 65 9])] _ _ ?_ (by decide) (by decide)
      (by decide)
    exact .cons ⟨hpush, rfl⟩ (.nil _)
  · refine hmemory [(Millis.zero, .pushJob (sampleJob 65 9), [sampleJob 65 9])] _ _ ?_
      ⟨[sampleJob 65 9], rfl, by decide⟩
      (by decide) (by decide)
    exact .cons rfl (.nil _)

/-- A job that may be tried once is handed out twice if its worker crashes, in both engines. -/
theorem crashed_job_is_handed_out_again :
    (∃ s ∈ (QueueOp.runAll sampleCodec [(Millis.saturating 0, .pushJob { sampleJob 65 9 with maxAttempts := 1 } []),
      (Millis.saturating 10, .claim [113] ⟨5⟩ false)] Queues.empty).toOption,
      (listJobs sampleCodec s [113]).map (fun job => (job.attempts, job.expired (Millis.saturating 20))) = [(1, true)] ∧
      ((claimJobWithOptions sampleCodec [113] (Millis.saturating 20) s ⟨5⟩).toOption.map fun result =>
        (result.1.map (·.attempts), listDeadJobs sampleCodec result.2 [113])) = some (some 2, [])) ∧
    ∃ s ∈ ((MemoryQueueOp.claim [113] ⟨5⟩ (Millis.saturating 10)).apply (Millis.saturating 10)
        (MemoryQueues.pushJob SortedMap.empty { sampleJob 65 9 with maxAttempts := 1 }).2).toOption,
      s.1.map (·.attempts) = [1] ∧
      (s.2.claimJobWithOptions [113] ⟨5⟩ (Millis.saturating 20) (Millis.saturating 20)).1.map (·.attempts) = some 2 ∧
      (s.2.claimJobWithOptions [113] ⟨5⟩ (Millis.saturating 20) (Millis.saturating 20)).2.listDeadJobs [113] = [] := by
  decide +kernel

end Thingd.Engine
