import Thingd.Engine.MemoryQueue

namespace Thingd.Engine

inductive MemoryQueueOp
  | pushJob (job : QueueJob)
  | claim (queue : Bytes) (options : QueueClaimOptions) (later : Millis)
  | claimBatch (queue : Bytes) (options : QueueClaimOptions) (limit : ℕ) (later : Millis)
  | ackJob (queue id : Bytes)
  | ackJobs (queue : Bytes) (ids : List Bytes)
  | nackJob (queue id : Bytes) (options : QueueNackOptions)

namespace MemoryQueueOp

def apply (now : Millis) (s : MemoryQueues) : MemoryQueueOp → ThingdResult (List QueueJob × MemoryQueues)
  | .pushJob job => .ok ([(s.pushJob job).1], (s.pushJob job).2)
  | .claim queue options later =>
    .ok ((s.claimJobWithOptions queue options now later).1.toList, (s.claimJobWithOptions queue options now later).2)
  | .claimBatch queue options limit later => s.claimJobsWithOptions queue options limit now later
  | .ackJob queue id => (s.ackJob queue id now).map fun result => (result.1.toList, result.2)
  | .ackJobs queue ids => s.ackJobs queue ids now
  | .nackJob queue id options =>
    (s.nackJobWithOptions queue id options now).map fun result => (result.1.toList, result.2)

def Claims (queue : Bytes) : MemoryQueueOp → Prop
  | .claim other _ _ => other = queue
  | .claimBatch other _ _ _ => other = queue
  | _ => False

def Nacks (name : Bytes × Bytes) : MemoryQueueOp → Prop
  | .nackJob queue id _ => (queue, id) = name
  | _ => False

def handed (jobs : List QueueJob) : MemoryQueueOp → List QueueJob
  | .claim _ _ _ => jobs
  | .claimBatch _ _ _ _ => jobs
  | _ => []

end MemoryQueueOp

open QueueJob

namespace MemoryQueues

variable {s s' : MemoryQueues} {queue id : Bytes} {job : QueueJob} {jobs : List QueueJob} {now later : Millis}
  {op : MemoryQueueOp}

section Claim

variable {take : QueueJob → QueueJob} {limit : ℕ}

theorem available_released (h : available later (job.released now) = true) :
    job.status = .ready ∨ job.expired now = true := by
  unfold released at h
  split_ifs at h with hexpired
  · exact Or.inr hexpired
  · rw [available, Bool.and_eq_true] at h
    exact Or.inl (of_decide_eq_true h.1)

structure Takes (take : QueueJob → QueueJob) : Prop where
  name : ∀ job, (take job).name = job.name
  maxAttempts : ∀ job, (take job).maxAttempts = job.maxAttempts
  leased : ∀ job, (take job).status = .leased
  attempts : ∀ job, job.attempts < u32Max → (take job).attempts = job.attempts + 1

theorem takes_claimedInMemory (later : Millis) (options : QueueClaimOptions) :
    Takes fun job => job.claimedInMemory later options where
  name _ := rfl
  maxAttempts _ := rfl
  leased _ := rfl
  attempts job h := by
    have hlt : job.attempts + 1 < 2 ^ 32 := by
      unfold u32Max at h
      omega
    exact Nat.mod_eq_of_lt hlt

theorem takes_leasedNow (later : Millis) (options : QueueClaimOptions) :
    Takes fun job => job.leasedNow later options where
  name _ := rfl
  maxAttempts _ := rfl
  leased _ := rfl
  attempts _ h := min_eq_left h

theorem released_same (job : QueueJob) (now : Millis) :
    (job.released now).attempts = job.attempts ∧ (job.released now).maxAttempts = job.maxAttempts := by
  unfold released
  split_ifs <;> exact ⟨rfl, rfl⟩

theorem offer_claimUpTo (h : s.Sound) (htake : Takes take) (hheld : s.Held job)
    (hcounter : job.status = .ready ∨ job.expired now = true → job.attempts < u32Max) :
    ∃ new given, Held (s.claimUpTo queue take limit now later).2 new ∧ Offer now job given new ∧
      (s.claimUpTo queue take limit now later).1.countP (fun other => other.name = job.name) = given.toNat := by
  rcases claimUpTo_cases h htake.name hheld with ⟨new, hnew, hoffer, hcount⟩ | ⟨havailable, hnew, hcount⟩
  · exact ⟨new, false, hnew, hoffer, hcount⟩
  · refine ⟨take (job.released now), true, hnew, ?_, hcount⟩
    obtain ⟨hattempts, hmax⟩ := released_same job now
    have hopen := available_released havailable
    have hlt := hcounter hopen
    refine .handed hopen ((htake.name _).trans (name_released job now)) ((htake.maxAttempts _).trans hmax) ?_ ?_ ?_
    · rw [htake.attempts _ (by rw [hattempts]; exact hlt), hattempts]
      exact (min_eq_left hlt).symm
    · rw [htake.leased]
      decide
    · rw [htake.leased]
      decide

theorem claimUpTo_keeps (h : s.Sound) (htake : Takes take) (hheld : s.Held job) (hleased : job.status = .leased) :
    ∃ new, Held (s.claimUpTo queue take limit now later).2 new ∧ new.name = job.name ∧ new.status ≠ .dead := by
  rcases claimUpTo_cases h htake.name hheld with ⟨new, hnew, hoffer, -⟩ | ⟨-, hnew, -⟩
  · exact ⟨new, hnew, hoffer.same.1, hoffer.not_dead hleased⟩
  · refine ⟨_, hnew, (htake.name _).trans (name_released job now), ?_⟩
    rw [htake.leased]
    decide

theorem length_updateUpTo_le {α : Type} (p : α → Bool) (f : α → α) (limit : ℕ) (xs : List α) :
    (updateUpTo p f limit xs).1.length ≤ limit := by
  induction xs generalizing limit with
  | nil => cases limit <;> exact Nat.zero_le _
  | cons x xs ih =>
    cases limit with
    | zero => exact le_rfl
    | succ limit =>
      rw [updateUpTo]
      by_cases hx : p x = true
      · rw [if_pos hx]
        exact Nat.succ_le_succ (ih limit)
      · rw [if_neg hx]
        exact ih (limit + 1)

theorem claimJobWithOptions_eq (s : MemoryQueues) (queue : Bytes) (options : QueueClaimOptions) (now later : Millis) :
    ((s.claimJobWithOptions queue options now later).1.toList, (s.claimJobWithOptions queue options now later).2) =
      s.claimUpTo queue (fun job => job.claimedInMemory later options) 1 now later := by
  have hlength : (s.claimUpTo queue (fun job => job.claimedInMemory later options) 1 now later).1.length ≤ 1 := by
    cases hget : s.get queue with
    | none =>
      rw [claimUpTo_none hget]
      exact Nat.zero_le _
    | some jobs =>
      rw [claimUpTo_some hget]
      exact length_updateUpTo_le _ _ _ _
  unfold claimJobWithOptions
  apply Prod.ext
  · dsimp only
    generalize (s.claimUpTo queue (fun job => job.claimedInMemory later options) 1 now later).1 = claimed at hlength
    cases claimed with
    | nil => rfl
    | cons first rest =>
      cases rest with
      | nil => rfl
      | cons second rest =>
        simp at hlength
  · rfl

end Claim

theorem claims_cases (hclaim : op.Claims queue) (happly : op.apply now s = .ok (jobs, s')) :
    (jobs = [] ∧ s' = s ∧ op.handed jobs = jobs) ∨
      ∃ take limit later, Takes take ∧ (jobs, s') = s.claimUpTo queue take limit now later ∧ op.handed jobs = jobs := by
  cases op with
  | claim other options later =>
    obtain rfl : other = queue := hclaim
    refine Or.inr ⟨_, 1, later, takes_claimedInMemory later options, ?_, rfl⟩
    rw [← claimJobWithOptions_eq]
    exact (Except.ok.inj happly).symm
  | claimBatch other options limit later =>
    obtain rfl : other = queue := hclaim
    simp only [MemoryQueueOp.apply, claimJobsWithOptions] at happly
    split_ifs at happly with hmax hzero
    · cases happly
      exact Or.inl ⟨rfl, rfl, rfl⟩
    · exact Or.inr ⟨_, limit, later, takes_leasedNow later options, (Except.ok.inj happly).symm, rfl⟩
  | pushJob job => cases hclaim
  | ackJob queue id => cases hclaim
  | ackJobs queue ids => cases hclaim
  | nackJob queue id options => cases hclaim

theorem nackedInMemory_status (job : QueueJob) (now : Millis) (options : QueueNackOptions) :
    (job.nackedInMemory now options).name = job.name ∧ (job.nackedInMemory now options).maxAttempts = job.maxAttempts ∧
      (job.nackedInMemory now options).attempts = job.attempts ∧
      (job.nackedInMemory now options).status = if job.Exhausted then .dead else .ready := by
  by_cases hexhausted : job.maxAttempts ≤ job.attempts
  · have hpos : job.Exhausted := hexhausted
    rw [if_pos hpos]
    simp [nackedInMemory, name, hexhausted]
  · have hneg : ¬ job.Exhausted := hexhausted
    rw [if_neg hneg]
    simp [nackedInMemory, name, hexhausted]

theorem name_completedNow (now : Millis) (job : QueueJob) : (job.completedNow now).name = job.name := rfl

theorem move_completedNow (hleased : job.status = .leased) : Move now job false (job.completedNow now) :=
  .acked hleased rfl rfl rfl rfl

theorem name_nackedInMemory (now : Millis) (options : QueueNackOptions) (job : QueueJob) :
    (job.nackedInMemory now options).name = job.name := (nackedInMemory_status job now options).1

theorem move_nackedInMemory (options : QueueNackOptions) (hleased : job.status = .leased) :
    Move now job false (job.nackedInMemory now options) := by
  obtain ⟨hname, hmax, hattempts, hstatus⟩ := nackedInMemory_status job now options
  exact .nacked hleased hname hmax hattempts hstatus

variable {verb : String} {f : QueueJob → QueueJob} {result : Option QueueJob}

theorem settleJob_cases (h : s.Sound) (happly : s.settleJob queue id verb f = .ok (result, s')) :
    (s' = s ∧ ∀ job, s.Held job → job.name ≠ (queue, id)) ∨
      ∃ job, s.Held job ∧ job.name = (queue, id) ∧ job.status = .leased ∧ s' = s.setJob queue id f := by
  unfold settleJob at happly
  cases hfind : s.findJob queue id with
  | none =>
    rw [hfind] at happly
    cases happly
    refine Or.inl ⟨rfl, fun job hheld hname => ?_⟩
    have hfound := findJob_of_held h hheld
    rw [show job.queue = queue from congrArg Prod.fst hname, show job.id = id from congrArg Prod.snd hname,
      hfind] at hfound
    cases hfound
  | some job =>
    obtain ⟨hheld, hname⟩ := held_of_findJob h hfind
    simp only [hfind] at happly
    split_ifs at happly with hleased
    · cases happly
      exact Or.inr ⟨job, hheld, hname, not_not.mp hleased, rfl⟩

theorem map_toList_ok {result : ThingdResult (Option QueueJob × MemoryQueues)}
    (h : result.map (fun result => (result.1.toList, result.2)) = .ok (jobs, s')) :
    ∃ found, result = .ok (found, s') := by
  cases result with
  | error error => cases h
  | ok result =>
    cases h
    exact ⟨result.1, rfl⟩

section

variable (h : s.Sound)
include h

theorem move_settleJob (happly : s.settleJob queue id verb f = .ok (result, s'))
    (hname : ∀ job, (f job).name = job.name)
    (hmove : ∀ job : QueueJob, job.status = .leased → Move now job false (f job)) (hheld : s.Held job) :
    ∃ new, s'.Held new ∧ Move now job false new ∧
      (job.name = (queue, id) → job.status = .leased ∧ new = f job) := by
  rcases settleJob_cases h happly with ⟨rfl, hnot⟩ | ⟨found, hfound, hfoundName, hleased, rfl⟩
  · exact ⟨job, hheld, .offered (.stays job), fun heq => absurd heq (hnot job hheld)⟩
  · by_cases hsame : job.name = (queue, id)
    · obtain rfl := h.unique hheld hfound (hsame.trans hfoundName.symm)
      refine ⟨f job, ?_, hmove job hleased, fun _ => ⟨hleased, rfl⟩⟩
      rw [← show job.queue = queue from congrArg Prod.fst hsame, ← show job.id = id from congrArg Prod.snd hsame]
      exact held_setJob_self h hname hheld
    · exact ⟨job, hheld.setJob_of_ne hsame, .offered (.stays job), fun heq => absurd heq hsame⟩

theorem ackJobs_cases {ids : List Bytes} (happly : s.ackJobs queue ids now = .ok (jobs, s')) :
    s' = s ∨ ids.Nodup ∧ (∀ job, s.Held job → job.queue = queue → job.id ∈ ids → job.status = .leased) ∧
      s' = ids.foldl (fun s id => s.setJob queue id fun job => job.completedNow now) s := by
  unfold ackJobs at happly
  split_ifs at happly with hmax hnodup hempty hnone
  · cases happly
    exact Or.inl rfl
  · cases hcheck : ids.mapM (s.checkLeased queue) with
    | error error =>
      rw [hcheck] at happly
      cases happly
    | ok found =>
      rw [hcheck] at happly
      cases happly
      refine Or.inr ⟨hnodup, ?_, rfl⟩
      intro job hheld hqueue hid
      obtain ⟨other, hfind, hleased⟩ := leased_of_mapM_checkLeased hcheck job.id hid
      rw [← hqueue, findJob_of_held h hheld] at hfind
      cases hfind
      exact hleased

theorem Sound.step (happly : op.apply now s = .ok (jobs, s')) : Sound s' := by
  cases op with
  | pushJob job =>
    cases happly
    exact h.pushJob job
  | claim queue options later =>
    have heq := (claimJobWithOptions_eq s queue options now later).symm.trans (Except.ok.inj happly)
    rw [← show (s.claimUpTo queue _ 1 now later).2 = s' from congrArg Prod.snd heq]
    exact h.claimUpTo (takes_claimedInMemory later options).name
  | claimBatch queue options limit later =>
    have hclaim : MemoryQueueOp.Claims queue (.claimBatch queue options limit later) := rfl
    rcases claims_cases hclaim happly with ⟨-, rfl, -⟩ | ⟨take, limit, later, htake, heq, -⟩
    · exact h
    · rw [show s' = _ from congrArg Prod.snd heq]
      exact h.claimUpTo htake.name
  | ackJob queue id =>
    obtain ⟨found, hfound⟩ := map_toList_ok happly
    rcases settleJob_cases h hfound with ⟨rfl, -⟩ | ⟨-, -, -, -, rfl⟩
    · exact h
    · exact h.setJob fun _ => rfl
  | ackJobs queue ids =>
    rcases ackJobs_cases h happly with rfl | ⟨-, -, rfl⟩
    · exact h
    · exact h.foldl_setJob (name_completedNow now) ids
  | nackJob queue id options =>
    obtain ⟨found, hfound⟩ := map_toList_ok happly
    rcases settleJob_cases h hfound with ⟨rfl, -⟩ | ⟨-, -, -, -, rfl⟩
    · exact h
    · exact h.setJob (name_nackedInMemory now options)

theorem move_claim (hclaim : op.Claims queue) (happly : op.apply now s = .ok (jobs, s')) (hheld : s.Held job)
    (hcounter : job.status = .ready ∨ job.expired now = true → job.attempts < u32Max) :
    ∃ new given, s'.Held new ∧ Move now job given new ∧
      (op.handed jobs).countP (fun other => other.name = job.name) = given.toNat := by
  rcases claims_cases hclaim happly with ⟨rfl, rfl, hhanded⟩ | ⟨take, limit, later, htake, heq, hhanded⟩
  · rw [hhanded]
    exact ⟨job, false, hheld, .offered (.stays job), rfl⟩
  · obtain ⟨rfl, rfl⟩ := Prod.mk.inj heq
    obtain ⟨new, given, hnew, hoffer, hcount⟩ := offer_claimUpTo h htake hheld hcounter
    rw [hhanded]
    exact ⟨new, given, hnew, .offered hoffer, hcount⟩

theorem move_step (happly : op.apply now s = .ok (jobs, s')) (hheld : s.Held job)
    (hcounter : job.status = .ready ∨ job.expired now = true → job.attempts < u32Max) :
    ∃ new given, s'.Held new ∧ Move now job given new ∧
      (op.handed jobs).countP (fun other => other.name = job.name) = given.toNat := by
  cases op with
  | pushJob pushed =>
    cases happly
    exact ⟨job, false, hheld.pushJob pushed, .offered (.stays job), rfl⟩
  | claim queue options later =>
    have hclaim : MemoryQueueOp.Claims queue (.claim queue options later) := rfl
    exact move_claim h hclaim happly hheld hcounter
  | claimBatch queue options limit later =>
    have hclaim : MemoryQueueOp.Claims queue (.claimBatch queue options limit later) := rfl
    exact move_claim h hclaim happly hheld hcounter
  | ackJob queue id =>
    obtain ⟨found, hfound⟩ := map_toList_ok happly
    obtain ⟨new, hnew, hmove, -⟩ := move_settleJob h hfound (name_completedNow now) (fun _ => move_completedNow) hheld
    exact ⟨new, false, hnew, hmove, rfl⟩
  | ackJobs queue ids =>
    rcases ackJobs_cases h happly with rfl | ⟨hnodup, hleased, rfl⟩
    · exact ⟨job, false, hheld, .offered (.stays job), rfl⟩
    · by_cases hin : job.queue = queue ∧ job.id ∈ ids
      · obtain ⟨rfl, hid⟩ := hin
        exact ⟨job.completedNow now, false, held_foldl_setJob h (name_completedNow now) hnodup hheld hid,
          .acked (hleased job hheld rfl hid) rfl rfl rfl rfl, rfl⟩
      · exact ⟨job, false, hheld.foldl_setJob_of_not_mem hin, .offered (.stays job), rfl⟩
  | nackJob queue id options =>
    obtain ⟨found, hfound⟩ := map_toList_ok happly
    obtain ⟨new, hnew, hmove, -⟩ := move_settleJob h hfound (name_nackedInMemory now options)
      (fun _ => move_nackedInMemory options) hheld
    exact ⟨new, false, hnew, hmove, rfl⟩

theorem nacks_step (happly : op.apply now s = .ok (jobs, s')) (hnack : op.Nacks job.name) (hheld : s.Held job)
    (hexhausted : job.Exhausted) : ∃ new, s'.Held new ∧ new.name = job.name ∧ new.status = .dead := by
  cases op with
  | nackJob queue id options =>
    obtain ⟨found, hfound⟩ := map_toList_ok happly
    obtain ⟨new, hnew, -, hsettled⟩ := move_settleJob h hfound (name_nackedInMemory now options)
      (fun _ => @move_nackedInMemory _ now options) hheld
    obtain ⟨-, rfl⟩ := hsettled hnack.symm
    obtain ⟨hname, -, -, hstatus⟩ := nackedInMemory_status job now options
    refine ⟨_, hnew, hname, ?_⟩
    rw [hstatus, if_pos hexhausted]
  | pushJob pushed => cases hnack
  | claim queue options later => cases hnack
  | claimBatch queue options limit later => cases hnack
  | ackJob queue id => cases hnack
  | ackJobs queue ids => cases hnack

end

end MemoryQueues

open MemoryQueues in
def memoryKeeper : JobKeeper where
  State := MemoryQueues
  Call := Millis × MemoryQueueOp × List QueueJob
  init := SortedMap.empty
  Step s call s' := call.2.1.apply call.1 s = .ok (call.2.2, s')
  Held := Held
  time call := call.1
  handed call := call.2.1.handed call.2.2
  claims call queue := call.2.1.Claims queue
  nacks call name := call.2.1.Nacks name
  listDeadJobs := MemoryQueues.listDeadJobs
  saturates := false
  Sound := Sound
  sound_init queue jobs hget := by
    rw [SortedMap.get_empty] at hget
    cases hget
  sound_step h hstep := h.step hstep
  unique h ha hb hname := h.unique ha hb hname
  moves h hstep hheld hcounter := move_step h hstep hheld fun hopen => (hcounter hopen).resolve_left Bool.false_ne_true
  claims_keep := by
    rintro s ⟨now, op, jobs⟩ s' job h hstep hclaim hheld hleased
    rcases claims_cases hclaim hstep with ⟨-, rfl, -⟩ | ⟨take, limit, later, htake, heq, -⟩
    · refine ⟨job, hheld, rfl, ?_⟩
      rw [hleased]
      decide
    · obtain ⟨-, rfl⟩ := Prod.mk.inj heq
      exact claimUpTo_keeps h htake hheld hleased
  nacks_bury h hstep hnack hheld _ hexhausted := nacks_step h hstep hnack hheld hexhausted
  listed := by
    rintro s job - ⟨jobs, hget, hmem⟩ hdead
    rw [MemoryQueues.listDeadJobs, hget, Option.getD_some]
    exact List.mem_filter.mpr ⟨hmem, decide_eq_true hdead⟩
  held_of_listed := by
    intro s queue job h hlisted
    obtain ⟨hmem, hdead⟩ := List.mem_filter.mp hlisted
    cases hget : s.get queue with
    | none =>
      rw [hget] at hmem
      cases hmem
    | some jobs =>
      rw [hget, Option.getD_some] at hmem
      obtain rfl := (h queue jobs hget).2 job hmem
      exact ⟨⟨jobs, hget, hmem⟩, of_decide_eq_true hdead⟩

end Thingd.Engine
