import Thingd.Engine.JobLife
import Thingd.Engine.Objects

namespace Thingd.Engine

open SortedMap List

section Update

variable {α γ : Type}

def updateUpTo (p : α → Bool) (f : α → α) : ℕ → List α → List α × List α
  | _, [] => ([], [])
  | 0, xs => ([], xs)
  | limit + 1, x :: xs =>
    if p x then
      let (updated, rest) := updateUpTo p f limit xs
      (f x :: updated, f x :: rest)
    else
      let (updated, rest) := updateUpTo p f (limit + 1) xs
      (updated, x :: rest)

variable {p : α → Bool} {f : α → α} {g : α → γ}

theorem map_updateUpTo (hg : ∀ x, g (f x) = g x) (limit : ℕ) (xs : List α) :
    (updateUpTo p f limit xs).2.map g = xs.map g := by
  induction xs generalizing limit with
  | nil => cases limit <;> rfl
  | cons x xs ih =>
    cases limit with
    | zero => rfl
    | succ limit =>
      rw [updateUpTo]
      by_cases hx : p x = true
      · rw [if_pos hx]
        simp only [map_cons, ih, hg]
      · rw [if_neg hx]
        simp only [map_cons, ih]

theorem updated_sublist (hg : ∀ x, g (f x) = g x) (limit : ℕ) (xs : List α) :
    ((updateUpTo p f limit xs).1.map g).Sublist (xs.map g) := by
  induction xs generalizing limit with
  | nil => cases limit <;> exact Sublist.refl _
  | cons x xs ih =>
    cases limit with
    | zero => exact nil_sublist _
    | succ limit =>
      rw [updateUpTo]
      by_cases hx : p x = true
      · rw [if_pos hx]
        simp only [map_cons, hg]
        exact (ih limit).cons_cons _
      · rw [if_neg hx]
        exact (ih (limit + 1)).cons _

variable {xs : List α} {x : α}

theorem mem_updateUpTo (hg : ∀ x, g (f x) = g x) (limit : ℕ) (hnodup : (xs.map g).Nodup) (hx : x ∈ xs) :
    (x ∈ (updateUpTo p f limit xs).2 ∧ g x ∉ (updateUpTo p f limit xs).1.map g) ∨
      (p x = true ∧ f x ∈ (updateUpTo p f limit xs).2 ∧ f x ∈ (updateUpTo p f limit xs).1) := by
  induction xs generalizing limit with
  | nil => cases hx
  | cons y ys ih =>
    rw [map_cons, nodup_cons] at hnodup
    obtain ⟨hnot, hnodup⟩ := hnodup
    cases limit with
    | zero => exact Or.inl ⟨hx, not_mem_nil⟩
    | succ limit =>
      rw [updateUpTo]
      by_cases hy : p y = true
      · rw [if_pos hy]
        rcases mem_cons.mp hx with rfl | hmem
        · exact Or.inr ⟨hy, mem_cons_self, mem_cons_self⟩
        · rcases ih limit hnodup hmem with ⟨hkept, hfree⟩ | ⟨hp, hrest, hupdated⟩
          · refine Or.inl ⟨mem_cons_of_mem _ hkept, ?_⟩
            rw [map_cons, mem_cons, not_or, hg]
            refine ⟨fun heq => hnot ?_, hfree⟩
            rw [← heq]
            exact mem_map_of_mem hmem
          · exact Or.inr ⟨hp, mem_cons_of_mem _ hrest, mem_cons_of_mem _ hupdated⟩
      · rw [if_neg hy]
        rcases mem_cons.mp hx with rfl | hmem
        · refine Or.inl ⟨mem_cons_self, fun hin => hnot ?_⟩
          exact (updated_sublist hg (limit + 1) ys).subset hin
        · rcases ih (limit + 1) hnodup hmem with ⟨hkept, hfree⟩ | ⟨hp, hrest, hupdated⟩
          · exact Or.inl ⟨mem_cons_of_mem _ hkept, hfree⟩
          · exact Or.inr ⟨hp, mem_cons_of_mem _ hrest, hupdated⟩

theorem mem_updateUpTo_of_only (hx : x ∈ xs) (hp : p x = true) (honly : ∀ y ∈ xs, p y = true → y = x) :
    f x ∈ (updateUpTo p f 1 xs).2 := by
  induction xs with
  | nil => cases hx
  | cons y ys ih =>
    rw [updateUpTo]
    by_cases hy : p y = true
    · rw [if_pos hy, honly y mem_cons_self hy]
      exact mem_cons_self
    · rw [if_neg hy]
      rcases mem_cons.mp hx with rfl | hmem
      · exact absurd hp hy
      · exact mem_cons_of_mem _ (ih hmem fun z hz => honly z (mem_cons_of_mem _ hz))

theorem mem_updateUpTo_of_not {limit : ℕ} (hx : x ∈ xs) (hp : p x = false) : x ∈ (updateUpTo p f limit xs).2 := by
  induction xs generalizing limit with
  | nil => cases hx
  | cons y ys ih =>
    cases limit with
    | zero => exact hx
    | succ limit =>
      rw [updateUpTo]
      by_cases hy : p y = true
      · rw [if_pos hy]
        rcases mem_cons.mp hx with rfl | hmem
        · rw [hp] at hy
          cases hy
        · exact mem_cons_of_mem _ (ih hmem)
      · rw [if_neg hy]
        rcases mem_cons.mp hx with rfl | hmem
        · exact mem_cons_self
        · exact mem_cons_of_mem _ (ih hmem)

end Update

namespace QueueJob

section

variable (job : QueueJob) (now : Millis)

def claimedInMemory (options : QueueClaimOptions) : QueueJob :=
  { job.leasedNow now options with attempts := (job.attempts + 1) % 2 ^ 32 }

def nackedInMemory (options : QueueNackOptions) : QueueJob :=
  let job := { job with
    leasedAtMs := none
    leaseExpiresAtMs := none
    lastError := if options.error.isEmpty then job.lastError else options.error }
  if job.maxAttempts ≤ job.attempts then { job with deadAtMs := some now, status := .dead }
  else
    { job with
      availableAtMs := Millis.saturating (now.val + min options.delayMs (2 ^ 63 - 1))
      status := .ready }

def released : QueueJob := if job.expired now then job.requeued else job

end

def available (now : Millis) (job : QueueJob) : Bool := job.status = .ready && job.availableAtMs ≤ now

end QueueJob

abbrev MemoryQueues := SortedMap Bytes (List QueueJob)

namespace MemoryQueues

def pushJob (s : MemoryQueues) (job : QueueJob) : QueueJob × MemoryQueues :=
  let jobs := (s.get job.queue).getD []
  match jobs.find? fun candidate => candidate.id = job.id with
  | some existing => (existing, s.insert job.queue jobs)
  | none => (job, s.insert job.queue (jobs ++ [job]))

def releaseExpiredLeases (s : MemoryQueues) (queue : Bytes) (now : Millis) : MemoryQueues :=
  match s.get queue with
  | none => s
  | some jobs => s.insert queue (jobs.map fun job => job.released now)

def sortByPriority (jobs : List QueueJob) : List QueueJob :=
  jobs.insertionSort fun a b => b.priority.toInt ≤ a.priority.toInt

section

variable (s : MemoryQueues) (queue : Bytes)

/-- Leases end at one reading of the clock, and jobs are taken at a later one. -/
def claimUpTo (take : QueueJob → QueueJob) (limit : ℕ) (now later : Millis) : List QueueJob × MemoryQueues :=
  let s := s.releaseExpiredLeases queue now
  match s.get queue with
  | none => ([], s)
  | some jobs =>
    let (claimed, jobs) := updateUpTo (QueueJob.available later) take limit (sortByPriority jobs)
    (claimed, s.insert queue jobs)

def claimJobWithOptions (options : QueueClaimOptions) (now later : Millis) : Option QueueJob × MemoryQueues :=
  let (claimed, s) := s.claimUpTo queue (fun job => job.claimedInMemory later options) 1 now later
  (claimed.head?, s)

def claimJobsWithOptions (options : QueueClaimOptions) (limit : ℕ) (now later : Millis) :
    ThingdResult (List QueueJob × MemoryQueues) :=
  if Queues.maxQueueBatchItems < limit then .error (.invalidInput "queue claim batch exceeds the maximum of 1000 jobs")
  else if limit = 0 then .ok ([], s)
  else .ok (s.claimUpTo queue (fun job => job.leasedNow later options) limit now later)

def findJob (id : Bytes) : Option QueueJob :=
  (s.get queue).bind fun jobs => jobs.find? fun job => job.id = id

def setJob (id : Bytes) (f : QueueJob → QueueJob) : MemoryQueues :=
  match s.get queue with
  | none => s
  | some jobs => s.insert queue (updateUpTo (fun job => job.id = id) f 1 jobs).2

def settleJob (id : Bytes) (verb : String) (f : QueueJob → QueueJob) : ThingdResult (Option QueueJob × MemoryQueues) :=
  match s.findJob queue id with
  | none => .ok (none, s)
  | some job =>
    if job.status ≠ .leased then .error (.conflict ("job " ++ textOf id ++ " must be leased before " ++ verb))
    else .ok (some (f job), s.setJob queue id f)

def ackJob (id : Bytes) (now : Millis) : ThingdResult (Option QueueJob × MemoryQueues) :=
  s.settleJob queue id "ack" fun job => job.completedNow now

def checkLeased (id : Bytes) : ThingdResult QueueJob :=
  match s.findJob queue id with
  | none => .error (.conflict ("job " ++ textOf id ++ " was not found in queue '" ++ textOf queue ++ "'"))
  | some job =>
    if job.status ≠ .leased then .error (.conflict ("job " ++ textOf id ++ " must be leased before batch ack"))
    else .ok job

def ackJobs (ids : List Bytes) (now : Millis) : ThingdResult (List QueueJob × MemoryQueues) :=
  if Queues.maxQueueBatchItems <
    ids.length then .error (.invalidInput "queue ack batch exceeds the maximum of 1000 jobs")
  else if ¬ ids.Nodup then .error (.invalidInput "queue ack batch contains duplicate job IDs")
  else if ids.isEmpty then .ok ([], s)
  else if (s.get queue).isNone then
    .error (.conflict ("queue '" ++ textOf queue ++ "' does not contain the leased jobs"))
  else do
    let jobs ← ids.mapM (s.checkLeased queue)
    .ok (jobs.map fun job => job.completedNow now,
      ids.foldl (fun s id => s.setJob queue id fun job => job.completedNow now) s)

def nackJobWithOptions (id : Bytes) (options : QueueNackOptions) (now : Millis) :
    ThingdResult (Option QueueJob × MemoryQueues) :=
  s.settleJob queue id "nack" fun job => job.nackedInMemory now options

def listDeadJobs : List QueueJob :=
  ((s.get queue).getD []).filter fun job => job.status = .dead

end

def Sound (s : MemoryQueues) : Prop :=
  ∀ queue jobs, s.get queue = some jobs → (jobs.map QueueJob.name).Nodup ∧ ∀ job ∈ jobs, job.queue = queue

def Held (s : MemoryQueues) (job : QueueJob) : Prop := ∃ jobs, s.get job.queue = some jobs ∧ job ∈ jobs

variable {s : MemoryQueues} {queue id : Bytes} {job : QueueJob} {jobs : List QueueJob}

theorem Sound.insert (h : s.Sound) (hnodup : (jobs.map QueueJob.name).Nodup)
    (hqueue : ∀ job ∈ jobs, job.queue = queue) : MemoryQueues.Sound (s.insert queue jobs) := by
  intro other found hget
  rw [get_insert] at hget
  split_ifs at hget with hsame
  · cases hget
    rw [hsame]
    exact ⟨hnodup, hqueue⟩
  · exact h other found hget

theorem Sound.renew (h : s.Sound) {old : List QueueJob} (hget : s.get queue = some old)
    (hnames : (jobs.map QueueJob.name).Perm (old.map QueueJob.name)) : MemoryQueues.Sound (s.insert queue jobs) := by
  obtain ⟨hnodup, hqueue⟩ := h queue old hget
  apply h.insert (hnames.nodup_iff.mpr hnodup)
  intro job hjob
  obtain ⟨other, hother, hname⟩ := mem_map.mp (hnames.mem_iff.mp (mem_map_of_mem hjob))
  rw [← hqueue other hother]
  exact (congrArg Prod.fst hname).symm

theorem held_insert_self (hqueue : job.queue = queue) (hjob : job ∈ jobs) : Held (s.insert queue jobs) job := by
  refine ⟨jobs, ?_, hjob⟩
  rw [get_insert, if_pos hqueue]

theorem Held.insert_of_ne (hheld : s.Held job) (hne : job.queue ≠ queue) : Held (s.insert queue jobs) job := by
  obtain ⟨found, hget, hmem⟩ := hheld
  refine ⟨found, ?_, hmem⟩
  rw [get_insert, if_neg hne]
  exact hget

theorem Sound.unique (h : s.Sound) {a b : QueueJob} (ha : s.Held a) (hb : s.Held b) (hname : a.name = b.name) :
    a = b := by
  obtain ⟨jobs, hget, ha⟩ := ha
  obtain ⟨jobs', hget', hb⟩ := hb
  have hqueue : a.queue = b.queue := congrArg Prod.fst hname
  rw [hqueue, hget'] at hget
  cases hget
  exact inj_on_of_nodup_map (h _ _ hget').1 ha hb hname

theorem name_released (job : QueueJob) (now : Millis) : (job.released now).name = job.name := by
  unfold QueueJob.released
  split_ifs <;> rfl

section Claim

variable {take : QueueJob → QueueJob} {limit : ℕ} {now later : Millis}

theorem claimUpTo_none (hget : s.get queue = none) : s.claimUpTo queue take limit now later = ([], s) := by
  simp [claimUpTo, releaseExpiredLeases, hget]

theorem claimUpTo_some (hget : s.get queue = some jobs) :
    s.claimUpTo queue take limit now later =
      ((updateUpTo (QueueJob.available later) take limit (sortByPriority (jobs.map fun job => job.released now))).1,
        (s.insert queue (jobs.map fun job => job.released now)).insert queue
          (updateUpTo (QueueJob.available later) take limit
            (sortByPriority (jobs.map fun job => job.released now))).2) := by
  simp [claimUpTo, releaseExpiredLeases, hget]

theorem names_sorted (jobs : List QueueJob) (now : Millis) :
    ((sortByPriority (jobs.map fun job => job.released now)).map QueueJob.name).Perm (jobs.map QueueJob.name) := by
  have hperm : (sortByPriority (jobs.map fun job => job.released now)).Perm (jobs.map fun job => job.released now) :=
    perm_insertionSort _ _
  have hnames : (jobs.map fun job => job.released now).map QueueJob.name = jobs.map QueueJob.name := by
    rw [map_map]
    apply map_congr_left
    intro job _
    exact name_released job now
  rw [← hnames]
  exact hperm.map _

theorem Sound.claimUpTo (h : s.Sound) (hname : ∀ job, (take job).name = job.name) :
    Sound (s.claimUpTo queue take limit now later).2 := by
  cases hget : s.get queue with
  | none =>
    rw [claimUpTo_none hget]
    exact h
  | some jobs =>
    rw [claimUpTo_some hget]
    have hreleased : ((jobs.map fun job => job.released now).map QueueJob.name).Perm (jobs.map QueueJob.name) := by
      rw [map_map]
      exact Perm.of_eq (map_congr_left fun job _ => name_released job now)
    refine (h.renew hget hreleased).renew (by rw [get_insert, if_pos rfl]) ?_
    rw [map_updateUpTo hname]
    exact (names_sorted jobs now).trans hreleased.symm

theorem claimUpTo_cases (h : s.Sound) (hname : ∀ job, (take job).name = job.name) (hheld : s.Held job) :
    (∃ new, Held (s.claimUpTo queue take limit now later).2 new ∧ QueueJob.Offer now job false new ∧
        (s.claimUpTo queue take limit now later).1.countP (fun other => other.name = job.name) = 0) ∨
      (QueueJob.available later (job.released now) = true ∧
        Held (s.claimUpTo queue take limit now later).2 (take (job.released now)) ∧
        (s.claimUpTo queue take limit now later).1.countP (fun other => other.name = job.name) = 1) := by
  cases hget : s.get queue with
  | none =>
    rw [claimUpTo_none hget]
    exact Or.inl ⟨job, hheld, .stays job, rfl⟩
  | some jobs =>
    obtain ⟨hnodup, hqueue⟩ := h queue jobs hget
    have hsorted := names_sorted jobs now
    have hsub := updated_sublist (p := QueueJob.available later) hname limit
      (sortByPriority (jobs.map fun job => job.released now))
    rw [claimUpTo_some hget]
    by_cases hsame : job.queue = queue
    · obtain ⟨found, hfound, hmem⟩ := hheld
      rw [hsame, hget] at hfound
      cases hfound
      have hin : job.released now ∈ sortByPriority (jobs.map fun job => job.released now) :=
        (perm_insertionSort _ _).mem_iff.mpr (mem_map_of_mem hmem)
      have hreleased := name_released job now
      have hplace : ∀ new : QueueJob, new.name = job.name → new.queue = queue :=
        fun new heq => (congrArg Prod.fst heq).trans hsame
      rcases mem_updateUpTo (p := QueueJob.available later) hname limit (hsorted.nodup_iff.mpr hnodup) hin with
        ⟨hkept, hfree⟩ | ⟨havailable, hrest, hupdated⟩
      · refine Or.inl ⟨job.released now, held_insert_self (hplace _ hreleased) hkept, ?_, ?_⟩
        · unfold QueueJob.released
          split_ifs with hexpired
          · exact .expires hexpired
          · exact .stays job
        · rw [hreleased] at hfree
          rw [QueueJob.countP_name, count_eq_zero]
          exact hfree
      · refine Or.inr ⟨havailable, held_insert_self (hplace _ ((hname _).trans hreleased)) hrest, ?_⟩
        rw [QueueJob.countP_name]
        apply count_eq_one_of_mem (hsub.nodup (hsorted.nodup_iff.mpr hnodup))
        rw [← hreleased, ← hname]
        exact mem_map_of_mem hupdated
    · refine Or.inl ⟨job, (hheld.insert_of_ne hsame).insert_of_ne hsame, .stays job, ?_⟩
      rw [QueueJob.countP_name, count_eq_zero]
      intro hin
      obtain ⟨other, hother, heq⟩ := mem_map.mp (hsorted.mem_iff.mp (hsub.subset hin))
      rw [← hqueue other hother] at hsame
      exact hsame (congrArg Prod.fst heq).symm

end Claim

variable {ids : List Bytes}

section Set

variable {f : QueueJob → QueueJob}

theorem findJob_of_held (h : s.Sound) (hheld : s.Held job) : s.findJob job.queue job.id = some job := by
  obtain ⟨jobs, hget, hmem⟩ := hheld
  obtain ⟨hnodup, hqueue⟩ := h _ _ hget
  rw [findJob, hget, Option.bind_some]
  cases hfind : jobs.find? fun other => other.id = job.id with
  | none =>
    have hnot := List.find?_eq_none.mp hfind job hmem
    simp at hnot
  | some other =>
    have hid : other.id = job.id := by simpa using List.find?_some hfind
    have hother := mem_of_find?_eq_some hfind
    have hname : other.name = job.name := Prod.ext (hqueue other hother) hid
    rw [inj_on_of_nodup_map hnodup hother hmem hname]

theorem held_of_findJob (h : s.Sound) (hfind : s.findJob queue id = some job) :
    s.Held job ∧ job.name = (queue, id) := by
  obtain ⟨jobs, hget, hfound⟩ := Option.bind_eq_some_iff.mp hfind
  have hid : job.id = id := by simpa using List.find?_some hfound
  have hmem := mem_of_find?_eq_some hfound
  obtain ⟨-, hqueue⟩ := h queue jobs hget
  obtain rfl := hqueue job hmem
  exact ⟨⟨jobs, hget, hmem⟩, Prod.ext rfl hid⟩

theorem Sound.setJob (h : s.Sound) (hname : ∀ job, (f job).name = job.name) : Sound (s.setJob queue id f) := by
  unfold MemoryQueues.setJob
  cases hget : s.get queue with
  | none => exact h
  | some jobs =>
    refine h.renew hget ?_
    rw [map_updateUpTo hname]

theorem held_setJob_self (h : s.Sound) (hname : ∀ job, (f job).name = job.name) (hheld : s.Held job) :
    Held (s.setJob job.queue job.id f) (f job) := by
  obtain ⟨jobs, hget, hmem⟩ := hheld
  obtain ⟨hnodup, hqueue⟩ := h _ _ hget
  simp only [setJob, hget]
  apply held_insert_self (congrArg Prod.fst (hname job))
  apply mem_updateUpTo_of_only hmem (decide_eq_true rfl)
  intro other hother hid
  exact inj_on_of_nodup_map hnodup hother hmem (Prod.ext (hqueue other hother) (of_decide_eq_true hid))

theorem Held.setJob_of_ne (hheld : s.Held job) (hne : job.name ≠ (queue, id)) : Held (s.setJob queue id f) job := by
  unfold MemoryQueues.setJob
  cases hget : s.get queue with
  | none => exact hheld
  | some jobs =>
    by_cases hqueue : job.queue = queue
    · obtain ⟨found, hfound, hmem⟩ := hheld
      rw [hqueue, hget] at hfound
      cases hfound
      apply held_insert_self hqueue
      apply mem_updateUpTo_of_not hmem
      exact decide_eq_false fun hid => hne (Prod.ext hqueue hid)
    · exact hheld.insert_of_ne hqueue

theorem Sound.foldl_setJob (h : s.Sound) (hname : ∀ job, (f job).name = job.name) (ids : List Bytes) :
    Sound (ids.foldl (fun s id => s.setJob queue id f) s) :=
  List.foldlRecOn ids _ h fun _ h _ _ => h.setJob hname

theorem Held.foldl_setJob_of_not_mem (hheld : s.Held job) (hnot : ¬ (job.queue = queue ∧ job.id ∈ ids)) :
    Held (ids.foldl (fun s id => s.setJob queue id f) s) job := by
  induction ids generalizing s with
  | nil => exact hheld
  | cons id ids ih =>
    apply ih
    · apply hheld.setJob_of_ne
      intro hname
      exact hnot ⟨congrArg Prod.fst hname, mem_cons.mpr (Or.inl (congrArg Prod.snd hname))⟩
    · rintro ⟨hqueue, hid⟩
      exact hnot ⟨hqueue, mem_cons_of_mem _ hid⟩

theorem held_foldl_setJob (h : s.Sound) (hname : ∀ job, (f job).name = job.name) (hnodup : ids.Nodup)
    (hheld : s.Held job) (hid : job.id ∈ ids) : Held (ids.foldl (fun s id => s.setJob job.queue id f) s) (f job) := by
  induction ids generalizing s with
  | nil => cases hid
  | cons id ids ih =>
    obtain ⟨hnot, hnodup⟩ := nodup_cons.mp hnodup
    by_cases hsame : job.id = id
    · subst hsame
      apply (held_setJob_self h hname hheld).foldl_setJob_of_not_mem
      rintro ⟨-, hmem⟩
      rw [show (f job).id = job.id from congrArg Prod.snd (hname job)] at hmem
      exact hnot hmem
    · apply ih (h.setJob hname) hnodup
      · exact hheld.setJob_of_ne fun heq => hsame (congrArg Prod.snd heq)
      · exact (mem_cons.mp hid).resolve_left hsame

end Set

theorem leased_of_mapM_checkLeased {found : List QueueJob} (h : ids.mapM (s.checkLeased queue) = .ok found) :
    ∀ id ∈ ids, ∃ job, s.findJob queue id = some job ∧ job.status = .leased := by
  induction ids generalizing found with
  | nil => exact forall_mem_nil _
  | cons id ids ih =>
    rw [mapM_cons] at h
    cases hcheck : s.checkLeased queue id with
    | error error =>
      rw [hcheck] at h
      cases h
    | ok job =>
      rw [hcheck] at h
      cases hrest : ids.mapM (s.checkLeased queue) with
      | error error =>
        rw [hrest] at h
        cases h
      | ok rest =>
        refine forall_mem_cons.mpr ⟨?_, ih hrest⟩
        unfold checkLeased at hcheck
        cases hfind : s.findJob queue id with
        | none =>
          rw [hfind] at hcheck
          cases hcheck
        | some job' =>
          refine ⟨job', rfl, ?_⟩
          by_contra hleased
          simp only [hfind, ne_eq, hleased, not_false_iff] at hcheck
          cases hcheck

theorem pushJob_cases (s : MemoryQueues) (job : QueueJob) :
    (∃ existing, s.pushJob job = (existing, s)) ∨
      (∀ other, s.Held other → other.queue = job.queue → other.id ≠ job.id) ∧
        s.pushJob job = (job, s.insert job.queue ((s.get job.queue).getD [] ++ [job])) := by
  unfold pushJob
  cases hfind : ((s.get job.queue).getD []).find? fun candidate => candidate.id = job.id with
  | some existing =>
    refine Or.inl ⟨existing, ?_⟩
    cases hget : s.get job.queue with
    | none =>
      rw [hget] at hfind
      cases hfind
    | some jobs =>
      rw [hget] at hfind
      simp only [Option.getD_some] at hfind ⊢
      simp only [hfind, insert_eq_self hget]
  | none =>
    refine Or.inr ⟨?_, by simp only [hfind]⟩
    rintro other ⟨jobs, hget, hmem⟩ hqueue hid
    rw [hqueue] at hget
    rw [hget] at hfind
    exact absurd hid (by simpa using List.find?_eq_none.mp hfind other hmem)

theorem Sound.pushJob (h : s.Sound) (job : QueueJob) : Sound (s.pushJob job).2 := by
  rcases s.pushJob_cases job with ⟨existing, heq⟩ | ⟨hfresh, heq⟩
  · rw [heq]
    exact h
  · rw [heq]
    cases hget : s.get job.queue with
    | none =>
      apply h.insert
      · exact nodup_singleton _
      · simp
    | some jobs =>
      obtain ⟨hnodup, hqueue⟩ := h _ _ hget
      rw [Option.getD_some]
      apply h.insert
      · rw [map_append, nodup_append]
        refine ⟨hnodup, nodup_singleton _, ?_⟩
        rintro name hname name' hname' rfl
        obtain ⟨other, hother, rfl⟩ := mem_map.mp hname
        have hsame := mem_singleton.mp hname'
        have hheld : s.Held other := ⟨jobs, by rw [hqueue other hother]; exact hget, hother⟩
        exact hfresh other hheld (hqueue other hother) (congrArg Prod.snd hsame)
      · intro other hother
        rcases mem_append.mp hother with hother | hother
        · exact hqueue other hother
        · rw [mem_singleton.mp hother]

theorem Held.pushJob (hheld : s.Held job) (pushed : QueueJob) : Held (s.pushJob pushed).2 job := by
  rcases s.pushJob_cases pushed with ⟨existing, heq⟩ | ⟨-, heq⟩
  · rw [heq]
    exact hheld
  · rw [heq]
    by_cases hqueue : job.queue = pushed.queue
    · obtain ⟨jobs, hget, hmem⟩ := hheld
      apply held_insert_self hqueue
      rw [← hqueue, hget]
      exact mem_append_left _ hmem
    · exact hheld.insert_of_ne hqueue

end MemoryQueues

end Thingd.Engine
