import Thingd.Engine.Queue

namespace Thingd.Engine

namespace QueueJob

def u32Max : ℕ := 2 ^ 32 - 1

def Exhausted (job : QueueJob) : Prop := job.maxAttempts ≤ job.attempts

instance (job : QueueJob) : Decidable job.Exhausted := inferInstanceAs (Decidable (_ ≤ _))

def name (job : QueueJob) : Bytes × Bytes := (job.queue, job.id)

theorem countP_name (jobs : List QueueJob) (name : Bytes × Bytes) :
    (jobs.countP fun job => job.name = name) = (jobs.map QueueJob.name).count name := by
  rw [List.count, List.countP_map]
  apply List.countP_congr
  simp

inductive Offer (now : Millis) : QueueJob → Bool → QueueJob → Prop
  | stays (job : QueueJob) : Offer now job false job
  | expires {job : QueueJob} (hexpired : job.expired now = true) : Offer now job false job.requeued
  | handed {job new : QueueJob} (hopen : job.status = .ready ∨ job.expired now = true) (hname : new.name = job.name)
      (hmax : new.maxAttempts = job.maxAttempts) (hattempts : new.attempts = min (job.attempts + 1) u32Max)
      (hready : new.status ≠ .ready) (hdead : new.status ≠ .dead) : Offer now job true new

inductive Move (now : Millis) : QueueJob → Bool → QueueJob → Prop
  | offered {job new : QueueJob} {handed : Bool} (hoffer : Offer now job handed new) : Move now job handed new
  | acked {job new : QueueJob} (hleased : job.status = .leased) (hname : new.name = job.name)
      (hmax : new.maxAttempts = job.maxAttempts) (hattempts : new.attempts = job.attempts)
      (hcompleted : new.status = .completed) : Move now job false new
  | nacked {job new : QueueJob} (hleased : job.status = .leased) (hname : new.name = job.name)
      (hmax : new.maxAttempts = job.maxAttempts) (hattempts : new.attempts = job.attempts)
      (hstatus : new.status = if job.Exhausted then .dead else .ready) : Move now job false new

def remaining (job : QueueJob) : ℕ :=
  if job.Exhausted then if job.status = .ready then 1 else 0 else job.maxAttempts - job.attempts

theorem remaining_le {job : QueueJob} (h : 1 ≤ job.maxAttempts) : job.remaining ≤ job.maxAttempts := by
  unfold remaining
  split_ifs <;> omega

theorem remaining_eq_zero {job : QueueJob} (hexhausted : job.Exhausted) (hready : job.status ≠ .ready) :
    job.remaining = 0 := by
  rw [remaining, if_pos hexhausted, if_neg hready]

theorem leased_of_expired {job : QueueJob} {now : Millis} (h : job.expired now = true) : job.status = .leased := by
  rw [expired, Bool.and_eq_true] at h
  exact of_decide_eq_true h.1

section Moves

variable {now : Millis} {job new : QueueJob} {handed : Bool}

theorem Offer.same (h : Offer now job handed new) : new.name = job.name ∧ new.maxAttempts = job.maxAttempts := by
  cases h with
  | stays => exact ⟨rfl, rfl⟩
  | expires => exact ⟨rfl, rfl⟩
  | handed _ hname hmax => exact ⟨hname, hmax⟩

theorem Move.same (h : Move now job handed new) : new.name = job.name ∧ new.maxAttempts = job.maxAttempts := by
  cases h with
  | offered hoffer => exact hoffer.same
  | acked _ hname hmax => exact ⟨hname, hmax⟩
  | nacked _ hname hmax => exact ⟨hname, hmax⟩

theorem Offer.remaining_le (h : Offer now job handed new) (hmax : job.maxAttempts ≤ u32Max)
    (htimely : job.Exhausted → job.expired now = false) : new.remaining + handed.toNat ≤ job.remaining := by
  cases h with
  | stays => exact le_rfl
  | expires hexpired =>
    have hnot : ¬ job.Exhausted := by
      intro hexhausted
      rw [htimely hexhausted] at hexpired
      cases hexpired
    have hnot' : ¬ job.requeued.Exhausted := hnot
    rw [remaining, remaining, if_neg hnot, if_neg hnot']
    exact le_rfl
  | handed hopen _ hsame hattempts hready =>
    by_cases hexhausted : job.Exhausted
    · have hstatus : job.status = .ready := by
        rcases hopen with hstatus | hexpired
        · exact hstatus
        · rw [htimely hexhausted] at hexpired
          cases hexpired
      have hexhausted' : new.Exhausted := by
        unfold Exhausted at hexhausted ⊢
        omega
      rw [remaining_eq_zero hexhausted' hready, remaining, if_pos hexhausted, if_pos hstatus]
      rfl
    · have hlt : job.attempts < job.maxAttempts := not_le.mp hexhausted
      have hone : (true).toNat = 1 := rfl
      rw [show job.remaining = job.maxAttempts - job.attempts from if_neg hexhausted]
      by_cases hlast : new.Exhausted
      · rw [remaining_eq_zero hlast hready]
        omega
      · rw [show new.remaining = new.maxAttempts - new.attempts from if_neg hlast]
        omega

theorem remaining_le_of_kept (hmax : new.maxAttempts = job.maxAttempts) (hattempts : new.attempts = job.attempts)
    (hready : job.Exhausted → new.status ≠ .ready) : new.remaining ≤ job.remaining := by
  have hiff : new.Exhausted ↔ job.Exhausted := by rw [Exhausted, Exhausted, hmax, hattempts]
  by_cases hexhausted : job.Exhausted
  · rw [remaining_eq_zero (hiff.mpr hexhausted) (hready hexhausted)]
    exact Nat.zero_le _
  · rw [remaining, remaining, if_neg hexhausted, if_neg (mt hiff.mp hexhausted), hmax, hattempts]

theorem Move.remaining_le (h : Move now job handed new) (hmax : job.maxAttempts ≤ u32Max)
    (htimely : job.Exhausted → job.expired now = false) : new.remaining + handed.toNat ≤ job.remaining := by
  cases h with
  | offered hoffer => exact hoffer.remaining_le hmax htimely
  | acked _ _ hsame hattempts hcompleted =>
    apply remaining_le_of_kept hsame hattempts
    intro _
    rw [hcompleted]
    decide
  | nacked _ _ hsame hattempts hstatus =>
    apply remaining_le_of_kept hsame hattempts
    intro hexhausted
    rw [hstatus, if_pos hexhausted]
    decide

theorem Offer.of_dead (h : Offer now job handed new) (hdead : job.status = .dead) : new = job ∧ handed = false := by
  have hexpired : job.expired now ≠ true := by
    intro hexpired
    rw [leased_of_expired hexpired] at hdead
    cases hdead
  cases h with
  | stays => exact ⟨rfl, rfl⟩
  | expires hexpired' => exact absurd hexpired' hexpired
  | handed hopen =>
    rcases hopen with hready | hexpired'
    · rw [hdead] at hready
      cases hready
    · exact absurd hexpired' hexpired

theorem Move.of_dead (h : Move now job handed new) (hdead : job.status = .dead) : new = job ∧ handed = false := by
  cases h with
  | offered hoffer => exact hoffer.of_dead hdead
  | acked hleased =>
    rw [hdead] at hleased
    cases hleased
  | nacked hleased =>
    rw [hdead] at hleased
    cases hleased

theorem Offer.not_dead (h : Offer now job handed new) (hleased : job.status = .leased) : new.status ≠ .dead := by
  cases h with
  | stays =>
    rw [hleased]
    decide
  | expires =>
    change QueueJobStatus.ready ≠ .dead
    decide
  | handed _ _ _ _ _ hdead => exact hdead

end Moves

end QueueJob

open QueueJob

/-- An engine as the life of its jobs sees it. A call comes with its time and what it returned. -/
structure JobKeeper where
  State : Type
  Call : Type
  init : State
  Step : State → Call → State → Prop
  Held : State → QueueJob → Prop
  time : Call → Millis
  handed : Call → List QueueJob
  claims : Call → Bytes → Prop
  nacks : Call → Bytes × Bytes → Prop
  listDeadJobs : State → Bytes → List QueueJob
  /-- Whether the counter of the attempts stops at its greatest value instead of starting again. -/
  saturates : Bool
  Sound : State → Prop
  sound_init : Sound init
  sound_step : ∀ {s call s'}, Sound s → Step s call s' → Sound s'
  unique : ∀ {s a b}, Sound s → Held s a → Held s b → a.name = b.name → a = b
  moves : ∀ {s call s' job}, Sound s → Step s call s' → Held s job →
    (job.status = .ready ∨ job.expired (time call) = true → saturates = true ∨ job.attempts < u32Max) →
    ∃ new given, Held s' new ∧ Move (time call) job given new ∧
      (handed call).countP (fun other => other.name = job.name) = given.toNat
  claims_keep : ∀ {s call s' job}, Sound s → Step s call s' → claims call job.queue → Held s job →
    job.status = .leased →
    ∃ new, Held s' new ∧ new.name = job.name ∧ new.status ≠ .dead
  nacks_bury : ∀ {s call s' job}, Sound s → Step s call s' → nacks call job.name → Held s job → job.status = .leased →
    job.Exhausted → ∃ new, Held s' new ∧ new.name = job.name ∧ new.status = .dead
  listed : ∀ {s job}, Sound s → Held s job → job.status = .dead → job ∈ listDeadJobs s job.queue
  held_of_listed : ∀ {s queue job}, Sound s → job ∈ listDeadJobs s queue → Held s job ∧ job.status = .dead

namespace JobKeeper

variable (keeper : JobKeeper)

inductive Run : keeper.State → List keeper.Call → keeper.State → Prop
  | nil (s : keeper.State) : Run s [] s
  | cons {s s' t : keeper.State} {call : keeper.Call} {calls : List keeper.Call} (hstep : keeper.Step s call s')
      (hrest : Run s' calls t) : Run s (call :: calls) t

def handedOut (name : Bytes × Bytes) (calls : List keeper.Call) : ℕ :=
  (calls.flatMap keeper.handed).countP fun job => job.name = name

def Timely (name : Bytes × Bytes) : keeper.State → List keeper.Call → Prop
  | _, [] => True
  | s, call :: calls =>
    (∀ job, keeper.Held s job → job.name = name →
      (job.Exhausted → job.expired (keeper.time call) = false) ∧
        (job.status = .ready → keeper.saturates = true ∨ job.attempts < u32Max)) ∧
      ∀ s', keeper.Step s call s' → Timely name s' calls

variable {keeper} {s t : keeper.State} {calls : List keeper.Call} {job : QueueJob}

theorem Run.sound (hrun : keeper.Run s calls t) (h : keeper.Sound s) : keeper.Sound t := by
  induction hrun with
  | nil => exact h
  | cons hstep _ ih => exact ih (keeper.sound_step h hstep)

theorem handedOut_cons (name : Bytes × Bytes) (call : keeper.Call) (calls : List keeper.Call) :
    keeper.handedOut name (call :: calls) =
      (keeper.handed call).countP (fun job => job.name = name) + keeper.handedOut name calls := by
  rw [handedOut, List.flatMap_cons, List.countP_append]
  rfl

theorem Run.handedOut_le (hrun : keeper.Run s calls t) (h : keeper.Sound s) (hheld : keeper.Held s job)
    (hmax : job.maxAttempts ≤ u32Max) (htimely : keeper.Timely job.name s calls) :
    keeper.handedOut job.name calls ≤ job.remaining := by
  induction hrun generalizing job with
  | nil => exact Nat.zero_le _
  | @cons s s' t call calls hstep _ ih =>
    obtain ⟨hnow, hlater⟩ := htimely
    obtain ⟨hexpiry, hfits⟩ := hnow job hheld rfl
    have hcounter : job.status = .ready ∨ job.expired (keeper.time call) = true →
        keeper.saturates = true ∨ job.attempts < u32Max := by
      rintro (hready | hexpired)
      · exact hfits hready
      · have hnot : ¬ job.Exhausted := by
          intro hexhausted
          rw [hexpiry hexhausted] at hexpired
          cases hexpired
        exact Or.inr ((not_le.mp hnot).trans_le hmax)
    obtain ⟨new, given, hnew, hmove, hcount⟩ := keeper.moves h hstep hheld hcounter
    obtain ⟨hname, hsame⟩ := hmove.same
    have hrest := ih (keeper.sound_step h hstep) hnew (hsame ▸ hmax) (hname ▸ hlater _ hstep)
    have hremaining := hmove.remaining_le hmax hexpiry
    rw [hname] at hrest
    rw [handedOut_cons]
    omega

theorem Run.stays_dead (hrun : keeper.Run s calls t) (h : keeper.Sound s) (hheld : keeper.Held s job)
    (hdead : job.status = .dead) : keeper.Held t job ∧ keeper.handedOut job.name calls = 0 := by
  induction hrun with
  | nil => exact ⟨hheld, rfl⟩
  | @cons s s' t call calls hstep _ ih =>
    have hclosed : ¬ (job.status = .ready ∨ job.expired (keeper.time call) = true) := by
      rintro (hready | hexpired)
      · rw [hdead] at hready
        cases hready
      · rw [leased_of_expired hexpired] at hdead
        cases hdead
    obtain ⟨new, given, hnew, hmove, hcount⟩ := keeper.moves h hstep hheld fun hopen => absurd hopen hclosed
    obtain ⟨rfl, rfl⟩ := hmove.of_dead hdead
    obtain ⟨hlast, hzero⟩ := ih (keeper.sound_step h hstep) hnew
    refine ⟨hlast, ?_⟩
    rw [handedOut_cons, hcount, hzero]
    rfl

variable (keeper s job) in
/-- The attempts of a job are bounded: it is handed out at most as often as it may be, and its last failure buries
it. -/
structure Bounds : Prop where
  bounded : ∀ later t, keeper.Run s later t → keeper.Timely job.name s later →
    keeper.handedOut job.name later ≤ job.maxAttempts
  buried : job.status = .leased → job.Exhausted → ∀ call s', keeper.Step s call s' → keeper.nacks call job.name →
    ∀ later t, keeper.Run s' later t →
      (∃ dead ∈ keeper.listDeadJobs t job.queue, dead.name = job.name) ∧ keeper.handedOut job.name later = 0
  expiry : job.status = .leased → job.Exhausted → ∀ call s', keeper.Step s call s' → keeper.claims call job.queue →
    ((job.expired (keeper.time call) = true → ∃ dead ∈ keeper.listDeadJobs s' job.queue, dead.name = job.name) ↔
      job.expired (keeper.time call) = false)

theorem bounds (h : keeper.Sound s) (hheld : keeper.Held s job) (hpos : 1 ≤ job.maxAttempts)
    (hmax : job.maxAttempts ≤ u32Max) :
    keeper.Bounds s job where
  bounded later t hrun htimely := (hrun.handedOut_le h hheld hmax htimely).trans (remaining_le hpos)
  buried := by
    intro hleased hexhausted call s' hstep hnack later t hrun
    obtain ⟨new, hnew, hname, hdead⟩ := keeper.nacks_bury h hstep hnack hheld hleased hexhausted
    have hsound := keeper.sound_step h hstep
    obtain ⟨hlast, hzero⟩ := hrun.stays_dead hsound hnew hdead
    rw [hname] at hzero
    have hqueue : new.queue = job.queue := congrArg Prod.fst hname
    refine ⟨⟨new, ?_, hname⟩, hzero⟩
    rw [← hqueue]
    exact keeper.listed (hrun.sound hsound) hlast hdead
  expiry := by
    intro hleased _ call s' hstep hclaim
    constructor
    · intro hburied
      rw [Bool.eq_false_iff]
      intro hexpired
      have hsound := keeper.sound_step h hstep
      obtain ⟨dead, hlisted, hname⟩ := hburied hexpired
      obtain ⟨hdeadHeld, hdead⟩ := keeper.held_of_listed hsound hlisted
      obtain ⟨new, hnew, hnewName, hnot⟩ := keeper.claims_keep h hstep hclaim hheld hleased
      rw [keeper.unique hsound hdeadHeld hnew (hname.trans hnewName.symm)] at hdead
      exact hnot hdead
    · intro hexpired hexpired'
      rw [hexpired] at hexpired'
      cases hexpired'

end JobKeeper

end Thingd.Engine
