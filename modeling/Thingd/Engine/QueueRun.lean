import Thingd.Engine.QueueFits

namespace Thingd.Engine

open QueueStore Queues Bytes StorageCodec

inductive QueueOp
  | pushJob (job : QueueJob) (nowIso : Bytes)
  | pushJobsBatch (jobs : List (QueueJob × Bytes))
  | claim (queue : Bytes) (options : QueueClaimOptions) (acknowledgeImmediately : Bool)
  | claimBatch (queue : Bytes) (options : QueueClaimOptions) (limit : ℕ) (acknowledgeImmediately : Bool)
  | ackJob (queue id : Bytes)
  | nackJob (queue id : Bytes) (options : QueueNackOptions)
  | reopen

namespace QueueOp

variable {codec : StorageCodec}

variable (codec) in
def apply (now : Millis) (s : Queues) : QueueOp → ThingdResult (List QueueJob × Queues)
  | .pushJob job nowIso => .ok ([(Queues.pushJob codec s job nowIso).1], (Queues.pushJob codec s job nowIso).2)
  | .pushJobsBatch jobs => .ok (Queues.pushJobsBatch codec s jobs)
  | .claim queue options ack => (claimJob codec queue now s options ack).map fun result => (result.1.toList, result.2)
  | .claimBatch queue options limit ack => claimBatchAtomic codec queue now s options limit ack
  | .ackJob queue id => .ok ((Queues.ackJob codec s queue id now).1.toList, (Queues.ackJob codec s queue id now).2)
  | .nackJob queue id options =>
    .ok ((nackJobWithOptions codec s queue id options now).1.toList,
      (nackJobWithOptions codec s queue id options now).2)
  | .reopen => .ok ([], Queues.reopen codec s)

/-- Pushed ids are new and not already leased, names are kept apart, and a batch claim leaves no job in front of what
it takes its cursor from. -/
def Fits (naming : Naming codec) (now : Millis) (s : Queues) : QueueOp → Prop
  | .pushJob job nowIso => Fresh codec naming s.store (dated job nowIso)
  | .pushJobsBatch jobs =>
    (∀ job ∈ jobs.map (fun job => dated job.1 job.2), Fresh codec naming s.store job) ∧
      ((jobs.map fun job => dated job.1 job.2).map (jobKey codec)).Nodup
  | .claim queue _ _ => naming.queue queue
  | .claimBatch queue _ limit _ => naming.queue queue ∧ BatchFits codec s.store queue now limit
  | .ackJob queue id => naming.queue queue ∧ naming.id id
  | .nackJob queue id _ => naming.queue queue ∧ naming.id id
  | .reopen => True

end QueueOp

variable {codec : StorageCodec} {naming : Naming codec} {s s' : Queues} {queue : Bytes} {now : Millis}

inductive QueueRun (naming : Naming codec) : Queues → Prop
  | empty : QueueRun naming Queues.empty
  | step {now : Millis} {s s' : Queues} {op : QueueOp} {jobs : List QueueJob} (hrun : QueueRun naming s)
      (hnow : 0 ≤ now.val) (hfits : op.Fits naming now s) (happly : op.apply codec now s = .ok (jobs, s')) :
      QueueRun naming s'

theorem exact_empty (naming : Naming codec) : Exact naming Queues.empty where
  indexed := by
    refine ⟨fun key job hget => ?_, fun key value hget => ?_, fun key job _ _ hget => ?_, fun key value hget => ?_⟩ <;>
      exact absurd hget (by simp [Queues.empty])
  leaseComplete key job _ _ hget := absurd hget (by simp [Queues.empty])
  leased job hstored := absurd hstored (by simp [Stored, Queues.empty])
  counted _ _ := le_rfl
  cursors queue _ cursor hget := absurd hget (by simp [Queues.empty])

theorem exact_step {op : QueueOp} {jobs : List QueueJob} (h : Exact naming s) (hnow : 0 ≤ now.val)
    (hfits : op.Fits naming now s) (happly : op.apply codec now s = .ok (jobs, s')) : Exact naming s' := by
  cases op with
  | pushJob job nowIso =>
    cases happly
    exact h.pushOne hfits
  | pushJobsBatch pushed =>
    cases happly
    rw [foldl_pushOne]
    exact h.foldl_pushOne hfits.1 hfits.2
  | claim queue options ack =>
    obtain ⟨result, t, heq, hexact, -⟩ := h.claimJob options ack hnow hfits
    simp only [QueueOp.apply, heq] at happly
    cases happly
    exact hexact
  | claimBatch queue options limit ack => exact h.claimBatchAtomic options ack hnow hfits.1 hfits.2 happly
  | ackJob queue id =>
    cases happly
    exact h.ackJob hfits.1 hfits.2
  | nackJob queue id options =>
    cases happly
    exact h.nackJobWithOptions hfits.1 hfits.2 options
  | reopen =>
    cases happly
    exact h.reopen

theorem QueueRun.exact (h : QueueRun naming s) : Exact naming s := by
  induction h with
  | empty => exact exact_empty naming
  | step _ hnow hfits happly ih => exact exact_step ih hnow hfits happly

section Order

theorem priorityRev_eq (priority : Int32) : (priorityRev priority : ℤ) = 2 ^ 31 - 1 - priority.toInt := by
  have hint : priority.toInt = priority.toBitVec.toInt := rfl
  have hrev : priorityRev priority = (Int32.maxValue.toBitVec - priority.toBitVec).toNat := rfl
  have hmax : Int32.maxValue.toBitVec.toNat = 2 ^ 31 - 1 := rfl
  rw [hint, hrev, BitVec.toNat_sub, BitVec.toInt_eq_toNat_cond]
  split_ifs <;> omega

/-- The order of a queue: the highest priority, then the earliest creation time, then the least id. -/
def QueueJob.Precedes (a b : QueueJob) : Prop :=
  b.priority.toInt < a.priority.toInt ∨ (a.priority = b.priority ∧
    (a.createdAt < b.createdAt ∨ (a.createdAt = b.createdAt ∧ a.id < b.id)))

theorem readyKey_lt_of_precedes (hcrypto : codec.crypto = none) {a b : QueueJob} (hqueue : a.queue = b.queue)
    (hstamp : (0 : Byte) ∉ b.createdAt) (h : a.Precedes b) : (readyEntry codec a).1 < (readyEntry codec b).1 := by
  have hrevs : ∀ priority : Int32, priorityRev priority < 256 ^ 4 := by
    intro priority
    exact (Int32.maxValue - priority).toUInt32.toNat_lt
  simp only [readyEntry, makeReadyKey, hcrypto, hqueue, append_left_lt_iff, cons_lt_cons_self]
  rcases h with hpriority | ⟨hpriority, hrest⟩
  · have ha := priorityRev_eq a.priority
    have hb := priorityRev_eq b.priority
    apply append_lt_append_of_lt (by simp)
    exact (bigEndian_lt_iff (hrevs _) (hrevs _)).mpr (by omega)
  · rw [hpriority, append_left_lt_iff, cons_lt_cons_self]
    rcases hrest with hlt | ⟨heq, hid⟩
    · exact append_nul_lt hstamp hlt a.id b.id
    · rw [heq, append_left_lt_iff, cons_lt_cons_self]
      exact hid

theorem precedes_of_readyKey_lt (hcrypto : codec.crypto = none) {a b : QueueJob} (hqueue : a.queue = b.queue)
    (hstamp : (0 : Byte) ∉ a.createdAt) (hlt : (readyEntry codec a).1 < (readyEntry codec b).1) : a.Precedes b := by
  have hnot : ¬ b.Precedes a := fun h => lt_asymm hlt (readyKey_lt_of_precedes hcrypto hqueue.symm hstamp h)
  rcases lt_trichotomy a.priority.toInt b.priority.toInt with hpriority | hpriority | hpriority
  · exact absurd (Or.inl hpriority) hnot
  · have hpriority := Int32.toInt_inj.mp hpriority
    refine Or.inr ⟨hpriority, ?_⟩
    rcases lt_trichotomy a.createdAt b.createdAt with hstamps | hstamps | hstamps
    · exact Or.inl hstamps
    · refine Or.inr ⟨hstamps, ?_⟩
      rcases lt_trichotomy a.id b.id with hid | hid | hid
      · exact hid
      · have hsame : (readyEntry codec a).1 = (readyEntry codec b).1 := by
          simp only [readyEntry, hqueue, hpriority, hstamps, hid]
        exact absurd hsame hlt.ne
      · exact absurd (Or.inr ⟨hpriority.symm, Or.inr ⟨hstamps.symm, hid⟩⟩) hnot
    · exact absurd (Or.inr ⟨hpriority.symm, Or.inl hstamps⟩) hnot
  · exact Or.inl hpriority

end Order

/-- In every run whose steps fit, a claim takes the first claimable job of its queue, and the cached cursor is the first
entry of the ready index. -/
theorem claim_takes_first_claimable (hrun : QueueRun naming s) (hnow : 0 ≤ now.val) (hqueue : naming.queue queue)
    (options : QueueClaimOptions) :
    (∃ result s', claimJobWithOptions codec queue now s options = .ok (result, s') ∧
      ((result = none ∧ ∀ job, ¬ Claimable codec queue now s.store job) ∨
        ∃ job, LeastClaimable codec queue now s.store job ∧ result = some (job.claimed now options false) ∧
          (codec.crypto = none → (0 : Byte) ∉ job.createdAt →
            ∀ other, Claimable codec queue now s.store other → other ≠ job → job.Precedes other))) ∧
      ∀ cursor, s.readyCursors.get queue = some cursor → IsFirst (· ∈ readyEntries codec s.store queue) cursor := by
  have hexact := hrun.exact
  refine ⟨?_, fun cursor hcursor => hexact.cursors queue hqueue cursor hcursor⟩
  obtain ⟨result, s', heq, -, hresult⟩ := hexact.claimJob options false hnow hqueue
  refine ⟨result, s', heq, hresult.imp_right ?_⟩
  rintro ⟨job, hleast, hclaimed⟩
  refine ⟨job, hleast, hclaimed, fun hcrypto hstamp other hother hne => ?_⟩
  obtain ⟨hstored, hjobQueue, -⟩ := hleast.claimable
  have hkeys : (readyEntry codec job).1 ≠ (readyEntry codec other).1 :=
    fun heq => hne (readyKey_inj hexact.indexed hother.1 hstored heq.symm)
  exact precedes_of_readyKey_lt hcrypto (hjobQueue.trans hother.2.1.symm) hstamp
    (lt_of_le_of_ne (hleast.least other hother) hkeys)

def sampleJob (id : Byte) (priority : Int32) : QueueJob :=
  ⟨[113], [id], [], 0, 3, .ready, Millis.zero, none, none, none, none, [49], [], priority⟩

def sampleCodec : StorageCodec := rawCodec fun _ => .error (.storage "invalid type")

def sampleNaming : Naming sampleCodec := rawNaming _

variable (codec) in
def QueueOp.runAll : List (Millis × QueueOp) → Queues → ThingdResult Queues
  | [], s => .ok s
  | (now, op) :: ops, s => do
    let (_, s) ← op.apply codec now s
    QueueOp.runAll ops s

variable (naming) in
def QueueOp.AllFit : List (Millis × QueueOp) → Queues → Prop
  | [], _ => True
  | (now, op) :: ops, s => 0 ≤ now.val ∧ op.Fits naming now s ∧
    ∀ result ∈ (op.apply codec now s).toOption, QueueOp.AllFit ops result.2

theorem QueueRun.runAll {ops : List (Millis × QueueOp)} (h : QueueRun naming s) (hfits : QueueOp.AllFit naming ops s)
    (heq : QueueOp.runAll codec ops s = .ok s') : QueueRun naming s' := by
  induction ops generalizing s with
  | nil =>
    cases heq
    exact h
  | cons timed ops ih =>
    obtain ⟨hnow, hfits, hrest⟩ := hfits
    obtain ⟨result, happly, heq⟩ := bind_eq_ok.mp heq
    exact ih (h.step hnow hfits happly) (hrest result (by rw [happly]; rfl)) heq

/-- At 15 the lease on the first job expires; the second job is ready. -/
def sampleOps : List (Millis × QueueOp) :=
  [(Millis.zero, .pushJob (sampleJob 65 9) []), (Millis.saturating 10, .claim [113] ⟨5⟩ false),
    (Millis.saturating 12, .pushJob (sampleJob 66 0) [])]

theorem run_sampleOps :
    ∃ s ∈ (QueueOp.runAll sampleCodec sampleOps Queues.empty).toOption, QueueRun sampleNaming s := by
  have hnul : (0 : Byte) ∉ ([113] : Bytes) := by decide
  have hnames (id : Byte) (priority : Int32) : sampleNaming.Names (dated (sampleJob id priority) []) :=
    ⟨hnul, show (0 : Byte) ∉ ([49] : Bytes) by decide, trivial⟩
  have hfits : QueueOp.AllFit sampleNaming sampleOps Queues.empty := by
    refine ⟨le_rfl, ⟨hnames 65 9, by decide, by decide⟩, ?_⟩
    rintro _ ⟨⟩
    refine ⟨by decide, hnul, fun result hresult => ⟨by decide, ⟨hnames 66 0, ?_, by decide⟩, fun _ _ => trivial⟩⟩
    revert result
    decide +kernel
  cases hrun : QueueOp.runAll sampleCodec sampleOps Queues.empty with
  | error e =>
    have hok : (QueueOp.runAll sampleCodec sampleOps Queues.empty).isOk = true := by decide +kernel
    rw [hrun] at hok
    cases hok
  | ok s => exact ⟨s, rfl, QueueRun.empty.runAll hfits hrun⟩

theorem claim_takes_expired_lease :
    ∃ s ∈ (QueueOp.runAll sampleCodec sampleOps Queues.empty).toOption, QueueRun sampleNaming s ∧
      ∃ result s', claimJobWithOptions sampleCodec [113] (Millis.saturating 20) s ⟨5⟩ = .ok (result, s') ∧
        result.map (·.id) = some [65] := by
  obtain ⟨s, hs, hrun⟩ := run_sampleOps
  have hnul : (0 : Byte) ∉ ([113] : Bytes) := by decide
  have hnow : 0 ≤ (Millis.saturating 20).val := by decide
  obtain ⟨⟨result, s', heq, -⟩, -⟩ := claim_takes_first_claimable hrun hnow hnul ⟨5⟩
  have htaken : ∀ s ∈ (QueueOp.runAll sampleCodec sampleOps Queues.empty).toOption,
      ((claimJobWithOptions sampleCodec [113] (Millis.saturating 20) s ⟨5⟩).toOption.bind Prod.fst).map (·.id) =
        some [65] := by decide +kernel
  have hid := htaken s hs
  rw [heq] at hid
  exact ⟨s, hs, hrun, result, s', heq, hid⟩

/-- A job with an expired lease takes the place of a ready one in a batch claim, and the ready one is forgotten. -/
theorem batch_claim_starves_ready_job :
    ∃ s ∈ (QueueOp.runAll sampleCodec [(Millis.saturating 0, .pushJob (sampleJob 65 9) []),
      (Millis.saturating 10, .claim [113] ⟨5⟩ false), (Millis.saturating 12, .pushJob (sampleJob 66 0) []),
      (Millis.saturating 20, .claimBatch [113] ⟨5⟩ 1 false)] Queues.empty).toOption,
      Claimable sampleCodec [113] (Millis.saturating 20) s.store (sampleJob 66 0) ∧
      (claimJobWithOptions sampleCodec [113] (Millis.saturating 20) s ⟨5⟩).toOption.map Prod.fst = some none ∧
      s.readyCursors.get [113] = some none ∧ readyEntries sampleCodec s.store [113] ≠ [] := by
  decide +kernel

end Thingd.Engine
