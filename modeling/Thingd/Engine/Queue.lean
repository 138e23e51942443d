import Thingd.Data.PrefixScan
import Thingd.Engine.Codec

namespace Thingd.Engine

inductive QueueJobStatus
  | ready
  | leased
  | completed
  | dead
  deriving DecidableEq, Repr

structure QueueJob where
  queue : Bytes
  id : Bytes
  body : Bytes
  attempts : ℕ
  maxAttempts : ℕ
  status : QueueJobStatus
  availableAtMs : Millis
  leasedAtMs : Option Millis
  leaseExpiresAtMs : Option Millis
  completedAtMs : Option Millis
  deadAtMs : Option Millis
  createdAt : Bytes
  lastError : Bytes
  priority : Int32
  deriving DecidableEq

structure QueueClaimOptions where
  leaseMs : ℕ

structure QueueNackOptions where
  delayMs : ℕ
  error : Bytes

namespace QueueJob

def leaseDeadline (now : Millis) (options : QueueClaimOptions) : Millis :=
  Millis.saturating (now.val + min options.leaseMs (2 ^ 63 - 1))

def expired (job : QueueJob) (now : Millis) : Bool :=
  job.status = .leased && job.leaseExpiresAtMs.any (· ≤ now)

def requeued (job : QueueJob) : QueueJob :=
  { job with status := .ready, leasedAtMs := none, leaseExpiresAtMs := none }

section

variable (job : QueueJob) (now : Millis)

def leasedNow (options : QueueClaimOptions) : QueueJob :=
  { job with
    status := .leased
    attempts := min (job.attempts + 1) (2 ^ 32 - 1)
    leasedAtMs := some now
    leaseExpiresAtMs := some (leaseDeadline now options) }

def completedNow : QueueJob :=
  { job with status := .completed, completedAtMs := some now }

def claimed (options : QueueClaimOptions) (acknowledgeImmediately : Bool) : QueueJob :=
  let job := job.leasedNow now options
  if acknowledgeImmediately then job.completedNow now else job

def claimedInBatch (options : QueueClaimOptions) (acknowledgeImmediately : Bool) : QueueJob :=
  let job := job.leasedNow now options
  if acknowledgeImmediately then job.completedNow now else { job with completedAtMs := none }

def nacked (options : QueueNackOptions) : QueueJob :=
  let job := { job with lastError := options.error, leasedAtMs := none, leaseExpiresAtMs := none }
  if job.maxAttempts ≤ job.attempts then { job with status := .dead, deadAtMs := some now }
  else { job with status := .ready, availableAtMs := Millis.wrapping (now.val + options.delayMs) }

end

end QueueJob

structure QueueStore where
  queueJobs : SortedMap Bytes QueueJob
  readyJobs : SortedMap Bytes Bytes
  leaseJobs : SortedMap Bytes Bytes

inductive QueueWrite
  | insertJob (key : Bytes) (job : QueueJob)
  | insertReady (key value : Bytes)
  | removeReady (key : Bytes)
  | insertLease (key value : Bytes)
  | removeLease (key : Bytes)

namespace QueueStore

def write (store : QueueStore) : QueueWrite → QueueStore
  | .insertJob key job => { store with queueJobs := store.queueJobs.insert key job }
  | .insertReady key value => { store with readyJobs := store.readyJobs.insert key value }
  | .removeReady key => { store with readyJobs := store.readyJobs.erase key }
  | .insertLease key value => { store with leaseJobs := store.leaseJobs.insert key value }
  | .removeLease key => { store with leaseJobs := store.leaseJobs.erase key }

def commit (store : QueueStore) (batch : List QueueWrite) : QueueStore := batch.foldl write store

end QueueStore

structure Queues where
  store : QueueStore
  leaseCounts : SortedMap Bytes ℕ
  leaseExpirations : SortedMap Bytes (SortedMap Millis ℕ)
  readyCursors : SortedMap Bytes (Option (Bytes × Bytes))

namespace Queues

def empty : Queues :=
  ⟨⟨SortedMap.empty, SortedMap.empty, SortedMap.empty⟩, SortedMap.empty, SortedMap.empty, SortedMap.empty⟩

def commit (s : Queues) (batch : List QueueWrite) : Queues := { s with store := s.store.commit batch }

section

variable (s : Queues) (queue : Bytes)

def setCursor (cursor : Option (Bytes × Bytes)) : Queues :=
  { s with readyCursors := s.readyCursors.insert queue cursor }

def queueHasActiveLeases : Bool := (s.leaseCounts.get queue).any (0 < ·)

def queueHasExpiredLeases (now : Millis) : Bool :=
  match (s.leaseExpirations.get queue).bind fun expirations => expirations.entries.head? with
  | none => s.queueHasActiveLeases queue
  | some (expiresAtMs, _) => expiresAtMs ≤ now

def applyQueueLeaseDelta (removed added : ℕ) : Queues :=
  if removed = 0 ∧ added = 0 then s
  else
    let updated := (s.leaseCounts.get queue).getD 0 - removed + added
    if updated = 0 then { s with leaseCounts := s.leaseCounts.erase queue }
    else { s with leaseCounts := s.leaseCounts.insert queue updated }

end

def removeExpiration (expirations : SortedMap Millis ℕ) (expiresAtMs : Millis) : SortedMap Millis ℕ :=
  match expirations.get expiresAtMs with
  | none => expirations
  | some count =>
    if count - 1 = 0 then expirations.erase expiresAtMs else expirations.insert expiresAtMs (count - 1)

def addExpiration (expirations : SortedMap Millis ℕ) (expiresAtMs : Millis) : SortedMap Millis ℕ :=
  expirations.insert expiresAtMs ((expirations.get expiresAtMs).getD 0 + 1)

def applyQueueLeaseExpirationDelta (s : Queues) (queue : Bytes) (removed added : List Millis) : Queues :=
  if removed.isEmpty && added.isEmpty then s
  else
    let expirations := (s.leaseExpirations.get queue).getD SortedMap.empty
    let expirations := added.foldl addExpiration (removed.foldl removeExpiration expirations)
    if expirations.isEmpty then { s with leaseExpirations := s.leaseExpirations.erase queue }
    else { s with leaseExpirations := s.leaseExpirations.insert queue expirations }

def cacheQueueReadyMin (s : Queues) (queue key value : Bytes) : Queues :=
  match s.readyCursors.get queue with
  | none => s
  | some cursor => if cursor.all (fun current => key < current.1) then s.setCursor queue (some (key, value)) else s

variable (codec : StorageCodec)

def readyEntry (job : QueueJob) : Bytes × Bytes :=
  (codec.makeReadyKey job.queue job.priority job.createdAt job.id, codec.encodeQueueId job.id)

def firstQueueReadyEntry (s : Queues) (queue : Bytes) : Option (Bytes × Bytes) × Queues :=
  match s.readyCursors.get queue with
  | some cursor => (cursor, s)
  | none =>
    let entry := s.store.readyJobs.firstPrefixAfter (codec.makeReadyPrefix queue) none
    (entry, s.setCursor queue entry)

section Claim

variable (queue : Bytes) (now : Millis)

structure Expiry where
  batch : List QueueWrite
  removed : List Millis
  ready : List (Bytes × Bytes)

def expireEntries (store : QueueStore) : List (Bytes × Bytes) → Expiry → ThingdResult Expiry
  | [], expiry => .ok expiry
  | (leaseKey, leaseValue) :: entries, expiry => do
    let expiresAtMs ← codec.leaseExpiration queue leaseKey
    if now < expiresAtMs then .ok expiry
    else
      let jobId ← codec.decodeQueueId leaseValue
      let key := codec.makeQueueKey queue jobId
      let expiry := { expiry with
        batch := expiry.batch ++ [.removeLease leaseKey], removed := expiry.removed ++ [expiresAtMs] }
      match store.queueJobs.get key with
      | none => expireEntries store entries expiry
      | some job =>
        if job.expired now then
          let entry := readyEntry codec job
          expireEntries store entries { expiry with
            batch := expiry.batch ++ [.insertJob key job.requeued, .insertReady entry.1 entry.2]
            ready := expiry.ready ++ [entry] }
        else expireEntries store entries expiry

def expireLeases (s : Queues) : ThingdResult Queues := do
  let entries := if s.queueHasExpiredLeases queue now then s.store.leaseJobs.withPrefix
    (codec.makeLeasePrefix queue) else []
  let expiry ← expireEntries codec queue now s.store entries ⟨[], [], []⟩
  if expiry.batch.isEmpty then .ok s
  else
    let s := (s.commit expiry.batch).applyQueueLeaseDelta queue expiry.removed.length 0
    let s := s.applyQueueLeaseExpirationDelta queue expiry.removed []
    .ok (expiry.ready.foldl (fun s entry => s.cacheQueueReadyMin queue entry.1 entry.2) s)

def dropReadyEntry (s : Queues) (key : Bytes) : Queues :=
  (s.commit [.removeReady key]).setCursor queue
    (s.store.readyJobs.firstPrefixAfter (codec.makeReadyPrefix queue) (some key))

def claimReady (s : Queues) (options : QueueClaimOptions) (acknowledgeImmediately : Bool) (readyKey queueKey : Bytes)
    (job : QueueJob) (delayed : Option (Bytes × Bytes)) : QueueJob × Queues :=
  let job := job.claimed now options acknowledgeImmediately
  let expiresAtMs := job.leaseExpiresAtMs.getD Millis.zero
  let lease := if acknowledgeImmediately then []
    else [.insertLease (codec.makeLeaseKey queue expiresAtMs job.id) (codec.encodeQueueId job.id)]
  let nextCursor := s.store.readyJobs.firstPrefixAfter (codec.makeReadyPrefix queue) (some readyKey)
  let claimed := (s.commit ([.removeReady readyKey, .insertJob queueKey job] ++ lease)).setCursor queue
    (delayed.or nextCursor)
  if acknowledgeImmediately then (job, claimed)
  else (job, (claimed.applyQueueLeaseDelta queue 0 1).applyQueueLeaseExpirationDelta queue [] [expiresAtMs])

-- a removed entry is behind the cursor, so that the removals do not change what is still to be read
def claimEntries (options : QueueClaimOptions) (acknowledgeImmediately : Bool) :
    List (Bytes × Bytes) → Queues → Option (Bytes × Bytes) → ThingdResult (Option QueueJob × Queues)
  | [], s, delayed => .ok (none, s.setCursor queue delayed)
  | (readyKey, value) :: entries, s, delayed => do
    match ← codec.readyJobId readyKey value with
    | none => claimEntries options acknowledgeImmediately entries s delayed
    | some jobId =>
      let key := codec.makeQueueKey queue jobId
      match s.store.queueJobs.get key with
      | none =>
        claimEntries options acknowledgeImmediately entries (dropReadyEntry codec queue s readyKey) delayed
      | some job =>
        let job := if job.expired now then job.requeued else job
        if job.status ≠ .ready then
          claimEntries options acknowledgeImmediately entries (dropReadyEntry codec queue s readyKey) delayed
        else if now < job.availableAtMs then
          claimEntries options acknowledgeImmediately entries s (delayed.or (some (readyKey, value)))
        else
          let (job, s) := claimReady codec queue now s options acknowledgeImmediately readyKey key job delayed
          .ok (some job, s)

section

variable (s : Queues) (options : QueueClaimOptions)

def claimJob (acknowledgeImmediately : Bool) : ThingdResult (Option QueueJob × Queues) :=
  do
  let s ← expireLeases codec queue now s
  let (first, s) := firstQueueReadyEntry codec s queue
  let entries := match first with
    | none => []
    | some entry => entry :: SortedMap.after (s.store.readyJobs.withPrefix (codec.makeReadyPrefix queue)) (some entry.1)
  claimEntries codec queue now options acknowledgeImmediately entries s none

def claimJobWithOptions : ThingdResult (Option QueueJob × Queues) :=
  claimJob codec queue now s options false

end

end Claim

section Batch

variable (queue : Bytes) (now : Millis)

structure BatchCandidate where
  readyKey : Bytes
  queueKey : Bytes
  leaseKey : Option Bytes
  job : QueueJob

structure BatchClaim where
  batch : List QueueWrite
  leaseCountRemoved : ℕ
  leaseCountAdded : ℕ
  expirationsRemoved : List Millis
  expirationsAdded : List Millis
  completed : List QueueJob
  requeued : List (Bytes × Bytes)

def collectExpired (store : QueueStore) :
    List (Bytes × Bytes) → BatchClaim → List BatchCandidate → ThingdResult (BatchClaim × List BatchCandidate)
  | [], claim, expired => .ok (claim, expired)
  | (leaseKey, leaseValue) :: entries, claim, expired => do
    let expiresAtMs ← codec.leaseExpiration queue leaseKey
    if now < expiresAtMs then .ok (claim, expired)
    else
      let jobId ← codec.decodeQueueId leaseValue
      let key := codec.makeQueueKey queue jobId
      let stale := { claim with
        batch := claim.batch ++ [.removeLease leaseKey]
        leaseCountRemoved := claim.leaseCountRemoved + 1
        expirationsRemoved := claim.expirationsRemoved ++ [expiresAtMs] }
      match store.queueJobs.get key with
      | none => collectExpired store entries stale expired
      | some job =>
        if job.expired now then
          let readyKey := codec.makeReadyKey queue job.priority job.createdAt job.id
          collectExpired store entries claim (expired ++ [⟨readyKey, key, some leaseKey, job⟩])
        else collectExpired store entries stale expired

structure ReadyScan where
  candidates : List BatchCandidate
  delayed : Option (Bytes × Bytes)
  next : Option (Bytes × Bytes)
  stale : List QueueWrite
  afterKey : Option Bytes
  reachedEnd : Bool

def scanPage (store : QueueStore) (limit : ℕ) : List ((Bytes × Bytes) × Option Bytes) → ReadyScan → ReadyScan × Bool
  | [], scan => (scan, false)
  | ((readyKey, _), none) :: entries, scan => scanPage store limit entries { scan with afterKey := some readyKey }
  | ((readyKey, value), some jobId) :: entries, scan =>
    let scan := { scan with afterKey := some readyKey }
    let key := codec.makeQueueKey queue jobId
    match store.queueJobs.get key with
    | none => scanPage store limit entries { scan with stale := scan.stale ++ [.removeReady readyKey] }
    | some job =>
      if job.status ≠ .ready then
        scanPage store limit entries { scan with stale := scan.stale ++ [.removeReady readyKey] }
      else if now < job.availableAtMs then
        scanPage store limit entries { scan with delayed := scan.delayed.or (some (readyKey, value)) }
      else
        let scan := { scan with candidates := scan.candidates ++ [⟨readyKey, key, none, job⟩] }
        if limit ≤ scan.candidates.length then ({ scan with next := entries.head?.map Prod.fst }, true)
        else scanPage store limit entries scan

def readyPage (store : QueueStore) (limit : ℕ) (cached : Option (Bytes × Bytes)) (afterKey : Option Bytes) :
    List (Bytes × Bytes) :=
  match cached with
  | some entry => entry :: store.readyJobs.prefixPageAfter (codec.makeReadyPrefix queue) (some entry.1) limit
  | none => store.readyJobs.prefixPageAfter (codec.makeReadyPrefix queue) afterKey (limit + 1)

def scanPages (store : QueueStore) (limit : ℕ) : ℕ → Option (Bytes × Bytes) → ReadyScan → ThingdResult ReadyScan
  | 0, _, scan => .ok scan
  | fuel + 1, cached, scan =>
    let page := readyPage codec queue store limit cached scan.afterKey
    if page.isEmpty then .ok { scan with reachedEnd := true }
    else do
      let jobIds ← page.mapM fun entry => codec.readyJobId entry.1 entry.2
      match scanPage codec queue now store limit (page.zip jobIds) scan with
      | (scan, true) => .ok scan
      | (scan, false) => scanPages store limit fuel none scan

def scanReady (s : Queues) (limit : ℕ) : ThingdResult ReadyScan := do
  let cached := (s.readyCursors.get queue).join
  let scan ← scanPages codec queue now s.store limit (s.store.readyJobs.size + 2) cached
    ⟨[], none, none, [], none, false⟩
  if limit ≤ scan.candidates.length ∧ scan.next.isNone ∧ scan.reachedEnd = false then
    .ok { scan with next := s.store.readyJobs.firstPrefixAfter (codec.makeReadyPrefix queue) scan.afterKey }
  else .ok scan

def releaseLease (candidate : BatchCandidate) (claim : BatchClaim) : BatchClaim :=
  match candidate.leaseKey with
  | none => claim
  | some leaseKey =>
    { claim with
      batch := claim.batch ++ [.removeLease leaseKey]
      leaseCountRemoved := claim.leaseCountRemoved + 1
      expirationsRemoved := claim.expirationsRemoved ++ candidate.job.leaseExpiresAtMs.toList }

def takeCandidate (options : QueueClaimOptions) (acknowledgeImmediately : Bool) (candidate : BatchCandidate)
    (claim : BatchClaim) : BatchClaim :=
  let job := candidate.job.claimedInBatch now options acknowledgeImmediately
  let claim := { claim with
    batch := claim.batch ++ [.removeReady candidate.readyKey, .insertJob candidate.queueKey job]
    completed := claim.completed ++ [job] }
  if acknowledgeImmediately then claim
  else
    let expiresAtMs := job.leaseExpiresAtMs.getD Millis.zero
    { claim with
      batch := claim.batch ++
        [.insertLease (codec.makeLeaseKey queue expiresAtMs job.id) (codec.encodeQueueId job.id)]
      leaseCountAdded := claim.leaseCountAdded + 1
      expirationsAdded := claim.expirationsAdded ++ [expiresAtMs] }

def requeueCandidate (candidate : BatchCandidate) (claim : BatchClaim) : BatchClaim :=
  let value := codec.encodeQueueId candidate.job.id
  { claim with
    batch := claim.batch ++
      [.insertJob candidate.queueKey candidate.job.requeued, .insertReady candidate.readyKey value]
    requeued := claim.requeued ++ [(candidate.readyKey, value)] }

def settleCandidate (options : QueueClaimOptions) (limit : ℕ) (acknowledgeImmediately : Bool) (claim : BatchClaim)
    (candidate : BatchCandidate) : BatchClaim :=
  let claim := releaseLease candidate claim
  if claim.completed.length < limit then
    takeCandidate codec queue now options acknowledgeImmediately candidate claim
  else if candidate.leaseKey.isSome then requeueCandidate codec candidate claim
  else claim

def leastCursor (cursor : Option (Bytes × Bytes)) (entry : Bytes × Bytes) : Option (Bytes × Bytes) :=
  if cursor.all (fun current => entry.1 < current.1) then some entry else cursor

def maxQueueBatchItems : ℕ := 1000

section

variable (s : Queues) (options : QueueClaimOptions) (limit : ℕ)

def claimBatchAtomic (acknowledgeImmediately : Bool) : ThingdResult (List QueueJob × Queues) :=
  if maxQueueBatchItems < limit then .error (.invalidInput "queue batch exceeds the maximum of 1000 jobs")
  else if limit = 0 then .ok ([], s)
  else do
    let leases := if s.queueHasExpiredLeases queue now then s.store.leaseJobs.withPrefix
      (codec.makeLeasePrefix queue) else []
    let (claim, expired) ← collectExpired codec queue now s.store leases ⟨[], 0, 0, [], [], [], []⟩ []
    let scan ← scanReady codec queue now s limit
    let candidates := (scan.candidates ++ expired).insertionSort fun a b => a.readyKey ≤ b.readyKey
    let claim := candidates.foldl (settleCandidate codec queue now options limit acknowledgeImmediately)
      { claim with batch := claim.batch ++ scan.stale }
    let committed := if claim.batch.isEmpty then s
      else ((s.commit claim.batch).applyQueueLeaseDelta queue claim.leaseCountRemoved
        claim.leaseCountAdded).applyQueueLeaseExpirationDelta queue claim.expirationsRemoved claim.expirationsAdded
    .ok (claim.completed, committed.setCursor queue (claim.requeued.foldl leastCursor (scan.delayed.or scan.next)))

def claimJobsWithOptions : ThingdResult (List QueueJob × Queues) :=
  claimBatchAtomic codec queue now s options limit false

end

end Batch

def dated (job : QueueJob) (nowIso : Bytes) : QueueJob :=
  if job.createdAt.isEmpty then { job with createdAt := nowIso } else job

def pushWrites (job : QueueJob) : List QueueWrite :=
  .insertJob (codec.makeQueueKey job.queue job.id) job ::
    if job.status = .ready then [.insertReady (readyEntry codec job).1 (readyEntry codec job).2] else []

def cachePushed (s : Queues) (job : QueueJob) : Queues :=
  if job.status = .ready then s.cacheQueueReadyMin job.queue (readyEntry codec job).1 (readyEntry codec job).2 else s

def pushJob (s : Queues) (job : QueueJob) (nowIso : Bytes) : QueueJob × Queues :=
  let job := dated job nowIso
  (job, cachePushed codec (s.commit (pushWrites codec job)) job)

def pushJobsBatch (s : Queues) (jobs : List (QueueJob × Bytes)) : List QueueJob × Queues :=
  let jobs := jobs.map fun job => dated job.1 job.2
  (jobs, jobs.foldl (cachePushed codec) (s.commit (jobs.flatMap (pushWrites codec))))

def releaseWrites (queue id : Bytes) (leaseExpiresAtMs : Option Millis) : List QueueWrite :=
  match leaseExpiresAtMs with
  | some expiresAtMs => [.removeLease (codec.makeLeaseKey queue expiresAtMs id)]
  | none => []

section

variable (s : Queues) (queue : Bytes)

def releaseCounters (leaseExpiresAtMs : Option Millis) : Queues :=
  match leaseExpiresAtMs with
  | some expiresAtMs => (s.applyQueueLeaseDelta queue 1 0).applyQueueLeaseExpirationDelta queue [expiresAtMs] []
  | none => s

def ackJob (id : Bytes) (now : Millis) : Option QueueJob × Queues :=
  let key := codec.makeQueueKey queue id
  match s.store.queueJobs.get key with
  | none => (none, s)
  | some job =>
    if job.status ≠ .leased then (none, s)
    else
      let acked := job.completedNow now
      let committed := s.commit (.insertJob key acked :: releaseWrites codec queue id job.leaseExpiresAtMs)
      (some acked, committed.releaseCounters queue job.leaseExpiresAtMs)

def nackJobWithOptions (id : Bytes) (options : QueueNackOptions) (now : Millis) : Option QueueJob × Queues :=
  let key := codec.makeQueueKey queue id
  match s.store.queueJobs.get key with
  | none => (none, s)
  | some job =>
    if job.status ≠ .leased then (none, s)
    else
      let nacked := job.nacked now options
      let entry := readyEntry codec nacked
      let retry := if nacked.status = .ready then [.insertReady entry.1 entry.2] else []
      let committed := s.commit (.insertJob key nacked :: releaseWrites codec queue id job.leaseExpiresAtMs ++ retry)
      let released := committed.releaseCounters queue job.leaseExpiresAtMs
      (some nacked, if nacked.status = .ready then released.cacheQueueReadyMin queue entry.1 entry.2 else released)

def listJobs : List QueueJob :=
  (s.store.queueJobs.withPrefix (codec.makeQueuePrefix queue)).map Prod.snd

def listDeadJobs : List QueueJob :=
  (listJobs codec s queue).filter fun job => job.status = .dead

end

def leaseEntry (job : QueueJob) : Option (Bytes × Bytes) :=
  if job.status = .leased then
    job.leaseExpiresAtMs.map fun expiresAtMs =>
      (codec.makeLeaseKey job.queue expiresAtMs job.id, codec.encodeQueueId job.id)
  else none

def countLease (s : Queues) (job : QueueJob) : Queues :=
  if job.status = .leased then
    match job.leaseExpiresAtMs with
    | none => s
    | some expiresAtMs =>
      { s with
        leaseCounts := s.leaseCounts.insert job.queue ((s.leaseCounts.get job.queue).getD 0 + 1)
        leaseExpirations := s.leaseExpirations.insert job.queue
          (addExpiration ((s.leaseExpirations.get job.queue).getD SortedMap.empty) expiresAtMs) }
  else s

def rebuildLeaseIndex (s : Queues) : Queues :=
  let jobs := s.store.queueJobs.entries.map Prod.snd
  let leases := jobs.filterMap (leaseEntry codec)
  let batch := s.store.leaseJobs.entries.map (fun entry => QueueWrite.removeLease entry.1) ++
    leases.map fun entry => .insertLease entry.1 entry.2
  jobs.foldl countLease { s.commit batch with leaseCounts := SortedMap.empty, leaseExpirations := SortedMap.empty }

def reopen (s : Queues) : Queues := rebuildLeaseIndex codec { s with readyCursors := SortedMap.empty }

end Queues

end Thingd.Engine
