import Thingd.Engine.QueueClaim

namespace Thingd.Engine.Queues

open QueueStore SortedMap List

variable {codec : StorageCodec} {naming : Naming codec} {s : Queues} {queue : Bytes} {now : Millis}

variable (codec) in
def candidateOf (job : QueueJob) : BatchCandidate :=
  ⟨(readyEntry codec job).1, jobKey codec job, (leaseEntry codec job).map Prod.fst, job⟩

variable {jobs : List QueueJob} {entries : List (Bytes × Bytes)}

theorem collectExpired_eq {rest : List (Bytes × Bytes)} (hjobs : ∀ job ∈ jobs, Due naming s.store queue now job)
    (hrest : Unexpired codec queue now rest)
    (hsplit : entries.map some = jobs.map (leaseEntry codec) ++ rest.map some) (claim : BatchClaim)
    (expired : List BatchCandidate) :
    collectExpired codec queue now s.store entries claim expired =
      .ok (claim, expired ++ jobs.map (candidateOf codec)) := by
  induction jobs generalizing entries expired with
  | nil =>
    have heq : entries = rest := map_injective_iff.mpr (Option.some_injective _) hsplit
    subst heq
    cases entries with
    | nil => simp [collectExpired]
    | cons entry entries =>
      obtain ⟨expiresAtMs, hexpiration, hlt⟩ := hrest entry rfl
      simp [collectExpired, hexpiration, hlt, bind, Except.bind]
  | cons job jobs ih =>
    obtain ⟨hjob, hjobs⟩ := forall_mem_cons.mp hjobs
    obtain ⟨entry, after, rfl, hsplit, hentry, hexpiration, hdecode⟩ := hjob.exists_entry hsplit
    obtain ⟨hstored, -, rfl, -, hexpired, hdue⟩ := hjob
    have hget : s.store.queueJobs.get (codec.makeQueueKey job.queue job.id) = some job := hstored
    simp only [collectExpired, hexpiration, hdecode, bind, Except.bind, not_lt.mpr hdue, hget, hexpired]
    rw [ih hjobs hsplit]
    simp [candidateOf, hentry, jobKey, readyEntry]

section Scan

variable (codec now) in
structure Scanned (scanned : List QueueJob) (scan : ReadyScan) : Prop where
  candidates : scan.candidates = (scanned.filter fun job => job.availableAtMs ≤ now).map (candidateOf codec)
  delayed : scan.delayed = ((scanned.filter fun job => now < job.availableAtMs).head?).map (readyEntry codec)
  stale : scan.stale = []
  afterKey : scan.afterKey = (scanned.getLast?).map fun job => (readyEntry codec job).1
  reachedEnd : scan.reachedEnd = false

variable (naming s queue) in
def ReadyJobs (jobs : List QueueJob) : Prop := ∀ job ∈ jobs, ReadyAt naming s.store queue (readyEntry codec job) job

theorem exists_readyJobs (h : Indexed naming s.store) (hqueue : naming.queue queue)
    (hentries : ∀ entry ∈ entries, entry ∈ readyEntries codec s.store queue) :
    ∃ jobs : List QueueJob, entries = jobs.map (readyEntry codec) ∧ ReadyJobs naming s queue jobs := by
  induction entries with
  | nil => exact ⟨[], rfl, by simp [ReadyJobs]⟩
  | cons entry entries ih =>
    obtain ⟨jobs, rfl, hjobs⟩ := ih fun other hother => hentries other (mem_cons_of_mem _ hother)
    obtain ⟨job, hjob⟩ := exists_readyAt h hqueue (hentries entry mem_cons_self)
    refine ⟨job :: jobs, by rw [map_cons, hjob.entry_eq], forall_mem_cons.mpr ⟨?_, hjobs⟩⟩
    rw [hjob.entry_eq]
    exact hjob

variable (codec) in
def pageOfJobs (jobs : List QueueJob) : List ((Bytes × Bytes) × Option Bytes) :=
  jobs.map fun job => (readyEntry codec job, some job.id)

variable {scanned : List QueueJob} {scan : ReadyScan}

theorem Scanned.step (h : Scanned codec now scanned scan) {job : QueueJob} {scan' : ReadyScan}
    (hafter : scan'.afterKey = some (readyEntry codec job).1) (hstale : scan'.stale = scan.stale)
    (hend : scan'.reachedEnd = scan.reachedEnd)
    (hcase : if job.availableAtMs ≤ now then scan'.candidates = scan.candidates ++ [candidateOf codec job] ∧
      scan'.delayed = scan.delayed else scan'.candidates = scan.candidates ∧ scan'.delayed =
      scan.delayed.or (some (readyEntry codec job))) :
    Scanned codec now (scanned ++ [job]) scan' := by
  split_ifs at hcase with havailable
  · obtain ⟨hcandidates, hdelayed⟩ := hcase
    refine ⟨?_, ?_, hstale.trans h.stale, ?_, hend.trans h.reachedEnd⟩
    · simp [hcandidates, h.candidates, havailable]
    · simp [hdelayed, h.delayed, not_lt.mpr havailable]
    · simp [hafter]
  · obtain ⟨hcandidates, hdelayed⟩ := hcase
    refine ⟨?_, ?_, hstale.trans h.stale, ?_, hend.trans h.reachedEnd⟩
    · simp [hcandidates, h.candidates, havailable]
    · rw [hdelayed, h.delayed]
      have hlt := not_le.mp havailable
      cases hfilter : scanned.filter fun job => now < job.availableAtMs with
      | nil => simp [hfilter, hlt]
      | cons first others => simp [hfilter]
    · simp [hafter]

variable (codec now) in
structure Filled (limit : ℕ) (scanned : List QueueJob) (scan : ReadyScan) : Prop extends
    Scanned codec now scanned scan where
  full : scan.candidates.length = limit

variable {limit : ℕ}

theorem scanPage_cases {page : List QueueJob} (hpage : ReadyJobs naming s queue page)
    (hscan : Scanned codec now scanned scan) (hroom : scan.candidates.length < limit) (hnext : scan.next = none) :
    (∃ before job after scan', page = before ++ job :: after ∧
      scanPage codec queue now s.store limit (pageOfJobs codec page) scan = (scan', true) ∧
      Filled codec now limit (scanned ++ (before ++ [job])) scan' ∧
      scan'.next = after.head?.map (readyEntry codec)) ∨
    ∃ scan', scanPage codec queue now s.store limit (pageOfJobs codec page) scan = (scan', false) ∧
      Scanned codec now (scanned ++ page) scan' ∧ scan'.candidates.length < limit ∧ scan'.next = none := by
  induction page generalizing scanned scan with
  | nil => exact Or.inr ⟨scan, rfl, by rwa [append_nil], hroom, hnext⟩
  | cons job page ih =>
    obtain ⟨hjob, hpage⟩ := forall_mem_cons.mp hpage
    have hget := hjob.get
    have hcandidate : candidateOf codec job =
      ⟨(readyEntry codec job).1, codec.makeQueueKey queue job.id, none, job⟩ := by
      simp [candidateOf, jobKey, hjob.queue_eq, leaseEntry, hjob.ready]
    -- where the scan stands when an available job is taken
    have htaken (havailable : job.availableAtMs ≤ now) : Scanned codec now (scanned ++ [job]) { scan with
        afterKey := some (readyEntry codec job).1, candidates := scan.candidates ++ [candidateOf codec job] } :=
      hscan.step rfl rfl rfl (by rw [if_pos havailable]; exact ⟨rfl, rfl⟩)
    by_cases hfull : job.availableAtMs ≤ now ∧ limit ≤ scan.candidates.length + 1
    · obtain ⟨havailable, hlimit⟩ := hfull
      refine Or.inl ⟨[], job, page, { scan with
        afterKey := some (readyEntry codec job).1
        candidates := scan.candidates ++ [candidateOf codec job]
        next := page.head?.map (readyEntry codec) }, rfl, ?_, ⟨{ htaken havailable with }, ?_⟩, rfl⟩
      · simp only [pageOfJobs, map_cons, scanPage, hget, hjob.ready, ne_eq, not_lt.mpr havailable, ← hcandidate,
          length_append, length_singleton, hlimit]
        cases page <;> rfl
      · rw [length_append, length_singleton]
        omega
    obtain ⟨next, hscanned, hroom, hnext, hstep⟩ : ∃ next, Scanned codec now (scanned ++ [job]) next ∧
        next.candidates.length < limit ∧ next.next = none ∧
        scanPage codec queue now s.store limit (pageOfJobs codec (job :: page)) scan =
          scanPage codec queue now s.store limit (pageOfJobs codec page) next := by
      by_cases havailable : job.availableAtMs ≤ now
      · have hlimit : ¬limit ≤ scan.candidates.length + 1 := fun hlimit => hfull ⟨havailable, hlimit⟩
        refine ⟨_, htaken havailable, ?_, hnext, ?_⟩
        · rw [length_append]
          exact not_le.mp hlimit
        · simp only [pageOfJobs, map_cons, scanPage, hget, hjob.ready, ne_eq, not_true, if_false,
            not_lt.mpr havailable, ← hcandidate, length_append, length_singleton, hlimit]
      · refine ⟨{ scan with
          afterKey := some (readyEntry codec job).1, delayed := scan.delayed.or (some (readyEntry codec job)) },
          hscan.step rfl rfl rfl (by rw [if_neg havailable]; exact ⟨rfl, rfl⟩), hroom, hnext, ?_⟩
        simp only [pageOfJobs, map_cons, scanPage, hget, hjob.ready, ne_eq, not_true, if_false,
          not_le.mp havailable, if_true]
    rw [hstep]
    rcases ih hpage hscanned hroom hnext with
      ⟨before, last, after, scan', rfl, heq, hfilled, hnext'⟩ | ⟨scan', heq, hscanned', hroom', hnext'⟩
    · refine Or.inl ⟨job :: before, last, after, scan', rfl, heq, ?_, hnext'⟩
      rwa [append_assoc, singleton_append] at hfilled
    · refine Or.inr ⟨scan', heq, ?_, hroom', hnext'⟩
      rwa [append_assoc] at hscanned'

theorem mapM_readyJobId (hjobs : ReadyJobs naming s queue jobs) :
    (jobs.map (readyEntry codec)).mapM (fun entry => codec.readyJobId entry.1 entry.2) =
      .ok (jobs.map fun job => some job.id) := by
  induction jobs with
  | nil => rfl
  | cons job jobs ih =>
    obtain ⟨hjob, hjobs⟩ := forall_mem_cons.mp hjobs
    rw [map_cons, mapM_cons, hjob.readyJobId, ih hjobs]
    rfl

theorem zip_pageOfJobs (jobs : List QueueJob) :
    (jobs.map (readyEntry codec)).zip (jobs.map fun job => some job.id) = pageOfJobs codec jobs := by
  rw [zip_map']
  rfl

variable {skipped : List (Bytes × Bytes)}

theorem after_scanned
    (hentries : readyEntries codec s.store queue = skipped ++ (scanned ++ jobs).map (readyEntry codec))
    (hscanned : scanned ≠ []) :
    SortedMap.after (readyEntries codec s.store queue) (scanned.getLast?.map fun job => (readyEntry codec job).1) =
      jobs.map (readyEntry codec) := by
  have hsorted := s.store.readyJobs.withPrefix_sorted (codec.makeReadyPrefix queue)
  rw [← readyEntries] at hsorted
  have hsplit : readyEntries codec s.store queue =
      (skipped ++ scanned.dropLast.map (readyEntry codec)) ++
        readyEntry codec (scanned.getLast hscanned) :: jobs.map (readyEntry codec) := by
    conv_lhs => rw [hentries, ← dropLast_append_getLast hscanned]
    simp
  rw [hsplit] at hsorted ⊢
  rw [List.getLast?_eq_some_getLast hscanned]
  exact after_of_append hsorted

variable (codec now) in
structure ScanOf (limit : ℕ) (scanned remaining : List QueueJob) (scan : ReadyScan) : Prop where
  candidates : scan.candidates = (scanned.filter fun job => job.availableAtMs ≤ now).map (candidateOf codec)
  delayed : scan.delayed = ((scanned.filter fun job => now < job.availableAtMs).head?).map (readyEntry codec)
  stale : scan.stale = []
  full : remaining = [] ∨ scan.candidates.length = limit
  le : scan.candidates.length ≤ limit

theorem scanPages_eq {fuel : ℕ}
    (hentries : readyEntries codec s.store queue = skipped ++ (scanned ++ jobs).map (readyEntry codec))
    (hjobs : ReadyJobs naming s queue jobs) (hscan : Scanned codec now scanned scan)
    (hroom : scan.candidates.length < limit) (hnext : scan.next = none) (hfuel : jobs.length < fuel)
    {cached : Option (Bytes × Bytes)}
    (hpage : readyPage codec queue s.store limit cached scan.afterKey =
      (jobs.take (limit + 1)).map (readyEntry codec)) :
    ∃ done remaining scan', jobs = done ++ remaining ∧
      scanPages codec queue now s.store limit fuel cached scan = .ok scan' ∧
      ScanOf codec now limit (scanned ++ done) remaining scan' ∧
      ((scan'.reachedEnd = true ∧ scan'.next = none ∧ remaining = []) ∨
        (scan'.reachedEnd = false ∧ scan'.candidates.length = limit ∧ done ≠ [] ∧
          scan'.afterKey = ((scanned ++ done).getLast?).map (fun job => (readyEntry codec job).1) ∧
          (scan'.next = none ∨ scan'.next = remaining.head?.map (readyEntry codec)))) := by
  induction fuel generalizing scanned jobs scan cached with
  | zero => omega
  | succ fuel ih =>
    cases jobs with
    | nil =>
      refine ⟨[], [], { scan with reachedEnd := true }, rfl, ?_, ?_, Or.inl ⟨rfl, hnext, rfl⟩⟩
      · unfold scanPages
        rw [hpage]
        rfl
      · rw [append_nil]
        exact ⟨hscan.candidates, hscan.delayed, hscan.stale, Or.inl rfl, hroom.le⟩
    | cons job jobs =>
      have hpageJobs : ReadyJobs naming s queue ((job :: jobs).take (limit + 1)) :=
        fun other hother => hjobs other (mem_of_mem_take hother)
      have hrest : ReadyJobs naming s queue ((job :: jobs).drop (limit + 1)) :=
        fun other hother => hjobs other (mem_of_mem_drop hother)
      have htake := take_append_drop (limit + 1) (job :: jobs)
      have hstep {next : ReadyScan} {ended : Bool} (heq : scanPage codec queue now s.store limit
          (pageOfJobs codec ((job :: jobs).take (limit + 1))) scan = (next, ended)) :
          scanPages codec queue now s.store limit (fuel + 1) cached scan =
            if ended then .ok next else scanPages codec queue now s.store limit fuel none next := by
        rw [scanPages]
        rw [hpage, mapM_readyJobId hpageJobs]
        simp only [bind, Except.bind, zip_pageOfJobs, heq]
        cases ended <;> rfl
      rcases scanPage_cases hpageJobs hscan hroom hnext with
        ⟨before, last, after, scan', hsplit, heq, hfilled, hnext'⟩ | ⟨scan', heq, hscanned, hroom', hnext'⟩
      · refine ⟨before ++ [last], after ++ (job :: jobs).drop (limit + 1), scan', ?_, hstep heq, ?_, Or.inr ?_⟩
        · rw [hsplit] at htake
          refine htake.symm.trans ?_
          simp
        · exact ⟨hfilled.candidates, hfilled.delayed, hfilled.stale, Or.inr hfilled.full, hfilled.full.le⟩
        · refine ⟨hfilled.reachedEnd, hfilled.full, by simp, hfilled.afterKey, ?_⟩
          cases after with
          | nil => exact Or.inl hnext'
          | cons other after => exact Or.inr hnext'
      · have hscannedNe : scanned ++ (job :: jobs).take (limit + 1) ≠ [] := by simp
        have hentries' : readyEntries codec s.store queue = skipped ++
            ((scanned ++ (job :: jobs).take (limit + 1)) ++ (job :: jobs).drop (limit + 1)).map (readyEntry codec) := by
          rw [append_assoc, htake, hentries]
        have hpage' : readyPage codec queue s.store limit none scan'.afterKey =
            (((job :: jobs).drop (limit + 1)).take (limit + 1)).map (readyEntry codec) := by
          rw [readyPage, prefixPageAfter, ← readyEntries, hscanned.afterKey, after_scanned hentries' hscannedNe,
            map_take]
        have hlength : ((job :: jobs).drop (limit + 1)).length < fuel := by
          rw [length_drop, length_cons]
          rw [length_cons] at hfuel
          omega
        obtain ⟨done, remaining, scan'', hdone, heq', hof, hend⟩ :=
          ih hentries' hrest hscanned hroom' hnext' hlength hpage'
        refine ⟨(job :: jobs).take (limit + 1) ++ done, remaining, scan'', ?_, ?_, ?_, ?_⟩
        · rw [append_assoc, ← hdone, htake]
        · rw [hstep heq]
          exact heq'
        · rwa [← append_assoc]
        · rw [← append_assoc]
          refine hend.imp_right fun hend => ⟨hend.1, hend.2.1, by simp, hend.2.2.2⟩

variable (codec s queue) in
def batchEntries : List (Bytes × Bytes) :=
  match (s.readyCursors.get queue).join with
  | some entry => entry :: SortedMap.after (readyEntries codec s.store queue) (some entry.1)
  | none => readyEntries codec s.store queue

theorem exists_skippedInBatch (hcursors : CursorsIn naming s) (hqueue : naming.queue queue) :
    ∃ skipped, readyEntries codec s.store queue = skipped ++ batchEntries codec s queue := by
  unfold batchEntries
  cases hcached : (s.readyCursors.get queue).join with
  | none => exact ⟨[], rfl⟩
  | some entry =>
    have hentry := hcursors queue hqueue entry (Option.join_eq_some_iff.mp hcached)
    obtain ⟨skipped, rest, hsplit⟩ := append_of_mem hentry
    have hsorted := s.store.readyJobs.withPrefix_sorted (codec.makeReadyPrefix queue)
    rw [← readyEntries, hsplit] at hsorted
    refine ⟨skipped, ?_⟩
    dsimp only
    rw [hsplit, after_of_append hsorted]

theorem batchEntries_eq
    (hcursors : ∀ cursor, s.readyCursors.get queue = some cursor →
      IsFirst (· ∈ readyEntries codec s.store queue) cursor) :
    batchEntries codec s queue = readyEntries codec s.store queue := by
  unfold batchEntries
  cases hcached : (s.readyCursors.get queue).join with
  | none => rfl
  | some entry =>
    have hsorted := s.store.readyJobs.withPrefix_sorted (codec.makeReadyPrefix queue)
    rw [← readyEntries] at hsorted
    have hhead := (hcursors _ (Option.join_eq_some_iff.mp hcached)).eq_head? hsorted
    obtain ⟨rest, hentries⟩ := List.head?_eq_some_iff.mp hhead.symm
    rw [hentries] at hsorted ⊢
    dsimp only
    rw [after_cons_self hsorted]

theorem readyPage_eq (limit : ℕ) : readyPage codec queue s.store limit (s.readyCursors.get queue).join none =
    (batchEntries codec s queue).take (limit + 1) := by
  unfold readyPage batchEntries
  cases (s.readyCursors.get queue).join with
  | none =>
    rw [prefixPageAfter, after_none, readyEntries]
  | some entry => rfl

variable (now) in
theorem scanReady_eq (h : Indexed naming s.store) (hcursors : CursorsIn naming s) (hqueue : naming.queue queue)
    (hlimit : 0 < limit) :
    ∃ scanned remaining scan, batchEntries codec s queue = (scanned ++ remaining).map (readyEntry codec) ∧
      ReadyJobs naming s queue (scanned ++ remaining) ∧ scanReady codec queue now s limit = .ok scan ∧
      ScanOf codec now limit scanned remaining scan ∧ scan.next = remaining.head?.map (readyEntry codec) := by
  obtain ⟨skipped, hskipped⟩ := exists_skippedInBatch hcursors hqueue
  have hmem : ∀ entry ∈ batchEntries codec s queue, entry ∈ readyEntries codec s.store queue := by
    intro entry hentry
    rw [hskipped]
    exact mem_append_right _ hentry
  obtain ⟨jobs, hjobs, hready⟩ := exists_readyJobs h hqueue hmem
  have hentries : readyEntries codec s.store queue = skipped ++ ([] ++ jobs).map (readyEntry codec) := by
    rw [hskipped, hjobs]
    rfl
  have hlength : jobs.length < s.store.readyJobs.size + 2 := by
    have hle : (readyEntries codec s.store queue).length ≤ s.store.readyJobs.size := length_filter_le _ _
    rw [hentries, length_append, length_map, nil_append] at hle
    omega
  have hscan : Scanned codec now [] ⟨[], none, none, [], none, false⟩ := ⟨rfl, rfl, rfl, rfl, rfl⟩
  have hpage : readyPage codec queue s.store limit (s.readyCursors.get queue).join none =
      (jobs.take (limit + 1)).map (readyEntry codec) := by
    rw [readyPage_eq, hjobs, map_take]
  obtain ⟨scanned, remaining, scan, hsplit, heq, hof, hend⟩ :=
    scanPages_eq hentries hready hscan hlimit rfl hlength hpage
  rw [nil_append] at hof
  rw [hsplit] at hjobs hready
  rw [hsplit, nil_append] at hentries
  have hunfold : scanReady codec queue now s limit =
      if limit ≤ scan.candidates.length ∧ scan.next.isNone ∧ scan.reachedEnd = false then
        .ok { scan with next := s.store.readyJobs.firstPrefixAfter (codec.makeReadyPrefix queue) scan.afterKey }
      else .ok scan := by
    unfold scanReady
    dsimp only
    rw [heq]
    rfl
  rw [hunfold]
  rcases hend with ⟨hreached, hnone, rfl⟩ | ⟨hreached, hfull, hne, hafter, hnext⟩
  · refine ⟨scanned, [], scan, hjobs, hready, ?_, hof, hnone⟩
    rw [if_neg (by simp [hreached])]
  · by_cases hnone : scan.next = none
    · rw [if_pos ⟨hfull.ge, by simp [hnone], hreached⟩]
      refine ⟨scanned, remaining, _, hjobs, hready, rfl, ⟨hof.candidates, hof.delayed, hof.stale, hof.full, hof.le⟩, ?_⟩
      rw [hafter, nil_append, firstPrefixAfter, ← readyEntries, after_scanned hentries hne, List.head?_map]
    · rw [if_neg (by simp [hnone])]
      exact ⟨scanned, remaining, scan, hjobs, hready, rfl, hof, hnext.resolve_left hnone⟩

end Scan

end Thingd.Engine.Queues
