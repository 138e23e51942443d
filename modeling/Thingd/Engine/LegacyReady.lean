import Thingd.Engine.Queue

namespace Thingd.Engine

open StorageCodec Bytes Utf8 SortedMap List

namespace StorageCodec

section Decode

theorem afterNul_append {start : Bytes} (h : (0 : Byte) ∉ start) (rest : Bytes) :
    afterNul (start ++ 0 :: rest) = some rest := by
  induction start with
  | nil => rfl
  | cons byte start ih =>
    rw [mem_cons, not_or] at h
    rw [cons_append, afterNul, if_neg (Ne.symm h.1), ih h.2]

theorem afterNul_suffix (start rest : Bytes) : ∃ more, afterNul (start ++ 0 :: rest) = some (more ++ rest) := by
  induction start with
  | nil => exact ⟨[], rfl⟩
  | cons byte start ih =>
    rw [cons_append, afterNul]
    split_ifs
    · exact ⟨start ++ [0], by simp⟩
    · exact ih

theorem nul_not_mem_encode {text : List Char} (h : '\x00' ∉ text) : (0 : Byte) ∉ encode text := by
  intro hmem
  exact h ((mem_encode (c := '\x00') (by decide)).mp hmem)

variable {codec : StorageCodec} {queue createdAt id : List Char}

theorem lossy_readyKey (hraw : codec.crypto = none) (priority : Int32) :
    lossy (codec.makeReadyKey (encode queue) priority (encode createdAt) (encode id)) =
      encode queue ++ 0 ::
        (lossy (bigEndian 4 (priorityRev priority)) ++ 0 :: (encode createdAt ++ 0 :: encode id)) := by
  have hstop : (0 : Byte).val < 0x80 := by decide
  rw [makeReadyKey, hraw]
  rw [lossy_append hstop, lossy_append hstop, lossy_append hstop, lossy_encode, lossy_encode, lossy_encode]

theorem readyJobId_legacy_iff (hraw : codec.crypto = none) (hqueue : '\x00' ∉ queue) (hcreated : '\x00' ∉ createdAt)
    (hid : '\x00' ∉ id) (priority : Int32) :
    codec.readyJobId (codec.makeReadyKey (encode queue) priority (encode createdAt) (encode id)) [] =
      .ok (some (encode id)) ↔
      0 ∉ bigEndian 4 (priorityRev priority) := by
  have hstop : (0 : Byte).val < 0x80 := by decide
  rw [readyJobId, if_pos isEmpty_nil, lossy_readyKey hraw, afterNul_append (nul_not_mem_encode hqueue),
    Option.bind_some]
  constructor
  · intro h hzero
    obtain ⟨first, last, hsplit⟩ := append_of_mem hzero
    rw [hsplit, lossy_append hstop, append_assoc, cons_append] at h
    obtain ⟨more, hmore⟩ := afterNul_suffix (lossy first) (lossy last ++ 0 :: (encode createdAt ++ 0 :: encode id))
    obtain ⟨final, hfinal⟩ := afterNul_suffix (more ++ lossy last) (encode createdAt ++ 0 :: encode id)
    rw [hmore, Option.bind_some, ← append_assoc, hfinal] at h
    -- what is read still holds the NUL before the id
    have heq : final ++ (encode createdAt ++ 0 :: encode id) = encode id := Option.some.inj (Except.ok.inj h)
    apply nul_not_mem_encode hid
    rw [← heq]
    simp
  · intro hzero
    rw [afterNul_append (not_mem_lossy hstop hzero), Option.bind_some, afterNul_append (nul_not_mem_encode hcreated)]

end Decode

end StorageCodec

section Relabel

/-- Other values in the ready index that name the same jobs. -/
structure Relabels (codec : StorageCodec) (f : Bytes → Bytes → Bytes) : Prop where
  readyJobId : ∀ key value, codec.readyJobId key (f key value) = codec.readyJobId key value
  current : ∀ key id, f key (codec.encodeQueueId id) = codec.encodeQueueId id

def relabelEntry (f : Bytes → Bytes → Bytes) (entry : Bytes × Bytes) : Bytes × Bytes := (entry.1, f entry.1 entry.2)

namespace Queues

def relabel (f : Bytes → Bytes → Bytes) (s : Queues) : Queues :=
  { s with
    store := { s.store with readyJobs := s.store.readyJobs.mapWithKey f }
    readyCursors := s.readyCursors.mapValues (Option.map (relabelEntry f)) }

variable {codec : StorageCodec} {f : Bytes → Bytes → Bytes}

def Current (codec : StorageCodec) : QueueWrite → Prop
  | .insertReady _ value => ∃ id, value = codec.encodeQueueId id
  | _ => True

theorem relabel_commit (hf : Relabels codec f) {batch : List QueueWrite} (h : ∀ w ∈ batch, Current codec w)
    (s : Queues) : (s.relabel f).commit batch = (s.commit batch).relabel f := by
  induction batch generalizing s with
  | nil => rfl
  | cons w batch ih =>
    obtain ⟨hw, hbatch⟩ := forall_mem_cons.mp h
    have hstep : (s.relabel f).commit [w] = (s.commit [w]).relabel f := by
      cases w with
      | insertReady key value =>
        obtain ⟨id, rfl⟩ := hw
        simp only [relabel, Queues.commit, QueueStore.commit, foldl_cons, foldl_nil, QueueStore.write,
          insert_mapWithKey (hf.current key id)]
      | removeReady key =>
        simp only [relabel, Queues.commit, QueueStore.commit, foldl_cons, foldl_nil, QueueStore.write,
          erase_mapWithKey]
      | insertJob key job => rfl
      | insertLease key value => rfl
      | removeLease key => rfl
    have hcons : ∀ s : Queues, s.commit (w :: batch) = (s.commit [w]).commit batch := fun _ => rfl
    rw [hcons, hcons, hstep, ih hbatch]

theorem mapValues_insert {β γ : Type} (m : SortedMap Bytes β) (g : β → γ) (key : Bytes) (value : β) :
    (m.mapValues g).insert key (g value) = (m.insert key value).mapValues g := by
  apply ext
  intro k
  rw [get_insert, get_mapValues, get_mapValues, get_insert]
  split_ifs <;> rfl

section

variable (s : Queues) (queue : Bytes)

theorem relabel_setCursor (cursor : Option (Bytes × Bytes)) :
    (s.relabel f).setCursor queue (cursor.map (relabelEntry f)) = (s.setCursor queue cursor).relabel f := by
  simp only [relabel, setCursor, mapValues_insert]

theorem relabel_applyQueueLeaseDelta (removed added : ℕ) :
    (s.relabel f).applyQueueLeaseDelta queue removed added =
      (s.applyQueueLeaseDelta queue removed added).relabel f := by
  simp only [applyQueueLeaseDelta, apply_ite (relabel f)]
  rfl

theorem relabel_applyQueueLeaseExpirationDelta (removed added : List Millis) :
    (s.relabel f).applyQueueLeaseExpirationDelta queue removed added =
      (s.applyQueueLeaseExpirationDelta queue removed added).relabel f := by
  simp only [applyQueueLeaseExpirationDelta, apply_ite (relabel f)]
  rfl

theorem get_relabel :
    (s.relabel f).readyCursors.get queue = (s.readyCursors.get queue).map (Option.map (relabelEntry f)) :=
  get_mapValues _ _ _

end

theorem firstPrefixAfter_relabel (s : Queues) (start : Bytes) (after : Option Bytes) :
    (s.relabel f).store.readyJobs.firstPrefixAfter start after =
      (s.store.readyJobs.firstPrefixAfter start after).map (relabelEntry f) :=
  firstPrefixAfter_mapWithKey _ _ _ _

theorem relabel_cacheQueueReadyMin (hf : Relabels codec f) (s : Queues) (queue key id : Bytes) :
    (s.relabel f).cacheQueueReadyMin queue key (codec.encodeQueueId id) =
      (s.cacheQueueReadyMin queue key (codec.encodeQueueId id)).relabel f := by
  have hentry : some (key, codec.encodeQueueId id) = (some (key, codec.encodeQueueId id)).map (relabelEntry f) := by
    rw [Option.map_some, relabelEntry, hf.current]
  rw [cacheQueueReadyMin, cacheQueueReadyMin, get_relabel]
  cases s.readyCursors.get queue with
  | none => rfl
  | some cursor =>
    have hall : (cursor.map (relabelEntry f)).all (fun current => key < current.1) =
        cursor.all fun current => key < current.1 := by cases cursor <;> rfl
    simp only [Option.map_some, hall]
    split_ifs
    · rw [hentry, relabel_setCursor, ← hentry]
    · rfl

theorem relabel_firstQueueReadyEntry (s : Queues) (queue : Bytes) :
    firstQueueReadyEntry codec (s.relabel f) queue =
      ((firstQueueReadyEntry codec s queue).1.map (relabelEntry f),
        (firstQueueReadyEntry codec s queue).2.relabel f) := by
  rw [firstQueueReadyEntry, firstQueueReadyEntry, get_relabel]
  cases s.readyCursors.get queue with
  | some cursor => rfl
  | none =>
    simp only [Option.map_none, firstPrefixAfter_relabel]
    rw [relabel_setCursor]

variable {entries : List (Bytes × Bytes)}

theorem foldl_cacheQueueReadyMin (hf : Relabels codec f)
    (h : ∀ entry ∈ entries, ∃ id, entry.2 = codec.encodeQueueId id) (queue : Bytes) (s : Queues) :
    entries.foldl (fun s entry => s.cacheQueueReadyMin queue entry.1 entry.2) (s.relabel f) =
      (entries.foldl (fun s entry => s.cacheQueueReadyMin queue entry.1 entry.2) s).relabel f := by
  induction entries generalizing s with
  | nil => rfl
  | cons entry entries ih =>
    obtain ⟨⟨id, hentry⟩, hentries⟩ := forall_mem_cons.mp h
    rw [foldl_cons, foldl_cons, hentry, relabel_cacheQueueReadyMin hf, ih hentries]

variable {store : QueueStore}

section Single

variable {queue : Bytes} {now : Millis}

theorem expireEntries_relabel (s : Queues) (entries : List (Bytes × Bytes)) (expiry : Expiry) :
    expireEntries codec queue now (s.relabel f).store entries expiry =
      expireEntries codec queue now s.store entries expiry := by
  induction entries generalizing expiry with
  | nil => rfl
  | cons entry entries ih =>
    have hjobs : (s.relabel f).store.queueJobs = s.store.queueJobs := rfl
    simp only [expireEntries, hjobs, ih]

def Expiry.Current (codec : StorageCodec) (expiry : Expiry) : Prop :=
  (∀ w ∈ expiry.batch, Queues.Current codec w) ∧ ∀ entry ∈ expiry.ready, ∃ id, entry.2 = codec.encodeQueueId id

theorem expireEntries_current {expiry expiry' : Expiry} (hcurrent : expiry.Current codec)
    (h : expireEntries codec queue now store entries expiry = .ok expiry') : expiry'.Current codec := by
  induction entries generalizing expiry with
  | nil =>
    obtain rfl := Except.ok.inj h
    exact hcurrent
  | cons entry entries ih =>
    obtain ⟨hbatch, hready⟩ := hcurrent
    have hremoved : ∀ w ∈ expiry.batch ++ [QueueWrite.removeLease entry.1], Queues.Current codec w :=
      forall_mem_append.mpr ⟨hbatch, forall_mem_singleton.mpr trivial⟩
    rw [expireEntries] at h
    obtain ⟨expiresAtMs, -, h⟩ := bind_eq_ok.mp h
    by_cases hlater : now < expiresAtMs
    · rw [if_pos hlater] at h
      obtain rfl := Except.ok.inj h
      exact ⟨hbatch, hready⟩
    rw [if_neg hlater] at h
    obtain ⟨jobId, -, h⟩ := bind_eq_ok.mp h
    dsimp only at h
    cases hjob : store.queueJobs.get (codec.makeQueueKey queue jobId) with
    | none =>
      rw [hjob] at h
      refine ih ?_ h
      exact ⟨hremoved, hready⟩
    | some job =>
      rw [hjob] at h
      dsimp only at h
      by_cases hexpired : job.expired now = true
      · rw [if_pos hexpired] at h
        refine ih ⟨forall_mem_append.mpr ⟨hremoved, ?_⟩, forall_mem_append.mpr ⟨hready, ?_⟩⟩ h
        · exact forall_mem_cons.mpr ⟨trivial, forall_mem_singleton.mpr ⟨job.id, rfl⟩⟩
        · exact forall_mem_singleton.mpr ⟨job.id, rfl⟩
      · rw [if_neg hexpired] at h
        refine ih ?_ h
        exact ⟨hremoved, hready⟩

section

variable (hf : Relabels codec f) (s : Queues)
include hf

theorem relabel_expireLeases :
    expireLeases codec queue now (s.relabel f) = (expireLeases codec queue now s).map (relabel f) := by
  have hexpired : (s.relabel f).queueHasExpiredLeases queue now = s.queueHasExpiredLeases queue now := rfl
  have hleases : (s.relabel f).store.leaseJobs = s.store.leaseJobs := rfl
  rw [expireLeases, expireLeases, hexpired, hleases, expireEntries_relabel]
  cases hexpiry : expireEntries codec queue now s.store
      (if s.queueHasExpiredLeases queue now then s.store.leaseJobs.withPrefix (codec.makeLeasePrefix queue) else [])
      ⟨[], [], []⟩ with
  | error e => rfl
  | ok expiry =>
    have hcurrent : expiry.Current codec :=
      expireEntries_current ⟨forall_mem_nil _, forall_mem_nil _⟩ hexpiry
    simp only [bind, Except.bind]
    by_cases hempty : expiry.batch.isEmpty = true
    · rw [if_pos hempty, if_pos hempty]
      rfl
    · rw [if_neg hempty, if_neg hempty, relabel_commit hf hcurrent.1, relabel_applyQueueLeaseDelta,
        relabel_applyQueueLeaseExpirationDelta, foldl_cacheQueueReadyMin hf hcurrent.2]
      rfl

theorem relabel_dropReadyEntry (key : Bytes) :
    dropReadyEntry codec queue (s.relabel f) key = (dropReadyEntry codec queue s key).relabel f := by
  have hcurrent : ∀ w ∈ [QueueWrite.removeReady key], Queues.Current codec w := forall_mem_singleton.mpr trivial
  rw [dropReadyEntry, firstPrefixAfter_relabel, relabel_commit hf hcurrent, relabel_setCursor, dropReadyEntry]

theorem relabel_claimReady (options : QueueClaimOptions) (acknowledgeImmediately : Bool) (readyKey queueKey : Bytes)
    (job : QueueJob) (delayed : Option (Bytes × Bytes)) :
    claimReady codec queue now (s.relabel f) options acknowledgeImmediately readyKey queueKey job
        (delayed.map (relabelEntry f)) =
      ((claimReady codec queue now s options acknowledgeImmediately readyKey queueKey job delayed).1,
        (claimReady codec queue now s options acknowledgeImmediately readyKey queueKey job delayed).2.relabel f) := by
  cases acknowledgeImmediately with
  | true =>
    have hcurrent : ∀ w ∈ [QueueWrite.removeReady readyKey, .insertJob queueKey (job.claimed now options true)] ++ [],
        Queues.Current codec w := by simp [Queues.Current]
    simp only [claimReady, if_true, firstPrefixAfter_relabel, ← Option.map_or, relabel_commit hf hcurrent,
      relabel_setCursor]
  | false =>
    have hcurrent : ∀ w ∈ [QueueWrite.removeReady readyKey, .insertJob queueKey (job.claimed now options false)] ++
        [.insertLease (codec.makeLeaseKey queue ((job.claimed now options false).leaseExpiresAtMs.getD Millis.zero)
          (job.claimed now options false).id) (codec.encodeQueueId (job.claimed now options false).id)],
        Queues.Current codec w := by simp [Queues.Current]
    simp only [claimReady, Bool.false_eq_true, if_false, firstPrefixAfter_relabel, ← Option.map_or,
      relabel_commit hf hcurrent, relabel_setCursor, relabel_applyQueueLeaseDelta,
        relabel_applyQueueLeaseExpirationDelta]

end

def relabelResult {α : Type} (f : Bytes → Bytes → Bytes) (result : α × Queues) :
    α × Queues := (result.1, result.2.relabel f)

theorem relabel_claimEntries (hf : Relabels codec f) (options : QueueClaimOptions) (acknowledgeImmediately : Bool)
    (entries : List (Bytes × Bytes)) (s : Queues) (delayed : Option (Bytes × Bytes)) :
    claimEntries codec queue now options acknowledgeImmediately (entries.map (relabelEntry f)) (s.relabel f)
        (delayed.map (relabelEntry f)) =
      (claimEntries codec queue now options acknowledgeImmediately entries s delayed).map (relabelResult f) := by
  induction entries generalizing s delayed with
  | nil =>
    simp only [map_nil, claimEntries, relabel_setCursor]
    rfl
  | cons entry entries ih =>
    obtain ⟨readyKey, value⟩ := entry
    simp only [map_cons, relabelEntry, claimEntries, hf.readyJobId]
    cases hid : codec.readyJobId readyKey value with
    | error e => rfl
    | ok jobId =>
      cases jobId with
      | none => exact ih s delayed
      | some jobId =>
        have hjobs : (s.relabel f).store.queueJobs = s.store.queueJobs := rfl
        simp only [bind, Except.bind, hjobs]
        cases hjob : s.store.queueJobs.get (codec.makeQueueKey queue jobId) with
        | none =>
          rw [relabel_dropReadyEntry hf]
          exact ih _ delayed
        | some job =>
          dsimp only
          by_cases hready : (if job.expired now = true then job.requeued else job).status ≠ .ready
          · rw [if_pos hready, if_pos hready, relabel_dropReadyEntry hf]
            exact ih _ delayed
          · rw [if_neg hready, if_neg hready]
            by_cases hdelayed : now < (if job.expired now = true then job.requeued else job).availableAtMs
            · rw [if_pos hdelayed, if_pos hdelayed, ← ih]
              cases delayed <;> rfl
            · rw [if_neg hdelayed, if_neg hdelayed, relabel_claimReady hf]
              rfl

theorem relabel_claimJob (hf : Relabels codec f) (s : Queues) (options : QueueClaimOptions)
    (acknowledgeImmediately : Bool) :
    claimJob codec queue now (s.relabel f) options acknowledgeImmediately =
      (claimJob codec queue now s options acknowledgeImmediately).map (relabelResult f) := by
  rw [claimJob, claimJob, relabel_expireLeases hf]
  cases expireLeases codec queue now s with
  | error e => rfl
  | ok s =>
    simp only [Except.map, bind, Except.bind, relabel_firstQueueReadyEntry]
    obtain ⟨first, t⟩ := firstQueueReadyEntry codec s queue
    cases first with
    | none => exact relabel_claimEntries hf options acknowledgeImmediately [] t none
    | some entry =>
      have hrest : SortedMap.after ((t.relabel f).store.readyJobs.withPrefix (codec.makeReadyPrefix queue))
        (some entry.1) =
          (SortedMap.after (t.store.readyJobs.withPrefix (codec.makeReadyPrefix queue)) (some entry.1)).map
            (relabelEntry f) := by
        rw [relabel, withPrefix_mapWithKey, after_map]
        rfl
      have hclaim := @relabel_claimEntries codec f queue now hf options acknowledgeImmediately
        (entry :: SortedMap.after (t.store.readyJobs.withPrefix (codec.makeReadyPrefix queue)) (some entry.1)) t none
      rw [map_cons, ← hrest] at hclaim
      exact hclaim

end Single

section Batch

variable {queue : Bytes} {now : Millis}

theorem collectExpired_relabel (s : Queues) (entries : List (Bytes × Bytes)) (claim : BatchClaim)
    (expired : List BatchCandidate) :
    collectExpired codec queue now (s.relabel f).store entries claim expired =
      collectExpired codec queue now s.store entries claim expired := by
  induction entries generalizing claim expired with
  | nil => rfl
  | cons entry entries ih =>
    have hjobs : (s.relabel f).store.queueJobs = s.store.queueJobs := rfl
    simp only [collectExpired, hjobs, ih]

def relabelScan (f : Bytes → Bytes → Bytes) (scan : ReadyScan) : ReadyScan :=
  { scan with delayed := scan.delayed.map (relabelEntry f), next := scan.next.map (relabelEntry f) }

theorem relabel_scanPage (s : Queues) (limit : ℕ) (entries : List ((Bytes × Bytes) × Option Bytes)) (scan : ReadyScan) :
    scanPage codec queue now (s.relabel f).store limit (entries.map fun entry => (relabelEntry f entry.1, entry.2))
        (relabelScan f scan) =
      (relabelScan f (scanPage codec queue now s.store limit entries scan).1,
        (scanPage codec queue now s.store limit entries scan).2) := by
  induction entries generalizing scan with
  | nil => rfl
  | cons entry entries ih =>
    obtain ⟨⟨readyKey, value⟩, jobId⟩ := entry
    cases jobId with
    | none => exact ih { scan with afterKey := some readyKey }
    | some jobId =>
      have hjobs : (s.relabel f).store.queueJobs = s.store.queueJobs := rfl
      simp only [map_cons, relabelEntry, scanPage, hjobs]
      cases hjob : s.store.queueJobs.get (codec.makeQueueKey queue jobId) with
      | none => exact ih { scan with afterKey := some readyKey, stale := scan.stale ++ [.removeReady readyKey] }
      | some job =>
        dsimp only
        by_cases hready : job.status ≠ .ready
        · rw [if_pos hready, if_pos hready]
          exact ih { scan with afterKey := some readyKey, stale := scan.stale ++ [.removeReady readyKey] }
        · rw [if_neg hready, if_neg hready]
          by_cases hdelayed : now < job.availableAtMs
          · have hor : (relabelScan f scan).delayed.or (some (readyKey, f readyKey value)) =
                (scan.delayed.or (some (readyKey, value))).map (relabelEntry f) := by
              rw [Option.map_or]
              rfl
            rw [if_pos hdelayed, if_pos hdelayed, hor]
            exact ih { scan with afterKey := some readyKey, delayed := scan.delayed.or (some (readyKey, value)) }
          · rw [if_neg hdelayed, if_neg hdelayed]
            have hcandidates : (relabelScan f scan).candidates = scan.candidates := rfl
            rw [hcandidates]
            by_cases hfull : limit ≤
              (scan.candidates ++ [(⟨readyKey, codec.makeQueueKey queue jobId, none, job⟩ : BatchCandidate)]).length
            · rw [if_pos hfull, if_pos hfull]
              cases entries <;> rfl
            · rw [if_neg hfull, if_neg hfull]
              exact ih { scan with
                afterKey := some readyKey
                candidates := scan.candidates ++ [⟨readyKey, codec.makeQueueKey queue jobId, none, job⟩] }

theorem relabel_readyPage (s : Queues) (limit : ℕ) (cached : Option (Bytes × Bytes)) (afterKey : Option Bytes) :
    readyPage codec queue (s.relabel f).store limit (cached.map (relabelEntry f)) afterKey =
      (readyPage codec queue s.store limit cached afterKey).map (relabelEntry f) := by
  cases cached with
  | none => exact prefixPageAfter_mapWithKey _ _ _ _ _
  | some entry =>
    have hpage := prefixPageAfter_mapWithKey s.store.readyJobs f (codec.makeReadyPrefix queue) (some entry.1) limit
    exact congrArg (List.cons (relabelEntry f entry)) hpage

section

variable (hf : Relabels codec f)
include hf

theorem mapM_readyJobId_relabel (page : List (Bytes × Bytes)) :
    (page.map (relabelEntry f)).mapM (fun entry => codec.readyJobId entry.1 entry.2) =
      page.mapM fun entry => codec.readyJobId entry.1 entry.2 := by
  induction page with
  | nil => rfl
  | cons entry page ih => simp only [map_cons, mapM_cons, ih, relabelEntry, hf.readyJobId]

theorem relabel_scanPages (s : Queues) (limit fuel : ℕ) (cached : Option (Bytes × Bytes)) (scan : ReadyScan) :
    scanPages codec queue now (s.relabel f).store limit fuel (cached.map (relabelEntry f)) (relabelScan f scan) =
      (scanPages codec queue now s.store limit fuel cached scan).map (relabelScan f) := by
  induction fuel generalizing cached scan with
  | zero => rfl
  | succ fuel ih =>
    have hafter : (relabelScan f scan).afterKey = scan.afterKey := rfl
    simp only [scanPages, hafter, relabel_readyPage, isEmpty_map, mapM_readyJobId_relabel hf]
    split_ifs with hempty
    · rfl
    · cases hids : (readyPage codec queue s.store limit cached scan.afterKey).mapM
        (fun entry => codec.readyJobId entry.1 entry.2) with
      | error e => rfl
      | ok ids =>
        have hzip : ((readyPage codec queue s.store limit cached scan.afterKey).map (relabelEntry f)).zip ids =
            ((readyPage codec queue s.store limit cached scan.afterKey).zip ids).map
              fun entry => (relabelEntry f entry.1, entry.2) := by
          rw [zip_map_left]
          rfl
        simp only [bind, Except.bind, hzip, relabel_scanPage]
        obtain ⟨next, full⟩ := scanPage codec queue now s.store limit
          ((readyPage codec queue s.store limit cached scan.afterKey).zip ids) scan
        cases full with
        | true => rfl
        | false => exact ih none next

theorem relabel_scanReady (s : Queues) (limit : ℕ) :
    scanReady codec queue now (s.relabel f) limit = (scanReady codec queue now s limit).map (relabelScan f) := by
  have hcached : ((s.relabel f).readyCursors.get queue).join =
    (s.readyCursors.get queue).join.map (relabelEntry f) := by
    rw [get_relabel]
    cases s.readyCursors.get queue <;> rfl
  have hsize : (s.relabel f).store.readyJobs.size = s.store.readyJobs.size := length_map _
  have hstart : (⟨[], none, none, [], none, false⟩ : ReadyScan) = relabelScan f ⟨[], none, none, [], none, false⟩ := rfl
  rw [scanReady, hcached, hsize, hstart, relabel_scanPages hf, scanReady]
  cases scanPages codec queue now s.store limit (s.store.readyJobs.size + 2) (s.readyCursors.get queue).join
      ⟨[], none, none, [], none, false⟩ with
  | error e => rfl
  | ok scan =>
    have hnone : (relabelScan f scan).next.isNone = scan.next.isNone := Option.isNone_map
    simp only [Except.map, bind, Except.bind, hnone]
    by_cases hfull : limit ≤ scan.candidates.length ∧ scan.next.isNone = true ∧ scan.reachedEnd = false
    · rw [if_pos hfull, if_pos (show limit ≤ (relabelScan f scan).candidates.length ∧ scan.next.isNone = true ∧
        (relabelScan f scan).reachedEnd = false from hfull)]
      simp only [relabelScan, firstPrefixAfter_relabel]
    · rw [if_neg hfull, if_neg (show ¬ (limit ≤ (relabelScan f scan).candidates.length ∧ scan.next.isNone = true ∧
        (relabelScan f scan).reachedEnd = false) from hfull)]

theorem relabel_leastCursor (h : ∀ entry ∈ entries, ∃ id, entry.2 = codec.encodeQueueId id)
    (cursor : Option (Bytes × Bytes)) :
    entries.foldl leastCursor (cursor.map (relabelEntry f)) =
      (entries.foldl leastCursor cursor).map (relabelEntry f) := by
  induction entries generalizing cursor with
  | nil => rfl
  | cons entry entries ih =>
    obtain ⟨⟨id, hentry⟩, hentries⟩ := forall_mem_cons.mp h
    have hself : relabelEntry f entry = entry := by
      rw [relabelEntry, hentry, hf.current, ← hentry]
    have hall : (cursor.map (relabelEntry f)).all (fun current => entry.1 < current.1) =
        cursor.all fun current => entry.1 < current.1 := by cases cursor <;> rfl
    have hstep : leastCursor (cursor.map (relabelEntry f)) entry = (leastCursor cursor entry).map (relabelEntry f) := by
      rw [leastCursor, leastCursor, hall, apply_ite (Option.map (relabelEntry f)), Option.map_some, hself]
    rw [foldl_cons, foldl_cons, hstep, ih hentries]

end

def BatchClaim.Current (codec : StorageCodec) (claim : BatchClaim) : Prop :=
  (∀ w ∈ claim.batch, Queues.Current codec w) ∧ ∀ entry ∈ claim.requeued, ∃ id, entry.2 = codec.encodeQueueId id

variable {claim : BatchClaim}

theorem BatchClaim.Current.append {writes : List QueueWrite} (h : claim.Current codec)
    (hwrites : ∀ w ∈ writes, Queues.Current codec w) :
    BatchClaim.Current codec { claim with batch := claim.batch ++ writes } :=
  ⟨forall_mem_append.mpr ⟨h.1, hwrites⟩, h.2⟩

theorem collectExpired_current {claim' : BatchClaim} {expired expired' : List BatchCandidate}
    (hcurrent : claim.Current codec)
    (h : collectExpired codec queue now store entries claim expired = .ok (claim', expired')) :
    claim'.Current codec := by
  induction entries generalizing claim expired with
  | nil =>
    obtain ⟨rfl, -⟩ := Prod.mk.inj (Except.ok.inj h)
    exact hcurrent
  | cons entry entries ih =>
    have hremoved : BatchClaim.Current codec { claim with batch := claim.batch ++ [QueueWrite.removeLease entry.1] } :=
      hcurrent.append (forall_mem_singleton.mpr trivial)
    rw [collectExpired] at h
    obtain ⟨expiresAtMs, -, h⟩ := bind_eq_ok.mp h
    by_cases hlater : now < expiresAtMs
    · rw [if_pos hlater] at h
      obtain ⟨rfl, -⟩ := Prod.mk.inj (Except.ok.inj h)
      exact hcurrent
    rw [if_neg hlater] at h
    obtain ⟨jobId, -, h⟩ := bind_eq_ok.mp h
    dsimp only at h
    cases hjob : store.queueJobs.get (codec.makeQueueKey queue jobId) with
    | none =>
      rw [hjob] at h
      refine ih ?_ h
      exact ⟨hremoved.1, hremoved.2⟩
    | some job =>
      rw [hjob] at h
      dsimp only at h
      by_cases hexpired : job.expired now = true
      · rw [if_pos hexpired] at h
        exact ih hcurrent h
      · rw [if_neg hexpired] at h
        refine ih ?_ h
        exact ⟨hremoved.1, hremoved.2⟩

variable {limit : ℕ} {options : QueueClaimOptions} {acknowledgeImmediately : Bool} {scan : ReadyScan}

theorem settleCandidate_current (h : claim.Current codec) (candidate : BatchCandidate) :
    BatchClaim.Current codec
      (settleCandidate codec queue now options limit acknowledgeImmediately claim candidate) := by
  have hrelease : BatchClaim.Current codec (releaseLease candidate claim) := by
    rw [releaseLease]
    cases candidate.leaseKey with
    | none => exact h
    | some leaseKey => exact h.append (forall_mem_singleton.mpr trivial)
  have htake : BatchClaim.Current codec
      (takeCandidate codec queue now options acknowledgeImmediately candidate (releaseLease candidate claim)) := by
    have hjob : ∀ job, ∀ w ∈ [QueueWrite.removeReady candidate.readyKey, .insertJob candidate.queueKey job],
        Queues.Current codec w := by simp [Queues.Current]
    cases acknowledgeImmediately with
    | true => exact hrelease.append (hjob _)
    | false => exact (hrelease.append (hjob _)).append (forall_mem_singleton.mpr trivial)
  have hrequeue : BatchClaim.Current codec (requeueCandidate codec candidate (releaseLease candidate claim)) := by
    refine ⟨forall_mem_append.mpr ⟨hrelease.1, ?_⟩, forall_mem_append.mpr ⟨hrelease.2, ?_⟩⟩
    · exact forall_mem_cons.mpr ⟨trivial, forall_mem_singleton.mpr ⟨candidate.job.id, rfl⟩⟩
    · exact forall_mem_singleton.mpr ⟨candidate.job.id, rfl⟩
  rw [settleCandidate]
  split_ifs
  · exact htake
  · exact hrequeue
  · exact hrelease

theorem foldl_settleCandidate_current (candidates : List BatchCandidate) (h : claim.Current codec) :
    BatchClaim.Current codec
      (candidates.foldl (settleCandidate codec queue now options limit acknowledgeImmediately) claim) :=
  List.foldlRecOn candidates _ h fun _ h candidate _ => settleCandidate_current h candidate

theorem scanPage_stale {entries : List ((Bytes × Bytes) × Option Bytes)}
    (h : ∀ w ∈ scan.stale, Queues.Current codec w) :
    ∀ w ∈ (scanPage codec queue now store limit entries scan).1.stale, Queues.Current codec w := by
  induction entries generalizing scan with
  | nil => exact h
  | cons entry entries ih =>
    obtain ⟨⟨readyKey, value⟩, jobId⟩ := entry
    have hstale : ∀ w ∈ scan.stale ++ [QueueWrite.removeReady readyKey], Queues.Current codec w :=
      forall_mem_append.mpr ⟨h, forall_mem_singleton.mpr trivial⟩
    cases jobId with
    | none =>
      apply ih
      exact h
    | some jobId =>
      simp only [scanPage]
      cases store.queueJobs.get (codec.makeQueueKey queue jobId) with
      | none =>
        apply ih
        exact hstale
      | some job =>
        dsimp only
        split_ifs
        · apply ih
          exact hstale
        · apply ih
          exact h
        · exact h
        · apply ih
          exact h

theorem scanPages_stale {fuel : ℕ} {cached : Option (Bytes × Bytes)} {scan' : ReadyScan}
    (hscan : ∀ w ∈ scan.stale, Queues.Current codec w)
    (h : scanPages codec queue now store limit fuel cached scan = .ok scan') :
    ∀ w ∈ scan'.stale, Queues.Current codec w := by
  induction fuel generalizing cached scan with
  | zero =>
    obtain rfl := Except.ok.inj h
    exact hscan
  | succ fuel ih =>
    simp only [scanPages] at h
    split_ifs at h with hempty
    · obtain rfl := Except.ok.inj h
      exact hscan
    · obtain ⟨ids, -, h⟩ := bind_eq_ok.mp h
      have hpage := @scanPage_stale codec store queue now limit scan
        ((readyPage codec queue store limit cached scan.afterKey).zip ids) hscan
      cases hresult : scanPage codec queue now store limit
        ((readyPage codec queue store limit cached scan.afterKey).zip ids) scan with
      | mk next full =>
        rw [hresult] at h hpage
        cases full with
        | true =>
          obtain rfl := Except.ok.inj h
          exact hpage
        | false => exact ih hpage h

theorem scanReady_stale {s : Queues} (h : scanReady codec queue now s limit = .ok scan) :
    ∀ w ∈ scan.stale, Queues.Current codec w := by
  rw [scanReady] at h
  obtain ⟨pages, hpages, h⟩ := bind_eq_ok.mp h
  have hstale := scanPages_stale (forall_mem_nil _) hpages
  split_ifs at h
  · obtain rfl := Except.ok.inj h
    exact hstale
  · obtain rfl := Except.ok.inj h
    exact hstale

theorem relabel_claimBatchAtomic (hf : Relabels codec f) (s : Queues) (options : QueueClaimOptions) (limit : ℕ)
    (acknowledgeImmediately : Bool) :
    claimBatchAtomic codec queue now (s.relabel f) options limit acknowledgeImmediately =
      (claimBatchAtomic codec queue now s options limit acknowledgeImmediately).map (relabelResult f) := by
  have hexpired : (s.relabel f).queueHasExpiredLeases queue now = s.queueHasExpiredLeases queue now := rfl
  have hleases : (s.relabel f).store.leaseJobs = s.store.leaseJobs := rfl
  rw [claimBatchAtomic, claimBatchAtomic]
  by_cases hlimit : maxQueueBatchItems < limit
  · rw [if_pos hlimit, if_pos hlimit]
    rfl
  rw [if_neg hlimit, if_neg hlimit]
  by_cases hzero : limit = 0
  · rw [if_pos hzero, if_pos hzero]
    rfl
  · rw [if_neg hzero, if_neg hzero]
    dsimp only
    rw [hexpired, hleases, collectExpired_relabel, relabel_scanReady hf]
    cases hcollect : collectExpired codec queue now s.store
        (if s.queueHasExpiredLeases queue now =
          true then s.store.leaseJobs.withPrefix (codec.makeLeasePrefix queue) else [])
        ⟨[], 0, 0, [], [], [], []⟩ [] with
    | error e => rfl
    | ok collected =>
      obtain ⟨claim, expired⟩ := collected
      have hclaim : claim.Current codec :=
        collectExpired_current ⟨forall_mem_nil _, forall_mem_nil _⟩ hcollect
      simp only [bind, Except.bind]
      cases hscan : scanReady codec queue now s limit with
      | error e => rfl
      | ok scan =>
        have hstale := hclaim.append (scanReady_stale hscan)
        have hsettled := @foldl_settleCandidate_current codec queue now _ limit options acknowledgeImmediately
          ((scan.candidates ++ expired).insertionSort fun a b => a.readyKey ≤ b.readyKey) hstale
        have hcandidates : (relabelScan f scan).candidates = scan.candidates := rfl
        have hscanStale : (relabelScan f scan).stale = scan.stale := rfl
        have hcursor : (relabelScan f scan).delayed.or (relabelScan f scan).next =
            (scan.delayed.or scan.next).map (relabelEntry f) := Option.map_or.symm
        simp only [Except.map, hcandidates, hscanStale, hcursor, relabel_leastCursor hf hsettled.2,
          relabel_commit hf hsettled.1, relabel_applyQueueLeaseDelta, relabel_applyQueueLeaseExpirationDelta,
          ← apply_ite (relabel f), relabel_setCursor, relabelResult]

end Batch

end Queues

end Relabel

section Legacy

open Queues

variable {codec : StorageCodec}

def refresh (codec : StorageCodec) (key id : Bytes) : Queues → Queues :=
  relabel fun k value => if k = key ∧ value = [] then codec.encodeQueueId id else value

/-- The entry without a value is decoded to the job's id, and every claim does what it does with the entry of today. -/
structure ReadAsCurrent (codec : StorageCodec) (key id : Bytes) : Prop where
  decoded : codec.readyJobId key [] = .ok (some id)
  single : ∀ s queue now options acknowledgeImmediately,
    claimJob codec queue now (refresh codec key id s) options acknowledgeImmediately =
      (claimJob codec queue now s options acknowledgeImmediately).map fun result =>
        (result.1, refresh codec key id result.2)
  batch : ∀ s queue now options limit acknowledgeImmediately,
    claimBatchAtomic codec queue now (refresh codec key id s) options limit acknowledgeImmediately =
      (claimBatchAtomic codec queue now s options limit acknowledgeImmediately).map
        fun result => (result.1, refresh codec key id result.2)

theorem readyJobId_encodeQueueId (hraw : codec.crypto = none) (key id : Bytes) :
    codec.readyJobId key (codec.encodeQueueId id) = .ok (some id) := by
  simp [readyJobId, decodeQueueId, encodeQueueId, hraw, rawQueueIdPrefix, List.dropPrefix?, Except.map]

theorem relabels_refresh (hraw : codec.crypto = none) {key id : Bytes} (h : codec.readyJobId key [] = .ok (some id)) :
    Relabels codec fun k value => if k = key ∧ value = [] then codec.encodeQueueId id else value := by
  constructor
  · intro k value
    by_cases hk : k = key ∧ value = []
    · obtain ⟨rfl, rfl⟩ := hk
      rw [if_pos ⟨rfl, rfl⟩, h, readyJobId_encodeQueueId hraw]
    · rw [if_neg hk]
  · intro k other
    apply if_neg
    rintro ⟨-, hnil⟩
    simp [encodeQueueId, hraw, rawQueueIdPrefix] at hnil

theorem legacy_ready_entries_claimed_iff (hraw : codec.crypto = none) {queue createdAt id : List Char}
    (hqueue : '\x00' ∉ queue) (hcreated : '\x00' ∉ createdAt) (hid : '\x00' ∉ id) (priority : Int32) :
    ReadAsCurrent codec (codec.makeReadyKey (encode queue) priority (encode createdAt) (encode id)) (encode id) ↔
      0 ∉ bigEndian 4 (priorityRev priority) := by
  have hdecode := readyJobId_legacy_iff hraw hqueue hcreated hid priority
  constructor
  · intro h
    exact hdecode.mp h.decoded
  · intro hzero
    have hlabels := relabels_refresh hraw (hdecode.mpr hzero)
    constructor
    · exact hdecode.mpr hzero
    · intro s queue now options acknowledgeImmediately
      exact relabel_claimJob hlabels s options acknowledgeImmediately
    · intro s queue now options limit acknowledgeImmediately
      exact relabel_claimBatchAtomic hlabels s options limit acknowledgeImmediately

def legacyCodec : StorageCodec := rawCodec fun _ => .error (.storage "invalid type")

theorem legacy_entry_of_default_priority :
    ReadAsCurrent legacyCodec (legacyCodec.makeReadyKey (encode ['q']) 0 (encode ['t']) (encode ['1']))
      (encode ['1']) :=
  (legacy_ready_entries_claimed_iff rfl (by decide) (by decide) (by decide) 0).mpr (by decide)

def legacyJob : QueueJob :=
  { queue := [113], id := [49], body := [], attempts := 0, maxAttempts := 3, status := .ready
    availableAtMs := Millis.zero, leasedAtMs := none, leaseExpiresAtMs := none, completedAtMs := none, deadAtMs := none
    createdAt := [116], lastError := [], priority := 255 }

def legacyQueues : Queues :=
  { Queues.empty with
    store :=
      ⟨SortedMap.empty.insert (legacyCodec.makeQueueKey [113] [49]) legacyJob,
        SortedMap.empty.insert (legacyCodec.makeReadyKey [113] 255 [116] [49]) [], SortedMap.empty⟩ }

/-- Both claim paths drop its entry as stale, and the job stays ready for good. -/
theorem legacy_entry_of_priority_255_is_dropped :
    (claimJob legacyCodec [113] Millis.zero legacyQueues ⟨5⟩ false).toOption.map
        (fun result => (result.1, result.2.store.readyJobs.entries,
          result.2.store.queueJobs.get (legacyCodec.makeQueueKey [113] [49]))) = some (none, [], some legacyJob) ∧
      (claimBatchAtomic legacyCodec [113] Millis.zero legacyQueues ⟨5⟩ 1 false).toOption.map
        (fun result => (result.1, result.2.store.readyJobs.entries,
          result.2.store.queueJobs.get (legacyCodec.makeQueueKey [113] [49]))) = some ([], [], some legacyJob) := by
  constructor <;> rfl

end Legacy

end Thingd.Engine
