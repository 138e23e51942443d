import Thingd.Data.Index
import Thingd.Engine.Queue

namespace Thingd.Engine

open Index

variable {codec : StorageCodec}

structure Naming.Names (naming : Naming codec) (job : QueueJob) : Prop where
  queue : naming.queue job.queue
  stamp : naming.stamp job.createdAt
  id : naming.id job.id

namespace QueueStore

open Queues

variable (codec) in
def jobKey (job : QueueJob) : Bytes := codec.makeQueueKey job.queue job.id

variable (codec) in
def readyIndexEntry (job : QueueJob) : Option (Bytes × Bytes) :=
  if job.status = .ready then some (readyEntry codec job) else none

variable (codec) in
def Stored (s : QueueStore) (job : QueueJob) : Prop := s.queueJobs.get (jobKey codec job) = some job

instance (s : QueueStore) (job : QueueJob) : Decidable (Stored codec s job) := inferInstanceAs (Decidable (_ = _))

/-- Every record is stored at its own key and the two indexes follow from the records; leases may be missing. -/
structure Indexed (naming : Naming codec) (s : QueueStore) : Prop where
  keyed : ∀ key job, s.queueJobs.get key = some job → key = jobKey codec job ∧ naming.Names job
  readySound : Sound (readyIndexEntry codec) s.queueJobs s.readyJobs
  readyComplete : Complete (readyIndexEntry codec) s.queueJobs s.readyJobs
  leaseSound : Sound (leaseEntry codec) s.queueJobs s.leaseJobs

variable (codec) in
def replace (s : QueueStore) (job : QueueJob) : QueueStore :=
  { s with
    queueJobs := s.queueJobs.insert (jobKey codec job) job
    readyJobs := reindex (readyIndexEntry codec) (s.queueJobs.get (jobKey codec job)) job s.readyJobs
    leaseJobs := reindex (leaseEntry codec) (s.queueJobs.get (jobKey codec job)) job s.leaseJobs }

variable {job a b old new : QueueJob} {entry : Bytes × Bytes} {key : Bytes}

theorem readyEntry_of_readyIndexEntry (h : readyIndexEntry codec job = some entry) :
    job.status = .ready ∧ entry = readyEntry codec job := by
  unfold readyIndexEntry at h
  split_ifs at h with hready
  exact ⟨hready, (Option.some.inj h).symm⟩

theorem leaseEntry_eq_some (h : leaseEntry codec job = some entry) :
    job.status = .leased ∧ ∃ expiry, job.leaseExpiresAtMs = some expiry ∧
      entry = (codec.makeLeaseKey job.queue expiry job.id, codec.encodeQueueId job.id) := by
  unfold leaseEntry at h
  split_ifs at h with hleased
  obtain ⟨expiry, hexpiry, rfl⟩ := Option.map_eq_some_iff.mp h
  exact ⟨hleased, expiry, hexpiry, rfl⟩

variable {naming : Naming codec} {s : QueueStore}

theorem jobKey_inj (ha : naming.Names a) (hb : naming.Names b) (h : jobKey codec a = jobKey codec b) :
    a.queue = b.queue ∧ a.id = b.id :=
  naming.queueKey_inj ha.queue hb.queue ha.id hb.id h

theorem jobKey_congr (hqueue : a.queue = b.queue) (hid : a.id = b.id) : jobKey codec a = jobKey codec b := by
  rw [jobKey, jobKey, hqueue, hid]

section Apart

variable {jobs : SortedMap Bytes QueueJob}
  (hkeyed : ∀ key job, jobs.get key = some job → key = jobKey codec job ∧ naming.Names job)
include hkeyed

theorem readyApart : Index.Apart (readyIndexEntry codec) jobs := by
  intro key job key' job' i b b' hget hentry hget' hentry'
  obtain ⟨rfl, hnames⟩ := hkeyed key job hget
  obtain ⟨rfl, hnames'⟩ := hkeyed key' job' hget'
  obtain ⟨-, heq⟩ := readyEntry_of_readyIndexEntry hentry
  obtain ⟨-, heq'⟩ := readyEntry_of_readyIndexEntry hentry'
  have hkeys : (readyEntry codec job).1 = (readyEntry codec job').1 := by rw [← heq, ← heq']
  obtain ⟨hqueue, hid⟩ := naming.readyKey_inj hnames.queue hnames'.queue hnames.stamp hnames'.stamp hnames.id
    hnames'.id hkeys
  exact jobKey_congr hqueue hid

theorem leaseApart : Index.Apart (leaseEntry codec) jobs := by
  intro key job key' job' i b b' hget hentry hget' hentry'
  obtain ⟨rfl, hnames⟩ := hkeyed key job hget
  obtain ⟨rfl, hnames'⟩ := hkeyed key' job' hget'
  obtain ⟨-, expiry, -, heq⟩ := leaseEntry_eq_some hentry
  obtain ⟨-, expiry', -, heq'⟩ := leaseEntry_eq_some hentry'
  have hkeys : codec.makeLeaseKey job.queue expiry job.id = codec.makeLeaseKey job'.queue expiry' job'.id :=
    (congrArg Prod.fst heq).symm.trans (congrArg Prod.fst heq')
  obtain ⟨hqueue, hid⟩ := naming.leaseKey_inj hnames.queue hnames'.queue hnames.id hnames'.id hkeys
  exact jobKey_congr hqueue hid

end Apart

section

variable (h : Indexed naming s)
include h

theorem keyed_insert (hnames : naming.Names job) :
    ∀ key other, (s.queueJobs.insert (jobKey codec job) job).get key = some other →
      key = jobKey codec other ∧ naming.Names other := by
  intro key other hget
  rw [SortedMap.get_insert] at hget
  split_ifs at hget with hkey
  · cases hget
    exact ⟨hkey, hnames⟩
  · exact h.keyed key other hget

theorem Indexed.replace (hnames : naming.Names job) :
    Indexed naming (s.replace codec job) where
  keyed := keyed_insert h hnames
  readySound := h.readySound.replace
  readyComplete := h.readyComplete.replace (readyApart h.keyed) (readyApart (keyed_insert h hnames))
  leaseSound := h.leaseSound.replace

theorem leaseComplete_replace (hcomplete : Complete (leaseEntry codec) s.queueJobs s.leaseJobs)
    (hnames : naming.Names job) :
    Complete (leaseEntry codec) (s.replace codec job).queueJobs (s.replace codec job).leaseJobs :=
  hcomplete.replace (leaseApart h.keyed) (leaseApart (keyed_insert h hnames))

theorem Indexed.get_readyJobs (hstored : Stored codec s job) :
    s.readyJobs.get (readyEntry codec job).1 =
      if job.status = .ready then some (readyEntry codec job).2 else none := by
  have hnames := (h.keyed _ job hstored).2
  split_ifs with hready
  · exact h.readyComplete _ job _ _ hstored (if_pos hready)
  · cases hget : s.readyJobs.get (readyEntry codec job).1 with
    | none => rfl
    | some value =>
      obtain ⟨key, other, hother, hentry⟩ := h.readySound _ _ hget
      obtain ⟨rfl, hnames'⟩ := h.keyed key other hother
      obtain ⟨hready', heq⟩ := readyEntry_of_readyIndexEntry hentry
      obtain ⟨hqueue, hid⟩ := naming.readyKey_inj hnames.queue hnames'.queue hnames.stamp hnames'.stamp hnames.id
        hnames'.id (congrArg Prod.fst heq)
      rw [← jobKey_congr hqueue hid] at hother
      cases Option.some.inj (hstored.symm.trans hother)
      exact absurd hready' hready

end

theorem commit_append (s : QueueStore) (batch later : List QueueWrite) :
    s.commit (batch ++ later) = (s.commit batch).commit later := List.foldl_append

variable (codec) in
def removeLeaseOf (job : QueueJob) : List QueueWrite :=
  (leaseEntry codec job).toList.map fun entry => .removeLease entry.1

variable (codec) in
def insertLeaseOf (job : QueueJob) : List QueueWrite :=
  (leaseEntry codec job).toList.map fun entry => .insertLease entry.1 entry.2

variable (codec) in
def insertReadyOf (job : QueueJob) : List QueueWrite :=
  (readyIndexEntry codec job).toList.map fun entry => .insertReady entry.1 entry.2

theorem commit_claim (h : Indexed naming s) (hstored : Stored codec s old)
    (hkey : jobKey codec new = jobKey codec old) (hnew : new.status ≠ .ready) :
    s.commit (removeLeaseOf codec old ++
      [.removeReady (readyEntry codec old).1, .insertJob (jobKey codec old) new] ++ insertLeaseOf codec new) =
      s.replace codec new := by
  have hready : s.readyJobs.erase (readyEntry codec old).1 =
      reindex (readyIndexEntry codec) (some old) new s.readyJobs := by
    have hget := h.get_readyJobs hstored
    have hnone : readyIndexEntry codec new = none := if_neg hnew
    simp only [reindex, hnone, Option.bind_some]
    by_cases hold : old.status = .ready
    · rw [readyIndexEntry, if_pos hold]
      rfl
    · rw [if_neg hold] at hget
      rw [readyIndexEntry, if_neg hold, SortedMap.erase_eq_self hget]
      rfl
  rw [replace, hkey, hstored, ← hready]
  unfold removeLeaseOf insertLeaseOf
  cases hlease : leaseEntry codec old <;> cases hlease' : leaseEntry codec new <;>
    simp [commit, write, reindex, hlease, hlease', eraseEntry, insertEntry]

theorem commit_release (hstored : Stored codec s old) (hkey : jobKey codec new = jobKey codec old)
    (hold : old.status = .leased) (hnew : new.status ≠ .leased) :
    s.commit (.insertJob (jobKey codec old) new :: (removeLeaseOf codec old ++ insertReadyOf codec new)) =
      s.replace codec new := by
  have hready : readyIndexEntry codec old = none := if_neg (by rw [hold]; decide)
  have hlease : leaseEntry codec new = none := if_neg hnew
  rw [replace, hkey, hstored]
  unfold removeLeaseOf insertReadyOf
  cases hlease' : leaseEntry codec old <;> cases hready' : readyIndexEntry codec new <;>
    simp [commit, write, reindex, hlease, hlease', hready, hready', eraseEntry, insertEntry]

theorem commit_requeue (hstored : Stored codec s job) (hleased : job.status = .leased) :
    s.commit (removeLeaseOf codec job ++ [.insertJob (jobKey codec job) job.requeued,
      .insertReady (readyEntry codec job).1 (readyEntry codec job).2]) = s.replace codec job.requeued := by
  have hready : readyIndexEntry codec job = none := if_neg (by rw [hleased]; decide)
  have hready' : readyIndexEntry codec job.requeued = some (readyEntry codec job) := if_pos rfl
  have hlease : leaseEntry codec job.requeued = none := if_neg (by simp [QueueJob.requeued])
  have hkey : jobKey codec job.requeued = jobKey codec job := rfl
  rw [replace, hkey, hstored]
  unfold removeLeaseOf
  cases hlease' : leaseEntry codec job <;>
    simp [commit, write, reindex, hlease, hlease', hready, hready', eraseEntry, insertEntry]

theorem commit_push (hfresh : s.queueJobs.get (jobKey codec job) = none) (hlease : leaseEntry codec job = none) :
    s.commit (pushWrites codec job) = s.replace codec job := by
  rw [replace, hfresh]
  unfold pushWrites
  by_cases hready : job.status = .ready
  · simp [commit, write, reindex, hlease, readyIndexEntry, hready, eraseEntry, insertEntry, jobKey]
  · simp [commit, write, reindex, hlease, readyIndexEntry, hready, eraseEntry, insertEntry, jobKey]

@[simp] theorem get_replace_self (s : QueueStore) (job : QueueJob) :
    (s.replace codec job).queueJobs.get (jobKey codec job) = some job := by
  simp [replace]

theorem get_replace_of_ne (s : QueueStore) (h : key ≠ jobKey codec job) :
    (s.replace codec job).queueJobs.get key = s.queueJobs.get key := by
  simp [replace, h]

section Replacements

variable {news : List QueueJob}

theorem Indexed.foldl_replace (h : Indexed naming s) (hnames : ∀ job ∈ news, naming.Names job) :
    Indexed naming (news.foldl (QueueStore.replace codec) s) :=
  List.foldlRecOn news _ h fun _ h job hjob => h.replace (hnames job hjob)

theorem leaseComplete_foldl_replace (h : Indexed naming s)
    (hcomplete : Complete (leaseEntry codec) s.queueJobs s.leaseJobs) (hnames : ∀ job ∈ news, naming.Names job) :
    Complete (leaseEntry codec) (news.foldl (QueueStore.replace codec) s).queueJobs
      (news.foldl (QueueStore.replace codec) s).leaseJobs := by
  induction news generalizing s with
  | nil => exact hcomplete
  | cons job news ih =>
    have hjob := hnames job List.mem_cons_self
    exact ih (h.replace hjob) (leaseComplete_replace h hcomplete hjob)
      fun other hother => hnames other (List.mem_cons_of_mem _ hother)

theorem get_foldl_replace_of_not_mem (h : key ∉ news.map (jobKey codec)) :
    (news.foldl (QueueStore.replace codec) s).queueJobs.get key = s.queueJobs.get key := by
  induction news generalizing s with
  | nil => rfl
  | cons job news ih =>
    rw [List.map_cons, List.mem_cons, not_or] at h
    rw [List.foldl_cons, ih h.2, get_replace_of_ne s h.1]

theorem stored_foldl_replace (hnodup : (news.map (jobKey codec)).Nodup) (hjob : job ∈ news) :
    Stored codec (news.foldl (QueueStore.replace codec) s) job := by
  induction news generalizing s with
  | nil => cases hjob
  | cons first news ih =>
    rw [List.map_cons, List.nodup_cons] at hnodup
    rcases List.mem_cons.mp hjob with rfl | hjob
    · rw [List.foldl_cons, Stored, get_foldl_replace_of_not_mem hnodup.1, get_replace_self]
    · exact ih hnodup.2 hjob

theorem stored_foldl_replace_iff (hnodup : (news.map (jobKey codec)).Nodup) :
    Stored codec (news.foldl (QueueStore.replace codec) s) job ↔
      job ∈ news ∨ (Stored codec s job ∧ jobKey codec job ∉ news.map (jobKey codec)) := by
  by_cases hkey : jobKey codec job ∈ news.map (jobKey codec)
  · obtain ⟨other, hother, heq⟩ := List.mem_map.mp hkey
    have hstored : Stored codec (news.foldl (QueueStore.replace codec) s) other := stored_foldl_replace hnodup hother
    constructor
    · intro hjob
      left
      have hget : (news.foldl (QueueStore.replace codec) s).queueJobs.get (jobKey codec job) = some job := hjob
      rw [← heq] at hget
      rwa [Option.some.inj (hget.symm.trans hstored)]
    · rintro (hjob | ⟨-, hnot⟩)
      · exact stored_foldl_replace hnodup hjob
      · exact absurd hkey hnot
  · rw [Stored, get_foldl_replace_of_not_mem hkey]
    constructor
    · intro hjob
      exact Or.inr ⟨hjob, hkey⟩
    · rintro (hjob | ⟨hjob, -⟩)
      · exact absurd (List.mem_map_of_mem hjob) hkey
      · exact hjob

end Replacements

structure Rewrite where
  old : QueueJob
  new : QueueJob
  writes : List QueueWrite

variable (naming) in
/-- In every indexed state that holds the old record, the writes replace it by the new one. -/
structure Rewrite.Valid (r : Rewrite) : Prop where
  names : naming.Names r.new
  key : jobKey codec r.new = jobKey codec r.old
  commit : ∀ s, Indexed naming s → Stored codec s r.old → s.commit r.writes = s.replace codec r.new

theorem commit_rewrites {rs : List Rewrite} (h : Indexed naming s) (hvalid : ∀ r ∈ rs, r.Valid naming)
    (hstored : ∀ r ∈ rs, Stored codec s r.old) (hnodup : (rs.map fun r => jobKey codec r.old).Nodup) :
    s.commit (rs.flatMap Rewrite.writes) = (rs.map Rewrite.new).foldl (QueueStore.replace codec) s := by
  induction rs generalizing s with
  | nil => rfl
  | cons r rs ih =>
    have hr := hvalid r List.mem_cons_self
    rw [List.map_cons, List.nodup_cons] at hnodup
    rw [List.flatMap_cons, commit_append, hr.commit s h (hstored r List.mem_cons_self)]
    apply ih (h.replace hr.names) (fun other hother => hvalid other (List.mem_cons_of_mem _ hother))
      (fun other hother => ?_) hnodup.2
    have hne : jobKey codec other.old ≠ jobKey codec r.new := by
      rw [hr.key]
      intro heq
      exact hnodup.1 (heq ▸ List.mem_map_of_mem hother)
    rw [Stored, get_replace_of_ne s hne]
    exact hstored other (List.mem_cons_of_mem _ hother)

end QueueStore

end Thingd.Engine
