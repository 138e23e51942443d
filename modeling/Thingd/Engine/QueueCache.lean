import Thingd.Engine.Queue

namespace Thingd.Engine.Queues

variable {s : Queues} {queue : Bytes} {other : Bytes}

section Counters

section

variable (s queue)

theorem store_applyQueueLeaseDelta (removed added : ℕ) :
    (s.applyQueueLeaseDelta queue removed added).store = s.store ∧
      (s.applyQueueLeaseDelta queue removed added).leaseExpirations = s.leaseExpirations ∧
      (s.applyQueueLeaseDelta queue removed added).readyCursors = s.readyCursors := by
  unfold applyQueueLeaseDelta
  dsimp only
  split_ifs <;> exact ⟨rfl, rfl, rfl⟩

theorem store_applyQueueLeaseExpirationDelta (removed added : List Millis) :
    (s.applyQueueLeaseExpirationDelta queue removed added).store = s.store ∧
      (s.applyQueueLeaseExpirationDelta queue removed added).readyCursors = s.readyCursors := by
  unfold applyQueueLeaseExpirationDelta
  dsimp only
  split_ifs <;> exact ⟨rfl, rfl⟩

def leaseCountOf : ℕ := (s.leaseCounts.get queue).getD 0

theorem leaseCountOf_delta (removed added : ℕ) :
    (s.applyQueueLeaseDelta queue removed added).leaseCountOf queue = s.leaseCountOf queue - removed + added := by
  unfold applyQueueLeaseDelta leaseCountOf
  dsimp only
  split_ifs with hnone hzero
  · rw [hnone.1, hnone.2, Nat.sub_zero, Nat.add_zero]
  · simp [hzero]
  · simp

end

theorem leaseCountOf_delta_of_ne (hne : other ≠ queue) (s : Queues) (removed added : ℕ) :
    (s.applyQueueLeaseDelta queue removed added).leaseCountOf other = s.leaseCountOf other := by
  unfold applyQueueLeaseDelta leaseCountOf
  dsimp only
  split_ifs <;> simp [hne]

theorem leaseCounts_applyQueueLeaseExpirationDelta (s : Queues) (queue : Bytes) (removed added : List Millis) :
    (s.applyQueueLeaseExpirationDelta queue removed added).leaseCounts = s.leaseCounts := by
  unfold applyQueueLeaseExpirationDelta
  dsimp only
  split_ifs <;> rfl

theorem leaseCountOf_deltas (s : Queues) (queue : Bytes) (removed added : ℕ) (expired given : List Millis) :
    ((s.applyQueueLeaseDelta queue removed added).applyQueueLeaseExpirationDelta queue expired given).leaseCountOf
      queue =
      s.leaseCountOf queue - removed + added := by
  rw [leaseCountOf, leaseCounts_applyQueueLeaseExpirationDelta, ← leaseCountOf, leaseCountOf_delta]

theorem leaseCountOf_deltas_of_ne (hne : other ≠ queue) (s : Queues) (removed added : ℕ) (expired given : List Millis) :
    ((s.applyQueueLeaseDelta queue removed added).applyQueueLeaseExpirationDelta queue expired given).leaseCountOf
      other =
      s.leaseCountOf other := by
  rw [leaseCountOf, leaseCounts_applyQueueLeaseExpirationDelta, ← leaseCountOf, leaseCountOf_delta_of_ne hne]

def countOf (expirations : SortedMap Millis ℕ) (expiry : Millis) : ℕ := (expirations.get expiry).getD 0

def expirationCount (s : Queues) (queue : Bytes) (expiry : Millis) : ℕ :=
  countOf ((s.leaseExpirations.get queue).getD SortedMap.empty) expiry

theorem countOf_removeExpiration (expirations : SortedMap Millis ℕ) (expiry other : Millis) :
    countOf (removeExpiration expirations expiry) other = countOf expirations other - [expiry].count other := by
  unfold removeExpiration countOf
  by_cases heq : other = expiry
  · subst heq
    cases hget : expirations.get other with
    | none => simp [hget]
    | some count =>
      dsimp only
      split_ifs with hzero
      · simp [hzero]
      · simp
  · have hcount : [expiry].count other = 0 := List.count_eq_zero.mpr (by simpa using heq)
    cases expirations.get expiry with
    | none => rw [hcount, Nat.sub_zero]
    | some count =>
      dsimp only
      split_ifs <;> simp [heq, hcount]

theorem countOf_addExpiration (expirations : SortedMap Millis ℕ) (expiry other : Millis) :
    countOf (addExpiration expirations expiry) other = countOf expirations other + [expiry].count other := by
  unfold addExpiration countOf
  by_cases heq : other = expiry
  · subst heq
    simp
  · have hcount : [expiry].count other = 0 := List.count_eq_zero.mpr (by simpa using heq)
    simp [heq, hcount]

theorem countOf_foldl_removeExpiration (removed : List Millis) (expirations : SortedMap Millis ℕ) (expiry : Millis) :
    countOf (removed.foldl removeExpiration expirations) expiry =
      countOf expirations expiry - removed.count expiry := by
  induction removed generalizing expirations with
  | nil => simp
  | cons first removed ih =>
    have hcount : (first :: removed).count expiry = [first].count expiry + removed.count expiry := by
      rw [← List.count_append]
      rfl
    rw [List.foldl_cons, ih, countOf_removeExpiration, hcount, Nat.sub_sub]

theorem countOf_foldl_addExpiration (added : List Millis) (expirations : SortedMap Millis ℕ) (expiry : Millis) :
    countOf (added.foldl addExpiration expirations) expiry = countOf expirations expiry + added.count expiry := by
  induction added generalizing expirations with
  | nil => simp
  | cons first added ih =>
    have hcount : (first :: added).count expiry = [first].count expiry + added.count expiry := by
      rw [← List.count_append]
      rfl
    rw [List.foldl_cons, ih, countOf_addExpiration, hcount, Nat.add_assoc]

theorem expirationCount_delta (s : Queues) (queue : Bytes) (removed added : List Millis) (expiry : Millis) :
    expirationCount (s.applyQueueLeaseExpirationDelta queue removed added) queue expiry =
      expirationCount s queue expiry - removed.count expiry + added.count expiry := by
  have hfold := countOf_foldl_addExpiration added
    (removed.foldl removeExpiration ((s.leaseExpirations.get queue).getD SortedMap.empty)) expiry
  rw [countOf_foldl_removeExpiration] at hfold
  unfold applyQueueLeaseExpirationDelta
  dsimp only
  split_ifs with hnone hempty
  · obtain ⟨hremoved, hadded⟩ := Bool.and_eq_true_iff.mp hnone
    rw [List.isEmpty_iff.mp hremoved, List.isEmpty_iff.mp hadded]
    simp
  · rw [SortedMap.isEmpty_iff.mp hempty] at hfold
    simpa [expirationCount] using hfold
  · simpa [expirationCount] using hfold

theorem expirationCount_delta_of_ne (hne : other ≠ queue) (s : Queues) (removed added : List Millis) (expiry : Millis) :
    expirationCount (s.applyQueueLeaseExpirationDelta queue removed added) other expiry =
      expirationCount s other expiry := by
  unfold applyQueueLeaseExpirationDelta expirationCount
  dsimp only
  split_ifs <;> simp [hne]

theorem hasExpiredLeases_of_count {now expiry : Millis} (hcount : 0 < s.expirationCount queue expiry)
    (hle : expiry ≤ now) : s.queueHasExpiredLeases queue now = true := by
  unfold expirationCount countOf at hcount
  cases hmap : s.leaseExpirations.get queue with
  | none => simp [hmap] at hcount
  | some expirations =>
    cases hget : expirations.get expiry with
    | none => simp [hmap, hget] at hcount
    | some count =>
      have hmem := SortedMap.get_eq_some_iff.mp hget
      obtain ⟨entries, hsorted⟩ := expirations
      cases entries with
      | nil => cases hmem
      | cons first entries =>
        have hfirst : first.1 ≤ expiry := by
          rcases List.mem_cons.mp hmem with rfl | hmem
          · exact le_rfl
          · exact ((List.pairwise_cons.mp hsorted).1 _ hmem).le
        simp [queueHasExpiredLeases, hmap, le_trans hfirst hle]

end Counters

section Cursors

structure IsFirst (P : Bytes × Bytes → Prop) (cursor : Option (Bytes × Bytes)) : Prop where
  mem : ∀ entry, cursor = some entry → P entry
  least : ∀ entry, P entry → ∃ first, cursor = some first ∧ first.1 ≤ entry.1

variable {P : Bytes × Bytes → Prop} {cursor : Option (Bytes × Bytes)} {Q : Bytes × Bytes → Prop}
  {entries : List (Bytes × Bytes)}

section

variable (h : IsFirst P cursor)
include h

theorem IsFirst.congr (hiff : ∀ entry, P entry ↔ Q entry) : IsFirst Q cursor :=
  ⟨fun entry hentry => (hiff entry).mp (h.mem entry hentry),
    fun entry hentry => h.least entry ((hiff entry).mpr hentry)⟩

theorem IsFirst.extend (hsub : ∀ entry, P entry → Q entry)
    (hbefore : ∀ entry, Q entry → ∃ other, P other ∧ other.1 ≤ entry.1) : IsFirst Q cursor := by
  refine ⟨fun entry hentry => hsub entry (h.mem entry hentry), fun entry hentry => ?_⟩
  obtain ⟨other, hother, hle⟩ := hbefore entry hentry
  obtain ⟨first, hfirst, hle'⟩ := h.least other hother
  exact ⟨first, hfirst, hle'.trans hle⟩

theorem IsFirst.leastCursor (added : Bytes × Bytes) :
    IsFirst (fun entry => P entry ∨ entry = added) (leastCursor cursor added) := by
  unfold Queues.leastCursor
  split_ifs with hall
  · constructor
    · intro entry hentry
      exact Or.inr (Option.some.inj hentry).symm
    · rintro entry (hentry | rfl)
      · obtain ⟨first, rfl, hle⟩ := h.least entry hentry
        exact ⟨added, rfl, le_trans (le_of_lt (of_decide_eq_true hall)) hle⟩
      · exact ⟨entry, rfl, le_rfl⟩
  · constructor
    · intro entry hentry
      exact Or.inl (h.mem entry hentry)
    · rintro entry (hentry | rfl)
      · exact h.least entry hentry
      · cases cursor with
        | none => simp at hall
        | some first => exact ⟨first, rfl, not_lt.mp fun hlt => hall (decide_eq_true hlt)⟩

theorem IsFirst.foldl_leastCursor (added : List (Bytes × Bytes)) :
    IsFirst (fun entry => P entry ∨ entry ∈ added) (added.foldl Queues.leastCursor cursor) := by
  induction added generalizing P cursor with
  | nil => exact h.congr fun entry => by simp
  | cons first added ih =>
    refine (ih (h.leastCursor first)).congr fun entry => ?_
    rw [List.mem_cons, or_assoc]

end

theorem isFirst_head? (hsorted : entries.Pairwise fun x y => x.1 < y.1) : IsFirst (· ∈ entries) entries.head? := by
  cases entries with
  | nil => exact ⟨nofun, nofun⟩
  | cons first entries =>
    constructor
    · intro entry hentry
      cases hentry
      exact List.mem_cons_self
    · intro entry hentry
      refine ⟨first, rfl, ?_⟩
      rcases List.mem_cons.mp hentry with rfl | hentry
      · exact le_rfl
      · exact ((List.pairwise_cons.mp hsorted).1 entry hentry).le

theorem IsFirst.eq_head? (hsorted : entries.Pairwise fun x y => x.1 < y.1) (h : IsFirst (· ∈ entries) cursor) :
    cursor = entries.head? := by
  have hhead := isFirst_head? hsorted
  cases hentries : entries.head? with
  | none =>
    cases cursor with
    | none => rfl
    | some entry =>
      obtain ⟨first, hfirst, -⟩ := hhead.least entry (h.mem entry rfl)
      rw [hentries] at hfirst
      cases hfirst
  | some first =>
    obtain ⟨entry, rfl, hle⟩ := h.least first (hhead.mem first hentries)
    obtain ⟨first', hfirst', hle'⟩ := hhead.least entry (h.mem entry rfl)
    cases Option.some.inj (hentries.symm.trans hfirst')
    rw [SortedMap.sorted_unique hsorted (h.mem entry rfl) (hhead.mem first hentries) (le_antisymm hle hle')]

def cacheReady (s : Queues) (queue : Bytes) (entries : List (Bytes × Bytes)) : Queues :=
  entries.foldl (fun s entry => s.cacheQueueReadyMin queue entry.1 entry.2) s

theorem get_cacheQueueReadyMin (s : Queues) (queue : Bytes) (entry : Bytes × Bytes) :
    (s.cacheQueueReadyMin queue entry.1 entry.2).readyCursors.get queue =
      (s.readyCursors.get queue).map fun cursor => leastCursor cursor entry := by
  unfold cacheQueueReadyMin leastCursor
  cases hget : s.readyCursors.get queue with
  | none => exact hget
  | some cursor =>
    dsimp only
    split_ifs with hall
    · simp [setCursor, hall]
    · simp [hget, hall]

theorem get_cacheQueueReadyMin_of_ne (hne : other ≠ queue) (s : Queues) (key value : Bytes) :
    (s.cacheQueueReadyMin queue key value).readyCursors.get other = s.readyCursors.get other := by
  unfold cacheQueueReadyMin
  cases s.readyCursors.get queue with
  | none => rfl
  | some cursor =>
    dsimp only
    split_ifs
    · simp [setCursor, hne]
    · rfl

section

variable (s queue)

theorem store_cacheQueueReadyMin (key value : Bytes) :
    (s.cacheQueueReadyMin queue key value).store = s.store ∧
      (s.cacheQueueReadyMin queue key value).leaseExpirations = s.leaseExpirations := by
  unfold cacheQueueReadyMin
  cases s.readyCursors.get queue with
  | none => exact ⟨rfl, rfl⟩
  | some cursor =>
    dsimp only
    split_ifs <;> exact ⟨rfl, rfl⟩

theorem leaseCounts_cacheQueueReadyMin (key value : Bytes) :
    (s.cacheQueueReadyMin queue key value).leaseCounts = s.leaseCounts := by
  unfold cacheQueueReadyMin
  cases s.readyCursors.get queue with
  | none => rfl
  | some cursor =>
    dsimp only
    split_ifs <;> rfl

end

end Cursors

end Thingd.Engine.Queues
