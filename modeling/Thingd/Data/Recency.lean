import Mathlib

namespace Thingd.Recency

structure Kept (κ β : Type) where
  key : κ
  value : β
  deadline : ℕ

section Evict

variable {α γ : Type}

def evict (full : List α → Bool) : List α → List α
  | [] => []
  | first :: rest => if full (first :: rest) then evict full rest else first :: rest

theorem evict_suffix (full : List α → Bool) (xs : List α) : evict full xs <:+ xs := by
  induction xs with
  | nil => exact List.suffix_rfl
  | cons first rest ih =>
    rw [evict]
    split_ifs
    · exact ih.trans (List.suffix_cons first rest)
    · exact List.suffix_rfl

theorem getLast_mem_evict {full : List α → Bool} {last : α} (hlast : full [last] = false) (xs : List α) :
    last ∈ evict full (xs ++ [last]) := by
  induction xs with
  | nil => simp [evict, hlast]
  | cons first rest ih =>
    rw [List.cons_append, evict]
    split_ifs
    · exact ih
    · simp

theorem map_evict {full : List γ → Bool} (f : α → γ) (xs : List α) :
    (evict (fun xs => full (xs.map f)) xs).map f = evict full (xs.map f) := by
  induction xs with
  | nil => rfl
  | cons first rest ih =>
    rw [List.map_cons, evict, evict, List.map_cons]
    split_ifs
    · exact ih
    · rfl

end Evict

variable {κ β : Type} [DecidableEq κ]

def live (now : ℕ) (kept : List (Kept κ β)) : List (Kept κ β) := kept.filter fun k => decide (now < k.deadline)

def without (key : κ) (kept : List (Kept κ β)) : List (Kept κ β) := kept.filter fun k => decide (k.key ≠ key)

def find (key : κ) (kept : List (Kept κ β)) : Option (Kept κ β) := kept.find? fun k => decide (k.key = key)

def lookup (now : ℕ) (key : κ) (kept : List (Kept κ β)) : Option β := (find key (live now kept)).map Kept.value

def read (now : ℕ) (key : κ) (kept : List (Kept κ β)) : List (Kept κ β) :=
  match find key (live now kept) with
  | some k => without key (live now kept) ++ [k]
  | none => live now kept

def put (full : List (Kept κ β) → Bool) (now : ℕ) (k : Kept κ β) (kept : List (Kept κ β)) : List (Kept κ β) :=
  evict full (without k.key (live now kept) ++ [k])

def remove (now : ℕ) (key : κ) (kept : List (Kept κ β)) : List (Kept κ β) := without key (live now kept)

section Lemmas

variable {kept : List (Kept κ β)} {key : κ} {now later : ℕ}

omit [DecidableEq κ] in
theorem live_live (h : now ≤ later) (kept : List (Kept κ β)) : live later (live now kept) = live later kept := by
  rw [live, live, live, List.filter_filter]
  apply List.filter_congr
  intro k _
  have himp : later < k.deadline → now < k.deadline := fun hlt => h.trans_lt hlt
  simpa using himp

omit [DecidableEq κ] in
theorem live_append (kept more : List (Kept κ β)) : live now (kept ++ more) = live now kept ++ live now more :=
  List.filter_append ..

theorem live_without (kept : List (Kept κ β)) : live now (without key kept) = without key (live now kept) :=
  List.filter_comm ..

theorem without_eq_self (h : find key kept = none) : without key kept = kept := by
  apply List.filter_eq_self.mpr
  intro k hk
  have hne := List.find?_eq_none.mp h k hk
  simpa using hne

variable {k : Kept κ β}

theorem find_eq_some_iff (hnodup : (kept.map Kept.key).Nodup) : find key kept = some k ↔ k ∈ kept ∧ k.key = key := by
  constructor
  · intro h
    exact ⟨List.mem_of_find?_eq_some h, by simpa using List.find?_some h⟩
  · rintro ⟨hmem, rfl⟩
    cases hfind : find k.key kept with
    | none =>
      have hne := List.find?_eq_none.mp hfind k hmem
      simp at hne
    | some found =>
      have hkey : found.key = k.key := by simpa using List.find?_some hfind
      rw [List.inj_on_of_nodup_map hnodup (List.mem_of_find?_eq_some hfind) hmem hkey]

theorem find_live_eq_some_iff (hnodup : (kept.map Kept.key).Nodup) :
    find key (live now kept) = some k ↔ k ∈ kept ∧ now < k.deadline ∧ k.key = key := by
  have hlive : ((live now kept).map Kept.key).Nodup := hnodup.sublist (List.filter_sublist.map Kept.key)
  rw [find_eq_some_iff hlive, live, List.mem_filter, decide_eq_true_eq, and_assoc]

theorem lookup_put {full : List (Kept κ β) → Bool} (hfull : full [k] = false) (hlive : now < k.deadline)
    (kept : List (Kept κ β)) : lookup now k.key (put full now k kept) = some k.value := by
  have hmem : k ∈ live now (put full now k kept) :=
    List.mem_filter.mpr ⟨getLast_mem_evict hfull _, decide_eq_true hlive⟩
  rw [lookup]
  cases hfind : find k.key (live now (put full now k kept)) with
  | none =>
    have hne := List.find?_eq_none.mp hfind k hmem
    simp at hne
  | some found =>
    have hkey : found.key = k.key := by simpa using List.find?_some hfind
    have hput : found ∈ put full now k kept := (List.mem_filter.mp (List.mem_of_find?_eq_some hfind)).1
    rcases List.mem_append.mp ((evict_suffix full _).subset hput) with hold | hnew
    · exact absurd hkey (of_decide_eq_true (List.mem_filter.mp hold).2)
    · rw [List.mem_singleton.mp hnew]
      rfl

theorem lookup_congr {other : List (Kept κ β)} (h : live now kept = live now other) (hle : now ≤ later) (key : κ) :
    lookup later key kept = lookup later key other := by
  rw [lookup, lookup, ← live_live hle kept, h, live_live hle]

end Lemmas

end Thingd.Recency
