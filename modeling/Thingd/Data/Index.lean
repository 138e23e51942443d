import Thingd.Data.SortedMap

namespace Thingd.Index

open SortedMap

variable {κ ι α β : Type} [LinearOrder κ] [LinearOrder ι] {entryOf : α → Option (ι × β)}

def eraseEntry (entry : Option (ι × β)) (index : SortedMap ι β) : SortedMap ι β :=
  match entry with
  | some entry => index.erase entry.1
  | none => index

def insertEntry (entry : Option (ι × β)) (index : SortedMap ι β) : SortedMap ι β :=
  match entry with
  | some entry => index.insert entry.1 entry.2
  | none => index

section Definitions

variable (entryOf)

def Sound (table : SortedMap κ α) (index : SortedMap ι β) : Prop :=
  ∀ i b, index.get i = some b → ∃ key record, table.get key = some record ∧ entryOf record = some (i, b)

def Complete (table : SortedMap κ α) (index : SortedMap ι β) : Prop :=
  ∀ key record i b, table.get key = some record → entryOf record = some (i, b) → index.get i = some b

def Apart (table : SortedMap κ α) : Prop :=
  ∀ key record key' record' i b b', table.get key = some record → entryOf record = some (i, b) →
    table.get key' = some record' → entryOf record' = some (i, b') → key = key'

def reindex (old : Option α) (new : α) (index : SortedMap ι β) : SortedMap ι β :=
  insertEntry (entryOf new) (eraseEntry (old.bind entryOf) index)

def build (table : SortedMap κ α) : SortedMap ι β :=
  table.entries.foldl (fun index row => insertEntry (entryOf row.2) index) SortedMap.empty

end Definitions

variable {entry : Option (ι × β)} {i : ι} {b : β} {rows : List (κ × α)}

theorem get_eraseEntry_of_eq (h : entry = some (i, b)) (index : SortedMap ι β) :
    (eraseEntry entry index).get i = none := by
  subst h
  simp [eraseEntry]

theorem get_eraseEntry_of_ne (h : ∀ b, entry ≠ some (i, b)) (index : SortedMap ι β) :
    (eraseEntry entry index).get i = index.get i := by
  unfold eraseEntry
  cases entry with
  | none => rfl
  | some entry =>
    have hne : i ≠ entry.1 := fun heq => h entry.2 (by rw [heq])
    simp [hne]

theorem get_insertEntry_of_eq (h : entry = some (i, b)) (index : SortedMap ι β) :
    (insertEntry entry index).get i = some b := by
  subst h
  simp [insertEntry]

theorem get_insertEntry_of_ne (h : ∀ b, entry ≠ some (i, b)) (index : SortedMap ι β) :
    (insertEntry entry index).get i = index.get i := by
  unfold insertEntry
  cases entry with
  | none => rfl
  | some entry =>
    have hne : i ≠ entry.1 := fun heq => h entry.2 (by rw [heq])
    simp [hne]

section Replace

variable {table : SortedMap κ α} {index : SortedMap ι β} {key : κ} {new : α}

theorem Sound.replace (h : Sound entryOf table index) :
    Sound entryOf (table.insert key new) (reindex entryOf (table.get key) new index) := by
  intro i b hget
  by_cases hnew : ∃ c, entryOf new = some (i, c)
  · obtain ⟨c, hc⟩ := hnew
    rw [reindex, get_insertEntry_of_eq hc] at hget
    cases hget
    exact ⟨key, new, by simp, hc⟩
  · rw [reindex, get_insertEntry_of_ne fun c hc => hnew ⟨c, hc⟩] at hget
    by_cases hold : ∃ c, (table.get key).bind entryOf = some (i, c)
    · obtain ⟨c, hc⟩ := hold
      rw [get_eraseEntry_of_eq hc] at hget
      cases hget
    · rw [get_eraseEntry_of_ne fun c hc => hold ⟨c, hc⟩] at hget
      obtain ⟨key', record, hrecord, hentry⟩ := h i b hget
      refine ⟨key', record, ?_, hentry⟩
      rw [get_insert, if_neg, hrecord]
      rintro rfl
      exact hold ⟨b, by rw [hrecord]; exact hentry⟩

theorem Complete.replace (h : Complete entryOf table index) (hapart : Apart entryOf table)
    (hapart' : Apart entryOf (table.insert key new)) :
    Complete entryOf (table.insert key new) (reindex entryOf (table.get key) new index) := by
  intro key' record i b hget hentry
  by_cases hkey : key' = key
  · subst hkey
    rw [get_insert, if_pos rfl] at hget
    cases hget
    exact get_insertEntry_of_eq hentry _
  · have hnew : ∀ c, entryOf new ≠ some (i, c) := fun c hc =>
      hkey (hapart' key' record key new i b c hget hentry (by simp) hc)
    rw [get_insert, if_neg hkey] at hget
    have hold : ∀ c, (table.get key).bind entryOf ≠ some (i, c) := by
      intro c hc
      obtain ⟨old, hold, hc⟩ := Option.bind_eq_some_iff.mp hc
      exact hkey (hapart key' record key old i b c hget hentry hold hc)
    rw [reindex, get_insertEntry_of_ne hnew, get_eraseEntry_of_ne hold]
    exact h key' record i b hget hentry

end Replace

theorem eq_of_exact {table : SortedMap κ α} {index other : SortedMap ι β} (hsound : Sound entryOf table index)
    (hcomplete : Complete entryOf table index) (hsound' : Sound entryOf table other)
    (hcomplete' : Complete entryOf table other) : index = other := by
  apply SortedMap.ext
  intro i
  ext b
  constructor
  · intro hget
    obtain ⟨key, record, hrecord, hentry⟩ := hsound i b hget
    exact hcomplete' key record i b hrecord hentry
  · intro hget
    obtain ⟨key, record, hrecord, hentry⟩ := hsound' i b hget
    exact hcomplete key record i b hrecord hentry

omit [LinearOrder κ] in
theorem get_foldl_insertEntry {index : SortedMap ι β}
    (h : (rows.foldl (fun index row => insertEntry (entryOf row.2) index) index).get i = some b) :
    (∃ row ∈ rows, entryOf row.2 = some (i, b)) ∨ index.get i = some b := by
  induction rows generalizing index with
  | nil => exact Or.inr h
  | cons row rows ih =>
    rcases ih h with ⟨other, hother, hentry⟩ | hget
    · exact Or.inl ⟨other, List.mem_cons_of_mem _ hother, hentry⟩
    · by_cases hnew : ∃ c, entryOf row.2 = some (i, c)
      · obtain ⟨c, hc⟩ := hnew
        rw [get_insertEntry_of_eq hc] at hget
        cases hget
        exact Or.inl ⟨row, List.mem_cons_self, hc⟩
      · rw [get_insertEntry_of_ne fun c hc => hnew ⟨c, hc⟩] at hget
        exact Or.inr hget

theorem build_sound (table : SortedMap κ α) : Sound entryOf table (build entryOf table) := by
  intro i b hget
  rcases get_foldl_insertEntry hget with ⟨row, hrow, hentry⟩ | hempty
  · exact ⟨row.1, row.2, get_eq_some_iff.mpr hrow, hentry⟩
  · cases hempty

omit [LinearOrder κ] in
theorem isSome_foldl_insertEntry {index : SortedMap ι β}
    (h : (index.get i).isSome = true ∨ ∃ row ∈ rows, ∃ b, entryOf row.2 = some (i, b)) :
    ((rows.foldl (fun index row => insertEntry (entryOf row.2) index) index).get i).isSome = true := by
  induction rows generalizing index with
  | nil => simpa using h
  | cons row rows ih =>
    apply ih
    by_cases hnew : ∃ c, entryOf row.2 = some (i, c)
    · obtain ⟨c, hc⟩ := hnew
      left
      rw [get_insertEntry_of_eq hc]
      rfl
    · rw [get_insertEntry_of_ne fun c hc => hnew ⟨c, hc⟩]
      rcases h with hindex | ⟨other, hother, b, hentry⟩
      · exact Or.inl hindex
      · rcases List.mem_cons.mp hother with rfl | hother
        · exact absurd ⟨b, hentry⟩ hnew
        · exact Or.inr ⟨other, hother, b, hentry⟩

theorem build_complete {table : SortedMap κ α} (hapart : Apart entryOf table) :
    Complete entryOf table (build entryOf table) := by
  intro key record i b hget hentry
  have hsome : ((build entryOf table).get i).isSome = true :=
    isSome_foldl_insertEntry (Or.inr ⟨(key, record), get_eq_some_iff.mp hget, b, hentry⟩)
  obtain ⟨c, hc⟩ := Option.isSome_iff_exists.mp hsome
  obtain ⟨key', record', hget', hentry'⟩ := build_sound table i c hc
  obtain rfl : key = key' := hapart key record key' record' i b c hget hentry hget' hentry'
  cases Option.some.inj (hget.symm.trans hget')
  cases Option.some.inj (hentry.symm.trans hentry')
  exact hc

end Thingd.Index
