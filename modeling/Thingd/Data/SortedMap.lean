import Mathlib

namespace Thingd

structure SortedMap (α β : Type) [LinearOrder α] where
  entries : List (α × β)
  sorted : entries.Pairwise (fun x y => x.1 < y.1)

theorem takeWhile_eq_filter {α : Type} {p : α → Bool} {xs : List α}
    (h : xs.Pairwise fun x y => p y = true → p x = true) : xs.takeWhile p = xs.filter p := by
  induction xs with
  | nil => rfl
  | cons x xs ih =>
    obtain ⟨hhead, htail⟩ := List.pairwise_cons.mp h
    cases hx : p x with
    | true => rw [List.takeWhile_cons_of_pos hx, List.filter_cons_of_pos hx, ih htail]
    | false =>
      rw [List.takeWhile_cons_of_neg (by simp [hx]), List.filter_cons_of_neg (by simp [hx])]
      symm
      apply List.filter_eq_nil_iff.mpr
      intro y hy hpy
      rw [hhead y hy hpy] at hx
      cases hx

theorem pairwise_sortBy {α β : Type} [LinearOrder β] (key : α → β) (xs : List α) :
    (xs.insertionSort fun a b => key a ≤ key b).Pairwise fun a b => key a ≤ key b := by
  exact List.pairwise_insertionSort _ _

namespace SortedMap

variable {α β γ : Type} [LinearOrder α] {m n : SortedMap α β} {k k' : α} {v : β} {es : List (α × β)} {x : α × β}

theorem ext_entries (h : m.entries = n.entries) : m = n := by
  cases m; cases n; simp_all

instance [DecidableEq β] : DecidableEq (SortedMap α β) := fun m n =>
  decidable_of_iff (m.entries = n.entries) ⟨ext_entries, fun h => h ▸ rfl⟩

def empty : SortedMap α β := ⟨[], List.Pairwise.nil⟩

instance : Inhabited (SortedMap α β) := ⟨empty⟩

def get (m : SortedMap α β) (k : α) : Option β := (m.entries.find? (fun e => e.1 = k)).map Prod.snd

def keys (m : SortedMap α β) : List α := m.entries.map Prod.fst

def isEmpty (m : SortedMap α β) : Bool := m.entries.isEmpty

def size (m : SortedMap α β) : ℕ := m.entries.length

def insertEntry (k : α) (v : β) : List (α × β) → List (α × β)
  | [] => [(k, v)]
  | e :: es => if k < e.1 then (k, v) :: e :: es else if k = e.1 then (k, v) :: es else e :: insertEntry k v es

theorem mem_insertEntry (h : x ∈ insertEntry k v es) : x = (k, v) ∨ x ∈ es := by
  induction es with
  | nil => simpa [insertEntry] using h
  | cons e es ih =>
    simp only [insertEntry] at h
    split_ifs at h
    · simpa using h
    · rcases List.mem_cons.mp h with h | h
      · exact Or.inl h
      · exact Or.inr (List.mem_cons_of_mem _ h)
    · rcases List.mem_cons.mp h with rfl | h
      · exact Or.inr List.mem_cons_self
      · rcases ih h with h | h
        · exact Or.inl h
        · exact Or.inr (List.mem_cons_of_mem _ h)

theorem insertEntry_sorted (k : α) (v : β) (h : es.Pairwise (fun x y => x.1 < y.1)) :
    (insertEntry k v es).Pairwise (fun x y => x.1 < y.1) := by
  induction es with
  | nil => simp [insertEntry]
  | cons e es ih =>
    obtain ⟨he, hes⟩ := List.pairwise_cons.mp h
    simp only [insertEntry]
    split_ifs with hlt heq
    · refine List.pairwise_cons.mpr ⟨?_, h⟩
      intro x hx
      rcases List.mem_cons.mp hx with rfl | hx
      · exact hlt
      · exact hlt.trans (he x hx)
    · exact List.pairwise_cons.mpr ⟨fun x hx => by simpa [heq] using he x hx, hes⟩
    · refine List.pairwise_cons.mpr ⟨?_, ih hes⟩
      intro x hx
      rcases mem_insertEntry hx with rfl | hx
      · exact lt_of_le_of_ne (not_lt.mp hlt) (Ne.symm heq)
      · exact he x hx

def insert (m : SortedMap α β) (k : α) (v : β) : SortedMap α β :=
  ⟨insertEntry k v m.entries, insertEntry_sorted k v m.sorted⟩

def filter (m : SortedMap α β) (p : α → β → Bool) : SortedMap α β :=
  ⟨m.entries.filter (fun e => p e.1 e.2), m.sorted.filter _⟩

def erase (m : SortedMap α β) (k : α) : SortedMap α β := m.filter (fun k' _ => decide (k' ≠ k))

def mapValues (m : SortedMap α β) (f : β → γ) : SortedMap α γ :=
  ⟨m.entries.map (fun e => (e.1, f e.2)), List.pairwise_map.mpr m.sorted⟩

@[simp] theorem get_empty (k : α) : (empty : SortedMap α β).get k = none := rfl

@[simp] theorem entries_empty : (empty : SortedMap α β).entries = [] := rfl

theorem sorted_unique (h : es.Pairwise (fun x y => x.1 < y.1)) {y : α × β} (hx : x ∈ es) (hy : y ∈ es)
    (hk : x.1 = y.1) : x = y := by
  have hnodup : (es.map Prod.fst).Nodup := List.pairwise_map.mpr (h.imp fun hlt => hlt.ne)
  exact List.inj_on_of_nodup_map hnodup hx hy hk

theorem get_eq_some_iff : m.get k = some v ↔ (k, v) ∈ m.entries := by
  constructor
  · intro h
    obtain ⟨e, he, rfl⟩ := Option.map_eq_some_iff.mp h
    have hk : e.1 = k := by simpa using List.find?_some he
    exact hk ▸ List.mem_of_find?_eq_some he
  · intro h
    cases hf : m.entries.find? (fun e => e.1 = k) with
    | none => exact absurd (decide_eq_true rfl) (List.find?_eq_none.mp hf _ h)
    | some e =>
      have hk : e.1 = k := by simpa using List.find?_some hf
      have he : e = (k, v) := sorted_unique m.sorted (List.mem_of_find?_eq_some hf) h hk
      simp [get, hf, he]

theorem get_cons {e : α × β} (h : (e :: es).Pairwise (fun x y => x.1 < y.1)) (k : α) :
    get ⟨e :: es, h⟩ k = if e.1 = k then some e.2 else get ⟨es, (List.pairwise_cons.mp h).2⟩ k := by
  simp only [get]
  split_ifs with hk <;> simp [hk]

theorem get_eq_none_iff : m.get k = none ↔ ∀ v, (k, v) ∉ m.entries := by
  rw [Option.eq_none_iff_forall_ne_some]
  exact forall_congr' fun v => not_congr get_eq_some_iff

theorem mem_keys : k ∈ m.keys ↔ ∃ v, m.get k = some v := by
  simp [keys, get_eq_some_iff]

theorem keys_sorted (m : SortedMap α β) : m.keys.Pairwise (· < ·) := List.pairwise_map.mpr m.sorted

theorem keys_erase (m : SortedMap α β) (k : α) : (m.erase k).keys = m.keys.filter (fun k' => decide (k' ≠ k)) := by
  rw [keys, keys, List.filter_map]
  rfl

theorem isEmpty_iff : m.isEmpty = true ↔ m = empty := by
  simp only [isEmpty, List.isEmpty_iff]
  exact ⟨fun h => ext_entries h, fun h => h ▸ rfl⟩

theorem eq_empty_iff : m = empty ↔ ∀ k, m.get k = none := by
  constructor
  · rintro rfl k; rfl
  · intro h
    apply ext_entries
    exact List.eq_nil_iff_forall_not_mem.mpr fun e he => get_eq_none_iff.mp (h e.1) e.2 he

theorem eq_of_sorted {fs : List (α × β)} (hes : es.Pairwise (fun x y => x.1 < y.1))
    (hfs : fs.Pairwise (fun x y => x.1 < y.1)) (h : ∀ e, e ∈ es ↔ e ∈ fs) : es = fs := by
  have hnodup {l : List (α × β)} (hl : l.Pairwise (fun x y => x.1 < y.1)) : l.Nodup :=
    hl.imp fun hlt => ne_of_apply_ne Prod.fst hlt.ne
  refine List.Perm.eq_of_pairwise ?_ hes hfs ((List.perm_ext_iff_of_nodup (hnodup hes) (hnodup hfs)).mpr h)
  intro a b _ _ hab hba
  exact absurd (hab.trans hba) (lt_irrefl _)

theorem ext (h : ∀ k, m.get k = n.get k) : m = n := by
  apply ext_entries
  apply eq_of_sorted m.sorted n.sorted
  rintro ⟨k, v⟩
  rw [← get_eq_some_iff, ← get_eq_some_iff, h]

theorem mem_insertEntry_iff (h : es.Pairwise (fun x y => x.1 < y.1)) :
    x ∈ insertEntry k v es ↔ x = (k, v) ∨ (x ∈ es ∧ x.1 ≠ k) := by
  induction es with
  | nil => simp [insertEntry]
  | cons e es ih =>
    obtain ⟨he, hes⟩ := List.pairwise_cons.mp h
    simp only [insertEntry]
    split_ifs with hlt heq
    · have hne : ∀ y ∈ e :: es, y.1 ≠ k := by
        intro y hy
        rcases List.mem_cons.mp hy with rfl | hy
        · exact hlt.ne'
        · exact (hlt.trans (he y hy)).ne'
      simp only [List.mem_cons]
      grind
    · subst heq
      have hne : ∀ y ∈ es, y.1 ≠ e.1 := fun y hy => (he y hy).ne'
      simp only [List.mem_cons]
      grind
    · simp only [List.mem_cons, ih hes]
      grind

@[simp] theorem get_insert (m : SortedMap α β) (k k' : α) (v : β) :
    (m.insert k v).get k' = if k' = k then some v else m.get k' := by
  ext w
  rw [get_eq_some_iff, insert, mem_insertEntry_iff m.sorted]
  by_cases hk : k' = k
  · subst hk; simp [eq_comm]
  · simp [hk, get_eq_some_iff]

@[simp] theorem get_filter (m : SortedMap α β) (p : α → β → Bool) (k : α) :
    (m.filter p).get k = (m.get k).filter (p k) := by
  ext w
  simp [get_eq_some_iff, filter]

@[simp] theorem get_erase (m : SortedMap α β) (k k' : α) : (m.erase k).get k' = if k' = k then none else m.get k' := by
  rw [erase, get_filter]
  by_cases hk : k' = k
  · simp [hk]
  · cases m.get k' <;> simp [hk]

theorem erase_eq_self (h : m.get k = none) : m.erase k = m := by
  apply ext
  intro k'
  rw [get_erase]
  split_ifs with heq
  · rw [heq, h]
  · rfl

theorem get_foldl_erase (ks : List α) (m : SortedMap α β) (k : α) :
    (ks.foldl erase m).get k = if k ∈ ks then none else m.get k := by
  induction ks generalizing m with
  | nil => simp
  | cons first ks ih =>
    rw [List.foldl_cons, ih]
    by_cases hk : k = first <;> simp [hk]

theorem get_foldl_insert_cases {δ : Type} (f : δ → α) (g : δ → β) (l : List δ) (m : SortedMap α β) (k : α) :
    ((∀ x ∈ l, f x ≠ k) ∧ (l.foldl (fun m x => m.insert (f x) (g x)) m).get k = m.get k) ∨
      ∃ x ∈ l, f x = k ∧ (l.foldl (fun m x => m.insert (f x) (g x)) m).get k = some (g x) := by
  induction l generalizing m with
  | nil => simp
  | cons first l ih =>
    rw [List.foldl_cons]
    rcases ih (m.insert (f first) (g first)) with ⟨hnone, hsame⟩ | ⟨x, hx, hk, hsome⟩
    · rw [get_insert] at hsame
      by_cases hk : k = f first
      · exact Or.inr ⟨first, List.mem_cons_self, hk.symm, by simpa [hk] using hsame⟩
      · exact Or.inl ⟨List.forall_mem_cons.mpr ⟨Ne.symm hk, hnone⟩, by simpa [hk] using hsame⟩
    · exact Or.inr ⟨x, List.mem_cons_of_mem _ hx, hk, hsome⟩

theorem entries_nodup (m : SortedMap α β) : m.entries.Nodup := m.sorted.imp fun hlt => ne_of_apply_ne Prod.fst hlt.ne

theorem mem_keys_insert : k' ∈ (m.insert k v).keys ↔ k' = k ∨ k' ∈ m.keys := by
  rw [mem_keys, mem_keys]
  by_cases hk : k' = k
  · simp [hk]
  · simp [hk]

theorem mem_keys_erase : k' ∈ (m.erase k).keys ↔ k' ∈ m.keys ∧ k' ≠ k := by
  rw [mem_keys, mem_keys]
  by_cases hk : k' = k
  · simp [hk]
  · simp [hk]

theorem keys_insert_of_forall_lt (h : ∀ k' ∈ m.keys, k' < k) (v : β) : (m.insert k v).keys = m.keys ++ [k] := by
  have hentries : (m.insert k v).entries = m.entries ++ [(k, v)] := by
    refine eq_of_sorted (m.insert k v).sorted ?_ fun e => ?_
    · refine List.pairwise_append.mpr ⟨m.sorted, List.pairwise_singleton _ _, fun e he last hlast => ?_⟩
      rw [List.mem_singleton.mp hlast]
      exact h e.1 (List.mem_map_of_mem he)
    · rw [insert, mem_insertEntry_iff m.sorted, List.mem_append, List.mem_singleton, or_comm]
      exact or_congr_left (and_iff_left_of_imp fun he => (h e.1 (List.mem_map_of_mem he)).ne)
  rw [keys, hentries, List.map_append]
  rfl

theorem entries_insert_perm (m : SortedMap α β) (k : α) (v : β) :
    (m.insert k v).entries.Perm ((k, v) :: (m.erase k).entries) := by
  have hnot : (k, v) ∉ (m.erase k).entries := by
    rw [← get_eq_some_iff, get_erase, if_pos rfl]
    exact nofun
  rw [List.perm_ext_iff_of_nodup (entries_nodup _) (List.nodup_cons.mpr ⟨hnot, entries_nodup _⟩)]
  rintro ⟨k', v'⟩
  rw [List.mem_cons, ← get_eq_some_iff, ← get_eq_some_iff]
  by_cases hk : k' = k
  · simp [hk, eq_comm]
  · simp [hk]

theorem insert_eq_self (h : m.get k = some v) : m.insert k v = m := by
  apply ext
  intro k'
  rw [get_insert]
  split_ifs with hk
  · rw [hk, h]
  · rfl

section

variable (m : SortedMap α β)

theorem countP_insert (k : α) (v : β) (p : α × β → Bool) :
    (m.insert k v).entries.countP p + (m.get k).elim 0 (fun old => if p (k, old) then 1 else 0) =
      m.entries.countP p + if p (k, v) then 1 else 0 := by
  have hinsert := (entries_insert_perm m k v).countP_eq p
  rw [List.countP_cons] at hinsert
  cases hget : m.get k with
  | none =>
    rw [erase_eq_self hget] at hinsert
    simpa using hinsert
  | some old =>
    have hold := (entries_insert_perm m k old).countP_eq p
    rw [insert_eq_self hget, List.countP_cons] at hold
    dsimp only [Option.elim]
    omega

@[simp] theorem get_mapValues (f : β → γ) (k : α) : (m.mapValues f).get k = (m.get k).map f := by
  ext w
  simp only [get_eq_some_iff, mapValues, List.mem_map, Option.map_eq_some_iff, Prod.mk.injEq]
  constructor
  · rintro ⟨⟨a, b⟩, h, rfl, rfl⟩; exact ⟨b, h, rfl⟩
  · rintro ⟨b, h, rfl⟩; exact ⟨(k, b), h, rfl, rfl⟩

/-- Write the optional values of `updates` over `m`: a present value is inserted, an absent one erased. -/
def applyUpdates (updates : List (α × Option β)) : SortedMap α β :=
  updates.foldl (fun m u => match u.2 with | some v => m.insert u.1 v | none => m.erase u.1) m

theorem get_applyUpdates_cons (u : α × Option β) (us : List (α × Option β)) :
    m.applyUpdates (u :: us) =
      (match u.2 with | some v => m.insert u.1 v | none => m.erase u.1).applyUpdates us := rfl

end

theorem get_applyUpdates_of_not_mem {us : List (α × Option β)} (h : k ∉ us.map Prod.fst) :
    (m.applyUpdates us).get k = m.get k := by
  induction us generalizing m with
  | nil => rfl
  | cons u us ih =>
    simp only [List.map_cons, List.mem_cons, not_or] at h
    rw [get_applyUpdates_cons, ih h.2]
    cases u.2 <;> simp [h.1]

theorem get_applyUpdates (m : SortedMap α β) (d : SortedMap α (Option β)) (k : α) :
    (m.applyUpdates d.entries).get k = (d.get k).getD (m.get k) := by
  obtain ⟨es, hs⟩ := d
  induction es generalizing m with
  | nil => rfl
  | cons e es ih =>
    obtain ⟨he, hes⟩ := List.pairwise_cons.mp hs
    rw [get_applyUpdates_cons]
    by_cases hk : k = e.1
    · have hn : k ∉ es.map Prod.fst := by
        intro hm
        obtain ⟨x, hx, hxk⟩ := List.mem_map.mp hm
        exact (he x hx).ne (by rw [hxk, hk])
      rw [get_applyUpdates_of_not_mem hn]
      have hg : (⟨e :: es, hs⟩ : SortedMap α (Option β)).get k = some e.2 :=
        get_eq_some_iff.mpr (by simp [hk])
      rw [hg, hk]
      cases e.2 <;> simp
    · have hg : (⟨e :: es, hs⟩ : SortedMap α (Option β)).get k = (⟨es, hes⟩ : SortedMap α (Option β)).get k := by
        simp [get, Ne.symm hk]
      rw [ih _ hes, hg]
      cases e.2 <;> simp [hk]

end SortedMap

end Thingd
