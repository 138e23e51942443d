import Mathlib

namespace Thingd.Keyed

variable {δ κ : Type} [DecidableEq κ] (key : δ → κ) {docs more : List δ} {k other : κ} {doc : δ}

def under (docs : List δ) (k : κ) : List δ := docs.filter fun doc => key doc = k

def without (docs : List δ) (k : κ) : List δ := docs.filter fun doc => key doc ≠ k

@[simp] theorem under_append :
    under key (docs ++ more) k = under key docs k ++ under key more k := List.filter_append _ _

theorem under_singleton : under key [doc] k = if key doc = k then [doc] else [] := by
  by_cases h : key doc = k <;> simp [under, h]

theorem mem_under : doc ∈ under key docs k ↔ doc ∈ docs ∧ key doc = k := by simp [under]

theorem under_without : under key (without key docs k) other = if other = k then [] else under key docs other := by
  rw [under, without, List.filter_filter]
  split_ifs with h
  · subst h
    simp
  · apply List.filter_congr
    intro doc _
    by_cases hdoc : key doc = other
    · simp [hdoc, h]
    · simp [hdoc]

theorem under_eq_nil_iff : under key docs k = [] ↔ ∀ doc ∈ docs, key doc ≠ k := by simp [under]

theorem perm_iff_under [DecidableEq δ] : docs.Perm more ↔ ∀ k, (under key docs k).Perm (under key more k) := by
  constructor
  · exact fun h k => h.filter _
  · intro h
    apply List.perm_iff_count.mpr
    intro doc
    have hcount (list : List δ) : (under key list (key doc)).count doc = list.count doc :=
      List.count_filter (by simp)
    rw [← hcount docs, ← hcount more]
    exact (h (key doc)).count_eq doc

section Fold

variable {ε : Type}

structure Local (target : ε → κ) (effect : ε → List δ → List δ) (f : List δ → ε → List δ) (items : List ε) : Prop where
  others : ∀ item ∈ items, ∀ docs k, k ≠ target item → under key (f docs item) k = under key docs k
  own : ∀ item ∈ items, ∀ docs, under key (f docs item) (target item) = effect item (under key docs (target item))

variable {key} {target : ε → κ} {effect : ε → List δ → List δ} {f : List δ → ε → List δ} {items : List ε} {item : ε}

theorem Local.tail (h : Local key target effect f (item :: items)) : Local key target effect f items :=
  ⟨fun other hother => h.others other (List.mem_cons_of_mem _ hother),
    fun other hother => h.own other (List.mem_cons_of_mem _ hother)⟩

theorem Local.under_foldl_of_ne (h : Local key target effect f items) (hk : ∀ item ∈ items, target item ≠ k)
    (docs : List δ) : under key (items.foldl f docs) k = under key docs k := by
  induction items generalizing docs with
  | nil => rfl
  | cons item items ih =>
    obtain ⟨hitem, hrest⟩ := List.forall_mem_cons.mp hk
    rw [List.foldl_cons, ih h.tail hrest, h.others item List.mem_cons_self docs k (Ne.symm hitem)]

theorem Local.under_foldl (h : Local key target effect f items) (hnodup : (items.map target).Nodup)
    (hitem : item ∈ items) (docs : List δ) :
    under key (items.foldl f docs) (target item) = effect item (under key docs (target item)) := by
  induction items generalizing docs with
  | nil => cases hitem
  | cons first items ih =>
    obtain ⟨hfirst, hrest⟩ := List.nodup_cons.mp hnodup
    rw [List.foldl_cons]
    rcases List.mem_cons.mp hitem with rfl | hitem
    · have hlater : ∀ later ∈ items, target later ≠ target item :=
        fun later hlater heq => hfirst (heq ▸ List.mem_map_of_mem hlater)
      rw [h.tail.under_foldl_of_ne hlater, h.own item List.mem_cons_self]
    · have hne : target item ≠ target first := fun heq => hfirst (heq ▸ List.mem_map_of_mem hitem)
      rw [ih h.tail hrest hitem, h.others first List.mem_cons_self docs _ hne]

end Fold

end Thingd.Keyed
