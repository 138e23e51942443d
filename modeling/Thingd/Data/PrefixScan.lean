import Thingd.Data.SortedMap
import Thingd.Data.Bytes

namespace Thingd.SortedMap

variable {β : Type}

def withPrefix (map : SortedMap Bytes β) (keyPrefix : Bytes) : List (Bytes × β) :=
  map.entries.filter fun entry => keyPrefix.isPrefixOf entry.1

def after (entries : List (Bytes × β)) (key : Option Bytes) : List (Bytes × β) :=
  entries.filter fun entry => key.all (· < entry.1)

def prefixPageAfter (map : SortedMap Bytes β) (keyPrefix : Bytes) (afterKey : Option Bytes) (limit : ℕ) :
    List (Bytes × β) :=
  (after (map.withPrefix keyPrefix) afterKey).take limit

def firstPrefixAfter (map : SortedMap Bytes β) (keyPrefix : Bytes) (afterKey : Option Bytes) : Option (Bytes × β) :=
  (after (map.withPrefix keyPrefix) afterKey).head?

variable {entry : Bytes × β} {entries before rest : List (Bytes × β)}

theorem mem_withPrefix {map : SortedMap Bytes β} {keyPrefix : Bytes} :
    entry ∈ map.withPrefix keyPrefix ↔ map.get entry.1 = some entry.2 ∧ keyPrefix <+: entry.1 := by
  rw [withPrefix, List.mem_filter, get_eq_some_iff, List.isPrefixOf_iff_prefix]

theorem withPrefix_sorted (map : SortedMap Bytes β) (keyPrefix : Bytes) :
    (map.withPrefix keyPrefix).Pairwise fun x y => x.1 < y.1 := map.sorted.filter _

@[simp] theorem after_none (entries : List (Bytes × β)) : after entries none = entries := by
  simp [after]

theorem after_cons_self (h : (entry :: entries).Pairwise fun x y => x.1 < y.1) :
    after (entry :: entries) (some entry.1) = entries := by
  obtain ⟨hfirst, -⟩ := List.pairwise_cons.mp h
  rw [after, List.filter_cons_of_neg (by simp)]
  apply List.filter_eq_self.mpr
  intro other hother
  simpa using hfirst other hother

theorem after_of_append (h : (before ++ entry :: rest).Pairwise fun x y => x.1 < y.1) :
    after (before ++ entry :: rest) (some entry.1) = rest := by
  obtain ⟨-, hrest, hbefore⟩ := List.pairwise_append.mp h
  have hnone : before.filter (fun other => (some entry.1).all (· < other.1)) = [] := by
    apply List.filter_eq_nil_iff.mpr
    intro other hother
    simpa using (hbefore other hother entry List.mem_cons_self).le
  have hself := after_cons_self hrest
  rw [after] at hself ⊢
  rw [List.filter_append, hnone, hself]
  rfl

theorem after_after {key : Option Bytes} {last : Bytes} (h : key.all (· < last) = true) :
    after (after entries key) (some last) = after entries (some last) := by
  rw [after, after, List.filter_filter, after]
  apply List.filter_congr
  intro entry _
  cases key with
  | none => simp
  | some key =>
    have hlt : key < last := by simpa using h
    simpa using fun hentry => hlt.trans hentry

theorem firstPrefixAfter_none (map : SortedMap Bytes β) (keyPrefix : Bytes) :
    map.firstPrefixAfter keyPrefix none = (map.withPrefix keyPrefix).head? := by
  rw [firstPrefixAfter, after_none]

theorem firstPrefixAfter_of_append {map : SortedMap Bytes β} {keyPrefix : Bytes}
    (h : map.withPrefix keyPrefix = before ++ entry :: rest) :
    map.firstPrefixAfter keyPrefix (some entry.1) = rest.head? := by
  have hsorted := map.withPrefix_sorted keyPrefix
  rw [h] at hsorted
  rw [firstPrefixAfter, h, after_of_append hsorted]

section MapWithKey

variable {γ : Type}

def mapWithKey (map : SortedMap Bytes β) (f : Bytes → β → γ) : SortedMap Bytes γ :=
  ⟨map.entries.map fun entry => (entry.1, f entry.1 entry.2), List.pairwise_map.mpr map.sorted⟩

theorem get_mapWithKey (map : SortedMap Bytes β) (f : Bytes → β → γ) (key : Bytes) :
    (map.mapWithKey f).get key = (map.get key).map (f key) := by
  ext value
  simp only [get_eq_some_iff, mapWithKey, List.mem_map, Option.map_eq_some_iff, Prod.mk.injEq]
  constructor
  · rintro ⟨⟨k, v⟩, h, rfl, rfl⟩
    exact ⟨v, h, rfl⟩
  · rintro ⟨v, h, rfl⟩
    exact ⟨(key, v), h, rfl, rfl⟩

theorem insert_mapWithKey {f : Bytes → β → γ} {key : Bytes} {value : β} {value' : γ} (h : f key value = value')
    (map : SortedMap Bytes β) : (map.mapWithKey f).insert key value' = (map.insert key value).mapWithKey f := by
  apply ext
  intro k
  rw [get_insert, get_mapWithKey, get_mapWithKey, get_insert]
  split_ifs with hk
  · rw [Option.map_some, hk, h]
  · rfl

theorem erase_mapWithKey (map : SortedMap Bytes β) (f : Bytes → β → γ) (key : Bytes) :
    (map.mapWithKey f).erase key = (map.erase key).mapWithKey f := by
  apply ext
  intro k
  rw [get_erase, get_mapWithKey, get_mapWithKey, get_erase]
  split_ifs <;> rfl

theorem after_map (f : Bytes → β → γ) (entries : List (Bytes × β)) (key : Option Bytes) :
    after (entries.map fun entry => (entry.1, f entry.1 entry.2)) key =
      (after entries key).map fun entry => (entry.1, f entry.1 entry.2) := by
  rw [after, after, List.filter_map]
  rfl

section

variable (map : SortedMap Bytes β) (f : Bytes → β → γ) (keyPrefix : Bytes)
include map f

theorem withPrefix_mapWithKey :
    (map.mapWithKey f).withPrefix keyPrefix =
      (map.withPrefix keyPrefix).map fun entry => (entry.1, f entry.1 entry.2) := by
  rw [withPrefix, withPrefix, mapWithKey, List.filter_map]
  rfl

theorem prefixPageAfter_mapWithKey (key : Option Bytes) (limit : ℕ) :
    (map.mapWithKey f).prefixPageAfter keyPrefix key limit =
      (map.prefixPageAfter keyPrefix key limit).map fun entry => (entry.1, f entry.1 entry.2) := by
  rw [prefixPageAfter, withPrefix_mapWithKey, after_map, ← List.map_take, prefixPageAfter]

theorem firstPrefixAfter_mapWithKey (key : Option Bytes) :
    (map.mapWithKey f).firstPrefixAfter keyPrefix key =
      (map.firstPrefixAfter keyPrefix key).map fun entry => (entry.1, f entry.1 entry.2) := by
  rw [firstPrefixAfter, withPrefix_mapWithKey, after_map, List.head?_map, firstPrefixAfter]

end

end MapWithKey

end Thingd.SortedMap
