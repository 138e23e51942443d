import Thingd.Data.PrefixScan

namespace Thingd.SortedMap

variable {β : Type} {map : SortedMap Bytes β} {cursor : Option Bytes} {limit : ℕ} {entry : Bytes × β} {key : Bytes}

def pageAfter (map : SortedMap Bytes β) (cursor : Option Bytes) (limit : ℕ) : List (Bytes × β) :=
  (after map.entries cursor).take limit

def lastKey (page : List (Bytes × β)) : Option Bytes := page.getLast?.map Prod.fst

def exhausted (map : SortedMap Bytes β) (cursor : Option Bytes) : Bool :=
  cursor.all fun key => (after map.entries (some key)).isEmpty

def Passed (cursor : Option Bytes) (key : Bytes) : Prop := ∃ last ∈ cursor, key ≤ last

theorem not_passed_iff : ¬Passed cursor key ↔ cursor.all (· < key) = true := by
  cases cursor <;> simp [Passed]

theorem mem_after {entries : List (Bytes × β)} :
    entry ∈ after entries cursor ↔ entry ∈ entries ∧ ¬Passed cursor entry.1 := by
  rw [after, List.mem_filter, not_passed_iff]

theorem not_mem_of_exhausted (h : map.exhausted (some key) = true) (hentry : entry ∈ map.entries) : entry.1 ≤ key := by
  by_contra hlt
  have hmem : entry ∈ after map.entries (some key) := mem_after.mpr ⟨hentry, by simpa [Passed] using hlt⟩
  have hnil : after map.entries (some key) = [] := by simpa [exhausted] using h
  rw [hnil] at hmem
  cases hmem

theorem pageAfter_eq_nil (hlimit : 0 < limit) : map.pageAfter cursor limit = [] ↔ after map.entries cursor = [] := by
  rw [pageAfter, List.take_eq_nil_iff]
  exact or_iff_right hlimit.ne'

theorem mem_page_of_le {last : Bytes × β} (hlast : (map.pageAfter cursor limit).getLast? = some last)
    (hentry : entry ∈ after map.entries cursor) : entry ∈ map.pageAfter cursor limit ↔ entry.1 ≤ last.1 := by
  have hsorted : (after map.entries cursor).Pairwise fun x y => x.1 < y.1 := map.sorted.filter _
  have hsplit := List.take_append_drop limit (after map.entries cursor)
  rw [← hsplit] at hsorted hentry
  obtain ⟨htake, -, hbefore⟩ := List.pairwise_append.mp hsorted
  have hlastMem : last ∈ map.pageAfter cursor limit := List.mem_of_mem_getLast? hlast
  constructor
  · intro hmem
    obtain ⟨init, hinit⟩ := List.getLast?_eq_some_iff.mp hlast
    rw [pageAfter] at hinit hmem
    rw [hinit] at htake hmem
    rcases List.mem_append.mp hmem with hmem | hmem
    · exact ((List.pairwise_append.mp htake).2.2 entry hmem last (by simp)).le
    · rw [List.mem_singleton.mp hmem]
  · intro hle
    rcases List.mem_append.mp hentry with hmem | hmem
    · exact hmem
    · exact absurd (hbefore last hlastMem entry hmem) (not_lt.mpr hle)

theorem mem_pageAfter_iff (hlimit : 0 < limit) :
    entry ∈ map.pageAfter cursor limit ↔ entry ∈ map.entries ∧ ¬Passed cursor entry.1 ∧
      (map.exhausted (lastKey (map.pageAfter cursor limit)) = true ∨
        Passed (lastKey (map.pageAfter cursor limit)) entry.1) := by
  cases hlast : (map.pageAfter cursor limit).getLast? with
  | none =>
    have hnil := List.getLast?_eq_none_iff.mp hlast
    rw [hnil, ← and_assoc, ← mem_after, (pageAfter_eq_nil hlimit).mp hnil]
    simp
  | some last =>
    have hcursor : lastKey (map.pageAfter cursor limit) = some last.1 := by simp [lastKey, hlast]
    rw [hcursor, ← and_assoc, ← mem_after]
    constructor
    · intro hmem
      have hafter := List.mem_of_mem_take hmem
      exact ⟨hafter, Or.inr ⟨last.1, rfl, (mem_page_of_le hlast hafter).mp hmem⟩⟩
    · rintro ⟨hafter, hdone | ⟨bound, hbound, hle⟩⟩
      · exact (mem_page_of_le hlast hafter).mpr (not_mem_of_exhausted hdone (mem_after.mp hafter).1)
      · obtain rfl := Option.some.inj hbound
        exact (mem_page_of_le hlast hafter).mpr hle

theorem passed_page (map : SortedMap Bytes β) (limit : ℕ) (h : Passed cursor key) :
    map.exhausted (lastKey (map.pageAfter cursor limit)) = true ∨
      Passed (lastKey (map.pageAfter cursor limit)) key := by
  cases hlast : (map.pageAfter cursor limit).getLast? with
  | none => exact Or.inl (by simp [lastKey, hlast, exhausted])
  | some last =>
    obtain ⟨bound, rfl, hle⟩ := h
    have hafter := List.mem_of_mem_take (List.mem_of_mem_getLast? hlast)
    have hlt : bound < last.1 := by simpa [Passed] using (mem_after.mp hafter).2
    exact Or.inr ⟨last.1, by simp [lastKey, hlast], hle.trans hlt.le⟩

end Thingd.SortedMap
