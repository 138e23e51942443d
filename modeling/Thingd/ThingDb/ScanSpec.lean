import Thingd.ThingDb.Compaction

namespace Thingd.ThingDb

open Bytes

variable {bounds : ScanBounds} {ns user : Bytes}

namespace ScanBounds

def Admits (bounds : ScanBounds) (user : Bytes) : Prop :=
  (∀ keyPrefix, bounds.keyPrefix = some keyPrefix → keyPrefix <+: user) ∧
    (∀ start inclusive, bounds.start = some (start, inclusive) → if inclusive then start ≤ user else start < user) ∧
    ∀ finish inclusive, bounds.finish = some (finish, inclusive) → if inclusive then user ≤ finish else user < finish

theorem userKey_iff_admits {key : Bytes} :
    bounds.userKey ns key = some user ↔ key = ns ++ user ∧ bounds.Admits user := userKey_eq_some

end ScanBounds

structure Matching (view : Bytes → Option Bytes) (bounds : ScanBounds) (entries : List Entry) : Prop where
  sorted : entries.Pairwise fun a b => a.1 < b.1
  mem : ∀ user value, (user, value) ∈ entries ↔ view user = some value ∧ bounds.Admits user

theorem Matching.unique {view : Bytes → Option Bytes} {entries other : List Entry} (h : Matching view bounds entries)
    (h' : Matching view bounds other) : entries = other := by
  apply SortedMap.eq_of_sorted h.sorted h'.sorted
  rintro ⟨user, value⟩
  rw [h.mem, h'.mem]

theorem shownEntry_eq_some {record : Record} {value : Bytes} :
    shownEntry (bounds.userKey ns) record = some (user, value) ↔
      record.2 = some value ∧ record.1 = ns ++ user ∧ bounds.Admits user := by
  rw [shownEntry, Option.bind_eq_some_iff]
  constructor
  · rintro ⟨found, hfound, hmap⟩
    obtain ⟨user', huser, heq⟩ := Option.map_eq_some_iff.mp hmap
    cases heq
    exact ⟨hfound, ScanBounds.userKey_iff_admits.mp huser⟩
  · rintro ⟨hvalue, hkey⟩
    refine ⟨value, hvalue, ?_⟩
    rw [ScanBounds.userKey_iff_admits.mpr hkey]
    rfl

theorem mem_visible {inner : Inner} {value : Bytes} :
    (user, value) ∈ inner.visible ns bounds ↔ inner.getDurableValue (ns ++ user) = some value ∧ bounds.Admits user := by
  unfold Inner.visible
  simp only [List.mem_filterMap, shownEntry_eq_some]
  constructor
  · rintro ⟨key, -, hvalue, rfl, hadmits⟩
    exact ⟨hvalue, hadmits⟩
  · rintro ⟨hvalue, hadmits⟩
    have hmem : ns ++ user ∈ inner.materializeState.keys :=
      SortedMap.mem_keys.mpr ⟨value, (inner.get_materializeState _).trans hvalue⟩
    exact ⟨ns ++ user, hmem, hvalue, rfl, hadmits⟩

theorem visible_sorted (inner : Inner) (ns : Bytes) (bounds : ScanBounds) :
    (inner.visible ns bounds).Pairwise fun a b => a.1 < b.1 := by
  unfold Inner.visible
  rw [List.pairwise_filterMap]
  apply inner.materializeState.keys_sorted.imp
  rintro key other hlt ⟨user, value⟩ hentry ⟨user', value'⟩ hentry'
  obtain ⟨-, rfl, -⟩ := shownEntry_eq_some.mp hentry
  obtain ⟨-, rfl, -⟩ := shownEntry_eq_some.mp hentry'
  exact append_left_lt_iff.mp hlt

theorem Database.matching_visible (db : Database) (keyspace : Keyspace) (bounds : ScanBounds) :
    Matching (db.get keyspace) bounds (db.inner.visible keyspace.namespace bounds) :=
  ⟨visible_sorted _ _ _, fun _ _ => mem_visible⟩

/-- Whatever path serves it, a scan returns the page of the entries within its bounds, unless the lookup of one entry
starts behind its prefix. -/
theorem scan_meets_specification_iff (db : Database) (emptied : Bool) (keyspace : Keyspace) (scan : Scan) :
    (∃ entries, Matching (db.get keyspace) scan.bounds entries ∧
      db.scan emptied keyspace scan = some (pageOf scan.offset scan.limit entries)) ↔
        ¬ Panics db.inner emptied scan := by
  constructor
  · rintro ⟨entries, -, hscan⟩ hpanics
    rw [Database.scan_of_panics hpanics] at hscan
    cases hscan
  · intro hpanics
    exact ⟨_, db.matching_visible keyspace scan.bounds, Database.scan_of_not_panics hpanics keyspace⟩

-- no key is admitted, so the page should be empty
theorem point_lookup_behind_prefix_panics :
    ∃ db ∈ sampleLayered, db.scan false sampleKeyspace (.prefixPageAfter [1] (some [2]) 1) = none ∧
      db.scan false sampleKeyspace (.prefixPageAfter [1] (some [2]) 2) = some [] := by
  decide +kernel

end Thingd.ThingDb
