import Thingd.Data.PrefixScan
import Thingd.ThingDb.ScanSpec

namespace Thingd.ThingDb

section

variable (db : Database) (keyspace : Keyspace)

def Database.entries : SortedMap Bytes Bytes :=
  ⟨db.inner.visible keyspace.namespace ⟨none, none, none⟩, visible_sorted _ _ _⟩

theorem Database.get_entries (key : Bytes) : (db.entries keyspace).get key = db.get keyspace key := by
  ext value
  rw [SortedMap.get_eq_some_iff]
  refine mem_visible.trans (and_iff_left ?_)
  exact ⟨nofun, nofun, nofun⟩

theorem visible_prefixBounds (keyPrefix : Bytes) (after : Option Bytes) :
    db.inner.visible keyspace.namespace (prefixBounds keyPrefix after) =
      SortedMap.after ((db.entries keyspace).withPrefix keyPrefix) after := by
  have hsorted : (SortedMap.after ((db.entries keyspace).withPrefix keyPrefix) after).Pairwise fun x y => x.1 < y.1 :=
    ((db.entries keyspace).withPrefix_sorted keyPrefix).filter _
  apply SortedMap.eq_of_sorted (visible_sorted _ _ _) hsorted
  rintro ⟨user, value⟩
  rw [mem_visible, SortedMap.after, List.mem_filter, SortedMap.mem_withPrefix, Database.get_entries]
  cases after with
  | none => simp [prefixBounds, ScanBounds.Admits, Database.get, physicalKey]
  | some key => simp [prefixBounds, ScanBounds.Admits, Database.get, physicalKey, and_assoc]

theorem startsPast_map_append (keyPrefix : Bytes) (after : Option Bytes) :
    startsPast keyPrefix (after.map (keyPrefix ++ ·)) = false := by
  cases after with
  | none => rfl
  | some key =>
    obtain ⟨-, hall⟩ := (isPrefix_iff_lt_successor keyPrefix _).mp (List.prefix_append keyPrefix key)
    cases hnext : successor keyPrefix with
    | none => simp [startsPast, hnext]
    | some next =>
      rw [hnext] at hall
      simpa [startsPast, hnext] using hall

/-- Reads of a keyspace are those of the ordered map of its entries. -/
theorem keyspace_reads_as_map (emptied : Bool) (keyPrefix : Bytes) (after : Option Bytes) (limit : ℕ) :
    let cursor := after.map (keyPrefix ++ ·)
    db.get keyspace = (db.entries keyspace).get ∧
      db.scan emptied keyspace (.prefixPageAfter keyPrefix cursor limit) =
        some ((db.entries keyspace).prefixPageAfter keyPrefix cursor limit) ∧
      (db.scan emptied keyspace (.firstPrefixAfter keyPrefix cursor)).map List.head? =
        some ((db.entries keyspace).firstPrefixAfter keyPrefix cursor) := by
  have hpast := startsPast_map_append keyPrefix after
  refine ⟨funext fun key => (db.get_entries keyspace key).symm, ?_, ?_⟩
  all_goals
    rw [Database.scan_of_not_panics fun hpanics => by simp [Panics, Scan.seeksPast, hpast] at hpanics]
    simp only [Scan.bounds, visible_prefixBounds]
  · rfl
  · rw [SortedMap.firstPrefixAfter]
    cases SortedMap.after ((db.entries keyspace).withPrefix keyPrefix) (after.map (keyPrefix ++ ·)) <;> rfl

end

end Thingd.ThingDb
