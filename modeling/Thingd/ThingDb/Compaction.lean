import Thingd.ThingDb.ScanPage
import Thingd.ThingDb.Flush

namespace Thingd.ThingDb

open Bytes Merge

variable {emptied : Bool}

section Scans

variable {inner : Inner} {ns : Bytes} {bounds : ScanBounds}

theorem emptyRange_of_invalidRange
    (h : invalidRange (bounds.lower ns) (bounds.upper ns) (bounds.cursorAfter ns) = true) :
    bounds.emptyRange ns = true := by
  obtain ⟨bound, hbound, hinvalid⟩ := (Option.any_eq_true _ _).mp h
  apply (Option.any_eq_true _ _).mpr
  refine ⟨bound, hbound, ?_⟩
  rcases cursorAfter_eq_lower with hcursor | hcursor
  · rw [hcursor] at hinvalid
    exact decide_eq_true (le_of_lt (of_decide_eq_true hinvalid))
  · rw [hcursor] at hinvalid
    exact hinvalid

theorem iterBoundsPaginated_eq {offset : ℕ} {limit : Option ℕ}
    (hfirst : offset = 0 ∧ limit = some 1 →
      (∀ start inclusive, bounds.start = some (start, inclusive) → inclusive = false) ∧ bounds.finish = none) :
    iterBoundsPaginated inner emptied ns bounds offset limit =
      if (offset = 0 ∧ limit = some 1) ∧ inner.tableLayers ≠ [] ∧
          ((emptied || !inner.state.isEmpty || !inner.pendingTable.isEmpty) &&
            invalidRange (bounds.lower ns) (bounds.upper ns) (bounds.cursorAfter ns)) = true then none
      else some (pageOf offset limit (inner.visible ns bounds)) := by
  unfold iterBoundsPaginated
  by_cases hzero : limit = some 0
  · rw [if_pos hzero]
    simp [hzero, pageOf]
  rw [if_neg hzero]
  cases hpage : (if (inner.tableLayers.isEmpty && limit.any (· ≤ 4096)) = true then
      iterDurableMemtablePage inner ns bounds offset (limit.getD 0) else none) with
  | some page =>
    by_cases hmemtable : (inner.tableLayers.isEmpty && limit.any (· ≤ 4096)) = true
    · rw [if_pos hmemtable] at hpage
      obtain ⟨hlayers, hlimit⟩ := Bool.and_eq_true_iff.mp hmemtable
      have hnil : inner.tableLayers = [] := List.isEmpty_iff.mp hlayers
      obtain ⟨n, rfl, -⟩ := (Option.any_eq_true _ _).mp hlimit
      have heq := iterDurableMemtablePage_eq hnil hpage
      dsimp only
      rw [heq, if_neg (by simp [hnil])]
      rfl
    · rw [if_neg hmemtable] at hpage
      cases hpage
  | none =>
    by_cases hone : offset = 0 ∧ limit = some 1
    · obtain ⟨hstart, hfinish⟩ := hfirst hone
      have hfirstEq := @iterDurableFirst_eq ns bounds inner emptied hstart hfinish
      rw [if_pos hone, hfirstEq]
      obtain ⟨rfl, rfl⟩ := hone
      by_cases hpanic : ((emptied || !inner.state.isEmpty || !inner.pendingTable.isEmpty) &&
          invalidRange (bounds.lower ns) (bounds.upper ns) (bounds.cursorAfter ns)) = true
      · rw [if_pos hpanic]
        have hlayers : inner.tableLayers ≠ [] := by
          intro hnil
          have hempty := emptyRange_of_invalidRange (Bool.and_eq_true_iff.mp hpanic).2
          simp [hnil, iterDurableMemtablePage, hempty] at hpage
        rw [if_pos ⟨⟨rfl, rfl⟩, hlayers, hpanic⟩]
      · rw [if_neg hpanic, if_neg (fun h => hpanic h.2.2)]
    · rw [if_neg hone, if_neg (fun h => hone h.1)]
      cases limit with
      | none => exact congrArg some (iterDurableMerge_eq inner ns bounds offset none)
      | some n =>
        dsimp only
        split_ifs
        · exact congrArg some (iterDurableTablePage_eq inner ns bounds offset n)
        · exact congrArg some (iterDurableMerge_eq inner ns bounds offset (some n))

theorem visible_congr {other : Inner} (h : ∀ key, other.getDurableValue key = inner.getDurableValue key) (ns : Bytes)
    (bounds : ScanBounds) : other.visible ns bounds = inner.visible ns bounds := by
  have hstate : other.materializeState = inner.materializeState := by
    apply SortedMap.ext
    intro key
    rw [Inner.get_materializeState, Inner.get_materializeState, h]
  unfold Inner.visible
  rw [hstate]
  apply List.filterMap_congr
  intro key _
  rw [h]

end Scans

def prefixBounds (keyPrefix : Bytes) (after : Option Bytes) : ScanBounds := ⟨some keyPrefix, after.map (·, false), none⟩

def startsPast (keyPrefix : Bytes) (after : Option Bytes) : Bool :=
  after.any fun key => (successor keyPrefix).any (· ≤ key)

theorem prefixBounds_upper {ns keyPrefix bound : Bytes} {after : Option Bytes}
    (h : (prefixBounds keyPrefix after).upper ns = some bound) :
    successor ns = some bound ∨ ∃ next, successor keyPrefix = some next ∧ bound = ns ++ next := by
  have hmem := (leastKey_eq_some.mp h).1
  simp only [prefixBounds, List.mem_cons, List.not_mem_nil, or_false] at hmem
  rcases hmem with hns | hkey | hnone
  · exact Or.inl hns.symm
  · obtain ⟨next, hnext, rfl⟩ := Option.map_eq_some_iff.mp hkey.symm
    exact Or.inr ⟨next, hnext, rfl⟩
  · cases hnone

theorem lt_of_successor_eq {ns next : Bytes} (h : successor ns = some next) (user : Bytes) : ns ++ user < next := by
  have hstarts := ((isPrefix_iff_lt_successor ns (ns ++ user)).mp (List.prefix_append _ _)).2
  rw [h] at hstarts
  simpa using hstarts

theorem prefixBounds_upper_le_iff {ns keyPrefix user bound : Bytes} {after : Option Bytes}
    (h : (prefixBounds keyPrefix after).upper ns = some bound) :
    bound ≤ ns ++ user ↔ (successor keyPrefix).any (· ≤ user) = true := by
  rw [Option.any_eq_true]
  constructor
  · intro hle
    rcases prefixBounds_upper h with hns | ⟨next, hnext, rfl⟩
    · exact absurd hle (not_le_of_gt (lt_of_successor_eq hns user))
    · exact ⟨next, hnext, decide_eq_true (append_left_le_iff.mp hle)⟩
  · rintro ⟨next, hnext, hle⟩
    have hnextLe : ns ++ next ≤ ns ++ user := append_left_le_iff.mpr (of_decide_eq_true hle)
    exact le_trans ((ScanBounds.upper_le h).2 keyPrefix next rfl hnext) hnextLe

theorem successor_not_le {key : Bytes} : ¬ (successor key).any (· ≤ key) = true := by
  intro h
  obtain ⟨next, hnext, hle⟩ := (Option.any_eq_true _ _).mp h
  exact absurd (of_decide_eq_true hle) (not_le_of_gt (lt_successor hnext))

theorem invalidRange_prefixBounds_iff (ns keyPrefix : Bytes) (after : Option Bytes) :
    invalidRange ((prefixBounds keyPrefix after).lower ns) ((prefixBounds keyPrefix after).upper ns)
        ((prefixBounds keyPrefix after).cursorAfter ns) = true ↔
      startsPast keyPrefix after = true := by
  -- a scan that starts at its own prefix has a proper range, whatever the namespace
  have hvalid : ∀ bound, (prefixBounds keyPrefix after).upper ns = some bound → ¬ bound < ns ++ keyPrefix :=
    fun bound hupper hlt => successor_not_le ((prefixBounds_upper_le_iff hupper).mp (le_of_lt hlt))
  cases after with
  | none =>
    constructor
    · intro h
      obtain ⟨bound, hupper, hlt⟩ := (Option.any_eq_true _ _).mp h
      exact absurd (of_decide_eq_true hlt) (hvalid bound hupper)
    · intro hpast
      cases hpast
  | some key =>
    by_cases hle : keyPrefix ≤ key
    · have hlower : (prefixBounds keyPrefix (some key)).lower ns = ns ++ key := by
        simp only [prefixBounds, ScanBounds.lower, Option.map_some, if_pos hle]
      have hcursor : (prefixBounds keyPrefix (some key)).cursorAfter ns = some (ns ++ key) := by
        refine Option.filter_eq_some_iff.mpr ⟨rfl, decide_eq_true ?_⟩
        rw [hlower]
      rw [hcursor]
      constructor
      · intro h
        obtain ⟨bound, hupper, hbound⟩ := (Option.any_eq_true _ _).mp h
        exact (prefixBounds_upper_le_iff hupper).mp (of_decide_eq_true hbound)
      · intro hpast
        cases hupper : (prefixBounds keyPrefix (some key)).upper ns with
        | none =>
          have hlast := (ScanBounds.upper_eq_none hupper).2 keyPrefix rfl
          simp [startsPast, hlast] at hpast
        | some bound => exact decide_eq_true ((prefixBounds_upper_le_iff hupper).mpr hpast)
    · have hlower : (prefixBounds keyPrefix (some key)).lower ns = ns ++ keyPrefix := by
        simp only [prefixBounds, ScanBounds.lower, Option.map_some, if_neg hle]
      have hcursor : (prefixBounds keyPrefix (some key)).cursorAfter ns = none := by
        apply Option.filter_eq_none_iff.mpr
        intro cursor hcursor hlowerLe
        cases hcursor
        rw [hlower] at hlowerLe
        exact hle (append_left_le_iff.mp (of_decide_eq_true hlowerLe))
      rw [hcursor, hlower]
      constructor
      · intro h
        obtain ⟨bound, hupper, hlt⟩ := (Option.any_eq_true _ _).mp h
        exact absurd (of_decide_eq_true hlt) (hvalid bound hupper)
      · intro hpast
        change (successor keyPrefix).any (· ≤ key) = true at hpast
        obtain ⟨next, hnext, hnextLe⟩ := (Option.any_eq_true _ _).mp hpast
        have hlt : keyPrefix < key := lt_of_lt_of_le (lt_successor hnext) (of_decide_eq_true hnextLe)
        exact absurd (le_of_lt hlt) hle

variable {scan : Scan}

namespace Scan

def bounds : Scan → ScanBounds
  | .iter => ⟨none, none, none⟩
  | .keyPrefix pre => prefixBounds pre none
  | .prefixPage pre _ _ => prefixBounds pre none
  | .prefixPageAfter pre after _ => prefixBounds pre after
  | .firstPrefixAfter pre after => prefixBounds pre after
  | .rangeBounds start finish => ⟨none, start, finish⟩

def offset : Scan → ℕ
  | .prefixPage _ offset _ => offset
  | _ => 0

def limit : Scan → Option ℕ
  | .prefixPage _ _ limit => some limit
  | .prefixPageAfter _ _ limit => some limit
  | .firstPrefixAfter _ _ => some 1
  | _ => none

def seeksPast : Scan → Bool
  | .prefixPageAfter pre after limit => limit = 1 && startsPast pre after
  | .firstPrefixAfter pre after => startsPast pre after
  | _ => false

theorem seeksPast_iff (scan : Scan) (ns : Bytes) :
    scan.seeksPast = true ↔ (scan.offset = 0 ∧ scan.limit = some 1) ∧
      invalidRange (scan.bounds.lower ns) (scan.bounds.upper ns) (scan.bounds.cursorAfter ns) = true := by
  cases scan with
  | iter => simp [seeksPast, limit]
  | keyPrefix pre => simp [seeksPast, limit]
  | prefixPage pre offset limit => simp [seeksPast, bounds, invalidRange_prefixBounds_iff, startsPast]
  | prefixPageAfter pre after limit => simp [seeksPast, bounds, invalidRange_prefixBounds_iff, offset, Scan.limit]
  | firstPrefixAfter pre after => simp [seeksPast, bounds, invalidRange_prefixBounds_iff, offset, limit]
  | rangeBounds start finish => simp [seeksPast, limit]

theorem prefixBounds_exclusive (pre : Bytes) (after : Option Bytes) :
    (∀ start inclusive, (prefixBounds pre after).start = some (start, inclusive) → inclusive = false) ∧
      (prefixBounds pre after).finish = none := by
  refine ⟨?_, rfl⟩
  intro start inclusive hstart
  obtain ⟨_, -, heq⟩ := Option.map_eq_some_iff.mp hstart
  cases heq
  rfl

theorem bounds_exclusive (h : scan.limit = some 1) :
    (∀ start inclusive, scan.bounds.start = some (start, inclusive) → inclusive = false) ∧
      scan.bounds.finish = none := by
  cases scan with
  | iter => cases h
  | keyPrefix pre => exact prefixBounds_exclusive pre none
  | prefixPage pre offset limit => exact prefixBounds_exclusive pre none
  | prefixPageAfter pre after limit => exact prefixBounds_exclusive pre after
  | firstPrefixAfter pre after => exact prefixBounds_exclusive pre after
  | rangeBounds start finish => cases h

end Scan

/-- The lookup calls `BTreeMap::range` on a map that has a root, with bounds it rejects. -/
def Panics (inner : Inner) (emptied : Bool) (scan : Scan) : Prop :=
  scan.seeksPast = true ∧ inner.tableLayers ≠ [] ∧
    (emptied || !inner.state.isEmpty || !inner.pendingTable.isEmpty) = true

variable {db : Database}

namespace Database

theorem scan_eq_iter (db : Database) (emptied : Bool) (keyspace : Keyspace) (scan : Scan) :
    db.scan emptied keyspace scan =
      iterBoundsPaginated db.inner emptied keyspace.namespace scan.bounds scan.offset scan.limit := by
  cases scan <;> rfl

theorem scan_of_panics (h : Panics db.inner emptied scan) (keyspace : Keyspace) :
    db.scan emptied keyspace scan = none := by
  obtain ⟨hseeks, hlayers, hrooted⟩ := h
  obtain ⟨hfirst, hinvalid⟩ := (scan.seeksPast_iff keyspace.namespace).mp hseeks
  rw [scan_eq_iter, iterBoundsPaginated_eq fun hone => Scan.bounds_exclusive hone.2]
  exact if_pos ⟨hfirst, hlayers, Bool.and_eq_true_iff.mpr ⟨hrooted, hinvalid⟩⟩

theorem scan_of_not_panics (h : ¬ Panics db.inner emptied scan) (keyspace : Keyspace) :
    db.scan emptied keyspace scan =
      some (pageOf scan.offset scan.limit (db.inner.visible keyspace.namespace scan.bounds)) := by
  rw [scan_eq_iter, iterBoundsPaginated_eq fun hone => Scan.bounds_exclusive hone.2]
  apply if_neg
  rintro ⟨hfirst, hlayers, hpanic⟩
  obtain ⟨hrooted, hinvalid⟩ := Bool.and_eq_true_iff.mp hpanic
  exact h ⟨(scan.seeksPast_iff keyspace.namespace).mpr ⟨hfirst, hinvalid⟩, hlayers, hrooted⟩

theorem count_eq (db : Database) (ns : Bytes) (keyPrefix : Option Bytes) :
    db.countDurableNamespace ns keyPrefix =
      (pageOf 0 (some u64Max) (db.inner.visible ns ⟨keyPrefix, none, none⟩)).length := by
  unfold countDurableNamespace
  rw [iterDurableTablePage_eq]

/-- The disk once the manifest of a compaction is on it: before and after the old tables are removed, and with the log
truncated. -/
def compactDisks (db : Database) : List Disk := [db.compactAnnounced, db.compactPublished, db.compacted.disk]

end Database

/-- Both databases answer every read alike; the second has not removed an entry of its mutable state yet. -/
structure SameReads (db : Database) (emptied : Bool) (keyspace : Keyspace) (scan : Scan) (other : Database) : Prop where
  get : ∀ key, other.inner.getDurableValue key = db.inner.getDurableValue key
  scan : other.scan false keyspace scan = db.scan emptied keyspace scan
  count : other.count keyspace = db.count keyspace
  countPrefix : ∀ keyPrefix, other.countPrefix keyspace keyPrefix = db.countPrefix keyspace keyPrefix

structure Compacted (db other : Database) : Prop where
  layers : other.inner.tableLayers = [db.compactLayer]
  state : other.inner.state = SortedMap.empty
  pendingTable : other.inner.pendingTable = SortedMap.empty

variable {other : Database}

theorem Compacted.view (h : Compacted db other) (key : Bytes) :
    other.inner.getDurableValue key = db.inner.getDurableValue key := by
  rw [← Database.getDurableValue_compacted db, getDurableValue_reopened h.layers h.pendingTable h.state]
  rfl

theorem Compacted.not_panics (h : Compacted db other) (scan : Scan) : ¬ Panics other.inner false scan := by
  rintro ⟨-, -, hrooted⟩
  rw [h.state, h.pendingTable] at hrooted
  cases hrooted

theorem Compacted.sameReads (h : Compacted db other) (hpanics : ¬ Panics db.inner emptied scan) (keyspace : Keyspace) :
    SameReads db emptied keyspace scan other where
  get := h.view
  scan := by
    rw [Database.scan_of_not_panics (h.not_panics scan), Database.scan_of_not_panics hpanics, visible_congr h.view]
  count := by
    unfold Database.count
    rw [Database.count_eq, Database.count_eq, visible_congr h.view]
  countPrefix := by
    intro keyPrefix
    unfold Database.countPrefix
    rw [Database.count_eq, Database.count_eq, visible_congr h.view]

theorem compacted_self (db : Database) : Compacted db db.compacted := ⟨rfl, rfl, rfl⟩

theorem compacted_reopens {tables : SortedMap Bytes TableLayer}
    (hget : tables.get (compactName db.inner.sequence) = some db.compactLayer) {wal : Bytes} {frames : List Frame}
    (hframes : Frames wal frames) (hold : ∀ frame ∈ frames, frame.sequence ≤ db.inner.sequence)
    (builder : DatabaseBuilder) :
    ∃ reopened, openLocked builder ⟨some db.compactManifest, tables, wal⟩ = .ok reopened ∧ Compacted db reopened := by
  have hopen := openLocked_eq builder (TableLayout.compacted hget rfl wal)
  rw [replayWal_frames hframes] at hopen
  refine ⟨_, hopen, rfl, ?_, rfl⟩
  change (Replayed.applyAll ⟨db.inner.sequence, 0, 0, SortedMap.empty⟩ frames).state = _
  rw [applyAll_state, appliedFrames_old hold]
  rfl

theorem Consistent.compactDisks_reopen (h : Consistent db) (builder : DatabaseBuilder) :
    ∀ disk ∈ db.compactDisks, ∃ reopened, openLocked builder disk = .ok reopened ∧ Compacted db reopened := by
  obtain ⟨frames, hframes, hold, -⟩ := h.framed
  have hrenamed : db.compactRenamed.tables.get (compactName db.inner.sequence) = some db.compactLayer := by
    simp [Database.compactRenamed, Database.renameTable]
  have hpublished : db.compactPublished.tables.get (compactName db.inner.sequence) = some db.compactLayer :=
    get_removeTables hrenamed
  intro disk hdisk
  simp only [Database.compactDisks, List.mem_cons, List.not_mem_nil, or_false] at hdisk
  rcases hdisk with rfl | rfl | rfl
  · exact compacted_reopens hrenamed hframes hold builder
  · exact compacted_reopens hpublished hframes hold builder
  · exact compacted_reopens hpublished Frames.nil (by simp) builder

theorem compaction_preserves_reads_iff {db db' : Database} {fault : Option StorageFault} (hreach : Reachable db)
    (hcompact : db.compactTablesLocked fault = (.ok (), db')) (emptied : Bool) (keyspace : Keyspace) (scan : Scan) :
    (SameReads db emptied keyspace scan db' ∧
      ∀ disk ∈ db.compactDisks, ∀ builder, ∃ reopened, openLocked builder disk = .ok reopened ∧
        SameReads db emptied keyspace scan reopened) ↔ ¬ Panics db.inner emptied scan := by
  obtain ⟨-, rfl⟩ := Database.compactTablesLocked_ok hcompact
  constructor
  · rintro ⟨hsame, -⟩ hpanics
    have hscan := hsame.scan
    rw [Database.scan_of_not_panics ((compacted_self db).not_panics scan), Database.scan_of_panics hpanics] at hscan
    cases hscan
  · intro hpanics
    refine ⟨(compacted_self db).sameReads hpanics keyspace, ?_⟩
    intro disk hdisk builder
    obtain ⟨reopened, hopen, hcompacted⟩ := hreach.consistent.compactDisks_reopen builder disk hdisk
    exact ⟨reopened, hopen, hcompacted.sameReads hpanics keyspace⟩

def sampleLayered : Option Database :=
  sampleRun [.commit [samplePut [97, 0, 1] [1]], .flush, .commit [samplePut [97, 0, 2] [2]]]

theorem compaction_preserves_full_scan :
    ∃ db db', Reachable db ∧ db.compactTablesLocked none = (.ok (), db') ∧
      db'.scan false sampleKeyspace .iter = some [⟨[1], [1]⟩, ⟨[2], [2]⟩] ∧
      ((SameReads db false sampleKeyspace .iter db' ∧
        ∀ disk ∈ db.compactDisks, ∀ builder, ∃ reopened, openLocked builder disk = .ok reopened ∧
          SameReads db false sampleKeyspace .iter reopened) ↔ ¬ Panics db.inner false .iter) := by
  obtain ⟨db, hdb, hok, hscan⟩ : ∃ db ∈ sampleLayered, (db.compactTablesLocked none).1.isOk = true ∧
      (db.compactTablesLocked none).2.scan false sampleKeyspace .iter = some [⟨[1], [1]⟩, ⟨[2], [2]⟩] := by
    decide +kernel
  have hreach := sampleRun_reachable hdb
  have hcompact := eq_of_isOk hok
  exact ⟨db, _, hreach, hcompact, hscan, compaction_preserves_reads_iff hreach hcompact false sampleKeyspace .iter⟩

-- the first key with prefix 1 after the key 2: a panic while an entry is in memory, no key afterwards
theorem compaction_changes_point_lookup :
    ∃ db db', Reachable db ∧ db.compactTablesLocked none = (.ok (), db') ∧
      db.scan false sampleKeyspace (.firstPrefixAfter [1] (some [2])) = none ∧
      db'.scan false sampleKeyspace (.firstPrefixAfter [1] (some [2])) = some [] := by
  obtain ⟨db, hdb, hok, hscans⟩ : ∃ db ∈ sampleLayered, (db.compactTablesLocked none).1.isOk = true ∧
      db.scan false sampleKeyspace (.firstPrefixAfter [1] (some [2])) = none ∧
      (db.compactTablesLocked none).2.scan false sampleKeyspace (.firstPrefixAfter [1] (some [2])) = some [] := by
    decide +kernel
  exact ⟨db, _, sampleRun_reachable hdb, eq_of_isOk hok, hscans⟩

end Thingd.ThingDb
