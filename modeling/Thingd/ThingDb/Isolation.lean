import Thingd.ThingDb.Modes

namespace Thingd.ThingDb

inductive Mode
  | ram (memory : Memory) (emptied : Bool)
  | durable (db : Database) (emptied : Bool)

inductive Read
  | get (key : Bytes)
  | withValue (key : Bytes)
  | getManyShared (keys : List Bytes)
  | scan (scan : Scan)
  | count
  | countPrefix (keyPrefix : Bytes)
  | snapshotGet (key : Bytes)

inductive Answer
  | value (value : Option Bytes)
  | values (values : List (Option Bytes))
  | page (entries : List Entry)
  | panic
  | number (n : ℕ)
  deriving DecidableEq

def Answer.ofScan : Option (List Entry) → Answer
  | some entries => .page entries
  | none => .panic

namespace Mode

section

variable (mode : Mode) (keyspace : Keyspace)

def answer : Read → Answer
  | .get key => .value (match mode with
    | .ram memory _ => memory.get keyspace key
    | .durable db _ => db.get keyspace key)
  | .withValue key => .value (match mode with
    | .ram memory _ => memory.withValue keyspace key
    | .durable db _ => db.withValue keyspace key)
  | .getManyShared keys => .values (match mode with
    | .ram memory _ => memory.getManyShared keyspace keys
    | .durable db _ => db.getManyShared keyspace keys)
  | .scan scan => Answer.ofScan (match mode with
    | .ram memory emptied => memory.scan emptied keyspace scan
    | .durable db emptied => db.scan emptied keyspace scan)
  | .count => .number (match mode with
    | .ram memory _ => memory.count keyspace
    | .durable db _ => db.count keyspace)
  | .countPrefix keyPrefix => .number (match mode with
    | .ram memory _ => memory.countPrefix keyspace keyPrefix
    | .durable db _ => db.countPrefix keyspace keyPrefix)
  | .snapshotGet key => .value (match mode with
    | .ram memory _ => snapshotGet memory.snapshot keyspace key
    | .durable db _ => snapshotGet db.snapshot keyspace key)

def Holds (key value : Bytes) : Prop :=
  match mode with
  | .ram memory _ => ∃ entries, memory.keyspaces.get keyspace.name = some entries ∧ (key, value) ∈ entries.entries
  | .durable db _ => (physicalKey keyspace key, value) ∈ db.inner.materializeState.entries

def view : Bytes → Option Bytes :=
  match mode with
  | .ram memory _ => memory.get keyspace
  | .durable db _ => db.get keyspace

theorem holds_iff (key value : Bytes) : mode.Holds keyspace key value ↔ mode.view keyspace key = some value := by
  cases mode with
  | ram memory emptied =>
    simp only [Holds, view, Memory.get, Option.bind_eq_some_iff, SortedMap.get_eq_some_iff]
  | durable db emptied =>
    simp only [Holds, view, Database.get]
    rw [← Inner.get_materializeState, SortedMap.get_eq_some_iff]

def Addressable : Prop :=
  match mode with
  | .ram memory _ => memory.count keyspace ≤ u64Max
  | .durable _ _ => True

end

def visible (mode : Mode) (keyspace : Keyspace) (bounds : ScanBounds) : List Entry :=
  match mode with
  | .ram memory _ => memory.visible keyspace bounds
  | .durable db _ => db.inner.visible keyspace.namespace bounds

def Panics (mode : Mode) (keyspace : Keyspace) (scan : Scan) : Prop :=
  match mode with
  | .ram memory emptied => memory.Panics emptied keyspace scan
  | .durable db emptied => ThingDb.Panics db.inner emptied scan

/-- The entry stored under the key itself is the one that the keyspace holds for it: the durable `withValue` takes the
key as a physical key. -/
def LooksUpOwn (mode : Mode) (keyspace : Keyspace) (key : Bytes) : Prop :=
  match mode with
  | .ram _ _ => True
  | .durable db _ => ∀ value, (key, value) ∈ db.inner.materializeState.entries ↔ mode.Holds keyspace key value

variable {keyspace : Keyspace}

theorem visible_eq {a b : Mode} (h : a.view keyspace = b.view keyspace) {bounds : ScanBounds}
    (hpublic : bounds.keyPrefix = none ∨ bounds.finish = none) :
    a.visible keyspace bounds = b.visible keyspace bounds := by
  have hmatching (mode : Mode) : Matching (mode.view keyspace) bounds (mode.visible keyspace bounds) := by
    cases mode with
    | ram memory emptied => exact memory.matching_visible keyspace hpublic
    | durable db emptied => exact db.matching_visible keyspace bounds
  exact (hmatching a).unique (h ▸ hmatching b)

section

variable (mode : Mode) (keyspace)

theorem answer_get (key : Bytes) : mode.answer keyspace (.get key) = .value (mode.view keyspace key) := by
  cases mode <;> rfl

theorem answer_withValue_eq_get_iff (key : Bytes) :
    mode.answer keyspace (.withValue key) = mode.answer keyspace (.get key) ↔ mode.LooksUpOwn keyspace key := by
  cases mode with
  | ram memory emptied => exact ⟨fun _ => trivial, fun _ => rfl⟩
  | durable db emptied =>
    simp only [answer, Database.withValue, Database.get, LooksUpOwn, Holds, Answer.value.injEq,
      ← SortedMap.get_eq_some_iff, Inner.get_materializeState]
    exact Option.ext_iff

theorem answer_getManyShared (keys : List Bytes) :
    mode.answer keyspace (.getManyShared keys) = .values (keys.map (mode.view keyspace)) := by
  cases mode with
  | ram memory emptied => exact congrArg Answer.values (memory.getManyShared_eq keyspace keys)
  | durable db emptied => exact congrArg Answer.values (db.getManyShared_eq keyspace keys)

theorem answer_snapshotGet (key : Bytes) :
    mode.answer keyspace (.snapshotGet key) = .value (mode.view keyspace key) := by
  cases mode with
  | ram memory emptied => exact congrArg Answer.value (memory.snapshotGet_snapshot keyspace key)
  | durable db emptied => exact congrArg Answer.value (db.snapshotGet_snapshot keyspace key)

end

variable {mode : Mode}

theorem answer_count (h : mode.Addressable keyspace) :
    mode.answer keyspace .count = .number (min u64Max (mode.visible keyspace ⟨none, none, none⟩).length) := by
  cases mode with
  | ram memory emptied =>
    have hsize : memory.count keyspace ≤ u64Max := h
    simp only [answer, visible]
    rw [← memory.count_eq_length, min_eq_right hsize]
  | durable db emptied => simp [answer, visible, Database.count, Database.count_eq, pageOf]

theorem answer_countPrefix (h : mode.Addressable keyspace) (keyPrefix : Bytes) :
    mode.answer keyspace (.countPrefix keyPrefix) =
      .number (min u64Max (mode.visible keyspace ⟨some keyPrefix, none, none⟩).length) := by
  cases mode with
  | ram memory emptied =>
    have hsize := (memory.length_visible_le keyspace ⟨some keyPrefix, none, none⟩).trans h
    simp only [answer, visible]
    rw [memory.countPrefix_eq_length, min_eq_right hsize]
  | durable db emptied => simp [answer, visible, Database.countPrefix, Database.count_eq, pageOf]

theorem answer_scan_of_panics {scan : Scan} (h : mode.Panics keyspace scan) :
    mode.answer keyspace (.scan scan) = .panic := by
  cases mode with
  | ram memory emptied => exact congrArg Answer.ofScan (Memory.scan_of_panics h)
  | durable db emptied => exact congrArg Answer.ofScan (Database.scan_of_panics h keyspace)

theorem answer_scan_of_not_panics {scan : Scan} (h : ¬ mode.Panics keyspace scan) :
    mode.answer keyspace (.scan scan) = .page (pageOf scan.offset scan.limit (mode.visible keyspace scan.bounds)) := by
  cases mode with
  | ram memory emptied => exact congrArg Answer.ofScan (Memory.scan_of_not_panics h)
  | durable db emptied => exact congrArg Answer.ofScan (Database.scan_of_not_panics h keyspace)

theorem answer_scan_eq_iff {a b : Mode} (h : a.view keyspace = b.view keyspace) (scan : Scan) :
    a.answer keyspace (.scan scan) = b.answer keyspace (.scan scan) ↔
      (a.Panics keyspace scan ↔ b.Panics keyspace scan) := by
  by_cases ha : a.Panics keyspace scan <;> by_cases hb : b.Panics keyspace scan
  · simp [answer_scan_of_panics ha, answer_scan_of_panics hb, ha, hb]
  · simp [answer_scan_of_panics ha, answer_scan_of_not_panics hb, ha, hb]
  · simp [answer_scan_of_not_panics ha, answer_scan_of_panics hb, ha, hb]
  · simp [answer_scan_of_not_panics ha, answer_scan_of_not_panics hb, ha, hb, visible_eq h scan.bounds_public]

end Mode

/-- The reads that depend on the keyspace alone. -/
def Read.Isolated (a b : Mode) (keyspace : Keyspace) : Read → Prop
  | .withValue key => a.LooksUpOwn keyspace key ∧ b.LooksUpOwn keyspace key
  | .scan request => a.Panics keyspace request ↔ b.Panics keyspace request
  | _ => True

def AgreesWithGet (mode : Mode) (keyspace : Keyspace) : Read → Prop
  | .withValue key => mode.answer keyspace (.withValue key) = mode.answer keyspace (.get key)
  | _ => True

/-- Two databases with the same entries in a keyspace answer a read of it alike, whatever else they hold, exactly when
the read is isolated. -/
theorem keyspace_isolated_iff {a b : Mode} {keyspace : Keyspace} (ha : a.Addressable keyspace)
    (hb : b.Addressable keyspace) (hsame : ∀ key value, a.Holds keyspace key value ↔ b.Holds keyspace key value)
    (read : Read) :
    (a.answer keyspace read = b.answer keyspace read ∧ AgreesWithGet a keyspace read ∧ AgreesWithGet b keyspace read) ↔
      read.Isolated a b keyspace := by
  have hview : a.view keyspace = b.view keyspace := by
    funext key
    apply Option.ext
    intro value
    rw [← a.holds_iff, ← b.holds_iff]
    exact hsame key value
  cases read with
  | get key => simp [Mode.answer_get, AgreesWithGet, Read.Isolated, hview]
  | withValue key =>
    simp only [AgreesWithGet, Mode.answer_withValue_eq_get_iff]
    constructor
    · exact fun h => h.2
    · intro h
      refine ⟨?_, h⟩
      rw [(a.answer_withValue_eq_get_iff keyspace key).mpr h.1, (b.answer_withValue_eq_get_iff keyspace key).mpr h.2,
        a.answer_get, b.answer_get, hview]
  | getManyShared keys => simp [Mode.answer_getManyShared, AgreesWithGet, Read.Isolated, hview]
  | scan scan => simpa [AgreesWithGet, Read.Isolated] using Mode.answer_scan_eq_iff hview scan
  | count => simp [Mode.answer_count ha, Mode.answer_count hb, AgreesWithGet, Read.Isolated, Mode.visible_eq hview]
  | countPrefix keyPrefix =>
    simp [Mode.answer_countPrefix ha, Mode.answer_countPrefix hb, AgreesWithGet, Read.Isolated, Mode.visible_eq hview]
  | snapshotGet key => simp [Mode.answer_snapshotGet, AgreesWithGet, Read.Isolated, hview]

theorem sample_other_keyspace :
    ∃ db, sampleRun [.commit [samplePut [98, 0, 1] [1]]] = some db ∧
      db.inner.materializeState.entries = [([98, 0, 1], [1])] := by
  have hrun : (sampleRun [.commit [samplePut [98, 0, 1] [1]]]).map (fun db => db.inner.materializeState.entries) =
      some [([98, 0, 1], [1])] := by decide +kernel
  exact Option.map_eq_some_iff.mp hrun

theorem same_entries_of_other {db : Database} (h : db.inner.materializeState.entries = [([98, 0, 1], [1])])
    (key value : Bytes) :
    (Mode.durable db false).Holds sampleKeyspace key value ↔
      (Mode.ram Memory.empty false).Holds sampleKeyspace key value := by
  simp [Mode.Holds, h, physicalKey, Keyspace.namespace, sampleKeyspace, Memory.empty]

theorem counts_ignore_other_keyspace :
    ∃ db, sampleRun [.commit [samplePut [98, 0, 1] [1]]] = some db ∧
      ((Mode.durable db false).answer sampleKeyspace .count =
        (Mode.ram Memory.empty false).answer sampleKeyspace .count ∧
        AgreesWithGet (.durable db false) sampleKeyspace .count ∧
        AgreesWithGet (.ram Memory.empty false) sampleKeyspace .count ↔
      Read.Isolated (.durable db false) (.ram Memory.empty false) sampleKeyspace .count) := by
  obtain ⟨db, hdb, hentries⟩ := sample_other_keyspace
  refine ⟨db, hdb, keyspace_isolated_iff ?_ ?_ (same_entries_of_other hentries) .count⟩
  · exact trivial
  · exact Nat.zero_le _

-- the keyspace `a` is empty in both; the key spells the name of the keyspace `b`
theorem with_value_reads_other_keyspace :
    ∃ db, sampleRun [.commit [samplePut [98, 0, 1] [1]]] = some db ∧
      (∀ key value, (Mode.durable db false).Holds sampleKeyspace key value ↔
        (Mode.ram Memory.empty false).Holds sampleKeyspace key value) ∧
      (Mode.durable db false).answer sampleKeyspace (.withValue [98, 0, 1]) = .value (some [1]) ∧
      (Mode.ram Memory.empty false).answer sampleKeyspace (.withValue [98, 0, 1]) = .value none ∧
      (Mode.durable db false).answer sampleKeyspace (.get [98, 0, 1]) = .value none := by
  obtain ⟨db, hdb, hentries⟩ := sample_other_keyspace
  refine ⟨db, hdb, same_entries_of_other hentries, ?_, rfl, ?_⟩
  · apply congrArg Answer.value
    change db.inner.getDurableValue [98, 0, 1] = some [1]
    rw [← Inner.get_materializeState, SortedMap.get_eq_some_iff, hentries]
    simp
  · apply congrArg Answer.value
    change db.inner.getDurableValue (physicalKey sampleKeyspace [98, 0, 1]) = none
    rw [← Inner.get_materializeState, SortedMap.get_eq_none_iff, hentries]
    simp [physicalKey, Keyspace.namespace, sampleKeyspace]

end Thingd.ThingDb
