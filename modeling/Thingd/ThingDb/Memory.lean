import Thingd.ThingDb.ScanSpec
import Thingd.ThingDb.Session

namespace Thingd.ThingDb

open Writes SortedMap

inductive Bound
  | included (key : Bytes)
  | excluded (key : Bytes)
  | unbounded

namespace Bound

def ofKey (bound : Bytes × Bool) : Bound := if bound.2 then .included bound.1 else .excluded bound.1

def above (bound : Bound) (key : Bytes) : Bool :=
  match bound with
  | .included start => start ≤ key
  | .excluded start => start < key
  | .unbounded => true

def below (bound : Bound) (key : Bytes) : Bool :=
  match bound with
  | .included finish => key ≤ finish
  | .excluded finish => key < finish
  | .unbounded => true

def rejects : Bound → Bound → Bool
  | .excluded start, .excluded finish => finish ≤ start
  | .excluded start, .included finish => finish < start
  | .included start, .excluded finish => finish < start
  | .included start, .included finish => finish < start
  | _, _ => false

end Bound

namespace ScanBounds

def memoryLower (bounds : ScanBounds) : Bound :=
  match bounds.start, bounds.keyPrefix with
  | some start, some keyPrefix => if keyPrefix ≤ start.1 then Bound.ofKey start else .included keyPrefix
  | none, some keyPrefix => .included keyPrefix
  | some start, none => Bound.ofKey start
  | none, none => .unbounded

def memoryUpper (bounds : ScanBounds) : Bound :=
  match bounds.finish, bounds.keyPrefix.bind successor with
  | some finish, some keyPrefix => if finish.1 ≤ keyPrefix then Bound.ofKey finish else .excluded keyPrefix
  | some finish, none => Bound.ofKey finish
  | none, some keyPrefix => .excluded keyPrefix
  | none, none => .unbounded

end ScanBounds

structure Memory where
  keyspaces : SortedMap Bytes (SortedMap Bytes Bytes)
  noNul : ∀ name ∈ keyspaces.keys, (0 : Byte) ∉ name

namespace Memory

def empty : Memory := ⟨SortedMap.empty, nofun⟩

def validateMemoryBatchOperation (operation : BatchOperation) : Result Unit :=
  if operation.keyspace.name.isEmpty ||
    operation.keyspace.name.contains 0 then .error "invalid ThingDB in-memory keyspace"
  else .ok ()

theorem noNul_insert (memory : Memory) (keyspace : Keyspace) (entries : SortedMap Bytes Bytes) :
    ∀ name ∈ (memory.keyspaces.insert keyspace.name entries).keys, (0 : Byte) ∉ name := by
  intro name hname
  obtain ⟨found, hfound⟩ := mem_keys.mp hname
  rw [get_insert] at hfound
  split_ifs at hfound with heq
  · exact heq ▸ keyspace.noNul
  · exact memory.noNul name (mem_keys.mpr ⟨found, hfound⟩)

def applyMemoryBatchOperation (memory : Memory) (operation : BatchOperation) : Memory :=
  let entries := (memory.keyspaces.get operation.keyspace.name).getD SortedMap.empty
  ⟨memory.keyspaces.insert operation.keyspace.name (match operation.value with
    | some value => entries.insert operation.key value
    | none => entries.erase operation.key), memory.noNul_insert operation.keyspace _⟩

def commitBatch (memory : Memory) (batch : List BatchOperation) : Result Memory :=
  if batch.isEmpty then .ok memory
  else do
    batch.forM validateMemoryBatchOperation
    pure (batch.foldl applyMemoryBatchOperation memory)

def get (memory : Memory) (keyspace : Keyspace) (key : Bytes) : Option Bytes :=
  (memory.keyspaces.get keyspace.name).bind fun entries => entries.get key

def withValue (memory : Memory) (keyspace : Keyspace) (key : Bytes) : Option Bytes :=
  (memory.keyspaces.get keyspace.name).bind fun entries => entries.get key

def getManyShared (memory : Memory) (keyspace : Keyspace) (keys : List Bytes) : List (Option Bytes) :=
  if keys.isEmpty then []
  else keys.map fun key => (memory.keyspaces.get keyspace.name).bind fun entries => entries.get key

def iterLoop (keyPrefix : Option Bytes) (offset : ℕ) (limit : Option ℕ) : List Entry → ℕ → List Entry → List Entry
  | [], _, entries => entries
  | (key, value) :: rest, skipped, entries =>
    if keyPrefix.any fun keyPrefix => !keyPrefix.isPrefixOf key then entries
    else if skipped < offset then iterLoop keyPrefix offset limit rest (skipped + 1) entries
    else if limit.any (· ≤ (entries ++ [(key, value)]).length) then entries ++ [(key, value)]
    else iterLoop keyPrefix offset limit rest skipped (entries ++ [(key, value)])

/-- `none` is a panic. An emptied map may keep its root, which makes its bounds count. -/
def iterMemoryBounds (memory : Memory) (emptied : Bool) (keyspace : Keyspace) (bounds : ScanBounds) (offset : ℕ)
    (limit : Option ℕ) : Option (List Entry) :=
  match memory.keyspaces.get keyspace.name with
  | none => some []
  | some entries =>
    if (emptied || !entries.isEmpty) && bounds.memoryLower.rejects bounds.memoryUpper then none
    else
      let range := entries.entries.filter fun entry => bounds.memoryLower.above entry.1 &&
        bounds.memoryUpper.below entry.1
      some (iterLoop bounds.keyPrefix offset limit range 0 [])

def scan (memory : Memory) (emptied : Bool) (keyspace : Keyspace) (scan : Scan) : Option (List Entry) :=
  if scan.limit = some 0 then some []
  else memory.iterMemoryBounds emptied keyspace scan.bounds scan.offset scan.limit

def countMemoryPrefix (entries : SortedMap Bytes Bytes) (keyPrefix : Bytes) : ℕ :=
  ((entries.entries.filter fun entry => (Bound.included keyPrefix).above entry.1).takeWhile
    fun entry => keyPrefix.isPrefixOf entry.1).length

def count (memory : Memory) (keyspace : Keyspace) : ℕ := (memory.keyspaces.get keyspace.name).elim 0 size

def countPrefix (memory : Memory) (keyspace : Keyspace) (keyPrefix : Bytes) : ℕ :=
  (memory.keyspaces.get keyspace.name).elim 0 fun entries => countMemoryPrefix entries keyPrefix

def snapshot (memory : Memory) : SortedMap Bytes Bytes :=
  memory.keyspaces.entries.foldl (fun state keyspace =>
    keyspace.2.entries.foldl (fun state entry => state.insert ((keyspace.1 ++ [0]) ++ entry.1) entry.2) state)
    SortedMap.empty

end Memory

namespace Database

/-- What the durable branch looks up: the key as it is given, without the namespace of the keyspace. -/
def withValue (db : Database) (_keyspace : Keyspace) (key : Bytes) : Option Bytes := db.inner.getDurableValue key

def getManyDurableValues (inner : Inner) (keys : List Bytes) : List (Option Bytes) :=
  let values := keys.map fun key =>
    (key, (inner.pendingTable.get key).or ((inner.state.get key).map some))
  values.map fun value => value.2.getD (lookupLayers inner.tableLayers value.1).join

def getManyShared (db : Database) (keyspace : Keyspace) (keys : List Bytes) : List (Option Bytes) :=
  if keys.isEmpty then [] else getManyDurableValues db.inner (keys.map (physicalKey keyspace))

def snapshot (db : Database) : SortedMap Bytes Bytes := db.inner.materializeState

end Database

def snapshotGet (state : SortedMap Bytes Bytes) (keyspace : Keyspace) (key : Bytes) : Option Bytes :=
  state.get (physicalKey keyspace key)

theorem Scan.bounds_public (scan : Scan) : scan.bounds.keyPrefix = none ∨ scan.bounds.finish = none := by
  cases scan <;> simp [Scan.bounds, prefixBounds]

namespace Memory

section Commit

theorem forM_validate (batch : List BatchOperation) : batch.forM validateMemoryBatchOperation = .ok () := by
  induction batch with
  | nil => rfl
  | cons operation batch ih =>
    have hone : validateMemoryBatchOperation operation = .ok () := by
      simp [validateMemoryBatchOperation, operation.keyspace.nonempty, operation.keyspace.noNul]
    unfold List.forM
    rw [hone]
    exact ih

theorem commitBatch_eq (memory : Memory) (batch : List BatchOperation) :
    memory.commitBatch batch = .ok (batch.foldl applyMemoryBatchOperation memory) := by
  unfold commitBatch
  split_ifs with hempty
  · rw [List.isEmpty_iff.mp hempty]
    rfl
  · rw [forM_validate]
    rfl

theorem get_applyMemoryBatchOperation (memory : Memory) (operation : BatchOperation) :
    (fun p : Keyspace × Bytes => (applyMemoryBatchOperation memory operation).get p.1 p.2) =
      Function.update (fun p : Keyspace × Bytes => memory.get p.1 p.2) operation.write.1 operation.write.2 := by
  funext p
  obtain ⟨keyspace, key⟩ := p
  simp only [get, applyMemoryBatchOperation, BatchOperation.write, get_insert]
  by_cases hkeyspace : keyspace = operation.keyspace
  · subst hkeyspace
    by_cases hkey : key = operation.key
    · subst hkey
      cases hvalue : operation.value <;> simp
    · have hne : ((operation.keyspace, key) : Keyspace × Bytes) ≠ (operation.keyspace, operation.key) := by simp [hkey]
      rw [Function.update_of_ne hne]
      cases hvalue : operation.value <;> cases hget : memory.keyspaces.get operation.keyspace.name <;> simp [hkey]
  · have hname : keyspace.name ≠ operation.keyspace.name := Keyspace.name_injective.ne hkeyspace
    have hne : ((keyspace, key) : Keyspace × Bytes) ≠ (operation.keyspace, operation.key) := by simp [hkeyspace]
    rw [Function.update_of_ne hne, if_neg hname]

theorem get_foldl_apply (memory : Memory) (operations : List BatchOperation) (keyspace : Keyspace) (key : Bytes) :
    (operations.foldl applyMemoryBatchOperation memory).get keyspace key =
      writeAll (fun p => memory.get p.1 p.2) (operations.map BatchOperation.write) (keyspace, key) := by
  induction operations generalizing memory with
  | nil => rfl
  | cons operation operations ih =>
    rw [List.foldl_cons, ih, get_applyMemoryBatchOperation]
    rfl

end Commit

section Scan

variable {bounds : ScanBounds}

theorem above_ofKey (bound : Bytes × Bool) (key : Bytes) :
    (Bound.ofKey bound).above key = true ↔ if bound.2 then bound.1 ≤ key else bound.1 < key := by
  obtain ⟨start, inclusive⟩ := bound
  cases inclusive <;> simp [Bound.ofKey, Bound.above]

theorem below_ofKey (bound : Bytes × Bool) (key : Bytes) :
    (Bound.ofKey bound).below key = true ↔ if bound.2 then key ≤ bound.1 else key < bound.1 := by
  obtain ⟨finish, inclusive⟩ := bound
  cases inclusive <;> simp [Bound.ofKey, Bound.below]

theorem above_memoryLower_iff (bounds : ScanBounds) (key : Bytes) :
    bounds.memoryLower.above key = true ↔ (∀ keyPrefix, bounds.keyPrefix = some keyPrefix → keyPrefix ≤ key) ∧
      ∀ start inclusive, bounds.start = some (start, inclusive) → if inclusive then start ≤ key else start < key := by
  obtain ⟨keyPrefix, start, finish⟩ := bounds
  unfold ScanBounds.memoryLower
  cases start with
  | none => cases keyPrefix <;> simp [Bound.above]
  | some start =>
    obtain ⟨start, inclusive⟩ := start
    cases keyPrefix with
    | none => simp [above_ofKey]
    | some keyPrefix =>
      by_cases hle : keyPrefix ≤ start
      · simp only [if_pos hle, above_ofKey]
        cases inclusive
        · simpa using fun hlt => hle.trans (le_of_lt hlt)
        · simpa using hle.trans
      · have hlt : start < keyPrefix := not_le.mp hle
        simp only [if_neg hle, Bound.above]
        cases inclusive
        · simpa using hlt.trans_le
        · simpa using hlt.le.trans

theorem below_memoryUpper_iff (hpublic : bounds.keyPrefix = none ∨ bounds.finish = none) (key : Bytes) :
    bounds.memoryUpper.below key = true ↔
      (∀ keyPrefix, bounds.keyPrefix = some keyPrefix → (successor keyPrefix).all (key < ·) = true) ∧
      ∀ finish inclusive, bounds.finish = some (finish, inclusive) →
        if inclusive then key ≤ finish else key < finish := by
  obtain ⟨keyPrefix, start, finish⟩ := bounds
  unfold ScanBounds.memoryUpper
  cases finish with
  | none =>
    cases keyPrefix with
    | none => simp [Bound.below]
    | some keyPrefix => cases hnext : successor keyPrefix <;> simp [hnext, Bound.below]
  | some finish =>
    obtain rfl : keyPrefix = none := by simpa using hpublic
    obtain ⟨finish, inclusive⟩ := finish
    simp [below_ofKey]

theorem within_iff_admits (hpublic : bounds.keyPrefix = none ∨ bounds.finish = none) (key : Bytes) :
    (bounds.memoryLower.above key && bounds.memoryUpper.below key) = true ↔ bounds.Admits key := by
  rw [Bool.and_eq_true, above_memoryLower_iff, below_memoryUpper_iff hpublic]
  unfold ScanBounds.Admits
  simp only [isPrefix_iff_lt_successor]
  constructor
  · rintro ⟨⟨hlower, hstart⟩, hupper, hfinish⟩
    exact ⟨fun keyPrefix h => ⟨hlower keyPrefix h, hupper keyPrefix h⟩, hstart, hfinish⟩
  · rintro ⟨hstarts, hstart, hfinish⟩
    exact ⟨⟨fun keyPrefix h => (hstarts keyPrefix h).1, hstart⟩, fun keyPrefix h => (hstarts keyPrefix h).2, hfinish⟩

theorem iterLoop_eq {keyPrefix : Option Bytes} {offset : ℕ} {limit : Option ℕ} {range : List Entry} {skipped : ℕ}
    {entries : List Entry} (hstarts : ∀ entry ∈ range, ∀ start, keyPrefix = some start → start <+: entry.1)
    (hroom : ∀ bound, limit = some bound → entries.length < bound) :
    iterLoop keyPrefix offset limit range skipped entries =
      entries ++ pageOf (offset - skipped) (limit.map (· - entries.length)) range := by
  induction range generalizing skipped entries with
  | nil => cases limit <;> simp [iterLoop, pageOf]
  | cons entry range ih =>
    obtain ⟨key, value⟩ := entry
    have hkey : (keyPrefix.any fun start => !start.isPrefixOf key) = false := by
      cases keyPrefix with
      | none => rfl
      | some start => simpa using hstarts (key, value) (List.mem_cons_self ..) start rfl
    have hrest : ∀ entry ∈ range, ∀ start, keyPrefix = some start → start <+: entry.1 :=
      fun entry hentry => hstarts entry (List.mem_cons_of_mem _ hentry)
    rw [iterLoop, hkey, if_neg Bool.false_ne_true]
    split_ifs with hskip hfull
    · have hoffset : offset - skipped = (offset - (skipped + 1)) + 1 := by omega
      rw [ih hrest hroom, hoffset]
      cases limit <;> simp [pageOf]
    · obtain ⟨bound, rfl, hbound⟩ := (Option.any_eq_true _ _).mp hfull
      have hone : bound - entries.length = 1 := by
        have hlt := hroom bound rfl
        simp at hbound
        omega
      simp [pageOf, hone, Nat.sub_eq_zero_of_le (not_lt.mp hskip)]
    · have hnext : ∀ bound, limit = some bound → (entries ++ [(key, value)]).length < bound := by
        rintro bound rfl
        simpa using hfull
      rw [ih hrest hnext, Nat.sub_eq_zero_of_le (not_lt.mp hskip)]
      cases limit with
      | none => simp [pageOf]
      | some bound =>
        have hstep : bound - entries.length = (bound - (entries.length + 1)) + 1 := by
          have := hnext bound rfl
          simp at this
          omega
        simp [pageOf, hstep]

def visible (memory : Memory) (keyspace : Keyspace) (bounds : ScanBounds) : List Entry :=
  (memory.keyspaces.get keyspace.name).elim [] fun entries =>
    entries.entries.filter fun entry => bounds.memoryLower.above entry.1 && bounds.memoryUpper.below entry.1

theorem matching_visible (memory : Memory) (keyspace : Keyspace)
    (hpublic : bounds.keyPrefix = none ∨ bounds.finish = none) :
    Matching (memory.get keyspace) bounds (memory.visible keyspace bounds) := by
  unfold visible get
  cases hget : memory.keyspaces.get keyspace.name with
  | none => exact ⟨List.Pairwise.nil, by simp⟩
  | some entries =>
    refine ⟨entries.sorted.filter _, fun user value => ?_⟩
    simp only [Option.elim_some, Option.bind_some, List.mem_filter, within_iff_admits hpublic, get_eq_some_iff]

/-- The scan calls `BTreeMap::range` on a keyspace map that has a root, with bounds it rejects. -/
def Panics (memory : Memory) (emptied : Bool) (keyspace : Keyspace) (scan : Scan) : Prop :=
  scan.limit ≠ some 0 ∧ scan.bounds.memoryLower.rejects scan.bounds.memoryUpper = true ∧
    ∃ entries, memory.keyspaces.get keyspace.name = some entries ∧ (emptied || !entries.isEmpty) = true

variable {memory : Memory} {emptied : Bool} {keyspace : Keyspace} {scan : Scan}

theorem scan_of_panics (h : memory.Panics emptied keyspace scan) : memory.scan emptied keyspace scan = none := by
  obtain ⟨hlimit, hrejects, entries, hget, hrooted⟩ := h
  rw [Memory.scan, if_neg hlimit, iterMemoryBounds, hget]
  simp [hrejects, hrooted]

theorem scan_of_not_panics (h : ¬ memory.Panics emptied keyspace scan) :
    memory.scan emptied keyspace scan = some (pageOf scan.offset scan.limit (memory.visible keyspace scan.bounds)) := by
  unfold Memory.scan
  split_ifs with hlimit
  · simp [pageOf, hlimit]
  · unfold iterMemoryBounds visible
    cases hget : memory.keyspaces.get keyspace.name with
    | none => cases hscan : scan.limit <;> simp [pageOf]
    | some entries =>
      have hvalid : ((emptied || !entries.isEmpty) && scan.bounds.memoryLower.rejects scan.bounds.memoryUpper) =
        false := by
        rw [← Bool.not_eq_true, Bool.and_eq_true]
        rintro ⟨hrooted, hrejects⟩
        exact h ⟨hlimit, hrejects, entries, hget, hrooted⟩
      simp only [hvalid, Bool.false_eq_true]
      rw [iterLoop_eq]
      · simp
      · intro entry hentry start hstart
        have hadmits := (within_iff_admits scan.bounds_public entry.1).mp (List.mem_filter.mp hentry).2
        exact hadmits.1 start hstart
      · intro bound hbound
        have hne : bound ≠ 0 := by
          rintro rfl
          exact hlimit hbound
        simpa using Nat.pos_of_ne_zero hne

end Scan

end Memory

end Thingd.ThingDb
