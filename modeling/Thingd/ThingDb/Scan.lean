import Thingd.ThingDb.Commit
import Thingd.Data.Merge

namespace Thingd.ThingDb

open Merge

abbrev Entry := Bytes × Bytes

def successor : Bytes → Option Bytes
  | [] => none
  | byte :: bytes =>
    match successor bytes with
    | some next => some (byte :: next)
    | none => if byte = 255 then none else some [byte + 1]

structure ScanBounds where
  keyPrefix : Option Bytes
  start : Option (Bytes × Bool)
  finish : Option (Bytes × Bool)

namespace ScanBounds

section

variable (bounds : ScanBounds) (ns : Bytes)

def lower : Bytes :=
  ns ++ match bounds.keyPrefix, bounds.start with
    | some keyPrefix, some (start, _) => if keyPrefix ≤ start then start else keyPrefix
    | some keyPrefix, none => keyPrefix
    | none, some (start, _) => start
    | none, none => []

def upper : Option Bytes :=
  leastKey [successor ns, (bounds.keyPrefix.bind successor).map (ns ++ ·),
    bounds.finish.bind fun finish => if finish.2 then successor (ns ++ finish.1) else some (ns ++ finish.1)]

def after : Option Bytes :=
  bounds.start.bind fun start => if start.2 then none else some (ns ++ start.1)

def cursorAfter : Option Bytes :=
  (bounds.after ns).filter fun key => bounds.lower ns ≤ key

def emptyRange : Bool := (bounds.upper ns).any fun upper => upper ≤ bounds.lower ns

def userKey (key : Bytes) : Option Bytes :=
  (key.dropPrefix? ns).filter fun user =>
    bounds.keyPrefix.all (fun keyPrefix => keyPrefix.isPrefixOf user) &&
      bounds.start.all (fun start => if start.2 then start.1 ≤ user else start.1 < user) &&
      bounds.finish.all (fun finish => if finish.2 then user ≤ finish.1 else user < finish.1)

end

end ScanBounds

section Range

variable {β : Type}

def inRange (lower : Bytes) (upper after : Option Bytes) (key : Bytes) : Bool :=
  (match after with | some after => after < key | none => lower ≤ key) && upper.all (key < ·)

def mapRange (map : SortedMap Bytes β) (lower : Bytes) (upper after : Option Bytes) : List (Bytes × β) :=
  map.entries.filter fun entry => inRange lower upper after entry.1

def invalidRange (lower : Bytes) (upper after : Option Bytes) : Bool :=
  upper.any fun upper => match after with | some after => upper ≤ after | none => upper < lower

def nextMapKey (map : SortedMap Bytes β) (lower : Bytes) (upper after : Option Bytes) : Option Bytes :=
  (mapRange map lower upper after).head?.map Prod.fst

end Range

def getScanValueSnapshot (state : SortedMap Bytes Bytes) (pendingTable : SortedMap Bytes (Option Bytes))
    (layers : List TableLayer) (key : Bytes) : Option Bytes :=
  match pendingTable.get key with
  | some value => value
  | none =>
    match state.get key with
    | some value => some value
    | none => (lookupLayers layers key).join

section Loop

variable {σ : Type} (next : σ → Option (Record × σ)) (userKey : Bytes → Option Bytes)

/-- The collecting loop that the page and the full scan share; `none` when the budget of examined keys is spent. -/
def scanLoop (offset : ℕ) (limit maxExamined : Option ℕ) : ℕ → σ → ℕ → ℕ → List Entry → Option (List Entry)
  | 0, _, _, _, entries => some entries
  | fuel + 1, cursor, examined, skipped, entries =>
    if limit.any (· ≤ entries.length) then some entries
    else
      match next cursor with
      | none => some entries
      | some ((key, value), cursor) =>
        if maxExamined.any (· < examined + 1) then none
        else
          match value, userKey key with
          | some value, some user =>
            if skipped < offset then scanLoop offset limit maxExamined fuel cursor (examined + 1) (skipped + 1) entries
            else scanLoop offset limit maxExamined fuel cursor (examined + 1) skipped (entries ++ [(user, value)])
          | _, _ => scanLoop offset limit maxExamined fuel cursor (examined + 1) skipped entries

end Loop

def Inner.recordCount (inner : Inner) : ℕ :=
  inner.state.size + inner.pendingTable.size + (inner.tableLayers.map fun layer => layer.records.size).sum

def memtableNext : List (Bytes × Bytes) × List Record → Option (Record × List (Bytes × Bytes) × List Record)
  | ([], []) => none
  | ((key, value) :: state, []) => some ((key, some value), state, [])
  | ([], record :: pending) => some (record, [], pending)
  | ((key, value) :: state, record :: pending) =>
    if key < record.1 then some ((key, some value), state, record :: pending)
    else if key = record.1 then some (record, state, pending)
    else some (record, (key, value) :: state, pending)

def maxExamined (offset limit : ℕ) : ℕ :=
  max 256 (min 16384 (saturatingAdd (saturatingMul (saturatingAdd offset limit) 4) 64))

def iterDurableMemtablePage (inner : Inner) (ns : Bytes) (bounds : ScanBounds) (offset limit : ℕ) :
    Option (List Entry) :=
  if bounds.emptyRange ns then some []
  else
    let lower := bounds.lower ns
    let upper := bounds.upper ns
    let after := bounds.cursorAfter ns
    scanLoop memtableNext (bounds.userKey ns) offset (some limit) (some (maxExamined offset limit)) inner.recordCount
      (mapRange inner.state lower upper after, mapRange inner.pendingTable lower upper after) 0 0 []

def firstTableKey (records : List Record) (lower : Bytes) (upper after : Option Bytes) : Option Bytes :=
  let seek := (after.filter fun key => lower < key).getD lower
  let found := records.dropWhile fun record => record.1 < seek
  let found := if after.any (fun after => found.head?.any fun record => record.1 = after) then found.tail else found
  (found.head?.map Prod.fst).filter fun key => upper.all (key < ·)

def durableFirstNext (inner : Inner) (lower : Bytes) (upper after : Option Bytes) : Option (Record × Option Bytes) :=
  let cursorAfter := after.filter fun key => lower ≤ key
  let stateCandidate := (mapRange inner.state lower upper cursorAfter).head?
  let pendingCandidate := (mapRange inner.pendingTable lower upper cursorAfter).head?
  let tableCandidates := inner.tableLayers.map fun layer => firstTableKey layer.records.entries lower upper after
  (leastKey (stateCandidate.map Prod.fst :: pendingCandidate.map Prod.fst :: tableCandidates)).map fun key =>
    let value := match headAt Prod.fst key pendingCandidate with
      | some record => record.2
      | none =>
        match headAt Prod.fst key stateCandidate with
        | some record => some record.2
        | none => getScanValueSnapshot SortedMap.empty SortedMap.empty inner.tableLayers key
    ((key, value), some key)

def durableFirstLoop (inner : Inner) (ns lower : Bytes) (upper : Option Bytes) : ℕ → Option Bytes → List Entry
  | 0, _ => []
  | fuel + 1, after =>
    match durableFirstNext inner lower upper after with
    | none => []
    | some ((_, none), after) => durableFirstLoop inner ns lower upper fuel after
    | some ((key, some value), _) =>
      match key.dropPrefix? ns with
      | none => []
      | some user => [(user, value)]

/-- `none` is the panic of `BTreeMap::range`. It looks at its bounds only in a map with a root node, which a map
that was emptied by removals keeps. -/
def iterDurableFirst (inner : Inner) (emptied : Bool) (ns : Bytes) (bounds : ScanBounds) : Option (List Entry) :=
  let lower := bounds.lower ns
  let upper := bounds.upper ns
  let rooted := emptied || !inner.state.isEmpty || !inner.pendingTable.isEmpty
  if rooted && invalidRange lower upper (bounds.cursorAfter ns) then none
  else some (durableFirstLoop inner ns lower upper (inner.recordCount + 1) (bounds.after ns))

def durableScanMemtableChunkSize : ℕ := 256

structure MemtableChunk where
  records : List Record
  after : Option Bytes
  hasMore : Bool

section Chunk

variable {β : Type} (map : SortedMap Bytes β) (value : β → Option Bytes) (lower : Bytes) (upper : Option Bytes)

def captureDurableMemtableChunk (after : Option Bytes) : MemtableChunk :=
  let range := mapRange map lower upper after
  let records := (range.take durableScanMemtableChunkSize).map fun entry => (entry.1, value entry.2)
  ⟨records, records.getLast?.map Prod.fst, decide (durableScanMemtableChunkSize < range.length)⟩

def refill (chunk : MemtableChunk) : MemtableChunk :=
  if chunk.records.isEmpty &&
    chunk.hasMore then captureDurableMemtableChunk map value lower upper chunk.after else chunk

end Chunk

def startIndex (lower : Bytes) (after : Option Bytes) (records : List Record) : ℕ :=
  let lowerIndex := partitionPoint (fun record => record.1 < lower) records
  match after with
  | some after => max (partitionPoint (fun record => record.1 ≤ after) records) lowerIndex
  | none => lowerIndex

def endIndex (upper : Option Bytes) (records : List Record) : ℕ :=
  match upper with
  | some upper => partitionPoint (fun record => record.1 < upper) records
  | none => records.length

structure TableScanCursor where
  blocks : List TableBlock
  legacyEntries : Option (List Record)
  records : List Record

namespace TableScanCursor

def head (cursor : TableScanCursor) : Option Record := cursor.records.head?

section

variable (lower : Bytes) (upper : Option Bytes)

def loadNextLegacyEntry (cursor : TableScanCursor) : TableScanCursor :=
  match cursor.legacyEntries with
  | some (entry :: entries) =>
    if entry.1 < lower || upper.any (· ≤ entry.1) then { cursor with records := [] }
    else { cursor with legacyEntries := some entries, records := [entry] }
  | _ => { cursor with records := [] }

def nextBlock (after : Option Bytes) : List TableBlock → List TableBlock × List Record
  | [] => ([], [])
  | block :: blocks =>
    if block.lastKey < lower then nextBlock after blocks
    else if upper.any (· ≤ block.firstKey) then (blocks, [])
    else
      let afterIndex := startIndex lower after block.records
      if afterIndex < endIndex upper block.records then (blocks, block.records.drop afterIndex)
      else nextBlock after blocks

def loadNextBlock (after : Option Bytes) (cursor : TableScanCursor) : TableScanCursor :=
  let (blocks, records) := nextBlock lower upper after cursor.blocks
  { cursor with blocks := blocks, records := records }

def new (layer : TableLayer) (after : Option Bytes) : TableScanCursor :=
  let entries := layer.records.entries
  let legacyIndex := startIndex lower after entries
  let blockIndex := partitionPoint (fun block => block.lastKey < lower) layer.blocks
  if layer.blocks.isEmpty then loadNextLegacyEntry lower upper ⟨[], some (entries.drop legacyIndex), []⟩
  else loadNextBlock lower upper after ⟨layer.blocks.drop blockIndex, none, []⟩

def advance (cursor : TableScanCursor) : TableScanCursor :=
  if 1 < cursor.records.length then { cursor with records := cursor.records.tail }
  else if cursor.legacyEntries.isSome then loadNextLegacyEntry lower upper cursor
  else loadNextBlock lower upper none cursor

end

end TableScanCursor

structure TablePage where
  state : MemtableChunk
  pending : MemtableChunk
  cursors : List (ℕ × TableScanCursor)

def tableCursors (layers : List TableLayer) (lower : Bytes) (upper after : Option Bytes) : List (ℕ × TableScanCursor) :=
  layers.zipIdx.filterMap fun layer =>
    if layer.1.blocks.isEmpty && layer.1.records.isEmpty then none
    else some (layer.2 + 1, TableScanCursor.new lower upper layer.1 after)

def captureDurableTablePage (inner : Inner) (lower : Bytes) (upper after : Option Bytes) : TablePage :=
  ⟨captureDurableMemtableChunk inner.state some lower upper after,
    captureDurableMemtableChunk inner.pendingTable id lower upper after,
      tableCursors inner.tableLayers lower upper after⟩

def select (key : Bytes) (selected : Option (ℕ × Option Bytes)) (source : ℕ × Option Record) :
    Option (ℕ × Option Bytes) :=
  match headAt Prod.fst key source.2 with
  | none => selected
  | some record => if selected.all (fun best => best.1 < source.1) then some (source.1, record.2) else selected

def MemtableChunk.dropHead (chunk : MemtableChunk) : MemtableChunk := { chunk with records := chunk.records.tail }

def tablePageNext (inner : Inner) (lower : Bytes) (upper : Option Bytes) (page : TablePage) :
    Option (Record × TablePage) :=
  let state := refill inner.state some lower upper page.state
  let pending := refill inner.pendingTable id lower upper page.pending
  let heads := page.cursors.map fun cursor => (cursor.1, cursor.2.head)
  let candidates := state.records.head? :: pending.records.head? :: heads.map Prod.snd
  match leastKey (candidates.map (Option.map Prod.fst)) with
  | none => none
  | some key =>
    if upper.any (· ≤ key) then none
    else
      -- the two maps come above every layer, as `usize::MAX - 1` and `usize::MAX` do
      let sources := (inner.tableLayers.length + 1, state.records.head?) ::
        (inner.tableLayers.length + 2, pending.records.head?) :: heads
      let selected := sources.foldl (select key) none
      some ((key, selected.bind Prod.snd),
        ⟨advanceAt Prod.fst (fun chunk => chunk.records.head?) MemtableChunk.dropHead key state,
          advanceAt Prod.fst (fun chunk => chunk.records.head?) MemtableChunk.dropHead key pending,
          page.cursors.map fun cursor =>
            (cursor.1, advanceAt Prod.fst TableScanCursor.head (TableScanCursor.advance lower upper) key cursor.2)⟩)

def iterDurableTablePage (inner : Inner) (ns : Bytes) (bounds : ScanBounds) (offset limit : ℕ) : List Entry :=
  if bounds.emptyRange ns then []
  else
    let lower := bounds.lower ns
    let upper := bounds.upper ns
    let page := captureDurableTablePage inner lower upper (bounds.cursorAfter ns)
    (scanLoop (tablePageNext inner lower upper) (bounds.userKey ns) offset (some limit) none inner.recordCount page 0 0
      []).getD []

structure FullScan where
  stateKey : Option Bytes
  pendingKey : Option Bytes
  layers : List (List Record)

def fullScanStart (inner : Inner) (lower : Bytes) (upper after : Option Bytes) : FullScan :=
  ⟨nextMapKey inner.state lower upper after, nextMapKey inner.pendingTable lower upper after,
    inner.tableLayers.map fun layer =>
      let found := layer.records.entries.dropWhile fun record => record.1 < lower
      if after.any (fun after => found.head?.any fun record => record.1 = after) then found.tail else found⟩

def fullScanNext (inner : Inner) (lower : Bytes) (upper : Option Bytes) (scan : FullScan) :
    Option (Record × FullScan) :=
  match leastKey (scan.stateKey :: scan.pendingKey :: scan.layers.map fun records => records.head?.map Prod.fst) with
  | none => none
  | some key =>
    if upper.any (· ≤ key) then none
    else
      some ((key, getScanValueSnapshot inner.state inner.pendingTable inner.tableLayers key),
        ⟨if scan.stateKey = some key then nextMapKey inner.state lower upper (some key) else scan.stateKey,
          if scan.pendingKey = some key then nextMapKey inner.pendingTable lower upper (some key) else scan.pendingKey,
          scan.layers.map (advanceAt Prod.fst List.head? List.tail key)⟩)

def iterDurableMerge (inner : Inner) (ns : Bytes) (bounds : ScanBounds) (offset : ℕ) (limit : Option ℕ) : List Entry :=
  if bounds.emptyRange ns then []
  else
    let lower := bounds.lower ns
    let upper := bounds.upper ns
    (scanLoop (fullScanNext inner lower upper) (bounds.userKey ns) offset limit none inner.recordCount
      (fullScanStart inner lower upper (bounds.cursorAfter ns)) 0 0 []).getD []

def iterBoundsPaginated (inner : Inner) (emptied : Bool) (ns : Bytes) (bounds : ScanBounds) (offset : ℕ)
    (limit : Option ℕ) : Option (List Entry) :=
  if limit = some 0 then some []
  else
    let page := if inner.tableLayers.isEmpty && limit.any (· ≤ 4096) then
      iterDurableMemtablePage inner ns bounds offset (limit.getD 0) else none
    match page with
    | some page => some page
    | none =>
      if offset = 0 ∧ limit = some 1 then iterDurableFirst inner emptied ns bounds
      else
        match limit with
        | none => some (iterDurableMerge inner ns bounds offset none)
        | some limit =>
          if limit ≤ 4096 ∧ saturatingAdd offset limit ≤ 16384 then
            some (iterDurableTablePage inner ns bounds offset limit)
          else some (iterDurableMerge inner ns bounds offset (some limit))

inductive Scan
  | iter
  | keyPrefix (keyPrefix : Bytes)
  | prefixPage (keyPrefix : Bytes) (offset limit : ℕ)
  | prefixPageAfter (keyPrefix : Bytes) (afterKey : Option Bytes) (limit : ℕ)
  | firstPrefixAfter (keyPrefix : Bytes) (after : Option Bytes)
  | rangeBounds (start finish : Option (Bytes × Bool))

namespace Database

def scan (db : Database) (emptied : Bool) (keyspace : Keyspace) : Scan → Option (List Entry)
  | .iter => iterBoundsPaginated db.inner emptied keyspace.namespace ⟨none, none, none⟩ 0 none
  | .keyPrefix keyPrefix => iterBoundsPaginated db.inner emptied keyspace.namespace ⟨some keyPrefix, none, none⟩ 0 none
  | .prefixPage keyPrefix offset limit =>
    iterBoundsPaginated db.inner emptied keyspace.namespace ⟨some keyPrefix, none, none⟩ offset (some limit)
  | .prefixPageAfter keyPrefix afterKey limit =>
    iterBoundsPaginated db.inner emptied keyspace.namespace ⟨some keyPrefix, afterKey.map (·, false), none⟩ 0
      (some limit)
  | .firstPrefixAfter keyPrefix after =>
    iterBoundsPaginated db.inner emptied keyspace.namespace ⟨some keyPrefix, after.map (·, false), none⟩ 0 (some 1)
  | .rangeBounds start finish => iterBoundsPaginated db.inner emptied keyspace.namespace ⟨none, start, finish⟩ 0 none

def countDurableNamespace (db : Database) (ns : Bytes) (keyPrefix : Option Bytes) : ℕ :=
  (iterDurableTablePage db.inner ns ⟨keyPrefix, none, none⟩ 0 u64Max).length

def count (db : Database) (keyspace : Keyspace) : ℕ := db.countDurableNamespace keyspace.namespace none

def countPrefix (db : Database) (keyspace : Keyspace) (keyPrefix : Bytes) : ℕ :=
  db.countDurableNamespace keyspace.namespace (some keyPrefix)

end Database

end Thingd.ThingDb
