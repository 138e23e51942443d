import Thingd.ThingDb.TableParse

namespace Thingd.ThingDb

structure FileLayer where
  bytes : Bytes
  entries : Option (List TableIndexEntry)
  blocks : List FooterBlock
  isV2 : Bool

def openLayer (bytes : Bytes) : Parsed FileLayer := do
  let index ← readTableMetadata bytes
  pure ⟨bytes, if index.blocks.isEmpty then some index.entries else none, index.blocks, index.isV2⟩

-- `File::read_exact_at`
def readExactAt (bytes : Bytes) (offset length : ℕ) : Parsed Bytes :=
  match sliceGet bytes offset (offset + length) with
  | some part => .ok part
  | none => Parsed.fail "failed to fill whole buffer"

-- `entries[start..finish]`
def sliceEntries (entries : List TableIndexEntry) (range : ℕ × ℕ) : Parsed (List TableIndexEntry) :=
  if range.1 ≤ range.2 ∧ range.2 ≤ entries.length then .ok ((entries.take range.2).drop range.1)
  else .error (.panic "range end index out of range for slice")

-- what `binary_search_by` finds among keys in strict order
def searchEntries (entries : List TableIndexEntry) (key : Bytes) : Option TableIndexEntry :=
  entries.find? fun entry => decide (entry.key = key)

def finishRecord (bytes : Bytes) (afterValue : Cursor) (value : Option Bytes) : Parsed (Option Bytes) := do
  let (stored, cursor) ← parse readU32 afterValue
  let body ← slice bytes 0 afterValue.offset
  if stored ≠ checksum body then Parsed.fail "ThingDB table checksum mismatch"
  else if cursor.offset ≠ bytes.length then Parsed.fail "trailing bytes in ThingDB table record"
  else pure value

-- unlike `readTableValue`, this looks at the kind of a value before it moves
def peekTableValue (isV2 : Bool) : Reader (Option Bytes) := fun cursor =>
  if isV2 = false then readTableValue false cursor
  else if cursor.rest.head? = some 1 ∨ cursor.rest.head? = some 2 then readTableValue true cursor
  else .error "invalid ThingDB table operation"

def decodeTableValue (bytes : Bytes) (entry : TableIndexEntry) (isV2 : Bool) : Parsed (Option Bytes) := do
  let (key, afterKey) ← parse readBytes ⟨0, bytes⟩
  if key ≠ entry.key then Parsed.fail "ThingDB table index key mismatch"
  else do
    let (value, afterValue) ← parse (peekTableValue isV2) afterKey
    finishRecord bytes afterValue value

def readTableValueHandle (bytes : Bytes) (entry : TableIndexEntry) (isV2 : Bool) : Parsed (Option Bytes) := do
  let record ← readExactAt bytes entry.offset entry.length
  decodeTableValue record entry isV2

namespace FileLayer

section

variable (layer : FileLayer)

def loadedEntries : Parsed (List TableIndexEntry) :=
  match layer.entries with
  | some entries => .ok entries
  | none => do
    let index ← readTableIndex layer.bytes
    pure index.entries

def candidateBlock (key : Bytes) : Option FooterBlock :=
  if layer.blocks.isEmpty then none
  else
    (layer.blocks[partitionPoint (fun block => decide (block.lastKey < key)) layer.blocks]?).filter fun block =>
      decide (block.firstKey ≤ key) && decide (key ≤ block.lastKey)

def candidateEntryRange (entries : List TableIndexEntry) (key : Bytes) : ℕ × ℕ :=
  if layer.blocks.isEmpty then (0, entries.length)
  else
    match layer.blocks[partitionPoint (fun block => decide (block.lastKey < key)) layer.blocks]? with
    | none => (0, 0)
    | some block =>
      if key < block.firstKey then (0, 0)
      else
        (partitionPoint (fun entry => decide (entry.offset < block.offset)) entries,
          partitionPoint (fun entry => decide (entry.offset < min (block.offset + block.length) u64Max)) entries)

def readCachedTableBlock (block : FooterBlock) : Parsed Bytes := do
  let bytes ← readExactAt layer.bytes block.offset block.length
  if checksum bytes ≠ block.checksum then Parsed.fail "ThingDB table block checksum mismatch" else pure bytes

def readTableBlockEntryValue (block : FooterBlock) (entry : TableIndexEntry) : Parsed (Option (Option Bytes)) :=
  do
  let bytes ← layer.readCachedTableBlock block
  if entry.offset < block.offset then Parsed.fail "ThingDB table index precedes its block"
  else if u64Max < entry.offset - block.offset + entry.length then Parsed.fail "ThingDB table record range overflow"
  else
    match sliceGet bytes (entry.offset - block.offset) (entry.offset - block.offset + entry.length) with
    | none => Parsed.fail "ThingDB table index record is outside its block"
    | some record => do
      let (key, afterKey) ← parse readBytes ⟨0, record⟩
      if key ≠ entry.key then Parsed.fail "ThingDB table index key mismatch"
      else do
        let (value, afterValue) ← parse (readTableValue true) afterKey
        let value ← finishRecord record afterValue value
        pure (some value)

def findEntry (key : Bytes) : Parsed (Option TableIndexEntry) := do
  let entries ← layer.loadedEntries
  let candidates ← sliceEntries entries (layer.candidateEntryRange entries key)
  pure (searchEntries candidates key)

def lookup (key : Bytes) : Parsed (Option (Option Bytes)) := do
  let found ← layer.findEntry key
  match layer.candidateBlock key, found with
  | _, none => pure none
  | some block, some entry => layer.readTableBlockEntryValue block entry
  | none, some entry => do
    let value ← readTableValueHandle layer.bytes entry layer.isV2
    pure (some value)

/-- As `lookup`, but an entry that is not in its block is an error. -/
def lookupSnapshot (key : Bytes) : Parsed (Option (Option Bytes)) := do
  let found ← layer.findEntry key
  match layer.candidateBlock key, found with
  | _, none => pure none
  | some block, some entry => do
    match ← layer.readTableBlockEntryValue block entry with
    | none => Parsed.fail "ThingDB table index record was not found in its block"
    | some value => pure (some value)
  | none, some entry => do
    let value ← readTableValueHandle layer.bytes entry layer.isV2
    pure (some value)

end

end FileLayer

def firstLayer (look : FileLayer → Bytes → Parsed (Option (Option Bytes))) (key : Bytes) :
    List FileLayer → Parsed (Option (Option Bytes))
  | [] => pure none
  | layer :: layers => do
    match ← look layer key with
    | some value => pure (some value)
    | none => firstLayer look key layers

structure DurableState where
  pendingTable : SortedMap Bytes (Option Bytes)
  state : SortedMap Bytes Bytes
  tableLayers : List FileLayer

namespace DurableState

section

variable (durable : DurableState) (key : Bytes)

def inMemory : Option (Option Bytes) :=
  match durable.pendingTable.get key with
  | some value => some value
  | none => (durable.state.get key).map some

def getDurableValue : Parsed (Option Bytes) :=
  match durable.inMemory key with
  | some value => pure value
  | none => do
    let found ← firstLayer FileLayer.lookup key durable.tableLayers.reverse
    pure found.join

def getScanValueSnapshot : Parsed (Option Bytes) :=
  match durable.inMemory key with
  | some value => pure value
  | none => do
    let found ← firstLayer FileLayer.lookupSnapshot key durable.tableLayers.reverse
    pure found.join

end

def unresolved (durable : DurableState) (keys : List Bytes) : List ℕ :=
  (List.range keys.length).filter fun index => (keys[index]?.bind durable.inMemory).isNone

def fillUnresolved (durable : DurableState) (keys : List Bytes) :
    List ℕ → List (Option Bytes) → Parsed (List (Option Bytes))
  | [], values => pure values
  | index :: indexes, values =>
    match keys[index]? with
    | none => .error (.panic "index out of bounds")
    | some key => do
      match ← firstLayer FileLayer.lookup key durable.tableLayers.reverse with
      | some value => durable.fillUnresolved keys indexes (values.set index value)
      | none => durable.fillUnresolved keys indexes values

def getManyDurableValues (durable : DurableState) (keys : List Bytes) : Parsed (List (Option Bytes)) :=
  durable.fillUnresolved keys (durable.unresolved keys) (keys.map fun key => (durable.inMemory key).join)

def materializeEntries (layer : FileLayer) :
    List TableIndexEntry → SortedMap Bytes Bytes → Parsed (SortedMap Bytes Bytes)
  | [], state => pure state
  | entry :: entries, state => do
    match ← readTableValueHandle layer.bytes entry layer.isV2 with
    | some value => materializeEntries layer entries (state.insert entry.key value)
    | none => materializeEntries layer entries (state.erase entry.key)

def materializeLayers : List FileLayer → SortedMap Bytes Bytes → Parsed (SortedMap Bytes Bytes)
  | [], state => pure state
  | layer :: layers, state => do
    let entries ← layer.loadedEntries
    let state ← materializeEntries layer entries state
    materializeLayers layers state

def materializeState (durable : DurableState) : Parsed (SortedMap Bytes Bytes) := do
  let tables ← materializeLayers durable.tableLayers SortedMap.empty
  let state := durable.state.entries.foldl (fun state entry => state.insert entry.1 entry.2) tables
  pure (state.applyUpdates durable.pendingTable.entries)

end DurableState

end Thingd.ThingDb
