import Thingd.ThingDb.Encoding
import Thingd.ThingDb.Table

namespace Thingd.ThingDb

inductive Failure
  | error (message : String)
  | panic (message : String)
  deriving DecidableEq

abbrev Parsed (α : Type) := Except Failure α

namespace Parsed

def ofResult {α : Type} : Result α → Parsed α
  | .ok a => .ok a
  | .error message => .error (.error message)

def fail {α : Type} (message : String) : Parsed α := .error (.error message)

end Parsed

def parse {α : Type} (reader : Reader α) (cursor : Cursor) : Parsed (α × Cursor) := Parsed.ofResult (reader cursor)

-- `bytes.get(start..finish)`
def sliceGet (bytes : Bytes) (start finish : ℕ) : Option Bytes :=
  if start ≤ finish ∧ finish ≤ bytes.length then some ((bytes.take finish).drop start) else none

-- `&bytes[start..finish]`
def slice (bytes : Bytes) (start finish : ℕ) : Parsed Bytes :=
  match sliceGet bytes start finish with
  | some part => .ok part
  | none => .error (.panic "range end index out of range for slice")

def addUsize (a b : ℕ) : Parsed ℕ :=
  if a + b ≤ u64Max then .ok (a + b) else .error (.panic "attempt to add with overflow")

def subUsize (a b : ℕ) : Parsed ℕ := if b ≤ a then .ok (a - b) else .error (.panic "attempt to subtract with overflow")

-- `Vec::with_capacity`, for elements of the given size
def withCapacity (count elementSize : ℕ) : Parsed Unit :=
  if count * elementSize ≤ isizeMax then .ok () else .error (.panic "capacity overflow")

def tableMagic : Bytes := [84, 68, 66, 84, 65, 66, 48, 49]

def tableMagicV2 : Bytes := [84, 68, 66, 84, 65, 66, 48, 50]

def tableMagicV3 : Bytes := [84, 68, 66, 84, 65, 66, 48, 51]

def tableFooterMagic : Bytes := [84, 68, 66, 70, 84, 82, 48, 49]

structure TableIndexEntry where
  key : Bytes
  offset : ℕ
  length : ℕ
  deriving DecidableEq

-- a vector of bytes and two words
def tableIndexEntrySize : ℕ := 24 + 8 + 8

structure FooterBlock where
  offset : ℕ
  length : ℕ
  firstKey : Bytes
  lastKey : Bytes
  checksum : ℕ
  deriving DecidableEq

-- two words, two vectors of bytes and a half word, which is padded
def footerBlockSize : ℕ := 8 + 8 + 24 + 24 + 8

structure TableIndex where
  sequence : ℕ
  entries : List TableIndexEntry
  isV2 : Bool
  blocks : List FooterBlock
  deriving DecidableEq

def readTableValue (isV2 : Bool) : Reader (Option Bytes) :=
  if isV2 then do
    let kind ← readByte
    if kind = 1 then do
      let value ← readBytes
      pure (some value)
    else if kind = 2 then pure none
    else throw "invalid ThingDB table operation"
  else do
    let value ← readBytes
    pure (some value)

def footerAt (bytes : Bytes) (cursor : ℕ) : Parsed Bool := do
  let finish ← addUsize cursor tableFooterMagic.length
  pure (decide (sliceGet bytes cursor finish = some tableFooterMagic))

def footerEarly (bytes : Bytes) (isV3 : Bool) (cursor : ℕ) : Parsed Bool :=
  if isV3 then footerAt bytes cursor else pure false

def readRecord (bytes : Bytes) (isV2 isV3 : Bool) (cursor : Cursor) : Parsed (TableIndexEntry × Cursor) := do
  let early ← footerEarly bytes isV3 cursor.offset
  if early then Parsed.fail "ThingDB table footer appears before all records"
  else do
    let (key, afterKey) ← parse readBytes cursor
    let (_, afterValue) ← parse (readTableValue isV2) afterKey
    let (stored, next) ← parse readU32 afterValue
    let record ← slice bytes cursor.offset afterValue.offset
    if stored ≠ checksum record then Parsed.fail "ThingDB table checksum mismatch"
    else do
      let length ← subUsize next.offset cursor.offset
      pure (⟨key, cursor.offset, length⟩, next)

def readRecords (bytes : Bytes) (isV2 isV3 : Bool) : ℕ → Cursor → Parsed (List TableIndexEntry × Cursor)
  | 0, cursor => pure ([], cursor)
  | count + 1, cursor => do
    let (entry, next) ← readRecord bytes isV2 isV3 cursor
    let (entries, last) ← readRecords bytes isV2 isV3 count next
    pure (entry :: entries, last)

def keysOrdered : List TableIndexEntry → Bool
  | first :: second :: rest => decide (first.key < second.key) && keysOrdered (second :: rest)
  | _ => true

/-- The block that the footer describes at a position; `previous` is where the block before it begins and ends. -/
def readFooterBlock (bytes : Bytes) (footerStart : ℕ) (previous : Option (ℕ × ℕ)) (cursor : Cursor) :
    Parsed (FooterBlock × Cursor) := do
  let (offset, cursor) ← parse readU64 cursor
  let (length, cursor) ← parse readU64 cursor
  let (firstKey, cursor) ← parse readBytes cursor
  let (lastKey, cursor) ← parse readBytes cursor
  let (blockChecksum, cursor) ← parse readU32 cursor
  if u64Max < offset + length then Parsed.fail "ThingDB table block range overflow"
  else if offset < tableMagicV3.length + 16 || footerStart < offset + length ||
      previous.any (fun range => offset ≤ range.1) || previous.any (fun range => offset ≠ range.2) || lastKey <
        firstKey then
    Parsed.fail "invalid ThingDB table block metadata"
  else do
    let block ← slice bytes offset (offset + length)
    if checksum block ≠ blockChecksum then Parsed.fail "ThingDB table block checksum mismatch"
    else pure (⟨offset, length, firstKey, lastKey, blockChecksum⟩, cursor)

def readFooterBlocks (bytes : Bytes) (footerStart : ℕ) :
    ℕ → Option (ℕ × ℕ) → Cursor → Parsed ((List FooterBlock × Option (ℕ × ℕ)) × Cursor)
  | 0, previous, cursor => pure (([], previous), cursor)
  | count + 1, previous, cursor => do
    let (block, next) ← readFooterBlock bytes footerStart previous cursor
    let ((blocks, covered), last) ←
      readFooterBlocks bytes footerStart count (some (block.offset, block.offset + block.length)) next
    pure ((block :: blocks, covered), last)

section

variable (bytes : Bytes)

def readFooterBody (footerStart blockCount : ℕ) (cursor : Cursor) : Parsed (List FooterBlock) := do
  let ((blocks, covered), cursor) ← readFooterBlocks bytes footerStart blockCount none cursor
  if 0 < blockCount && covered.map Prod.snd ≠ some footerStart then
    Parsed.fail "ThingDB table blocks do not cover the data area"
  else do
    let (storedChecksum, cursor) ← parse readU32 cursor
    let finish ← subUsize cursor.offset 4
    let footer ← slice bytes footerStart finish
    if storedChecksum ≠ checksum footer then Parsed.fail "ThingDB table footer checksum mismatch"
    else if cursor.offset ≠ bytes.length then Parsed.fail "trailing bytes after ThingDB table footer"
    else pure blocks

def validateTableFooter (footerStart : ℕ) : Parsed (List FooterBlock) := do
  let found ← footerAt bytes footerStart
  if !found then Parsed.fail "invalid ThingDB table footer"
  else do
    let start ← addUsize footerStart tableFooterMagic.length
    let (blockCount, cursor) ← parse readU64 ⟨start, bytes.drop start⟩
    withCapacity blockCount footerBlockSize
    readFooterBody bytes footerStart blockCount cursor

def validTableHeader : Bool :=
  decide (tableMagic.length + 16 ≤ bytes.length) &&
    (decide (bytes.take 8 = tableMagic) || decide (bytes.take 8 = tableMagicV2) || decide (bytes.take 8 = tableMagicV3))

def finishTableIndex (isV3 : Bool) (cursor : Cursor) : Parsed (List FooterBlock) :=
  if isV3 then do
    let found ← footerAt bytes cursor.offset
    if found then validateTableFooter bytes cursor.offset
    else Parsed.fail "ThingDB table is missing its validated footer"
  else if cursor.offset ≠ bytes.length then Parsed.fail "trailing bytes in ThingDB table"
  else pure []

def readTableBody (isV2 isV3 : Bool) (sequence count : ℕ) (cursor : Cursor) : Parsed TableIndex := do
  withCapacity count tableIndexEntrySize
  let (entries, cursor) ← readRecords bytes isV2 isV3 count cursor
  if !keysOrdered entries then Parsed.fail "ThingDB table keys are not strictly ordered"
  else do
    let blocks ← finishTableIndex bytes isV3 cursor
    pure ⟨sequence, entries, isV2, blocks⟩

def readTableIndex : Parsed TableIndex :=
  if !validTableHeader bytes then Parsed.fail "invalid ThingDB table"
  else do
    let (sequence, cursor) ← parse readU64 ⟨tableMagic.length, bytes.drop tableMagic.length⟩
    let (count, cursor) ← parse readU64 cursor
    readTableBody bytes (decide (bytes.take 8 ≠ tableMagic)) (decide (bytes.take 8 = tableMagicV3)) sequence count
      cursor

-- a table in the last format is read in full to validate it, but its index is not kept
def readTableMetadata : Parsed TableIndex :=
  if !validTableHeader bytes then Parsed.fail "invalid ThingDB table"
  else do
    let (sequence, _) ← parse readU64 ⟨tableMagic.length, bytes.drop tableMagic.length⟩
    let index ← readTableIndex bytes
    if bytes.take 8 ≠ tableMagicV3 then pure index
    else pure ⟨sequence, [], true, index.blocks⟩

end

end Thingd.ThingDb
