import Thingd.ThingDb.TableRead

namespace Thingd.ThingDb

open List

inductive TableVersion
  | v1
  | v2
  | v3
  deriving DecidableEq

namespace TableVersion

def magic : TableVersion → Bytes
  | v1 => tableMagic
  | v2 => tableMagicV2
  | v3 => tableMagicV3

def isV2 : TableVersion → Bool
  | v1 => false
  | _ => true

def isV3 : TableVersion → Bool
  | v3 => true
  | _ => false

end TableVersion

def footerBlocksAt : ℕ → List TableBlock → List FooterBlock
  | _, [] => []
  | offset, block :: blocks =>
    ⟨offset, (recordsBytes true block.records).length, block.firstKey, block.lastKey,
        checksum (recordsBytes true block.records)⟩ ::
      footerBlocksAt (offset + (recordsBytes true block.records).length) blocks

def footerBlockBytes (block : FooterBlock) : Bytes :=
  writeU64 block.offset ++ (writeU64 block.length ++ (fieldBytes block.firstKey ++ (fieldBytes block.lastKey ++
    writeU32 block.checksum)))

def footerBody (blocks : List FooterBlock) : Bytes :=
  tableFooterMagic ++ (writeU64 blocks.length ++ blocks.flatMap footerBlockBytes)

def footerBytes (blocks : List FooterBlock) : Bytes := footerBody blocks ++ writeU32 (checksum (footerBody blocks))

/-- A table in one of the formats. Only the third one has blocks, and the first one has no tombstones. -/
structure StoredTable where
  version : TableVersion
  layer : TableLayer
  legacy : version ≠ .v3 → layer.blocks = []
  covered : version = .v3 → layer.blocks.flatMap TableBlock.records = layer.records.entries
  present : version = .v1 → ∀ record ∈ layer.records.entries, record.2 ≠ none

namespace StoredTable

def records (table : StoredTable) : List Record := table.layer.records.entries

def dataBytes (table : StoredTable) : Bytes := recordsBytes table.version.isV2 table.records

def footer (table : StoredTable) : List FooterBlock := footerBlocksAt 24 table.layer.blocks

def bytes (table : StoredTable) : Bytes :=
  table.version.magic ++ (writeU64 table.layer.sequence ++ (writeU64 table.records.length ++
    (table.dataBytes ++ if table.version.isV3 then footerBytes table.footer else [])))

/-- A table whose file and whose index fit in memory; the length of a key is not the mark of the footer. -/
structure Fits (table : StoredTable) : Prop where
  sequence : table.layer.sequence ≤ u64Max
  bytes : table.bytes.length ≤ isizeMax
  entries : table.records.length * tableIndexEntrySize ≤ isizeMax
  blocks : table.layer.blocks.length * footerBlockSize ≤ isizeMax
  unmarked : table.version = .v3 → ∀ record ∈ table.records, writeU64 record.1.length ≠ tableFooterMagic

def index (table : StoredTable) : TableIndex :=
  ⟨table.layer.sequence, entriesAt table.version.isV2 24 table.records, table.version.isV2, table.footer⟩

end StoredTable

section Lengths

variable {isV2 : Bool}

theorem length_le_recordBytes (record : Record) :
    record.1.length ≤ (recordBytes isV2 record).length ∧
      ∀ value, record.2 = some value → value.length ≤ (recordBytes isV2 record).length := by
  rw [length_recordBytes, length_recordBody, length_fieldBytes]
  refine ⟨by omega, ?_⟩
  rintro value hvalue
  rw [hvalue]
  cases isV2 with
  | false =>
    rw [tableValueBytes, if_neg Bool.false_ne_true, length_fieldBytes]
    omega
  | true =>
    rw [tableValueBytes, if_pos rfl, length_cons, length_fieldBytes]
    omega

theorem length_recordBytes_le {record : Record} {records : List Record} (h : record ∈ records) :
    (recordBytes isV2 record).length ≤ (recordsBytes isV2 records).length := by
  rw [recordsBytes, length_flatMap]
  exact le_sum_of_mem (mem_map_of_mem h)

theorem recordBytes_ne_nil (record : Record) : (recordBytes isV2 record).length ≠ 0 := by
  rw [length_recordBytes]
  omega

theorem length_footerBlocksAt (offset : ℕ) (blocks : List TableBlock) :
    (footerBlocksAt offset blocks).length = blocks.length := by
  induction blocks generalizing offset with
  | nil => rfl
  | cons block blocks ih => rw [footerBlocksAt, length_cons, length_cons, ih]

end Lengths

namespace StoredTable

variable {table : StoredTable}

theorem length_bytes (table : StoredTable) : 24 + table.dataBytes.length ≤ table.bytes.length := by
  have hmagic : table.version.magic.length = 8 := by
    cases table.version with
    | v1 => rfl
    | v2 => rfl
    | v3 => rfl
  simp only [bytes, length_append, length_writeU64]
  omega

theorem Fits.readable (h : table.Fits) :
    ∀ record ∈ table.records, Readable table.version.isV2 table.version.isV3 record := by
  intro record hrecord
  obtain ⟨hkey, hvalue⟩ := @length_le_recordBytes table.version.isV2 record
  have hrecordLength := @length_recordBytes_le table.version.isV2 record table.records hrecord
  have hdata := table.length_bytes
  have hsize := h.bytes
  have hmax : isizeMax ≤ u64Max := by decide
  rw [dataBytes] at hdata
  refine ⟨by omega, fun value heq => ?_, fun hv2 => ?_, fun hv3 => ?_⟩
  · have hlength := hvalue value heq
    omega
  · apply table.present ?_ record hrecord
    cases hversion : table.version with
    | v1 => rfl
    | v2 => rw [hversion] at hv2; cases hv2
    | v3 => rw [hversion] at hv2; cases hv2
  · apply h.unmarked ?_ record hrecord
    cases hversion : table.version with
    | v1 => rw [hversion] at hv3; cases hv3
    | v2 => rw [hversion] at hv3; cases hv3
    | v3 => rfl

theorem Fits.header (h : table.Fits) :
    TableHeader table.bytes table.version.magic table.layer.sequence table.records.length
    (table.dataBytes ++ if table.version.isV3 then footerBytes table.footer else []) where
  known := by
    cases table.version with
    | v1 => exact Or.inl rfl
    | v2 => exact Or.inr (Or.inl rfl)
    | v3 => exact Or.inr (Or.inr rfl)
  sequence_le := h.sequence
  count_le := by
    have hentries := h.entries
    simp only [tableIndexEntrySize, isizeMax, u64Max] at hentries ⊢
    omega
  eq := rfl

end StoredTable

section Footer

variable {bytes : Bytes}

theorem parse_exact {α : Type} {reader : Reader α} {valid : α → Prop} {encode : α → Bytes}
    (hexact : reader.Exact valid encode) {a : α} (ha : valid a) (offset : ℕ) (tail : Bytes) :
    parse reader ⟨offset, encode a ++ tail⟩ = .ok (a, ⟨offset + (encode a).length, tail⟩) :=
  parse_ok_iff.mpr ((hexact _ _ _).mpr ⟨ha, rfl, rfl⟩)

theorem recordsBytes_append (isV2 : Bool) (records more : List Record) :
    recordsBytes isV2 (records ++ more) = recordsBytes isV2 records ++ recordsBytes isV2 more := flatMap_append

structure Admissible (bytes : Bytes) (footerStart : ℕ) (previous : Option (ℕ × ℕ)) (block : FooterBlock) : Prop where
  offset : 24 ≤ block.offset
  finish : block.offset + block.length ≤ footerStart
  previous : ∀ range ∈ previous, range.1 < block.offset ∧ range.2 = block.offset
  ordered : block.firstKey ≤ block.lastKey
  checksum : (slice bytes block.offset (block.offset + block.length)).map ThingDb.checksum = .ok block.checksum

theorem readFooterBlock_ok {footerStart offset : ℕ} {previous : Option (ℕ × ℕ)} {block : FooterBlock} {tail : Bytes}
    (h : Admissible bytes footerStart previous block) (hstart : footerStart ≤ isizeMax)
    (hfirst : block.firstKey.length ≤ isizeMax) (hlast : block.lastKey.length ≤ isizeMax) :
    readFooterBlock bytes footerStart previous ⟨offset, footerBlockBytes block ++ tail⟩ =
      .ok (block, ⟨offset + (footerBlockBytes block).length, tail⟩) := by
  have hmax : isizeMax ≤ u64Max := by decide
  have hfinish := h.finish
  obtain ⟨part, hpart, hchecksum⟩ : ∃ part, slice bytes block.offset (block.offset + block.length) = .ok part ∧
      checksum part = block.checksum := by
    have hslice := h.checksum
    cases hpart : slice bytes block.offset (block.offset + block.length) with
    | error failure =>
      rw [hpart] at hslice
      cases hslice
    | ok part =>
      rw [hpart] at hslice
      exact ⟨part, rfl, Except.ok.inj hslice⟩
  have hmetadata : (decide (block.offset < tableMagicV3.length + 16) ||
    decide (footerStart < block.offset + block.length) ||
      previous.any (fun range => decide (block.offset ≤ range.1)) ||
        previous.any (fun range => decide (block.offset ≠ range.2)) ||
      decide (block.lastKey < block.firstKey)) = false := by
    have hmagic : tableMagicV3.length = 8 := rfl
    have hoffset := h.offset
    simp only [Bool.or_eq_false_iff, decide_eq_false_iff_not]
    refine ⟨⟨⟨⟨by omega, by omega⟩, ?_⟩, ?_⟩, not_lt.mpr h.ordered⟩
    · cases previous with
      | none => rfl
      | some range => simpa using (h.previous range rfl).1
    · cases previous with
      | none => rfl
      | some range => simpa using (h.previous range rfl).2.symm
  have hsplit : footerBlockBytes block ++ tail =
    writeU64 block.offset ++ (writeU64 block.length ++ (fieldBytes block.firstKey ++
      (fieldBytes block.lastKey ++ (writeU32 block.checksum ++ tail)))) := by
    simp only [footerBlockBytes, append_assoc]
  have hlength : offset + (footerBlockBytes block).length = offset + (writeU64 block.offset).length +
      (writeU64 block.length).length + (fieldBytes block.firstKey).length + (fieldBytes block.lastKey).length +
      (writeU32 block.checksum).length := by
    simp only [footerBlockBytes, length_append]
    omega
  rw [readFooterBlock, hsplit, parse_exact readU64_exact (by omega), parsed_ok_bind]
  dsimp only
  rw [parse_exact readU64_exact (by omega), parsed_ok_bind]
  rw [parse_exact readBytes_exact (hfirst.trans hmax), parsed_ok_bind]
  rw [parse_exact readBytes_exact (hlast.trans hmax), parsed_ok_bind]
  rw [parse_exact readU32_exact (hchecksum ▸ checksum_lt part), parsed_ok_bind]
  rw [if_neg (by omega), hmetadata, hpart, parsed_ok_bind, if_neg (not_not.mpr hchecksum), hlength]
  rfl

theorem block_firstKey_le {block : TableBlock} (h : block.records.Pairwise (fun x y => x.1 < y.1)) :
    block.firstKey ≤ block.lastKey :=
  TableBlock.le_lastKey h (head_mem block.nonempty)

theorem recordsBytes_pos {records : List Record} (h : records ≠ []) : 0 < (recordsBytes true records).length := by
  obtain ⟨record, hrecord⟩ := exists_mem_of_ne_nil _ h
  have hlength := @length_recordBytes_le true record records hrecord
  have hpos := @recordBytes_ne_nil true record
  omega

theorem readFooterBlocks_ok {footerStart position offset : ℕ} {previous : Option (ℕ × ℕ)} {blocks : List TableBlock}
    {rest tail : Bytes} (hat : At bytes ⟨offset, recordsBytes true (blocks.flatMap TableBlock.records) ++ rest⟩)
    (hoffset : 24 ≤ offset) (hprevious : ∀ range ∈ previous, range.1 < offset ∧ range.2 = offset)
    (hstart : footerStart = offset + (recordsBytes true (blocks.flatMap TableBlock.records)).length)
    (hsize : footerStart ≤ isizeMax) (hsorted : ∀ block ∈ blocks, block.records.Pairwise (fun x y => x.1 < y.1)) :
    ∃ covered, readFooterBlocks bytes footerStart blocks.length previous
        ⟨position, (footerBlocksAt offset blocks).flatMap footerBlockBytes ++ tail⟩ =
      .ok ((footerBlocksAt offset blocks, covered),
        ⟨position + ((footerBlocksAt offset blocks).flatMap footerBlockBytes).length, tail⟩) ∧
      (blocks = [] → covered = previous) ∧ (blocks ≠ [] → covered.map Prod.snd = some footerStart) := by
  induction blocks generalizing position offset previous with
  | nil => exact ⟨previous, rfl, fun _ => rfl, fun hne => absurd rfl hne⟩
  | cons block blocks ih =>
    obtain ⟨hblock, hblocks⟩ := forall_mem_cons.mp hsorted
    rw [flatMap_cons, recordsBytes_append] at hat hstart
    rw [append_assoc] at hat
    rw [length_append] at hstart
    have hslice := hat.slice rfl
    have hpos := recordsBytes_pos block.nonempty
    have hkey {record : Record} (hrecord : record ∈ block.records) : record.1.length ≤ isizeMax := by
      have hrecordLength := @length_recordBytes_le true record block.records hrecord
      have hkeyLength := (@length_le_recordBytes true record).1
      omega
    have hadmissible : Admissible bytes footerStart previous
      ⟨offset, (recordsBytes true block.records).length, block.firstKey,
        block.lastKey, checksum (recordsBytes true block.records)⟩ := by
      refine ⟨hoffset, by dsimp only; omega, hprevious, block_firstKey_le hblock, ?_⟩
      rw [hslice]
      rfl
    have hfirst := fun tail => @readFooterBlock_ok bytes footerStart position previous _ tail hadmissible hsize
      (hkey (head_mem block.nonempty)) (hkey (getLast_mem block.nonempty))
    have hnext : At bytes ⟨offset + (recordsBytes true block.records).length,
        recordsBytes true (blocks.flatMap TableBlock.records) ++ rest⟩ := hat.next rfl rfl
    have hrange : ∀ range ∈ some (offset, offset + (recordsBytes true block.records).length),
        range.1 < offset + (recordsBytes true block.records).length ∧
          range.2 = offset + (recordsBytes true block.records).length := by
      rintro range ⟨⟩
      exact ⟨Nat.lt_add_of_pos_right hpos, rfl⟩
    obtain ⟨covered, hread, hempty, hcovered⟩ :=
      @ih (position + (footerBlockBytes ⟨offset, (recordsBytes true block.records).length,
      block.firstKey, block.lastKey,
        checksum (recordsBytes true block.records)⟩).length) _ _ hnext (by omega) hrange (by omega) hblocks
    refine ⟨covered, ?_, fun hnil => absurd hnil (cons_ne_nil _ _), fun _ => ?_⟩
    · rw [footerBlocksAt, flatMap_cons, append_assoc, length_cons, readFooterBlocks, hfirst, parsed_ok_bind]
      dsimp only
      rw [hread, length_append, Nat.add_assoc]
      rfl
    · by_cases hnil : blocks = []
      · rw [hempty hnil, hstart, hnil]
        rfl
      · exact hcovered hnil

theorem withCapacity_eq {count elementSize : ℕ} (h : count * elementSize ≤ isizeMax) :
    withCapacity count elementSize = .ok () :=
  if_pos h

theorem length_footerBody (blocks : List FooterBlock) :
    (footerBody blocks).length = 16 + (blocks.flatMap footerBlockBytes).length := by
  have hmagic : tableFooterMagic.length = 8 := rfl
  rw [footerBody, length_append, length_append, length_writeU64]
  omega

theorem validateTableFooter_ok {offset : ℕ} {blocks : List TableBlock} {c : Cursor} (hsize : bytes.length ≤ isizeMax)
    (hdata : At bytes ⟨offset,
      recordsBytes true (blocks.flatMap TableBlock.records) ++ footerBytes (footerBlocksAt offset blocks)⟩)
    (hoffset : 24 ≤ offset)
    (hc : c = ⟨offset + (recordsBytes true (blocks.flatMap TableBlock.records)).length,
      footerBytes (footerBlocksAt offset blocks)⟩)
    (hcapacity : blocks.length * footerBlockSize ≤ isizeMax)
    (hsorted : ∀ block ∈ blocks, block.records.Pairwise (fun x y => x.1 < y.1)) :
    validateTableFooter bytes c.offset = .ok (footerBlocksAt offset blocks) := by
  have hat : At bytes c := by
    rw [hc]
    exact hdata.next rfl rfl
  have hlength : bytes.length = c.offset + (footerBytes (footerBlocksAt offset blocks)).length := by
    have hrest := congrArg List.length hat.rest
    have hle := hat.le
    rw [hc] at hrest hle ⊢
    rw [length_drop] at hrest
    dsimp only at hrest hle ⊢
    omega
  have hcount : blocks.length ≤ u64Max := by
    simp only [footerBlockSize, isizeMax, u64Max] at hcapacity ⊢
    omega
  have hmark : c.rest =
    tableFooterMagic ++ (writeU64 blocks.length ++ ((footerBlocksAt offset blocks).flatMap footerBlockBytes ++
      writeU32 (checksum (footerBody (footerBlocksAt offset blocks))))) := by
    rw [hc, footerBytes, footerBody, length_footerBlocksAt]
    simp only [append_assoc]
  obtain ⟨covered, hblocks, hempty, hcovered⟩ :=
    @readFooterBlocks_ok bytes c.offset (c.offset + 8 + 8) offset none blocks
    (footerBytes (footerBlocksAt offset blocks)) (writeU32 (checksum (footerBody (footerBlocksAt offset blocks)))) hdata
      hoffset
    (fun _ hnone => by cases hnone) (by rw [hc]) (hat.le.trans hsize) hsorted
  have hcover : (decide (0 < blocks.length) && decide (covered.map Prod.snd ≠ some c.offset)) = false := by
    by_cases hnil : blocks = []
    · rw [hnil]
      rfl
    · rw [hcovered hnil]
      simp
  have hbody : c.offset + 8 + 8 + ((footerBlocksAt offset blocks).flatMap footerBlockBytes).length =
      c.offset + (footerBody (footerBlocksAt offset blocks)).length := by
    rw [length_footerBody]
    omega
  have hslice : slice bytes c.offset (c.offset + (footerBody (footerBlocksAt offset blocks)).length) =
      .ok (footerBody (footerBlocksAt offset blocks)) := by
    apply hat.slice
    rw [hc]
    rfl
  have hend : c.offset + (footerBody (footerBlocksAt offset blocks)).length + 4 = bytes.length := by
    rw [hlength, footerBytes, length_append, length_writeU32]
    omega
  rw [validateTableFooter_eq hat hsize hmark, parse_exact readU64_exact hcount, parsed_ok_bind]
  rw [withCapacity_eq hcapacity, parsed_ok_bind, length_writeU64, readFooterBody, hblocks, parsed_ok_bind]
  dsimp only
  rw [hcover, ← append_nil (writeU32 _), parse_exact readU32_exact (checksum_lt _), parsed_ok_bind]
  dsimp only
  rw [length_writeU32, subUsize_eq (by omega), parsed_ok_bind, Nat.add_sub_cancel, hbody, hslice, parsed_ok_bind,
    if_neg (not_not.mpr rfl), if_neg (not_not.mpr hend)]
  rfl

end Footer

namespace StoredTable

variable {table : StoredTable}

theorem sorted_blocks (hcovered : table.layer.blocks.flatMap TableBlock.records = table.layer.records.entries) :
    ∀ block ∈ table.layer.blocks, block.records.Pairwise (fun x y => x.1 < y.1) := by
  intro block hblock
  have hsorted := table.layer.records.sorted
  rw [← hcovered] at hsorted
  exact hsorted.sublist (sublist_flatten_of_mem (mem_map_of_mem hblock))

theorem Fits.finishTableIndex (h : table.Fits) :
    finishTableIndex table.bytes table.version.isV3 ⟨24 + table.dataBytes.length,
      if table.version.isV3 then footerBytes table.footer else []⟩ = .ok table.footer := by
  have hdata := h.header.position
  have hat : At table.bytes
    ⟨24 + table.dataBytes.length, if table.version.isV3 then footerBytes table.footer else []⟩ :=
    hdata.next rfl rfl
  rw [ThingDb.finishTableIndex]
  by_cases hversion : table.version = .v3
  · have hv3 : table.version.isV3 = true := by rw [hversion]; rfl
    have hv2 : table.version.isV2 = true := by rw [hversion]; rfl
    have hrecords := table.covered hversion
    rw [hv3] at hat hdata ⊢
    simp only [if_true] at hat hdata ⊢
    have hmark : footerAt table.bytes (24 + table.dataBytes.length) = .ok true := by
      have hprefix : tableFooterMagic <+: footerBytes table.footer := by
        rw [footerBytes, footerBody, append_assoc]
        exact prefix_append _ _
      rw [footerAt_eq hat h.bytes, decide_eq_true hprefix]
    rw [hmark, parsed_ok_bind]
    rw [dataBytes, hv2, records, ← hrecords] at hdata ⊢
    exact validateTableFooter_ok h.bytes hdata le_rfl rfl h.blocks (sorted_blocks hrecords)
  · have hv3 : table.version.isV3 = false := by
      cases hcase : table.version with
      | v1 => rfl
      | v2 => rfl
      | v3 => exact absurd hcase hversion
    have hfooter : table.footer = [] := by rw [footer, table.legacy hversion]; rfl
    have hlength : table.bytes.length = 24 + table.dataBytes.length := by
      have hrest := congrArg List.length hat.rest
      have hle := hat.le
      rw [length_drop, hv3] at hrest
      simp only [Bool.false_eq_true, if_false, length_nil] at hrest hle
      omega
    rw [hv3, hfooter, if_neg (not_not.mpr hlength.symm)]
    rfl

theorem Fits.readTableIndex (h : table.Fits) : readTableIndex table.bytes = .ok table.index := by
  have hv2 : decide (table.version.magic ≠ tableMagic) = table.version.isV2 := by
    cases table.version with
    | v1 => rfl
    | v2 => rfl
    | v3 => rfl
  have hv3 : decide (table.version.magic = tableMagicV3) = table.version.isV3 := by
    cases table.version with
    | v1 => rfl
    | v2 => rfl
    | v3 => rfl
  have hrecords := (@readRecords_ok_iff table.bytes table.version.isV2 table.version.isV3 _
    ⟨24 + table.dataBytes.length, if table.version.isV3 then footerBytes table.footer else []⟩ h.header.position h.bytes
    table.records.length (entriesAt table.version.isV2 24 table.records)).mpr
      ⟨table.records, rfl, h.readable, rfl, rfl, rfl⟩
  rw [h.header.readTableIndex_eq, hv2, hv3, readTableBody, withCapacity_eq h.entries, parsed_ok_bind, hrecords,
    parsed_ok_bind]
  dsimp only
  rw [(keysOrdered_iff 24 table.records).mpr table.layer.records.sorted, Bool.not_true, h.finishTableIndex]
  rfl

end StoredTable

end Thingd.ThingDb
