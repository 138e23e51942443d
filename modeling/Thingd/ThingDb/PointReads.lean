import Thingd.ThingDb.TableStored
import Thingd.ThingDb.View

namespace Thingd.ThingDb

open FileLayer List

variable {offset : ℕ}

section Entries

variable {isV2 : Bool}

theorem entriesAt_append (offset : ℕ) (records more : List Record) :
    entriesAt isV2 offset (records ++ more) =
      entriesAt isV2 offset records ++ entriesAt isV2 (offset + (recordsBytes isV2 records).length) more := by
  induction records generalizing offset with
  | nil => rfl
  | cons record records ih =>
    rw [cons_append, entriesAt, entriesAt, ih, recordsBytes_cons, length_append, Nat.add_assoc, cons_append]

theorem mem_entriesAt {records : List Record} {entry : TableIndexEntry} (h : entry ∈ entriesAt isV2 offset records) :
    offset ≤ entry.offset ∧ entry.offset < offset + (recordsBytes isV2 records).length := by
  induction records generalizing offset with
  | nil => cases h
  | cons record records ih =>
    have hpos := @recordBytes_ne_nil isV2 record
    rw [recordsBytes_cons, length_append]
    rcases mem_cons.mp h with rfl | h
    · dsimp only
      omega
    · have hrest := ih h
      omega

theorem searchEntries_entriesAt (offset : ℕ) (records : List Record) (key : Bytes) :
    (searchEntries (entriesAt isV2 offset records) key = none ∧ records.find? (fun record => record.1 = key) = none) ∨
      ∃ before record after, records = before ++ record :: after ∧ record.1 = key ∧
        records.find? (fun record => record.1 = key) = some record ∧
        searchEntries (entriesAt isV2 offset records) key =
          some ⟨record.1, offset + (recordsBytes isV2 before).length, (recordBytes isV2 record).length⟩ := by
  induction records generalizing offset with
  | nil => exact Or.inl ⟨rfl, rfl⟩
  | cons first records ih =>
    rw [entriesAt, searchEntries]
    by_cases hkey : first.1 = key
    · refine Or.inr ⟨[], first, records, rfl, hkey, ?_, ?_⟩
      · simp only [List.find?_cons, hkey, decide_true]
      · simp only [List.find?_cons, hkey]
        rfl
    · simp only [List.find?_cons, hkey, decide_false]
      rcases ih (offset + (recordBytes isV2 first).length) with hnone |
        ⟨before, record, after, rfl, hrecord, hfind, hsearch⟩
      · exact Or.inl hnone
      · refine Or.inr ⟨first :: before, record, after, rfl, hrecord, hfind, ?_⟩
        rw [searchEntries] at hsearch
        rw [hsearch, recordsBytes_cons, length_append, Nat.add_assoc]

end Entries

section Values

variable {isV2 : Bool} {record : Record}

theorem finishRecord_ok (value : Option Bytes) :
    finishRecord (recordBytes isV2 record)
      ⟨(recordBody isV2 record).length, writeU32 (checksum (recordBody isV2 record))⟩ value =
      .ok value := by
  have hslice : slice (recordBytes isV2 record) 0 (0 + (recordBody isV2 record).length) =
    .ok (recordBody isV2 record) := by
    apply (at_start (recordBytes isV2 record)).slice
    rfl
  rw [Nat.zero_add] at hslice
  rw [finishRecord, ← append_nil (writeU32 _), parse_exact readU32_exact (checksum_lt _), parsed_ok_bind]
  dsimp only
  rw [hslice, parsed_ok_bind, if_neg (not_not.mpr rfl), if_neg]
  · rfl
  · rw [not_not, length_recordBytes, length_writeU32]

theorem recordBytes_split :
    recordBytes isV2 record =
      fieldBytes record.1 ++ (tableValueBytes isV2 record.2 ++ writeU32 (checksum (recordBody isV2 record))) := by
  rw [recordBytes, recordBody, append_assoc]

theorem parse_key (h : record.1.length ≤ u64Max) :
    parse readBytes ⟨0, recordBytes isV2 record⟩ = .ok (record.1, ⟨(fieldBytes record.1).length,
      tableValueBytes isV2 record.2 ++ writeU32 (checksum (recordBody isV2 record))⟩) := by
  rw [recordBytes_split, parse_exact readBytes_exact h, Nat.zero_add]

variable {isV3 : Bool}

theorem parse_value (h : Readable isV2 isV3 record) :
    parse (readTableValue isV2) ⟨(fieldBytes record.1).length,
        tableValueBytes isV2 record.2 ++ writeU32 (checksum (recordBody isV2 record))⟩ =
      .ok (record.2, ⟨(recordBody isV2 record).length, writeU32 (checksum (recordBody isV2 record))⟩) := by
  rw [parse_exact (readTableValue_exact isV2) ⟨h.value, h.present⟩, length_recordBody]

theorem peekTableValue_eq (h : Readable isV2 isV3 record) (offset : ℕ) (tail : Bytes) :
    peekTableValue isV2 ⟨offset, tableValueBytes isV2 record.2 ++ tail⟩ =
      readTableValue isV2 ⟨offset, tableValueBytes isV2 record.2 ++ tail⟩ := by
  cases isV2 with
  | false => rfl
  | true =>
    rw [peekTableValue, if_neg (by simp), if_pos]
    cases record.2 with
    | none => exact Or.inr rfl
    | some value => exact Or.inl rfl

theorem decodeTableValue_ok (h : Readable isV2 isV3 record) {entry : TableIndexEntry} (hkey : entry.key = record.1) :
    decodeTableValue (recordBytes isV2 record) entry isV2 = .ok record.2 := by
  have hvalue := parse_value h
  rw [decodeTableValue, parse_key h.key, parsed_ok_bind]
  dsimp only
  rw [parse, ← peekTableValue_eq h] at hvalue
  rw [if_neg (not_not.mpr hkey.symm), parse, hvalue, parsed_ok_bind]
  exact finishRecord_ok record.2

theorem readExactAt_ok {bytes used tail : Bytes} (h : At bytes ⟨offset, used ++ tail⟩) :
    readExactAt bytes offset used.length = .ok used := by
  have hslice := h.sliceGet rfl
  rw [readExactAt, hslice]

theorem readTableValueHandle_ok (h : Readable isV2 isV3 record) {bytes tail : Bytes}
    (hat : At bytes ⟨offset, recordBytes isV2 record ++ tail⟩) :
    readTableValueHandle bytes ⟨record.1, offset, (recordBytes isV2 record).length⟩ isV2 = .ok record.2 := by
  rw [readTableValueHandle, readExactAt_ok hat, parsed_ok_bind]
  exact decodeTableValue_ok h rfl

end Values

namespace StoredTable

variable {table : StoredTable}

def fileLayer (table : StoredTable) : FileLayer :=
  ⟨table.bytes, if table.footer.isEmpty then some table.index.entries else none, table.footer, table.version.isV2⟩

theorem Fits.readTableMetadata (h : table.Fits) : ∃ index, ThingDb.readTableMetadata table.bytes = .ok index ∧
    index.isV2 = table.version.isV2 ∧ index.blocks = table.footer ∧
      (table.footer = [] → index.entries = table.index.entries) := by
  rw [ThingDb.readTableMetadata, h.header.valid, Bool.not_true, h.header.readSequence]
  dsimp only
  rw [h.readTableIndex, h.header.take_eight]
  cases hversion : table.version with
  | v1 => exact ⟨table.index, rfl, hversion ▸ rfl, rfl, fun _ => rfl⟩
  | v2 => exact ⟨table.index, rfl, hversion ▸ rfl, rfl, fun _ => rfl⟩
  | v3 =>
    refine ⟨⟨table.layer.sequence, [], true, table.footer⟩, rfl, rfl, rfl, fun hfooter => ?_⟩
    have hblocks : table.layer.blocks = [] := by
      apply eq_nil_of_length_eq_zero
      rw [← length_footerBlocksAt 24, ← footer, hfooter]
      rfl
    have hrecords := table.covered hversion
    rw [hblocks] at hrecords
    rw [index, records, ← hrecords]
    rfl

theorem Fits.openLayer (h : table.Fits) : openLayer table.bytes = .ok table.fileLayer := by
  obtain ⟨index, hindex, hv2, hblocks, hentries⟩ := h.readTableMetadata
  rw [ThingDb.openLayer, hindex, parsed_ok_bind, hblocks, hv2, fileLayer]
  by_cases hfooter : table.footer = []
  · rw [hentries hfooter]
    rfl
  · have hempty : table.footer.isEmpty = false := by simpa using hfooter
    rw [hempty]
    rfl

theorem Fits.loadedEntries (h : table.Fits) :
    table.fileLayer.loadedEntries = .ok (entriesAt table.version.isV2 24 table.records) := by
  rw [FileLayer.loadedEntries, fileLayer]
  by_cases hfooter : table.footer = []
  · rw [hfooter]
    rfl
  · have hempty : table.footer.isEmpty = false := by simpa using hfooter
    rw [hempty]
    rw [h.readTableIndex]
    rfl

theorem Fits.position (h : table.Fits) {before after : List Record} {record : Record}
    (hrecords : table.records = before ++ record :: after) :
    ∃ tail, At table.bytes
      ⟨24 + (recordsBytes table.version.isV2 before).length, recordBytes table.version.isV2 record ++ tail⟩ := by
  have hat := h.header.position
  rw [dataBytes, hrecords, recordsBytes_append, recordsBytes_cons, append_assoc, append_assoc] at hat
  exact ⟨_, hat.next rfl rfl⟩

theorem Fits.readTableValueHandle (h : table.Fits) {before after : List Record} {record : Record}
    (hrecords : table.records = before ++ record :: after) :
    ThingDb.readTableValueHandle table.bytes ⟨record.1, 24 + (recordsBytes table.version.isV2 before).length,
      (recordBytes table.version.isV2 record).length⟩ table.version.isV2 = .ok record.2 := by
  obtain ⟨tail, hat⟩ := h.position hrecords
  exact readTableValueHandle_ok (h.readable record (by rw [hrecords]; simp)) hat

end StoredTable

section Blocks

theorem footerBlocksAt_append (offset : ℕ) (blocks more : List TableBlock) :
    footerBlocksAt offset (blocks ++ more) = footerBlocksAt offset blocks ++
      footerBlocksAt (offset + (recordsBytes true (blocks.flatMap TableBlock.records)).length) more := by
  induction blocks generalizing offset with
  | nil => rfl
  | cons block blocks ih =>
    rw [cons_append, footerBlocksAt, footerBlocksAt, ih, flatMap_cons, recordsBytes_append, length_append,
      Nat.add_assoc, cons_append]

theorem partitionPoint_footerBlocksAt (offset : ℕ) (blocks : List TableBlock) (key : Bytes) :
    partitionPoint (fun block => decide (block.lastKey < key)) (footerBlocksAt offset blocks) =
      partitionPoint (fun block => decide (block.lastKey < key)) blocks := by
  induction blocks generalizing offset with
  | nil => rfl
  | cons block blocks ih =>
    have hrest := ih (offset + (recordsBytes true block.records).length)
    rw [partitionPoint, partitionPoint] at hrest
    rw [footerBlocksAt, partitionPoint, partitionPoint]
    by_cases hlt : block.lastKey < key
    · simp only [takeWhile_cons, hlt, decide_true, if_true, length_cons, hrest]
    · simp only [takeWhile_cons, hlt, decide_false, Bool.false_eq_true]
      rfl

theorem partitionPoint_append {α : Type} {p : α → Bool} {before after : List α} (hbefore : ∀ x ∈ before, p x = true)
    (hafter : ∀ x ∈ after.head?, p x = false) : partitionPoint p (before ++ after) = before.length := by
  have htail : after.takeWhile p = [] := by
    cases after with
    | nil => rfl
    | cons x after => rw [takeWhile_cons_of_neg (by rw [hafter x rfl]; exact Bool.false_ne_true)]
  rw [partitionPoint, takeWhile_append_of_pos hbefore, htail, append_nil]

theorem exists_candidate (blocks : List TableBlock) (key : Bytes) :
    blocks[partitionPoint (fun block => decide (block.lastKey < key)) blocks]? = none ∨
      ∃ before block after, blocks = before ++ block :: after ∧ key ≤ block.lastKey ∧
        partitionPoint (fun block => decide (block.lastKey < key)) blocks = before.length := by
  have hsplit := takeWhile_append_dropWhile (p := fun block => decide (block.lastKey < key)) (l := blocks)
  cases hafter : blocks.dropWhile (fun block => decide (block.lastKey < key)) with
  | nil =>
    left
    rw [hafter, append_nil] at hsplit
    rw [partitionPoint, hsplit]
    exact List.getElem?_eq_none le_rfl
  | cons block after =>
    right
    rw [hafter] at hsplit
    have hhead := head_dropWhile_not (fun block : TableBlock => decide (block.lastKey < key))
      (show blocks.dropWhile _ ≠ [] by rw [hafter]; exact cons_ne_nil _ _)
    simp only [hafter, decide_eq_false_iff_not, not_lt] at hhead
    exact ⟨_, block, after, hsplit.symm, hhead, rfl⟩

end Blocks

variable {key : Bytes}

namespace StoredTable

variable {table : StoredTable}

theorem sliceEntries_block {before after : List TableBlock} {block : TableBlock}
    (hlength : 24 + (recordsBytes true (before.flatMap TableBlock.records)).length +
      (recordsBytes true block.records).length ≤ u64Max) :
    let entries := entriesAt true 24 ((before ++ block :: after).flatMap TableBlock.records)
    let offset := 24 + (recordsBytes true (before.flatMap TableBlock.records)).length
    sliceEntries entries (partitionPoint (fun entry => decide (entry.offset < offset)) entries,
      partitionPoint (fun entry =>
        decide (entry.offset < min (offset + (recordsBytes true block.records).length) u64Max)) entries) =
      .ok (entriesAt true offset block.records) := by
  intro entries offset
  have hentries : entries =
    entriesAt true 24 (before.flatMap TableBlock.records) ++ (entriesAt true offset block.records ++
      entriesAt true (offset + (recordsBytes true block.records).length) (after.flatMap TableBlock.records)) := by
    rw [show entries = entriesAt true 24 ((before ++ block :: after).flatMap TableBlock.records) from rfl,
      flatMap_append, flatMap_cons, entriesAt_append, entriesAt_append]
  have hstart : partitionPoint (fun entry => decide (entry.offset < offset)) entries =
      (entriesAt true 24 (before.flatMap TableBlock.records)).length := by
    rw [hentries]
    apply partitionPoint_append
    · intro entry hentry
      exact decide_eq_true (mem_entriesAt hentry).2
    · obtain ⟨record, records, hrecords⟩ := exists_cons_of_ne_nil block.nonempty
      rw [hrecords]
      rintro entry ⟨⟩
      exact decide_eq_false (lt_irrefl _)
  have hfinish : partitionPoint
    (fun entry => decide (entry.offset < min (offset + (recordsBytes true block.records).length) u64Max)) entries =
      (entriesAt true 24 (before.flatMap TableBlock.records) ++ entriesAt true offset block.records).length := by
    rw [min_eq_left hlength, hentries, ← append_assoc]
    apply partitionPoint_append
    · intro entry hentry
      rcases mem_append.mp hentry with hentry | hentry
      · have hlt := (mem_entriesAt hentry).2
        exact decide_eq_true (by omega)
      · exact decide_eq_true (mem_entriesAt hentry).2
    · cases after.flatMap TableBlock.records with
      | nil => exact fun entry hnone => by cases hnone
      | cons record records =>
        rintro entry ⟨⟩
        exact decide_eq_false (lt_irrefl _)
  rw [hstart, hfinish, sliceEntries, if_pos, hentries]
  · rw [← append_assoc, take_left, drop_left]
  · rw [hentries]
    simp only [length_append]
    omega

def footerBlock (before : List TableBlock) (block : TableBlock) : FooterBlock :=
  ⟨24 + (recordsBytes true (before.flatMap TableBlock.records)).length, (recordsBytes true block.records).length,
    block.firstKey, block.lastKey, checksum (recordsBytes true block.records)⟩

theorem footer_getElem {before after : List TableBlock} {block : TableBlock}
    (hblocks : table.layer.blocks = before ++ block :: after) :
    table.footer[before.length]? = some (footerBlock before block) := by
  rw [footer, hblocks, footerBlocksAt_append, List.getElem?_append_right (by rw [length_footerBlocksAt]),
    length_footerBlocksAt, Nat.sub_self]
  rfl

section Block

variable {before after : List TableBlock} {block : TableBlock}

theorem version_of_blocks (hblocks : table.layer.blocks = before ++ block :: after) : table.version = .v3 := by
  by_contra hversion
  have hnil := table.legacy hversion
  rw [hblocks] at hnil
  simp at hnil

theorem records_of_blocks (hblocks : table.layer.blocks = before ++ block :: after) :
    table.records = before.flatMap TableBlock.records ++ (block.records ++ after.flatMap TableBlock.records) := by
  rw [records, ← table.covered (version_of_blocks hblocks), hblocks, flatMap_append, flatMap_cons]

section

variable (h : table.Fits) (hblocks : table.layer.blocks = before ++ block :: after)
include h hblocks

theorem Fits.blockPosition :
    ∃ tail, At table.bytes ⟨(footerBlock before block).offset, recordsBytes true block.records ++ tail⟩ := by
  have hat := h.header.position
  have hv2 : table.version.isV2 = true := by rw [version_of_blocks hblocks]; rfl
  rw [dataBytes, hv2, records_of_blocks hblocks, recordsBytes_append, recordsBytes_append, append_assoc,
    append_assoc] at hat
  exact ⟨_, hat.next rfl rfl⟩

theorem Fits.block_le : (footerBlock before block).offset + (footerBlock before block).length ≤ isizeMax := by
  obtain ⟨tail, hat⟩ := h.blockPosition hblocks
  have hle := hat.length_le rfl
  exact hle.trans h.bytes

theorem Fits.readTableBlockEntryValue {earlier later : List Record} {record : Record}
    (hrecords : block.records = earlier ++ record :: later) :
    table.fileLayer.readTableBlockEntryValue (footerBlock before block) ⟨record.1,
      (footerBlock before block).offset + (recordsBytes true earlier).length,
        (recordBytes true record).length⟩ = .ok (some record.2) := by
  obtain ⟨tail, hat⟩ := h.blockPosition hblocks
  have hcached : table.fileLayer.readCachedTableBlock (footerBlock before block) =
    .ok (recordsBytes true block.records) := by
    have hread : readExactAt table.fileLayer.bytes (footerBlock before block).offset (footerBlock before block).length =
        .ok (recordsBytes true block.records) := readExactAt_ok hat
    have hchecksum : checksum (recordsBytes true block.records) = (footerBlock before block).checksum := rfl
    rw [readCachedTableBlock, hread, parsed_ok_bind, if_neg (not_not.mpr hchecksum)]
    rfl
  have hmem : record ∈ table.records := by
    rw [records_of_blocks hblocks, hrecords]
    simp
  have hreadable := h.readable record hmem
  rw [version_of_blocks hblocks] at hreadable
  have hsplit : recordsBytes true block.records =
    recordsBytes true earlier ++ (recordBytes true record ++ recordsBytes true later) := by
    rw [hrecords, recordsBytes_append, recordsBytes_cons]
  have hinside : At (recordsBytes true block.records)
    ⟨(recordsBytes true earlier).length, recordBytes true record ++ recordsBytes true later⟩ :=
    (at_start _).next hsplit (Nat.zero_add _).symm
  have hslice := hinside.sliceGet rfl
  have hrange : ¬u64Max < (recordsBytes true earlier).length + (recordBytes true record).length := by
    have hle := h.block_le hblocks
    have hlength := congrArg List.length hsplit
    have hmax : isizeMax ≤ u64Max := by decide
    rw [length_append, length_append] at hlength
    have hblockLength : (footerBlock before block).length = (recordsBytes true block.records).length := rfl
    omega
  rw [FileLayer.readTableBlockEntryValue, hcached, parsed_ok_bind]
  rw [if_neg (not_lt.mpr (Nat.le_add_right _ _)), Nat.add_sub_cancel_left, if_neg hrange, hslice]
  dsimp only
  rw [parse_key hreadable.key, parsed_ok_bind]
  rw [if_neg (not_not.mpr rfl)]
  have hvalue : parse (readTableValue true) ⟨(fieldBytes record.1).length,
      tableValueBytes true record.2 ++ writeU32 (checksum (recordBody true record))⟩ = _ := parse_value hreadable
  rw [hvalue, parsed_ok_bind]
  rw [finishRecord_ok]
  rfl

end

end Block

theorem blocks_isEmpty (table : StoredTable) : table.footer.isEmpty = table.layer.blocks.isEmpty := by
  rw [footer]
  cases table.layer.blocks with
  | nil => rfl
  | cons block blocks => rfl

inductive Sought (table : StoredTable) (key : Bytes) : Prop
  | absent (hentry : table.fileLayer.findEntry key = .ok none) (hlookup : table.layer.lookup key = none)
  | plain {before after : List Record} {record : Record} (hrecords : table.records = before ++ record :: after)
      (hblock : table.fileLayer.candidateBlock key = none)
      (hentry : table.fileLayer.findEntry key =
        .ok (some ⟨record.1, 24 + (recordsBytes table.version.isV2 before).length,
        (recordBytes table.version.isV2 record).length⟩)) (hlookup : table.layer.lookup key = some record.2)
  | blocked {before after : List TableBlock} {block : TableBlock} {earlier later : List Record} {record : Record}
      (hblocks : table.layer.blocks = before ++ block :: after) (hrecords : block.records = earlier ++ record :: later)
      (hblock : table.fileLayer.candidateBlock key = some (footerBlock before block))
      (hentry : table.fileLayer.findEntry key = .ok (some ⟨record.1, (footerBlock before block).offset +
        (recordsBytes true earlier).length,
          (recordBytes true record).length⟩)) (hlookup : table.layer.lookup key = some record.2)

theorem sliceEntries_nil (entries : List TableIndexEntry) : sliceEntries entries (0, 0) = .ok [] := by
  rw [sliceEntries]
  rfl

theorem sliceEntries_all (entries : List TableIndexEntry) : sliceEntries entries (0, entries.length) = .ok entries := by
  rw [sliceEntries, if_pos ⟨Nat.zero_le _, le_rfl⟩]
  rw [take_length, drop_zero]

theorem Fits.sought_plain (h : table.Fits) (hblocks : table.layer.blocks = []) (key : Bytes) : Sought table key := by
  have hfooter : table.fileLayer.blocks.isEmpty = true := by
    rw [fileLayer, blocks_isEmpty, hblocks]
    rfl
  have hcandidate : table.fileLayer.candidateBlock key = none := by rw [candidateBlock, hfooter, if_pos rfl]
  have hentry : table.fileLayer.findEntry key =
    .ok (searchEntries (entriesAt table.version.isV2 24 table.records) key) := by
    rw [findEntry, h.loadedEntries, parsed_ok_bind, candidateEntryRange, hfooter, if_pos rfl,
      sliceEntries_all]
    rfl
  have hlookup : table.layer.lookup key = (table.records.find? fun record => record.1 = key).map Prod.snd := by
    rw [TableLayer.lookup, TableLayer.candidateEntries, hblocks]
    rfl
  rcases @searchEntries_entriesAt table.version.isV2 24 table.records key with
    ⟨hsearch, hfind⟩ | ⟨before, record, after, hrecords, hkey, hfind, hsearch⟩
  · rw [hsearch] at hentry
    rw [hfind] at hlookup
    exact .absent hentry hlookup
  · rw [hsearch] at hentry
    rw [hfind] at hlookup
    exact .plain hrecords hcandidate hentry hlookup

theorem Fits.sought_absent (h : table.Fits)
    (hrange : ∀ entries, table.fileLayer.candidateEntryRange entries key = (0, 0))
    (hcandidates : table.layer.candidateEntries key = []) : Sought table key := by
  apply Sought.absent
  · rw [findEntry, h.loadedEntries, parsed_ok_bind, hrange, sliceEntries_nil]
    rfl
  · rw [TableLayer.lookup, hcandidates]
    rfl

theorem Fits.sought_blocked (h : table.Fits) {before after : List TableBlock} {block : TableBlock}
    (hblocks : table.layer.blocks = before ++ block :: after)
    (hpoint : partitionPoint (fun block => decide (block.lastKey < key)) table.layer.blocks = before.length)
    (hlast : key ≤ block.lastKey) : Sought table key := by
  have hempty : table.fileLayer.blocks.isEmpty = false := by
    rw [fileLayer, blocks_isEmpty, hblocks]
    cases before with
    | nil => rfl
    | cons first before => rfl
  have hlayer : table.layer.blocks.isEmpty = false := (blocks_isEmpty table).symm.trans hempty
  have hfooter : table.fileLayer.blocks[partitionPoint (fun block => decide (block.lastKey < key))
    table.fileLayer.blocks]? =
      some (footerBlock before block) := by
    have hsame : partitionPoint (fun block => decide (block.lastKey < key)) table.fileLayer.blocks = before.length :=
      (partitionPoint_footerBlocksAt 24 table.layer.blocks key).trans hpoint
    rw [hsame]
    exact footer_getElem hblocks
  have hblock : table.layer.blocks[partitionPoint (fun block => decide (block.lastKey < key)) table.layer.blocks]? =
    some block := by
    rw [hpoint, hblocks]
    simp
  by_cases hfirst : key < block.firstKey
  · refine h.sought_absent (fun entries => ?_) ?_
    · rw [candidateEntryRange, hempty, hfooter]
      exact if_pos hfirst
    · rw [TableLayer.candidateEntries, hlayer, hblock]
      exact if_pos hfirst
  · have hcandidate : table.fileLayer.candidateBlock key = some (footerBlock before block) := by
      have hkey : (decide ((footerBlock before block).firstKey ≤ key) &&
        decide (key ≤ (footerBlock before block).lastKey)) = true := by
        rw [Bool.and_eq_true]
        exact ⟨decide_eq_true (not_lt.mp hfirst), decide_eq_true hlast⟩
      rw [candidateBlock, hempty, if_neg Bool.false_ne_true, hfooter, Option.filter_some, if_pos hkey]
    have hv2 : table.version.isV2 = true := by rw [version_of_blocks hblocks]; rfl
    have hrecords : table.records = (before ++ block :: after).flatMap TableBlock.records := by
      rw [records_of_blocks hblocks, flatMap_append, flatMap_cons]
    have hmax : isizeMax ≤ u64Max := by decide
    have hslice := @sliceEntries_block before after block ((h.block_le hblocks).trans hmax)
    have hentry : table.fileLayer.findEntry key =
        .ok (searchEntries (entriesAt true (footerBlock before block).offset block.records) key) := by
      rw [findEntry, h.loadedEntries, parsed_ok_bind, hv2, hrecords, candidateEntryRange, hempty, hfooter]
      dsimp only
      rw [if_neg (show ¬key < (footerBlock before block).firstKey from hfirst)]
      exact (congrArg (fun candidates => candidates >>= fun candidates => pure (searchEntries candidates key)) hslice :)
    have hlookup : table.layer.lookup key = (block.records.find? fun record => record.1 = key).map Prod.snd := by
      rw [TableLayer.lookup, TableLayer.candidateEntries, hlayer, if_neg Bool.false_ne_true, hblock]
      dsimp only
      rw [if_neg hfirst]
    rcases @searchEntries_entriesAt true (footerBlock before block).offset block.records key with
      ⟨hsearch, hfind⟩ | ⟨earlier, record, later, hsplit, hkey, hfind, hsearch⟩
    · rw [hsearch] at hentry
      rw [hfind] at hlookup
      exact .absent hentry hlookup
    · rw [hsearch] at hentry
      rw [hfind] at hlookup
      exact .blocked hblocks hsplit hcandidate hentry hlookup

theorem Fits.sought (h : table.Fits) (key : Bytes) : Sought table key := by
  by_cases hblocks : table.layer.blocks = []
  · exact h.sought_plain hblocks key
  · have hlayer : table.layer.blocks.isEmpty = false := by simpa using hblocks
    have hempty : table.fileLayer.blocks.isEmpty = false := (blocks_isEmpty table).trans hlayer
    rcases exists_candidate table.layer.blocks key with hnone | ⟨before, block, after, hsplit, hlast, hpoint⟩
    · refine h.sought_absent (fun entries => ?_) ?_
      · have hfooter : table.fileLayer.blocks[partitionPoint (fun block => decide (block.lastKey < key))
          table.fileLayer.blocks]? =
            none := by
          have hlength : table.fileLayer.blocks.length = table.layer.blocks.length := length_footerBlocksAt _ _
          have hsame : partitionPoint (fun block => decide (block.lastKey < key)) table.fileLayer.blocks = _ :=
            partitionPoint_footerBlocksAt 24 table.layer.blocks key
          rw [List.getElem?_eq_none_iff] at hnone ⊢
          rw [hsame, hlength]
          exact hnone
        rw [candidateEntryRange, hempty, if_neg Bool.false_ne_true, hfooter]
      · rw [TableLayer.candidateEntries, hlayer, if_neg Bool.false_ne_true, hnone]
    · exact h.sought_blocked hsplit hpoint hlast

theorem Fits.lookup (h : table.Fits) (key : Bytes) :
    table.fileLayer.lookup key = .ok (table.layer.records.get key) ∧
      table.fileLayer.lookupSnapshot key = .ok (table.layer.records.get key) := by
  rw [← TableLayer.lookup_eq, FileLayer.lookup, lookupSnapshot]
  cases h.sought key with
  | absent hentry hlookup =>
    rw [hentry, hlookup]
    cases table.fileLayer.candidateBlock key with
    | none => exact ⟨rfl, rfl⟩
    | some block => exact ⟨rfl, rfl⟩
  | plain hrecords hblock hentry hlookup =>
    have hvalue := h.readTableValueHandle hrecords
    rw [hentry, hlookup, hblock, parsed_ok_bind, parsed_ok_bind]
    dsimp only [fileLayer] at hvalue ⊢
    rw [hvalue]
    exact ⟨rfl, rfl⟩
  | blocked hblocks hrecords hblock hentry hlookup =>
    have hvalue := h.readTableBlockEntryValue hblocks hrecords
    rw [hentry, hlookup, hblock, parsed_ok_bind, parsed_ok_bind]
    dsimp only
    rw [hvalue]
    exact ⟨rfl, rfl⟩

end StoredTable

/-- The newest of the pending table, the state and the tables from the last one on; a tombstone means that there is
none. -/
def newestValue (pendingTable : SortedMap Bytes (Option Bytes)) (state : SortedMap Bytes Bytes)
    (tables : List StoredTable) (key : Bytes) : Option Bytes :=
  match pendingTable.get key with
  | some value => value
  | none =>
    match state.get key with
    | some value => some value
    | none => (tables.reverse.findSome? fun table => table.layer.records.get key).join

namespace DurableState

variable {tables : List StoredTable}

theorem firstLayer_ok {look : FileLayer → Bytes → Parsed (Option (Option Bytes))}
    (h : ∀ table ∈ tables, look table.fileLayer key = .ok (table.layer.records.get key)) :
    firstLayer look key (tables.map StoredTable.fileLayer) =
      .ok (tables.findSome? fun table => table.layer.records.get key) := by
  induction tables with
  | nil => rfl
  | cons table tables ih =>
    obtain ⟨hfirst, hrest⟩ := forall_mem_cons.mp h
    rw [map_cons, firstLayer, hfirst, List.findSome?_cons]
    cases table.layer.records.get key with
    | none => exact ih hrest
    | some value => rfl

def ofTables (pendingTable : SortedMap Bytes (Option Bytes)) (state : SortedMap Bytes Bytes)
    (tables : List StoredTable) : DurableState :=
  ⟨pendingTable, state, tables.map StoredTable.fileLayer⟩

variable {pendingTable : SortedMap Bytes (Option Bytes)} {state : SortedMap Bytes Bytes}

theorem newestValue_eq (key : Bytes) : newestValue pendingTable state tables key =
    match (ofTables pendingTable state tables).inMemory key with
    | some value => value
    | none => (tables.reverse.findSome? fun table => table.layer.records.get key).join := by
  rw [newestValue, inMemory, ofTables]
  cases pendingTable.get key with
  | some value => rfl
  | none =>
    cases state.get key with
    | some value => rfl
    | none => rfl

section

variable (hfits : ∀ table ∈ tables, table.Fits)
include hfits

theorem reads_layers (key : Bytes) :
    firstLayer lookup key (ofTables pendingTable state tables).tableLayers.reverse =
        .ok (tables.reverse.findSome? fun table => table.layer.records.get key) ∧
      firstLayer lookupSnapshot key (ofTables pendingTable state tables).tableLayers.reverse =
        .ok (tables.reverse.findSome? fun table => table.layer.records.get key) := by
  have hreverse : (ofTables pendingTable state tables).tableLayers.reverse = tables.reverse.map StoredTable.fileLayer :=
    map_reverse.symm
  rw [hreverse]
  constructor
  · apply firstLayer_ok
    intro table htable
    exact ((hfits table (mem_reverse.mp htable)).lookup key).1
  · apply firstLayer_ok
    intro table htable
    exact ((hfits table (mem_reverse.mp htable)).lookup key).2

theorem getDurableValue_ok (key : Bytes) :
    (ofTables pendingTable state tables).getDurableValue key = .ok (newestValue pendingTable state tables key) := by
  rw [getDurableValue, newestValue_eq]
  cases (ofTables pendingTable state tables).inMemory key with
  | some value => rfl
  | none =>
    rw [(reads_layers hfits key).1]
    rfl

theorem getScanValueSnapshot_ok (key : Bytes) :
    (ofTables pendingTable state tables).getScanValueSnapshot key =
      .ok (newestValue pendingTable state tables key) := by
  rw [getScanValueSnapshot, newestValue_eq]
  cases (ofTables pendingTable state tables).inMemory key with
  | some value => rfl
  | none =>
    rw [(reads_layers hfits key).2]
    rfl

theorem fillUnresolved_ok {keys : List Bytes} {indexes : List ℕ} {values : List (Option Bytes)}
    (hnodup : indexes.Nodup)
    (hopen : ∀ index ∈ indexes, ∃ key,
      keys[index]? = some key ∧ (ofTables pendingTable state tables).inMemory key = none ∧ values[index]? = some none)
    (hlength : values.length = keys.length)
    (hdone : ∀ index key, index ∉ indexes → keys[index]? = some key →
      values[index]? = some (newestValue pendingTable state tables key)) :
    (ofTables pendingTable state tables).fillUnresolved keys indexes values =
      .ok (keys.map (newestValue pendingTable state tables)) := by
  induction indexes generalizing values with
  | nil =>
    rw [fillUnresolved]
    refine congrArg Except.ok (ext_getElem? fun index => ?_)
    rw [List.getElem?_map]
    cases hkey : keys[index]? with
    | none =>
      rw [List.getElem?_eq_none_iff] at hkey
      exact List.getElem?_eq_none (by rw [hlength]; exact hkey)
    | some key => exact hdone index key not_mem_nil hkey
  | cons index indexes ih =>
    obtain ⟨hnot, hnodup⟩ := nodup_cons.mp hnodup
    obtain ⟨⟨key, hkey, hmemory, hvalue⟩, hopen⟩ := forall_mem_cons.mp hopen
    have hnewest : newestValue pendingTable state tables key =
      (tables.reverse.findSome? fun table => table.layer.records.get key).join := by
      rw [newestValue_eq, hmemory]
    simp only [fillUnresolved, hkey]
    rw [(reads_layers hfits key).1]
    cases hfound : tables.reverse.findSome? fun table => table.layer.records.get key with
    | none =>
      rw [hfound] at hnewest
      refine ih hnodup hopen hlength fun other key' hother hkey' => ?_
      by_cases hsame : other = index
      · subst hsame
        cases Option.some.inj (hkey.symm.trans hkey')
        rw [hvalue, hnewest]
        rfl
      · exact hdone other key' (by simp [hsame, hother]) hkey'
    | some value =>
      rw [hfound] at hnewest
      refine ih hnodup ?_ (by rw [length_set, hlength]) fun other key' hother hkey' => ?_
      · intro other hother
        obtain ⟨key', hkey', hmemory', hvalue'⟩ := hopen other hother
        refine ⟨key', hkey', hmemory', ?_⟩
        rw [List.getElem?_set_ne (by rintro rfl; exact hnot hother)]
        exact hvalue'
      · by_cases hsame : other = index
        · subst hsame
          cases Option.some.inj (hkey.symm.trans hkey')
          have hlt : other < values.length := by
            rw [hlength]
            exact (List.getElem?_eq_some_iff.mp hkey).1
          rw [List.getElem?_set_self hlt, hnewest]
          rfl
        · rw [List.getElem?_set_ne (Ne.symm hsame)]
          exact hdone other key' (by simp [hsame, hother]) hkey'

theorem getManyDurableValues_ok (keys : List Bytes) :
    (ofTables pendingTable state tables).getManyDurableValues keys =
      .ok (keys.map (newestValue pendingTable state tables)) := by
  rw [getManyDurableValues]
  apply fillUnresolved_ok hfits
  · exact nodup_range.filter _
  · intro index hindex
    obtain ⟨hrange, hnone⟩ := mem_filter.mp hindex
    obtain ⟨key, hkey⟩ : ∃ key, keys[index]? = some key := ⟨_, List.getElem?_eq_getElem (mem_range.mp hrange)⟩
    rw [hkey, Option.bind_some, Option.isNone_iff_eq_none] at hnone
    refine ⟨key, hkey, hnone, ?_⟩
    rw [List.getElem?_map, hkey, Option.map_some, hnone]
    rfl
  · rw [length_map]
  · intro index key hindex hkey
    have hmemory : (ofTables pendingTable state tables).inMemory key ≠ none := by
      intro hnone
      apply hindex
      apply mem_filter.mpr
      refine ⟨mem_range.mpr (List.getElem?_eq_some_iff.mp hkey).1, ?_⟩
      rw [hkey, Option.bind_some, hnone]
      rfl
    obtain ⟨value, hvalue⟩ := Option.ne_none_iff_exists'.mp hmemory
    rw [List.getElem?_map, hkey, Option.map_some, newestValue_eq, hvalue]
    rfl

end

theorem materializeEntries_ok {table : StoredTable} (hfits : table.Fits) {before after : List Record}
    (hrecords : table.records = before ++ after) (state : SortedMap Bytes Bytes) :
    materializeEntries table.fileLayer
        (entriesAt table.version.isV2 (24 + (recordsBytes table.version.isV2 before).length) after) state =
      .ok (state.applyUpdates after) := by
  induction after generalizing before state with
  | nil => rfl
  | cons record after ih =>
    have hvalue := hfits.readTableValueHandle hrecords
    have hnext : table.records = (before ++ [record]) ++ after := by rw [hrecords, append_assoc]; rfl
    have hrest := fun state => ih hnext state
    rw [recordsBytes_append, length_append, ← Nat.add_assoc] at hrest
    have hsingle : recordsBytes table.version.isV2 [record] = recordBytes table.version.isV2 record := append_nil _
    rw [hsingle] at hrest
    rw [entriesAt, materializeEntries]
    dsimp only [StoredTable.fileLayer] at hrest ⊢
    rw [hvalue, SortedMap.get_applyUpdates_cons]
    cases record.2 with
    | none => exact hrest _
    | some value => exact hrest _

theorem materializeLayers_ok (hfits : ∀ table ∈ tables, table.Fits) (state : SortedMap Bytes Bytes) :
    materializeLayers (tables.map StoredTable.fileLayer) state =
      .ok ((tables.map StoredTable.layer).foldl (fun state layer => state.applyUpdates layer.records.entries)
        state) := by
  induction tables generalizing state with
  | nil => rfl
  | cons table tables ih =>
    obtain ⟨hfirst, hrest⟩ := forall_mem_cons.mp hfits
    have hentries := materializeEntries_ok hfirst (nil_append table.records).symm state
    rw [map_cons, materializeLayers, hfirst.loadedEntries, parsed_ok_bind]
    rw [show 24 + (recordsBytes table.version.isV2 []).length = 24 from rfl] at hentries
    rw [hentries, parsed_ok_bind, ih hrest]
    rfl

theorem lookupLayers_tables (tables : List StoredTable) (key : Bytes) :
    lookupLayers (tables.map StoredTable.layer) key =
      tables.reverse.findSome? fun table => table.layer.records.get key := by
  rw [lookupLayers, ← map_reverse, List.findSome?_map]
  congr 1
  funext table
  exact table.layer.lookup_eq key

theorem materializeState_ok (hfits : ∀ table ∈ tables, table.Fits) :
    ∃ materialized, (ofTables pendingTable state tables).materializeState = .ok materialized ∧
      ∀ key, materialized.get key = newestValue pendingTable state tables key := by
  have hlayers := materializeLayers_ok hfits SortedMap.empty
  rw [materializeState]
  refine ⟨_, by rw [ofTables, hlayers]; rfl, fun key => ?_⟩
  rw [SortedMap.get_applyUpdates, Inner.get_foldl_insert, Inner.get_foldl_layers, lookupLayers_tables, newestValue]
  cases pendingTable.get key with
  | some value => rfl
  | none =>
    cases state.get key with
    | some value => rfl
    | none => cases tables.reverse.findSome? fun table => table.layer.records.get key <;> rfl

theorem mapM_openLayer (hfits : ∀ table ∈ tables, table.Fits) :
    (tables.map StoredTable.bytes).mapM openLayer = .ok (tables.map StoredTable.fileLayer) := by
  induction tables with
  | nil => rfl
  | cons table tables ih =>
    obtain ⟨hfirst, hrest⟩ := forall_mem_cons.mp hfits
    rw [map_cons, mapM_cons, hfirst.openLayer, ih hrest]
    rfl

theorem durable_point_reads_agree (pendingTable : SortedMap Bytes (Option Bytes)) (state : SortedMap Bytes Bytes)
    (tables : List StoredTable) (hfits : ∀ table ∈ tables, table.Fits) :
    ∃ layers materialized, (tables.map StoredTable.bytes).mapM openLayer = .ok layers ∧
      (DurableState.mk pendingTable state layers).materializeState = .ok materialized ∧
      ∀ keys,
        (DurableState.mk pendingTable state layers).getManyDurableValues keys =
          .ok (keys.map (newestValue pendingTable state tables)) ∧
        ∀ key ∈ keys,
          (DurableState.mk pendingTable state layers).getDurableValue key =
            .ok (newestValue pendingTable state tables key) ∧
          (DurableState.mk pendingTable state layers).getScanValueSnapshot key =
            .ok (newestValue pendingTable state tables key) ∧
          materialized.get key = newestValue pendingTable state tables key := by
  obtain ⟨materialized, hmaterialized, hget⟩ := materializeState_ok hfits
  refine ⟨tables.map StoredTable.fileLayer, materialized, mapM_openLayer hfits, hmaterialized, fun keys => ?_⟩
  refine ⟨getManyDurableValues_ok hfits keys, fun key _ => ?_⟩
  exact ⟨getDurableValue_ok hfits key, getScanValueSnapshot_ok hfits key, hget key⟩

def sampleTables : List StoredTable :=
  [⟨.v1, ⟨1, ⟨[([1], some [10]), ([2], some [11])], by decide⟩, [], Or.inl rfl⟩, fun _ => rfl,
    fun h => absurd h (by decide), fun _ => by decide⟩,
    ⟨.v2, ⟨2, ⟨[([2], none), ([3], some [12])], by decide⟩, [], Or.inl rfl⟩, fun _ => rfl,
      fun h => absurd h (by decide), fun h => absurd h (by decide)⟩,
    ⟨.v3, ⟨3, ⟨[([3], some [13]), ([4], some [])], by decide⟩,
      [⟨[([3], some [13])], by decide⟩, ⟨[([4], some [])], by decide⟩],
      Or.inr rfl⟩, fun h => absurd rfl h, fun _ => rfl, fun h => absurd h (by decide)⟩]

theorem sampleTables_fit : ∀ table ∈ sampleTables, table.Fits := by
  intro table htable
  rcases mem_cons.mp htable with rfl | htable
  · exact ⟨by decide, by decide +kernel, by decide, by decide, by decide⟩
  rcases mem_cons.mp htable with rfl | htable
  · exact ⟨by decide, by decide +kernel, by decide, by decide, by decide⟩
  rw [mem_singleton.mp htable]
  exact ⟨by decide, by decide +kernel, by decide, by decide, by decide⟩

theorem point_reads_over_three_formats :
    ∃ layers, (sampleTables.map StoredTable.bytes).mapM openLayer = .ok layers ∧
      (DurableState.mk ⟨[([1], none)], by decide⟩ ⟨[([1], [20]), ([5], [21])], by decide⟩ layers).getManyDurableValues
          [[3], [1], [2], [3], [4], [5], [6]] =
        .ok [some [13], none, none, some [13], some [], some [21], none] := by
  obtain ⟨layers, _, hlayers, _, hread⟩ := durable_point_reads_agree ⟨[([1], none)], by decide⟩
    ⟨[([1], [20]), ([5], [21])], by decide⟩ sampleTables sampleTables_fit
  refine ⟨layers, hlayers, ?_⟩
  rw [(hread [[3], [1], [2], [3], [4], [5], [6]]).1]
  rfl

end DurableState

end Thingd.ThingDb
