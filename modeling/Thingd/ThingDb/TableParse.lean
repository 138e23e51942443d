import Thingd.ThingDb.TableFormat

namespace Thingd.ThingDb

open Bytes List

section Safe

variable {α β : Type} {x : Parsed α} {f : α → Parsed β}

theorem parsed_bind_ok {b : β} : (x >>= f) = .ok b ↔ ∃ a, x = .ok a ∧ f a = .ok b := by
  cases x with
  | error failure => simp [bind, Except.bind]
  | ok a => simp [bind, Except.bind]

theorem parsed_ok_bind (a : α) (f : α → Parsed β) : ((Except.ok a : Parsed α) >>= f) = f a := rfl

theorem parse_ok_iff {reader : Reader α} {c c' : Cursor} {a : α} :
    parse reader c = .ok (a, c') ↔ reader c = .ok (a, c') := by
  rw [parse]
  cases reader c with
  | error message => simp [Parsed.ofResult]
  | ok result => simp [Parsed.ofResult]

def Safe (x : Parsed α) : Prop := ∀ message, x ≠ .error (.panic message)

theorem safe_ok (a : α) : Safe (.ok a) := fun _ h => by cases h

theorem safe_fail (message : String) : Safe (Parsed.fail message : Parsed α) := fun _ h => by cases h

theorem safe_bind_iff : Safe (x >>= f) ↔ Safe x ∧ ∀ a, x = .ok a → Safe (f a) := by
  cases x with
  | error failure =>
    constructor
    · intro h
      exact ⟨fun message heq => h message (by cases heq; rfl), fun a ha => by cases ha⟩
    · rintro ⟨h, -⟩ message heq
      exact h message (by cases heq; rfl)
  | ok a =>
    constructor
    · intro h
      exact ⟨safe_ok a, fun b hb => Except.ok.inj hb ▸ h⟩
    · rintro ⟨-, h⟩
      exact h a rfl

theorem safe_parse (reader : Reader α) (c : Cursor) : Safe (parse reader c) := by
  intro message h
  rw [parse] at h
  cases hread : reader c with
  | error text =>
    rw [hread] at h
    cases h
  | ok result =>
    rw [hread] at h
    cases h

theorem safe_slice {bytes : Bytes} {start finish : ℕ} (h : start ≤ finish) (hle : finish ≤ bytes.length) :
    Safe (slice bytes start finish) := by
  rw [slice, sliceGet, if_pos ⟨h, hle⟩]
  exact safe_ok _

theorem addUsize_eq {a b : ℕ} (h : a + b ≤ u64Max) : addUsize a b = .ok (a + b) := if_pos h

theorem subUsize_eq {a b : ℕ} (h : b ≤ a) : subUsize a b = .ok (a - b) := if_pos h

theorem safe_withCapacity_iff {count elementSize : ℕ} :
    Safe (withCapacity count elementSize) ↔ count * elementSize ≤ isizeMax := by
  rw [withCapacity]
  split_ifs with h
  · exact iff_of_true (safe_ok _) h
  · exact iff_of_false (fun hsafe => hsafe _ rfl) h

end Safe

section Records

variable {bytes : Bytes} {isV2 isV3 : Bool} {c c' : Cursor}

-- a file in memory has at most `isizeMax` bytes, so that positions in it can be moved by a few bytes
section

variable (h : At bytes c) (hsize : bytes.length ≤ isizeMax)
include h hsize

theorem At.addUsize {n : ℕ} (hn : n ≤ 8) : ThingDb.addUsize c.offset n = .ok (c.offset + n) := by
  have hle := h.le
  apply addUsize_eq
  simp only [u64Max, isizeMax] at hsize ⊢
  omega

theorem footerAt_eq : footerAt bytes c.offset = .ok (decide (tableFooterMagic <+: c.rest)) := by
  have hlength : tableFooterMagic.length = 8 := rfl
  rw [footerAt, h.addUsize hsize (by rw [hlength])]
  change Except.ok _ = Except.ok _
  congr 1
  rw [decide_eq_decide]
  constructor
  · intro hslice
    rw [sliceGet] at hslice
    split_ifs at hslice with hrange
    rw [drop_take, ← h.rest] at hslice
    rw [← Option.some.inj hslice]
    exact take_prefix _ _
  · rintro ⟨tail, htail⟩
    exact h.sliceGet htail.symm

theorem footerEarly_eq : footerEarly bytes isV3 c.offset = .ok (isV3 && decide (tableFooterMagic <+: c.rest)) := by
  cases isV3 with
  | false => rfl
  | true => exact footerAt_eq h hsize

end

theorem recordBytes_prefix_iff (record : Record) (tail : Bytes) :
    tableFooterMagic <+: recordBytes isV2 record ++ tail ↔ writeU64 record.1.length = tableFooterMagic := by
  have hsplit : recordBytes isV2 record ++ tail = writeU64 record.1.length ++
      (record.1 ++ (tableValueBytes isV2 record.2 ++ (writeU32 (checksum (recordBody isV2 record)) ++ tail))) := by
    simp only [recordBytes, recordBody, fieldBytes, append_assoc]
  rw [hsplit]
  constructor
  · intro hprefix
    exact (List.IsPrefix.eq_of_length (prefix_of_prefix_length_le hprefix (prefix_append _ _) (by
      rw [length_writeU64]
      rfl)) (by rw [length_writeU64]; rfl)).symm
  · intro heq
    rw [heq]
    exact prefix_append _ _

theorem length_recordBody (record : Record) :
    (recordBody isV2 record).length = (fieldBytes record.1).length + (tableValueBytes isV2 record.2).length :=
  length_append

theorem length_recordBytes (record : Record) :
    (recordBytes isV2 record).length = (recordBody isV2 record).length + 4 := by
  rw [recordBytes, length_append, length_writeU32]

theorem readRecord_ok_iff (h : At bytes c) (hsize : bytes.length ≤ isizeMax) {entry : TableIndexEntry} :
    readRecord bytes isV2 isV3 c = .ok (entry, c') ↔ ∃ record, Readable isV2 isV3 record ∧
      c.rest = recordBytes isV2 record ++ c'.rest ∧ c'.offset = c.offset + (recordBytes isV2 record).length ∧
      entry = ⟨record.1, c.offset, (recordBytes isV2 record).length⟩ := by
  rw [readRecord, footerEarly_eq h hsize]
  constructor
  · intro hread
    obtain ⟨early, hearly, hread⟩ := parsed_bind_ok.mp hread
    cases hearly
    split_ifs at hread with hmark
    · cases hread
    obtain ⟨⟨key, afterKey⟩, hkey, hread⟩ := parsed_bind_ok.mp hread
    obtain ⟨⟨value, afterValue⟩, hvalue, hread⟩ := parsed_bind_ok.mp hread
    obtain ⟨⟨stored, next⟩, hstored, hread⟩ := parsed_bind_ok.mp hread
    obtain ⟨hkeyLength, hkeyRest, hkeyOffset⟩ := (readBytes_exact _ _ _).mp (parse_ok_iff.mp hkey)
    obtain ⟨⟨hvalueLength, hpresent⟩, hvalueRest, hvalueOffset⟩ :=
      (readTableValue_exact isV2 _ _ _).mp (parse_ok_iff.mp hvalue)
    obtain ⟨-, hstoredRest, hstoredOffset⟩ := (readU32_exact _ _ _).mp (parse_ok_iff.mp hstored)
    have hbody : c.rest = recordBody isV2 (key, value) ++ afterValue.rest := by
      rw [hkeyRest, hvalueRest, recordBody, append_assoc]
    have hend : afterValue.offset = c.offset + (recordBody isV2 (key, value)).length := by
      rw [hvalueOffset, hkeyOffset, length_recordBody, Nat.add_assoc]
    rw [hend, h.slice hbody] at hread
    obtain ⟨body, hslice, hread⟩ := parsed_bind_ok.mp hread
    cases hslice
    split_ifs at hread with hchecksum
    · cases hread
    · obtain ⟨length, hlength, hread⟩ := parsed_bind_ok.mp hread
      cases hread
      rw [not_not] at hchecksum
      have hrest : c.rest = recordBytes isV2 (key, value) ++ c'.rest := by
        rw [hbody, hstoredRest, hchecksum, recordBytes, append_assoc]
      have hoffset : c'.offset = c.offset + (recordBytes isV2 (key, value)).length := by
        rw [hstoredOffset, hend, length_recordBytes, length_writeU32, Nat.add_assoc]
      rw [subUsize_eq (by omega), hoffset, Nat.add_sub_cancel_left] at hlength
      refine ⟨(key, value), ⟨hkeyLength, hvalueLength, hpresent, fun hv3 heq => hmark ?_⟩, hrest, hoffset, ?_⟩
      · rw [hv3, Bool.true_and, decide_eq_true_eq, hrest]
        exact (recordBytes_prefix_iff (key, value) c'.rest).mpr heq
      · rw [Except.ok.inj hlength]
  · rintro ⟨record, hreadable, hrest, hoffset, rfl⟩
    have hmark : (isV3 && decide (tableFooterMagic <+: c.rest)) = false := by
      rw [hrest]
      cases hv3 : isV3 with
      | false => rfl
      | true =>
        rw [Bool.true_and, decide_eq_false_iff_not, recordBytes_prefix_iff]
        exact hreadable.unmarked hv3
    have hbody : c.rest = recordBody isV2 record ++ (writeU32 (checksum (recordBody isV2 record)) ++ c'.rest) := by
      rw [hrest, recordBytes, append_assoc]
    have hkey := parse_ok_iff.mpr ((readBytes_exact c record.1
      ⟨c.offset + (fieldBytes record.1).length,
        tableValueBytes isV2 record.2 ++ (writeU32 (checksum (recordBody isV2 record)) ++ c'.rest)⟩).mpr
        ⟨hreadable.key, by rw [hbody, recordBody, append_assoc], rfl⟩)
    have hvalue := parse_ok_iff.mpr ((readTableValue_exact isV2
      ⟨c.offset + (fieldBytes record.1).length,
        tableValueBytes isV2 record.2 ++ (writeU32 (checksum (recordBody isV2 record)) ++ c'.rest)⟩
      record.2 ⟨c.offset + (recordBody isV2 record).length,
        writeU32 (checksum (recordBody isV2 record)) ++ c'.rest⟩).mpr
        ⟨⟨hreadable.value, hreadable.present⟩, rfl, by dsimp only; rw [length_recordBody, Nat.add_assoc]⟩)
    have hstored := parse_ok_iff.mpr ((readU32_exact
      ⟨c.offset + (recordBody isV2 record).length, writeU32 (checksum (recordBody isV2 record)) ++ c'.rest⟩
      (checksum (recordBody isV2 record)) c').mpr
        ⟨checksum_lt _, rfl, by dsimp only; rw [hoffset, length_recordBytes, length_writeU32, Nat.add_assoc]⟩)
    have hslice := h.slice hbody
    have hlength : subUsize c'.offset c.offset = .ok (recordBytes isV2 record).length := by
      rw [subUsize_eq (by omega), hoffset, Nat.add_sub_cancel_left]
    rw [hmark]
    refine parsed_bind_ok.mpr ⟨false, rfl, ?_⟩
    rw [if_neg Bool.false_ne_true]
    refine parsed_bind_ok.mpr ⟨_, hkey, parsed_bind_ok.mpr ⟨_, hvalue, parsed_bind_ok.mpr ⟨_, hstored, ?_⟩⟩⟩
    refine parsed_bind_ok.mpr ⟨_, hslice, ?_⟩
    rw [if_neg (not_not.mpr rfl)]
    exact parsed_bind_ok.mpr ⟨_, hlength, rfl⟩

theorem recordsBytes_cons (record : Record) (records : List Record) :
    recordsBytes isV2 (record :: records) = recordBytes isV2 record ++ recordsBytes isV2 records := rfl

section

variable (h : At bytes c) (hsize : bytes.length ≤ isizeMax)
include h hsize

theorem readRecords_ok_iff {count : ℕ} {entries : List TableIndexEntry} :
    readRecords bytes isV2 isV3 count c = .ok (entries, c') ↔ ∃ records, records.length = count ∧
      (∀ record ∈ records, Readable isV2 isV3 record) ∧ c.rest = recordsBytes isV2 records ++ c'.rest ∧
      c'.offset = c.offset + (recordsBytes isV2 records).length ∧ entries = entriesAt isV2 c.offset records := by
  induction count generalizing c entries with
  | zero =>
    constructor
    · intro hread
      cases hread
      exact ⟨[], rfl, forall_mem_nil _, rfl, rfl, rfl⟩
    · rintro ⟨records, hlength, -, hrest, hoffset, rfl⟩
      cases eq_nil_of_length_eq_zero hlength
      obtain ⟨offset, rest⟩ := c
      obtain ⟨offset', rest'⟩ := c'
      dsimp only [recordsBytes] at hrest hoffset
      rw [hrest, hoffset]
      rfl
  | succ count ih =>
    rw [readRecords, parsed_bind_ok]
    constructor
    · rintro ⟨⟨entry, next⟩, hfirst, hread⟩
      obtain ⟨⟨rest, last⟩, hrest, hread⟩ := parsed_bind_ok.mp hread
      cases hread
      obtain ⟨record, hreadable, hbytes, hoffset, rfl⟩ := (readRecord_ok_iff h hsize).mp hfirst
      obtain ⟨records, hlength, hall, hbytes', hoffset', rfl⟩ := (ih (h.next hbytes hoffset)).mp hrest
      refine ⟨record :: records, by rw [length_cons, hlength], forall_mem_cons.mpr ⟨hreadable, hall⟩, ?_, ?_, ?_⟩
      · rw [hbytes, hbytes', recordsBytes_cons, append_assoc]
      · rw [hoffset', hoffset, recordsBytes_cons, length_append, Nat.add_assoc]
      · rw [entriesAt, hoffset]
    · rintro ⟨records, hlength, hall, hbytes, hoffset, rfl⟩
      obtain ⟨record, records, rfl⟩ := exists_cons_of_length_eq_add_one hlength
      obtain ⟨hreadable, hall⟩ := forall_mem_cons.mp hall
      rw [recordsBytes_cons, append_assoc] at hbytes
      rw [recordsBytes_cons, length_append, ← Nat.add_assoc] at hoffset
      have hfirst := (readRecord_ok_iff h hsize).mpr ⟨record, hreadable, (show c.rest = recordBytes isV2 record ++
        (⟨c.offset + (recordBytes isV2 record).length, recordsBytes isV2 records ++ c'.rest⟩ : Cursor).rest
          from hbytes), rfl, rfl⟩
      have hnext := h.next (show c.rest = recordBytes isV2 record ++
        (⟨c.offset + (recordBytes isV2 record).length, recordsBytes isV2 records ++ c'.rest⟩ : Cursor).rest from hbytes)
          rfl
      have hrest := (ih hnext).mpr ⟨records, Nat.succ.inj hlength, hall, rfl, hoffset, rfl⟩
      exact ⟨_, hfirst, parsed_bind_ok.mpr ⟨_, hrest, rfl⟩⟩

theorem safe_readRecord : Safe (readRecord bytes isV2 isV3 c) := by
  rw [readRecord, footerEarly_eq h hsize]
  refine safe_bind_iff.mpr ⟨safe_ok _, fun early _ => ?_⟩
  split_ifs
  · exact safe_fail _
  refine safe_bind_iff.mpr ⟨safe_parse _ _, ?_⟩
  rintro ⟨key, afterKey⟩ hkey
  refine safe_bind_iff.mpr ⟨safe_parse _ _, ?_⟩
  rintro ⟨value, afterValue⟩ hvalue
  refine safe_bind_iff.mpr ⟨safe_parse _ _, ?_⟩
  rintro ⟨stored, next⟩ hstored
  obtain ⟨-, hkeyRest, hkeyOffset⟩ := (readBytes_exact _ _ _).mp (parse_ok_iff.mp hkey)
  obtain ⟨-, hvalueRest, hvalueOffset⟩ := (readTableValue_exact isV2 _ _ _).mp (parse_ok_iff.mp hvalue)
  obtain ⟨-, hstoredRest, hstoredOffset⟩ := (readU32_exact _ _ _).mp (parse_ok_iff.mp hstored)
  have hafter := (h.next hkeyRest hkeyOffset).next hvalueRest hvalueOffset
  refine safe_bind_iff.mpr ⟨safe_slice (by omega) hafter.le, fun record _ => ?_⟩
  split_ifs
  · exact safe_fail _
  · rw [subUsize_eq (by omega)]
    exact safe_ok _

theorem safe_readRecords (count : ℕ) : Safe (readRecords bytes isV2 isV3 count c) := by
  induction count generalizing c with
  | zero => exact safe_ok _
  | succ count ih =>
    refine safe_bind_iff.mpr ⟨safe_readRecord h hsize, ?_⟩
    rintro ⟨entry, next⟩ hfirst
    obtain ⟨record, -, hbytes, hoffset, -⟩ := (readRecord_ok_iff h hsize).mp hfirst
    exact safe_bind_iff.mpr ⟨ih (h.next hbytes hoffset), fun _ _ => safe_ok _⟩

end

theorem keysOrdered_iff (offset : ℕ) (records : List Record) :
    keysOrdered (entriesAt isV2 offset records) = true ↔ records.Pairwise (fun x y => x.1 < y.1) := by
  rw [← isChain_iff_pairwise]
  induction records generalizing offset with
  | nil => exact iff_of_true rfl List.IsChain.nil
  | cons first records ih =>
    cases records with
    | nil => exact iff_of_true rfl (List.IsChain.singleton _)
    | cons second records =>
      rw [isChain_cons_cons, ← ih (offset + (recordBytes isV2 first).length)]
      simp only [entriesAt, keysOrdered, Bool.and_eq_true, decide_eq_true_eq]

end Records

section Footer

variable {bytes : Bytes} {c c' : Cursor}

theorem At.parse {α : Type} {reader : Reader α} {valid : α → Prop} {encode : α → Bytes} {a : α} (h : At bytes c)
    (hexact : reader.Exact valid encode) (hok : ThingDb.parse reader c = .ok (a, c')) :
    At bytes c' ∧ c'.offset = c.offset + (encode a).length := by
  obtain ⟨-, hrest, hoffset⟩ := (hexact _ _ _).mp (parse_ok_iff.mp hok)
  exact ⟨h.next hrest hoffset, hoffset⟩

variable {footerStart : ℕ} {tail : Bytes}

theorem safe_readFooterBlock (hstart : footerStart ≤ bytes.length) (previous : Option (ℕ × ℕ)) (c : Cursor) :
    Safe (readFooterBlock bytes footerStart previous c) := by
  rw [readFooterBlock]
  refine safe_bind_iff.mpr ⟨safe_parse _ _, ?_⟩
  rintro ⟨offset, c⟩ -
  refine safe_bind_iff.mpr ⟨safe_parse _ _, ?_⟩
  rintro ⟨length, c⟩ -
  refine safe_bind_iff.mpr ⟨safe_parse _ _, ?_⟩
  rintro ⟨firstKey, c⟩ -
  refine safe_bind_iff.mpr ⟨safe_parse _ _, ?_⟩
  rintro ⟨lastKey, c⟩ -
  refine safe_bind_iff.mpr ⟨safe_parse _ _, ?_⟩
  rintro ⟨blockChecksum, c⟩ -
  split_ifs with hrange hmetadata
  · exact safe_fail _
  · exact safe_fail _
  · simp only [Bool.or_eq_true, not_or, decide_eq_true_eq, not_lt] at hmetadata
    have hend : offset + length ≤ footerStart := hmetadata.1.1.1.2
    refine safe_bind_iff.mpr ⟨safe_slice (Nat.le_add_right _ _) (hend.trans hstart), fun block _ => ?_⟩
    split_ifs
    · exact safe_fail _
    · exact safe_ok _

theorem at_readFooterBlock {previous : Option (ℕ × ℕ)} {block : FooterBlock} (h : At bytes c)
    (hread : readFooterBlock bytes footerStart previous c = .ok (block, c')) : At bytes c' ∧ c.offset ≤ c'.offset := by
  rw [readFooterBlock] at hread
  obtain ⟨⟨offset, c1⟩, h1, hread⟩ := parsed_bind_ok.mp hread
  obtain ⟨⟨length, c2⟩, h2, hread⟩ := parsed_bind_ok.mp hread
  obtain ⟨⟨firstKey, c3⟩, h3, hread⟩ := parsed_bind_ok.mp hread
  obtain ⟨⟨lastKey, c4⟩, h4, hread⟩ := parsed_bind_ok.mp hread
  obtain ⟨⟨blockChecksum, c5⟩, h5, hread⟩ := parsed_bind_ok.mp hread
  obtain ⟨hat1, hle1⟩ := h.parse readU64_exact h1
  obtain ⟨hat2, hle2⟩ := hat1.parse readU64_exact h2
  obtain ⟨hat3, hle3⟩ := hat2.parse readBytes_exact h3
  obtain ⟨hat4, hle4⟩ := hat3.parse readBytes_exact h4
  obtain ⟨hat5, hle5⟩ := hat4.parse readU32_exact h5
  split_ifs at hread
  · cases hread
  · cases hread
  · obtain ⟨body, -, hread⟩ := parsed_bind_ok.mp hread
    split_ifs at hread
    · cases hread
    · cases hread
      exact ⟨hat5, by omega⟩

theorem readFooterBlocks_spec (hstart : footerStart ≤ bytes.length) (count : ℕ) (previous : Option (ℕ × ℕ))
    (h : At bytes c) :
    Safe (readFooterBlocks bytes footerStart count previous c) ∧ ∀ result c',
      readFooterBlocks bytes footerStart count previous c = .ok (result, c') → At bytes c' ∧ c.offset ≤ c'.offset := by
  induction count generalizing previous c with
  | zero =>
    refine ⟨safe_ok _, fun result c' hread => ?_⟩
    cases hread
    exact ⟨h, le_rfl⟩
  | succ count ih =>
    constructor
    · refine safe_bind_iff.mpr ⟨safe_readFooterBlock hstart previous c, ?_⟩
      rintro ⟨block, next⟩ hblock
      obtain ⟨hnext, -⟩ := at_readFooterBlock h hblock
      exact safe_bind_iff.mpr ⟨(ih _ hnext).1, fun _ _ => safe_ok _⟩
    · intro result c' hread
      obtain ⟨⟨block, next⟩, hblock, hread⟩ := parsed_bind_ok.mp hread
      obtain ⟨⟨⟨blocks, covered⟩, last⟩, hblocks, hread⟩ := parsed_bind_ok.mp hread
      cases hread
      obtain ⟨hnext, hle⟩ := at_readFooterBlock h hblock
      obtain ⟨hlast, hle'⟩ := (ih _ hnext).2 _ _ hblocks
      exact ⟨hlast, hle.trans hle'⟩

theorem safe_readFooterBody (hstart : footerStart + 4 ≤ c.offset) (h : At bytes c) (blockCount : ℕ) :
    Safe (readFooterBody bytes footerStart blockCount c) := by
  have hle := h.le
  obtain ⟨hsafe, hat⟩ := readFooterBlocks_spec (show footerStart ≤ bytes.length by omega) blockCount none h
  rw [readFooterBody]
  refine safe_bind_iff.mpr ⟨hsafe, ?_⟩
  rintro ⟨⟨blocks, covered⟩, last⟩ hblocks
  obtain ⟨hlast, hlastLe⟩ := hat _ _ hblocks
  dsimp only
  split_ifs
  · exact safe_fail _
  · refine safe_bind_iff.mpr ⟨safe_parse _ _, ?_⟩
    rintro ⟨stored, final⟩ hstored
    obtain ⟨hfinal, hfinalOffset⟩ := hlast.parse readU32_exact hstored
    have hfinalLe := hfinal.le
    rw [length_writeU32] at hfinalOffset
    dsimp only
    rw [subUsize_eq (by omega)]
    refine safe_bind_iff.mpr ⟨safe_ok _, fun finish hfinish => ?_⟩
    cases hfinish
    refine safe_bind_iff.mpr ⟨safe_slice (by omega) (by omega), fun footer _ => ?_⟩
    split_ifs
    · exact safe_fail _
    · exact safe_fail _
    · exact safe_ok _

theorem validateTableFooter_eq (h : At bytes c) (hsize : bytes.length ≤ isizeMax)
    (hmark : c.rest = tableFooterMagic ++ tail) :
    validateTableFooter bytes c.offset = parse readU64 ⟨c.offset + 8, tail⟩ >>= fun result =>
      withCapacity result.1 footerBlockSize >>= fun _ => readFooterBody bytes c.offset result.1 result.2 := by
  have hfound : footerAt bytes c.offset = .ok true := by
    rw [footerAt_eq h hsize, decide_eq_true ⟨tail, hmark.symm⟩]
  have hlength : tableFooterMagic.length = 8 := rfl
  have hnext : At bytes ⟨c.offset + 8, tail⟩ := h.next hmark rfl
  have hdrop : bytes.drop (c.offset + 8) = tail := hnext.rest.symm
  rw [validateTableFooter, hfound, hlength, h.addUsize hsize le_rfl]
  change (parse readU64 ⟨c.offset + 8, bytes.drop (c.offset + 8)⟩ >>= _) = _
  rw [hdrop]

theorem safe_validateTableFooter_iff (h : At bytes c) (hsize : bytes.length ≤ isizeMax)
    (hmark : c.rest = tableFooterMagic ++ tail) :
    Safe (validateTableFooter bytes c.offset) ↔ ∀ blockCount rest, blockCount ≤ u64Max →
      tail = writeU64 blockCount ++ rest → blockCount * footerBlockSize ≤ isizeMax := by
  have hnext : At bytes ⟨c.offset + 8, tail⟩ := h.next hmark rfl
  rw [validateTableFooter_eq h hsize hmark, safe_bind_iff]
  constructor
  · rintro ⟨-, hsafe⟩ blockCount rest hle hbytes
    have hcount := parse_ok_iff.mpr ((readU64_exact ⟨c.offset + 8, tail⟩ blockCount ⟨c.offset + 8 + 8, rest⟩).mpr
      ⟨hle, hbytes, by rw [length_writeU64]⟩)
    exact safe_withCapacity_iff.mp (safe_bind_iff.mp (hsafe _ hcount)).1
  · intro hcapacity
    refine ⟨safe_parse _ _, ?_⟩
    rintro ⟨blockCount, cursor⟩ hcount
    obtain ⟨hle, hbytes, hoffset⟩ := (readU64_exact _ _ _).mp (parse_ok_iff.mp hcount)
    have hcursor := hnext.next hbytes hoffset
    dsimp only at hoffset
    refine safe_bind_iff.mpr ⟨safe_withCapacity_iff.mpr (hcapacity _ _ hle hbytes), fun _ _ => ?_⟩
    exact safe_readFooterBody (by omega) hcursor blockCount

end Footer

section Table

variable {bytes : Bytes}

structure TableHeader (bytes magic : Bytes) (sequence count : ℕ) (rest : Bytes) : Prop where
  known : magic = tableMagic ∨ magic = tableMagicV2 ∨ magic = tableMagicV3
  sequence_le : sequence ≤ u64Max
  count_le : count ≤ u64Max
  eq : bytes = magic ++ (writeU64 sequence ++ (writeU64 count ++ rest))

theorem exists_writeU64 (h : 8 ≤ bytes.length) : ∃ n ≤ u64Max, bytes = writeU64 n ++ bytes.drop 8 := by
  have hlength : (bytes.take 8).length = 8 := by
    rw [length_take]
    omega
  have hword := bigEndian_ofBigEndian (bytes.take 8)
  have hlt := ofBigEndian_lt (bytes.take 8)
  rw [hlength] at hword hlt
  refine ⟨ofBigEndian (bytes.take 8), ?_, ?_⟩
  · rw [u64Max]
    omega
  · rw [writeU64, hword, take_append_drop]

namespace TableHeader

variable {magic rest : Bytes} {sequence count : ℕ}

section

variable (h : TableHeader bytes magic sequence count rest)
include h

theorem length_magic : magic.length = 8 := by
  rcases h.known with rfl | rfl | rfl
  · rfl
  · rfl
  · rfl

theorem take_eight : bytes.take 8 = magic := by
  rw [h.eq, take_left' h.length_magic]

theorem valid : validTableHeader bytes = true := by
  have hlength : tableMagic.length + 16 ≤ bytes.length := by
    have hmagic : tableMagic.length = 8 := rfl
    rw [h.eq]
    simp only [length_append, length_writeU64, h.length_magic]
    omega
  rw [validTableHeader, h.take_eight, decide_eq_true hlength]
  rcases h.known with rfl | rfl | rfl
  · rfl
  · rfl
  · rfl

theorem position : At bytes ⟨24, rest⟩ := by
  have hmagic : (⟨0, bytes⟩ : Cursor).rest =
    magic ++ (⟨8, writeU64 sequence ++ (writeU64 count ++ rest)⟩ : Cursor).rest := h.eq
  have hstart := (at_start bytes).next hmagic (by rw [h.length_magic])
  have hsequence : At bytes ⟨16, writeU64 count ++ rest⟩ := hstart.next rfl (by rw [length_writeU64])
  exact hsequence.next rfl (by rw [length_writeU64])

theorem readSequence :
    parse readU64 ⟨tableMagic.length, bytes.drop tableMagic.length⟩ = .ok (sequence, ⟨16, writeU64 count ++ rest⟩) := by
  have hdrop : bytes.drop tableMagic.length = writeU64 sequence ++ (writeU64 count ++ rest) := by
    rw [h.eq]
    exact drop_left' h.length_magic
  rw [hdrop]
  exact parse_ok_iff.mpr ((readU64_exact _ _ _).mpr ⟨h.sequence_le, rfl, by rw [length_writeU64]; rfl⟩)

theorem readTableIndex_eq :
    readTableIndex bytes =
      readTableBody bytes (decide (magic ≠ tableMagic)) (decide (magic = tableMagicV3)) sequence count ⟨24, rest⟩ := by
  have hcount := parse_ok_iff.mpr ((readU64_exact ⟨16, writeU64 count ++ rest⟩ count ⟨24, rest⟩).mpr
    ⟨h.count_le, rfl, by rw [length_writeU64]⟩)
  rw [readTableIndex, h.valid, h.take_eight, Bool.not_true, if_neg Bool.false_ne_true, h.readSequence, parsed_ok_bind]
  dsimp only
  rw [hcount, parsed_ok_bind]

theorem unique {magic' rest' : Bytes} {sequence' count' : ℕ} (h' : TableHeader bytes magic' sequence' count' rest') :
    magic' = magic ∧ count' = count ∧ rest' = rest := by
  have hlt {n : ℕ} (hn : n ≤ u64Max) : n < 256 ^ 8 := by
    rw [u64Max] at hn
    omega
  have heq := h'.eq.symm.trans h.eq
  obtain ⟨hmagic, heq⟩ := append_inj heq (h'.length_magic.trans h.length_magic.symm)
  obtain ⟨-, heq⟩ := append_inj heq (by rw [length_writeU64, length_writeU64])
  obtain ⟨hcount, hrest⟩ := append_inj heq (by rw [length_writeU64, length_writeU64])
  exact ⟨hmagic, bigEndian_inj (hlt h'.count_le) (hlt h.count_le) hcount, hrest⟩

end

end TableHeader

theorem exists_tableHeader (h : validTableHeader bytes = true) :
    ∃ magic sequence count rest, TableHeader bytes magic sequence count rest := by
  rw [validTableHeader, Bool.and_eq_true, decide_eq_true_eq] at h
  obtain ⟨hlength, hmagic⟩ := h
  have hlength : 24 ≤ bytes.length := hlength
  obtain ⟨sequence, hsequence, hrest⟩ := @exists_writeU64 (bytes.drop 8) (by rw [length_drop]; omega)
  obtain ⟨count, hcount, hrest'⟩ := @exists_writeU64 ((bytes.drop 8).drop 8) (by
    rw [length_drop, length_drop]
    omega)
  refine ⟨bytes.take 8, sequence, count, ((bytes.drop 8).drop 8).drop 8, ?_, hsequence, hcount, ?_⟩
  · simpa [or_assoc] using hmagic
  · rw [← hrest', ← hrest, take_append_drop]

theorem safe_finishTableIndex_iff {isV3 : Bool} {c : Cursor} (h : At bytes c) (hsize : bytes.length ≤ isizeMax) :
    Safe (finishTableIndex bytes isV3 c) ↔ (isV3 = true → ∀ blockCount rest, blockCount ≤ u64Max →
      c.rest = tableFooterMagic ++ (writeU64 blockCount ++ rest) → blockCount * footerBlockSize ≤ isizeMax) := by
  rw [finishTableIndex]
  cases isV3 with
  | false =>
    rw [if_neg Bool.false_ne_true]
    refine iff_of_true ?_ fun htrue => absurd htrue Bool.false_ne_true
    split_ifs
    · exact safe_fail _
    · exact safe_ok _
  | true =>
    rw [footerAt_eq h hsize]
    by_cases hmark : tableFooterMagic <+: c.rest
    · obtain ⟨tail, htail⟩ := hmark
      rw [decide_eq_true ⟨tail, htail⟩]
      have hcancel (blockCount : ℕ) (rest : Bytes) :
          c.rest = tableFooterMagic ++ (writeU64 blockCount ++ rest) ↔ tail = writeU64 blockCount ++ rest := by
        rw [← htail, append_right_inj]
      simp only [hcancel, true_implies]
      exact safe_validateTableFooter_iff h hsize htail.symm
    · rw [decide_eq_false hmark]
      refine iff_of_true (safe_fail _) fun _ blockCount rest _ hrest => absurd ?_ hmark
      exact ⟨_, hrest.symm⟩

def OversizedCount (bytes : Bytes) : Prop :=
  ∃ magic sequence count rest, TableHeader bytes magic sequence count rest ∧ isizeMax < count * tableIndexEntrySize

/-- Well-formed records in order, and behind them a footer with a block count that no vector of blocks can hold. -/
def OversizedFooter (bytes : Bytes) : Prop :=
  ∃ sequence records blockCount rest,
    TableHeader bytes tableMagicV3 sequence records.length
      (recordsBytes true records ++ (tableFooterMagic ++ (writeU64 blockCount ++ rest))) ∧
    (∀ record ∈ records, Readable true true record) ∧ records.Pairwise (fun x y => x.1 < y.1) ∧
    blockCount ≤ u64Max ∧ isizeMax < blockCount * footerBlockSize

theorem TableHeader.safe_readTableIndex_iff {magic rest : Bytes} {sequence count : ℕ}
    (h : TableHeader bytes magic sequence count rest) (hsize : bytes.length ≤ isizeMax) :
    Safe (readTableIndex bytes) ↔ ¬OversizedCount bytes ∧ ¬OversizedFooter bytes := by
  have hcount : ¬OversizedCount bytes ↔ count * tableIndexEntrySize ≤ isizeMax := by
    rw [← not_lt, not_iff_not]
    constructor
    · rintro ⟨magic', sequence', count', rest', h', hlt⟩
      rwa [← (h.unique h').2.1]
    · exact fun hlt => ⟨magic, sequence, count, rest, h, hlt⟩
  rw [h.readTableIndex_eq, readTableBody, safe_bind_iff, safe_withCapacity_iff, hcount]
  refine and_congr_right fun hcapacity => ?_
  constructor
  · rintro hsafe ⟨sequence', records, blockCount, rest', h', hreadable, hsorted, hle, hlt⟩
    obtain ⟨rfl, rfl, rfl⟩ := h.unique h'
    have hrecords := (@readRecords_ok_iff bytes true true _ ⟨24 + (recordsBytes true records).length,
      tableFooterMagic ++ (writeU64 blockCount ++ rest')⟩ h.position hsize records.length
        (entriesAt true 24 records)).mpr
        ⟨records, rfl, hreadable, rfl, rfl, rfl⟩
    have hbody := (safe_bind_iff.mp (hsafe () (if_pos hcapacity))).2 _ hrecords
    dsimp only at hbody
    rw [(keysOrdered_iff 24 records).mpr hsorted, Bool.not_true, if_neg Bool.false_ne_true, safe_bind_iff] at hbody
    have hat : At bytes ⟨24 + (recordsBytes true records).length, tableFooterMagic ++ (writeU64 blockCount ++ rest')⟩ :=
      h.position.next rfl rfl
    exact absurd ((safe_finishTableIndex_iff hat hsize).mp hbody.1 rfl blockCount rest' hle rfl) (not_le.mpr hlt)
  · intro hfooter _ _
    refine safe_bind_iff.mpr ⟨safe_readRecords h.position hsize count, ?_⟩
    rintro ⟨entries, c⟩ hentries
    obtain ⟨records, hlength, hreadable, hrest, hoffset, rfl⟩ := (readRecords_ok_iff h.position hsize).mp hentries
    dsimp only
    split_ifs with hordered
    · exact safe_fail _
    · refine safe_bind_iff.mpr ⟨?_, fun _ _ => safe_ok _⟩
      refine (safe_finishTableIndex_iff (h.position.next hrest hoffset) hsize).mpr fun hv3 blockCount tail hle hmark =>
        ?_
      by_contra hlt
      have hmagic : magic = tableMagicV3 := of_decide_eq_true hv3
      subst hmagic
      rw [Bool.not_eq_true, Bool.not_eq_false', keysOrdered_iff] at hordered
      rw [hmark] at hrest
      exact hfooter ⟨sequence, records, blockCount, tail, hlength ▸ hrest ▸ h, hreadable, hordered, hle, not_le.mp hlt⟩

theorem safe_readTableMetadata_iff (bytes : Bytes) : Safe (readTableMetadata bytes) ↔ Safe (readTableIndex bytes) := by
  rw [readTableMetadata]
  cases hvalid : validTableHeader bytes with
  | false =>
    rw [readTableIndex, hvalid]
    exact iff_of_true (safe_fail _) (safe_fail _)
  | true =>
    obtain ⟨magic, sequence, count, rest, h⟩ := exists_tableHeader hvalid
    rw [Bool.not_true, h.readSequence, parsed_ok_bind]
    refine safe_bind_iff.trans (and_iff_left fun index _ => ?_)
    split_ifs
    · exact safe_ok _
    · exact safe_ok _

/-- Reading a table returns for every file but those with an oversized count. -/
theorem table_parsing_returns_iff (bytes : Bytes) (hsize : bytes.length ≤ isizeMax) :
    Safe (readTableIndex bytes) ∧ Safe (readTableMetadata bytes) ↔ ¬OversizedCount bytes ∧ ¬OversizedFooter bytes := by
  rw [safe_readTableMetadata_iff, and_self_iff]
  cases hvalid : validTableHeader bytes with
  | true =>
    obtain ⟨magic, sequence, count, rest, h⟩ := exists_tableHeader hvalid
    exact h.safe_readTableIndex_iff hsize
  | false =>
    have hno {magic rest : Bytes} {sequence count : ℕ} (h : TableHeader bytes magic sequence count rest) : False :=
      Bool.false_ne_true (hvalid.symm.trans h.valid)
    rw [readTableIndex, hvalid]
    refine iff_of_true (safe_fail _) ⟨?_, ?_⟩
    · rintro ⟨_, _, _, _, h, -⟩
      exact hno h
    · rintro ⟨_, _, _, _, h, -⟩
      exact hno h

def truncatedTable : Bytes := tableMagic ++ (writeU64 7 ++ (writeU64 1 ++ []))

theorem truncated_table_is_refused :
    Safe (readTableIndex truncatedTable) ∧ Safe (readTableMetadata truncatedTable) := by
  have h : TableHeader truncatedTable tableMagic 7 1 [] := ⟨Or.inl rfl, by decide, by decide, rfl⟩
  rw [table_parsing_returns_iff truncatedTable (by decide)]
  constructor
  · rintro ⟨magic, sequence, count, rest, h', hlt⟩
    rw [(h.unique h').2.1] at hlt
    exact absurd hlt (by decide)
  · rintro ⟨sequence, records, blockCount, rest, h', -⟩
    exact absurd (h.unique h').1 (by decide)

theorem table_counts_panic :
    readTableIndex (tableMagic ++ (writeU64 0 ++ writeU64 u64Max)) = .error (.panic "capacity overflow") ∧
    readTableMetadata (tableMagicV3 ++ (writeU64 0 ++ (writeU64 0 ++ (tableFooterMagic ++ writeU64 u64Max)))) =
      .error (.panic "capacity overflow") := by
  constructor
  · rfl
  · rfl

end Table

end Thingd.ThingDb
