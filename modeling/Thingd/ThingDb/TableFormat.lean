import Thingd.ThingDb.TableFile

namespace Thingd.ThingDb

open Bytes Reader

def fieldBytes (bytes : Bytes) : Bytes := writeU64 bytes.length ++ bytes

def tableValueBytes (isV2 : Bool) : Option Bytes → Bytes
  | some value => if isV2 then 1 :: fieldBytes value else fieldBytes value
  | none => if isV2 then [2] else []

def recordBody (isV2 : Bool) (record : Record) : Bytes := fieldBytes record.1 ++ tableValueBytes isV2 record.2

def recordBytes (isV2 : Bool) (record : Record) : Bytes :=
  recordBody isV2 record ++ writeU32 (checksum (recordBody isV2 record))

def recordsBytes (isV2 : Bool) (records : List Record) : Bytes := records.flatMap (recordBytes isV2)

def entriesAt (isV2 : Bool) : ℕ → List Record → List TableIndexEntry
  | _, [] => []
  | offset, record :: records =>
    ⟨record.1, offset, (recordBytes isV2 record).length⟩ ::
      entriesAt isV2 (offset + (recordBytes isV2 record).length) records

/-- The records that the reader accepts: the lengths fit their fields, the first format has no tombstones, and the
length of a key is not taken for the mark of the footer. -/
structure Readable (isV2 isV3 : Bool) (record : Record) : Prop where
  key : record.1.length ≤ u64Max
  value : ∀ value, record.2 = some value → value.length ≤ u64Max
  present : isV2 = false → record.2 ≠ none
  unmarked : isV3 = true → writeU64 record.1.length ≠ tableFooterMagic

section Exact

theorem readUint_exact (width : ℕ) : (readUint width).Exact (· < 256 ^ width) (bigEndian width) := by
  intro c n c'
  constructor
  · intro h
    obtain ⟨word, d, htake, hpure⟩ := bind_ok.mp h
    obtain ⟨hlength, hrest, hoffset⟩ := take_ok_iff.mp htake
    cases hpure
    have hword := bigEndian_ofBigEndian word
    have hlt := ofBigEndian_lt word
    rw [hlength] at hword hlt
    rw [hword]
    exact ⟨hlt, hrest, by rw [hoffset, hlength]⟩
  · rintro ⟨hlt, hrest, hoffset⟩
    rw [bigEndian_length] at hoffset
    refine bind_ok.mpr ⟨_, c', take_ok_iff.mpr ⟨bigEndian_length _ _, hrest, hoffset⟩, ?_⟩
    rw [ofBigEndian_bigEndian hlt]
    rfl

theorem readU64_exact : readU64.Exact (· ≤ u64Max) writeU64 := by
  intro c n c'
  have hlt : n ≤ u64Max ↔ n < 256 ^ 8 := by
    rw [u64Max]
    omega
  exact (readUint_exact 8 c n c').trans (and_congr_left' hlt.symm)

theorem readU32_exact : readU32.Exact (· < 256 ^ 4) writeU32 := readUint_exact 4

theorem length_writeU64 (n : ℕ) : (writeU64 n).length = 8 := bigEndian_length 8 n

theorem length_writeU32 (n : ℕ) : (writeU32 n).length = 4 := bigEndian_length 4 n

theorem length_fieldBytes (bytes : Bytes) : (fieldBytes bytes).length = 8 + bytes.length := by
  rw [fieldBytes, List.length_append, length_writeU64]

theorem readBytes_exact : readBytes.Exact (fun bytes => bytes.length ≤ u64Max) fieldBytes := by
  intro c bytes c'
  rw [readBytes, bind_ok]
  constructor
  · rintro ⟨length, d, hlength, htake⟩
    obtain ⟨hle, hrest, hoffset⟩ := (readU64_exact c length d).mp hlength
    obtain ⟨rfl, hrest', hoffset'⟩ := take_ok_iff.mp htake
    refine ⟨hle, ?_, ?_⟩
    · rw [hrest, hrest', fieldBytes, List.append_assoc]
    · rw [hoffset', hoffset, length_writeU64, length_fieldBytes, Nat.add_assoc]
  · rintro ⟨hle, hrest, hoffset⟩
    rw [fieldBytes] at hrest
    rw [length_fieldBytes, ← Nat.add_assoc] at hoffset
    refine ⟨bytes.length, ⟨c.offset + 8, bytes ++ c'.rest⟩, ?_, ?_⟩
    · exact (readU64_exact c bytes.length _).mpr ⟨hle, hrest, by rw [length_writeU64]⟩
    · exact take_ok_iff.mpr ⟨rfl, rfl, hoffset⟩

theorem readByte_exact : readByte.Exact (fun _ => True) (fun byte => [byte]) := by
  intro c byte c'
  rw [readByte, bind_ok]
  constructor
  · rintro ⟨bytes, d, htake, hbyte⟩
    obtain ⟨hlength, hrest, hoffset⟩ := take_ok_iff.mp htake
    obtain ⟨first, rfl⟩ := List.length_eq_one_iff.mp hlength
    cases hbyte
    exact ⟨trivial, hrest, hoffset⟩
  · rintro ⟨-, hrest, hoffset⟩
    exact ⟨[byte], c', take_ok_iff.mpr ⟨rfl, hrest, hoffset⟩, rfl⟩

theorem readTableValue_exact (isV2 : Bool) : (readTableValue isV2).Exact
    (fun value => (∀ bytes, value = some bytes → bytes.length ≤ u64Max) ∧ (isV2 = false → value ≠ none))
    (tableValueBytes isV2) := by
  intro c value c'
  cases isV2 with
  | false =>
    rw [readTableValue, if_neg Bool.false_ne_true, bind_ok]
    constructor
    · rintro ⟨bytes, d, hbytes, hpure⟩
      cases hpure
      obtain ⟨hle, hrest, hoffset⟩ := (readBytes_exact c bytes c').mp hbytes
      exact ⟨⟨fun _ heq => Option.some.inj heq ▸ hle, fun _ => Option.some_ne_none _⟩, hrest, hoffset⟩
    · rintro ⟨⟨hle, hsome⟩, hrest, hoffset⟩
      cases value with
      | none => exact absurd rfl (hsome rfl)
      | some bytes => exact ⟨bytes, c', (readBytes_exact c bytes c').mpr ⟨hle bytes rfl, hrest, hoffset⟩, rfl⟩
  | true =>
    rw [readTableValue, if_pos rfl, bind_ok]
    constructor
    · rintro ⟨kind, d, hkind, hvalue⟩
      obtain ⟨-, hrest, hoffset⟩ := (readByte_exact c kind d).mp hkind
      split_ifs at hvalue with hone htwo
      · obtain ⟨bytes, e, hbytes, hpure⟩ := bind_ok.mp hvalue
        cases hpure
        obtain ⟨hle, hrest', hoffset'⟩ := (readBytes_exact d bytes c').mp hbytes
        refine ⟨⟨fun _ heq => Option.some.inj heq ▸ hle, fun _ => Option.some_ne_none _⟩, ?_, ?_⟩
        · rw [hrest, hrest', hone]
          rfl
        · rw [hoffset', hoffset, tableValueBytes, if_pos rfl, List.length_cons, List.length_cons, List.length_nil]
          omega
      · cases hvalue
        refine ⟨⟨fun _ heq => absurd heq.symm (Option.some_ne_none _), fun h => absurd h.symm Bool.false_ne_true⟩, ?_,
          hoffset⟩
        rw [hrest, htwo]
        rfl
      · cases hvalue
    · rintro ⟨⟨hle, -⟩, hrest, hoffset⟩
      cases value with
      | none => exact ⟨2, c', (readByte_exact c 2 c').mpr ⟨trivial, hrest, hoffset⟩, rfl⟩
      | some bytes =>
        rw [tableValueBytes, if_pos rfl] at hrest hoffset
        rw [List.length_cons] at hoffset
        refine ⟨1, ⟨c.offset + 1, fieldBytes bytes ++ c'.rest⟩, (readByte_exact c 1 _).mpr ⟨trivial, hrest, rfl⟩, ?_⟩
        rw [if_pos rfl, bind_ok]
        exact ⟨bytes, c', (readBytes_exact _ bytes c').mpr ⟨hle bytes rfl, rfl, by dsimp only; omega⟩, rfl⟩

end Exact

section Position

variable {bytes used tail : Bytes} {c c' : Cursor}

structure At (bytes : Bytes) (c : Cursor) : Prop where
  le : c.offset ≤ bytes.length
  rest : c.rest = bytes.drop c.offset

theorem At.next (h : At bytes c) (hrest : c.rest = used ++ c'.rest) (hoffset : c'.offset = c.offset + used.length) :
    At bytes c' := by
  have hdrop := h.rest
  rw [hrest] at hdrop
  have hlength := congrArg List.length hdrop
  rw [List.length_append, List.length_drop] at hlength
  have hle := h.le
  refine ⟨by omega, ?_⟩
  rw [hoffset, ← List.drop_drop, ← hdrop, List.drop_left]

section

variable (h : At bytes c) (hrest : c.rest = used ++ tail)
include h hrest

theorem At.length_le : c.offset + used.length ≤ bytes.length := by
  have hlength := congrArg List.length h.rest
  rw [hrest, List.length_append, List.length_drop] at hlength
  have hle := h.le
  omega

theorem At.sliceGet : ThingDb.sliceGet bytes c.offset (c.offset + used.length) = some used := by
  rw [ThingDb.sliceGet, if_pos ⟨Nat.le_add_right _ _, h.length_le hrest⟩, List.drop_take, ← h.rest, hrest]
  simp

theorem At.slice : ThingDb.slice bytes c.offset (c.offset + used.length) = .ok used := by
  rw [ThingDb.slice, h.sliceGet hrest]

end

theorem at_start (bytes : Bytes) : At bytes ⟨0, bytes⟩ := ⟨Nat.zero_le _, rfl⟩

end Position

end Thingd.ThingDb
