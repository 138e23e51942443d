import Thingd.Data.Reader

namespace Thingd.ThingDb

open Bytes Reader

abbrev Result (α : Type) := Except String α

theorem result_bind_ok {α β : Type} {x : Result α} {f : α → Result β} {b : β} :
    (x >>= f) = .ok b ↔ ∃ a, x = .ok a ∧ f a = .ok b := by
  cases x with
  | error e => simp [bind, Except.bind]
  | ok a => simp [bind, Except.bind]

def u64Max : ℕ := 2 ^ 64 - 1

def isizeMax : ℕ := 2 ^ 63 - 1

def crc32Shift (crc : BitVec 32) : BitVec 32 :=
  if crc.getLsbD 0 then (crc >>> 1) ^^^ 0xEDB88320#32 else crc >>> 1

def crc32Update (crc : BitVec 32) (byte : Byte) : BitVec 32 :=
  crc32Shift^[8] (crc ^^^ BitVec.ofNat 32 byte.val)

def checksum (bytes : Bytes) : ℕ := (bytes.foldl crc32Update 0xFFFFFFFF#32 ^^^ 0xFFFFFFFF#32).toNat

theorem checksum_lt (bytes : Bytes) : checksum bytes < 256 ^ 4 :=
  (bytes.foldl crc32Update 0xFFFFFFFF#32 ^^^ 0xFFFFFFFF#32).isLt

example : checksum [49, 50, 51, 52, 53, 54, 55, 56, 57] = 0xCBF43926 := by decide +kernel

def readByte : Reader Byte := do
  let bytes ← take 1 (fun _ => "truncated ThingDB record")
  match bytes with
  | [byte] => pure byte
  | _ => throw "truncated ThingDB record"

def readUint (width : ℕ) : Reader ℕ := do
  let bytes ← take width (fun _ => "truncated ThingDB record")
  pure (ofBigEndian bytes)

def readU32 : Reader ℕ := readUint 4

def readU64 : Reader ℕ := readUint 8

-- No allocation exceeds `isize::MAX` bytes, so the end position only overflows where the slice is short.
def readBytes : Reader Bytes := do
  let length ← readU64
  take length fun c =>
    if u64Max < c.offset + length then "ThingDB value length overflow" else "truncated ThingDB value"

def writeU32 (value : ℕ) : Bytes := bigEndian 4 value

def writeU64 (value : ℕ) : Bytes := bigEndian 8 value

def writeBytes (bytes : Bytes) : Result Bytes :=
  if u64Max < bytes.length then .error "ThingDB value is too large" else .ok (writeU64 bytes.length ++ bytes)

theorem readByte_consumes (byte : Byte) : readByte.Consumes [byte] byte := by
  intro offset tail
  rfl

variable {width n : ℕ} {c c' : Cursor}

theorem readUint_consumes (h : n < 256 ^ width) : (readUint width).Consumes (bigEndian width n) n := by
  have htake := consumes_take (bigEndian width n) (fun _ => "truncated ThingDB record")
  rw [bigEndian_length] at htake
  intro offset tail
  refine bind_ok.mpr ⟨_, _, htake offset tail, ?_⟩
  simp [ofBigEndian_bigEndian h]

theorem readU32_consumes (h : n < 2 ^ 32) : readU32.Consumes (writeU32 n) n :=
  readUint_consumes (by simpa using h)

theorem readU64_consumes (h : n ≤ u64Max) : readU64.Consumes (writeU64 n) n :=
  readUint_consumes (by simp only [u64Max] at h; omega)

theorem readBytes_consumes {bytes encoded : Bytes} (h : writeBytes bytes = .ok encoded) :
    readBytes.Consumes encoded bytes := by
  unfold writeBytes at h
  split_ifs at h with hlen
  cases h
  exact (readU64_consumes (by omega)).bind (consumes_take bytes _)

theorem readUint_ok (h : readUint width c = .ok (n, c')) :
    ∃ word, word.length = width ∧ c.rest = word ++ c'.rest ∧ c'.offset = c.offset + width ∧
      (readUint width).Consumes word n := by
  obtain ⟨word, d, htake, hpure⟩ := bind_ok.mp h
  cases hpure
  have hlocal := local_take width (fun _ => "truncated ThingDB record") c word c' htake
  obtain ⟨used, hrest, hoffset, hused⟩ := hlocal
  have hlen : used.length = width ∧ word = used := by
    have hzero := hused 0 []
    unfold take at hzero
    split_ifs at hzero with hle
    simp only [List.append_nil] at hle hzero
    injection hzero with hpair
    injection hpair with hword hcursor
    have hoff := congrArg Cursor.offset hcursor
    simp only [Cursor.advance] at hoff
    have hwidth : used.length = width := by omega
    refine ⟨hwidth, ?_⟩
    rw [← hword, ← hwidth, List.take_length]
  refine ⟨used, hlen.1, hrest, by rw [hoffset, hlen.1], ?_⟩
  intro offset tail
  exact bind_ok.mpr ⟨word, _, hused offset tail, rfl⟩

theorem readUint_lt (h : readUint width c = .ok (n, c')) : n < 256 ^ width := by
  obtain ⟨word, d, htake, hpure⟩ := bind_ok.mp h
  unfold take at htake
  split_ifs at htake with hle
  cases htake
  cases hpure
  have hlt := ofBigEndian_lt (c.rest.take width)
  rwa [List.length_take, min_eq_left hle] at hlt

theorem readByte_local : readByte.Local := by
  refine (local_take _ _).bind ?_
  intro bytes
  split
  · exact local_pure _
  · exact local_throw _

theorem readUint_local (width : ℕ) : (readUint width).Local :=
  (local_take _ _).bind fun _ => local_pure _

theorem readBytes_local : readBytes.Local :=
  (readUint_local 8).bind fun _ => local_take _ _

end Thingd.ThingDb
