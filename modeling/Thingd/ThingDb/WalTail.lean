import Thingd.ThingDb.Session

namespace Thingd.ThingDb

open Bytes Writes List

def encodedOperationSize : Operation → ℕ
  | .put key value => saturatingAdd (saturatingAdd (saturatingAdd (saturatingAdd 1 8) key.length) 8) value.length
  | .delete key => saturatingAdd (saturatingAdd (saturatingAdd 1 8) key.length) 8

-- the sum of the operations is a plain one, which wraps around
def encodedFrameCapacity (operations : List Operation) : ℕ :=
  saturatingAdd (saturatingAdd (saturatingAdd (saturatingAdd (saturatingAdd walMagic.length 8) 8) 4)
    ((operations.map encodedOperationSize).sum % 2 ^ 64)) 4

def encodeBatches (output : Bytes) (sequence : ℕ) : List (List Operation) → Result Bytes
  | [] => .ok output
  | operations :: batches => do
    let output ← encodeFrameInto output sequence operations
    encodeBatches output (sequence + 1) batches

def batchFrames (sequence : ℕ) : List (List Operation) → List Frame
  | [] => []
  | operations :: batches => ⟨sequence, operations⟩ :: batchFrames (sequence + 1) batches

variable {operations : List Operation} {sequence : ℕ}

section Capacity

variable {encoded : Bytes}

theorem encodeOperation_length {operation : Operation} (h : encodeOperation operation = .ok encoded)
    (hfits : encoded.length ≤ u64Max) : encoded.length = encodedOperationSize operation := by
  have hword (n : ℕ) : (writeU64 n).length = 8 := bigEndian_length 8 n
  have hbytes {bytes written : Bytes} (hwrite : writeBytes bytes = .ok written) :
    written.length = 8 + bytes.length := by
    unfold writeBytes at hwrite
    split_ifs at hwrite
    cases hwrite
    rw [length_append, hword]
  cases operation with
  | put key value =>
    obtain ⟨k, hk, h⟩ := result_bind_ok.mp h
    obtain ⟨v, hv, h⟩ := result_bind_ok.mp h
    cases h
    simp only [length_cons, length_append, hbytes hk, hbytes hv] at hfits ⊢
    simp only [encodedOperationSize, saturatingAdd]
    omega
  | delete key =>
    obtain ⟨k, hk, h⟩ := result_bind_ok.mp h
    cases h
    simp only [length_cons, length_append, hbytes hk, hword] at hfits ⊢
    simp only [encodedOperationSize, saturatingAdd]
    omega

theorem encodeOperations_length (h : encodeOperations operations = .ok encoded) (hfits : encoded.length ≤ u64Max) :
    encoded.length = (operations.map encodedOperationSize).sum := by
  induction operations generalizing encoded with
  | nil =>
    cases h
    rfl
  | cons operation operations ih =>
    obtain ⟨first, hfirst, h⟩ := result_bind_ok.mp h
    obtain ⟨rest, hrest, h⟩ := result_bind_ok.mp h
    cases h
    rw [length_append] at hfits
    rw [length_append, map_cons, sum_cons, encodeOperation_length hfirst (by omega), ih hrest (by omega)]

theorem encodeFrame_length {bytes : Bytes} (h : encodeFrame sequence operations = .ok bytes)
    (hfits : bytes.length ≤ isizeMax) : bytes.length = encodedFrameCapacity operations := by
  unfold encodeFrame at h
  split_ifs at h with hcount
  obtain ⟨encoded, hencoded, h⟩ := result_bind_ok.mp h
  dsimp only at h
  split_ifs at h with hlen
  cases h
  have hword (n : ℕ) : (writeU64 n).length = 8 := bigEndian_length 8 n
  have hhalf (n : ℕ) : (writeU32 n).length = 4 := bigEndian_length 4 n
  have hmagic : walMagic.length = 8 := rfl
  simp only [frameBody, length_append, hword, hhalf] at hfits ⊢
  have hmax : u64Max = 2 ^ 64 - 1 := rfl
  have hisize : isizeMax = 2 ^ 63 - 1 := rfl
  have hsize := encodeOperations_length hencoded (by omega)
  rw [encodedFrameCapacity]
  simp only [saturatingAdd]
  omega

end Capacity

variable {batches : List (List Operation)} {wal : Bytes}

section Torn

variable {output : Bytes} {n : ℕ}

theorem encodeBatches_cons (h : encodeBatches output sequence (operations :: batches) = .ok wal) :
    ∃ frame, encodeFrame sequence operations = .ok frame ∧
      encodeBatches (output ++ frame) (sequence + 1) batches = .ok wal := by
  obtain ⟨written, hwritten, h⟩ := result_bind_ok.mp h
  obtain ⟨frame, hframe, hwritten⟩ := result_bind_ok.mp hwritten
  cases hwritten
  exact ⟨frame, hframe, h⟩

theorem encodeBatches_output (output : Bytes) (sequence : ℕ) (batches : List (List Operation)) :
    encodeBatches output sequence batches = (encodeBatches [] sequence batches).map (output ++ ·) := by
  induction batches generalizing output sequence with
  | nil => simp [encodeBatches, Except.map]
  | cons operations batches ih =>
    simp only [encodeBatches, encodeFrameInto, bind, Except.bind, pure, Except.pure]
    cases encodeFrame sequence operations with
    | error message => rfl
    | ok frame =>
      dsimp only
      rw [ih (output ++ frame), ih ([] ++ frame)]
      cases encodeBatches [] (sequence + 1) batches <;> simp [Except.map]

theorem encodeBatches_append (h : encodeBatches output sequence batches = .ok wal) :
    ∃ log, encodeBatches [] sequence batches = .ok log ∧ wal = output ++ log := by
  rw [encodeBatches_output] at h
  cases hlog : encodeBatches [] sequence batches with
  | error message =>
    rw [hlog] at h
    cases h
  | ok log =>
    rw [hlog] at h
    cases h
    exact ⟨log, rfl, rfl⟩

theorem readFrame_torn {frame : Bytes} (h : encodeFrame sequence operations = .ok frame) (hn : n < frame.length)
    (offset : ℕ) : readFrame ⟨offset, frame.take n⟩ = .ok none := by
  unfold encodeFrame at h
  split_ifs at h with hcount
  obtain ⟨encoded, hencoded, h⟩ := result_bind_ok.mp h
  dsimp only at h
  split_ifs at h with hlen
  cases h
  set body := frameBody sequence operations.length encoded with hbody
  set word := writeU64 (body.length + 4) with hword
  set rest := body ++ writeU32 (checksum body) with hrest
  have hmagic : walMagic.length = 8 := rfl
  have hwordLen : word.length = 8 := bigEndian_length 8 _
  have hrestLen : rest.length = body.length + 4 := by
    rw [length_append]
    exact congrArg _ (bigEndian_length 4 _)
  have hbodyLen : 12 ≤ body.length + 4 := by
    have hseq : (writeU64 sequence).length = 8 := bigEndian_length 8 _
    rw [hbody, frameBody, length_append]
    omega
  simp only [length_append] at hn
  have hcut : ((walMagic ++ (word ++ rest)).take n).length = n := by
    rw [length_take, length_append, length_append]
    omega
  by_cases hshort : n < 16
  · unfold readFrame
    rw [if_pos (by rw [hcut]; omega)]
  · have htake : (walMagic ++ (word ++ rest)).take n = walMagic ++ (word ++ rest.take (n - 16)) := by
      rw [take_append, take_of_length_le (by omega), take_append, hmagic,
        take_of_length_le (by omega), hwordLen, Nat.sub_sub]
    have hread := readU64_consumes (n := body.length + 4) (by omega) (offset + 8) (rest.take (n - 16))
    unfold readFrame
    rw [htake]
    have hadvance : (Cursor.mk offset (walMagic ++ (word ++ rest.take (n - 16)))).advance walMagic.length =
        ⟨offset + 8, word ++ rest.take (n - 16)⟩ := by
      simp [Cursor.advance, hmagic]
    rw [if_neg (by simp only [length_append]; omega), if_neg (by simp [hmagic]), hadvance, hread]
    simp only [bind, Except.bind]
    rw [if_neg (by omega), if_pos (by rw [length_take]; omega)]

theorem replayLoop_torn (hencode : encodeBatches [] sequence batches = .ok wal)
    (hroom : sequence + batches.length ≤ u64Max + 1) (replayed : Replayed) {fuel : ℕ} (hn : n ≤ wal.length)
    (hfuel : n ≤ fuel) :
    ∃ k whole, k ≤ batches.length ∧ encodeBatches [] sequence (batches.take k) = .ok whole ∧
      (∀ j ≤ batches.length, ∀ part, encodeBatches [] sequence (batches.take j) = .ok part →
        (part.length ≤ n ↔ j ≤ k)) ∧
      replayLoop fuel ⟨replayed.validOffset, wal.take n⟩ replayed =
        .ok ((replayed.applyAll (batchFrames sequence (batches.take k))).stoppedAt
          (replayed.validOffset + whole.length)) := by
  induction batches generalizing sequence wal replayed n fuel with
  | nil =>
    cases hencode
    refine ⟨0, [], le_rfl, rfl, ?_, ?_⟩
    · intro j hj part hpart
      obtain rfl : j = 0 := Nat.le_zero.mp hj
      cases hpart
      simp
    · cases fuel <;> simp [replayLoop, batchFrames, Replayed.applyAll, Replayed.stoppedAt]
  | cons operations batches ih =>
    rw [length_cons] at hroom
    obtain ⟨frame, hframe, hrest⟩ := encodeBatches_cons hencode
    obtain ⟨log, hlog, rfl⟩ := encodeBatches_append hrest
    rw [nil_append, length_append] at hn
    rw [nil_append]
    have hbytes := frameBytes_encodeFrame (show sequence ≤ u64Max by omega) hframe
    have hstart : ∀ j part, encodeBatches [] sequence ((operations :: batches).take (j + 1)) = .ok part →
        ∃ later, encodeBatches [] (sequence + 1) (batches.take j) = .ok later ∧ part = frame ++ later := by
      intro j part hpart
      obtain ⟨frame', hframe', hlater⟩ := encodeBatches_cons hpart
      cases hframe.symm.trans hframe'
      exact encodeBatches_append hlater
    by_cases htorn : n < frame.length
    · refine ⟨0, [], Nat.zero_le _, rfl, ?_, ?_⟩
      · intro j _ part hpart
        cases j with
        | zero =>
          cases hpart
          simp
        | succ j =>
          obtain ⟨later, -, rfl⟩ := hstart j part hpart
          rw [length_append]
          omega
      · rw [take_append_of_le_length htorn.le]
        cases fuel with
        | zero => rfl
        | succ fuel =>
          rw [replayLoop, readFrame_torn hframe htorn]
          split_ifs <;> rfl
    · have hpos : 0 < frame.length := by
        have hread := hbytes 0 []
        rcases Nat.eq_zero_or_pos frame.length with hzero | hpos
        · rw [length_eq_zero_iff.mp hzero] at hread
          simp [readFrame] at hread
        · exact hpos
      obtain ⟨fuel, rfl⟩ := Nat.exists_eq_succ_of_ne_zero (show fuel ≠ 0 by omega)
      obtain ⟨k, whole, hk, hwhole, hmax, hloop⟩ := ih hlog (by omega)
        ((replayed.apply ⟨sequence, operations⟩).stoppedAt (replayed.validOffset + frame.length))
        (show n - frame.length ≤ log.length by omega) (show n - frame.length ≤ fuel by omega)
      refine ⟨k + 1, frame ++ whole, by rw [length_cons]; omega, ?_, ?_, ?_⟩
      · rw [take_succ_cons, encodeBatches, encodeFrameInto, hframe]
        simp only [bind, Except.bind, pure, Except.pure]
        rw [encodeBatches_output, hwhole]
        rfl
      · intro j hj part hpart
        cases j with
        | zero =>
          cases hpart
          simp
        | succ j =>
          obtain ⟨later, hlater, rfl⟩ := hstart j part hpart
          have hiff := hmax j (by simpa using hj) later hlater
          rw [length_append]
          omega
      · have htake : (frame ++ log).take n = frame ++ log.take (n - frame.length) := by
          rw [take_append, take_of_length_le (by omega)]
        have hne : frame ++ log.take (n - frame.length) ≠ [] := by
          apply append_ne_nil_of_left_ne_nil
          exact length_pos_iff.mp hpos
        rw [Replayed.stoppedAt_validOffset, Replayed.applyAll_stoppedAt] at hloop
        rw [htake, replayLoop, if_neg hne, hbytes]
        dsimp only
        rw [hloop, length_append, ← Nat.add_assoc]
        rfl

end Torn

theorem applyAll_batchFrames (replayed : Replayed) (batches : List (List Operation)) :
    replayed.applyAll (batchFrames (replayed.lastSequence + 1) batches) =
      ⟨replayed.lastSequence + batches.length, replayed.validOffset, replayed.frameCount + batches.length,
        batches.flatten.foldl applyOperation replayed.state⟩ := by
  induction batches generalizing replayed with
  | nil => rfl
  | cons operations batches ih =>
    have hnext : replayed.apply ⟨replayed.lastSequence + 1, operations⟩ =
        ⟨replayed.lastSequence + 1, replayed.validOffset, replayed.frameCount + 1,
          operations.foldl applyOperation replayed.state⟩ := by
      simp [Replayed.apply]
    have hrest := ih (replayed.apply ⟨replayed.lastSequence + 1, operations⟩)
    rw [hnext] at hrest
    change (replayed.apply ⟨replayed.lastSequence + 1, operations⟩).applyAll _ = _
    rw [hnext, hrest, flatten_cons, foldl_append, length_cons]
    dsimp only
    congr 1 <;> omega

theorem encodeBatches_get (h : encodeBatches [] sequence batches = .ok wal) {i : ℕ}
    (hi : batches[i]? = some operations) :
    ∃ frame, encodeFrame (sequence + i) operations = .ok frame ∧ frame.length ≤ wal.length := by
  induction batches generalizing sequence wal i with
  | nil => cases hi
  | cons first batches ih =>
    obtain ⟨frame, hframe, hrest⟩ := encodeBatches_cons h
    obtain ⟨log, hlog, rfl⟩ := encodeBatches_append hrest
    rw [length_append]
    cases i with
    | zero =>
      cases hi
      exact ⟨frame, hframe, Nat.le_add_right _ _⟩
    | succ i =>
      obtain ⟨later, hlater, hle⟩ := ih hlog hi
      rw [Nat.add_right_comm] at hlater
      exact ⟨later, hlater, by omega⟩

/-- Replaying a log that is cut anywhere applies exactly the batches whose frames are whole: a key has the value of its
last operation in them, and without one it has the value it had before. -/
theorem replay_torn_wal {tableSequence : ℕ} {batches : List (List Operation)} {wal : Bytes}
    (hencode : encodeBatches [] (tableSequence + 1) batches = .ok wal)
    (hroom : tableSequence + batches.length ≤ u64Max) (hmemory : wal.length ≤ isizeMax)
    (state : SortedMap Bytes Bytes) {n : ℕ} (hn : n ≤ wal.length) :
    (∃ k whole, k ≤ batches.length ∧ encodeBatches [] (tableSequence + 1) (batches.take k) = .ok whole ∧
      (∀ j ≤ batches.length, ∀ part, encodeBatches [] (tableSequence + 1) (batches.take j) = .ok part →
        (part.length ≤ n ↔ j ≤ k)) ∧
      ∃ recovered, replayWal (wal.take n) tableSequence state = .ok ⟨tableSequence + k, whole.length, k, recovered⟩ ∧
        ∀ key, recovered.get key = (lastWrite (writesOf (batches.take k).flatten) key).getD (state.get key)) ∧
    ∀ i operations, batches[i]? = some operations →
      ∃ frame, encodeFrame (tableSequence + 1 + i) operations = .ok frame ∧
      frame.length = encodedFrameCapacity operations := by
  constructor
  · have hfuel : n ≤ (wal.take n).length := by
      rw [length_take]
      omega
    obtain ⟨k, whole, hk, hwhole, hmax, hloop⟩ :=
      replayLoop_torn hencode (by omega) ⟨tableSequence, 0, 0, state⟩ hn hfuel
    refine ⟨k, whole, hk, hwhole, hmax, (batches.take k).flatten.foldl applyOperation state, ?_, fun key => ?_⟩
    · have happly := applyAll_batchFrames ⟨tableSequence, 0, 0, state⟩ (batches.take k)
      rw [length_take, Nat.min_eq_left hk] at happly
      rw [happly] at hloop
      simpa [replayWal, Replayed.stoppedAt] using hloop
    · rw [get_foldl_applyOperation, writeAll_apply]
  · intro i operations hi
    obtain ⟨frame, hframe, hle⟩ := encodeBatches_get hencode hi
    exact ⟨frame, hframe, encodeFrame_length hframe (hle.trans hmemory)⟩

def sampleBatches : List (List Operation) :=
  [[.put [97, 0, 1] [7]], [.put [97, 0, 1] [8], .put [97, 0, 2] [9]], [.delete [97, 0, 1]]]

theorem replay_wal_cut_in_last_frame :
    ∃ wal recovered, encodeBatches [] 6 sampleBatches = .ok wal ∧
      replayWal (wal.take 150) 5 (SortedMap.empty.insert [97, 0, 3] [4]) = .ok ⟨7, 127, 2, recovered⟩ ∧
      recovered.get [97, 0, 1] = some [8] ∧ recovered.get [97, 0, 2] = some [9] ∧
        recovered.get [97, 0, 3] = some [4] := by
  obtain ⟨wal, hwal⟩ : ∃ wal, encodeBatches [] 6 sampleBatches = .ok wal := ⟨_, rfl⟩
  obtain ⟨two, htwo⟩ : ∃ two, encodeBatches [] 6 (sampleBatches.take 2) = .ok two := ⟨_, rfl⟩
  have hlength : (encodeBatches [] 6 sampleBatches).toOption.map List.length = some 179 := by decide +kernel
  have htwoLength : (encodeBatches [] 6 (sampleBatches.take 2)).toOption.map List.length = some 127 := by decide +kernel
  rw [hwal] at hlength
  rw [htwo] at htwoLength
  have hlength : wal.length = 179 := Option.some.inj hlength
  have htwoLength : two.length = 127 := Option.some.inj htwoLength
  obtain ⟨⟨k, whole, hk, hwhole, hmax, recovered, hreplay, hget⟩, -⟩ := replay_torn_wal hwal (by decide)
    (by rw [hlength]; decide) (SortedMap.empty.insert [97, 0, 3] [4]) (show 150 ≤ wal.length by omega)
  have hfits := hmax 2 (by decide) two htwo
  have hcut := hmax 3 le_rfl wal hwal
  obtain rfl : k = 2 := by omega
  cases htwo.symm.trans hwhole
  rw [htwoLength] at hreplay
  refine ⟨wal, recovered, hwal, hreplay, ?_, ?_, ?_⟩
  all_goals rw [hget]; rfl

end Thingd.ThingDb
