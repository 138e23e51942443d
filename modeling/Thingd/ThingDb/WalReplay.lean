import Thingd.ThingDb.Wal

namespace Thingd.ThingDb

open Bytes Reader

theorem readOperation_local : readOperation.Local := by
  refine readByte_local.bind fun kind => readBytes_local.bind fun key => readBytes_local.bind fun value => ?_
  exact local_ite _ (local_pure _) (local_ite _ (local_pure _) (local_throw _))

theorem readOperations_local (count : ℕ) : (readOperations count).Local := by
  induction count with
  | zero => exact local_pure _
  | succ count ih => exact readOperation_local.bind fun _ => ih.bind fun _ => local_pure _

theorem readFrameBody_local : readFrameBody.Local :=
  (readUint_local 8).bind fun _ => (readUint_local 4).bind fun count =>
    (readOperations_local count).bind fun _ => local_pure _

variable {encoded : Bytes}

theorem readOperation_consumes {operation : Operation} (h : encodeOperation operation = .ok encoded) :
    readOperation.Consumes encoded operation := by
  cases operation with
  | put key value =>
    obtain ⟨k, hk, h⟩ := result_bind_ok.mp h
    obtain ⟨v, hv, h⟩ := result_bind_ok.mp h
    cases h
    have hread : readOperation.Consumes ([1] ++ (k ++ (v ++ []))) (.put key value) := by
      refine (readByte_consumes 1).bind ?_
      refine (readBytes_consumes hk).bind ?_
      exact (readBytes_consumes hv).bind (consumes_pure _)
    simpa using hread
  | delete key =>
    obtain ⟨k, hk, h⟩ := result_bind_ok.mp h
    cases h
    have hzero : writeBytes [] = .ok (writeU64 0) := by simp [writeBytes]
    have hread : readOperation.Consumes ([2] ++ (k ++ (writeU64 0 ++ []))) (.delete key) := by
      refine (readByte_consumes 2).bind ?_
      refine (readBytes_consumes hk).bind ?_
      exact (readBytes_consumes hzero).bind (consumes_pure _)
    simpa using hread

variable {operations : List Operation}

theorem readOperations_consumes (h : encodeOperations operations = .ok encoded) :
    (readOperations operations.length).Consumes encoded operations := by
  induction operations generalizing encoded with
  | nil => cases h; exact consumes_pure []
  | cons operation operations ih =>
    obtain ⟨first, hfirst, h⟩ := result_bind_ok.mp h
    obtain ⟨rest, hrest, h⟩ := result_bind_ok.mp h
    cases h
    have hread : (readOperations (operations.length + 1)).Consumes (first ++ (rest ++ []))
        (operation :: operations) := by
      refine (readOperation_consumes hfirst).bind ?_
      exact (ih hrest).bind (consumes_pure _)
    simpa using hread

variable {sequence : ℕ}

theorem readFrameBody_consumes (hsequence : sequence ≤ u64Max) (hcount : operations.length < 2 ^ 32)
    (h : encodeOperations operations = .ok encoded) :
    readFrameBody.Consumes (frameBody sequence operations.length encoded) ⟨sequence, operations⟩ := by
  have hread : readFrameBody.Consumes
      (writeU64 sequence ++ (writeU32 operations.length ++ (encoded ++ []))) ⟨sequence, operations⟩ := by
    refine (readU64_consumes hsequence).bind ?_
    refine (readU32_consumes hcount).bind ?_
    exact (readOperations_consumes h).bind (consumes_pure _)
  simpa [frameBody] using hread

def FrameBytes (used : Bytes) (frame : Frame) : Prop :=
  ∀ offset tail, readFrame ⟨offset, used ++ tail⟩ = .ok (some (frame, ⟨offset + used.length, tail⟩))

variable {frame : Frame}

theorem readFrame_wrapped {word body sum : Bytes} {frameLen : ℕ} (hword : readU64.Consumes word frameLen)
    (hwordlen : word.length = 8) (hmin : 12 ≤ frameLen) (hbody : body.length = frameLen - 4)
    (hread : readFrameBody.Consumes body frame) (hsumlen : sum.length = 4) (hsum : ofBigEndian sum = checksum body) :
    FrameBytes (walMagic ++ (word ++ (body ++ sum))) frame := by
  intro offset tail
  have hmagic : walMagic.length = 8 := rfl
  unfold readFrame
  rw [if_neg (by simp only [List.length_append]; omega), if_neg (by simp [hmagic])]
  have hadvance : (Cursor.mk offset (walMagic ++ (word ++ (body ++ sum)) ++ tail)).advance
      walMagic.length = ⟨offset + 8, word ++ (body ++ sum ++ tail)⟩ := by
    simp [Cursor.advance, hmagic]
  rw [hadvance, hword]
  simp only [bind, Except.bind]
  rw [if_neg (by omega), if_neg (by simp only [List.length_append]; omega), List.append_assoc, hread]
  have hdrop : (body ++ (sum ++ tail)).drop (frameLen - 4) = sum ++ tail := by rw [← hbody]; simp
  have htake : (body ++ (sum ++ tail)).take (frameLen - 4) = body := by rw [← hbody]; simp
  have hsumtake : (sum ++ tail).take 4 = sum := by rw [← hsumlen]; simp
  simp only [hdrop, htake, hsumtake, hsum]
  rw [if_neg (by omega), if_neg (by simp)]
  have hframe : (body ++ sum).length = frameLen := by simp only [List.length_append]; omega
  have hrest : (body ++ (sum ++ tail)).drop frameLen = tail := by
    rw [← hframe]; simp
  simp only [Cursor.advance]
  simp only [List.length_append]
  congr 4
  omega

variable {bytes : Bytes}

theorem frameBytes_encodeFrame (hsequence : sequence ≤ u64Max) (h : encodeFrame sequence operations = .ok bytes) :
    FrameBytes bytes ⟨sequence, operations⟩ := by
  unfold encodeFrame at h
  split_ifs at h with hcount
  obtain ⟨encoded, hencoded, h⟩ := result_bind_ok.mp h
  dsimp only at h
  split_ifs at h with hlen
  cases h
  have hsumlen (n : ℕ) : (writeU32 n).length = 4 := bigEndian_length 4 n
  refine readFrame_wrapped (readU64_consumes (by omega)) (bigEndian_length 8 _) ?_ rfl
    (readFrameBody_consumes hsequence (by omega) hencoded) (hsumlen _) ?_
  · have hseqlen : (writeU64 sequence).length = 8 := bigEndian_length 8 sequence
    simp only [frameBody, List.length_append]
    omega
  · exact ofBigEndian_bigEndian (checksum_lt _)

variable {c c' : Cursor} {fuel : ℕ} {out : Replayed}

theorem readFrame_inv (h : readFrame c = .ok (some (frame, c'))) :
    ∃ frameLen body next, c.rest.take 8 = walMagic ∧ readU64 (c.advance 8) = .ok (frameLen, body) ∧
      12 ≤ frameLen ∧ frameLen ≤ body.rest.length ∧ readFrameBody body = .ok (frame, next) ∧
      next.offset = body.offset + (frameLen - 4) ∧
      ofBigEndian ((body.rest.drop (frameLen - 4)).take 4) = checksum (body.rest.take (frameLen - 4)) ∧
      c' = body.advance frameLen := by
  unfold readFrame at h
  split_ifs at h with hshort hmagic
  · cases h
  obtain ⟨⟨frameLen, body⟩, hlen, h⟩ := result_bind_ok.mp h
  dsimp only at h
  by_cases hmin : frameLen < 12
  · rw [if_pos hmin] at h
    cases h
  by_cases hlong : body.rest.length < frameLen
  · rw [if_neg hmin, if_pos hlong] at h
    cases h
  rw [if_neg hmin, if_neg hlong] at h
  obtain ⟨⟨frame', next⟩, hbody, h⟩ := result_bind_ok.mp h
  split_ifs at h with hoffset hsum
  obtain ⟨rfl, rfl⟩ := h
  exact ⟨frameLen, body, next, not_not.mp hmagic, hlen, not_lt.mp hmin, not_lt.mp hlong, hbody,
    not_not.mp hoffset, not_not.mp hsum, rfl⟩

theorem readFrame_some (h : readFrame c = .ok (some (frame, c'))) :
    ∃ used, c.rest = used ++ c'.rest ∧ c'.offset = c.offset + used.length ∧ used ≠ [] ∧
      FrameBytes used frame := by
  obtain ⟨frameLen, body, next, hmagic, hlen, hmin, hlong, hbody, hoffset, hsum, rfl⟩ := readFrame_inv h
  obtain ⟨word, hwordlen, hwordrest, hwordoffset, hword⟩ := readUint_ok hlen
  obtain ⟨used, husedrest, husedoffset, hused⟩ := readFrameBody_local _ _ _ hbody
  have husedlen : used.length = frameLen - 4 := by omega
  have hbodytake : body.rest.take (frameLen - 4) = used := by
    rw [husedrest, ← husedlen]; simp
  have hsumlen : ((body.rest.drop (frameLen - 4)).take 4).length = 4 := by
    simp only [List.length_take, List.length_drop]
    omega
  have hframe := readFrame_wrapped hword hwordlen (by omega) husedlen hused hsumlen
    (by rw [hsum, hbodytake])
  refine ⟨_, ?_, ?_, by simp [walMagic], hframe⟩
  · have hrest : c.rest = walMagic ++ (word ++ body.rest) := by
      calc c.rest = c.rest.take 8 ++ c.rest.drop 8 := (List.take_append_drop 8 c.rest).symm
        _ = walMagic ++ (word ++ body.rest) := by rw [hmagic, ← hwordrest]; rfl
    have hsplit : body.rest = used ++ ((body.rest.drop (frameLen - 4)).take 4 ++ body.rest.drop frameLen) := by
      have hdrop : body.rest.drop frameLen = (body.rest.drop (frameLen - 4)).drop 4 := by
        rw [List.drop_drop]
        congr 1
        omega
      rw [hdrop, List.take_append_drop, ← hbodytake, List.take_append_drop]
    rw [hrest]
    simp only [List.append_assoc, Cursor.advance]
    rw [← hsplit]
  · have hmagiclen : walMagic.length = 8 := rfl
    simp only [Cursor.advance] at hwordoffset ⊢
    simp only [List.length_append]
    omega

theorem FrameBytes.sequence_le {used : Bytes} (h : FrameBytes used frame) : frame.sequence ≤ u64Max := by
  obtain ⟨frameLen, body, next, -, -, -, -, hbody, -, -, -⟩ := readFrame_inv (h 0 [])
  obtain ⟨sequence, c₁, hsequence, hbody⟩ := bind_ok.mp hbody
  obtain ⟨count, c₂, -, hbody⟩ := bind_ok.mp hbody
  obtain ⟨operations, c₃, -, hbody⟩ := bind_ok.mp hbody
  cases hbody
  have hlt := readUint_lt hsequence
  simp only [u64Max]
  omega

inductive Frames : Bytes → List Frame → Prop
  | nil : Frames [] []
  | cons {used wal : Bytes} {frame : Frame} {frames : List Frame} (hused : used ≠ [])
      (hframe : FrameBytes used frame) (hrest : Frames wal frames) : Frames (used ++ wal) (frame :: frames)

variable {wal : Bytes} {frames : List Frame}

theorem Frames.sequence_le (h : Frames wal frames) : ∀ frame ∈ frames, frame.sequence ≤ u64Max := by
  induction h with
  | nil => simp
  | cons hused hframe hrest ih =>
    intro f hf
    rcases List.mem_cons.mp hf with rfl | hf
    · exact hframe.sequence_le
    · exact ih f hf

theorem Frames.append {a b : Bytes} {fs gs : List Frame} (ha : Frames a fs) (hb : Frames b gs) :
    Frames (a ++ b) (fs ++ gs) := by
  induction ha with
  | nil => exact hb
  | cons hused hframe _ ih =>
    rw [List.append_assoc]
    exact Frames.cons hused hframe ih

theorem frames_encodeFrame (hsequence : sequence ≤ u64Max) (h : encodeFrame sequence operations = .ok bytes) :
    Frames bytes [⟨sequence, operations⟩] := by
  have hframe := frameBytes_encodeFrame hsequence h
  have hne : bytes ≠ [] := by
    rintro rfl
    have := hframe 0 []
    simp [readFrame] at this
  simpa using Frames.cons hne hframe Frames.nil

section

variable (replayed : Replayed)

def Replayed.applyAll (frames : List Frame) : Replayed := frames.foldl Replayed.apply replayed

theorem Replayed.apply_stoppedAt (frame : Frame) (offset : ℕ) :
    (replayed.stoppedAt offset).apply frame = (replayed.apply frame).stoppedAt offset := by
  unfold Replayed.apply Replayed.stoppedAt
  split_ifs <;> rfl

theorem Replayed.applyAll_stoppedAt (frames : List Frame) (offset : ℕ) :
    (replayed.stoppedAt offset).applyAll frames = (replayed.applyAll frames).stoppedAt offset := by
  induction frames generalizing replayed with
  | nil => rfl
  | cons frame frames ih =>
    simp only [Replayed.applyAll, List.foldl_cons, Replayed.apply_stoppedAt] at ih ⊢
    exact ih (replayed.apply frame)

@[simp] theorem Replayed.stoppedAt_validOffset (offset : ℕ) :
    (replayed.stoppedAt offset).validOffset = offset := rfl

end

theorem replayLoop_frames (h : Frames wal frames) (replayed : Replayed) (hfuel : wal.length ≤ fuel) :
    replayLoop fuel ⟨replayed.validOffset, wal⟩ replayed =
      .ok ((replayed.applyAll frames).stoppedAt (replayed.validOffset + wal.length)) := by
  induction h generalizing fuel replayed with
  | nil => cases fuel <;> rfl
  | @cons used wal frame frames hused hframe hrest ih =>
    have hpos : 0 < used.length := List.length_pos_iff.mpr hused
    rw [List.length_append] at hfuel
    cases fuel with
    | zero => omega
    | succ fuel =>
      have hloop := ih ((replayed.apply frame).stoppedAt (replayed.validOffset + used.length))
        (show wal.length ≤ fuel by omega)
      rw [Replayed.stoppedAt_validOffset, Replayed.applyAll_stoppedAt] at hloop
      rw [replayLoop, if_neg (by simp [hused]), hframe]
      dsimp only
      rw [hloop, List.length_append, ← Nat.add_assoc]
      rfl

theorem replayLoop_ok {rest : Bytes} (replayed : Replayed) (hfuel : rest.length ≤ fuel)
    (h : replayLoop fuel ⟨replayed.validOffset, rest⟩ replayed = .ok out) :
    ∃ wal frames tail, rest = wal ++ tail ∧ Frames wal frames ∧
      out = (replayed.applyAll frames).stoppedAt (replayed.validOffset + wal.length) := by
  induction fuel generalizing rest replayed with
  | zero =>
    cases h
    exact ⟨[], [], rest, rfl, Frames.nil, rfl⟩
  | succ fuel ih =>
    rw [replayLoop] at h
    split_ifs at h with hempty
    · cases h
      exact ⟨[], [], rest, rfl, Frames.nil, rfl⟩
    · cases hread : readFrame ⟨replayed.validOffset, rest⟩ with
      | error message => rw [hread] at h; cases h
      | ok result =>
        rw [hread] at h
        cases result with
        | none =>
          cases h
          exact ⟨[], [], rest, rfl, Frames.nil, rfl⟩
        | some p =>
          obtain ⟨frame, next⟩ := p
          obtain ⟨used, hrest, hnext, hused, hframe⟩ := readFrame_some hread
          have hpos : 0 < used.length := List.length_pos_iff.mpr hused
          have hlen := congrArg List.length hrest
          rw [List.length_append] at hlen
          have hshort : next.rest.length ≤ fuel := by
            dsimp only at hlen
            omega
          obtain ⟨wal, frames, tail, htail, hframes, hout⟩ :=
            ih ((replayed.apply frame).stoppedAt next.offset) hshort h
          refine ⟨used ++ wal, frame :: frames, tail, ?_, Frames.cons hused hframe hframes, ?_⟩
          · rw [List.append_assoc, ← htail]
            exact hrest
          · rw [hout, Replayed.applyAll_stoppedAt, hnext, List.length_append, ← Nat.add_assoc]
            rfl

theorem replayWal_frames (h : Frames wal frames) (tableSequence : ℕ) (state : SortedMap Bytes Bytes) :
    replayWal wal tableSequence state =
      .ok ((Replayed.applyAll ⟨tableSequence, 0, 0, state⟩ frames).stoppedAt wal.length) := by
  have hloop := replayLoop_frames h ⟨tableSequence, 0, 0, state⟩ le_rfl
  rw [Nat.zero_add] at hloop
  exact hloop

theorem replayWal_ok {tableSequence : ℕ} {state : SortedMap Bytes Bytes}
    (h : replayWal bytes tableSequence state = .ok out) :
    ∃ wal frames tail, bytes = wal ++ tail ∧ Frames wal frames ∧
      out = (Replayed.applyAll ⟨tableSequence, 0, 0, state⟩ frames).stoppedAt wal.length := by
  obtain ⟨wal, frames, tail, hbytes, hframes, hout⟩ :=
    replayLoop_ok ⟨tableSequence, 0, 0, state⟩ (le_refl bytes.length) h
  exact ⟨wal, frames, tail, hbytes, hframes, by rw [hout, Nat.zero_add]⟩

end Thingd.ThingDb
