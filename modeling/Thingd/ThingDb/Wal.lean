import Thingd.ThingDb.Encoding
import Thingd.Data.SortedMap

namespace Thingd.ThingDb

open Bytes

inductive Operation
  | put (key value : Bytes)
  | delete (key : Bytes)
  deriving DecidableEq

namespace Operation

def key : Operation → Bytes
  | put key _ => key
  | delete key => key

def value : Operation → Option Bytes
  | put _ value => some value
  | delete _ => none

end Operation

structure Frame where
  sequence : ℕ
  operations : List Operation
  deriving DecidableEq

def walMagic : Bytes := [84, 68, 66, 87, 65, 76, 48, 49]

def encodeOperation : Operation → Result Bytes
  | .put key value => do
    let key ← writeBytes key
    let value ← writeBytes value
    pure (1 :: (key ++ value))
  | .delete key => do
    let key ← writeBytes key
    pure (2 :: (key ++ writeU64 0))

def encodeOperations : List Operation → Result Bytes
  | [] => pure []
  | operation :: operations => do
    let encoded ← encodeOperation operation
    let rest ← encodeOperations operations
    pure (encoded ++ rest)

def frameBody (sequence count : ℕ) (encoded : Bytes) : Bytes :=
  writeU64 sequence ++ (writeU32 count ++ encoded)

def encodeFrame (sequence : ℕ) (operations : List Operation) : Result Bytes :=
  if 2 ^ 32 ≤ operations.length then .error "too many operations in batch"
  else do
    let encoded ← encodeOperations operations
    let body := frameBody sequence operations.length encoded
    let frameLen := body.length + 4
    if u64Max < frameLen then throw "WAL frame is too large"
    else pure (walMagic ++ (writeU64 frameLen ++ (body ++ writeU32 (checksum body))))

def encodeFrameInto (output : Bytes) (sequence : ℕ) (operations : List Operation) : Result Bytes := do
  let frame ← encodeFrame sequence operations
  pure (output ++ frame)

def readOperation : Reader Operation := do
  let kind ← readByte
  let key ← readBytes
  let value ← readBytes
  if kind = 1 then pure (.put key value)
  else if kind = 2 then pure (.delete key)
  else throw "invalid ThingDB WAL operation"

def readOperations : ℕ → Reader (List Operation)
  | 0 => pure []
  | count + 1 => do
    let operation ← readOperation
    let operations ← readOperations count
    pure (operation :: operations)

def readFrameBody : Reader Frame := do
  let sequence ← readU64
  let count ← readU32
  let operations ← readOperations count
  pure ⟨sequence, operations⟩

def readFrame (c : Cursor) : Result (Option (Frame × Cursor)) :=
  if c.rest.length < walMagic.length + 8 then .ok none
  else if c.rest.take walMagic.length ≠ walMagic then .error "invalid ThingDB WAL magic"
  else do
    let (frameLen, body) ← readU64 (c.advance walMagic.length)
    if frameLen < 12 then .error "invalid ThingDB WAL frame length"
    else if body.rest.length < frameLen then .ok none
    else do
      let (frame, next) ← readFrameBody body
      if next.offset ≠ body.offset + (frameLen - 4) then .error "invalid ThingDB WAL payload length"
      else if ofBigEndian ((body.rest.drop (frameLen - 4)).take 4) ≠ checksum (body.rest.take (frameLen - 4)) then
        .error "ThingDB WAL checksum mismatch"
      else .ok (some (frame, body.advance frameLen))

def applyOperation (state : SortedMap Bytes Bytes) : Operation → SortedMap Bytes Bytes
  | .put key value => state.insert key value
  | .delete key => state.erase key

structure Replayed where
  lastSequence : ℕ
  validOffset : ℕ
  frameCount : ℕ
  state : SortedMap Bytes Bytes
  deriving DecidableEq

def Replayed.apply (replayed : Replayed) (frame : Frame) : Replayed :=
  if replayed.lastSequence < frame.sequence then
    { replayed with
      lastSequence := frame.sequence
      frameCount := replayed.frameCount + 1
      state := frame.operations.foldl applyOperation replayed.state }
  else { replayed with frameCount := replayed.frameCount + 1 }

def Replayed.stoppedAt (replayed : Replayed) (offset : ℕ) : Replayed := { replayed with validOffset := offset }

def replayLoop : ℕ → Cursor → Replayed → Result Replayed
  | 0, _, replayed => .ok replayed
  | fuel + 1, cursor, replayed =>
    if cursor.rest = [] then .ok replayed
    else match readFrame cursor with
      | .error message => .error message
      | .ok none => .ok replayed
      | .ok (some (frame, next)) => replayLoop fuel next ((replayed.apply frame).stoppedAt next.offset)

def replayWal (bytes : Bytes) (tableSequence : ℕ) (state : SortedMap Bytes Bytes) : Result Replayed :=
  replayLoop bytes.length ⟨0, bytes⟩ ⟨tableSequence, 0, 0, state⟩

end Thingd.ThingDb
