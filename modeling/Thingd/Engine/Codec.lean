import Thingd.Data.Utf8

namespace Thingd.Engine

open Bytes

inductive ThingdError
  | invalidInput (message : String)
  | conflict (message : String)
  | storage (message : String)
  | isProtected (message : String)
  deriving DecidableEq, Repr

abbrev ThingdResult := Except ThingdError

theorem bind_eq_ok {ε α β : Type} {x : Except ε α} {f : α → Except ε β} {b : β} :
    x >>= f = .ok b ↔ ∃ a, x = .ok a ∧ f a = .ok b := by
  cases x <;> simp [bind, Except.bind]

abbrev Millis := { n : ℤ // -2 ^ 63 ≤ n ∧ n < 2 ^ 63 }

instance : LinearOrder Millis := @Subtype.instLinearOrder ℤ Int.instLinearOrder _

instance (a b : Millis) : Decidable (a ≤ b) := Int.decLe a.val b.val

instance (a b : Millis) : Decidable (a < b) := Int.decLt a.val b.val

namespace Millis

def zero : Millis := ⟨0, by omega⟩

def saturating (n : ℤ) : Millis := ⟨max (-2 ^ 63) (min (2 ^ 63 - 1) n), by omega⟩

def wrapping (n : ℤ) : Millis := ⟨(n + 2 ^ 63) % 2 ^ 64 - 2 ^ 63, by omega⟩

def nonneg (n : Millis) : Millis := ⟨max 0 n.val, by have := n.property; omega⟩

theorem le_nonneg (n : Millis) : n ≤ n.nonneg := Subtype.coe_le_coe.mp (le_max_right 0 n.val)

theorem nonneg_of_le {n : Millis} (h : 0 ≤ n.val) : n.nonneg = n := Subtype.ext (max_eq_right h)

end Millis

structure StorageCrypto where
  hashKey : String → Bytes → Bytes
  encrypt : String → Bytes → Bytes
  decrypt : String → Bytes → ThingdResult Bytes

structure StorageCodec where
  crypto : Option StorageCrypto
  parseString : Bytes → ThingdResult Bytes

namespace StorageCodec

variable (codec : StorageCodec)

def encodeKey (domain : String) (key : Bytes) : Bytes :=
  match codec.crypto with
  | none => key
  | some crypto => crypto.hashKey domain key

def encodeScopedKey (domain : String) (ns suffix : Bytes) : Bytes :=
  match codec.crypto with
  | none => ns ++ 0 :: suffix
  | some crypto => crypto.hashKey (domain ++ ":namespace") ns ++ crypto.hashKey (domain ++ ":suffix") suffix

def encodeScopedPrefix (domain : String) (ns : Bytes) : Bytes :=
  match codec.crypto with
  | none => ns ++ [0]
  | some crypto => crypto.hashKey (domain ++ ":namespace") ns

def makeQueueKey (queue id : Bytes) : Bytes := codec.encodeScopedKey "queue_jobs" queue id

def makeQueuePrefix (queue : Bytes) : Bytes := codec.encodeScopedPrefix "queue_jobs" queue

/-- `i32::MAX - priority`, which wraps for a negative priority. -/
def priorityRev (priority : Int32) : ℕ := (Int32.maxValue - priority).toUInt32.toNat

def makeReadyPrefix (queue : Bytes) : Bytes :=
  match codec.crypto with
  | none => queue ++ [0]
  | some crypto => crypto.hashKey "ready_jobs.queue" queue

def makeReadyKey (queue : Bytes) (priority : Int32) (createdAt id : Bytes) : Bytes :=
  match codec.crypto with
  | none => queue ++ 0 :: (bigEndian 4 (priorityRev priority) ++ 0 :: (createdAt ++ 0 :: id))
  | some crypto => crypto.hashKey "ready_jobs.queue" queue ++ bigEndian 4 (priorityRev priority) ++ createdAt ++
      crypto.hashKey "ready_jobs.id" id

def makeLeasePrefix (queue : Bytes) : Bytes :=
  match codec.crypto with
  | none => queue ++ [0]
  | some crypto => crypto.hashKey "lease_jobs.queue" queue

def makeLeaseKey (queue : Bytes) (expiresAtMs : Millis) (id : Bytes) : Bytes :=
  match codec.crypto with
  | none => queue ++ 0 :: (bigEndian 8 expiresAtMs.val.toNat ++ 0 :: id)
  | some crypto => crypto.hashKey "lease_jobs.queue" queue ++ bigEndian 8 expiresAtMs.val.toNat ++
      crypto.hashKey "lease_jobs.id" id

def leaseExpiration (queue key : Bytes) : ThingdResult Millis :=
  let bytes := (key.drop (codec.makeLeasePrefix queue).length).take 8
  if bytes.length < 8 then .error (.storage "malformed queue lease index key")
  else
    let millis : ℤ := ofBigEndian bytes
    if h : -2 ^ 63 ≤ millis ∧ millis < 2 ^ 63 then .ok ⟨millis, h⟩
    else .error (.storage "queue lease expiration overflows i64")

-- "TDBQID1\0"
def rawQueueIdPrefix : Bytes := [84, 68, 66, 81, 73, 68, 49, 0]

def encodeQueueId (id : Bytes) : Bytes :=
  match codec.crypto with
  | none => rawQueueIdPrefix ++ id
  | some crypto => crypto.encrypt "queue_index_id" id

def decodeQueueId (value : Bytes) : ThingdResult Bytes :=
  match value.dropPrefix? rawQueueIdPrefix with
  | some rawId => .ok rawId
  | none =>
    match codec.crypto with
    | none => codec.parseString value
    | some crypto =>
      match crypto.decrypt "queue_index_id" value with
      | .ok decoded => .ok decoded
      | .error _ => crypto.decrypt "record" value >>= codec.parseString

def afterNul : Bytes → Option Bytes
  | [] => none
  | byte :: bytes => if byte = 0 then some bytes else afterNul bytes

def readyJobId (key value : Bytes) : ThingdResult (Option Bytes) :=
  if value.isEmpty then .ok (((afterNul (Utf8.lossy key)).bind afterNul).bind afterNul)
  else (codec.decodeQueueId value).map some

theorem makeQueuePrefix_isPrefix (queue id : Bytes) : codec.makeQueuePrefix queue <+: codec.makeQueueKey queue id := by
  unfold makeQueuePrefix makeQueueKey encodeScopedPrefix encodeScopedKey
  cases codec.crypto with
  | none => exact ⟨id, by rw [List.append_assoc, List.singleton_append]⟩
  | some crypto => exact List.prefix_append _ _

theorem makeReadyPrefix_isPrefix (queue : Bytes) (priority : Int32) (createdAt id : Bytes) :
    codec.makeReadyPrefix queue <+: codec.makeReadyKey queue priority createdAt id := by
  unfold makeReadyPrefix makeReadyKey
  cases codec.crypto with
  | none => exact ⟨_, by rw [List.append_assoc, List.singleton_append]⟩
  | some crypto => exact ⟨_, by simp only [List.append_assoc]; rfl⟩

theorem makeLeaseKey_eq (queue : Bytes) (expiresAtMs : Millis) (id : Bytes) :
    ∃ rest, codec.makeLeaseKey queue expiresAtMs id =
      codec.makeLeasePrefix queue ++ (bigEndian 8 expiresAtMs.val.toNat ++ rest) := by
  unfold makeLeasePrefix makeLeaseKey
  cases codec.crypto with
  | none => exact ⟨0 :: id, by simp⟩
  | some crypto => exact ⟨crypto.hashKey "lease_jobs.id" id, by simp⟩

theorem makeLeasePrefix_isPrefix (queue : Bytes) (expiresAtMs : Millis) (id : Bytes) :
    codec.makeLeasePrefix queue <+: codec.makeLeaseKey queue expiresAtMs id := by
  obtain ⟨rest, hkey⟩ := codec.makeLeaseKey_eq queue expiresAtMs id
  exact ⟨_, hkey.symm⟩

theorem toNat_lt (expiresAtMs : Millis) : expiresAtMs.val.toNat < 256 ^ 8 := by
  omega

variable {codec}

theorem leaseExpiration_makeLeaseKey (queue : Bytes) (expiresAtMs : Millis) (id : Bytes) :
    codec.leaseExpiration queue (codec.makeLeaseKey queue expiresAtMs id) = .ok expiresAtMs.nonneg := by
  obtain ⟨rest, hkey⟩ := codec.makeLeaseKey_eq queue expiresAtMs id
  have hbytes : ((codec.makeLeaseKey queue expiresAtMs id).drop (codec.makeLeasePrefix queue).length).take 8 =
      bigEndian 8 expiresAtMs.val.toNat := by
    rw [hkey, List.drop_left, List.take_left' (bigEndian_length _ _)]
  have hmillis : (ofBigEndian (bigEndian 8 expiresAtMs.val.toNat) : ℤ) = expiresAtMs.nonneg.val := by
    rw [ofBigEndian_bigEndian (toNat_lt expiresAtMs), Int.toNat_eq_max, max_comm]
    rfl
  unfold leaseExpiration
  rw [hbytes]
  simp only [bigEndian_length, lt_irrefl, if_false, hmillis]
  rw [dif_pos expiresAtMs.nonneg.property]

theorem makeLeaseKey_lt {queue id id' : Bytes} {expiry expiry' : Millis} (h : 0 ≤ expiry.val) (hlt : expiry < expiry') :
    codec.makeLeaseKey queue expiry id < codec.makeLeaseKey queue expiry' id' := by
  obtain ⟨rest, hkey⟩ := codec.makeLeaseKey_eq queue expiry id
  obtain ⟨rest', hkey'⟩ := codec.makeLeaseKey_eq queue expiry' id'
  rw [hkey, hkey', append_left_lt_iff]
  apply append_lt_append_of_lt (by simp)
  have hval : expiry.val < expiry'.val := hlt
  exact (bigEndian_lt_iff (toNat_lt _) (toNat_lt _)).mpr (by omega)

end StorageCodec

structure Naming (codec : StorageCodec) where
  queue : Bytes → Prop
  stamp : Bytes → Prop
  id : Bytes → Prop
  queueKey_inj : ∀ {q q' i i'}, queue q → queue q' → id i → id i' →
    codec.makeQueueKey q i = codec.makeQueueKey q' i' → q = q' ∧ i = i'
  readyKey_inj : ∀ {q q' p p' c c' i i'}, queue q → queue q' → stamp c → stamp c' → id i → id i' →
    codec.makeReadyKey q p c i = codec.makeReadyKey q' p' c' i' → q = q' ∧ i = i'
  readyPrefix : ∀ {q q' p c i}, queue q → queue q' →
    codec.makeReadyPrefix q <+: codec.makeReadyKey q' p c i → q = q'
  leaseKey_inj : ∀ {q q' e e' i i'}, queue q → queue q' → id i → id i' →
    codec.makeLeaseKey q e i = codec.makeLeaseKey q' e' i' → q = q' ∧ i = i'
  leasePrefix : ∀ {q q' e i}, queue q → queue q' → codec.makeLeasePrefix q <+: codec.makeLeaseKey q' e i → q = q'
  decode_encode : ∀ {i}, id i → codec.decodeQueueId (codec.encodeQueueId i) = .ok i
  encode_ne_nil : ∀ {i}, id i → codec.encodeQueueId i ≠ []

def rawCodec (parseString : Bytes → ThingdResult Bytes) : StorageCodec := ⟨none, parseString⟩

def rawNaming (parseString : Bytes → ThingdResult Bytes) : Naming (rawCodec parseString) where
  queue q := (0 : Byte) ∉ q
  stamp c := (0 : Byte) ∉ c
  id _ := True
  queueKey_inj hq hq' _ _ h := append_nul_inj hq hq' h
  readyKey_inj := by
    intro q q' p p' c c' i i' hq hq' hc hc' _ _ h
    obtain ⟨rfl, hrest⟩ := append_nul_inj hq hq' h
    obtain ⟨-, hrest⟩ := List.append_inj hrest (by simp)
    exact ⟨rfl, (append_nul_inj hc hc' (List.cons.inj hrest).2).2⟩
  readyPrefix hq hq' h := eq_of_nul_isPrefix hq hq' h
  leaseKey_inj := by
    intro q q' e e' i i' hq hq' _ _ h
    obtain ⟨rfl, hrest⟩ := append_nul_inj hq hq' h
    obtain ⟨-, hrest⟩ := List.append_inj hrest (by simp)
    exact ⟨rfl, (List.cons.inj hrest).2⟩
  leasePrefix hq hq' h := eq_of_nul_isPrefix hq hq' h
  decode_encode := by
    intro i _
    have hdrop : (StorageCodec.rawQueueIdPrefix ++ i).dropPrefix? StorageCodec.rawQueueIdPrefix = some i := by
      rw [List.dropPrefix?_eq_some_iff]
      exact ⟨_, rfl, by simp⟩
    simp only [StorageCodec.decodeQueueId, StorageCodec.encodeQueueId, rawCodec, hdrop]
  encode_ne_nil := by
    intro i _ h
    cases h

end Thingd.Engine
