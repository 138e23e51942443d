import Thingd.Data.Bytes

namespace Thingd

inductive JsonNumber
  | unsigned (n : UInt64)
  | negative (bits : UInt64)
  | float (bits : UInt64)
  deriving DecidableEq

inductive Value
  | null
  | bool (b : Bool)
  | number (n : JsonNumber)
  | string (text : Bytes)
  | array (items : List Value)
  | object (fields : List (Bytes × Value))

namespace Value

def get (value : Value) (field : Bytes) : Option Value :=
  match value with
  | .object fields => (fields.find? fun entry => entry.1 = field).map Prod.snd
  | _ => none

def asStr : Value → Option Bytes
  | .string text => some text
  | _ => none

def asU64 : Value → Option UInt64
  | .number (.unsigned n) => some n
  | _ => none

end Value

structure JsonFormat where
  parse : Bytes → Option Value
  print : Value → Bytes

def JsonFormat.Keeps (format : JsonFormat) (value : Value) : Prop := format.parse (format.print value) = some value

namespace Json

/-! A format that reads back all that it prints. -/

def encodeText : Bytes → Bytes
  | [] => [0]
  | byte :: text => 1 :: byte :: encodeText text

def decodeText : Bytes → Option (Bytes × Bytes)
  | 1 :: byte :: rest => (decodeText rest).map fun read => (byte :: read.1, read.2)
  | 0 :: rest => some ([], rest)
  | _ => none

def encodeNumber : JsonNumber → Bytes
  | .unsigned n => 0 :: Bytes.bigEndian 8 n.toNat
  | .negative bits => 1 :: Bytes.bigEndian 8 bits.toNat
  | .float bits => 2 :: Bytes.bigEndian 8 bits.toNat

def decodeNumber : Bytes → Option (JsonNumber × Bytes)
  | [] => none
  | tag :: rest =>
    let bits := UInt64.ofNat (Bytes.ofBigEndian (rest.take 8))
    some (if tag = 0 then .unsigned bits else if tag = 1 then .negative bits else .float bits, rest.drop 8)

mutual

def encode : Value → Bytes
  | .null => [0]
  | .bool b => 1 :: (if b then [1] else [0])
  | .number n => 2 :: encodeNumber n
  | .string text => 3 :: encodeText text
  | .array items => 4 :: encodeItems items
  | .object fields => 5 :: encodeFields fields

def encodeItems : List Value → Bytes
  | [] => [0]
  | item :: items => 1 :: (encode item ++ encodeItems items)

def encodeFields : List (Bytes × Value) → Bytes
  | [] => [0]
  | (name, value) :: fields => 1 :: (encodeText name ++ (encode value ++ encodeFields fields))

end

mutual

def decode : ℕ → Bytes → Option (Value × Bytes)
  | 0, _ => none
  | fuel + 1, text =>
    match text with
    | 0 :: rest => some (.null, rest)
    | 1 :: b :: rest => some (.bool (b = 1), rest)
    | 2 :: rest => (decodeNumber rest).map fun read => (.number read.1, read.2)
    | 3 :: rest => (decodeText rest).map fun read => (.string read.1, read.2)
    | 4 :: rest => (decodeItems fuel rest).map fun read => (.array read.1, read.2)
    | 5 :: rest => (decodeFields fuel rest).map fun read => (.object read.1, read.2)
    | _ => none

def decodeItems : ℕ → Bytes → Option (List Value × Bytes)
  | 0, _ => none
  | fuel + 1, text =>
    match text with
    | 0 :: rest => some ([], rest)
    | 1 :: rest => (decode fuel rest).bind fun item =>
      (decodeItems fuel item.2).map fun items => (item.1 :: items.1, items.2)
    | _ => none

def decodeFields : ℕ → Bytes → Option (List (Bytes × Value) × Bytes)
  | 0, _ => none
  | fuel + 1, text =>
    match text with
    | 0 :: rest => some ([], rest)
    | 1 :: rest => (decodeText rest).bind fun name => (decode fuel name.2).bind fun value =>
      (decodeFields fuel value.2).map fun fields => ((name.1, value.1) :: fields.1, fields.2)
    | _ => none

end

theorem decodeText_encodeText (text rest : Bytes) : decodeText (encodeText text ++ rest) = some (text, rest) := by
  induction text with
  | nil => rfl
  | cons byte text ih =>
    rw [encodeText, List.cons_append, List.cons_append, decodeText, ih]
    rfl

theorem decodeNumber_encodeNumber (n : JsonNumber) (rest : Bytes) :
    decodeNumber (encodeNumber n ++ rest) = some (n, rest) := by
  have hbits (bits : UInt64) : UInt64.ofNat (Bytes.ofBigEndian (Bytes.bigEndian 8 bits.toNat)) = bits := by
    rw [Bytes.ofBigEndian_bigEndian (show bits.toNat < 256 ^ 8 from bits.toNat_lt)]
    exact UInt64.ofNat_toNat
  cases n with
  | unsigned n => simp [encodeNumber, decodeNumber, hbits n]
  | negative bits => simp [encodeNumber, decodeNumber, hbits bits]
  | float bits => simp [encodeNumber, decodeNumber, hbits bits]

theorem one_le_length_encode (value : Value) : 1 ≤ (encode value).length := by
  cases value <;> simp [encode]

mutual

theorem decode_encode (value : Value) (rest : Bytes) (fuel : ℕ) (h : (encode value).length ≤ fuel) :
    decode fuel (encode value ++ rest) = some (value, rest) := by
  obtain ⟨fuel, rfl⟩ : ∃ n, fuel = n + 1 := ⟨fuel - 1, by have := one_le_length_encode value; omega⟩
  match value with
  | .null => rfl
  | .bool false => rfl
  | .bool true => rfl
  | .number n => simp [encode, decode, decodeNumber_encodeNumber]
  | .string text => simp [encode, decode, decodeText_encodeText]
  | .array items =>
    have hitems := decodeItems_encodeItems items rest fuel (by simpa [encode] using h)
    simp [encode, decode, hitems]
  | .object fields =>
    have hfields := decodeFields_encodeFields fields rest fuel (by simpa [encode] using h)
    simp [encode, decode, hfields]

theorem decodeItems_encodeItems (items : List Value) (rest : Bytes) (fuel : ℕ) (h : (encodeItems items).length ≤ fuel) :
    decodeItems fuel (encodeItems items ++ rest) = some (items, rest) := by
  match items, fuel with
  | items, 0 => cases items <;> simp [encodeItems] at h
  | [], fuel + 1 => rfl
  | item :: items, fuel + 1 =>
    simp only [encodeItems, List.length_cons, List.length_append] at h
    have hitem := decode_encode item (encodeItems items ++ rest) fuel (by omega)
    have hitems := decodeItems_encodeItems items rest fuel (by omega)
    simp [encodeItems, decodeItems, hitem, hitems]

theorem decodeFields_encodeFields (fields : List (Bytes × Value)) (rest : Bytes) (fuel : ℕ)
    (h : (encodeFields fields).length ≤ fuel) :
    decodeFields fuel (encodeFields fields ++ rest) = some (fields, rest) := by
  match fields, fuel with
  | fields, 0 => cases fields <;> simp [encodeFields] at h
  | [], fuel + 1 => rfl
  | (name, value) :: fields, fuel + 1 =>
    simp only [encodeFields, List.length_cons, List.length_append] at h
    have hvalue := decode_encode value (encodeFields fields ++ rest) fuel (by omega)
    have hfields := decodeFields_encodeFields fields rest fuel (by omega)
    simp [encodeFields, decodeFields, decodeText_encodeText, hvalue, hfields]

end

def tagged : JsonFormat := ⟨fun text => (decode text.length text).map Prod.fst, encode⟩

theorem keeps_tagged (value : Value) : tagged.Keeps value := by
  have hread := decode_encode value [] (encode value).length le_rfl
  rw [List.append_nil] at hread
  simp [JsonFormat.Keeps, tagged, hread]

end Json

end Thingd
