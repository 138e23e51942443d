import Thingd.Engine.Codec

namespace Thingd.Engine

open Bytes

namespace StorageCodec

variable (codec : StorageCodec)

def makeObjectKey (collection id : Bytes) : Bytes := codec.encodeScopedKey "objects" collection id

def makeObjectPrefix (collection : Bytes) : Bytes := codec.encodeScopedPrefix "objects" collection

def makeVectorKey (collection id : Bytes) : Bytes := codec.encodeScopedKey "vectors" collection id

def makeVectorPrefix (collection : Bytes) : Bytes := codec.encodeScopedPrefix "vectors" collection

def makeEventPrefix (stream : Bytes) : Bytes :=
  match codec.crypto with
  | none => stream ++ [0]
  | some crypto => crypto.hashKey "events.stream" stream

def makeEventKey (stream : Bytes) (sequence : UInt64) : Bytes :=
  match codec.crypto with
  | none => stream ++ 0 :: bigEndian 8 sequence.toNat
  | some crypto => crypto.hashKey "events.stream" stream ++ bigEndian 8 sequence.toNat

def makeLinkFromKey (fromRef linkType linkId : Bytes) : Bytes :=
  codec.encodeScopedKey "links_from" fromRef (linkType ++ 0 :: linkId)

def makeLinkFromPrefix (fromRef : Bytes) : Bytes := codec.encodeScopedPrefix "links_from" fromRef

def makeLinkToKey (toRef linkType linkId : Bytes) : Bytes :=
  codec.encodeScopedKey "links_to" toRef (linkType ++ 0 :: linkId)

def makeLinkToPrefix (toRef : Bytes) : Bytes := codec.encodeScopedPrefix "links_to" toRef

end StorageCodec

inductive Family
  | objects
  | vectors
  | events
  | queueJobs
  | readyJobs
  | leaseJobs
  | linksFrom
  | linksTo
  deriving DecidableEq

inductive LogicalRecord
  | object (collection id : Bytes)
  | vector (collection id : Bytes)
  | event (stream : Bytes) (sequence : UInt64)
  | job (queue id : Bytes)
  | ready (queue : Bytes) (priority : Int32) (createdAt id : Bytes)
  | lease (queue : Bytes) (expiresAtMs : Millis) (id : Bytes)
  | linkFrom (fromRef linkType id : Bytes)
  | linkTo (toRef linkType id : Bytes)
  deriving DecidableEq

namespace LogicalRecord

def family : LogicalRecord → Family
  | .object _ _ => .objects
  | .vector _ _ => .vectors
  | .event _ _ => .events
  | .job _ _ => .queueJobs
  | .ready _ _ _ _ => .readyJobs
  | .lease _ _ _ => .leaseJobs
  | .linkFrom _ _ _ => .linksFrom
  | .linkTo _ _ _ => .linksTo

def scope : LogicalRecord → Bytes
  | .object collection _ | .vector collection _ => collection
  | .event stream _ => stream
  | .job queue _ | .ready queue _ _ _ | .lease queue _ _ => queue
  | .linkFrom reference _ _ | .linkTo reference _ _ => reference

def ident : LogicalRecord → Bytes ⊕ UInt64
  | .event _ sequence => .inr sequence
  | .object _ id | .vector _ id | .job _ id | .ready _ _ _ id | .lease _ _ id | .linkFrom _ _ id | .linkTo _ _ id =>
    .inl id

def label : LogicalRecord → Option Bytes
  | .ready _ _ createdAt _ => some createdAt
  | .linkFrom _ linkType _ | .linkTo _ linkType _ => some linkType
  | _ => none

def key (codec : StorageCodec) : LogicalRecord → Bytes
  | .object collection id => codec.makeObjectKey collection id
  | .vector collection id => codec.makeVectorKey collection id
  | .event stream sequence => codec.makeEventKey stream sequence
  | .job queue id => codec.makeQueueKey queue id
  | .ready queue priority createdAt id => codec.makeReadyKey queue priority createdAt id
  | .lease queue expiresAtMs id => codec.makeLeaseKey queue expiresAtMs id
  | .linkFrom fromRef linkType id => codec.makeLinkFromKey fromRef linkType id
  | .linkTo toRef linkType id => codec.makeLinkToKey toRef linkType id

end LogicalRecord

namespace Family

def scopePrefix (codec : StorageCodec) : Family → Bytes → Bytes
  | .objects => codec.makeObjectPrefix
  | .vectors => codec.makeVectorPrefix
  | .events => codec.makeEventPrefix
  | .queueJobs => codec.makeQueuePrefix
  | .readyJobs => codec.makeReadyPrefix
  | .leaseJobs => codec.makeLeasePrefix
  | .linksFrom => codec.makeLinkFromPrefix
  | .linksTo => codec.makeLinkToPrefix

def joinsLabel (codec : StorageCodec) : Family → Bool
  | .readyJobs => codec.crypto.isNone
  | .linksFrom | .linksTo => true
  | _ => false

def scopeDomain : Family → String
  | .objects => "objects:namespace"
  | .vectors => "vectors:namespace"
  | .events => "events.stream"
  | .queueJobs => "queue_jobs:namespace"
  | .readyJobs => "ready_jobs.queue"
  | .leaseJobs => "lease_jobs.queue"
  | .linksFrom => "links_from:namespace"
  | .linksTo => "links_to:namespace"

end Family

structure Texts where
  names : Set Bytes
  labels : Set Bytes
  ids : Set Bytes

namespace Texts

def Uses (texts : Texts) (record : LogicalRecord) : Prop :=
  record.scope ∈ texts.names ∧ (∀ label, record.label = some label → label ∈ texts.labels) ∧
    ∀ id, record.ident = .inl id → id ∈ texts.ids

structure Inhabited (texts : Texts) : Prop where
  names : texts.names.Nonempty
  labels : texts.labels.Nonempty
  ids : texts.ids.Nonempty

end Texts

/-- The records of one keyspace have keys of their own, and the prefix of a name selects its records. -/
structure KeysIsolated (codec : StorageCodec) (family : Family) (texts : Texts) : Prop where
  distinct : ∀ record other : LogicalRecord, record.family = family → other.family = family → texts.Uses record →
    texts.Uses other → record.key codec = other.key codec → record.scope = other.scope ∧ record.ident = other.ident
  selects : ∀ name ∈ texts.names, ∀ record : LogicalRecord, record.family = family → texts.Uses record →
    (family.scopePrefix codec name <+: record.key codec ↔ record.scope = name)

def Apart (names : Set Bytes) : Prop := ∀ name ∈ names, ∀ other ∈ names, ¬ name ++ [0] <+: other

def Unambiguous (labels ids : Set Bytes) : Prop :=
  ∀ label ∈ labels, ∀ other ∈ labels, ∀ id ∈ ids, ∀ otherId ∈ ids, label ++ 0 :: id = other ++ 0 :: otherId →
    id = otherId

structure StorageCrypto.Separates (crypto : StorageCrypto) (texts : Texts) : Prop where
  width : ∀ domain text, (crypto.hashKey domain text).length = 32
  names : ∀ domain, Set.InjOn (crypto.hashKey domain) texts.names
  ids : ∀ domain, Set.InjOn (crypto.hashKey domain) texts.ids
  joined : ∀ domain, Set.InjOn (crypto.hashKey domain)
    {text | ∃ label ∈ texts.labels, ∃ id ∈ texts.ids, text = label ++ 0 :: id}

variable {crypto : StorageCrypto}

namespace LogicalRecord

def body : LogicalRecord → Bytes
  | .object _ id | .vector _ id | .job _ id => id
  | .event _ sequence => bigEndian 8 sequence.toNat
  | .ready _ priority createdAt id => bigEndian 4 (StorageCodec.priorityRev priority) ++ 0 :: (createdAt ++ 0 :: id)
  | .lease _ expiresAtMs id => bigEndian 8 expiresAtMs.val.toNat ++ 0 :: id
  | .linkFrom _ linkType id | .linkTo _ linkType id => linkType ++ 0 :: id

def sealedBody (crypto : StorageCrypto) : LogicalRecord → Bytes
  | .object _ id => crypto.hashKey "objects:suffix" id
  | .vector _ id => crypto.hashKey "vectors:suffix" id
  | .event _ sequence => bigEndian 8 sequence.toNat
  | .job _ id => crypto.hashKey "queue_jobs:suffix" id
  | .ready _ priority createdAt id =>
    bigEndian 4 (StorageCodec.priorityRev priority) ++ (createdAt ++ crypto.hashKey "ready_jobs.id" id)
  | .lease _ expiresAtMs id => bigEndian 8 expiresAtMs.val.toNat ++ crypto.hashKey "lease_jobs.id" id
  | .linkFrom _ linkType id => crypto.hashKey "links_from:suffix" (linkType ++ 0 :: id)
  | .linkTo _ linkType id => crypto.hashKey "links_to:suffix" (linkType ++ 0 :: id)

variable {codec : StorageCodec}

theorem key_plain (hcrypto : codec.crypto = none) (record : LogicalRecord) :
    record.key codec = record.scope ++ 0 :: record.body := by
  cases record <;>
    simp [key, body, scope, hcrypto, StorageCodec.makeObjectKey, StorageCodec.makeVectorKey, StorageCodec.makeEventKey,
      StorageCodec.makeQueueKey, StorageCodec.makeReadyKey, StorageCodec.makeLeaseKey, StorageCodec.makeLinkFromKey,
      StorageCodec.makeLinkToKey, StorageCodec.encodeScopedKey]

theorem key_sealed (hcrypto : codec.crypto = some crypto) (record : LogicalRecord) :
    record.key codec = crypto.hashKey record.family.scopeDomain record.scope ++ record.sealedBody crypto := by
  cases record <;>
    simp [key, sealedBody, scope, family, Family.scopeDomain, hcrypto, StorageCodec.makeObjectKey,
      StorageCodec.makeVectorKey, StorageCodec.makeEventKey, StorageCodec.makeQueueKey, StorageCodec.makeReadyKey,
      StorageCodec.makeLeaseKey, StorageCodec.makeLinkFromKey, StorageCodec.makeLinkToKey, StorageCodec.encodeScopedKey]

end LogicalRecord

theorem Family.scopePrefix_plain {codec : StorageCodec} (hcrypto : codec.crypto = none) (family : Family)
    (name : Bytes) : family.scopePrefix codec name = name ++ [0] := by
  cases family <;>
    simp [scopePrefix, hcrypto, StorageCodec.makeObjectPrefix, StorageCodec.makeVectorPrefix,
      StorageCodec.makeEventPrefix,
      StorageCodec.makeQueuePrefix, StorageCodec.makeReadyPrefix, StorageCodec.makeLeasePrefix,
      StorageCodec.makeLinkFromPrefix, StorageCodec.makeLinkToPrefix, StorageCodec.encodeScopedPrefix]

theorem Family.scopePrefix_sealed {codec : StorageCodec} (hcrypto : codec.crypto = some crypto) (family : Family)
    (name : Bytes) : family.scopePrefix codec name = crypto.hashKey family.scopeDomain name := by
  cases family <;>
    simp [scopePrefix, scopeDomain, hcrypto, StorageCodec.makeObjectPrefix, StorageCodec.makeVectorPrefix,
      StorageCodec.makeEventPrefix, StorageCodec.makeQueuePrefix, StorageCodec.makeReadyPrefix,
      StorageCodec.makeLeasePrefix, StorageCodec.makeLinkFromPrefix, StorageCodec.makeLinkToPrefix,
      StorageCodec.encodeScopedPrefix]

theorem Apart.eq_of_isPrefix {names : Set Bytes} (h : Apart names) {name other rest : Bytes} (hname : name ∈ names)
    (hother : other ∈ names) (hstarts : name ++ [0] <+: other ++ 0 :: rest) : other = name := by
  have hown : other ++ [0] <+: other ++ 0 :: rest := ⟨rest, by simp⟩
  rcases List.prefix_or_prefix_of_prefix hstarts hown with hle | hle
  · rcases List.prefix_concat_iff.mp hle with heq | hshort
    · exact (List.append_inj_left' heq rfl).symm
    · exact absurd hshort (h name hname other hother)
  · rcases List.prefix_concat_iff.mp hle with heq | hshort
    · exact List.append_inj_left' heq rfl
    · exact absurd hshort (h other hother name hname)

namespace LogicalRecord

variable {texts : Texts} {record other : LogicalRecord}

theorem ident_of_body (hfamily : record.family = other.family) (huses : texts.Uses record) (huses' : texts.Uses other)
    (hlabels : record.label.isSome = true → Unambiguous texts.labels texts.ids) (h : record.body = other.body) :
    record.ident = other.ident := by
  obtain ⟨-, hlabel, hid⟩ := huses
  obtain ⟨-, hlabel', hid'⟩ := huses'
  have hjoined {label label' id id' : Bytes} (hrecord : record.label = some label) (hother : other.label = some label')
      (hi : record.ident = .inl id) (hi' : other.ident = .inl id') (heq : label ++ 0 :: id = label' ++ 0 :: id') :
      id = id' :=
    hlabels (by rw [hrecord]; rfl) label (hlabel label hrecord) label' (hlabel' label' hother) id (hid id hi) id'
      (hid' id' hi') heq
  cases record <;> cases other <;> try cases hfamily
  · exact congrArg Sum.inl h
  · exact congrArg Sum.inl h
  · rename_i sequence _ sequence'
    have hnat := bigEndian_inj sequence.toNat_lt sequence'.toNat_lt h
    exact congrArg Sum.inr (UInt64.toNat_inj.mp hnat)
  · exact congrArg Sum.inl h
  · obtain ⟨-, hrest⟩ := List.append_inj h (by simp)
    exact congrArg Sum.inl (hjoined rfl rfl rfl rfl (List.cons.inj hrest).2)
  · obtain ⟨-, hrest⟩ := List.append_inj h (by simp)
    exact congrArg Sum.inl (List.cons.inj hrest).2
  · exact congrArg Sum.inl (hjoined rfl rfl rfl rfl h)
  · exact congrArg Sum.inl (hjoined rfl rfl rfl rfl h)

theorem ident_of_sealedBody (hcrypto : crypto.Separates texts) (hfamily : record.family = other.family)
    (huses : texts.Uses record) (huses' : texts.Uses other)
    (hlabels : record.family = .linksFrom ∨ record.family = .linksTo → Unambiguous texts.labels texts.ids)
    (h : record.sealedBody crypto = other.sealedBody crypto) : record.ident = other.ident := by
  obtain ⟨-, hlabel, hid⟩ := huses
  obtain ⟨-, hlabel', hid'⟩ := huses'
  have hhash {id id' : Bytes} {domain : String} (hi : record.ident = .inl id) (hi' : other.ident = .inl id')
      (heq : crypto.hashKey domain id = crypto.hashKey domain id') : id = id' :=
    hcrypto.ids domain (hid id hi) (hid' id' hi') heq
  have hjoined {label label' id id' : Bytes} {domain : String}
      (hlink : record.family = .linksFrom ∨ record.family = .linksTo) (hrecord : record.label = some label)
      (hother : other.label = some label') (hi : record.ident = .inl id) (hi' : other.ident = .inl id')
      (heq : crypto.hashKey domain (label ++ 0 :: id) = crypto.hashKey domain (label' ++ 0 :: id')) : id = id' := by
    have hin := hlabel label hrecord
    have hin' := hlabel' label' hother
    exact hlabels hlink label hin label' hin' id (hid id hi) id' (hid' id' hi')
      (hcrypto.joined domain ⟨label, hin, id, hid id hi, rfl⟩ ⟨label', hin', id', hid' id' hi', rfl⟩ heq)
  cases record <;> cases other <;> try cases hfamily
  · exact congrArg Sum.inl (hhash rfl rfl h)
  · exact congrArg Sum.inl (hhash rfl rfl h)
  · rename_i sequence _ sequence'
    have hnat := bigEndian_inj sequence.toNat_lt sequence'.toNat_lt h
    exact congrArg Sum.inr (UInt64.toNat_inj.mp hnat)
  · exact congrArg Sum.inl (hhash rfl rfl h)
  · obtain ⟨-, hrest⟩ := List.append_inj h (by simp)
    obtain ⟨-, hids⟩ := List.append_inj' hrest (by rw [hcrypto.width, hcrypto.width])
    exact congrArg Sum.inl (hhash rfl rfl hids)
  · obtain ⟨-, hids⟩ := List.append_inj h (by simp)
    exact congrArg Sum.inl (hhash rfl rfl hids)
  · exact congrArg Sum.inl (hjoined (Or.inl rfl) rfl rfl rfl rfl h)
  · exact congrArg Sum.inl (hjoined (Or.inr rfl) rfl rfl rfl rfl h)

theorem scope_of_isPrefix (hcrypto : crypto.Separates texts) (huses : texts.Uses record) {name rest : Bytes}
    (hname : name ∈ texts.names)
    (h : crypto.hashKey record.family.scopeDomain name <+: crypto.hashKey record.family.scopeDomain record.scope ++
      rest) :
    record.scope = name := by
  have hwidth : (crypto.hashKey record.family.scopeDomain name).length =
      (crypto.hashKey record.family.scopeDomain record.scope).length := by rw [hcrypto.width, hcrypto.width]
  obtain ⟨tail, htail⟩ := h
  exact hcrypto.names _ huses.1 hname (List.append_inj htail hwidth).1.symm

theorem joinsLabel_of_label {codec : StorageCodec} (hcrypto : codec.crypto = none) (h : record.label.isSome = true) :
    record.family.joinsLabel codec = true := by
  cases record <;> simp_all [label, family, Family.joinsLabel]

theorem scopePrefix_isPrefix (codec : StorageCodec) (record : LogicalRecord) :
    record.family.scopePrefix codec record.scope <+: record.key codec := by
  cases hcrypto : codec.crypto with
  | none =>
    rw [key_plain hcrypto, Family.scopePrefix_plain hcrypto]
    exact ⟨record.body, by simp⟩
  | some crypto =>
    rw [key_sealed hcrypto, Family.scopePrefix_sealed hcrypto]
    exact List.prefix_append _ _

end LogicalRecord

def Family.record (scope label id : Bytes) : Family → LogicalRecord
  | .objects => .object scope id
  | .vectors => .vector scope id
  | .events => .event scope 0
  | .queueJobs => .job scope id
  | .readyJobs => .ready scope 0 label id
  | .leaseJobs => .lease scope Millis.zero id
  | .linksFrom => .linkFrom scope label id
  | .linksTo => .linkTo scope label id

theorem Texts.uses_record {texts : Texts} {scope label id : Bytes} (hscope : scope ∈ texts.names)
    (hlabel : label ∈ texts.labels) (hid : id ∈ texts.ids) (family : Family) :
    (family.record scope label id).family = family ∧ (family.record scope label id).scope = scope ∧
      texts.Uses (family.record scope label id) := by
  cases family <;> refine ⟨rfl, rfl, hscope, ?_, ?_⟩ <;> intro text htext <;> cases htext <;> assumption

theorem Family.record_key_eq {codec : StorageCodec} {family : Family} (hjoins : family.joinsLabel codec = true)
    (scope : Bytes) {label other id otherId : Bytes} (h : label ++ 0 :: id = other ++ 0 :: otherId) :
    (family.record scope label id).key codec = (family.record scope other otherId).key codec ∧
      (family.record scope label id).ident = .inl id ∧ (family.record scope other otherId).ident = .inl otherId := by
  cases family <;> try cases hjoins
  · have hcrypto : codec.crypto = none := Option.isNone_iff_eq_none.mp hjoins
    refine ⟨?_, rfl, rfl⟩
    simp only [record, LogicalRecord.key_plain hcrypto, LogicalRecord.scope, LogicalRecord.body, h]
  · refine ⟨?_, rfl, rfl⟩
    simp only [record, LogicalRecord.key, StorageCodec.makeLinkFromKey, h]
  · refine ⟨?_, rfl, rfl⟩
    simp only [record, LogicalRecord.key, StorageCodec.makeLinkToKey, h]

section Isolation

variable {codec : StorageCodec} {family : Family} {texts : Texts}

theorem KeysIsolated.apart (h : KeysIsolated codec family texts) (htexts : texts.Inhabited)
    (hcrypto : codec.crypto = none) : Apart texts.names := by
  intro name hname other hother hstarts
  obtain ⟨label, hlabel⟩ := htexts.labels
  obtain ⟨id, hid⟩ := htexts.ids
  obtain ⟨hfamily, hscope, huses⟩ := Texts.uses_record hother hlabel hid family
  have hkey : family.scopePrefix codec name <+: (family.record other label id).key codec := by
    rw [LogicalRecord.key_plain hcrypto, Family.scopePrefix_plain hcrypto, hscope]
    exact hstarts.trans (List.prefix_append _ _)
  have heq := hscope.symm.trans ((h.selects name hname _ hfamily huses).mp hkey)
  have hlength := (heq ▸ hstarts).length_le
  simp at hlength

theorem KeysIsolated.unambiguous (h : KeysIsolated codec family texts) (htexts : texts.Inhabited)
    (hjoins : family.joinsLabel codec = true) : Unambiguous texts.labels texts.ids := by
  intro label hlabel other hother id hid otherId hotherId hjoined
  obtain ⟨name, hname⟩ := htexts.names
  obtain ⟨hfamily, -, huses⟩ := Texts.uses_record hname hlabel hid family
  obtain ⟨hfamily', -, huses'⟩ := Texts.uses_record hname hother hotherId family
  obtain ⟨hkey, hident, hident'⟩ := Family.record_key_eq hjoins name hjoined
  have heq := (h.distinct _ _ hfamily hfamily' huses huses' hkey).2
  rw [hident, hident'] at heq
  exact Sum.inl.inj heq

theorem keysIsolated_plain (hcrypto : codec.crypto = none) (hnames : Apart texts.names)
    (hlabels : family.joinsLabel codec = true → Unambiguous texts.labels texts.ids) :
    KeysIsolated codec family texts where
  distinct := by
    rintro record other rfl hfamily huses huses' hkey
    rw [LogicalRecord.key_plain hcrypto, LogicalRecord.key_plain hcrypto] at hkey
    have hscope : other.scope = record.scope := by
      apply hnames.eq_of_isPrefix huses.1 huses'.1
      rw [← hkey]
      exact ⟨record.body, by simp⟩
    rw [hscope] at hkey
    refine ⟨hscope.symm, LogicalRecord.ident_of_body hfamily.symm huses huses' ?_ ?_⟩
    · exact fun hlabel => hlabels (LogicalRecord.joinsLabel_of_label hcrypto hlabel)
    · exact (List.cons.inj (List.append_cancel_left hkey)).2
  selects := by
    rintro name hname record rfl huses
    constructor
    · intro hstarts
      rw [LogicalRecord.key_plain hcrypto, Family.scopePrefix_plain hcrypto] at hstarts
      exact hnames.eq_of_isPrefix hname huses.1 hstarts
    · rintro rfl
      exact record.scopePrefix_isPrefix codec

theorem keysIsolated_sealed (hcrypto : codec.crypto = some crypto) (hhash : crypto.Separates texts)
    (hlabels : family.joinsLabel codec = true → Unambiguous texts.labels texts.ids) :
    KeysIsolated codec family texts where
  distinct := by
    rintro record other rfl hfamily huses huses' hkey
    rw [LogicalRecord.key_sealed hcrypto, LogicalRecord.key_sealed hcrypto, hfamily] at hkey
    obtain ⟨hscope, hbody⟩ := List.append_inj hkey (by rw [hhash.width, hhash.width])
    refine ⟨hhash.names _ huses.1 huses'.1 hscope, ?_⟩
    apply LogicalRecord.ident_of_sealedBody hhash hfamily.symm huses huses' _ hbody
    intro hlink
    apply hlabels
    rcases hlink with hlink | hlink <;> rw [hlink] <;> rfl
  selects := by
    rintro name hname record rfl huses
    constructor
    · intro hstarts
      rw [LogicalRecord.key_sealed hcrypto, Family.scopePrefix_sealed hcrypto] at hstarts
      exact LogicalRecord.scope_of_isPrefix hhash huses hname hstarts
    · rintro rfl
      exact record.scopePrefix_isPrefix codec

/-- The keys of a keyspace keep the records of the names in use apart exactly when no name in use extends another by a
NUL, or is hashed, and the two texts that are joined in a key can be told apart. -/
theorem keys_isolated_iff (htexts : texts.Inhabited)
    (hhash : ∀ crypto, codec.crypto = some crypto → crypto.Separates texts) :
    KeysIsolated codec family texts ↔ (codec.crypto = none → Apart texts.names) ∧
      (family.joinsLabel codec = true → Unambiguous texts.labels texts.ids) := by
  constructor
  · exact fun h => ⟨h.apart htexts, h.unambiguous htexts⟩
  · rintro ⟨hnames, hlabels⟩
    cases hcrypto : codec.crypto with
    | none => exact keysIsolated_plain hcrypto (hnames hcrypto) hlabels
    | some crypto => exact keysIsolated_sealed hcrypto (hhash crypto hcrypto) hlabels

def sampleTexts : Texts := ⟨{[97], [98]}, {[99]}, {[100]}⟩

def paddingCrypto : StorageCrypto :=
  ⟨fun _ text => text.take 32 ++ List.replicate (32 - text.length) 0, fun _ value => value, fun _ value => .ok value⟩

def paddingCodec : StorageCodec := ⟨some paddingCrypto, .ok⟩

theorem keys_isolated_sample : KeysIsolated paddingCodec .linksFrom sampleTexts := by
  have htexts : sampleTexts.Inhabited := ⟨⟨[97], by simp [sampleTexts]⟩, ⟨[99], rfl⟩, ⟨[100], rfl⟩⟩
  have hseparates : paddingCrypto.Separates sampleTexts := by
    refine ⟨?_, ?_, ?_, ?_⟩
    · simp only [paddingCrypto, List.length_append, List.length_take, List.length_replicate]
      omega
    · simp [sampleTexts, paddingCrypto]
    · simp [sampleTexts]
    · simp [sampleTexts]
  apply (keys_isolated_iff htexts ?_).mpr
  · refine ⟨nofun, fun _ => ?_⟩
    simp [Unambiguous, sampleTexts]
  · intro crypto hcrypto
    cases hcrypto
    exact hseparates

-- the collection `a` with the id `b\0c`, and the collection `a\0b` with the id `c`
theorem object_keys_collide :
    (LogicalRecord.object [97] [98, 0, 99]).key (rawCodec .ok) =
      (LogicalRecord.object [97, 0, 98] [99]).key (rawCodec .ok) ∧
      Family.objects.scopePrefix (rawCodec .ok) [97] <+:
        (LogicalRecord.object [97, 0, 98] [99]).key (rawCodec .ok) := by
  decide

end Isolation

end Thingd.Engine
