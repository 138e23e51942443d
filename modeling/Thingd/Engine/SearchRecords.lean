import Thingd.Engine.EventBatch
import Thingd.Engine.Search
import Thingd.Engine.UniqueRun

namespace Thingd.Engine

open SortedMap EventLog

open ObjectState (objectKey)

structure Records where
  objects : SortedMap Bytes MemoryObject
  events : SortedMap Bytes MemoryEvent

def SearchEngine.records (s : SearchEngine) : Records := ⟨s.objects.objects, s.log.store.events⟩

inductive Slot
  | object (key : ObjectKey)
  | event (stream : Bytes) (sequence : UInt64)
  deriving DecidableEq

namespace Slot

def docKey : Slot → Bytes
  | object key => objectDocKey key
  | event stream sequence => eventDocKey stream sequence

def searchKey : Slot → Bytes
  | object key => bytesOf "object:" ++ objectDocKey key
  | event stream sequence => eventDocKey stream sequence

theorem searchKey_eq_iff {slot other : Slot} : slot.searchKey = other.searchKey ↔
    slot.docKey = other.docKey ∧ ((∃ key, slot = object key) ↔ ∃ key, other = object key) := by
  have happart (key : ObjectKey) (stream : Bytes) (sequence : UInt64) :
      bytesOf "object:" ++ objectDocKey key ≠ eventDocKey stream sequence := by
    intro h
    have hfirst : (111 : Byte) = 101 := congrArg (fun bytes => bytes.headD 0) h
    exact absurd hfirst (by decide)
  cases slot <;> cases other <;> simp [searchKey, docKey, happart, (happart _ _ _).symm]

end Slot

namespace Records

def document (codec : StorageCodec) (records : Records) : Slot → Option Document
  | .object key => (records.objects.get (objectKey codec key)).map objectDocument
  | .event stream sequence => (records.events.get (codec.makeEventKey stream sequence)).map eventDocument

def documents (records : Records) : SearchIndex :=
  records.objects.entries.map (fun entry => objectDocument entry.2) ++
    records.events.entries.map fun entry => eventDocument entry.2

end Records

namespace Change

def slot : Change → Slot
  | putObject object => .object object.key
  | deleteObject key => .object key
  | storeEvent event => .event event.stream event.sequence
  | removeEvent stream sequence => .event stream sequence

def document : Change → Option Document
  | putObject object => some (objectDocument object)
  | deleteObject _ => none
  | storeEvent event => some (eventDocument event)
  | removeEvent _ _ => none

def apply (codec : StorageCodec) (records : Records) : Change → Records
  | putObject object => { records with objects := records.objects.insert (objectKey codec object.key) object }
  | deleteObject key => { records with objects := records.objects.erase (objectKey codec key) }
  | storeEvent event =>
    { records with events := records.events.insert (codec.makeEventKey event.stream event.sequence) event }
  | removeEvent stream sequence => { records with events := records.events.erase (codec.makeEventKey stream sequence) }

theorem searchKey_slot (change : Change) : change.searchKey = change.slot.searchKey := by
  cases change <;> rfl

end Change

structure Names where
  keys : Set ObjectKey
  streams : Set Bytes

def Names.slots (names : Names) : Set Slot := {slot | match slot with
  | .object key => key ∈ names.keys
  | .event stream _ => stream ∈ names.streams}

structure Names.Distinct (codec : StorageCodec) (names : Names) : Prop where
  objects : Set.InjOn (objectKey codec) names.keys
  events : ∀ stream ∈ names.streams, ∀ other ∈ names.streams, ∀ sequence otherSequence,
    codec.makeEventKey stream sequence = codec.makeEventKey other otherSequence →
      stream = other ∧ sequence = otherSequence
  documents : Set.InjOn Slot.docKey names.slots

variable {codec : StorageCodec} {names : Names} {records : Records}

structure Records.Placed (codec : StorageCodec) (names : Names) (records : Records) : Prop where
  objects : ∀ place object, records.objects.get place = some object →
    place = objectKey codec object.key ∧ object.key ∈ names.keys
  events : ∀ place event, records.events.get place = some event →
    place = codec.makeEventKey event.stream event.sequence ∧ event.stream ∈ names.streams

theorem Names.Distinct.searchKey_inj (h : names.Distinct codec) : Set.InjOn Slot.searchKey names.slots := by
  intro slot hslot other hother heq
  exact h.documents hslot hother (Slot.searchKey_eq_iff.mp heq).1

namespace Records

variable {change : Change} {doc : Document}

theorem Placed.apply (h : records.Placed codec names) (hslot : change.slot ∈ names.slots) :
    (change.apply codec records).Placed codec names := by
  cases change with
  | putObject object =>
    refine ⟨fun place other hget => ?_, h.events⟩
    simp only [Change.apply, get_insert] at hget
    split_ifs at hget with hplace
    · obtain rfl := Option.some.inj hget
      exact ⟨hplace, hslot⟩
    · exact h.objects place other hget
  | deleteObject key =>
    refine ⟨fun place other hget => ?_, h.events⟩
    simp only [Change.apply, get_erase] at hget
    split_ifs at hget
    exact h.objects place other hget
  | storeEvent event =>
    refine ⟨h.objects, fun place other hget => ?_⟩
    simp only [Change.apply, get_insert] at hget
    split_ifs at hget with hplace
    · obtain rfl := Option.some.inj hget
      exact ⟨hplace, hslot⟩
    · exact h.events place other hget
  | removeEvent stream sequence =>
    refine ⟨h.objects, fun place other hget => ?_⟩
    simp only [Change.apply, get_erase] at hget
    split_ifs at hget
    exact h.events place other hget

theorem document_apply (hnames : names.Distinct codec) (hchange : change.slot ∈ names.slots) {slot : Slot}
    (hslot : slot ∈ names.slots) :
    (change.apply codec records).document codec slot =
      if slot = change.slot then change.document else records.document codec slot := by
  cases slot with
  | object key =>
    have hplace {other : ObjectKey} (hother : other ∈ names.keys) :
      objectKey codec key = objectKey codec other ↔ key = other :=
      ⟨fun heq => hnames.objects hslot hother heq, fun heq => heq ▸ rfl⟩
    cases change with
    | putObject object =>
      simp only [Change.apply, document, get_insert, hplace hchange, Change.slot, Slot.object.injEq]
      split_ifs <;> rfl
    | deleteObject other =>
      simp only [Change.apply, document, get_erase, hplace hchange, Change.slot, Slot.object.injEq]
      split_ifs <;> rfl
    | storeEvent event => simp [Change.apply, document, Change.slot]
    | removeEvent stream sequence => simp [Change.apply, document, Change.slot]
  | event stream sequence =>
    have hplace {other : Bytes} {otherSequence : UInt64} (hother : other ∈ names.streams) :
        codec.makeEventKey stream sequence = codec.makeEventKey other otherSequence ↔
          stream = other ∧ sequence = otherSequence :=
      ⟨fun heq => hnames.events stream hslot other hother _ _ heq, fun heq => heq.1 ▸ heq.2 ▸ rfl⟩
    cases change with
    | putObject object => simp [Change.apply, document, Change.slot]
    | deleteObject key => simp [Change.apply, document, Change.slot]
    | storeEvent event =>
      simp only [Change.apply, document, get_insert, hplace hchange, Change.slot, Slot.event.injEq]
      split_ifs <;> rfl
    | removeEvent other otherSequence =>
      simp only [Change.apply, document, get_erase, hplace hchange, Change.slot, Slot.event.injEq]
      split_ifs <;> rfl

theorem Placed.docKey_of_document (hnames : names.Distinct codec) (h : records.Placed codec names) {slot : Slot}
    (hslot : slot ∈ names.slots) (hdoc : records.document codec slot = some doc) : doc.docKey = slot.docKey := by
  cases slot with
  | object key =>
    obtain ⟨object, hget, rfl⟩ := Option.map_eq_some_iff.mp hdoc
    obtain ⟨hplace, hkey⟩ := h.objects _ object hget
    rw [hnames.objects hslot hkey hplace]
    rfl
  | event stream sequence =>
    obtain ⟨event, hget, rfl⟩ := Option.map_eq_some_iff.mp hdoc
    obtain ⟨hplace, hstream⟩ := h.events _ event hget
    obtain ⟨rfl, rfl⟩ := hnames.events stream hslot event.stream hstream _ _ hplace
    rfl

theorem Placed.mem_documents (h : records.Placed codec names) :
    doc ∈ records.documents ↔ ∃ slot ∈ names.slots, records.document codec slot = some doc := by
  simp only [documents, List.mem_append, List.mem_map]
  constructor
  · rintro (⟨⟨place, object⟩, hentry, rfl⟩ | ⟨⟨place, event⟩, hentry, rfl⟩)
    · have hget := get_eq_some_iff.mpr hentry
      obtain ⟨rfl, hkey⟩ := h.objects place object hget
      exact ⟨.object object.key, hkey, by simp [document, hget]⟩
    · have hget := get_eq_some_iff.mpr hentry
      obtain ⟨rfl, hstream⟩ := h.events place event hget
      exact ⟨.event event.stream event.sequence, hstream, by simp [document, hget]⟩
  · rintro ⟨slot, hslot, hdoc⟩
    cases slot with
    | object key =>
      obtain ⟨object, hget, rfl⟩ := Option.map_eq_some_iff.mp hdoc
      exact Or.inl ⟨_, get_eq_some_iff.mp hget, rfl⟩
    | event stream sequence =>
      obtain ⟨event, hget, rfl⟩ := Option.map_eq_some_iff.mp hdoc
      exact Or.inr ⟨_, get_eq_some_iff.mp hget, rfl⟩

theorem Placed.documents_nodup (h : records.Placed codec names) : records.documents.Nodup := by
  apply List.Nodup.append
  · apply List.Nodup.map_on _ records.objects.entries_nodup
    intro entry hentry other hother heq
    have hkey : entry.2.key = other.2.key := by
      cases hentryKey : entry.2.key
      cases hotherKey : other.2.key
      simp_all [objectDocument]
    have hplace := (h.objects entry.1 entry.2 (get_eq_some_iff.mpr hentry)).1
    have hotherPlace := (h.objects other.1 other.2 (get_eq_some_iff.mpr hother)).1
    exact sorted_unique records.objects.sorted hentry hother (by rw [hplace, hotherPlace, hkey])
  · apply List.Nodup.map_on _ records.events.entries_nodup
    intro entry hentry other hother heq
    have hstream : entry.2.stream = other.2.stream := congrArg Document.collection heq
    have hsequence : entry.2.sequence = other.2.sequence :=
      UInt64.toNat_inj.mp (decimal_injective (congrArg Document.id heq))
    have hplace := (h.events entry.1 entry.2 (get_eq_some_iff.mpr hentry)).1
    have hotherPlace := (h.events other.1 other.2 (get_eq_some_iff.mpr hother)).1
    exact sorted_unique records.events.sorted hentry hother (by rw [hplace, hotherPlace, hstream, hsequence])
  · intro doc hobject hevent
    obtain ⟨object, -, rfl⟩ := List.mem_map.mp hobject
    obtain ⟨event, -, heq⟩ := List.mem_map.mp hevent
    exact absurd (congrArg Document.kind heq) (by simp [objectDocument, eventDocument])

theorem Placed.under_documents (hnames : names.Distinct codec) (h : records.Placed codec names) {slot : Slot}
    (hslot : slot ∈ names.slots) :
    Keyed.under Document.docKey records.documents slot.docKey = (records.document codec slot).toList := by
  have hnodup : (Keyed.under Document.docKey records.documents slot.docKey).Nodup := h.documents_nodup.filter _
  have hmem (doc : Document) : doc ∈ Keyed.under Document.docKey records.documents slot.docKey ↔
      doc ∈ (records.document codec slot).toList := by
    rw [Keyed.mem_under, h.mem_documents, Option.mem_toList]
    constructor
    · rintro ⟨⟨other, hother, hdoc⟩, hkey⟩
      rw [← hnames.documents hother hslot ((h.docKey_of_document hnames hother hdoc).symm.trans hkey)]
      exact hdoc
    · exact fun hdoc => ⟨⟨slot, hslot, hdoc⟩, h.docKey_of_document hnames hslot hdoc⟩
  have hperm := (List.perm_ext_iff_of_nodup hnodup (by cases records.document codec slot <;> simp)).mpr hmem
  cases hdoc : records.document codec slot with
  | none => simpa [hdoc] using hperm
  | some doc => simpa [hdoc] using hperm

theorem Placed.perm_documents_iff (hnames : names.Distinct codec) (h : records.Placed codec names)
    {index : SearchIndex} (honly : ∀ doc ∈ index, ∃ slot ∈ names.slots, doc.docKey = slot.docKey) :
    index.Perm records.documents ↔
      ∀ slot ∈ names.slots, Keyed.under Document.docKey index slot.docKey = (records.document codec slot).toList := by
  rw [Keyed.perm_iff_under Document.docKey]
  constructor
  · intro hperm slot hslot
    have hsame := hperm slot.docKey
    rw [h.under_documents hnames hslot] at hsame
    cases hdoc : records.document codec slot with
    | none => simpa [hdoc] using hsame
    | some doc => simpa [hdoc] using hsame
  · intro hsame docKey
    by_cases hkey : ∃ slot ∈ names.slots, docKey = slot.docKey
    · obtain ⟨slot, hslot, rfl⟩ := hkey
      rw [hsame slot hslot, h.under_documents hnames hslot]
    · have hindex : Keyed.under Document.docKey index docKey = [] := by
        apply (Keyed.under_eq_nil_iff _).mpr
        rintro doc hdoc rfl
        exact hkey (honly doc hdoc)
      have hdocuments : Keyed.under Document.docKey records.documents docKey = [] := by
        apply (Keyed.under_eq_nil_iff _).mpr
        rintro doc hdoc rfl
        obtain ⟨slot, hslot, hstored⟩ := h.mem_documents.mp hdoc
        exact hkey ⟨slot, hslot, h.docKey_of_document hnames hslot hstored⟩
      rw [hindex, hdocuments]

end Records

def Call.Uses (names : Names) : Call → Prop
  | .putObject object _ => object.key ∈ names.keys
  | .putObjectsBatch objects => ∀ object ∈ objects, object.key ∈ names.keys
  | .deleteObject key => key ∈ names.keys
  | .deleteObjectsBatch keys => ∀ key ∈ keys, key ∈ names.keys
  | .appendEvent event => event.stream ∈ names.streams
  | .appendEventsBatch events => ∀ event ∈ events, event.stream ∈ names.streams
  | .deleteLastEvent _ => True
  | .deleteStream _ => True
  | .retain _ _ => True

section Perform

open ObjectState

variable {json : JsonReader} {now : Bytes} {s : SearchEngine}

theorem Records.Placed.foldl_removeEvent (h : s.records.Placed codec names) {entries : List (Bytes × MemoryEvent)}
    (hentries : ∀ entry ∈ entries, entry ∈ s.log.store.events.entries) (records : Records) :
    (entries.map fun entry => Change.removeEvent entry.2.stream entry.2.sequence).foldl (Change.apply codec) records =
      { records with events := (entries.map Prod.fst).foldl SortedMap.erase records.events } := by
  induction entries generalizing records with
  | nil => rfl
  | cons entry entries ih =>
    obtain ⟨hentry, hrest⟩ := List.forall_mem_cons.mp hentries
    have hplace := (h.events entry.1 entry.2 (get_eq_some_iff.mpr hentry)).1
    rw [List.map_cons, List.foldl_cons, ih hrest, List.map_cons, List.foldl_cons]
    simp only [Change.apply, ← hplace]

variable {next : ObjectState}

theorem putObject_stored {object stored : MemoryObject}
    (h : s.objects.putObject codec json now object = .ok (stored, next)) :
    stored.key = object.key ∧ next.objects = s.objects.objects.insert (objectKey codec stored.key) stored := by
  rw [putObject_eq_writeObject] at h
  cases hvalid : s.objects.validateUniqueIndexes codec json object with
  | error failure => simp [hvalid, bind, Except.bind] at h
  | ok done =>
    rw [hvalid] at h
    obtain ⟨rfl, rfl⟩ := Prod.mk.inj (Except.ok.inj h)
    exact ⟨rfl, by simp⟩

theorem keys_extendBatch (objects : List MemoryObject) :
    ∀ entry ∈ objects.foldl (extendBatch codec now s.objects) [], ∃ object ∈ objects, entry.1.key = object.key := by
  induction objects using List.reverseRecOn with
  | nil => exact nofun
  | append_singleton objects object ih =>
    intro entry hentry
    rw [List.foldl_append, List.foldl_cons, extendBatch] at hentry
    rcases List.mem_append.mp hentry with hentry | hentry
    · obtain ⟨other, hother, hkey⟩ := ih entry hentry
      exact ⟨other, List.mem_append_left _ hother, hkey⟩
    · rw [List.mem_singleton.mp hentry]
      exact ⟨object, by simp, rfl⟩

theorem putObjectsBatch_stored {objects stored : List MemoryObject}
    (h : s.objects.putObjectsBatch codec json now objects = .ok (stored, next)) :
    next.objects = stored.foldl (fun objects object => objects.insert (objectKey codec object.key) object)
      s.objects.objects ∧
      ∀ object ∈ stored, ∃ put ∈ objects, object.key = put.key := by
  obtain ⟨-, hcommit⟩ := putObjectsBatch_eq_ok.mp h
  obtain ⟨rfl, rfl⟩ := Prod.mk.inj hcommit
  constructor
  · rw [List.foldl_map]
    exact (commitPrepared_data (s := s.objects) _).2.1
  · intro object hobject
    obtain ⟨entry, hentry, rfl⟩ := List.mem_map.mp hobject
    exact keys_extendBatch objects entry hentry

open EventStore

theorem events_foldl_metadata (counters : EventCounters) (streams : List Bytes) (store : EventStore) :
    ((streams.map fun stream => [counters.encodeEventMetadata codec stream]).foldl commit store).events =
      store.events := by
  induction streams generalizing store with
  | nil => rfl
  | cons stream streams ih => exact ih _

theorem events_appendEventsBatch (log : EventLog) (events : List MemoryEvent) :
    (log.after (log.appendEventsBatch codec now events).2).store.events =
      (events.foldl (appendToBatch codec now log.store) ⟨[], [], fun _ => none, log.counters⟩).pending.foldl
        (fun events event => events.insert (codec.makeEventKey event.stream event.sequence) event)
          log.store.events := by
  rw [EventLog.appendEventsBatch]
  generalize events.foldl (appendToBatch codec now log.store) ⟨[], [], fun _ => none, log.counters⟩ = batch
  by_cases hempty : batch.pending = []
  · simp [hempty, EventLog.after]
  · have hsplit (writes more : List EventWrite) :
      log.store.commit (writes ++ more) = (log.store.commit writes).commit more :=
      List.foldl_append
    simp only [List.isEmpty_iff, hempty, if_false, EventLog.after, List.foldl_cons, List.foldl_nil, hsplit,
      commit_insertEvents, commit_writeMetadata]

theorem streams_appendToBatch (store : EventStore) (counters : EventCounters) (events : List MemoryEvent) :
    ∀ event ∈ (events.foldl (appendToBatch codec now store) ⟨[], [], fun _ => none, counters⟩).pending,
      ∃ appended ∈ events, event.stream = appended.stream := by
  induction events using List.reverseRecOn with
  | nil => exact nofun
  | append_singleton events last ih =>
    intro event hevent
    rw [List.foldl_append, List.foldl_cons, appendToBatch] at hevent
    split at hevent
    · obtain ⟨appended, happended, hstream⟩ := ih event hevent
      exact ⟨appended, List.mem_append_left _ happended, hstream⟩
    · rcases List.mem_append.mp hevent with hevent | hevent
      · obtain ⟨appended, happended, hstream⟩ := ih event hevent
        exact ⟨appended, List.mem_append_left _ happended, hstream⟩
      · rw [List.mem_singleton.mp hevent]
        exact ⟨last, by simp, rfl⟩

theorem events_deleteStream {log : EventLog} {stream : Bytes} {result : ℕ × EventEffect}
    (h : log.deleteStream codec stream = .ok result) :
    (log.after result.2).store.events =
      ((log.store.events.entries.filter fun entry => entry.2.stream = stream).map Prod.fst).foldl SortedMap.erase
        log.store.events := by
  rw [EventLog.deleteStream] at h
  split_ifs at h
  obtain rfl := Except.ok.inj h
  have hcommits (entries : List (Bytes × MemoryEvent)) : entries.map (fun entry => [EventWrite.removeEvent entry.1]) =
      (entries.map Prod.fst).map fun key => [EventWrite.removeEvent key] := by
    rw [List.map_map]
    rfl
  simp only [EventLog.after, List.foldl_append, hcommits, foldl_commit_removeEvents]
  rfl

theorem events_retain (log : EventLog) (options : RetentionOptions) (affectedStreams : List Bytes) :
    (log.after (log.retain codec options affectedStreams)).store.events =
      ((log.eligibleEvents options).map Prod.fst).foldl SortedMap.erase log.store.events := by
  have hcommits : (log.eligibleEvents options).map (fun entry => EventWrite.removeEvent entry.1) =
      ((log.eligibleEvents options).map Prod.fst).map EventWrite.removeEvent := by
    rw [List.map_map]
    rfl
  simp only [EventLog.retain, EventLog.after, List.foldl_append, events_foldl_metadata]
  by_cases hnone : log.eligibleEvents options = []
  · simp [hnone]
  · simp only [List.isEmpty_iff, hnone, if_false, List.foldl_cons, List.foldl_nil, hcommits, commit_removeEvents]

theorem SearchEngine.perform_spec (json : JsonReader) (now : Bytes) (h : s.records.Placed codec names) {call : Call}
    (huses : call.Uses names) :
    (⟨(s.perform codec json now call).1.objects, (s.perform codec json now call).2.1.store.events⟩ : Records) =
        (s.perform codec json now call).2.2.foldl (Change.apply codec) s.records ∧
      ∀ change ∈ (s.perform codec json now call).2.2, change.slot ∈ names.slots := by
  have hstream {entry : Bytes × MemoryEvent} (hentry : entry ∈ s.log.store.events.entries) :
      entry.2.stream ∈ names.streams := (h.events entry.1 entry.2 (get_eq_some_iff.mpr hentry)).2
  have hremoved {entries : List (Bytes × MemoryEvent)} (hentries : ∀ entry ∈ entries,
    entry ∈ s.log.store.events.entries) :
      ∀ change ∈ entries.map fun entry => Change.removeEvent entry.2.stream entry.2.sequence,
        change.slot ∈ names.slots := by
    intro change hchange
    obtain ⟨entry, hentry, rfl⟩ := List.mem_map.mp hchange
    exact hstream (hentries entry hentry)
  cases call with
  | putObject object expectedVersion =>
    cases hresult : s.objects.putObjectWithOptions codec json now object expectedVersion with
    | error failure =>
      simp only [perform, hresult]
      exact ⟨rfl, List.forall_mem_nil _⟩
    | ok result =>
      obtain ⟨hkey, hobjects⟩ := putObject_stored (putObjectWithOptions_eq_ok hresult)
      have hmem : result.1.key ∈ names.keys := hkey ▸ huses
      simp only [perform, hresult, hobjects]
      exact ⟨rfl, List.forall_mem_singleton.mpr hmem⟩
  | putObjectsBatch objects =>
    cases hresult : s.objects.putObjectsBatch codec json now objects with
    | error failure =>
      simp only [perform, hresult]
      exact ⟨rfl, List.forall_mem_nil _⟩
    | ok result =>
      obtain ⟨hobjects, hkeys⟩ := putObjectsBatch_stored hresult
      simp only [perform, hresult]
      constructor
      · rw [List.foldl_map, hobjects]
        exact Eq.symm (List.foldl_hom (Records.mk · s.log.store.events) fun _ _ => rfl)
      · intro change hchange
        obtain ⟨object, hobject, rfl⟩ := List.mem_map.mp hchange
        obtain ⟨put, hput, hkey⟩ := hkeys object hobject
        have hmem : object.key ∈ names.keys := hkey ▸ huses put hput
        exact hmem
  | deleteObject key =>
    refine ⟨?_, List.forall_mem_singleton.mpr huses⟩
    simp only [perform, (deleteObject_data s.objects key).1]
    rfl
  | deleteObjectsBatch keys =>
    constructor
    · simp only [perform, (deleteObjectsBatch_data keys).2.1, List.foldl_map]
      exact Eq.symm (List.foldl_hom (Records.mk · s.log.store.events) fun _ _ => rfl)
    · intro change hchange
      obtain ⟨key, hkey, rfl⟩ := List.mem_map.mp hchange
      exact huses key hkey
  | appendEvent event =>
    cases hfound : existingEvent codec s.log.store s.log.counters event with
    | some existing =>
      simp only [perform, appendEvent_of_existing hfound]
      exact ⟨rfl, List.forall_mem_nil _⟩
    | none =>
      simp only [perform, appendEvent_of_new hfound]
      exact ⟨rfl, List.forall_mem_singleton.mpr huses⟩
  | appendEventsBatch events =>
    constructor
    · simp only [perform, List.foldl_map, events_appendEventsBatch]
      exact Eq.symm (List.foldl_hom (Records.mk s.objects.objects) fun _ _ => rfl)
    · intro change hchange
      obtain ⟨event, hevent, rfl⟩ := List.mem_map.mp hchange
      obtain ⟨appended, happended, hsame⟩ := streams_appendToBatch _ _ events event hevent
      have hmem : event.stream ∈ names.streams := hsame ▸ huses appended happended
      exact hmem
  | deleteLastEvent stream =>
    cases hresult : s.log.deleteLastEvent codec stream with
    | error failure =>
      simp only [perform, hresult]
      exact ⟨rfl, List.forall_mem_nil _⟩
    | ok result =>
      simp only [perform, hresult]
      rw [EventLog.deleteLastEvent] at hresult
      split_ifs at hresult
      cases hlast : s.log.lastEvent stream with
      | none =>
        simp only [hlast, Except.ok.injEq] at hresult
        subst hresult
        exact ⟨rfl, List.forall_mem_nil _⟩
      | some entry =>
        have hget := (lastEvent_spec hlast).1
        simp only [hlast, Except.ok.injEq] at hresult
        subst hresult
        have hentry : ∀ other ∈ [entry], other ∈ s.log.store.events.entries :=
          List.forall_mem_singleton.mpr (get_eq_some_iff.mp hget)
        exact ⟨(h.foldl_removeEvent hentry s.records).symm, hremoved hentry⟩
  | deleteStream stream =>
    cases hresult : s.log.deleteStream codec stream with
    | error failure =>
      simp only [perform, hresult]
      exact ⟨rfl, List.forall_mem_nil _⟩
    | ok result =>
      have hentries : ∀ entry ∈ s.log.store.events.entries.filter (fun entry => entry.2.stream = stream),
          entry ∈ s.log.store.events.entries := fun entry hentry => List.mem_of_mem_filter hentry
      have hnamed : (s.log.store.events.entries.filter fun entry => entry.2.stream = stream).map
          (fun entry => Change.removeEvent stream entry.2.sequence) =
          (s.log.store.events.entries.filter fun entry => entry.2.stream = stream).map
            fun entry => Change.removeEvent entry.2.stream entry.2.sequence := by
        apply List.map_congr_left
        intro entry hentry
        rw [of_decide_eq_true (List.mem_filter.mp hentry).2]
      simp only [perform, hresult, hnamed, events_deleteStream hresult]
      exact ⟨(h.foldl_removeEvent hentries s.records).symm, hremoved hentries⟩
  | retain options affectedStreams =>
    have hentries : ∀ entry ∈ s.log.eligibleEvents options, entry ∈ s.log.store.events.entries :=
      fun entry hentry => List.mem_of_mem_filter hentry
    simp only [perform, events_retain]
    exact ⟨(h.foldl_removeEvent hentries s.records).symm, hremoved hentries⟩

end Perform

end Thingd.Engine
