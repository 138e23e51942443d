import Thingd.Engine.EventRun
import Thingd.Engine.SearchScan

namespace Thingd.Engine

open Keyed ObjectState SortedMap SearchIndex

variable {codec : StorageCodec} {json : JsonReader} {names : Names} {records : Records} {index : SearchIndex}
  {progress : SearchRebuildProgress} {order : List (Bytes × SearchReplayMutation)}

section Replay

theorem not_mem_decimal (n : ℕ) : (47 : Byte) ∉ decimal n := by
  intro h
  have hdigit := (mem_decimal h).1
  revert hdigit
  decide

theorem parse_eventDocKey (stream : Bytes) (sequence : UInt64) :
    (((stripPrefix (bytesOf "event:") (eventDocKey stream sequence)).bind (rsplitOnce 47)).bind fun parts =>
      (parseDecimal (2 ^ 64) parts.2).map fun sequence => (parts.1, UInt64.ofNat sequence)) =
        some (stream, sequence) := by
  rw [eventDocKey, stripPrefix_append, Option.bind_some, rsplitOnce_append (not_mem_decimal _), Option.bind_some,
    parseDecimal_decimal sequence.toNat_lt]
  simp

theorem parse_object (key : ObjectKey) :
    ∃ parsed : ObjectKey,
      (stripPrefix (bytesOf "object:") (bytesOf "object:" ++ objectDocKey key)).bind (splitOnce 47) =
      some (parsed.collection, parsed.id) ∧ objectDocKey parsed = objectDocKey key ∧
        (47 ∉ key.collection → parsed = key) := by
  rw [stripPrefix_append]
  have hsome : (splitOnce 47 (objectDocKey key)).isSome = true := splitOnce_isSome.mpr (by simp [objectDocKey])
  obtain ⟨⟨collection, id⟩, hparts⟩ := Option.isSome_iff_exists.mp hsome
  refine ⟨⟨collection, id⟩, hparts, append_of_splitOnce hparts, fun hslash => ?_⟩
  rw [objectDocKey, splitOnce_append hslash] at hparts
  obtain ⟨rfl, rfl⟩ := Prod.mk.inj (Option.some.inj hparts)
  rfl

theorem replaySearchMutation_change (hnames : names.Distinct codec) (hplaced : records.Placed codec names)
    {change : Change} (hslot : change.slot ∈ names.slots)
    (hdocument : records.document codec change.slot = change.document) (hparses : change.Parses) (index : SearchIndex) :
    replaySearchMutation codec records.objects records.events index (change.searchKey, change.replayMutation) =
      (if change.replayMutation = .upsertEvent then index else index.deleteTerm change.slot.docKey) ++
        change.document.toList := by
  cases change with
  | putObject object =>
    obtain ⟨stored, hget, hstored⟩ := Option.map_eq_some_iff.mp hdocument
    obtain ⟨hplace, hkey⟩ := hplaced.objects _ stored hget
    have hsame : object.key = stored.key := hnames.objects hslot hkey hplace
    obtain ⟨parsed, hparsed, -, heq⟩ := parse_object object.key
    obtain rfl := heq hparses
    have hget : records.objects.get (codec.makeObjectKey object.key.collection object.key.id) = some stored := hget
    simp only [replaySearchMutation, Change.searchKey, Change.replayMutation, hparsed, hget]
    simp [indexObjectForSearch, Change.slot, Slot.docKey, Change.document, hstored, hsame]
  | deleteObject key =>
    obtain ⟨parsed, hparsed, hsame, -⟩ := parse_object key
    simp only [replaySearchMutation, Change.searchKey, Change.replayMutation, hparsed]
    simp [deleteObjectFromSearchIndex, Change.slot, Slot.docKey, Change.document, hsame]
  | storeEvent event =>
    obtain ⟨stored, hget, hstored⟩ := Option.map_eq_some_iff.mp hdocument
    simp only [replaySearchMutation, Change.searchKey, Change.replayMutation, parse_eventDocKey, hget]
    simp [indexEventForSearch, Change.document, hstored]
  | removeEvent stream sequence =>
    simp only [replaySearchMutation, Change.searchKey, Change.replayMutation, parse_eventDocKey]
    simp [deleteEventFromSearchIndex, Change.slot, Slot.docKey, Change.document]

def docKeyOf (searchKey : Bytes) : Bytes := (stripPrefix (bytesOf "object:") searchKey).getD searchKey

theorem docKeyOf_searchKey (slot : Slot) : docKeyOf slot.searchKey = slot.docKey := by
  cases slot with
  | object key => simp [docKeyOf, Slot.searchKey, stripPrefix_append, Slot.docKey]
  | event stream sequence =>
    have hnot : (bytesOf "object:").isPrefixOf (eventDocKey stream sequence) = false := rfl
    simp [docKeyOf, Slot.searchKey, stripPrefix, hnot, Slot.docKey]

section

variable (hnames : names.Distinct codec) (h : Tracks codec names records progress index)
include hnames h

theorem Tracks.local_replay (horder : order.Perm progress.replay.entries) :
    Local Document.docKey (fun entry : Bytes × SearchReplayMutation => docKeyOf entry.1)
      (fun entry docs => (if entry.2 = .upsertEvent then docs else []) ++
        under Document.docKey records.documents (docKeyOf entry.1))
      (replaySearchMutation codec records.objects records.events) order := by
  have hchange {entry : Bytes × SearchReplayMutation} (hentry : entry ∈ order) :=
    h.recorded entry.1 entry.2 (get_eq_some_iff.mpr (horder.subset hentry))
  constructor
  · rintro ⟨key, mutation⟩ hentry docs docKey hdocKey
    obtain ⟨change, hslot, rfl, rfl, hdocument, hparses⟩ := hchange hentry
    rw [change.searchKey_slot, docKeyOf_searchKey] at hdocKey
    have hdoc : under Document.docKey change.document.toList docKey = [] := by
      apply (under_eq_nil_iff _).mpr
      rintro doc hdoc rfl
      exact hdocKey (h.placed.docKey_of_document hnames hslot (hdocument.trans (Option.mem_toList.mp hdoc)))
    rw [replaySearchMutation_change hnames h.placed hslot hdocument hparses, under_append, hdoc, List.append_nil]
    split_ifs
    · rfl
    · rw [deleteTerm, under_without, if_neg hdocKey]
  · rintro ⟨key, mutation⟩ hentry docs
    obtain ⟨change, hslot, rfl, rfl, hdocument, hparses⟩ := hchange hentry
    have hown : under Document.docKey change.document.toList change.slot.docKey =
        under Document.docKey records.documents change.slot.docKey := by
      rw [h.placed.under_documents hnames hslot, hdocument]
      apply List.filter_eq_self.mpr
      intro doc hdoc
      simpa using h.placed.docKey_of_document hnames hslot (hdocument.trans (Option.mem_toList.mp hdoc))
    rw [replaySearchMutation_change hnames h.placed hslot hdocument hparses, under_append, change.searchKey_slot,
      docKeyOf_searchKey, hown]
    split_ifs
    · rfl
    · rw [deleteTerm, under_without, if_pos rfl]

theorem Tracks.under_replayed (hphase : progress.phase = .replay) (horder : order.Perm progress.replay.entries)
    {slot : Slot} (hslot : slot ∈ names.slots) :
    under Document.docKey (order.foldl (replaySearchMutation codec records.objects records.events) index) slot.docKey =
      (if progress.replay.get slot.searchKey =
        some .upsertEvent then under Document.docKey index slot.docKey else []) ++
        (records.document codec slot).toList := by
  have hlocal := h.local_replay hnames horder
  have hchange {entry : Bytes × SearchReplayMutation} (hentry : entry ∈ order) :
      ∃ slot ∈ names.slots, slot.searchKey = entry.1 := by
    obtain ⟨change, hmem, hkey, -⟩ := h.recorded entry.1 entry.2 (get_eq_some_iff.mpr (horder.subset hentry))
    exact ⟨change.slot, hmem, change.searchKey_slot ▸ hkey⟩
  cases hget : progress.replay.get slot.searchKey with
  | none =>
    rw [hlocal.under_foldl_of_ne, if_neg nofun]
    · apply h.scanned slot hslot hget
      cases slot <;> simp [SearchRebuildProgress.Scanned, hphase]
    · intro entry hentry heq
      obtain ⟨other, hother, hkey⟩ := hchange hentry
      rw [← hkey, docKeyOf_searchKey] at heq
      rw [← hnames.documents hother hslot heq, hkey, get_eq_some_iff.mpr (horder.subset hentry)] at hget
      cases hget
  | some mutation =>
    have hnodup : (order.map fun entry => docKeyOf entry.1).Nodup := by
      apply List.Nodup.map_on _ (horder.nodup_iff.mpr progress.replay.entries_nodup)
      intro entry hentry other hother heq
      obtain ⟨entrySlot, hentrySlot, hentryKey⟩ := hchange hentry
      obtain ⟨otherSlot, hotherSlot, hotherKey⟩ := hchange hother
      rw [← hentryKey, ← hotherKey, docKeyOf_searchKey, docKeyOf_searchKey] at heq
      apply sorted_unique progress.replay.sorted (horder.subset hentry) (horder.subset hother)
      rw [← hentryKey, ← hotherKey, hnames.documents hentrySlot hotherSlot heq]
    have hmem : (slot.searchKey, mutation) ∈ order := horder.mem_iff.mpr (get_eq_some_iff.mp hget)
    have hown := hlocal.under_foldl hnodup hmem index
    simpa only [docKeyOf_searchKey, h.placed.under_documents hnames hslot, Option.some.injEq] using hown

theorem Tracks.replayed_iff (hphase : progress.phase = .replay) (horder : order.Perm progress.replay.entries) :
    (order.foldl (replaySearchMutation codec records.objects records.events) index).Perm records.documents ↔
      ∀ stream ∈ names.streams, ∀ sequence, progress.replay.get (eventDocKey stream sequence) = some .upsertEvent →
        ∀ doc ∈ index, doc.docKey ≠ eventDocKey stream sequence := by
  have honly : ∀ doc ∈ order.foldl (replaySearchMutation codec records.objects records.events) index,
      ∃ slot ∈ names.slots, doc.docKey = slot.docKey := by
    intro doc hdoc
    by_cases hkey : ∃ entry ∈ order, docKeyOf entry.1 = doc.docKey
    · obtain ⟨entry, hentry, heq⟩ := hkey
      obtain ⟨change, hslot, hchange, -⟩ :=
        h.recorded entry.1 entry.2 (get_eq_some_iff.mpr (horder.subset hentry))
      exact ⟨change.slot, hslot, by rw [← heq, ← hchange, change.searchKey_slot, docKeyOf_searchKey]⟩
    · have hunder := (mem_under Document.docKey).mpr ⟨hdoc, rfl⟩
      rw [(h.local_replay hnames horder).under_foldl_of_ne fun entry hentry heq => hkey ⟨entry, hentry, heq⟩] at hunder
      exact h.only doc ((mem_under _).mp hunder).1
  rw [h.placed.perm_documents_iff hnames honly]
  constructor
  · intro hexact stream hstream sequence hget
    have hget : progress.replay.get (Slot.event stream sequence).searchKey = some .upsertEvent := hget
    have hsame := hexact (.event stream sequence) hstream
    rw [h.under_replayed hnames hphase horder hstream, if_pos hget, List.append_left_eq_self] at hsame
    exact (under_eq_nil_iff _).mp hsame
  · intro hfresh slot hslot
    rw [h.under_replayed hnames hphase horder hslot, List.append_left_eq_self]
    split_ifs with hget
    · cases slot with
      | object key =>
        obtain ⟨change, hchange, hkey, hmutation, -⟩ := h.recorded _ _ hget
        have hsame : change.slot = .object key := hnames.searchKey_inj hchange hslot (change.searchKey_slot ▸ hkey)
        cases change <;> simp_all [Change.slot, Change.replayMutation]
      | event stream sequence => exact (under_eq_nil_iff _).mpr (hfresh stream hslot sequence hget)
    · rfl

end

end Replay

namespace SearchEngine

variable {s : SearchEngine}

theorem documents_updateIndex (f : SearchIndex → SearchIndex) : (s.updateIndex f).documents = s.documents.map f := by
  cases hindex : s.searchIndex with
  | none => simp [updateIndex, documents, hindex]
  | some place => cases place <;> simp [updateIndex, documents, hindex]

structure SameBut (s t : SearchEngine) : Prop where
  objects : t.objects = s.objects
  log : t.log = s.log
  queue : t.searchQueue = s.searchQueue
  required : t.searchRebuildRequired = s.searchRebuildRequired

theorem sameBut_updateIndex (f : SearchIndex → SearchIndex) : SameBut s (s.updateIndex f) := by
  rw [updateIndex]
  split <;> exact ⟨rfl, rfl, rfl, rfl⟩

theorem sameBut_beginSearchRebuild : SameBut s (s.beginSearchRebuild codec) := by
  simp only [beginSearchRebuild, initSearchIndex]
  split_ifs <;> exact ⟨rfl, rfl, rfl, rfl⟩

theorem documents_promoteSearchGeneration : s.promoteSearchGeneration.documents = s.documents := by
  cases hindex : s.searchIndex with
  | none => simp [promoteSearchGeneration, hindex]
  | some place => cases place <;> simp [promoteSearchGeneration, documents, hindex]

theorem documents_startSearchWorker : s.startSearchWorker.documents = s.documents := by
  rw [startSearchWorker]
  split_ifs <;> rfl

theorem SameBut.records_eq {t : SearchEngine} (h : SameBut s t) : t.records = s.records := by
  rw [SearchEngine.records, SearchEngine.records, h.objects, h.log]

theorem sameBut_promoteSearchGeneration : SameBut s s.promoteSearchGeneration := by
  rw [promoteSearchGeneration]
  split <;> exact ⟨rfl, rfl, rfl, rfl⟩

theorem records_startSearchWorker : s.startSearchWorker.records = s.records := by
  rw [startSearchWorker]
  split_ifs <;> rfl

theorem records_finishRebuild : (s.finishRebuild codec order).records = s.records := by
  have hworker := records_startSearchWorker (s := { (s.updateIndex fun index => order.foldl
    (replaySearchMutation codec s.objects.objects s.log.store.events) index).promoteSearchGeneration with
      searchRebuildRequired := false, searchRebuild := none })
  exact hworker.trans (sameBut_promoteSearchGeneration.records_eq.trans (sameBut_updateIndex _).records_eq)

theorem documents_finishRebuild : (s.finishRebuild codec order).documents =
    s.documents.map fun index =>
      order.foldl (replaySearchMutation codec s.objects.objects s.log.store.events) index := by
  have hworker := documents_startSearchWorker (s := { (s.updateIndex fun index => order.foldl
    (replaySearchMutation codec s.objects.objects s.log.store.events) index).promoteSearchGeneration with
      searchRebuildRequired := false, searchRebuild := none })
  exact hworker.trans (documents_promoteSearchGeneration.trans (documents_updateIndex _))

end SearchEngine

def Call.Slashless : Call → Prop
  | .putObject object _ => 47 ∉ object.key.collection
  | .putObjectsBatch objects => ∀ object ∈ objects, 47 ∉ object.key.collection
  | _ => True

theorem parses_perform {s : SearchEngine} {now : Bytes} {call : Call} (h : call.Slashless) :
    ∀ change ∈ (s.perform codec json now call).2.2, change.Parses := by
  have hmap {α : Type} {l : List α} {f : α → Change} (hf : ∀ a ∈ l, (f a).Parses) :
    ∀ change ∈ l.map f, change.Parses := by
    intro change hchange
    obtain ⟨a, ha, rfl⟩ := List.mem_map.mp hchange
    exact hf a ha
  cases call with
  | putObject object expectedVersion =>
    cases hresult : s.objects.putObjectWithOptions codec json now object expectedVersion with
    | error failure =>
      simp only [SearchEngine.perform, hresult]
      exact List.forall_mem_nil _
    | ok result =>
      have hkey := (putObject_stored (putObjectWithOptions_eq_ok hresult)).1
      have hparses : 47 ∉ result.1.key.collection := hkey ▸ h
      simp only [SearchEngine.perform, hresult]
      exact List.forall_mem_singleton.mpr hparses
  | putObjectsBatch objects =>
    cases hresult : s.objects.putObjectsBatch codec json now objects with
    | error failure =>
      simp only [SearchEngine.perform, hresult]
      exact List.forall_mem_nil _
    | ok result =>
      simp only [SearchEngine.perform, hresult]
      apply hmap
      intro object hobject
      obtain ⟨put, hput, hkey⟩ := (putObjectsBatch_stored hresult).2 object hobject
      have hparses : 47 ∉ object.key.collection := hkey ▸ h put hput
      exact hparses
  | deleteObject key => exact List.forall_mem_singleton.mpr trivial
  | deleteObjectsBatch keys => exact hmap fun _ _ => trivial
  | appendEvent event =>
    simp only [SearchEngine.perform]
    split_ifs
    · exact List.forall_mem_nil _
    · exact List.forall_mem_singleton.mpr trivial
  | appendEventsBatch events => exact hmap fun _ _ => trivial
  | deleteLastEvent stream =>
    cases hresult : s.log.deleteLastEvent codec stream with
    | error failure =>
      simp only [SearchEngine.perform, hresult]
      exact List.forall_mem_nil _
    | ok result =>
      simp only [SearchEngine.perform, hresult]
      exact hmap fun _ _ => trivial
  | deleteStream stream =>
    cases hresult : s.log.deleteStream codec stream with
    | error failure =>
      simp only [SearchEngine.perform, hresult]
      exact List.forall_mem_nil _
    | ok result =>
      simp only [SearchEngine.perform, hresult]
      exact hmap fun _ _ => trivial
  | retain options affectedStreams => exact hmap fun _ _ => trivial

namespace SearchEngine

variable {s : SearchEngine}

structure Rebuilding (codec : StorageCodec) (names : Names) (s : SearchEngine) : Prop where
  required : s.searchRebuildRequired = true
  queue : s.searchQueue = none
  placed : s.records.Placed codec names
  due : s.searchRebuild = none → (s.beginSearchRebuild codec).documents = some []
  going : ∀ progress, s.searchRebuild = some progress → progress.replayOverflow = false →
    ∃ index, s.documents = some index ∧ Tracks codec names s.records progress index

theorem placed_foldl (hplaced : records.Placed codec names) {changes : List Change}
    (hslots : ∀ change ∈ changes, change.slot ∈ names.slots) :
    (changes.foldl (Change.apply codec) records).Placed codec names :=
  List.foldlRecOn changes _ hplaced fun _ hplaced change hchange => hplaced.apply (hslots change hchange)

theorem documents_begin_call (now : Bytes) (call : Call) :
    ((s.call codec json now call).beginSearchRebuild codec).documents = (s.beginSearchRebuild codec).documents := by
  simp only [beginSearchRebuild, SearchEngine.call, initSearchIndex]
  split_ifs <;> rfl

theorem Rebuilding.call (hnames : names.Distinct codec) (h : Rebuilding codec names s) (now : Bytes) {call : Call}
    (huses : call.Uses names) (hslash : s.searchRebuild ≠ none → call.Slashless) :
    Rebuilding codec names (s.call codec json now call) := by
  obtain ⟨hrecords, hslots⟩ := perform_spec json now h.placed huses
  have hnow : (s.call codec json now call).records = _ := hrecords
  have hrebuild : (s.call codec json now call).searchRebuild = s.searchRebuild.map fun progress =>
    (s.perform codec json now call).2.2.foldl SearchRebuildProgress.recordSearchMutation progress := rfl
  refine ⟨h.required, ?_, hnow ▸ placed_foldl h.placed hslots, ?_, ?_⟩
  · have hqueue : (s.call codec json now call).searchQueue = if s.searchMode = .persistentNoRebuild then s.searchQueue
        else s.searchQueue.map fun queue =>
          (s.perform codec json now call).2.2.foldl (SearchQueue.enqueue s.searchQueueMaxKeys) queue := rfl
    rw [hqueue, h.queue]
    split_ifs <;> rfl
  · intro hnone
    rw [documents_begin_call]
    exact h.due (by simpa [hrebuild] using hnone)
  · intro progress hprogress hroom
    rw [hrebuild] at hprogress
    obtain ⟨before, hbefore, rfl⟩ := Option.map_eq_some_iff.mp hprogress
    have hroomBefore : before.replayOverflow = false := by
      by_contra hover
      rw [replayOverflow_foldl _ (by simpa using hover)] at hroom
      cases hroom
    obtain ⟨index, hindex, htracks⟩ := h.going before hbefore hroomBefore
    refine ⟨index, hindex, ?_⟩
    rw [hnow]
    exact htracks.changes hnames hslots (parses_perform (hslash (by simp [hbefore]))) hroom

structure Scanning (codec : StorageCodec) (names : Names) (s : SearchEngine) (progress : SearchRebuildProgress)
    (index : SearchIndex) : Prop where
  required : s.searchRebuildRequired = true
  queue : s.searchQueue = none
  opened : s.documents = some index
  tracks : Tracks codec names s.records progress index

theorem Scanning.rebuilding {t : SearchEngine} {next : SearchRebuildProgress} (f : SearchIndex → SearchIndex)
    (h : Scanning codec names s progress index) (hsame : SameBut s t) (hdocuments : t.documents = s.documents.map f)
    (hprogress : t.searchRebuild = some next) (htracks : Tracks codec names s.records next (f index)) :
    Rebuilding codec names t := by
  have hrecords := hsame.records_eq
  refine ⟨hsame.required.trans h.required, hsame.queue.trans h.queue, hrecords ▸ h.tracks.placed, ?_, ?_⟩
  · intro hnone
    rw [hprogress] at hnone
    cases hnone
  · intro other hother _
    rw [hprogress] at hother
    obtain rfl := Option.some.inj hother
    exact ⟨f index, by rw [hdocuments, h.opened, Option.map_some], hrecords ▸ htracks⟩

theorem Scanning.scanObjects (hnames : names.Distinct codec) (h : Scanning codec names s progress index)
    (hphase : progress.phase = .objects) (n : ℕ) : Rebuilding codec names (s.scanObjects n progress) := by
  have hsame := sameBut_updateIndex (s := s) fun index =>
    (s.objects.objects.pageAfter progress.objectCursor (max n 1)).foldl
    (fun index entry => index.indexObjectForSearch entry.2) index
  exact h.rebuilding _ ⟨hsame.objects, hsame.log, hsame.queue, hsame.required⟩ (documents_updateIndex _) rfl
    (h.tracks.scanObjects hnames hphase (show 0 < max n 1 by omega))

theorem Scanning.scanEvents (hnames : names.Distinct codec) (h : Scanning codec names s progress index)
    (hphase : progress.phase = .events) (n : ℕ) : Rebuilding codec names (s.scanEvents n progress) := by
  have hsame := sameBut_updateIndex (s := s) fun index =>
    (s.log.store.events.pageAfter progress.eventCursor (max n 1)).foldl
    (fun index entry => index.indexEventForSearch entry.2) index
  exact h.rebuilding _ ⟨hsame.objects, hsame.log, hsame.queue, hsame.required⟩ (documents_updateIndex _) rfl
    (h.tracks.scanEvents hnames hphase (show 0 < max n 1 by omega))

theorem Rebuilding.begins (h : Rebuilding codec names s) (hnone : s.searchRebuild = none) :
    Scanning codec names (s.beginSearchRebuild codec) .start [] := by
  have hsame : SameBut s (s.beginSearchRebuild codec) := sameBut_beginSearchRebuild
  exact ⟨hsame.required.trans h.required, hsame.queue.trans h.queue, h.due hnone,
    hsame.records_eq ▸ tracks_start h.placed⟩

theorem Rebuilding.step_cases (h : Rebuilding codec names s) (order : List (Bytes × SearchReplayMutation)) (n : ℕ) :
    (s.searchRebuild = none ∧ s.searchRebuildStep codec order n =
        (false, (s.beginSearchRebuild codec).scanObjects n .start)) ∨
      ∃ progress, s.searchRebuild = some progress ∧ s.searchRebuildStep codec order n =
        if progress.replayOverflow then (false, { s with maintenance := .degraded })
        else s.rebuildPhase codec order n progress := by
  have hnotice : s.noticeStaleQueue = s := by simp [noticeStaleQueue, h.queue]
  cases hrebuild : s.searchRebuild with
  | none =>
    left
    refine ⟨rfl, ?_⟩
    simp only [searchRebuildStep, hnotice, h.required, hrebuild]
    rfl
  | some progress =>
    right
    refine ⟨progress, rfl, ?_⟩
    cases hroom : progress.replayOverflow <;> simp [searchRebuildStep, hnotice, h.required, hrebuild, hroom]

theorem Rebuilding.step (hnames : names.Distinct codec) (h : Rebuilding codec names s) (n : ℕ)
    (hgoing : (s.searchRebuildStep codec order n).1 = false) :
    Rebuilding codec names (s.searchRebuildStep codec order n).2 := by
  rcases h.step_cases order n with ⟨hnone, hstep⟩ | ⟨progress, hprogress, hstep⟩
  · rw [hstep]
    exact (h.begins hnone).scanObjects hnames rfl n
  · rw [hstep] at hgoing ⊢
    cases hroom : progress.replayOverflow with
    | true =>
      rw [if_pos rfl]
      exact ⟨h.required, h.queue, h.placed, fun hnone => absurd (hprogress.symm.trans hnone) nofun, h.going⟩
    | false =>
      obtain ⟨index, hindex, htracks⟩ := h.going progress hprogress hroom
      have hscanning : Scanning codec names s progress index := ⟨h.required, h.queue, hindex, htracks⟩
      rw [hroom] at hgoing
      rw [if_neg nofun]
      cases hphase : progress.phase with
      | objects =>
        rw [rebuildPhase, hphase]
        exact hscanning.scanObjects hnames hphase n
      | events =>
        rw [rebuildPhase, hphase]
        exact hscanning.scanEvents hnames hphase n
      | replay =>
        rw [rebuildPhase, hphase] at hgoing
        cases hgoing

theorem Rebuilding.finishes (h : Rebuilding codec names s) {n : ℕ}
    (hdone : (s.searchRebuildStep codec order n).1 = true) :
    ∃ progress, s.searchRebuild = some progress ∧ progress.phase = .replay ∧ progress.replayOverflow = false ∧
      (s.searchRebuildStep codec order n).2 = s.finishRebuild codec order := by
  rcases h.step_cases order n with ⟨-, hstep⟩ | ⟨progress, hprogress, hstep⟩
  · rw [hstep] at hdone
    cases hdone
  · rw [hstep] at hdone ⊢
    cases hroom : progress.replayOverflow with
    | true =>
      rw [hroom] at hdone
      cases hdone
    | false =>
      rw [hroom] at hdone
      rw [if_neg nofun]
      cases hphase : progress.phase with
      | objects =>
        rw [rebuildPhase, hphase] at hdone
        cases hdone
      | events =>
        rw [rebuildPhase, hphase] at hdone
        cases hdone
      | replay => exact ⟨progress, hprogress, hphase, hroom, by rw [rebuildPhase, hphase]⟩

inductive RebuildRun (codec : StorageCodec) (json : JsonReader) (names : Names) : SearchEngine → Prop
  | start {s : SearchEngine} (hrequired : s.searchRebuildRequired = true) (hqueue : s.searchQueue = none)
    (hnone : s.searchRebuild = none)
      (hplaced : s.records.Placed codec names) (hempty : (s.beginSearchRebuild codec).documents = some []) :
      RebuildRun codec json names s
  | called {s : SearchEngine} (now : Bytes) (call : Call) (h : RebuildRun codec json names s) (huses : call.Uses names)
      (hslash : s.searchRebuild ≠ none → call.Slashless) : RebuildRun codec json names (s.call codec json now call)
  | stepped {s : SearchEngine} (order : List (Bytes × SearchReplayMutation)) (n : ℕ) (h : RebuildRun codec json names s)
      (hgoing : (s.searchRebuildStep codec order n).1 = false) :
      RebuildRun codec json names (s.searchRebuildStep codec order n).2

theorem RebuildRun.rebuilding (hnames : names.Distinct codec) (h : RebuildRun codec json names s) :
    Rebuilding codec names s := by
  induction h with
  | start hrequired hqueue hnone hplaced hempty =>
    refine ⟨hrequired, hqueue, hplaced, fun _ => hempty, ?_⟩
    intro progress hprogress
    rw [hnone] at hprogress
    cases hprogress
  | called now call h huses hslash ih => exact ih.call hnames now huses hslash
  | stepped order n h hgoing ih => exact ih.step hnames n hgoing

def sampleNames : Names := ⟨sampleKeys, {bytesOf "s"}⟩

theorem distinct_sampleNames : sampleNames.Distinct plainCodec := by
  refine ⟨injOn_sampleKeys, fun stream hstream other hother => ?_, ?_⟩
  · exact (streamKeys_rawCodec _ {bytesOf "s"}).events stream hstream other hother
  · have hapart {key : ObjectKey} (hkey : key ∈ sampleKeys) (stream : Bytes) (sequence : UInt64) :
        objectDocKey key ≠ eventDocKey stream sequence := by
      intro heq
      have hcollection : key.collection = [99] := hkey
      rw [objectDocKey, hcollection] at heq
      have hfirst : (99 : Byte) = 101 := (List.cons.inj heq).1
      exact absurd hfirst (by decide)
    rintro (key | ⟨stream, sequence⟩) hslot (other | ⟨otherStream, otherSequence⟩) hother heq
    · have hcollection : key.collection = [99] := hslot
      have hotherCollection : other.collection = [99] := hother
      simp only [Slot.docKey, objectDocKey] at heq
      cases key
      cases other
      simp_all
    · exact absurd heq (hapart hslot otherStream otherSequence)
    · exact absurd heq.symm (hapart hother stream sequence)
    · obtain rfl : stream = bytesOf "s" := hslot
      obtain rfl : otherStream = bytesOf "s" := hother
      have hdecimal : decimal sequence.toNat = decimal otherSequence.toNat := by
        simpa [Slot.docKey, eventDocKey] using heq
      rw [UInt64.toNat_inj.mp (decimal_injective hdecimal)]

def sampleEngine : SearchEngine where
  objects := emptyState
  log := ⟨⟨.empty, .empty⟩, EventStore.noCounters⟩
  inMemory := false
  searchMode := .persistentAsync
  searchQueueMaxKeys := 10000
  searchIndex := none
  searchDirectory := none
  marker := false
  searchQueue := none
  searchRebuildRequired := true
  searchRebuild := none
  maintenance := .rebuildingSearch

theorem rebuildRun_sampleEngine : RebuildRun plainCodec sampleJson sampleNames sampleEngine := by
  apply RebuildRun.start rfl rfl rfl
  · exact ⟨nofun, nofun⟩
  · rfl

/-- When the rebuild ends, the index has one document for each record exactly if no event that was appended during the
rebuild, and is to be replayed, was indexed by the scan as well. -/
theorem rebuild_is_exact_iff (hnames : names.Distinct codec) (h : RebuildRun codec json names s) {n : ℕ}
    (horder : ∀ progress, s.searchRebuild = some progress → order.Perm progress.replay.entries)
    (hdone : (s.searchRebuildStep codec order n).1 = true) :
    ∃ progress index rebuilt, s.searchRebuild = some progress ∧ s.documents = some index ∧
      (s.searchRebuildStep codec order n).2.documents = some rebuilt ∧
      (rebuilt.Perm (s.searchRebuildStep codec order n).2.records.documents ↔
        ∀ stream ∈ names.streams, ∀ sequence, progress.replay.get (eventDocKey stream sequence) = some .upsertEvent →
          ∀ doc ∈ index, doc.docKey ≠ eventDocKey stream sequence) := by
  have hrebuilding := h.rebuilding hnames
  obtain ⟨progress, hprogress, hphase, hroom, hfinish⟩ := hrebuilding.finishes hdone
  obtain ⟨index, hindex, htracks⟩ := hrebuilding.going progress hprogress hroom
  refine ⟨progress, index, order.foldl (replaySearchMutation codec s.objects.objects s.log.store.events) index,
    hprogress, hindex, ?_, ?_⟩
  · rw [hfinish, documents_finishRebuild, hindex]
    rfl
  · rw [hfinish, records_finishRebuild]
    exact htracks.replayed_iff hnames hphase (horder progress hprogress)

theorem rebuild_finds_late_event :
    let scanned := ((sampleEngine.searchRebuildStep plainCodec [] 1).2.searchRebuildStep plainCodec [] 1).2
    let written := scanned.call plainCodec sampleJson [] (.appendEvent (sampleEvent "s" 0 "x" ""))
    let order := [(eventDocKey (bytesOf "s") 1, SearchReplayMutation.upsertEvent)]
    ∃ rebuilt, (written.searchRebuildStep plainCodec order 1).2.documents = some rebuilt ∧
      rebuilt.Perm (written.searchRebuildStep plainCodec order 1).2.records.documents := by
  intro scanned written order
  have hrun : RebuildRun plainCodec sampleJson sampleNames written := by
    refine .called [] _ (.stepped [] 1 (.stepped [] 1 rebuildRun_sampleEngine (by decide +kernel)) (by decide +kernel))
      rfl ?_
    exact fun _ => trivial
  have hentries : written.searchRebuild.map (fun progress => progress.replay.entries) = some order := by decide +kernel
  have horder : ∀ progress, written.searchRebuild = some progress → order.Perm progress.replay.entries := by
    intro progress hprogress
    rw [hprogress] at hentries
    have hsame : progress.replay.entries = order := Option.some.inj hentries
    rw [hsame]
  have hdone : (written.searchRebuildStep plainCodec order 1).1 = true := by decide +kernel
  have hdocuments : written.documents = some [] := by decide +kernel
  obtain ⟨progress, index, rebuilt, hprogress, hindex, hrebuilt, hexact⟩ :=
    rebuild_is_exact_iff distinct_sampleNames hrun horder hdone
  obtain rfl := Option.some.inj (hdocuments.symm.trans hindex)
  exact ⟨rebuilt, hrebuilt, hexact.mpr fun _ _ _ _ => nofun⟩

/-- The event is appended before the scan comes to it: the scan indexes it, and the replay does so again. -/
theorem rebuild_indexes_event_twice :
    let begun := (sampleEngine.searchRebuildStep plainCodec [] 1).2
    let written := begun.call plainCodec sampleJson [] (.appendEvent (sampleEvent "s" 0 "x" ""))
    let scanned := (written.searchRebuildStep plainCodec [] 1).2
    let result := scanned.searchRebuildStep plainCodec [(eventDocKey (bytesOf "s") 1, .upsertEvent)] 1
    result.1 = true ∧
      result.2.documents = some [eventDocument (sampleEvent "s" 1 "x" ""), eventDocument (sampleEvent "s" 1 "x" "")] ∧
      result.2.records.documents = [eventDocument (sampleEvent "s" 1 "x" "")] := by
  decide +kernel

end SearchEngine

end Thingd.Engine
