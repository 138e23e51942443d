import Thingd.Engine.SearchRecords

namespace Thingd.Engine

open SortedMap SearchRebuildProgress SearchIndex

open ObjectState (objectKey)

variable {codec : StorageCodec} {names : Names} {records : Records} {index : SearchIndex}
  {progress : SearchRebuildProgress}

def SearchRebuildProgress.Scanned (codec : StorageCodec) (progress : SearchRebuildProgress) : Slot → Prop
  | .object key => progress.phase ≠ .objects ∨ Passed progress.objectCursor (objectKey codec key)
  | .event stream sequence =>
    progress.phase = .replay ∨ Passed progress.eventCursor (codec.makeEventKey stream sequence)

def Change.Parses : Change → Prop
  | .putObject object => 47 ∉ object.key.collection
  | _ => True

/-- How the index of a rebuild stands to the records: a record that has not been written since the rebuild began has its
document once the scan has passed it, and the last change of every other record is remembered. -/
structure Tracks (codec : StorageCodec) (names : Names) (records : Records) (progress : SearchRebuildProgress)
    (index : SearchIndex) : Prop where
  placed : records.Placed codec names
  only : ∀ doc ∈ index, ∃ slot ∈ names.slots, doc.docKey = slot.docKey
  scanned : ∀ slot ∈ names.slots, progress.replay.get slot.searchKey = none → progress.Scanned codec slot →
    Keyed.under Document.docKey index slot.docKey = (records.document codec slot).toList
  ahead : ∀ slot ∈ names.slots, progress.replay.get slot.searchKey = none → ¬progress.Scanned codec slot →
    Keyed.under Document.docKey index slot.docKey = []
  recorded : ∀ key mutation, progress.replay.get key = some mutation → ∃ change : Change, change.slot ∈ names.slots ∧
    change.searchKey = key ∧ change.replayMutation = mutation ∧ records.document codec change.slot = change.document ∧
    change.Parses

theorem tracks_start (h : records.Placed codec names) : Tracks codec names records .start [] := by
  have hnone (key : Bytes) : start.replay.get key = none := eq_empty_iff.mp rfl key
  refine ⟨h, nofun, ?_, fun _ _ _ _ => rfl, ?_⟩
  · intro slot _ _ hscanned
    cases slot <;> simp [SearchRebuildProgress.Scanned, start, Passed] at hscanned
  · intro key mutation hget
    rw [hnone key] at hget
    cases hget

theorem Tracks.change (hnames : names.Distinct codec) (h : Tracks codec names records progress index)
    {change : Change} (hslot : change.slot ∈ names.slots) (hparses : change.Parses)
    (hroom : (progress.recordSearchMutation change).replayOverflow = false) :
    Tracks codec names (change.apply codec records) (progress.recordSearchMutation change) index := by
  have hrecord : progress.recordSearchMutation change =
      { progress with replay := progress.replay.insert change.searchKey change.replayMutation } := by
    rw [recordSearchMutation] at hroom ⊢
    split_ifs at hroom ⊢
    rfl
  rw [hrecord]
  have hother {slot : Slot} (hget : (progress.replay.insert change.searchKey change.replayMutation).get slot.searchKey =
    none) :
      slot ≠ change.slot ∧ progress.replay.get slot.searchKey = none := by
    rw [get_insert] at hget
    split_ifs at hget with hkey
    refine ⟨?_, hget⟩
    rintro rfl
    exact hkey change.searchKey_slot.symm
  have hsame (slot : Slot) : SearchRebuildProgress.Scanned codec { progress with
      replay := progress.replay.insert change.searchKey change.replayMutation } slot = progress.Scanned codec slot := by
    cases slot <;> rfl
  refine ⟨h.placed.apply hslot, h.only, ?_, ?_, ?_⟩
  · intro slot hmem hget hscanned
    obtain ⟨hne, hold⟩ := hother hget
    rw [Records.document_apply hnames hslot hmem, if_neg hne]
    exact h.scanned slot hmem hold (hsame slot ▸ hscanned)
  · intro slot hmem hget hscanned
    exact h.ahead slot hmem (hother hget).2 (hsame slot ▸ hscanned)
  · intro key mutation hget
    rw [get_insert] at hget
    split_ifs at hget with hkey
    · refine ⟨change, hslot, hkey.symm, Option.some.inj hget, ?_, hparses⟩
      rw [Records.document_apply hnames hslot hslot, if_pos rfl]
    · obtain ⟨old, hold, holdKey, hmutation, hdocument, holdParses⟩ := h.recorded key mutation hget
      refine ⟨old, hold, holdKey, hmutation, ?_, holdParses⟩
      have hne : old.slot ≠ change.slot := by
        intro heq
        apply hkey
        rw [← holdKey, old.searchKey_slot, change.searchKey_slot, heq]
      rw [Records.document_apply hnames hslot hold, if_neg hne]
      exact hdocument

theorem replayOverflow_foldl (changes : List Change) (h : progress.replayOverflow = true) :
    (changes.foldl recordSearchMutation progress).replayOverflow = true := by
  induction changes generalizing progress with
  | nil => exact h
  | cons change changes ih =>
    apply ih
    rw [recordSearchMutation]
    split_ifs
    · rfl
    · exact h

theorem Tracks.changes (hnames : names.Distinct codec) (h : Tracks codec names records progress index)
    {changes : List Change} (hslots : ∀ change ∈ changes, change.slot ∈ names.slots)
    (hparses : ∀ change ∈ changes, change.Parses)
    (hroom : (changes.foldl recordSearchMutation progress).replayOverflow = false) :
    Tracks codec names (changes.foldl (Change.apply codec) records)
      (changes.foldl recordSearchMutation progress) index := by
  induction changes generalizing records progress with
  | nil => exact h
  | cons change changes ih =>
    obtain ⟨hslot, hslots⟩ := List.forall_mem_cons.mp hslots
    obtain ⟨hparse, hparses⟩ := List.forall_mem_cons.mp hparses
    have hfirst : (progress.recordSearchMutation change).replayOverflow = false := by
      by_contra hover
      rw [List.foldl_cons, replayOverflow_foldl changes (by simpa using hover)] at hroom
      cases hroom
    exact ih (h.change hnames hslot hparse hfirst) hslots hparses hroom

theorem Tracks.scan (hnames : names.Distinct codec) (h : Tracks codec names records progress index)
    (next : SearchRebuildProgress) (hreplay : next.replay = progress.replay) {rebuilt : SearchIndex}
    (picked : Slot → Prop)
    (hpicked : ∀ slot ∈ names.slots, picked slot ↔
      records.document codec slot ≠ none ∧ ¬progress.Scanned codec slot ∧ next.Scanned codec slot)
    (hmono : ∀ slot ∈ names.slots, progress.Scanned codec slot → next.Scanned codec slot)
    (hothers : ∀ docKey, (∀ slot ∈ names.slots, picked slot → slot.docKey ≠ docKey) →
      Keyed.under Document.docKey rebuilt docKey = Keyed.under Document.docKey index docKey)
    (hown : ∀ slot ∈ names.slots, picked slot → Keyed.under Document.docKey index slot.docKey = [] →
      Keyed.under Document.docKey rebuilt slot.docKey = (records.document codec slot).toList) :
    Tracks codec names records next rebuilt := by
  have hkept {slot : Slot} (hslot : slot ∈ names.slots) (hnot : ¬picked slot) :
      Keyed.under Document.docKey rebuilt slot.docKey = Keyed.under Document.docKey index slot.docKey := by
    apply hothers
    intro other hother hpick heq
    exact hnot (hnames.documents hother hslot heq ▸ hpick)
  refine ⟨h.placed, ?_, ?_, ?_, ?_⟩
  · intro doc hdoc
    by_cases hkey : ∃ slot ∈ names.slots, picked slot ∧ doc.docKey = slot.docKey
    · obtain ⟨slot, hslot, -, heq⟩ := hkey
      exact ⟨slot, hslot, heq⟩
    · have hunder : doc ∈ Keyed.under Document.docKey rebuilt doc.docKey := (Keyed.mem_under _).mpr ⟨hdoc, rfl⟩
      rw [hothers doc.docKey fun slot hslot hpick heq => hkey ⟨slot, hslot, hpick, heq.symm⟩] at hunder
      exact h.only doc ((Keyed.mem_under _).mp hunder).1
  · intro slot hslot hget hscanned
    rw [hreplay] at hget
    by_cases hbefore : progress.Scanned codec slot
    · rw [hkept hslot fun hpick => ((hpicked slot hslot).mp hpick).2.1 hbefore]
      exact h.scanned slot hslot hget hbefore
    · by_cases hdocument : records.document codec slot = none
      · rw [hkept hslot fun hpick => ((hpicked slot hslot).mp hpick).1 hdocument, hdocument]
        exact h.ahead slot hslot hget hbefore
      · exact hown slot hslot ((hpicked slot hslot).mpr ⟨hdocument, hbefore, hscanned⟩)
          (h.ahead slot hslot hget hbefore)
  · intro slot hslot hget hscanned
    rw [hreplay] at hget
    rw [hkept hslot fun hpick => hscanned ((hpicked slot hslot).mp hpick).2.2]
    exact h.ahead slot hslot hget fun hbefore => hscanned (hmono slot hslot hbefore)
  · rw [hreplay]
    exact h.recorded

section Pages

open Keyed

theorem local_indexObject (items : List (Bytes × MemoryObject)) :
    Local Document.docKey (fun entry : Bytes × MemoryObject => objectDocKey entry.2.key)
      (fun entry _ => [objectDocument entry.2]) (fun index entry => indexObjectForSearch index entry.2) items := by
  constructor
  · intro entry _ docs k hk
    simp [indexObjectForSearch, deleteTerm, under_without, hk, under_singleton, objectDocument, hk.symm]
  · simp [indexObjectForSearch, deleteTerm, under_without, under_singleton, objectDocument]

theorem local_indexEvent (items : List (Bytes × MemoryEvent)) :
    Local Document.docKey (fun entry : Bytes × MemoryEvent => eventDocKey entry.2.stream entry.2.sequence)
      (fun entry docs => docs ++ [eventDocument entry.2]) (fun index entry => indexEventForSearch index entry.2)
      items := by
  constructor
  · intro entry _ docs k hk
    simp [indexEventForSearch, under_singleton, eventDocument, hk.symm]
  · simp [indexEventForSearch, under_singleton, eventDocument]

variable {α : Type} {map : SortedMap Bytes α} {slotOf : α → Slot} {documentOf : α → Document} {place : Slot → Bytes}
  {mine : Slot → Bool} {cursor : Option Bytes} {limit : ℕ} {next : SearchRebuildProgress}

structure Fills (codec : StorageCodec) (names : Names) (records : Records) (map : SortedMap Bytes α) (slotOf : α → Slot)
    (documentOf : α → Document) (place : Slot → Bytes) (mine : Slot → Bool) : Prop where
  placed : ∀ key record, map.get key = some record →
    key = place (slotOf record) ∧ slotOf record ∈ names.slots ∧ mine (slotOf record) = true
  slot : ∀ slot ∈ names.slots, mine slot = true → ∀ record, map.get (place slot) = some record → slotOf record = slot
  document : ∀ slot, mine slot = true → records.document codec slot = (map.get (place slot)).map documentOf

theorem Fills.docKeys_nodup (hnames : names.Distinct codec)
    (h : Fills codec names records map slotOf documentOf place mine) {items : List (Bytes × α)}
    (hitems : items.Sublist map.entries) : (items.map fun entry => (slotOf entry.2).docKey).Nodup := by
  apply List.Nodup.map_on _ (map.entries_nodup.sublist hitems)
  intro entry hentry other hother heq
  obtain ⟨hkey, hslot, -⟩ := h.placed entry.1 entry.2 (get_eq_some_iff.mpr (hitems.subset hentry))
  obtain ⟨hotherKey, hotherSlot, -⟩ := h.placed other.1 other.2 (get_eq_some_iff.mpr (hitems.subset hother))
  apply sorted_unique map.sorted (hitems.subset hentry) (hitems.subset hother)
  rw [hkey, hotherKey, hnames.documents hslot hotherSlot heq]

/-- A page of a keyspace, from the cursor on: its records come in, and the scan passes them. -/
theorem Tracks.scanPage (hnames : names.Distinct codec) (h : Tracks codec names records progress index)
    (hlimit : 0 < limit) (hfills : Fills codec names records map slotOf documentOf place mine)
    {effect : Bytes × α → List Document → List Document} {step : SearchIndex → Bytes × α → SearchIndex}
    (hlocal : ∀ items, Local Document.docKey (fun entry => (slotOf entry.2).docKey) effect step items)
    (heffect : ∀ entry, effect entry [] = [documentOf entry.2]) (hreplay : next.replay = progress.replay)
    (hnow : ∀ slot, mine slot = true → (progress.Scanned codec slot ↔ Passed cursor (place slot)))
    (hnext : ∀ slot, mine slot = true → (next.Scanned codec slot ↔ map.exhausted
      (lastKey (map.pageAfter cursor limit)) = true ∨ Passed (lastKey (map.pageAfter cursor limit)) (place slot)))
    (hothers : ∀ slot, mine slot = false → (next.Scanned codec slot ↔ progress.Scanned codec slot)) :
    Tracks codec names records next ((map.pageAfter cursor limit).foldl step index) := by
  have hpage {entry : Bytes × α} : entry ∈ map.pageAfter cursor limit ↔ _ := mem_pageAfter_iff hlimit
  have hsublist : (map.pageAfter cursor limit).Sublist map.entries := (List.take_sublist _ _).trans List.filter_sublist
  have hplace {entry : Bytes × α} (hentry : entry ∈ map.pageAfter cursor limit) :=
    hfills.placed entry.1 entry.2 (get_eq_some_iff.mpr (hsublist.subset hentry))
  refine h.scan hnames _ hreplay (fun slot => ∃ entry ∈ map.pageAfter cursor limit, slot = slotOf entry.2) ?_ ?_ ?_ ?_
  · intro slot hslot
    cases hmine : mine slot with
    | true =>
      rw [hnow slot hmine, hnext slot hmine, hfills.document slot hmine]
      constructor
      · rintro ⟨entry, hentry, rfl⟩
        obtain ⟨hmem, hbehind, hreached⟩ := hpage.mp hentry
        rw [← (hplace hentry).1, get_eq_some_iff.mpr hmem]
        exact ⟨Option.some_ne_none _, hbehind, hreached⟩
      · rintro ⟨hdocument, hbehind, hreached⟩
        obtain ⟨document, hdocument⟩ := Option.ne_none_iff_exists'.mp hdocument
        obtain ⟨record, hget, -⟩ := Option.map_eq_some_iff.mp hdocument
        refine ⟨(place slot, record), hpage.mpr ⟨get_eq_some_iff.mp hget, hbehind, hreached⟩, ?_⟩
        exact (hfills.slot slot hslot hmine record hget).symm
    | false =>
      rw [hothers slot hmine]
      refine iff_of_false ?_ fun hscan => hscan.2.1 hscan.2.2
      rintro ⟨entry, hentry, rfl⟩
      rw [(hplace hentry).2.2] at hmine
      cases hmine
  · intro slot hslot hscanned
    cases hmine : mine slot with
    | true => exact (hnext slot hmine).mpr (passed_page map limit ((hnow slot hmine).mp hscanned))
    | false => exact (hothers slot hmine).mpr hscanned
  · intro docKey hdocKey
    apply (hlocal _).under_foldl_of_ne
    intro entry hentry
    exact hdocKey (slotOf entry.2) (hplace hentry).2.1 ⟨entry, hentry, rfl⟩
  · rintro slot hslot ⟨entry, hentry, rfl⟩ hnone
    have hget := get_eq_some_iff.mpr (hsublist.subset hentry)
    obtain ⟨hkey, -, hmine⟩ := hplace hentry
    rw [hkey] at hget
    rw [(hlocal _).under_foldl (hfills.docKeys_nodup hnames hsublist) hentry index, hnone, heffect,
      hfills.document _ hmine, hget]
    rfl

def Slot.storageKey (codec : StorageCodec) : Slot → Bytes
  | .object key => objectKey codec key
  | .event stream sequence => codec.makeEventKey stream sequence

def Slot.isObject : Slot → Bool
  | .object _ => true
  | .event _ _ => false

theorem Tracks.scanObjects (hnames : names.Distinct codec) (h : Tracks codec names records progress index)
    (hphase : progress.phase = .objects) (hlimit : 0 < limit) :
    Tracks codec names records { progress with
        objectCursor := lastKey (records.objects.pageAfter progress.objectCursor limit)
        phase := if records.objects.exhausted (lastKey (records.objects.pageAfter progress.objectCursor limit))
          then .events else .objects }
      ((records.objects.pageAfter progress.objectCursor limit).foldl
        (fun index entry => indexObjectForSearch index entry.2) index) := by
  have hfills : Fills codec names records records.objects (fun object => .object object.key) objectDocument
    (Slot.storageKey codec)
      Slot.isObject := by
    constructor
    · intro key object hget
      exact ⟨(h.placed.objects key object hget).1, (h.placed.objects key object hget).2, rfl⟩
    · rintro (key | ⟨stream, sequence⟩) hslot ⟨⟩ object hget
      obtain ⟨hsame, hkey⟩ := h.placed.objects _ object hget
      rw [hnames.objects hslot hkey hsame]
    · rintro (key | ⟨stream, sequence⟩) ⟨⟩
      rfl
  refine h.scanPage hnames hlimit hfills local_indexObject (fun _ => rfl) rfl ?_ ?_ ?_
  · rintro (key | ⟨stream, sequence⟩) ⟨⟩
    simp [SearchRebuildProgress.Scanned, hphase, Slot.storageKey]
  · rintro (key | ⟨stream, sequence⟩) ⟨⟩
    simp [SearchRebuildProgress.Scanned, Slot.storageKey]
  · rintro (key | ⟨stream, sequence⟩) ⟨⟩
    simp only [SearchRebuildProgress.Scanned, hphase]
    split_ifs <;> simp

theorem Tracks.scanEvents (hnames : names.Distinct codec) (h : Tracks codec names records progress index)
    (hphase : progress.phase = .events) (hlimit : 0 < limit) :
    Tracks codec names records { progress with
        eventCursor := lastKey (records.events.pageAfter progress.eventCursor limit)
        phase := if records.events.exhausted (lastKey (records.events.pageAfter progress.eventCursor limit))
          then .replay else .events }
      ((records.events.pageAfter progress.eventCursor limit).foldl
        (fun index entry => indexEventForSearch index entry.2) index) := by
  have hfills : Fills codec names records records.events (fun event => .event event.stream event.sequence) eventDocument
      (Slot.storageKey codec) (fun slot => !slot.isObject) := by
    constructor
    · intro key event hget
      exact ⟨(h.placed.events key event hget).1, (h.placed.events key event hget).2, rfl⟩
    · rintro (key | ⟨stream, sequence⟩) hslot ⟨⟩ event hget
      obtain ⟨hsame, hstream⟩ := h.placed.events _ event hget
      obtain ⟨rfl, rfl⟩ := hnames.events stream hslot event.stream hstream _ _ hsame
      rfl
    · rintro (key | ⟨stream, sequence⟩) ⟨⟩
      rfl
  refine h.scanPage hnames hlimit hfills local_indexEvent (fun _ => rfl) rfl ?_ ?_ ?_
  · rintro (key | ⟨stream, sequence⟩) ⟨⟩
    simp [SearchRebuildProgress.Scanned, hphase, Slot.storageKey]
  · rintro (key | ⟨stream, sequence⟩) ⟨⟩
    simp [SearchRebuildProgress.Scanned, Slot.storageKey]
  · rintro (key | ⟨stream, sequence⟩) ⟨⟩
    simp only [SearchRebuildProgress.Scanned, hphase]
    split_ifs <;> simp

end Pages

end Thingd.Engine
