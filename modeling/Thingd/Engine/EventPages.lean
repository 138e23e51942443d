import Thingd.Engine.EventListing

namespace Thingd.Engine

open ListEventsOptions List

def ListEventsOptions.wants (options : ListEventsOptions) (stream : Option Bytes) (event : MemoryEvent) : Bool :=
  (stream.all fun stream => event.stream = stream) &&
    (options.fromSequence.all fun sequence => sequence < event.sequence) &&
    options.since.all fun since => since ≤ event.createdAt

namespace EventStore

variable {codec : StorageCodec} {store : EventStore} {stream : Bytes} {inMemory : Bool}

section Pages

def pagesFrom (codec : StorageCodec) (store : EventStore) (stream : Bytes) (inMemory : Bool) (limit : UInt64) :
    ℕ → Option UInt64 → List (List MemoryEvent)
  | 0, _ => []
  | fuel + 1, fromSequence =>
    let page := store.listEventsOn codec (some stream) ⟨fromSequence, none, some limit⟩ inMemory
    if page.isEmpty then []
    else page :: pagesFrom codec store stream inMemory limit fuel (page.getLast?.map MemoryEvent.sequence)

def behind (store : EventStore) (stream : Bytes) (fromSequence : Option UInt64) : List MemoryEvent :=
  (store.streamEvents stream).filter fun event => fromSequence.all fun sequence => sequence < event.sequence

theorem EventsKeyed.page_eq (h : EventsKeyed codec store) (fromSequence : Option UInt64) (limit : UInt64) :
    store.listEventsOn codec (some stream) ⟨fromSequence, none, some limit⟩ inMemory =
      (store.behind stream fromSequence).take limit.toNat := by
  rw [h.listEventsOn_stream, takeLimit, behind]
  simp

variable {fromSequence : Option UInt64}

theorem EventsKeyed.behind_last (h : EventsKeyed codec store) {page rest : List MemoryEvent} {last : MemoryEvent}
    (hsplit : store.behind stream fromSequence = page ++ [last] ++ rest) :
    store.behind stream (some last.sequence) = rest := by
  have hsorted : (store.behind stream fromSequence).Pairwise fun event other => event.sequence < other.sequence :=
    (h.streamEvents_sorted stream).filter _
  have hnarrow : store.behind stream (some last.sequence) =
      (store.behind stream fromSequence).filter fun event => last.sequence < event.sequence := by
    have hlast : last ∈ store.behind stream fromSequence := by
      rw [hsplit]
      simp
    rw [behind, behind, filter_filter]
    apply filter_congr
    intro event _
    cases fromSequence with
    | none => simp
    | some sequence =>
      have hlt : sequence < last.sequence := by simpa [behind] using (mem_filter.mp hlast).2
      simpa using fun hevent : last.sequence < event.sequence => UInt64.lt_trans hlt hevent
  rw [hsplit] at hsorted
  obtain ⟨hbefore, -, hafter⟩ := pairwise_append.mp hsorted
  obtain ⟨-, -, hpage⟩ := pairwise_append.mp hbefore
  rw [hnarrow, hsplit, filter_append, filter_append]
  have hnone : page.filter (fun event => last.sequence < event.sequence) = [] := by
    apply filter_eq_nil_iff.mpr
    intro event hevent
    have hlt := hpage event hevent last (mem_singleton_self last)
    simpa using UInt64.le_of_lt hlt
  have hself : [last].filter (fun event => last.sequence < event.sequence) = [] := by simp
  have hall : rest.filter (fun event => last.sequence < event.sequence) = rest := by
    apply filter_eq_self.mpr
    intro event hevent
    simpa using hafter last (by simp) event hevent
  rw [hnone, hself, hall]
  rfl

theorem EventsKeyed.flatten_pagesFrom (h : EventsKeyed codec store) {limit : UInt64} (hlimit : limit ≠ 0) {fuel : ℕ}
    (hfuel : (store.behind stream fromSequence).length < fuel) :
    (pagesFrom codec store stream inMemory limit fuel fromSequence).flatten = store.behind stream fromSequence := by
  have hpos : 0 < limit.toNat := by
    rw [Nat.pos_iff_ne_zero]
    intro hzero
    exact hlimit (UInt64.toNat_inj.mp hzero)
  induction fuel generalizing fromSequence with
  | zero => omega
  | succ fuel ih =>
    rw [pagesFrom, h.page_eq]
    generalize hbehind : store.behind stream fromSequence = events at hfuel ⊢
    by_cases hempty : events = []
    · rw [hempty, take_nil]
      rfl
    · have hne : events.take limit.toNat ≠ [] := by
        rw [Ne, take_eq_nil_iff, not_or]
        exact ⟨hpos.ne', hempty⟩
      obtain ⟨page, last, hpage⟩ : ∃ page last, events.take limit.toNat = page ++ [last] := by
        rcases eq_nil_or_concat (events.take limit.toNat) with hnil | ⟨page, last, hconcat⟩
        · exact absurd hnil hne
        · exact ⟨page, last, by rw [hconcat, concat_eq_append]⟩
      have hsplit : events = page ++ [last] ++ events.drop limit.toNat := by rw [← hpage, take_append_drop]
      have hrest := h.behind_last (hbehind.trans hsplit)
      have hshort : (store.behind stream (some last.sequence)).length < fuel := by
        have hlength := congrArg List.length hsplit
        rw [length_append, length_append, length_singleton] at hlength
        rw [hrest]
        omega
      rw [if_neg (by simpa using hne), flatten_cons, hpage, List.getLast?_concat, Option.map_some, ih hshort, hrest,
        ← hsplit]

end Pages

section Spec

def wantedEvents (store : EventStore) (stream : Option Bytes) (options : ListEventsOptions) : List MemoryEvent :=
  options.takeLimit ((store.events.entries.map Prod.snd).filter (options.wants stream))

structure EventContent (codec : StorageCodec) (store : EventStore) : Prop where
  keyed : EventsKeyed codec store
  numbered : ∀ key event, store.events.get key = some event → event.sequence ≠ 0

variable {options : ListEventsOptions}

theorem EventContent.listEventsOn_eq_wanted (h : EventContent codec store) {stream : Option Bytes}
    (hcursor : stream.isSome ∨ options.fromSequence = none ∨ options.fromSequence = some 0) :
    store.listEventsOn codec stream options inMemory = store.wantedEvents stream options := by
  cases stream with
  | some stream =>
    rw [h.keyed.listEventsOn_stream, wantedEvents, streamEvents, filter_filter]
    congr 2
    funext event
    simp only [wants, Option.all_some]
    rw [Bool.and_comm, Bool.and_assoc]
  | none =>
    rw [listEventsOn_all, wantedEvents]
    congr 1
    apply filter_congr
    intro event hevent
    obtain ⟨entry, hentry, rfl⟩ := mem_map.mp hevent
    have hpos : entry.2.sequence ≠ 0 := h.numbered entry.1 entry.2 (SortedMap.get_eq_some_iff.mpr hentry)
    rcases hcursor with hsome | hnone | hzero
    · cases hsome
    · simp [wants, hnone]
    · have hlt : (0 : UInt64) < entry.2.sequence := by
        rw [UInt64.lt_iff_toNat_lt]
        have hne : entry.2.sequence.toNat ≠ 0 := fun heq => hpos (UInt64.toNat_inj.mp heq)
        exact Nat.pos_of_ne_zero hne
      simp [wants, hzero, hlt]

def oneEvent (codec : StorageCodec) (event : MemoryEvent) : EventStore :=
  ⟨SortedMap.empty.insert (codec.makeEventKey event.stream event.sequence) event, .empty⟩

theorem content_oneEvent {event : MemoryEvent} (h : event.sequence ≠ 0) :
    EventContent codec (oneEvent codec event) := by
  have hget : ∀ key other, (oneEvent codec event).events.get key = some other →
      key = codec.makeEventKey event.stream event.sequence ∧ other = event := by
    intro key other hkey
    rw [oneEvent, SortedMap.get_insert] at hkey
    split_ifs at hkey with hsame
    · exact ⟨hsame, (Option.some.inj hkey).symm⟩
    · cases hkey
  constructor
  · intro key other hkey
    obtain ⟨rfl, rfl⟩ := hget key other hkey
    rfl
  · intro key other hkey
    obtain ⟨-, rfl⟩ := hget key other hkey
    exact h

theorem takeLimit_singleton (h : options.limit ≠ some 0) (event : MemoryEvent) :
    options.takeLimit [event] = [event] := by
  cases hlimit : options.limit with
  | none => simp [takeLimit, hlimit]
  | some limit =>
    have hne : limit.toNat ≠ 0 := fun hzero => h (hlimit.trans (congrArg some (UInt64.toNat_inj.mp hzero)))
    rw [takeLimit, hlimit]
    apply take_of_length_le
    rw [length_singleton]
    omega

theorem cursor_of_listEventsOn_eq {stream : Option Bytes} (hlimit : options.limit ≠ some 0)
    (h : ∀ store, EventContent codec store →
      store.listEventsOn codec stream options inMemory = store.wantedEvents stream options) :
    stream.isSome ∨ options.fromSequence = none ∨ options.fromSequence = some 0 := by
  cases stream with
  | some stream => exact Or.inl rfl
  | none =>
    cases hfrom : options.fromSequence with
    | none => exact Or.inr (Or.inl rfl)
    | some sequence =>
      by_cases hzero : sequence = 0
      · exact Or.inr (Or.inr (by rw [hzero]))
      · exfalso
        let event : MemoryEvent := ⟨[], [], [], 1, options.since.getD [], []⟩
        have hone : (1 : UInt64) ≠ 0 := by decide
        have heq := h (oneEvent codec event) (content_oneEvent hone)
        have hsince : (options.since.all fun since => decide (since ≤ event.createdAt)) = true := by
          cases hsome : options.since with
          | none => rfl
          | some since => simp [event, hsome]
        have hnot : decide (sequence < 1) = false := by
          rw [decide_eq_false_iff_not, UInt64.lt_iff_toNat_lt]
          have hne : sequence.toNat ≠ 0 := fun hsame => hzero (UInt64.toNat_inj.mp hsame)
          have hlow : (1 : UInt64).toNat = 1 := rfl
          omega
        have hentries : (oneEvent codec event).events.entries.map Prod.snd = [event] := rfl
        have hall : [event].filter (fun event => options.since.all fun since => since ≤ event.createdAt) = [event] :=
          filter_cons_of_pos hsince
        have hwants : options.wants none event = false := by
          simp only [wants, hfrom, event, Option.all_some, hnot, Option.all_none, Bool.true_and,
            Bool.false_and]
        rw [listEventsOn_all, wantedEvents, hentries, hall, takeLimit_singleton hlimit,
          filter_cons_of_neg (by rw [hwants]; exact Bool.false_ne_true)] at heq
        have hnil : options.takeLimit [] = [] := by
          cases hsome : options.limit <;> simp [takeLimit, hsome]
        rw [filter_nil, hnil] at heq
        exact cons_ne_nil _ _ heq

theorem list_events_meets_its_spec_iff (codec : StorageCodec) (inMemory : Bool) :
    (∀ stream options, (∀ store, EventContent codec store →
        store.listEventsOn codec stream options inMemory = store.wantedEvents stream options) ↔
      (stream.isSome ∨ options.fromSequence = none ∨ options.fromSequence = some 0 ∨ options.limit = some 0)) ∧
    (∀ store, EventContent codec store → ∀ stream,
      (((store.events.entries.map Prod.snd).filter fun event => event.stream = stream).Pairwise
        fun event other => event.sequence < other.sequence)) ∧
    ∀ store, EventContent codec store → ∀ stream limit, limit ≠ 0 → ∀ fuel, store.events.size < fuel →
      (pagesFrom codec store stream inMemory limit fuel none).flatten =
        (store.events.entries.map Prod.snd).filter fun event => event.stream = stream := by
  refine ⟨?_, ?_, ?_⟩
  · intro stream options
    constructor
    · intro h
      by_cases hlimit : options.limit = some 0
      · exact Or.inr (Or.inr (Or.inr hlimit))
      · rcases cursor_of_listEventsOn_eq hlimit h with hstream | hnone | hzero
        · exact Or.inl hstream
        · exact Or.inr (Or.inl hnone)
        · exact Or.inr (Or.inr (Or.inl hzero))
    · rintro (hstream | hnone | hzero | hlimit) store hcontent
      · exact hcontent.listEventsOn_eq_wanted (Or.inl hstream)
      · exact hcontent.listEventsOn_eq_wanted (Or.inr (Or.inl hnone))
      · exact hcontent.listEventsOn_eq_wanted (Or.inr (Or.inr hzero))
      · rw [listEventsOn, wantedEvents, takeLimit, hlimit]
        rfl
  · intro store hcontent stream
    exact hcontent.keyed.streamEvents_sorted stream
  · intro store hcontent stream limit hlimit fuel hfuel
    have hbehind : store.behind stream none = store.streamEvents stream := by simp [behind]
    have hlength : (store.behind stream none).length < fuel := by
      have hle : (store.streamEvents stream).length ≤ store.events.size := by
        refine (length_filter_le _ _).trans ?_
        rw [length_map]
        exact le_rfl
      rw [hbehind]
      omega
    rw [hcontent.keyed.flatten_pagesFrom hlimit hlength, hbehind]
    rfl

theorem list_events_ignores_cursor_without_stream :
    let event : MemoryEvent := ⟨[97], [], [], 1, [], []⟩
    let store := oneEvent (rawCodec .ok) event
    store.listEvents (rawCodec .ok) none ⟨some 1, none, some 10⟩ = [event] ∧
      store.wantedEvents none ⟨some 1, none, some 10⟩ = [] := by
  decide +kernel

end Spec

end EventStore

end Thingd.Engine
