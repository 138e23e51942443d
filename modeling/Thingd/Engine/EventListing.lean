import Thingd.Engine.EventSafety

namespace Thingd.Engine

open Bytes SortedMap StorageCodec List

structure ListEventsOptions where
  fromSequence : Option UInt64
  since : Option Bytes
  limit : Option UInt64

namespace ListEventsOptions

def eventScanPageSize : ℕ := 1024

def ramEventScanPageSize : ℕ := 128

def pageSize (inMemory : Bool) (options : ListEventsOptions) : ℕ :=
  let defaultPageSize := if inMemory then ramEventScanPageSize else eventScanPageSize
  if options.since.isSome then defaultPageSize
  else options.limit.elim defaultPageSize fun limit => min limit.toNat defaultPageSize

section

variable (options : ListEventsOptions)

def admits (stream : Option Bytes) (event : MemoryEvent) : Bool :=
  (stream.all fun stream => event.stream = stream) &&
    !(stream.isSome && options.fromSequence.any fun sequence => event.sequence ≤ sequence) &&
    options.since.all fun since => since ≤ event.createdAt

def reached (results : List MemoryEvent) : Bool :=
  options.limit.any fun limit => limit.toNat ≤ results.length

def takeLimit (events : List MemoryEvent) : List MemoryEvent :=
  options.limit.elim events fun limit => events.take limit.toNat

end

end ListEventsOptions

namespace EventStore

section Listing

variable (codec : StorageCodec) (stream : Option Bytes) (options : ListEventsOptions)

def collectPage : List MemoryEvent → List (Bytes × MemoryEvent) → List MemoryEvent × Bool
  | results, [] => (results, false)
  | results, entry :: entries =>
    if options.admits stream entry.2 then
      if options.reached (results ++ [entry.2]) then (results ++ [entry.2], true)
      else collectPage (results ++ [entry.2]) entries
    else collectPage results entries

def eventPrefix : Bytes := stream.elim [] codec.makeEventPrefix

def listPages (store : EventStore) (pageSize : ℕ) : ℕ → Option Bytes → List MemoryEvent → List MemoryEvent
  | 0, _, results => results
  | fuel + 1, afterKey, results =>
    let page := store.events.prefixPageAfter (eventPrefix codec stream) afterKey pageSize
    if page.isEmpty then results
    else
      let (results, full) := collectPage stream options results page
      if full || page.length < pageSize then results
      else listPages store pageSize fuel (page.getLast?.map Prod.fst) results

def startKey : Option Bytes :=
  stream.bind fun stream => options.fromSequence.map (codec.makeEventKey stream)

def listEventsOn (inMemory : Bool) (store : EventStore) : List MemoryEvent :=
  if options.limit = some 0 then []
  else store.listPages codec stream options (options.pageSize inMemory) (store.events.size + 1)
    (startKey codec stream options) []

def listEvents (store : EventStore) : List MemoryEvent := listEventsOn codec stream options false store

end Listing

section Spec

variable {codec : StorageCodec} {stream : Option Bytes} {options : ListEventsOptions} {store : EventStore}
  {results : List MemoryEvent} {entries : List (Bytes × MemoryEvent)}

def admitted (stream : Option Bytes) (options : ListEventsOptions) (entries : List (Bytes × MemoryEvent)) :
    List MemoryEvent := (entries.map Prod.snd).filter (options.admits stream)

theorem admitted_append (more : List (Bytes × MemoryEvent)) :
    admitted stream options (entries ++ more) = admitted stream options entries ++ admitted stream options more := by
  simp [admitted]

theorem takeLimit_of_reached (h : options.reached results = true) (more : List MemoryEvent) :
    options.takeLimit (results ++ more) = options.takeLimit results := by
  cases hlimit : options.limit with
  | none => simp [ListEventsOptions.reached, hlimit] at h
  | some limit =>
    have hle : limit.toNat ≤ results.length := by simpa [ListEventsOptions.reached, hlimit] using h
    simp [ListEventsOptions.takeLimit, hlimit, take_append_of_le_length hle]

theorem takeLimit_of_not_reached (h : options.reached results = false) (event : MemoryEvent) :
    options.takeLimit results = results ∧ options.takeLimit (results ++ [event]) = results ++ [event] := by
  cases hlimit : options.limit with
  | none => simp [ListEventsOptions.takeLimit, hlimit]
  | some limit =>
    have hlt : results.length < limit.toNat := by simpa [ListEventsOptions.reached, hlimit] using h
    constructor
    · simp only [ListEventsOptions.takeLimit, hlimit]
      exact take_of_length_le hlt.le
    · simp only [ListEventsOptions.takeLimit, hlimit]
      apply take_of_length_le
      simp only [length_append, length_singleton]
      omega

theorem collectPage_spec (stream : Option Bytes) (entries : List (Bytes × MemoryEvent))
    (h : options.reached results = false) :
    (collectPage stream options results entries).1 = options.takeLimit (results ++ admitted stream options entries) ∧
      (collectPage stream options results entries).2 =
        options.reached (results ++ admitted stream options entries) := by
  induction entries generalizing results with
  | nil =>
    simp only [collectPage, admitted, map_nil, filter_nil, append_nil, h, and_true]
    exact (takeLimit_of_not_reached h ⟨[], [], [], 0, [], []⟩).1.symm
  | cons entry entries ih =>
    by_cases hadmits : options.admits stream entry.2 = true
    · have hcons : results ++ admitted stream options (entry :: entries) =
          results ++ [entry.2] ++ admitted stream options entries := by
        simp [admitted, hadmits]
      rw [hcons]
      by_cases hreached : options.reached (results ++ [entry.2]) = true
      · have hmore : options.reached (results ++ [entry.2] ++ admitted stream options entries) = true := by
          rw [ListEventsOptions.reached, Option.any_eq_true] at hreached ⊢
          obtain ⟨limit, hlimit, hle⟩ := hreached
          refine ⟨limit, hlimit, ?_⟩
          simp only [decide_eq_true_eq, length_append] at hle ⊢
          omega
        simp only [collectPage, hadmits, hreached, if_true, hmore, and_true]
        rw [takeLimit_of_reached hreached]
        exact (takeLimit_of_not_reached h entry.2).2.symm
      · simp only [collectPage, hadmits, hreached]
        exact ih (Bool.eq_false_iff.mpr hreached)
    · have hcons : admitted stream options (entry :: entries) = admitted stream options entries := by
        simp [admitted, hadmits]
      rw [hcons]
      simp only [collectPage, hadmits]
      exact ih h

theorem pageSize_pos (inMemory : Bool) (h : options.limit ≠ some 0) : 0 < options.pageSize inMemory := by
  have hdefault : 0 < if inMemory then ListEventsOptions.ramEventScanPageSize else
    ListEventsOptions.eventScanPageSize := by
    cases inMemory <;> decide
  rw [ListEventsOptions.pageSize]
  by_cases hsince : options.since.isSome = true
  · rwa [if_pos hsince]
  · rw [if_neg hsince]
    cases hlimit : options.limit with
    | none => exact hdefault
    | some limit =>
      have hne : limit.toNat ≠ 0 := fun hzero => h (hlimit.trans (congrArg some (UInt64.toNat_inj.mp hzero)))
      rw [Option.elim_some, lt_min_iff]
      exact ⟨Nat.pos_of_ne_zero hne, hdefault⟩

theorem listPages_spec {pageSize fuel : ℕ} (hpos : 0 < pageSize) {afterKey : Option Bytes}
    {rest : List (Bytes × MemoryEvent)}
    (hrest : after (store.events.withPrefix (eventPrefix codec stream)) afterKey = rest) (hfuel : rest.length < fuel)
    (h : options.reached results = false) :
    store.listPages codec stream options pageSize fuel afterKey results =
      options.takeLimit (results ++ admitted stream options rest) := by
  induction fuel generalizing afterKey rest results with
  | zero => omega
  | succ fuel ih =>
    have hpage : store.events.prefixPageAfter (eventPrefix codec stream) afterKey pageSize =
        rest.take pageSize := by rw [prefixPageAfter, hrest]
    obtain ⟨hresults, hfull⟩ := collectPage_spec stream (rest.take pageSize) h
    simp only [listPages, hpage, hresults, hfull]
    have hsplit : results ++ admitted stream options rest =
        results ++ admitted stream options (rest.take pageSize) ++
          admitted stream options (rest.drop pageSize) := by
      rw [append_assoc, ← admitted_append, take_append_drop]
    by_cases hnil : rest = []
    · rw [hnil]
      simp only [take_nil, isEmpty_nil, admitted, map_nil, filter_nil, append_nil]
      exact (takeLimit_of_not_reached h ⟨[], [], [], 0, [], []⟩).1.symm
    · have hne : (rest.take pageSize).isEmpty = false := by
        simp [hnil, hpos.ne']
      rw [hne]
      cases hreached : options.reached (results ++ admitted stream options (rest.take pageSize)) with
      | true =>
        rw [hsplit, takeLimit_of_reached hreached]
        rfl
      | false =>
        by_cases hlast : rest.length < pageSize
        · simp [take_of_length_le hlast.le, hlast]
        · have hlength : (rest.take pageSize).length = pageSize := by
            rw [length_take]
            omega
          -- Behind the last key of a full page stands the rest of the scan.
          obtain ⟨init, last, htake⟩ : ∃ init last, rest.take pageSize = init ++ [last] := by
            rcases eq_nil_or_concat (rest.take pageSize) with hempty | ⟨init, last, hconcat⟩
            · rw [hempty, length_nil] at hlength
              omega
            · exact ⟨init, last, by rw [hconcat, concat_eq_append]⟩
          have hwhole : rest = init ++ last :: rest.drop pageSize := by
            conv_lhs => rw [← take_append_drop pageSize rest, htake]
            simp
          have hnext : after (store.events.withPrefix (eventPrefix codec stream)) (some last.1) =
              rest.drop pageSize := by
            have hmem : last ∈ after (store.events.withPrefix (eventPrefix codec stream)) afterKey := by
              rw [hrest, hwhole]
              simp
            have hsorted := (store.events.withPrefix_sorted (eventPrefix codec stream)).filter fun entry =>
              afterKey.all (· < entry.1)
            rw [← after_after (mem_filter.mp hmem).2, hrest]
            change (after _ afterKey).Pairwise _ at hsorted
            rw [hrest, hwhole] at hsorted
            conv_lhs => rw [hwhole]
            exact after_of_append hsorted
          have hdrop : (rest.drop pageSize).length < fuel := by
            rw [length_drop]
            omega
          have hkeep : options.takeLimit (results ++ admitted stream options (rest.take pageSize)) =
              results ++ admitted stream options (rest.take pageSize) :=
            (takeLimit_of_not_reached hreached ⟨[], [], [], 0, [], []⟩).1
          simp only [Bool.false_eq_true, hlength, lt_irrefl, hkeep]
          rw [htake, List.getLast?_append]
          rw [← htake, hsplit]
          exact ih hnext hdrop hreached

theorem listEventsOn_eq (inMemory : Bool) :
    store.listEventsOn codec stream options inMemory = options.takeLimit (admitted stream options
      (after (store.events.withPrefix (eventPrefix codec stream)) (startKey codec stream options))) := by
  rw [listEventsOn]
  split_ifs with hlimit
  · simp [ListEventsOptions.takeLimit, hlimit]
  · have hlength : (after (store.events.withPrefix (eventPrefix codec stream))
        (startKey codec stream options)).length < store.events.size + 1 :=
      Nat.lt_succ_of_le ((length_filter_le _ _).trans (length_filter_le _ _))
    apply listPages_spec (pageSize_pos inMemory hlimit) rfl hlength
    cases hsome : options.limit with
    | none => simp [ListEventsOptions.reached, hsome]
    | some limit =>
      have hne : limit.toNat ≠ 0 := fun hzero => hlimit (hsome.trans (congrArg some (UInt64.toNat_inj.mp hzero)))
      simpa [ListEventsOptions.reached, hsome] using hne

end Spec

section Streams

variable {codec : StorageCodec} {store : EventStore} {stream : Bytes}

theorem makeEventPrefix_isPrefix (codec : StorageCodec) (stream : Bytes) (sequence : UInt64) :
    codec.makeEventPrefix stream <+: codec.makeEventKey stream sequence := by
  rw [makeEventPrefix, makeEventKey]
  cases codec.crypto with
  | none => exact ⟨bigEndian 8 sequence.toNat, by simp⟩
  | some crypto => exact ⟨_, rfl⟩

theorem makeEventKey_lt_iff (codec : StorageCodec) (stream : Bytes) {sequence other : UInt64} :
    codec.makeEventKey stream sequence < codec.makeEventKey stream other ↔ sequence < other := by
  have hdigits : bigEndian 8 sequence.toNat < bigEndian 8 other.toNat ↔ sequence < other := by
    rw [bigEndian_lt_iff (show sequence.toNat < 256 ^ 8 from sequence.toNat_lt)
      (show other.toNat < 256 ^ 8 from other.toNat_lt), UInt64.lt_iff_toNat_lt]
  rw [makeEventKey, makeEventKey]
  cases codec.crypto with
  | none => simp [hdigits]
  | some crypto => simp [hdigits]

def streamEvents (store : EventStore) (stream : Bytes) : List MemoryEvent :=
  (store.events.entries.map Prod.snd).filter fun event => event.stream = stream

theorem mem_streamEvents {event : MemoryEvent} :
    event ∈ store.streamEvents stream ↔ store.Stored event ∧ event.stream = stream := by
  simp [streamEvents, Stored, get_eq_some_iff]

def EventsKeyed (codec : StorageCodec) (store : EventStore) : Prop :=
  ∀ key event, store.events.get key = some event → key = codec.makeEventKey event.stream event.sequence

theorem EventsKeyed.streamEvents_sorted (h : EventsKeyed codec store) (stream : Bytes) :
    (store.streamEvents stream).Pairwise fun event other => event.sequence < other.sequence := by
  rw [streamEvents, filter_map, pairwise_map]
  apply (store.events.sorted.filter _).imp_of_mem
  intro entry other hentry hother hlt
  obtain ⟨hentry, hstream⟩ := mem_filter.mp hentry
  obtain ⟨hother, hsame⟩ := mem_filter.mp hother
  have hstream : entry.2.stream = stream := by simpa using hstream
  have hsame : other.2.stream = stream := by simpa using hsame
  rw [h entry.1 entry.2 (get_eq_some_iff.mpr hentry),
    h other.1 other.2 (get_eq_some_iff.mpr hother), hstream, hsame] at hlt
  exact (makeEventKey_lt_iff codec stream).mp hlt

theorem EventsKeyed.listEventsOn_stream (h : EventsKeyed codec store) (options : ListEventsOptions) (inMemory : Bool) :
    store.listEventsOn codec (some stream) options inMemory =
      options.takeLimit ((store.streamEvents stream).filter fun event =>
      (options.fromSequence.all fun sequence => sequence < event.sequence) &&
        options.since.all fun since => since ≤ event.createdAt) := by
  rw [listEventsOn_eq, admitted, streamEvents, SortedMap.after, withPrefix, filter_filter, filter_filter,
    filter_map, filter_map, filter_filter]
  congr 2
  apply filter_congr
  intro entry hentry
  have hkey := h entry.1 entry.2 (get_eq_some_iff.mpr hentry)
  by_cases hstream : entry.2.stream = stream
  · have hprefix : (eventPrefix codec (some stream)).isPrefixOf entry.1 = true := by
      rw [List.isPrefixOf_iff_prefix, hkey, hstream]
      exact makeEventPrefix_isPrefix codec stream entry.2.sequence
    have hafter : ((startKey codec (some stream) options).all fun key => decide (key < entry.1)) =
        options.fromSequence.all fun sequence => decide (sequence < entry.2.sequence) := by
      cases hsequence : options.fromSequence with
      | none => simp [startKey, hsequence]
      | some sequence =>
        simp only [startKey, hsequence]
        rw [hkey, hstream]
        exact decide_eq_decide.mpr (makeEventKey_lt_iff codec stream)
    simp only [Function.comp_apply, ListEventsOptions.admits, hstream, hprefix, hafter]
    cases options.fromSequence with
    | none => simp
    | some sequence =>
      by_cases hlt : sequence < entry.2.sequence
      · simp [hlt]
      · simp [hlt]
  · simp [ListEventsOptions.admits, hstream]

theorem listEventsOn_all (options : ListEventsOptions) (inMemory : Bool) :
    store.listEventsOn codec none options inMemory =
      options.takeLimit ((store.events.entries.map Prod.snd).filter fun event =>
      options.since.all fun since => since ≤ event.createdAt) := by
  rw [listEventsOn_eq, admitted]
  have hall : after (store.events.withPrefix (eventPrefix codec none)) (startKey codec none options) =
      store.events.entries := by
    simp [startKey, eventPrefix, withPrefix]
  rw [hall]
  congr 2

end Streams

end EventStore

end Thingd.Engine
