import Thingd.ThingDb.CacheRun

namespace Thingd.ThingDb

open Recency CacheOptions

namespace CacheState

section Kept

variable {options : CacheOptions} {state : CacheState} {rows : List CacheRow} {key value : Bytes} {now : ℕ}

theorem map_kept_sweep (rows : List CacheRow) :
    (rows.filter fun row => decide (now < row.2.expiresAt)).map CacheRow.kept = live now (rows.map CacheRow.kept) := by
  rw [live, List.filter_map]
  rfl

theorem map_kept_dropRow (rows : List CacheRow) :
    (dropRow key rows).map CacheRow.kept = without key (rows.map CacheRow.kept) := by
  rw [without, List.filter_map]
  rfl

theorem fullRows_eq (options : CacheOptions) (rows : List CacheRow) :
    fullRows options rows = options.full (rows.map CacheRow.kept) := by
  rw [fullRows, full, List.length_map, List.map_map]
  rfl

theorem map_kept_evict (options : CacheOptions) (rows : List CacheRow) :
    (evict (fullRows options) rows).map CacheRow.kept = evict options.full (rows.map CacheRow.kept) := by
  have hfull : fullRows options = fun rows => options.full (rows.map CacheRow.kept) := by
    funext rows
    exact fullRows_eq options rows
  rw [hfull]
  exact map_evict CacheRow.kept rows

theorem Indexed.find_live (h : Indexed state rows) (now : ℕ) (key : Bytes) :
    find key (live now (rows.map CacheRow.kept)) =
      ((state.entries.get key).filter fun entry => decide (now < entry.expiresAt)).map fun entry =>
        CacheRow.kept (key, entry) := by
  have hnodup : ((rows.map CacheRow.kept).map Kept.key).Nodup := by
    rw [List.map_map]
    exact h.keys_nodup
  ext k
  rw [find_live_eq_some_iff hnodup, Option.map_eq_some_iff]
  simp only [Option.filter_eq_some_iff, decide_eq_true_eq, List.mem_map]
  constructor
  · rintro ⟨⟨row, hrow, rfl⟩, hlive, rfl⟩
    exact ⟨row.2, ⟨(h.entries row.1 row.2).mpr hrow, hlive⟩, rfl⟩
  · rintro ⟨entry, ⟨hget, hlive⟩, rfl⟩
    exact ⟨⟨(key, entry), (h.entries key entry).mp hget, rfl⟩, hlive, rfl⟩

theorem Indexed.lookup_eq (h : Indexed state rows) (now : ℕ) (key : Bytes) :
    lookup now key (rows.map CacheRow.kept) =
      ((state.entries.get key).filter fun entry => decide (now < entry.expiresAt)).map CacheEntry.value := by
  rw [lookup, h.find_live, Option.map_map]
  rfl

theorem validateKey_of_ne (h : key ≠ []) : validateKey key = .ok () := by
  rw [validateKey, if_neg]
  rw [List.isEmpty_iff]
  exact h

theorem Represents.result_get (h : Represents options state rows) (hkey : key ≠ []) :
    (state.get now key).1 = .ok (lookup now key (rows.map CacheRow.kept)) := by
  rw [h.lookup_eq, CacheState.get, validateKey_of_ne hkey]
  cases hget : state.entries.get key with
  | none => rfl
  | some entry =>
    by_cases hexpired : entry.expiresAt ≤ now
    · simp [hexpired]
    · simp [hexpired, Option.filter]

def Follows (options : CacheOptions) (now : ℕ) (state : CacheState) (kept : List (Kept Bytes Bytes)) : Prop :=
  ∃ rows, Represents options state rows ∧ live now (rows.map CacheRow.kept) = live now kept

theorem Follows.later {kept : List (Kept Bytes Bytes)} {later : ℕ} (h : Follows options now state kept)
    (hle : now ≤ later) : Follows options later state kept := by
  obtain ⟨rows, hrows, hlive⟩ := h
  refine ⟨rows, hrows, ?_⟩
  rw [← live_live hle, hlive, live_live hle]

theorem Follows.agrees {kept : List (Kept Bytes Bytes)} (h : Follows options now state kept) :
    Agrees now state kept := by
  obtain ⟨rows, hrows, hlive⟩ := h
  intro later key hle hkey
  rw [hrows.result_get hkey, lookup_congr hlive hle]

end Kept

section Steps

variable {options : CacheOptions} {state : CacheState} {kept : List (Kept Bytes Bytes)} {key value : Bytes}
  {now ttl : ℕ}

section

variable (h : Follows options now state kept)
include h

theorem Follows.get (hroom : state.nextAccessOrder < u64Max) (hkey : key ≠ []) :
    Follows options now (state.get now key).2 (Recency.read now key kept) := by
  obtain ⟨rows, hrows, hlive⟩ := h
  have hfind := hrows.find_live now key
  rw [hlive] at hfind
  rw [CacheState.get, Recency.read, hfind, validateKey_of_ne hkey]
  cases hget : state.entries.get key with
  | none => exact ⟨rows, hrows.congr rfl rfl rfl rfl rfl rfl, by rw [hlive]; exact (live_live le_rfl kept).symm⟩
  | some entry =>
    rw [hget] at hfind
    by_cases hexpired : entry.expiresAt ≤ now
    · have hnone : ((some entry).filter fun entry => decide (now < entry.expiresAt)) = none := by
        simp [hexpired]
      rw [hnone] at hfind ⊢
      simp only [hexpired]
      refine ⟨dropRow key rows, (hrows.drop hget).congr rfl rfl rfl rfl rfl rfl, ?_⟩
      rw [map_kept_dropRow, live_without, hlive, without_eq_self hfind]
      exact (live_live le_rfl kept).symm
    · have hsome : ((some entry).filter fun entry => decide (now < entry.expiresAt)) = some entry := by
        simp [not_le.mp hexpired]
      rw [hsome]
      simp only [hexpired, Option.map_some]
      have hdrop := hrows.dropEntry hget
      have hadd := hdrop.addEntry (fun _ hrow => ne_of_mem_dropRow hrow) hroom entry.value entry.expiresAt
      refine ⟨_, ⟨⟨hadd.entries, hadd.lru, hadd.expirations, hadd.recent⟩, hrows.options, ?_⟩, ?_⟩
      · change state.bytes = _
        rw [hrows.bytes, hrows.sum_size hget, List.map_append, List.sum_append, Nat.add_comm]
        rfl
      · rw [List.map_append, map_kept_dropRow, live_append, live_append, live_without, live_without, hlive,
          live_live le_rfl]
        rfl

theorem Follows.remove (hkey : key ≠ []) : Follows options now (state.remove key).2 (Recency.remove now key kept) := by
  obtain ⟨rows, hrows, hlive⟩ := h
  rw [CacheState.remove, Recency.remove, validateKey_of_ne hkey]
  have hdropped : live now ((dropRow key rows).map CacheRow.kept) = live now (without key (live now kept)) := by
    rw [map_kept_dropRow, live_without, live_without, hlive, live_live le_rfl]
  cases hget : state.entries.get key with
  | none =>
    rw [hrows.dropRow_eq_self hget] at hdropped
    exact ⟨rows, hrows, hdropped⟩
  | some entry => exact ⟨dropRow key rows, (hrows.drop hget).congr rfl rfl rfl rfl rfl rfl, hdropped⟩

theorem Follows.result_remove_iff (hkey : key ≠ []) :
    (state.remove key).1 = .ok (lookup now key kept).isSome ↔ timely now state (.remove key) = true := by
  obtain ⟨rows, hrows, hlive⟩ := h
  have hempty : key.isEmpty = false := by simpa using hkey
  rw [← lookup_congr hlive le_rfl, hrows.lookup_eq, CacheState.remove, validateKey_of_ne hkey, timely, hempty]
  cases hget : state.entries.get key with
  | none => simp
  | some entry =>
    by_cases hexpired : entry.expiresAt ≤ now
    · simp [hexpired]
    · simp [not_le.mp hexpired]

theorem Follows.clear : Follows options now state.clear [] := by
  obtain ⟨rows, hrows, hlive⟩ := h
  exact ⟨[], ⟨⟨by simp [CacheState.clear, refreshCurrentStats], rfl,
    by simp [CacheState.clear, refreshCurrentStats, SortedMap.keys], List.forall_mem_nil _⟩, hrows.options, rfl⟩, rfl⟩

theorem Follows.removeExpired : Follows options now (state.removeExpired now) kept := by
  obtain ⟨rows, hrows, hlive⟩ := h
  refine ⟨_, hrows.removeExpired now, ?_⟩
  rw [map_kept_sweep, live_live le_rfl, hlive]

end

theorem nextAccessOrder_removeExpired (state : CacheState) (now : ℕ) :
    (state.removeExpired now).nextAccessOrder = state.nextAccessOrder := by
  have hkey (state : CacheState) (key : Bytes) : (state.expireKey key).nextAccessOrder = state.nextAccessOrder := by
    rw [expireKey]
    cases state.entries.get key with
    | none => rfl
    | some entry => rfl
  have hfold (keys : List Bytes) (state : CacheState) :
    (keys.foldl expireKey state).nextAccessOrder = state.nextAccessOrder := by
    induction keys generalizing state with
    | nil => rfl
    | cons key keys ih => rw [List.foldl_cons, ih, hkey]
  exact hfold (state.expiredKeys now) state

theorem Represents.insertWithTtl {rows : List CacheRow} (h : Represents options state rows)
    (haccepts : options.accepts key value = true) (hroom : roomy now state (.insertWithTtl key value ttl) = true) :
    ∃ next, state.insertWithTtl now key value ttl = some (.ok (), next) ∧
      Represents options next (evict (fullRows options)
        (dropRow key (rows.filter fun row => decide (now < row.2.expiresAt)) ++
          [(key, ⟨value, CacheState.expiresAt now ttl, state.nextAccessOrder⟩)])) := by
  simp only [accepts, Bool.and_eq_true, decide_eq_true_eq] at haccepts
  obtain ⟨⟨⟨hkey, hentries⟩, hbytes⟩, hsize⟩ := haccepts
  simp only [roomy, Bool.and_eq_true, decide_eq_true_eq] at hroom
  obtain ⟨horder, hsum⟩ := hroom
  have hswept := h.removeExpired now
  have hnext := nextAccessOrder_removeExpired state now
  have hle : (state.removeExpired now).bytes ≤ state.bytes := by
    rw [hswept.bytes, h.bytes]
    exact (List.filter_sublist.map CacheRow.size).sum_le_sum (fun _ _ => Nat.zero_le _)
  have hstored := hswept.store (by rw [hnext]; exact horder) ((Nat.add_le_add_right hle _).trans hsum)
    (CacheState.expiresAt now ttl)
  obtain ⟨evicted, hevicted, hrows⟩ := hstored.evictOldest
  rw [hnext] at hrows hevicted
  refine ⟨evicted.refreshCurrentStats, ?_, hrows.congr rfl rfl rfl rfl rfl rfl⟩
  have hvalid : validateKey key = .ok () := validateKey_of_ne fun hnil => by simp [hnil] at hkey
  have hfits : ¬(state.options.maxBytes < saturatingAdd key.length value.length ∧ state.options.maxBytes ≠ 0) := by
    rw [h.options]
    exact fun hlarge => absurd hsize (not_le.mpr hlarge.1)
  have hbounds : ¬((state.removeExpired now).options.maxEntries = 0 ∨
    (state.removeExpired now).options.maxBytes = 0) := by
    rw [hswept.options]
    omega
  have hsizes := hstored.size_lru
  rw [hnext] at hsizes
  rw [CacheState.insertWithTtl, hvalid]
  simp only [hfits, hbounds, hsizes, hevicted]
  rfl

theorem full_singleton (haccepts : options.accepts key value = true) (deadline : ℕ) :
    options.full [⟨key, value, deadline⟩] = false := by
  simp only [accepts, Bool.and_eq_true, decide_eq_true_eq] at haccepts
  obtain ⟨⟨⟨hkey, hentries⟩, hbytes⟩, hsize⟩ := haccepts
  simp only [full, List.length_singleton, List.map_cons, List.map_nil, List.sum_singleton,
    Bool.or_eq_false_iff, decide_eq_false_iff_not]
  omega

theorem Represents.insertWithTtl_entry {rows : List CacheRow} (h : Represents options state rows)
    (haccepts : options.accepts key value = true) (hroom : roomy now state (.insertWithTtl key value ttl) = true) :
    ∃ next, state.insertWithTtl now key value ttl = some (.ok (), next) ∧
      next.entries.get key = some ⟨value, CacheState.expiresAt now ttl, state.nextAccessOrder⟩ ∧
      ∃ rows', Represents options next rows' ∧ rows'.map CacheRow.kept =
        put options.full now ⟨key, value, CacheState.expiresAt now ttl⟩ (rows.map CacheRow.kept) := by
  obtain ⟨next, hnext, hrows⟩ := h.insertWithTtl haccepts hroom
  refine ⟨next, hnext, ?_, _, hrows, ?_⟩
  · apply (hrows.entries _ _).mpr
    apply getLast_mem_evict
    rw [fullRows_eq]
    exact full_singleton haccepts _
  · rw [map_kept_evict, List.map_append, map_kept_dropRow, map_kept_sweep]
    rfl

section

variable (h : Follows options now state kept) (haccepts : options.accepts key value = true)
  (hroom : roomy now state (.insertWithTtl key value ttl) = true)
include h haccepts hroom

theorem Follows.insertWithTtl (hdeadline : now + ttl ≤ instantMax) :
    ∃ next, state.insertWithTtl now key value ttl = some (.ok (), next) ∧
      (next.entries.get key).map CacheEntry.value = some value ∧
      Follows options now next (put options.full now ⟨key, value, now + ttl⟩ kept) := by
  obtain ⟨rows, hrows, hlive⟩ := h
  obtain ⟨next, hnext, hentry, rows', hrows', hkept⟩ := hrows.insertWithTtl_entry haccepts hroom
  refine ⟨next, hnext, by rw [hentry]; rfl, rows', hrows', ?_⟩
  rw [hkept, put, put, hlive, CacheState.expiresAt, if_pos hdeadline]

theorem Follows.insertWithTtl_overflow (hdeadline : instantMax < now + ttl) :
    ∃ next, state.insertWithTtl now key value ttl = some (.ok (), next) ∧ (next.get now key).1 = .ok none := by
  obtain ⟨rows, hrows, hlive⟩ := h
  obtain ⟨next, hnext, hentry, rows', hrows', hkept⟩ := hrows.insertWithTtl_entry haccepts hroom
  have hkey : key ≠ [] := by
    rintro rfl
    simp [accepts] at haccepts
  refine ⟨next, hnext, ?_⟩
  rw [hrows'.result_get hkey, hrows'.lookup_eq, hentry, CacheState.expiresAt, if_neg (not_le.mpr hdeadline)]
  simp [Option.filter]

end

section

variable (h : Follows options now state kept)
include h

theorem Follows.insertWithTtl_refused (hrefused : options.accepts key value = false) :
    ∃ result next, state.insertWithTtl now key value ttl = some (result, next) ∧ Follows options now next kept := by
  have hswept := h.removeExpired
  obtain ⟨rows, hrows, hlive⟩ := h
  obtain ⟨rows', hrows', hlive'⟩ := hswept
  rw [CacheState.insertWithTtl]
  cases key with
  | nil => exact ⟨_, state, rfl, rows, hrows, hlive⟩
  | cons byte key =>
    rw [validateKey_of_ne (List.cons_ne_nil byte key)]
    dsimp only
    split_ifs with hlarge hbounds
    · exact ⟨_, state, rfl, rows, hrows, hlive⟩
    · exact ⟨_, _, rfl, rows', hrows', hlive'⟩
    · rw [hrows.options] at hlarge
      rw [hrows'.options] at hbounds
      simp only [accepts, List.isEmpty_cons, Bool.not_false, Bool.true_and, Bool.and_eq_false_iff,
        decide_eq_false_iff_not] at hrefused
      rw [entrySize] at hrefused
      omega

theorem Follows.stats : Follows options now (state.report now).2 kept := by
  obtain ⟨rows, hrows, hlive⟩ := h.removeExpired
  exact ⟨rows, hrows.congr rfl rfl rfl rfl rfl rfl, hlive⟩

theorem Follows.step {call : CacheCall} (hroom : roomy now state call = true) (htimely : timely now state call = true) :
    ∃ answer next, state.step now call = some (answer, next) ∧ options.Answered now kept next call answer ∧
      Follows options now next (options.keep now kept call) := by
  cases call with
  | get key =>
    refine ⟨.found (state.get now key).1, (state.get now key).2, rfl, fun hkey => ?_, ?_⟩
    · rw [h.agrees now key le_rfl hkey]
    · rw [keep]
      cases key with
      | nil => exact h
      | cons byte key => exact h.get (of_decide_eq_true hroom) (List.cons_ne_nil byte key)
  | insertWithTtl key value ttl =>
    rw [CacheState.step, keep]
    cases haccepts : options.accepts key value with
    | false =>
      obtain ⟨result, next, hnext, hfollows⟩ := h.insertWithTtl_refused haccepts
      rw [hnext]
      exact ⟨_, _, rfl, fun htrue => absurd (haccepts.symm.trans htrue) Bool.false_ne_true, hfollows⟩
    | true =>
      have hoptions : state.options = options := h.choose_spec.1.options
      rw [timely, hoptions, haccepts, Bool.not_true, Bool.false_or, decide_eq_true_eq] at htimely
      obtain ⟨next, hnext, hvalue, hfollows⟩ := h.insertWithTtl haccepts hroom htimely
      rw [hnext]
      exact ⟨_, _, rfl, fun _ => ⟨rfl, hvalue⟩, hfollows⟩
  | remove key =>
    refine ⟨.removed (state.remove key).1, (state.remove key).2, rfl, fun hkey => ?_, ?_⟩
    · rw [(h.result_remove_iff hkey).mpr htimely]
    · rw [keep]
      cases key with
      | nil => exact h
      | cons byte key => exact h.remove (List.cons_ne_nil byte key)
  | clear => exact ⟨_, _, rfl, trivial, h.clear⟩
  | stats => exact ⟨_, _, rfl, trivial, h.stats⟩

theorem Follows.timely (hmax : now ≤ instantMax) {call : CacheCall} (hroom : roomy now state call = true)
    {answer : CacheAnswer} {next : CacheState} (hstep : state.step now call = some (answer, next))
    (hanswered : options.Answered now kept next call answer) (hagrees : Agrees now next (options.keep now kept call)) :
    timely now state call = true := by
  cases call with
  | get key => rfl
  | insertWithTtl key value ttl =>
    have hoptions : state.options = options := h.choose_spec.1.options
    rw [CacheState.timely, hoptions]
    cases haccepts : options.accepts key value with
    | false => rfl
    | true =>
      rw [Bool.not_true, Bool.false_or, decide_eq_true_eq]
      by_contra hdeadline
      obtain ⟨next', hnext, hget⟩ := h.insertWithTtl_overflow haccepts hroom (not_le.mp hdeadline)
      rw [CacheState.step, hnext] at hstep
      cases hstep
      have hkey : key ≠ [] := by
        rintro rfl
        simp [accepts] at haccepts
      have hfound := hagrees now key le_rfl hkey
      have hlookup := lookup_put (full_singleton haccepts (now + ttl)) (show now < now + ttl by omega) kept
      rw [keep, haccepts, if_pos rfl, hlookup] at hfound
      exact absurd (hget.symm.trans hfound) (by simp)
  | remove key =>
    cases key with
    | nil => rfl
    | cons byte key =>
      have hkey := List.cons_ne_nil byte key
      cases hstep
      have hresult := hanswered hkey
      exact (h.result_remove_iff hkey).mp (CacheAnswer.removed.inj hresult)
  | clear => rfl
  | stats => rfl

end

end Steps

theorem follows_new (options : CacheOptions) (now : ℕ) : Follows options now (new options) [] :=
  ⟨[], ⟨⟨by simp [new], rfl, by simp [new, SortedMap.keys], List.forall_mem_nil _⟩, rfl, rfl⟩, rfl⟩

theorem runsAs_iff {options : CacheOptions} {calls : List (ℕ × CacheCall)} {state : CacheState}
    {kept : List (Kept Bytes Bytes)} {start : ℕ} (h : Follows options start state kept)
    (hclock : (start :: calls.map Prod.fst).Pairwise (· ≤ ·)) (hmax : ∀ call ∈ calls, call.1 ≤ instantMax)
    (hroom : along roomy calls state = true) : RunsAs options calls state kept ↔ along timely calls state = true := by
  induction calls generalizing state kept start with
  | nil => exact iff_of_true trivial rfl
  | cons timed calls ih =>
    obtain ⟨now, call⟩ := timed
    rw [List.map_cons] at hclock
    obtain ⟨hstart, hclock⟩ := List.pairwise_cons.mp hclock
    have hnow : Follows options now state kept := h.later (hstart now List.mem_cons_self)
    obtain ⟨hfirst, hcalls⟩ := List.forall_mem_cons.mp hmax
    rw [along, Bool.and_eq_true] at hroom
    rw [along, Bool.and_eq_true, RunsAs]
    constructor
    · rintro ⟨answer, next, hstep, hanswered, hagrees, hruns⟩
      have htimely := hnow.timely hfirst hroom.1 hstep hanswered hagrees
      obtain ⟨answer', next', hstep', _, hfollows⟩ := hnow.step hroom.1 htimely
      cases hstep.symm.trans hstep'
      rw [hstep] at hroom ⊢
      exact ⟨htimely, (ih hfollows hclock hcalls hroom.2).mp hruns⟩
    · rintro ⟨htimely, hrest⟩
      obtain ⟨answer, next, hstep, hanswered, hfollows⟩ := hnow.step hroom.1 htimely
      rw [hstep] at hroom hrest
      exact ⟨answer, next, hstep, hanswered, hfollows.agrees, (ih hfollows hclock hcalls hroom.2).mpr hrest⟩

theorem cache_is_ttl_lru_iff (options : CacheOptions) (calls : List (ℕ × CacheCall))
    (hclock : (calls.map Prod.fst).Pairwise (· ≤ ·)) (hmax : ∀ call ∈ calls, call.1 ≤ instantMax)
    (hroom : along roomy calls (new options) = true) :
    RunsAs options calls (new options) [] ↔ along timely calls (new options) = true :=
  runsAs_iff (follows_new options 0) (List.pairwise_cons.mpr ⟨fun _ _ => Nat.zero_le _, hclock⟩) hmax hroom

def sampleCalls : List (ℕ × CacheCall) :=
  [(0, .insertWithTtl [1] [11] 10), (1, .insertWithTtl [2] [22] 10), (2, .get [1]), (3, .insertWithTtl [3] [33] 10),
    (4, .get [2]), (5, .remove [1]), (20, .stats), (20, .remove [3])]

theorem read_saves_entry : RunsAs ⟨2, 100⟩ sampleCalls (new ⟨2, 100⟩) [] := by
  rw [cache_is_ttl_lru_iff ⟨2, 100⟩ sampleCalls (by decide) (by decide) (by decide +kernel)]
  decide +kernel

/-- A value for ever is expired at once, and an expired one that is still there counts as a live one when it is
removed. -/
theorem endless_value_is_expired :
    (((new ⟨1024, 1024⟩).insertWithTtl 5 [1] [7] (2 ^ 64 * 10 ^ 9 - 1)).map fun result =>
      (result.2.get 5 [1]).1.toOption) = some (some none) ∧
    lookup 5 [1] ((CacheOptions.mk 1024 1024).keep 5 [] (.insertWithTtl [1] [7] (2 ^ 64 * 10 ^ 9 - 1))) = some [7] ∧
    (((new ⟨1024, 1024⟩).insertWithTtl 0 [1] [7] 10).map fun result => (result.2.remove [1]).1.toOption) =
      some (some true) ∧
    lookup 20 [1] ((CacheOptions.mk 1024 1024).keep 0 [] (.insertWithTtl [1] [7] 10)) = none := by
  refine ⟨?_, ?_, ?_, ?_⟩
  · decide +kernel
  · decide +kernel
  · decide +kernel
  · decide +kernel

end CacheState

end Thingd.ThingDb
