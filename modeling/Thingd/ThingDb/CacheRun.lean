import Thingd.ThingDb.Cache

namespace Thingd.ThingDb

open Recency SortedMap List

abbrev CacheRow := Bytes × CacheEntry

namespace CacheRow

def index (row : CacheRow) : ℕ ×ₗ Bytes := toLex (row.2.accessOrder, row.1)

def expiry (row : CacheRow) : ℕ ×ₗ Bytes := toLex (row.2.expiresAt, row.1)

def size (row : CacheRow) : ℕ := CacheState.entrySize row.1 row.2.value

def kept (row : CacheRow) : Kept Bytes Bytes := ⟨row.1, row.2.value, row.2.expiresAt⟩

end CacheRow

def dropRow (key : Bytes) (rows : List CacheRow) : List CacheRow := rows.filter fun row => decide (row.1 ≠ key)

namespace CacheState

structure Indexed (state : CacheState) (rows : List CacheRow) : Prop where
  entries : ∀ key entry, state.entries.get key = some entry ↔ (key, entry) ∈ rows
  lru : state.lru.keys = rows.map CacheRow.index
  expirations : ∀ index, index ∈ state.expirations.keys ↔ ∃ row ∈ rows, CacheRow.expiry row = index
  recent : ∀ row ∈ rows, row.2.accessOrder < state.nextAccessOrder

structure Represents (options : CacheOptions) (state : CacheState) (rows : List CacheRow) : Prop
    extends Indexed state rows where
  options : state.options = options
  bytes : state.bytes = (rows.map CacheRow.size).sum

section Rows

variable {options : CacheOptions} {state : CacheState} {row : CacheRow} {rows : List CacheRow} {key value : Bytes}
  {entry : CacheEntry}

section

variable (h : Indexed state rows)
include h

theorem Indexed.nodup : rows.Nodup := by
  have hsorted := state.lru.keys_sorted
  rw [h.lru] at hsorted
  have hindex : (rows.map CacheRow.index).Nodup := hsorted.imp fun hlt => hlt.ne
  exact hindex.of_map

theorem Indexed.eq_of_key {other : CacheRow} (hrow : row ∈ rows) (hother : other ∈ rows) (hkey : row.1 = other.1) :
    row = other := by
  have hget := (h.entries row.1 row.2).mpr hrow
  have hget' := (h.entries other.1 other.2).mpr hother
  rw [hkey, hget'] at hget
  exact Prod.ext hkey (Option.some.inj hget).symm

theorem Indexed.keys_nodup : (rows.map Prod.fst).Nodup :=
  (nodup_map_iff_inj_on h.nodup).mpr fun _ hrow _ hother hkey => h.eq_of_key hrow hother hkey

theorem Indexed.size_entries : state.entries.size = rows.length := by
  have hperm : state.entries.entries.Perm rows := by
    rw [perm_ext_iff_of_nodup state.entries.entries_nodup h.nodup]
    intro row
    rw [← get_eq_some_iff]
    exact h.entries row.1 row.2
  exact hperm.length_eq

theorem Indexed.not_mem (hget : state.entries.get key = none) (hrow : row ∈ rows) : row.1 ≠ key := by
  rintro rfl
  rw [(h.entries row.1 row.2).mpr hrow] at hget
  cases hget

theorem Indexed.ne_key_iff (hget : state.entries.get key = some entry) (hrow : row ∈ rows) :
    row.1 ≠ key ↔ row ≠ (key, entry) := by
  refine not_congr ⟨fun hkey => h.eq_of_key hrow ((h.entries key entry).mp hget) hkey, fun heq => ?_⟩
  rw [heq]

theorem Indexed.dropEntry (hget : state.entries.get key = some entry) :
    Indexed (state.dropEntry key entry) (dropRow key rows) where
  entries key' entry' := by
    change (state.entries.erase key).get key' = some entry' ↔ _
    rw [dropRow, mem_filter, ← h.entries]
    by_cases hkey : key' = key
    · simp [hkey]
    · simp [hkey]
  lru := by
    change (state.lru.erase (toLex (entry.accessOrder, key))).keys = _
    rw [keys_erase, h.lru, dropRow, filter_map]
    congr 1
    apply filter_congr
    intro row hrow
    have hne := h.ne_key_iff hget hrow
    refine decide_eq_decide.mpr ⟨fun hindex => ?_, fun hkey heq => ?_⟩
    · exact hne.mpr fun heq => hindex (by rw [heq]; rfl)
    · exact hkey (congrArg (fun index => (ofLex index).2) heq)
  expirations index := by
    change index ∈ (state.expirations.erase (toLex (entry.expiresAt, key))).keys ↔ _
    rw [mem_keys_erase, h.expirations]
    constructor
    · rintro ⟨⟨row, hrow, rfl⟩, hindex⟩
      refine ⟨row, mem_filter.mpr ⟨hrow, decide_eq_true ?_⟩, rfl⟩
      exact (h.ne_key_iff hget hrow).mpr fun heq => hindex (by rw [heq]; rfl)
    · rintro ⟨row, hrow, rfl⟩
      obtain ⟨hrow, hkey⟩ := mem_filter.mp hrow
      exact ⟨⟨row, hrow, rfl⟩, fun heq => of_decide_eq_true hkey (congrArg (fun index => (ofLex index).2) heq)⟩
  recent row hrow := h.recent row (mem_filter.mp hrow).1

theorem Indexed.addEntry (hnew : ∀ row ∈ rows, row.1 ≠ key) (hroom : state.nextAccessOrder < u64Max) (value : Bytes)
    (expiresAt : ℕ) :
    Indexed (state.addEntry key value expiresAt) (rows ++ [(key, ⟨value, expiresAt, state.nextAccessOrder⟩)]) where
  entries key' entry' := by
    change (state.entries.insert key ⟨value, expiresAt, state.nextAccessOrder⟩).get key' = some entry' ↔ _
    rw [get_insert, mem_append, mem_singleton, ← h.entries]
    split_ifs with hkey
    · subst hkey
      have hnone : state.entries.get key' ≠ some entry' := fun hget => hnew _ ((h.entries _ _).mp hget) rfl
      simp [hnone, eq_comm]
    · simp [hkey]
  lru := by
    change (state.lru.insert (toLex (state.nextAccessOrder, key)) ()).keys = _
    rw [keys_insert_of_forall_lt, h.lru, map_append]
    · rfl
    · rw [h.lru]
      intro index hindex
      obtain ⟨row, hrow, rfl⟩ := mem_map.mp hindex
      exact Prod.Lex.toLex_lt_toLex.mpr (Or.inl (h.recent row hrow))
  expirations index := by
    change index ∈ (state.expirations.insert (toLex (expiresAt, key)) ()).keys ↔ _
    rw [mem_keys_insert, h.expirations]
    simp only [mem_append, mem_singleton, or_and_right, exists_or, exists_eq_left]
    rw [or_comm, eq_comm]
    rfl
  recent row hrow := by
    have hnext : saturatingAdd state.nextAccessOrder 1 = state.nextAccessOrder + 1 := min_eq_left hroom
    change row.2.accessOrder < saturatingAdd state.nextAccessOrder 1
    rw [hnext]
    rcases mem_append.mp hrow with hrow | hrow
    · exact (h.recent row hrow).trans (Nat.lt_succ_self _)
    · rw [mem_singleton.mp hrow]
      exact Nat.lt_succ_self _

theorem Indexed.sum_size (hget : state.entries.get key = some entry) :
    (rows.map CacheRow.size).sum = entrySize key entry.value + ((dropRow key rows).map CacheRow.size).sum := by
  have hperm : rows.Perm ((key, entry) :: dropRow key rows) := by
    have herase : dropRow key rows = rows.erase (key, entry) := by
      rw [h.nodup.erase_eq_filter, dropRow]
      apply filter_congr
      intro row hrow
      rw [Bool.eq_iff_iff, decide_eq_true_eq, bne_iff_ne]
      exact h.ne_key_iff hget hrow
    rw [herase]
    exact perm_cons_erase ((h.entries key entry).mp hget)
  exact (hperm.map CacheRow.size).sum_eq

theorem Indexed.dropRow_eq_self (hget : state.entries.get key = none) : dropRow key rows = rows :=
  filter_eq_self.mpr fun _ hrow => decide_eq_true (h.not_mem hget hrow)

end

section

variable (h : Represents options state rows)
include h

theorem Represents.drop (hget : state.entries.get key = some entry) :
    Represents options ((state.dropEntry key entry).subtractBytes (entrySize key entry.value)) (dropRow key rows) where
  toIndexed := by
    have hdrop := h.dropEntry hget
    exact ⟨hdrop.entries, hdrop.lru, hdrop.expirations, hdrop.recent⟩
  options := h.options
  bytes := by
    change state.bytes - _ = _
    rw [h.bytes, h.sum_size hget]
    omega

theorem Represents.congr {other : CacheState} (hentries : other.entries = state.entries)
    (hlru : other.lru = state.lru) (hexpirations : other.expirations = state.expirations)
    (hnext : other.nextAccessOrder = state.nextAccessOrder) (hbytes : other.bytes = state.bytes)
    (hoptions : other.options = state.options) : Represents options other rows where
  entries := by rw [hentries]; exact h.entries
  lru := by rw [hlru]; exact h.lru
  expirations := by rw [hexpirations]; exact h.expirations
  recent := by rw [hnext]; exact h.recent
  options := by rw [hoptions]; exact h.options
  bytes := by rw [hbytes]; exact h.bytes

theorem Represents.expireKey (key : Bytes) : Represents options (state.expireKey key) (dropRow key rows) := by
  rw [CacheState.expireKey]
  cases hget : state.entries.get key with
  | none =>
    rw [h.dropRow_eq_self hget]
    exact h
  | some entry => exact (h.drop hget).congr rfl rfl rfl rfl rfl rfl

theorem Represents.foldl_expireKey (keys : List Bytes) :
    Represents options (keys.foldl CacheState.expireKey state) (rows.filter fun row => decide (row.1 ∉ keys)) := by
  induction keys generalizing state rows with
  | nil =>
    have hall : (rows.filter fun row => decide (row.1 ∉ ([] : List Bytes))) = rows := by simp
    rw [hall]
    exact h
  | cons key keys ih =>
    have hrest := ih (h.expireKey key)
    rw [dropRow, filter_filter] at hrest
    have hsame : (rows.filter fun row => decide (row.1 ∉ keys) && decide (row.1 ≠ key)) =
        rows.filter fun row => decide (row.1 ∉ key :: keys) := by
      apply filter_congr
      simp [Bool.and_comm]
    rw [← hsame]
    exact hrest

end

theorem Indexed.mem_expiredKeys (h : Indexed state rows) (now : ℕ) (hrow : row ∈ rows) :
    row.1 ∈ state.expiredKeys now ↔ row.2.expiresAt ≤ now := by
  have hsorted : state.expirations.keys.Pairwise fun i j =>
      decide ((ofLex j).1 ≤ now) = true → decide ((ofLex i).1 ≤ now) = true := by
    refine state.expirations.keys_sorted.imp fun {i j} hlt hj => ?_
    have hle : (ofLex i).1 ≤ (ofLex j).1 := by
      rcases Prod.Lex.lt_iff.mp hlt with hfirst | hsecond
      · exact hfirst.le
      · exact hsecond.1.le
    exact decide_eq_true (hle.trans (of_decide_eq_true hj))
  rw [expiredKeys, takeWhile_eq_filter hsorted, mem_map]
  constructor
  · rintro ⟨index, hindex, hkey⟩
    obtain ⟨hmem, hle⟩ := mem_filter.mp hindex
    obtain ⟨other, hother, rfl⟩ := (h.expirations index).mp hmem
    rw [← h.eq_of_key hother hrow hkey]
    exact of_decide_eq_true hle
  · intro hle
    exact ⟨CacheRow.expiry row, mem_filter.mpr ⟨(h.expirations _).mpr ⟨row, hrow, rfl⟩, decide_eq_true hle⟩, rfl⟩

theorem Represents.removeExpired (h : Represents options state rows) (now : ℕ) :
    Represents options (state.removeExpired now) (rows.filter fun row => decide (now < row.2.expiresAt)) := by
  have hfold := h.foldl_expireKey (state.expiredKeys now)
  have hsame : (rows.filter fun row => decide (row.1 ∉ state.expiredKeys now)) =
      rows.filter fun row => decide (now < row.2.expiresAt) := by
    apply filter_congr
    intro row hrow
    rw [decide_eq_decide, h.mem_expiredKeys now hrow, not_le]
  rw [hsame] at hfold
  exact hfold.congr rfl rfl rfl rfl rfl rfl

theorem Represents.dropPrevious (h : Represents options state rows) (key : Bytes) :
    Represents options (state.dropPrevious key) (dropRow key rows) := by
  rw [CacheState.dropPrevious]
  cases hget : state.entries.get key with
  | none =>
    rw [h.dropRow_eq_self hget]
    exact h
  | some entry => exact h.drop hget

theorem nextAccessOrder_dropPrevious (state : CacheState) (key : Bytes) :
    (state.dropPrevious key).nextAccessOrder = state.nextAccessOrder := by
  rw [CacheState.dropPrevious]
  cases state.entries.get key with
  | none => rfl
  | some entry => rfl

theorem ne_of_mem_dropRow (hrow : row ∈ dropRow key rows) : row.1 ≠ key :=
  of_decide_eq_true (mem_filter.mp hrow).2

theorem Represents.store (h : Represents options state rows) (hroom : state.nextAccessOrder < u64Max)
    (hbytes : state.bytes + entrySize key value ≤ u64Max) (expiresAt : ℕ) :
    Represents options (state.store key value expiresAt)
      (dropRow key rows ++ [(key, ⟨value, expiresAt, state.nextAccessOrder⟩)]) := by
  have hprevious := h.dropPrevious key
  have hnext := nextAccessOrder_dropPrevious state key
  have hadd := hprevious.addEntry (fun _ hrow => ne_of_mem_dropRow hrow) (by rw [hnext]; exact hroom) value expiresAt
  rw [hnext] at hadd
  refine ⟨⟨hadd.entries, hadd.lru, hadd.expirations, hadd.recent⟩, hprevious.options, ?_⟩
  have hle : (state.dropPrevious key).bytes ≤ state.bytes := by
    rw [hprevious.bytes, h.bytes]
    exact (filter_sublist.map CacheRow.size).sum_le_sum (fun _ _ => Nat.zero_le _)
  have hsum : saturatingAdd (state.dropPrevious key).bytes (entrySize key value) =
      (state.dropPrevious key).bytes + entrySize key value := min_eq_left (by omega)
  change saturatingAdd (state.dropPrevious key).bytes (entrySize key value) = _
  rw [hsum, hprevious.bytes, map_append, sum_append]
  rfl

def fullRows (options : CacheOptions) (rows : List CacheRow) : Bool :=
  decide (options.maxEntries < rows.length) || decide (options.maxBytes < (rows.map CacheRow.size).sum)

theorem Represents.overBounds (h : Represents options state rows) : state.overBounds = fullRows options rows := by
  rw [CacheState.overBounds, fullRows, h.size_entries, h.options, h.bytes]

theorem dropRow_cons (h : Indexed state (row :: rows)) : dropRow row.1 (row :: rows) = rows := by
  have hnodup := h.keys_nodup
  rw [map_cons, nodup_cons] at hnodup
  rw [dropRow, filter_cons_of_neg (by simp)]
  apply filter_eq_self.mpr
  intro other hother
  refine decide_eq_true fun hkey => hnodup.1 ?_
  rw [← hkey]
  exact mem_map_of_mem hother

theorem Represents.evictOldest (h : Represents options state rows) :
    ∃ evicted, CacheState.evictOldest rows.length state = some evicted ∧
      Represents options evicted (evict (fullRows options) rows) := by
  induction rows generalizing state with
  | nil => exact ⟨state, rfl, h⟩
  | cons row rows ih =>
    rw [length_cons, CacheState.evictOldest, h.overBounds, evict]
    cases hfull : fullRows options (row :: rows) with
    | false =>
      rw [if_neg Bool.false_ne_true]
      exact ⟨state, rfl, h⟩
    | true =>
      rw [if_pos rfl]
      have hhead : state.lru.keys.head? = some (CacheRow.index row) := by
        rw [h.lru]
        rfl
      have hget : state.entries.get row.1 = some row.2 := (h.entries row.1 row.2).mpr mem_cons_self
      have hdrop : Represents options (state.evictKey row.1 row.2) (dropRow row.1 (row :: rows)) :=
        (h.drop hget).congr rfl rfl rfl rfl rfl rfl
      rw [dropRow_cons h.toIndexed] at hdrop
      obtain ⟨evicted, hevicted, hrows⟩ := ih hdrop
      refine ⟨evicted, ?_, hrows⟩
      have hkey : (ofLex (CacheRow.index row)).2 = row.1 := rfl
      simp only [hhead, hkey, hget]
      exact hevicted

theorem Represents.size_lru (h : Represents options state rows) : state.lru.size = rows.length := by
  have hlength := congrArg List.length h.lru
  rw [SortedMap.keys, length_map, length_map] at hlength
  exact hlength

end Rows

end CacheState

inductive CacheCall
  | get (key : Bytes)
  | insertWithTtl (key value : Bytes) (ttl : ℕ)
  | remove (key : Bytes)
  | clear
  | stats

inductive CacheAnswer
  | found (result : Result (Option Bytes))
  | inserted (result : Result Unit)
  | removed (result : Result Bool)
  | cleared
  | reported (stats : CacheStats)

namespace CacheState

def step (now : ℕ) (state : CacheState) : CacheCall → Option (CacheAnswer × CacheState)
  | .get key => some ((state.get now key).map CacheAnswer.found id)
  | .insertWithTtl key value ttl => (state.insertWithTtl now key value ttl).map (Prod.map CacheAnswer.inserted id)
  | .remove key => some ((state.remove key).map CacheAnswer.removed id)
  | .clear => some (.cleared, state.clear)
  | .stats => some ((state.report now).map CacheAnswer.reported id)

end CacheState

namespace CacheOptions

def accepts (options : CacheOptions) (key value : Bytes) : Bool :=
  !key.isEmpty && decide (0 < options.maxEntries) && decide (0 < options.maxBytes) &&
    decide (CacheState.entrySize key value ≤ options.maxBytes)

def full (options : CacheOptions) (kept : List (Kept Bytes Bytes)) : Bool :=
  decide (options.maxEntries < kept.length) ||
    decide (options.maxBytes < (kept.map fun k => CacheState.entrySize k.key k.value).sum)

def keep (options : CacheOptions) (now : ℕ) (kept : List (Kept Bytes Bytes)) : CacheCall → List (Kept Bytes Bytes)
  | .get key => if key.isEmpty then kept else Recency.read now key kept
  | .insertWithTtl key value ttl =>
    if options.accepts key value then Recency.put options.full now ⟨key, value, now + ttl⟩ kept else kept
  | .remove key => if key.isEmpty then kept else Recency.remove now key kept
  | .clear => []
  | .stats => kept

end CacheOptions

def CacheOptions.Answered (options : CacheOptions) (now : ℕ) (kept : List (Kept Bytes Bytes)) (next : CacheState) :
    CacheCall → CacheAnswer → Prop
  | .get key, answer => key ≠ [] → answer = .found (.ok (lookup now key kept))
  | .insertWithTtl key value _, answer =>
    options.accepts key value = true →
      answer = .inserted (.ok ()) ∧ (next.entries.get key).map CacheEntry.value = some value
  | .remove key, answer => key ≠ [] → answer = .removed (.ok (lookup now key kept).isSome)
  | _, _ => True

namespace CacheState

def Agrees (now : ℕ) (state : CacheState) (kept : List (Kept Bytes Bytes)) : Prop :=
  ∀ later key, now ≤ later → key ≠ [] → (state.get later key).1 = .ok (lookup later key kept)

def RunsAs (options : CacheOptions) : List (ℕ × CacheCall) → CacheState → List (Kept Bytes Bytes) → Prop
  | [], _, _ => True
  | (now, call) :: calls, state, kept => ∃ answer next, state.step now call = some (answer, next) ∧
    options.Answered now kept next call answer ∧ Agrees now next (options.keep now kept call) ∧
    RunsAs options calls next (options.keep now kept call)

def along (condition : ℕ → CacheState → CacheCall → Bool) : List (ℕ × CacheCall) → CacheState → Bool
  | [], _ => true
  | (now, call) :: calls, state =>
    condition now state call && (state.step now call).all fun result => along condition calls result.2

/-- The deadline of a stored value can be represented, and no value is removed that is expired but still there. -/
def timely (now : ℕ) (state : CacheState) : CacheCall → Bool
  | .insertWithTtl key value ttl => !state.options.accepts key value || decide (now + ttl ≤ instantMax)
  | .remove key => key.isEmpty || !((state.entries.get key).any fun entry => decide (entry.expiresAt ≤ now))
  | _ => true

def roomy (_ : ℕ) (state : CacheState) : CacheCall → Bool
  | .get _ => decide (state.nextAccessOrder < u64Max)
  | .insertWithTtl key value _ =>
    decide (state.nextAccessOrder < u64Max) && decide (state.bytes + entrySize key value ≤ u64Max)
  | _ => true

end CacheState

end Thingd.ThingDb
