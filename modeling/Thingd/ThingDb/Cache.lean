import Thingd.Data.Recency
import Thingd.ThingDb.Store

namespace Thingd.ThingDb

-- the last `Instant`, in nanoseconds: i64 seconds
def instantMax : ℕ := 2 ^ 63 * 10 ^ 9 - 1

structure CacheOptions where
  maxEntries : ℕ
  maxBytes : ℕ
  deriving DecidableEq

structure CacheStats where
  hits : ℕ
  misses : ℕ
  inserts : ℕ
  removals : ℕ
  expirations : ℕ
  evictions : ℕ
  currentEntries : ℕ
  currentBytes : ℕ
  maxEntries : ℕ
  maxBytes : ℕ
  deriving DecidableEq

structure CacheEntry where
  value : Bytes
  expiresAt : ℕ
  accessOrder : ℕ
  deriving DecidableEq

structure CacheState where
  entries : SortedMap Bytes CacheEntry
  lru : SortedMap (ℕ ×ₗ Bytes) Unit
  expirations : SortedMap (ℕ ×ₗ Bytes) Unit
  nextAccessOrder : ℕ
  bytes : ℕ
  options : CacheOptions
  stats : CacheStats

namespace CacheState

def new (options : CacheOptions) : CacheState :=
  { entries := SortedMap.empty
    lru := SortedMap.empty
    expirations := SortedMap.empty
    nextAccessOrder := 0
    bytes := 0
    options := options
    stats := ⟨0, 0, 0, 0, 0, 0, 0, 0, options.maxEntries, options.maxBytes⟩ }

def validateKey (key : Bytes) : Result Unit :=
  if key.isEmpty then .error "ThingDB cache keys must be non-empty" else .ok ()

def entrySize (key value : Bytes) : ℕ := saturatingAdd key.length value.length

def refreshCurrentStats (state : CacheState) : CacheState :=
  { state with stats := { state.stats with currentEntries := state.entries.size, currentBytes := state.bytes } }

section

variable (state : CacheState) (key : Bytes) (entry : CacheEntry)

def insertIndexes : CacheState :=
  { state with
    lru := state.lru.insert (toLex (entry.accessOrder, key)) ()
    expirations := state.expirations.insert (toLex (entry.expiresAt, key)) () }

def removeIndexes : CacheState :=
  { state with
    lru := state.lru.erase (toLex (entry.accessOrder, key))
    expirations := state.expirations.erase (toLex (entry.expiresAt, key)) }

def dropEntry : CacheState :=
  { state with entries := state.entries.erase key }.removeIndexes key entry

end

section

variable (state : CacheState)

def addEntry (key value : Bytes) (expiresAt : ℕ) : CacheState :=
  let entry : CacheEntry := ⟨value, expiresAt, state.nextAccessOrder⟩
  let indexed := { state with nextAccessOrder := saturatingAdd state.nextAccessOrder 1 }.insertIndexes key entry
  { indexed with entries := indexed.entries.insert key entry }

def subtractBytes (size : ℕ) : CacheState := { state with bytes := state.bytes - size }

def expireKey (key : Bytes) : CacheState :=
  match state.entries.get key with
  | some entry =>
    let dropped := (state.dropEntry key entry).subtractBytes (entrySize key entry.value)
    { dropped with stats := { dropped.stats with expirations := saturatingAdd dropped.stats.expirations 1 } }
  | none => state

def expiredKeys (now : ℕ) : List Bytes :=
  (state.expirations.keys.takeWhile fun index => decide ((ofLex index).1 ≤ now)).map fun index => (ofLex index).2

def removeExpired (now : ℕ) : CacheState :=
  ((state.expiredKeys now).foldl expireKey state).refreshCurrentStats

end

def get (state : CacheState) (now : ℕ) (key : Bytes) : Result (Option Bytes) × CacheState :=
  match validateKey key with
  | .error message => (.error message, state)
  | .ok () =>
    match state.entries.get key with
    | none => (.ok none, { state with stats := { state.stats with misses := saturatingAdd state.stats.misses 1 } })
    | some entry =>
      let dropped := state.dropEntry key entry
      if entry.expiresAt ≤ now then
        let expired := dropped.subtractBytes (entrySize key entry.value)
        let counted := { expired with stats := { expired.stats with
          expirations := saturatingAdd expired.stats.expirations 1
          misses := saturatingAdd expired.stats.misses 1 } }
        (.ok none, counted.refreshCurrentStats)
      else
        let renewed := dropped.addEntry key entry.value entry.expiresAt
        (.ok (some entry.value),
          { renewed with stats := { renewed.stats with hits := saturatingAdd renewed.stats.hits 1 } })

def overBounds (state : CacheState) : Bool :=
  decide (state.options.maxEntries < state.entries.size) || decide (state.options.maxBytes < state.bytes)

def evictKey (state : CacheState) (key : Bytes) (entry : CacheEntry) : CacheState :=
  let dropped := (state.dropEntry key entry).subtractBytes (entrySize key entry.value)
  { dropped with stats := { dropped.stats with evictions := saturatingAdd dropped.stats.evictions 1 } }

/-- The eviction loop, for at most the given number of rounds; `none` is the panic of `state.entries[&oldest]`. -/
def evictOldest : ℕ → CacheState → Option CacheState
  | 0, state => some state
  | rounds + 1, state =>
    if state.overBounds then
      match state.lru.keys.head? with
      | none => some state
      | some index =>
        match state.entries.get (ofLex index).2 with
        | none => none
        | some entry => evictOldest rounds (state.evictKey (ofLex index).2 entry)
    else some state

def expiresAt (now ttl : ℕ) : ℕ := if now + ttl ≤ instantMax then now + ttl else now

section

variable (state : CacheState)

def dropPrevious (key : Bytes) : CacheState :=
  match state.entries.get key with
  | some previous => (state.dropEntry key previous).subtractBytes (entrySize key previous.value)
  | none => state

def store (key value : Bytes) (expiresAt : ℕ) : CacheState :=
  let added := (state.dropPrevious key).addEntry key value expiresAt
  { added with
    bytes := saturatingAdd added.bytes (entrySize key value)
    stats := { added.stats with inserts := saturatingAdd added.stats.inserts 1 } }

def insertWithTtl (now : ℕ) (key value : Bytes) (ttl : ℕ) : Option (Result Unit × CacheState) :=
  match validateKey key with
  | .error message => some (.error message, state)
  | .ok () =>
    if state.options.maxBytes < saturatingAdd key.length value.length ∧ state.options.maxBytes ≠ 0 then
      some (.error "ThingDB cache value exceeds max_bytes", state)
    else
      let swept := state.removeExpired now
      if swept.options.maxEntries = 0 ∨ swept.options.maxBytes = 0 then some (.ok (), swept)
      else
        let stored := swept.store key value (expiresAt now ttl)
        (evictOldest stored.lru.size stored).map fun evicted => (.ok (), evicted.refreshCurrentStats)

def remove (key : Bytes) : Result Bool × CacheState :=
  match validateKey key with
  | .error message => (.error message, state)
  | .ok () =>
    match state.entries.get key with
    | none => (.ok false, state)
    | some entry =>
      let dropped := (state.dropEntry key entry).subtractBytes (entrySize key entry.value)
      let counted := { dropped with stats := { dropped.stats with removals := saturatingAdd dropped.stats.removals 1 } }
      (.ok true, counted.refreshCurrentStats)

def clear : CacheState :=
  { state with
    entries := SortedMap.empty
    lru := SortedMap.empty
    expirations := SortedMap.empty
    bytes := 0 }.refreshCurrentStats

-- sweeping refreshes the statistics, and the source does so once more
def report (now : ℕ) : CacheStats × CacheState :=
  let swept := (state.removeExpired now).refreshCurrentStats
  (swept.stats, swept)

end

end CacheState

end Thingd.ThingDb
