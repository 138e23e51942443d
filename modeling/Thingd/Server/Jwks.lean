import Thingd.Data.SortedMap
import Thingd.Data.Trace
import Thingd.Data.Bytes

namespace Thingd.Server

open Trace

structure Jwk where
  kid : Bytes
  kty : Bytes
  n : Option Bytes
  e : Option Bytes

/-- `fromRsaComponents` decodes a public key; times are in milliseconds. -/
structure AuthVerifier (Key : Type) where
  cacheTtl : ℕ
  fromRsaComponents : Bytes → Bytes → Option Key

variable {Key : Type} (verifier : AuthVerifier Key) (served : ℕ → List Jwk)

namespace AuthVerifier

-- "RSA"
def rsa : Bytes := [82, 83, 65]

def addKey (keys : SortedMap Bytes Key) (jwk : Jwk) : Option (SortedMap Bytes Key) :=
  match jwk.n, jwk.e with
  | some n, some e =>
    if jwk.kty ≠ rsa then some keys else (verifier.fromRsaComponents n e).map fun key => keys.insert jwk.kid key
  | _, _ => some keys

/-- What `fetch_keys` makes of a response; a set without a usable key is an error. -/
def readKeys (body : List Jwk) : Option (SortedMap Bytes Key) :=
  (body.foldlM verifier.addKey SortedMap.empty).filter fun keys => !keys.isEmpty

def keyIn (body : List Jwk) (kid : Bytes) : Option Key := (verifier.readKeys body).bind fun keys => keys.get kid

end AuthVerifier

structure KeyCache (Key : Type) where
  fetchedAt : Option ℕ
  keys : SortedMap Bytes Key

/-- Where a call of `key_for` is: each phase ends with one read or write of the cache, or with the response to a fetch.
The flag is set in the fetch for a key that the cache did not have. A response has the time at which it was served, and
a call that is about to read its key has the time at which it last looked at the cache. -/
inductive Phase (Key : Type)
  | readFresh
  | readHasKey
  | fetch (again : Bool)
  | store (again : Bool) (servedAt : ℕ) (body : List Jwk) (keys : SortedMap Bytes Key)
  | readKey (again : Bool) (since : ℕ)
  | done (key : Option Key)

/-- The verifier with the calls it is serving; `fetches` are the key sets it has stored, the latest one first. -/
structure Verifying (Key : Type) where
  now : ℕ
  cache : KeyCache Key
  calls : ℕ → Option (Bytes × Phase Key)
  fetches : List (ℕ × List Jwk)

namespace Verifying

def start (Key : Type) : Verifying Key := ⟨0, ⟨none, SortedMap.empty⟩, fun _ => none, []⟩

/-- A call begins, time passes, or a call goes on; `reachable` says whether its fetch gets a response. -/
inductive Event
  | tick (elapsed : ℕ)
  | call (id : ℕ) (kid : Bytes)
  | advance (id : ℕ) (reachable : Bool)

section

variable (s : Verifying Key)

def goTo (id : ℕ) (kid : Bytes) (phase : Phase Key) : Verifying Key :=
  { s with calls := Function.update s.calls id (some (kid, phase)) }

def fresh : Bool := s.cache.fetchedAt.any fun fetched => s.now - fetched < verifier.cacheTtl

def hasKey (kid : Bytes) : Bool := (s.cache.keys.get kid).isSome

def advance (id : ℕ) (reachable : Bool) (kid : Bytes) : Phase Key → Verifying Key
  | .readFresh => s.goTo id kid (if s.fresh verifier then .readKey false s.now else .readHasKey)
  | .readHasKey => s.goTo id kid (if s.hasKey kid then .readKey false s.now else .fetch false)
  | .fetch again =>
    match verifier.readKeys (served s.now) with
    | some keys => s.goTo id kid (if reachable then .store again s.now (served s.now) keys else .done none)
    | none => s.goTo id kid (.done none)
  | .store again servedAt body keys =>
    { s.goTo id kid (.readKey again s.now) with cache := ⟨some s.now, keys⟩, fetches := (servedAt, body) :: s.fetches }
  | .readKey again _ =>
    match s.cache.keys.get kid with
    | some key => s.goTo id kid (.done (some key))
    | none => s.goTo id kid (if again then .done none else .fetch true)
  | .done key => s.goTo id kid (.done key)

def step : Event → Verifying Key
  | .tick elapsed => { s with now := s.now + elapsed }
  | .call id kid => if (s.calls id).isSome then s else s.goTo id kid .readFresh
  | .advance id reachable =>
    match s.calls id with
    | none => s
    | some (kid, phase) => s.advance verifier served id reachable kid phase

/-- The key id and the key with which the event ends a call. -/
def returns : Event → Option (Bytes × Key)
  | .advance id _ =>
    match s.calls id with
    | some (kid, .readKey _ _) => (s.cache.keys.get kid).map fun key => (kid, key)
    | _ => none
  | _ => none

end

/-- A key set that the endpoint served within the last `window` has the returned key. -/
def ReturnsServedKey (window : ℕ) (s : Verifying Key) (event : Event) : Prop :=
  ∀ kid key, s.returns event = some (kid, key) →
    ∃ t ≤ s.now, s.now ≤ t + window ∧ verifier.keyIn (served t) kid = some key

def ReturnsLatestKey (s : Verifying Key) (event : Event) : Prop :=
  ∀ kid key, s.returns event = some (kid, key) →
    ∃ fetch, s.fetches.head? = some fetch ∧ served fetch.1 = fetch.2 ∧ verifier.keyIn fetch.2 kid = some key

/-- A call that looks for its key in an expired cache does not find it there, a response is stored within `delay` of
being served, and a key is read within `delay` of the call's look at the cache. -/
def Timely (delay : ℕ) (s : Verifying Key) : Event → Prop
  | .advance id _ =>
    match s.calls id with
    | some (kid, .readHasKey) => s.hasKey kid = true → s.fresh verifier = true
    | some (_, .store _ servedAt _ _) => s.now ≤ servedAt + delay
    | some (_, .readKey _ since) => s.now ≤ since + delay
    | _ => True
  | _ => True

structure Sound (s : Verifying Key) : Prop where
  cache : ∀ kid key, s.cache.keys.get kid = some key →
    ∃ fetch, s.fetches.head? = some fetch ∧ verifier.keyIn fetch.2 kid = some key
  fetches : ∀ fetch ∈ s.fetches, served fetch.1 = fetch.2 ∧ fetch.1 ≤ s.now
  stores : ∀ id kid again servedAt body keys, s.calls id = some (kid, .store again servedAt body keys) →
    served servedAt = body ∧ servedAt ≤ s.now ∧ verifier.readKeys body = some keys

/-- The cached set is `delay` older than the cache says at most, and it was not older than the window when a call that
is about to read its key looked at the cache. -/
structure Recent (delay : ℕ) (s : Verifying Key) : Prop where
  cache : ∀ fetch ∈ s.fetches.head?, ∀ fetched ∈ s.cache.fetchedAt, fetched ≤ fetch.1 + delay
  reads : ∀ id kid again since, s.calls id = some (kid, .readKey again since) →
    since ≤ s.now ∧ ∀ fetch ∈ s.fetches.head?, since ≤ fetch.1 + delay + verifier.cacheTtl

variable {verifier served} {s : Verifying Key} {id : ℕ} {kid : Bytes} {phase : Phase Key} {event : Event}

theorem calls_goTo {other : ℕ} {otherKid : Bytes} {otherPhase : Phase Key}
    (h : (s.goTo id kid phase).calls other = some (otherKid, otherPhase)) :
    phase = otherPhase ∨ s.calls other = some (otherKid, otherPhase) := by
  simp only [goTo, Function.update_apply] at h
  split_ifs at h
  · rw [Option.some.injEq, Prod.mk.injEq] at h
    exact Or.inl h.2
  · exact Or.inr h

theorem Sound.goTo (h : s.Sound verifier served) (id : ℕ) (kid : Bytes)
    (hphase : ∀ again servedAt body keys, phase = .store again servedAt body keys →
      served servedAt = body ∧ servedAt ≤ s.now ∧ verifier.readKeys body = some keys) :
    (s.goTo id kid phase).Sound verifier served := by
  refine { h with stores := ?_ }
  intro other otherKid again servedAt body keys hcall
  rcases calls_goTo hcall with hsame | hcall
  · exact hphase again servedAt body keys hsame
  · exact h.stores other otherKid again servedAt body keys hcall

theorem Sound.advance (h : s.Sound verifier served) (hcall : s.calls id = some (kid, phase)) (reachable : Bool) :
    (s.advance verifier served id reachable kid phase).Sound verifier served := by
  cases phase with
  | readFresh =>
    rw [Verifying.advance]
    split_ifs <;> exact h.goTo id kid nofun
  | readHasKey =>
    rw [Verifying.advance]
    split_ifs <;> exact h.goTo id kid nofun
  | fetch again =>
    rw [Verifying.advance]
    cases hkeys : verifier.readKeys (served s.now) with
    | none => exact h.goTo id kid nofun
    | some keys =>
      apply h.goTo id kid
      intro again servedAt body stored hphase
      split_ifs at hphase
      · obtain ⟨-, rfl, rfl, rfl⟩ := Phase.store.inj hphase
        exact ⟨rfl, le_rfl, hkeys⟩
  | store again servedAt body keys =>
    obtain ⟨hserved, htime, hkeys⟩ := h.stores id kid again servedAt body keys hcall
    have hgo : (s.goTo id kid (.readKey again s.now)).Sound verifier served := h.goTo id kid nofun
    refine { hgo with cache := fun kid key hget => ⟨_, rfl, ?_⟩, fetches := ?_ }
    · rw [AuthVerifier.keyIn, hkeys]
      exact hget
    · exact List.forall_mem_cons.mpr ⟨⟨hserved, htime⟩, h.fetches⟩
  | readKey again since =>
    rw [Verifying.advance]
    cases s.cache.keys.get kid with
    | some key => exact h.goTo id kid nofun
    | none => cases again <;> exact h.goTo id kid nofun
  | done key => exact h.goTo id kid nofun

theorem Sound.step (h : s.Sound verifier served) (event : Event) :
    (s.step verifier served event).Sound verifier served := by
  cases event with
  | tick elapsed =>
    have hlater {t : ℕ} (ht : t ≤ s.now) : t ≤ s.now + elapsed := ht.trans (Nat.le_add_right _ _)
    exact { h with
      fetches := fun fetch hfetch => (h.fetches fetch hfetch).imp_right hlater
      stores := fun id kid again servedAt body keys hcall =>
        (h.stores id kid again servedAt body keys hcall).imp_right (And.imp_left hlater) }
  | call id kid =>
    simp only [Verifying.step]
    split_ifs
    · exact h
    · exact h.goTo id kid nofun
  | advance id reachable =>
    simp only [Verifying.step]
    cases hcall : s.calls id with
    | none => exact h
    | some call => exact h.advance hcall reachable

variable {delay : ℕ}

section

variable (h : s.Recent verifier delay)
include h

theorem Recent.goTo (id : ℕ) (kid : Bytes)
    (hphase : ∀ again since, phase = .readKey again since →
      since ≤ s.now ∧ ∀ fetch ∈ s.fetches.head?, since ≤ fetch.1 + delay + verifier.cacheTtl) :
    (s.goTo id kid phase).Recent verifier delay := by
  refine { h with reads := ?_ }
  intro other otherKid again since hcall
  rcases calls_goTo hcall with hsame | hcall
  · exact hphase again since hsame
  · exact h.reads other otherKid again since hcall

-- the age that `key_for` looks at is counted from the store, the window from the response
theorem Recent.of_fresh (hfresh : s.fresh verifier = true) :
    ∀ fetch ∈ s.fetches.head?, s.now ≤ fetch.1 + delay + verifier.cacheTtl := by
  intro fetch hfetch
  obtain ⟨fetched, hfetched, hage⟩ := (Option.any_eq_true _ _).mp hfresh
  have hstored := h.cache fetch hfetch fetched hfetched
  have hage : s.now - fetched < verifier.cacheTtl := of_decide_eq_true hage
  omega

theorem Recent.advance (hcall : s.calls id = some (kid, phase)) (reachable : Bool)
    (htimely : s.Timely verifier delay (.advance id reachable)) :
    (s.advance verifier served id reachable kid phase).Recent verifier delay := by
  simp only [Timely, hcall] at htimely
  have hlook (hfresh : s.fresh verifier = true) : (s.goTo id kid (.readKey false s.now)).Recent verifier delay := by
    apply h.goTo id kid
    rintro again since ⟨⟩
    exact ⟨le_rfl, h.of_fresh hfresh⟩
  cases phase with
  | readFresh =>
    rw [Verifying.advance]
    split_ifs with hfresh
    · exact hlook hfresh
    · exact h.goTo id kid nofun
  | readHasKey =>
    rw [Verifying.advance]
    split_ifs with hkey
    · exact hlook (htimely hkey)
    · exact h.goTo id kid nofun
  | fetch again =>
    rw [Verifying.advance]
    cases verifier.readKeys (served s.now) with
    | none => exact h.goTo id kid nofun
    | some keys => cases reachable <;> exact h.goTo id kid nofun
  | store again servedAt body keys =>
    refine ⟨?_, fun other otherKid again' since hother => ?_⟩
    · rintro fetch ⟨⟩ fetched ⟨⟩
      exact htimely
    · -- every call that reads from now on finds the set stored here
      have hsince : since ≤ s.now := by
        rcases calls_goTo hother with hsame | hother
        · cases hsame
          exact le_rfl
        · exact (h.reads other otherKid again' since hother).1
      refine ⟨hsince, ?_⟩
      rintro fetch ⟨⟩
      exact (hsince.trans htimely).trans (Nat.le_add_right _ _)
  | readKey again since =>
    rw [Verifying.advance]
    cases s.cache.keys.get kid with
    | some key => exact h.goTo id kid nofun
    | none => cases again <;> exact h.goTo id kid nofun
  | done key => exact h.goTo id kid nofun

theorem Recent.step (htimely : s.Timely verifier delay event) :
    (s.step verifier served event).Recent verifier delay := by
  cases event with
  | tick elapsed =>
    exact { h with
      reads := fun id kid again since hcall =>
        (h.reads id kid again since hcall).imp_left (·.trans (Nat.le_add_right _ _)) }
  | call id kid =>
    simp only [Verifying.step]
    split_ifs
    · exact h
    · exact h.goTo id kid nofun
  | advance id reachable =>
    simp only [Verifying.step]
    cases hcall : s.calls id with
    | none => exact h
    | some call => exact h.advance hcall reachable htimely

end

theorem returns_eq_some {key : Key} (h : s.returns event = some (kid, key)) :
    ∃ id reachable again since, event = .advance id reachable ∧ s.calls id = some (kid, .readKey again since) ∧
      s.cache.keys.get kid = some key := by
  cases event with
  | tick elapsed => cases h
  | call id kid => cases h
  | advance id reachable =>
    simp only [returns] at h
    split at h
    · next again since hcall =>
      obtain ⟨found, hfound, hpair⟩ := Option.map_eq_some_iff.mp h
      obtain ⟨rfl, rfl⟩ := Prod.mk.inj hpair
      exact ⟨id, reachable, again, since, rfl, hcall, hfound⟩
    · cases h

theorem Sound.returnsLatestKey (h : s.Sound verifier served) (event : Event) :
    s.ReturnsLatestKey verifier served event := by
  intro kid key hreturns
  obtain ⟨-, -, -, -, -, -, hget⟩ := returns_eq_some hreturns
  obtain ⟨fetch, hhead, hkey⟩ := h.cache kid key hget
  exact ⟨fetch, hhead, (h.fetches fetch (List.mem_of_mem_head? hhead)).1, hkey⟩

theorem Sound.returnsServedKey (h : s.Sound verifier served) (hrecent : s.Recent verifier delay)
    (htimely : s.Timely verifier delay event) :
    s.ReturnsServedKey verifier served (verifier.cacheTtl + 2 * delay) event := by
  intro kid key hreturns
  obtain ⟨fetch, hhead, hserved, hkey⟩ := h.returnsLatestKey event kid key hreturns
  obtain ⟨id, reachable, again, since, rfl, hcall, -⟩ := returns_eq_some hreturns
  simp only [Timely, hcall] at htimely
  have hlooked := (hrecent.reads id kid again since hcall).2 fetch hhead
  refine ⟨fetch.1, (h.fetches fetch (List.mem_of_mem_head? hhead)).2, by omega, ?_⟩
  rw [hserved]
  exact hkey

theorem sound_start : (start Key).Sound verifier served where
  cache := fun _ _ h => (Option.some_ne_none _ h.symm).elim
  fetches := List.forall_mem_nil _
  stores := fun _ _ _ _ _ _ h => (Option.some_ne_none _ h.symm).elim

theorem recent_start : (start Key).Recent verifier delay where
  cache := nofun
  reads := fun _ _ _ _ h => (Option.some_ne_none _ h.symm).elim

/-- Over all interleavings of calls and responses every key comes from the latest set that was fetched; and as long as
no call finds its key in an expired cache, that set was served within the last `cache_ttl` and the delays of the
calls. -/
theorem revoked_keys_stop (verifier : AuthVerifier Key) (served : ℕ → List Jwk) (events : List Event) :
    EveryStep (step verifier served) (ReturnsLatestKey verifier served) (start Key) events ∧
      ∀ delay, EveryStep (step verifier served) (Timely verifier delay) (start Key) events →
        EveryStep (step verifier served) (ReturnsServedKey verifier served (verifier.cacheTtl + 2 * delay))
          (start Key) events := by
  constructor
  · refine (everyStep_true _ _).imp_of_kept (q := Sound verifier served) ?_ ?_ sound_start
    · exact fun s event h _ => h.step event
    · exact fun s event h _ => h.returnsLatestKey event
  · intro delay htimely
    refine htimely.imp_of_kept (q := fun s => s.Sound verifier served ∧ s.Recent verifier delay) ?_ ?_
      ⟨sound_start, recent_start⟩
    · exact fun s event h hevent => ⟨h.1.step event, h.2.step hevent⟩
    · exact fun s event h hevent => h.1.returnsServedKey h.2 hevent

/-- One key until time 10, and another one from then on. -/
def rotated (t : ℕ) : List Jwk := [⟨if t < 10 then [1] else [2], AuthVerifier.rsa, some [], some []⟩]

def sampleVerifier : AuthVerifier Unit := ⟨10, fun _ _ => some ()⟩

/-- A call that fetches, a call that is served from the cache, and after the rotation a call for the new key. -/
def sampleCalls : List Event :=
  [.call 0 [1], .advance 0 true, .advance 0 true, .advance 0 true, .advance 0 true, .advance 0 true, .tick 5,
    .call 1 [1], .advance 1 true, .advance 1 true, .tick 20,
    .call 2 [2], .advance 2 true, .advance 2 true, .advance 2 true, .advance 2 true, .advance 2 true]

theorem rotated_keys_are_recent :
    EveryStep (step sampleVerifier rotated) (Timely sampleVerifier 0) (start Unit) sampleCalls ∧
      EveryStep (step sampleVerifier rotated) (ReturnsServedKey sampleVerifier rotated 10) (start Unit)
        sampleCalls := by
  have htimely : EveryStep (step sampleVerifier rotated) (Timely sampleVerifier 0) (start Unit) sampleCalls := by
    refine ⟨trivial, trivial, ?_, trivial, ?_, ?_, trivial, trivial, trivial, ?_, trivial, trivial, trivial, ?_,
      trivial, ?_, ?_, trivial⟩
    · exact fun h => absurd h (by decide +kernel)
    · exact Nat.le_refl 0
    · exact Nat.le_refl 0
    · exact Nat.le_refl 5
    · exact fun h => absurd h (by decide +kernel)
    · exact Nat.le_refl 25
    · exact Nat.le_refl 25
  exact ⟨htimely, (revoked_keys_stop sampleVerifier rotated sampleCalls).2 0 htimely⟩

/-- The cache has expired, but as it still has the key, nothing is fetched. -/
theorem revoked_key_is_still_returned :
    ¬ EveryStep (step sampleVerifier rotated) (ReturnsServedKey sampleVerifier rotated 10) (start Unit)
      [.call 0 [1], .advance 0 true, .advance 0 true, .advance 0 true, .advance 0 true, .advance 0 true, .tick 100,
        .call 1 [1], .advance 1 true, .advance 1 true, .advance 1 true] := by
  rintro ⟨-, -, -, -, -, -, -, -, -, -, h, -⟩
  obtain ⟨t, -, hrecent, hkey⟩ := h [1] () rfl
  change 100 ≤ t + 10 at hrecent
  have hrotated : rotated t = [⟨[2], AuthVerifier.rsa, some [], some []⟩] := by
    rw [rotated, if_neg (by omega)]
  rw [hrotated] at hkey
  exact absurd hkey (by decide +kernel)

end Verifying

end Thingd.Server
