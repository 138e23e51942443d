import Thingd.ThingDb.Interference

namespace Thingd.ThingDb

open Bytes Writes

structure Round where
  before : List Interference
  between : List Interference
  emptied : Bool

inductive FirstOutcome
  | ok (entries : List Entry)
  | error (message : String)
  | panicked
  | running
  deriving DecidableEq

def interferences (rounds : List Round) : List Interference := rounds.flatMap fun round => round.before ++ round.between

section Lookup

variable (ns : Bytes) (bounds : ScanBounds)

def iterDurableFirstRounds (db : Database) : List Round → Option Bytes → ℕ → FirstOutcome
  | [], _, _ => .running
  | round :: rounds, after, retries =>
    let snapshot := db.evolve round.before
    let lower := bounds.lower ns
    let upper := bounds.upper ns
    let rooted := round.emptied || !snapshot.inner.state.isEmpty || !snapshot.inner.pendingTable.isEmpty
    if rooted && invalidRange lower upper (after.filter fun key => lower ≤ key) then .panicked
    else
      match durableFirstNext snapshot.inner lower upper after with
      | none => .ok []
      | some ((key, value), _) =>
        let validated := snapshot.evolve round.between
        if validated.inner.stateGeneration ≠ snapshot.inner.stateGeneration then
          if 8 ≤ retries + 1 then .error "ThingDB durable scan changed during point lookup"
          else iterDurableFirstRounds validated rounds after (retries + 1)
        else
          match value with
          | none => iterDurableFirstRounds validated rounds (some key) retries
          | some value =>
            match key.dropPrefix? ns with
            | none => .ok []
            | some user => .ok [(user, value)]

def Revives (after : Option Bytes) : Interference → Prop
  | .commit requests => ∃ cursor user value, after = some cursor ∧ ns ++ user ≤ cursor ∧ bounds.Admits user ∧
      lastWrite (CommitRequest.writes requests) (ns ++ user) = some (some value)
  | _ => False

def nextCursor (snapshot validated : Inner) (after : Option Bytes) : Option Bytes :=
  if validated.stateGeneration ≠ snapshot.stateGeneration then after
  else (durableFirstNext snapshot (bounds.lower ns) (bounds.upper ns) after).elim after fun found => some found.1.1

def Ahead (db : Database) : List Round → Option Bytes → Prop
  | [], _ => True
  | round :: rounds, after =>
    let snapshot := db.evolve round.before
    let validated := snapshot.evolve round.between
    (∀ action ∈ round.before ++ round.between, ¬ Revives ns bounds after action) ∧
      Ahead validated rounds (nextCursor ns bounds snapshot.inner validated.inner after)

def Passed (inner : Inner) (after : Option Bytes) : Prop :=
  ∀ cursor user, after = some cursor → ns ++ user ≤ cursor → bounds.Admits user →
    inner.getDurableValue (ns ++ user) = none

def Narrows (after : Option Bytes) : Prop :=
  ∀ key, inRange (bounds.lower ns) (bounds.upper ns) (after.filter fun key => bounds.lower ns ≤ key) key = true →
    inRange (bounds.lower ns) (bounds.upper ns) (bounds.cursorAfter ns) key = true

end Lookup

namespace Database

def firstPrefixAfter (db : Database) (keyspace : Keyspace) (keyPrefix : Bytes) (after : Option Bytes)
    (rounds : List Round) : FirstOutcome :=
  let bounds := prefixBounds keyPrefix after
  iterDurableFirstRounds keyspace.namespace bounds db rounds (bounds.after keyspace.namespace) 0

end Database

section Passed

variable {ns : Bytes} {bounds : ScanBounds} {db : Database} {after : Option Bytes}

theorem Passed.evolve (h : Passed ns bounds db.inner after) {actions : List Interference}
    (hquiet : ∀ action ∈ actions, ¬ Revives ns bounds after action) :
    Passed ns bounds (db.evolve actions).inner after := by
  induction actions generalizing db with
  | nil => exact h
  | cons action actions ih =>
    have hstep : Passed ns bounds (db.interfere action).inner after := by
      intro cursor user hcursor hle hadmits
      apply Database.interfere_dead (h cursor user hcursor hle hadmits)
      rintro requests value rfl hwrite
      exact hquiet _ List.mem_cons_self ⟨cursor, user, value, hcursor, hle, hadmits, hwrite⟩
    exact ih hstep fun other hother => hquiet other (List.mem_cons_of_mem _ hother)

theorem passed_start (inner : Inner) : Passed ns bounds inner (bounds.after ns) := by
  intro cursor user hcursor hle hadmits
  obtain ⟨⟨start, inclusive⟩, hstart, hafter⟩ := Option.bind_eq_some_iff.mp hcursor
  cases inclusive with
  | true => cases hafter
  | false =>
    cases hafter
    have hlt : start < user := by simpa using hadmits.2.1 start false hstart
    exact absurd (append_left_le_iff.mp hle) (not_le_of_gt hlt)

theorem Candidates.from_lower {inner : Inner} {lower : Bytes} {upper : Option Bytes} {key : Bytes} {keys : List Bytes}
    (h : Candidates inner lower upper (after.filter fun key => lower ≤ key) (key :: keys)) : lower ≤ key := by
  obtain ⟨hrange, -⟩ := inRange_iff.mp ((h.mem key).mp List.mem_cons_self).1
  cases hafter : after.filter fun key => decide (lower ≤ key) with
  | none => rwa [hafter] at hrange
  | some cursor =>
    rw [hafter] at hrange
    exact (of_decide_eq_true (Option.filter_eq_some_iff.mp hafter).2).trans (le_of_lt hrange)

variable {inner : Inner} {key : Bytes} {keys : List Bytes}

section

variable (hpassed : Passed ns bounds inner after)
include hpassed

variable {user value : Bytes}

theorem Passed.mem_candidates
    (h : Candidates inner (bounds.lower ns) (bounds.upper ns) (after.filter fun key => bounds.lower ns ≤ key) keys)
    (hvisible : (user, value) ∈ inner.visible ns bounds) : ns ++ user ∈ keys := by
  obtain ⟨hvalue, hadmits⟩ := mem_visible.mp hvisible
  have huser : bounds.userKey ns (ns ++ user) = some user := ScanBounds.userKey_iff_admits.mpr ⟨rfl, hadmits⟩
  obtain ⟨hfrom, hupper⟩ := inRange_iff.mp (ScanBounds.inRange_of_userKey huser)
  apply (h.mem _).mpr
  refine ⟨inRange_iff.mpr ⟨?_, hupper⟩, Inner.holds_of_getDurableValue hvalue⟩
  cases hcursor : after.filter fun key => decide (bounds.lower ns ≤ key) with
  | none =>
    -- without a cursor in the range the scan starts at its lower bound
    cases hstart : bounds.cursorAfter ns with
    | none => rwa [hstart] at hfrom
    | some start =>
      rw [hstart] at hfrom
      exact (of_decide_eq_true (Option.filter_eq_some_iff.mp hstart).2).trans (le_of_lt hfrom)
  | some cursor =>
    obtain ⟨hafter, -⟩ := Option.filter_eq_some_iff.mp hcursor
    by_contra hle
    rw [hpassed cursor user hafter (not_lt.mp hle) hadmits] at hvalue
    cases hvalue

theorem Passed.visible_nil
    (h : Candidates inner (bounds.lower ns) (bounds.upper ns) (after.filter fun key => bounds.lower ns ≤ key) []) :
    inner.visible ns bounds = [] := by
  apply List.eq_nil_iff_forall_not_mem.mpr
  rintro ⟨user, value⟩ hvisible
  cases hpassed.mem_candidates h hvisible

theorem Passed.visible_first
    (h : Candidates inner (bounds.lower ns) (bounds.upper ns) (after.filter fun key => bounds.lower ns ≤ key)
      ((ns ++ user) :: keys))
    (hadmits : bounds.Admits user) (hvalue : inner.getDurableValue (ns ++ user) = some value) :
    (inner.visible ns bounds).take 1 = [(user, value)] := by
  have hmem : (user, value) ∈ inner.visible ns bounds := mem_visible.mpr ⟨hvalue, hadmits⟩
  have hsorted := visible_sorted inner ns bounds
  cases hentries : inner.visible ns bounds with
  | nil =>
    rw [hentries] at hmem
    cases hmem
  | cons first rest =>
    have hfirst : first ∈ inner.visible ns bounds := by
      rw [hentries]
      exact List.mem_cons_self
    have hle : user ≤ first.1 := by
      rcases List.mem_cons.mp (hpassed.mem_candidates h hfirst) with heq | hrest
      · exact (List.append_cancel_left heq).ge
      · exact (append_left_lt_iff.mp ((List.pairwise_cons.mp h.sorted).1 _ hrest)).le
    rw [hentries] at hmem hsorted
    rcases List.mem_cons.mp hmem with heq | hrest
    · rw [heq]
      rfl
    · exact absurd ((List.pairwise_cons.mp hsorted).1 _ hrest) (not_lt_of_ge hle)

theorem Passed.extend
    (h : Candidates inner (bounds.lower ns) (bounds.upper ns) (after.filter fun key => bounds.lower ns ≤ key)
      (key :: keys))
    (hdead : inner.getDurableValue key = none) : Passed ns bounds inner (some key) := by
  rintro cursor user hcursor hle hadmits
  cases hcursor
  by_contra hlive
  obtain ⟨value, hvalue⟩ := Option.ne_none_iff_exists'.mp hlive
  rcases List.mem_cons.mp (hpassed.mem_candidates h (mem_visible.mpr ⟨hvalue, hadmits⟩)) with heq | hrest
  · rw [heq, hdead] at hvalue
    cases hvalue
  · exact absurd ((List.pairwise_cons.mp h.sorted).1 _ hrest) (not_lt_of_ge hle)

end

theorem narrows_start : Narrows ns bounds (bounds.after ns) := fun _ h => h

theorem Narrows.extend (hnarrows : Narrows ns bounds after)
    (h : Candidates inner (bounds.lower ns) (bounds.upper ns) (after.filter fun key => bounds.lower ns ≤ key)
      (key :: keys)) :
    Narrows ns bounds (some key) := by
  intro other hother
  have hcursor : (some key).filter (fun key => decide (bounds.lower ns ≤ key)) = some key :=
    Option.filter_eq_some_iff.mpr ⟨rfl, decide_eq_true h.from_lower⟩
  rw [hcursor] at hother
  obtain ⟨hlt, hupper⟩ := inRange_iff.mp hother
  have hrange := hnarrows key ((h.mem key).mp List.mem_cons_self).1
  apply inRange_iff.mpr
  refine ⟨?_, hupper⟩
  have hfrom := (inRange_iff.mp hrange).1
  cases hstart : bounds.cursorAfter ns with
  | none =>
    rw [hstart] at hfrom
    exact le_of_lt (lt_of_le_of_lt hfrom hlt)
  | some start =>
    rw [hstart] at hfrom
    exact lt_trans hfrom hlt

end Passed

section Atomic

variable {ns : Bytes} {bounds : ScanBounds}

theorem Passed.sameData {inner other : Inner} {after : Option Bytes} (h : Passed ns bounds inner after)
    (hdata : SameData inner other) : Passed ns bounds other after := by
  intro cursor user hcursor hle hadmits
  rw [hdata.getDurableValue]
  exact h cursor user hcursor hle hadmits

variable {rounds : List Round} {retries : ℕ} {entries : List Entry}

theorem iterDurableFirstRounds_cases {db : Database} {round : Round} {after : Option Bytes}
    {snapshot validated : Database} (hsnapshot : snapshot = db.evolve round.before)
    (hvalidated : validated = snapshot.evolve round.between)
    (hok : iterDurableFirstRounds ns bounds db (round :: rounds) after retries = .ok entries) :
    (durableFirstNext snapshot.inner (bounds.lower ns) (bounds.upper ns) after = none ∧ entries = []) ∨
      ∃ key value next,
        durableFirstNext snapshot.inner (bounds.lower ns) (bounds.upper ns) after = some ((key, value), next) ∧
        ((validated.inner.stateGeneration ≠ snapshot.inner.stateGeneration ∧
            iterDurableFirstRounds ns bounds validated rounds after (retries + 1) = .ok entries) ∨
          (validated.inner.stateGeneration = snapshot.inner.stateGeneration ∧
            ((value = none ∧ iterDurableFirstRounds ns bounds validated rounds (some key) retries = .ok entries) ∨
              ∃ bytes, value = some bytes ∧ entries = (key.dropPrefix? ns).elim [] fun user => [(user, bytes)]))) := by
  subst hsnapshot hvalidated
  rw [iterDurableFirstRounds] at hok
  split at hok
  · cases hok
  · cases hnext : durableFirstNext (db.evolve round.before).inner (bounds.lower ns) (bounds.upper ns) after with
    | none =>
      rw [hnext] at hok
      cases hok
      exact Or.inl ⟨rfl, rfl⟩
    | some found =>
      obtain ⟨⟨key, value⟩, next⟩ := found
      rw [hnext] at hok
      dsimp only at hok
      refine Or.inr ⟨key, value, next, rfl, ?_⟩
      split_ifs at hok with hchanged hretries
      · exact Or.inl ⟨hchanged, hok⟩
      · refine Or.inr ⟨not_not.mp hchanged, ?_⟩
        cases value with
        | none => exact Or.inl ⟨rfl, hok⟩
        | some bytes =>
          refine Or.inr ⟨bytes, rfl, ?_⟩
          cases hdrop : key.dropPrefix? ns <;> rw [hdrop] at hok <;> cases hok <;> rfl

theorem iterDurableFirstRounds_ok
    (hstart : ∀ start inclusive, bounds.start = some (start, inclusive) → inclusive = false)
    (hfinish : bounds.finish = none) {db : Database} {after : Option Bytes}
    (hcount : db.inner.stateGeneration + (interferences rounds).length < u64Max)
    (hahead : Ahead ns bounds db rounds after) (hpassed : Passed ns bounds db.inner after)
    (hnarrows : Narrows ns bounds after)
    (hok : iterDurableFirstRounds ns bounds db rounds after retries = .ok entries) :
    ∃ before later, before ++ later = interferences rounds ∧
      entries = ((db.evolve before).inner.visible ns bounds).take 1 := by
  induction rounds generalizing db after retries with
  | nil => cases hok
  | cons round rounds ih =>
    obtain ⟨hquiet, hrest⟩ := hahead
    have hsplit : interferences (round :: rounds) = (round.before ++ round.between) ++ interferences rounds :=
      List.flatMap_cons
    rw [hsplit, List.length_append, List.length_append] at hcount
    rw [hsplit]
    have hcases := iterDurableFirstRounds_cases rfl rfl hok
    have hsnapshot := hpassed.evolve fun action haction => hquiet action (List.mem_append_left _ haction)
    have hvalidated := hsnapshot.evolve fun action haction => hquiet action (List.mem_append_right _ haction)
    have hgeneration := @Database.generation_evolve_le db round.before
    have hgeneration' := @Database.generation_evolve_le (db.evolve round.before) round.between
    -- an entry that this pass returns comes from its own snapshot, the others from a later one
    have here (hentries : entries = ((db.evolve round.before).inner.visible ns bounds).take 1) :
        ∃ before later, before ++ later = (round.before ++ round.between) ++ interferences rounds ∧
          entries = ((db.evolve before).inner.visible ns bounds).take 1 :=
      ⟨round.before, _, (List.append_assoc _ _ _).symm, hentries⟩
    have hlater (h : ∃ before later, before ++ later = interferences rounds ∧
          entries = ((((db.evolve round.before).evolve round.between).evolve before).inner.visible ns bounds).take 1) :
        ∃ before later, before ++ later = (round.before ++ round.between) ++ interferences rounds ∧
          entries = ((db.evolve before).inner.visible ns bounds).take 1 := by
      obtain ⟨before, later, hactions, hentries⟩ := h
      refine ⟨(round.before ++ round.between) ++ before, later, ?_, ?_⟩
      · rw [List.append_assoc, hactions]
      · rw [hentries, Database.evolve_append, Database.evolve_append]
    obtain ⟨keys, hkeys⟩ := exists_candidates (db.evolve round.before).inner (bounds.lower ns) (bounds.upper ns)
      (after.filter fun key => bounds.lower ns ≤ key)
    cases keys with
    | nil =>
      rw [durableFirstNext_nil hkeys] at hcases
      obtain ⟨-, rfl⟩ | ⟨key, value, next, hnone, -⟩ := hcases
      · apply here
        rw [hsnapshot.visible_nil hkeys]
        rfl
      · cases hnone
    | cons key keys =>
      have hnext := durableFirstNext_cons hkeys
      rw [hnext] at hcases
      obtain ⟨hnone, -⟩ | ⟨found, value, next, hfound, hcases⟩ := hcases
      · cases hnone
      cases hfound
      obtain ⟨hchanged, hretry⟩ | ⟨hsame, ⟨hdead, hpass⟩ | ⟨bytes, hlive, hentries⟩⟩ := hcases
      · rw [nextCursor, if_pos hchanged] at hrest
        exact hlater (ih (by omega) hrest hvalidated hnarrows hretry)
      · have hdata := Database.sameData_of_generation (by omega) hsame
        rw [nextCursor, if_neg (not_not.mpr hsame), hnext] at hrest
        exact hlater (ih (by omega) hrest ((hsnapshot.extend hkeys hdead).sameData hdata) (hnarrows.extend hkeys) hpass)
      · have hrange := hnarrows key ((hkeys.mem key).mp List.mem_cons_self).1
        obtain ⟨user, huser⟩ := ScanBounds.userKey_of_inRange hstart hfinish hrange
        have hdrop : key.dropPrefix? ns = some user := (Option.filter_eq_some_iff.mp huser).1
        obtain ⟨rfl, hadmits⟩ := ScanBounds.userKey_iff_admits.mp huser
        rw [hdrop] at hentries
        exact here (hentries.trans (hsnapshot.visible_first hkeys hadmits hlive).symm)

/-- In every interleaving whose commits make no key live that the lookup has passed, the lookup returns the first entry
of one state that the database was in while it ran. -/
theorem first_prefix_after_atomic {db : Database} {keyspace : Keyspace} {keyPrefix : Bytes} {after : Option Bytes}
    {rounds : List Round} {entries : List Entry}
    (hcount : db.inner.stateGeneration + (interferences rounds).length < u64Max)
    (hahead : Ahead keyspace.namespace (prefixBounds keyPrefix after) db rounds
      ((prefixBounds keyPrefix after).after keyspace.namespace))
    (hok : db.firstPrefixAfter keyspace keyPrefix after rounds = .ok entries) :
    ∃ before later live, before ++ later = interferences rounds ∧
      Matching ((db.evolve before).get keyspace) (prefixBounds keyPrefix after) live ∧ entries = live.take 1 := by
  obtain ⟨hstart, hfinish⟩ := Scan.prefixBounds_exclusive keyPrefix after
  obtain ⟨before, later, hactions, hentries⟩ :=
    iterDurableFirstRounds_ok hstart hfinish hcount hahead (passed_start _) narrows_start hok
  exact ⟨before, later, _, hactions, (db.evolve before).matching_visible keyspace _, hentries⟩

def sampleDeleted : Option Database :=
  sampleRun [.commit [samplePut [97, 0, 1] [1]], .flush, .commit [⟨[.delete [97, 0, 1]], by simp⟩]]

def sampleAppend : List Round := [⟨[.commit [samplePut [97, 0, 2] [2]]], [], false⟩, ⟨[], [], false⟩]

theorem first_prefix_after_finds_appended_key :
    ∃ db, sampleDeleted = some db ∧ db.firstPrefixAfter sampleKeyspace [] none sampleAppend = .ok [([2], [2])] ∧
      ∃ before later live, before ++ later = interferences sampleAppend ∧
        Matching ((db.evolve before).get sampleKeyspace) (prefixBounds [] none) live ∧ [([2], [2])] = live.take 1 := by
  have hrun : sampleDeleted.map (fun db => (db.inner.stateGeneration,
      db.firstPrefixAfter sampleKeyspace [] none sampleAppend)) = some (3, .ok [([2], [2])]) := by decide +kernel
  obtain ⟨db, hdb, hvalues⟩ := Option.map_eq_some_iff.mp hrun
  obtain ⟨hgeneration, hok⟩ := Prod.mk.inj hvalues
  refine ⟨db, hdb, hok, first_prefix_after_atomic ?_ ?_ hok⟩
  · rw [hgeneration]
    decide
  · refine ⟨?_, ?_, trivial⟩
    · -- nothing is passed yet when the key is put
      simp [Revives, prefixBounds, ScanBounds.after]
    · simp

def sampleRevival : List Round :=
  [⟨[], [], false⟩, ⟨[.commit [⟨[.put [97, 0, 1] [1], .put [97, 0, 2] [2]], by simp⟩]], [], false⟩]

-- the lookup passes the deleted key 1, then a batch puts 1 and 2, and 2 is returned
theorem first_prefix_after_skips_revived_key :
    ∃ db ∈ sampleDeleted, db.firstPrefixAfter sampleKeyspace [] none sampleRevival = .ok [([2], [2])] ∧
      ∀ before ∈ (interferences sampleRevival).inits,
        ((db.evolve before).inner.visible sampleKeyspace.namespace (prefixBounds [] none)).take 1 ≠ [([2], [2])] := by
  decide +kernel

end Atomic

end Thingd.ThingDb
