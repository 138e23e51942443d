import Thingd.ThingDb.Group

namespace Thingd.ThingDb

open Database

/-- The atomic transitions of a durable database. A reopen may find any bytes in the log file. -/
inductive Action
  | commit (requests : List CommitRequest)
  | flush
  | compact
  | reopen (builder : DatabaseBuilder) (wal : Option Bytes)

def finish (outcome : Result Unit × Database) : Result Database :=
  match outcome with
  | (.ok (), db) => .ok db
  | (.error message, _) => .error message

def step (db : Database) : Action → Result Database
  | .commit requests => db.commit requests
  | .flush => finish (db.flushTableLocked none)
  | .compact => finish (db.compactTablesLocked none)
  | .reopen builder wal => openLocked builder { db.disk with wal := wal.getD db.disk.wal }

def Action.Admissible (db : Database) : Action → Prop
  | .commit requests => db.inner.sequence + requests.length < u64Max
  | _ => True

instance (db : Database) : (action : Action) → Decidable (action.Admissible db)
  | .commit requests => inferInstanceAs (Decidable (db.inner.sequence + requests.length < u64Max))
  | .flush => inferInstanceAs (Decidable True)
  | .compact => inferInstanceAs (Decidable True)
  | .reopen _ _ => inferInstanceAs (Decidable True)

def advance (db : Database) (action : Action) : Option Database :=
  if action.Admissible db then (step db action).toOption else none

def run (db : Database) (actions : List Action) : Option Database := actions.foldlM advance db

inductive Reachable : Database → Prop
  | opened {builder : DatabaseBuilder} {wal : Bytes} {db : Database}
      (h : openLocked builder { Disk.empty with wal := wal } = .ok db) : Reachable db
  | step {db db' : Database} (action : Action) (hdb : Reachable db) (hroom : action.Admissible db)
      (h : step db action = .ok db') : Reachable db'

variable {db : Database}

theorem finish_ok {outcome : Result Unit × Database} (h : finish outcome = .ok db) : outcome = (.ok (), db) := by
  obtain ⟨result, db'⟩ := outcome
  cases result with
  | error message => cases h
  | ok u => cases h; rfl

variable {db' : Database} {action : Action}

theorem step_consistent (h : Consistent db) (hroom : action.Admissible db) (hstep : step db action = .ok db') :
    Consistent db' := by
  cases action with
  | commit requests =>
    obtain ⟨group, hgroup, rfl⟩ := commit_ok hstep hroom
    exact commitGroup_consistent h hgroup hroom
  | flush =>
    obtain ⟨-, ⟨-, rfl⟩ | ⟨hpending, rfl⟩⟩ := flushTableLocked_ok (finish_ok hstep)
    · exact h
    · exact flushed_consistent h hpending
  | compact =>
    obtain ⟨-, rfl⟩ := compactTablesLocked_ok (finish_ok hstep)
    exact compacted_consistent h
  | reopen builder wal =>
    have hlayout := h.layout.withWal (wal.getD db.disk.wal)
    exact openLocked_consistent hlayout (h.tableSequence_le.trans h.sequence_le) hstep

theorem Reachable.consistent (h : Reachable db) : Consistent db := by
  induction h with
  | opened hopen => exact openLocked_consistent (TableLayout.empty _) (Nat.zero_le _) hopen
  | step _ _ hroom hstep ih => exact step_consistent ih hroom hstep

theorem advance_eq_some (h : advance db action = some db') : action.Admissible db ∧ step db action = .ok db' := by
  unfold advance at h
  split_ifs at h with hroom
  refine ⟨hroom, ?_⟩
  cases hstep : step db action with
  | error message => rw [hstep] at h; cases h
  | ok next => rw [hstep] at h; cases h; rfl

theorem Reachable.run {actions : List Action} (h : Reachable db) (hrun : ThingDb.run db actions = some db') :
    Reachable db' := by
  induction actions generalizing db with
  | nil =>
    cases hrun
    exact h
  | cons action actions ih =>
    obtain ⟨next, hnext, hrest⟩ := Option.bind_eq_some_iff.mp hrun
    obtain ⟨hroom, hstep⟩ := advance_eq_some hnext
    exact ih (h.step action hroom hstep) hrest

theorem Reachable.flush {fault : Option StorageFault} (h : Reachable db)
    (hflush : db.flushTableLocked fault = (.ok (), db')) : Reachable db' := by
  have hok := flushTableLocked_ok hflush
  have hnone : db.flushTableLocked none = (.ok (), db') := by
    rw [flushTableLocked_none]
    obtain ⟨hrecovery, ⟨hpending, rfl⟩ | ⟨hpending, rfl⟩⟩ := hok
    · rw [if_neg (by simp [hrecovery]), if_pos (SortedMap.isEmpty_iff.mpr hpending)]
    · rw [if_neg (by simp [hrecovery]), if_neg (fun he => hpending (SortedMap.isEmpty_iff.mp he))]
  exact Reachable.step .flush h trivial (by rw [ThingDb.step, hnone]; rfl)

end Thingd.ThingDb
