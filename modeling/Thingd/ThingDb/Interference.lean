import Thingd.ThingDb.ScanSpec
import Thingd.ThingDb.Session

namespace Thingd.ThingDb

open Writes

inductive Interference
  | commit (requests : List CommitRequest)
  | flush (fault : Option StorageFault)
  | compact (fault : Option StorageFault)

namespace Database

def interfere (db : Database) : Interference → Database
  | .commit requests =>
    match db.commit requests with
    | .ok committed => committed
    | .error _ => db
  | .flush fault => (db.flushTableLocked fault).2
  | .compact fault => (db.compactTablesLocked fault).2

def evolve (db : Database) (actions : List Interference) : Database := actions.foldl interfere db

theorem evolve_append (db : Database) (actions later : List Interference) :
    db.evolve (actions ++ later) = (db.evolve actions).evolve later := List.foldl_append

end Database

structure SameData (inner other : Inner) : Prop where
  state : other.state = inner.state
  pendingTable : other.pendingTable = inner.pendingTable
  tableLayers : other.tableLayers = inner.tableLayers

namespace SameData

variable {a b c : Inner}

theorem refl (a : Inner) : SameData a a := ⟨rfl, rfl, rfl⟩

theorem trans (h : SameData a b) (h' : SameData b c) : SameData a c :=
  ⟨h'.state.trans h.state, h'.pendingTable.trans h.pendingTable, h'.tableLayers.trans h.tableLayers⟩

theorem getDurableValue (h : SameData a b) (key : Bytes) : b.getDurableValue key = a.getDurableValue key := by
  simp only [Inner.getDurableValue, h.state, h.pendingTable, h.tableLayers]

end SameData

namespace Database

variable {db : Database}

theorem interfere_commit (db : Database) (requests : List CommitRequest) :
    db.interfere (.commit requests) = db ∨
      ∃ buffer nextSequence, db.interfere (.commit requests) = db.commitGroup requests buffer nextSequence := by
  cases hencode : encodeGroup [] (saturatingAdd db.inner.sequence 1) requests with
  | error message =>
    left
    simp [interfere, commit, hencode]
  | ok group =>
    refine Or.inr ⟨group.1, group.2, ?_⟩
    simp [interfere, commit, hencode]

structure TookOver (inner : Inner) (layer : TableLayer) (after : Inner) : Prop where
  state : after.state = SortedMap.empty
  pendingTable : after.pendingTable = inner.pendingTable ∨ after.pendingTable = SortedMap.empty
  tableLayers : after.tableLayers = inner.tableLayers ++ [layer]

theorem interfere_flush (db : Database) (fault : Option StorageFault) :
    (db.interfere (.flush fault) = db) ∨
      ((db.interfere (.flush fault)).inner.stateGeneration = saturatingAdd db.inner.stateGeneration 1 ∧
        (SameData db.inner (db.interfere (.flush fault)).inner ∨
          TookOver db.inner db.flushLayer (db.interfere (.flush fault)).inner)) := by
  change (db.flushTableLocked fault).2 = db ∨
    (db.flushTableLocked fault).2.inner.stateGeneration = _ ∧ (SameData db.inner
    (db.flushTableLocked fault).2.inner ∨ TookOver db.inner db.flushLayer (db.flushTableLocked fault).2.inner)
  unfold flushTableLocked
  split_ifs
  · exact Or.inl rfl
  · exact Or.inl rfl
  · exact Or.inl rfl
  · right
    rcases fault with - | fault
    · exact ⟨rfl, Or.inr ⟨rfl, Or.inr rfl, rfl⟩⟩
    · cases fault with
      | walTruncate | truncateSync => exact ⟨rfl, Or.inr ⟨rfl, Or.inl rfl, rfl⟩⟩
      | walSync => exact ⟨rfl, Or.inr ⟨rfl, Or.inr rfl, rfl⟩⟩
      | tableWrite | tableRename | manifestWrite | directorySync | tableOpen => exact ⟨rfl, Or.inl ⟨rfl, rfl, rfl⟩⟩

theorem interfere_compact (db : Database) (fault : Option StorageFault) :
    (SameData db.inner (db.interfere (.compact fault)).inner ∧
        (db.interfere (.compact fault)).inner.stateGeneration = db.inner.stateGeneration) ∨
      ((db.interfere (.compact fault)).inner.stateGeneration = saturatingAdd db.inner.stateGeneration 1 ∧
        SameData db.compacted.inner (db.interfere (.compact fault)).inner) := by
  change (SameData db.inner (db.compactTablesLocked fault).2.inner ∧
    (db.compactTablesLocked fault).2.inner.stateGeneration =
    _) ∨ (db.compactTablesLocked fault).2.inner.stateGeneration = _ ∧ SameData _ (db.compactTablesLocked fault).2.inner
  unfold compactTablesLocked
  split_ifs
  · exact Or.inl ⟨SameData.refl _, rfl⟩
  · rcases fault with - | fault
    · exact Or.inr ⟨rfl, SameData.refl _⟩
    · cases fault with
      | walTruncate | truncateSync => exact Or.inr ⟨rfl, rfl, rfl, rfl⟩
      | walSync | tableWrite | tableRename | manifestWrite | directorySync | tableOpen =>
        exact Or.inl ⟨⟨rfl, rfl, rfl⟩, rfl⟩

theorem interfere_generation (db : Database) (action : Interference) :
    (SameData db.inner (db.interfere action).inner ∧
        (db.interfere action).inner.stateGeneration = db.inner.stateGeneration) ∨
      (db.interfere action).inner.stateGeneration = saturatingAdd db.inner.stateGeneration 1 := by
  cases action with
  | commit requests =>
    rcases db.interfere_commit requests with heq | ⟨buffer, nextSequence, heq⟩ <;> rw [heq]
    · exact Or.inl ⟨SameData.refl _, rfl⟩
    · exact Or.inr rfl
  | flush fault =>
    rcases db.interfere_flush fault with heq | ⟨heq, -⟩
    · rw [heq]
      exact Or.inl ⟨SameData.refl _, rfl⟩
    · exact Or.inr heq
  | compact fault =>
    rcases db.interfere_compact fault with h | ⟨heq, -⟩
    · exact Or.inl h
    · exact Or.inr heq

theorem le_generation_evolve (h : db.inner.stateGeneration ≤ u64Max) (actions : List Interference) :
    db.inner.stateGeneration ≤ (db.evolve actions).inner.stateGeneration ∧
      (db.evolve actions).inner.stateGeneration ≤ u64Max := by
  induction actions generalizing db with
  | nil => exact ⟨le_rfl, h⟩
  | cons action actions ih =>
    have hstep : db.inner.stateGeneration ≤ (db.interfere action).inner.stateGeneration ∧
        (db.interfere action).inner.stateGeneration ≤ u64Max := by
      rcases db.interfere_generation action with ⟨-, heq⟩ | heq <;> simp only [heq, saturatingAdd] <;> omega
    obtain ⟨hle, hmax⟩ := ih hstep.2
    exact ⟨hstep.1.trans hle, hmax⟩

theorem generation_evolve_le (actions : List Interference) :
    (db.evolve actions).inner.stateGeneration ≤ db.inner.stateGeneration + actions.length := by
  induction actions generalizing db with
  | nil => exact le_rfl
  | cons action actions ih =>
    have hstep : (db.interfere action).inner.stateGeneration ≤ db.inner.stateGeneration + 1 := by
      rcases db.interfere_generation action with ⟨-, heq⟩ | heq <;> simp only [heq, saturatingAdd] <;> omega
    have hrest : ((db.interfere action).evolve actions).inner.stateGeneration ≤ _ := ih
    rw [List.length_cons]
    exact hrest.trans (by omega)

theorem sameData_of_generation (h : db.inner.stateGeneration < u64Max) {actions : List Interference}
    (hsame : (db.evolve actions).inner.stateGeneration = db.inner.stateGeneration) :
    SameData db.inner (db.evolve actions).inner := by
  induction actions generalizing db with
  | nil => exact SameData.refl _
  | cons action actions ih =>
    change ((db.interfere action).evolve actions).inner.stateGeneration = _ at hsame
    rcases db.interfere_generation action with ⟨hdata, heq⟩ | heq
    · exact hdata.trans (ih (heq ▸ h) (hsame.trans heq.symm))
    · have hnext : (db.interfere action).inner.stateGeneration = db.inner.stateGeneration + 1 := by
        rw [heq, saturatingAdd]
        omega
      have hmax : (db.interfere action).inner.stateGeneration ≤ u64Max := by omega
      have hle := (le_generation_evolve hmax actions).1
      omega

theorem interfere_dead {key : Bytes} (h : db.inner.getDurableValue key = none) {action : Interference}
    (hwrite : ∀ requests value, action = .commit requests →
      lastWrite (CommitRequest.writes requests) key ≠ some (some value)) :
    (db.interfere action).inner.getDurableValue key = none := by
  cases action with
  | commit requests =>
    rcases db.interfere_commit requests with heq | ⟨buffer, nextSequence, heq⟩ <;> rw [heq]
    · exact h
    · change (applyRequests db.inner requests).getDurableValue key = none
      rw [Inner.getDurableValue_applyRequests, writeAll_apply]
      cases hlast : lastWrite (CommitRequest.writes requests) key with
      | none => exact h
      | some last =>
        cases last with
        | none => rfl
        | some value => exact absurd hlast (hwrite requests value rfl)
  | flush fault =>
    rcases db.interfere_flush fault with heq | ⟨-, hdata | htook⟩
    · rw [heq]
      exact h
    · rw [hdata.getDurableValue]
      exact h
    · -- the new layer repeats the pending table, and below it the key is absent from the tables as well
      have hlayer : db.flushLayer.records = db.inner.pendingTable := rfl
      rw [Inner.getDurableValue_eq] at h ⊢
      rw [htook.state, htook.tableLayers, tableView_append, hlayer, SortedMap.get_empty]
      have hflushed : (db.inner.pendingTable.get key).getD (tableView db.inner.tableLayers key) = none := by
        cases hget : db.inner.pendingTable.get key with
        | some value => rwa [hget] at h
        | none =>
          rw [hget, Option.getD_none, Option.or_eq_none_iff] at h
          exact h.2
      rw [hflushed]
      rcases htook.pendingTable with hpending | hpending <;> rw [hpending]
      · cases hget : db.inner.pendingTable.get key with
        | some value => rwa [hget] at h
        | none => rfl
      · rfl
  | compact fault =>
    rcases db.interfere_compact fault with ⟨hdata, -⟩ | ⟨-, hdata⟩
    · rw [hdata.getDurableValue]
      exact h
    · rw [hdata.getDurableValue, getDurableValue_compacted]
      exact h

end Database

end Thingd.ThingDb
