import Thingd.ThingDb.Commit
import Thingd.Data.Writes

namespace Thingd.ThingDb

open Writes SortedMap

def Operation.write (operation : Operation) : Bytes × Option Bytes := (operation.key, operation.value)

def writesOf (operations : List Operation) : List (Bytes × Option Bytes) := operations.map Operation.write

@[simp] theorem writesOf_append (operations later : List Operation) :
    writesOf (operations ++ later) = writesOf operations ++ writesOf later := List.map_append

theorem applyRequests_eq (inner : Inner) (requests : List CommitRequest) :
    applyRequests inner requests = (requests.flatMap CommitRequest.operations).foldl applyOperationWithPending inner :=
  List.foldl_flatMap.symm

def CommitRequest.writes (requests : List CommitRequest) : List (Bytes × Option Bytes) :=
  writesOf (requests.flatMap CommitRequest.operations)

def tableView (layers : List TableLayer) (key : Bytes) : Option Bytes := (lookupLayers layers key).join

theorem tableView_append (layers : List TableLayer) (layer : TableLayer) (key : Bytes) :
    tableView (layers ++ [layer]) key = (layer.records.get key).getD (tableView layers key) := by
  rw [tableView, lookupLayers_append]
  cases layer.records.get key with
  | none => rfl
  | some value => simp

theorem get_applyOperation (state : SortedMap Bytes Bytes) (operation : Operation) :
    (applyOperation state operation).get = Function.update state.get operation.key operation.value := by
  funext key
  cases operation with
  | put k v => simp [applyOperation, Operation.key, Operation.value, Function.update_apply]
  | delete k => simp [applyOperation, Operation.key, Operation.value, Function.update_apply]

theorem get_foldl_applyOperation (state : SortedMap Bytes Bytes) (operations : List Operation) :
    (operations.foldl applyOperation state).get = writeAll state.get (writesOf operations) := by
  induction operations generalizing state with
  | nil => rfl
  | cons operation operations ih =>
    rw [List.foldl_cons, ih, get_applyOperation]
    rfl

namespace Inner

theorem getDurableValue_eq (inner : Inner) (key : Bytes) :
    inner.getDurableValue key =
      (inner.pendingTable.get key).getD ((inner.state.get key).or (tableView inner.tableLayers key)) := by
  unfold getDurableValue
  cases inner.pendingTable.get key with
  | some value => rfl
  | none => cases inner.state.get key <;> rfl

theorem getDurableValue_apply (inner : Inner) (operation : Operation) :
    (applyOperationWithPending inner operation).getDurableValue =
      Function.update inner.getDurableValue operation.key operation.value := by
  funext key
  rw [getDurableValue_eq, Function.update_apply]
  split_ifs with hkey
  · simp [applyOperationWithPending, hkey]
  · have hstate : (applyOperation inner.state operation).get key = inner.state.get key := by
      rw [get_applyOperation, Function.update_of_ne hkey]
    simp [applyOperationWithPending, hkey, hstate, getDurableValue_eq]

theorem getDurableValue_foldl (inner : Inner) (operations : List Operation) :
    (operations.foldl applyOperationWithPending inner).getDurableValue =
      writeAll inner.getDurableValue (writesOf operations) := by
  induction operations generalizing inner with
  | nil => rfl
  | cons operation operations ih =>
    rw [List.foldl_cons, ih, getDurableValue_apply]
    rfl

theorem getDurableValue_applyRequests (inner : Inner) (requests : List CommitRequest) :
    (applyRequests inner requests).getDurableValue =
      writeAll inner.getDurableValue (CommitRequest.writes requests) := by
  rw [applyRequests_eq, getDurableValue_foldl, CommitRequest.writes]

theorem get_foldl_insert (state : SortedMap Bytes Bytes) (recent : SortedMap Bytes Bytes) (key : Bytes) :
    (recent.entries.foldl (fun state entry => state.insert entry.1 entry.2) state).get key =
      (recent.get key).or (state.get key) := by
  have hfold : recent.entries.foldl (fun state entry => state.insert entry.1 entry.2) state =
      state.applyUpdates (recent.mapValues some).entries := by
    simp [applyUpdates, mapValues, List.foldl_map]
  rw [hfold, get_applyUpdates, get_mapValues]
  cases recent.get key <;> rfl

theorem get_foldl_layers (layers : List TableLayer) (state : SortedMap Bytes Bytes) (key : Bytes) :
    (layers.foldl (fun state layer => state.applyUpdates layer.records.entries) state).get key =
      (lookupLayers layers key).getD (state.get key) := by
  induction layers using List.reverseRecOn with
  | nil => rfl
  | append_singleton layers layer ih =>
    rw [List.foldl_append, List.foldl_cons, List.foldl_nil, get_applyUpdates, ih, lookupLayers_append]
    cases layer.records.get key <;> rfl

theorem get_materializeState (inner : Inner) (key : Bytes) :
    inner.materializeState.get key = inner.getDurableValue key := by
  rw [materializeState, get_applyUpdates, get_foldl_insert, get_foldl_layers, getDurableValue_eq]
  have htables : (lookupLayers inner.tableLayers key).getD (SortedMap.empty.get key) =
      tableView inner.tableLayers key := by
    rw [tableView]
    cases lookupLayers inner.tableLayers key <;> rfl
  rw [htables]

end Inner

end Thingd.ThingDb
