import Thingd.ThingDb.Run

namespace Thingd.ThingDb

def Covered (inner : Inner) : Prop :=
  inner.pendingTable = SortedMap.empty ∨
    ∀ key value, inner.pendingTable.get key = none → inner.state.get key = some value →
      tableView inner.tableLayers key = some value

theorem getDurableValue_flushed_eq_iff (db : Database) (key : Bytes) :
    db.flushed.inner.getDurableValue key = db.inner.getDurableValue key ↔
      ∀ value, db.inner.pendingTable.get key = none → db.inner.state.get key = some value →
        tableView db.inner.tableLayers key = some value := by
  rw [Database.getDurableValue_flushed, Inner.getDurableValue_eq]
  cases db.inner.pendingTable.get key with
  | some value => simp
  | none =>
    cases db.inner.state.get key with
    | none => simp
    | some value => simp

theorem Consistent.reopens_view {db : Database} (h : Consistent db)
    (hpending : db.inner.pendingTable = SortedMap.empty) (builder : DatabaseBuilder) :
    ∃ db', openLocked builder db.disk = .ok db' ∧
      ∀ key, db'.inner.getDurableValue key = db.inner.getDurableValue key := by
  obtain ⟨frames, hframes, -, hstate⟩ := h.framed
  obtain ⟨db', hopen, -, -, hlayers, -, -, hpending', hstate'⟩ := h.reopens hframes builder
  refine ⟨db', hopen, fun key => ?_⟩
  rw [getDurableValue_reopened hlayers hpending' (hstate'.trans (hstate hpending)),
    getDurableValue_reopened rfl hpending rfl]

theorem flush_preserves_view_iff {db db' : Database} {fault : Option StorageFault} (hreach : Reachable db)
    (hflush : db.flushTableLocked fault = (.ok (), db')) :
    (∀ key, db'.inner.getDurableValue key = db.inner.getDurableValue key ∧
      ∀ builder, ∃ reopened, openLocked builder db'.disk = .ok reopened ∧
        reopened.inner.getDurableValue key = db.inner.getDurableValue key) ↔ Covered db.inner := by
  have hconsistent := (hreach.flush hflush).consistent
  obtain ⟨-, ⟨hpending, rfl⟩ | ⟨hpending, rfl⟩⟩ := Database.flushTableLocked_ok hflush
  · refine ⟨fun _ => Or.inl hpending, fun _ key => ⟨rfl, fun builder => ?_⟩⟩
    obtain ⟨reopened, hopen, hview⟩ := hconsistent.reopens_view hpending builder
    exact ⟨reopened, hopen, hview key⟩
  · constructor
    · intro h
      refine Or.inr fun key value => ?_
      exact (getDurableValue_flushed_eq_iff db key).mp (h key).1 value
    · intro hcovered key
      have hkey : db.flushed.inner.getDurableValue key = db.inner.getDurableValue key :=
        (getDurableValue_flushed_eq_iff db key).mpr (hcovered.resolve_left hpending key)
      refine ⟨hkey, fun builder => ?_⟩
      obtain ⟨reopened, hopen, hview⟩ := hconsistent.reopens_view rfl builder
      exact ⟨reopened, hopen, (hview key).trans hkey⟩

def sampleBuilder : DatabaseBuilder := ⟨0, 1024, 4⟩

def sampleKeyspace : Keyspace := ⟨[97], by simp, by decide⟩

def samplePut (key value : Bytes) : CommitRequest := ⟨[.put key value], by simp⟩

def sampleRun (actions : List Action) : Option Database :=
  (openLocked sampleBuilder Disk.empty).toOption.bind (fun db => run db actions)

theorem sampleRun_reachable {actions : List Action} {db : Database} (h : sampleRun actions = some db) :
    Reachable db := by
  obtain ⟨start, hstart, hrun⟩ := Option.bind_eq_some_iff.mp h
  cases hopen : openLocked sampleBuilder Disk.empty with
  | error message => rw [hopen] at hstart; cases hstart
  | ok opened =>
    rw [hopen] at hstart
    cases hstart
    exact (Reachable.opened hopen).run hrun

theorem eq_of_isOk {answer : Result Unit × Database} (h : answer.1.isOk = true) : answer = (.ok (), answer.2) := by
  obtain ⟨result, db⟩ := answer
  cases result with
  | error message => cases h
  | ok u => rfl

theorem flush_preserves_committed_put :
    ∃ db db', Reachable db ∧ db.flushTableLocked none = (.ok (), db') ∧
      db'.inner.getDurableValue [97, 0, 1] = some [1] ∧
      ((∀ key, db'.inner.getDurableValue key = db.inner.getDurableValue key ∧
        ∀ builder, ∃ reopened, openLocked builder db'.disk = .ok reopened ∧
          reopened.inner.getDurableValue key = db.inner.getDurableValue key) ↔ Covered db.inner) := by
  have hrun : (sampleRun [.commit [samplePut [97, 0, 1] [1]]]).map (fun db =>
      ((db.flushTableLocked none).1.isOk, (db.flushTableLocked none).2.inner.getDurableValue [97, 0, 1])) =
      some (true, some [1]) := by decide +kernel
  obtain ⟨db, hdb, hvalues⟩ := Option.map_eq_some_iff.mp hrun
  obtain ⟨hok, hvalue⟩ := Prod.mk.inj hvalues
  have hreach := sampleRun_reachable hdb
  have hflush := eq_of_isOk hok
  exact ⟨db, _, hreach, hflush, hvalue, flush_preserves_view_iff hreach hflush⟩

-- the entry is read from the log at the reopen, so the later flush does not write it
theorem flush_drops_recovered_entry :
    ∃ db db', Reachable db ∧ db.flushTableLocked none = (.ok (), db') ∧
      db.inner.getDurableValue [97, 0, 1] = some [1] ∧ db'.inner.getDurableValue [97, 0, 1] = none := by
  have hrun : (sampleRun [.commit [samplePut [97, 0, 1] [1]], .reopen sampleBuilder none,
      .commit [samplePut [97, 0, 2] [2]]]).map (fun db =>
      ((db.flushTableLocked none).1.isOk, db.inner.getDurableValue [97, 0, 1],
        (db.flushTableLocked none).2.inner.getDurableValue [97, 0, 1])) = some (true, some [1], none) := by
    decide +kernel
  obtain ⟨db, hdb, hvalues⟩ := Option.map_eq_some_iff.mp hrun
  obtain ⟨hok, hvalues⟩ := Prod.mk.inj hvalues
  obtain ⟨hbefore, hafter⟩ := Prod.mk.inj hvalues
  exact ⟨db, _, sampleRun_reachable hdb, eq_of_isOk hok, hbefore, hafter⟩

end Thingd.ThingDb
