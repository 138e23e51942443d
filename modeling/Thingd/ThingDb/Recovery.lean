import Thingd.ThingDb.Session

namespace Thingd.ThingDb

open Writes CommitRequest

def recoveredValue (db : Database) (frames : List Frame) (key : Bytes) : Option Bytes :=
  ((lastWrite (frameWrites frames) key).getD none).or (tableView db.inner.tableLayers key)

structure StepEffect (step : SessionStep) (db db' : Database) (frames frames' : List Frame) (key : Bytes)
    (value value' : Option Bytes) : Prop where
  kept : Tracked db frames key value → step.SafeAt db key → Tracked db' frames' key value'
  needed : Tracked db frames key value → recoveredValue db' frames' key = value' → step.SafeAt db key

variable {db db' : Database} {frames : List Frame} {key : Bytes} {value : Option Bytes}

theorem commit_effect {frames' : List Frame} {group : List Batch} {keyspace : Keyspace}
    (hlayers : db'.inner.tableLayers = db.inner.tableLayers)
    (hwrites : frameWrites frames' = frameWrites frames ++ writes (group.map Batch.request))
    (hview : db'.inner.getDurableValue = writeAll db.inner.getDurableValue (writes (group.map Batch.request))) :
    StepEffect (.commit group) db db' frames frames' (physicalKey keyspace key) value
      ((lastWrite (batchWrites group) (keyspace, key)).getD value) := by
  rw [← lastWrite_request]
  have hlast := lastWrite_append (frameWrites frames) (writes (group.map Batch.request))
    (physicalKey keyspace key)
  rw [← hwrites] at hlast
  constructor
  · intro h hsafe
    refine ⟨?_, ?_, ?_⟩
    · rw [hview, writeAll_apply, h.current]
    · rw [hlast, hlayers, ← h.logged]
      cases lastWrite (writes (group.map Batch.request)) (physicalKey keyspace key) <;> rfl
    · intro hdeleted
      rw [hlayers]
      rw [hlast] at hdeleted
      cases hgroup : lastWrite (writes (group.map Batch.request)) (physicalKey keyspace key) with
      | none => exact h.recovered (by rwa [hgroup] at hdeleted)
      | some last =>
        rw [hgroup] at hdeleted
        exact hsafe (hgroup.trans hdeleted)
  · intro h hvalue hdeleted
    rw [recoveredValue, hlast, hlayers, hdeleted] at hvalue
    simpa using hvalue

theorem flushed_effect (hpending : db.inner.pendingTable ≠ SortedMap.empty) :
    StepEffect .flush db db.flushed frames [] key value value := by
  have hiff := getDurableValue_flushed_eq_iff db key
  have htables : db.flushed.inner.getDurableValue key = tableView db.flushed.inner.tableLayers key :=
    getDurableValue_reopened rfl rfl rfl key
  constructor
  · intro h hsafe
    have hcurrent := (hiff.mpr (hsafe.resolve_left hpending)).trans h.current
    exact ⟨hcurrent, htables.symm.trans hcurrent, by simp [frameWrites, writesOf]⟩
  · intro h hvalue
    refine Or.inr (hiff.mp ?_)
    rw [h.current]
    exact hvalue

theorem compacted_effect : StepEffect .compact db db.compacted frames [] key value value := by
  have htables : db.compacted.inner.getDurableValue key = tableView db.compacted.inner.tableLayers key :=
    getDurableValue_reopened rfl rfl rfl key
  constructor
  · intro h _
    have hcurrent := (Database.getDurableValue_compacted db key).trans h.current
    exact ⟨hcurrent, htables.symm.trans hcurrent, by simp [frameWrites, writesOf]⟩
  · exact fun _ _ => trivial

variable {builder : DatabaseBuilder}

theorem reopen_effect (hlayers : db'.inner.tableLayers = db.inner.tableLayers)
    (hview : db'.inner.getDurableValue key = recoveredValue db frames key) :
    StepEffect (.reopen builder) db db' frames frames key value value := by
  constructor
  · intro h _
    exact ⟨hview.trans h.reopened, by rw [hlayers]; exact h.logged, by rw [hlayers]; exact h.recovered⟩
  · exact fun _ _ => trivial

theorem advance_effect {step : SessionStep} (h : LogOf db frames) (hstep : advance db step.action = some db') :
    ∃ frames', LogOf db' frames' ∧ ∀ keyspace key value,
      StepEffect step db db' frames frames' (physicalKey keyspace key) value
        ((lastWrite (batchWrites step.batches) (keyspace, key)).getD value) := by
  obtain ⟨hroom, hstep⟩ := advance_eq_some hstep
  have hconsistent := step_consistent h.consistent hroom hstep
  cases step with
  | commit group =>
    obtain ⟨frames', hlog, hlayers, hwrites, hview⟩ := commit_tracked h hroom hstep
    exact ⟨frames', hlog, fun keyspace key value => commit_effect hlayers hwrites hview⟩
  | flush =>
    obtain ⟨-, ⟨hpending, rfl⟩ | ⟨hpending, rfl⟩⟩ := Database.flushTableLocked_ok (finish_ok hstep)
    · refine ⟨frames, h, fun keyspace key value => ⟨fun htracked _ => htracked, fun _ _ => Or.inl hpending⟩⟩
    · refine ⟨[], ⟨hconsistent, Frames.nil, List.Pairwise.nil, by simp⟩, fun keyspace key value => ?_⟩
      exact flushed_effect hpending
  | compact =>
    obtain ⟨-, rfl⟩ := Database.compactTablesLocked_ok (finish_ok hstep)
    refine ⟨[], ⟨hconsistent, Frames.nil, List.Pairwise.nil, by simp⟩, fun keyspace key value => ?_⟩
    exact compacted_effect
  | reopen builder =>
    obtain ⟨reopened, hopen, hlog, hlayers, hview⟩ := h.reopens builder
    have heq : openLocked builder db.disk = .ok db' := hstep
    rw [hopen] at heq
    cases heq
    exact ⟨frames, hlog, fun keyspace key value => reopen_effect hlayers (hview _)⟩

def sessionRun (builder : DatabaseBuilder) (steps : List SessionStep) : Option Database :=
  (openLocked builder Disk.empty).toOption.bind fun db => run db (steps.map SessionStep.action)

variable {steps : List SessionStep}

theorem sessionRun_append {step : SessionStep} :
    sessionRun builder (steps ++ [step]) = some db' ↔
      ∃ db, sessionRun builder steps = some db ∧ advance db step.action = some db' := by
  unfold sessionRun run
  rw [List.map_append]
  simp only [List.foldlM_append, Option.bind_eq_bind, Option.bind_eq_some_iff, List.map_cons, List.map_nil,
    List.foldlM_cons]
  constructor
  · rintro ⟨start, hstart, db, hdb, next, hnext, hpure⟩
    cases hpure
    exact ⟨db, ⟨start, hstart, hdb⟩, hnext⟩
  · rintro ⟨db, ⟨start, hstart, hdb⟩, hnext⟩
    exact ⟨start, hstart, db, hdb, db', hnext, rfl⟩

section

variable (builder steps)

def Recovers : Prop :=
  ∀ db, sessionRun builder steps = some db → ∀ builder' keyspace key, ∃ reopened,
    openLocked builder' db.disk = .ok reopened ∧
      reopened.get keyspace key = committed (acknowledged steps) (keyspace, key)

def StepSafe (step : SessionStep) : Prop :=
  ∀ db, sessionRun builder steps = some db → (sessionRun builder (steps ++ [step])).isSome →
    ∀ keyspace key, step.SafeAt db (physicalKey keyspace key)

def RunTracked : Prop :=
  ∀ db, sessionRun builder steps = some db → ∃ frames, LogOf db frames ∧
    ∀ keyspace key, Tracked db frames (physicalKey keyspace key) (committed (acknowledged steps) (keyspace, key))

end

theorem runTracked_nil (builder : DatabaseBuilder) : RunTracked builder [] := by
  intro db hrun
  obtain ⟨start, hstart, hdb⟩ := Option.bind_eq_some_iff.mp hrun
  cases hdb
  have hopen := openLocked_eq builder (TableLayout.empty [])
  rw [replayWal_frames Frames.nil] at hopen
  have hconsistent := openLocked_consistent (TableLayout.empty []) (Nat.zero_le _) hopen
  have heq : openLocked builder Disk.empty = _ := hopen
  rw [heq] at hstart
  cases hstart
  refine ⟨[], ⟨hconsistent, Frames.nil, List.Pairwise.nil, by simp⟩, fun keyspace key => ⟨?_, rfl, fun _ => rfl⟩⟩
  exact getDurableValue_reopened rfl rfl rfl _

theorem RunTracked.recovers (h : RunTracked builder steps) : Recovers builder steps := by
  intro db hrun builder' keyspace key
  obtain ⟨frames, hlog, htracked⟩ := h db hrun
  obtain ⟨reopened, hopen, -, -, hview⟩ := hlog.reopens builder'
  exact ⟨reopened, hopen, (hview _).trans (htracked keyspace key).reopened⟩

theorem acknowledged_append (steps : List SessionStep) (step : SessionStep) :
    acknowledged (steps ++ [step]) = acknowledged steps ++ step.batches := by
  simp [acknowledged]

theorem RunTracked.step {step : SessionStep} (h : RunTracked builder steps) (hsafe : StepSafe builder steps step) :
    RunTracked builder (steps ++ [step]) := by
  intro db' hrun
  obtain ⟨db, hdb, hadvance⟩ := sessionRun_append.mp hrun
  obtain ⟨frames, hlog, htracked⟩ := h db hdb
  obtain ⟨frames', hlog', heffect⟩ := advance_effect hlog hadvance
  refine ⟨frames', hlog', fun keyspace key => ?_⟩
  rw [acknowledged_append, committed_append]
  have hsafe' := hsafe db hdb (by rw [hrun]; rfl) keyspace key
  exact (heffect keyspace key _).kept (htracked keyspace key) hsafe'

theorem RunTracked.stepSafe {step : SessionStep} (h : RunTracked builder steps)
    (hrecovers : Recovers builder (steps ++ [step])) : StepSafe builder steps step := by
  intro db hdb hsome keyspace key
  obtain ⟨db', hrun⟩ := Option.isSome_iff_exists.mp hsome
  obtain ⟨mid, hmid, hadvance⟩ := sessionRun_append.mp hrun
  rw [hdb] at hmid
  cases hmid
  obtain ⟨frames, hlog, htracked⟩ := h db hdb
  obtain ⟨frames', hlog', heffect⟩ := advance_effect hlog hadvance
  apply (heffect keyspace key _).needed (htracked keyspace key)
  obtain ⟨reopened, hopen, hvalue⟩ := hrecovers db' hrun builder keyspace key
  obtain ⟨reopened', hopen', -, -, hview⟩ := hlog'.reopens builder
  rw [hopen] at hopen'
  cases hopen'
  rw [← committed_append, ← acknowledged_append, ← hvalue]
  exact (hview _).symm

theorem runTracked_of_stepSafe
    (h : ∀ before step, before ++ [step] <+: steps → RunTracked builder before → StepSafe builder before step) :
    ∀ before, before <+: steps → RunTracked builder before := by
  intro before
  induction before using List.reverseRecOn with
  | nil => exact fun _ => runTracked_nil builder
  | append_singleton before step ih =>
    intro hle
    have hbefore := ih ((List.prefix_append before [step]).trans hle)
    exact hbefore.step (h before step hle hbefore)

theorem reopen_reads_committed_iff (builder : DatabaseBuilder) (steps : List SessionStep) :
    (∀ before, before <+: steps → Recovers builder before) ↔
      ∀ before step, before ++ [step] <+: steps → StepSafe builder before step := by
  constructor
  · intro h before step hle
    have htracked := runTracked_of_stepSafe fun earlier next hnext hearlier => hearlier.stepSafe (h _ hnext)
    exact (htracked before ((List.prefix_append before [step]).trans hle)).stepSafe (h _ hle)
  · intro h before hle
    exact (runTracked_of_stepSafe (fun earlier next hnext _ => h earlier next hnext) before hle).recovers

def sampleBatch (key : Bytes) (value : Option Bytes) : Batch := ⟨[⟨sampleKeyspace, key, value⟩], by simp⟩

-- a delete that only the log holds is replayed into the mutable state, which cannot hide the table below it
theorem reopen_resurrects_deleted_key :
    ∃ db reopened, sessionRun sampleBuilder [.commit [sampleBatch [1] (some [7])], .flush,
        .commit [sampleBatch [1] none]] = some db ∧ db.get sampleKeyspace [1] = none ∧
      openLocked sampleBuilder db.disk = .ok reopened ∧ reopened.get sampleKeyspace [1] = some [7] ∧
      committed [sampleBatch [1] (some [7]), sampleBatch [1] none] (sampleKeyspace, [1]) = none := by
  have hrun : (sessionRun sampleBuilder [.commit [sampleBatch [1] (some [7])], .flush,
      .commit [sampleBatch [1] none]]).map (fun db => (db.get sampleKeyspace [1],
        (openLocked sampleBuilder db.disk).toOption.map fun reopened => reopened.get sampleKeyspace [1])) =
      some (none, some (some [7])) := by decide +kernel
  obtain ⟨db, hdb, hvalues⟩ := Option.map_eq_some_iff.mp hrun
  obtain ⟨hbefore, hafter⟩ := Prod.mk.inj hvalues
  obtain ⟨reopened, hopen, hvalue⟩ := Option.map_eq_some_iff.mp hafter
  refine ⟨db, reopened, hdb, hbefore, ?_, hvalue, by decide⟩
  cases hresult : openLocked sampleBuilder db.disk with
  | error message => rw [hresult] at hopen; cases hopen
  | ok opened => rw [hresult] at hopen; cases hopen; rfl

end Thingd.ThingDb
