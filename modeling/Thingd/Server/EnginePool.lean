import Thingd.Data.Trace

namespace Thingd.Server

open Trace

/-- An engine on the directory that was at its path when it was opened. -/
structure Engine where
  number : ℕ
  path : String
deriving DecidableEq

/-- The pool, with the clones of its engines that requests and recovery threads hold, the lock files on the disk, what
each engine's directory has, and the writes that have been acknowledged since the default database was last cleared. -/
structure EnginePool (Write : Type) where
  writers : String → Option Engine
  held : List Engine
  locked : String → Bool
  contents : ℕ → List Write
  acknowledged : List (String × Write)
  next : ℕ

namespace EnginePool

variable {Write : Type}

def inMemory (path : String) : Bool := path = ":memory:" || path = ""

def createEngine (s : EnginePool Write) (path : String) : Option (Engine × EnginePool Write) :=
  if inMemory path then some (⟨s.next, path⟩, { s with next := s.next + 1 })
  else if s.locked path then none
  else some (⟨s.next, path⟩, { s with locked := Function.update s.locked path true, next := s.next + 1 })

def tryGetWriter (s : EnginePool Write) (path : String) : Option (Engine × EnginePool Write) :=
  match s.writers path with
  | some engine => some (engine, s)
  | none =>
    (s.createEngine path).map fun (engine, s) =>
      (engine, { s with writers := Function.update s.writers path (some engine) })

def Live (s : EnginePool Write) (engine : Engine) : Prop := engine ∈ s.held ∨ s.writers engine.path = some engine

instance (s : EnginePool Write) (engine : Engine) : Decidable (s.Live engine) := inferInstanceAs (Decidable (_ ∨ _))

def clearDefaultEngine (s : EnginePool Write) (path : String) : EnginePool Write :=
  { s with
    writers := Function.update s.writers path none
    locked := Function.update s.locked path false
    acknowledged := s.acknowledged.filter fun write => write.1 ≠ path }

inductive Event (Write : Type)
  | acquire (path : String)
  | share (engine : Engine)
  | release (engine : Engine)
  | write (engine : Engine) (write : Write)
  | clear

/-- A write is acknowledged whenever its engine is there. The last clone that is released takes the lock file at its
path with it, whichever engine that belongs to. -/
def step (defaultPath : String) (s : EnginePool Write) : Event Write → EnginePool Write
  | .acquire path =>
    match s.tryGetWriter (if path = "" then defaultPath else path) with
    | some (engine, s) => { s with held := engine :: s.held }
    | none => s
  | .share engine => if engine ∈ s.held then { s with held := engine :: s.held } else s
  | .release engine =>
    let released := { s with held := s.held.erase engine }
    if engine ∉ s.held ∨ released.Live engine then released
    else { released with locked := Function.update s.locked engine.path false }
  | .write engine write =>
    if engine ∈ s.held then { s with
      contents := Function.update s.contents engine.number (write :: s.contents engine.number)
      acknowledged := (engine.path, write) :: s.acknowledged }
    else s
  | .clear => s.clearDefaultEngine defaultPath

def start (locked : String → Bool) (contents : ℕ → List Write) : EnginePool Write :=
  ⟨fun _ => none, [], locked, contents, [], 0⟩

/-- At most one engine on a path, and a request gets an engine that has the acknowledged writes of its path. -/
structure Good (s : EnginePool Write) : Prop where
  one : ∀ engine other, s.Live engine → s.Live other → engine.path = other.path → engine = other
  visible : ∀ write ∈ s.acknowledged, ∀ got ∈ s.tryGetWriter write.1, write.2 ∈ s.contents got.1.number

/-- Whatever happens next, short of another clear. -/
def StaysGood (defaultPath : String) (s : EnginePool Write) : Prop :=
  ∀ more : List (Event Write), (∀ event ∈ more, event ≠ .clear) → EveryState (step defaultPath) Good s more

/-- No clone of an engine on the default path is held when the default database is cleared. -/
def Unheld (defaultPath : String) (s : EnginePool Write) (event : Event Write) : Prop :=
  event = .clear → ∀ engine ∈ s.held, engine.path ≠ defaultPath

structure Sound (s : EnginePool Write) : Prop where
  pool : ∀ path engine, s.writers path = some engine → engine.path = path
  pooled : ∀ engine ∈ s.held, s.writers engine.path = some engine
  fresh : ∀ path engine, s.writers path = some engine → engine.number < s.next
  kept : ∀ write ∈ s.acknowledged, ∃ engine, s.writers write.1 = some engine ∧ write.2 ∈ s.contents engine.number

variable {s : EnginePool Write} {defaultPath : String}

section

variable (h : s.Sound)
include h

theorem Sound.good : s.Good where
  one := by
    have hpooled : ∀ engine, s.Live engine → s.writers engine.path = some engine :=
      fun engine hlive => hlive.elim (h.pooled engine) id
    intro engine other hengine hother hpath
    have hwriter := hpooled other hother
    rw [← hpath, hpooled engine hengine] at hwriter
    exact Option.some.inj hwriter
  visible := by
    intro write hwrite got hgot
    obtain ⟨engine, hwriter, hmem⟩ := h.kept write hwrite
    simp only [tryGetWriter, hwriter, Option.mem_some_iff] at hgot
    rwa [← hgot]

theorem Sound.acquire (path : String) : (s.step defaultPath (.acquire path)).Sound := by
  simp only [step]
  generalize (if path = "" then defaultPath else path) = path
  cases hpool : s.writers path with
  | some engine =>
    simp only [tryGetWriter, hpool]
    refine { h with pooled := List.forall_mem_cons.mpr ⟨?_, h.pooled⟩ }
    rw [h.pool path engine hpool]
    exact hpool
  | none =>
    have hopened (locked : String → Bool) : Sound { s with
        writers := Function.update s.writers path (some ⟨s.next, path⟩)
        held := ⟨s.next, path⟩ :: s.held
        locked := locked
        next := s.next + 1 } := by
      have hwriters : ∀ other engine, s.writers other = some engine →
          Function.update s.writers path (some ⟨s.next, path⟩) other = some engine := by
        intro other engine hwriter
        rwa [Function.update_of_ne]
        rintro rfl
        exact absurd (hpool.symm.trans hwriter) nofun
      refine ⟨?_, ?_, ?_, ?_⟩
      · intro other engine hwriter
        simp only [Function.update_apply] at hwriter
        split_ifs at hwriter with hother
        · rw [← Option.some.inj hwriter, hother]
        · exact h.pool other engine hwriter
      · refine List.forall_mem_cons.mpr ⟨Function.update_self .., fun engine hengine => ?_⟩
        exact hwriters _ _ (h.pooled engine hengine)
      · intro other engine hwriter
        simp only [Function.update_apply] at hwriter
        split_ifs at hwriter
        · rw [← Option.some.inj hwriter]
          exact Nat.lt_succ_self _
        · exact (h.fresh other engine hwriter).trans (Nat.lt_succ_self _)
      · intro write hwrite
        obtain ⟨engine, hwriter, hmem⟩ := h.kept write hwrite
        exact ⟨engine, hwriters _ _ hwriter, hmem⟩
    simp only [tryGetWriter, hpool, createEngine]
    split_ifs
    · exact hopened s.locked
    · exact h
    · exact hopened (Function.update s.locked path true)

theorem Sound.clear (hheld : s.Unheld defaultPath .clear) : (s.clearDefaultEngine defaultPath).Sound := by
  have hold : ∀ path engine, Function.update s.writers defaultPath none path = some engine →
    s.writers path = some engine := by
    intro path engine hwriter
    simp only [Function.update_apply] at hwriter
    split_ifs at hwriter
    exact hwriter
  refine ⟨fun path engine hwriter => h.pool path engine (hold path engine hwriter), ?_,
    fun path engine hwriter => h.fresh path engine (hold path engine hwriter), ?_⟩
  · intro engine hengine
    exact (Function.update_of_ne (hheld rfl engine hengine) ..).trans (h.pooled engine hengine)
  · intro write hwrite
    obtain ⟨hmem, hne⟩ := List.mem_filter.mp hwrite
    obtain ⟨engine, hwriter, hcontents⟩ := h.kept write hmem
    exact ⟨engine, (Function.update_of_ne (of_decide_eq_true hne) ..).trans hwriter, hcontents⟩

theorem Sound.step {event : Event Write} (hevent : s.Unheld defaultPath event) : (s.step defaultPath event).Sound := by
  cases event with
  | acquire path => exact h.acquire path
  | share engine =>
    simp only [EnginePool.step]
    split_ifs with hengine
    · exact { h with pooled := List.forall_mem_cons.mpr ⟨h.pooled engine hengine, h.pooled⟩ }
    · exact h
  | release engine =>
    have hpooled : ∀ other ∈ s.held.erase engine, s.writers other.path = some other :=
      fun other hother => h.pooled other (List.mem_of_mem_erase hother)
    simp only [EnginePool.step]
    split_ifs <;> exact { h with pooled := hpooled }
  | write engine write =>
    simp only [EnginePool.step]
    split_ifs with hengine
    · refine { h with kept := List.forall_mem_cons.mpr ⟨⟨engine, h.pooled engine hengine, ?_⟩, fun other hother => ?_⟩ }
      · simp only [Function.update_self]
        exact List.mem_cons_self
      · obtain ⟨found, hwriter, hmem⟩ := h.kept other hother
        refine ⟨found, hwriter, ?_⟩
        by_cases hsame : found.number = engine.number
        · simp only [hsame, Function.update_self]
          exact List.mem_cons_of_mem _ (hsame ▸ hmem)
        · simp only [Function.update_of_ne hsame]
          exact hmem
    · exact h
  | clear => exact h.clear hevent

theorem Sound.staysGood : s.StaysGood defaultPath := by
  intro more hmore
  induction more generalizing s with
  | nil => exact h.good
  | cons event more ih =>
    obtain ⟨hevent, hmore⟩ := List.forall_mem_cons.mp hmore
    exact ⟨h.good, ih (h.step fun hclear => absurd hclear hevent) hmore⟩

/-- The next request opens a second engine while the old one is still held. -/
theorem Sound.not_staysGood {engine : Engine} (hengine : engine ∈ s.held) (hpath : engine.path = defaultPath) :
    ¬ (s.clearDefaultEngine defaultPath).StaysGood defaultPath := by
  intro hgood
  have hnumber := h.fresh _ engine (h.pooled engine hengine)
  obtain ⟨-, hafter⟩ := hgood [.acquire ""] (by simp)
  have hopened : ∃ locked,
    (s.clearDefaultEngine defaultPath).step defaultPath (.acquire "") = { s.clearDefaultEngine defaultPath with
      writers := Function.update (s.clearDefaultEngine defaultPath).writers defaultPath (some ⟨s.next, defaultPath⟩)
      held := ⟨s.next, defaultPath⟩ :: s.held
      locked := locked
      next := s.next + 1 } := by
    have hnone : (s.clearDefaultEngine defaultPath).writers defaultPath = none := Function.update_self ..
    have hlocked : (s.clearDefaultEngine defaultPath).locked defaultPath = false := Function.update_self ..
    simp only [EnginePool.step, if_true, tryGetWriter, hnone, createEngine, hlocked, Bool.false_eq_true, if_false]
    split_ifs <;> exact ⟨_, rfl⟩
  obtain ⟨locked, heq⟩ := hopened
  rw [heq] at hafter
  have hsame := hafter.one engine ⟨s.next, defaultPath⟩ (Or.inl (List.mem_cons_of_mem _ hengine))
    (Or.inl List.mem_cons_self) hpath
  rw [hsame] at hnumber
  exact absurd hnumber (lt_irrefl _)

end

/-- In every interleaving: whatever follows, short of another clear, there is one engine on a path and acknowledged
writes are visible, exactly if no clear meets a clone of an engine on the default path. -/
theorem one_live_engine_iff (defaultPath : String) (locked : String → Bool) (contents : ℕ → List Write)
    (events : List (Event Write)) :
    EveryState (step defaultPath) (StaysGood defaultPath) (start locked contents) events ↔
      EveryStep (step defaultPath) (Unheld defaultPath) (start locked contents) events := by
  have hstart : (start locked contents).Sound :=
    ⟨fun _ _ => nofun, List.forall_mem_nil _, fun _ _ => nofun, List.forall_mem_nil _⟩
  refine everyState_iff_of_kept (fun s event h => h.step) (fun s h => h.staysGood) (fun s event h hheld => ?_) hstart
  simp only [Unheld, not_forall, not_not] at hheld
  obtain ⟨rfl, engine, hengine, hpath⟩ := hheld
  exact h.not_staysGood hengine hpath

/-- A request holds the engine while the default database is cleared, and writes to it afterwards. -/
theorem cleared_engine_is_still_written :
    ¬ EveryState (step "/data") (StaysGood "/data") (start (fun _ => false) fun _ => ([] : List ℕ))
      [.acquire "", .clear] := by
  rintro ⟨-, -, h⟩
  obtain ⟨-, -, hgood⟩ := h [.acquire "", .write ⟨0, "/data"⟩ 7] (by simp)
  exact absurd (hgood.visible ("/data", 7) (by decide) _ rfl) (by decide)

end EnginePool

end Thingd.Server
