import Mathlib

namespace Thingd.Trace

variable {σ α : Type} (step : σ → α → σ) {p q : σ → Prop} {safe : σ → α → Prop} {s : σ} {inputs : List α}

def EveryState (p : σ → Prop) : σ → List α → Prop
  | s, [] => p s
  | s, a :: inputs => p s ∧ EveryState p (step s a) inputs

def EveryStep (safe : σ → α → Prop) : σ → List α → Prop
  | _, [] => True
  | s, a :: inputs => safe s a ∧ EveryStep safe (step s a) inputs

variable {step}

theorem EveryState.head (h : EveryState step p s inputs) : p s := by
  cases inputs with
  | nil => exact h
  | cons a inputs => exact h.1

/-- The property holds all along the run exactly if each step is one that keeps it; `q` is kept by every admitted
step. -/
theorem everyState_iff_of_admitted {admits : σ → α → Prop} (hq : ∀ s a, admits s a → q s → q (step s a))
    (hp : ∀ s a, admits s a → q s → p s → (p (step s a) ↔ safe s a)) (hs : q s) (h : p s)
    (hadmits : EveryStep step admits s inputs) : EveryState step p s inputs ↔ EveryStep step safe s inputs := by
  induction inputs generalizing s with
  | nil => exact iff_of_true h trivial
  | cons a inputs ih =>
    obtain ⟨ha, hinputs⟩ := hadmits
    constructor
    · rintro ⟨-, hrest⟩
      exact ⟨(hp s a ha hs h).mp hrest.head, (ih (hq s a ha hs) hrest.head hinputs).mp hrest⟩
    · rintro ⟨hsafe, hrest⟩
      exact ⟨h, (ih (hq s a ha hs) ((hp s a ha hs h).mpr hsafe) hinputs).mpr hrest⟩

theorem everyState_iff_of_kept (hq : ∀ s a, q s → safe s a → q (step s a)) (hp : ∀ s, q s → p s)
    (hn : ∀ s a, q s → ¬ safe s a → ¬ p (step s a)) (hs : q s) :
    EveryState step p s inputs ↔ EveryStep step safe s inputs := by
  induction inputs generalizing s with
  | nil => exact iff_of_true (hp s hs) trivial
  | cons a inputs ih =>
    by_cases hsafe : safe s a
    · exact and_congr (iff_of_true (hp s hs) hsafe) (ih (hq s a hs hsafe))
    · exact iff_of_false (fun h => hn s a hs hsafe h.2.head) fun h => hsafe h.1

theorem EveryStep.imp_of_kept {keeps : σ → α → Prop} (hq : ∀ s a, q s → safe s a → q (step s a))
    (h : ∀ s a, q s → safe s a → keeps s a) (hsafe : EveryStep step safe s inputs) (hs : q s) :
    EveryStep step keeps s inputs := by
  induction inputs generalizing s with
  | nil => trivial
  | cons a inputs ih => exact ⟨h s a hs hsafe.1, ih hsafe.2 (hq s a hs hsafe.1)⟩

theorem everyStep_true (s : σ) (inputs : List α) : EveryStep step (fun _ _ => True) s inputs := by
  induction inputs generalizing s with
  | nil => trivial
  | cons a inputs ih => exact ⟨trivial, ih _⟩

theorem everyState_iff_everyStep (hq : ∀ s a, q s → q (step s a)) (hp : ∀ s a, q s → p s → (p (step s a) ↔ safe s a))
    (hs : q s) (h : p s) : EveryState step p s inputs ↔ EveryStep step safe s inputs :=
  everyState_iff_of_admitted (fun s a _ => hq s a) (fun s a _ => hp s a) hs h (everyStep_true s inputs)

end Thingd.Trace
