import Mathlib

namespace Thingd

def StoreCall (σ ε α : Type) : Type := σ → List σ × Except ε α

namespace StoreCall

variable {σ ε α β : Type} {call : StoreCall σ ε α} {next : α → StoreCall σ ε β} {s : σ} {a : α} {b : β} {error : ε}

section

variable (call : StoreCall σ ε α) (s : σ)

def commits : List σ := (call s).1

def result : Except ε α := (call s).2

def last : σ := (call.commits s).getLastD s

end

def fail (error : ε) : StoreCall σ ε α := fun _ => ([], .error error)

def load : StoreCall σ ε σ := fun s => ([], .ok s)

def commit (step : σ → Except ε (α × σ)) : StoreCall σ ε α := fun s =>
  match step s with
  | .ok (a, t) => ([t], .ok a)
  | .error error => ([], .error error)

instance : Monad (StoreCall σ ε) where
  pure a := fun _ => ([], .ok a)
  bind call next := fun s =>
    match call.result s with
    | .ok a => (call.commits s ++ (next a).commits (call.last s), (next a).result (call.last s))
    | .error error => (call.commits s, .error error)

@[simp] theorem commits_pure : (pure a : StoreCall σ ε α).commits s = [] := rfl

@[simp] theorem result_pure : (pure a : StoreCall σ ε α).result s = .ok a := rfl

@[simp] theorem last_pure : (pure a : StoreCall σ ε α).last s = s := rfl

@[simp] theorem commits_fail : (fail error : StoreCall σ ε α).commits s = [] := rfl

@[simp] theorem result_fail : (fail error : StoreCall σ ε α).result s = .error error := rfl

@[simp] theorem last_fail : (fail error : StoreCall σ ε α).last s = s := rfl

@[simp] theorem commits_load : (load : StoreCall σ ε σ).commits s = [] := rfl

@[simp] theorem result_load : (load : StoreCall σ ε σ).result s = .ok s := rfl

@[simp] theorem last_load : (load : StoreCall σ ε σ).last s = s := rfl

theorem bind_of_ok (h : call.result s = .ok a) :
    (call >>= next) s = (call.commits s ++ (next a).commits (call.last s), (next a).result (call.last s)) := by
  simp only [bind, h]

theorem bind_of_error (h : call.result s = .error error) : (call >>= next) s = (call.commits s, .error error) := by
  simp only [bind, h]

theorem commits_bind_of_ok (h : call.result s = .ok a) :
    (call >>= next).commits s = call.commits s ++ (next a).commits (call.last s) := congrArg Prod.fst (bind_of_ok h)

theorem result_bind_of_ok (h : call.result s = .ok a) : (call >>= next).result s = (next a).result (call.last s) := by
  rw [result, bind_of_ok h]

theorem commits_bind_of_error (h : call.result s = .error error) : (call >>= next).commits s = call.commits s :=
  congrArg Prod.fst (bind_of_error h)

theorem result_bind_of_error (h : call.result s = .error error) : (call >>= next).result s = .error error :=
  congrArg Prod.snd (bind_of_error h)

theorem last_bind_of_ok (h : call.result s = .ok a) : (call >>= next).last s = (next a).last (call.last s) := by
  rw [last, commits_bind_of_ok h, last, last]
  cases hmore : (next a).commits ((call.commits s).getLastD s) with
  | nil => simp
  | cons t more => simp [List.getLastD_eq_getLast?]

theorem bind_congr_call {other : StoreCall σ ε α} (h : call s = other s) : (call >>= next) s = (other >>= next) s := by
  simp only [bind, commits, result, last, h]

theorem bind_congr_next {other : α → StoreCall σ ε β}
    (h : ∀ a, call.result s = .ok a → next a (call.last s) = other a (call.last s)) :
    (call >>= next) s = (call >>= other) s := by
  cases hresult : call.result s with
  | ok a =>
    rw [bind_of_ok hresult, bind_of_ok hresult]
    exact congrArg (fun run => (call.commits s ++ run.1, run.2)) (h a hresult)
  | error error => rw [bind_of_error hresult, bind_of_error hresult]

theorem result_bind_eq_ok :
    (call >>= next).result s = .ok b ↔ ∃ a, call.result s = .ok a ∧ (next a).result (call.last s) = .ok b := by
  cases h : call.result s with
  | ok a => simp [result_bind_of_ok h]
  | error error => simp [result_bind_of_error h]

theorem bind_pure_self (call : StoreCall σ ε α) : (call >>= pure) = call := by
  funext s
  cases h : call.result s with
  | ok a =>
    rw [bind_of_ok h, commits_pure, result_pure, List.append_nil, ← h]
    rfl
  | error error =>
    rw [bind_of_error h, ← h]
    rfl

theorem bind_bind {γ : Type} (call : StoreCall σ ε α) (next : α → StoreCall σ ε β) (more : β → StoreCall σ ε γ) :
    (call >>= next >>= more) = (call >>= fun a => next a >>= more) := by
  funext s
  cases h : call.result s with
  | error error =>
    have hnext : (call >>= next).result s = .error error := result_bind_of_error h
    rw [bind_of_error hnext, bind_of_error h, commits_bind_of_error h]
  | ok a =>
    rw [bind_of_ok h]
    cases hnext : (next a).result (call.last s) with
    | error error =>
      have hboth : (call >>= next).result s = .error error := (result_bind_of_ok h).trans hnext
      rw [bind_of_error hboth, commits_bind_of_ok h, commits_bind_of_error hnext, result_bind_of_error hnext]
    | ok b =>
      have hboth : (call >>= next).result s = .ok b := (result_bind_of_ok h).trans hnext
      rw [bind_of_ok hboth, commits_bind_of_ok h, commits_bind_of_ok hnext, result_bind_of_ok hnext, last_bind_of_ok h,
        List.append_assoc]

instance : LawfulMonad (StoreCall σ ε) := LawfulMonad.mk' _ bind_pure_self (fun _ _ => rfl) bind_bind

@[simp] theorem fail_bind (error : ε) (next : α → StoreCall σ ε β) :
    ((fail error : StoreCall σ ε α) >>= next) = fail error := rfl

@[simp] theorem map_fail (error : ε) (f : α → β) : f <$> (fail error : StoreCall σ ε α) = fail error := rfl

theorem last_of_commits_eq_nil (h : call.commits s = []) : call.last s = s := by simp [last, h]

def cut (call : StoreCall σ ε α) (n : ℕ) (s : σ) : σ := ((call.commits s).take n).getLastD s

@[simp] theorem cut_zero : call.cut 0 s = s := rfl

theorem cut_of_length_le {n : ℕ} (h : (call.commits s).length ≤ n) : call.cut n s = call.last s := by
  rw [cut, List.take_of_length_le h, last]

theorem cut_bind_of_le {n : ℕ} (h : call.result s = .ok a) (hn : n ≤ (call.commits s).length) :
    (call >>= next).cut n s = call.cut n s := by
  rw [cut, commits_bind_of_ok h, List.take_append_of_le_length hn, cut]

theorem cut_bind_of_ge (n : ℕ) (h : call.result s = .ok a) :
    (call >>= next).cut ((call.commits s).length + n) s = (next a).cut n (call.last s) := by
  rw [cut, commits_bind_of_ok h, List.take_length_add_append, cut, last]
  cases hmore : ((next a).commits ((call.commits s).getLastD s)).take n with
  | nil => simp
  | cons t more => simp [List.getLastD_eq_getLast?]

def Keeps (p : σ → Prop) (call : StoreCall σ ε α) : Prop := ∀ s, p s → ∀ t ∈ call.commits s, p t

section Keeps

variable {p : σ → Prop}

theorem Keeps.last (h : Keeps p call) (hs : p s) : p (call.last s) := by
  rw [StoreCall.last]
  cases hnil : (call.commits s).getLast? with
  | none => simpa [hnil] using hs
  | some t =>
    have hlast := h s hs t (List.mem_of_mem_getLast? hnil)
    simpa [hnil] using hlast

theorem Keeps.cut (h : Keeps p call) (hs : p s) (n : ℕ) : p (call.cut n s) := by
  rw [StoreCall.cut]
  cases hnil : ((call.commits s).take n).getLast? with
  | none => simpa [hnil] using hs
  | some t =>
    have hcut := h s hs t (List.mem_of_mem_take (List.mem_of_mem_getLast? hnil))
    simpa [hnil] using hcut

theorem keeps_pure : Keeps p (pure a : StoreCall σ ε α) := fun _ _ _ ht => absurd ht List.not_mem_nil

theorem keeps_fail : Keeps p (fail error : StoreCall σ ε α) := fun _ _ _ ht => absurd ht List.not_mem_nil

theorem keeps_load : Keeps p (load : StoreCall σ ε σ) := fun _ _ _ ht => absurd ht List.not_mem_nil

theorem Keeps.bind (h : Keeps p call) (hnext : ∀ a, Keeps p (next a)) : Keeps p (call >>= next) := by
  intro s hs t ht
  cases hresult : call.result s with
  | ok a =>
    rw [commits_bind_of_ok hresult] at ht
    rcases List.mem_append.mp ht with ht | ht
    · exact h s hs t ht
    · exact hnext a _ (h.last hs) t ht
  | error error =>
    rw [commits_bind_of_error hresult] at ht
    exact h s hs t ht

end Keeps

end StoreCall

end Thingd
