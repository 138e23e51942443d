import Mathlib

namespace Thingd.Writes

variable {α β : Type} [DecidableEq α]

def writeAll (view : α → Option β) (writes : List (α × Option β)) : α → Option β :=
  writes.foldl (fun view write => Function.update view write.1 write.2) view

def lastWrite : List (α × Option β) → α → Option (Option β)
  | [], _ => none
  | write :: writes, key => (lastWrite writes key).or (if key = write.1 then some write.2 else none)

@[simp] theorem lastWrite_nil (key : α) : lastWrite ([] : List (α × Option β)) key = none := rfl

theorem lastWrite_append (writes later : List (α × Option β)) (key : α) :
    lastWrite (writes ++ later) key = (lastWrite later key).or (lastWrite writes key) := by
  induction writes with
  | nil => simp
  | cons write writes ih => simp only [List.cons_append, lastWrite, ih, Option.or_assoc]

theorem writeAll_append (view : α → Option β) (writes later : List (α × Option β)) :
    writeAll view (writes ++ later) = writeAll (writeAll view writes) later := List.foldl_append

theorem writeAll_apply (view : α → Option β) (writes : List (α × Option β)) (key : α) :
    writeAll view writes key = (lastWrite writes key).getD (view key) := by
  induction writes generalizing view with
  | nil => rfl
  | cons write writes ih =>
    change writeAll (Function.update view write.1 write.2) writes key = _
    rw [ih, lastWrite]
    cases lastWrite writes key with
    | some value => rfl
    | none =>
      by_cases hkey : key = write.1
      · simp [hkey]
      · simp [hkey]

theorem lastWrite_map {γ : Type} [DecidableEq γ] {f : α → γ} (hf : Function.Injective f)
    (writes : List (α × Option β)) (key : α) :
    lastWrite (writes.map fun write => (f write.1, write.2)) (f key) = lastWrite writes key := by
  induction writes with
  | nil => rfl
  | cons write writes ih => simp only [List.map_cons, lastWrite, ih, hf.eq_iff]

theorem lastWrite_eq_none {writes : List (α × Option β)} {key : α} (h : key ∉ writes.map Prod.fst) :
    lastWrite writes key = none := by
  induction writes with
  | nil => rfl
  | cons write writes ih =>
    simp only [List.map_cons, List.mem_cons, not_or] at h
    rw [lastWrite, ih h.2, if_neg h.1, Option.none_or]

end Thingd.Writes
