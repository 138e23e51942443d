import Mathlib

namespace Thingd.TopK

open List

variable {α : Type} [LinearOrder α] {limit : ℕ} {seen heap dropped : List α} {x : α}

/-- A bounded max-heap that keeps the least elements it is given; the list stands for the heap in any order. -/
def retain (limit : ℕ) (heap : List α) (x : α) : List α :=
  if heap.length < limit then x :: heap
  else match heap.max? with
    | none => heap
    | some worst => if x < worst then x :: heap.erase worst else heap

/-- The heap holds `limit` of the elements that were seen, none above one that was dropped. -/
structure Retains (limit : ℕ) (seen heap dropped : List α) : Prop where
  perm : (heap ++ dropped).Perm seen
  length : heap.length = min limit seen.length
  le : ∀ x ∈ heap, ∀ y ∈ dropped, x ≤ y

theorem Retains.step (h : Retains limit seen heap dropped) (x : α) :
    ∃ dropped', Retains limit (x :: seen) (retain limit heap x) dropped' := by
  have hlength := h.perm.length_eq
  have hheap := h.length
  rw [length_append] at hlength
  unfold retain
  split_ifs with hroom
  · obtain rfl : dropped = [] := eq_nil_of_length_eq_zero (by omega)
    refine ⟨[], h.perm.cons x, ?_, fun _ _ => forall_mem_nil _⟩
    simp only [length_cons]
    omega
  · cases hmax : heap.max? with
    | none =>
      obtain rfl := List.max?_eq_none_iff.mp hmax
      refine ⟨x :: dropped, h.perm.cons x, ?_, forall_mem_nil _⟩
      simp only [length_nil] at *
      omega
    | some worst =>
      obtain ⟨hworst, hle⟩ := List.max?_eq_some_iff.mp hmax
      dsimp only
      split_ifs with hlt
      · refine ⟨worst :: dropped, ?_, ?_, ?_⟩
        · have hswap : (heap.erase worst ++ worst :: dropped).Perm (heap ++ dropped) :=
            perm_middle.trans ((perm_cons_erase hworst).symm.append_right dropped)
          exact (hswap.trans h.perm).cons x
        · have hpos := length_pos_of_mem hworst
          rw [length_cons, length_erase_of_mem hworst, length_cons]
          omega
        · have hdropped := h.le worst hworst
          refine forall_mem_cons.mpr ⟨?_, fun y hy => ?_⟩
          · exact forall_mem_cons.mpr ⟨hlt.le, fun y hy => hlt.le.trans (hdropped y hy)⟩
          · have hmem := mem_of_mem_erase hy
            exact forall_mem_cons.mpr ⟨hle y hmem, h.le y hmem⟩
      · refine ⟨x :: dropped, perm_middle.trans (h.perm.cons x), ?_, fun y hy => ?_⟩
        · rw [length_cons]
          omega
        · exact forall_mem_cons.mpr ⟨(hle y hy).trans (not_lt.mp hlt), h.le y hy⟩

theorem retains_foldl (limit : ℕ) (xs : List α) :
    ∃ dropped, Retains limit xs.reverse (xs.foldl (retain limit) []) dropped := by
  induction xs using List.reverseRecOn with
  | nil => exact ⟨[], .refl _, by simp, fun _ _ => forall_mem_nil _⟩
  | append_singleton xs x ih =>
    obtain ⟨dropped, h⟩ := ih
    rw [foldl_append, reverse_append]
    exact h.step x

theorem mergeSort_retained (limit : ℕ) (xs : List α) :
    (xs.foldl (retain limit) []).mergeSort (· ≤ ·) = (xs.mergeSort (· ≤ ·)).take limit := by
  obtain ⟨dropped, h⟩ := retains_foldl limit xs
  have hsorted (l : List α) : (l.mergeSort (· ≤ ·)).Pairwise (· ≤ ·) := pairwise_mergeSort' (· ≤ ·) l
  have hall : (xs.foldl (retain limit) []).mergeSort (· ≤ ·) ++ dropped.mergeSort (· ≤ ·) = xs.mergeSort (· ≤ ·) := by
    apply Perm.eq_of_pairwise' _ (hsorted xs)
    · exact (((mergeSort_perm _ _).append (mergeSort_perm _ _)).trans (h.perm.trans xs.reverse_perm)).trans
        (mergeSort_perm _ _).symm
    · refine pairwise_append.mpr ⟨hsorted _, hsorted _, fun x hx y hy => ?_⟩
      exact h.le x (mem_mergeSort.mp hx) y (mem_mergeSort.mp hy)
  have hlength := h.length
  have hdropped := h.perm.length_eq
  rw [length_append] at hdropped
  rw [← hall]
  rcases le_total limit xs.reverse.length with hle | hle
  · rw [take_left' (by rw [length_mergeSort]; omega)]
  · obtain rfl : dropped = [] := eq_nil_of_length_eq_zero (by omega)
    rw [mergeSort_nil, append_nil, take_of_length_le (by rw [length_mergeSort]; omega)]

end Thingd.TopK
