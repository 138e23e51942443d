import Mathlib

namespace Thingd

open List

section Find

variable {α : Type} [DecidableEq α] {needle l : List α}

def findSub (needle : List α) : List α → Option ℕ
  | [] => if needle = [] then some 0 else none
  | a :: l => if needle.isPrefixOf (a :: l) then some 0 else (findSub needle l).map (· + 1)

theorem findSub_eq_none_iff : findSub needle l = none ↔ ∀ before rest, l ≠ before ++ (needle ++ rest) := by
  induction l with
  | nil =>
    by_cases hneedle : needle = []
    · rw [findSub, if_pos hneedle]
      refine iff_of_false (Option.some_ne_none _) ?_
      intro hall
      exact hall [] [] (by rw [hneedle]; rfl)
    · rw [findSub, if_neg hneedle]
      refine iff_of_true rfl ?_
      intro before rest heq
      rw [eq_comm, append_eq_nil_iff, append_eq_nil_iff] at heq
      exact hneedle heq.2.1
  | cons a l ih =>
    by_cases hhere : needle.isPrefixOf (a :: l) = true
    · rw [findSub, if_pos hhere]
      obtain ⟨rest, hrest⟩ := List.isPrefixOf_iff_prefix.mp hhere
      refine iff_of_false (Option.some_ne_none _) ?_
      intro hall
      exact hall [] rest hrest.symm
    · rw [findSub, if_neg hhere, Option.map_eq_none_iff, ih]
      constructor
      · intro hall before rest heq
        cases before with
        | nil => exact hhere (List.isPrefixOf_iff_prefix.mpr ⟨rest, heq.symm⟩)
        | cons b before => exact hall before rest (List.cons.inj heq).2
      · intro hall before rest heq
        exact hall (a :: before) rest (by rw [heq, cons_append])

theorem findSub_eq_some {i : ℕ} (h : findSub needle l = some i) :
    (∃ before rest, l = before ++ (needle ++ rest) ∧ before.length = i) ∧
      ∀ before rest, l = before ++ (needle ++ rest) → i ≤ before.length := by
  induction l generalizing i with
  | nil =>
    rw [findSub] at h
    split_ifs at h with hneedle
    obtain rfl := Option.some.inj h
    exact ⟨⟨[], [], by rw [hneedle]; rfl, rfl⟩, fun _ _ _ => Nat.zero_le _⟩
  | cons a l ih =>
    rw [findSub] at h
    split_ifs at h with hhere
    · obtain rfl := Option.some.inj h
      obtain ⟨rest, hrest⟩ := List.isPrefixOf_iff_prefix.mp hhere
      exact ⟨⟨[], rest, hrest.symm, rfl⟩, fun _ _ _ => Nat.zero_le _⟩
    · obtain ⟨j, hj, rfl⟩ := Option.map_eq_some_iff.mp h
      obtain ⟨⟨before, rest, hl, hlen⟩, hfirst⟩ := ih hj
      refine ⟨⟨a :: before, rest, by rw [hl, cons_append], by rw [length_cons, hlen]⟩, ?_⟩
      intro before' rest' heq
      cases before' with
      | nil => exact absurd (List.isPrefixOf_iff_prefix.mpr ⟨rest', heq.symm⟩) hhere
      | cons b before' =>
        have := hfirst before' rest' (List.cons.inj heq).2
        rw [length_cons]
        omega

end Find

section Occur

variable {α : Type} {pieces : List (List α)} {l : List α}

def Occur : List (List α) → List α → Prop
  | [], _ => True
  | piece :: pieces, l => ∃ before rest, l = before ++ (piece ++ rest) ∧ Occur pieces rest

theorem Occur.append_left (start : List α) (h : Occur pieces l) : Occur pieces (start ++ l) := by
  cases pieces with
  | nil => trivial
  | cons piece pieces =>
    obtain ⟨before, rest, rfl, hrest⟩ := h
    exact ⟨start ++ before, rest, by rw [append_assoc], hrest⟩

theorem occur_nil_cons : Occur ([] :: pieces) l ↔ Occur pieces l := by
  constructor
  · rintro ⟨before, rest, rfl, hrest⟩
    exact hrest.append_left before
  · intro h
    exact ⟨[], l, rfl, h⟩

theorem occur_append_nil : Occur (pieces ++ [[]]) l ↔ Occur pieces l := by
  induction pieces generalizing l with
  | nil => exact occur_nil_cons
  | cons piece pieces ih =>
    rw [cons_append]
    simp only [Occur, ih]

theorem occur_flatten (pieces : List (List α)) (rest : List α) : Occur pieces (pieces.flatten ++ rest) := by
  induction pieces with
  | nil => trivial
  | cons piece pieces ih =>
    refine ⟨[], pieces.flatten ++ rest, ?_, ih⟩
    rw [flatten_cons, append_assoc, nil_append]

theorem Occur.mem {a : α} {piece : List α} (h : Occur pieces l) (hpiece : piece ∈ pieces) (ha : a ∈ piece) : a ∈ l := by
  induction pieces generalizing l with
  | nil => cases hpiece
  | cons first pieces ih =>
    obtain ⟨before, rest, rfl, hrest⟩ := h
    rcases mem_cons.mp hpiece with rfl | hpiece
    · simp [ha]
    · simp [ih hrest hpiece]

theorem occur_cons_of_findSub [DecidableEq α] {piece : List α} {i : ℕ} (h : findSub piece l = some i) :
    Occur (piece :: pieces) l ↔ Occur pieces (l.drop (i + piece.length)) := by
  obtain ⟨⟨before, rest, hl, hlen⟩, hfirst⟩ := findSub_eq_some h
  have hdrop : l.drop (i + piece.length) = rest := by
    rw [hl, ← hlen, ← append_assoc, ← length_append, drop_left]
  rw [hdrop]
  constructor
  · rintro ⟨before', rest', hl', hoccur⟩
    have hshort := hfirst before' rest' hl'
    have hleft : rest' <:+ l := ⟨before' ++ piece, by rw [hl', append_assoc]⟩
    have hright : rest <:+ l := ⟨before ++ piece, by rw [hl, append_assoc]⟩
    have hsuffix : rest' <:+ rest := by
      apply suffix_of_suffix_length_le hleft hright
      have hlength := congrArg List.length hl
      have hlength' := congrArg List.length hl'
      simp only [length_append] at hlength hlength'
      omega
    obtain ⟨start, rfl⟩ := hsuffix
    exact hoccur.append_left start
  · intro hoccur
    exact ⟨before, rest, hl, hoccur⟩

end Occur

section Split

variable {α : Type} [DecidableEq α] {separator : α} {l piece : List α}

theorem not_mem_of_mem_splitOn (h : piece ∈ l.splitOn separator) : separator ∉ piece := by
  rw [splitOn_eq_splitOnP] at h
  induction l generalizing piece with
  | nil =>
    rw [splitOnP_nil, mem_singleton] at h
    rw [h]
    exact not_mem_nil
  | cons a l ih =>
    rw [splitOnP_cons_eq_if_modifyHead] at h
    split_ifs at h with ha
    · rcases mem_cons.mp h with rfl | h
      · exact not_mem_nil
      · exact ih h
    · cases hsplit : List.splitOnP (· == separator) l with
      | nil => exact absurd hsplit (splitOnP_ne_nil _ _)
      | cons first others =>
        rw [hsplit] at h ih
        rw [modifyHead_cons, mem_cons] at h
        rcases h with rfl | h
        · rw [mem_cons, not_or]
          refine ⟨?_, ih mem_cons_self⟩
          rintro rfl
          exact ha (beq_self_eq_true _)
        · exact ih (mem_cons_of_mem _ h)

theorem flatten_splitOn : (l.splitOn separator).flatten = l.filter (· ≠ separator) := by
  rw [splitOn_eq_splitOnP]
  induction l with
  | nil => simp
  | cons a l ih =>
    rw [splitOnP_cons_eq_if_modifyHead]
    split_ifs with ha
    · simp_all
    · cases hsplit : List.splitOnP (· == separator) l with
      | nil => exact absurd hsplit (splitOnP_ne_nil _ _)
      | cons first others => simp_all

theorem splitOn_append_separator :
    (l ++ separator :: piece).splitOn separator = l.splitOn separator ++ piece.splitOn separator := by
  exact splitOnP_append_cons _ _ (beq_self_eq_true separator)

end Split

end Thingd
