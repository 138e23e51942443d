import Thingd.Data.Bytes

namespace Thingd

section Split

variable {α : Type} [DecidableEq α] {separator : α} {l left right : List α}

def splitOnce (separator : α) : List α → Option (List α × List α)
  | [] => none
  | a :: l => if a = separator then some ([], l) else (splitOnce separator l).map fun parts => (a :: parts.1, parts.2)

def rsplitOnce (separator : α) (l : List α) : Option (List α × List α) :=
  (splitOnce separator l.reverse).map fun parts => (parts.2.reverse, parts.1.reverse)

def stripPrefix (start l : List α) : Option (List α) := if start.isPrefixOf l then some (l.drop start.length) else none

theorem splitOnce_append (h : separator ∉ left) :
    splitOnce separator (left ++ separator :: right) = some (left, right) := by
  induction left with
  | nil => simp [splitOnce]
  | cons a left ih =>
    rw [List.mem_cons, not_or] at h
    simp [splitOnce, Ne.symm h.1, ih h.2]

theorem append_of_splitOnce (h : splitOnce separator l = some (left, right)) : left ++ separator :: right = l := by
  induction l generalizing left with
  | nil => cases h
  | cons a l ih =>
    rw [splitOnce] at h
    split_ifs at h with ha
    · obtain ⟨rfl, rfl⟩ := Prod.mk.inj (Option.some.inj h)
      rw [ha, List.nil_append]
    · obtain ⟨parts, hparts, heq⟩ := Option.map_eq_some_iff.mp h
      obtain ⟨rfl, rfl⟩ := Prod.mk.inj heq
      rw [List.cons_append, ih hparts]

theorem splitOnce_isSome : (splitOnce separator l).isSome = true ↔ separator ∈ l := by
  induction l with
  | nil => simp [splitOnce]
  | cons a l ih =>
    by_cases ha : a = separator
    · simp [splitOnce, ha]
    · simp [splitOnce, ha, ih, Ne.symm ha]

theorem rsplitOnce_append (h : separator ∉ right) :
    rsplitOnce separator (left ++ separator :: right) = some (left, right) := by
  have hreverse : (left ++ separator :: right).reverse = right.reverse ++ separator :: left.reverse := by simp
  rw [rsplitOnce, hreverse, splitOnce_append (by simpa using h)]
  simp

theorem stripPrefix_append (start l : List α) : stripPrefix start (start ++ l) = some l := by simp [stripPrefix]

end Split

section Decimal

def decimal (n : ℕ) : Bytes :=
  if n = 0 then [48] else (Nat.digits 10 n).reverse.map fun digit => Fin.ofNat 256 (48 + digit)

def parseDigit (bound n : ℕ) (byte : Byte) : Option ℕ :=
  if 48 ≤ byte.val ∧ byte.val ≤ 57 then
    if n * 10 + (byte.val - 48) < bound then some (n * 10 + (byte.val - 48)) else none
  else none

def dropPlus (text : Bytes) : Bytes := if text.head? = some 43 then text.tail else text

def parseDecimal (bound : ℕ) (text : Bytes) : Option ℕ :=
  if (dropPlus text).isEmpty then none else (dropPlus text).foldlM (parseDigit bound) 0

theorem val_digit {digit : ℕ} (h : digit < 10) : (Fin.ofNat 256 (48 + digit)).val = 48 + digit := by
  rw [Fin.val_ofNat]
  omega

theorem mem_decimal {n : ℕ} {byte : Byte} (h : byte ∈ decimal n) : 48 ≤ byte.val ∧ byte.val ≤ 57 := by
  rw [decimal] at h
  split_ifs at h
  · rw [List.mem_singleton] at h
    rw [h]
    decide
  · obtain ⟨digit, hdigit, rfl⟩ := List.mem_map.mp h
    have hlt : digit < 10 := Nat.digits_lt_base (by omega) (List.mem_reverse.mp hdigit)
    rw [val_digit hlt]
    omega

theorem decimal_ne_nil (n : ℕ) : decimal n ≠ [] := by
  rw [decimal]
  split_ifs with hn
  · simp
  · simpa [Nat.digits_eq_nil_iff_eq_zero] using hn

theorem foldlM_parseDigit {bound n : ℕ} (hn : n < bound) :
    ((Nat.digits 10 n).reverse.map fun digit => Fin.ofNat 256 (48 + digit)).foldlM (parseDigit bound) 0 = some n := by
  induction n using Nat.strongRecOn with
  | _ n ih =>
    rcases Nat.eq_zero_or_pos n with rfl | hpos
    · rfl
    · have hvalue : n / 10 * 10 + n % 10 = n := Nat.div_add_mod' n 10
      rw [Nat.digits_def' (by omega) hpos, List.reverse_cons, List.map_append, List.foldlM_append,
        ih (n / 10) (by omega) (by omega)]
      simp [parseDigit, Nat.mod_eq_of_lt (show 48 + n % 10 < 256 by omega), hvalue]
      omega

theorem parseDecimal_decimal {bound n : ℕ} (hn : n < bound) : parseDecimal bound (decimal n) = some n := by
  have hdigits : dropPlus (decimal n) = decimal n := by
    apply if_neg
    intro hhead
    have hplus := mem_decimal (List.mem_of_mem_head? hhead)
    revert hplus
    decide
  rw [parseDecimal, hdigits, if_neg (by simpa using decimal_ne_nil n), decimal]
  split_ifs with hzero
  · subst hzero
    simp [parseDigit, hn]
  · exact foldlM_parseDigit hn

theorem decimal_injective : Function.Injective decimal := by
  intro m n h
  have hm : parseDecimal (max m n + 1) (decimal m) = some m := parseDecimal_decimal (by omega)
  have hn : parseDecimal (max m n + 1) (decimal n) = some n := parseDecimal_decimal (by omega)
  rw [h, hn] at hm
  exact (Option.some.inj hm).symm

end Decimal

end Thingd
