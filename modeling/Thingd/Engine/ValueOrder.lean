import Thingd.Data.Json
import Thingd.Data.Text
import Thingd.Engine.Events

namespace Thingd.Engine

def order {α : Type} [LinearOrder α] (a b : α) : Ordering := cmp a b

/-- What the engines take from `serde_json`: a number as text and as `f64`, where `0.0` and `-0.0` are one, and the
escapes of a string. -/
structure JsonText (F : Type) where
  asF64 : JsonNumber → Option F
  zero : F
  number : JsonNumber → Bytes
  escape : Bytes → Bytes

namespace JsonText

variable {F : Type} (text : JsonText F)

def quoted (s : Bytes) : Bytes := 34 :: (text.escape s ++ [34])

mutual

def print : Value → Bytes
  | .null => bytesOf "null"
  | .bool true => bytesOf "true"
  | .bool false => bytesOf "false"
  | .number n => text.number n
  | .string s => text.quoted s
  | .array items => 91 :: (printItems [] items ++ [93])
  | .object fields => 123 :: (printFields [] fields ++ [125])

def printItems : Bytes → List Value → Bytes
  | _, [] => []
  | separator, item :: items => separator ++ (print item ++ printItems [44] items)

def printFields : Bytes → List (Bytes × Value) → Bytes
  | _, [] => []
  | separator, (name, value) :: fields =>
    separator ++ (text.quoted name ++ 58 :: (print value ++ printFields [44] fields))

end

variable [LinearOrder F]

def valueCompare : Value → Value → Ordering
  | .number a, .number b => order ((text.asF64 a).getD text.zero) ((text.asF64 b).getD text.zero)
  | .string a, .string b => order a b
  | .bool a, .bool b => order a b
  | a, b => order (text.print a) (text.print b)

end JsonText

inductive SortDirection
  | asc
  | desc

structure SortBy where
  field : Bytes
  direction : SortDirection

namespace JsonText

variable {F : Type} [LinearOrder F] (text : JsonText F) (parse : Bytes → Option Value)

def optionCompare : Option Value → Option Value → Ordering
  | some a, some b => text.valueCompare a b
  | some _, none => .gt
  | none, some _ => .lt
  | none, none => .eq

def fieldCompare (field : Bytes) (a b : MemoryObject) : Ordering :=
  if (bytesOf "$.").isPrefixOf field then
    let path := field.dropWhile (· = 36)
    text.optionCompare ((parse a.body).bind fun v => v.get path) ((parse b.body).bind fun v => v.get path)
  else if field = bytesOf "id" then order a.key.id b.key.id
  else if field = bytesOf "collection" then order a.key.collection b.key.collection
  else if field = bytesOf "created_at" then order a.createdAt b.createdAt
  else if field = bytesOf "updated_at" then order a.updatedAt b.updatedAt
  else if field = bytesOf "version" then order a.version.toNat b.version.toNat
  else .eq

def objectCompare (sortBy : SortBy) (a b : MemoryObject) : Ordering :=
  match sortBy.direction with
  | .asc => text.fieldCompare parse sortBy.field a b
  | .desc => (text.fieldCompare parse sortBy.field a b).swap

end JsonText

structure Preordered {α : Type} (compare : α → α → Ordering) : Prop where
  refl : ∀ a, compare a a = .eq
  swap : ∀ a b, compare b a = (compare a b).swap
  trans : ∀ a b c, compare a b ≠ .gt → compare b c ≠ .gt → compare a c ≠ .gt

section Order

variable {α β : Type} [LinearOrder α] [LinearOrder β]

theorem order_self (a : α) : order a a = .eq := cmp_self_eq_eq a

theorem order_swap (a b : α) : (order a b).swap = order b a := cmp_swap a b

theorem order_eq_lt_iff {a b : α} : order a b = .lt ↔ a < b := cmp_eq_lt_iff a b

theorem order_eq_gt_iff {a b : α} : order a b = .gt ↔ b < a := cmp_eq_gt_iff a b

theorem order_coe (a b : α) : order (a : WithBot α) b = order a b := by
  simp only [order, cmp, cmpUsing, WithBot.coe_lt_coe]

theorem order_toLex (i j : α) (x y : β) : order (toLex (i, x)) (toLex (j, y)) = (order i j).then (order x y) := by
  rcases lt_trichotomy i j with h | rfl | h
  · rw [order_eq_lt_iff.mpr h]
    exact order_eq_lt_iff.mpr (Prod.Lex.toLex_lt_toLex.mpr (Or.inl h))
  · rw [order_self]
    simp [order, cmp, cmpUsing, Prod.Lex.toLex_lt_toLex]
  · rw [order_eq_gt_iff.mpr h]
    exact order_eq_gt_iff.mpr (Prod.Lex.toLex_lt_toLex.mpr (Or.inl h))

end Order

theorem preordered_of_rank {α β : Type} [LinearOrder α] {compare : β → β → Ordering} (rank : β → α)
    (h : ∀ a b, compare a b = order (rank a) (rank b)) : Preordered compare := by
  refine ⟨fun a => ?_, fun a b => ?_, fun a b c hab hbc => ?_⟩
  · rw [h, order_self]
  · rw [h, h, order_swap]
  · rw [h, Ne, order_eq_gt_iff, not_lt] at *
    exact hab.trans hbc

theorem Preordered.reverse {α : Type} {compare : α → α → Ordering} (h : Preordered compare) :
    Preordered fun a b => (compare a b).swap := by
  refine ⟨fun a => by rw [h.refl]; rfl, fun a b => by rw [h.swap], fun a b c hab hbc => ?_⟩
  rw [← h.swap] at *
  exact h.trans c b a hbc hab

namespace JsonText

/-- Strings, numbers and the other values, in the order of the bytes with which they are printed. -/
def kind : Value → ℕ
  | .string _ => 0
  | .number _ => 1
  | _ => 2

def leadKind (lead : ℕ) : ℕ := if lead ≤ 34 then 0 else if lead ≤ 57 then 1 else 2

variable {F : Type} (text : JsonText F)

/-- A printed number starts with a sign or a digit. -/
def Numeric : Prop :=
  ∀ n, ∃ lead rest, text.number n = lead :: rest ∧ (lead.val = 45 ∨ 48 ≤ lead.val ∧ lead.val ≤ 57)

variable {text} {a b : Value}

theorem exists_lead (h : text.Numeric) (value : Value) :
    ∃ lead rest, text.print value = lead :: rest ∧ leadKind lead.val = kind value := by
  cases value with
  | null => exact ⟨_, _, by rw [print]; rfl, rfl⟩
  | bool b => cases b <;> exact ⟨_, _, by rw [print]; rfl, rfl⟩
  | number n =>
    obtain ⟨lead, rest, hprint, hlead⟩ := h n
    refine ⟨lead, rest, by rw [print, hprint], ?_⟩
    rw [leadKind, if_neg (by omega), if_pos (by omega)]
    rfl
  | string s => exact ⟨_, _, by rw [print]; rfl, rfl⟩
  | array items => exact ⟨_, _, by rw [print], rfl⟩
  | object fields => exact ⟨_, _, by rw [print], rfl⟩

theorem print_lt (h : text.Numeric) (hkind : kind a < kind b) : text.print a < text.print b := by
  have hmono : Monotone leadKind := by
    intro m n hle
    simp only [leadKind]
    split_ifs <;> omega
  obtain ⟨lead, rest, ha, hlead⟩ := exists_lead h a
  obtain ⟨lead', rest', hb, hlead'⟩ := exists_lead h b
  rw [ha, hb]
  refine List.cons_lt_cons_iff.mpr (Or.inl (hmono.reflect_lt ?_))
  rwa [hlead, hlead']

variable [LinearOrder F]

theorem valueCompare_print (h : kind a ≠ kind b ∨ kind a = 2) :
    text.valueCompare a b = order (text.print a) (text.print b) := by
  cases a with
  | number m =>
    cases b with
    | number n => exact h.elim (absurd rfl) nofun
    | _ => rfl
  | string s =>
    cases b with
    | string t => exact h.elim (absurd rfl) nofun
    | _ => rfl
  | bool a =>
    cases b with
    | bool b => cases a <;> cases b <;> simp only [print] <;> rfl
    | _ => rfl
  | _ => rfl

variable (text) in
def detail : Value → F ×ₗ Bytes
  | .number n => toLex ((text.asF64 n).getD text.zero, [])
  | .string s => toLex (text.zero, s)
  | value => toLex (text.zero, text.print value)

variable (text) in
def rank (value : Value) : ℕ ×ₗ (F ×ₗ Bytes) := toLex (kind value, text.detail value)

theorem valueCompare_of_eq (hkind : kind a = kind b) :
    text.valueCompare a b = order (text.detail a) (text.detail b) := by
  have htexts (s t : Bytes) : order (toLex (text.zero, s)) (toLex (text.zero, t)) = order s t := by
    rw [order_toLex, order_self]
    rfl
  have hplain {value : Value} (h : kind value = 2) : text.detail value = toLex (text.zero, text.print value) := by
    cases value with
    | number n => cases h
    | string s => cases h
    | _ => rfl
  by_cases h : kind a = 2
  · rw [valueCompare_print (Or.inr h), hplain h, hplain (hkind.symm.trans h), htexts]
  · cases a with
    | number m =>
      cases b with
      | number n =>
        rw [detail, detail, order_toLex, order_self ([] : Bytes)]
        exact Ordering.then_eq.symm
      | _ => cases hkind
    | string s =>
      cases b with
      | string t => exact (htexts s t).symm
      | _ => cases hkind
    | _ => exact absurd rfl h

theorem valueCompare_eq (h : text.Numeric) (a b : Value) :
    text.valueCompare a b = order (text.rank a) (text.rank b) := by
  rw [rank, rank, order_toLex]
  rcases lt_trichotomy (kind a) (kind b) with hlt | heq | hgt
  · rw [valueCompare_print (Or.inl hlt.ne), order_eq_lt_iff.mpr (print_lt h hlt), order_eq_lt_iff.mpr hlt]
    rfl
  · rw [valueCompare_of_eq heq, heq, order_self]
    rfl
  · rw [valueCompare_print (Or.inl hgt.ne'), order_eq_gt_iff.mpr (print_lt h hgt), order_eq_gt_iff.mpr hgt]
    rfl

theorem optionCompare_eq (h : text.Numeric) (a b : Option Value) :
    text.optionCompare a b = order (WithBot.map text.rank a) (WithBot.map text.rank b) := by
  cases a with
  | none =>
    cases b with
    | none => exact (order_self _).symm
    | some b => exact (order_eq_lt_iff.mpr (WithBot.bot_lt_coe _)).symm
  | some a =>
    cases b with
    | none => exact (order_eq_gt_iff.mpr (WithBot.bot_lt_coe _)).symm
    | some b =>
      rw [optionCompare, valueCompare_eq h]
      exact (order_coe _ _).symm

theorem preordered_fieldCompare (h : text.Numeric) (parse : Bytes → Option Value) (field : Bytes) :
    Preordered (text.fieldCompare parse field) := by
  unfold fieldCompare
  split_ifs
  · exact preordered_of_rank (fun object => WithBot.map text.rank ((parse object.body).bind fun v => v.get _))
      fun a b => optionCompare_eq h _ _
  · exact preordered_of_rank (fun object => object.key.id) fun a b => rfl
  · exact preordered_of_rank (fun object => object.key.collection) fun a b => rfl
  · exact preordered_of_rank MemoryObject.createdAt fun a b => rfl
  · exact preordered_of_rank MemoryObject.updatedAt fun a b => rfl
  · exact preordered_of_rank (fun object => object.version.toNat) fun a b => rfl
  · exact preordered_of_rank (fun _ => ()) fun a b => (order_self _).symm

/-- No sort of either engine meets an inconsistent order. -/
theorem value_compare_is_total_preorder (h : text.Numeric) (parse : Bytes → Option Value) :
    Preordered text.valueCompare ∧ ∀ sortBy, Preordered (text.objectCompare parse sortBy) := by
  refine ⟨preordered_of_rank text.rank (valueCompare_eq h), fun sortBy => ?_⟩
  obtain ⟨field, direction⟩ := sortBy
  cases direction with
  | asc => exact preordered_fieldCompare h parse field
  | desc => exact (preordered_fieldCompare h parse field).reverse

/-- Integers as they are printed; a float stands as its bits. -/
def integers : JsonText ℤ where
  asF64
    | .unsigned n | .float n => some n.toNat
    | .negative bits => some (bits.toNat - 2 ^ 64)
  zero := 0
  number
    | .unsigned n | .float n => decimal n.toNat
    | .negative bits => 45 :: decimal (2 ^ 64 - bits.toNat)
  escape := id

theorem integers_are_ordered : Preordered integers.valueCompare ∧
    ∀ sortBy, Preordered (integers.objectCompare (fun _ => none) sortBy) := by
  have hdigits (n : ℕ) : ∃ lead rest, decimal n = lead :: rest ∧ (lead.val = 45 ∨ 48 ≤ lead.val ∧ lead.val ≤ 57) := by
    obtain ⟨lead, rest, hdecimal⟩ := List.exists_cons_of_ne_nil (decimal_ne_nil n)
    exact ⟨lead, rest, hdecimal, Or.inr (mem_decimal (hdecimal ▸ List.mem_cons_self))⟩
  refine value_compare_is_total_preorder (fun n => ?_) _
  cases n with
  | unsigned n => exact hdigits n.toNat
  | negative bits => exact ⟨_, _, rfl, Or.inl rfl⟩
  | float bits => exact hdigits bits.toNat

end JsonText

end Thingd.Engine
