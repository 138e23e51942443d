import Thingd.ThingDb.Scan
import Thingd.ThingDb.View

namespace Thingd.ThingDb

open Bytes Merge

theorem isPrefix_iff_lt_successor (key bytes : Bytes) :
    key <+: bytes ↔ key ≤ bytes ∧ (successor key).all (bytes < ·) = true := by
  induction key generalizing bytes with
  | nil => simp [successor, nil_le]
  | cons byte key ih =>
    cases bytes with
    | nil =>
      have hnle : ¬ byte :: key ≤ [] := not_le.mpr (List.nil_lt_cons byte key)
      simp [hnle]
    | cons first bytes =>
      rw [List.cons_prefix_cons, cons_le_cons_iff, ih, successor]
      cases successor key with
      | some next =>
        simp only [Option.all_some, decide_eq_true_eq, List.cons_lt_cons_iff]
        constructor
        · rintro ⟨rfl, hle, hlt⟩
          exact ⟨Or.inr ⟨rfl, hle⟩, Or.inr ⟨rfl, hlt⟩⟩
        · rintro ⟨hbyte | ⟨rfl, hle⟩, hfirst | ⟨heq, hlt⟩⟩
          · exact absurd (hbyte.trans hfirst) (lt_irrefl _)
          · exact absurd hbyte (heq ▸ lt_irrefl _)
          · exact absurd hfirst (lt_irrefl _)
          · exact ⟨rfl, hle, hlt⟩
      | none =>
        by_cases hmax : byte = 255
        · simp only [hmax, Option.all_none]
          have hlast : ¬ (255 : Byte) < first := by
            intro hlt
            have hval : 255 < first.val := hlt
            omega
          simp [hlast]
        · simp only [hmax, if_false, Option.all_none, and_true, Option.all_some, decide_eq_true_eq,
            List.cons_lt_cons_iff, List.not_lt_nil, and_false, or_false]
          have hnext : first < byte + 1 ↔ first ≤ byte := by
            have hval : (byte + 1).val = byte.val + 1 := by
              apply Fin.val_add_one_of_lt'
              have : byte.val ≠ 255 := fun h => hmax (Fin.ext h)
              omega
            rw [Fin.lt_def, Fin.le_def]
            omega
          rw [hnext]
          constructor
          · rintro ⟨rfl, hle⟩
            exact ⟨Or.inr ⟨rfl, hle⟩, le_rfl⟩
          · rintro ⟨hlt | ⟨rfl, hle⟩, hfirst⟩
            · exact absurd (hlt.trans_le hfirst) (lt_irrefl _)
            · exact ⟨rfl, hle⟩

theorem lt_successor {key next : Bytes} (h : successor key = some next) : key < next := by
  have hself := ((isPrefix_iff_lt_successor key key).mp List.prefix_rfl).2
  rw [h] at hself
  simpa using hself

theorem inRange_iff {lower key : Bytes} {upper after : Option Bytes} :
    inRange lower upper after key = true ↔
      (match after with | some after => after < key | none => lower ≤ key) ∧ ∀ bound, upper = some bound →
        key < bound := by
  cases upper <;> cases after <;> simp [inRange]

namespace ScanBounds

variable {bounds : ScanBounds} {ns key user : Bytes}

theorem userKey_eq_some : bounds.userKey ns key = some user ↔ key = ns ++ user ∧
    (∀ keyPrefix, bounds.keyPrefix = some keyPrefix → keyPrefix <+: user) ∧
    (∀ start inclusive, bounds.start = some (start, inclusive) → if inclusive then start ≤ user else start < user) ∧
    ∀ finish inclusive, bounds.finish = some (finish, inclusive) →
      if inclusive then user ≤ finish else user < finish := by
  have hdrop : key.dropPrefix? ns = some user ↔ key = ns ++ user := by
    simp [List.dropPrefix?_eq_some_iff]
  rw [userKey, Option.filter_eq_some_iff, hdrop]
  obtain ⟨keyPrefix, start, finish⟩ := bounds
  simp only [Bool.and_eq_true, and_assoc]
  refine and_congr_right fun _ => and_congr ?_ (and_congr ?_ ?_)
  · cases keyPrefix <;> simp
  · cases start with
    | none => simp
    | some start => obtain ⟨start, inclusive⟩ := start; cases inclusive <;> simp
  · cases finish with
    | none => simp
    | some finish => obtain ⟨finish, inclusive⟩ := finish; cases inclusive <;> simp

theorem inRange_of_userKey (h : bounds.userKey ns key = some user) :
    inRange (bounds.lower ns) (bounds.upper ns) (bounds.cursorAfter ns) key = true := by
  obtain ⟨rfl, hstarts, hstart, hfinish⟩ := userKey_eq_some.mp h
  apply inRange_iff.mpr
  constructor
  · cases hafter : bounds.cursorAfter ns with
    | some after =>
      obtain ⟨hsome, -⟩ := Option.filter_eq_some_iff.mp hafter
      obtain ⟨⟨start, inclusive⟩, hstarts, hexclusive⟩ := Option.bind_eq_some_iff.mp hsome
      cases inclusive with
      | true => cases hexclusive
      | false =>
        cases hexclusive
        have hlt : start < user := hstart start false hstarts
        simpa using hlt
    | none =>
      have hle : ∀ start inclusive, bounds.start = some (start, inclusive) → start ≤ user := by
        intro start inclusive hstarts
        have hmatch := hstart start inclusive hstarts
        cases inclusive with
        | true => exact hmatch
        | false => exact le_of_lt hmatch
      have hfrom : ∀ keyPrefix, bounds.keyPrefix = some keyPrefix → keyPrefix ≤ user :=
        fun keyPrefix hkey => ((isPrefix_iff_lt_successor _ _).mp (hstarts keyPrefix hkey)).1
      apply append_left_le_iff.mpr
      obtain ⟨keyPrefix, start, finish⟩ := bounds
      cases keyPrefix with
      | none =>
        cases start with
        | none => exact nil_le user
        | some start => exact hle start.1 start.2 rfl
      | some keyPrefix =>
        cases start with
        | none => exact hfrom keyPrefix rfl
        | some start =>
          dsimp only
          split_ifs
          · exact hle start.1 start.2 rfl
          · exact hfrom keyPrefix rfl
  · intro bound hbound
    obtain ⟨hmem, -⟩ := leastKey_eq_some.mp hbound
    simp only [List.mem_cons, List.not_mem_nil, or_false] at hmem
    rcases hmem with hns | hkey | hend
    · have hlt := ((isPrefix_iff_lt_successor ns (ns ++ user)).mp (List.prefix_append ns user)).2
      rw [← hns] at hlt
      simpa using hlt
    · obtain ⟨next, hnext, rfl⟩ := Option.map_eq_some_iff.mp hkey.symm
      obtain ⟨keyPrefix, hkeyPrefix, hsuccessor⟩ := Option.bind_eq_some_iff.mp hnext
      have hlt := ((isPrefix_iff_lt_successor keyPrefix user).mp (hstarts keyPrefix hkeyPrefix)).2
      rw [hsuccessor] at hlt
      simpa using hlt
    · obtain ⟨⟨finish, inclusive⟩, hfinishes, hsome⟩ := Option.bind_eq_some_iff.mp hend.symm
      have hmatch := hfinish finish inclusive hfinishes
      cases inclusive with
      | true =>
        have hle : ns ++ user ≤ ns ++ finish := append_left_le_iff.mpr hmatch
        exact hle.trans_lt (lt_successor hsome)
      | false =>
        cases hsome
        exact append_left_lt_iff.mpr hmatch

theorem isPrefix_lower (bounds : ScanBounds) (ns : Bytes) : ns <+: bounds.lower ns := List.prefix_append _ _

theorem upper_le {bound : Bytes} (h : bounds.upper ns = some bound) :
    (∀ next, successor ns = some next → bound ≤ next) ∧
      ∀ keyPrefix next, bounds.keyPrefix = some keyPrefix → successor keyPrefix = some next → bound ≤ ns ++ next := by
  obtain ⟨-, hle⟩ := leastKey_eq_some.mp h
  constructor
  · intro next hnext
    apply hle
    simp [hnext]
  · intro keyPrefix next hkeyPrefix hnext
    apply hle
    simp [hkeyPrefix, hnext]

theorem upper_eq_none (h : bounds.upper ns = none) :
    successor ns = none ∧ ∀ keyPrefix, bounds.keyPrefix = some keyPrefix → successor keyPrefix = none := by
  have hall := leastKey_eq_none.mp h
  refine ⟨hall _ List.mem_cons_self, ?_⟩
  intro keyPrefix hkeyPrefix
  have hnone := hall _ (List.mem_cons_of_mem _ List.mem_cons_self)
  simpa [hkeyPrefix] using hnone

theorem userKey_of_inRange (hstart : ∀ start inclusive, bounds.start = some (start, inclusive) → inclusive = false)
    (hfinish : bounds.finish = none)
    (h : inRange (bounds.lower ns) (bounds.upper ns) (bounds.cursorAfter ns) key = true) :
    ∃ user, bounds.userKey ns key = some user := by
  obtain ⟨hafter, hupper⟩ := inRange_iff.mp h
  have hlower : bounds.lower ns ≤ key := by
    cases hcursor : bounds.cursorAfter ns with
    | none => rwa [hcursor] at hafter
    | some after =>
      rw [hcursor] at hafter
      obtain ⟨-, hle⟩ := Option.filter_eq_some_iff.mp hcursor
      exact (of_decide_eq_true hle).trans (le_of_lt hafter)
  have hbelow (next : Bytes) (hnext : successor ns = some next) : key < next := by
    cases hbound : bounds.upper ns with
    | none => rw [(upper_eq_none hbound).1] at hnext; cases hnext
    | some bound => exact (hupper bound hbound).trans_le ((upper_le hbound).1 next hnext)
  have hns : ns <+: key := by
    apply (isPrefix_iff_lt_successor ns key).mpr
    constructor
    · exact ((isPrefix_iff_lt_successor ns _).mp (isPrefix_lower bounds ns)).1.trans hlower
    · cases hsuccessor : successor ns with
      | none => rfl
      | some next => simpa using hbelow next hsuccessor
  obtain ⟨user, rfl⟩ := hns
  refine ⟨user, userKey_eq_some.mpr ⟨rfl, ?_, ?_, by simp [hfinish]⟩⟩
  · intro keyPrefix hkeyPrefix
    apply (isPrefix_iff_lt_successor keyPrefix user).mpr
    constructor
    · have hle : ns ++ keyPrefix ≤ bounds.lower ns := by
        apply append_left_le_iff.mpr
        rw [hkeyPrefix]
        cases bounds.start with
        | none => exact le_rfl
        | some start =>
          dsimp only
          split_ifs with hstarts
          · exact hstarts
          · exact le_rfl
      exact append_left_le_iff.mp (hle.trans hlower)
    · cases hsuccessor : successor keyPrefix with
      | none => rfl
      | some next =>
        cases hbound : bounds.upper ns with
        | none => rw [(upper_eq_none hbound).2 keyPrefix hkeyPrefix] at hsuccessor; cases hsuccessor
        | some bound =>
          have hlt := (hupper bound hbound).trans_le ((upper_le hbound).2 keyPrefix next hkeyPrefix hsuccessor)
          simpa using hlt
  · intro start inclusive hstarts
    obtain rfl := hstart start inclusive hstarts
    have hfrom : bounds.after ns = some (ns ++ start) := by simp [after, hstarts]
    suffices hlt : ns ++ start < ns ++ user by simpa using hlt
    cases hcursor : bounds.cursorAfter ns with
    | some cursor =>
      rw [hcursor] at hafter
      obtain ⟨hsome, -⟩ := Option.filter_eq_some_iff.mp hcursor
      rw [hfrom] at hsome
      cases hsome
      exact hafter
    | none =>
      rw [cursorAfter, hfrom, Option.filter_eq_none_iff] at hcursor
      have hlt := hcursor _ rfl
      rw [decide_eq_true_eq, not_le] at hlt
      exact hlt.trans_le hlower

end ScanBounds

end Thingd.ThingDb
