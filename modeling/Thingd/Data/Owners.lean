import Mathlib

namespace Thingd.Owners

variable {α β : Type}

def Exclusive (held : α → List β) : Prop := ∀ a b value, value ∈ held a → value ∈ held b → a = b

def Sound (held : α → List β) (cache : β → Option α) : Prop :=
  ∀ value owner, cache value = some owner → value ∈ held owner

def Exact (held : α → List β) (cache : β → Option α) : Prop :=
  ∀ value owner, cache value = some owner ↔ value ∈ held owner

theorem Exact.exclusive {held : α → List β} {cache : β → Option α} (h : Exact held cache) : Exclusive held := by
  intro a b value ha hb
  exact Option.some.inj (((h value a).mpr ha).symm.trans ((h value b).mpr hb))

variable [DecidableEq α]

theorem Exclusive.update {held : α → List β} {owner : α} {new : List β} (h : Exclusive held)
    (hfree : ∀ value ∈ new, ∀ other, value ∈ held other → other = owner) :
    Exclusive (Function.update held owner new) := by
  intro a b value ha hb
  by_cases hao : a = owner
  · by_cases hbo : b = owner
    · exact hao.trans hbo.symm
    · rw [hao, Function.update_self] at ha
      rw [Function.update_of_ne hbo] at hb
      exact absurd (hfree value ha b hb) hbo
  · rw [Function.update_of_ne hao] at ha
    by_cases hbo : b = owner
    · rw [hbo, Function.update_self] at hb
      exact absurd (hfree value hb a ha) hao
    · rw [Function.update_of_ne hbo] at hb
      exact h a b value ha hb

variable [DecidableEq β]

def reindex (cache : β → Option α) (old : List β) (owner : α) (new : List β) : β → Option α :=
  fun value => if value ∈ new then some owner else if value ∈ old then none else cache value

def step (state : (α → List β) × (β → Option α)) (write : α × List β) : (α → List β) × (β → Option α) :=
  (Function.update state.1 write.1 write.2, reindex state.2 (state.1 write.1) write.1 write.2)

variable {held : α → List β} {cache : β → Option α} {owner : α} {value : β} {new : List β}
  {state : (α → List β) × (β → Option α)} {writes : List (α × List β)}

theorem Exact.reindex (h : Exact held cache) (hfree : ∀ value ∈ new, ∀ other, value ∈ held other → other = owner) :
    Exact (Function.update held owner new) (reindex cache (held owner) owner new) := by
  intro value other
  rw [Owners.reindex]
  by_cases hother : other = owner
  · subst hother
    rw [Function.update_self]
    by_cases hnew : value ∈ new
    · simp [hnew]
    · simp only [hnew, if_false, iff_false]
      split_ifs with hold
      · exact nofun
      · exact fun hcache => hold ((h value other).mp hcache)
  · rw [Function.update_of_ne hother]
    by_cases hnew : value ∈ new
    · rw [if_pos hnew]
      exact iff_of_false (fun heq => hother (Option.some.inj heq).symm) fun hheld =>
        hother (hfree value hnew other hheld)
    · rw [if_neg hnew]
      split_ifs with hold
      · exact iff_of_false nofun fun hheld => hother (h.exclusive other owner value hheld hold)
      · exact h value other

theorem sound_step (h : Sound state.1 state.2) (write : α × List β) :
    Sound (step state write).1 (step state write).2 := by
  intro value owner hcache
  simp only [step, reindex] at hcache ⊢
  split_ifs at hcache with hnew hold
  · rw [← Option.some.inj hcache, Function.update_self]
    exact hnew
  · have hheld := h value owner hcache
    have hne : owner ≠ write.1 := fun heq => hold (heq ▸ hheld)
    rwa [Function.update_of_ne hne]

theorem sound_foldl (h : Sound state.1 state.2) (writes : List (α × List β)) :
    Sound (writes.foldl step state).1 (writes.foldl step state).2 :=
  List.foldlRecOn (motive := fun state => Sound state.1 state.2) writes step h fun _ h write _ => sound_step h write

theorem held_foldl_cases (state : (α → List β) × (β → Option α)) (writes : List (α × List β)) (owner : α) :
    (owner ∉ writes.map Prod.fst ∧ (writes.foldl step state).1 owner = state.1 owner) ∨
      ∃ before write after, writes = before ++ write :: after ∧ write.1 = owner ∧ owner ∉ after.map Prod.fst ∧
        (writes.foldl step state).1 owner = write.2 := by
  induction writes using List.reverseRecOn with
  | nil => exact Or.inl ⟨by simp, rfl⟩
  | append_singleton writes write ih =>
    rw [List.foldl_append]
    by_cases howner : write.1 = owner
    · exact Or.inr ⟨writes, write, [], rfl, howner, by simp, by simp [step, ← howner]⟩
    · have hsame : (List.foldl step (writes.foldl step state) [write]).1 owner = (writes.foldl step state).1 owner :=
        Function.update_of_ne (Ne.symm howner) _ _
      rw [hsame]
      rcases ih with ⟨hnot, hheld⟩ | ⟨before, last, after, rfl, hlast, hafter, hheld⟩
      · refine Or.inl ⟨?_, hheld⟩
        simp [hnot, Ne.symm howner]
      · refine Or.inr ⟨before, last, after ++ [write], by simp, hlast, ?_, hheld⟩
        simp [hafter, Ne.symm howner]

theorem cache_foldl_of_forall (hcache : state.2 value = some owner)
    (h : ∀ write ∈ writes, value ∉ write.2 ∧ value ∉ state.1 write.1) :
    (writes.foldl step state).2 value = some owner := by
  induction writes generalizing state with
  | nil => exact hcache
  | cons write writes ih =>
    obtain ⟨hnew, hold⟩ := h write List.mem_cons_self
    apply ih
    · simp [step, reindex, hnew, hold, hcache]
    · intro other hother
      obtain ⟨hothernew, hotherold⟩ := h other (List.mem_cons_of_mem _ hother)
      refine ⟨hothernew, ?_⟩
      by_cases heq : other.1 = write.1
      · simpa [step, heq] using hnew
      · simpa [step, Function.update_of_ne heq] using hotherold

def InOrder (held : α → List β) (writes : List (α × List β)) : Prop :=
  ∀ before write after, writes = before ++ write :: after → write.1 ∉ after.map Prod.fst →
    ∀ value ∈ write.2, ∀ other ∈ after, other.1 ∉ before.map Prod.fst → value ∉ held other.1

theorem Exact.foldl (h : Exact held cache)
    (hagree : ∀ a ∈ writes, ∀ b ∈ writes, ∀ value ∈ a.2, value ∈ b.2 → a.1 = b.1)
    (hfree : ∀ write ∈ writes, ∀ value ∈ write.2, ∀ other, value ∈ held other →
      other = write.1 ∨ other ∈ writes.map Prod.fst)
    (horder : InOrder held writes) : Exact (writes.foldl step (held, cache)).1 (writes.foldl step (held, cache)).2 := by
  intro value owner
  refine ⟨sound_foldl (fun value owner => (h value owner).mp) writes value owner, fun hvalue => ?_⟩
  rcases held_foldl_cases (held, cache) writes owner with ⟨hnot, hheld⟩ |
    ⟨before, write, after, hwrites, rfl, hlast, hheld⟩
  · rw [hheld] at hvalue
    apply cache_foldl_of_forall ((h value owner).mpr hvalue)
    intro other hother
    constructor
    · intro hnew
      rcases hfree other hother value hnew owner hvalue with rfl | hmem
      · exact hnot (List.mem_map_of_mem hother)
      · exact hnot hmem
    · intro hold
      exact hnot (h.exclusive other.1 owner value hold hvalue ▸ List.mem_map_of_mem hother)
  · rw [hheld] at hvalue
    have hmem : ∀ {other}, other ∈ after → other ∈ writes := fun hother => by simp [hwrites, hother]
    have hwrite : write ∈ writes := by simp [hwrites]
    have hne : ∀ {other}, other ∈ after → other.1 ≠ write.1 := fun hother heq =>
      hlast (heq ▸ List.mem_map_of_mem hother)
    rw [hwrites, List.foldl_append, List.foldl_cons]
    apply cache_foldl_of_forall
    · simp [step, Owners.reindex, hvalue]
    · intro other hother
      refine ⟨fun hnew => hne hother (hagree other (hmem hother) write hwrite value hnew hvalue), ?_⟩
      -- The other owner holds its first list, or one that an earlier write gave it.
      have hkeep : (step (before.foldl step (held, cache)) write).1 other.1 =
        (before.foldl step (held, cache)).1 other.1 :=
        Function.update_of_ne (hne hother) _ _
      rw [hkeep]
      rcases held_foldl_cases (held, cache) before other.1 with ⟨hbefore, hold⟩ |
        ⟨first, earlier, rest, heq, hsame, -, hold⟩
      · rw [hold]
        exact horder before write after hwrites hlast value hvalue other hother hbefore
      · rw [hold]
        intro hnew
        have hearlier : earlier ∈ writes := by simp [hwrites, heq]
        exact hne hother (hsame.symm.trans (hagree earlier hearlier write hwrite value hnew hvalue))

theorem Exclusive.foldl (h : Exclusive state.1)
    (hagree : ∀ a ∈ writes, ∀ b ∈ writes, ∀ value ∈ a.2, value ∈ b.2 → a.1 = b.1)
    (hfree : ∀ write ∈ writes, ∀ value ∈ write.2, ∀ other, value ∈ state.1 other → other = write.1) :
    Exclusive (writes.foldl step state).1 := by
  intro a b value ha hb
  rcases held_foldl_cases state writes a with ⟨-, hasame⟩ | ⟨before, first, after, hwrites, rfl, -, hawrite⟩ <;>
    rcases held_foldl_cases state writes b with ⟨-, hbsame⟩ | ⟨front, second, rest, hsecond, rfl, -, hbwrite⟩
  · exact h a b value (hasame ▸ ha) (hbsame ▸ hb)
  · exact hfree second (by simp [hsecond]) value (hbwrite ▸ hb) a (hasame ▸ ha)
  · exact (hfree first (by simp [hwrites]) value (hawrite ▸ ha) b (hbsame ▸ hb)).symm
  · exact hagree first (by simp [hwrites]) second (by simp [hsecond]) value (hawrite ▸ ha) (hbwrite ▸ hb)

end Thingd.Owners
