import Thingd.ThingDb.ScanRange

namespace Thingd.ThingDb

open Merge

def pageOf {α : Type} (offset : ℕ) (limit : Option ℕ) (entries : List α) : List α :=
  match limit with
  | none => entries.drop offset
  | some limit => (entries.drop offset).take limit

def shownEntry (userKey : Bytes → Option Bytes) (record : Record) : Option Entry :=
  record.2.bind fun value => (userKey record.1).map fun user => (user, value)

def Inner.visible (inner : Inner) (ns : Bytes) (bounds : ScanBounds) : List Entry :=
  inner.materializeState.keys.filterMap fun key => shownEntry (bounds.userKey ns) (key, inner.getDurableValue key)

section Loop

variable {σ : Type} {next : σ → Option (Record × σ)} {userKey : Bytes → Option Bytes} {α : Type}
  {offset fuel examined skipped : ℕ} {limit : Option ℕ} {cursor : σ} {entries : List Entry}

theorem pageOf_cons_skip (h : 0 < offset) (limit : Option ℕ) (entry : α) (entries : List α) :
    pageOf offset limit (entry :: entries) = pageOf (offset - 1) limit entries := by
  obtain ⟨n, rfl⟩ := Nat.exists_eq_succ_of_ne_zero h.ne'
  cases limit <;> simp [pageOf]

theorem pageOf_cons_take (h : ∀ n, limit = some n → 0 < n) (entry : α) (entries : List α) :
    pageOf 0 limit (entry :: entries) = entry :: pageOf 0 (limit.map (· - 1)) entries := by
  cases limit with
  | none => simp [pageOf]
  | some n =>
    obtain ⟨m, rfl⟩ := Nat.exists_eq_succ_of_ne_zero (h n rfl).ne'
    simp [pageOf]

theorem scanLoop_yields {items : List Record} (h : Yields next cursor items) (hfuel : items.length ≤ fuel)
    (hskipped : skipped ≤ offset) :
    scanLoop next userKey offset limit none fuel cursor examined skipped entries =
      some (entries ++ pageOf (offset - skipped) (limit.map (· - entries.length))
        (items.filterMap (shownEntry userKey))) := by
  induction fuel generalizing cursor examined skipped entries items with
  | zero =>
    obtain rfl : items = [] := List.eq_nil_of_length_eq_zero (by omega)
    cases limit <;> simp [scanLoop, pageOf]
  | succ fuel ih =>
    rw [scanLoop]
    by_cases hlimit : limit.any (· ≤ entries.length) = true
    · rw [if_pos hlimit]
      obtain ⟨n, rfl, hn⟩ := (Option.any_eq_true _ _).mp hlimit
      have hzero : n - entries.length = 0 := Nat.sub_eq_zero_of_le (of_decide_eq_true hn)
      simp [pageOf, hzero]
    · rw [if_neg hlimit]
      cases items with
      | nil =>
        rw [show next cursor = none from h]
        cases limit <;> simp [pageOf]
      | cons item items =>
        obtain ⟨cursor', hnext, hrest⟩ := h
        obtain ⟨key, value⟩ := item
        simp only [List.length_cons] at hfuel
        rw [hnext]
        simp only [Option.any_none, Bool.false_eq_true, if_false, List.filterMap_cons]
        cases value with
        | none =>
          rw [ih hrest (by omega) hskipped]
          rfl
        | some value =>
          cases huser : userKey key with
          | none =>
            rw [ih hrest (by omega) hskipped]
            simp [shownEntry, huser]
          | some user =>
            have hshown : shownEntry userKey (key, some value) = some (user, value) := by simp [shownEntry, huser]
            rw [hshown]
            dsimp only
            by_cases hskip : skipped < offset
            · rw [if_pos hskip, ih hrest (by omega) (by omega), pageOf_cons_skip (by omega)]
              rw [Nat.sub_sub]
            · rw [if_neg hskip, ih hrest (by omega) hskipped]
              have hroom : ∀ n, limit.map (· - entries.length) = some n → 0 < n := by
                intro n hn
                obtain ⟨m, rfl, rfl⟩ := Option.map_eq_some_iff.mp hn
                simp only [Option.any_some, decide_eq_true_eq] at hlimit
                omega
              rw [show offset - skipped = 0 by omega, pageOf_cons_take hroom, Option.map_map]
              simp only [List.length_append, List.append_assoc]
              congr 4

theorem scanLoop_budget {budget : ℕ} {page : List Entry}
    (h : scanLoop next userKey offset limit (some budget) fuel cursor examined skipped entries = some page) :
    scanLoop next userKey offset limit none fuel cursor examined skipped entries = some page := by
  induction fuel generalizing cursor examined skipped entries with
  | zero => exact h
  | succ fuel ih =>
    rw [scanLoop] at h ⊢
    by_cases hlimit : limit.any (· ≤ entries.length) = true
    · rwa [if_pos hlimit] at h ⊢
    · rw [if_neg hlimit] at h ⊢
      cases hnext : next cursor with
      | none => rwa [hnext] at h
      | some item =>
        obtain ⟨⟨key, value⟩, cursor'⟩ := item
        rw [hnext] at h
        simp only [Option.any_none, Bool.false_eq_true, if_false]
        dsimp only at h
        by_cases hbudget : Option.any (fun x => decide (x < examined + 1)) (some budget) = true
        · rw [if_pos hbudget] at h
          cases h
        · rw [if_neg hbudget] at h
          cases value with
          | none => exact ih h
          | some value =>
            cases huser : userKey key with
            | none =>
              rw [huser] at h
              exact ih h
            | some user =>
              rw [huser] at h
              split_ifs at h ⊢
              · exact ih h
              · exact ih h

end Loop

section Candidates

variable (inner : Inner) (lower : Bytes) (upper after : Option Bytes)

def Inner.holds (key : Bytes) : Prop :=
  (∃ value, inner.state.get key = some value) ∨ (∃ value, inner.pendingTable.get key = some value) ∨
    ∃ layer ∈ inner.tableLayers, ∃ value, layer.records.get key = some value

structure Candidates (keys : List Bytes) : Prop where
  sorted : keys.Pairwise (· < ·)
  mem : ∀ key, key ∈ keys ↔ inRange lower upper after key = true ∧ inner.holds key

def Inner.allKeys : List Bytes :=
  inner.state.keys ++ (inner.pendingTable.keys ++ inner.tableLayers.flatMap fun layer => layer.records.keys)

variable {inner lower upper after} {key ns : Bytes} {keys : List Bytes} {bounds : ScanBounds}

theorem Inner.mem_allKeys : key ∈ inner.allKeys ↔ inner.holds key := by
  simp [Inner.allKeys, Inner.holds, SortedMap.mem_keys]

theorem exists_candidates (inner : Inner) (lower : Bytes) (upper after : Option Bytes) :
    ∃ keys, Candidates inner lower upper after keys := by
  obtain ⟨keys, hsorted, hmem⟩ := exists_sorted (inner.allKeys.filter (inRange lower upper after))
  refine ⟨keys, hsorted, ?_⟩
  intro key
  rw [hmem, List.mem_filter, Inner.mem_allKeys, and_comm]

theorem Candidates.length_le (h : Candidates inner lower upper after keys) : keys.length ≤ inner.recordCount := by
  have hnodup : keys.Nodup := h.sorted.imp fun hlt => hlt.ne
  have hsubset : keys ⊆ inner.allKeys := fun key hkey => Inner.mem_allKeys.mpr ((h.mem key).mp hkey).2
  have hle := (hnodup.subperm hsubset).length_le
  have hcount : inner.allKeys.length = inner.recordCount := by
    simp [Inner.allKeys, Inner.recordCount, SortedMap.keys, SortedMap.size, Nat.add_assoc]
  rwa [hcount] at hle

theorem lookupLayers_eq_some {layers : List TableLayer} {value : Option Bytes}
    (h : lookupLayers layers key = some value) : ∃ layer ∈ layers, layer.records.get key = some value := by
  obtain ⟨layer, hlayer, hlookup⟩ := List.exists_of_findSome?_eq_some h
  exact ⟨layer, by simpa using hlayer, by rwa [TableLayer.lookup_eq] at hlookup⟩

theorem Inner.holds_of_getDurableValue {value : Bytes} (h : inner.getDurableValue key = some value) :
    inner.holds key := by
  rw [getDurableValue_eq] at h
  cases hpending : inner.pendingTable.get key with
  | some pending => exact Or.inr (Or.inl ⟨pending, hpending⟩)
  | none =>
    rw [hpending] at h
    cases hstate : inner.state.get key with
    | some state => exact Or.inl ⟨state, hstate⟩
    | none =>
      rw [hstate, tableView] at h
      obtain ⟨layer, hlayer, hget⟩ := lookupLayers_eq_some (Option.join_eq_some_iff.mp h)
      exact Or.inr (Or.inr ⟨layer, hlayer, _, hget⟩)

theorem Candidates.visible (h : Candidates inner (bounds.lower ns) (bounds.upper ns) (bounds.cursorAfter ns) keys) :
    (keys.map fun key => (key, inner.getDurableValue key)).filterMap (shownEntry (bounds.userKey ns)) =
      inner.visible ns bounds := by
  rw [List.filterMap_map]
  apply filterMap_eq_of_sorted h.sorted inner.materializeState.keys_sorted
  intro key hshown
  obtain ⟨entry, hentry⟩ := Option.isSome_iff_exists.mp hshown
  obtain ⟨value, hvalue, huser⟩ := Option.bind_eq_some_iff.mp hentry
  obtain ⟨user, huser, -⟩ := Option.map_eq_some_iff.mp huser
  have hrange := ScanBounds.inRange_of_userKey huser
  have hholds := Inner.holds_of_getDurableValue hvalue
  have hkey : key ∈ inner.materializeState.keys :=
    SortedMap.mem_keys.mpr ⟨value, (inner.get_materializeState key).trans hvalue⟩
  exact ⟨fun _ => hkey, fun _ => (h.mem key).mpr ⟨hrange, hholds⟩⟩

theorem visible_of_emptyRange (h : bounds.emptyRange ns = true) : inner.visible ns bounds = [] := by
  apply List.filterMap_eq_nil_iff.mpr
  intro key _
  by_contra hshown
  obtain ⟨entry, hentry⟩ := Option.ne_none_iff_exists'.mp hshown
  obtain ⟨value, -, huser⟩ := Option.bind_eq_some_iff.mp hentry
  obtain ⟨user, huser, -⟩ := Option.map_eq_some_iff.mp huser
  obtain ⟨hlower, hupper⟩ := inRange_iff.mp (ScanBounds.inRange_of_userKey huser)
  obtain ⟨bound, hbound, hle⟩ := (Option.any_eq_true _ _).mp h
  have hlt := (hupper bound hbound).trans_le (of_decide_eq_true hle)
  cases hcursor : bounds.cursorAfter ns with
  | none =>
    rw [hcursor] at hlower
    exact absurd (hlt.trans_le hlower) (lt_irrefl _)
  | some cursor =>
    rw [hcursor] at hlower
    obtain ⟨-, hcursorLe⟩ := Option.filter_eq_some_iff.mp hcursor
    exact absurd ((hlt.trans_le (of_decide_eq_true hcursorLe)).trans hlower) (lt_irrefl _)

end Candidates

end Thingd.ThingDb
