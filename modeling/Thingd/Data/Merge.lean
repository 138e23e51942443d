import Mathlib

namespace Thingd.Merge

variable {α ρ σ γ : Type}

section Least

variable [LinearOrder α]

def leastKey (candidates : List (Option α)) : Option α := (candidates.filterMap id).min?

variable {candidates : List (Option α)}

theorem leastKey_eq_some {key : α} :
    leastKey candidates = some key ↔ some key ∈ candidates ∧ ∀ other, some other ∈ candidates → key ≤ other := by
  simp [leastKey, List.min?_eq_some_iff]

theorem leastKey_eq_none : leastKey candidates = none ↔ ∀ candidate ∈ candidates, candidate = none := by
  rw [leastKey, List.min?_eq_none_iff, List.filterMap_eq_nil_iff]
  rfl

end Least

variable {β : Type} {least : α}

section Sorted

variable [LinearOrder α] {others : List α}

theorem sorted_ext {keys : List α} (hkeys : keys.Pairwise (· < ·)) (hothers : others.Pairwise (· < ·))
    (h : ∀ k, k ∈ keys ↔ k ∈ others) : keys = others := by
  have hperm : keys.Perm others :=
    (List.perm_ext_iff_of_nodup (hkeys.imp fun hlt => hlt.ne) (hothers.imp fun hlt => hlt.ne)).mpr h
  refine List.Perm.eq_of_pairwise ?_ hkeys hothers hperm
  intro a b _ _ hab hba
  exact absurd (hab.trans hba) (lt_irrefl _)

theorem filterMap_eq_of_sorted {f : α → Option β} {keys : List α} (hkeys : keys.Pairwise (· < ·))
    (hothers : others.Pairwise (· < ·)) (h : ∀ k, (f k).isSome = true → (k ∈ keys ↔ k ∈ others)) :
    keys.filterMap f = others.filterMap f := by
  have hkept (l : List α) : l.filterMap f = (l.filter fun k => (f k).isSome).filterMap f := by
    rw [List.filterMap_filter]
    apply List.filterMap_congr
    intro k _
    cases f k <;> rfl
  have hfilter : keys.filter (fun k => (f k).isSome) = others.filter fun k => (f k).isSome := by
    apply sorted_ext (hkeys.filter _) (hothers.filter _)
    intro k
    simp only [List.mem_filter]
    exact and_congr_left fun hk => h k hk
  rw [hkept keys, hkept others, hfilter]

theorem exists_sorted (l : List α) : ∃ keys : List α, keys.Pairwise (· < ·) ∧ ∀ k, k ∈ keys ↔ k ∈ l := by
  refine ⟨l.toFinset.sort (· ≤ ·), ?_, by simp⟩
  exact (Finset.sortedLT_sort l.toFinset).pairwise

end Sorted

section Cursor

variable (key : ρ → α) (below : α → Bool)

def Shows (head : Option ρ) (records : List ρ) : Prop :=
  match records with
  | [] => ∀ record, head = some record → below (key record) = false
  | record :: _ => head = some record

def Follows (head : σ → Option ρ) (advance : σ → σ) : σ → List ρ → Prop
  | cursor, [] => Shows key below (head cursor) []
  | cursor, record :: records =>
    head cursor = some record ∧ below (key record) = true ∧ Follows head advance (advance cursor) records

def advanceAt [LinearOrder α] (head : σ → Option ρ) (advance : σ → σ) (least : α) (cursor : σ) : σ :=
  if (head cursor).any (fun record => key record = least) then advance cursor else cursor

def headAt [LinearOrder α] (least : α) (head : Option ρ) : Option ρ := head.filter fun record => key record = least

def findAt [LinearOrder α] (least : α) (records : List ρ) : Option ρ := records.find? fun record => key record = least

def without [LinearOrder α] (least : α) (records : List ρ) : List ρ := records.filter fun record => key record ≠ least

variable {key below} {head : σ → Option ρ} {advance : σ → σ} {cursor : σ} {records : List ρ}

theorem Follows.shows (h : Follows key below head advance cursor records) : Shows key below (head cursor) records := by
  cases records with
  | nil => exact h
  | cons record records => exact h.1

theorem Shows.keys {head : Option ρ} (h : Shows key below head records) :
    Shows id below (head.map key) (records.map key) := by
  cases records with
  | nil =>
    intro k hk
    obtain ⟨record, hhead, rfl⟩ := Option.map_eq_some_iff.mp hk
    exact h record hhead
  | cons record records =>
    have hhead : head = some record := h
    rw [hhead]
    rfl

variable [LinearOrder α]

theorem Follows.advanceAt (h : Follows key below head advance cursor records)
    (hsorted : records.Pairwise fun x y => key x < key y) (hbelow : below least = true)
    (hleast : ∀ record ∈ records, least ≤ key record) :
    Follows key below head advance (advanceAt key head advance least cursor) (without key least records) := by
  unfold without
  cases records with
  | nil =>
    have hkeep : Merge.advanceAt key head advance least cursor = cursor := by
      apply if_neg
      rw [Option.any_eq_true]
      rintro ⟨record, hhead, hkey⟩
      have hpast := h record hhead
      rw [of_decide_eq_true hkey, hbelow] at hpast
      cases hpast
    rw [hkeep]
    exact h
  | cons first records =>
    obtain ⟨hfirst, hrest⟩ := List.pairwise_cons.mp hsorted
    have hne : ∀ record ∈ records, key record ≠ least := fun record hrecord =>
      ((hleast first List.mem_cons_self).trans_lt (hfirst record hrecord)).ne'
    have hfilter : records.filter (fun record => key record ≠ least) = records := by
      apply List.filter_eq_self.mpr
      intro record hrecord
      simpa using hne record hrecord
    by_cases heq : key first = least
    · have hadvance : Merge.advanceAt key head advance least cursor = advance cursor := by
        apply if_pos
        simp [h.1, heq]
      rw [hadvance, List.filter_cons_of_neg (by simp [heq]), hfilter]
      exact h.2.2
    · have hkeep : Merge.advanceAt key head advance least cursor = cursor := by
        apply if_neg
        simp [h.1, heq]
      rw [hkeep, List.filter_cons_of_pos (by simp [heq]), hfilter]
      exact h

theorem Follows.forall₂_advanceAt {cursors : List σ} {sources : List (List ρ)}
    (h : List.Forall₂ (Follows key below head advance) cursors sources)
    (hsorted : ∀ records ∈ sources, records.Pairwise fun x y => key x < key y) (hbelow : below least = true)
    (hleast : ∀ records ∈ sources, ∀ record ∈ records, least ≤ key record) :
    List.Forall₂ (Follows key below head advance) (cursors.map (Merge.advanceAt key head advance least))
      (sources.map (without key least)) := by
  induction h with
  | nil => exact List.Forall₂.nil
  | cons hcursor hrest ih =>
    apply List.Forall₂.cons
    · exact hcursor.advanceAt (hsorted _ List.mem_cons_self) hbelow (hleast _ List.mem_cons_self)
    · apply ih
      · exact fun records hrecords => hsorted records (List.mem_cons_of_mem _ hrecords)
      · exact fun records hrecords => hleast records (List.mem_cons_of_mem _ hrecords)

theorem Shows.find {head : Option ρ} (h : Shows key below head records)
    (hsorted : records.Pairwise fun x y => key x < key y) (hbelow : below least = true)
    (hleast : ∀ record ∈ records, least ≤ key record) : headAt key least head = findAt key least records := by
  unfold headAt findAt
  cases records with
  | nil =>
    rw [List.find?_nil, Option.filter_eq_none_iff]
    intro record hhead hkey
    have hpast := h record hhead
    rw [of_decide_eq_true hkey, hbelow] at hpast
    cases hpast
  | cons first records =>
    obtain ⟨hfirst, -⟩ := List.pairwise_cons.mp hsorted
    have hhead : head = some first := h
    rw [hhead]
    by_cases heq : key first = least
    · simp [heq]
    · rw [List.find?_cons_of_neg (by simp [heq])]
      have hnone : records.find? (fun record => key record = least) = none := by
        apply List.find?_eq_none.mpr
        intro record hrecord
        simpa using ((hleast first List.mem_cons_self).trans_lt (hfirst record hrecord)).ne'
      simp [heq, hnone]

theorem findAt_without {k : α} (hne : k ≠ least) : findAt key k (without key least records) = findAt key k records := by
  unfold findAt without
  induction records with
  | nil => rfl
  | cons record records ih =>
    by_cases hleast : key record = least
    · have hother : ¬ key record = k := fun hk => hne (hk.symm.trans hleast)
      rw [List.filter_cons_of_neg (by simp [hleast]), ih, List.find?_cons_of_neg (by simp [hother])]
    · rw [List.filter_cons_of_pos (by simp [hleast]), List.find?_cons, List.find?_cons, ih]

end Cursor

structure Merges [LinearOrder α] (key : ρ → α) (keys : List α) (sources : List (List ρ)) : Prop where
  sorted : keys.Pairwise (· < ·)
  sources_sorted : ∀ records ∈ sources, records.Pairwise fun x y => key x < key y
  mem : ∀ k, k ∈ keys ↔ ∃ records ∈ sources, ∃ record ∈ records, key record = k

namespace Merges

variable [LinearOrder α] {key : ρ → α} {below : α → Bool} {sources : List (List ρ)}

theorem le {keys : List α} (h : Merges key (least :: keys) sources) :
    ∀ records ∈ sources, ∀ record ∈ records, least ≤ key record := by
  intro records hrecords record hrecord
  have hmem := (h.mem (key record)).mpr ⟨records, hrecords, record, hrecord, rfl⟩
  rcases List.mem_cons.mp hmem with heq | hlater
  · exact heq.ge
  · exact ((List.pairwise_cons.mp h.sorted).1 _ hlater).le

theorem step {keys : List α} (h : Merges key (least :: keys) sources) :
    Merges key keys (sources.map (without key least)) where
  sorted := (List.pairwise_cons.mp h.sorted).2
  sources_sorted := by
    intro records hrecords
    obtain ⟨source, hsource, rfl⟩ := List.mem_map.mp hrecords
    exact (h.sources_sorted source hsource).filter _
  mem := by
    intro k
    have hne : k ∈ keys → k ≠ least := fun hk => ((List.pairwise_cons.mp h.sorted).1 k hk).ne'
    constructor
    · intro hk
      obtain ⟨records, hrecords, record, hrecord, hkey⟩ := (h.mem k).mp (List.mem_cons_of_mem _ hk)
      refine ⟨_, List.mem_map_of_mem hrecords, record, ?_, hkey⟩
      apply List.mem_filter.mpr
      exact ⟨hrecord, by simpa [hkey] using hne hk⟩
    · rintro ⟨records, hrecords, record, hrecord, hkey⟩
      obtain ⟨source, hsource, rfl⟩ := List.mem_map.mp hrecords
      obtain ⟨hrecord, hother⟩ := List.mem_filter.mp hrecord
      have hmem := (h.mem k).mpr ⟨source, hsource, record, hrecord, hkey⟩
      apply (List.mem_cons.mp hmem).resolve_left
      rw [← hkey]
      simpa using hother

theorem least_head {keys : List α} (h : Merges key keys sources)
    (hdown : ∀ x y, x ≤ y → below y = true → below x = true) (hbelow : ∀ k ∈ keys, below k = true)
    {heads : List (Option ρ)} (hshows : List.Forall₂ (Shows key below) heads sources) :
    (leastKey (heads.map (Option.map key))).filter below = keys.head? := by
  have hpast : ∀ head ∈ heads, ∀ record, head = some record →
      key record ∈ keys ∨ below (key record) = false := by
    intro head hhead record hrecord
    obtain ⟨n, hn, rfl⟩ := List.mem_iff_getElem.mp hhead
    have hlen := hshows.length_eq
    have hshow := (List.forall₂_iff_get.mp hshows).2 n hn (hlen ▸ hn)
    simp only [List.get_eq_getElem] at hshow
    cases hsource : sources[n] with
    | nil =>
      rw [hsource] at hshow
      exact Or.inr (hshow record hrecord)
    | cons first records =>
      rw [hsource] at hshow
      have hfirst : heads[n] = some first := hshow
      rw [hfirst] at hrecord
      obtain rfl := Option.some.inj hrecord
      exact Or.inl ((h.mem _).mpr ⟨sources[n], List.getElem_mem _, first, by simp [hsource], rfl⟩)
  cases keys with
  | nil =>
    rw [List.head?_nil, Option.filter_eq_none_iff]
    intro k hk
    obtain ⟨hmem, -⟩ := leastKey_eq_some.mp hk
    obtain ⟨head, hhead, hmap⟩ := List.mem_map.mp hmem
    obtain ⟨record, hrecord, rfl⟩ := Option.map_eq_some_iff.mp hmap
    simpa using hpast head hhead record hrecord
  | cons least keys =>
    have hleast : leastKey (heads.map (Option.map key)) = some least := by
      apply leastKey_eq_some.mpr
      constructor
      · obtain ⟨records, hrecords, record, hrecord, hkey⟩ := (h.mem least).mp List.mem_cons_self
        obtain ⟨n, hn, rfl⟩ := List.mem_iff_getElem.mp hrecords
        have hlen := hshows.length_eq
        have hshow := (List.forall₂_iff_get.mp hshows).2 n (hlen ▸ hn) hn
        simp only [List.get_eq_getElem] at hshow
        cases hsource : sources[n] with
        | nil => rw [hsource] at hrecord; cases hrecord
        | cons first rest =>
          rw [hsource] at hshow hrecord
          have hfirst : heads[n] = some first := hshow
          have hle := h.le sources[n] (List.getElem_mem _) first (by simp [hsource])
          have hge : key first ≤ least := by
            have hsorted := h.sources_sorted sources[n] (List.getElem_mem _)
            rw [hsource] at hsorted
            rcases List.mem_cons.mp hrecord with rfl | hlater
            · exact hkey.le
            · exact ((List.pairwise_cons.mp hsorted).1 record hlater).le.trans hkey.le
          apply List.mem_map.mpr
          refine ⟨heads[n], List.getElem_mem _, ?_⟩
          rw [hfirst, Option.map_some, le_antisymm hge hle]
      · intro other hother
        obtain ⟨head, hhead, hmap⟩ := List.mem_map.mp hother
        obtain ⟨record, hrecord, rfl⟩ := Option.map_eq_some_iff.mp hmap
        rcases hpast head hhead record hrecord with hmem | hfalse
        · rcases List.mem_cons.mp hmem with heq | hlater
          · exact heq.ge
          · exact ((List.pairwise_cons.mp h.sorted).1 _ hlater).le
        · by_contra hlt
          have := hdown _ _ (not_le.mp hlt).le (hbelow least List.mem_cons_self)
          rw [hfalse] at this
          cases this
    rw [hleast]
    simp [hbelow least List.mem_cons_self]

end Merges

section Stream

variable (next : σ → Option (γ × σ))

def Yields : σ → List γ → Prop
  | state, [] => next state = none
  | state, item :: items => ∃ state', next state = some (item, state') ∧ Yields state' items

variable {next}

theorem yields_of_invariant {item : β → γ} (R : σ → List β → Prop) (hnil : ∀ state, R state [] → next state = none)
    (hcons : ∀ state k ks, R state (k :: ks) → ∃ state', next state = some (item k, state') ∧ R state' ks) {state : σ}
    {ks : List β} (h : R state ks) : Yields next state (ks.map item) := by
  induction ks generalizing state with
  | nil => exact hnil state h
  | cons k ks ih =>
    obtain ⟨state', hnext, hstate'⟩ := hcons state k ks h
    exact ⟨state', hnext, ih hstate'⟩

end Stream

end Thingd.Merge
