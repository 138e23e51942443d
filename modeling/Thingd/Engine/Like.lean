import Thingd.Data.Utf8

namespace Thingd.Engine

open Utf8 List

section Code

/-- The loop over the parts of the pattern; no result stands for a slice inside a character, which panics. -/
def likeParts (s : Bytes) : List Bytes → ℕ → Option Bool
  | [], _ => some true
  | part :: parts, pos =>
    if part.isEmpty then likeParts s parts pos
    else
      match sliceFrom s pos with
      | none => none
      | some rest =>
        match findSub part rest with
        | some idx => likeParts s parts (pos + (idx + part.length))
        | none => some false

/-- The matcher that both engines have, word for word. -/
def likeMatch (s pattern : Bytes) : Option Bool := likeParts s (pattern.splitOn 37) 0

end Code

section Meaning

def Like : List Char → List Char → Prop
  | [], s => s = []
  | c :: pattern, s =>
    if c = '%' then ∃ skipped rest, s = skipped ++ rest ∧ Like pattern rest
    else ∃ d rest, s = d :: rest ∧ (c = '_' ∨ d = c) ∧ Like pattern rest

variable {pattern s : List Char}

theorem like_any : Like ('%' :: pattern) s ↔ ∃ skipped rest, s = skipped ++ rest ∧ Like pattern rest := by
  rw [Like, if_pos rfl]

theorem like_cons {c : Char} (hc : c ≠ '%') :
    Like (c :: pattern) s ↔ ∃ d rest, s = d :: rest ∧ (c = '_' ∨ d = c) ∧ Like pattern rest := by
  rw [Like, if_neg hc]

def Plain (text : List Char) : Prop := '%' ∉ text ∧ '_' ∉ text

theorem like_plain {text : List Char} (h : Plain text) :
    Like (text ++ pattern) s ↔ ∃ rest, s = text ++ rest ∧ Like pattern rest := by
  induction text generalizing s with
  | nil => simp
  | cons c text ih =>
    simp only [Plain, mem_cons, not_or] at h
    rw [cons_append, like_cons (Ne.symm h.1.1)]
    constructor
    · rintro ⟨d, rest, rfl, hone | rfl, hlike⟩
      · exact absurd hone.symm h.2.1
      · obtain ⟨rest', rfl, hlike'⟩ := (ih ⟨h.1.2, h.2.2⟩).mp hlike
        exact ⟨rest', rfl, hlike'⟩
    · rintro ⟨rest, rfl, hlike⟩
      exact ⟨c, text ++ rest, rfl, Or.inr rfl, (ih ⟨h.1.2, h.2.2⟩).mpr ⟨rest, rfl, hlike⟩⟩

theorem like_intercalate {pieces : List (List Char)} (h : ∀ piece ∈ pieces, Plain piece) :
    Like ('%' :: ['%'].intercalate (pieces ++ [[]])) s ↔ Occur pieces s := by
  induction pieces generalizing s with
  | nil =>
    refine iff_of_true ?_ trivial
    rw [like_any]
    exact ⟨s, [], (append_nil s).symm, rfl⟩
  | cons piece pieces ih =>
    obtain ⟨next, others, hnext⟩ : ∃ next others, pieces ++ [[]] = next :: others :=
      exists_cons_of_ne_nil (by simp)
    rw [cons_append, hnext, intercalate_cons_cons, ← hnext, Occur]
    have hpiece := h piece mem_cons_self
    have hpieces := fun p hp => h p (mem_cons_of_mem _ hp)
    constructor
    · rintro ⟨skipped, tail, rfl, hlike⟩
      rw [append_assoc, like_plain hpiece] at hlike
      obtain ⟨rest, rfl, hlike⟩ := hlike
      exact ⟨skipped, rest, rfl, (ih hpieces).mp hlike⟩
    · rintro ⟨skipped, rest, rfl, hoccur⟩
      refine ⟨skipped, piece ++ rest, rfl, ?_⟩
      rw [append_assoc, like_plain hpiece]
      exact ⟨rest, rfl, (ih hpieces).mpr hoccur⟩

theorem Like.head {c : Char} (hc : c ≠ '%') (hone : c ≠ '_') (h : Like (c :: pattern) s) : s.head? = some c := by
  obtain ⟨d, rest, rfl, hd | rfl, -⟩ := (like_cons hc).mp h
  · exact absurd hd hone
  · rfl

theorem Like.getLast {c : Char} (hc : c ≠ '%') (hone : c ≠ '_') (h : Like (pattern ++ [c]) s) :
    s.getLast? = some c := by
  induction pattern generalizing s with
  | nil =>
    have hplain : Plain [c] := ⟨by simpa using Ne.symm hc, by simpa using Ne.symm hone⟩
    obtain ⟨rest, rfl, hrest⟩ := (like_plain hplain).mp h
    rw [Like] at hrest
    simp [hrest]
  | cons d pattern ih =>
    rw [cons_append] at h
    by_cases hd : d = '%'
    · rw [hd] at h
      obtain ⟨skipped, rest, rfl, hlike⟩ := h
      simp [ih hlike]
    · obtain ⟨e, rest, rfl, -, hlike⟩ := (like_cons hd).mp h
      rw [← singleton_append, List.getLast?_append, ih hlike, Option.some_or]

def sample (pattern : List Char) : List Char := (pattern.filter (· ≠ '%')).map fun c => if c = '_' then 'x' else c

theorem like_sample (pattern : List Char) : Like pattern (sample pattern) := by
  induction pattern with
  | nil => rfl
  | cons c pattern ih =>
    by_cases hc : c = '%'
    · rw [hc]
      exact ⟨[], sample pattern, by simp [sample], ih⟩
    · rw [like_cons hc]
      refine ⟨if c = '_' then 'x' else c, sample pattern, by simp [sample, hc], ?_, ih⟩
      by_cases hone : c = '_'
      · exact Or.inl hone
      · exact Or.inr (if_neg hone)

end Meaning

section Loop

variable {s t : List Char}

theorem likeParts_encode (parts : List (List Char)) :
    ∃ found, likeParts (encode (s ++ t)) (parts.map encode) (encode s).length = some found ∧
      (found = true ↔ Occur parts t) := by
  induction parts generalizing s t with
  | nil => exact ⟨true, rfl, iff_of_true rfl trivial⟩
  | cons part parts ih =>
    simp only [map_cons, likeParts]
    by_cases hpart : part = []
    · rw [hpart, encode_nil, occur_nil_cons]
      exact ih
    · rw [if_neg (by simpa using mt encode_eq_nil_iff.mp hpart), sliceFrom_encode]
      dsimp only
      rw [findSub_encode hpart]
      cases hfind : findSub part t with
      | none =>
        refine ⟨false, rfl, iff_of_false Bool.false_ne_true ?_⟩
        rintro ⟨before, rest, ht, -⟩
        exact findSub_eq_none_iff.mp hfind before rest ht
      | some i =>
        obtain ⟨⟨before, rest, rfl, hlen⟩, -⟩ := findSub_eq_some hfind
        have hdrop : (before ++ (part ++ rest)).drop (i + part.length) = rest := by
          rw [← hlen, ← append_assoc, ← length_append, drop_left]
        have htake : (before ++ (part ++ rest)).take i = before := by rw [← hlen, take_left]
        have hpos : (encode s).length + ((encode before).length + (encode part).length) =
          (encode (s ++ (before ++ part))).length := by
          simp only [encode_append, length_append]
        have htext : s ++ (before ++ (part ++ rest)) = (s ++ (before ++ part)) ++ rest := by simp only [append_assoc]
        rw [occur_cons_of_findSub hfind, hdrop]
        simp only [Option.map_some, htake]
        rw [hpos, htext]
        exact ih

theorem likeMatch_encode (s pattern : List Char) :
    ∃ found, likeMatch (encode s) (encode pattern) = some found ∧ (found = true ↔ Occur (pattern.splitOn '%') s) := by
  have hsplit : (encode pattern).splitOn 37 = (pattern.splitOn '%').map encode :=
    splitOn_encode (c := '%') (by decide) pattern
  rw [likeMatch, hsplit]
  exact likeParts_encode (s := []) _

theorem likeMatch_iff (s pattern : List Char) :
    likeMatch (encode s) (encode pattern) = some true ↔ Occur (pattern.splitOn '%') s := by
  obtain ⟨found, hfound, hiff⟩ := likeMatch_encode s pattern
  rw [hfound, Option.some.injEq, hiff]

theorem likeMatch_ne_none (s pattern : List Char) : likeMatch (encode s) (encode pattern) ≠ none := by
  obtain ⟨found, hfound, -⟩ := likeMatch_encode s pattern
  rw [hfound]
  exact Option.some_ne_none _

end Loop

section Agreement

variable {pattern : List Char}

def Bracketed (pattern : List Char) : Prop :=
  pattern.head? = some '%' ∧ pattern.getLast? = some '%' ∧ '_' ∉ pattern

instance (pattern : List Char) : Decidable (Bracketed pattern) := inferInstanceAs (Decidable (_ ∧ _ ∧ _))

theorem plain_of_mem_splitOn {piece : List Char} (hone : '_' ∉ pattern) (h : piece ∈ pattern.splitOn '%') :
    Plain piece := by
  refine ⟨not_mem_of_mem_splitOn h, ?_⟩
  intro hmem
  have hflat : '_' ∈ (pattern.splitOn '%').flatten := mem_flatten.mpr ⟨piece, h, hmem⟩
  rw [flatten_splitOn, mem_filter] at hflat
  exact hone hflat.1

theorem like_iff_occur (h : Bracketed pattern) (s : List Char) : Like pattern s ↔ Occur (pattern.splitOn '%') s := by
  obtain ⟨hhead, hlast, hone⟩ := h
  obtain ⟨inner, rfl⟩ := List.head?_eq_some_iff.mp hhead
  have hsplit : ('%' :: inner).splitOn '%' = [] :: inner.splitOn '%' :=
    splitOn_append_separator (l := [])
  rw [hsplit, occur_nil_cons]
  have hone' : '_' ∉ inner := fun hmem => hone (mem_cons_of_mem _ hmem)
  cases inner using List.reverseRecOn with
  | nil =>
    refine iff_of_true ?_ ?_
    · rw [like_any]
      exact ⟨s, [], (append_nil s).symm, rfl⟩
    · exact occur_nil_cons.mpr trivial
  | append_singleton middle c =>
    have hc : c = '%' := by simpa [List.getLast?_cons] using hlast
    subst hc
    have hpieces : (middle ++ ['%']).splitOn '%' = middle.splitOn '%' ++ [[]] :=
      splitOn_append_separator
    have hmiddle : '_' ∉ middle := fun hmem => hone' (mem_append_left _ hmem)
    have hjoin : middle ++ ['%'] = ['%'].intercalate (middle.splitOn '%' ++ [[]]) := by
      rw [← hpieces, intercalate_splitOn]
    rw [hpieces, occur_append_nil, hjoin]
    apply like_intercalate
    intro piece hpiece
    exact plain_of_mem_splitOn hmiddle hpiece

theorem occur_splitOn (before after : List Char) :
    Occur (pattern.splitOn '%') (before ++ (pattern.filter (· ≠ '%') ++ after)) := by
  rw [← flatten_splitOn]
  exact (occur_flatten _ after).append_left before

theorem bracketed_of_agrees (h : ∀ s, Occur (pattern.splitOn '%') s → Like pattern s)
    (h' : ∀ s, Like pattern s → Occur (pattern.splitOn '%') s) : Bracketed pattern := by
  have hone : '_' ∉ pattern := by
    intro hmem
    have hflat : '_' ∈ (pattern.splitOn '%').flatten := by
      rw [flatten_splitOn, mem_filter]
      exact ⟨hmem, by decide⟩
    obtain ⟨piece, hpiece, hunder⟩ := mem_flatten.mp hflat
    have hsample := (h' (sample pattern) (like_sample pattern)).mem hpiece hunder
    obtain ⟨c, -, hc⟩ := mem_map.mp hsample
    split_ifs at hc with hx
    · exact absurd hc (by decide)
    · exact hx hc
  have hother : ∀ c : Char, ∃ d, d ≠ c := by
    intro c
    by_cases hc : c = 'x'
    · exact ⟨'y', by rw [hc]; decide⟩
    · exact ⟨'x', Ne.symm hc⟩
  refine ⟨?_, ?_, hone⟩
  · cases pattern with
    | nil =>
      have hlike := h ['x'] (occur_nil_cons.mpr trivial)
      rw [Like] at hlike
      exact absurd hlike (cons_ne_nil _ _)
    | cons c inner =>
      by_contra hc
      have hc : c ≠ '%' := by simpa using hc
      obtain ⟨d, hd⟩ := hother c
      have hlike := h ([d] ++ (_ ++ [])) (occur_splitOn [d] [])
      have hhead := hlike.head hc fun heq => hone (by simp [heq])
      exact hd (by simpa using hhead)
  · cases pattern using List.reverseRecOn with
    | nil =>
      have hlike := h ['x'] (occur_nil_cons.mpr trivial)
      rw [Like] at hlike
      exact absurd hlike (cons_ne_nil _ _)
    | append_singleton inner c =>
      by_contra hc
      have hc : c ≠ '%' := by simpa using hc
      obtain ⟨d, hd⟩ := hother c
      have hlike := h ([] ++ (_ ++ [d])) (occur_splitOn [] [d])
      have hlast := hlike.getLast hc fun heq => hone (by simp [heq])
      exact hd (by simpa using hlast)

theorem like_match_is_like_iff (pattern : List Char) :
    (∀ s, likeMatch (encode s) (encode pattern) ≠ none) ∧
      ((∀ s, likeMatch (encode s) (encode pattern) = some true ↔ Like pattern s) ↔ Bracketed pattern) := by
  refine ⟨fun s => likeMatch_ne_none s pattern, ?_⟩
  simp only [likeMatch_iff]
  constructor
  · intro h
    exact bracketed_of_agrees (fun s => (h s).mp) (fun s => (h s).mpr)
  · intro h s
    exact (like_iff_occur h s).symm

theorem like_match_finds_inside :
    (likeMatch (encode ['c', 'a', 't']) (encode ['a']) = some true ∧ ¬ Like ['a'] ['c', 'a', 't']) ∧
      likeMatch (encode ['x']) (encode ['_']) = some false ∧ Like ['_'] ['x'] := by
  refine ⟨⟨by decide +kernel, ?_⟩, by decide +kernel, like_sample ['_']⟩
  intro h
  exact absurd (h.head (by decide) (by decide)) (by decide)

end Agreement

end Thingd.Engine
