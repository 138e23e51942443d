import Thingd.Data.Bytes
import Thingd.Data.Pieces

namespace Thingd.Utf8

open List

def isContinuation (byte : Byte) : Bool := decide (128 ≤ byte.val ∧ byte.val < 192)

def encodeChar (c : Char) : Bytes :=
  let v := c.toNat
  if v < 0x80 then [Fin.ofNat 256 v]
  else if v < 0x800 then [Fin.ofNat 256 (0xC0 + v / 64), Fin.ofNat 256 (0x80 + v % 64)]
  else if v < 0x10000 then
    [Fin.ofNat 256 (0xE0 + v / 4096), Fin.ofNat 256 (0x80 + v / 64 % 64), Fin.ofNat 256 (0x80 + v % 64)]
  else
    [Fin.ofNat 256 (0xF0 + v / 262144), Fin.ofNat 256 (0x80 + v / 4096 % 64), Fin.ofNat 256 (0x80 + v / 64 % 64),
      Fin.ofNat 256 (0x80 + v % 64)]

def encode (s : List Char) : Bytes := s.flatMap encodeChar

@[simp] theorem encode_nil : encode [] = [] := rfl

@[simp] theorem encode_cons (c : Char) (s : List Char) : encode (c :: s) = encodeChar c ++ encode s := rfl

@[simp] theorem encode_append (s t : List Char) : encode (s ++ t) = encode s ++ encode t := flatMap_append

theorem toNat_valid (c : Char) : c.toNat < 0xD800 ∨ 0xDFFF < c.toNat ∧ c.toNat < 0x110000 := c.valid

theorem toNat_lt (c : Char) : c.toNat < 0x110000 := by
  have h := toNat_valid c
  omega

variable {n : ℕ}

theorem isContinuation_lead (hbyte : n < 256) (h : n < 128 ∨ 192 ≤ n) : isContinuation (Fin.ofNat 256 n) = false := by
  rw [isContinuation, Fin.val_ofNat, decide_eq_false_iff_not]
  omega

theorem isContinuation_tail (h : n < 64) : isContinuation (Fin.ofNat 256 (0x80 + n)) = true := by
  rw [isContinuation, Fin.val_ofNat, decide_eq_true_iff]
  omega

theorem encodeChar_shape (c : Char) :
    ∃ lead tail, encodeChar c = lead :: tail ∧ isContinuation lead = false ∧ ∀ byte ∈ tail,
      isContinuation byte = true := by
  have hc := toNat_lt c
  have hlow : isContinuation (Fin.ofNat 256 (0x80 + c.toNat % 64)) = true := by
    apply isContinuation_tail
    omega
  have hmiddle : isContinuation (Fin.ofNat 256 (0x80 + c.toNat / 64 % 64)) = true := by
    apply isContinuation_tail
    omega
  have hhigh : isContinuation (Fin.ofNat 256 (0x80 + c.toNat / 4096 % 64)) = true := by
    apply isContinuation_tail
    omega
  simp only [encodeChar]
  split_ifs with h1 h2 h3
  · refine ⟨_, _, rfl, ?_, forall_mem_nil _⟩
    apply isContinuation_lead <;> omega
  · refine ⟨_, _, rfl, ?_, forall_mem_cons.mpr ⟨hlow, forall_mem_nil _⟩⟩
    apply isContinuation_lead <;> omega
  · refine ⟨_, _, rfl, ?_, forall_mem_cons.mpr ⟨hmiddle, forall_mem_cons.mpr ⟨hlow, forall_mem_nil _⟩⟩⟩
    apply isContinuation_lead <;> omega
  · refine ⟨_, _, rfl, ?_, forall_mem_cons.mpr ⟨hhigh, forall_mem_cons.mpr
      ⟨hmiddle, forall_mem_cons.mpr ⟨hlow, forall_mem_nil _⟩⟩⟩⟩
    apply isContinuation_lead <;> omega

theorem encodeChar_ne_nil (c : Char) : encodeChar c ≠ [] := by
  obtain ⟨lead, tail, h, -⟩ := encodeChar_shape c
  rw [h]
  exact cons_ne_nil _ _

theorem encode_eq_nil_iff {s : List Char} : encode s = [] ↔ s = [] := by
  cases s with
  | nil => simp
  | cons c s => simp [encodeChar_ne_nil]

variable {ranges : List (ℕ × ℕ)} {bytes : Bytes} {c : Char} {lead : Byte}

section Decode

def codePoint : Bytes → ℕ
  | [a] => a.val
  | [a, b] => (a.val - 0xC0) * 64 + (b.val - 0x80)
  | [a, b, c] => (a.val - 0xE0) * 4096 + (b.val - 0x80) * 64 + (c.val - 0x80)
  | [a, b, c, d] => (a.val - 0xF0) * 262144 + (b.val - 0x80) * 4096 + (c.val - 0x80) * 64 + (d.val - 0x80)
  | _ => 0

theorem codePoint_encodeChar (c : Char) : codePoint (encodeChar c) = c.toNat := by
  have hc := toNat_lt c
  simp only [encodeChar]
  split_ifs
  · change c.toNat % 256 = _
    omega
  · change ((0xC0 + c.toNat / 64) % 256 - 0xC0) * 64 + ((0x80 + c.toNat % 64) % 256 - 0x80) = _
    omega
  · change ((0xE0 + c.toNat / 4096) % 256 - 0xE0) * 4096 + ((0x80 + c.toNat / 64 % 64) % 256 - 0x80) * 64 +
      ((0x80 + c.toNat % 64) % 256 - 0x80) = _
    omega
  · change ((0xF0 + c.toNat / 262144) % 256 - 0xF0) * 262144 + ((0x80 + c.toNat / 4096 % 64) % 256 - 0x80) * 4096 +
      ((0x80 + c.toNat / 64 % 64) % 256 - 0x80) * 64 + ((0x80 + c.toNat % 64) % 256 - 0x80) = _
    omega

theorem encodeChar_injective : Function.Injective encodeChar := by
  intro c d h
  rw [← Char.toNat_inj, ← codePoint_encodeChar c, ← codePoint_encodeChar d, h]

def tailRanges (lead : Byte) : Option (List (ℕ × ℕ)) :=
  if lead.val < 0x80 then some []
  else if lead.val < 0xC2 then none
  else if lead.val < 0xE0 then some [(0x80, 0xC0)]
  else if lead.val < 0xF0 then
    some [(if lead.val = 0xE0 then 0xA0 else 0x80, if lead.val = 0xED then 0xA0 else 0xC0), (0x80, 0xC0)]
  else if lead.val < 0xF5 then
    some [(if lead.val = 0xF0 then 0x90 else 0x80, if lead.val = 0xF4 then 0x90 else 0xC0), (0x80, 0xC0), (0x80, 0xC0)]
  else none

def takeTail : List (ℕ × ℕ) → Bytes → Option Bytes × Bytes
  | [], bytes => (some [], bytes)
  | _ :: _, [] => (none, [])
  | range :: ranges, byte :: bytes =>
    if range.1 ≤ byte.val ∧ byte.val < range.2 then
      ((takeTail ranges bytes).1.map (byte :: ·), (takeTail ranges bytes).2)
    else (none, byte :: bytes)

/-- What a lossy reader meets next: a character, or the longest start of one that the next byte does not continue;
and the bytes that follow. -/
def nextChunk (lead : Byte) (bytes : Bytes) : Option Bytes × Bytes :=
  match tailRanges lead with
  | none => (none, bytes)
  | some ranges => ((takeTail ranges bytes).1.map (lead :: ·), (takeTail ranges bytes).2)

theorem takeTail_cons {low high : ℕ} (hbyte : n < 256) (hlow : low ≤ n) (hhigh : n < high) :
    takeTail ((low, high) :: ranges) (Fin.ofNat 256 n :: bytes) =
      ((takeTail ranges bytes).1.map (Fin.ofNat 256 n :: ·), (takeTail ranges bytes).2) := by
  rw [takeTail, Fin.val_ofNat, Nat.mod_eq_of_lt hbyte, if_pos ⟨hlow, hhigh⟩]

theorem nextChunk_encodeChar {tail : Bytes} (h : encodeChar c = lead :: tail) (rest : Bytes) :
    nextChunk lead (tail ++ rest) = (some (encodeChar c), rest) := by
  have hvalid := toNat_valid c
  rw [h]
  simp only [encodeChar] at h
  split_ifs at h with h1 h2 h3
  · obtain ⟨rfl, rfl⟩ := List.cons.inj h
    rw [nextChunk, tailRanges, Fin.val_ofNat, Nat.mod_eq_of_lt (by omega), if_pos h1]
    rfl
  · obtain ⟨rfl, rfl⟩ := List.cons.inj h
    rw [nextChunk, tailRanges, Fin.val_ofNat, if_neg (by omega), if_neg (by omega), if_pos (by omega), cons_append]
    dsimp only
    rw [takeTail_cons (by omega) (by omega) (by omega)]
    rfl
  · obtain ⟨rfl, rfl⟩ := List.cons.inj h
    rw [nextChunk, tailRanges, Fin.val_ofNat, if_neg (by omega), if_neg (by omega), if_neg (by omega),
      if_pos (by omega), cons_append, cons_append]
    dsimp only
    rw [takeTail_cons (by omega) (by split_ifs <;> omega) (by split_ifs <;> omega),
      takeTail_cons (by omega) (by omega) (by omega)]
    rfl
  · obtain ⟨rfl, rfl⟩ := List.cons.inj h
    rw [nextChunk, tailRanges, Fin.val_ofNat, if_neg (by omega), if_neg (by omega), if_neg (by omega),
      if_neg (by omega), if_pos (by omega), cons_append, cons_append, cons_append]
    dsimp only
    rw [takeTail_cons (by omega) (by split_ifs <;> omega) (by split_ifs <;> omega),
      takeTail_cons (by omega) (by omega) (by omega), takeTail_cons (by omega) (by omega) (by omega)]
    rfl

theorem encodeChar_append_inj {d : Char} {x y : Bytes} (h : encodeChar c ++ x = encodeChar d ++ y) : c = d ∧ x = y := by
  obtain ⟨lead, tail, hc, -⟩ := encodeChar_shape c
  obtain ⟨lead', tail', hd, -⟩ := encodeChar_shape d
  rw [hc, hd, cons_append, cons_append] at h
  obtain ⟨rfl, htail⟩ := List.cons.inj h
  have hnext := nextChunk_encodeChar hc x
  rw [htail, nextChunk_encodeChar hd] at hnext
  obtain ⟨hchar, hrest⟩ := Prod.mk.inj hnext
  exact ⟨encodeChar_injective (Option.some.inj hchar).symm, hrest.symm⟩

end Decode

section Lossy

theorem length_takeTail (ranges : List (ℕ × ℕ)) (bytes : Bytes) : (takeTail ranges bytes).2.length ≤ bytes.length := by
  induction ranges generalizing bytes with
  | nil => rfl
  | cons range ranges ih =>
    cases bytes with
    | nil => rfl
    | cons byte bytes =>
      rw [takeTail]
      split_ifs
      · exact (ih bytes).trans (Nat.le_succ _)
      · rfl

theorem length_nextChunk (lead : Byte) (bytes : Bytes) : (nextChunk lead bytes).2.length ≤ bytes.length := by
  rw [nextChunk]
  cases tailRanges lead with
  | none => rfl
  | some ranges => exact length_takeTail ranges bytes

def replacement : Bytes := [0xEF, 0xBF, 0xBD]

def lossyUpTo : ℕ → Bytes → Bytes
  | _, [] => []
  | 0, _ => []
  | fuel + 1, lead :: bytes => (nextChunk lead bytes).1.getD replacement ++ lossyUpTo fuel (nextChunk lead bytes).2

def lossy (bytes : Bytes) : Bytes := lossyUpTo bytes.length bytes

theorem lossyUpTo_eq {fuel : ℕ} (h : bytes.length ≤ fuel) : lossyUpTo fuel bytes = lossy bytes := by
  rw [lossy]
  induction fuel using Nat.strongRecOn generalizing bytes with
  | _ fuel ih =>
    cases bytes with
    | nil => cases fuel <;> rfl
    | cons lead bytes =>
      cases fuel with
      | zero => simp at h
      | succ fuel =>
        rw [length_cons] at h
        have hrest := length_nextChunk lead bytes
        rw [length_cons, lossyUpTo, lossyUpTo, ih fuel (by omega) (by omega)]
        by_cases hfuel : bytes.length < fuel + 1
        · rw [ih bytes.length hfuel hrest]
        · omega

@[simp] theorem lossy_nil : lossy [] = [] := rfl

theorem lossy_cons (lead : Byte) (bytes : Bytes) :
    lossy (lead :: bytes) = (nextChunk lead bytes).1.getD replacement ++ lossy (nextChunk lead bytes).2 := by
  rw [lossy, length_cons, lossyUpTo, lossyUpTo_eq (length_nextChunk lead bytes)]

theorem lossy_encode_append (s : List Char) (bytes : Bytes) : lossy (encode s ++ bytes) = encode s ++ lossy bytes := by
  induction s with
  | nil => rfl
  | cons c s ih =>
    obtain ⟨lead, tail, hc, -⟩ := encodeChar_shape c
    have hnext := nextChunk_encodeChar hc (encode s ++ bytes)
    rw [encode_cons, append_assoc]
    nth_rewrite 1 [hc]
    rw [cons_append, lossy_cons, hnext, ih, Option.getD_some, append_assoc]

theorem lossy_encode (s : List Char) : lossy (encode s) = encode s := by
  have h := lossy_encode_append s []
  rwa [lossy_nil, append_nil] at h

variable {stop : Byte}

theorem takeTail_append (hstop : ∀ range ∈ ranges, stop.val < range.1) (bytes rest : Bytes) :
    takeTail ranges (bytes ++ stop :: rest) =
      ((takeTail ranges bytes).1, (takeTail ranges bytes).2 ++ stop :: rest) := by
  induction ranges generalizing bytes with
  | nil => rfl
  | cons range ranges ih =>
    obtain ⟨hrange, hranges⟩ := forall_mem_cons.mp hstop
    cases bytes with
    | nil =>
      have hnot : ¬ (range.1 ≤ stop.val ∧ stop.val < range.2) := by omega
      simp only [nil_append, takeTail, if_neg hnot]
    | cons byte bytes =>
      rw [cons_append, takeTail, takeTail, ih hranges]
      split_ifs <;> rfl

theorem tailRanges_low (h : tailRanges lead = some ranges) : ∀ range ∈ ranges, 0x80 ≤ range.1 := by
  rw [tailRanges] at h
  split_ifs at h <;> cases h <;> decide

theorem nextChunk_append (hstop : stop.val < 0x80) (lead : Byte) (bytes rest : Bytes) :
    nextChunk lead (bytes ++ stop :: rest) = ((nextChunk lead bytes).1, (nextChunk lead bytes).2 ++ stop :: rest) := by
  rw [nextChunk, nextChunk]
  cases hranges : tailRanges lead with
  | none => rfl
  | some ranges =>
    have hlow : ∀ range ∈ ranges, stop.val < range.1 := fun range hrange =>
      lt_of_lt_of_le hstop (tailRanges_low hranges range hrange)
    simp only [takeTail_append hlow]

theorem nextChunk_ascii (h : lead.val < 0x80) (bytes : Bytes) : nextChunk lead bytes = (some [lead], bytes) := by
  rw [nextChunk, tailRanges, if_pos h]
  rfl

theorem lossy_append (hstop : stop.val < 0x80) (bytes rest : Bytes) :
    lossy (bytes ++ stop :: rest) = lossy bytes ++ stop :: lossy rest := by
  induction hlen : bytes.length using Nat.strongRecOn generalizing bytes with
  | _ n ih =>
    cases bytes with
    | nil =>
      rw [nil_append, lossy_cons, nextChunk_ascii hstop]
      rfl
    | cons lead bytes =>
      have hshort := length_nextChunk lead bytes
      rw [length_cons] at hlen
      rw [cons_append, lossy_cons, nextChunk_append hstop, ih _ (by omega) _ rfl, lossy_cons lead bytes,
        append_assoc]

theorem takeTail_mem {taken : Bytes} (hlow : ∀ range ∈ ranges, 0x80 ≤ range.1)
    (h : (takeTail ranges bytes).1 = some taken) : ∀ byte ∈ taken, 0x80 ≤ byte.val := by
  induction ranges generalizing bytes taken with
  | nil =>
    cases h
    exact forall_mem_nil _
  | cons range ranges ih =>
    obtain ⟨hrange, hranges⟩ := forall_mem_cons.mp hlow
    cases bytes with
    | nil => cases h
    | cons byte bytes =>
      rw [takeTail] at h
      split_ifs at h with hfits
      · obtain ⟨others, hothers, rfl⟩ := Option.map_eq_some_iff.mp h
        exact forall_mem_cons.mpr ⟨by omega, ih hranges hothers⟩

theorem takeTail_subset (h : stop ∉ bytes) : stop ∉ (takeTail ranges bytes).2 := by
  induction ranges generalizing bytes with
  | nil => exact h
  | cons range ranges ih =>
    cases bytes with
    | nil => exact h
    | cons byte bytes =>
      rw [takeTail]
      split_ifs
      · exact ih fun hmem => h (mem_cons_of_mem _ hmem)
      · exact h

theorem nextChunk_not_mem (hstop : stop.val < 0x80) (h : stop ∉ lead :: bytes) :
    stop ∉ (nextChunk lead bytes).1.getD replacement ∧ stop ∉ (nextChunk lead bytes).2 := by
  have hreplacement : stop ∉ replacement := by
    intro hmem
    have hhigh : ∀ byte ∈ replacement, 0x80 ≤ byte.val := by simp [replacement]
    exact absurd (hhigh stop hmem) (by omega)
  rw [mem_cons, not_or] at h
  rw [nextChunk]
  cases hranges : tailRanges lead with
  | none => exact ⟨hreplacement, h.2⟩
  | some ranges =>
    refine ⟨?_, takeTail_subset h.2⟩
    cases htaken : (takeTail ranges bytes).1 with
    | none => simpa [htaken] using hreplacement
    | some taken =>
      simp only [htaken, Option.map_some, Option.getD_some, mem_cons, not_or]
      refine ⟨h.1, ?_⟩
      intro hmem
      exact absurd (takeTail_mem (tailRanges_low hranges) htaken stop hmem) (by omega)

theorem not_mem_lossy (hstop : stop.val < 0x80) (h : stop ∉ bytes) : stop ∉ lossy bytes := by
  induction hlen : bytes.length using Nat.strongRecOn generalizing bytes with
  | _ n ih =>
    cases bytes with
    | nil => exact h
    | cons lead bytes =>
      obtain ⟨hchunk, hrest⟩ := nextChunk_not_mem hstop h
      have hshort := length_nextChunk lead bytes
      rw [length_cons] at hlen
      rw [lossy_cons, mem_append, not_or]
      exact ⟨hchunk, ih _ (by omega) hrest rfl⟩

end Lossy

section Boundaries

variable {s p : List Char} {x y : Bytes}

theorem encode_append_eq (h : encode p ++ x = encode s) : ∃ rest, s = p ++ rest ∧ x = encode rest := by
  induction p generalizing s with
  | nil => exact ⟨s, rfl, h⟩
  | cons c p ih =>
    cases s with
    | nil =>
      rw [encode_nil, append_eq_nil_iff] at h
      exact absurd (encode_eq_nil_iff.mp h.1) (cons_ne_nil _ _)
    | cons d s =>
      rw [encode_cons, append_assoc] at h
      obtain ⟨rfl, htail⟩ := encodeChar_append_inj h
      obtain ⟨rest, rfl, hx⟩ := ih htail
      exact ⟨rest, rfl, hx⟩

theorem head_encode (h : p ≠ []) : ∃ lead tail, encode p = lead :: tail ∧ isContinuation lead = false := by
  cases p with
  | nil => exact absurd rfl h
  | cons c p =>
    obtain ⟨lead, tail, hc, hlead, -⟩ := encodeChar_shape c
    exact ⟨lead, tail ++ encode p, by rw [encode_cons, hc, cons_append], hlead⟩

theorem infix_encode (hp : p ≠ []) (h : x ++ (encode p ++ y) = encode s) :
    ∃ before rest, s = before ++ (p ++ rest) ∧ x = encode before ∧ y = encode rest := by
  induction s generalizing x with
  | nil =>
    rw [encode_nil, append_eq_nil_iff, append_eq_nil_iff] at h
    exact absurd (encode_eq_nil_iff.mp h.2.1) hp
  | cons c s ih =>
    cases x with
    | nil =>
      obtain ⟨rest, hs, hy⟩ := encode_append_eq h
      exact ⟨[], rest, hs, rfl, hy⟩
    | cons i x =>
      obtain ⟨lead, tail, hc, -, htail⟩ := encodeChar_shape c
      rw [encode_cons, hc] at h
      obtain ⟨rfl, hrest⟩ := List.cons.inj h
      rcases append_eq_append_iff.mp hrest with ⟨between, htail', hbetween⟩ | ⟨between, hx, hs⟩
      · cases between with
        | nil =>
          rw [append_nil] at htail'
          obtain ⟨before, rest, hs, hbefore, hy⟩ := @ih [] (by simpa using hbetween)
          refine ⟨c :: before, rest, by rw [hs, cons_append], ?_, hy⟩
          rw [encode_cons, ← hbefore, hc, htail', append_nil]
        | cons byte between =>
          -- the searched text would start with a byte from inside a character
          obtain ⟨lead', tail', hlead', hnot⟩ := head_encode hp
          rw [hlead'] at hbetween
          have hbyte : isContinuation byte = true := htail byte (by simp [htail'])
          rw [← (List.cons.inj hbetween).1, hnot] at hbyte
          exact absurd hbyte Bool.false_ne_true
      · obtain ⟨before, rest, hs', hbefore, hy⟩ := ih hs.symm
        refine ⟨c :: before, rest, by rw [hs', cons_append], ?_, hy⟩
        rw [encode_cons, ← hbefore, hc, hx, cons_append]

end Boundaries

section Slices

def isCharBoundary (s : Bytes) (pos : ℕ) : Bool :=
  if pos = 0 then true
  else
    match s.drop pos with
    | [] => decide (pos = s.length)
    | byte :: _ => !isContinuation byte

def sliceFrom (s : Bytes) (pos : ℕ) : Option Bytes := if isCharBoundary s pos then some (s.drop pos) else none

theorem sliceFrom_encode (s t : List Char) : sliceFrom (encode (s ++ t)) (encode s).length = some (encode t) := by
  have hdrop : (encode (s ++ t)).drop (encode s).length = encode t := by rw [encode_append, drop_left]
  have hboundary : isCharBoundary (encode (s ++ t)) (encode s).length = true := by
    rw [isCharBoundary]
    split_ifs with hzero
    · rfl
    · cases t with
      | nil => simp
      | cons c t =>
        obtain ⟨lead, tail, hlead, hnot⟩ := head_encode (cons_ne_nil c t)
        simp [hlead, hnot]
  rw [sliceFrom, if_pos hboundary, hdrop]

end Slices

section Separators

theorem encodeChar_ascii (h : c.toNat < 0x80) : encodeChar c = [Fin.ofNat 256 c.toNat] := by
  simp only [encodeChar, if_pos h]

theorem mem_encodeChar {byte : Byte} (hbyte : byte.val < 0x80) (h : byte ∈ encodeChar c) : c.toNat = byte.val := by
  obtain ⟨lead, tail, hc, -, htail⟩ := encodeChar_shape c
  rw [hc, mem_cons] at h
  rcases h with rfl | h
  · have hnext := nextChunk_encodeChar hc []
    rw [nextChunk_ascii hbyte, Prod.mk.injEq, Option.some.injEq] at hnext
    rw [← codePoint_encodeChar c, ← hnext.1]
    rfl
  · have hcontinues := htail byte h
    rw [isContinuation, decide_eq_true_iff] at hcontinues
    omega

theorem mem_encode {s : List Char} (hc : c.toNat < 0x80) : Fin.ofNat 256 c.toNat ∈ encode s ↔ c ∈ s := by
  have hval : (Fin.ofNat 256 c.toNat).val = c.toNat := by
    rw [Fin.val_ofNat]
    omega
  rw [encode, mem_flatMap]
  constructor
  · rintro ⟨d, hd, hmem⟩
    have heq := mem_encodeChar (by rw [hval]; exact hc) hmem
    rw [hval, Char.toNat_inj] at heq
    exact heq ▸ hd
  · intro hmem
    exact ⟨c, hmem, by rw [encodeChar_ascii hc]; exact mem_singleton_self _⟩

theorem encode_intercalate (hc : c.toNat < 0x80) (pieces : List (List Char)) :
    encode ([c].intercalate pieces) = [Fin.ofNat 256 c.toNat].intercalate (pieces.map encode) := by
  induction pieces with
  | nil => rfl
  | cons piece pieces ih =>
    cases pieces with
    | nil => simp [intercalate_singleton]
    | cons next pieces =>
      rw [intercalate_cons_cons, encode_append, encode_append, ih]
      simp only [map_cons]
      rw [intercalate_cons_cons, encode_cons, encode_nil, append_nil, encodeChar_ascii hc]

theorem splitOn_encode (hc : c.toNat < 0x80) (s : List Char) :
    (encode s).splitOn (Fin.ofNat 256 c.toNat) = (s.splitOn c).map encode := by
  have hpieces : ∀ l ∈ (s.splitOn c).map encode, Fin.ofNat 256 c.toNat ∉ l := by
    intro l hl
    obtain ⟨piece, hpiece, rfl⟩ := mem_map.mp hl
    rw [mem_encode hc]
    exact not_mem_of_mem_splitOn hpiece
  have hjoin : encode s = [Fin.ofNat 256 c.toNat].intercalate ((s.splitOn c).map encode) := by
    rw [← encode_intercalate hc, intercalate_splitOn]
  rw [hjoin, splitOn_intercalate _ hpieces (by simp)]

end Separators

theorem findSub_encode {p : List Char} (hp : p ≠ []) (s : List Char) :
    findSub (encode p) (encode s) = (findSub p s).map fun i => (encode (s.take i)).length := by
  cases hfind : findSub p s with
  | none =>
    rw [Option.map_none, findSub_eq_none_iff]
    intro x y h
    obtain ⟨before, rest, hs, -⟩ := infix_encode hp h.symm
    exact findSub_eq_none_iff.mp hfind before rest hs
  | some i =>
    obtain ⟨⟨before, rest, hs, hlen⟩, hfirst⟩ := findSub_eq_some hfind
    have htake : s.take i = before := by rw [hs, ← hlen, take_left]
    rw [Option.map_some, htake]
    cases hbytes : findSub (encode p) (encode s) with
    | none =>
      refine absurd ?_ (findSub_eq_none_iff.mp hbytes (encode before) (encode rest))
      rw [hs, encode_append, encode_append]
    | some j =>
      obtain ⟨⟨x, y, hxy, hx⟩, hfirst'⟩ := findSub_eq_some hbytes
      have hle : j ≤ (encode before).length := by
        apply hfirst' (encode before) (encode rest)
        rw [hs, encode_append, encode_append]
      obtain ⟨before', rest', hs', hx', -⟩ := infix_encode hp hxy.symm
      have hge : before.length ≤ before'.length := hlen ▸ hfirst before' rest' hs'
      -- both cut the same text, so the earlier cut is a start of the later one
      have hleft : before <+: s := ⟨p ++ rest, hs.symm⟩
      have hright : before' <+: s := ⟨p ++ rest', hs'.symm⟩
      have hprefix : before <+: before' := prefix_of_prefix_length_le hleft hright hge
      obtain ⟨more, rfl⟩ := hprefix
      rw [← hx, hx', encode_append, length_append] at hle ⊢
      congr 1
      omega

end Thingd.Utf8
