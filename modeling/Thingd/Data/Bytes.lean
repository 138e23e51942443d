import Mathlib

namespace Thingd

abbrev Byte := Fin 256

instance neZeroByte : NeZero 256 := ⟨by decide⟩

abbrev Bytes := List Byte

namespace Bytes

variable {a b : Bytes}

theorem append_lt_append_of_lt (hlen : a.length = b.length) (h : a < b) (x y : Bytes) : a ++ x < b ++ y := by
  induction a generalizing b with
  | nil =>
    have hb : b = [] := by simpa using hlen.symm
    simp [hb] at h
  | cons i a ih =>
    cases b with
    | nil => simp at hlen
    | cons j b =>
      rcases List.cons_lt_cons_iff.mp h with hij | ⟨rfl, hab⟩
      · exact List.cons_lt_cons_iff.mpr (Or.inl hij)
      · exact List.cons_lt_cons_iff.mpr (Or.inr ⟨rfl, ih (by simpa using hlen) hab⟩)

variable {x y : Bytes}

theorem append_lt_append_iff (hlen : a.length = b.length) : a ++ x < b ++ y ↔ a < b ∨ (a = b ∧ x < y) := by
  constructor
  · intro h
    rcases lt_trichotomy a b with hab | rfl | hab
    · exact Or.inl hab
    · refine Or.inr ⟨rfl, ?_⟩
      by_contra hxy
      rcases (not_lt.mp hxy).eq_or_lt with rfl | hyx
      · exact lt_irrefl _ h
      · exact lt_asymm h (List.append_left_lt hyx)
    · exact absurd h (lt_asymm (append_lt_append_of_lt hlen.symm hab y x))
  · rintro (hab | ⟨rfl, hxy⟩)
    · exact append_lt_append_of_lt hlen hab x y
    · exact List.append_left_lt hxy

@[simp] theorem append_left_lt_iff : a ++ x < a ++ y ↔ x < y := by
  rw [append_lt_append_iff rfl]
  simp

@[simp] theorem append_left_le_iff : a ++ x ≤ a ++ y ↔ x ≤ y := by
  rw [← not_lt, append_left_lt_iff, not_lt]

variable {i : Byte} {digit : ℕ → Byte} {base : ℕ}

theorem cons_lt_cons_self : i :: a < i :: b ↔ a < b :=
  append_left_lt_iff (a := [i])

theorem nil_le (a : Bytes) : [] ≤ a := not_lt.mp (List.not_lt_nil a)

theorem cons_le_cons_iff {j : Byte} : i :: a ≤ j :: b ↔ i < j ∨ (i = j ∧ a ≤ b) := by
  rw [← not_lt, List.cons_lt_cons_iff]
  rcases lt_trichotomy i j with hlt | rfl | hgt
  · simp [hlt, hlt.ne', lt_asymm hlt]
  · simp
  · simp [hgt, hgt.ne', lt_asymm hgt]

theorem append_nul_lt (hb : (0 : Byte) ∉ b) (h : a < b) (x y : Bytes) : a ++ 0 :: x < b ++ 0 :: y := by
  induction a generalizing b with
  | nil =>
    cases b with
    | nil => exact absurd h (lt_irrefl _)
    | cons j b =>
      have hj : j ≠ 0 := fun heq => hb (heq ▸ List.mem_cons_self)
      exact List.Lex.rel (Fin.pos_iff_ne_zero.mpr hj)
  | cons i a ih =>
    cases b with
    | nil => exact absurd h (List.not_lt_nil _)
    | cons j b =>
      rcases List.cons_lt_cons_iff.mp h with hlt | ⟨rfl, hlt⟩
      · exact List.Lex.rel hlt
      · exact List.Lex.cons (ih (fun hmem => hb (List.mem_cons_of_mem _ hmem)) hlt)

theorem append_nul_inj (ha : (0 : Byte) ∉ a) (hb : (0 : Byte) ∉ b) (h : a ++ 0 :: x = b ++ 0 :: y) : a = b ∧ x = y := by
  induction a generalizing b with
  | nil =>
    cases b with
    | nil => exact ⟨rfl, (List.cons.inj h).2⟩
    | cons byte b => exact absurd (List.cons.inj h).1.symm (fun hbyte => hb (by simp [hbyte]))
  | cons byte a ih =>
    cases b with
    | nil => exact absurd (List.cons.inj h).1 (fun hbyte => ha (by simp [hbyte]))
    | cons other b =>
      obtain ⟨rfl, htail⟩ := List.cons.inj h
      obtain ⟨rfl, rfl⟩ := ih (fun hmem => ha (List.mem_cons_of_mem _ hmem))
        (fun hmem => hb (List.mem_cons_of_mem _ hmem)) htail
      exact ⟨rfl, rfl⟩

theorem eq_of_nul_isPrefix (ha : (0 : Byte) ∉ a) (hb : (0 : Byte) ∉ b) (h : a ++ [0] <+: b ++ 0 :: y) : a = b := by
  obtain ⟨rest, hrest⟩ := h
  rw [List.append_assoc] at hrest
  exact (append_nul_inj ha hb hrest).1

def positional (digit : ℕ → Byte) (base : ℕ) : ℕ → ℕ → Bytes
  | 0, _ => []
  | width + 1, n => positional digit base width (n / base) ++ [digit (n % base)]

@[simp] theorem positional_length (digit : ℕ → Byte) (base width n : ℕ) :
    (positional digit base width n).length = width := by
  induction width generalizing n with
  | zero => rfl
  | succ width ih => simp [positional, ih]

variable {width m n : ℕ}

theorem positional_lt_iff (hbase : 0 < base) (hdigit : ∀ i j, i < base → j < base → (digit i < digit j ↔ i < j))
    (hm : m < base ^ width) (hn : n < base ^ width) :
    positional digit base width m < positional digit base width n ↔ m < n := by
  induction width generalizing m n with
  | zero =>
    simp only [pow_zero, Nat.lt_one_iff] at hm hn
    simp [hm, hn]
  | succ width ih =>
    have hm' : m / base < base ^ width := Nat.div_lt_of_lt_mul (by rwa [pow_succ, mul_comm] at hm)
    have hn' : n / base < base ^ width := Nat.div_lt_of_lt_mul (by rwa [pow_succ, mul_comm] at hn)
    have hml : m % base < base := Nat.mod_lt _ hbase
    have hnl : n % base < base := Nat.mod_lt _ hbase
    have hhigh := ih hm' hn'
    have hlast : [digit (m % base)] < [digit (n % base)] ↔ m % base < n % base := by
      simp [List.cons_lt_cons_iff, hdigit _ _ hml hnl]
    have heq : positional digit base width (m / base) = positional digit base width (n / base) ↔
        m / base = n / base := by
      constructor
      · intro h
        have hnot := hhigh.not.mp (by simp [h])
        have hnot' := (ih hn' hm').not.mp (by simp [h])
        omega
      · intro h; rw [h]
    refine (append_lt_append_iff (by simp)).trans ((or_congr hhigh (and_congr heq hlast)).trans ?_)
    have hmd := Nat.div_add_mod m base
    have hnd := Nat.div_add_mod n base
    constructor
    · rintro (h | ⟨h, h'⟩)
      · exact Nat.lt_of_div_lt_div h
      · rw [h] at hmd; omega
    · intro h
      rcases (Nat.div_le_div_right h.le : m / base ≤ n / base).lt_or_eq with h' | h'
      · exact Or.inl h'
      · refine Or.inr ⟨h', ?_⟩
        rw [h'] at hmd; omega

def bigEndian (width n : ℕ) : Bytes := positional (Fin.ofNat 256) 256 width n

def ofBigEndian (bytes : Bytes) : ℕ := bytes.foldl (fun n b => n * 256 + b.val) 0

@[simp] theorem bigEndian_length (width n : ℕ) : (bigEndian width n).length = width :=
  positional_length _ _ _ _

theorem ofBigEndian_lt (bytes : Bytes) : ofBigEndian bytes < 256 ^ bytes.length := by
  induction bytes using List.reverseRecOn with
  | nil => simp [ofBigEndian]
  | append_singleton bytes byte ih =>
    simp only [ofBigEndian] at ih
    simp only [ofBigEndian, List.foldl_append, List.foldl_cons, List.foldl_nil, List.length_append,
      List.length_singleton]
    omega

theorem ofBigEndian_bigEndian (h : n < 256 ^ width) : ofBigEndian (bigEndian width n) = n := by
  induction width generalizing n with
  | zero => simp only [pow_zero, Nat.lt_one_iff] at h; simp [h, bigEndian, positional, ofBigEndian]
  | succ width ih =>
    have hdiv : n / 256 < 256 ^ width := Nat.div_lt_of_lt_mul (by rwa [pow_succ, mul_comm] at h)
    have hrec : ofBigEndian (positional (Fin.ofNat 256) 256 width (n / 256)) = n / 256 := ih hdiv
    simp only [ofBigEndian] at hrec
    simp only [ofBigEndian, bigEndian, positional, List.foldl_append, List.foldl_cons, List.foldl_nil]
    simp only [Fin.ofNat]
    omega

theorem ofBigEndian_concat (bytes : Bytes) (byte : Byte) :
    ofBigEndian (bytes ++ [byte]) = ofBigEndian bytes * 256 + byte.val := by
  rw [ofBigEndian, List.foldl_append]
  rfl

theorem ofBigEndian_inj (hlen : a.length = b.length) (h : ofBigEndian a = ofBigEndian b) : a = b := by
  induction a using List.reverseRecOn generalizing b with
  | nil => exact (List.eq_nil_of_length_eq_zero hlen.symm).symm
  | append_singleton a byte ih =>
    rcases List.eq_nil_or_concat b with rfl | ⟨b, last, rfl⟩
    · simp at hlen
    · rw [List.concat_eq_append] at hlen h ⊢
      rw [ofBigEndian_concat, ofBigEndian_concat] at h
      have hprev : ofBigEndian a = ofBigEndian b := by omega
      have hval : byte.val = last.val := by omega
      rw [ih (by simpa using hlen) hprev, Fin.ext hval]

theorem bigEndian_ofBigEndian (bytes : Bytes) : bigEndian bytes.length (ofBigEndian bytes) = bytes :=
  ofBigEndian_inj (bigEndian_length _ _) (ofBigEndian_bigEndian (ofBigEndian_lt bytes))

theorem bigEndian_lt_iff (hm : m < 256 ^ width) (hn : n < 256 ^ width) :
    bigEndian width m < bigEndian width n ↔ m < n := by
  refine positional_lt_iff (by decide) ?_ hm hn
  intro i j hi hj
  simp [Fin.ofNat, Nat.mod_eq_of_lt hi, Nat.mod_eq_of_lt hj]

theorem bigEndian_inj (hm : m < 256 ^ width) (hn : n < 256 ^ width) (h : bigEndian width m = bigEndian width n) :
    m = n := by
  rw [← ofBigEndian_bigEndian hm, h, ofBigEndian_bigEndian hn]

def asciiDigit (d : ℕ) : Byte := Fin.ofNat 256 (48 + d)

def decimalWidth : ℕ → ℕ → ℕ
  | 0, _ => 1
  | fuel + 1, n => if n < 10 then 1 else decimalWidth fuel (n / 10) + 1

/-- Zero-padded decimal, never cut: a number wider than `width` keeps all its digits. -/
def paddedDecimal (width n : ℕ) : Bytes := positional asciiDigit 10 (max width (decimalWidth n n)) n

section

variable (hw : 0 < width) (h : n < 10 ^ width)
include hw h

theorem decimalWidth_le (fuel : ℕ) : decimalWidth fuel n ≤ width := by
  induction fuel generalizing n width with
  | zero => exact hw
  | succ fuel ih =>
    obtain ⟨width, rfl⟩ : ∃ w, width = w + 1 := ⟨width - 1, by omega⟩
    rw [decimalWidth]
    split_ifs with hn
    · omega
    · have hdiv : n / 10 < 10 ^ width := Nat.div_lt_of_lt_mul (by rwa [pow_succ, mul_comm] at h)
      have hpos : 0 < width := by
        rcases Nat.eq_zero_or_pos width with rfl | hpos
        · simp only [pow_zero] at hdiv; omega
        · exact hpos
      have := ih hpos hdiv
      omega

theorem paddedDecimal_eq : paddedDecimal width n = positional asciiDigit 10 width n := by
  rw [paddedDecimal, max_eq_left (decimalWidth_le hw h n)]

theorem paddedDecimal_length : (paddedDecimal width n).length = width := by
  rw [paddedDecimal_eq hw h, positional_length]

end

theorem paddedDecimal_lt_iff (hw : 0 < width) (hm : m < 10 ^ width) (hn : n < 10 ^ width) :
    paddedDecimal width m < paddedDecimal width n ↔ m < n := by
  rw [paddedDecimal_eq hw hm, paddedDecimal_eq hw hn]
  refine positional_lt_iff (by decide) ?_ hm hn
  simp only [asciiDigit, Fin.lt_def, Fin.ofNat]
  omega

theorem mem_positional (hbase : 0 < base) {b : Byte} (h : b ∈ positional digit base width n) :
    ∃ d < base, b = digit d := by
  induction width generalizing n with
  | zero => simp [positional] at h
  | succ width ih =>
    simp only [positional, List.mem_append, List.mem_singleton] at h
    rcases h with h | rfl
    · exact ih h
    · exact ⟨n % base, Nat.mod_lt _ hbase, rfl⟩

theorem mem_paddedDecimal {b : Byte} (h : b ∈ paddedDecimal width n) : 48 ≤ b.val ∧ b.val ≤ 57 := by
  obtain ⟨d, hd, rfl⟩ := mem_positional (by decide) h
  simp only [asciiDigit, Fin.ofNat]
  omega

end Bytes

end Thingd
