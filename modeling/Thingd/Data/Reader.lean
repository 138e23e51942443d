import Thingd.Data.Bytes

namespace Thingd

structure Cursor where
  offset : ℕ
  rest : Bytes
  deriving DecidableEq

namespace Cursor

def advance (c : Cursor) (n : ℕ) : Cursor := ⟨c.offset + n, c.rest.drop n⟩

end Cursor

abbrev Reader (α : Type) := StateT Cursor (Except String) α

namespace Reader

variable {α β : Type}

def Consumes (r : Reader α) (used : Bytes) (a : α) : Prop :=
  ∀ offset tail, r ⟨offset, used ++ tail⟩ = .ok (a, ⟨offset + used.length, tail⟩)

def Local (r : Reader α) : Prop :=
  ∀ c a c', r c = .ok (a, c') →
    ∃ used, c.rest = used ++ c'.rest ∧ c'.offset = c.offset + used.length ∧ r.Consumes used a

def Exact (r : Reader α) (valid : α → Prop) (encode : α → Bytes) : Prop :=
  ∀ c a c', r c = .ok (a, c') ↔ valid a ∧ c.rest = encode a ++ c'.rest ∧ c'.offset = c.offset + (encode a).length

theorem bind_apply (r : Reader α) (f : α → Reader β) (c : Cursor) :
    (r >>= f) c = match r c with | .ok (a, c') => f a c' | .error e => .error e := by
  change (r c).bind _ = _
  cases r c with
  | error e => rfl
  | ok p => rfl

@[simp] theorem pure_apply (a : α) (c : Cursor) : (pure a : Reader α) c = .ok (a, c) := rfl

@[simp] theorem throw_apply (e : String) (c : Cursor) : (throw e : Reader α) c = .error e := rfl

variable {r : Reader α} {f : α → Reader β} {c c' : Cursor} {b : β}

theorem bind_ok : (r >>= f) c = .ok (b, c') ↔ ∃ a d, r c = .ok (a, d) ∧ f a d = .ok (b, c') := by
  rw [bind_apply]
  cases h : r c with
  | error e => simp
  | ok p =>
    obtain ⟨a, d⟩ := p
    constructor
    · intro hf; exact ⟨a, d, rfl, hf⟩
    · rintro ⟨a', d', hp, hf⟩
      cases hp
      exact hf

theorem consumes_pure (a : α) : (pure a : Reader α).Consumes [] a := fun _ _ => rfl

theorem Consumes.bind {used used' : Bytes} {a : α} (h : r.Consumes used a) (h' : (f a).Consumes used' b) :
    (r >>= f).Consumes (used ++ used') b := by
  intro offset tail
  rw [bind_ok]
  refine ⟨a, ⟨offset + used.length, used' ++ tail⟩, ?_, ?_⟩
  · rw [List.append_assoc]; exact h offset _
  · rw [h', List.length_append, Nat.add_assoc]

theorem local_pure (a : α) : (pure a : Reader α).Local := by
  intro c b c' h
  cases h
  exact ⟨[], rfl, rfl, consumes_pure a⟩

theorem local_throw (e : String) : (throw e : Reader α).Local := by
  intro c b c' h
  cases h

theorem Local.bind (h : r.Local) (h' : ∀ a, (f a).Local) : (r >>= f).Local := by
  intro c b c' hb
  obtain ⟨a, d, hr, hf⟩ := bind_ok.mp hb
  obtain ⟨used, hrest, hoffset, hused⟩ := h c a d hr
  obtain ⟨used', hrest', hoffset', hused'⟩ := h' a d b c' hf
  refine ⟨used ++ used', ?_, ?_, hused.bind hused'⟩
  · rw [hrest, hrest', List.append_assoc]
  · rw [hoffset', hoffset, List.length_append, Nat.add_assoc]

theorem local_ite (p : Prop) [Decidable p] {s : Reader α} (hr : r.Local) (hs : s.Local) :
    (if p then r else s).Local := by
  split_ifs
  · exact hr
  · exact hs

def take (n : ℕ) (message : Cursor → String) : Reader Bytes := fun c =>
  if n ≤ c.rest.length then .ok (c.rest.take n, c.advance n) else .error (message c)

theorem take_ok_iff {n : ℕ} {message : Cursor → String} {bytes : Bytes} :
    take n message c = .ok (bytes, c') ↔ bytes.length = n ∧ c.rest = bytes ++ c'.rest ∧ c'.offset = c.offset + n := by
  rw [take]
  constructor
  · intro h
    split_ifs at h with hn
    cases h
    exact ⟨by simp [hn], by simp [Cursor.advance], rfl⟩
  · rintro ⟨rfl, hrest, hoffset⟩
    rw [hrest]
    simp [Cursor.advance, ← hoffset, hrest]

theorem consumes_take (bytes : Bytes) (message : Cursor → String) :
    (take bytes.length message).Consumes bytes bytes := by
  intro offset tail
  simp [take, Cursor.advance]

theorem local_take (n : ℕ) (message : Cursor → String) : (take n message).Local := by
  intro c a c' h
  unfold take at h
  split_ifs at h with hn
  cases h
  refine ⟨c.rest.take n, by simp [Cursor.advance], by simp [Cursor.advance, hn], ?_⟩
  have hlen : (c.rest.take n).length = n := by simp [hn]
  have := consumes_take (c.rest.take n) message
  rwa [hlen] at this

end Reader

end Thingd
