import Thingd.Data.Bytes
import Thingd.Data.Trace

namespace Thingd.Engine

namespace EncryptionSetup

open Trace

structure Cipher (κ : Type) where
  encrypt : κ → Bytes → Bytes → Bytes
  decrypt : κ → Bytes → Bytes → Option Bytes

inductive OpenError
  | encryptionRequired (message : String)
  | unsupportedEncryptionVersion (message : String)
  | encryptionAuthentication (message : String)
  | storage
  deriving DecidableEq

-- "THINGD_ENCRYPTED_V1\n"
def manifest : Bytes := [84, 72, 73, 78, 71, 68, 95, 69, 78, 67, 82, 89, 80, 84, 69, 68, 95, 86, 49, 10]

-- "thingd encryption check v1"
def checkPlaintext : Bytes :=
  [116, 104, 105, 110, 103, 100, 32, 101, 110, 99, 114, 121, 112, 116, 105, 111, 110, 32, 99, 104, 101, 99, 107, 32,
    118, 49]

def formatVersion : Byte := 1

/-- What the setup relies on for a nonce in use: the sealed check text carries a tag, its own key opens it, and none of
the other keys in use opens it to the same text. -/
structure Cipher.Seals {κ : Type} (cipher : Cipher κ) (key : κ) (others : Set κ) (nonce : Bytes) : Prop where
  tagged : 16 ≤ (cipher.encrypt key nonce checkPlaintext).length
  opens : cipher.decrypt key nonce (cipher.encrypt key nonce checkPlaintext) = some checkPlaintext
  refuses : ∀ other ∈ others, other ≠ key →
    cipher.decrypt other nonce (cipher.encrypt key nonce checkPlaintext) ≠ some checkPlaintext

structure Directory where
  marker : Option Bytes
  check : Option Bytes
  others : Bool
  deriving DecidableEq

abbrev Disk := Option Directory

inductive FileWrite
  | createDirAll
  | marker (contents : Bytes)
  | check (contents : Bytes)

def FileWrite.apply (disk : Disk) : FileWrite → Disk
  | .createDirAll => some (disk.getD ⟨none, none, false⟩)
  | .marker contents => disk.map fun directory => { directory with marker := some contents }
  | .check contents => disk.map fun directory => { directory with check := some contents }

section Open

variable {κ : Type} (cipher : Cipher κ)

def encrypt (key : κ) (nonce text : Bytes) : Bytes := formatVersion :: (nonce ++ cipher.encrypt key nonce text)

def decrypt (key : κ) (sealed : Bytes) : Except OpenError Bytes :=
  if sealed.length < 1 + 24 + 16 ∨ sealed.head? ≠ some formatVersion then
    .error (.unsupportedEncryptionVersion "invalid encrypted value envelope")
  else match cipher.decrypt key ((sealed.drop 1).take 24) (sealed.drop 25) with
    | some text => .ok text
    | none => .error (.encryptionAuthentication "encrypted value authentication failed")

/-- The file writes of a call, in order, and what it returns after them; `none` is the plaintext codec. -/
def storageCryptoOpen (disk : Disk) (config : Option κ) (nonce : Bytes) :
    List FileWrite × Except OpenError (Option κ) :=
  match disk.bind Directory.marker, config with
  | some _, none => ([], .error (.encryptionRequired "database requires an encryption key"))
  | none, none => ([], .ok none)
  | none, some key =>
    if disk.any fun directory => directory.check.isSome || directory.others then ([], .ok none)
    else ([.createDirAll, .marker manifest, .check (encrypt cipher key nonce checkPlaintext)], .ok (some key))
  | some found, some key =>
    if found ≠ manifest then ([], .error (.unsupportedEncryptionVersion "unknown encryption manifest"))
    else match disk.bind Directory.check with
      | none => ([], .error .storage)
      | some check =>
        match decrypt cipher key check with
        | .error error => ([], .error error)
        | .ok text =>
          if text ≠ checkPlaintext then ([], .error (.encryptionAuthentication "encryption key authentication failed"))
          else ([], .ok (some key))

/-- A call of `StorageCrypto::open`; with `crash := some n` it stops after `n` of its file writes. -/
structure OpenCall (κ : Type) where
  config : Option κ
  nonce : { nonce : Bytes // nonce.length = 24 }
  crash : Option ℕ

def OpenCall.after (call : OpenCall κ) (disk : Disk) : Disk :=
  let writes := (storageCryptoOpen cipher disk call.config call.nonce).1
  (writes.take (call.crash.getD writes.length)).foldl FileWrite.apply disk

structure Opening where
  disk : Disk
  completed : Bool

def Opening.step (s : Opening) (call : OpenCall κ) : Opening :=
  ⟨call.after cipher s.disk, s.completed || call.crash.isNone⟩

/-- Any undisturbed call with `key` gets the encrypting codec now, and once a call has completed no call without a key
or with one of the others succeeds. -/
structure Opening.Serves (key : κ) (others : Set κ) (s : Opening) : Prop where
  accepts : ∀ nonce : { nonce : Bytes // nonce.length = 24 },
    (storageCryptoOpen cipher s.disk (some key) nonce).2 = .ok (some key)
  refuses : s.completed = true → ∀ config nonce codec, config ≠ some key → (∀ other ∈ config, other ∈ others) →
    (storageCryptoOpen cipher s.disk config nonce).2 ≠ .ok codec

/-- Until a call has completed only calls with `key` are made, and the cipher seals the check text under the call's
nonce. -/
structure Opening.Admits (key : κ) (others : Set κ) (s : Opening) (call : OpenCall κ) : Prop where
  only : s.completed = false → call.config = some key
  seals : cipher.Seals key others call.nonce

/-- The call is not stopped between its marker and its check file. -/
def Opening.WritesCheck (s : Opening) (call : OpenCall κ) : Prop :=
  s.disk.bind Directory.marker = none → call.crash ≠ some 2

end Open

section Proof

variable {κ : Type} {cipher : Cipher κ} {key other : κ} {others : Set κ} {nonce : Bytes} {disk : Disk} {s : Opening}
  {call : OpenCall κ}

def Fresh (disk : Disk) : Prop := disk = none ∨ disk = some ⟨none, none, false⟩

def SetUp (cipher : Cipher κ) (key : κ) (others : Set κ) (disk : Disk) : Prop :=
  ∃ nonce : Bytes, nonce.length = 24 ∧ cipher.Seals key others nonce ∧
    disk = some ⟨some manifest, some (encrypt cipher key nonce checkPlaintext), false⟩

theorem decrypt_encrypt {text : Bytes} (htag : 16 ≤ (cipher.encrypt key nonce text).length)
    (hnonce : nonce.length = 24) :
    decrypt cipher other (encrypt cipher key nonce text) =
      match cipher.decrypt other nonce (cipher.encrypt key nonce text) with
      | some text => .ok text
      | none => .error (.encryptionAuthentication "encrypted value authentication failed") := by
  have henvelope : ¬ ((encrypt cipher key nonce text).length < 1 + 24 + 16 ∨
      (encrypt cipher key nonce text).head? ≠ some formatVersion) := by
    simp only [encrypt, List.length_cons, List.length_append, List.head?_cons, ne_eq, not_true_eq_false, or_false]
    omega
  have hdrop : (encrypt cipher key nonce text).drop 25 = cipher.encrypt key nonce text := by
    rw [encrypt, List.drop_succ_cons, ← hnonce, List.drop_left]
  have htake : ((encrypt cipher key nonce text).drop 1).take 24 = nonce := by
    rw [encrypt, List.drop_succ_cons, List.drop_zero, ← hnonce, List.take_left]
  rw [decrypt, if_neg henvelope, hdrop, htake]

theorem open_fresh (h : Fresh disk) (nonce : Bytes) : storageCryptoOpen cipher disk (some key) nonce =
    ([.createDirAll, .marker manifest, .check (encrypt cipher key nonce checkPlaintext)], .ok (some key)) := by
  rcases h with rfl | rfl <;> rfl

theorem open_setUp (h : SetUp cipher key others disk) (config : Option κ) (nonce : Bytes) :
    (storageCryptoOpen cipher disk config nonce).1 = [] ∧
      (config = some key → (storageCryptoOpen cipher disk config nonce).2 = .ok (some key)) ∧
      (config ≠ some key → (∀ other ∈ config, other ∈ others) →
        ∀ codec, (storageCryptoOpen cipher disk config nonce).2 ≠ .ok codec) := by
  obtain ⟨used, hused, hseals, rfl⟩ := h
  cases config with
  | none => exact ⟨rfl, nofun, fun _ _ _ => nofun⟩
  | some other =>
    have hopen : storageCryptoOpen cipher
        (some ⟨some manifest, some (encrypt cipher key used checkPlaintext), false⟩) (some other) nonce =
        match decrypt cipher other (encrypt cipher key used checkPlaintext) with
        | .error error => ([], .error error)
        | .ok text => if text ≠ checkPlaintext then
            ([], .error (.encryptionAuthentication "encryption key authentication failed"))
          else ([], .ok (some other)) := rfl
    rw [hopen, decrypt_encrypt hseals.tagged hused]
    by_cases hsame : other = key
    · subst hsame
      simp [hseals.opens]
    · -- the tag may be right by chance, then the text is not
      cases hdecrypt : cipher.decrypt other used (cipher.encrypt key used checkPlaintext) with
      | none => simp [hsame]
      | some text =>
        by_cases htext : text = checkPlaintext
        · subst htext
          have hnot : other ∉ others := fun hother => hseals.refuses other hother hsame hdecrypt
          simp [hsame, hnot]
        · simp [hsame, htext]

def Halfway (disk : Disk) : Prop := disk = some ⟨some manifest, none, false⟩

theorem after_fresh (h : Fresh disk) (hconfig : call.config = some key) (hseals : cipher.Seals key others call.nonce) :
    (call.crash ≠ some 2 ∧
        (SetUp cipher key others (call.after cipher disk) ∨ Fresh (call.after cipher disk) ∧ call.crash ≠ none)) ∨
      (call.crash = some 2 ∧ Halfway (call.after cipher disk)) := by
  have hdone : SetUp cipher key others ([.createDirAll, .marker manifest,
      .check (encrypt cipher key call.nonce checkPlaintext)].foldl FileWrite.apply disk) := by
    rcases h with rfl | rfl <;> exact ⟨call.nonce, call.nonce.property, hseals, rfl⟩
  unfold OpenCall.after
  rw [hconfig, open_fresh h]
  cases hcrash : call.crash with
  | none => exact Or.inl ⟨by simp, Or.inl hdone⟩
  | some n =>
    obtain rfl | rfl | rfl | hn : n = 0 ∨ n = 1 ∨ n = 2 ∨ 3 ≤ n := by omega
    · exact Or.inl ⟨by simp, Or.inr ⟨h, by simp⟩⟩
    · refine Or.inl ⟨by simp, Or.inr ⟨Or.inr ?_, by simp⟩⟩
      rcases h with rfl | rfl <;> rfl
    · refine Or.inr ⟨rfl, ?_⟩
      rcases h with rfl | rfl <;> rfl
    · refine Or.inl ⟨by simp; omega, Or.inl ?_⟩
      dsimp only
      rw [List.take_of_length_le (by simpa using hn)]
      exact hdone

theorem after_of_no_writes (h : (storageCryptoOpen cipher disk call.config call.nonce).1 = []) :
    call.after cipher disk = disk := by
  simp [OpenCall.after, h]

theorem open_halfway (h : Halfway disk) (config : Option κ) (nonce : Bytes) :
    (storageCryptoOpen cipher disk config nonce).1 = [] ∧
      ∀ codec, (storageCryptoOpen cipher disk config nonce).2 ≠ .ok codec := by
  rw [h]
  cases config <;> exact ⟨rfl, fun _ => nofun⟩

def Reached (cipher : Cipher κ) (key : κ) (others : Set κ) (s : Opening) : Prop :=
  Fresh s.disk ∧ s.completed = false ∨ SetUp cipher key others s.disk ∨ Halfway s.disk

theorem not_halfway_of_fresh (h : Fresh disk) : ¬ Halfway disk := by
  rcases h with rfl | rfl <;> simp [Halfway]

theorem not_halfway_of_setUp (h : SetUp cipher key others disk) : ¬ Halfway disk := by
  obtain ⟨nonce, -, -, rfl⟩ := h
  simp [Halfway]

theorem serves_iff (h : Reached cipher key others s) : s.Serves cipher key others ↔ ¬ Halfway s.disk := by
  constructor
  · intro hserves hhalf
    exact (open_halfway hhalf _ _).2 _ (hserves.accepts ⟨List.replicate 24 0, rfl⟩)
  · intro hnot
    rcases h with ⟨hfresh, hcompleted⟩ | hsetUp | hhalf
    · refine ⟨fun nonce => by rw [open_fresh hfresh], fun h => ?_⟩
      rw [hcompleted] at h
      cases h
    · have hopen := open_setUp hsetUp
      exact ⟨fun nonce => (hopen _ _).2.1 rfl,
        fun _ config nonce codec hconfig hothers => (hopen config nonce).2.2 hconfig hothers codec⟩
    · exact absurd hhalf hnot

theorem reached_step (h : Reached cipher key others s) (hcall : s.Admits cipher key others call) :
    Reached cipher key others (s.step cipher call) ∧
      (¬ Halfway s.disk → (Halfway (s.step cipher call).disk ↔ ¬ s.WritesCheck call)) := by
  rcases h with ⟨hfresh, hcompleted⟩ | hsetUp | hhalf
  · have hmarker : s.disk.bind Directory.marker = none := by
      rcases hfresh with heq | heq <;> simp [heq]
    rcases after_fresh hfresh (hcall.only hcompleted) hcall.seals with ⟨htwo, hsetUp | ⟨hstill, hcrash⟩⟩ | ⟨htwo, hhalf⟩
    · exact ⟨Or.inr (Or.inl hsetUp), fun _ => iff_of_false (not_halfway_of_setUp hsetUp) (not_not.mpr fun _ => htwo)⟩
    · refine ⟨Or.inl ⟨hstill, ?_⟩, fun _ => iff_of_false (not_halfway_of_fresh hstill) (not_not.mpr fun _ => htwo)⟩
      simp [Opening.step, hcompleted, Option.isSome_iff_ne_none.mpr hcrash]
    · exact ⟨Or.inr (Or.inr hhalf), fun _ => iff_of_true hhalf fun h => h hmarker htwo⟩
  · have hsame : (s.step cipher call).disk = s.disk := after_of_no_writes (open_setUp hsetUp _ _).1
    have hmarker : s.disk.bind Directory.marker ≠ none := by
      obtain ⟨nonce, -, -, heq⟩ := hsetUp
      simp [heq]
    exact ⟨Or.inr (Or.inl (hsame ▸ hsetUp)), fun hnot =>
      iff_of_false (hsame ▸ hnot) (not_not.mpr fun h => absurd h hmarker)⟩
  · have hsame : (s.step cipher call).disk = s.disk := after_of_no_writes (open_halfway hhalf _ _).1
    exact ⟨Or.inr (Or.inr (hsame ▸ hhalf)), fun hnot => absurd hhalf hnot⟩

/-- From an empty directory, whatever calls are interrupted: the key is served and the other keys are refused in every
state exactly if no call is stopped between its marker and its check file. -/
theorem encryption_setup_survives_iff (cipher : Cipher κ) (key : κ) (others : Set κ) (disk : Disk)
    (hdisk : disk = none ∨ disk = some ⟨none, none, false⟩) (calls : List (OpenCall κ))
    (hcalls : EveryStep (Opening.step cipher) (Opening.Admits cipher key others) ⟨disk, false⟩ calls) :
    EveryState (Opening.step cipher) (Opening.Serves cipher key others) ⟨disk, false⟩ calls ↔
      EveryStep (Opening.step cipher) Opening.WritesCheck ⟨disk, false⟩ calls := by
  have hreached : Reached cipher key others ⟨disk, false⟩ := Or.inl ⟨hdisk, rfl⟩
  have hserves := (serves_iff hreached).mpr (not_halfway_of_fresh hdisk)
  refine everyState_iff_of_admitted ?_ ?_ hreached hserves hcalls
  · exact fun s call hcall h => (reached_step h hcall).1
  · intro s call hcall h hserves
    obtain ⟨hnext, hhalf⟩ := reached_step h hcall
    rw [serves_iff hnext, hhalf ((serves_iff h).mp hserves), not_not]

/-- A text and a tag of zeros, masked with the key and the nonce. -/
def maskingCipher : Cipher Bytes where
  encrypt key nonce text := (text ++ List.replicate 16 0).zipWith (· ^^^ ·) (key ++ nonce)
  decrypt key nonce sealed :=
    let opened := sealed.zipWith (· ^^^ ·) (key ++ nonce)
    if opened.drop (opened.length - 16) = List.replicate 16 0 then some (opened.take (opened.length - 16)) else none

def sampleKey : Bytes := List.replicate 32 7

-- the first one opens the tag as well, but to another text
def otherKeys : Set Bytes := {9 :: List.replicate 31 7, List.replicate 32 9}

def sampleOpen (config : Option Bytes) (crash : Option ℕ) : OpenCall Bytes :=
  ⟨config, ⟨List.replicate 24 5, rfl⟩, crash⟩

theorem encryption_setup_survives_a_restart :
    EveryState (Opening.step maskingCipher) (Opening.Serves maskingCipher sampleKey otherKeys) ⟨none, false⟩
      [sampleOpen (some sampleKey) (some 1), sampleOpen (some sampleKey) none,
        sampleOpen (some (List.replicate 32 9)) none, sampleOpen none none] := by
  have hseals : maskingCipher.Seals sampleKey otherKeys (List.replicate 24 5) := by
    refine ⟨by decide +kernel, by decide +kernel, ?_⟩
    rintro other (rfl | rfl) -
    · decide +kernel
    · decide +kernel
  apply (encryption_setup_survives_iff maskingCipher sampleKey otherKeys none (Or.inl rfl) _ _).mpr
  · exact ⟨fun _ => by decide, fun _ => by decide, fun _ => by decide, fun _ => by decide, trivial⟩
  · exact ⟨⟨fun _ => rfl, hseals⟩, ⟨fun _ => rfl, hseals⟩, ⟨fun h => absurd h (by decide), hseals⟩,
      ⟨fun h => absurd h (by decide), hseals⟩, trivial⟩

theorem interrupted_setup_locks_the_key_out :
    ¬ EveryState (Opening.step maskingCipher) (Opening.Serves maskingCipher sampleKey otherKeys) ⟨none, false⟩
      [sampleOpen (some sampleKey) (some 2)] := by
  rintro ⟨-, h⟩
  exact absurd (h.accepts ⟨List.replicate 24 0, rfl⟩) (by decide +kernel)

end Proof

end EncryptionSetup

end Thingd.Engine
