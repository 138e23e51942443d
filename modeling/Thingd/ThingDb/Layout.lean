import Thingd.ThingDb.View

namespace Thingd.ThingDb

open Bytes List

theorem u64Max_lt : u64Max < 10 ^ 20 := by decide

theorem tableStem_length {sequence : ℕ} (h : sequence ≤ u64Max) : (tableStem sequence).length = 26 := by
  rw [tableStem, length_append, paddedDecimal_length (by decide) (h.trans_lt u64Max_lt)]
  rfl

theorem tableStem_lt {s t : ℕ} (h : s < t) (ht : t ≤ u64Max) (x y : Bytes) : tableStem s ++ x < tableStem t ++ y := by
  have hlen : (tableStem s).length = (tableStem t).length := by
    rw [tableStem_length (h.le.trans ht), tableStem_length ht]
  apply append_lt_append_of_lt hlen
  apply append_left_lt
  exact (paddedDecimal_lt_iff (by decide) ((h.le.trans ht).trans_lt u64Max_lt) (ht.trans_lt u64Max_lt)).mpr h

theorem not_mem_tableStem (sequence : ℕ) : (47 : Byte) ∉ tableStem sequence := by
  intro h
  rcases mem_append.mp h with hname | hdigit
  · exact absurd hname (by decide)
  · have hrange := mem_paddedDecimal hdigit
    simp at hrange

theorem validTableName_of_stem (sequence : ℕ) {tail : Bytes} (h : (47 : Byte) ∉ tail) :
    validTableName (tableStem sequence ++ tail) = true := by
  have hslash : (47 : Byte) ∉ tableStem sequence ++ tail := by
    intro hmem
    rcases mem_append.mp hmem with hstem | htail
    · exact not_mem_tableStem sequence hstem
    · exact h htail
  have hshape : ∃ rest, tableStem sequence ++ tail = 116 :: 97 :: rest := ⟨_, rfl⟩
  obtain ⟨rest, hrest⟩ := hshape
  rw [validTableName, splitOn_eq_singleton hslash, hrest]
  simp

theorem validTableName_tableName (sequence layers : ℕ) : validTableName (tableName sequence layers) = true := by
  apply validTableName_of_stem
  simp only [mem_cons, mem_append, not_or]
  refine ⟨by decide, ?_, by decide⟩
  intro hmem
  have hrange := mem_paddedDecimal hmem
  simp at hrange

theorem validTableName_compactName (sequence : ℕ) : validTableName (compactName sequence) = true :=
  validTableName_of_stem sequence (by decide)

def manifestOf (tableFiles : List Bytes) (tableSequence : ℕ) : Manifest :=
  ⟨formatVersion, tableFiles.getLast?, tableFiles, tableSequence⟩

theorem manifestOf_layerFiles (tableFiles : List Bytes) (tableSequence : ℕ) :
    (manifestOf tableFiles tableSequence).layerFiles = tableFiles := by
  cases tableFiles with
  | nil => rfl
  | cons file files => rfl

variable {files : List Bytes} {tableSequence : ℕ}

theorem validateTableFiles_ok {seen : List Bytes} (hvalid : ∀ file ∈ files, validTableName file = true)
    (hfresh : ∀ file ∈ files, file ∉ seen) (hnodup : files.Nodup) : validateTableFiles seen files = .ok () := by
  induction files generalizing seen with
  | nil => rfl
  | cons file files ih =>
    obtain ⟨hfile, hfiles⟩ := nodup_cons.mp hnodup
    rw [validateTableFiles, hvalid file mem_cons_self, if_neg (hfresh file mem_cons_self)]
    apply ih (fun f hf => hvalid f (mem_cons_of_mem _ hf)) _ hfiles
    intro f hf hmem
    rcases mem_cons.mp hmem with rfl | hseen
    · exact hfile hf
    · exact hfresh f (mem_cons_of_mem _ hf) hseen

theorem zip_tail_ordered (h : files.Pairwise (· < ·)) :
    (files.zip files.tail).any (fun files => decide (files.2 ≤ files.1)) = false := by
  induction files with
  | nil => rfl
  | cons file files ih =>
    cases files with
    | nil => rfl
    | cons next files =>
      obtain ⟨hfile, hfiles⟩ := pairwise_cons.mp h
      have hlt := hfile next mem_cons_self
      have hrest := ih hfiles
      simp only [tail_cons, zip_cons_cons, any_cons] at hrest ⊢
      rw [hrest, Bool.or_false, decide_eq_false_iff_not]
      exact not_le.mpr hlt

theorem loadManifest_manifestOf {disk : Disk} {tableFiles : List Bytes}
    (hdisk : disk.manifest = some (manifestOf tableFiles tableSequence))
    (hvalid : ∀ file ∈ tableFiles, validTableName file = true) (hsorted : tableFiles.Pairwise (· < ·))
    (hempty : tableFiles = [] → tableSequence = 0) : loadManifest disk = .ok (manifestOf tableFiles tableSequence) := by
  have hnames : validateTableFiles [] tableFiles = .ok () :=
    validateTableFiles_ok hvalid (by simp) (hsorted.imp fun h => h.ne)
  have hlegacy : validateLegacyFile (manifestOf tableFiles tableSequence) = .ok () := by
    unfold validateLegacyFile
    cases hlast : tableFiles.getLast? with
    | none => simp [manifestOf, hlast]
    | some file =>
      have hfile := hvalid file (mem_of_getLast? hlast)
      simp [manifestOf, hlast, hfile]
  have hvalidate : validateManifest (manifestOf tableFiles tableSequence) = .ok () := by
    unfold validateManifest
    rw [manifestOf_layerFiles, zip_tail_ordered hsorted, hlegacy]
    change (validateTableFiles [] tableFiles >>= _) = _
    rw [hnames]
    rw [if_neg]
    · rfl
    · rintro ⟨hnil, hsequence⟩
      exact hsequence (hempty (by simpa using hnil))
  unfold loadManifest
  rw [hdisk]
  change (if (formatVersion ≠ formatVersion) then _ else _) = _
  rw [hvalidate]
  rfl

theorem openLayers_eq_ok {tables : SortedMap Bytes TableLayer} {previous : ℕ} {layers : List TableLayer} :
    openLayers tables tableSequence previous files = .ok layers ↔
      List.Forall₂ (fun file layer => tables.get file = some layer) files layers ∧
      (previous :: layers.map TableLayer.sequence).Pairwise (· ≤ ·) ∧
      ∀ layer ∈ layers, layer.sequence ≤ tableSequence := by
  induction files generalizing previous layers with
  | nil =>
    constructor
    · intro h
      cases h
      simp
    · rintro ⟨h, -, -⟩
      cases h
      rfl
  | cons file files ih =>
    rw [openLayers]
    cases hget : tables.get file with
    | none =>
      constructor
      · intro h; cases h
      · rintro ⟨h, -, -⟩
        cases h with
        | cons hfile _ => rw [hget] at hfile; cases hfile
    | some layer =>
      dsimp only
      constructor
      · intro h
        split_ifs at h with habove hbelow
        obtain ⟨rest, hrest, h⟩ := result_bind_ok.mp h
        cases h
        obtain ⟨hfiles, hchain, hbound⟩ := ih.mp hrest
        obtain ⟨hfirst, hchain'⟩ := pairwise_cons.mp hchain
        refine ⟨List.Forall₂.cons hget hfiles, ?_, ?_⟩
        · refine pairwise_cons.mpr ⟨?_, hchain⟩
          intro sequence hmem
          rcases mem_cons.mp hmem with rfl | hmem
          · omega
          · exact (not_lt.mp hbelow).trans (hfirst sequence hmem)
        · intro l hl
          rcases mem_cons.mp hl with rfl | hl
          · omega
          · exact hbound l hl
      · rintro ⟨hfiles, hchain, hbound⟩
        cases hfiles with
        | @cons _ l _ rest hfile hfiles =>
          rw [hget] at hfile
          cases hfile
          obtain ⟨hprevious, hchain'⟩ := pairwise_cons.mp hchain
          have hle := hprevious layer.sequence (by simp)
          have hmax := hbound layer mem_cons_self
          rw [if_neg (by omega), if_neg (by omega)]
          exact result_bind_ok.mpr ⟨rest, ih.mpr ⟨hfiles, hchain', fun l hl => hbound l (by simp [hl])⟩, rfl⟩

end Thingd.ThingDb
