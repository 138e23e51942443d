import Thingd.Data.SortedMap
import Thingd.Data.Bytes

namespace Thingd.ThingDb

abbrev Record := Bytes × Option Bytes

def recordLength (record : Record) : ℕ :=
  8 + record.1.length + 1 + (match record.2 with | some value => 8 + value.length | none => 0) + 4

structure TableBlock where
  records : List Record
  nonempty : records ≠ []

namespace TableBlock

def firstKey (block : TableBlock) : Bytes := (block.records.head block.nonempty).1

def lastKey (block : TableBlock) : Bytes := (block.records.getLast block.nonempty).1

end TableBlock

def tableWriteBufferBytes : ℕ := 64 * 1024

def splitBlocks (buffer : TableBlock) (bufferBytes : ℕ) : List Record → List TableBlock
  | [] => [buffer]
  | record :: records =>
    if tableWriteBufferBytes < bufferBytes + recordLength record then
      buffer :: splitBlocks ⟨[record], by simp⟩ (recordLength record) records
    else splitBlocks ⟨buffer.records ++ [record], by simp⟩ (bufferBytes + recordLength record) records

def tableBlocks : List Record → List TableBlock
  | [] => []
  | record :: records => splitBlocks ⟨[record], by simp⟩ (recordLength record) records

/-- An immutable table as its readers see it. A table in an older format has no block index. -/
structure TableLayer where
  sequence : ℕ
  records : SortedMap Bytes (Option Bytes)
  blocks : List TableBlock
  blocks_cover : blocks = [] ∨ blocks.flatMap TableBlock.records = records.entries

theorem splitBlocks_cover (buffer : TableBlock) (bufferBytes : ℕ) (records : List Record) :
    (splitBlocks buffer bufferBytes records).flatMap TableBlock.records = buffer.records ++ records := by
  induction records generalizing buffer bufferBytes with
  | nil => simp [splitBlocks]
  | cons record records ih =>
    rw [splitBlocks]
    split_ifs
    · simp [ih]
    · simp [ih]

theorem tableBlocks_cover (records : List Record) : (tableBlocks records).flatMap TableBlock.records = records := by
  cases records with
  | nil => rfl
  | cons record records => simp [tableBlocks, splitBlocks_cover]

def writeTable (sequence : ℕ) (entries : SortedMap Bytes (Option Bytes)) : TableLayer :=
  ⟨sequence, entries, tableBlocks entries.entries, Or.inr (tableBlocks_cover entries.entries)⟩

def partitionPoint {α : Type} (p : α → Bool) (xs : List α) : ℕ := (xs.takeWhile p).length

namespace TableLayer

def candidateEntries (layer : TableLayer) (key : Bytes) : List Record :=
  if layer.blocks.isEmpty then layer.records.entries
  else
    match layer.blocks[partitionPoint (fun block => decide (block.lastKey < key)) layer.blocks]? with
    | none => []
    | some block => if key < block.firstKey then [] else block.records

def lookup (layer : TableLayer) (key : Bytes) : Option (Option Bytes) :=
  ((layer.candidateEntries key).find? (fun record => record.1 = key)).map Prod.snd

end TableLayer

theorem partitionPoint_split {α : Type} (p : α → Bool) (xs : List α) :
    ∃ before after, xs = before ++ after ∧ (∀ x ∈ before, p x = true) ∧
      xs[partitionPoint p xs]? = after.head? ∧ ∀ x, after.head? = some x → p x = false := by
  induction xs with
  | nil => exact ⟨[], [], rfl, by simp, rfl, by simp⟩
  | cons x xs ih =>
    cases hx : p x with
    | false => exact ⟨[], x :: xs, rfl, by simp, by simp [partitionPoint, hx], by simp [hx]⟩
    | true =>
      obtain ⟨before, after, hsplit, hbefore, hpoint, hafter⟩ := ih
      refine ⟨x :: before, after, by rw [hsplit, List.cons_append], ?_, ?_, hafter⟩
      · simpa [hx] using hbefore
      · simpa [partitionPoint, hx] using hpoint

namespace TableBlock

variable {block : TableBlock} {record : Record}

theorem le_lastKey (h : block.records.Pairwise (fun x y => x.1 < y.1)) (hmem : record ∈ block.records) :
    record.1 ≤ block.lastKey := by
  have hsplit := List.dropLast_append_getLast block.nonempty
  rw [← hsplit] at hmem h
  rcases List.mem_append.mp hmem with hinit | hlast
  · exact ((List.pairwise_append.mp h).2.2 record hinit _ (List.mem_singleton.mpr rfl)).le
  · rw [List.mem_singleton.mp hlast]
    exact le_rfl

theorem firstKey_le (h : block.records.Pairwise (fun x y => x.1 < y.1)) (hmem : record ∈ block.records) :
    block.firstKey ≤ record.1 := by
  have hsplit := List.cons_head_tail block.nonempty
  rw [← hsplit] at hmem h
  rcases List.mem_cons.mp hmem with hhead | htail
  · rw [hhead]
    exact le_rfl
  · exact ((List.pairwise_cons.mp h).1 record htail).le

end TableBlock

theorem find_eq_none_of_ne {records : List Record} {key : Bytes} (h : ∀ record ∈ records, record.1 ≠ key) :
    records.find? (fun record => record.1 = key) = none := by
  rw [List.find?_eq_none]
  intro record hrecord
  simpa using h record hrecord

theorem TableLayer.candidateEntries_find (layer : TableLayer) (key : Bytes) :
    (layer.candidateEntries key).find? (fun record => record.1 = key) =
      layer.records.entries.find? (fun record => record.1 = key) := by
  unfold candidateEntries
  split_ifs with hblocks
  · rfl
  have hcover := layer.blocks_cover.resolve_left (by simpa using hblocks)
  have hsorted := layer.records.sorted
  obtain ⟨before, after, hsplit, hbefore, hpoint, hafter⟩ :=
    partitionPoint_split (fun block : TableBlock => decide (block.lastKey < key)) layer.blocks
  rw [hpoint, ← hcover]
  rw [← hcover] at hsorted
  rw [hsplit, List.flatMap_append] at hsorted ⊢
  obtain ⟨hsortedBefore, hsortedAfter, -⟩ := List.pairwise_append.mp hsorted
  have hbeforeNone : (before.flatMap TableBlock.records).find? (fun record => record.1 = key) = none := by
    apply find_eq_none_of_ne
    intro record hrecord
    obtain ⟨block, hblock, hmem⟩ := List.mem_flatMap.mp hrecord
    have hblockSorted := hsortedBefore.sublist (List.sublist_flatten_of_mem (List.mem_map_of_mem hblock))
    have hlast := TableBlock.le_lastKey hblockSorted hmem
    have hlt : block.lastKey < key := by simpa using hbefore block hblock
    exact (hlast.trans_lt hlt).ne
  rw [List.find?_append, hbeforeNone]
  cases after with
  | nil => simp
  | cons block after =>
    have hle : key ≤ block.lastKey := by simpa using hafter block rfl
    rw [List.flatMap_cons] at hsortedAfter ⊢
    obtain ⟨hsortedBlock, -, hcross⟩ := List.pairwise_append.mp hsortedAfter
    have hafterNone : (after.flatMap TableBlock.records).find? (fun record => record.1 = key) = none := by
      apply find_eq_none_of_ne
      intro record hrecord
      have hlt := hcross _ (List.getLast_mem block.nonempty) record hrecord
      exact (hle.trans_lt hlt).ne'
    rw [List.find?_append, hafterNone, Option.or_none, List.head?_cons]
    dsimp only
    split_ifs with hfirst
    · symm
      apply find_eq_none_of_ne
      intro record hrecord
      exact (hfirst.trans_le (TableBlock.firstKey_le hsortedBlock hrecord)).ne'
    · rfl

theorem TableLayer.lookup_eq (layer : TableLayer) (key : Bytes) : layer.lookup key = layer.records.get key := by
  rw [lookup, candidateEntries_find, SortedMap.get]
  congr!

def lookupLayers (layers : List TableLayer) (key : Bytes) : Option (Option Bytes) :=
  layers.reverse.findSome? (fun layer => layer.lookup key)

@[simp] theorem lookupLayers_nil (key : Bytes) : lookupLayers [] key = none := rfl

theorem lookupLayers_append (layers : List TableLayer) (layer : TableLayer) (key : Bytes) :
    lookupLayers (layers ++ [layer]) key = (layer.records.get key).or (lookupLayers layers key) := by
  simp only [lookupLayers, List.reverse_append, List.reverse_singleton, List.singleton_append,
    List.findSome?_cons, TableLayer.lookup_eq]
  cases layer.records.get key <;> rfl

end Thingd.ThingDb
