import Thingd.Data.TopK
import Thingd.Data.Bytes

namespace Thingd.Engine

structure DocAddress where
  segmentOrd : ℕ
  docId : ℕ
  deriving DecidableEq

/-- `Score` stands for the `f32` values in the order of `total_cmp`. -/
structure RankedSearchDoc (Score : Type) where
  score : Score
  address : DocAddress
  deriving DecidableEq

namespace RankedSearchDoc

variable {Score : Type}

def place (doc : RankedSearchDoc Score) : Scoreᵒᵈ ×ₗ ℕ ×ₗ ℕ :=
  toLex (OrderDual.toDual doc.score, toLex (doc.address.segmentOrd, doc.address.docId))

theorem place_injective : Function.Injective (@place Score) := by
  rintro ⟨score, segmentOrd, docId⟩ ⟨score', segmentOrd', docId'⟩ h
  simpa [place] using h

variable [LinearOrder Score] {doc other : RankedSearchDoc Score}

def cmp (doc other : RankedSearchDoc Score) : Ordering :=
  (compare other.score doc.score).then
    ((compare doc.address.segmentOrd other.address.segmentOrd).then (compare doc.address.docId other.address.docId))

/-- The most relevant document is the least one. -/
instance : LinearOrder (RankedSearchDoc Score) := LinearOrder.lift' place place_injective

theorem cmp_eq_lt : doc.cmp other = .lt ↔ doc < other := by
  change _ ↔ doc.place < other.place
  simp only [cmp, place, Prod.Lex.toLex_lt_toLex, Ordering.then_eq_lt, compare_lt_iff_lt, compare_eq_iff_eq,
    OrderDual.toDual_lt_toDual, OrderDual.toDual_inj]
  rw [@eq_comm _ other.score]

theorem cmp_ne_gt : (doc.cmp other != .gt) = decide (doc ≤ other) := by
  have hgt : doc.cmp other = .gt ↔ other.cmp doc = .lt := by
    simp only [cmp, Ordering.then_eq_lt, Ordering.then_eq_gt, compare_lt_iff_lt, compare_gt_iff_gt, compare_eq_iff_eq]
    rw [@eq_comm _ other.score, @eq_comm _ doc.address.segmentOrd]
  rw [Bool.eq_iff_iff, bne_iff_ne, ne_eq, hgt, cmp_eq_lt, not_lt, decide_eq_true_eq]

end RankedSearchDoc

/-- The stored fields of a document that the collector reads. -/
structure StoredDocument where
  collection : Option Bytes
  body : Option Bytes

/-- `matchesFilterMemory` and `readDocument` stand for the filter on a body and the store of a segment. -/
structure FilteredSearchCollector (Filter : Type) where
  limit : ℕ
  collections : Option (List Bytes)
  filter : Option Filter
  matchesFilterMemory : Bytes → Filter → Bool
  readDocument : DocAddress → Except String StoredDocument

/-- The heap that the segments share, and the error each segment has met. -/
structure SearchHits (Score : Type) where
  hits : List (RankedSearchDoc Score)
  errors : ℕ → Option String

namespace FilteredSearchCollector

variable {Filter Score : Type} [LinearOrder Score] (collector : FilteredSearchCollector Filter)

def accepts (doc : StoredDocument) : Bool :=
  (collector.collections.all fun collections => doc.collection.any (collections.contains ·)) &&
    collector.filter.all fun filter => collector.matchesFilterMemory (doc.body.getD []) filter

def retainTopSearchHit (state : SearchHits Score) (doc : RankedSearchDoc Score) : SearchHits Score :=
  { state with hits := TopK.retain collector.limit state.hits doc }

/-- One call of a segment collector; the heap is locked while it changes, so the calls come one after another. -/
def collect (state : SearchHits Score) (doc : RankedSearchDoc Score) : SearchHits Score :=
  if (state.errors doc.address.segmentOrd).isSome then state
  else if collector.collections.isSome || collector.filter.isSome then
    match collector.readDocument doc.address with
    | .error error => { state with errors := Function.update state.errors doc.address.segmentOrd (some error) }
    | .ok stored => if collector.accepts stored then collector.retainTopSearchHit state doc else state
  else collector.retainTopSearchHit state doc

def mergeFruits (segments : List ℕ) (state : SearchHits Score) : Except String (List (RankedSearchDoc Score)) :=
  match segments.findSome? state.errors with
  | some error => .error ("failed to read stored search document while applying filters: " ++ error)
  | none => .ok (state.hits.mergeSort fun doc other => doc.cmp other != .gt)

def search (segments : List ℕ) (visits : List (RankedSearchDoc Score)) : Except String (List (RankedSearchDoc Score)) :=
  mergeFruits segments (visits.foldl collector.collect ⟨[], fun _ => none⟩)

/-- The document passes the collection and filter tests. -/
def Passes (doc : RankedSearchDoc Score) : Bool :=
  match collector.readDocument doc.address with
  | .error _ => collector.collections.isNone && collector.filter.isNone
  | .ok stored => collector.accepts stored

variable {collector} {doc : RankedSearchDoc Score} {docs visits : List (RankedSearchDoc Score)}
  {state : SearchHits Score}

/-- The stored fields of the document can be read, if a test asks for them. -/
def Readable (collector : FilteredSearchCollector Filter) (doc : RankedSearchDoc Score) : Prop :=
  collector.collections.isSome || collector.filter.isSome → (collector.readDocument doc.address).isOk

theorem collect_readable (herrors : ∀ segment, state.errors segment = none) (h : collector.Readable doc) :
    collector.collect state doc = if collector.Passes doc then collector.retainTopSearchHit state doc else state := by
  rw [collect, herrors]
  cases hread : collector.readDocument doc.address with
  | ok stored =>
    by_cases htest : (collector.collections.isSome || collector.filter.isSome) = true
    · simp [htest, Passes, hread]
    · have hnone : collector.accepts stored = true := by simp_all [accepts]
      simp [Passes, hread, hnone]
  | error error =>
    have htest : ¬ (collector.collections.isSome || collector.filter.isSome) = true := fun htest => by
      simpa [hread, Except.toBool] using h htest
    have hnone : (collector.collections.isNone && collector.filter.isNone) = true := by simpa using htest
    rw [if_neg htest, Passes, hread]
    simp [hnone]

theorem foldl_collect (herrors : ∀ segment, state.errors segment = none) (h : ∀ doc ∈ visits, collector.Readable doc) :
    visits.foldl collector.collect state =
      { state with hits := (visits.filter collector.Passes).foldl (TopK.retain collector.limit) state.hits } := by
  induction visits generalizing state with
  | nil => rfl
  | cons doc visits ih =>
    obtain ⟨hdoc, hvisits⟩ := List.forall_mem_cons.mp h
    rw [List.foldl_cons, collect_readable herrors hdoc]
    by_cases hpass : collector.Passes doc = true
    · have hrest := @ih (collector.retainTopSearchHit state doc) herrors hvisits
      rw [if_pos hpass, hrest, List.filter_cons_of_pos hpass]
      rfl
    · rw [if_neg hpass, ih herrors hvisits, List.filter_cons_of_neg hpass]

/-- However the documents are split into segments and in whatever order they are visited. -/
theorem filtered_search_is_exact (segments : List ℕ) (hvisits : visits.Perm docs)
    (hdocs : (docs.map (·.address)).Nodup) (hread : ∀ doc ∈ docs, collector.Readable doc) :
    collector.search segments visits = .ok (((docs.filter collector.Passes).mergeSort (· ≤ ·)).take collector.limit) ∧
      (((docs.filter collector.Passes).mergeSort (· ≤ ·)).take collector.limit).Nodup := by
  have hsort : (fun doc other : RankedSearchDoc Score => doc.cmp other != .gt) =
    fun doc other => decide (doc ≤ other) := by
    funext doc other
    exact RankedSearchDoc.cmp_ne_gt
  have hsorted : (visits.filter collector.Passes).mergeSort (· ≤ ·) =
    (docs.filter collector.Passes).mergeSort (· ≤ ·) := by
    apply List.Perm.eq_of_pairwise' (List.pairwise_mergeSort' (· ≤ ·) _) (List.pairwise_mergeSort' (· ≤ ·) _)
    exact ((List.mergeSort_perm _ _).trans (hvisits.filter _)).trans (List.mergeSort_perm _ _).symm
  constructor
  · rw [search, foldl_collect (fun _ => rfl) fun doc hdoc => hread doc (hvisits.mem_iff.mp hdoc), mergeFruits]
    have hnone : segments.findSome? (fun _ => (none : Option String)) = none := by simp
    simp only [hnone, hsort, TopK.mergeSort_retained, hsorted]
  · apply List.Nodup.sublist (List.take_sublist _ _)
    apply (List.mergeSort_perm _ _).nodup_iff.mpr
    exact (List.Nodup.of_map _ hdocs).filter _

def sampleCollector : FilteredSearchCollector Bytes :=
  ⟨2, some [[1]], some [7], fun body filter => body == filter,
    fun address => .ok ⟨some [1], some [Fin.ofNat 256 address.docId]⟩⟩

theorem filtered_search_over_two_segments :
    sampleCollector.search [0, 1] [⟨3, ⟨1, 7⟩⟩, ⟨5, ⟨0, 8⟩⟩, ⟨3, ⟨0, 7⟩⟩] = .ok
      ((([⟨3, ⟨0, 7⟩⟩, ⟨3, ⟨1, 7⟩⟩, ⟨5, ⟨0, 8⟩⟩] : List (RankedSearchDoc ℕ)).filter sampleCollector.Passes).mergeSort
        (· ≤ ·) |>.take 2) :=
  (filtered_search_is_exact [0, 1] (by decide) (by decide) fun _ _ _ => rfl).1

end FilteredSearchCollector

end Thingd.Engine
