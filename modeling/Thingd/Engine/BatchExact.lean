import Thingd.Engine.BatchFold

namespace Thingd.Engine.ObjectState

open SortedMap

variable {codec : StorageCodec} {json : JsonReader} {now : Bytes} {s : ObjectState} {object : MemoryObject}
  {objects : List MemoryObject} {keys : List ObjectKey}

theorem scanChecks_iff :
    (∀ object ∈ objects, scanCheck codec json s object = .ok ()) ↔ (s.uniqueIndexCacheComplete = false →
      ∀ object ∈ objects, Parses json s object ∧ StoredClear codec json s object) := by
  simp only [scanCheck_eq_ok]
  constructor
  · intro h hcomplete object hobject
    obtain ⟨hparses, hclear⟩ := validateUniqueIndexes_eq_ok.mp (h object hobject hcomplete)
    exact ⟨hparses, (valueTaken_of_incomplete hcomplete).mp hclear⟩
  · intro h object hobject hcomplete
    obtain ⟨hparses, hclear⟩ := h hcomplete object hobject
    exact validateUniqueIndexes_eq_ok.mpr ⟨hparses, (valueTaken_of_incomplete hcomplete).mpr hclear⟩

theorem indexDefinitions_writeObjects : (writeObjects codec now s objects).2.indexDefinitions = s.indexDefinitions := by
  induction objects using List.reverseRecOn with
  | nil => rfl
  | append_singleton objects object ih =>
    rw [writeObjects_concat]
    exact ih

theorem commitPrepared_data (prepared : Prepared) :
    (s.commitPrepared codec json prepared).1 = prepared.map Prod.fst ∧
      (s.commitPrepared codec json prepared).2.objects = inserted codec s prepared ∧
      (s.commitPrepared codec json prepared).2.vectors = prepared.foldl (batchVector codec) s.vectors := by
  obtain ⟨hobjects, hvectors, -⟩ := foldl_update_data prepared _
  exact ⟨rfl, hobjects, hvectors⟩

theorem deleteObject_data (s : ObjectState) (key : ObjectKey) :
    (s.deleteObject codec json key).2.objects = s.objects.erase (objectKey codec key) ∧
      (s.deleteObject codec json key).2.vectors = s.vectors.erase (vectorKey codec key) := by
  cases hexisting : s.objects.get (objectKey codec key) <;> simp [deleteObject, hexisting]

def namedPlaces (codec : StorageCodec) (s : ObjectState) (keys : List ObjectKey) : List Bytes :=
  (keys.map (objectKey codec)).filter fun place => (s.objects.get place).isSome

theorem foldl_remove_data (deleted : List MemoryObject) (s : ObjectState) :
    (deleted.foldl (fun s object => s.removeUniqueIndexCacheForObject json object) s).objects = s.objects ∧
      (deleted.foldl (fun s object => s.removeUniqueIndexCacheForObject json object) s).vectors = s.vectors ∧
      (deleted.foldl (fun s object => s.removeUniqueIndexCacheForObject json object) s).indexes = s.indexes ∧
      (deleted.foldl (fun s object => s.removeUniqueIndexCacheForObject json object) s).indexDefinitions =
        s.indexDefinitions ∧
      (deleted.foldl (fun s object => s.removeUniqueIndexCacheForObject json object) s).uniqueIndexCacheComplete =
        s.uniqueIndexCacheComplete := by
  induction deleted generalizing s with
  | nil => exact ⟨rfl, rfl, rfl, rfl, rfl⟩
  | cons object deleted ih => simpa using ih (s.removeUniqueIndexCacheForObject json object)

theorem foldl_erase_stored {objects : SortedMap Bytes MemoryObject}
    (h : ∀ place, s.objects.get place = none → objects.get place = none) (keys : List ObjectKey) :
    keys.foldl (fun objects key =>
      if (s.objects.get (objectKey codec key)).isSome then objects.erase (objectKey codec key) else objects) objects =
      (keys.map (objectKey codec)).foldl SortedMap.erase objects := by
  induction keys generalizing objects with
  | nil => rfl
  | cons key keys ih =>
    rw [List.map_cons, List.foldl_cons, List.foldl_cons]
    cases hstored : s.objects.get (objectKey codec key) with
    | none =>
      rw [erase_eq_self (h _ hstored)]
      exact ih h
    | some object =>
      apply ih
      intro place hplace
      rw [if_pos Option.isSome_some, get_erase]
      split_ifs
      · rfl
      · exact h place hplace

theorem length_deleted (keys : List ObjectKey) :
    (keys.filterMap fun key => s.objects.get (objectKey codec key)).length = (namedPlaces codec s keys).length := by
  induction keys with
  | nil => rfl
  | cons key keys ih =>
    cases hstored : s.objects.get (objectKey codec key) <;> simpa [namedPlaces, hstored] using ih

theorem namedPlaces_eq_nil :
    namedPlaces codec s keys = [] ↔ ∀ key ∈ keys, s.objects.get (objectKey codec key) = none := by
  simp [namedPlaces]

theorem deleteObjectsBatch_data (keys : List ObjectKey) :
    (s.deleteObjectsBatch codec json keys).1 = (namedPlaces codec s keys).length ∧
      (s.deleteObjectsBatch codec json keys).2.objects = (keys.map (objectKey codec)).foldl SortedMap.erase s.objects ∧
      (s.deleteObjectsBatch codec json keys).2.vectors =
        if namedPlaces codec s keys = [] then s.vectors
        else (keys.map (vectorKey codec)).foldl SortedMap.erase s.vectors := by
  refine ⟨length_deleted keys, ?_⟩
  simp only [deleteObjectsBatch, foldl_remove_data, length_deleted, List.length_pos_iff_ne_nil]
  by_cases hnone : namedPlaces codec s keys = []
  · rw [if_neg (not_not.mpr hnone), if_pos hnone]
    refine ⟨?_, rfl⟩
    apply ext
    intro place
    rw [get_foldl_erase]
    split_ifs with hplace
    · obtain ⟨key, hkey, rfl⟩ := List.mem_map.mp hplace
      exact namedPlaces_eq_nil.mp hnone key hkey
    · rfl
  · rw [if_pos hnone, if_neg hnone]
    refine ⟨foldl_erase_stored (fun _ h => h) keys, ?_⟩
    rw [List.foldl_map]

end Thingd.Engine.ObjectState
