import Thingd.Engine.ObjectBatch

namespace Thingd.Engine.ObjectState

def writeObject (codec : StorageCodec) (now : Bytes) (s : ObjectState) (object : MemoryObject) :
    MemoryObject × ObjectState :=
  let object := stamped now object (s.objects.get (objectKey codec object.key))
  (object, { s with
    objects := s.objects.insert (objectKey codec object.key) object
    vectors := putVector codec s.vectors object })

def writeObjects (codec : StorageCodec) (now : Bytes) (s : ObjectState) (objects : List MemoryObject) :
    List MemoryObject × ObjectState :=
  objects.foldl (fun done object =>
    let (written, s) := writeObject codec now done.2 object
    (done.1 ++ [written], s)) ([], s)

variable {codec : StorageCodec} {json : JsonReader} {now : Bytes} {s : ObjectState} {object : MemoryObject}
  {objects : List MemoryObject}

theorem putObject_eq_writeObject :
    s.putObject codec json now object = (do
      s.validateUniqueIndexes codec json object
      let (written, next) := writeObject codec now s object
      pure (written, next.updateUniqueIndexCacheForObject json written
        (if hasUniqueIndexes s.indexDefinitions then s.objects.get (objectKey codec object.key) else none))) := rfl

theorem writeObjects_concat :
    writeObjects codec now s (objects ++ [object]) =
      ((writeObjects codec now s objects).1 ++ [(writeObject codec now (writeObjects codec now s objects).2 object).1],
        (writeObject codec now (writeObjects codec now s objects).2 object).2) := by
  simp [writeObjects]

def inserted (codec : StorageCodec) (s : ObjectState) (prepared : Prepared) : SortedMap Bytes MemoryObject :=
  prepared.foldl (fun objects entry => objects.insert (objectKey codec entry.1.key) entry.1) s.objects

theorem inserted_concat (prepared : Prepared) (entry : MemoryObject × Option MemoryObject) :
    inserted codec s (prepared ++ [entry]) =
      (inserted codec s prepared).insert (objectKey codec entry.1.key) entry.1 := by
  simp [inserted]

theorem previousInBatch_eq_get (prepared : Prepared) (object : MemoryObject) :
    s.previousInBatch codec prepared object = (inserted codec s prepared).get (objectKey codec object.key) := by
  induction prepared using List.reverseRecOn with
  | nil => rfl
  | append_singleton prepared entry ih =>
    rw [inserted_concat, SortedMap.get_insert]
    by_cases hkey : objectKey codec entry.1.key = objectKey codec object.key
    · simp [previousInBatch, hkey]
    · rw [if_neg (Ne.symm hkey), ← ih]
      simp [previousInBatch, hkey]

theorem foldl_extendBatch_concat :
    (objects ++ [object]).foldl (extendBatch codec now s) [] =
      extendBatch codec now s (objects.foldl (extendBatch codec now s) []) object := by
  simp [List.foldl_append]

theorem inserted_eq_writeObjects :
    (objects.foldl (extendBatch codec now s) []).map Prod.fst = (writeObjects codec now s objects).1 ∧
      inserted codec s (objects.foldl (extendBatch codec now s) []) = (writeObjects codec now s objects).2.objects := by
  induction objects using List.reverseRecOn with
  | nil => exact ⟨rfl, rfl⟩
  | append_singleton objects object ih =>
    obtain ⟨hreturned, hobjects⟩ := ih
    rw [foldl_extendBatch_concat, writeObjects_concat, extendBatch, inserted_concat, previousInBatch_eq_get, hobjects]
    refine ⟨?_, rfl⟩
    rw [List.map_append, hreturned]
    rfl

@[simp] theorem updateUniqueIndexCacheForObject_objects (s : ObjectState) (object : MemoryObject)
    (previous : Option MemoryObject) :
    (s.updateUniqueIndexCacheForObject json object previous).objects = s.objects ∧
      (s.updateUniqueIndexCacheForObject json object previous).vectors = s.vectors ∧
      (s.updateUniqueIndexCacheForObject json object previous).indexes = s.indexes ∧
      (s.updateUniqueIndexCacheForObject json object previous).indexDefinitions = s.indexDefinitions ∧
      (s.updateUniqueIndexCacheForObject json object previous).uniqueIndexCacheComplete =
        s.uniqueIndexCacheComplete := by
  rw [updateUniqueIndexCacheForObject]
  split <;> simp

theorem foldl_update_data (prepared : Prepared) (s : ObjectState) :
    (prepared.foldl (fun s entry => s.updateUniqueIndexCacheForObject json entry.1 entry.2) s).objects = s.objects ∧
      (prepared.foldl (fun s entry => s.updateUniqueIndexCacheForObject json entry.1 entry.2) s).vectors = s.vectors ∧
      (prepared.foldl (fun s entry => s.updateUniqueIndexCacheForObject json entry.1 entry.2) s).indexes = s.indexes ∧
      (prepared.foldl (fun s entry => s.updateUniqueIndexCacheForObject json entry.1 entry.2) s).indexDefinitions =
        s.indexDefinitions ∧
      (prepared.foldl (fun s entry => s.updateUniqueIndexCacheForObject json entry.1 entry.2)
        s).uniqueIndexCacheComplete =
        s.uniqueIndexCacheComplete := by
  induction prepared generalizing s with
  | nil => exact ⟨rfl, rfl, rfl, rfl, rfl⟩
  | cons entry prepared ih => simpa using ih (s.updateUniqueIndexCacheForObject json entry.1 entry.2)

@[simp] theorem removeUniqueIndexCacheForObject_objects (s : ObjectState) (object : MemoryObject) :
    (s.removeUniqueIndexCacheForObject json object).objects = s.objects ∧
      (s.removeUniqueIndexCacheForObject json object).vectors = s.vectors ∧
      (s.removeUniqueIndexCacheForObject json object).indexes = s.indexes ∧
      (s.removeUniqueIndexCacheForObject json object).indexDefinitions = s.indexDefinitions ∧
      (s.removeUniqueIndexCacheForObject json object).uniqueIndexCacheComplete = s.uniqueIndexCacheComplete := by
  rw [removeUniqueIndexCacheForObject]
  split <;> simp

section Vectors

variable {key vkey : Bytes}

def batchVectors (codec : StorageCodec) (now : Bytes) (s : ObjectState) (objects : List MemoryObject) :
    SortedMap Bytes StoredVector :=
  (objects.foldl (extendBatch codec now s) []).foldl (batchVector codec) s.vectors

theorem get_writeObject_objects (s : ObjectState) (object : MemoryObject) (key : Bytes) :
    (writeObject codec now s object).2.objects.get key =
      if key = objectKey codec object.key then some (stamped now object (s.objects.get (objectKey codec object.key)))
      else s.objects.get key := by
  by_cases hkey : key = objectKey codec object.key <;> simp [writeObject]

section

variable (haligned : ∀ object ∈ objects, objectKey codec object.key = key ↔ vectorKey codec object.key = vkey)
include haligned

end

end Vectors

end Thingd.Engine.ObjectState
