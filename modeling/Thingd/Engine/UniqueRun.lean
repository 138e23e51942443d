import Thingd.Engine.UniqueIndex

namespace Thingd.Engine.ObjectState

variable {codec : StorageCodec} {json : JsonReader} {keys : Set ObjectKey} {s : ObjectState} {object : MemoryObject}
  {indexes : List IndexDefinition} {definitions : List IndexDefinition} {built : UniqueIndexCache × Bool}
  {objects : List MemoryObject} {next : ObjectState}

theorem mem_uniqueValues_congr (h : ∀ index, index ∈ definitions ↔ index ∈ indexes) (object : MemoryObject)
    (value : UniqueKey) : value ∈ object.uniqueValues json definitions ↔ value ∈ object.uniqueValues json indexes := by
  obtain ⟨name, field, value⟩ := value
  simp only [MemoryObject.uniqueValues, mem_uniqueValues_iff, h]

theorem foldl_cacheValue {fields : Bytes → Option Bytes} (hbody : json object.body = .ok fields)
    (h : (definitions.foldl (cacheValue fields object.key) built).2 = true) :
    built.2 = true ∧ ∀ value,
      (definitions.foldl (cacheValue fields object.key) built).1 value =
        (if ∃ index ∈ definitions, index.Holds json object.body value then some object.key else built.1 value) ∧
      ((∃ index ∈ definitions, index.Holds json object.body value) → built.1 value = none) := by
  induction definitions generalizing built with
  | nil => exact ⟨h, by simp⟩
  | cons first definitions ih =>
    obtain ⟨hfirst, hrest⟩ := ih h
    cases hfield : fields first.field with
    | none =>
      have hsame : cacheValue fields object.key built first = built := by simp [cacheValue, hfield]
      have hnot (value : UniqueKey) : ¬first.Holds json object.body value := by
        simp [IndexDefinition.Holds, fieldValue, hbody, hfield]
      rw [hsame] at hfirst hrest
      refine ⟨hfirst, fun value => ?_⟩
      rw [List.foldl_cons, hsame]
      simpa [hnot value] using hrest value
    | some entered =>
      have hstep : cacheValue fields object.key built first =
          (Function.update built.1 (first.uniqueCacheKey entered) (some object.key),
            built.2 && (built.1 (first.uniqueCacheKey entered)).isNone) := by
        simp [cacheValue, hfield]
      have hholds (value : UniqueKey) : first.Holds json object.body value ↔ value = first.uniqueCacheKey entered := by
        simp [IndexDefinition.Holds, fieldValue, hbody, hfield, eq_comm]
      rw [hstep] at hfirst hrest
      obtain ⟨hcomplete, hfree⟩ := (Bool.and_eq_true _ _).mp hfirst
      refine ⟨hcomplete, fun value => ?_⟩
      obtain ⟨hresult, hnone⟩ := hrest value
      rw [List.foldl_cons, hstep, hresult]
      simp only [List.exists_mem_cons_iff, hholds]
      by_cases hvalue : value = first.uniqueCacheKey entered
      · subst hvalue
        simpa using hfree
      · simpa [hvalue] using hnone

theorem cacheObject_of_complete (h : (cacheObject json indexes built object).2 = true) :
    built.2 = true ∧ ∀ value,
      (cacheObject json indexes built object).1 value =
        (if value ∈ object.uniqueValues json indexes then some object.key else built.1 value) ∧
      (value ∈ object.uniqueValues json indexes → built.1 value = none) := by
  cases hbody : json object.body with
  | error message => simp [cacheObject, hbody] at h
  | ok fields =>
    simp only [cacheObject, hbody] at h ⊢
    simp only [MemoryObject.uniqueValues, mem_uniqueValues_iff_holds]
    exact foldl_cacheValue hbody h

theorem foldl_cacheObject (h : (objects.foldl (cacheObject json indexes) (fun _ => none, true)).2 = true)
    (value : UniqueKey) (owner : ObjectKey) :
    (objects.foldl (cacheObject json indexes) (fun _ => none, true)).1 value = some owner ↔
      ∃ object ∈ objects, object.key = owner ∧ value ∈ object.uniqueValues json indexes := by
  induction objects using List.reverseRecOn with
  | nil => simp
  | append_singleton objects object ih =>
    rw [List.foldl_append] at h ⊢
    obtain ⟨hbefore, hvalues⟩ := cacheObject_of_complete h
    obtain ⟨hresult, hnone⟩ := hvalues value
    change (cacheObject json indexes (objects.foldl (cacheObject json indexes) _) object).1 value = some owner ↔ _
    rw [hresult]
    by_cases hvalue : value ∈ object.uniqueValues json indexes
    · have hfree : ¬∃ other ∈ objects, other.key = owner ∧ value ∈ other.uniqueValues json indexes := by
        rw [← ih hbefore, hnone hvalue]
        exact nofun
      simp [hvalue, hfree]
    · rw [if_neg hvalue, ih hbefore]
      simp [hvalue]

variable {index : IndexDefinition}

theorem mem_loadIndexDefinitions {indexes : SortedMap Bytes IndexDefinition} :
    index ∈ loadIndexDefinitions indexes ↔ ∃ place, indexes.get place = some index := by
  rw [loadIndexDefinitions]
  simp [SortedMap.get_eq_some_iff]

theorem mem_loaded {indexes : SortedMap Bytes IndexDefinition} (index : IndexDefinition) :
    index ∈ indexes.entries.map Prod.snd ↔ index ∈ loadIndexDefinitions indexes :=
  (List.perm_insertionSort _ _).mem_iff.symm

theorem Indexed.refresh (hplaced : Placed codec keys s) (hunique : (s.refreshUniqueIndexCache json).Unique json) :
    Indexed codec json keys (s.refreshUniqueIndexCache json) := by
  have hplaced' : Placed codec keys (s.refreshUniqueIndexCache json) := hplaced
  refine ⟨hplaced', rfl, (unique_iff_exclusive hplaced').mp hunique, fun hcomplete value owner => ?_⟩
  rw [mem_held hplaced']
  change (buildUniqueIndexCache json s.objects s.indexes).2 = true at hcomplete
  change (buildUniqueIndexCache json s.objects s.indexes).1 value = some owner ↔
    ∃ object ∈ s.stored, object.key = owner ∧ value ∈ object.uniqueValues json (loadIndexDefinitions s.indexes)
  rw [buildUniqueIndexCache] at hcomplete ⊢
  simp only [← mem_uniqueValues_congr mem_loaded]
  split_ifs at hcomplete ⊢ with hnone
  · have hnil (object : MemoryObject) : object.uniqueValues json (s.indexes.entries.map Prod.snd) = [] :=
      uniqueValues_nil_of_not_hasUniqueIndexes (by simpa using hnone)
    simp [hnil]
  · exact foldl_cacheObject hcomplete value owner

theorem Unique.of_subset {t : ObjectState} (h : s.Unique json) (hobjects : t.objects = s.objects)
    (hdefinitions : ∀ index ∈ t.indexDefinitions, index ∈ s.indexDefinitions) : t.Unique json := by
  have hstored : t.stored = s.stored := by rw [stored, stored, hobjects]
  intro index hindex
  rw [hstored]
  exact h index (hdefinitions index hindex)

theorem Indexed.unique (h : Indexed codec json keys s) : s.Unique json :=
  (unique_iff_exclusive h.placed).mpr h.exclusive

theorem Indexed.reopen (h : Indexed codec json keys s) : Indexed codec json keys (s.refreshUniqueIndexCache json) := by
  apply Indexed.refresh h.placed
  refine h.unique.of_subset rfl ?_
  intro index hindex
  rw [h.definitions]
  exact hindex

theorem Indexed.deleteIndex (h : Indexed codec json keys s) (collection field : Bytes) :
    Indexed codec json keys (s.deleteIndex codec json collection field).2 := by
  rw [ObjectState.deleteIndex]
  split
  · apply Indexed.refresh (s := { s with indexes := s.indexes.erase (codec.makeIndexKey collection field) }) h.placed
    refine h.unique.of_subset rfl ?_
    intro index hindex
    obtain ⟨place, hplace⟩ := mem_loadIndexDefinitions.mp hindex
    rw [h.definitions]
    apply mem_loadIndexDefinitions.mpr
    rw [SortedMap.get_erase] at hplace
    split_ifs at hplace
    exact ⟨place, hplace⟩
  · exact h

def DifferAt (json : JsonReader) (field : Bytes) (a b : MemoryObject) : Prop :=
  fieldValue json a.body field = none ∨ fieldValue json a.body field ≠ fieldValue json b.body field

instance (field : Bytes) : Std.Symm (DifferAt json field) where
  symm a b h := by
    unfold DifferAt at h ⊢
    grind

theorem duplicatedValues_eq_ok {values : List Bytes} (h : duplicatedValues json index objects values = .ok ()) :
    (∀ object ∈ objects, ∀ value, fieldValue json object.body index.field = some value → value ∉ values) ∧
      objects.Pairwise (DifferAt json index.field) := by
  induction objects generalizing values with
  | nil => simp
  | cons object objects ih =>
    cases hbody : json object.body with
    | error message => simp [duplicatedValues, hbody] at h
    | ok fields =>
      have hvalue : fieldValue json object.body index.field = fields index.field := by simp [fieldValue, hbody]
      rw [duplicatedValues, hbody] at h
      cases hfield : fields index.field with
      | none =>
        simp only [hfield] at h
        obtain ⟨hnew, hapart⟩ := ih h
        rw [hfield] at hvalue
        refine ⟨List.forall_mem_cons.mpr ⟨by simp [hvalue], hnew⟩, List.pairwise_cons.mpr ⟨?_, hapart⟩⟩
        exact fun other _ => Or.inl hvalue
      | some value =>
        simp only [hfield] at h
        split_ifs at h with hcontains
        obtain ⟨hnew, hapart⟩ := ih h
        rw [hfield] at hvalue
        refine ⟨List.forall_mem_cons.mpr ⟨?_, ?_⟩, List.pairwise_cons.mpr ⟨?_, hapart⟩⟩
        · intro found hfound
          obtain rfl := Option.some.inj (hvalue.symm.trans hfound)
          simpa using hcontains
        · intro other hother found hfound hmem
          exact hnew other hother found hfound (List.mem_append_left _ hmem)
        · intro other hother
          refine Or.inr fun hsame => ?_
          exact hnew other hother value (hsame.symm.trans hvalue) (by simp)

theorem createIndexDefinition_eq_ok (h : s.createIndexDefinition codec json index = .ok next) :
    (index.unique = true → duplicatedValues json index (s.listObjects codec index.collection) [] = .ok ()) ∧
      { s with indexes := s.indexes.insert (codec.makeIndexKey index.collection index.field) index
        }.refreshUniqueIndexCache json = next := by
  rw [createIndexDefinition] at h
  split at h
  · exact absurd h nofun
  · cases hunique : index.unique with
    | false =>
      simp only [hunique] at h
      exact ⟨nofun, Except.ok.inj h⟩
    | true =>
      cases hcheck : duplicatedValues json index (s.listObjects codec index.collection) [] with
      | error failure =>
        simp only [hunique, hcheck] at h
        exact absurd h nofun
      | ok done =>
        simp only [hunique, hcheck] at h
        exact ⟨fun _ => rfl, Except.ok.inj h⟩

theorem Indexed.createIndexDefinition (h : Indexed codec json keys s)
    (hresult : s.createIndexDefinition codec json index = .ok next) : Indexed codec json keys next := by
  obtain ⟨hvalues, rfl⟩ := createIndexDefinition_eq_ok hresult
  refine Indexed.refresh (s := { s with
    indexes := s.indexes.insert (codec.makeIndexKey index.collection index.field) index }) h.placed ?_
  intro other hother hunique a ha b hb hacollection hbcollection hne
  obtain ⟨place, hplace⟩ := mem_loadIndexDefinitions.mp hother
  rw [SortedMap.get_insert] at hplace
  split_ifs at hplace
  · obtain rfl := Option.some.inj hplace
    have halisted := mem_listObjects h.placed ha
    have hblisted := mem_listObjects h.placed hb
    rw [hacollection] at halisted
    rw [hbcollection] at hblisted
    exact (duplicatedValues_eq_ok (hvalues hunique)).2.forall halisted hblisted fun heq => hne (congrArg _ heq)
  · have hold : other ∈ s.indexDefinitions := h.definitions ▸ mem_loadIndexDefinitions.mpr ⟨place, hplace⟩
    exact h.unique other hold hunique a ha b hb hacollection hbcollection hne

theorem putObjectWithOptions_eq_ok {now : Bytes} {expectedVersion : Option UInt64}
    {result : MemoryObject × ObjectState}
    (h : s.putObjectWithOptions codec json now object expectedVersion = .ok result) :
    s.putObject codec json now object = .ok result := by
  simp only [putObjectWithOptions] at h
  split at h
  · exact h
  · split at h
    · split at h
      · exact absurd h nofun
      · exact h
    · split at h
      · exact absurd h nofun
      · split at h
        · exact absurd h nofun
        · exact h

inductive Op
  | put (object : MemoryObject) (expectedVersion : Option UInt64)
  | putBatch (objects : List MemoryObject)
  | delete (key : ObjectKey)
  | deleteBatch (keys : List ObjectKey)
  | createIndex (index : IndexDefinition)
  | deleteIndex (collection field : Bytes)
  | reopen

def Op.apply (codec : StorageCodec) (json : JsonReader) (now : Bytes) (s : ObjectState) : Op → ObjectState
  | .put object expectedVersion =>
    match s.putObjectWithOptions codec json now object expectedVersion with
    | .ok (_, next) => next
    | .error _ => s
  | .putBatch objects =>
    match s.putObjectsBatch codec json now objects with
    | .ok (_, next) => next
    | .error _ => s
  | .delete key => (s.deleteObject codec json key).2
  | .deleteBatch names => (s.deleteObjectsBatch codec json names).2
  | .createIndex index =>
    match s.createIndexDefinition codec json index with
    | .ok next => next
    | .error _ => s
  | .deleteIndex collection field => (s.deleteIndex codec json collection field).2
  | .reopen => s.refreshUniqueIndexCache json

/-- The objects that are put have keys of the set, and a batch on a complete cache takes values over in order. -/
def Op.Fits (codec : StorageCodec) (json : JsonReader) (keys : Set ObjectKey) (s : ObjectState) : Op → Prop
  | .put object _ => object.key ∈ keys
  | .putBatch objects => (∀ object ∈ objects, object.key ∈ keys) ∧
    (s.uniqueIndexCacheComplete = true → Clear codec json s objects → TakesInOrder codec json s objects)
  | _ => True

def emptyState : ObjectState := ⟨.empty, .empty, .empty, [], fun _ => none, true⟩

inductive Run (codec : StorageCodec) (json : JsonReader) (keys : Set ObjectKey) : ObjectState → Prop
  | empty : Run codec json keys emptyState
  | step {s : ObjectState} {op : Op} (now : Bytes) : Run codec json keys s → op.Fits codec json keys s →
    Run codec json keys (op.apply codec json now s)

theorem indexed_emptyState : Indexed codec json keys emptyState := by
  refine ⟨nofun, rfl, ?_, ?_⟩
  · exact fun _ _ _ h => absurd h List.not_mem_nil
  · exact fun _ _ _ => iff_of_false nofun List.not_mem_nil

theorem Indexed.apply (hinj : Set.InjOn (objectKey codec) keys) (h : Indexed codec json keys s) {op : Op}
    (now : Bytes) (hfits : op.Fits codec json keys s) : Indexed codec json keys (op.apply codec json now s) := by
  cases op with
  | put object expectedVersion =>
    rw [Op.apply]
    split
    · rename_i written next hresult
      exact h.putObject hinj hfits (putObjectWithOptions_eq_ok hresult)
    · exact h
  | putBatch objects =>
    rw [Op.apply]
    split
    · rename_i written next hresult
      have hclear := (wrote_putObjectsBatch hresult).1.2
      exact h.putObjectsBatch hinj hfits.1 hresult fun hcomplete => hfits.2 hcomplete hclear
    · exact h
  | delete key => exact h.deleteObject key
  | deleteBatch names => exact h.deleteObjectsBatch names
  | createIndex index =>
    rw [Op.apply]
    split
    · rename_i next hresult
      exact h.createIndexDefinition hresult
    · exact h
  | deleteIndex collection field => exact h.deleteIndex collection field
  | reopen => exact h.reopen

theorem Run.indexed (hinj : Set.InjOn (objectKey codec) keys) (hrun : Run codec json keys s) :
    Indexed codec json keys s := by
  induction hrun with
  | empty => exact indexed_emptyState
  | step now _ hfits ih => exact ih.apply hinj now hfits

theorem unique_indexes_hold (hinj : Set.InjOn (objectKey codec) keys) (hrun : Run codec json keys s) :
    s.Unique json ∧ (s.uniqueIndexCacheComplete = true → ∀ value owner, s.uniqueIndexValues value = some owner ↔
      ∃ object ∈ s.stored, object.key = owner ∧ value ∈ object.uniqueValues json s.indexDefinitions) := by
  have h := hrun.indexed hinj
  refine ⟨h.unique, fun hcomplete value owner => ?_⟩
  rw [h.exact hcomplete value owner, mem_held h.placed]

def sampleJson : JsonReader := fun body =>
  if [123, 34, 102, 34, 58].isPrefixOf body && body.getLast? == some 125 then
    .ok fun field => if field = [102] then some (body.drop 5).dropLast else none
  else .error "expected value at line 1 column 1"

def sampleObject (id value : Byte) : MemoryObject :=
  ⟨⟨[99], [id]⟩, [123, 34, 102, 34, 58, value, 125], 0, [], [], none⟩

def sampleIndex : IndexDefinition := ⟨[99], [102], true⟩

def sampleKeys : Set ObjectKey := {key | key.collection = [99]}

theorem injOn_sampleKeys : Set.InjOn (objectKey (rawCodec .ok)) sampleKeys := by
  rintro ⟨collection, id⟩ hkey ⟨other, otherId⟩ hother heq
  obtain rfl : collection = [99] := hkey
  obtain rfl : other = [99] := hother
  have hid : id = otherId := by
    simpa [objectKey, StorageCodec.makeObjectKey, StorageCodec.encodeScopedKey, rawCodec] using heq
  rw [hid]

def sampleStore (objects : List MemoryObject) : ObjectState :=
  (Op.putBatch objects).apply (rawCodec .ok) sampleJson []
    ((Op.createIndex sampleIndex).apply (rawCodec .ok) sampleJson [] emptyState)

theorem run_sampleStore (h : ∀ object ∈ objects, object.key.collection = [99]) :
    Run (rawCodec .ok) sampleJson sampleKeys (sampleStore objects) := by
  have hempty : ((Op.createIndex sampleIndex).apply (rawCodec .ok) sampleJson [] emptyState).objects = .empty := by
    decide +kernel
  refine Run.step [] (Run.step [] Run.empty trivial) ⟨h, ?_⟩
  intro _ _ before object after _ _ other _ _ old hold
  simp [hempty] at hold

theorem batch_keeps_unique_index :
    let s := (Op.putBatch [sampleObject 65 49, sampleObject 66 50]).apply (rawCodec .ok) sampleJson []
      ((Op.createIndex sampleIndex).apply (rawCodec .ok) sampleJson [] emptyState)
    s.stored.length = 2 ∧ s.uniqueIndexCacheComplete = true ∧ s.Unique sampleJson := by
  have hrun : Run (rawCodec .ok) sampleJson sampleKeys (sampleStore [sampleObject 65 49, sampleObject 66 50]) := by
    apply run_sampleStore
    simp [sampleObject]
  exact ⟨by decide +kernel, by decide +kernel, (unique_indexes_hold injOn_sampleKeys hrun).1⟩

/-- A batch swaps the values of A and B; the cache loses the value that A took first, and C gets it as well. -/
theorem swapped_value_is_duplicated :
    let swapped := [Op.createIndex sampleIndex, .putBatch [sampleObject 65 49, sampleObject 66 50],
      .putBatch [sampleObject 65 50, sampleObject 66 49]].foldl
        (fun s op => op.apply (rawCodec .ok) sampleJson [] s) emptyState
    (swapped.uniqueIndexCacheComplete = true ∧ swapped.uniqueIndexValues ([99], [102], [50]) = none ∧
      ∃ object ∈ swapped.stored, ([99], [102], [50]) ∈ object.uniqueValues sampleJson swapped.indexDefinitions) ∧
    ¬((Op.put (sampleObject 67 50) none).apply (rawCodec .ok) sampleJson [] swapped).Unique sampleJson := by
  decide +kernel

end Thingd.Engine.ObjectState
