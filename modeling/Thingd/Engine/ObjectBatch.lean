import Thingd.Engine.UniqueValues

namespace Thingd.Engine.ObjectState

variable {codec : StorageCodec} {json : JsonReader} {now : Bytes} {s : ObjectState} {object : MemoryObject}
  {objects : List MemoryObject} {cache : UniqueIndexCache}

@[simp] theorem stamped_key (object : MemoryObject) (previous : Option MemoryObject) :
    (stamped now object previous).key = object.key := rfl

@[simp] theorem stamped_vector (object : MemoryObject) (previous : Option MemoryObject) :
    (stamped now object previous).vector = object.vector := rfl

@[simp] theorem uniqueValues_stamped (definitions : List IndexDefinition) (object : MemoryObject)
    (previous : Option MemoryObject) :
    (stamped now object previous).uniqueValues json definitions = object.uniqueValues json definitions := rfl

def Parses (json : JsonReader) (s : ObjectState) (object : MemoryObject) : Prop :=
  uniqueDefinitions s.indexDefinitions object.key.collection ≠ [] → ∃ fields, json object.body = .ok fields

def StoredClear (codec : StorageCodec) (json : JsonReader) (s : ObjectState) (object : MemoryObject) : Prop :=
  ∀ index ∈ uniqueDefinitions s.indexDefinitions object.key.collection, ∀ value,
    fieldValue json object.body index.field = some value →
      ∀ existing ∈ s.listObjects codec object.key.collection, existing.key ≠ object.key →
        fieldValue json existing.body index.field ≠ some value

theorem forM_eq_ok {α : Type} {f : α → ThingdResult Unit} {l : List α} : l.forM f = .ok () ↔ ∀ x ∈ l, f x = .ok () := by
  induction l with
  | nil => simp [pure, Except.pure]
  | cons first rest ih =>
    rw [List.forall_mem_cons, ← ih, List.forM]
    cases hfirst : f first with
    | error failure => simp [bind, Except.bind]
    | ok done => simp [bind, Except.bind]

theorem validateUniqueIndexes_eq_ok :
    s.validateUniqueIndexes codec json object = .ok () ↔ Parses json s object ∧
      ∀ index ∈ uniqueDefinitions s.indexDefinitions object.key.collection, ∀ value,
        fieldValue json object.body index.field = some value →
          s.valueTaken codec json object.key index value = false := by
  rw [validateUniqueIndexes, Parses]
  by_cases hnone : uniqueDefinitions s.indexDefinitions object.key.collection = []
  · simp [hnone]
  · rw [if_neg (by simpa using hnone)]
    cases hbody : json object.body with
    | error message => simp [hnone]
    | ok fields =>
      simp only [forM_eq_ok, fieldValue, hbody]
      refine Iff.trans ?_ (and_iff_right fun _ => ⟨fields, rfl⟩).symm
      refine forall₂_congr fun index hindex => ?_
      cases hvalue : fields index.field with
      | none => simp
      | some value => simp

theorem valueTaken_of_incomplete (h : s.uniqueIndexCacheComplete = false) :
    (∀ index ∈ uniqueDefinitions s.indexDefinitions object.key.collection, ∀ value,
      fieldValue json object.body index.field = some value → s.valueTaken codec json object.key index value = false) ↔
      StoredClear codec json s object := by
  simp [valueTaken, h, StoredClear]

def Available (cache : UniqueIndexCache) (key : ObjectKey) (value : UniqueKey) : Prop :=
  ∀ owner, cache value = some owner → owner = key

variable {result : UniqueIndexCache} {index : IndexDefinition} {prepared : Prepared}

theorem reserveValue_eq_ok :
    reserveValue json object cache index = .ok result ↔
      (∀ value, index.Holds json object.body value → Available cache object.key value) ∧
        result = rememberValue json cache index object := by
  cases hvalue : fieldValue json object.body index.field with
  | none => simp [reserveValue, rememberValue, IndexDefinition.Holds, hvalue, eq_comm]
  | some value =>
    cases howner : cache (index.uniqueCacheKey value) with
    | none => simp [reserveValue, rememberValue, IndexDefinition.Holds, Available, hvalue, howner, eq_comm]
    | some owner =>
      by_cases heq : owner = object.key
      · simp [reserveValue, rememberValue, IndexDefinition.Holds, Available, hvalue, howner, heq, eq_comm]
      · simp [reserveValue, IndexDefinition.Holds, Available, hvalue, howner, heq]

variable {value : UniqueKey}

theorem available_rememberValue (h : index.Holds json object.body value → Available cache object.key value) :
    Available (rememberValue json cache index object) object.key value ↔ Available cache object.key value := by
  by_cases hholds : index.Holds json object.body value
  · exact iff_of_true (by simp [Available, rememberValue_apply, hholds]) (h hholds)
  · simp [Available, rememberValue_apply, hholds]

theorem foldlM_reserveValue {indexes : List IndexDefinition} :
    indexes.foldlM (reserveValue json object) cache = .ok result ↔
      (∀ index ∈ indexes, ∀ value, index.Holds json object.body value → Available cache object.key value) ∧
        result = indexes.foldl (fun cache index => rememberValue json cache index object) cache := by
  induction indexes generalizing cache with
  | nil => simp [pure, Except.pure, eq_comm]
  | cons first indexes ih =>
    rw [List.foldlM_cons, List.forall_mem_cons]
    by_cases hfirst : ∀ value, first.Holds json object.body value → Available cache object.key value
    · rw [reserveValue_eq_ok.mpr ⟨hfirst, rfl⟩]
      refine ih.trans ?_
      refine and_congr_left fun _ => ?_
      rw [and_iff_right hfirst]
      refine forall₂_congr fun index _ => forall₂_congr fun value _ => ?_
      exact available_rememberValue (hfirst value)
    · cases hreserve : reserveValue json object cache first with
      | error failure => exact iff_of_false (by simp [bind, Except.bind]) fun h => hfirst h.1.1
      | ok reserved => exact absurd (reserveValue_eq_ok.mp hreserve).1 hfirst

def reserved (json : JsonReader) (s : ObjectState) (cache : UniqueIndexCache) (object : MemoryObject) :
    UniqueIndexCache :=
  fun value => if value ∈ object.uniqueValues json s.indexDefinitions then some object.key else cache value

theorem reserve_eq_ok :
    (uniqueDefinitions s.indexDefinitions object.key.collection).foldlM (reserveValue json object) cache = .ok result ↔
      (∀ value ∈ object.uniqueValues json s.indexDefinitions, Available cache object.key value) ∧
        result = reserved json s cache object := by
  rw [foldlM_reserveValue]
  refine and_congr ?_ ?_
  · simp only [MemoryObject.uniqueValues, mem_uniqueValues_iff_holds]
    grind
  · suffices h : (uniqueDefinitions s.indexDefinitions object.key.collection).foldl
        (fun cache index => rememberValue json cache index object) cache = reserved json s cache object by rw [h]
    funext value
    change List.foldl (replaceValue json object none) cache _ value = _
    rw [foldl_replaceValue]
    simp [reserved, MemoryObject.uniqueValues, mem_uniqueValues_iff_holds]

def Replaced (codec : StorageCodec) (s : ObjectState) (objects : List MemoryObject) (previous : MemoryObject) : Prop :=
  ∃ object ∈ objects, s.objects.get (objectKey codec object.key) = some previous

def Released (codec : StorageCodec) (json : JsonReader) (s : ObjectState) (objects : List MemoryObject)
    (value : UniqueKey) (owner : ObjectKey) : Prop :=
  ∃ previous, Replaced codec s objects previous ∧ previous.key = owner ∧
    value ∈ previous.uniqueValues json s.indexDefinitions

variable {owner : ObjectKey}

theorem foldl_release {releasing : ObjectKey} {values : List UniqueKey} :
    values.foldl (fun cache value =>
      if cache value = some releasing then Function.update cache value none else cache) cache value = some owner ↔
      cache value = some owner ∧ ¬(releasing = owner ∧ value ∈ values) := by
  induction values generalizing cache with
  | nil => simp
  | cons first values ih =>
    rw [List.foldl_cons, ih]
    by_cases hfirst : value = first
    · subst hfirst
      by_cases howner : cache value = some releasing
      · simp [howner]
      · simp only [howner, List.mem_cons_self]
        grind
    · split <;> simp [hfirst]

theorem releaseValues_apply :
    s.releaseValues codec json cache object value = some owner ↔
      cache value = some owner ∧ ¬Released codec json s [object] value owner := by
  have hreleased : Released codec json s [object] value owner ↔
      ∃ previous ∈ s.objects.get (objectKey codec object.key), previous.key = owner ∧
        value ∈ previous.uniqueValues json s.indexDefinitions := by
    simp [Released, Replaced]
  rw [hreleased]
  cases hprevious : s.objects.get (objectKey codec object.key) with
  | none => simp [releaseValues, hprevious]
  | some previous =>
    let release (cache : UniqueIndexCache) (value : UniqueKey) : UniqueIndexCache :=
      if cache value = some previous.key then Function.update cache value none else cache
    have hfold : s.releaseValues codec json cache object =
        (previous.uniqueValues json s.indexDefinitions).foldl release cache := by
      rw [releaseValues, hprevious]
      exact (foldl_uniqueValues release cache).symm
    rw [hfold, foldl_release]
    simp

theorem foldl_releaseValues :
    objects.foldl (s.releaseValues codec json) cache value = some owner ↔
      cache value = some owner ∧ ¬Released codec json s objects value owner := by
  induction objects generalizing cache with
  | nil => simp [Released, Replaced]
  | cons first objects ih =>
    rw [List.foldl_cons, ih, releaseValues_apply, and_assoc, ← not_or]
    refine and_congr_right fun _ => not_congr ?_
    simp only [Released, Replaced, List.mem_cons, List.not_mem_nil]
    grind

/-- No element of the list meets its unique values on another element, or under another owner in the cache that the list
does not write over. -/
structure Clear (codec : StorageCodec) (json : JsonReader) (s : ObjectState) (objects : List MemoryObject) : Prop where
  elements : ∀ a ∈ objects, ∀ b ∈ objects, ∀ value ∈ a.uniqueValues json s.indexDefinitions,
    value ∈ b.uniqueValues json s.indexDefinitions → a.key = b.key
  cached : ∀ a ∈ objects, ∀ value ∈ a.uniqueValues json s.indexDefinitions, ∀ owner,
    s.uniqueIndexValues value = some owner → owner = a.key ∨ Released codec json s objects value owner

def Reservable (json : JsonReader) (s : ObjectState) (cache : UniqueIndexCache) (objects : List MemoryObject) : Prop :=
  ∀ a ∈ objects, ∀ value ∈ a.uniqueValues json s.indexDefinitions, Available cache a.key value ∧
    ∀ b ∈ objects, value ∈ b.uniqueValues json s.indexDefinitions → b.key = a.key

theorem reservable_cons :
    Reservable json s cache (object :: objects) ↔
      (∀ value ∈ object.uniqueValues json s.indexDefinitions, Available cache object.key value) ∧
        Reservable json s (reserved json s cache object) objects := by
  constructor
  · intro h
    refine ⟨fun value hvalue => (h object List.mem_cons_self value hvalue).1, ?_⟩
    intro a ha value hvalue
    obtain ⟨havailable, hagree⟩ := h a (List.mem_cons_of_mem _ ha) value hvalue
    refine ⟨?_, fun b hb => hagree b (List.mem_cons_of_mem _ hb)⟩
    intro owner howner
    by_cases hheld : value ∈ object.uniqueValues json s.indexDefinitions
    · have hsome : some object.key = some owner := by simpa [reserved, hheld] using howner
      exact (Option.some.inj hsome) ▸ hagree object List.mem_cons_self hheld
    · exact havailable owner (by simpa [reserved, hheld] using howner)
  · rintro ⟨hobject, h⟩
    have hshared {b : MemoryObject} (hb : b ∈ objects) {value : UniqueKey}
        (hvalue : value ∈ object.uniqueValues json s.indexDefinitions)
        (hother : value ∈ b.uniqueValues json s.indexDefinitions) : object.key = b.key :=
      (h b hb value hother).1 object.key (by simp [reserved, hvalue])
    intro a hmem value hvalue
    rcases List.mem_cons.mp hmem with rfl | ha
    · refine ⟨hobject value hvalue, fun b hb hother => ?_⟩
      rcases List.mem_cons.mp hb with rfl | hb
      · rfl
      · exact (hshared hb hvalue hother).symm
    · obtain ⟨havailable, hagree⟩ := h a ha value hvalue
      refine ⟨fun owner howner => ?_, fun b hb hother => ?_⟩
      · by_cases hheld : value ∈ object.uniqueValues json s.indexDefinitions
        · exact (hobject value hheld owner howner).trans (hshared ha hheld hvalue)
        · exact havailable owner (by simpa [reserved, hheld] using howner)
      · rcases List.mem_cons.mp hb with rfl | hb
        · exact hshared ha hother hvalue
        · exact hagree b hb hother

def extendBatch (codec : StorageCodec) (now : Bytes) (s : ObjectState) (prepared : Prepared) (object : MemoryObject) :
    Prepared :=
  prepared ++ [(stamped now object (s.previousInBatch codec prepared object), s.previousInBatch codec prepared object)]

def scanCheck (codec : StorageCodec) (json : JsonReader) (s : ObjectState) (object : MemoryObject) :
    ThingdResult Unit :=
  if s.uniqueIndexCacheComplete then .ok () else s.validateUniqueIndexes codec json object

theorem scanCheck_eq_ok :
    scanCheck codec json s object = .ok () ↔
      (s.uniqueIndexCacheComplete = false → s.validateUniqueIndexes codec json object = .ok ()) := by
  cases hcomplete : s.uniqueIndexCacheComplete <;> simp [scanCheck, hcomplete]

theorem prepareBatch_cons :
    s.prepareBatch codec json now (object :: objects) cache prepared =
      scanCheck codec json s object >>= fun _ =>
        (uniqueDefinitions s.indexDefinitions object.key.collection).foldlM (reserveValue json object) cache >>=
          fun cache => s.prepareBatch codec json now objects cache (extendBatch codec now s prepared object) := by
  rw [prepareBatch]
  cases hcomplete : s.uniqueIndexCacheComplete <;> simp [scanCheck, hcomplete] <;> rfl

theorem prepareBatch_eq_ok {result : Prepared} :
    s.prepareBatch codec json now objects cache prepared = .ok result ↔
      (∀ object ∈ objects, scanCheck codec json s object = .ok ()) ∧ Reservable json s cache objects ∧
        objects.foldl (extendBatch codec now s) prepared = result := by
  induction objects generalizing cache prepared with
  | nil =>
    rw [prepareBatch]
    simp [Reservable]
  | cons object objects ih =>
    rw [reservable_cons, List.foldl_cons, List.forall_mem_cons, prepareBatch_cons]
    cases hcheck : scanCheck codec json s object with
    | error failure => exact iff_of_false (by simp [bind, Except.bind]) fun h => absurd h.1.1 (by simp)
    | ok done =>
      cases hreserve : (uniqueDefinitions s.indexDefinitions object.key.collection).foldlM (reserveValue json object)
          cache with
      | error failure =>
        refine iff_of_false (by simp [bind, Except.bind]) ?_
        rintro ⟨-, ⟨hfree, -⟩, -⟩
        rw [reserve_eq_ok.mpr ⟨hfree, rfl⟩] at hreserve
        exact absurd hreserve (by simp)
      | ok next =>
        obtain ⟨hfree, rfl⟩ := reserve_eq_ok.mp hreserve
        refine ih.trans ?_
        rw [and_iff_right rfl, and_iff_right hfree]

theorem reservable_released :
    Reservable json s (if hasUniqueIndexes s.indexDefinitions then
      objects.foldl (s.releaseValues codec json) s.uniqueIndexValues else fun _ => none) objects ↔
      Clear codec json s objects := by
  cases hunique : hasUniqueIndexes s.indexDefinitions with
  | false =>
    have hnone (object : MemoryObject) : object.uniqueValues json s.indexDefinitions = [] :=
      uniqueValues_nil_of_not_hasUniqueIndexes hunique
    exact iff_of_true (fun a _ value hvalue => by simp [hnone] at hvalue)
      ⟨fun a _ b _ value hvalue => by simp [hnone] at hvalue, fun a _ value hvalue => by simp [hnone] at hvalue⟩
  | true =>
    rw [if_pos rfl]
    have havailable (a : MemoryObject) (value : UniqueKey) :
        Available (objects.foldl (s.releaseValues codec json) s.uniqueIndexValues) a.key value ↔
          ∀ owner, s.uniqueIndexValues value = some owner →
            owner = a.key ∨ Released codec json s objects value owner := by
      refine forall_congr' fun owner => ?_
      rw [foldl_releaseValues]
      tauto
    constructor
    · intro h
      exact ⟨fun a ha b hb value hvalue hother => ((h a ha value hvalue).2 b hb hother).symm,
        fun a ha value hvalue => (havailable a value).mp (h a ha value hvalue).1⟩
    · intro h a ha value hvalue
      exact ⟨(havailable a value).mpr (h.cached a ha value hvalue),
        fun b hb hother => (h.elements a ha b hb value hvalue hother).symm⟩

theorem putObjectsBatch_eq_ok {result : List MemoryObject × ObjectState} :
    s.putObjectsBatch codec json now objects = .ok result ↔
      ((∀ object ∈ objects, scanCheck codec json s object = .ok ()) ∧ Clear codec json s objects) ∧
        s.commitPrepared codec json (objects.foldl (extendBatch codec now s) []) = result := by
  rw [putObjectsBatch]
  by_cases hempty : objects = []
  · subst hempty
    have hclear : Clear codec json s [] := ⟨by simp, by simp⟩
    simp [hclear, commitPrepared]
  · rw [if_neg (by simpa using hempty), ← @reservable_released codec json s objects]
    cases hprepare : s.prepareBatch codec json now objects (if hasUniqueIndexes s.indexDefinitions then
        objects.foldl (s.releaseValues codec json) s.uniqueIndexValues else fun _ => none) [] with
    | error failure =>
      refine iff_of_false (by simp [hprepare, bind, Except.bind]) ?_
      rintro ⟨⟨hchecks, hreservable⟩, -⟩
      rw [prepareBatch_eq_ok.mpr ⟨hchecks, hreservable, rfl⟩] at hprepare
      exact absurd hprepare (by simp)
    | ok prepared =>
      obtain ⟨hchecks, hreservable, rfl⟩ := prepareBatch_eq_ok.mp hprepare
      rw [and_iff_right ⟨hchecks, hreservable⟩]
      simp [hprepare, bind, Except.bind, pure, Except.pure]

end Thingd.Engine.ObjectState
