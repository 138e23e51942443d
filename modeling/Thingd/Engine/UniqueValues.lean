import Thingd.Engine.Objects

namespace Thingd.Engine

variable (json : JsonReader)

def uniqueValues (definitions : List IndexDefinition) (collection body : Bytes) : List UniqueKey :=
  (uniqueDefinitions definitions collection).filterMap fun index =>
    (fieldValue json body index.field).map index.uniqueCacheKey

def MemoryObject.uniqueValues (definitions : List IndexDefinition) (object : MemoryObject) : List UniqueKey :=
  Engine.uniqueValues json definitions object.key.collection object.body

variable {json} {definitions indexes : List IndexDefinition} {collection body : Bytes} {cache : UniqueIndexCache}
  {object : MemoryObject} {key : UniqueKey}

theorem mem_uniqueDefinitions {index : IndexDefinition} :
    index ∈ uniqueDefinitions definitions collection ↔
      index ∈ definitions ∧ index.unique = true ∧ index.collection = collection := by
  simp [uniqueDefinitions]

theorem mem_uniqueValues :
    key ∈ uniqueValues json definitions collection body ↔ ∃ index ∈ uniqueDefinitions definitions collection, ∃ value,
      fieldValue json body index.field = some value ∧ index.uniqueCacheKey value = key := by
  simp [uniqueValues]

theorem mem_uniqueValues_iff {field value : Bytes} {name : Bytes} :
    (name, field, value) ∈ uniqueValues json definitions collection body ↔
      (∃ index ∈ definitions, index.unique = true ∧ index.collection = collection ∧ index.field = field) ∧
        name = collection ∧ fieldValue json body field = some value := by
  rw [mem_uniqueValues]
  constructor
  · rintro ⟨index, hindex, held, hheld, hkey⟩
    obtain ⟨hmem, hunique, hcollection⟩ := mem_uniqueDefinitions.mp hindex
    obtain ⟨rfl, rfl, rfl⟩ := hkey
    exact ⟨⟨index, hmem, hunique, hcollection, rfl⟩, hcollection, hheld⟩
  · rintro ⟨⟨index, hmem, hunique, hcollection, rfl⟩, rfl, hheld⟩
    refine ⟨index, mem_uniqueDefinitions.mpr ⟨hmem, hunique, hcollection⟩, value, hheld, ?_⟩
    rw [IndexDefinition.uniqueCacheKey, hcollection]

theorem uniqueValues_nil_of_not_hasUniqueIndexes (h : hasUniqueIndexes definitions = false) :
    uniqueValues json definitions collection body = [] := by
  apply List.eq_nil_iff_forall_not_mem.mpr
  intro key hkey
  obtain ⟨index, hindex, -⟩ := mem_uniqueValues.mp hkey
  obtain ⟨hmem, hunique, -⟩ := mem_uniqueDefinitions.mp hindex
  simp only [hasUniqueIndexes, List.any_eq_false] at h
  exact h index hmem hunique

theorem foldl_uniqueValues {α : Type} (f : α → UniqueKey → α) (a : α) :
    (uniqueValues json definitions collection body).foldl f a =
      (uniqueDefinitions definitions collection).foldl (fun a index =>
        match fieldValue json body index.field with
        | none => a
        | some value => f a (index.uniqueCacheKey value)) a := by
  rw [uniqueValues, List.foldl_filterMap]
  congr
  funext a index
  cases fieldValue json body index.field <;> rfl

theorem foldl_update_none (keys : List UniqueKey) (cache : UniqueIndexCache) :
    keys.foldl (fun cache key => Function.update cache key none) cache =
      fun key => if key ∈ keys then none else cache key := by
  induction keys generalizing cache with
  | nil => simp
  | cons first keys ih =>
    rw [List.foldl_cons, ih]
    funext key
    by_cases hfirst : key = first
    · simp [hfirst]
    · simp [hfirst]

theorem foldl_forgetValue :
    (uniqueDefinitions definitions collection).foldl (fun cache index => forgetValue json cache index body) cache =
      fun key => if key ∈ uniqueValues json definitions collection body then none else cache key := by
  rw [← foldl_update_none, foldl_uniqueValues]
  rfl

def IndexDefinition.Holds (json : JsonReader) (index : IndexDefinition) (body : Bytes) (key : UniqueKey) : Prop :=
  (fieldValue json body index.field).map index.uniqueCacheKey = some key

instance (index : IndexDefinition) (body : Bytes) (key : UniqueKey) : Decidable (index.Holds json body key) :=
  inferInstanceAs (Decidable (_ = _))

theorem mem_uniqueValues_iff_holds :
    key ∈ uniqueValues json definitions collection body ↔
      ∃ index ∈ uniqueDefinitions definitions collection, index.Holds json body key := by
  simp only [uniqueValues, List.mem_filterMap]
  rfl

theorem IndexDefinition.Holds.transfer {index other : IndexDefinition} {otherBody : Bytes}
    (h : index.Holds json body key) (hother : other.Holds json otherBody key) : other.Holds json body key := by
  obtain ⟨value, hvalue, rfl⟩ := Option.map_eq_some_iff.mp h
  obtain ⟨otherValue, -, hkey⟩ := Option.map_eq_some_iff.mp hother
  simp only [uniqueCacheKey, Prod.mk.injEq] at hkey
  obtain ⟨hcollection, hfield, -⟩ := hkey
  rw [Holds, hfield, hvalue, Option.map_some, uniqueCacheKey, uniqueCacheKey, hcollection, hfield]

theorem forgetValue_apply (cache : UniqueIndexCache) (index : IndexDefinition) (body : Bytes) (key : UniqueKey) :
    forgetValue json cache index body key = if index.Holds json body key then none else cache key := by
  cases hvalue : fieldValue json body index.field with
  | none => simp [forgetValue, IndexDefinition.Holds, hvalue]
  | some value =>
    by_cases hkey : key = index.uniqueCacheKey value
    · simp [forgetValue, IndexDefinition.Holds, hvalue, hkey]
    · simp [forgetValue, IndexDefinition.Holds, hvalue, hkey, Ne.symm hkey]

theorem rememberValue_apply (cache : UniqueIndexCache) (index : IndexDefinition) (object : MemoryObject)
    (key : UniqueKey) :
    rememberValue json cache index object key =
      if index.Holds json object.body key then some object.key else cache key := by
  cases hvalue : fieldValue json object.body index.field with
  | none => simp [rememberValue, IndexDefinition.Holds, hvalue]
  | some value =>
    by_cases hkey : key = index.uniqueCacheKey value
    · simp [rememberValue, IndexDefinition.Holds, hvalue, hkey]
    · simp [rememberValue, IndexDefinition.Holds, hvalue, hkey, Ne.symm hkey]

theorem replaceValue_apply (previous : Option MemoryObject) (cache : UniqueIndexCache) (index : IndexDefinition)
    (key : UniqueKey) :
    replaceValue json object previous cache index key =
      if index.Holds json object.body key then some object.key
      else if ∃ old ∈ previous, index.Holds json old.body key then none else cache key := by
  cases previous with
  | none => simp [replaceValue, rememberValue_apply]
  | some old => simp [replaceValue, rememberValue_apply, forgetValue_apply]

theorem foldl_replaceValue (previous : Option MemoryObject) (indexes : List IndexDefinition)
    (cache : UniqueIndexCache) (key : UniqueKey) :
    indexes.foldl (replaceValue json object previous) cache key =
      if ∃ index ∈ indexes, index.Holds json object.body key then some object.key
      else if ∃ old ∈ previous, ∃ index ∈ indexes, index.Holds json old.body key then none else cache key := by
  induction indexes generalizing cache with
  | nil => simp
  | cons first indexes ih =>
    rw [List.foldl_cons, ih, replaceValue_apply]
    simp only [List.exists_mem_cons_iff]
    by_cases hnew : ∃ index ∈ indexes, index.Holds json object.body key
    · simp [hnew]
    · by_cases hfirst : first.Holds json object.body key
      · have hold : ¬∃ old ∈ previous, ∃ index ∈ indexes, index.Holds json old.body key := by
          rintro ⟨old, -, index, hindex, hholds⟩
          exact hnew ⟨index, hindex, hfirst.transfer hholds⟩
        rw [if_neg hnew, if_neg hold, if_pos hfirst, if_pos (Or.inl hfirst)]
      · simp only [hnew, hfirst, or_self, if_false]
        by_cases hold : ∃ old ∈ previous, ∃ index ∈ indexes, index.Holds json old.body key
        · obtain ⟨old, hmem, hindex⟩ := hold
          rw [if_pos ⟨old, hmem, hindex⟩, if_pos ⟨old, hmem, Or.inr hindex⟩]
        · rw [if_neg hold]
          apply if_congr _ rfl rfl
          constructor
          · rintro ⟨old, hmem, hholds⟩
            exact ⟨old, hmem, Or.inl hholds⟩
          · rintro ⟨old, hmem, hholds | hindex⟩
            · exact ⟨old, hmem, hholds⟩
            · exact absurd ⟨old, hmem, hindex⟩ hold

def ObjectState.stored (s : ObjectState) : List MemoryObject := s.objects.entries.map Prod.snd

theorem ObjectState.mem_stored {s : ObjectState} : object ∈ s.stored ↔ ∃ place, s.objects.get place = some object := by
  simp [ObjectState.stored, SortedMap.get_eq_some_iff]

def ObjectState.Unique (json : JsonReader) (s : ObjectState) : Prop :=
  ∀ index ∈ s.indexDefinitions, index.unique = true → ∀ a ∈ s.stored, ∀ b ∈ s.stored,
    a.key.collection = index.collection → b.key.collection = index.collection → a.key ≠ b.key →
      fieldValue json a.body index.field = none ∨
        fieldValue json a.body index.field ≠ fieldValue json b.body index.field

instance (s : ObjectState) : Decidable (s.Unique json) := by
  unfold ObjectState.Unique
  infer_instance

theorem ObjectState.unique_iff {s : ObjectState} :
    s.Unique json ↔ ∀ a ∈ s.stored, ∀ b ∈ s.stored, ∀ value ∈ a.uniqueValues json s.indexDefinitions,
      value ∈ b.uniqueValues json s.indexDefinitions → a.key = b.key := by
  constructor
  · rintro h a ha b hb ⟨name, field, value⟩ hvalue hother
    obtain ⟨⟨index, hindex, hunique, hcollection, rfl⟩, rfl, hfield⟩ := mem_uniqueValues_iff.mp hvalue
    obtain ⟨-, hname, hother⟩ := mem_uniqueValues_iff.mp hother
    by_contra hne
    rcases h index hindex hunique a ha b hb hcollection.symm (hname.symm.trans hcollection.symm) hne with hnone |
      hdiffer
    · simp [hnone] at hfield
    · exact hdiffer (hfield.trans hother.symm)
  · intro h index hindex hunique a ha b hb hacollection hbcollection hne
    cases hvalue : fieldValue json a.body index.field with
    | none => exact Or.inl rfl
    | some value =>
      refine Or.inr fun hsame => hne (h a ha b hb (index.collection, index.field, value) ?_ ?_)
      · exact mem_uniqueValues_iff.mpr ⟨⟨index, hindex, hunique, hacollection.symm, rfl⟩, hacollection.symm, hvalue⟩
      · exact mem_uniqueValues_iff.mpr ⟨⟨index, hindex, hunique, hbcollection.symm, rfl⟩, hbcollection.symm, hsame.symm⟩

end Thingd.Engine
