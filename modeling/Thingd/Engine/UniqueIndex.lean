import Thingd.Data.Owners
import Thingd.Engine.BatchExact

namespace Thingd.Engine.ObjectState

open Owners

variable {codec : StorageCodec} {json : JsonReader} {now : Bytes} {keys : Set ObjectKey} {s : ObjectState}
  {object : MemoryObject} {objects : List MemoryObject}

def Placed (codec : StorageCodec) (keys : Set ObjectKey) (s : ObjectState) : Prop :=
  ∀ place object, s.objects.get place = some object → place = objectKey codec object.key ∧ object.key ∈ keys

def held (codec : StorageCodec) (json : JsonReader) (s : ObjectState) : ObjectKey → List UniqueKey := fun key =>
  match s.objects.get (objectKey codec key) with
  | some object => if object.key = key then object.uniqueValues json s.indexDefinitions else []
  | none => []

variable {key : ObjectKey} {value : UniqueKey}

theorem mem_held (hplaced : Placed codec keys s) :
    value ∈ held codec json s key ↔
      ∃ object ∈ s.stored, object.key = key ∧ value ∈ object.uniqueValues json s.indexDefinitions := by
  constructor
  · intro h
    cases hget : s.objects.get (objectKey codec key) with
    | none => simp [held, hget] at h
    | some object =>
      by_cases hkey : object.key = key
      · exact ⟨object, mem_stored.mpr ⟨_, hget⟩, hkey, by simpa [held, hget, hkey] using h⟩
      · simp [held, hget, hkey] at h
  · rintro ⟨object, hstored, rfl, hvalue⟩
    obtain ⟨place, hplace⟩ := mem_stored.mp hstored
    obtain ⟨rfl, -⟩ := hplaced place object hplace
    simpa [held, hplace] using hvalue

theorem unique_iff_exclusive (hplaced : Placed codec keys s) : s.Unique json ↔ Exclusive (held codec json s) := by
  rw [unique_iff]
  constructor
  · intro h a b value ha hb
    obtain ⟨first, hfirst, rfl, hvalue⟩ := (mem_held hplaced).mp ha
    obtain ⟨second, hsecond, rfl, hother⟩ := (mem_held hplaced).mp hb
    exact h first hfirst second hsecond value hvalue hother
  · intro h a ha b hb value hvalue hother
    exact h a.key b.key value ((mem_held hplaced).mpr ⟨a, ha, rfl, hvalue⟩)
      ((mem_held hplaced).mpr ⟨b, hb, rfl, hother⟩)

theorem held_congr {t : ObjectState} (hobjects : s.objects = t.objects)
    (hdefinitions : s.indexDefinitions = t.indexDefinitions) : held codec json s = held codec json t := by
  funext key
  rw [held, held, hobjects, hdefinitions]

theorem held_writeObject (hinj : Set.InjOn (objectKey codec) keys) (hplaced : Placed codec keys s)
    (hkey : object.key ∈ keys) :
    held codec json (writeObject codec now s object).2 =
      Function.update (held codec json s) object.key (object.uniqueValues json s.indexDefinitions) := by
  have hdefinitions : (writeObject codec now s object).2.indexDefinitions = s.indexDefinitions := rfl
  funext key
  rw [held, get_writeObject_objects, hdefinitions]
  by_cases hsame : key = object.key
  · subst hsame
    simp
  · rw [Function.update_of_ne hsame]
    by_cases hplace : objectKey codec key = objectKey codec object.key
    · -- Another key with the same storage key holds nothing, before and after.
      rw [held, hplace]
      cases hget : s.objects.get (objectKey codec object.key) with
      | none => simp [Ne.symm hsame]
      | some old =>
        obtain ⟨hold, hmem⟩ := hplaced _ old hget
        have holdkey : old.key = object.key := hinj hmem hkey hold.symm
        simp [holdkey, Ne.symm hsame]
    · rw [if_neg hplace, held]

theorem placed_writeObject (hplaced : Placed codec keys s) (hkey : object.key ∈ keys) :
    Placed codec keys (writeObject codec now s object).2 := by
  intro place other hother
  rw [get_writeObject_objects] at hother
  split_ifs at hother with hplace
  · obtain rfl := Option.some.inj hother
    exact ⟨hplace, hkey⟩
  · exact hplaced place other hother

theorem placed_writeObjects (hplaced : Placed codec keys s) (hkeys : ∀ object ∈ objects, object.key ∈ keys) :
    Placed codec keys (writeObjects codec now s objects).2 := by
  induction objects using List.reverseRecOn with
  | nil => exact hplaced
  | append_singleton objects object ih =>
    rw [writeObjects_concat]
    exact placed_writeObject (ih fun other hother => hkeys other (List.mem_append_left _ hother))
      (hkeys object (by simp))

theorem get_place_key (hinj : Set.InjOn (objectKey codec) keys) (hplaced : Placed codec keys s) (hkey : key ∈ keys)
    {old : MemoryObject} (hold : s.objects.get (objectKey codec key) = some old) : old.key = key := by
  obtain ⟨hplace, hmem⟩ := hplaced _ old hold
  exact hinj hmem hkey hplace.symm

variable (json) in
theorem held_eq_of_get (hinj : Set.InjOn (objectKey codec) keys) (hplaced : Placed codec keys s) (hkey : key ∈ keys) :
    held codec json s key = (s.objects.get (objectKey codec key)).elim []
      fun old => old.uniqueValues json s.indexDefinitions := by
  cases hget : s.objects.get (objectKey codec key) with
  | none => simp [held, hget]
  | some old => simp [held, hget, get_place_key hinj hplaced hkey hget]

theorem updateUniqueIndexCacheForObject_values {previous : Option MemoryObject}
    (hcomplete : s.uniqueIndexCacheComplete = true) (hprevious : ∀ old ∈ previous, old.key = object.key) :
    (s.updateUniqueIndexCacheForObject json object previous).uniqueIndexValues =
      reindex s.uniqueIndexValues (previous.elim [] fun old => old.uniqueValues json s.indexDefinitions) object.key
        (object.uniqueValues json s.indexDefinitions) := by
  funext value
  rw [reindex]
  have hold : value ∈ (previous.elim [] fun old => old.uniqueValues json s.indexDefinitions) ↔
      ∃ old ∈ previous, ∃ index ∈ uniqueDefinitions s.indexDefinitions object.key.collection,
        index.Holds json old.body value := by
    cases previous with
    | none => simp
    | some old =>
      have hkey := hprevious old rfl
      simp [MemoryObject.uniqueValues, mem_uniqueValues_iff_holds, hkey]
  cases hunique : hasUniqueIndexes s.indexDefinitions with
  | false =>
    have hnone (object : MemoryObject) : object.uniqueValues json s.indexDefinitions = [] :=
      uniqueValues_nil_of_not_hasUniqueIndexes hunique
    rw [updateUniqueIndexCacheForObject, if_pos (by simp [hunique])]
    cases previous <;> simp [hnone]
  | true =>
    rw [updateUniqueIndexCacheForObject, if_neg (by simp [hunique, hcomplete])]
    refine (foldl_replaceValue previous _ _ value).trans ?_
    simp only [hold]
    simp only [MemoryObject.uniqueValues, mem_uniqueValues_iff_holds]

def valueWrite (json : JsonReader) (s : ObjectState) (object : MemoryObject) : ObjectKey × List UniqueKey :=
  (object.key, object.uniqueValues json s.indexDefinitions)

section

variable (hinj : Set.InjOn (objectKey codec) keys) (hplaced : Placed codec keys s)
  (hkeys : ∀ object ∈ objects, object.key ∈ keys)
include hinj hplaced hkeys

theorem held_writeObjects :
    held codec json (writeObjects codec now s objects).2 =
      ((objects.map (valueWrite json s)).foldl step (held codec json s, s.uniqueIndexValues)).1 := by
  induction objects using List.reverseRecOn with
  | nil => rfl
  | append_singleton objects object ih =>
    have hbefore : ∀ other ∈ objects, other.key ∈ keys :=
      fun other hother => hkeys other (List.mem_append_left _ hother)
    rw [writeObjects_concat, held_writeObject hinj (placed_writeObjects hplaced hbefore) (hkeys object (by simp)),
      ih hbefore, indexDefinitions_writeObjects, List.map_append, List.foldl_append]
    rfl

theorem foldl_update_values {start : ObjectState} (hdefinitions : start.indexDefinitions = s.indexDefinitions)
    (hcache : start.uniqueIndexValues = s.uniqueIndexValues) (hcomplete : start.uniqueIndexCacheComplete = true) :
    ((objects.foldl (extendBatch codec now s) []).foldl
      (fun t entry => t.updateUniqueIndexCacheForObject json entry.1 entry.2) start).uniqueIndexValues =
        ((objects.map (valueWrite json s)).foldl step (held codec json s, s.uniqueIndexValues)).2 := by
  induction objects using List.reverseRecOn with
  | nil => exact hcache
  | append_singleton objects object ih =>
    have hbefore : ∀ other ∈ objects, other.key ∈ keys :=
      fun other hother => hkeys other (List.mem_append_left _ hother)
    have hkey : object.key ∈ keys := hkeys object (by simp)
    have hwritten : Placed codec keys (writeObjects codec now s objects).2 := placed_writeObjects hplaced hbefore
    have helim := held_eq_of_get json hinj hwritten hkey
    rw [held_writeObjects hinj hplaced hbefore, indexDefinitions_writeObjects] at helim
    obtain ⟨-, -, -, hsame, hstill⟩ := foldl_update_data (objects.foldl (extendBatch codec now s) []) start
    rw [foldl_extendBatch_concat, extendBatch, previousInBatch_eq_get, inserted_eq_writeObjects.2, List.foldl_append,
      List.map_append, List.foldl_append]
    refine (updateUniqueIndexCacheForObject_values (hstill.trans hcomplete) ?_).trans ?_
    · intro old hold
      exact get_place_key hinj hwritten hkey hold
    · rw [hsame, hdefinitions, ih hbefore, ← helim]
      rfl

end

structure Indexed (codec : StorageCodec) (json : JsonReader) (keys : Set ObjectKey) (s : ObjectState) : Prop where
  placed : Placed codec keys s
  definitions : s.indexDefinitions = loadIndexDefinitions s.indexes
  exclusive : Exclusive (held codec json s)
  exact : s.uniqueIndexCacheComplete = true → Exact (held codec json s) s.uniqueIndexValues

theorem available_of_exact (h : Exact (held codec json s) s.uniqueIndexValues)
    (hcomplete : s.uniqueIndexCacheComplete = true) (hvalid : s.validateUniqueIndexes codec json object = .ok ()) :
    ∀ value ∈ object.uniqueValues json s.indexDefinitions, ∀ other, value ∈ held codec json s other →
      other = object.key := by
  intro value hvalue other hother
  obtain ⟨index, hindex, field, hfield, rfl⟩ := mem_uniqueValues.mp hvalue
  have htaken := (validateUniqueIndexes_eq_ok.mp hvalid).2 index hindex field hfield
  rw [valueTaken, if_pos hcomplete, (h _ other).mpr hother] at htaken
  simpa using htaken

theorem mem_listObjects (hplaced : Placed codec keys s) (hstored : object ∈ s.stored) :
    object ∈ s.listObjects codec object.key.collection := by
  obtain ⟨place, hplace⟩ := mem_stored.mp hstored
  obtain ⟨rfl, -⟩ := hplaced place object hplace
  refine List.mem_map.mpr ⟨(_, object), SortedMap.mem_withPrefix.mpr ⟨hplace, ?_⟩, rfl⟩
  exact LogicalRecord.scopePrefix_isPrefix codec (.object object.key.collection object.key.id)

theorem available_of_storedClear (hplaced : Placed codec keys s) (h : StoredClear codec json s object) :
    ∀ value ∈ object.uniqueValues json s.indexDefinitions, ∀ other, value ∈ held codec json s other →
      other = object.key := by
  rintro ⟨name, field, value⟩ hvalue other hother
  obtain ⟨existing, hstored, rfl, hheld⟩ := (mem_held hplaced).mp hother
  obtain ⟨⟨index, hindex, hunique, hcollection, rfl⟩, rfl, hfield⟩ := mem_uniqueValues_iff.mp hvalue
  obtain ⟨-, hname, hexisting⟩ := mem_uniqueValues_iff.mp hheld
  by_contra hne
  have hlisted := mem_listObjects hplaced hstored
  rw [← hname] at hlisted
  exact h index (mem_uniqueDefinitions.mpr ⟨hindex, hunique, hcollection⟩) value hfield existing hlisted hne hexisting

theorem available_of_valid (h : Indexed codec json keys s)
    (hvalid : s.validateUniqueIndexes codec json object = .ok ()) :
    ∀ value ∈ object.uniqueValues json s.indexDefinitions, ∀ other, value ∈ held codec json s other →
      other = object.key := by
  cases hcomplete : s.uniqueIndexCacheComplete with
  | true => exact available_of_exact (h.exact hcomplete) hcomplete hvalid
  | false =>
    have hclear := (valueTaken_of_incomplete hcomplete).mp (validateUniqueIndexes_eq_ok.mp hvalid).2
    exact available_of_storedClear h.placed hclear

structure Wrote (codec : StorageCodec) (json : JsonReader) (s : ObjectState) (objects : List MemoryObject)
    (next : ObjectState) : Prop where
  placed : ∀ keys, Placed codec keys s → (∀ object ∈ objects, object.key ∈ keys) → Placed codec keys next
  indexes : next.indexes = s.indexes
  definitions : next.indexDefinitions = s.indexDefinitions
  complete : next.uniqueIndexCacheComplete = s.uniqueIndexCacheComplete
  held : ∀ keys, Set.InjOn (objectKey codec) keys → Placed codec keys s → (∀ object ∈ objects, object.key ∈ keys) →
    ObjectState.held codec json next =
      ((objects.map (valueWrite json s)).foldl step (ObjectState.held codec json s, s.uniqueIndexValues)).1
  values : ∀ keys, Set.InjOn (objectKey codec) keys → Placed codec keys s → (∀ object ∈ objects, object.key ∈ keys) →
    s.uniqueIndexCacheComplete = true → next.uniqueIndexValues =
      ((objects.map (valueWrite json s)).foldl step (ObjectState.held codec json s, s.uniqueIndexValues)).2

theorem wrote_of_fold (now : Bytes) (start : ObjectState) {next : ObjectState}
    (hobjects : start.objects = (writeObjects codec now s objects).2.objects) (hindexes : start.indexes = s.indexes)
    (hdefinitions : start.indexDefinitions = s.indexDefinitions)
    (hcache : start.uniqueIndexValues = s.uniqueIndexValues)
    (hcomplete : start.uniqueIndexCacheComplete = s.uniqueIndexCacheComplete)
    (hnext : next = (objects.foldl (extendBatch codec now s) []).foldl
      (fun s entry => s.updateUniqueIndexCacheForObject json entry.1 entry.2) start) :
    Wrote codec json s objects next := by
  obtain ⟨hsame, -, hsameIndexes, hsameDefinitions, hsameComplete⟩ : next.objects = _ ∧ next.vectors = _ ∧
      next.indexes = _ ∧ next.indexDefinitions = _ ∧ next.uniqueIndexCacheComplete = _ :=
        hnext ▸ foldl_update_data _ start
  have hwritten : next.objects = (writeObjects codec now s objects).2.objects := hsame.trans hobjects
  refine ⟨?_, hsameIndexes.trans hindexes, hsameDefinitions.trans hdefinitions, hsameComplete.trans hcomplete, ?_, ?_⟩
  · intro keys hplaced hkeys place object hobject
    rw [hwritten] at hobject
    exact placed_writeObjects hplaced hkeys place object hobject
  · intro keys hinj hplaced hkeys
    rw [← held_writeObjects hinj hplaced hkeys]
    exact held_congr hwritten ((hsameDefinitions.trans hdefinitions).trans indexDefinitions_writeObjects.symm)
  · intro keys hinj hplaced hkeys hstill
    rw [hnext]
    exact foldl_update_values hinj hplaced hkeys hdefinitions hcache (hcomplete.trans hstill)

theorem updateUniqueIndexCacheForObject_previous (s : ObjectState) (previous : Option MemoryObject) :
    s.updateUniqueIndexCacheForObject json object (if hasUniqueIndexes s.indexDefinitions then previous else none) =
      s.updateUniqueIndexCacheForObject json object previous := by
  cases hunique : hasUniqueIndexes s.indexDefinitions with
  | true => rfl
  | false => simp [updateUniqueIndexCacheForObject, hunique]

variable {result : MemoryObject × ObjectState}

theorem wrote_putObject (hresult : s.putObject codec json now object = .ok result) :
    s.validateUniqueIndexes codec json object = .ok () ∧ Wrote codec json s [object] result.2 := by
  rw [putObject_eq_writeObject] at hresult
  cases hvalid : s.validateUniqueIndexes codec json object with
  | error failure => simp [hvalid, bind, Except.bind] at hresult
  | ok done =>
    rw [hvalid] at hresult
    obtain rfl := Except.ok.inj hresult
    refine ⟨rfl, wrote_of_fold now (writeObject codec now s object).2 rfl rfl rfl rfl rfl ?_⟩
    exact updateUniqueIndexCacheForObject_previous (writeObject codec now s object).2 _

theorem wrote_putObjectsBatch {result : List MemoryObject × ObjectState}
    (hresult : s.putObjectsBatch codec json now objects = .ok result) :
    ((∀ object ∈ objects, scanCheck codec json s object = .ok ()) ∧ Clear codec json s objects) ∧
      Wrote codec json s objects result.2 := by
  obtain ⟨hchecks, rfl⟩ := putObjectsBatch_eq_ok.mp hresult
  exact ⟨hchecks, wrote_of_fold now { s with
    objects := inserted codec s (objects.foldl (extendBatch codec now s) [])
    vectors := batchVectors codec now s objects } inserted_eq_writeObjects.2 rfl rfl rfl rfl rfl⟩

theorem Indexed.of_wrote (hinj : Set.InjOn (objectKey codec) keys) (h : Indexed codec json keys s)
    (hkeys : ∀ object ∈ objects, object.key ∈ keys) {next : ObjectState} (hwrote : Wrote codec json s objects next)
    (hexclusive : Exclusive ((objects.map (valueWrite json s)).foldl step (held codec json s, s.uniqueIndexValues)).1)
    (hexact : s.uniqueIndexCacheComplete = true →
      Exact ((objects.map (valueWrite json s)).foldl step (held codec json s, s.uniqueIndexValues)).1
        ((objects.map (valueWrite json s)).foldl step (held codec json s, s.uniqueIndexValues)).2) :
    Indexed codec json keys next := by
  have hheld := hwrote.held keys hinj h.placed hkeys
  refine ⟨hwrote.placed keys h.placed hkeys, ?_, hheld ▸ hexclusive, ?_⟩
  · rw [hwrote.definitions, hwrote.indexes, h.definitions]
  · intro hcomplete
    have hbefore := hwrote.complete.symm.trans hcomplete
    rw [hheld, hwrote.values keys hinj h.placed hkeys hbefore]
    exact hexact hbefore

theorem Indexed.putObject (hinj : Set.InjOn (objectKey codec) keys) (h : Indexed codec json keys s)
    (hkey : object.key ∈ keys) (hresult : s.putObject codec json now object = .ok result) :
    Indexed codec json keys result.2 := by
  obtain ⟨hvalid, hwrote⟩ := wrote_putObject hresult
  have hfree := available_of_valid h hvalid
  apply h.of_wrote hinj (by simpa using hkey) hwrote
  · exact h.exclusive.update hfree
  · exact fun hcomplete => (h.exact hcomplete).reindex hfree

def TakesInOrder (codec : StorageCodec) (json : JsonReader) (s : ObjectState) (objects : List MemoryObject) : Prop :=
  ∀ before object after, objects = before ++ object :: after → object.key ∉ after.map MemoryObject.key →
    ∀ other ∈ after, other.key ∉ before.map MemoryObject.key →
      ∀ old, s.objects.get (objectKey codec other.key) = some old →
        ∀ value ∈ object.uniqueValues json s.indexDefinitions, value ∉ old.uniqueValues json s.indexDefinitions

theorem inOrder_of_takesInOrder (hinj : Set.InjOn (objectKey codec) keys) (hplaced : Placed codec keys s)
    (hkeys : ∀ object ∈ objects, object.key ∈ keys) (h : TakesInOrder codec json s objects) :
    InOrder (held codec json s) (objects.map (valueWrite json s)) := by
  intro before write after hwrites hlast value hvalue other hother hnot hheld
  obtain ⟨front, rest, rfl, rfl, hrest⟩ := List.map_eq_append_iff.mp hwrites
  obtain ⟨object, later, rfl, rfl, rfl⟩ := List.map_eq_cons_iff.mp hrest
  obtain ⟨element, helement, rfl⟩ := List.mem_map.mp hother
  have hmap (l : List MemoryObject) : (l.map (valueWrite json s)).map Prod.fst = l.map MemoryObject.key := by
    rw [List.map_map]
    rfl
  rw [hmap] at hlast hnot
  change value ∈ held codec json s element.key at hheld
  rw [held_eq_of_get json hinj hplaced (hkeys element (by simp [helement]))] at hheld
  cases hget : s.objects.get (objectKey codec element.key) with
  | none => simp [hget] at hheld
  | some old =>
    rw [hget] at hheld
    exact h front object later rfl hlast element helement hnot old hget value hvalue hheld

theorem agree_of_clear (h : Clear codec json s objects) :
    ∀ a ∈ objects.map (valueWrite json s), ∀ b ∈ objects.map (valueWrite json s), ∀ value ∈ a.2, value ∈ b.2 →
      a.1 = b.1 := by
  intro a ha b hb value hvalue hother
  obtain ⟨first, hfirst, rfl⟩ := List.mem_map.mp ha
  obtain ⟨second, hsecond, rfl⟩ := List.mem_map.mp hb
  exact h.elements first hfirst second hsecond value hvalue hother

theorem Indexed.putObjectsBatch (hinj : Set.InjOn (objectKey codec) keys) (h : Indexed codec json keys s)
    (hkeys : ∀ object ∈ objects, object.key ∈ keys) {result : List MemoryObject × ObjectState}
    (hresult : s.putObjectsBatch codec json now objects = .ok result)
    (horder : s.uniqueIndexCacheComplete = true → TakesInOrder codec json s objects) :
    Indexed codec json keys result.2 := by
  obtain ⟨⟨hchecks, hclear⟩, hwrote⟩ := wrote_putObjectsBatch hresult
  have hagree := agree_of_clear hclear
  have hexact (hcomplete : s.uniqueIndexCacheComplete = true) := (h.exact hcomplete).foldl hagree (by
    intro write hwrite value hvalue other hother
    obtain ⟨object, hobject, rfl⟩ := List.mem_map.mp hwrite
    rcases hclear.cached object hobject value hvalue other ((h.exact hcomplete value other).mpr hother) with heq |
      hreleased
    · exact Or.inl heq
    · obtain ⟨previous, ⟨element, helement, hget⟩, rfl, -⟩ := hreleased
      refine Or.inr (List.mem_map.mpr ⟨valueWrite json s element, List.mem_map_of_mem helement, ?_⟩)
      exact (get_place_key hinj h.placed (hkeys element helement) hget).symm)
    (inOrder_of_takesInOrder hinj h.placed hkeys (horder hcomplete))
  refine h.of_wrote hinj hkeys hwrote ?_ hexact
  cases hcomplete : s.uniqueIndexCacheComplete with
  | true => exact (hexact hcomplete).exclusive
  | false =>
    have hexclusive : Exclusive (held codec json s, s.uniqueIndexValues).1 := h.exclusive
    apply hexclusive.foldl hagree
    intro write hwrite value hvalue other hother
    obtain ⟨object, hobject, rfl⟩ := List.mem_map.mp hwrite
    exact available_of_storedClear h.placed (scanChecks_iff.mp hchecks hcomplete object hobject).2 value hvalue other
      hother

section Deletes

variable {places : List Bytes} {next : ObjectState}

theorem placed_of_erased (hplaced : Placed codec keys s)
    (hobjects : next.objects = places.foldl SortedMap.erase s.objects) : Placed codec keys next := by
  intro place object hobject
  rw [hobjects, SortedMap.get_foldl_erase] at hobject
  split_ifs at hobject
  exact hplaced place object hobject

theorem mem_held_of_erased (hobjects : next.objects = places.foldl SortedMap.erase s.objects)
    (hdefinitions : next.indexDefinitions = s.indexDefinitions) :
    value ∈ held codec json next key ↔ value ∈ held codec json s key ∧ objectKey codec key ∉ places := by
  rw [held, held, hobjects, hdefinitions, SortedMap.get_foldl_erase]
  by_cases hplace : objectKey codec key ∈ places
  · simp [hplace]
  · simp [hplace]

theorem Indexed.of_erased (h : Indexed codec json keys s)
    (hobjects : next.objects = places.foldl SortedMap.erase s.objects) (hindexes : next.indexes = s.indexes)
    (hdefinitions : next.indexDefinitions = s.indexDefinitions)
    (hcomplete : next.uniqueIndexCacheComplete = s.uniqueIndexCacheComplete)
    (hvalues : s.uniqueIndexCacheComplete = true → ∀ value owner, next.uniqueIndexValues value = some owner ↔
      s.uniqueIndexValues value = some owner ∧ ∀ object ∈ places.filterMap s.objects.get, value ∉
      object.uniqueValues json s.indexDefinitions) :
    Indexed codec json keys next := by
  refine ⟨placed_of_erased h.placed hobjects, ?_, ?_, ?_⟩
  · rw [hdefinitions, hindexes, h.definitions]
  · intro a b value ha hb
    exact h.exclusive a b value ((mem_held_of_erased hobjects hdefinitions).mp ha).1
      ((mem_held_of_erased hobjects hdefinitions).mp hb).1
  · intro hstill value owner
    have hbefore := hcomplete.symm.trans hstill
    rw [hvalues hbefore, h.exact hbefore value owner, mem_held_of_erased hobjects hdefinitions]
    refine and_congr_right fun hheld => ?_
    obtain ⟨object, hstored, rfl, hvalue⟩ := (mem_held h.placed).mp hheld
    obtain ⟨place, hplace⟩ := mem_stored.mp hstored
    obtain ⟨rfl, -⟩ := h.placed place object hplace
    constructor
    · intro hnone hmem
      exact hnone object (List.mem_filterMap.mpr ⟨_, hmem, hplace⟩) hvalue
    · intro hnot other hother hothervalue
      obtain ⟨place, hmem, hget⟩ := List.mem_filterMap.mp hother
      obtain ⟨rfl, -⟩ := h.placed place other hget
      have hsame : other.key = object.key := h.exclusive _ _ value
        ((mem_held h.placed).mpr ⟨other, mem_stored.mpr ⟨_, hget⟩, rfl, hothervalue⟩) hheld
      exact hnot (hsame ▸ hmem)

variable {owner : ObjectKey}

theorem removeUniqueIndexCacheForObject_values (hcomplete : s.uniqueIndexCacheComplete = true) :
    (s.removeUniqueIndexCacheForObject json object).uniqueIndexValues value = some owner ↔
      s.uniqueIndexValues value = some owner ∧ value ∉ object.uniqueValues json s.indexDefinitions := by
  cases hunique : hasUniqueIndexes s.indexDefinitions with
  | false =>
    have hnone : object.uniqueValues json s.indexDefinitions = [] := uniqueValues_nil_of_not_hasUniqueIndexes hunique
    simp [removeUniqueIndexCacheForObject, hunique, hnone]
  | true =>
    rw [removeUniqueIndexCacheForObject, if_neg (by simp [hunique, hcomplete]), foldl_forgetValue,
      MemoryObject.uniqueValues]
    by_cases hvalue : value ∈ uniqueValues json s.indexDefinitions object.key.collection object.body <;> simp [hvalue]

theorem foldl_remove_values {deleted : List MemoryObject} (hcomplete : s.uniqueIndexCacheComplete = true) :
    (deleted.foldl (fun s object => s.removeUniqueIndexCacheForObject json object) s).uniqueIndexValues value =
      some owner ↔
      s.uniqueIndexValues value = some owner ∧
        ∀ object ∈ deleted, value ∉ object.uniqueValues json s.indexDefinitions := by
  induction deleted generalizing s with
  | nil => simp
  | cons object deleted ih =>
    obtain ⟨-, -, -, hdefinitions, hstill⟩ := removeUniqueIndexCacheForObject_objects s object
    rw [List.foldl_cons, ih (hstill.trans hcomplete), removeUniqueIndexCacheForObject_values hcomplete, hdefinitions,
      List.forall_mem_cons, and_assoc]

theorem Indexed.deleteObject (h : Indexed codec json keys s) (key : ObjectKey) :
    Indexed codec json keys (s.deleteObject codec json key).2 := by
  have hobjects : (s.deleteObject codec json key).2.objects = [objectKey codec key].foldl SortedMap.erase s.objects :=
    (deleteObject_data s key).1
  cases hget : s.objects.get (objectKey codec key) with
  | none => apply h.of_erased hobjects <;> simp [ObjectState.deleteObject, hget]
  | some object =>
    apply h.of_erased hobjects
    · simp [ObjectState.deleteObject, hget]
    · simp [ObjectState.deleteObject, hget]
    · simp [ObjectState.deleteObject, hget]
    · intro hcomplete value owner
      simp only [ObjectState.deleteObject, hget, Option.elim_some]
      rw [removeUniqueIndexCacheForObject_values (by exact hcomplete)]
      simp [hget]

theorem Indexed.deleteObjectsBatch (h : Indexed codec json keys s) (names : List ObjectKey) :
    Indexed codec json keys (s.deleteObjectsBatch codec json names).2 := by
  apply h.of_erased (deleteObjectsBatch_data names).2.1
  · simp only [ObjectState.deleteObjectsBatch, foldl_remove_data]
    split_ifs <;> rfl
  · simp only [ObjectState.deleteObjectsBatch, foldl_remove_data]
    split_ifs <;> rfl
  · simp only [ObjectState.deleteObjectsBatch, foldl_remove_data]
    split_ifs <;> rfl
  · intro hcomplete value owner
    rw [List.filterMap_map]
    simp only [ObjectState.deleteObjectsBatch]
    split_ifs
    · exact foldl_remove_values (by exact hcomplete)
    · exact foldl_remove_values hcomplete

end Deletes

end Thingd.Engine.ObjectState
