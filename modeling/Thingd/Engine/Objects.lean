import Thingd.Data.PrefixScan
import Thingd.Engine.Keys

namespace Thingd.Engine

def StorageCodec.makeIndexKey (codec : StorageCodec) (collection field : Bytes) : Bytes :=
  codec.encodeKey "indexes.definition" (collection ++ 0 :: field)

structure ObjectKey where
  collection : Bytes
  id : Bytes
  deriving DecidableEq

abbrev Embedding := List UInt32

structure MemoryObject where
  key : ObjectKey
  body : Bytes
  version : UInt64
  createdAt : Bytes
  updatedAt : Bytes
  vector : Option Embedding
  deriving DecidableEq

structure StoredVector where
  collection : Bytes
  id : Bytes
  vector : Embedding
  deriving DecidableEq

structure IndexDefinition where
  collection : Bytes
  field : Bytes
  unique : Bool
  deriving DecidableEq

/-- The JSON reader: an error text, or the printed value of each top-level field that is there and not null. -/
abbrev JsonReader := Bytes → Except String (Bytes → Option Bytes)

abbrev UniqueKey := Bytes × Bytes × Bytes

abbrev UniqueIndexCache := UniqueKey → Option ObjectKey

structure ObjectState where
  objects : SortedMap Bytes MemoryObject
  vectors : SortedMap Bytes StoredVector
  indexes : SortedMap Bytes IndexDefinition
  indexDefinitions : List IndexDefinition
  uniqueIndexValues : UniqueIndexCache
  uniqueIndexCacheComplete : Bool

def textOf (bytes : Bytes) : String := String.ofList (bytes.map fun byte => Char.ofNat byte.val)

namespace IndexDefinition

def uniqueCacheKey (index : IndexDefinition) (value : Bytes) : UniqueKey := (index.collection, index.field, value)

def rejectsDuplicate (index : IndexDefinition) : ThingdError :=
  .conflict ("unique index " ++ textOf index.collection ++ "." ++ textOf index.field ++ " rejects duplicate value")

def before (left right : IndexDefinition) : Bool :=
  decide (left.collection < right.collection) ||
    (decide (left.collection = right.collection) && decide (left.field ≤ right.field))

end IndexDefinition

def uniqueDefinitions (definitions : List IndexDefinition) (collection : Bytes) : List IndexDefinition :=
  definitions.filter fun index => index.unique && decide (index.collection = collection)

def hasUniqueIndexes (definitions : List IndexDefinition) : Bool := definitions.any IndexDefinition.unique

section Cache

variable (json : JsonReader)

def fieldValue (body field : Bytes) : Option Bytes :=
  match json body with
  | .error _ => none
  | .ok fields => fields field

def forgetValue (cache : UniqueIndexCache) (index : IndexDefinition) (body : Bytes) : UniqueIndexCache :=
  match fieldValue json body index.field with
  | none => cache
  | some value => Function.update cache (index.uniqueCacheKey value) none

def rememberValue (cache : UniqueIndexCache) (index : IndexDefinition) (object : MemoryObject) : UniqueIndexCache :=
  match fieldValue json object.body index.field with
  | none => cache
  | some value => Function.update cache (index.uniqueCacheKey value) (some object.key)

def replaceValue (object : MemoryObject) (previous : Option MemoryObject) (cache : UniqueIndexCache)
    (index : IndexDefinition) : UniqueIndexCache :=
  let cache := match previous with
    | some previous => forgetValue json cache index previous.body
    | none => cache
  rememberValue json cache index object

def cacheValue (fields : Bytes → Option Bytes) (owner : ObjectKey) (built : UniqueIndexCache × Bool)
    (index : IndexDefinition) : UniqueIndexCache × Bool :=
  match fields index.field with
  | none => built
  | some value =>
    let key := index.uniqueCacheKey value
    (Function.update built.1 key (some owner), built.2 && (built.1 key).isNone)

def cacheObject (indexes : List IndexDefinition) (built : UniqueIndexCache × Bool) (object : MemoryObject) :
    UniqueIndexCache × Bool :=
  match json object.body with
  | .error _ => (built.1, false)
  | .ok fields => (uniqueDefinitions indexes object.key.collection).foldl (cacheValue fields object.key) built

def buildUniqueIndexCache (objects : SortedMap Bytes MemoryObject) (indexes : SortedMap Bytes IndexDefinition) :
    UniqueIndexCache × Bool :=
  let indexes := indexes.entries.map Prod.snd
  if !hasUniqueIndexes indexes then (fun _ => none, true)
  else (objects.entries.map Prod.snd).foldl (cacheObject json indexes) (fun _ => none, true)

def loadIndexDefinitions (indexes : SortedMap Bytes IndexDefinition) : List IndexDefinition :=
  (indexes.entries.map Prod.snd).insertionSort fun left right => left.before right

namespace ObjectState

def refreshUniqueIndexCache (s : ObjectState) : ObjectState :=
  let (cache, complete) := buildUniqueIndexCache json s.objects s.indexes
  { s with
    indexDefinitions := loadIndexDefinitions s.indexes
    uniqueIndexValues := cache
    uniqueIndexCacheComplete := complete }

def updateUniqueIndexCacheForObject (s : ObjectState) (object : MemoryObject) (previous : Option MemoryObject) :
    ObjectState :=
  if !s.uniqueIndexCacheComplete || !hasUniqueIndexes s.indexDefinitions then s
  else
    { s with
      uniqueIndexValues := (uniqueDefinitions s.indexDefinitions object.key.collection).foldl
        (replaceValue json object previous) s.uniqueIndexValues }

def removeUniqueIndexCacheForObject (s : ObjectState) (object : MemoryObject) : ObjectState :=
  if !s.uniqueIndexCacheComplete || !hasUniqueIndexes s.indexDefinitions then s
  else
    { s with
      uniqueIndexValues := (uniqueDefinitions s.indexDefinitions object.key.collection).foldl
        (fun cache index => forgetValue json cache index object.body) s.uniqueIndexValues }

end ObjectState

end Cache

namespace ObjectState

section Objects

variable (codec : StorageCodec) (json : JsonReader) (now : Bytes)

def objectKey (key : ObjectKey) : Bytes := codec.makeObjectKey key.collection key.id

def vectorKey (key : ObjectKey) : Bytes := codec.makeVectorKey key.collection key.id

def listObjects (s : ObjectState) (collection : Bytes) : List MemoryObject :=
  (s.objects.withPrefix (codec.makeObjectPrefix collection)).map Prod.snd

def valueTaken (s : ObjectState) (key : ObjectKey) (index : IndexDefinition) (value : Bytes) : Bool :=
  if s.uniqueIndexCacheComplete then (s.uniqueIndexValues (index.uniqueCacheKey value)).any fun owner => owner ≠ key
  else
    (s.listObjects codec key.collection).any fun existing =>
      existing.key ≠ key && fieldValue json existing.body index.field = some value

def validateUniqueIndexes (s : ObjectState) (object : MemoryObject) : ThingdResult Unit :=
  let unique := uniqueDefinitions s.indexDefinitions object.key.collection
  if unique.isEmpty then .ok ()
  else
    match json object.body with
    | .error message => .error (.invalidInput ("invalid object JSON: " ++ message))
    | .ok fields =>
      unique.forM fun index =>
        if (fields index.field).any (s.valueTaken codec json object.key index) then .error index.rejectsDuplicate else
          .ok ()

def stamped (object : MemoryObject) (previous : Option MemoryObject) : MemoryObject :=
  { object with
    version := match previous with
      | some previous => previous.version + 1
      | none => 1
    createdAt := match previous with
      | some previous => previous.createdAt
      | none => if object.createdAt.isEmpty then now else object.createdAt
    updatedAt := now }

def storedVector (object : MemoryObject) (vector : Embedding) : StoredVector :=
  ⟨object.key.collection, object.key.id, vector⟩

def putVector (vectors : SortedMap Bytes StoredVector) (object : MemoryObject) : SortedMap Bytes StoredVector :=
  match object.vector with
  | some vector => vectors.insert (vectorKey codec object.key) (storedVector object vector)
  | none => vectors.erase (vectorKey codec object.key)

def putObject (s : ObjectState) (object : MemoryObject) : ThingdResult (MemoryObject × ObjectState) := do
  s.validateUniqueIndexes codec json object
  let key := objectKey codec object.key
  let stored := s.objects.get key
  let previous := if hasUniqueIndexes s.indexDefinitions then stored else none
  let object := stamped now object stored
  let s := { s with objects := s.objects.insert key object, vectors := putVector codec s.vectors object }
  pure (object, s.updateUniqueIndexCacheForObject json object previous)

def putObjectWithOptions (s : ObjectState) (object : MemoryObject) (expectedVersion : Option UInt64) :
    ThingdResult (MemoryObject × ObjectState) :=
  let name := textOf object.key.collection ++ "/" ++ textOf object.key.id
  let current := s.objects.get (objectKey codec object.key)
  match expectedVersion with
  | none => s.putObject codec json now object
  | some expected =>
    if expected = 0 then
      if current.isSome then .error (.conflict ("expected object '" ++ name ++ "' to be absent"))
      else s.putObject codec json now object
    else
      match current with
      | none => .error (.conflict ("object '" ++ name ++ "' does not exist"))
      | some existing =>
        if existing.version ≠ expected then
          .error (.conflict ("expected version " ++ toString expected ++ " but current version is " ++
            toString existing.version))
        else s.putObject codec json now object

def releaseValues (s : ObjectState) (virtualUnique : UniqueIndexCache) (object : MemoryObject) : UniqueIndexCache :=
  match s.objects.get (objectKey codec object.key) with
  | none => virtualUnique
  | some previous =>
    (uniqueDefinitions s.indexDefinitions previous.key.collection).foldl (fun cache index =>
      match fieldValue json previous.body index.field with
      | none => cache
      | some value =>
        let key := index.uniqueCacheKey value
        if cache key = some previous.key then Function.update cache key none else cache) virtualUnique

def reserveValue (object : MemoryObject) (cache : UniqueIndexCache) (index : IndexDefinition) :
    ThingdResult UniqueIndexCache :=
  match fieldValue json object.body index.field with
  | none => .ok cache
  | some value =>
    let key := index.uniqueCacheKey value
    if (cache key).any fun owner => owner ≠ object.key then .error index.rejectsDuplicate
    else .ok (Function.update cache key (some object.key))

abbrev Prepared := List (MemoryObject × Option MemoryObject)

def previousInBatch (s : ObjectState) (prepared : Prepared) (object : MemoryObject) : Option MemoryObject :=
  match prepared.reverse.find? fun entry => objectKey codec entry.1.key = objectKey codec object.key with
  | some entry => some entry.1
  | none => s.objects.get (objectKey codec object.key)

def prepareBatch (s : ObjectState) : List MemoryObject → UniqueIndexCache → Prepared → ThingdResult Prepared
  | [], _, prepared => .ok prepared
  | object :: objects, virtualUnique, prepared => do
    if !s.uniqueIndexCacheComplete then s.validateUniqueIndexes codec json object
    let previous := s.previousInBatch codec prepared object
    let object := stamped now object previous
    let virtualUnique ← (uniqueDefinitions s.indexDefinitions object.key.collection).foldlM (reserveValue json object)
      virtualUnique
    prepareBatch s objects virtualUnique (prepared ++ [(object, previous)])

def batchVector (vectors : SortedMap Bytes StoredVector) (entry : MemoryObject × Option MemoryObject) :
    SortedMap Bytes StoredVector :=
  match entry.1.vector with
  | some vector => vectors.insert (vectorKey codec entry.1.key) (storedVector entry.1 vector)
  | none =>
    if entry.2.any fun previous => previous.vector.isSome then vectors.erase (vectorKey codec entry.1.key) else vectors

def commitPrepared (s : ObjectState) (prepared : Prepared) : List MemoryObject × ObjectState :=
  let s := { s with
    objects := prepared.foldl (fun objects entry => objects.insert (objectKey codec entry.1.key) entry.1) s.objects
    vectors := prepared.foldl (batchVector codec) s.vectors }
  (prepared.map Prod.fst, prepared.foldl (fun s entry => s.updateUniqueIndexCacheForObject json entry.1 entry.2) s)

def putObjectsBatch (s : ObjectState) (objects : List MemoryObject) : ThingdResult (List MemoryObject × ObjectState) :=
  if objects.isEmpty then .ok ([], s)
  else do
    let virtualUnique := if hasUniqueIndexes s.indexDefinitions then
      objects.foldl (s.releaseValues codec json) s.uniqueIndexValues else fun _ => none
    let prepared ← s.prepareBatch codec json now objects virtualUnique []
    pure (s.commitPrepared codec json prepared)

def deleteObject (s : ObjectState) (key : ObjectKey) : Bool × ObjectState :=
  let existing := s.objects.get (objectKey codec key)
  let s := { s with
    objects := s.objects.erase (objectKey codec key)
    vectors := s.vectors.erase (vectorKey codec key) }
  (existing.isSome, existing.elim s (s.removeUniqueIndexCacheForObject json))

def deleteObjectsBatch (s : ObjectState) (keys : List ObjectKey) : ℕ × ObjectState :=
  let deleted := keys.filterMap fun key => s.objects.get (objectKey codec key)
  let removed := { s with
    objects := keys.foldl (fun objects key =>
      if (s.objects.get (objectKey codec key)).isSome then objects.erase (objectKey codec key) else objects) s.objects
    vectors := keys.foldl (fun vectors key => vectors.erase (vectorKey codec key)) s.vectors }
  let committed := if 0 < deleted.length then removed else s
  (deleted.length, deleted.foldl (fun s object => s.removeUniqueIndexCacheForObject json object) committed)

def duplicatedValues (index : IndexDefinition) : List MemoryObject → List Bytes → ThingdResult Unit
  | [], _ => .ok ()
  | object :: objects, values =>
    match json object.body with
    | .error message => .error (.invalidInput ("invalid object JSON: " ++ message))
    | .ok fields =>
      match fields index.field with
      | none => duplicatedValues index objects values
      | some value =>
        if values.contains value then
          .error (.conflict ("cannot create unique index " ++ textOf index.collection ++ "." ++ textOf index.field ++
            ": existing values are duplicated"))
        else duplicatedValues index objects (values ++ [value])

def createIndexDefinition (s : ObjectState) (index : IndexDefinition) : ThingdResult ObjectState :=
  if index.collection.isEmpty || index.field.isEmpty then
    .error (.invalidInput "index collection and field are required")
  else do
    if index.unique then duplicatedValues json index (s.listObjects codec index.collection) []
    let s := { s with indexes := s.indexes.insert (codec.makeIndexKey index.collection index.field) index }
    pure (s.refreshUniqueIndexCache json)

def deleteIndex (s : ObjectState) (collection field : Bytes) : Bool × ObjectState :=
  let key := codec.makeIndexKey collection field
  if (s.indexes.get key).isSome then (true, { s with indexes := s.indexes.erase key }.refreshUniqueIndexCache json)
  else (false, s)

end Objects

end ObjectState

end Thingd.Engine
