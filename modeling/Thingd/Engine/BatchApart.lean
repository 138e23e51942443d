import Thingd.Engine.UniqueRun

namespace Thingd.Engine.ObjectState

/-- The element that the list leaves under a key. -/
def lastWith (objects : List MemoryObject) (key : ObjectKey) : Option MemoryObject :=
  objects.reverse.find? fun object => object.key = key

/-- A stored object that the list leaves alone. -/
def Kept (s : ObjectState) (objects : List MemoryObject) (object : MemoryObject) : Prop :=
  object ∈ s.stored ∧ lastWith objects object.key = none

/-- Objects with different keys and a common unique value. -/
def Clash (json : JsonReader) (s : ObjectState) (a b : MemoryObject) : Prop :=
  a.key ≠ b.key ∧ ∃ value ∈ a.uniqueValues json s.indexDefinitions, value ∈ b.uniqueValues json s.indexDefinitions

variable {codec : StorageCodec} {json : JsonReader} {now : Bytes} {keys : Set ObjectKey} {s : ObjectState}
  {objects : List MemoryObject} {a b object : MemoryObject} {key : ObjectKey} {value : UniqueKey}

theorem Clash.symm (h : Clash json s a b) : Clash json s b a := by
  obtain ⟨hkey, value, hvalue, hother⟩ := h
  exact ⟨hkey.symm, value, hother, hvalue⟩

def Apart (json : JsonReader) (s : ObjectState) (objects : List MemoryObject) : Prop :=
  ∀ a ∈ objects, ∀ b, b ∈ objects ∨ Kept s objects b → ¬Clash json s a b

section Indexed

variable (hinj : Set.InjOn (objectKey codec) keys) (h : Indexed codec json keys s)
  (hkeys : ∀ object ∈ objects, object.key ∈ keys)
include hinj h hkeys

end Indexed

end Thingd.Engine.ObjectState
