import Thingd.Data.Text
import Thingd.Engine.Events

namespace Thingd.Engine

structure Link where
  id : Bytes
  fromRef : Bytes
  linkType : Bytes
  toRef : Bytes
  weight : Option UInt64
  metadataJson : Bytes
  createdAt : Bytes
  deriving DecidableEq

inductive LinkDirection
  | outgoing
  | incoming
  | both
  deriving DecidableEq

structure LinkQueryOptions where
  linkType : Option Bytes
  limit : Option ℕ

def LinkQueryOptions.admits (options : LinkQueryOptions) (link : Link) : Bool :=
  options.linkType.all fun linkType => link.linkType = linkType

def f64Eq (a b : UInt64) : Bool :=
  a.toNat % 2 ^ 63 ≤ 0x7FF0000000000000 && b.toNat % 2 ^ 63 ≤ 0x7FF0000000000000 &&
    (a = b || (a.toNat % 2 ^ 63 = 0 && b.toNat % 2 ^ 63 = 0))

def Link.eq (link other : Link) : Bool :=
  { link with weight := none } = { other with weight := none } &&
    match link.weight, other.weight with
    | none, none => true
    | some a, some b => f64Eq a b
    | _, _ => false

inductive LinkEnd
  | linksFrom
  | linksTo
  deriving DecidableEq

namespace LinkEnd

def ref : LinkEnd → Link → Bytes
  | .linksFrom => Link.fromRef
  | .linksTo => Link.toRef

variable (codec : StorageCodec)

def makeKey : LinkEnd → Bytes → Bytes → Bytes → Bytes
  | .linksFrom => codec.makeLinkFromKey
  | .linksTo => codec.makeLinkToKey

def makePrefix : LinkEnd → Bytes → Bytes
  | .linksFrom => codec.makeLinkFromPrefix
  | .linksTo => codec.makeLinkToPrefix

end LinkEnd

def StorageCodec.makeLinkIdKey (codec : StorageCodec) (linkId : Bytes) : Bytes := codec.encodeKey "links_by_id" linkId

/-- The link keyspaces; an index entry of an older version has no value. -/
structure LinkStore where
  linksById : SortedMap Bytes Link
  index : LinkEnd → SortedMap Bytes (Option Bytes)

inductive LinkWrite
  | insertLink (key : Bytes) (link : Link)
  | removeLink (key : Bytes)
  | insertEntry (place : LinkEnd) (key : Bytes) (linkId : Bytes)
  | removeEntry (place : LinkEnd) (key : Bytes)

namespace LinkStore

def empty : LinkStore := ⟨.empty, fun _ => .empty⟩

def write (store : LinkStore) : LinkWrite → LinkStore
  | .insertLink key link => { store with linksById := store.linksById.insert key link }
  | .removeLink key => { store with linksById := store.linksById.erase key }
  | .insertEntry place key linkId =>
    { store with index := Function.update store.index place ((store.index place).insert key (some linkId)) }
  | .removeEntry place key => { store with index := Function.update store.index place ((store.index place).erase key) }

def writeAll (store : LinkStore) (writes : List LinkWrite) : LinkStore := writes.foldl write store

end LinkStore

structure LinkEffect where
  writes : List LinkWrite
  nextLinkId : UInt64

structure Links where
  store : LinkStore
  nextLinkId : UInt64

def linkIdPrefix : Bytes := bytesOf "link-"

def makeLinkId (id : UInt64) : Bytes := linkIdPrefix ++ decimal id.toNat

def linkNumber (linkId : Bytes) : Option UInt64 :=
  (stripPrefix linkIdPrefix linkId).bind fun id => (parseDecimal (2 ^ 64) id).map UInt64.ofNat

namespace Links

variable (codec : StorageCodec)

def linkWrites (link : Link) : List LinkWrite :=
  [.insertLink (codec.makeLinkIdKey link.id) link,
    .insertEntry .linksFrom (codec.makeLinkFromKey link.fromRef link.linkType link.id) link.id,
    .insertEntry .linksTo (codec.makeLinkToKey link.toRef link.linkType link.id) link.id]

def getLink (store : LinkStore) (id : Bytes) : Option Link := store.linksById.get (codec.makeLinkIdKey id)

def numbered (s : Links) (now : Bytes) (link : Link) : Link :=
  { link with
    id := makeLinkId s.nextLinkId
    createdAt := if link.createdAt.isEmpty then now else link.createdAt }

def createLink (s : Links) (now : Bytes) (link : Link) : Link × LinkEffect :=
  (s.numbered now link, ⟨linkWrites codec (s.numbered now link), s.nextLinkId + 1⟩)

/-- Where the number is the last one, the addition wraps (or panics, with overflow checks). -/
def afterImport (nextLinkId : UInt64) (link : Link) : UInt64 :=
  match linkNumber link.id with
  | some number => max nextLinkId (number + 1)
  | none => nextLinkId

def importLink (s : Links) (link : Link) : ThingdResult (Link × LinkEffect) :=
  if link.id.isEmpty then .error (.invalidInput "Link id is required for import")
  else
    match getLink codec s.store link.id with
    | some existing =>
      if existing.eq link then .ok (link, ⟨[], s.nextLinkId⟩)
      else .error (.conflict ("Link '" ++ textOf link.id ++ "' already exists with different data"))
    | none => .ok (link, ⟨linkWrites codec link, afterImport s.nextLinkId link⟩)

def unlinkWrites (link : Link) (id : Bytes) : List LinkWrite :=
  [.removeLink (codec.makeLinkIdKey id),
    .removeEntry .linksFrom (codec.makeLinkFromKey link.fromRef link.linkType id),
    .removeEntry .linksTo (codec.makeLinkToKey link.toRef link.linkType id)]

def deleteLink (s : Links) (id : Bytes) : Bool × LinkEffect :=
  match getLink codec s.store id with
  | some link => (true, ⟨unlinkWrites codec link id, s.nextLinkId⟩)
  | none => (false, ⟨[], s.nextLinkId⟩)

def entryLinkId (key : Bytes) (value : Option Bytes) : Bytes :=
  value.getD (((StorageCodec.afterNul (Utf8.lossy key)).bind StorageCodec.afterNul).getD [])

def neighborsAt (store : LinkStore) (options : LinkQueryOptions) (place : LinkEnd) (reference : Bytes) : List Link :=
  ((store.index place).withPrefix (place.makePrefix codec reference)).filterMap fun entry =>
    (getLink codec store (entryLinkId entry.1 entry.2)).filter options.admits

def getNeighbors (store : LinkStore) (reference : Bytes) (direction : LinkDirection) (options : LinkQueryOptions) :
    List Link :=
  let outgoing := if direction = .outgoing ∨
    direction = .both then neighborsAt codec store options .linksFrom reference else []
  let incoming := if direction = .incoming ∨
    direction = .both then neighborsAt codec store options .linksTo reference else []
  let results := outgoing ++ incoming
  options.limit.elim results results.take

def higherNumber (highest : UInt64) (link : Link) : UInt64 :=
  match linkNumber link.id with
  | some number => if highest < number then number else highest
  | none => highest

def openNextLinkId (store : LinkStore) : UInt64 := (store.linksById.entries.map Prod.snd).foldl higherNumber 0 + 1

end Links

end Thingd.Engine
