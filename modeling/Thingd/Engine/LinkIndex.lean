import Thingd.Engine.Links

namespace Thingd.Engine

open Links SortedMap

namespace LinkEnd

def family : LinkEnd → Family
  | .linksFrom => .linksFrom
  | .linksTo => .linksTo

def record (place : LinkEnd) (link : Link) : LogicalRecord :=
  match place with
  | .linksFrom => .linkFrom link.fromRef link.linkType link.id
  | .linksTo => .linkTo link.toRef link.linkType link.id

def key (codec : StorageCodec) (place : LinkEnd) (link : Link) : Bytes :=
  place.makeKey codec (place.ref link) link.linkType link.id

end LinkEnd

structure LinkKeys (codec : StorageCodec) (texts : Texts) : Prop where
  linkIds : Set.InjOn codec.makeLinkIdKey texts.ids
  isolated : ∀ place : LinkEnd, KeysIsolated codec place.family texts
  numbered : ∀ number, makeLinkId number ∈ texts.ids

def Texts.Names (texts : Texts) (link : Link) : Prop :=
  link.fromRef ∈ texts.names ∧ link.toRef ∈ texts.names ∧ link.linkType ∈ texts.labels ∧ link.id ∈ texts.ids

section Keys

variable {codec : StorageCodec} {texts : Texts} {link other : Link}

theorem uses_record (h : texts.Names link) (place : LinkEnd) : texts.Uses (place.record link) := by
  obtain ⟨hfrom, hto, htype, hid⟩ := h
  cases place with
  | linksFrom =>
    refine ⟨hfrom, ?_, ?_⟩
    · rintro label ⟨⟩
      exact htype
    · rintro id ⟨⟩
      exact hid
  | linksTo =>
    refine ⟨hto, ?_, ?_⟩
    · rintro label ⟨⟩
      exact htype
    · rintro id ⟨⟩
      exact hid

theorem LinkKeys.id_of_key (hkeys : LinkKeys codec texts) (hlink : texts.Names link) (hother : texts.Names other)
    (place : LinkEnd) (h : place.key codec link = place.key codec other) : link.id = other.id := by
  have hident : (place.record link).ident = (place.record other).ident := by
    apply ((hkeys.isolated place).distinct _ _ _ _ (uses_record hlink place) (uses_record hother place) _).2
    · cases place <;> rfl
    · cases place <;> rfl
    · cases place <;> exact h
  cases place <;> exact Sum.inl.inj hident

theorem LinkKeys.isPrefix_key_iff (hkeys : LinkKeys codec texts) (hlink : texts.Names link) {reference : Bytes}
    (href : reference ∈ texts.names) (place : LinkEnd) :
    place.makePrefix codec reference <+: place.key codec link ↔ place.ref link = reference := by
  have hselects := (hkeys.isolated place).selects reference href (place.record link) (by cases place <;> rfl)
    (uses_record hlink place)
  cases place <;> exact hselects

end Keys

namespace LinkStore

variable {codec : StorageCodec} {texts : Texts} {store : LinkStore} {link : Link} {place : LinkEnd}

def Holds (codec : StorageCodec) (store : LinkStore) (link : Link) : Prop := getLink codec store link.id = some link

/-- Every link is found from both ends, and an entry whose link is stored is one of that link's own. The entries of a
link that is no longer stored may still be there. -/
structure Indexed (codec : StorageCodec) (texts : Texts) (store : LinkStore) : Prop where
  keyed : ∀ key link, store.linksById.get key = some link → key = codec.makeLinkIdKey link.id ∧ texts.Names link
  complete : ∀ link, store.Holds codec link →
    ∀ place, (store.index place).get (place.key codec link) = some (some link.id)
  sound : ∀ place key value, (store.index place).get key = some value →
    ∃ id ∈ texts.ids, value = some id ∧ ∀ link, store.Holds codec link → link.id = id → key = place.key codec link

theorem indexed_empty : Indexed codec texts empty := by
  constructor
  · rintro key link ⟨⟩
  · rintro link ⟨⟩
  · rintro place key value ⟨⟩

theorem Indexed.holds_of_getLink (hkeys : LinkKeys codec texts) (h : Indexed codec texts store) {id : Bytes}
    (hid : id ∈ texts.ids) (hget : getLink codec store id = some link) : link.id = id ∧ store.Holds codec link := by
  obtain ⟨hkey, -, -, -, hlink⟩ := h.keyed _ link hget
  obtain rfl := hkeys.linkIds hid hlink hkey
  exact ⟨rfl, hget⟩

theorem Indexed.names (h : Indexed codec texts store) (hlink : store.Holds codec link) :
    texts.Names link := (h.keyed _ link hlink).2

theorem index_write_entry (store : LinkStore) (place : LinkEnd) (key id : Bytes) (other : LinkEnd) (key' : Bytes) :
    ((store.write (.insertEntry place key id)).index other).get key' =
      if other = place ∧ key' = key then some (some id) else (store.index other).get key' := by
  by_cases hplace : other = place
  · subst hplace
    simp only [write, Function.update_self, get_insert, true_and]
    split_ifs <;> rfl
  · rw [if_neg fun hboth => hplace hboth.1]
    simp only [write, Function.update_of_ne hplace]

theorem index_write_removal (store : LinkStore) (place : LinkEnd) (key : Bytes) (other : LinkEnd) (key' : Bytes) :
    ((store.write (.removeEntry place key)).index other).get key' =
      if other = place ∧ key' = key then none else (store.index other).get key' := by
  by_cases hplace : other = place
  · subst hplace
    simp only [write, Function.update_self, get_erase, true_and]
    split_ifs <;> rfl
  · rw [if_neg fun hboth => hplace hboth.1]
    simp only [write, Function.update_of_ne hplace]

def Clear (store : LinkStore) (id : Bytes) : Prop := ∀ place key, (store.index place).get key ≠ some (some id)

theorem get_linkWrites (codec : StorageCodec) (store : LinkStore) (link : Link) (key : Bytes) :
    (store.writeAll (Links.linkWrites codec link)).linksById.get key =
      if key = codec.makeLinkIdKey link.id then some link else store.linksById.get key := by
  have hstored : (store.writeAll (Links.linkWrites codec link)).linksById =
    store.linksById.insert (codec.makeLinkIdKey link.id) link := rfl
  rw [hstored, get_insert]
  split_ifs <;> rfl

theorem holds_linkWrites {other : Link} (h : (store.writeAll (Links.linkWrites codec link)).Holds codec other) :
    other = link ∨ store.Holds codec other := by
  rw [Holds, getLink, get_linkWrites] at h
  split_ifs at h
  · exact Or.inl (Option.some.inj h).symm
  · exact Or.inr h

theorem get_unlinkWrites {id key : Bytes} {other : Link} {n : ℕ}
    (h : (store.writeAll ((Links.unlinkWrites codec link id).take n)).linksById.get key = some other) :
    store.linksById.get key = some other := by
  have herase : (store.linksById.erase (codec.makeLinkIdKey id)).get key = some other →
    store.linksById.get key = some other := by
    rw [get_erase]
    split_ifs
    · rintro ⟨⟩
    · exact fun hget => hget
  rcases n with _ | _ | _ | n
  · exact h
  · exact herase h
  · exact herase h
  · rw [List.take_of_length_le (by simp [Links.unlinkWrites])] at h
    exact herase h

theorem Indexed.linkWrites (hkeys : LinkKeys codec texts) (h : Indexed codec texts store) (hnamed : texts.Names link)
    (hnew : getLink codec store link.id = none) (hclear : store.Clear link.id) :
    Indexed codec texts (store.writeAll (Links.linkWrites codec link)) := by
  have hindex : ∀ place key, ((store.writeAll (Links.linkWrites codec link)).index place).get key =
      if key = place.key codec link then some (some link.id) else (store.index place).get key := by
    intro place key
    simp only [writeAll, Links.linkWrites, List.foldl_cons, List.foldl_nil, index_write_entry]
    cases place <;> simp only [LinkEnd.key, reduceCtorEq, false_and, true_and] <;> rfl
  constructor
  · intro key other hkey
    rw [get_linkWrites] at hkey
    split_ifs at hkey with hsame
    · obtain rfl := Option.some.inj hkey
      exact ⟨hsame, hnamed⟩
    · exact h.keyed key other hkey
  · intro other hother place
    rw [hindex]
    split_ifs with hsame
    · rcases holds_linkWrites hother with rfl | hold
      · rfl
      · rw [hkeys.id_of_key (h.names hold) hnamed place hsame]
    · rcases holds_linkWrites hother with rfl | hold
      · exact absurd rfl hsame
      · exact h.complete other hold place
  · intro place key value hvalue
    rw [hindex] at hvalue
    split_ifs at hvalue with hsame
    · refine ⟨link.id, hnamed.2.2.2, (Option.some.inj hvalue).symm, ?_⟩
      intro other hother hid
      rcases holds_linkWrites hother with rfl | hold
      · exact hsame
      · rw [Holds, hid, hnew] at hold
        cases hold
    · obtain ⟨id, hid, rfl, hlink⟩ := h.sound place key value hvalue
      refine ⟨id, hid, rfl, ?_⟩
      intro other hother hsame'
      rcases holds_linkWrites hother with rfl | hold
      · rw [hsame'] at hclear
        exact absurd hvalue (hclear place key)
      · exact hlink other hold hsame'

theorem Indexed.removeLink (h : Indexed codec texts store) (key : Bytes) :
    Indexed codec texts (store.write (.removeLink key)) := by
  have hheld : ∀ key' link, (store.write (.removeLink key)).linksById.get key' = some link →
    store.linksById.get key' = some link := by
    intro key' link hget
    rw [write, get_erase] at hget
    split_ifs at hget
    exact hget
  constructor
  · intro key' link hget
    exact h.keyed key' link (hheld key' link hget)
  · intro link hlink
    exact h.complete link (hheld _ link hlink)
  · intro place key' value hvalue
    obtain ⟨id, hid, hsome, hown⟩ := h.sound place key' value hvalue
    exact ⟨id, hid, hsome, fun link hlink => hown link (hheld _ link hlink)⟩

theorem Indexed.removeEntry (h : Indexed codec texts store) {key : Bytes}
    (hother : ∀ link, store.Holds codec link → place.key codec link ≠ key) :
    Indexed codec texts (store.write (.removeEntry place key)) := by
  constructor
  · exact h.keyed
  · intro link hlink other
    rw [index_write_removal, if_neg]
    · exact h.complete link hlink other
    · rintro ⟨rfl, hsame⟩
      exact hother link hlink hsame
  · intro other key' value hvalue
    rw [index_write_removal] at hvalue
    split_ifs at hvalue
    exact h.sound other key' value hvalue

theorem Indexed.unlinkWrites (hkeys : LinkKeys codec texts) (h : Indexed codec texts store)
    (hlink : store.Holds codec link) (n : ℕ) :
    Indexed codec texts (store.writeAll ((Links.unlinkWrites codec link link.id).take n)) := by
  have hremoved := h.removeLink (codec.makeLinkIdKey link.id)
  have hnamed := h.names hlink
  -- once the link is gone, no stored link has its id
  have hgone : ∀ place other, (store.write (.removeLink (codec.makeLinkIdKey link.id))).Holds codec other →
      LinkEnd.key codec place other ≠ place.key codec link := by
    intro place other hother hsame
    rw [Holds, getLink, hkeys.id_of_key (hremoved.names hother) hnamed place hsame, write, get_erase,
      if_pos rfl] at hother
    cases hother
  have hfrom := @Indexed.removeEntry codec texts _ .linksFrom hremoved _ (hgone .linksFrom)
  rcases n with _ | _ | _ | n
  · exact h
  · exact hremoved
  · exact hfrom
  · rw [List.take_of_length_le (by simp [Links.unlinkWrites])]
    exact @Indexed.removeEntry codec texts _ .linksTo hfrom _ (hgone .linksTo)

section Neighbors

variable {reference : Bytes} {options : LinkQueryOptions}

section

variable (hkeys : LinkKeys codec texts) (h : Indexed codec texts store)
include hkeys h

theorem Indexed.entry_of_neighbor {entry : Bytes × Option Bytes}
    (hentry : entry ∈ (store.index place).withPrefix (place.makePrefix codec reference))
    (hlink : (getLink codec store (entryLinkId entry.1 entry.2)).filter options.admits = some link) :
    store.Holds codec link ∧ entry.1 = place.key codec link ∧ options.admits link = true := by
  obtain ⟨hmem, -⟩ := mem_withPrefix.mp hentry
  obtain ⟨id, hid, hvalue, hown⟩ := h.sound place entry.1 entry.2 hmem
  obtain ⟨hget, hadmits⟩ := Option.filter_eq_some_iff.mp hlink
  rw [hvalue] at hget
  obtain ⟨hsame, hholds⟩ := h.holds_of_getLink hkeys hid hget
  exact ⟨hholds, hown link hholds hsame, hadmits⟩

theorem Indexed.mem_neighborsAt (href : reference ∈ texts.names) :
    link ∈ neighborsAt codec store options place reference ↔
      store.Holds codec link ∧ place.ref link = reference ∧ options.admits link = true := by
  rw [neighborsAt, List.mem_filterMap]
  constructor
  · rintro ⟨entry, hentry, hlink⟩
    obtain ⟨hholds, hkey, hadmits⟩ := h.entry_of_neighbor hkeys hentry hlink
    have hstarts := (mem_withPrefix.mp hentry).2
    rw [hkey] at hstarts
    exact ⟨hholds, (hkeys.isPrefix_key_iff (h.names hholds) href place).mp hstarts, hadmits⟩
  · rintro ⟨hholds, hreference, hadmits⟩
    refine ⟨(place.key codec link, some link.id), mem_withPrefix.mpr ⟨?_, ?_⟩, ?_⟩
    · exact h.complete link hholds place
    · exact (hkeys.isPrefix_key_iff (h.names hholds) href place).mpr hreference
    · exact Option.filter_eq_some_iff.mpr ⟨hholds, hadmits⟩

theorem Indexed.nodup_neighborsAt (place : LinkEnd) (reference : Bytes) (options : LinkQueryOptions) :
    (neighborsAt codec store options place reference).Nodup := by
  rw [neighborsAt, List.Nodup, List.pairwise_filterMap]
  apply ((store.index place).withPrefix_sorted (place.makePrefix codec reference)).imp_of_mem
  intro entry later hentry hlater hlt link hlink other hother hsame
  subst hsame
  rw [(h.entry_of_neighbor hkeys hentry hlink).2.1, (h.entry_of_neighbor hkeys hlater hother).2.1] at hlt
  exact lt_irrefl _ hlt

end

def Incident (direction : LinkDirection) (reference : Bytes) (link : Link) : Prop :=
  (direction ≠ .incoming ∧ link.fromRef = reference) ∨ (direction ≠ .outgoing ∧ link.toRef = reference)

/-- The neighbors of the reference are the stored links incident to it, up to the limit; each comes once unless it leads
back to the reference and both directions are asked for. -/
def NeighborsExact (codec : StorageCodec) (store : LinkStore) (reference : Bytes) (direction : LinkDirection)
    (options : LinkQueryOptions) : Prop :=
  ∃ links, Links.getNeighbors codec store reference direction options = options.limit.elim links links.take ∧
    (∀ link, link ∈ links ↔ store.Holds codec link ∧ Incident direction reference link ∧ options.admits link = true) ∧
    (links.Nodup ↔ direction = .both →
      ∀ link, store.Holds codec link → options.admits link = true → link.fromRef = reference → link.toRef ≠ reference)

theorem Indexed.getNeighbors (hkeys : LinkKeys codec texts) (h : Indexed codec texts store)
    (href : reference ∈ texts.names) (direction : LinkDirection) (options : LinkQueryOptions) :
    NeighborsExact codec store reference direction options := by
  have hfrom := fun link => @Indexed.mem_neighborsAt codec texts store link .linksFrom reference options hkeys h href
  have hto := fun link => @Indexed.mem_neighborsAt codec texts store link .linksTo reference options hkeys h href
  refine ⟨_, rfl, ?_, ?_⟩
  · cases direction <;> simp [Incident, hfrom, hto, LinkEnd.ref]
    tauto
  · cases direction with
    | outgoing => simp [h.nodup_neighborsAt hkeys]
    | incoming => simp [h.nodup_neighborsAt hkeys]
    | both =>
      simp only [or_true, if_true, List.nodup_append', h.nodup_neighborsAt hkeys, true_and, true_implies]
      constructor
      · intro hdisjoint link hholds hadmits hleaves harrives
        exact hdisjoint ((hfrom link).mpr ⟨hholds, hleaves, hadmits⟩) ((hto link).mpr ⟨hholds, harrives, hadmits⟩)
      · intro hself link hleaves harrives
        obtain ⟨hholds, hreference, hadmits⟩ := (hfrom link).mp hleaves
        exact hself link hholds hadmits hreference ((hto link).mp harrives).2.1

end Neighbors

end LinkStore

end Thingd.Engine
