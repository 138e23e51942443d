import Thingd.Engine.LinkIndex

namespace Thingd.Engine

open Links LinkStore

def lastLinkNumber : UInt64 := 18446744073709551615

theorem linkNumber_makeLinkId (number : UInt64) : linkNumber (makeLinkId number) = some number := by
  rw [linkNumber, makeLinkId, stripPrefix_append, Option.bind_some, parseDecimal_decimal number.toNat_lt]
  simp

theorem lt_succ_of_le {number highest : UInt64} (hlast : highest ≠ lastLinkNumber) (h : number ≤ highest) :
    number < highest + 1 := by
  have hne : highest.toNat ≠ 18446744073709551615 := fun hsame => hlast (UInt64.toNat_inj.mp hsame)
  have hbound := highest.toNat_lt
  rw [UInt64.le_iff_toNat_le] at h
  rw [UInt64.lt_iff_toNat_lt, UInt64.toNat_add, UInt64.toNat_one]
  omega

theorem foldl_higherNumber (links : List Link) (start : UInt64) :
    start ≤ links.foldl higherNumber start ∧
      (∀ link ∈ links, ∀ number, linkNumber link.id = some number → number ≤ links.foldl higherNumber start) ∧
      (links.foldl higherNumber start = start ∨ ∃ link ∈ links,
        linkNumber link.id = some (links.foldl higherNumber start)) := by
  induction links generalizing start with
  | nil => exact ⟨UInt64.le_refl _, List.forall_mem_nil _, Or.inl rfl⟩
  | cons link links ih =>
    obtain ⟨hstart, hlinks, htop⟩ := ih (higherNumber start link)
    have hstep : start ≤ higherNumber start link ∧
      (∀ number, linkNumber link.id = some number → number ≤ higherNumber start link) ∧
        (higherNumber start link = start ∨ linkNumber link.id = some (higherNumber start link)) := by
      rw [higherNumber]
      cases linkNumber link.id with
      | none => exact ⟨UInt64.le_refl _, fun _ h => (Option.some_ne_none _ h.symm).elim, Or.inl rfl⟩
      | some number =>
        dsimp only
        split_ifs with hlt
        · exact ⟨UInt64.le_of_lt hlt, fun _ h => Option.some.inj h ▸ UInt64.le_refl _, Or.inr rfl⟩
        · exact ⟨UInt64.le_refl _, fun _ h => Option.some.inj h ▸ UInt64.not_lt.mp hlt, Or.inl rfl⟩
    refine ⟨UInt64.le_trans hstep.1 hstart, ?_, ?_⟩
    · intro other hother number hnumber
      rcases List.mem_cons.mp hother with rfl | hother
      · exact UInt64.le_trans (hstep.2.1 number hnumber) hstart
      · exact hlinks other hother number hnumber
    · rw [List.foldl_cons]
      rcases htop with htop | ⟨other, hother, htop⟩
      · rw [htop]
        rcases hstep.2.2 with hsame | hlink
        · exact Or.inl hsame
        · exact Or.inr ⟨link, List.mem_cons_self, hlink⟩
      · exact Or.inr ⟨other, List.mem_cons_of_mem _ hother, htop⟩

inductive LinkCall
  | create (now : Bytes) (link : Link)
  | importLink (link : Link)
  | delete (id : Bytes)

namespace LinkCall

variable (codec : StorageCodec) (texts : Texts)

def effect (s : Links) : LinkCall → LinkEffect
  | .create now link => (s.createLink codec now link).2
  | .importLink link => ((s.importLink codec link).toOption.map Prod.snd).getD ⟨[], s.nextLinkId⟩
  | .delete id => (s.deleteLink codec id).2

/-- The link is named by strings in use and not by the last number, no index entry is left of its id, and its three
writes are all done or none. -/
def Writable (store : LinkStore) (link : Link) (done : ℕ) : Prop :=
  texts.Names link ∧ linkNumber link.id ≠ some lastLinkNumber ∧ store.Clear link.id ∧ (done = 0 ∨ 3 ≤ done)

def Admissible (s : Links) (done : ℕ) : LinkCall → Prop
  | .create now link => Writable texts s.store (s.numbered now link) done
  | .importLink link => getLink codec s.store link.id = none → Writable texts s.store link done
  | .delete id => id ∈ texts.ids

end LinkCall

/-- The stores that calls, reopenings and crashes between two writes lead to, and the next id while the store is
open. -/
inductive LinkRun (codec : StorageCodec) (texts : Texts) : LinkStore → Option UInt64 → Prop
  | start : LinkRun codec texts .empty none
  | opened {store : LinkStore} {next : Option UInt64} (h : LinkRun codec texts store next) :
    LinkRun codec texts store (some (openNextLinkId store))
  | called {s : Links} {call : LinkCall} (h : LinkRun codec texts s.store (some s.nextLinkId))
    (hcall : call.Admissible codec texts s 3) :
    LinkRun codec texts (s.store.writeAll (call.effect codec s).writes) (some (call.effect codec s).nextLinkId)
  | crashed {s : Links} {call : LinkCall} {done : ℕ} (h : LinkRun codec texts s.store (some s.nextLinkId))
    (hcall : call.Admissible codec texts s done) :
      LinkRun codec texts (s.store.writeAll ((call.effect codec s).writes.take done)) none

section Invariant

variable {codec : StorageCodec} {texts : Texts} {store : LinkStore} {next : Option UInt64} {s : Links} {link : Link}

structure LinksSound (codec : StorageCodec) (texts : Texts) (store : LinkStore) (next : Option UInt64) : Prop where
  indexed : store.Indexed codec texts
  last : ∀ link, store.Holds codec link → linkNumber link.id ≠ some lastLinkNumber
  below : ∀ nextLinkId, next = some nextLinkId → ∀ link, store.Holds codec link →
    ∀ number, linkNumber link.id = some number →
    number < nextLinkId

theorem LinksSound.crash (h : LinksSound codec texts store next) : LinksSound codec texts store none :=
  ⟨h.indexed, h.last, fun _ hnone => (Option.some_ne_none _ hnone.symm).elim⟩

theorem LinksSound.opened (h : LinksSound codec texts store next) :
    LinksSound codec texts store (some (openNextLinkId store)) := by
  refine ⟨h.indexed, h.last, ?_⟩
  rintro _ ⟨⟩ link hlink number hnumber
  obtain ⟨-, hall, htop⟩ := foldl_higherNumber (store.linksById.entries.map Prod.snd) 0
  have hmem : link ∈ store.linksById.entries.map Prod.snd :=
    List.mem_map_of_mem (SortedMap.get_eq_some_iff.mp hlink)
  refine lt_succ_of_le ?_ (hall link hmem number hnumber)
  rcases htop with htop | ⟨other, hother, htop⟩
  · rw [htop]
    decide
  · obtain ⟨⟨key, _⟩, hentry, rfl⟩ := List.mem_map.mp hother
    have hget := SortedMap.get_eq_some_iff.mpr hentry
    intro hsame
    apply h.last _ _ (htop.trans (congrArg some hsame))
    rw [(h.indexed.keyed key _ hget).1] at hget
    exact hget

section

variable (hkeys : LinkKeys codec texts)
include hkeys

theorem LinksSound.write (h : LinksSound codec texts store next) (hnew : getLink codec store link.id = none)
    (hlink : LinkCall.Writable texts store link 3) (nextLinkId : UInt64)
    (hnext : ∀ number, (next = some number → number ≤ nextLinkId) ∧
      (linkNumber link.id = some number → number < nextLinkId)) :
    LinksSound codec texts (store.writeAll (Links.linkWrites codec link)) (next.map fun _ => nextLinkId) := by
  obtain ⟨hnamed, hlast, hclear, -⟩ := hlink
  refine ⟨h.indexed.linkWrites hkeys hnamed hnew hclear, ?_, ?_⟩
  · intro other hother
    rcases holds_linkWrites hother with rfl | hold
    · exact hlast
    · exact h.last other hold
  · intro after hafter other hother number hnumber
    obtain ⟨before, rfl, rfl⟩ := Option.map_eq_some_iff.mp hafter
    rcases holds_linkWrites hother with rfl | hold
    · exact (hnext number).2 hnumber
    · exact UInt64.lt_of_lt_of_le (h.below before rfl other hold number hnumber) ((hnext before).1 rfl)

theorem LinksSound.delete (h : LinksSound codec texts store next) (hlink : store.Holds codec link) (done : ℕ) :
    LinksSound codec texts (store.writeAll ((Links.unlinkWrites codec link link.id).take done)) next :=
  ⟨h.indexed.unlinkWrites hkeys hlink done, fun other hother => h.last other (get_unlinkWrites hother),
    fun nextLinkId hnext other hother => h.below nextLinkId hnext other (get_unlinkWrites hother)⟩

theorem LinksSound.next_free {nextLinkId : UInt64} (h : LinksSound codec texts store (some nextLinkId)) :
    getLink codec store (makeLinkId nextLinkId) = none := by
  apply Option.eq_none_iff_forall_ne_some.mpr
  intro link hlink
  obtain ⟨hid, hholds⟩ := h.indexed.holds_of_getLink hkeys (hkeys.numbered nextLinkId) hlink
  have hbelow := h.below nextLinkId rfl link hholds nextLinkId
  rw [hid, linkNumber_makeLinkId] at hbelow
  exact UInt64.lt_irrefl _ (hbelow rfl)

theorem LinksSound.effect (h : LinksSound codec texts s.store (some s.nextLinkId)) {call : LinkCall}
    (hcall : call.Admissible codec texts s 3) :
    LinksSound codec texts (s.store.writeAll (call.effect codec s).writes) (some (call.effect codec s).nextLinkId) := by
  cases call with
  | create now link =>
    have hnumber : linkNumber (s.numbered now link).id = some s.nextLinkId := linkNumber_makeLinkId _
    have hnext : s.nextLinkId < s.nextLinkId + 1 := by
      refine lt_succ_of_le ?_ (UInt64.le_refl _)
      exact fun hlast => hcall.2.1 (hnumber.trans (congrArg some hlast))
    apply h.write hkeys (h.next_free hkeys) hcall (s.nextLinkId + 1)
    intro number
    constructor
    · rintro ⟨⟩
      exact UInt64.le_of_lt hnext
    · rw [hnumber]
      rintro ⟨⟩
      exact hnext
  | importLink link =>
    simp only [LinkCall.effect, Links.importLink]
    by_cases hempty : link.id.isEmpty = true
    · rw [if_pos hempty]
      exact h
    rw [if_neg hempty]
    cases hget : getLink codec s.store link.id with
    | some existing =>
      dsimp only
      split_ifs <;> exact h
    | none =>
      apply h.write hkeys hget (hcall hget) (afterImport s.nextLinkId link)
      intro number
      rw [afterImport]
      cases hnumber : linkNumber link.id with
      | none =>
        exact ⟨fun hnext => Option.some.inj hnext ▸ UInt64.le_refl _,
          fun hnone => (Option.some_ne_none _ hnone.symm).elim⟩
      | some highest =>
        have hlt : highest < highest + 1 :=
          lt_succ_of_le (fun hlast => (hcall hget).2.1 (hnumber.trans (congrArg some hlast))) (UInt64.le_refl _)
        rw [UInt64.lt_iff_toNat_lt] at hlt
        dsimp only [max]
        constructor
        · rintro ⟨⟩
          split_ifs with hle
          · exact hle
          · exact UInt64.le_refl _
        · rintro ⟨⟩
          rw [UInt64.lt_iff_toNat_lt]
          split_ifs with hle
          · exact hlt
          · rw [UInt64.le_iff_toNat_le] at hle
            omega
  | delete id =>
    simp only [LinkCall.effect, Links.deleteLink]
    cases hget : getLink codec s.store id with
    | none => exact h
    | some link =>
      obtain ⟨rfl, hholds⟩ := h.indexed.holds_of_getLink hkeys hcall hget
      exact h.delete hkeys hholds 3

theorem LinksSound.interrupted (h : LinksSound codec texts s.store (some s.nextLinkId)) {call : LinkCall} {done : ℕ}
    (hcall : call.Admissible codec texts s done) :
    LinksSound codec texts (s.store.writeAll ((call.effect codec s).writes.take done)) none := by
  have hnothing : LinksSound codec texts (s.store.writeAll (([] : List LinkWrite).take done)) none := by
    rw [List.take_nil]
    exact h.crash
  have hpart : done = 0 ∨ 3 ≤ done → call.Admissible codec texts s 3 → (call.effect codec s).writes.length ≤ 3 →
      LinksSound codec texts (s.store.writeAll ((call.effect codec s).writes.take done)) none := by
    rintro (rfl | hdone) hwhole hlength
    · exact h.crash
    · rw [List.take_of_length_le (by omega)]
      exact (h.effect hkeys hwhole).crash
  cases call with
  | create now link =>
    obtain ⟨hnamed, hlast, hclear, hdone⟩ := hcall
    exact hpart hdone ⟨hnamed, hlast, hclear, Or.inr le_rfl⟩ le_rfl
  | importLink link =>
    simp only [LinkCall.effect, Links.importLink] at hpart ⊢
    by_cases hempty : link.id.isEmpty = true
    · rw [if_pos hempty]
      exact hnothing
    rw [if_neg hempty] at hpart ⊢
    cases hget : getLink codec s.store link.id with
    | some existing =>
      dsimp only
      split_ifs <;> exact hnothing
    | none =>
      rw [hget] at hpart
      obtain ⟨hnamed, hlast, hclear, hdone⟩ := hcall hget
      exact hpart hdone (fun _ => ⟨hnamed, hlast, hclear, Or.inr le_rfl⟩) le_rfl
  | delete id =>
    simp only [LinkCall.effect, Links.deleteLink]
    cases hget : getLink codec s.store id with
    | none => exact hnothing
    | some link =>
      obtain ⟨rfl, hholds⟩ := h.indexed.holds_of_getLink hkeys hcall hget
      exact (h.delete hkeys hholds done).crash

theorem LinkRun.sound (h : LinkRun codec texts store next) : LinksSound codec texts store next := by
  induction h with
  | start =>
    refine ⟨indexed_empty, ?_, ?_⟩
    · rintro link ⟨⟩
    · rintro _ ⟨⟩
  | opened h ih => exact ih.opened
  | called h hcall ih => exact ih.effect hkeys hcall
  | crashed h hcall ih => exact ih.interrupted hkeys hcall

end

end Invariant

section Results

variable {codec : StorageCodec} {texts : Texts} {store : LinkStore}

/-- While the store is open, the next id is above every number in use and held by no link, the neighbors of a reference
are the links incident to it, and a link is found from both ends. -/
theorem links_stay_consistent (hkeys : LinkKeys codec texts) {nextLinkId : UInt64}
    (hrun : LinkRun codec texts store (some nextLinkId)) :
    (∀ link, store.Holds codec link → ∀ number, linkNumber link.id = some number → number < nextLinkId) ∧
      getLink codec store (makeLinkId nextLinkId) = none ∧
      (∀ reference ∈ texts.names, ∀ direction options, NeighborsExact codec store reference direction options) ∧
      ∀ id ∈ texts.ids, ∀ link, getLink codec store id = some link →
        link ∈ getNeighbors codec store link.fromRef .outgoing ⟨none, none⟩ ∧
          link ∈ getNeighbors codec store link.toRef .incoming ⟨none, none⟩ := by
  have h := hrun.sound hkeys
  have hneighbors : ∀ reference ∈ texts.names, ∀ direction options,
    NeighborsExact codec store reference direction options := by
    intro reference href direction options
    exact h.indexed.getNeighbors hkeys href direction options
  refine ⟨h.below nextLinkId rfl, h.next_free hkeys, hneighbors, ?_⟩
  intro id hid link hget
  obtain ⟨-, hholds⟩ := h.indexed.holds_of_getLink hkeys hid hget
  obtain ⟨hfrom, hto, -⟩ := h.indexed.names hholds
  obtain ⟨outgoing, houtgoing, hleaves, -⟩ := hneighbors link.fromRef hfrom .outgoing ⟨none, none⟩
  obtain ⟨incoming, hincoming, harrives, -⟩ := hneighbors link.toRef hto .incoming ⟨none, none⟩
  rw [houtgoing, hincoming]
  constructor
  · exact (hleaves link).mpr ⟨hholds, Or.inl ⟨LinkDirection.noConfusion, rfl⟩, rfl⟩
  · exact (harrives link).mpr ⟨hholds, Or.inr ⟨LinkDirection.noConfusion, rfl⟩, rfl⟩

def linkCodec : StorageCodec := rawCodec .ok

def linkTexts : Texts := ⟨{name | (0 : Byte) ∉ name}, {label | (0 : Byte) ∉ label}, Set.univ⟩

theorem linkKeys_linkTexts : LinkKeys linkCodec linkTexts := by
  have hnames : Apart linkTexts.names := by
    intro name _ other hother hstarts
    exact hother (hstarts.subset (List.mem_append_right name List.mem_cons_self))
  have hlabels : Unambiguous linkTexts.labels linkTexts.ids := by
    intro label hlabel other hother id _ otherId _ h
    have hsplit : splitOnce 0 (label ++ 0 :: id) = some (label, id) := splitOnce_append hlabel
    rw [h, splitOnce_append hother] at hsplit
    exact (Prod.mk.inj (Option.some.inj hsplit)).2.symm
  exact ⟨fun _ _ _ _ h => h, fun place => keysIsolated_plain rfl hnames fun _ => hlabels, fun _ => trivial⟩

def sampleLink (fromRef toRef : Bytes) : Link := ⟨[], fromRef, [116], toRef, none, [], [48]⟩

def linkedOnce (link : Link) : Links :=
  ⟨LinkStore.empty.writeAll (createLink linkCodec ⟨.empty, 1⟩ [] link).2.writes, 2⟩

def linkedTwice : Links :=
  let once := linkedOnce (sampleLink [97] [98])
  ⟨once.store.writeAll (createLink linkCodec once [] (sampleLink [99] [100])).2.writes, 3⟩

/-- The delete of the first link stops after its first write, and its index entries are left. -/
def cutLinks :
    LinkStore := linkedTwice.store.writeAll ((deleteLink linkCodec linkedTwice (makeLinkId 1)).2.writes.take 1)

theorem links_consistent_after_cut_delete :
    ((cutLinks.index .linksFrom).entries.length = 2 ∧ (cutLinks.linksById.entries.map (·.2.id)) = [makeLinkId 2]) ∧
      getLink linkCodec cutLinks (makeLinkId 3) = none ∧
      NeighborsExact linkCodec cutLinks [97] .outgoing ⟨none, none⟩ := by
  have hnamed : ∀ byte : Byte, byte ≠ 0 → (0 : Byte) ∉ [byte] := fun byte hne => mt List.mem_singleton.mp hne.symm
  have hfirst : LinkRun linkCodec linkTexts (linkedOnce (sampleLink [97] [98])).store (some 2) := by
    refine @LinkRun.called linkCodec linkTexts ⟨.empty, 1⟩ (.create [] (sampleLink [97] [98])) (.opened .start) ?_
    refine ⟨⟨hnamed 97 (by decide), hnamed 98 (by decide), hnamed 116 (by decide), trivial⟩, by decide +kernel, ?_,
      Or.inr le_rfl⟩
    rintro place key ⟨⟩
  have hsecond := @LinkRun.called linkCodec linkTexts (linkedOnce (sampleLink [97] [98]))
    (.create [] (sampleLink [99] [100]))
    hfirst ⟨⟨hnamed 99 (by decide), hnamed 100 (by decide), hnamed 116 (by decide), trivial⟩, by decide +kernel, ?_,
      Or.inr le_rfl⟩
  · have hcut := @LinkRun.crashed linkCodec linkTexts linkedTwice (.delete (makeLinkId 1)) 1 hsecond trivial
    obtain ⟨-, hfree, hneighbors, -⟩ := links_stay_consistent linkKeys_linkTexts hcut.opened
    exact ⟨by decide +kernel, hfree, hneighbors [97] (hnamed 97 (by decide)) .outgoing ⟨none, none⟩⟩
  · intro place key hget
    have hentries : ∀ entry ∈ ((linkedOnce (sampleLink [97] [98])).store.index place).entries,
        entry.2 ≠ some (makeLinkId 2) := by
      cases place <;> decide +kernel
    exact hentries _ (SortedMap.get_eq_some_iff.mp hget) rfl

/-- A link from `a` to itself is a neighbor twice. Where the delete of a link from `a` to `b` stops after its first
write, the store is reopened and a link from `c` to `d` gets the old id, that link is a neighbor of `a`. -/
theorem neighbors_come_twice_or_stray :
    (getNeighbors linkCodec (linkedOnce (sampleLink [97] [97])).store [97] .both ⟨none, none⟩).length = 2 ∧
      (let deleted := (linkedOnce (sampleLink [97] [98])).store.writeAll
          ((deleteLink linkCodec (linkedOnce (sampleLink [97] [98])) (makeLinkId 1)).2.writes.take 1)
        let created := createLink linkCodec ⟨deleted, openNextLinkId deleted⟩ [] (sampleLink [99] [100])
        (getNeighbors linkCodec (deleted.writeAll created.2.writes) [97] .outgoing ⟨none, none⟩).map
          (fun link => link.fromRef) = [[99]]) := by
  decide +kernel

end Results

end Thingd.Engine
