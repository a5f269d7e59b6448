/-
  Index/InMemLayout.lean --- how the overflow slots of the in-memory index are used.

  Every overflow slot is in the chain of at most one primary slot or in the chain of free
  slots.  `Layout` names the chains; the lemmas say what each primitive of
  `InMemHashIndex` does to them and that it leaves the entries of the other slots alone.
-/
import Lbug.Index.InMemWalk
import Mathlib.Data.List.Perm.Subperm
import Mathlib.Data.List.Range

namespace Lbug.Index

open List Function

variable {overflow : List Nat} {slotId : Nat} {i : SlotInfo}

theorem mem_chainSlots :
    i ∈ chainSlots slotId overflow ↔ i = .primary slotId ∨ ∃ o ∈ overflow, i = .ovf o := by
  simp [chainSlots, eq_comm]

variable {o : Nat}

theorem ovf_mem_chainSlots : SlotInfo.ovf o ∈ chainSlots slotId overflow ↔ o ∈ overflow := by
  simp [mem_chainSlots]

theorem ovf_mem_map {l : List Nat} : SlotInfo.ovf o ∈ l.map SlotInfo.ovf ↔ o ∈ l := by
  simp

theorem nodup_chainSlots (h : overflow.Nodup) : (chainSlots slotId overflow).Nodup := by
  refine nodup_cons.mpr ⟨by simp, h.map fun a b hab => ?_⟩
  cases hab
  rfl

@[simp] theorem length_chainSlots (slotId : Nat) (overflow : List Nat) :
    (chainSlots slotId overflow).length = overflow.length + 1 := by
  simp [chainSlots]

theorem chainSlots_getElem?_succ (slotId k : Nat) (overflow : List Nat) :
    (chainSlots slotId overflow)[k + 1]? = overflow[k]?.map .ovf := by
  simp [chainSlots]

theorem isPrimary_iff {k : Nat} (h : (chainSlots slotId overflow)[k]? = some i) :
    i.isPrimary = true ↔ k = 0 := by
  cases k with
  | zero =>
    cases h
    simp [SlotInfo.isPrimary]
  | succ =>
    simp only [chainSlots, getElem?_cons_succ, getElem?_map, Option.map_eq_some_iff] at h
    obtain ⟨_, -, rfl⟩ := h
    simp [SlotInfo.isPrimary]

namespace InMemHashIndex

variable {K : Type}

/-- `chains p` are the overflow slots of the chain of primary slot `p`, and `free` the
free overflow slots, each in order. -/
structure Layout (capacity : Nat) (idx : InMemHashIndex K) (chains : Nat → List Nat)
    (free : List Nat) : Prop where
  linked : ∀ p < idx.numPSlots, Linked idx.slots (chainSlots p (chains p))
  firstFree : idx.indexHeader.firstFreeOverflowSlotId = free.head?
  linkedFree : Linked idx.slots (free.map .ovf)
  nodup : ∀ p < idx.numPSlots, (chains p).Nodup
  disjoint : ∀ p < idx.numPSlots, ∀ q < idx.numPSlots, ∀ o ∈ chains p, o ∈ chains q → p = q
  nodupFree : free.Nodup
  disjointFree : ∀ p < idx.numPSlots, ∀ o ∈ chains p, o ∉ free
  lt : ∀ p < idx.numPSlots, ∀ o ∈ chains p, o < idx.numOSlots
  ltFree : ∀ o ∈ free, o < idx.numOSlots
  emptyFree : ∀ o ∈ free, ∀ j < capacity, (idx.slots (.ovf o)).entries j = none

/-- The slots of the chains keep their entries. -/
def KeepsEntries (idx idx' : InMemHashIndex K) (chains : Nat → List Nat) : Prop :=
  ∀ p < idx.numPSlots, ∀ i ∈ chainSlots p (chains p), (idx'.slots i).entries = (idx.slots i).entries

variable {capacity : Nat} {idx idx' : InMemHashIndex K} {chains : Nat → List Nat}
  {free : List Nat} {p q : Nat} {i i' : SlotInfo}

namespace Layout

variable (h : Layout capacity idx chains free)

include h

section

variable (hp : p < idx.numPSlots)

include hp

theorem chain_nodup : (chainSlots p (chains p)).Nodup := nodup_chainSlots (h.nodup p hp)

/-- The chains of different primary slots share no slot. -/
theorem chain_disjoint (hq : q < idx.numPSlots) (hi : i ∈ chainSlots p (chains p))
    (hi' : i ∈ chainSlots q (chains q)) : p = q := by
  rcases mem_chainSlots.mp hi with rfl | ⟨o, ho, rfl⟩
  · rcases mem_chainSlots.mp hi' with heq | ⟨_, -, heq⟩
    · cases heq
      rfl
    · cases heq
  · exact h.disjoint p hp q hq o ho (ovf_mem_chainSlots.mp hi')

theorem chain_not_free (hi : i ∈ chainSlots p (chains p)) : i ∉ free.map SlotInfo.ovf := by
  intro hfree
  obtain ⟨o, ho, rfl⟩ := mem_map.mp hfree
  exact h.disjointFree p hp o (ovf_mem_chainSlots.mp hi) ho

/-- The walks have enough steps. -/
theorem chain_length_le : (chainSlots p (chains p)).length ≤ idx.chainFuel := by
  have hsub : chains p ⊆ range idx.numOSlots := fun o ho => mem_range.mpr (h.lt p hp o ho)
  have hlen := (subperm_of_subset (h.nodup p hp) hsub).length_le
  rw [length_range] at hlen
  rw [length_chainSlots, chainFuel]
  omega

end

/-- The header matters only through the first free slot. -/
theorem congr_header {header : HashIndexHeader}
    (hfree : header.firstFreeOverflowSlotId = idx.indexHeader.firstFreeOverflowSlotId) :
    Layout capacity { idx with indexHeader := header } chains free :=
  { h with firstFree := hfree.trans h.firstFree }

/-! ## Writing an entry -/

theorem setEntry (hp : p < idx.numPSlots) (hi : i ∈ chainSlots p (chains p)) (pos : Nat)
    (entry : Option (SlotEntry K)) :
    Layout capacity (idx.setEntry i pos entry) chains free := by
  have hnext : ∀ i', ((idx.setEntry i pos entry).slots i').nextOvfSlotId =
      (idx.slots i').nextOvfSlotId := by
    intro i'
    rcases eq_or_ne i' i with rfl | heq
    · simp [InMemHashIndex.setEntry, setSlot]
    · simp [InMemHashIndex.setEntry, setSlot, heq]
  refine { h with
    linked := fun q hq => (h.linked q hq).congr fun i' _ => hnext i'
    linkedFree := h.linkedFree.congr fun i' _ => hnext i'
    emptyFree := fun o ho j hj => ?_ }
  have hne : SlotInfo.ovf o ≠ i := by
    rintro rfl
    exact h.chain_not_free hp hi (ovf_mem_map.mpr ho)
  simpa [InMemHashIndex.setEntry, setSlot, hne] using h.emptyFree o ho j hj

end Layout

theorem entries_setEntry_of_ne (hne : i' ≠ i) (pos : Nat) (entry : Option (SlotEntry K)) :
    (idx.setEntry i pos entry).slots i' = idx.slots i' := by
  simp [setEntry, setSlot, hne]

section

variable (h : Layout capacity idx chains free) (hp : p < idx.numPSlots) (hq : q < idx.numPSlots)
  (hne : q ≠ p) (hi : i ∈ chainSlots p (chains p))

include h hp hq hne hi

/-- Writing to a slot of one chain leaves the slots of the other chains alone. -/
theorem Layout.slots_setEntry (hi' : i' ∈ chainSlots q (chains q)) (pos : Nat)
    (entry : Option (SlotEntry K)) :
    (idx.setEntry i pos entry).slots i' = idx.slots i' := by
  apply entries_setEntry_of_ne
  rintro rfl
  exact hne (h.chain_disjoint hq hp hi' hi)

theorem Layout.entryAt_setEntry_of_ne (pos : Nat) (entry : Option (SlotEntry K)) (x : Nat) :
    entryAt capacity (idx.setEntry i pos entry).slots (chainSlots q (chains q)) x =
      entryAt capacity idx.slots (chainSlots q (chains q)) x :=
  entryAt_congr (fun _ hi' => by rw [h.slots_setEntry hp hq hne hi hi']) x

end

/-- Writing to a slot of a chain changes one position of the chain. -/
theorem Layout.entryAt_setEntry (h : Layout capacity idx chains free) (hp : p < idx.numPSlots)
    {k j : Nat} (hi : (chainSlots p (chains p))[k]? = some i) (hj : j < capacity)
    (entry : Option (SlotEntry K)) (x : Nat) :
    entryAt capacity (idx.setEntry i j entry).slots (chainSlots p (chains p)) x =
      if x = k * capacity + j then entry
      else entryAt capacity idx.slots (chainSlots p (chains p)) x :=
  Index.entryAt_setEntry (h.chain_nodup hp) hi hj entry x

/-! ## Allocating overflow slots -/

/-- A slot that `allocateAOSlot` returns is empty and in no chain. -/
structure Fresh (capacity : Nat) (idx : InMemHashIndex K) (chains : Nat → List Nat)
    (free : List Nat) (o : Nat) : Prop where
  lt : o < idx.numOSlots
  notChained : ∀ p < idx.numPSlots, o ∉ chains p
  notFree : o ∉ free
  next : (idx.slots (.ovf o)).nextOvfSlotId = none
  empty : ∀ j < capacity, (idx.slots (.ovf o)).entries j = none

theorem Layout.resizeOSlots (h : Layout capacity idx chains free) (n : Nat) :
    Layout capacity (idx.resizeOSlots n) chains free ∧
      ∀ p < idx.numPSlots, ∀ i ∈ chainSlots p (chains p),
        (idx.resizeOSlots n).slots i = idx.slots i := by
  have hold : ∀ o, o < idx.numOSlots →
      (idx.resizeOSlots n).slots (.ovf o) = idx.slots (.ovf o) := by
    intro o ho
    simp [InMemHashIndex.resizeOSlots, not_le.mpr ho]
  have hsame : ∀ p < idx.numPSlots, ∀ i ∈ chainSlots p (chains p),
      (idx.resizeOSlots n).slots i = idx.slots i := by
    intro p hp i hi
    rcases mem_chainSlots.mp hi with rfl | ⟨o, ho, rfl⟩
    · rfl
    · exact hold o (h.lt p hp o ho)
  have hsameFree : ∀ i ∈ free.map SlotInfo.ovf, (idx.resizeOSlots n).slots i = idx.slots i := by
    intro i hi
    obtain ⟨o, ho, rfl⟩ := mem_map.mp hi
    exact hold o (h.ltFree o ho)
  refine ⟨⟨fun p hp => (h.linked p hp).congr fun i hi => by rw [hsame p hp i hi], h.firstFree,
    h.linkedFree.congr fun i hi => by rw [hsameFree i hi], h.nodup, h.disjoint, h.nodupFree,
    h.disjointFree, fun p hp o ho => Nat.lt_add_right n (h.lt p hp o ho),
    fun o ho => Nat.lt_add_right n (h.ltFree o ho), fun o ho j hj => ?_⟩, hsame⟩
  rw [hold o (h.ltFree o ho)]
  exact h.emptyFree o ho j hj

theorem slots_setNext_of_ne (hne : i' ≠ i) (next : Option Nat) :
    (idx.setNext i next).slots i' = idx.slots i' := by
  simp [setNext, setSlot, hne]

theorem entries_setNext (i i' : SlotInfo) (next : Option Nat) :
    ((idx.setNext i next).slots i').entries = (idx.slots i').entries := by
  rcases eq_or_ne i' i with rfl | hne
  · simp [setNext, setSlot]
  · rw [slots_setNext_of_ne hne]

theorem next_setNext_self (i : SlotInfo) (next : Option Nat) :
    ((idx.setNext i next).slots i).nextOvfSlotId = next := by
  simp [setNext, setSlot]

theorem Layout.allocateAOSlot (h : Layout capacity idx chains free) :
    ∃ free', Layout capacity idx.allocateAOSlot.1 chains free' ∧
      Fresh capacity idx.allocateAOSlot.1 chains free' idx.allocateAOSlot.2 ∧
      idx.allocateAOSlot.1.numPSlots = idx.numPSlots ∧
      KeepsEntries idx idx.allocateAOSlot.1 chains := by
  unfold InMemHashIndex.allocateAOSlot
  cases hfirst : idx.indexHeader.firstFreeOverflowSlotId with
  | none =>
    obtain ⟨hlayout, hsame⟩ := h.resizeOSlots 1
    refine ⟨free, hlayout, ⟨Nat.lt_succ_self _, fun p hp hmem => ?_, fun hmem => ?_, ?_, ?_⟩, rfl,
      fun p hp i hi => by rw [hsame p hp i hi]⟩
    · exact absurd (h.lt p hp _ hmem) (lt_irrefl _)
    · exact absurd (h.ltFree _ hmem) (lt_irrefl _)
    · simp [InMemHashIndex.resizeOSlots]
    · simp [InMemHashIndex.resizeOSlots]
  | some o =>
    have hhead := h.firstFree.symm.trans hfirst
    obtain ⟨rest, rfl⟩ := head?_eq_some_iff.mp hhead
    obtain ⟨hnot, hnodup⟩ := nodup_cons.mp h.nodupFree
    have hnext : (idx.slots (.ovf o)).nextOvfSlotId = rest.head? := by
      have hlink := h.linkedFree.next_head
      rw [head?_map] at hlink
      exact Option.map_injective (fun a b hab => by cases hab; rfl) hlink
    have hother : ∀ i, i ≠ SlotInfo.ovf o →
        (idx.setNext (.ovf o) none).slots i = idx.slots i := fun i hne => slots_setNext_of_ne hne _
    have hchain : ∀ p < idx.numPSlots, ∀ i ∈ chainSlots p (chains p), i ≠ SlotInfo.ovf o := by
      rintro p hp i hi rfl
      exact h.chain_not_free hp hi (ovf_mem_map.mpr mem_cons_self)
    have hrest : ∀ i ∈ rest.map SlotInfo.ovf, i ≠ SlotInfo.ovf o := by
      rintro i hi rfl
      exact hnot (ovf_mem_map.mp hi)
    refine ⟨rest, ⟨?_, hnext, ?_, h.nodup, h.disjoint, hnodup, ?_, h.lt, ?_, ?_⟩,
      ⟨h.ltFree o mem_cons_self, ?_, hnot, next_setNext_self _ _, ?_⟩, rfl, ?_⟩
    · exact fun p hp => (h.linked p hp).congr fun i hi => by
        rw [hother i (hchain p hp i hi)]
    · exact h.linkedFree.tail.congr fun i hi => by
        rw [hother i (hrest i hi)]
    · exact fun p hp o' ho' hmem => h.disjointFree p hp o' ho' (mem_cons_of_mem _ hmem)
    · exact fun o' ho' => h.ltFree o' (mem_cons_of_mem _ ho')
    · intro o' ho' j hj
      rw [entries_setNext]
      exact h.emptyFree o' (mem_cons_of_mem _ ho') j hj
    · exact fun p hp hmem => h.disjointFree p hp o hmem mem_cons_self
    · intro j hj
      rw [entries_setNext]
      exact h.emptyFree o mem_cons_self j hj
    · exact fun p hp i hi => entries_setNext _ _ _

/-- A fresh slot is put at the end of a chain. -/
theorem Layout.link (h : Layout capacity idx chains free)
    (hfresh : Fresh capacity idx chains free o) (hp : p < idx.numPSlots)
    (hlast : (chainSlots p (chains p))[(chains p).length]? = some i) :
    Layout capacity (idx.setNext i (some o)) (update chains p (chains p ++ [o])) free := by
  have hi : i ∈ chainSlots p (chains p) := mem_of_getElem? hlast
  have hio : i ≠ .ovf o := by
    rintro rfl
    exact hfresh.notChained p hp (ovf_mem_chainSlots.mp hi)
  have hfree : ∀ i' ∈ free.map SlotInfo.ovf, i' ≠ i := by
    rintro i' hi' rfl
    exact h.chain_not_free hp hi hi'
  have hchain : chainSlots p (chains p ++ [o]) = chainSlots p (chains p) ++ [.ovf o] := by
    simp [chainSlots]
  -- the fresh slot is in no other chain
  have hmem : ∀ q, ∀ o' ∈ update chains p (chains p ++ [o]) q,
      o' ∈ chains q ∨ (q = p ∧ o' = o) := by
    intro q o' ho'
    rcases eq_or_ne q p with rfl | hqp
    · rw [update_self, mem_append, mem_singleton] at ho'
      exact ho'.imp_right fun heq => ⟨rfl, heq⟩
    · rw [update_of_ne hqp] at ho'
      exact .inl ho'
  refine ⟨?_, h.firstFree, h.linkedFree.congr fun i' hi' => by
    rw [slots_setNext_of_ne (hfree i' hi')], ?_, ?_, h.nodupFree, ?_, ?_, h.ltFree, ?_⟩
  · intro q hq
    rcases eq_or_ne q p with rfl | hqp
    · rw [update_self, hchain]
      intro k i' hk
      -- a slot before the last one, the last one, or the new one
      rcases lt_trichotomy k (chains q).length with hlt | heq | hgt
      · have hk' : (chainSlots q (chains q))[k]? = some i' := by
          rwa [getElem?_append_left (by simp; omega)] at hk
        have hne : i' ≠ i := by
          rintro rfl
          have := getElem?_inj_of_nodup (h.chain_nodup hq) hk' hlast
          omega
        rw [slots_setNext_of_ne hne, (h.linked q hq) k i' hk',
          getElem?_append_left (by simp; omega)]
      · subst heq
        have hk' : (chainSlots q (chains q))[(chains q).length]? = some i' := by
          rwa [getElem?_append_left (by simp)] at hk
        rw [hlast] at hk'
        cases hk'
        rw [next_setNext_self]
        simp
      · rw [getElem?_append_right (by simp; omega)] at hk
        have hk1 : k = (chains q).length + 1 := by
          have := lt_length_of_getElem? hk
          simp at this
          omega
        subst hk1
        simp only [length_chainSlots, Nat.sub_self, getElem?_cons_zero, Option.some.injEq] at hk
        subst hk
        rw [slots_setNext_of_ne (Ne.symm hio), hfresh.next, getElem?_eq_none (by simp)]
        rfl
    · rw [update_of_ne hqp]
      refine (h.linked q hq).congr fun i' hi' => ?_
      rw [slots_setNext_of_ne]
      rintro rfl
      exact hqp (h.chain_disjoint hq hp hi' hi)
  · intro q hq
    rcases eq_or_ne q p with rfl | hqp
    · rw [update_self]
      exact nodup_append.mpr ⟨h.nodup q hq, nodup_singleton o, by
        rintro a ha b hb rfl
        rw [mem_singleton] at hb
        subst hb
        exact hfresh.notChained q hq ha⟩
    · rw [update_of_ne hqp]
      exact h.nodup q hq
  · intro q hq r hr o' ho' ho''
    rcases hmem q o' ho' with h1 | ⟨rfl, rfl⟩
    · rcases hmem r o' ho'' with h2 | ⟨rfl, rfl⟩
      · exact h.disjoint q hq r hr o' h1 h2
      · exact absurd h1 (hfresh.notChained q hq)
    · rcases hmem r o' ho'' with h2 | ⟨rfl, -⟩
      · exact absurd h2 (hfresh.notChained r hr)
      · rfl
  · intro q hq o' ho'
    rcases hmem q o' ho' with ho' | ⟨-, rfl⟩
    · exact h.disjointFree q hq o' ho'
    · exact hfresh.notFree
  · intro q hq o' ho'
    rcases hmem q o' ho' with ho' | ⟨-, rfl⟩
    · exact h.lt q hq o' ho'
    · exact hfresh.lt
  · intro o' ho' j hj
    rw [entries_setNext]
    exact h.emptyFree o' ho' j hj

/-- What an allocation leaves as it is. -/
structure Frame (idx idx' : InMemHashIndex K) (chains : Nat → List Nat) : Prop where
  numPSlots : idx'.numPSlots = idx.numPSlots
  header : idx.indexHeader.Agrees idx'.indexHeader
  entries : KeepsEntries idx idx' chains

theorem agrees_allocateAOSlot : idx.indexHeader.Agrees idx.allocateAOSlot.1.indexHeader := by
  unfold allocateAOSlot
  split
  · exact .refl _
  · exact ⟨rfl, rfl, rfl⟩

section

variable (h : Layout capacity idx chains free)

include h

/-- A new overflow slot at the end of a chain. -/
theorem Layout.extend (hp : p < idx.numPSlots)
    (hlast : (chainSlots p (chains p))[(chains p).length]? = some i) :
    ∃ free', Layout capacity (idx.allocateAOSlot.1.setNext i (some idx.allocateAOSlot.2))
        (update chains p (chains p ++ [idx.allocateAOSlot.2])) free' ∧
      Frame idx (idx.allocateAOSlot.1.setNext i (some idx.allocateAOSlot.2)) chains ∧
      ∀ j < capacity, ((idx.allocateAOSlot.1.setNext i (some idx.allocateAOSlot.2)).slots
        (.ovf idx.allocateAOSlot.2)).entries j = none := by
  obtain ⟨free', hlayout, hfresh, hnum, hkeeps⟩ := h.allocateAOSlot
  refine ⟨free', hlayout.link hfresh (by rw [hnum]; exact hp) hlast,
    ⟨hnum, agrees_allocateAOSlot, fun q hq i' hi' => ?_⟩, fun j hj => ?_⟩
  · rw [entries_setNext]
    exact hkeeps q hq i' hi'
  · rw [entries_setNext]
    exact hfresh.empty j hj

omit h in
/-- An empty slot at the end of a chain does not change what the chain holds. -/
theorem Holds.extend {slots slots' : SlotInfo → Slot K} {L : List (SlotEntry K)}
    (hcap : 0 < capacity) (h : Holds capacity slots (chainSlots p overflow) L)
    (hentries : ∀ i ∈ chainSlots p overflow, (slots' i).entries = (slots i).entries)
    (hempty : ∀ j < capacity, (slots' (.ovf o)).entries j = none) :
    Holds capacity slots' (chainSlots p (overflow ++ [o])) L := by
  have hchain : chainSlots p (overflow ++ [o]) = chainSlots p overflow ++ [.ovf o] := by
    simp [chainSlots]
  intro x
  rcases lt_or_ge (x / capacity) (chainSlots p overflow).length with hlt | hge
  · rw [← h.congr hentries x, entryAt, entryAt, hchain, getElem?_append_left hlt]
  have hlen := h.length_le hcap
  have hx : (chainSlots p overflow).length * capacity ≤ x := (Nat.le_div_iff_mul_le hcap).mp hge
  rw [getElem?_eq_none (by omega), entryAt, hchain]
  cases hi : (chainSlots p overflow ++ [.ovf o])[x / capacity]? with
  | none => rfl
  | some =>
    rw [getElem?_append_right hge] at hi
    have hzero := lt_length_of_getElem? hi
    rw [length_singleton, Nat.lt_one_iff] at hzero
    rw [hzero, getElem?_cons_zero, Option.some.injEq] at hi
    subst hi
    exact hempty _ (Nat.mod_lt x hcap)

/-! ## Primary slots and free slots -/

omit h in
theorem slots_allocatePSlots (n : Nat) (hp : p < idx.numPSlots) (hi : i ∈ chainSlots p overflow) :
    (idx.allocatePSlots n).slots i = idx.slots i := by
  rcases mem_chainSlots.mp hi with rfl | ⟨_, -, rfl⟩
  · simp [allocatePSlots, not_le.mpr hp]
  · rfl

theorem Layout.allocatePSlots (n : Nat) :
    Layout capacity (idx.allocatePSlots n)
      (fun p => if p < idx.numPSlots then chains p else []) free := by
  have hmem : ∀ p o, o ∈ (if p < idx.numPSlots then chains p else []) →
      p < idx.numPSlots ∧ o ∈ chains p := by
    intro p o ho
    split at ho
    · exact ⟨‹_›, ho⟩
    · cases ho
  refine ⟨fun p hp => ?_, h.firstFree, h.linkedFree.congr fun i hi => ?_, fun p hp => ?_,
    fun p _ q _ o ho ho' => ?_, h.nodupFree, fun p _ o ho => ?_, fun p _ o ho => ?_, h.ltFree,
    h.emptyFree⟩
  · split_ifs with hlt
    · exact (h.linked p hlt).congr fun i hi => by rw [slots_allocatePSlots n hlt hi]
    intro k i hk
    have hzero := lt_length_of_getElem? hk
    rw [length_chainSlots, length_nil, Nat.lt_one_iff] at hzero
    subst hzero
    cases hk
    simp [InMemHashIndex.allocatePSlots, not_lt.mp hlt]
  · obtain ⟨_, -, rfl⟩ := mem_map.mp hi
    rfl
  · split
    · exact h.nodup p ‹_›
    · exact nodup_nil
  · obtain ⟨hp, ho⟩ := hmem p o ho
    obtain ⟨hq, ho'⟩ := hmem q o ho'
    exact h.disjoint p hp q hq o ho ho'
  · obtain ⟨hp, ho⟩ := hmem p o ho
    exact h.disjointFree p hp o ho
  · obtain ⟨hp, ho⟩ := hmem p o ho
    exact h.lt p hp o ho

theorem Layout.addFreeOverflowSlot (hfresh : Fresh capacity idx chains free o) :
    Layout capacity (idx.addFreeOverflowSlot o) chains (o :: free) := by
  have hother : ∀ i, i ≠ SlotInfo.ovf o → (idx.addFreeOverflowSlot o).slots i = idx.slots i :=
    fun i hne => slots_setNext_of_ne hne _
  constructor
  · intro p hp
    refine (h.linked p hp).congr fun i hi => ?_
    rw [hother i]
    rintro rfl
    exact hfresh.notChained p hp (ovf_mem_chainSlots.mp hi)
  · rfl
  · intro k i hk
    cases k with
    | zero =>
      cases hk
      show ((idx.setNext (.ovf o) _).slots (.ovf o)).nextOvfSlotId.map _ = _
      rw [next_setNext_self, h.firstFree]
      cases free <;> rfl
    | succ k =>
      have hk' : (free.map SlotInfo.ovf)[k]? = some i := by simpa using hk
      have hne : i ≠ .ovf o := by
        rintro rfl
        exact hfresh.notFree (ovf_mem_map.mp (mem_of_getElem? hk'))
      rw [hother i hne, h.linkedFree k i hk']
      rfl
  · exact h.nodup
  · exact h.disjoint
  · exact nodup_cons.mpr ⟨hfresh.notFree, h.nodupFree⟩
  · intro p hp o' ho' hmem
    rcases mem_cons.mp hmem with rfl | hmem
    · exact hfresh.notChained p hp ho'
    · exact h.disjointFree p hp o' ho' hmem
  · exact h.lt
  · intro o' ho'
    rcases mem_cons.mp ho' with rfl | ho'
    · exact hfresh.lt
    · exact h.ltFree o' ho'
  · intro o' ho' j hj
    show ((idx.setNext (.ovf o) _).slots (.ovf o')).entries j = none
    rw [entries_setNext]
    rcases mem_cons.mp ho' with rfl | ho'
    · exact hfresh.empty j hj
    · exact h.emptyFree o' ho' j hj

end

/-- The loop of `reserveOverflowSlots` adds slots that were not used before. -/
theorem Layout.addFreeOverflowSlots (total i slotId : Nat) (h : Layout capacity idx chains free)
    (hroom : slotId + (total - idx.numFreeSlots - i) ≤ idx.numOSlots)
    (hunused : ∀ o, slotId ≤ o → o < idx.numOSlots →
      idx.slots (.ovf o) = {} ∧ (∀ p < idx.numPSlots, o ∉ chains p) ∧ o ∉ free) :
    ∃ free', Layout capacity (idx.addFreeOverflowSlots total i slotId) chains free' ∧
      Frame idx (idx.addFreeOverflowSlots total i slotId) chains := by
  fun_induction InMemHashIndex.addFreeOverflowSlots idx total i slotId generalizing free with
  | case1 idx _ slotId _ ih =>
    obtain ⟨hslot, hchained, hfree⟩ := hunused slotId (le_refl _) (by omega)
    have hfresh : Fresh capacity idx chains free slotId :=
      ⟨by omega, hchained, hfree, by rw [hslot], fun j _ => by rw [hslot]⟩
    obtain ⟨free', hlayout, hframe⟩ := ih (h.addFreeOverflowSlot hfresh)
      (by simp only [InMemHashIndex.addFreeOverflowSlot, setNext, setSlot]; omega)
      (fun o ho hlt' => by
        obtain ⟨hslot', hchained', hfree'⟩ := hunused o (by omega) hlt'
        refine ⟨?_, hchained', fun hmem => ?_⟩
        · exact (slots_setNext_of_ne (fun heq => by cases heq; omega) _).trans hslot'
        · rcases mem_cons.mp hmem with heq | hmem
          · omega
          · exact hfree' hmem)
    refine ⟨free', hlayout, hframe.numPSlots, ?_, fun p hp i' hi' => ?_⟩
    · have hstep : idx.indexHeader.Agrees (idx.addFreeOverflowSlot slotId).indexHeader :=
        ⟨rfl, rfl, rfl⟩
      exact hstep.trans hframe.header
    · rw [hframe.entries p hp i' hi']
      exact entries_setNext _ _ _
  | case2 => exact ⟨free, h, rfl, .refl _, fun _ _ _ _ => rfl⟩

section

variable (h : Layout capacity idx chains free)

include h

theorem Layout.reserveOverflowSlots (total : Nat) :
    ∃ free', Layout capacity (idx.reserveOverflowSlots total) chains free' ∧
      Frame idx (idx.reserveOverflowSlots total) chains := by
  unfold InMemHashIndex.reserveOverflowSlots
  split_ifs with hlt
  · obtain ⟨hlayout, hsame⟩ := h.resizeOSlots (total - idx.numFreeSlots)
    obtain ⟨free', hlayout', hframe⟩ := hlayout.addFreeOverflowSlots total 0 idx.numOSlots
      (by simp only [InMemHashIndex.resizeOSlots]; omega)
      (fun o ho hlt' => ⟨by simp [InMemHashIndex.resizeOSlots, ho],
        fun p hp hmem => absurd (h.lt p hp o hmem) (by omega),
        fun hmem => absurd (h.ltFree o hmem) (by omega)⟩)
    refine ⟨free', hlayout', hframe.numPSlots, hframe.header, fun p hp i hi => ?_⟩
    rw [hframe.entries p hp i hi, hsame p hp i hi]
  · exact ⟨free, h, rfl, .refl _, fun _ _ _ _ => rfl⟩

/-! ## Reclaiming -/

section

variable (hchained : ∀ p < idx.numPSlots, o ∉ chains p) (hfree : o ∉ free)

include hchained hfree

/-- Unlinking a slot that is in no chain changes no chain. -/
theorem Layout.setNext_detached (next : Option Nat) :
    Layout capacity (idx.setNext (.ovf o) next) chains free := by
  refine { h with
    linked := fun p hp => (h.linked p hp).congr fun i hi => ?_
    linkedFree := h.linkedFree.congr fun i hi => ?_
    emptyFree := fun o' ho' j hj => ?_ }
  · rw [slots_setNext_of_ne]
    rintro rfl
    exact hchained p hp (ovf_mem_chainSlots.mp hi)
  · rw [slots_setNext_of_ne]
    rintro rfl
    exact hfree (ovf_mem_map.mp hi)
  · rw [entries_setNext]
    exact h.emptyFree o' ho' j hj

/-- A slot that is in no chain goes to the free slots. -/
theorem Layout.free_detached (hlt : o < idx.numOSlots)
    (hempty : ∀ j < capacity, (idx.slots (.ovf o)).entries j = none) :
    Layout capacity ((idx.setNext (.ovf o) none).addFreeOverflowSlot o) chains (o :: free) := by
  refine (h.setNext_detached hchained hfree none).addFreeOverflowSlot
    ⟨hlt, hchained, hfree, next_setNext_self _ _, fun j hj => ?_⟩
  rw [entries_setNext]
  exact hempty j hj

end

/-- The second loop of `reclaimOverflowSlots` moves the slots of a chain that nothing
points to any more to the free slots. -/
theorem Layout.freeChain {fuel : Nat} {rest : List Nat}
    (hlinked : Linked idx.slots ((o :: rest).map .ovf)) (hnodup : (o :: rest).Nodup)
    (hlt : ∀ o' ∈ o :: rest, o' < idx.numOSlots)
    (hchained : ∀ p < idx.numPSlots, ∀ o' ∈ o :: rest, o' ∉ chains p)
    (hfree : ∀ o' ∈ o :: rest, o' ∉ free)
    (hempty : ∀ o' ∈ o :: rest, ∀ j < capacity, (idx.slots (.ovf o')).entries j = none)
    (hfuel : rest.length < fuel) :
    ∃ idx' free', freeChain fuel idx (.ovf o) = some idx' ∧
      Layout capacity idx' chains free' ∧ idx'.numPSlots = idx.numPSlots ∧
      idx.indexHeader.Agrees idx'.indexHeader ∧
      ∀ i, (idx'.slots i).entries = (idx.slots i).entries := by
  induction rest generalizing idx o free fuel with
  | nil =>
    obtain ⟨fuel, rfl⟩ : ∃ n, fuel = n + 1 := ⟨fuel - 1, by omega⟩
    have ho := mem_cons_self (a := o) (l := [])
    have hlayout := h.free_detached (hchained · · o ho) (hfree o ho) (hlt o ho) (hempty o ho)
    have hnext : idx.nextChainedSlot (.ovf o) = none := hlinked.next_head
    exact ⟨_, o :: free, by simp only [freeChain, hnext], hlayout, rfl,
      ⟨rfl, rfl, rfl⟩,
      fun i => (entries_setNext _ _ _).trans (entries_setNext _ _ _)⟩
  | cons o' rest ih =>
    obtain ⟨fuel, rfl⟩ : ∃ n, fuel = n + 1 := ⟨fuel - 1, by omega⟩
    have ho := mem_cons_self (a := o) (l := o' :: rest)
    obtain ⟨hnot, hnodup'⟩ := nodup_cons.mp hnodup
    have hnext : idx.nextChainedSlot (.ovf o) = some (.ovf o') := hlinked.next_head
    have hlayout := h.free_detached (hchained · · o ho) (hfree o ho) (hlt o ho) (hempty o ho)
    have hslots : ∀ i ∈ (o' :: rest).map SlotInfo.ovf,
        ((idx.setNext (.ovf o) none).addFreeOverflowSlot o).slots i = idx.slots i := by
      intro i hi
      have hne : i ≠ .ovf o := by
        rintro rfl
        exact hnot (ovf_mem_map.mp hi)
      exact (slots_setNext_of_ne hne _).trans (slots_setNext_of_ne hne _)
    have hfuel' : rest.length < fuel := by
      simp only [length_cons] at hfuel
      omega
    obtain ⟨idx', free', heq, hlayout', hnum, hagree, hentries⟩ := ih hlayout
      (hlinked.tail.congr fun i hi => by rw [hslots i hi]) hnodup'
      (fun o'' ho'' => hlt o'' (mem_cons_of_mem _ ho''))
      (fun p hp o'' ho'' => hchained p hp o'' (mem_cons_of_mem _ ho''))
      (fun o'' ho'' hmem => by
        rcases mem_cons.mp hmem with rfl | hmem
        · exact hnot ho''
        · exact hfree o'' (mem_cons_of_mem _ ho'') hmem)
      (fun o'' ho'' j hj => by
        rw [hslots _ (ovf_mem_map.mpr ho'')]
        exact hempty o'' (mem_cons_of_mem _ ho'') j hj)
      hfuel'
    have hstep : idx.indexHeader.Agrees
        ((idx.setNext (.ovf o) none).addFreeOverflowSlot o).indexHeader := ⟨rfl, rfl, rfl⟩
    refine ⟨idx', free', by simp only [freeChain, hnext]; exact heq, hlayout',
      hnum, hstep.trans hagree, fun i => ?_⟩
    rw [hentries i]
    exact (entries_setNext _ _ _).trans (entries_setNext _ _ _)

end

theorem chainSlots_take (p m : Nat) (overflow : List Nat) :
    chainSlots p (overflow.take m) = (chainSlots p overflow).take (m + 1) := by
  simp [chainSlots]

/-- Cutting a chain after its first `m + 1` slots. -/
theorem Layout.cut (h : Layout capacity idx chains free) (hp : p < idx.numPSlots) {m : Nat}
    (hlast : (chainSlots p (chains p))[m]? = some i) :
    Layout capacity (idx.setNext i none) (update chains p ((chains p).take m)) free := by
  have hi : i ∈ chainSlots p (chains p) := mem_of_getElem? hlast
  have hsub : ∀ q, ∀ o ∈ update chains p ((chains p).take m) q, o ∈ chains q := by
    intro q o ho
    rcases eq_or_ne q p with rfl | hq
    · rw [update_self] at ho
      exact mem_of_mem_take ho
    · rwa [update_of_ne hq] at ho
  refine ⟨fun q hq => ?_, h.firstFree, h.linkedFree.congr fun i' hi' => ?_, fun q hq => ?_,
    fun q hq r hr o ho ho' => h.disjoint q hq r hr o (hsub q o ho) (hsub r o ho'), h.nodupFree,
    fun q hq o ho => h.disjointFree q hq o (hsub q o ho),
    fun q hq o ho => h.lt q hq o (hsub q o ho), h.ltFree, fun o ho j hj => ?_⟩
  · rcases eq_or_ne q p with rfl | hqp
    · rw [update_self, chainSlots_take]
      intro k i' hk
      rw [getElem?_take] at hk ⊢
      split at hk
      · rename_i hkm
        rcases eq_or_ne k m with rfl | hkeq
        · rw [hlast] at hk
          cases hk
          rw [next_setNext_self, if_neg (by omega)]
          rfl
        · have hne : i' ≠ i := by
            rintro rfl
            exact hkeq (getElem?_inj_of_nodup (h.chain_nodup hq) hk hlast)
          rw [slots_setNext_of_ne hne, if_pos (by omega)]
          exact h.linked q hq k i' hk
      · cases hk
    · rw [update_of_ne hqp]
      refine (h.linked q hq).congr fun i' hi' => ?_
      rw [slots_setNext_of_ne]
      rintro rfl
      exact hqp (h.chain_disjoint hq hp hi' hi)
  · rw [slots_setNext_of_ne]
    rintro rfl
    exact h.chain_not_free hp hi hi'
  · rcases eq_or_ne q p with rfl | hqp
    · rw [update_self]
      exact (h.nodup q hq).sublist (take_sublist _ _)
    · rw [update_of_ne hqp]
      exact h.nodup q hq
  · rw [entries_setNext]
    exact h.emptyFree o ho j hj

variable {T : KeyType K} {L : List (SlotEntry K)} {k : Nat}

/-- `reclaimOverflowSlots` cuts the chain to the slots that its entries need. -/
theorem Layout.reclaim (h : Layout T.slotCapacity idx chains free) (hp : p < idx.numPSlots)
    (hholds : Holds T.slotCapacity idx.slots (chainSlots p (chains p)) L)
    (hi : (chainSlots p (chains p))[k]? = some i) (hkeep : k = 0 ∨ k * T.slotCapacity < L.length) :
    ∃ idx' m free', reclaimOverflowSlots T idx i = some idx' ∧
      Layout T.slotCapacity idx' (update chains p ((chains p).take m)) free' ∧
      Frame idx idx' chains ∧ L.length ≤ (m + 1) * T.slotCapacity ∧
      (m = 0 ∨ m * T.slotCapacity < L.length) := by
  have hlinked := h.linked p hp
  have hcap := T.slotCapacity_pos
  unfold reclaimOverflowSlots
  rw [nextChainedSlot_eq hlinked hi]
  cases hnext : (chainSlots p (chains p))[k + 1]? with
  | none =>
    -- the chain ends here already
    have hk := lt_length_of_getElem? hi
    have hlen := getElem?_eq_none_iff.mp hnext
    have hle := hholds.length_le hcap
    rw [length_chainSlots] at hk hlen hle
    refine ⟨idx, k, free, rfl, ?_, ⟨rfl, .refl _, fun _ _ _ _ => rfl⟩, ?_, hkeep⟩
    · rw [take_of_length_le (by omega), update_eq_self]
      exact h
    · rwa [show k + 1 = (chains p).length + 1 by omega]
  | some =>
    have hfuel : (chainSlots p (chains p)).length ≤ k + idx.chainFuel := by
      have := h.chain_length_le hp
      omega
    obtain ⟨m, last, hkm, hmlen, hlast, hskip, hneed, htight⟩ :=
      skipNonEmptySlots_spec hlinked hholds (fun _ _ => isPrimary_iff) hi hkeep hfuel i
    obtain ⟨m, rfl⟩ : ∃ n, m = n + 1 := ⟨m - 1, by omega⟩
    have hcut := h.cut hp hlast
    have htight' : m = 0 ∨ m * T.slotCapacity < L.length := htight.imp_left (by omega)
    rw [hskip]
    simp only
    cases hrest : (chainSlots p (chains p))[m + 1]? with
    | none =>
      exact ⟨_, m, free, rfl, hcut, ⟨rfl, .refl _, fun _ _ _ _ => entries_setNext _ _ _⟩, hneed,
        htight'⟩
    | some i' =>
      -- the overflow slots from `m` on are empty and go to the free slots
      have hmap : ((chains p).drop m).head?.map SlotInfo.ovf = some i' := by
        rw [head?_drop, ← chainSlots_getElem?_succ]
        exact hrest
      obtain ⟨o, ho, rfl⟩ := Option.map_eq_some_iff.mp hmap
      obtain ⟨rest, hos⟩ := head?_eq_some_iff.mp ho
      have hmem : ∀ o' ∈ o :: rest, o' ∈ chains p := by
        intro o' ho'
        rw [← hos] at ho'
        exact mem_of_mem_drop ho'
      have hindex : ∀ o' ∈ o :: rest, ∃ k', m < k' ∧
          (chainSlots p (chains p))[k']? = some (.ovf o') := by
        intro o' ho'
        rw [← hos] at ho'
        obtain ⟨n, hn⟩ := getElem?_of_mem ho'
        rw [getElem?_drop] at hn
        exact ⟨m + n + 1, by omega, by rw [chainSlots_getElem?_succ, hn]; rfl⟩
      have hne : ∀ o' ∈ o :: rest, SlotInfo.ovf o' ≠ last := by
        rintro o' ho' rfl
        obtain ⟨_, hk', hget⟩ := hindex o' ho'
        have := getElem?_inj_of_nodup (h.chain_nodup hp) hget hlast
        omega
      have hlinkedRest : Linked (idx.setNext last none).slots ((o :: rest).map .ovf) := by
        intro n i'' hn
        have hn' : (chainSlots p (chains p))[m + n + 1]? = some i'' := by
          rw [← hos, getElem?_map, getElem?_drop] at hn
          rw [chainSlots_getElem?_succ]
          exact hn
        obtain ⟨o', ho', rfl⟩ := mem_map.mp (mem_of_getElem? hn)
        rw [slots_setNext_of_ne (hne o' ho'), hlinked _ _ hn', ← hos, chainSlots_getElem?_succ,
          getElem?_map, getElem?_drop, Nat.add_assoc]
      have hnodup : (o :: rest).Nodup := hos ▸ (h.nodup p hp).sublist (drop_sublist _ _)
      have hkept : ∀ q < idx.numPSlots, ∀ o' ∈ o :: rest,
          o' ∉ update chains p ((chains p).take m) q := by
        intro q hq o' ho' hmem'
        rcases eq_or_ne q p with rfl | hqp
        · rw [update_self] at hmem'
          rw [← hos] at ho'
          exact disjoint_take_drop (h.nodup q hq) (le_refl m) hmem' ho'
        · rw [update_of_ne hqp] at hmem'
          exact hqp (h.disjoint q hq p hp o' hmem' (hmem o' ho'))
      have hfuel' : rest.length < (idx.setNext last none).chainFuel := by
        have hlen := congrArg length hos
        have := h.chain_length_le hp
        rw [length_chainSlots] at this
        simp only [length_drop, length_cons] at hlen
        show rest.length < idx.chainFuel
        omega
      obtain ⟨idx', free', heq, hlayout, hnum, hagree, hentries⟩ :=
        hcut.freeChain hlinkedRest hnodup
        (fun o' ho' => h.lt p hp o' (hmem o' ho')) hkept
        (fun o' ho' => h.disjointFree p hp o' (hmem o' ho'))
        (fun o' ho' j hj => by
          obtain ⟨k', hk', hget⟩ := hindex o' ho'
          rw [entries_setNext, hholds.entries hj hget, getElem?_eq_none]
          have : (m + 1) * T.slotCapacity ≤ k' * T.slotCapacity := Nat.mul_le_mul_right _ hk'
          omega)
        hfuel'
      refine ⟨idx', m, free', heq, hlayout, ⟨hnum, hagree, fun q hq i'' hi'' => ?_⟩, hneed, htight'⟩
      rw [hentries i'', entries_setNext]

end InMemHashIndex

end Lbug.Index
