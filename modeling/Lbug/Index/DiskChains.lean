/-
  Index/DiskChains.lean --- what the chains of a persistent index hold.

  The chains of a persistent index have gaps, so a chain holds the entries at its
  positions in any order (`chainList`).  A write to one position adds or removes one entry,
  and an empty slot at the end of a chain adds none.  `DiskStored` says that the chains are
  laid out as those of an in-memory index, without free slots, and that each entry is in
  the chain of its key.
-/
import Lbug.Index.HashIndex
import Lbug.Index.InMemOperations

namespace Lbug.Index

open InMemHashIndex List Option

/-! ## Positions -/

section Positions

variable {α : Type} {f g : Nat → Option α} {n x : Nat} {a : α}

theorem filterMap_range_congr (h : ∀ y < n, g y = f y) :
    (range n).filterMap g = (range n).filterMap f :=
  filterMap_congr fun y hy => h y (mem_range.mp hy)

/-- A position that was empty gets an entry. -/
theorem filterMap_range_fill (hx : x < n) (hf : f x = none) (hg : g x = some a)
    (hother : ∀ y, y ≠ x → g y = f y) :
    ((range n).filterMap g : Multiset α) = a ::ₘ ((range n).filterMap f : Multiset α) := by
  have hperm := perm_cons_erase (mem_range.mpr hx)
  have hrest : ((range n).erase x).filterMap g = ((range n).erase x).filterMap f :=
    filterMap_congr fun y hy => hother y (nodup_range.mem_erase_iff.mp hy).1
  have hgs := hperm.filterMap g
  have hfs := hperm.filterMap f
  rw [filterMap_cons_some hg, hrest] at hgs
  rw [filterMap_cons_none hf] at hfs
  exact Multiset.coe_eq_coe.mpr (hgs.trans (hfs.symm.cons a))

theorem mem_filterMap_range : a ∈ (range n).filterMap f ↔ ∃ y < n, f y = some a := by
  simp [mem_filterMap]

/-- Empty positions at the end hold nothing. -/
theorem filterMap_range_extend {m : Nat} (hnm : n ≤ m) (hsame : ∀ y < n, g y = f y)
    (hempty : ∀ y, n ≤ y → y < m → g y = none) :
    (range m).filterMap g = (range n).filterMap f := by
  obtain ⟨k, rfl⟩ := Nat.exists_eq_add_of_le hnm
  rw [range_add, filterMap_append, filterMap_range_congr hsame, filterMap_map]
  have hnil : (range k).filterMap (g ∘ fun y => n + y) = [] := by
    rw [filterMap_eq_nil_iff]
    intro y hy
    exact hempty (n + y) (Nat.le_add_right n y) (by have := mem_range.mp hy; omega)
  rw [hnil, append_nil]

end Positions

/-! ## The entries of a chain -/

variable {K : Type} {capacity : Nat} {slots slots' : SlotInfo → Slot K} {chain : List SlotInfo}
  {i : SlotInfo}

/-- The entries of a chain in the order of their positions. -/
def chainList (capacity : Nat) (slots : SlotInfo → Slot K) (chain : List SlotInfo) :
    List (SlotEntry K) :=
  (List.range (chain.length * capacity)).filterMap (entryAt capacity slots chain)

theorem chainList_congr (h : ∀ i ∈ chain, (slots' i).entries = (slots i).entries) :
    chainList capacity slots' chain = chainList capacity slots chain :=
  filterMap_range_congr fun x _ => entryAt_congr h x

theorem mem_chainList {e : SlotEntry K} : e ∈ chainList capacity slots chain ↔
      ∃ x < chain.length * capacity, entryAt capacity slots chain x = some e :=
  mem_filterMap_range

/-- A position of slot `k` is a position of the chain. -/
theorem position_lt {k j : Nat} (hi : chain[k]? = some i) (hj : j < capacity) :
    k * capacity + j < chain.length * capacity := by
  have hle : (k + 1) * capacity ≤ chain.length * capacity :=
    Nat.mul_le_mul_right capacity (lt_length_of_getElem? hi)
  rw [Nat.add_mul] at hle
  omega

theorem chainList_extend (hcap : 0 < capacity)
    (hsame : ∀ i ∈ chain, (slots' i).entries = (slots i).entries)
    (hempty : ∀ j < capacity, (slots' i).entries j = none) :
    chainList capacity slots' (chain ++ [i]) = chainList capacity slots chain := by
  have hlength : (chain ++ [i]).length * capacity = chain.length * capacity + capacity := by
    rw [length_append, length_singleton, Nat.add_mul, one_mul]
  refine filterMap_range_extend (by omega) (fun x hx => ?_) (fun x hle hlt => ?_)
  · have hdiv : x / capacity < chain.length := (Nat.div_lt_iff_lt_mul hcap).mpr hx
    rw [← entryAt_congr hsame, entryAt, entryAt, getElem?_append_left hdiv]
  have hdiv : x / capacity = chain.length := by
    refine Nat.div_eq_of_lt_le (by omega) ?_
    rw [Nat.succ_mul]
    omega
  rw [entryAt, hdiv, getElem?_concat_length]
  exact hempty _ (Nat.mod_lt x hcap)

theorem chainList_of_empty (h : ∀ i ∈ chain, ∀ j, (slots i).entries j = none) :
    chainList capacity slots chain = [] := by
  rw [chainList, filterMap_eq_nil_iff]
  intro x _
  rw [entryAt]
  cases hi : chain[x / capacity]? with
  | none => rfl
  | some i => exact h i (mem_of_getElem? hi) _

/-! ## One write -/

namespace InMemHashIndex

variable {idx idx' : InMemHashIndex K} {chains chains' : Nat → List Nat} {free : List Nat}
  {p q k j : Nat} {i : SlotInfo} {e : SlotEntry K} {T : KeyType K}

/-- The entries of the chain of a primary slot. -/
def contentOf (capacity : Nat) (idx : InMemHashIndex K) (chains : Nat → List Nat) (p : Nat) :
    List (SlotEntry K) :=
  chainList capacity idx.slots (chainSlots p (chains p))

section

variable (h : Layout capacity idx chains free) (hp : p < idx.numPSlots)

include h hp

section

variable (hi : (chainSlots p (chains p))[k]? = some i) (hj : j < capacity)

include hi hj

theorem Layout.content_setEntry_some (hempty : (idx.slots i).entries j = none) :
    (contentOf capacity (idx.setEntry i j (some e)) chains p : Multiset (SlotEntry K)) =
      e ::ₘ (contentOf capacity idx chains p : Multiset (SlotEntry K)) := by
  refine filterMap_range_fill (position_lt hi hj) ?_ ?_ fun y hy => ?_
  · rw [entryAt_eq hj hi, hempty]
  · rw [h.entryAt_setEntry hp hi hj, if_pos rfl]
  · rw [h.entryAt_setEntry hp hi hj, if_neg hy]

theorem Layout.content_setEntry_none (he : (idx.slots i).entries j = some e) :
    (contentOf capacity idx chains p : Multiset (SlotEntry K)) =
      e ::ₘ (contentOf capacity (idx.setEntry i j none) chains p : Multiset (SlotEntry K)) := by
  refine filterMap_range_fill (position_lt hi hj) ?_ ?_ fun y hy => ?_
  · rw [h.entryAt_setEntry hp hi hj, if_pos rfl]
  · rw [entryAt_eq hj hi, he]
  · rw [h.entryAt_setEntry hp hi hj, if_neg hy]

end

theorem Layout.content_setEntry_of_ne (hq : q < idx.numPSlots) (hne : q ≠ p)
    (hi : i ∈ chainSlots p (chains p)) (pos : Nat) (entry : Option (SlotEntry K)) :
    contentOf capacity (idx.setEntry i pos entry) chains q = contentOf capacity idx chains q :=
  filterMap_range_congr fun x _ => h.entryAt_setEntry_of_ne hp hq hne hi pos entry x

end

/-! ## Extending a chain -/

/-- A new overflow slot at the end of a chain, in an index without free slots. -/
def extendChain (idx : InMemHashIndex K) (i : SlotInfo) : InMemHashIndex K :=
  (idx.resizeOSlots 1).setNext i (some idx.numOSlots)

theorem Layout.extendChain (h : Layout capacity idx chains []) (hp : p < idx.numPSlots)
    (hlast : (chainSlots p (chains p))[(chains p).length]? = some i) :
    Layout capacity (idx.extendChain i) (Function.update chains p (chains p ++ [idx.numOSlots]))
      [] ∧
      Frame idx (idx.extendChain i) chains ∧
      ∀ j < capacity, ((idx.extendChain i).slots (.ovf idx.numOSlots)).entries j = none := by
  obtain ⟨free', hlayout, hframe, hempty⟩ := h.extend hp hlast
  rw [InMemHashIndex.allocateAOSlot, h.firstFree] at hlayout hframe hempty
  have hnil : free' = [] := head?_eq_none_iff.mp (hlayout.firstFree.symm.trans h.firstFree)
  subst hnil
  exact ⟨hlayout, hframe, hempty⟩

theorem Layout.content_extendChain (h : Layout capacity idx chains []) (hcap : 0 < capacity)
    (hp : p < idx.numPSlots)
    (hlast : (chainSlots p (chains p))[(chains p).length]? = some i) (hq : q < idx.numPSlots) :
    contentOf capacity (idx.extendChain i)
        (Function.update chains p (chains p ++ [idx.numOSlots])) q =
      contentOf capacity idx chains q := by
  obtain ⟨-, hframe, hempty⟩ := h.extendChain hp hlast
  rcases eq_or_ne q p with rfl | hqp
  · have hchain : chainSlots q (chains q ++ [idx.numOSlots]) =
        chainSlots q (chains q) ++ [.ovf idx.numOSlots] := by simp [chainSlots]
    rw [contentOf, Function.update_self, hchain]
    exact chainList_extend hcap (hframe.entries q hq) hempty
  · rw [contentOf, Function.update_of_ne hqp]
    exact chainList_congr (hframe.entries q hq)

end InMemHashIndex

/-! ## Persistent indexes -/

/-- The chains of the index are well formed and each entry is in the chain of its key. -/
structure DiskStored {K : Type} (T : KeyType K) (idx : InMemHashIndex K) (chains : Nat → List Nat) :
    Prop where
  layout : Layout T.persistentSlotCapacity idx chains []
  covers : idx.indexHeader.Covers idx.numPSlots
  placed : ∀ p < idx.numPSlots, ∀ e ∈ contentOf T.persistentSlotCapacity idx chains p,
    Placed T idx.indexHeader p e

/-- All entries of the index. -/
def diskTotal {K : Type} (T : KeyType K) (idx : InMemHashIndex K) (chains : Nat → List Nat) :
    Multiset (SlotEntry K) :=
  total idx.numPSlots (contentOf T.persistentSlotCapacity idx chains)

namespace DiskStored

variable {T : KeyType K} {idx idx' : InMemHashIndex K} {chains chains' : Nat → List Nat}
  {e : SlotEntry K}

variable (h : DiskStored T idx chains)

include h

/-- The chain of a key holds all its entries. -/
theorem mem_home :
    e ∈ contentOf T.persistentSlotCapacity idx chains (home T idx e.key) ↔
      e ∈ diskTotal T idx chains := by
  rw [diskTotal, mem_total]
  constructor
  · exact fun he => ⟨_, h.covers.slot_lt _, he⟩
  · rintro ⟨p, hp, he⟩
    have hslot := (h.placed p hp e he).slot
    rw [home, hslot]
    exact he

/-- Slots that do not exist do not matter. -/
theorem congr (hheader : idx'.indexHeader = idx.indexHeader) (hp : idx'.numPSlots = idx.numPSlots)
    (ho : idx'.numOSlots = idx.numOSlots)
    (hprimary : ∀ t, idx'.slots (.primary t) = idx.slots (.primary t))
    (hovf : ∀ o < idx.numOSlots, idx'.slots (.ovf o) = idx.slots (.ovf o)) :
    DiskStored T idx' chains ∧ diskTotal T idx' chains = diskTotal T idx chains := by
  have hslots : ∀ t < idx.numPSlots, ∀ i ∈ chainSlots t (chains t), idx'.slots i = idx.slots i := by
    intro t ht i hi
    rcases mem_chainSlots.mp hi with rfl | ⟨o, ho, rfl⟩
    · exact hprimary t
    · exact hovf o (h.layout.lt t ht o ho)
  have hcontent : ∀ t < idx.numPSlots, contentOf T.persistentSlotCapacity idx' chains t =
      contentOf T.persistentSlotCapacity idx chains t :=
    fun t ht => chainList_congr fun i hi => by rw [hslots t ht i hi]
  refine ⟨⟨?_, ?_, ?_⟩, ?_⟩
  · exact {
      linked := fun t ht => by
        rw [hp] at ht
        exact (h.layout.linked t ht).congr fun i hi => by rw [hslots t ht i hi]
      firstFree := by
        rw [hheader]
        exact h.layout.firstFree
      linkedFree := fun k i hk => by cases hk
      nodup := hp ▸ h.layout.nodup
      disjoint := hp ▸ h.layout.disjoint
      nodupFree := nodup_nil
      disjointFree := hp ▸ h.layout.disjointFree
      lt := fun t ht o hot => by
        rw [ho]
        exact h.layout.lt t (hp ▸ ht) o hot
      ltFree := fun o hot => by cases hot
      emptyFree := fun o hot => by cases hot }
  · rw [hheader, hp]
    exact h.covers
  · intro t ht e he
    rw [hp] at ht
    rw [hcontent t ht] at he
    rw [hheader]
    exact h.placed t ht e he
  · rw [diskTotal, hp]
    exact total_congr hcontent

variable [DecidableEq K]

/-- `lookupInPersistentIndex` finds a visible entry of the key if there is one. -/
theorem lookup (n : Nat) (hnum : idx.indexHeader.numEntries = (diskTotal T idx chains).card)
    (key : K) (isVisible : Nat → Bool) :
    (∃ e ∈ diskTotal T idx chains, e.key = key ∧ isVisible e.value = true ∧
      HashIndex.lookupInPersistentIndex T ⟨idx, n⟩ key isVisible = some (some e.value)) ∨
    (¬ Visible (diskTotal T idx chains) key isVisible ∧
      HashIndex.lookupInPersistentIndex T ⟨idx, n⟩ key isVisible = some none) := by
  unfold HashIndex.lookupInPersistentIndex
  by_cases hzero : idx.indexHeader.numEntries = 0
  · right
    rw [if_pos hzero]
    rw [hnum, Multiset.card_eq_zero] at hzero
    refine ⟨?_, rfl⟩
    rintro ⟨e, he, -⟩
    rw [hzero] at he
    exact Multiset.notMem_zero e he
  · rw [if_neg hzero]
    have hp : home T idx key < idx.numPSlots := h.covers.slot_lt (T.hash key)
    have hchain : (chainSlots (home T idx key) (chains (home T idx key)))[0]? =
      some (slotOf T idx key) := rfl
    rcases findKey_of_gaps (T := T.persistent) (fun e => matchesKey T key e && isVisible e.value)
      idx.chainFuel (h.layout.linked _ hp) hchain
      ((h.layout.chain_length_le hp).trans (Nat.le_add_left _ _)) with
      ⟨k, i, j, e, hi, hj, he, hfound, heq⟩ | ⟨hnone, heq⟩
    · left
      replace hj : j < T.persistentSlotCapacity := hj
      have hmem : e ∈ contentOf T.persistentSlotCapacity idx chains (home T idx key) :=
        mem_chainList.mpr ⟨_, position_lt hi hj, by rw [entryAt_eq hj hi, he]⟩
      rw [Bool.and_eq_true] at hfound
      have hkey := (matchesKey_iff (h.placed _ hp e hmem).fingerprint).mp hfound.1
      refine ⟨e, h.mem_home.mp (hkey ▸ hmem), hkey, hfound.2, ?_⟩
      simp [heq, he]
    · right
      refine ⟨?_, by simp [heq]⟩
      rintro ⟨e, he, hkey, hvisible⟩
      have hmem := h.mem_home.mpr he
      rw [hkey] at hmem
      obtain ⟨x, hx, hentry⟩ := mem_chainList.mp hmem
      have hcap := T.persistentSlotCapacity_pos
      obtain ⟨i, hi, hentry⟩ := bind_eq_some_iff.mp hentry
      have hfalse := hnone _ i _ e (Nat.zero_le _) hi (Nat.mod_lt x hcap) hentry
      rw [(matchesKey_iff (h.placed _ hp e hmem).fingerprint).mpr hkey, hvisible] at hfalse
      cases hfalse

end DiskStored

end Lbug.Index
