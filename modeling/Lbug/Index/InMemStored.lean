/-
  Index/InMemStored.lean --- what the in-memory index stores.

  `Stored T idx chains free content` says that the chain of each primary slot `p` holds
  the list `content p` without gaps, with no empty overflow slot, and that every entry is
  in the chain its hash belongs to.  Splitting slots moves entries between chains;
  `reserve`, `new` and `clear` establish or keep the invariant.
-/
import Lbug.Index.InMemSplit
import Lbug.Foundation.Sums
import Mathlib.Algebra.Order.Group.Multiset

namespace Lbug.Index

open List Function Multiset

/-- A chain that is cut behind its entries still holds them. -/
theorem Holds.take {K : Type} {capacity n : Nat} {slots : SlotInfo → Slot K}
    {chain : List SlotInfo} {L : List (SlotEntry K)} (hcap : 0 < capacity)
    (h : Holds capacity slots chain L) (hlen : L.length ≤ n * capacity) :
    Holds capacity slots (chain.take n) L := by
  intro x
  rw [entryAt, getElem?_take]
  split_ifs with hge
  · exact h x
  · have hx : n * capacity ≤ x := (Nat.le_div_iff_mul_le hcap).mp (not_lt.mp hge)
    rw [getElem?_eq_none (by omega)]
    rfl

namespace InMemHashIndex

variable {K : Type} {T : KeyType K} {idx idx' : InMemHashIndex K}
  {chains chains' : Nat → List Nat} {free free' : List Nat} {p n : Nat}
  {content : Nat → List (SlotEntry K)} {L : List (SlotEntry K)} {e : SlotEntry K}
  {h h' : HashIndexHeader}

/-- The entry belongs to the chain of `p` and has the fingerprint of its key. -/
structure Placed (T : KeyType K) (header : HashIndexHeader) (p : Nat) (e : SlotEntry K) : Prop where
  slot : header.getPrimarySlotIdForHash (T.hash e.key) = p
  fingerprint : e.fingerprint = getFingerprintForHash (T.hash e.key)

structure Stored (T : KeyType K) (idx : InMemHashIndex K) (chains : Nat → List Nat)
    (free : List Nat) (content : Nat → List (SlotEntry K)) : Prop where
  layout : Layout T.slotCapacity idx chains free
  covers : idx.indexHeader.Covers idx.numPSlots
  holds : ∀ p < idx.numPSlots, Holds T.slotCapacity idx.slots (chainSlots p (chains p)) (content p)
  tight : ∀ p < idx.numPSlots, Tight T.slotCapacity (chainSlots p (chains p)) (content p)
  placed : ∀ p < idx.numPSlots, ∀ e ∈ content p, Placed T idx.indexHeader p e

theorem Placed.agrees (hp : Placed T h p e) (hagree : h.Agrees h') : Placed T h' p e :=
  ⟨(hagree.slot _).trans hp.slot, hp.fingerprint⟩

/-! ## All entries of an index -/

/-- The entries of the first `n` chains. -/
def total (n : Nat) (content : Nat → List (SlotEntry K)) : Multiset (SlotEntry K) :=
  ∑ p ∈ Finset.range n, (content p : Multiset (SlotEntry K))

theorem mem_total : e ∈ total n content ↔ ∃ p < n, e ∈ content p := by
  simp [total]

theorem total_congr {content' : Nat → List (SlotEntry K)} (h : ∀ p < n, content' p = content p) :
    total n content' = total n content :=
  Finset.sum_congr rfl fun p hp => by rw [h p (Finset.mem_range.mp hp)]

theorem total_update (hp : p < n) (L : List (SlotEntry K)) :
    total n (update content p L) + (content p : Multiset (SlotEntry K)) =
      total n content + (L : Multiset (SlotEntry K)) :=
  Foundation.sum_update_add (Finset.mem_range.mpr hp) (fun _ l => ofList l) content L

/-! ## Changing one chain -/

/-- Nothing but the chain of `p` and the free slots differ. -/
structure OnlyAt (p : Nat) (idx idx' : InMemHashIndex K) (chains chains' : Nat → List Nat) :
    Prop where
  numPSlots : idx'.numPSlots = idx.numPSlots
  header : idx.indexHeader.Agrees idx'.indexHeader
  others : ∀ q < idx.numPSlots, q ≠ p → chains' q = chains q ∧
    ∀ i ∈ chainSlots q (chains q), (idx'.slots i).entries = (idx.slots i).entries

theorem Stored.replace (h : Stored T idx chains free content)
    (hlayout : Layout T.slotCapacity idx' chains' free') (honly : OnlyAt p idx idx' chains chains')
    (hholds : Holds T.slotCapacity idx'.slots (chainSlots p (chains' p)) L)
    (htight : Tight T.slotCapacity (chainSlots p (chains' p)) L)
    (hplaced : ∀ e ∈ L, Placed T idx.indexHeader p e) :
    Stored T idx' chains' free' (update content p L) where
  layout := hlayout
  covers := by
    rw [honly.numPSlots]
    exact honly.header.covers h.covers
  holds q hq := by
    rw [honly.numPSlots] at hq
    rcases eq_or_ne q p with rfl | hqp
    · rw [update_self]
      exact hholds
    · obtain ⟨hchain, hentries⟩ := honly.others q hq hqp
      rw [update_of_ne hqp, hchain]
      exact (h.holds q hq).congr hentries
  tight q hq := by
    rw [honly.numPSlots] at hq
    rcases eq_or_ne q p with rfl | hqp
    · rw [update_self]
      exact htight
    · rw [update_of_ne hqp, (honly.others q hq hqp).1]
      exact h.tight q hq
  placed q hq e he := by
    rw [honly.numPSlots] at hq
    rcases eq_or_ne q p with rfl | hqp
    · rw [update_self] at he
      exact (hplaced e he).agrees honly.header
    · rw [update_of_ne hqp] at he
      exact (h.placed q hq e he).agrees honly.header

/-- The number of entries in the header matters to none of this. -/
theorem Stored.congr_header (h : Stored T idx chains free content) (numEntries : Nat) :
    Stored T { idx with indexHeader := { idx.indexHeader with numEntries := numEntries } } chains
      free content where
  layout := h.layout.congr_header rfl
  covers := ⟨h.covers.size, h.covers.split_lt⟩
  holds := h.holds
  tight := h.tight
  placed p hp e he := ⟨(h.placed p hp e he).slot, (h.placed p hp e he).fingerprint⟩

/-! ## Splitting a slot -/

theorem incrementNextSplitSlotId_free (h : HashIndexHeader) :
    h.incrementNextSplitSlotId.firstFreeOverflowSlotId = h.firstFreeOverflowSlotId := by
  unfold HashIndexHeader.incrementNextSplitSlotId HashIndexHeader.incrementLevel
  split <;> rfl

theorem incrementNextSplitSlotId_numEntries (h : HashIndexHeader) :
    h.incrementNextSplitSlotId.numEntries = h.numEntries := by
  unfold HashIndexHeader.incrementNextSplitSlotId HashIndexHeader.incrementLevel
  split <;> rfl

/-- The content after a split of `p` with the new slot `q`. -/
def splitContent (p q : Nat) (stay moved : List (SlotEntry K))
    (content : Nat → List (SlotEntry K)) : Nat → List (SlotEntry K) :=
  update (update content p stay) q moved

/-- A split without the change of the header: the chain of the slot keeps the entries
that stay, the chain of the new slot gets those that move. -/
structure SplitResult (T : KeyType K) (idx : InMemHashIndex K)
    (content : Nat → List (SlotEntry K)) (idx' : InMemHashIndex K) (chains' : Nat → List Nat)
    (free' : List Nat) (stay moved : List (SlotEntry K)) : Prop where
  layout : Layout T.slotCapacity idx' chains' free'
  numPSlots : idx'.numPSlots = idx.numPSlots + 1
  header : idx.indexHeader.Agrees idx'.indexHeader
  stay_eq : stay = (content idx.indexHeader.nextSplitSlotId).filter
    (Stays T idx.indexHeader.currentLevel idx.indexHeader.nextSplitSlotId)
  moved_eq : moved = (content idx.indexHeader.nextSplitSlotId).filter
    (fun e => !Stays T idx.indexHeader.currentLevel idx.indexHeader.nextSplitSlotId e)
  holds : ∀ q < idx'.numPSlots, Holds T.slotCapacity idx'.slots (chainSlots q (chains' q))
    (splitContent idx.indexHeader.nextSplitSlotId idx.numPSlots stay moved content q)
  tight : ∀ q < idx'.numPSlots, Tight T.slotCapacity (chainSlots q (chains' q))
    (splitContent idx.indexHeader.nextSplitSlotId idx.numPSlots stay moved content q)

/-- A new primary slot holds nothing. -/
theorem holds_allocatePSlots (hge : idx.numPSlots ≤ p) :
    Holds T.slotCapacity (idx.allocatePSlots n).slots (chainSlots p []) [] := by
  intro x
  rw [entryAt]
  cases hi : (chainSlots p [])[x / T.slotCapacity]? with
  | none => rfl
  | some i =>
    obtain rfl : i = .primary p := by simpa [chainSlots] using mem_of_getElem? hi
    simp [allocatePSlots, hge]

/-- The index before the loop: the new slot is there and overflow slots are reserved. -/
theorem Stored.prepare (h : Stored T idx chains free content) (count : Nat) :
    ∃ idx₂ free', idx₂ = (idx.allocatePSlots 1).reserveOverflowSlots count ∧
      Layout T.slotCapacity idx₂ (fun q => if q < idx.numPSlots then chains q else []) free' ∧
      idx₂.numPSlots = idx.numPSlots + 1 ∧ idx.indexHeader.Agrees idx₂.indexHeader ∧
      (∀ q < idx.numPSlots, Holds T.slotCapacity idx₂.slots (chainSlots q (chains q)) (content q)) ∧
      Holds T.slotCapacity idx₂.slots (chainSlots idx.numPSlots []) [] := by
  obtain ⟨free', hlayout, hframe⟩ := (h.layout.allocatePSlots 1).reserveOverflowSlots count
  refine ⟨_, free', rfl, hlayout, hframe.numPSlots, hframe.header, fun q hq => ?_, ?_⟩
  · have hkept := hframe.entries q (Nat.lt_add_right 1 hq)
    simp only [hq] at hkept
    exact (h.holds q hq).congr fun i hi => by rw [hkept i hi, slots_allocatePSlots 1 hq hi]
  · have hkept := hframe.entries idx.numPSlots (Nat.lt_succ_self _)
    simp only [lt_irrefl] at hkept
    exact (holds_allocatePSlots (le_refl _)).congr hkept

theorem tight_of_cut {overflow : List Nat} {m : Nat} (h : m = 0 ∨ m * T.slotCapacity < L.length) :
    Tight T.slotCapacity (chainSlots p (overflow.take m)) L := by
  rw [Tight, length_chainSlots, length_take]
  rcases h with rfl | hlt
  · left
    simp
  · right
    exact lt_of_le_of_lt (Nat.mul_le_mul_right _ (min_le_left _ _)) hlt

/-- The loop and the reclaiming of the overflow slots that it emptied. -/
theorem Stored.splitLoop (h : Stored T idx chains free content) (count : Nat) :
    ∃ idx₃ slotForInsert idx' chains' free' stay moved, splitLoop T
        ((((idx.allocatePSlots 1).reserveOverflowSlots count).numOSlots + 2) *
          (T.slotCapacity + 1)) ((idx.allocatePSlots 1).reserveOverflowSlots count)
        ⟨.primary idx.indexHeader.nextSplitSlotId, 0, .primary idx.indexHeader.nextSplitSlotId, 0,
          .primary idx.numPSlots, 0, false⟩ = some (idx₃, slotForInsert) ∧
      reclaimOverflowSlots T idx₃ slotForInsert = some idx' ∧
      SplitResult T idx content idx' chains' free' stay moved := by
  have hcap := T.slotCapacity_pos
  have hp : idx.indexHeader.nextSplitSlotId < idx.numPSlots := h.covers.split_lt_size
  obtain ⟨idx₂, free₂, hidx₂, hlayout, hnum, hagree, hholds, hnew⟩ := h.prepare count
  rw [← hidx₂]
  generalize hsplit : idx.indexHeader.nextSplitSlotId = p at *
  have hchain : ∀ q < idx.numPSlots,
      (fun q => if q < idx.numPSlots then chains q else []) q = chains q := fun q hq => if_pos hq
  have hchainNew : (fun q => if q < idx.numPSlots then chains q else []) idx.numPSlots = [] :=
    if_neg (lt_irrefl _)
  generalize (fun q => if q < idx.numPSlots then chains q else []) = chains₂ at *
  have hholdsP : Holds T.slotCapacity idx₂.slots (chainSlots p (chains₂ p)) (content p) := by
    rw [hchain p hp]
    exact hholds p hp
  have hstart : Splitting T idx₂.indexHeader.currentLevel p idx.numPSlots (content p) [] [] idx₂
      chains₂ free₂ ⟨.primary p, 0, .primary p, 0, .primary idx.numPSlots, 0, false⟩ 0 0 0 :=
    .start hlayout hholdsP hchainNew (by rw [hchainNew]; exact hnew)
  have hframe : SplitFrame idx₂ chains₂ p idx.numPSlots idx₂ chains₂ :=
    ⟨by omega, by omega, by omega, hagree.nextSplitSlotId.trans hsplit, rfl, .refl _, rfl,
      fun q hq _ _ => ⟨rfl, fun _ _ => rfl⟩⟩
  have hfuel : (chainSlots p (chains₂ p)).length * T.slotCapacity +
      (chainSlots p (chains₂ p)).length ≤
      0 + 0 + (idx₂.numOSlots + 2) * (T.slotCapacity + 1) := by
    have hlen := hlayout.chain_length_le (show p < idx₂.numPSlots by omega)
    rw [chainFuel] at hlen
    calc (chainSlots p (chains₂ p)).length * T.slotCapacity + (chainSlots p (chains₂ p)).length
        = (chainSlots p (chains₂ p)).length * (T.slotCapacity + 1) := by rw [Nat.mul_succ]
      _ ≤ (idx₂.numOSlots + 2) * (T.slotCapacity + 1) := Nat.mul_le_mul_right _ (by omega)
      _ = _ := by omega
  obtain ⟨idx₃, _, stay, moved, chains₃, _, _, _, hloop, hdone, hframe', htight⟩ :=
    hstart.loop hframe (.inl hchainNew) (hholdsP.length_le hcap) (Nat.zero_le _)
      (fun e he => (h.placed p hp e he).fingerprint) hfuel
  obtain ⟨idx', m, free', hreclaim, hlayout', hkept, hlen, hcut⟩ :=
    hdone.layout.reclaim hframe'.p_lt hdone.finish hdone.gapSlot hdone.gap_kept
  have hnum' : idx'.numPSlots = idx.numPSlots + 1 := by
    rw [hkept.numPSlots, hframe'.numPSlots, hnum]
  have hchains : ∀ q < idx'.numPSlots, Holds T.slotCapacity idx'.slots
        (chainSlots q (update chains₃ p ((chains₃ p).take m) q))
        (splitContent p idx.numPSlots stay moved content q) ∧
      Tight T.slotCapacity (chainSlots q (update chains₃ p ((chains₃ p).take m) q))
        (splitContent p idx.numPSlots stay moved content q) := by
    intro q hq
    have hq₃ : q < idx₃.numPSlots := by rwa [hkept.numPSlots] at hq
    have hentries := hkept.entries q hq₃
    rcases eq_or_ne q p with rfl | hqp
    · rw [update_self, splitContent, update_of_ne (by omega), update_self]
      refine ⟨?_, tight_of_cut hcut⟩
      rw [chainSlots_take]
      exact (hdone.finish.congr hentries).take hcap hlen
    · rw [update_of_ne hqp, splitContent]
      rcases eq_or_ne q idx.numPSlots with rfl | hqn
      · rw [update_self]
        refine ⟨hdone.new.congr hentries, ?_⟩
        rw [Tight, length_chainSlots, Nat.add_sub_cancel]
        refine htight.imp (fun hnil => by simp [hnil]) fun hpos => ?_
        have := hdone.newPos
        omega
      · have hqlt : q < idx.numPSlots := by omega
        obtain ⟨hsame, hentries₂⟩ := hframe'.others q hq₃ hqp hqn
        rw [update_of_ne hqn, update_of_ne hqp]
        rw [hsame, hchain q hqlt] at hentries hentries₂ ⊢
        exact ⟨((hholds q hqlt).congr hentries₂).congr hentries, h.tight q hqlt⟩
  refine ⟨idx₃, _, idx', _, free', stay, moved, hloop, hreclaim, hlayout', hnum', ?_, ?_, ?_,
    fun q hq => ?_, fun q hq => ?_⟩
  · exact (hagree.trans hframe'.header).trans hkept.header
  · rw [hdone.stay_eq, take_length, hagree.currentLevel, hsplit]
  · rw [hdone.moved_eq, take_length, hagree.currentLevel, hsplit]
  · rw [hsplit]
    exact (hchains q hq).1
  · rw [hsplit]
    exact (hchains q hq).2

/-- What a hash index with the entries of `content` may become: the number of entries in
the header and the entries as a whole stay. -/
structure Rearranged (idx idx' : InMemHashIndex K) (content content' : Nat → List (SlotEntry K)) :
    Prop where
  numEntries : idx'.indexHeader.numEntries = idx.indexHeader.numEntries
  total : total idx'.numPSlots content' = total idx.numPSlots content

theorem Rearranged.trans {idx₁ idx₂ idx₃ : InMemHashIndex K}
    {content₁ content₂ content₃ : Nat → List (SlotEntry K)}
    (h : Rearranged idx₁ idx₂ content₁ content₂) (h' : Rearranged idx₂ idx₃ content₂ content₃) :
    Rearranged idx₁ idx₃ content₁ content₃ :=
  ⟨h'.numEntries.trans h.numEntries, h'.total.trans h.total⟩

theorem total_splitContent (hp : p < n) (f : SlotEntry K → Bool) :
    total (n + 1) (splitContent p n ((content p).filter f)
      ((content p).filter fun e => !f e) content) = total n content := by
  have hlast : total (n + 1) (splitContent p n ((content p).filter f)
      ((content p).filter fun e => !f e) content) =
      total n (update content p ((content p).filter f)) +
        ((content p).filter fun e => !f e : Multiset (SlotEntry K)) := by
    rw [total, Finset.sum_range_succ]
    congr 1
    · exact total_congr fun q hq => update_of_ne (ne_of_lt hq) _ _
    · rw [splitContent, update_self]
  have hparts : ((content p).filter f : Multiset (SlotEntry K)) +
      ((content p).filter fun e => !f e : Multiset (SlotEntry K)) = (content p : Multiset _) := by
    rw [coe_add, coe_eq_coe]
    exact filter_append_perm f (content p)
  have hupdate : total n (update content p ((content p).filter f)) +
      (content p : Multiset (SlotEntry K)) = total n content +
        ((content p).filter f : Multiset (SlotEntry K)) := total_update hp _
  apply add_right_cancel (b := (content p : Multiset (SlotEntry K)))
  rw [hlast, add_right_comm, hupdate, add_assoc, hparts]

/-- After the split the level puts each entry where it now is. -/
theorem SplitResult.placed {stay moved : List (SlotEntry K)}
    (hres : SplitResult T idx content idx' chains' free' stay moved)
    (h : Stored T idx chains free content) {q : Nat} (hq : q < idx.numPSlots + 1)
    (he : e ∈ splitContent idx.indexHeader.nextSplitSlotId idx.numPSlots stay moved content q) :
    Placed T idx.indexHeader.incrementNextSplitSlotId q e := by
  have hp : idx.indexHeader.nextSplitSlotId < idx.numPSlots := h.covers.split_lt_size
  have hslot := h.covers.slot_increment (T.hash e.key)
  rw [splitContent] at he
  by_cases hqn : q = idx.numPSlots
  · -- the entry moved to the new slot
    subst hqn
    rw [update_self, hres.moved_eq, mem_filter] at he
    have hold := h.placed _ hp e he.1
    refine ⟨?_, hold.fingerprint⟩
    rw [hslot, if_pos ⟨hold.slot, by simpa [Stays] using he.2⟩]
  · rw [update_of_ne hqn] at he
    by_cases hqp : q = idx.indexHeader.nextSplitSlotId
    · -- the entry stays in the slot that was split
      subst hqp
      rw [update_self, hres.stay_eq, mem_filter] at he
      have hold := h.placed _ hp e he.1
      refine ⟨?_, hold.fingerprint⟩
      rw [hslot, if_neg (by simpa [Stays] using fun _ => he.2), hold.slot]
    · rw [update_of_ne hqp] at he
      have hold := h.placed q (by omega) e he
      refine ⟨?_, hold.fingerprint⟩
      rw [hslot, if_neg (by rw [hold.slot]; exact fun hand => hqp hand.1), hold.slot]

theorem agrees_increment (hagree : h.Agrees h') :
    h.incrementNextSplitSlotId.Agrees h'.incrementNextSplitSlotId := by
  unfold HashIndexHeader.incrementNextSplitSlotId HashIndexHeader.incrementLevel
  rw [hagree.nextSplitSlotId, hagree.currentLevel]
  split
  · exact ⟨rfl, rfl, hagree.numEntries⟩
  · exact ⟨rfl, rfl, hagree.numEntries⟩

theorem Stored.splitSlot (h : Stored T idx chains free content) :
    ∃ idx' chains' free' content', InMemHashIndex.splitSlot T idx = some idx' ∧
      Stored T idx' chains' free' content' ∧ Rearranged idx idx' content content' := by
  have hp : idx.indexHeader.nextSplitSlotId < idx.numPSlots := h.covers.split_lt_size
  have hlayout := h.layout.allocatePSlots 1
  have hp' : idx.indexHeader.nextSplitSlotId < (idx.allocatePSlots 1).numPSlots :=
    Nat.lt_add_right 1 hp
  obtain ⟨count, hcount⟩ := countSlots_isSome (hlayout.linked _ hp') (k := 0) rfl
    ((hlayout.chain_length_le hp').trans (Nat.le_add_left _ _))
  obtain ⟨_, _, idx', chains', free', stay, moved, hloop, hreclaim, hres⟩ :=
    h.splitLoop count
  have hagree := agrees_increment hres.header
  refine ⟨{ idx' with indexHeader := idx'.indexHeader.incrementNextSplitSlotId }, chains', free',
    splitContent idx.indexHeader.nextSplitSlotId idx.numPSlots stay moved content, ?_, ?_, ?_, ?_⟩
  · simp only [InMemHashIndex.splitSlot]
    rw [show (idx.allocatePSlots 1).indexHeader = idx.indexHeader from rfl, hcount]
    simp only
    rw [hloop]
    simp [hreclaim]
  · exact {
      layout := hres.layout.congr_header (incrementNextSplitSlotId_free _)
      covers := by
        rw [hres.numPSlots]
        exact hagree.covers h.covers.increment
      holds := hres.holds
      tight := hres.tight
      placed := fun q hq e he => (hres.placed h (hres.numPSlots ▸ hq) he).agrees hagree }
  · exact (incrementNextSplitSlotId_numEntries _).trans hres.header.numEntries
  · rw [hres.numPSlots, hres.stay_eq, hres.moved_eq]
    exact total_splitContent hp _

theorem Stored.splitSlots (count : Nat) (h : Stored T idx chains free content) :
    ∃ idx' chains' free' content', splitSlots T count idx = some idx' ∧
      Stored T idx' chains' free' content' ∧ Rearranged idx idx' content content' := by
  induction count generalizing idx chains free content with
  | zero => exact ⟨idx, chains, free, content, rfl, h, rfl, rfl⟩
  | succ _ ih =>
    obtain ⟨_, _, _, _, hsplit, hstored, hsame⟩ := h.splitSlot
    obtain ⟨idx₂, chains₂, free₂, content₂, hrest, hstored', hsame'⟩ := ih hstored
    refine ⟨idx₂, chains₂, free₂, content₂, ?_, hstored', hsame.trans hsame'⟩
    rw [splitSlots, hsplit]
    exact hrest

/-! ## Allocating slots for an empty index -/

theorem raiseLevel_spec (header : HashIndexHeader) (newNumSlots : Nat)
    (h : 2 ^ header.currentLevel ≤ newNumSlots) :
    2 ^ (raiseLevel header newNumSlots).currentLevel ≤ newNumSlots ∧
      newNumSlots < 2 ^ ((raiseLevel header newNumSlots).currentLevel + 1) ∧
      (raiseLevel header newNumSlots).numEntries = header.numEntries ∧
      (raiseLevel header newNumSlots).firstFreeOverflowSlotId = header.firstFreeOverflowSlotId := by
  fun_induction raiseLevel header newNumSlots with
  | case1 _ hle ih => exact ih hle
  | case2 _ hgt => exact ⟨h, not_le.mp hgt, rfl, rfl⟩

/-- `allocateSlots` of an index in which nothing is stored. -/
theorem stored_allocateSlots (hlayout : Layout T.slotCapacity idx chains free)
    (hchains : ∀ p < idx.numPSlots, chains p = [])
    (hholds : ∀ p < idx.numPSlots, Holds T.slotCapacity idx.slots (chainSlots p (chains p)) [])
    (hn : idx.numPSlots < n) (hlevel : 2 ^ idx.indexHeader.currentLevel ≤ n) :
    ∃ chains', Stored T (idx.allocateSlots n) chains' free (fun _ => []) ∧
      (idx.allocateSlots n).indexHeader.numEntries = idx.indexHeader.numEntries := by
  obtain ⟨hle, hlt, hnum, hfree⟩ := raiseLevel_spec idx.indexHeader n hlevel
  have hlayout' := hlayout.allocatePSlots (n - idx.numPSlots)
  have heq : idx.allocateSlots n = { idx.allocatePSlots (n - idx.numPSlots) with
      indexHeader := { raiseLevel idx.indexHeader n with
        nextSplitSlotId := n - 2 ^ (raiseLevel idx.indexHeader n).currentLevel } } := by
    simp only [allocateSlots, hn, if_true]
    rw [show (idx.allocatePSlots (n - idx.numPSlots)).indexHeader = idx.indexHeader from rfl,
      if_pos hle]
  have hsize : (idx.allocatePSlots (n - idx.numPSlots)).numPSlots = n := by
    simp only [allocatePSlots]
    omega
  rw [heq]
  refine ⟨_, ⟨hlayout'.congr_header hfree, ?_, ?_, ?_, ?_⟩, hnum⟩
  · rw [pow_succ] at hlt
    exact ⟨by simp only [hsize]; omega, by simp only; omega⟩
  · intro p hp
    by_cases hlt' : p < idx.numPSlots
    · simp only [hlt']
      exact (hholds p hlt').congr fun i hi => by
        rw [show _ = idx.slots i from slots_allocatePSlots _ hlt' hi]
    · simp only [hlt']
      exact holds_allocatePSlots (not_lt.mp hlt')
  · intro p hp
    left
    by_cases hlt' : p < idx.numPSlots
    · simp [hchains p hlt']
    · simp [hlt']
  · intro p hp e he
    cases he

theorem layout_empty {capacity : Nat} (numFreeSlots : Nat) (chains : Nat → List Nat) :
    Layout capacity ({ numFreeSlots := numFreeSlots } : InMemHashIndex K) chains [] where
  linked p hp := absurd hp (Nat.not_lt_zero p)
  firstFree := rfl
  linkedFree k i hk := by cases hk
  nodup p hp := absurd hp (Nat.not_lt_zero p)
  disjoint p hp := absurd hp (Nat.not_lt_zero p)
  nodupFree := nodup_nil
  disjointFree p hp := absurd hp (Nat.not_lt_zero p)
  lt p hp := absurd hp (Nat.not_lt_zero p)
  ltFree o ho := by cases ho
  emptyFree o ho := by cases ho

theorem stored_clear (idx : InMemHashIndex K) :
    ∃ chains, Stored T (clear T idx) chains [] (fun _ => []) ∧
      (clear T idx).indexHeader.numEntries = 0 :=
  stored_allocateSlots (layout_empty idx.numFreeSlots fun _ => [])
    (fun p hp => absurd hp (Nat.not_lt_zero p)) (fun p hp => absurd hp (Nat.not_lt_zero p))
    (Nat.zero_lt_of_lt T.two_le_slotsPerPage) T.two_le_slotsPerPage

theorem Stored.reserve (h : Stored T idx chains free content)
    (hempty : idx.indexHeader.numEntries = 0 → total idx.numPSlots content = 0)
    (numEntries : Nat) :
    ∃ idx' chains' free' content', InMemHashIndex.reserve T idx numEntries = some idx' ∧
      Stored T idx' chains' free' content' ∧ Rearranged idx idx' content content' := by
  simp only [InMemHashIndex.reserve]
  generalize numRequiredSlots T.slotCapacity (numEntries % 2 ^ 32) = required
  by_cases hle : required ≤ idx.numPSlots
  · exact ⟨idx, chains, free, content, by simp [hle], h, rfl, rfl⟩
  by_cases hzero : idx.indexHeader.numEntries = 0
  · have hnil : ∀ p < idx.numPSlots, content p = [] := by
      intro p hp
      rw [eq_nil_iff_forall_not_mem]
      intro e he
      have := mem_total.mpr ⟨p, hp, he⟩
      rw [hempty hzero] at this
      exact notMem_zero _ this
    have hchains : ∀ p < idx.numPSlots, chains p = [] := by
      intro p hp
      have := h.tight p hp
      rw [hnil p hp, Tight] at this
      simpa using this
    have hlevel : 2 ^ idx.indexHeader.currentLevel ≤ required := by
      have := h.covers.size
      omega
    obtain ⟨chains', hstored, hnum⟩ := stored_allocateSlots h.layout hchains
      (fun p hp => hnil p hp ▸ h.holds p hp) (not_le.mp hle) hlevel
    refine ⟨_, chains', free, _, by simp [hle, hzero], hstored, hnum, ?_⟩
    rw [hempty hzero]
    simp [total]
  · obtain ⟨idx', chains', free', content', hsplit, hstored, hsame⟩ :=
      h.splitSlots (required - idx.numPSlots)
    exact ⟨idx', chains', free', content', by simp [hle, hzero, hsplit], hstored, hsame⟩

end InMemHashIndex

end Lbug.Index
