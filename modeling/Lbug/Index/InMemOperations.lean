/-
  Index/InMemOperations.lean --- `lookup`, `append` and `deleteKey` on the stored entries.

  What each operation returns and does is a statement about the entries of the index as
  a whole: the chain of a key holds all entries of the key, and the fingerprint excludes
  none of them.
-/
import Lbug.Index.InMemStored

namespace Lbug.Index

open List Function

namespace InMemHashIndex

variable {K : Type} {T : KeyType K} {idx idx' : InMemHashIndex K}
  {chains chains' : Nat → List Nat} {free free' : List Nat} {p n : Nat} {key : K}
  {content : Nat → List (SlotEntry K)} {e : SlotEntry K} {L : List (SlotEntry K)} {i : SlotInfo}
  {α : Type} {x : Nat}

/-! ## Writing to one chain -/

/-- Only the chain of `p` was changed by a write. -/
theorem onlyAt_setEntry (h : Layout T.slotCapacity idx chains free) (hp : p < idx.numPSlots)
    (hi : i ∈ chainSlots p (chains p)) (pos : Nat) (entry : Option (SlotEntry K)) :
    OnlyAt p idx (idx.setEntry i pos entry) chains chains :=
  ⟨rfl, .refl _, fun q hq hne => ⟨rfl, fun i' hi' => by rw [h.slots_setEntry hp hq hne hi hi']⟩⟩

theorem OnlyAt.trans {idx₁ idx₂ idx₃ : InMemHashIndex K} {chains₁ chains₂ chains₃ : Nat → List Nat}
    (h : OnlyAt p idx₁ idx₂ chains₁ chains₂) (h' : OnlyAt p idx₂ idx₃ chains₂ chains₃) :
    OnlyAt p idx₁ idx₃ chains₁ chains₃ := by
  refine ⟨h'.numPSlots.trans h.numPSlots, h.header.trans h'.header, fun q hq hne => ?_⟩
  obtain ⟨hchain, hentries⟩ := h.others q hq hne
  obtain ⟨hchain', hentries'⟩ := h'.others q (h.numPSlots ▸ hq) hne
  refine ⟨hchain'.trans hchain, fun i hi => ?_⟩
  rw [hentries' i (hchain ▸ hi), hentries i hi]

/-- The chain of one slot gets other overflow slots. -/
theorem Frame.onlyAt (h : Frame idx idx' chains) (overflow : List Nat) :
    OnlyAt p idx idx' chains (update chains p overflow) :=
  ⟨h.numPSlots, h.header, fun q hq hne => ⟨update_of_ne hne _ _, h.entries q hq⟩⟩

/-- Writing an entry behind the last one of a chain. -/
theorem Stored.push (h : Stored T idx chains free content) {k j : Nat}
    (hlayout : Layout T.slotCapacity idx' chains' free') (honly : OnlyAt p idx idx' chains chains')
    (hp : p < idx.numPSlots)
    (hholds : Holds T.slotCapacity idx'.slots (chainSlots p (chains' p)) (content p))
    (hi : (chainSlots p (chains' p))[k]? = some i) (hj : j < T.slotCapacity)
    (hlast : k = (chains' p).length) (hpos : k * T.slotCapacity + j = (content p).length)
    (he : Placed T idx.indexHeader p e) :
    Stored T (idx'.setEntry i j (some e)) chains' free' (update content p (content p ++ [e])) := by
  have hp' : p < idx'.numPSlots := honly.numPSlots ▸ hp
  have hmem := mem_of_getElem? hi
  refine h.replace (hlayout.setEntry hp' hmem j (some e))
    (honly.trans (onlyAt_setEntry hlayout hp' hmem j _)) ?_ ?_ ?_
  · intro x
    rw [hlayout.entryAt_setEntry hp' hi hj, hholds x]
    grind
  · right
    rw [length_chainSlots, Nat.add_sub_cancel, length_append, length_singleton, ← hlast]
    omega
  · intro e' he'
    rcases mem_append.mp he' with he' | he'
    · exact h.placed p hp e' he'
    · rw [mem_singleton] at he'
      exact he' ▸ he

theorem total_push (hp : p < n) (e : SlotEntry K) :
    total n (update content p (content p ++ [e])) = e ::ₘ total n content := by
  have h : total n (update content p (content p ++ [e])) + (content p : Multiset _) =
      total n content + ((content p ++ [e] : List (SlotEntry K)) : Multiset _) := total_update hp _
  rw [← Multiset.coe_add, Multiset.coe_singleton] at h
  apply add_right_cancel (b := (content p : Multiset (SlotEntry K)))
  rw [h, ← Multiset.singleton_add]
  ac_rfl

/-- The last entry of a list takes the place of another one. -/
theorem set_dropLast_perm {l : List α} {a b : α} (ha : l[x]? = some a) (hb : l.getLast? = some b) :
    (a :: (l.set x b).dropLast).Perm l := by
  obtain ⟨front, rfl⟩ := getLast?_eq_some_iff.mp hb
  rcases lt_or_ge x front.length with hlt | hge
  · have hax : front[x] = a := by
      rw [getElem?_append_left hlt, getElem?_eq_getElem hlt, Option.some.injEq] at ha
      exact ha
    rw [set_append_left _ _ hlt, dropLast_concat]
    have hset := (set_perm_cons_eraseIdx hlt b).cons a
    have herase := (hax ▸ getElem_cons_eraseIdx_perm hlt).cons b
    exact (hset.trans (List.Perm.swap b a _)).trans
      (herase.trans (perm_append_singleton b front).symm)
  · have hx := lt_length_of_getElem? ha
    rw [length_append, length_singleton] at hx
    obtain rfl : x = front.length := by omega
    obtain rfl : b = a := by simpa using ha
    rw [set_append_right _ _ (le_refl _), Nat.sub_self, set_cons_zero, dropLast_concat]
    exact (perm_append_singleton b front).symm

/-- The positions of the chain after the two writes of `deleteKey`. -/
theorem getElem?_set_dropLast {l : List α} {b : α} (hx : x < l.length) (hb : l.getLast? = some b)
    (z : Nat) :
    ((l.set x b).dropLast)[z]? =
      if z = l.length - 1 then none else if z = x then some b else l[z]? := by
  grind

/-- The last entry of a chain takes the place of the one that is deleted. -/
theorem removeEntry_spec (h : Layout T.slotCapacity idx chains free) (hp : p < idx.numPSlots)
    {iter newIter : SlotInfo} {k k' j j' : Nat} {last : SlotEntry K}
    (hholds : Holds T.slotCapacity idx.slots (chainSlots p (chains p)) L)
    (hiter : (chainSlots p (chains p))[k]? = some iter) (hj : j < T.slotCapacity)
    (hlt : k * T.slotCapacity + j < L.length)
    (hnewIter : (chainSlots p (chains p))[k']? = some newIter) (hj' : j' < T.slotCapacity)
    (hend : k' * T.slotCapacity + j' = L.length - 1) (hlast : L.getLast? = some last) :
    Layout T.slotCapacity (removeEntry idx iter newIter j j') chains free ∧
      OnlyAt p idx (removeEntry idx iter newIter j j') chains chains ∧
      Holds T.slotCapacity (removeEntry idx iter newIter j j').slots (chainSlots p (chains p))
        (L.set (k * T.slotCapacity + j) last).dropLast := by
  have hmem := mem_of_getElem? hiter
  have hmem' := mem_of_getElem? hnewIter
  unfold removeEntry
  by_cases hne : newIter ≠ iter ∨ j ≠ j'
  · have hlayout := h.setEntry hp hmem j ((idx.slots newIter).entries j')
    rw [if_pos hne]
    refine ⟨hlayout.setEntry hp hmem' _ _,
      (onlyAt_setEntry h hp hmem _ _).trans (onlyAt_setEntry hlayout hp hmem' _ _), fun z => ?_⟩
    have hentry : (idx.slots newIter).entries j' = some last := by
      rw [hholds.entries hj' hnewIter, hend, ← getLast?_eq_getElem?, hlast]
    rw [hlayout.entryAt_setEntry hp hnewIter hj', h.entryAt_setEntry hp hiter hj, hend, hentry,
      hholds z, getElem?_set_dropLast hlt hlast]
  · -- the entry that is deleted is the last one
    rw [if_neg hne]
    rw [not_or, not_not, not_not] at hne
    obtain ⟨rfl, rfl⟩ := hne
    obtain rfl := getElem?_inj_of_nodup (h.chain_nodup hp) hiter hnewIter
    refine ⟨h.setEntry hp hmem _ _, onlyAt_setEntry h hp hmem _ _, fun z => ?_⟩
    rw [h.entryAt_setEntry hp hiter hj, hholds z]
    grind

theorem total_remove (hp : p < n) (hperm : (e :: L).Perm (content p)) :
    e ::ₘ total n (update content p L) = total n content := by
  have h : total n (update content p L) + (content p : Multiset _) =
      total n content + (L : Multiset _) := total_update hp _
  rw [← Multiset.coe_eq_coe.mpr hperm, ← Multiset.cons_coe, Multiset.add_cons] at h
  apply add_right_cancel (b := (L : Multiset (SlotEntry K)))
  rw [Multiset.cons_add, h]

/-! ## Finding the entries of a key -/

/-- The primary slot of a key. -/
def home (T : KeyType K) (idx : InMemHashIndex K) (key : K) : Nat :=
  idx.indexHeader.getPrimarySlotIdForHash (T.hash key)

theorem slotOf_eq (idx : InMemHashIndex K) (key : K) :
    slotOf T idx key = .primary (home T idx key) :=
  rfl

theorem Stored.home_lt (h : Stored T idx chains free content) (key : K) :
    home T idx key < idx.numPSlots :=
  h.covers.slot_lt _

/-- Some stored entry of the key is visible. -/
def Visible (entries : Multiset (SlotEntry K)) (key : K) (isVisible : Nat → Bool) : Prop :=
  ∃ e ∈ entries, e.key = key ∧ isVisible e.value = true

/-- The chain of a key holds all its entries. -/
theorem Stored.mem_home (h : Stored T idx chains free content) :
    e ∈ content (home T idx e.key) ↔ e ∈ total idx.numPSlots content := by
  rw [mem_total]
  constructor
  · exact fun he => ⟨_, h.home_lt e.key, he⟩
  · rintro ⟨p, hp, he⟩
    have hslot := (h.placed p hp e he).slot
    rw [home, hslot]
    exact he

variable [DecidableEq K]

theorem matchesKey_iff (hfp : e.fingerprint = getFingerprintForHash (T.hash e.key)) :
    matchesKey T key e = true ↔ e.key = key := by
  simp only [matchesKey, Bool.and_eq_true, beq_iff_eq, decide_eq_true_eq]
  constructor
  · exact fun hand => hand.2
  · rintro rfl
    exact ⟨hfp, rfl⟩

variable (h : Stored T idx chains free content)

include h

/-- An entry that `lookup`, `append` or `deleteKey` accepts in the chain of a key. -/
theorem Stored.matches_iff (he : e ∈ content (home T idx key)) :
    matchesKey T key e = true ↔ e.key = key :=
  matchesKey_iff (h.placed _ (h.home_lt key) e he).fingerprint

/-- The walk of `lookup` and `append`: it finds a visible entry of the key or, if there
is none, ends at the last slot of the chain. -/
theorem Stored.findEntry (key : K) (isVisible : Nat → Bool) :
    (∃ i j e, e ∈ total idx.numPSlots content ∧ e.key = key ∧ isVisible e.value = true ∧
      (idx.slots i).entries j = some e ∧
      findEntry T idx (fun e => matchesKey T key e && isVisible e.value)
        idx.chainFuel (slotOf T idx key) = some (i, some j)) ∨
    (¬ Visible (total idx.numPSlots content) key isVisible ∧
      ∃ last, (chainSlots (home T idx key) (chains (home T idx key)))[
          (chains (home T idx key)).length]? = some last ∧
        findEntry T idx (fun e => matchesKey T key e && isVisible e.value)
          idx.chainFuel (slotOf T idx key) = some (last, none)) := by
  have hp := h.home_lt key
  have hholds := h.holds _ hp
  rcases findEntry_spec (fun e => matchesKey T key e && isVisible e.value) (h.layout.linked _ hp)
    hholds (h.tight _ hp) (k := 0) rfl
      ((h.layout.chain_length_le hp).trans (Nat.le_add_left _ _)) with
    ⟨k, i, j, e, hi, hj, he, hfound, heq⟩ | ⟨hnone, last, hlast, heq⟩
  · left
    have hmem := mem_of_getElem? he
    rw [Bool.and_eq_true, h.matches_iff hmem] at hfound
    refine ⟨i, j, e, mem_total.mpr ⟨_, hp, hmem⟩, hfound.1, hfound.2, ?_, heq⟩
    rw [hholds.entries hj hi, he]
  · right
    refine ⟨?_, last, ?_, heq⟩
    · rintro ⟨e, he, rfl, hvisible⟩
      have hmem := h.mem_home.mpr he
      obtain ⟨x, hx⟩ := getElem?_of_mem hmem
      have hnot := hnone x e (by simp) hx
      rw [Bool.and_eq_false_iff] at hnot
      rcases hnot with hnot | hnot
      · rw [(h.matches_iff hmem).mpr rfl] at hnot
        cases hnot
      · rw [hvisible] at hnot
        cases hnot
    · rwa [length_chainSlots] at hlast

/-! ## lookup -/

variable (hempty : idx.indexHeader.numEntries = 0 → total idx.numPSlots content = 0) (key : K)

include hempty

theorem Stored.lookup (isVisible : Nat → Bool) :
    ∃ r, InMemHashIndex.lookup T idx key isVisible = some r ∧
      (r.isSome = true ↔ Visible (total idx.numPSlots content) key isVisible) ∧
      ∀ v ∈ r, ∃ e ∈ total idx.numPSlots content, e.key = key ∧ e.value = v ∧
        isVisible v = true := by
  unfold InMemHashIndex.lookup
  by_cases hzero : idx.indexHeader.numEntries = 0
  · refine ⟨none, by simp [hzero], ?_, by simp⟩
    rw [hempty hzero]
    simp [Visible]
  rw [if_neg hzero]
  rcases h.findEntry key isVisible with ⟨_, _, e, hmem, hkey, hvis, hentry, heq⟩ |
    ⟨hnot, _, -, heq⟩
  · refine ⟨some e.value, by simp [heq, hentry], ?_, ?_⟩
    · exact ⟨fun _ => ⟨e, hmem, hkey, hvis⟩, fun _ => rfl⟩
    · rintro v ⟨⟩
      exact ⟨e, hmem, hkey, rfl, hvis⟩
  · exact ⟨none, by simp [heq], by simp [hnot], by simp⟩

/-! ## append -/

omit hempty in
theorem Stored.appendInternal (key : K) (value : Nat) (isVisible : Nat → Bool) :
    (Visible (total idx.numPSlots content) key isVisible ∧
      InMemHashIndex.appendInternal T idx key value isVisible = some (idx, false)) ∨
    (¬ Visible (total idx.numPSlots content) key isVisible ∧ ∃ idx' chains' free' content',
        InMemHashIndex.appendInternal T idx key value isVisible = some (idx', true) ∧
        Stored T idx' chains' free' content' ∧
        total idx'.numPSlots content' =
          ⟨key, value, getFingerprintForHash (T.hash key)⟩ ::ₘ total idx.numPSlots content ∧
        idx'.indexHeader.numEntries = idx.indexHeader.numEntries + 1) := by
  have hp := h.home_lt key
  have hcap := T.slotCapacity_pos
  unfold InMemHashIndex.appendInternal
  rcases h.findEntry key isVisible with ⟨i, _, e, hmem, hkey, hvis, -, heq⟩ |
    ⟨hnot, last, hlast, heq⟩
  · exact .inl ⟨⟨e, hmem, hkey, hvis⟩, by rw [heq]⟩
  refine .inr ⟨hnot, ?_⟩
  simp only [heq]
  have hholds := h.holds _ hp
  have hnum := hholds.numEntries hlast
  have hlen := hholds.length_le hcap
  have htight := h.tight _ hp
  have hplaced : Placed T idx.indexHeader (home T idx key)
      ⟨key, value, getFingerprintForHash (T.hash key)⟩ := ⟨rfl, rfl⟩
  rw [Tight, length_chainSlots, Nat.add_sub_cancel] at htight
  rw [length_chainSlots, Nat.add_mul] at hlen
  have hbehind : (chains (home T idx key)).length * T.slotCapacity ≤
      (content (home T idx key)).length := by
    rcases htight with hone | hlt
    · rw [show (chains (home T idx key)).length = 0 by omega, Nat.zero_mul]
      exact Nat.zero_le _
    · omega
  by_cases hroom : (idx.slots last).numEntries T.slotCapacity < T.slotCapacity
  · have hstored := h.push h.layout ⟨rfl, .refl _, fun _ _ _ => ⟨rfl, fun _ _ => rfl⟩⟩ hp hholds
      hlast hroom rfl (by omega) hplaced
    rw [if_pos hroom]
    refine ⟨_, chains, free, _, rfl, hstored.congr_header _, ?_, rfl⟩
    exact total_push hp _
  · -- the chain is full and gets another slot
    obtain ⟨free', hlayout, hframe, hempty⟩ := h.layout.extend hp hlast
    have hextended := Holds.extend hcap hholds (hframe.entries _ hp) hempty
    rw [if_neg hroom]
    have hstored := h.push hlayout (hframe.onlyAt _) hp (by rw [update_self]; exact hextended)
      (k := (chains (home T idx key)).length + 1) (i := .ovf idx.allocateAOSlot.2)
      (by rw [chainSlots_getElem?_succ]; simp) hcap
      (by rw [update_self]; simp) (by rw [Nat.add_mul]; omega) hplaced
    refine ⟨_, _, free', _, rfl, hstored.congr_header _, ?_, ?_⟩
    · show total (idx.allocateAOSlot.1.setNext last (some idx.allocateAOSlot.2)).numPSlots _ = _
      rw [hframe.numPSlots]
      exact total_push hp _
    · show (idx.allocateAOSlot.1.setNext last (some idx.allocateAOSlot.2)).indexHeader.numEntries
        + 1 = _
      rw [hframe.header.numEntries]

/-! ## deleteKey -/

theorem Stored.deleteKey :
    ((∀ e ∈ total idx.numPSlots content, e.key ≠ key) ∧
      InMemHashIndex.deleteKey T idx key = some (idx, false)) ∨
    ∃ e ∈ total idx.numPSlots content, e.key = key ∧ ∃ idx' chains' free' content',
      InMemHashIndex.deleteKey T idx key = some (idx', true) ∧
      Stored T idx' chains' free' content' ∧
      e ::ₘ total idx'.numPSlots content' = total idx.numPSlots content ∧
      idx'.indexHeader.numEntries = idx.indexHeader.numEntries := by
  have hp := h.home_lt key
  have hcap := T.slotCapacity_pos
  have hholds := h.holds _ hp
  have hlinked := h.layout.linked _ hp
  unfold InMemHashIndex.deleteKey
  by_cases hzero : idx.indexHeader.numEntries = 0
  · left
    rw [hempty hzero, if_pos hzero]
    exact ⟨fun e he => absurd he (Multiset.notMem_zero e), rfl⟩
  rw [if_neg hzero]
  rcases findKey_spec (matchesKey T key) hlinked hholds (k := 0) rfl
      ((h.layout.chain_length_le hp).trans (Nat.le_add_left _ _)) with
    ⟨k, iter, j, e, hiter, hj, he, hfound, heq⟩ | ⟨hnone, heq⟩
  · right
    have hmem := mem_of_getElem? he
    have hkey := (h.matches_iff hmem).mp hfound
    refine ⟨e, mem_total.mpr ⟨_, hp, hmem⟩, hkey, ?_⟩
    have hlt := lt_length_of_getElem? he
    -- the last slot of the chain holds the last entry
    obtain ⟨newIter, hnewIter⟩ : ∃ newIter, (chainSlots (home T idx key)
        (chains (home T idx key)))[(chains (home T idx key)).length]? = some newIter :=
      ⟨_, getElem?_eq_getElem (by simp)⟩
    have hnewIter' := lastChainedSlot_spec hlinked hiter
      ((h.layout.chain_length_le hp).trans (Nat.le_add_left _ _))
    rw [length_chainSlots, Nat.add_sub_cancel, hnewIter] at hnewIter'
    have hnum := hholds.numEntries hnewIter
    have hlen := hholds.length_le hcap
    rw [length_chainSlots, Nat.add_mul] at hlen
    have htight := h.tight _ hp
    rw [Tight, length_chainSlots] at htight
    have hmore : (chains (home T idx key)).length * T.slotCapacity <
        (content (home T idx key)).length := by
      rcases htight with hone | hmore
      · rw [show (chains (home T idx key)).length = 0 by omega]
        omega
      · exact hmore
    have hlast := getLast?_eq_some_getLast (ne_nil_of_mem hmem)
    generalize getLast _ _ = last at hlast
    have hpos : (idx.slots newIter).numEntries T.slotCapacity - 1 < T.slotCapacity := by omega
    obtain ⟨hlayout, honly, hholds'⟩ := removeEntry_spec h.layout hp hholds hiter hj hlt hnewIter
      hpos (by omega) hlast
    have hperm := set_dropLast_perm he hlast
    have hplaced : ∀ e' ∈ ((content (home T idx key)).set (k * T.slotCapacity + j) last).dropLast,
        Placed T idx.indexHeader (home T idx key) e' := fun e' he' =>
      h.placed _ hp e' (hperm.subset (mem_cons_of_mem _ he'))
    have hnum' := hholds'.numEntries hnewIter
    rw [slotOf_eq, heq]
    simp only [hnewIter']
    generalize removeEntry idx iter newIter j
      ((idx.slots newIter).numEntries T.slotCapacity - 1) = idx₁ at *
    have hp₁ : home T idx key < idx₁.numPSlots := honly.numPSlots ▸ hp
    by_cases hgone : (idx₁.slots newIter).numEntries T.slotCapacity = 0
    · -- the last slot is empty now
      obtain ⟨idx', m, free', hreclaim, hlayout', hframe, hneed, hcut⟩ :=
        hlayout.reclaim hp₁ hholds' rfl (.inl rfl)
      have hslot : slotOf T idx₁ key = .primary (home T idx key) :=
        congrArg SlotInfo.primary (honly.header.slot _)
      have hholds₂ := (hholds'.congr (hframe.entries _ hp₁)).take hcap hneed
      rw [← chainSlots_take] at hholds₂
      rw [if_pos hgone, hslot, hreclaim]
      refine ⟨idx', _, free', _, rfl,
        h.replace hlayout' (honly.trans (hframe.onlyAt ((chains (home T idx key)).take m)))
          (by rw [update_self]; exact hholds₂)
          (by rw [update_self]; exact tight_of_cut hcut) hplaced, ?_,
        hframe.header.numEntries.trans honly.header.numEntries⟩
      rw [hframe.numPSlots, honly.numPSlots]
      exact total_remove hp hperm
    · rw [if_neg hgone]
      refine ⟨idx₁, chains, free, _, rfl, h.replace hlayout honly hholds' (.inr ?_) hplaced, ?_,
        honly.header.numEntries⟩
      · rw [length_chainSlots, Nat.add_sub_cancel]
        omega
      · rw [honly.numPSlots]
        exact total_remove hp hperm
  · left
    rw [slotOf_eq, heq]
    refine ⟨fun e he hkey => ?_, rfl⟩
    subst hkey
    have hmem := h.mem_home.mpr he
    obtain ⟨x, hx⟩ := getElem?_of_mem hmem
    have hnot := hnone x e (by simp) hx
    rw [(h.matches_iff hmem).mpr rfl] at hnot
    cases hnot

end InMemHashIndex

end Lbug.Index
