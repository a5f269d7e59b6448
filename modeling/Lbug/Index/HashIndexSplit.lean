/-
  Index/HashIndexSplit.lean --- splitting the slots of a persistent index.

  As long as the overflow slots that other transactions read are all there are, a slot of
  the buffer has the number that it gets when the buffer is flushed; the buffer is then
  nothing but the flushed index (`getSlot_eq_flush`, `flush_updateSlot`).  A round splits
  one chain into two: `DiskSplitting` says what the two hold when the first `r` positions
  of the chain have been read.  A new overflow slot is needed only if the new slot gets as
  many entries as it can hold and another one is read (`Overflows`).  A slot whose chain is
  in the buffer must not be split then; that is so for no slot that was there at the start.
-/
import Lbug.Index.DiskChains

namespace Lbug.Index

open InMemHashIndex List Function

variable {K : Type} {e : SlotEntry K} {level p t j : Nat} {T : KeyType K} {n : Nat}

/-! ## The buffer -/

namespace SplitBuffer

variable {b : SplitBuffer K} {i : SlotInfo} {f : Slot K → Slot K} {idx : InMemHashIndex K}

/-- No overflow slot has been added that other transactions do not read. -/
def Aligned (b : SplitBuffer K) : Prop := b.numOSlotsRead = b.table.numOSlots

/-- The slot that the next round splits. -/
abbrev splitSlotId (b : SplitBuffer K) : Nat := b.table.indexHeader.nextSplitSlotId

/-- The slot exists, in the index or in the buffer. -/
def InRange (b : SplitBuffer K) : SlotInfo → Prop
  | .primary _ => True
  | .ovf o => o < b.table.numOSlots + b.newOverflowSlots.length

theorem getSlot_eq_flush (h : b.Aligned) (hi : b.InRange i) :
    b.getSlot i = some (b.flush.slots i) := by
  cases i with
  | primary => rfl
  | ovf o =>
    simp only [InRange] at hi
    simp only [getSlot, flush, h.symm]
    rw [← h] at hi
    split
    · have hlt : o - b.numOSlotsRead < b.newOverflowSlots.length := by omega
      rw [getElem?_eq_getElem hlt]
      rfl
    · rfl

theorem aligned_updateSlot (h : b.Aligned) : (b.updateSlot i f).Aligned := by
  unfold updateSlot
  split
  · exact h
  · split
    · exact h
    · exact h

theorem updateSlot_fields : (b.updateSlot i f).numOSlotsRead = b.numOSlotsRead ∧
      (b.updateSlot i f).table.numOSlots = b.table.numOSlots ∧
      (b.updateSlot i f).table.indexHeader = b.table.indexHeader ∧
      (b.updateSlot i f).newOverflowSlots.length = b.newOverflowSlots.length := by
  unfold updateSlot
  split
  · exact ⟨rfl, rfl, rfl, rfl⟩
  · split
    · exact ⟨rfl, rfl, rfl, length_modify ..⟩
    · exact ⟨rfl, rfl, rfl, rfl⟩

theorem inRange_updateSlot {i' : SlotInfo} (h : b.InRange i') : (b.updateSlot i f).InRange i' := by
  obtain ⟨-, hnum, -, hlen⟩ := updateSlot_fields (b := b) (i := i) (f := f)
  cases i' with
  | primary => trivial
  | ovf =>
    simp only [InRange, hnum, hlen]
    exact h

/-- The slots of the flushed index. -/
theorem flush_slots_ovf (b : SplitBuffer K) (o : Nat) : b.flush.slots (.ovf o) =
      if b.table.numOSlots ≤ o then (b.newOverflowSlots[o - b.table.numOSlots]?).getD {}
      else b.table.slots (.ovf o) := rfl

/-- Two flushed indexes that differ in their slots only. -/
theorem flush_eq (hslots : ∀ i, b.flush.slots i = idx.slots i)
    (hheader : b.table.indexHeader = idx.indexHeader) (hp : b.table.numPSlots = idx.numPSlots)
    (ho : b.table.numOSlots + b.newOverflowSlots.length = idx.numOSlots)
    (hfree : b.table.numFreeSlots = idx.numFreeSlots) : b.flush = idx := by
  have h : b.flush = { idx with slots := b.flush.slots } := by
    cases idx
    subst hheader hp ho hfree
    rfl
  rw [h, funext hslots]

theorem flush_updateSlot (h : b.Aligned) (hi : b.InRange i) :
    (b.updateSlot i f).flush = b.flush.setSlot i (f (b.flush.slots i)) := by
  cases i with
  | primary p =>
    refine flush_eq (fun i' => ?_) rfl rfl rfl rfl
    cases i' with
    | primary p' =>
      rcases eq_or_ne p' p with rfl | hpp
      · simp [updateSlot, setSlot, flush]
      · simp [updateSlot, setSlot, flush, hpp]
    | ovf => simp [updateSlot, setSlot, flush]
  | ovf o =>
    simp only [InRange] at hi
    have hread := h
    simp only [Aligned] at hread
    have hself : (b.flush.setSlot (.ovf o) (f (b.flush.slots (.ovf o)))).slots (.ovf o) =
        f (b.flush.slots (.ovf o)) := update_self _ _ _
    have hother : ∀ i', i' ≠ .ovf o →
        (b.flush.setSlot (.ovf o) (f (b.flush.slots (.ovf o)))).slots i' = b.flush.slots i' :=
      fun i' hne => update_of_ne hne _ _
    by_cases hbuf : b.numOSlotsRead ≤ o
    · have heq : b.updateSlot (.ovf o) f =
          { b with newOverflowSlots := b.newOverflowSlots.modify (o - b.numOSlotsRead) f } := by
        simp only [updateSlot, if_pos hbuf]
      rw [heq]
      refine flush_eq (fun i' => ?_) rfl rfl (by simp [flush, setSlot]) rfl
      cases i' with
      | primary p' => exact (hother (.primary p') (by simp)).symm
      | ovf o' =>
        rcases eq_or_ne o' o with rfl | hoo
        · have hlt : o' - b.table.numOSlots < b.newOverflowSlots.length := by omega
          rw [hself, flush_slots_ovf, flush_slots_ovf, if_pos (hread ▸ hbuf),
            if_pos (hread ▸ hbuf), hread, getElem?_modify_eq, getElem?_eq_getElem hlt]
          rfl
        · rw [hother _ fun heq => hoo (SlotInfo.ovf.inj heq), flush_slots_ovf, flush_slots_ovf]
          dsimp only
          split
          · rw [getElem?_modify_ne f _ (by omega)]
          · rfl
    · have heq : b.updateSlot (.ovf o) f =
          { b with table := b.table.setSlot (.ovf o) (f (b.table.slots (.ovf o))) } := by
        simp only [updateSlot, if_neg hbuf]
      have hnot : ¬ b.table.numOSlots ≤ o := hread ▸ hbuf
      rw [heq]
      refine flush_eq (fun i' => ?_) rfl rfl rfl rfl
      cases i' with
      | primary p' => exact (hother (.primary p') (by simp)).symm
      | ovf o' =>
        rcases eq_or_ne o' o with rfl | hoo
        · rw [hself, flush_slots_ovf, flush_slots_ovf, if_neg hnot]
          exact (if_neg hnot).trans (update_self _ _ _)
        have hne : SlotInfo.ovf o' ≠ .ovf o := fun heq => hoo (SlotInfo.ovf.inj heq)
        rw [hother _ hne, flush_slots_ovf]
        split_ifs with hle
        · exact (if_pos hle).symm
        · exact (update_of_ne hne _ _).trans (if_neg hle).symm

theorem flush_push (b : SplitBuffer K) :
    ({ b with newOverflowSlots := b.newOverflowSlots ++ [{}] } : SplitBuffer K).flush =
      b.flush.resizeOSlots 1 := by
  refine flush_eq (fun i => ?_) rfl rfl (by simp [flush, resizeOSlots, add_assoc]) rfl
  cases i with
  | primary => rfl
  | ovf o =>
    have hresize : (b.flush.resizeOSlots 1).slots (.ovf o) =
      if b.table.numOSlots + b.newOverflowSlots.length ≤ o then {}
      else b.flush.slots (.ovf o) := rfl
    rw [hresize, flush_slots_ovf, flush_slots_ovf]
    dsimp only
    by_cases hle : b.table.numOSlots ≤ o
    · rw [if_pos hle, if_pos hle]
      by_cases hend : b.table.numOSlots + b.newOverflowSlots.length ≤ o
      · rw [if_pos hend, getElem?_append_right (by omega)]
        cases o - b.table.numOSlots - b.newOverflowSlots.length <;> rfl
      · rw [if_neg hend, getElem?_append_left (by omega)]
    · rw [if_neg hle, if_neg hle, if_neg (by omega)]

theorem resizeOSlots_setSlot {slot : Slot K} (hi : ∀ o, i = .ovf o → o < idx.numOSlots) :
    (idx.setSlot i slot).resizeOSlots 1 = (idx.resizeOSlots 1).setSlot i slot := by
  have hslots : ((idx.setSlot i slot).resizeOSlots 1).slots =
      ((idx.resizeOSlots 1).setSlot i slot).slots := by
    funext i'
    rcases eq_or_ne i' i with rfl | hne
    · cases i' with
      | primary => simp [setSlot, resizeOSlots]
      | ovf o =>
        have hlt := hi o rfl
        simp [setSlot, resizeOSlots, not_le.mpr hlt]
    · cases i' <;> simp [setSlot, resizeOSlots, hne]
  calc (idx.setSlot i slot).resizeOSlots 1
      = { (idx.resizeOSlots 1).setSlot i slot with
          slots := ((idx.setSlot i slot).resizeOSlots 1).slots } := rfl
    _ = (idx.resizeOSlots 1).setSlot i slot := by rw [hslots]

/-- A new overflow slot for a slot of the flushed index. -/
theorem flush_extend (h : b.Aligned) (hi : b.InRange i) :
    ({ b.updateSlot i (fun slot => { slot with
        nextOvfSlotId := some (b.newOverflowSlots.length + b.numOSlotsRead) }) with
      newOverflowSlots := (b.updateSlot i (fun slot => { slot with
        nextOvfSlotId := some (b.newOverflowSlots.length + b.numOSlotsRead) })).newOverflowSlots ++
          [{}] } : SplitBuffer K).flush = b.flush.extendChain i := by
  have hlt : ∀ o, i = .ovf o → o < b.flush.numOSlots := by
    rintro o rfl
    exact hi
  have hnext : b.newOverflowSlots.length + b.numOSlotsRead = b.flush.numOSlots := by
    rw [h, add_comm]
    rfl
  have hslot : (b.flush.resizeOSlots 1).slots i = b.flush.slots i := by
    cases i with
    | primary => rfl
    | ovf o => exact if_neg (not_le.mpr (hlt o rfl))
  rw [flush_push, flush_updateSlot h hi, resizeOSlots_setSlot hlt, extendChain, setNext, hslot,
    hnext]

end SplitBuffer

/-! ## One round -/

theorem stays_iff : Stays T level p e = true ↔ T.hash e.key % 2 ^ (level + 1) = p := by
  simp [Stays]

theorem stays_eq_false_iff : Stays T level p e = false ↔ T.hash e.key % 2 ^ (level + 1) ≠ p := by
  simp [Stays]

/-- A slot that holds `M` may need an overflow slot for the entries that are moved. -/
def Overflows (T : KeyType K) (level p : Nat) (M : Multiset (SlotEntry K)) : Prop :=
  T.persistentSlotCapacity ≤ (M.filter fun e => Stays T level p e = false).card ∧
    T.persistentSlotCapacity < M.card

namespace HashIndex

variable {T : KeyType K} {idx₀ : InMemHashIndex K} {chains₀ chains : Nat → List Nat}
  {numOSlots p q r : Nat} {M : Multiset (SlotEntry K)} {s : DiskSplit K} {i : SlotInfo}

/-- The state of `splitSlots` after the first `r` positions of the chain of `p`, which
held `M`, have been read.  The index has `numOSlots` overflow slots outside of the buffer;
`fits` says why no overflow slot is added while a slot of the buffer is read. -/
structure DiskSplitting (T : KeyType K) (idx₀ : InMemHashIndex K) (chains₀ : Nat → List Nat)
    (numOSlots p q : Nat) (M : Multiset (SlotEntry K)) (s : DiskSplit K) (chains : Nat → List Nat)
    (r : Nat) :
    Prop where
  aligned : s.buffer.Aligned
  header : s.buffer.table.indexHeader = idx₀.indexHeader
  numOSlots_eq : s.buffer.table.numOSlots = numOSlots
  layout : Layout T.persistentSlotCapacity s.buffer.flush chains []
  frame : SplitFrame idx₀ chains₀ p q s.buffer.flush chains
  fits : Overflows T idx₀.indexHeader.currentLevel p M → ∀ o ∈ chains₀ p, o < numOSlots
  kept : ¬ Overflows T idx₀.indexHeader.currentLevel p M →
    s.buffer.flush.numOSlots = idx₀.numOSlots
  newSlot : (chainSlots q (chains q))[(chains q).length]? = some s.newSlot
  newEmpty : ∀ j, s.newEntryPos ≤ j → j < T.persistentSlotCapacity →
    (s.buffer.flush.slots s.newSlot).entries j = none
  pos_le : s.newEntryPos ≤ (contentOf T.persistentSlotCapacity s.buffer.flush chains q).length
  conserve : (contentOf T.persistentSlotCapacity s.buffer.flush chains p : Multiset (SlotEntry K)) +
    (contentOf T.persistentSlotCapacity s.buffer.flush chains q : Multiset (SlotEntry K)) = M
  moved : ∀ e ∈ contentOf T.persistentSlotCapacity s.buffer.flush chains q,
    Stays T idx₀.indexHeader.currentLevel p e = false
  read : ∀ x < r, ∀ e,
    entryAt T.persistentSlotCapacity s.buffer.flush.slots (chainSlots p (chains p)) x = some e →
      Stays T idx₀.indexHeader.currentLevel p e = true

/-- The overflow slot that a full new slot gets. -/
theorem extendNewSlot_of_full (haligned : s.buffer.Aligned) (hnew : s.buffer.InRange s.newSlot)
    (hfull : ¬ s.newEntryPos < T.persistentSlotCapacity) (hi : s.buffer.isBuffered i = false) :
    ∃ b', extendNewSlot T i s = some ⟨b', .ovf s.buffer.flush.numOSlots, 0⟩ ∧ b'.Aligned ∧
      b'.table.indexHeader = s.buffer.table.indexHeader ∧
      b'.table.numOSlots = s.buffer.table.numOSlots ∧
      b'.flush = s.buffer.flush.extendChain s.newSlot := by
  obtain ⟨hread, hnum, hheader, -⟩ := SplitBuffer.updateSlot_fields

  have hnext : s.buffer.newOverflowSlots.length + s.buffer.numOSlotsRead =
      s.buffer.flush.numOSlots := by
    rw [haligned, add_comm]
    rfl
  refine ⟨_, ?_, ?_, ?_, ?_, SplitBuffer.flush_extend haligned hnew⟩
  · rw [← hnext, extendNewSlot, if_neg hfull, if_neg (by simp [hi])]
  · exact hread.trans (haligned.trans hnum.symm)
  · exact hheader
  · exact hnum

namespace DiskSplitting

section

variable (h : DiskSplitting T idx₀ chains₀ numOSlots p q M s chains r)

include h

theorem inRange (ht : t = p ∨ t = q) (hi : i ∈ chainSlots t (chains t)) : s.buffer.InRange i := by
  have htlt : t < s.buffer.flush.numPSlots := ht.elim (· ▸ h.frame.p_lt) (· ▸ h.frame.q_lt)
  rcases mem_chainSlots.mp hi with rfl | ⟨o, ho, rfl⟩
  · trivial
  · exact h.layout.lt t htlt o ho

theorem not_buffered (hover : Overflows T idx₀.indexHeader.currentLevel p M)
    (hi : i ∈ chainSlots p (chains p)) : s.buffer.isBuffered i = false := by
  rcases mem_chainSlots.mp hi with rfl | ⟨o, ho, rfl⟩
  · rfl
  · have hlt := h.fits hover o (h.frame.original ▸ ho)
    rw [SplitBuffer.isBuffered, decide_eq_false_iff_not, h.aligned, h.numOSlots_eq]
    omega

/-- The new slot is full and another entry of the chain is read. -/
theorem overflows (hfull : ¬ s.newEntryPos < T.persistentSlotCapacity)
    (he : e ∈ contentOf T.persistentSlotCapacity s.buffer.flush chains p) :
    Overflows T idx₀.indexHeader.currentLevel p M := by
  have hpos := h.pos_le
  have hcard := congrArg Multiset.card h.conserve
  rw [Multiset.card_add, Multiset.coe_card, Multiset.coe_card] at hcard
  have hmoved : (contentOf T.persistentSlotCapacity s.buffer.flush chains q : Multiset _) ≤
      M.filter fun e => Stays T idx₀.indexHeader.currentLevel p e = false := by
    rw [Multiset.le_filter, ← h.conserve]
    exact ⟨Multiset.le_add_left _ _, h.moved⟩
  have hle := Multiset.card_le_card hmoved
  rw [Multiset.coe_card] at hle
  have hone := length_pos_of_mem he
  exact ⟨by omega, by omega⟩

/-- The new slot has room, after it got an overflow slot if it was full. -/
theorem extend (hi : i ∈ chainSlots p (chains p))
    (he : e ∈ contentOf T.persistentSlotCapacity s.buffer.flush chains p) :
    ∃ s' chains', extendNewSlot T i s = some s' ∧
      DiskSplitting T idx₀ chains₀ numOSlots p q M s' chains' r ∧
      s'.newEntryPos < T.persistentSlotCapacity ∧
      (s'.buffer.flush.slots i).entries = (s.buffer.flush.slots i).entries := by
  by_cases hroom : s.newEntryPos < T.persistentSlotCapacity
  · exact ⟨s, chains, by rw [extendNewSlot, if_pos hroom], h, hroom, rfl⟩
  have hnew := h.inRange (.inr rfl) (mem_of_getElem? h.newSlot)
  have hover := h.overflows hroom he
  obtain ⟨_, heq, haligned, hheader, hnum, hflush⟩ :=
    extendNewSlot_of_full h.aligned hnew hroom (h.not_buffered hover hi)
  obtain ⟨hlayout, hframe, hempty⟩ := h.layout.extendChain h.frame.q_lt h.newSlot
  have hcontent := fun t ht =>
    h.layout.content_extendChain T.persistentSlotCapacity_pos h.frame.q_lt h.newSlot (q := t) ht
  have hp : update chains q (chains q ++ [s.buffer.flush.numOSlots]) p = chains p :=
    update_of_ne h.frame.ne _ _
  have hq : update chains q (chains q ++ [s.buffer.flush.numOSlots]) q =
    chains q ++ [s.buffer.flush.numOSlots] := update_self _ _ _
  refine ⟨_, update chains q (chains q ++ [s.buffer.flush.numOSlots]), heq, ?_,
    T.persistentSlotCapacity_pos, by rw [hflush]; exact hframe.entries p h.frame.p_lt i hi⟩
  rw [← hflush] at hlayout hframe hempty hcontent
  exact {
    aligned := haligned
    header := hheader.trans h.header
    layout := hlayout
    frame := h.frame.extend hframe _
    numOSlots_eq := hnum.trans h.numOSlots_eq
    fits := h.fits
    kept := fun hnot => absurd hover hnot
    newSlot := by
      rw [hq, length_append, length_singleton, chainSlots_getElem?_succ]
      simp
    newEmpty := fun j _ hj => hempty j hj
    pos_le := Nat.zero_le _
    conserve := by
      rw [hcontent p h.frame.p_lt, hcontent q h.frame.q_lt]
      exact h.conserve
    moved := by
      rw [hcontent q h.frame.q_lt]
      exact h.moved
    read := fun x hx e he => by
      rw [hp, entryAt_congr (hframe.entries p h.frame.p_lt)] at he
      exact h.read x hx e he }

end

variable {k : Nat}

section

variable (h : DiskSplitting T idx₀ chains₀ numOSlots p q M s chains r)

include h

/-- An entry at the position that is read next is moved to the new slot. -/
theorem move (hi : (chainSlots p (chains p))[k]? = some i) (hj : j < T.persistentSlotCapacity)
    (hr : r = k * T.persistentSlotCapacity + j) (he : (s.buffer.flush.slots i).entries j = some e)
    (hmoves : Stays T idx₀.indexHeader.currentLevel p e = false)
    (hroom : s.newEntryPos < T.persistentSlotCapacity) :
    DiskSplitting T idx₀ chains₀ numOSlots p q M
      { s with
        buffer := (s.buffer.updateSlot s.newSlot (·.setEntry s.newEntryPos (some e))).updateSlot i
          (·.setEntry j none)
        newEntryPos := s.newEntryPos + 1 } chains (r + 1) := by
  have hmem := mem_of_getElem? hi
  have hnew := mem_of_getElem? h.newSlot
  have hne : i ≠ s.newSlot := fun heq =>
    h.frame.ne (h.layout.chain_disjoint h.frame.p_lt h.frame.q_lt hmem (heq ▸ hnew))
  have hin := h.inRange (.inl rfl) hmem
  have hinNew := h.inRange (.inr rfl) hnew
  obtain ⟨-, hnum₁, hheader₁, -⟩ := SplitBuffer.updateSlot_fields
    (f := (·.setEntry s.newEntryPos (some e)))
  obtain ⟨-, hnum₂, hheader₂, -⟩ := SplitBuffer.updateSlot_fields
    (b := s.buffer.updateSlot s.newSlot (·.setEntry s.newEntryPos (some e)))

  have hflush : ((s.buffer.updateSlot s.newSlot (·.setEntry s.newEntryPos (some e))).updateSlot i
      (·.setEntry j none)).flush =
      (s.buffer.flush.setEntry s.newSlot s.newEntryPos (some e)).setEntry i j none := by
    rw [SplitBuffer.flush_updateSlot (SplitBuffer.aligned_updateSlot h.aligned)
      (SplitBuffer.inRange_updateSlot hin), SplitBuffer.flush_updateSlot h.aligned hinNew]
    rfl
  have hlayout := h.layout.setEntry h.frame.q_lt hnew s.newEntryPos (some e)
  have hempty := h.newEmpty s.newEntryPos (le_refl _) hroom
  have he' : ((s.buffer.flush.setEntry s.newSlot s.newEntryPos (some e)).slots i).entries j =
      some e := by
    rw [h.layout.slots_setEntry h.frame.q_lt h.frame.p_lt h.frame.ne hnew hmem]
    exact he
  -- the entry goes to the chain of `q` and leaves the chain of `p`
  have hcontentQ := h.layout.content_setEntry_some (e := e) h.frame.q_lt h.newSlot hroom hempty
  have hcontentP := hlayout.content_setEntry_none h.frame.p_lt hi hj he'
  have hkeepP := h.layout.content_setEntry_of_ne h.frame.q_lt h.frame.p_lt h.frame.ne hnew
    s.newEntryPos (some e)
  have hkeepQ := hlayout.content_setEntry_of_ne h.frame.p_lt h.frame.q_lt h.frame.ne.symm hmem
    j none
  rw [hkeepP] at hcontentP
  rw [← hkeepQ] at hcontentQ
  have hslots : ((s.buffer.flush.setEntry s.newSlot s.newEntryPos (some e)).setEntry i j
      none).slots s.newSlot = (s.buffer.flush.slots s.newSlot).setEntry s.newEntryPos (some e) := by
    rw [entries_setEntry_of_ne hne.symm]
    exact update_self _ _ _
  have hread : ∀ x, entryAt T.persistentSlotCapacity ((s.buffer.flush.setEntry s.newSlot
      s.newEntryPos (some e)).setEntry i j none).slots (chainSlots p (chains p)) x =
      if x = r then none
      else entryAt T.persistentSlotCapacity s.buffer.flush.slots (chainSlots p (chains p)) x := by
    intro x
    rw [hlayout.entryAt_setEntry h.frame.p_lt hi hj, ← hr,
      h.layout.entryAt_setEntry_of_ne h.frame.q_lt h.frame.p_lt h.frame.ne hnew]
  have hlayout' := hlayout.setEntry h.frame.p_lt hmem j none
  have hframe := (h.frame.setEntry h.layout (.inr rfl) hnew s.newEntryPos (some e)).setEntry
    hlayout (.inl rfl) hmem j none
  rw [← hflush] at hcontentP hcontentQ hslots hread hlayout' hframe
  exact {
    aligned := SplitBuffer.aligned_updateSlot (SplitBuffer.aligned_updateSlot h.aligned)
    header := (hheader₂.trans hheader₁).trans h.header
    layout := hlayout'
    frame := hframe
    numOSlots_eq := (hnum₂.trans hnum₁).trans h.numOSlots_eq
    fits := h.fits
    kept := fun hnot => by
      rw [hflush]
      exact h.kept hnot
    newSlot := h.newSlot
    newEmpty := fun j' hle hlt => by
      have hlt' : s.newEntryPos < j' := hle
      rw [hslots, Slot.setEntry_entries, if_neg (by omega)]
      exact h.newEmpty j' (le_of_lt hlt') hlt
    pos_le := by
      have hcard := congrArg Multiset.card hcontentQ
      rw [Multiset.coe_card, Multiset.card_cons, Multiset.coe_card] at hcard
      rw [hcard]
      exact Nat.succ_le_succ h.pos_le
    conserve := by
      rw [← h.conserve, hcontentP, hcontentQ, Multiset.add_cons, Multiset.cons_add]
    moved := fun e' he' => by
      rw [← Multiset.mem_coe, hcontentQ, Multiset.mem_cons] at he'
      rcases he' with rfl | hold
      · exact hmoves
      · exact h.moved e' hold
    read := fun x hx e' he' => by
      rw [hread] at he'
      split at he'
      · cases he'
      · exact h.read x (by omega) e' he' }

/-- A position that is empty or whose entry stays has been read. -/
theorem advance
    (hstays : ∀ e, entryAt T.persistentSlotCapacity s.buffer.flush.slots
      (chainSlots p (chains p)) r = some e → Stays T idx₀.indexHeader.currentLevel p e = true) :
    DiskSplitting T idx₀ chains₀ numOSlots p q M s chains (r + 1) :=
  { h with
    read := fun x hx e he => by
      rcases Nat.lt_succ_iff_lt_or_eq.mp hx with hlt | rfl
      · exact h.read x hlt e he
      · exact hstays e he }

variable (hi : (chainSlots p (chains p))[k]? = some i)

include hi

/-- One position of the chain. -/
theorem splitEntry (hj : j < T.persistentSlotCapacity) (hr : r = k * T.persistentSlotCapacity + j) :
    ∃ s' chains', HashIndex.splitEntry T i s j = some s' ∧
      DiskSplitting T idx₀ chains₀ numOSlots p q M s' chains' (r + 1) := by
  have hmem := mem_of_getElem? hi
  have hslot := SplitBuffer.getSlot_eq_flush h.aligned (h.inRange (.inl rfl) hmem)
  have hentry : ∀ s' chains', DiskSplitting T idx₀ chains₀ numOSlots p q M s' chains' r →
      entryAt T.persistentSlotCapacity s'.buffer.flush.slots (chainSlots p (chains' p)) r =
        (s'.buffer.flush.slots i).entries j := by
    intro s' chains' h'
    rw [h.frame.original, ← h'.frame.original] at hi
    rw [hr, entryAt_eq hj hi]
  simp only [HashIndex.splitEntry, hslot]
  cases he : (s.buffer.flush.slots i).entries j with
  | none =>
    refine ⟨s, chains, rfl, h.advance fun e he' => ?_⟩
    rw [hentry s chains h, he] at he'
    cases he'
  | some e =>
    have hcontent : e ∈ contentOf T.persistentSlotCapacity s.buffer.flush chains p :=
      mem_chainList.mpr ⟨r, hr ▸ position_lt hi hj, by rw [hentry s chains h, he]⟩
    obtain ⟨s', chains', heq, h', hroom, hentries⟩ := h.extend hmem hcontent
    have hsplit : idx₀.indexHeader.nextSplitSlotId = p := h'.frame.split
    simp only [heq, Option.map_some, h'.header, hsplit]
    by_cases hmoves : T.hash e.key % 2 ^ (idx₀.indexHeader.currentLevel + 1) ≠ p
    · rw [if_pos hmoves]
      refine ⟨_, chains', rfl, h'.move ?_ hj hr (by rw [hentries, he]) ?_ hroom⟩
      · rw [h'.frame.original, ← h.frame.original, hi]
      · exact stays_eq_false_iff.mpr hmoves
    · rw [if_neg hmoves]
      refine ⟨s', chains', rfl, h'.advance fun e' he' => ?_⟩
      rw [hentry s' chains' h', hentries, he] at he'
      cases he'
      exact stays_iff.mpr (not_not.mp hmoves)

/-- The positions of one slot. -/
theorem splitSlotEntries (hn : n ≤ T.persistentSlotCapacity)
    (hr : r = k * T.persistentSlotCapacity) :
    ∃ s' chains', (range n).foldlM (HashIndex.splitEntry T i) s = some s' ∧
      DiskSplitting T idx₀ chains₀ numOSlots p q M s' chains' (r + n) := by
  induction n with
  | zero => exact ⟨s, chains, rfl, h⟩
  | succ n ih =>
    obtain ⟨_, chains₁, heq, h₁⟩ := ih (by omega)
    have hi₁ : (chainSlots p (chains₁ p))[k]? = some i := by
      rw [h₁.frame.original, ← h.frame.original, hi]
    obtain ⟨s', chains', heq', h'⟩ := h₁.splitEntry (j := n) hi₁ (by omega) (by omega)
    refine ⟨s', chains', ?_, h'⟩
    rw [range_succ, foldlM_append, heq]
    simp [heq']

end

/-- The whole chain. -/
theorem splitChain (fuel : Nat) (h : DiskSplitting T idx₀ chains₀ numOSlots p q M s chains r)
    (hi : (chainSlots p (chains p))[k]? = some i) (hr : r = k * T.persistentSlotCapacity)
    (hfuel : (chainSlots p (chains p)).length ≤ k + fuel) :
    ∃ s' chains', splitChain T fuel i s = some s' ∧
      DiskSplitting T idx₀ chains₀ numOSlots p q M s' chains'
        ((chainSlots p (chains p)).length * T.persistentSlotCapacity) := by
  induction fuel generalizing s chains r k i with
  | zero =>
    have := lt_length_of_getElem? hi
    omega
  | succ _ ih =>
    obtain ⟨s₁, chains₁, heq, h₁⟩ := h.splitSlotEntries hi (le_refl _) hr
    have hchain : chains₁ p = chains p := h₁.frame.original.trans h.frame.original.symm
    have hi₁ : (chainSlots p (chains₁ p))[k]? = some i := by rw [hchain, hi]
    have hslot := SplitBuffer.getSlot_eq_flush h₁.aligned
      (h₁.inRange (.inl rfl) (mem_of_getElem? hi₁))
    have hr₁ : r + T.persistentSlotCapacity = (k + 1) * T.persistentSlotCapacity := by
      rw [hr, Nat.succ_mul]
    rw [hr₁] at h₁
    simp only [splitChain, heq, Option.bind_some, hslot]
    have hlinked := h₁.layout.linked p h₁.frame.p_lt k i hi₁
    cases hnext : (s₁.buffer.flush.slots i).nextOvfSlotId with
    | none =>
      rw [hnext, Option.map_none, eq_comm, getElem?_eq_none_iff, hchain] at hlinked
      have hk := lt_length_of_getElem? hi
      have hlen : (chainSlots p (chains p)).length = k + 1 := by omega
      exact ⟨s₁, chains₁, rfl, by rw [hlen]; exact h₁⟩
    | some =>
      rw [hnext] at hlinked
      obtain ⟨s', chains', heq', h'⟩ := ih h₁ hlinked.symm rfl (by rw [hchain]; omega)
      rw [hchain] at h'
      exact ⟨s', chains', heq', h'⟩

/-- At the end all entries of the chain stay. -/
theorem stays (h : DiskSplitting T idx₀ chains₀ numOSlots p q M s chains
      ((chainSlots p (chains p)).length * T.persistentSlotCapacity))
    (he : e ∈ contentOf T.persistentSlotCapacity s.buffer.flush chains p) :
    Stays T idx₀.indexHeader.currentLevel p e = true := by
  obtain ⟨x, hx, hentry⟩ := mem_chainList.mp he
  exact h.read x hx e hentry

end DiskSplitting

end HashIndex

/-! ## All rounds -/

/-- One of the chains is split into itself and a new last chain. -/
theorem total_of_split {content content' : Nat → List (SlotEntry K)} (hp : p < n)
    (hother : ∀ t < n, t ≠ p → content' t = content t)
    (hsum : (content' p : Multiset (SlotEntry K)) + (content' n : Multiset (SlotEntry K)) =
      (content p : Multiset (SlotEntry K))) :
    total (n + 1) content' = total n content := by
  have hlast : total (n + 1) content' = total n content' + (content' n : Multiset (SlotEntry K)) :=
    Finset.sum_range_succ _ _
  have hrest : total n content' = total n (update content p (content' p)) := by
    refine total_congr fun t ht => ?_
    by_cases htp : t = p
    · rw [htp, update_self]
    · rw [update_of_ne htp, hother t ht htp]
  have hupdate : total n (update content p (content' p)) +
      (content p : Multiset (SlotEntry K)) = total n content +
      (content' p : Multiset (SlotEntry K)) :=
    total_update hp (content' p)
  apply add_right_cancel (b := (content p : Multiset (SlotEntry K)))
  rw [hlast, hrest, add_right_comm, hupdate, add_assoc, hsum]

namespace HashIndex

variable {T : KeyType K} {b b' : SplitBuffer K} {chains chains' : Nat → List Nat}

/-- What a round of `splitSlots` needs and keeps. -/
structure SplitReady (T : KeyType K) (b : SplitBuffer K) (chains : Nat → List Nat) : Prop where
  aligned : b.Aligned
  stored : DiskStored T b.flush chains

/-- The entries of the slot that the next round splits. -/
def splitContent (T : KeyType K) (b : SplitBuffer K) (chains : Nat → List Nat) :
    Multiset (SlotEntry K) :=
  contentOf T.persistentSlotCapacity b.flush chains b.splitSlotId

theorem flush_allocatePSlots (b : SplitBuffer K) :
    ({ b with table := b.table.allocatePSlots 1 } : SplitBuffer K).flush =
      b.flush.allocatePSlots 1 := by
  refine SplitBuffer.flush_eq (fun i => ?_) rfl rfl rfl rfl
  cases i with
  | primary => rfl
  | ovf => rfl

section

variable (idx : InMemHashIndex K) (chains : Nat → List Nat)

/-- A new primary slot is empty, and the other chains are as before. -/
theorem content_allocatePSlots (ht : t < idx.numPSlots) :
    contentOf T.persistentSlotCapacity (idx.allocatePSlots 1)
        (fun t => if t < idx.numPSlots then chains t else []) t =
      contentOf T.persistentSlotCapacity idx chains t := by
  rw [contentOf, if_pos ht]
  exact chainList_congr fun i hi => by rw [slots_allocatePSlots 1 ht hi]

theorem content_newPSlot :
    contentOf T.persistentSlotCapacity (idx.allocatePSlots 1)
      (fun t => if t < idx.numPSlots then chains t else []) idx.numPSlots = [] := by
  rw [contentOf, if_neg (lt_irrefl _)]
  refine chainList_of_empty fun i hi j => ?_
  rcases mem_chainSlots.mp hi with rfl | ⟨_, ho, -⟩
  · simp [allocatePSlots]
  · cases ho

end

/-- The state at the start of a round. -/
theorem SplitReady.start (h : SplitReady T b chains)
    (hfits : Overflows T b.table.indexHeader.currentLevel b.splitSlotId (splitContent T b chains) →
      ∀ o ∈ chains b.splitSlotId, o < b.table.numOSlots) :
    DiskSplitting T (b.flush.allocatePSlots 1)
      (fun t => if t < b.flush.numPSlots then chains t else []) b.table.numOSlots
      b.splitSlotId b.flush.numPSlots (splitContent T b chains)
      ⟨{ b with table := b.table.allocatePSlots 1 }, .primary b.flush.numPSlots, 0⟩
      (fun t => if t < b.flush.numPSlots then chains t else []) 0 := by
  have hp : b.splitSlotId < b.flush.numPSlots := h.stored.covers.split_lt_size
  exact {
    aligned := h.aligned
    header := rfl
    layout := by
      exact h.stored.layout.allocatePSlots 1
    frame := by
      exact ⟨Nat.lt_add_right 1 hp, Nat.lt_succ_self _, ne_of_lt hp, rfl, rfl, .refl _, rfl,
        fun _ _ _ _ => ⟨rfl, fun _ _ => rfl⟩⟩
    numOSlots_eq := rfl
    fits := by
      simp only [if_pos hp]
      exact hfits
    kept := fun _ => rfl
    newSlot := by
      rw [if_neg (lt_irrefl _)]
      rfl
    newEmpty := fun j _ _ => by
      rw [flush_allocatePSlots]
      simp [allocatePSlots]
    pos_le := Nat.zero_le _
    conserve := by
      rw [splitContent, flush_allocatePSlots, content_allocatePSlots b.flush chains hp,
        content_newPSlot b.flush chains, Multiset.coe_nil, add_zero]
    moved := fun e he => by
      rw [flush_allocatePSlots, content_newPSlot b.flush chains] at he
      cases he
    read := fun x hx => absurd hx (Nat.not_lt_zero x) }

/-- A round is over. -/
def SplitDone (T : KeyType K) (b : SplitBuffer K) (chains : Nat → List Nat)
    (s : DiskSplit K) (chains' : Nat → List Nat) : Prop :=
  DiskSplitting T (b.flush.allocatePSlots 1)
    (fun t => if t < b.flush.numPSlots then chains t else []) b.table.numOSlots
    b.splitSlotId b.flush.numPSlots (splitContent T b chains) s chains'
    ((chainSlots b.splitSlotId
      (chains' b.splitSlotId)).length * T.persistentSlotCapacity)

namespace SplitDone

variable {s : DiskSplit K}

variable (h : SplitDone T b chains s chains')

include h

theorem numPSlots : s.buffer.flush.numPSlots = b.flush.numPSlots + 1 := h.frame.numPSlots

section

variable (ht : t < b.flush.numPSlots) (hne : t ≠ b.splitSlotId)

include ht hne

/-- The chains of the other slots are as before. -/
theorem chain_other : chains' t = chains t := by
  have hlt : t < s.buffer.flush.numPSlots := by
    rw [h.numPSlots]
    exact Nat.lt_add_right 1 ht
  rw [(h.frame.others t hlt hne (ne_of_lt ht)).1, if_pos ht]

theorem content_other :
    contentOf T.persistentSlotCapacity s.buffer.flush chains' t =
      contentOf T.persistentSlotCapacity b.flush chains t := by
  have hlt : t < s.buffer.flush.numPSlots := by
    rw [h.numPSlots]
    exact Nat.lt_add_right 1 ht
  obtain ⟨-, hentries⟩ := h.frame.others t hlt hne (ne_of_lt ht)
  rw [contentOf, chainList_congr hentries, h.chain_other ht hne]
  exact chainList_congr fun i hi => by rw [slots_allocatePSlots 1 ht hi]

end

/-- The entries are where the level puts them. -/
theorem placed (hstored : DiskStored T b.flush chains) (ht : t < b.flush.numPSlots + 1)
    (he : e ∈ contentOf T.persistentSlotCapacity s.buffer.flush chains' t) :
    Placed T b.table.indexHeader.incrementNextSplitSlotId t e := by
  have hp : b.splitSlotId < b.flush.numPSlots := hstored.covers.split_lt_size
  have hslot := hstored.covers.slot_increment (T.hash e.key)
  -- the entries of the two chains were in the chain that was split
  have hwas : (t = b.splitSlotId ∨ t = b.flush.numPSlots) →
      Placed T b.flush.indexHeader b.splitSlotId e := by
    intro hcase
    refine hstored.placed _ hp e ?_
    show e ∈ splitContent T b chains
    rw [← h.conserve, Multiset.mem_add]
    rcases hcase with rfl | rfl
    · exact .inl he
    · exact .inr he
  by_cases htq : t = b.flush.numPSlots
  · have hold := hwas (.inr htq)
    subst htq
    have hmoved := h.moved e he
    exact ⟨hslot.trans (if_pos ⟨hold.slot, stays_eq_false_iff.mp hmoved⟩), hold.fingerprint⟩
  by_cases htp : t = b.splitSlotId
  · have hold := hwas (.inl htp)
    subst htp
    have hstays := DiskSplitting.stays h he
    refine ⟨hslot.trans ((if_neg ?_).trans hold.slot), hold.fingerprint⟩
    exact fun hand => hand.2 (stays_iff.mp hstays)
  · rw [h.content_other (by omega) htp] at he
    have hold := hstored.placed t (by omega) e he
    refine ⟨hslot.trans ((if_neg ?_).trans hold.slot), hold.fingerprint⟩
    exact fun hand => htp (hold.slot.symm.trans hand.1)

end SplitDone

/-- One round. -/
theorem SplitReady.splitSlot (h : SplitReady T b chains)
    (hfits : Overflows T b.table.indexHeader.currentLevel b.splitSlotId (splitContent T b chains) →
      ∀ o ∈ chains b.splitSlotId, o < b.table.numOSlots) :
    ∃ b' chains', HashIndex.splitSlot T b = some b' ∧ SplitReady T b' chains' ∧
      diskTotal T b'.flush chains' = diskTotal T b.flush chains ∧
      b'.table.numPSlots = b.table.numPSlots + 1 ∧ b'.table.numOSlots = b.table.numOSlots ∧
      b'.table.indexHeader = b.table.indexHeader.incrementNextSplitSlotId ∧
      (∀ t < b.table.numPSlots, chains' t = chains t) ∧
      (¬ Overflows T b.table.indexHeader.currentLevel b.splitSlotId (splitContent T b chains) →
        b'.flush.numOSlots = b.flush.numOSlots) := by
  have hstart := h.start hfits
  have hp : b.splitSlotId < b.flush.numPSlots := h.stored.covers.split_lt_size
  have hfuel := hstart.layout.chain_length_le hstart.frame.p_lt
  obtain ⟨s, chains', hloop, hdone⟩ := hstart.splitChain
    (b.table.numOSlots + b.newOverflowSlots.length + 1) rfl (Nat.zero_mul _).symm
    (by rw [zero_add]; exact hfuel)
  have hchain : chains' b.splitSlotId =
      chains b.splitSlotId := hdone.frame.original.trans (if_pos hp)
  rw [if_pos hp, ← hchain] at hdone
  replace hdone : SplitDone T b chains s chains' := hdone
  refine ⟨_, chains', by
    simp only [HashIndex.splitSlot]
    exact congrArg (Option.map _) hloop, ?_, ?_, ?_, ?_, ?_, fun t ht => ?_, ?_⟩
  · refine ⟨hdone.aligned, ⟨hdone.layout.congr_header (incrementNextSplitSlotId_free _), ?_,
      fun t ht e he => ?_⟩⟩
    · show (s.buffer.table.indexHeader.incrementNextSplitSlotId).Covers s.buffer.flush.numPSlots
      rw [hdone.header, hdone.numPSlots]
      exact h.stored.covers.increment
    · show Placed T s.buffer.table.indexHeader.incrementNextSplitSlotId t e
      rw [hdone.header]
      exact hdone.placed h.stored (hdone.numPSlots ▸ ht) he
  · show total s.buffer.flush.numPSlots
      (contentOf T.persistentSlotCapacity s.buffer.flush chains') = _
    rw [hdone.numPSlots]
    exact total_of_split hp (fun t ht htp => hdone.content_other ht htp) hdone.conserve
  · exact hdone.numPSlots
  · exact hdone.numOSlots_eq
  · exact congrArg HashIndexHeader.incrementNextSplitSlotId hdone.header
  · by_cases htp : t = b.splitSlotId
    · rw [htp, hchain]
    · exact hdone.chain_other ht htp
  · exact hdone.kept

/-- The header after `count` rounds. -/
def splitHeader (header : HashIndexHeader) (count : Nat) : HashIndexHeader :=
  HashIndexHeader.incrementNextSplitSlotId^[count] header

theorem splitHeader_succ (header : HashIndexHeader) (count : Nat) :
    splitHeader header (count + 1) = splitHeader header.incrementNextSplitSlotId count := rfl

theorem splitHeader_add (header : HashIndexHeader) (count i : Nat) :
    splitHeader (splitHeader header count) i = splitHeader header (count + i) := by
  rw [splitHeader, splitHeader, splitHeader, add_comm, iterate_add_apply]

theorem splitHeader_numEntries (header : HashIndexHeader) (count : Nat) :
    (splitHeader header count).numEntries = header.numEntries := by
  induction count generalizing header with
  | zero => rfl
  | succ count ih => rw [splitHeader_succ, ih, incrementNextSplitSlotId_numEntries]

/-- The keys of the slot that is split next. -/
def splitKeys (T : KeyType K) (header : HashIndexHeader) (keys : Multiset K) : Multiset K :=
  keys.filter fun key => header.getPrimarySlotIdForHash (T.hash key) = header.nextSplitSlotId

/-- The slot that is split next holds more keys than a slot can, and the new slot gets as
many of them as it can hold. -/
def SplitOverflows (T : KeyType K) (header : HashIndexHeader) (keys : Multiset K) : Prop :=
  T.persistentSlotCapacity ≤ ((splitKeys T header keys).filter fun key =>
      T.hash key % 2 ^ (header.currentLevel + 1) ≠ header.nextSplitSlotId).card ∧
    T.persistentSlotCapacity < (splitKeys T header keys).card

theorem SplitReady.splitKeys_le (h : SplitReady T b chains) :
    (splitContent T b chains).map (·.key) ≤
      splitKeys T b.table.indexHeader ((diskTotal T b.flush chains).map (·.key)) := by
  have hp : b.splitSlotId < b.flush.numPSlots := h.stored.covers.split_lt_size
  have hle : splitContent T b chains ≤ diskTotal T b.flush chains :=
    Finset.single_le_sum (f := fun t => (contentOf T.persistentSlotCapacity b.flush chains t :
      Multiset (SlotEntry K))) (fun _ _ => Multiset.zero_le _) (Finset.mem_range.mpr hp)
  refine Multiset.le_filter.mpr ⟨Multiset.map_le_map hle, fun key hkey => ?_⟩
  obtain ⟨e, he, rfl⟩ := Multiset.mem_map.mp hkey
  exact (h.stored.placed _ hp e he).slot

theorem SplitReady.splitOverflows (h : SplitReady T b chains)
    (hover : Overflows T b.table.indexHeader.currentLevel b.splitSlotId (splitContent T b chains)) :
    SplitOverflows T b.table.indexHeader ((diskTotal T b.flush chains).map (·.key)) := by
  have hle := Multiset.card_le_card h.splitKeys_le
  have hmoved := Multiset.card_le_card (Multiset.filter_le_filter
    (fun key => T.hash key % 2 ^ (b.table.indexHeader.currentLevel + 1) ≠ b.splitSlotId)
    h.splitKeys_le)
  simp only [Multiset.filter_map, Multiset.card_map] at hle hmoved
  obtain ⟨hmany, hmore⟩ := hover
  simp only [stays_eq_false_iff] at hmany
  exact ⟨le_trans hmany hmoved, lt_of_lt_of_le hmore hle⟩

section

variable {keys : Multiset K} {n₀ : Nat}

theorem SplitReady.splitRounds (count : Nat) (h : SplitReady T b chains)
    (hkeys : (diskTotal T b.flush chains).map (·.key) = keys) (hn : n₀ ≤ b.table.numPSlots)
    (hold : ∀ t < n₀, ∀ o ∈ chains t, o < b.table.numOSlots)
    (hsafe : ∀ i < count, SplitOverflows T (splitHeader b.table.indexHeader i) keys →
      (splitHeader b.table.indexHeader i).nextSplitSlotId < n₀) :
    ∃ b' chains', splitRounds T count b = some b' ∧ SplitReady T b' chains' ∧
      diskTotal T b'.flush chains' = diskTotal T b.flush chains ∧
      b'.table.numPSlots = b.table.numPSlots + count ∧
      b'.table.indexHeader = splitHeader b.table.indexHeader count ∧
      ((∀ i < count, ¬ SplitOverflows T (splitHeader b.table.indexHeader i) keys) →
        b'.flush.numOSlots = b.flush.numOSlots) := by
  induction count generalizing b chains with
  | zero => exact ⟨b, chains, rfl, h, rfl, rfl, rfl, fun _ => rfl⟩
  | succ count ih =>
    have hover := h.splitOverflows
    rw [hkeys] at hover
    obtain ⟨b₁, chains₁, heq, h₁, htotal, hnum, hovf, hheader, hchains, hkept⟩ :=
      h.splitSlot fun hov => hold _ (hsafe 0 (Nat.succ_pos _) (hover hov))
    have hstep : ∀ i, splitHeader b₁.table.indexHeader i =
        splitHeader b.table.indexHeader (i + 1) := by
      intro i
      rw [hheader, splitHeader_succ]
    obtain ⟨b', chains', heq', h', htotal', hnum', hheader', hkept'⟩ :=
      ih h₁ (by rw [htotal, hkeys]) (by omega)
        (fun t ht o ho => by
          rw [hovf]
          exact hold t ht o (hchains t (lt_of_lt_of_le ht hn) ▸ ho))
        (fun i hi => by
          rw [hstep]
          exact hsafe (i + 1) (Nat.succ_lt_succ hi))
    refine ⟨b', chains', ?_, h', htotal'.trans htotal, by omega, by rw [hheader', hstep],
      fun hnone => ?_⟩
    · rw [splitRounds, heq, Option.bind_some, heq']
    · rw [hkept' fun i hi => hstep i ▸ hnone (i + 1) (Nat.succ_lt_succ hi),
        hkept fun hov => hnone 0 (Nat.succ_pos _) (hover hov)]

/-- `splitSlots` splits the slots and loses no entry. -/
theorem splitSlots_spec {idx : HashIndex K} (h : DiskStored T idx.table chains) (count : Nat)
    (hkeys : (diskTotal T idx.table chains).map (·.key) = keys)
    (hread : count = 0 ∨ idx.numOSlotsRead = idx.table.numOSlots)
    (hsafe : ∀ i < count, SplitOverflows T (splitHeader idx.table.indexHeader i) keys →
      (splitHeader idx.table.indexHeader i).nextSplitSlotId < idx.table.numPSlots) :
    ∃ idx' chains', splitSlots T idx count = some idx' ∧ DiskStored T idx'.table chains' ∧
      diskTotal T idx'.table chains' = diskTotal T idx.table chains ∧
      idx'.table.numPSlots = idx.table.numPSlots + count ∧
      idx'.table.indexHeader = splitHeader idx.table.indexHeader count ∧
      idx'.numOSlotsRead = idx.numOSlotsRead ∧
      ((∀ i < count, ¬ SplitOverflows T (splitHeader idx.table.indexHeader i) keys) →
        idx'.table.numOSlots = idx.table.numOSlots) := by
  have hheader : (⟨idx.table, idx.numOSlotsRead, []⟩ : SplitBuffer K).flush.indexHeader =
      idx.table.indexHeader := rfl
  obtain ⟨hstored, htotal⟩ := h.congr hheader rfl rfl
    (fun _ => rfl) (fun o ho => if_neg (not_le.mpr ho))
  rcases hread with rfl | hread
  · exact ⟨_, chains, rfl, hstored, htotal, rfl, rfl, rfl, fun _ => rfl⟩
  have hready : SplitReady T ⟨idx.table, idx.numOSlotsRead, []⟩ chains := ⟨hread, hstored⟩
  obtain ⟨b', chains', heq, h', htotal', hnum, hheader', hkept⟩ := hready.splitRounds count
    (by rw [htotal, hkeys]) (le_refl _) (fun t ht o ho => h.layout.lt t ht o ho) hsafe
  exact ⟨{ idx with table := b'.flush }, chains', by rw [splitSlots, heq, Option.map_some],
    h'.stored, htotal'.trans htotal, hnum, hheader', rfl, hkept⟩

end

end HashIndex

end Lbug.Index
