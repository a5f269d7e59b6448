/-
  Index/InMemSplit.lean --- splitting a slot of the in-memory index.

  `splitSlot` reads the chain of a slot once.  The entries that hash to the new slot are
  appended to its chain; the others are moved forward into the gaps of the chain that is
  read, behind the reading position.  The loop invariant `Splitting` says what the two
  chains hold when the first `r` entries have been read; at the end the chain of the slot
  holds the entries that stay and the chain of the new slot those that moved.
-/
import Lbug.Index.InMemLayout

namespace Lbug.Index

open List Function

namespace InMemHashIndex

variable {K : Type} {T : KeyType K} {idx idx' idx₀ : InMemHashIndex K}
  {chains chains₀ : Nat → List Nat} {free : List Nat} {p q r : Nat} {L stay : List (SlotEntry K)}
  {s s' : SplitState} {i : SlotInfo} {e : SlotEntry K}

/-- The entry stays in slot `p` at the next level. -/
def Stays (T : KeyType K) (level p : Nat) (e : SlotEntry K) : Bool :=
  T.hash e.key % 2 ^ (level + 1) == p

/-- The positions of the chain that is read: the entries that stay, the gap, and the
entries that are still to be read. -/
def splitView (stay L : List (SlotEntry K)) (r x : Nat) : Option (SlotEntry K) :=
  if x < stay.length then stay[x]? else if x < r then none else L[x]?

/-- What a split of `p` into `p` and `q` leaves as it is. -/
structure SplitFrame (idx₀ : InMemHashIndex K) (chains₀ : Nat → List Nat) (p q : Nat)
    (idx : InMemHashIndex K) (chains : Nat → List Nat) : Prop where
  p_lt : p < idx.numPSlots
  q_lt : q < idx.numPSlots
  ne : p ≠ q
  split : idx₀.indexHeader.nextSplitSlotId = p
  numPSlots : idx.numPSlots = idx₀.numPSlots
  header : idx₀.indexHeader.Agrees idx.indexHeader
  original : chains p = chains₀ p
  others : ∀ p' < idx.numPSlots, p' ≠ p → p' ≠ q → chains p' = chains₀ p' ∧
    ∀ i ∈ chainSlots p' (chains p'), (idx.slots i).entries = (idx₀.slots i).entries

/-- The state of `splitSlot` after `r` entries of the chain of `p`, which held `L` in
`idx₀`, have been read.  The reading iterator is in slot `k` of the chain and the one
that fills the gaps in slot `kw`. -/
structure Splitting (T : KeyType K) (level p q : Nat) (L stay moved : List (SlotEntry K))
    (idx : InMemHashIndex K) (chains : Nat → List Nat) (free : List Nat) (s : SplitState)
    (k kw r : Nat) : Prop where
  layout : Layout T.slotCapacity idx chains free
  stay_eq : stay = (L.take r).filter (Stays T level p)
  moved_eq : moved = (L.take r).filter (fun e => !Stays T level p e)
  readSlot : (chainSlots p (chains p))[k]? = some s.originalSlot
  readPos : r = k * T.slotCapacity + s.entryPos
  readPos_le : s.entryPos ≤ T.slotCapacity
  view : ∀ x, entryAt T.slotCapacity idx.slots (chainSlots p (chains p)) x = splitView stay L r x
  gaps : s.gaps = true ↔ stay.length < r
  gapSlot : (chainSlots p (chains p))[kw]? = some s.originalSlotForInsert
  gapPos_lt : s.entryPosToInsert < T.slotCapacity
  gap_le : kw * T.slotCapacity + s.entryPosToInsert ≤ stay.length
  gap_kept : kw = 0 ∨ kw * T.slotCapacity < stay.length
  new : Holds T.slotCapacity idx.slots (chainSlots q (chains q)) moved
  newSlot : (chainSlots q (chains q))[(chains q).length]? = some s.newSlot
  newPos : moved.length = (chains q).length * T.slotCapacity + s.newSlotPos
  newPos_le : s.newSlotPos ≤ T.slotCapacity

/-- No overflow slot of the new slot is empty. -/
def NewTight (q : Nat) (chains : Nat → List Nat) (s : SplitState) : Prop :=
  chains q = [] ∨ 0 < s.newSlotPos

/-! ## Lists -/

theorem take_succ_filter (he : L[r]? = some e) (f : SlotEntry K → Bool) :
    (L.take (r + 1)).filter f = (L.take r).filter f ++ if f e then [e] else [] := by
  rw [take_add_one, he]
  cases hf : f e <;> simp [hf]

/-- An entry that was moved away from the reading position leaves a gap. -/
theorem splitView_succ_of_moved (hle : stay.length ≤ r) (x : Nat) :
    (if x = r then none else splitView stay L r x) = splitView stay L (r + 1) x := by
  unfold splitView
  grind

/-- An entry that was moved from the reading position to the first gap. -/
theorem splitView_succ_of_filled (hlt : stay.length < r) (x : Nat) :
    (if x = r then none else if x = stay.length then some e else splitView stay L r x) =
      splitView (stay ++ [e]) L (r + 1) x := by
  unfold splitView
  grind

/-- An entry that stays where it is when there is no gap yet. -/
theorem splitView_succ_of_kept (hlen : stay.length = r) (he : L[r]? = some e) (x : Nat) :
    splitView stay L r x = splitView (stay ++ [e]) L (r + 1) x := by
  unfold splitView
  grind

/-! ## One round of the loop -/

theorem SplitFrame.setEntry (hf : SplitFrame idx₀ chains₀ p q idx chains)
    {capacity t : Nat} (h : Layout capacity idx chains free) (ht : t = p ∨ t = q)
    (hi : i ∈ chainSlots t (chains t)) (pos : Nat) (entry : Option (SlotEntry K)) :
    SplitFrame idx₀ chains₀ p q (idx.setEntry i pos entry) chains := by
  have htlt : t < idx.numPSlots := ht.elim (· ▸ hf.p_lt) (· ▸ hf.q_lt)
  refine { hf with others := fun p' hp' hne hne' => ?_ }
  obtain ⟨hchain, hentries⟩ := hf.others p' hp' hne hne'
  refine ⟨hchain, fun i' hi' => ?_⟩
  have hpt : p' ≠ t := by
    rcases ht with rfl | rfl
    · exact hne
    · exact hne'
  rw [h.slots_setEntry htlt hp' hpt hi hi']
  exact hentries i' hi'

theorem SplitFrame.extend (hf : SplitFrame idx₀ chains₀ p q idx chains)
    (hframe : Frame idx idx' chains) (o : Nat) :
    SplitFrame idx₀ chains₀ p q idx' (update chains q (chains q ++ [o])) := by
  have hnum := hframe.numPSlots
  refine ⟨by rw [hnum]; exact hf.p_lt, by rw [hnum]; exact hf.q_lt, hf.ne, hf.split,
    hnum.trans hf.numPSlots, hf.header.trans hframe.header, ?_, ?_⟩
  · rw [update_of_ne hf.ne]
    exact hf.original
  intro p' hp' hne hne'
  rw [hnum] at hp'
  obtain ⟨hchain, hentries⟩ := hf.others p' hp' hne hne'
  rw [update_of_ne hne']
  refine ⟨hchain, fun i hi => ?_⟩
  rw [hframe.entries p' hp' i hi]
  exact hentries i hi

namespace Splitting

variable {stay moved : List (SlotEntry K)} {k kw level : Nat} {e : SlotEntry K}

section

variable (h : Splitting T level p q L stay moved idx chains free s k kw r)

include h

theorem stay_length_le : stay.length ≤ r := by
  rw [h.stay_eq]
  exact (length_filter_le _ _).trans (length_take_le _ _)

/-- The entry at the reading position is the next one of `L`. -/
theorem read (hpos : s.entryPos < T.slotCapacity) :
    (idx.slots s.originalSlot).entries s.entryPos = L[r]? := by
  have hle := h.stay_length_le
  rw [← entryAt_eq hpos h.readSlot, ← h.readPos, h.view r, splitView, if_neg (by omega),
    if_neg (by omega)]

section

variable (hf : SplitFrame idx₀ chains₀ p q idx chains)

include hf

/-- The new slot gets a further overflow slot. -/
theorem extendNew (hfull : T.slotCapacity ≤ s.newSlotPos) :
    ∃ chains' free', Splitting T level p q L stay moved
        (idx.allocateAOSlot.1.setNext s.newSlot (some idx.allocateAOSlot.2)) chains' free'
        { s with newSlot := .ovf idx.allocateAOSlot.2, newSlotPos := 0 } k kw r ∧
      SplitFrame idx₀ chains₀ p q
        (idx.allocateAOSlot.1.setNext s.newSlot (some idx.allocateAOSlot.2)) chains' := by
  obtain ⟨free', hlayout, hframe, hempty⟩ := h.layout.extend hf.q_lt h.newSlot
  generalize idx.allocateAOSlot.1.setNext s.newSlot (some idx.allocateAOSlot.2) = idx' at *
  generalize idx.allocateAOSlot.2 = o at *
  have hother : ∀ p', p' ≠ q → update chains q (chains q ++ [o]) p' = chains p' :=
    fun p' hne => update_of_ne hne _ _
  have hp := hother p hf.ne
  have hq : update chains q (chains q ++ [o]) q = chains q ++ [o] := update_self _ _ _
  refine ⟨update chains q (chains q ++ [o]), free', ?_, ?_⟩
  · exact { h with
      layout := hlayout
      readSlot := by rw [hp]; exact h.readSlot
      view := fun x => by
        rw [hp, entryAt_congr (hframe.entries p hf.p_lt)]
        exact h.view x
      gapSlot := by rw [hp]; exact h.gapSlot
      new := by
        rw [hq]
        exact Holds.extend T.slotCapacity_pos h.new (hframe.entries q hf.q_lt) hempty
      newSlot := by
        rw [hq, length_append, length_singleton, chainSlots_getElem?_succ]
        simp
      newPos := by
        have hpos := h.newPos
        have hle := h.newPos_le
        rw [hq, length_append, length_singleton, Nat.add_mul]
        simp only
        omega
      newPos_le := Nat.zero_le _ }
  · exact hf.extend hframe o

variable (hpos : s.entryPos < T.slotCapacity) (he : L[r]? = some e)

include hpos he

/-- The entry at the reading position is written to the new slot and cleared. -/
theorem writeMoved (hmoves : Stays T level p e = false) (hroom : s.newSlotPos < T.slotCapacity) :
    Splitting T level p q L stay (moved ++ [e])
        ((idx.setEntry s.newSlot s.newSlotPos (some e)).setEntry s.originalSlot s.entryPos none)
        chains free
        { s with entryPos := s.entryPos + 1, newSlotPos := s.newSlotPos + 1, gaps := true }
        k kw (r + 1) ∧
      SplitFrame idx₀ chains₀ p q
        ((idx.setEntry s.newSlot s.newSlotPos (some e)).setEntry s.originalSlot s.entryPos none)
        chains := by
  have hnew := mem_of_getElem? h.newSlot
  have hread := mem_of_getElem? h.readSlot
  have hlayout := h.layout.setEntry hf.q_lt hnew s.newSlotPos (some e)
  have hle := h.stay_length_le
  refine ⟨?_, (hf.setEntry h.layout (.inr rfl) hnew _ _).setEntry hlayout (.inl rfl) hread _ _⟩
  exact { h with
    layout := hlayout.setEntry hf.p_lt hread _ _
    stay_eq := by rw [take_succ_filter he, ← h.stay_eq, if_neg (by simp [hmoves]), append_nil]
    moved_eq := by rw [take_succ_filter he, ← h.moved_eq, if_pos (by simp [hmoves])]
    readPos := by
      have := h.readPos
      simp only
      omega
    readPos_le := hpos
    view := fun x => by
      rw [hlayout.entryAt_setEntry hf.p_lt h.readSlot hpos, ← h.readPos,
        h.layout.entryAt_setEntry_of_ne hf.q_lt hf.p_lt hf.ne hnew, h.view x]
      exact splitView_succ_of_moved hle x
    gaps := ⟨fun _ => by omega, fun _ => rfl⟩
    new := fun x => by
      rw [hlayout.entryAt_setEntry_of_ne hf.p_lt hf.q_lt hf.ne.symm hread,
        h.layout.entryAt_setEntry hf.q_lt h.newSlot hroom, ← h.newPos, h.new x]
      grind
    newPos := by
      have := h.newPos
      rw [length_append, length_singleton]
      simp only
      omega
    newPos_le := hroom }

/-- An entry that hashes to the new slot. -/
theorem move (hmoves : Stays T level p e = false) :
    ∃ chains' free', Splitting T level p q L stay (moved ++ [e]) (moveEntry T idx s e).1 chains'
        free' (moveEntry T idx s e).2 k kw (r + 1) ∧
      SplitFrame idx₀ chains₀ p q (moveEntry T idx s e).1 chains' ∧
      NewTight q chains' (moveEntry T idx s e).2 := by
  unfold moveEntry
  by_cases hroom : T.slotCapacity ≤ s.newSlotPos
  · obtain ⟨chains', free', hsplit, hframe⟩ := h.extendNew hf hroom
    obtain ⟨hsplit', hframe'⟩ := hsplit.writeMoved hframe hpos he hmoves T.slotCapacity_pos
    simp only [hroom]
    exact ⟨chains', free', hsplit', hframe', .inr (Nat.succ_pos _)⟩
  · simp only [hroom]
    obtain ⟨hsplit, hframe⟩ := h.writeMoved hf hpos he hmoves (not_le.mp hroom)
    exact ⟨chains, free, hsplit, hframe, .inr (Nat.succ_pos _)⟩

/-- An entry that stays, when there is a gap before it. -/
theorem fill (hstays : Stays T level p e = true) (hgaps : s.gaps = true) :
    ∃ idx' s' kw', fillGap T idx s e = some (idx', s') ∧
      Splitting T level p q L (stay ++ [e]) moved idx' chains free s' k kw' (r + 1) ∧
      SplitFrame idx₀ chains₀ p q idx' chains ∧ s'.newSlotPos = s.newSlotPos := by
  have hlt := h.gaps.mp hgaps
  have hcap := T.slotCapacity_pos
  have hk := lt_length_of_getElem? h.readSlot
  -- the reading position is in the chain, so the gap is
  have hr : r < (chainSlots p (chains p)).length * T.slotCapacity := by
    have hle : (k + 1) * T.slotCapacity ≤ (chainSlots p (chains p)).length * T.slotCapacity :=
      Nat.mul_le_mul_right _ hk
    have := h.readPos
    rw [Nat.add_mul] at hle
    omega
  have hfuel : (chainSlots p (chains p)).length * T.slotCapacity ≤
      (idx.numOSlots + 1) * T.slotCapacity :=
    Nat.mul_le_mul_right _ (h.layout.chain_length_le hf.p_lt)
  have hfuel' : stay.length < kw * T.slotCapacity + s.entryPosToInsert +
      ((idx.numOSlots + 1) * T.slotCapacity + 1) := by omega
  obtain ⟨i, hi, hfind⟩ := findGap_spec (h.layout.linked p hf.p_lt) h.gapSlot h.gapPos_lt h.gap_le
    (hlt.trans hr)
    (fun x _ hx => by
      rw [h.view x, splitView, if_pos hx, getElem?_eq_getElem hx]
      rfl)
    (by rw [h.view, splitView, if_neg (by omega), if_pos hlt]) hfuel'
  have hmod := Nat.mod_lt stay.length hcap
  have hdiv := Nat.div_add_mod' stay.length T.slotCapacity
  have hmem := mem_of_getElem? hi
  have hread := mem_of_getElem? h.readSlot
  have hlayout := h.layout.setEntry hf.p_lt hmem (stay.length % T.slotCapacity) (some e)
  have heq : fillGap T idx s e = some
      ((idx.setEntry i (stay.length % T.slotCapacity) (some e)).setEntry s.originalSlot s.entryPos
        none,
      { s with
        entryPos := s.entryPos + 1
        originalSlotForInsert := i
        entryPosToInsert := stay.length % T.slotCapacity }) := by
    rw [fillGap, hfind]
    rfl
  refine ⟨_, _, stay.length / T.slotCapacity, heq, ?_,
    (hf.setEntry h.layout (.inl rfl) hmem _ _).setEntry hlayout (.inl rfl) hread _ _, rfl⟩
  exact { h with
    layout := hlayout.setEntry hf.p_lt hread _ _
    stay_eq := by rw [take_succ_filter he, ← h.stay_eq, if_pos hstays]
    moved_eq := by
      rw [take_succ_filter he, ← h.moved_eq, if_neg (by simp [hstays]), append_nil]
    readPos := by
      have := h.readPos
      simp only
      omega
    readPos_le := hpos
    view := fun x => by
      rw [hlayout.entryAt_setEntry hf.p_lt h.readSlot hpos, ← h.readPos,
        h.layout.entryAt_setEntry hf.p_lt hi hmod, hdiv, h.view x]
      exact splitView_succ_of_filled hlt x
    gaps := by
      rw [length_append, length_singleton]
      exact ⟨fun _ => by omega, fun _ => hgaps⟩
    gapSlot := hi
    gapPos_lt := hmod
    gap_le := by
      rw [length_append, hdiv]
      exact Nat.le_add_right _ _
    gap_kept := by
      rw [length_append, length_singleton]
      right
      omega
    new := fun x => by
      rw [hlayout.entryAt_setEntry_of_ne hf.p_lt hf.q_lt hf.ne.symm hread,
        h.layout.entryAt_setEntry_of_ne hf.p_lt hf.q_lt hf.ne.symm hmem, h.new x] }

end

/-- An entry that stays, when there is no gap before it. -/
theorem keep (hpos : s.entryPos < T.slotCapacity) (he : L[r]? = some e)
    (hstays : Stays T level p e = true) (hgaps : ¬ s.gaps = true) :
    Splitting T level p q L (stay ++ [e]) moved idx chains free
      { s with entryPos := s.entryPos + 1 } k kw (r + 1) := by
  have hle := h.stay_length_le
  have hlen : stay.length = r := by
    have := mt h.gaps.mpr hgaps
    omega
  have hlen' : (stay ++ [e]).length = stay.length + 1 := length_append
  exact { h with
    stay_eq := by rw [take_succ_filter he, ← h.stay_eq, if_pos hstays]
    moved_eq := by
      rw [take_succ_filter he, ← h.moved_eq, if_neg (by simp [hstays]), append_nil]
    readPos := by
      have := h.readPos
      simp only
      omega
    readPos_le := hpos
    view := fun x => (h.view x).trans (splitView_succ_of_kept hlen he x)
    gaps := ⟨fun hg => absurd hg hgaps, fun hlt => by omega⟩
    gap_le := h.gap_le.trans (by omega)
    gap_kept := by
      have := h.gap_kept
      omega }

/-- The reading iterator goes on to the next slot of the chain. -/
theorem advance (hpos : ¬ s.entryPos < T.slotCapacity) {next : SlotInfo}
    (hnext : (chainSlots p (chains p))[k + 1]? = some next) :
    Splitting T level p q L stay moved idx chains free
      { s with originalSlot := next, entryPos := 0 } (k + 1) kw r :=
  { h with
    readSlot := hnext
    readPos := by
      have := h.readPos
      have := h.readPos_le
      rw [Nat.add_mul]
      simp only
      omega
    readPos_le := Nat.zero_le _ }

end

variable (h : Splitting T idx₀.indexHeader.currentLevel p q L stay moved idx chains free s k kw r)
  (hf : SplitFrame idx₀ chains₀ p q idx chains) (htight : NewTight q chains s)

include h hf htight

/-- One round of the loop: it ends when all entries are read, and otherwise goes one
entry or one slot further. -/
theorem step (hlen : L.length ≤ (chainSlots p (chains p)).length * T.slotCapacity)
    (hr : r ≤ L.length) (hfp : ∀ e ∈ L, e.fingerprint = getFingerprintForHash (T.hash e.key)) :
    (splitStep T idx s = some (idx, none) ∧ r = L.length) ∨
    ∃ idx' s' stay' moved' chains' free' k' kw' r', splitStep T idx s = some (idx', some s') ∧
      Splitting T idx₀.indexHeader.currentLevel p q L stay' moved' idx' chains' free' s' k' kw' r' ∧
      SplitFrame idx₀ chains₀ p q idx' chains' ∧ NewTight q chains' s' ∧
      r' ≤ L.length ∧ k' + r' = k + r + 1 := by
  unfold splitStep
  by_cases hpos : s.entryPos < T.slotCapacity
  · simp only [hpos, h.read hpos]
    cases he : L[r]? with
    | none => exact .inl ⟨rfl, by have := getElem?_eq_none_iff.mp he; omega⟩
    | some e =>
      right
      have hr' := lt_length_of_getElem? he
      -- the fingerprint is computed again and does not change
      have hentry : ({ e with fingerprint := getFingerprintForHash (T.hash e.key) } :
          SlotEntry K) = e := by
        rw [← hfp e (mem_of_getElem? he)]
      have hcond : T.hash e.key % 2 ^ (idx.indexHeader.currentLevel + 1) ≠
          idx.indexHeader.nextSplitSlotId ↔ Stays T idx₀.indexHeader.currentLevel p e = false := by
        rw [hf.header.currentLevel, hf.header.nextSplitSlotId, hf.split]
        simp [Stays]
      simp only [hentry, hcond]
      by_cases hmoves : Stays T idx₀.indexHeader.currentLevel p e = false
      · obtain ⟨chains', free', hsplit, hframe, htight'⟩ := h.move hf hpos he hmoves
        rw [if_pos hmoves]
        exact ⟨_, _, _, _, chains', free', k, kw, r + 1, rfl, hsplit, hframe, htight', hr',
          by omega⟩
      have hstays := Bool.not_eq_false _ ▸ hmoves
      rw [if_neg hmoves]
      by_cases hgaps : s.gaps = true
      · obtain ⟨_, _, kw', heq, hsplit, hframe, hnew⟩ := h.fill hf hpos he hstays hgaps
        rw [if_pos hgaps, heq]
        exact ⟨_, _, _, _, chains, free, k, kw', r + 1, rfl, hsplit, hframe,
          htight.imp_right (hnew ▸ ·), hr', by omega⟩
      · rw [if_neg hgaps]
        exact ⟨_, _, _, _, chains, free, k, kw, r + 1, rfl, h.keep hpos he hstays hgaps, hf,
          htight, hr', by omega⟩
  · simp only [hpos, nextChainedSlot_eq (h.layout.linked p hf.p_lt) h.readSlot]
    cases hnext : (chainSlots p (chains p))[k + 1]? with
    | none =>
      have hk := getElem?_eq_none_iff.mp hnext
      have hk' := lt_length_of_getElem? h.readSlot
      have hread := h.readPos
      rw [show (chainSlots p (chains p)).length = k + 1 by omega, Nat.add_mul] at hlen
      exact .inl ⟨rfl, by omega⟩
    | some =>
      exact .inr ⟨_, _, _, _, chains, free, k + 1, kw, r, rfl, h.advance hpos hnext, hf, htight,
        hr, by omega⟩

omit h hf htight in
/-- Before the loop. -/
theorem start (hlayout : Layout T.slotCapacity idx chains free)
    (hp : Holds T.slotCapacity idx.slots (chainSlots p (chains p)) L) (hchain : chains q = [])
    (hq : Holds T.slotCapacity idx.slots (chainSlots q (chains q)) []) :
    Splitting T level p q L [] [] idx chains free
      ⟨.primary p, 0, .primary p, 0, .primary q, 0, false⟩ 0 0 0 where
  layout := hlayout
  stay_eq := rfl
  moved_eq := rfl
  readSlot := rfl
  readPos := (Nat.zero_mul _).symm
  readPos_le := Nat.zero_le _
  view x := by simpa [splitView] using hp x
  gaps := by simp
  gapSlot := rfl
  gapPos_lt := T.slotCapacity_pos
  gap_le := by simp
  gap_kept := .inl rfl
  new := hq
  newSlot := by rw [hchain]; rfl
  newPos := by simp [hchain]
  newPos_le := Nat.zero_le _

omit h hf htight in
/-- When all entries are read, the chain of the slot holds those that stay. -/
theorem finish (h : Splitting T level p q L stay moved idx chains free s k kw L.length) :
    Holds T.slotCapacity idx.slots (chainSlots p (chains p)) stay := by
  intro x
  rw [h.view x, splitView]
  grind

/-- The loop reads the whole chain. -/
theorem loop {fuel : Nat} (hlen : L.length ≤ (chainSlots p (chains₀ p)).length * T.slotCapacity)
    (hr : r ≤ L.length) (hfp : ∀ e ∈ L, e.fingerprint = getFingerprintForHash (T.hash e.key))
    (hfuel : (chainSlots p (chains₀ p)).length * T.slotCapacity +
      (chainSlots p (chains₀ p)).length ≤ k + r + fuel) :
    ∃ idx' s' stay' moved' chains' free' k' kw',
      splitLoop T fuel idx s = some (idx', s'.originalSlotForInsert) ∧
      Splitting T idx₀.indexHeader.currentLevel p q L stay' moved' idx' chains' free' s' k' kw'
        L.length ∧
      SplitFrame idx₀ chains₀ p q idx' chains' ∧ NewTight q chains' s' := by
  induction fuel generalizing idx s stay moved chains free k kw r with
  | zero =>
    -- `k` is in the chain and `r` in the list
    have hk := lt_length_of_getElem? h.readSlot
    rw [hf.original] at hk
    omega
  | succ _ ih =>
    simp only [splitLoop]
    rcases h.step hf htight (by rw [hf.original]; exact hlen) hr hfp with ⟨hstep, hend⟩ |
      ⟨idx', s', stay', moved', chains', free', k', kw', r', hstep, hsplit, hframe, htight', hr',
        hmeasure⟩
    · rw [hstep]
      subst hend
      exact ⟨idx, s, stay, moved, chains, free, k, kw, rfl, h, hf, htight⟩
    · rw [hstep]
      exact ih hsplit hframe htight' hr' (by omega)

end Splitting

end InMemHashIndex

end Lbug.Index
