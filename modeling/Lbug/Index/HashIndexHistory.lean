/-
  Index/HashIndexHistory.lean --- checkpoints of a persistent index one after the other.

  A persistent index starts without slots.  `Holds T idx entries` says that its chains
  hold these entries, each as often as it occurs, and that the header counts them.  A
  checkpoint adds the entries of the local storage if the index and the local storage
  before it are as `CheckpointOk` says.

  Three things go wrong otherwise.  A call of `reserve` that needs fewer slots than there
  are splits 2^64 slots less the difference.  A split may read a slot of the buffer while
  an overflow slot is added to it; that needs a slot that the checkpoint has created and
  that overflows again.  And if both calls split slots, the second one gives the overflow
  slots of the first one to other chains; that needs local deletions, which make the first
  call reserve less than the second.
-/
import Lbug.Index.HashIndexMerge
import Lbug.Index.InMemMultimap

namespace Lbug.Index

open InMemHashIndex HashIndex Foundation Option Multiset

variable {K : Type} {T : KeyType K} {table : InMemHashIndex K} {idx : HashIndex K}
  {chains : Nat → List Nat} {entries : Multiset (SlotEntry K)}
  {localStorage : HashIndexLocalStorage K} {m : Multimap K}

/-! ## Reserving slots -/

/-- The call of `reserve` keeps the chains of an index with these keys. -/
structure ReserveOk (T : KeyType K) (idx : HashIndex K) (keys : Multiset K) (newEntries : Nat) :
    Prop where
  le : idx.table.numPSlots ≤ requiredSlots T idx.table.indexHeader newEntries
  read : keys ≠ 0 →
    requiredSlots T idx.table.indexHeader newEntries - idx.table.numPSlots = 0 ∨
      idx.numOSlotsRead = idx.table.numOSlots
  old : ∀ i < requiredSlots T idx.table.indexHeader newEntries - idx.table.numPSlots,
    SplitOverflows T (splitHeader idx.table.indexHeader i) keys →
      (splitHeader idx.table.indexHeader i).nextSplitSlotId < idx.table.numPSlots

section

variable (hlayout : Layout T.persistentSlotCapacity table chains [])
  (hempty : diskTotal T table chains = 0) {n : Nat}

include hlayout hempty

/-- The slots of an empty index after `allocateSlots` has added some. -/
theorem layout_resize (hle : table.numPSlots ≤ n) :
    ∃ table' chains', (if table.numPSlots < n then
        table.allocatePSlots (n - table.numPSlots) else table) = table' ∧
      Layout T.persistentSlotCapacity table' chains' [] ∧ table'.numPSlots = n ∧
      table'.indexHeader = table.indexHeader ∧
      ∀ t < n, contentOf T.persistentSlotCapacity table' chains' t = [] := by
  have hnil : ∀ t < table.numPSlots, contentOf T.persistentSlotCapacity table chains t = [] := by
    intro t ht
    rw [List.eq_nil_iff_forall_not_mem]
    intro e he
    have hmem := mem_total.mpr ⟨t, ht, he⟩
    rw [show total table.numPSlots (contentOf T.persistentSlotCapacity table chains) = 0
      from hempty] at hmem
    exact notMem_zero e hmem
  rcases eq_or_lt_of_le hle with heq | hlt
  · exact ⟨table, chains, if_neg (by omega), hlayout, heq, rfl, fun t ht => hnil t (heq ▸ ht)⟩
  refine ⟨_, _, if_pos hlt, hlayout.allocatePSlots (n - table.numPSlots),
    Nat.add_sub_cancel' hle, rfl, fun t _ => ?_⟩
  by_cases hold : t < table.numPSlots
  · rw [contentOf, if_pos hold, ← hnil t hold]
    exact chainList_congr fun i hi => by rw [slots_allocatePSlots _ hold hi]
  · rw [contentOf, if_neg hold]
    refine chainList_of_empty fun i hi j => ?_
    rcases mem_chainSlots.mp hi with rfl | ⟨_, ho, -⟩
    · simp [allocatePSlots, not_lt.mp hold]
    · cases ho

theorem diskStored_allocateSlots (hle : table.numPSlots ≤ n)
    (hlevel : 2 ^ table.indexHeader.currentLevel ≤ n) :
    ∃ chains', DiskStored T (table.allocateSlots n) chains' ∧
      diskTotal T (table.allocateSlots n) chains' = 0 ∧
      (table.allocateSlots n).numPSlots = n ∧
      (table.allocateSlots n).indexHeader.numEntries = table.indexHeader.numEntries := by
  obtain ⟨table', chains', heq, hlayout', hnum, hheader, hnil⟩ := layout_resize hlayout hempty hle
  obtain ⟨hpow, hlt, hentries, hfree⟩ := raiseLevel_spec table.indexHeader n hlevel
  have hallocate : table.allocateSlots n = { table' with
      indexHeader := { raiseLevel table.indexHeader n with
        nextSplitSlotId := n - 2 ^ (raiseLevel table.indexHeader n).currentLevel } } := by
    simp only [allocateSlots, heq, hheader, hpow, if_true]
  rw [hallocate]
  refine ⟨chains', ⟨hlayout'.congr_header (hheader ▸ hfree), ?_, fun t ht e he => ?_⟩, ?_, hnum,
    hentries⟩
  · rw [pow_succ] at hlt
    exact ⟨by simp only [hnum]; omega, by simp only; omega⟩
  · have hmem : e ∈ contentOf T.persistentSlotCapacity table' chains' t := he
    rw [hnil t (hnum ▸ ht)] at hmem
    cases hmem
  · show ∑ t ∈ Finset.range table'.numPSlots,
      (contentOf T.persistentSlotCapacity table' chains' t : Multiset (SlotEntry K)) = 0
    refine Finset.sum_eq_zero fun t ht => ?_
    rw [hnil t (hnum ▸ Finset.mem_range.mp ht), coe_nil]

end

/-- The chains of the index, which may have no slots yet. -/
structure DiskHolds (T : KeyType K) (table : InMemHashIndex K) (chains : Nat → List Nat)
    (entries : Multiset (SlotEntry K)) : Prop where
  layout : Layout T.persistentSlotCapacity table chains []
  stored : table.numPSlots ≠ 0 → DiskStored T table chains
  total : diskTotal T table chains = entries
  numEntries : table.indexHeader.numEntries = entries.card

/-- The keys of these entries. -/
def entryKeys (entries : Multiset (SlotEntry K)) : Multiset K := entries.map (·.key)

/-- `reserve` keeps the entries.  If there are any it splits slots. -/
theorem DiskHolds.reserve (h : DiskHolds T idx.table chains entries) {newEntries : Nat}
    (hok : ReserveOk T idx (entryKeys entries) newEntries) :
    ∃ idx' chains', HashIndex.reserve T idx newEntries = some idx' ∧
      DiskStored T idx'.table chains' ∧ DiskHolds T idx'.table chains' entries ∧
      idx'.table.numPSlots = requiredSlots T idx.table.indexHeader newEntries ∧
      (entries ≠ 0 →
        idx'.table.indexHeader = splitHeader idx.table.indexHeader
          (requiredSlots T idx.table.indexHeader newEntries - idx.table.numPSlots) ∧
        idx'.numOSlotsRead = idx.numOSlotsRead ∧
        ((∀ i < requiredSlots T idx.table.indexHeader newEntries - idx.table.numPSlots,
          ¬ SplitOverflows T (splitHeader idx.table.indexHeader i) (entryKeys entries)) →
            idx'.table.numOSlots = idx.table.numOSlots)) := by
  simp only [HashIndex.reserve]
  by_cases hzero : idx.table.indexHeader.numEntries = 0
  · rw [if_pos hzero]
    obtain rfl : entries = 0 := card_eq_zero.mp (h.numEntries.symm.trans hzero)
    obtain ⟨chains', hstored, htotal, hslots, hnum⟩ :=
      diskStored_allocateSlots h.layout h.total hok.le
        (le_trans (le_max_right _ _) (le_max_left _ _))
    exact ⟨_, chains', rfl, hstored, ⟨hstored.layout, fun _ => hstored, htotal,
      hnum.trans hzero⟩, hslots, fun hne => absurd rfl hne⟩
  · rw [if_neg hzero, if_pos hok.le]
    have hne : entryKeys entries ≠ 0 := by
      intro hnone
      rw [h.numEntries, map_eq_zero.mp hnone] at hzero
      exact hzero rfl
    have hslots : idx.table.numPSlots ≠ 0 := by
      intro hnone
      have htotal := h.total
      rw [diskTotal, hnone] at htotal
      rw [h.numEntries, ← htotal] at hzero
      exact hzero rfl
    obtain ⟨idx', chains', heq, hstored, htotal, hnum, hheader, hread, hkept⟩ :=
      splitSlots_spec (h.stored hslots) _ (by rw [h.total]; rfl) (hok.read hne) hok.old
    refine ⟨idx', chains', heq, hstored, ⟨hstored.layout, fun _ => hstored,
      htotal.trans h.total, ?_⟩, ?_, fun _ => ⟨hheader, hread, hkept⟩⟩
    · rw [hheader, splitHeader_numEntries, h.numEntries]
    · rw [hnum, Nat.add_sub_cancel' hok.le]

/-! ## One checkpoint -/

/-- The number of entries that the first call of `reserve` is made for. -/
def firstReserved (localStorage : HashIndexLocalStorage K) : Nat :=
  if 0 < localStorage.getNetInserts then localStorage.getNetInserts.toNat
  else localStorage.localInsertions.indexHeader.numEntries

/-- What the checkpoint needs of the index, which has these keys, and of the local
storage: there are no more primary slots than the first call of `reserve` requires; among
the slots to split, those that overflow were there before; and if both calls split slots,
no slot that the first one splits overflows. -/
structure CheckpointOk (T : KeyType K) (idx : HashIndex K) (keys : Multiset K)
    (localStorage : HashIndexLocalStorage K) : Prop where
  le : idx.table.numPSlots ≤ requiredSlots T idx.table.indexHeader (firstReserved localStorage)
  old : ∀ i < requiredSlots T idx.table.indexHeader
      localStorage.localInsertions.indexHeader.numEntries - idx.table.numPSlots,
    SplitOverflows T (splitHeader idx.table.indexHeader i) keys →
      (splitHeader idx.table.indexHeader i).nextSplitSlotId < idx.table.numPSlots
  once : requiredSlots T idx.table.indexHeader (firstReserved localStorage) <
      requiredSlots T idx.table.indexHeader localStorage.localInsertions.indexHeader.numEntries →
    ∀ i < requiredSlots T idx.table.indexHeader (firstReserved localStorage) -
        idx.table.numPSlots,
      ¬ SplitOverflows T (splitHeader idx.table.indexHeader i) keys

theorem firstReserved_le (localStorage : HashIndexLocalStorage K) :
    firstReserved localStorage ≤ localStorage.localInsertions.indexHeader.numEntries := by
  unfold firstReserved HashIndexLocalStorage.getNetInserts
  split
  · omega
  · exact le_refl _

theorem requiredSlots_mono (header : HashIndexHeader) {n n' : Nat} (h : n ≤ n') :
    requiredSlots T header n ≤ requiredSlots T header n' := by
  have hslots : numRequiredSlots T.persistentSlotCapacity (header.numEntries + n) ≤
      numRequiredSlots T.persistentSlotCapacity (header.numEntries + n') := by
    refine Nat.div_le_div_right ?_
    simp only [getNumRequiredEntries]
    omega
  exact max_le_max (max_le_max hslots (le_refl _)) (le_refl _)

/-- The second call of `reserve` requires as many slots as it would before the first. -/
theorem requiredSlots_of_covers {header header' : HashIndexHeader} {n n' : Nat} (hn : n ≤ n')
    (hentries : header'.numEntries = header.numEntries)
    (hcovers : header'.Covers (requiredSlots T header n)) :
    requiredSlots T header' n' = requiredSlots T header n' := by
  have hmono := requiredSlots_mono (T := T) header hn
  have hlevel : 2 ^ header.currentLevel ≤ requiredSlots T header n :=
    le_trans (le_max_right _ _) (le_max_left _ _)
  have hsize := hcovers.size
  have hlt := hcovers.split_lt
  have hpow : 2 ^ header.currentLevel < 2 ^ (header'.currentLevel + 1) := by
    rw [Nat.pow_succ]
    omega
  have hle : 2 ^ header.currentLevel ≤ 2 ^ header'.currentLevel :=
    Nat.pow_le_pow_right (by decide)
      (Nat.lt_succ_iff.mp ((Nat.pow_lt_pow_iff_right (by decide)).mp hpow))
  have hfirst : 2 ^ header'.currentLevel ≤ requiredSlots T header n := by omega
  simp only [requiredSlots, hentries] at hfirst hmono ⊢
  omega

section

variable (S : EntrySort K) (h : DiskHolds T idx.table chains entries)
  {content : Nat → List (SlotEntry K)} {localChains : Nat → List Nat} {free : List Nat}

include h

theorem DiskHolds.mergeBulkInserts {insertions : InMemHashIndex K}
    (hlocal : Stored T insertions localChains free content)
    (hok : ReserveOk T idx (entryKeys entries) insertions.indexHeader.numEntries) :
    ∃ idx' chains', HashIndex.mergeBulkInserts T S idx insertions = some idx' ∧
      DiskHolds T idx'.table chains'
        (entries + InMemHashIndex.total insertions.numPSlots content) := by
  obtain ⟨idx₁, _, heq, hstored, hholds, -⟩ := h.reserve hok
  obtain ⟨table', chains', heq', hmerged⟩ := mergePages_spec S
    ((insertions.numPSlots + T.slotsPerPage - 1) / T.slotsPerPage) hstored hlocal
  have hpages : insertions.numPSlots ≤
      (insertions.numPSlots + T.slotsPerPage - 1) / T.slotsPerPage * T.slotsPerPage := by
    have hpos : 0 < T.slotsPerPage := Nat.zero_lt_of_lt T.two_le_slotsPerPage
    have hdiv := Nat.div_add_mod (insertions.numPSlots + T.slotsPerPage - 1) T.slotsPerPage
    have hmod := Nat.mod_lt (insertions.numPSlots + T.slotsPerPage - 1) hpos
    rw [mul_comm] at hdiv
    omega
  rw [total_localContent hpages] at hmerged
  refine ⟨{ idx₁ with table := table' }, chains', ?_, hmerged.stored.layout,
    fun _ => hmerged.stored, by rw [hmerged.total, hholds.total], ?_⟩
  · rw [HashIndex.mergeBulkInserts, heq, bind_some]
    simp only
    rw [heq', map_some]
  · rw [hmerged.header]
    simp [hholds.numEntries]

/-- The second call of `reserve` is safe after the first. -/
theorem DiskHolds.reserve_again (hread : idx.numOSlotsRead = idx.table.numOSlots)
    (hok : CheckpointOk T idx (entryKeys entries) localStorage)
    (hpos : 0 < localStorage.getNetInserts) :
    ∃ idx' chains', HashIndex.reserve T idx localStorage.getNetInserts.toNat = some idx' ∧
      DiskHolds T idx'.table chains' entries ∧ ReserveOk T idx' (entryKeys entries)
        localStorage.localInsertions.indexHeader.numEntries := by
  have hfirst : firstReserved localStorage = localStorage.getNetInserts.toNat := if_pos hpos
  obtain ⟨hle, hold, honce⟩ := hok
  have hnum := firstReserved_le localStorage
  rw [hfirst] at hle honce hnum
  have hmono := requiredSlots_mono (T := T) idx.table.indexHeader hnum
  have hreserve : ReserveOk T idx (entryKeys entries) localStorage.getNetInserts.toNat :=
    ⟨hle, fun _ => .inr hread, fun i hi => hold i (by omega)⟩
  obtain ⟨idx', chains', heq, hstored, hholds, hslots, hsplit⟩ := h.reserve hreserve
  refine ⟨idx', chains', heq, hholds, ?_⟩
  have hentries : idx'.table.indexHeader.numEntries = idx.table.indexHeader.numEntries := by
    rw [hholds.numEntries, h.numEntries]
  have hrequired := requiredSlots_of_covers hnum hentries (hslots ▸ hstored.covers)
  refine ⟨by rw [hrequired, hslots]; exact hmono, fun hne => ?_, fun i hi hover => ?_⟩
  · have hnonzero : entries ≠ 0 := fun hzero => hne (by rw [hzero]; rfl)
    obtain ⟨-, hread', hkept⟩ := hsplit hnonzero
    rw [hrequired, hslots]
    rcases eq_or_lt_of_le hmono with heq | hlt
    · exact .inl (by omega)
    · exact .inr (by rw [hread', hkept (honce hlt), hread])
  · have hnonzero : entries ≠ 0 := by
      rintro rfl
      exact absurd hover.2 (Nat.not_lt_zero _)
    obtain ⟨hheader, -⟩ := hsplit hnonzero
    rw [hrequired, hslots] at hi
    rw [hheader, splitHeader_add] at hover ⊢
    rw [hslots]
    exact lt_of_lt_of_le (hold _ (by omega) hover) hle

theorem DiskHolds.checkpoint
    (hlocal : Stored T localStorage.localInsertions localChains free content)
    (hnone : localStorage.hasUpdates = false →
      InMemHashIndex.total localStorage.localInsertions.numPSlots content = 0)
    (hread : idx.numOSlotsRead = idx.table.numOSlots)
    (hok : localStorage.hasUpdates = true → CheckpointOk T idx (entryKeys entries) localStorage) :
    ∃ idx' chains', HashIndex.checkpoint T S idx localStorage = some idx' ∧
      DiskHolds T idx'.table chains'
        (entries + InMemHashIndex.total localStorage.localInsertions.numPSlots content) := by
  simp only [HashIndex.checkpoint]
  cases hupdates : localStorage.hasUpdates with
  | false =>
    rw [hnone hupdates, add_zero]
    exact ⟨idx, chains, rfl, h⟩
  | true =>
    have hok := hok hupdates
    simp only [if_true]
    -- the first call of `reserve` rearranges the entries, if it is made
    have hfirst : ∃ idx₁ chains₁, (if 0 < localStorage.getNetInserts then
        HashIndex.reserve T idx localStorage.getNetInserts.toNat else some idx) = some idx₁ ∧
        DiskHolds T idx₁.table chains₁ entries ∧ ReserveOk T idx₁ (entryKeys entries)
          localStorage.localInsertions.indexHeader.numEntries := by
      by_cases hpos : 0 < localStorage.getNetInserts
      · rw [if_pos hpos]
        exact h.reserve_again hread hok hpos
      · refine ⟨idx, chains, if_neg hpos, h, ?_, fun _ => .inr hread, hok.old⟩
        have hle := hok.le
        rwa [show firstReserved localStorage = _ from if_neg hpos] at hle
    obtain ⟨idx₁, _, heq, hholds, hreserve⟩ := hfirst
    obtain ⟨idx', chains', heq', hholds'⟩ := hholds.mergeBulkInserts S hlocal hreserve
    exact ⟨idx', chains', by rw [heq, bind_some, heq'], hholds'⟩

end

/-! ## The entries of an index -/

/-- The chains of the index hold these keys and values, the header counts them, and other
transactions read all overflow slots. -/
def HashIndex.Holds (T : KeyType K) (idx : HashIndex K) (entries : Multiset (K × Nat)) : Prop :=
  idx.numOSlotsRead = idx.table.numOSlots ∧
    ∃ chains stored, DiskHolds T idx.table chains stored ∧ pairs stored = entries

theorem HashIndex.holds_new : HashIndex.Holds T ({} : HashIndex K) 0 :=
  ⟨rfl, fun _ => [], 0, ⟨layout_empty 0 _, fun hne => absurd rfl hne, rfl, rfl⟩, rfl⟩

variable {entries : Multiset (K × Nat)}

theorem HashIndex.Holds.numEntries (h : HashIndex.Holds T idx entries) :
    idx.table.indexHeader.numEntries = entries.card := by
  obtain ⟨-, _, _, hholds, rfl⟩ := h
  rw [hholds.numEntries, pairs, card_map]

theorem entryKeys_eq (entries : Multiset (SlotEntry K)) :
    (pairs entries).map Prod.fst = entryKeys entries := by
  rw [pairs, Multiset.map_map]
  rfl

theorem HashIndex.Holds.completeCheckpoint (S : EntrySort K)
    (h : HashIndex.Holds T idx entries) (hlocal : Represents T localStorage.localInsertions m)
    (hok : localStorage.hasUpdates = true →
      CheckpointOk T idx (entries.map Prod.fst) localStorage) :
    ∃ idx', HashIndex.completeCheckpoint T S idx localStorage = some idx' ∧
      HashIndex.Holds T idx' (entries + m.entries) := by
  obtain ⟨hread, _, _, hholds, rfl⟩ := h
  rw [entryKeys_eq] at hok
  obtain ⟨_, _, content, hstored, hm, hnum⟩ := hlocal
  have hnone : localStorage.hasUpdates = false →
      total localStorage.localInsertions.numPSlots content = 0 := by
    intro hupdates
    refine total_eq_zero hm hnum ?_
    simp only [HashIndexLocalStorage.hasUpdates, Bool.not_eq_false', Bool.and_eq_true,
      beq_iff_eq] at hupdates
    exact hupdates.1
  obtain ⟨idx', chains', heq, hholds'⟩ := hholds.checkpoint S hstored hnone hread hok
  refine ⟨{ idx' with numOSlotsRead := idx'.table.numOSlots }, ?_, rfl, chains', _, hholds', ?_⟩
  · rw [HashIndex.completeCheckpoint, heq, map_some]
  · rw [← hm]
    exact map_add _ _ _

variable [DecidableEq K] {S : EntrySort K}

/-- `lookupInPersistentIndex` finds an entry exactly if a visible one is there. -/
theorem HashIndex.Holds.lookup (h : HashIndex.Holds T idx entries)
    (key : K) (isVisible : Nat → Bool) :
    ∃ r, lookupInPersistentIndex T idx key isVisible = some r ∧
      (r.isSome = true ↔ ∃ value, (key, value) ∈ entries ∧ isVisible value = true) ∧
      ∀ value ∈ r, (key, value) ∈ entries ∧ isVisible value = true := by
  obtain ⟨-, chains, stored, hholds, rfl⟩ := h
  by_cases hslots : idx.table.numPSlots = 0
  · have htotal := hholds.total
    rw [diskTotal, hslots] at htotal
    obtain rfl : stored = 0 := htotal.symm
    have hzero : idx.table.indexHeader.numEntries = 0 := hholds.numEntries
    exact ⟨none, if_pos hzero, by simp [pairs], by simp⟩
  · rw [← hholds.total]
    have hnum : idx.table.indexHeader.numEntries = (diskTotal T idx.table chains).card := by
      rw [hholds.total]
      exact hholds.numEntries
    rcases (hholds.stored hslots).lookup idx.numOSlotsRead hnum key isVisible with
      ⟨e, he, hkey, hvisible, heq⟩ | ⟨hnot, heq⟩
    · have hmem : (key, e.value) ∈ pairs (diskTotal T idx.table chains) :=
        mem_pairs.mpr ⟨e, he, hkey, rfl⟩
      refine ⟨some e.value, heq, ⟨fun _ => ⟨e.value, hmem, hvisible⟩, fun _ => rfl⟩, ?_⟩
      rintro value ⟨⟩
      exact ⟨hmem, hvisible⟩
    · refine ⟨none, heq, ⟨fun hsome => absurd hsome Bool.false_ne_true, ?_⟩,
        fun value hv => by cases hv⟩
      rintro ⟨value, hmem, hvisible⟩
      obtain ⟨e, he, hkey, rfl⟩ := mem_pairs.mp hmem
      exact absurd ⟨e, he, hkey, hvisible⟩ hnot

/-! ## Runs of checkpoints -/

/-- The persistent indexes that checkpoints lead to, with the entries that the local
storages of the checkpoints held.  All checkpoints are safe. -/
inductive Checkpointed (T : KeyType K) (S : EntrySort K) : HashIndex K → Multiset (K × Nat) → Prop
  | new : Checkpointed T S {} 0
  | checkpoint {m : Multimap K} {localStorage : HashIndexLocalStorage K}
      {idx idx' entries calls outcomes} :
      Checkpointed T S idx entries →
      serve (InMemHashIndex.step T) (InMemHashIndex.new T) calls =
        some (localStorage.localInsertions, outcomes) →
      Represents T localStorage.localInsertions m →
      (localStorage.hasUpdates = true →
        CheckpointOk T idx (entries.map Prod.fst) localStorage) →
      HashIndex.completeCheckpoint T S idx localStorage = some idx' →
      Checkpointed T S idx' (entries + m.entries)

omit [DecidableEq K] in
theorem Checkpointed.step_holds {idx' : HashIndex K}
    (h : HashIndex.Holds T idx entries) (hlocal : Represents T localStorage.localInsertions m)
    (hok : localStorage.hasUpdates = true →
      CheckpointOk T idx (entries.map Prod.fst) localStorage)
    (heq : HashIndex.completeCheckpoint T S idx localStorage = some idx') :
    HashIndex.Holds T idx' (entries + m.entries) := by
  obtain ⟨idx'', heq', hholds⟩ := h.completeCheckpoint S hlocal hok
  obtain rfl : idx'' = idx' := some.inj (heq'.symm.trans heq)
  exact hholds

theorem Checkpointed.holds (h : Checkpointed T S idx entries) :
    HashIndex.Holds T idx entries := by
  induction h with
  | new => exact holds_new
  | checkpoint _ _ hlocal hok heq ih => exact Checkpointed.step_holds ih hlocal hok heq

/-- Every safe checkpoint of an index that safe checkpoints led to succeeds.  For each key
the new index finds exactly the entries that the index found before and those of the
local storage, each is stored once, and the number of entries grows by the number of
local entries. -/
theorem Checkpointed.checkpoint_adds_local_entries {S : EntrySort K}
    (h : Checkpointed T S idx entries) (calls : List (IndexCall K))
    (localDeletions : Finset K) :
    ∃ localInsertions outcomes m, serve (step T) (InMemHashIndex.new T) calls =
        some (localInsertions, outcomes) ∧
      Represents T localInsertions m ∧
      ((HashIndexLocalStorage.hasUpdates ⟨localDeletions, localInsertions⟩ = true →
          CheckpointOk T idx (entries.map Prod.fst) ⟨localDeletions, localInsertions⟩) →
        ∃ idx', completeCheckpoint T S idx ⟨localDeletions, localInsertions⟩ = some idx' ∧
          HashIndex.Holds T idx' (entries + m.entries) ∧
          idx'.table.indexHeader.numEntries = idx.table.indexHeader.numEntries + m.entries.card ∧
          ∀ key isVisible, ∃ r, lookupInPersistentIndex T idx' key isVisible = some r ∧
            (r.isSome = true ↔
              ∃ value, (key, value) ∈ entries + m.entries ∧ isVisible value = true) ∧
            ∀ value ∈ r, (key, value) ∈ entries + m.entries ∧ isVisible value = true) := by
  obtain ⟨localInsertions, outcomes, m, hserve, -, hlocal⟩ :=
    (simulates).serve calls represents_new
  refine ⟨localInsertions, outcomes, m, hserve, hlocal, fun hok => ?_⟩
  let localStorage : HashIndexLocalStorage K := ⟨localDeletions, localInsertions⟩
  have hinsertions : Represents T localStorage.localInsertions m := hlocal
  obtain ⟨idx', heq, hholds⟩ := h.holds.completeCheckpoint S hinsertions hok
  refine ⟨idx', heq, hholds, ?_, hholds.lookup⟩
  rw [hholds.numEntries, h.holds.numEntries, card_add]

/-! ## Runs on fixed inputs -/

instance : Std.Total fun a b : HashIndexEntryView K => b.diskSlotId ≤ a.diskSlotId :=
  ⟨fun _ _ => le_total _ _⟩

instance : IsTrans (HashIndexEntryView K) fun a b => b.diskSlotId ≤ a.diskSlotId :=
  ⟨fun _ _ _ hab hbc => le_trans hbc hab⟩

/-- A sort that `std::sort` may be. -/
def insertionEntrySort (K : Type) : EntrySort K where
  sort entries := entries.insertionSort fun a b => b.diskSlotId ≤ a.diskSlotId
  perm entries := List.perm_insertionSort _ entries
  sorted entries := List.pairwise_insertionSort _ entries

omit [DecidableEq K] in
/-- A new index has no slots, and no keys that could overflow. -/
theorem checkpointOk_new (localStorage : HashIndexLocalStorage K) :
    CheckpointOk T {} 0 localStorage :=
  ⟨Nat.zero_le _, fun _ _ hover => absurd hover.2 (Nat.not_lt_zero _),
    fun _ _ _ hover => absurd hover.2 (Nat.not_lt_zero _)⟩

/-- The first checkpoint of an index, with one local entry. -/
theorem first_checkpoint_adds_entry :
    ∃ (localInsertions : InMemHashIndex Nat) (outcomes : List IndexOutcome) (m : Multimap Nat)
      (idx' : HashIndex Nat),
      serve (step int64Keys) (new int64Keys)
        [.append 7 1 (fun _ => true)] = some (localInsertions, outcomes) ∧
      Represents int64Keys localInsertions m ∧
      completeCheckpoint int64Keys (insertionEntrySort Nat) {} ⟨∅, localInsertions⟩ =
        some idx' ∧
      HashIndex.Holds int64Keys idx' (0 + m.entries) := by
  obtain ⟨localInsertions, outcomes, m, hserve, hlocal, hcheckpoint⟩ :=
    Checkpointed.checkpoint_adds_local_entries
      (Checkpointed.new)
      [.append 7 1 (fun _ => true)] ∅
  obtain ⟨idx', heq, hholds, -⟩ := hcheckpoint fun _ => checkpointOk_new _
  exact ⟨localInsertions, outcomes, m, idx', hserve, hlocal, heq, hholds⟩

/-- Keys are appended to a new local storage, each with itself as its value, and a
checkpoint follows. -/
def checkpointKeys (idx : HashIndex Nat) (keys : List Nat) (localDeletions : Finset Nat) :
    Option (HashIndex Nat) :=
  (serve (InMemHashIndex.step int64Keys) (InMemHashIndex.new int64Keys)
    (keys.map fun key => .append key key fun _ => true)).bind fun (localInsertions, _) =>
      HashIndex.completeCheckpoint int64Keys (insertionEntrySort Nat) idx
        ⟨localDeletions, localInsertions⟩

/-- 15 keys of slot 16 that a split moves to another slot, 15 of slot 17, and others. -/
def chainedKeys : List Nat :=
  (List.range 15).map (16 + 32 * ·) ++ (List.range 15).map (17 + 32 * ·) ++
    (List.range 119).map fun i => i / 13 * 6400 + i % 13 + 2

/-- The second checkpoint has ten insertions and nine deletions.  Its first call of
`reserve` appends an overflow slot.  The second call gives the same number to a new slot of
another chain.  A key of the first checkpoint is no longer found. -/
theorem checkpoint_loses_entry : ∃ idx idx', checkpointKeys {} chainedKeys ∅ = some idx ∧
      checkpointKeys idx ((List.range 10).map (32 * · + 100007)) {2, 3, 4, 5, 6, 7, 8, 9, 10} =
        some idx' ∧
      lookupInPersistentIndex int64Keys idx 17 (fun _ => true) = some (some 17) ∧
      lookupInPersistentIndex int64Keys idx' 17 (fun _ => true) = some none := by
  have hrun : (checkpointKeys {} chainedKeys ∅).bind (fun idx =>
      (checkpointKeys idx ((List.range 10).map (32 * · + 100007))
        {2, 3, 4, 5, 6, 7, 8, 9, 10}).map fun idx' =>
          (lookupInPersistentIndex int64Keys idx 17 (fun _ => true),
            lookupInPersistentIndex int64Keys idx' 17 (fun _ => true))) =
      some (some (some 17), some none) := by decide +kernel
  obtain ⟨idx, hfirst, hrest⟩ := bind_eq_some_iff.mp hrun
  obtain ⟨idx', hsecond, hfound⟩ := map_eq_some_iff.mp hrest
  rw [Prod.mk.injEq] at hfound
  exact ⟨idx, idx', hfirst, hsecond, hfound⟩

end Lbug.Index
