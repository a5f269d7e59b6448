/-
  Index/HashIndexMerge.lean --- merging local entries into a persistent index.

  `mergeSlot` puts entries at empty positions of one chain, which it extends where needed.
  `mergeBulkInserts` calls it until all entries of a page of local slots are merged, page
  by page.  In the order of the entries nothing depends on the sorting: what a call merges
  is exactly what it takes off its partition, so that the entries of the index and those of
  the partitions together stay the same.
-/
import Lbug.Foundation.Indices
import Lbug.Index.HashIndexSplit

namespace Lbug.Index

open InMemHashIndex List

variable {K : Type} {T : KeyType K} {table table' : InMemHashIndex K}
  {chains chains' : Nat → List Nat} {p k j : Nat} {i : SlotInfo} {m : Multiset (SlotEntry K)}
  {part : HashIndex.Partition K} {partitions : List (HashIndex.Partition K)}
  {partitions' : List (HashIndex.Partition K)} {part' : HashIndex.Partition K}
  {m' : Multiset (SlotEntry K)} {view : HashIndexEntryView K} {e : SlotEntry K} {α : Type} {n : Nat}

/-! ## One entry -/

variable (T table table' chains chains') in
/-- The index with other chains but the same entries. -/
structure SameEntries : Prop where
  header : table'.indexHeader = table.indexHeader
  numPSlots : table'.numPSlots = table.numPSlots
  content : ∀ t < table.numPSlots, contentOf T.persistentSlotCapacity table' chains' t =
    contentOf T.persistentSlotCapacity table chains t

theorem DiskStored.of_sameEntries (h : DiskStored T table chains)
    (hlayout : Layout T.persistentSlotCapacity table' chains' [])
    (hsame : SameEntries T table table' chains chains') :
    DiskStored T table' chains' ∧ diskTotal T table' chains' = diskTotal T table chains := by
  refine ⟨⟨hlayout, ?_, fun t ht e he => ?_⟩, ?_⟩
  · rw [hsame.header, hsame.numPSlots]
    exact h.covers
  · rw [hsame.numPSlots] at ht
    rw [hsame.content t ht] at he
    rw [hsame.header]
    exact h.placed t ht e he
  · rw [diskTotal, hsame.numPSlots]
    exact total_congr hsame.content

variable (T table table' chains chains') in
/-- An empty position of the chain of `p`, in an index with the same entries. -/
structure EmptyEntry (p k : Nat) (i : SlotInfo) (j : Nat) : Prop where
  stored : DiskStored T table' chains'
  total : diskTotal T table' chains' = diskTotal T table chains
  header : table'.indexHeader = table.indexHeader
  numPSlots : table'.numPSlots = table.numPSlots
  slot : (chainSlots p (chains' p))[k]? = some i
  lt : j < T.persistentSlotCapacity
  empty : (table'.slots i).entries j = none

/-- The position of a new overflow slot. -/
theorem emptyEntry_extendChain (h : DiskStored T table chains) (hp : p < table.numPSlots)
    (hlast : (chainSlots p (chains p))[(chains p).length]? = some i) :
    EmptyEntry T table (table.extendChain i) chains
      (Function.update chains p (chains p ++ [table.numOSlots])) p ((chains p).length + 1)
      (.ovf table.numOSlots) 0 := by
  obtain ⟨hlayout, hframe, hempty⟩ := h.layout.extendChain hp hlast
  have hsame : SameEntries T table (table.extendChain i) chains
      (Function.update chains p (chains p ++ [table.numOSlots])) :=
    ⟨rfl, hframe.numPSlots, fun t ht =>
      h.layout.content_extendChain T.persistentSlotCapacity_pos hp hlast ht⟩
  obtain ⟨hstored, htotal⟩ := h.of_sameEntries hlayout hsame
  refine ⟨hstored, htotal, rfl, hframe.numPSlots, ?_, T.persistentSlotCapacity_pos,
    hempty 0 T.persistentSlotCapacity_pos⟩
  rw [chainSlots_getElem?_succ]
  simp

/-- `nextEmptyEntry` finds an empty position of the chain from position `j` of slot `k`
on, or in a new slot. -/
theorem nextEmptyEntry_spec (fuel : Nat) (h : DiskStored T table chains) (hp : p < table.numPSlots)
    (hi : (chainSlots p (chains p))[k]? = some i) (hj : j ≤ T.persistentSlotCapacity)
    (hfuel : (chainSlots p (chains p)).length * (T.persistentSlotCapacity + 1) + 1 <
      fuel + k * (T.persistentSlotCapacity + 1) + j) :
    ∃ table' i' j' chains' k', HashIndex.nextEmptyEntry T fuel table i j = some (table', i', j') ∧
      EmptyEntry T table table' chains chains' p k' i' j' := by
  have hk := lt_length_of_getElem? hi
  have hle : (k + 1) * (T.persistentSlotCapacity + 1) ≤
      (chainSlots p (chains p)).length * (T.persistentSlotCapacity + 1) := Nat.mul_le_mul_right _ hk
  rw [Nat.add_mul] at hle
  induction fuel generalizing i j k with
  | zero => omega
  | succ fuel ih =>
    simp only [HashIndex.nextEmptyEntry]
    by_cases hvalid : (table.slots i).isEntryValid j = true ∨ T.persistentSlotCapacity ≤ j
    · simp only [hvalid]
      by_cases hnext : j + 1 < T.persistentSlotCapacity
      · simp only [hnext]
        exact ih hi (by omega) (by omega) hk hle
      simp only [hnext]
      have hlinked := h.layout.linked p hp k i hi
      cases hslot : (table.slots i).nextOvfSlotId with
      | some =>
        rw [hslot] at hlinked
        have hk' := lt_length_of_getElem? hlinked.symm
        have hle' : (k + 1 + 1) * (T.persistentSlotCapacity + 1) ≤
          (chainSlots p (chains p)).length * (T.persistentSlotCapacity + 1) :=
            Nat.mul_le_mul_right _ hk'
        have hmul : (k + 1) * (T.persistentSlotCapacity + 1) = k * (T.persistentSlotCapacity + 1) +
          (T.persistentSlotCapacity + 1) := Nat.succ_mul _ _
        rw [Nat.add_mul] at hle'
        exact ih hlinked.symm (Nat.zero_le _) (by omega) hk' hle'
      | none =>
        -- the slot is the last one of the chain
        rw [hslot, Option.map_none, eq_comm, getElem?_eq_none_iff, length_chainSlots] at hlinked
        rw [length_chainSlots] at hk
        obtain rfl : k = (chains p).length := by omega
        have hfound := emptyEntry_extendChain h hp hi
        obtain ⟨fuel, rfl⟩ : ∃ m, fuel = m + 1 := ⟨fuel - 1, by
          rw [length_chainSlots, Nat.add_mul] at hfuel
          omega⟩
        refine ⟨_, _, _, _, _, ?_, hfound⟩
        have hfree : ¬ (((table.extendChain i).slots (.ovf table.numOSlots)).isEntryValid 0 = true ∨
            T.persistentSlotCapacity ≤ 0) := by
          rw [Slot.isEntryValid, hfound.empty]
          simp [not_le.mpr T.persistentSlotCapacity_pos]
        exact if_neg hfree
    · simp only [hvalid]
      rw [not_or, Slot.isEntryValid, Option.not_isSome_iff_eq_none, not_le] at hvalid
      exact ⟨table, i, j, chains, k, rfl, h, rfl, rfl, rfl, hi, hvalid.2, hvalid.1⟩

/-! ## The entries of one slot -/

/-- One more entry in the chain of `p`. -/
theorem total_cons {content content' : Nat → List (SlotEntry K)} (hp : p < n)
    (hcons : (content' p : Multiset (SlotEntry K)) = e ::ₘ (content p : Multiset _))
    (hother : ∀ q < n, q ≠ p → content' q = content q) :
    total n content' = e ::ₘ total n content := by
  have hmem := Finset.mem_range.mpr hp
  have hrest : ∑ q ∈ (Finset.range n).erase p, (content' q : Multiset (SlotEntry K)) =
      ∑ q ∈ (Finset.range n).erase p, (content q : Multiset (SlotEntry K)) :=
    Finset.sum_congr rfl fun q hq => by
      rw [hother q (Finset.mem_range.mp (Finset.mem_of_mem_erase hq)) (Finset.ne_of_mem_erase hq)]
  rw [total, total, ← Finset.add_sum_erase _ _ hmem, ← Finset.add_sum_erase _ _ hmem, hrest, hcons,
    Multiset.cons_add]

variable (T table table' chains chains') in
/-- The index has these entries in addition, and counts them. -/
structure Merged (merged : Multiset (SlotEntry K)) : Prop where
  stored : DiskStored T table' chains'
  total : diskTotal T table' chains' = diskTotal T table chains + merged
  header : table'.indexHeader =
    { table.indexHeader with numEntries := table.indexHeader.numEntries + merged.card }
  numPSlots : table'.numPSlots = table.numPSlots

theorem Merged.refl (h : DiskStored T table chains) : Merged T table table chains chains 0 :=
  ⟨h, (add_zero _).symm, rfl, rfl⟩

theorem Merged.trans {table₁ table₂ table₃ : InMemHashIndex K}
    {chains₁ chains₂ chains₃ : Nat → List Nat} (h : Merged T table₁ table₂ chains₁ chains₂ m)
    (h' : Merged T table₂ table₃ chains₂ chains₃ m') :
    Merged T table₁ table₃ chains₁ chains₃ (m + m') where
  stored := h'.stored
  total := by rw [h'.total, h.total, add_assoc]
  header := by rw [h'.header, h.header, Multiset.card_add, add_assoc]
  numPSlots := h'.numPSlots.trans h.numPSlots

/-- The entry belongs to the chain of the slot of its view. -/
def ViewPlaced (T : KeyType K) (header : HashIndexHeader) (view : HashIndexEntryView K) : Prop :=
  Placed T header view.diskSlotId view.entry

theorem Merged.viewPlaced (h : Merged T table table' chains chains' m)
    (hview : ViewPlaced T table.indexHeader view) :
    ViewPlaced T table'.indexHeader view := by
  rw [h.header]
  exact ⟨hview.slot, hview.fingerprint⟩

/-- Writing an entry to the empty position. -/
theorem EmptyEntry.merge (h : EmptyEntry T table table' chains chains' p k i j)
    (hp : p < table.numPSlots) (he : Placed T table.indexHeader p e) :
    Merged T table { table'.setEntry i j (some e) with
      indexHeader := { (table'.setEntry i j (some e)).indexHeader with
        numEntries := (table'.setEntry i j (some e)).indexHeader.numEntries + 1 } }
      chains chains' {e} := by
  have hp' : p < table'.numPSlots := by rw [h.numPSlots]; exact hp
  have hmem := mem_of_getElem? h.slot
  have hlayout := h.stored.layout
  have hcontent : ∀ q < table'.numPSlots, q ≠ p →
      contentOf T.persistentSlotCapacity (table'.setEntry i j (some e)) chains' q =
        contentOf T.persistentSlotCapacity table' chains' q := fun q hq hne =>
    hlayout.content_setEntry_of_ne hp' hq hne hmem j (some e)
  have hcons : (contentOf T.persistentSlotCapacity (table'.setEntry i j (some e)) chains' p :
      Multiset _) =
      e ::ₘ (contentOf T.persistentSlotCapacity table' chains' p : Multiset (SlotEntry K)) :=
    hlayout.content_setEntry_some hp' h.slot h.lt h.empty
  refine ⟨⟨(hlayout.setEntry hp' hmem j (some e)).congr_header rfl,
    ⟨h.stored.covers.size, h.stored.covers.split_lt⟩, fun q hq a ha => ?_⟩, ?_, ?_, h.numPSlots⟩
  · have hplaced : Placed T table'.indexHeader q a := by
      rcases eq_or_ne q p with rfl | hqp
      · have hmem' : a ∈ e ::ₘ (contentOf T.persistentSlotCapacity table' chains' q : Multiset _) :=
          hcons ▸ Multiset.mem_coe.mpr ha
        rcases Multiset.mem_cons.mp hmem' with rfl | hold
        · rw [h.header]
          exact he
        · exact h.stored.placed q hq a (Multiset.mem_coe.mp hold)
      · exact h.stored.placed q hq a (hcontent q hq hqp ▸ ha)
    exact ⟨hplaced.slot, hplaced.fingerprint⟩
  · calc InMemHashIndex.total table'.numPSlots
            (contentOf T.persistentSlotCapacity (table'.setEntry i j (some e)) chains')
        = e ::ₘ diskTotal T table' chains' := total_cons hp' hcons hcontent
      _ = diskTotal T table chains + {e} := by
          rw [h.total, ← Multiset.singleton_add, add_comm]
  · show { table'.indexHeader with numEntries := table'.indexHeader.numEntries + 1 } = _
    rw [h.header, Multiset.card_singleton]

/-- The entries of views. -/
def viewEntries (views : List (HashIndexEntryView K)) : Multiset (SlotEntry K) :=
  (views.map (·.entry) : List (SlotEntry K))

theorem viewEntries_cons (view : HashIndexEntryView K) (views : List (HashIndexEntryView K)) :
    viewEntries (view :: views) = {view.entry} + viewEntries views := by
  rfl

/-- `mergeEntries` merges the first entries that have the slot. -/
theorem mergeEntries_spec (views : List (HashIndexEntryView K)) (h : DiskStored T table chains)
    (hp : p < table.numPSlots) (hi : (chainSlots p (chains p))[k]? = some i)
    (hj : j ≤ T.persistentSlotCapacity)
    (hviews : ∀ view ∈ views, ViewPlaced T table.indexHeader view) :
    ∃ table' chains', HashIndex.mergeEntries T p views table i j =
        some (table', (views.takeWhile (·.diskSlotId = p)).length) ∧
      Merged T table table' chains chains' (viewEntries (views.takeWhile (·.diskSlotId = p))) := by
  induction views generalizing table chains i j k with
  | nil => exact ⟨table, chains, rfl, .refl h⟩
  | cons view rest ih =>
    simp only [HashIndex.mergeEntries]
    by_cases hslot : view.diskSlotId = p
    · have htake : (view :: rest).takeWhile (·.diskSlotId = p) =
          view :: rest.takeWhile (·.diskSlotId = p) := by simp [hslot]
      have hfuel : (chainSlots p (chains p)).length * (T.persistentSlotCapacity + 1) + 1 <
          HashIndex.mergeFuel T table + k * (T.persistentSlotCapacity + 1) + j := by
        have hlen := Nat.mul_le_mul_right (T.persistentSlotCapacity + 1)
          (h.layout.chain_length_le hp)
        rw [chainFuel] at hlen
        rw [HashIndex.mergeFuel, Nat.succ_mul (table.numOSlots + 1)]
        omega
      obtain ⟨_, _, _, _, _, heq, hempty⟩ := nextEmptyEntry_spec _ h hp hi hj hfuel
      have hplaced : Placed T table.indexHeader p view.entry := hslot ▸ hviews view mem_cons_self
      have hmerged := hempty.merge hp hplaced
      obtain ⟨table', chains', heq', hmerged'⟩ := ih hmerged.stored (hmerged.numPSlots ▸ hp)
        hempty.slot hempty.lt fun v hv => hmerged.viewPlaced (hviews v (mem_cons_of_mem _ hv))
      refine ⟨table', chains', ?_, ?_⟩
      · rw [if_neg (not_not.mpr hslot), heq]
        simp [heq', htake]
      · rw [htake]
        exact hmerged.trans hmerged'
    · have htake : (view :: rest).takeWhile (·.diskSlotId = p) = [] := by simp [hslot]
      rw [if_pos hslot, htake]
      exact ⟨table, chains, rfl, .refl h⟩

/-! ## The partitions of one page -/

theorem viewEntries_append (views views' : List (HashIndexEntryView K)) :
    viewEntries (views ++ views') = viewEntries views + viewEntries views' := by
  rw [viewEntries, map_append]
  rfl

theorem viewEntries_perm {views views' : List (HashIndexEntryView K)} (h : views.Perm views') :
    viewEntries views = viewEntries views' :=
  Multiset.coe_eq_coe.mpr (h.map _)

/-- A list without the entries at its end that are merged. -/
theorem take_sub_takeWhile (f : α → Bool) (l : List α) :
    l.take (l.length - (l.reverse.takeWhile f).length) = (l.reverse.dropWhile f).reverse := by
  have hsplit := congrArg reverse (takeWhile_append_dropWhile (p := f) (l := l.reverse))
  rw [reverse_append, reverse_reverse] at hsplit
  conv_lhs => rw [← hsplit]
  simp

/-- `mergeSlot` takes the entries of the last one's slot off the end. -/
theorem mergeSlot_spec {entries : List (HashIndexEntryView K)} (h : DiskStored T table chains)
    (hlast : entries.getLast? = some view)
    (hviews : ∀ v ∈ entries, ViewPlaced T table.indexHeader v) :
    ∃ table' chains' n merged, HashIndex.mergeSlot T table entries view.diskSlotId =
        some (table', n) ∧ Merged T table table' chains chains' merged ∧ merged ≠ 0 ∧
      viewEntries (entries.take (entries.length - n)) + merged = viewEntries entries := by
  obtain ⟨before, rfl⟩ : ∃ before, entries = before ++ [view] := getLast?_eq_some_iff.mp hlast
  have hp : view.diskSlotId < table.numPSlots := by
    rw [← (hviews view (by simp)).slot]
    exact h.covers.slot_lt _
  obtain ⟨table', chains', heq, hmerged⟩ := mergeEntries_spec (before ++ [view]).reverse h hp
    (k := 0) rfl (Nat.zero_le _)
    fun v hv => hviews v (mem_reverse.mp hv)
  refine ⟨table', chains', _, _, heq, hmerged, ?_, ?_⟩
  · rw [reverse_concat, takeWhile_cons_of_pos (by simp), viewEntries_cons]
    simp
  · rw [take_sub_takeWhile, viewEntries_perm (reverse_perm _), add_comm, ← viewEntries_append,
      takeWhile_append_dropWhile]
    exact viewEntries_perm (reverse_perm _)

/-- The entries that are not merged yet. -/
def leftEntries (partitions : List (HashIndex.Partition K)) : Multiset (SlotEntry K) :=
  (partitions.map fun part => viewEntries part.entries).sum

theorem leftEntries_cons (part : HashIndex.Partition K)
    (partitions : List (HashIndex.Partition K)) :
    leftEntries (part :: partitions) = viewEntries part.entries + leftEntries partitions := rfl

structure PartitionOk (T : KeyType K) (header : HashIndexHeader) (part : HashIndex.Partition K) :
    Prop where
  placed : ∀ view ∈ part.entries, ViewPlaced T header view
  done : part.done = true → part.entries = []

theorem Merged.partitionOk (h : Merged T table table' chains chains' m)
    (hpart : PartitionOk T table.indexHeader part) :
    PartitionOk T table'.indexHeader part :=
  ⟨fun view hview => h.viewPlaced (hpart.placed view hview), hpart.done⟩

variable (T table table' chains chains') in
/-- The outcome of a round: what is merged is taken off the partitions. -/
structure RoundDone (partitions partitions' : List (HashIndex.Partition K))
    (m : Multiset (SlotEntry K)) : Prop where
  merged : Merged T table table' chains chains' m
  left : leftEntries partitions' + m = leftEntries partitions
  ok : ∀ part ∈ partitions', PartitionOk T table'.indexHeader part

/-- A partition with no entry to merge is left as it is, or becomes done. -/
theorem RoundDone.cons {merged : Multiset (SlotEntry K)}
    (h : RoundDone T table table' chains chains' partitions partitions' merged)
    (hentries : part'.entries = part.entries) (hpart : PartitionOk T table.indexHeader part') :
    RoundDone T table table' chains chains' (part :: partitions) (part' :: partitions') merged where
  merged := h.merged
  left := by rw [leftEntries_cons, leftEntries_cons, hentries, add_assoc, h.left]
  ok := forall_mem_cons.mpr ⟨h.merged.partitionOk hpart, h.ok⟩

/-- A partition whose last entries were merged before the rest of the round. -/
theorem RoundDone.cons_merged {table₁ : InMemHashIndex K} {chains₁ : Nat → List Nat}
    (hmerged : Merged T table table₁ chains chains₁ m)
    (h : RoundDone T table₁ table' chains₁ chains' partitions partitions' m')
    (hentries : viewEntries part'.entries + m = viewEntries part.entries)
    (hpart : PartitionOk T table.indexHeader part') :
    RoundDone T table table' chains chains' (part :: partitions) (part' :: partitions')
      (m + m') where
  merged := hmerged.trans h.merged
  left := by
    rw [leftEntries_cons, leftEntries_cons, ← h.left, ← hentries]
    ac_rfl
  ok := forall_mem_cons.mpr ⟨h.merged.partitionOk (hmerged.partitionOk hpart), h.ok⟩

/-- A round merges something, unless all partitions are done after it. -/
theorem mergeRound_spec (partitions : List (HashIndex.Partition K)) (page : Option Nat)
    (h : DiskStored T table chains)
    (hparts : ∀ part ∈ partitions, PartitionOk T table.indexHeader part) :
    ∃ table' chains' partitions' merged,
      HashIndex.mergeRound T page partitions table = some (table', partitions') ∧
      RoundDone T table table' chains chains' partitions partitions' merged ∧
      (page = none → merged ≠ 0 ∨ ∀ part ∈ partitions', part.done = true) := by
  induction partitions generalizing table chains page with
  | nil => exact ⟨table, chains, [], 0, rfl, ⟨.refl h, rfl, by simp⟩, fun _ => .inr (by simp)⟩
  | cons part rest ih =>
    obtain ⟨hpart, hrest⟩ := forall_mem_cons.mp hparts
    obtain ⟨done, entries⟩ := part
    -- a partition without entries is done after the round
    have hskip : entries = [] → HashIndex.mergeRound T page (⟨done, entries⟩ :: rest) table =
        (HashIndex.mergeRound T page rest table).map (fun round =>
          (round.1, ⟨true, entries⟩ :: round.2)) →
        ∃ table' chains' partitions' merged,
          HashIndex.mergeRound T page (⟨done, entries⟩ :: rest) table = some (table', partitions') ∧
          RoundDone T table table' chains chains' (⟨done, entries⟩ :: rest) partitions' merged ∧
          (page = none → merged ≠ 0 ∨ ∀ part ∈ partitions', part.done = true) := by
      intro hnil hround
      obtain ⟨table', chains', rest', merged, heq, hdone, hprogress⟩ := ih page h hrest
      refine ⟨table', chains', ⟨true, entries⟩ :: rest', merged, ?_,
        hdone.cons rfl ⟨hpart.placed, fun _ => hnil⟩, fun hnone => ?_⟩
      · rw [hround, heq, Option.map_some]
      · exact (hprogress hnone).imp_right fun hall => forall_mem_cons.mpr ⟨rfl, hall⟩
    cases done with
    | true => exact hskip (hpart.done rfl) rfl
    | false =>
      cases hlast : entries.getLast? with
      | none =>
        refine hskip (getLast?_eq_none_iff.mp hlast) ?_
        simp only [HashIndex.mergeRound, hlast]
      | some view =>
        simp only [HashIndex.mergeRound, hlast]
        split_ifs with hpage
        · obtain ⟨_, _, n, m, heq₁, hmerged, hne, hleft⟩ :=
            mergeSlot_spec h hlast hpart.placed
          obtain ⟨table', chains', rest', merged, heq, hdone, -⟩ :=
            ih (some (page.getD (view.diskSlotId / T.slotsPerPage))) hmerged.stored
              fun part hmem => hmerged.partitionOk (hrest part hmem)
          refine ⟨table', chains', ⟨(entries.take (entries.length - n)).isEmpty,
            entries.take (entries.length - n)⟩ :: rest', m + merged, ?_,
            hdone.cons_merged hmerged hleft ⟨fun v hv => ?_, fun hempty => ?_⟩, fun _ => .inl ?_⟩
          · rw [heq₁]
            simp [heq]
          · exact hpart.placed v (mem_of_mem_take hv)
          · exact isEmpty_iff.mp hempty
          · exact fun hzero => hne (Multiset.le_zero.mp (hzero ▸ Multiset.le_add_right m merged))
        · obtain ⟨table', chains', _, merged, heq, hdone, -⟩ :=
            ih (some (page.getD (view.diskSlotId / T.slotsPerPage))) h hrest
          refine ⟨table', chains', _, merged, by rw [heq, Option.map_some],
            hdone.cons rfl hpart, fun hnone => ?_⟩
          rw [hnone] at hpage
          exact absurd rfl hpage

theorem leftEntries_of_done {header : HashIndexHeader}
    (hparts : ∀ part ∈ partitions, PartitionOk T header part)
    (hdone : ∀ part ∈ partitions, part.done = true) : leftEntries partitions = 0 := by
  refine sum_eq_zero fun m hm => ?_
  obtain ⟨part, hpart, rfl⟩ := mem_map.mp hm
  rw [(hparts part hpart).done (hdone part hpart)]
  rfl

/-- The loop merges all entries of the partitions. -/
theorem mergeRounds_spec (fuel : Nat) (partitions : List (HashIndex.Partition K))
    (h : DiskStored T table chains)
    (hparts : ∀ part ∈ partitions, PartitionOk T table.indexHeader part)
    (hfuel : (∀ part ∈ partitions, part.done = true) ∧ 1 ≤ fuel ∨
      (leftEntries partitions).card + 2 ≤ fuel) :
    ∃ table' chains', HashIndex.mergeRounds T fuel partitions table = some table' ∧
      Merged T table table' chains chains' (leftEntries partitions) := by
  induction fuel generalizing table chains partitions with
  | zero => omega
  | succ _ ih =>
    simp only [HashIndex.mergeRounds, all_eq_true]
    by_cases hall : ∀ part ∈ partitions, part.done = true
    · rw [if_pos hall, leftEntries_of_done hparts hall]
      exact ⟨table, chains, rfl, .refl h⟩
    rw [if_neg hall]
    have hcard := hfuel.resolve_left fun hand => hall hand.1
    obtain ⟨_, _, partitions', merged, heq, hround, hprogress⟩ :=
      mergeRound_spec partitions none h hparts
    have hleft := congrArg Multiset.card hround.left
    rw [Multiset.card_add] at hleft
    obtain ⟨table', chains', heq', hmerged'⟩ := ih partitions' hround.merged.stored hround.ok (by
      rcases hprogress rfl with hne | hdone
      · have := Multiset.card_pos.mpr hne
        omega
      · exact .inl ⟨hdone, by omega⟩)
    refine ⟨table', chains', by rw [heq, Option.bind_some, heq'], ?_⟩
    rw [← hround.left, add_comm]
    exact hround.merged.trans hmerged'

/-! ## The local entries -/

section Local

variable {insertions : InMemHashIndex K} {localChains : Nat → List Nat} {free : List Nat}
  {content : Nat → List (SlotEntry K)} {L : List (SlotEntry K)} {chain : List SlotInfo}

/-- One slot has the entries of its part of the chain. -/
theorem entries_of_slot (h : Holds T.slotCapacity insertions.slots chain L)
    (hi : chain[k]? = some i) :
    (range ((insertions.slots i).numEntries T.slotCapacity)).filterMap
      (insertions.slots i).entries = (L.drop (k * T.slotCapacity)).take T.slotCapacity := by
  have hnum := h.numEntries hi
  rw [filterMap_range_congr (f := ((L.drop (k * T.slotCapacity))[·]?)) fun j hj => ?_,
    Foundation.filterMap_range_getElem?, take_eq_take_iff, length_drop]
  · omega
  · rw [h.entries (by omega) hi, getElem?_drop]

theorem localEntries_spec (fuel : Nat) (hlinked : Linked insertions.slots chain)
    (hholds : Holds T.slotCapacity insertions.slots chain L) (hi : chain[k]? = some i)
    (hfuel : chain.length ≤ k + fuel) :
    HashIndex.localEntries T insertions fuel i = some (L.drop (k * T.slotCapacity)) := by
  induction fuel generalizing k i with
  | zero =>
    have := lt_length_of_getElem? hi
    omega
  | succ _ ih =>
    simp only [HashIndex.localEntries, nextChainedSlot_eq hlinked hi, entries_of_slot hholds hi]
    have hmul : (k + 1) * T.slotCapacity = k * T.slotCapacity + T.slotCapacity := Nat.succ_mul _ _
    cases hnext : chain[k + 1]? with
    | none =>
      have hlen := getElem?_eq_none_iff.mp hnext
      have hle := (hholds.length_le T.slotCapacity_pos).trans (Nat.mul_le_mul_right _ hlen)
      simp only
      rw [take_of_length_le (by rw [length_drop]; omega)]
    | some =>
      simp only [ih hnext (by omega), Option.map_some]
      rw [hmul, ← drop_drop, take_append_drop]

/-- What a local slot holds; there is nothing behind the last slot. -/
def localContent (insertions : InMemHashIndex K) (content : Nat → List (SlotEntry K))
    (slotId : Nat) : List (SlotEntry K) :=
  if slotId < insertions.numPSlots then content slotId else []

/-- The view of a local entry. -/
def viewOf (T : KeyType K) (header : HashIndexHeader) (e : SlotEntry K) : HashIndexEntryView K :=
  ⟨header.getPrimarySlotIdForHash (T.hash e.key), e⟩

section

variable (S : EntrySort K) (header : HashIndexHeader)

include S header

variable (h : Stored T insertions localChains free content)

include h

theorem sortEntries_spec {slotId : Nat} (hslot : slotId < insertions.numPSlots) :
    HashIndex.sortEntries T S header insertions slotId =
      some (S.sort ((content slotId).map (viewOf T header))) := by
  have hentries := localEntries_spec insertions.chainFuel (h.layout.linked slotId hslot)
    (h.holds slotId hslot) (k := 0) rfl
    ((h.layout.chain_length_le hslot).trans (Nat.le_add_left _ _))
  rw [Nat.zero_mul] at hentries
  rw [HashIndex.sortEntries, hentries]
  rfl

/-- The sorted entries of a local slot. -/
def sortedContent (T : KeyType K) (S : EntrySort K) (header : HashIndexHeader)
    (insertions : InMemHashIndex K) (content : Nat → List (SlotEntry K)) (slotId : Nat) :
    List (HashIndexEntryView K) :=
  S.sort ((localContent insertions content slotId).map (viewOf T header))

omit h in
theorem viewEntries_sortedContent (slotId : Nat) :
    viewEntries (sortedContent T S header insertions content slotId) =
      (localContent insertions content slotId : Multiset (SlotEntry K)) := by
  rw [sortedContent, viewEntries_perm (S.perm _), viewEntries, map_map]
  exact congrArg _ (map_id _)

theorem mapM_sortEntries (slotIds : List Nat) :
    (slotIds.mapM fun slotId =>
      if slotId < insertions.numPSlots then HashIndex.sortEntries T S header insertions slotId
      else some []) = some (slotIds.map (sortedContent T S header insertions content)) := by
  have hslot : ∀ slotId, (if slotId < insertions.numPSlots then
      HashIndex.sortEntries T S header insertions slotId else some []) =
      some (sortedContent T S header insertions content slotId) := by
    intro slotId
    rw [sortedContent, localContent]
    split_ifs with hlt
    · exact sortEntries_spec S header h hlt
    · rw [map_nil, perm_nil.mp (S.perm [])]
  simp only [hslot]
  exact mapM_pure

end

theorem leftEntries_map (lists : List (List (HashIndexEntryView K))) :
    leftEntries (lists.map fun entries => { entries := entries }) = viewEntries lists.flatten := by
  induction lists with
  | nil => rfl
  | cons _ _ ih =>
    rw [map_cons, leftEntries_cons, ih, flatten_cons, viewEntries_append]

theorem viewEntries_flatten (S : EntrySort K) (header : HashIndexHeader) (slotIds : List Nat) :
    viewEntries (slotIds.map (sortedContent T S header insertions content)).flatten =
      (slotIds.map fun slotId =>
        (localContent insertions content slotId : Multiset (SlotEntry K))).sum := by
  induction slotIds with
  | nil => rfl
  | cons _ _ ih =>
    rw [map_cons, flatten_cons, viewEntries_append, ih, viewEntries_sortedContent,
      map_cons, sum_cons]

theorem card_viewEntries (views : List (HashIndexEntryView K)) :
    (viewEntries views).card = views.length := by
  rw [viewEntries, Multiset.coe_card, length_map]

/-- All entries of the local slots of a page are merged. -/
theorem mergePage_spec (S : EntrySort K) (h : DiskStored T table chains)
    (hlocal : Stored T insertions localChains free content) (base : Nat) :
    ∃ table' chains', HashIndex.mergePage T S insertions table base = some table' ∧
      Merged T table table' chains chains' (∑ x ∈ Finset.range T.slotsPerPage,
        (localContent insertions content (base + x) : Multiset (SlotEntry K))) := by
  let slotIds := (range T.slotsPerPage).map (base + ·)
  have hentries : viewEntries (slotIds.map
      (sortedContent T S table.indexHeader insertions content)).flatten =
      ∑ x ∈ Finset.range T.slotsPerPage,
        (localContent insertions content (base + x) : Multiset (SlotEntry K)) := by
    rw [viewEntries_flatten, map_map]
    rfl
  have hplaced : ∀ part ∈ (slotIds.map (sortedContent T S table.indexHeader insertions content)).map
        (fun entries => ({ entries := entries } : HashIndex.Partition K)),
      PartitionOk T table.indexHeader part := by
    intro part hpart
    rw [map_map, mem_map] at hpart
    obtain ⟨slotId, -, rfl⟩ := hpart
    refine ⟨fun view hview => ?_, fun hdone => by cases hdone⟩
    obtain ⟨e, he, rfl⟩ := mem_map.mp ((S.perm _).mem_iff.mp hview)
    rw [localContent] at he
    split_ifs at he with hlt
    · exact ⟨rfl, (hlocal.placed slotId hlt e he).fingerprint⟩
    · cases he
  obtain ⟨table', chains', heq, hmerged⟩ := mergeRounds_spec
    ((slotIds.map (sortedContent T S table.indexHeader insertions content)).flatten.length + 2)
    _ h hplaced (.inr (by rw [leftEntries_map, card_viewEntries]))
  rw [leftEntries_map, hentries] at hmerged
  refine ⟨table', chains', ?_, hmerged⟩
  rw [HashIndex.mergePage, mapM_sortEntries S table.indexHeader hlocal]
  exact heq

/-- The pages one after the other. -/
theorem mergePages_spec (S : EntrySort K) (numPages : Nat) (h : DiskStored T table chains)
    (hlocal : Stored T insertions localChains free content) :
    ∃ table' chains', (range numPages).foldlM
        (fun table page => HashIndex.mergePage T S insertions table (page * T.slotsPerPage)) table =
          some table' ∧
      Merged T table table' chains chains'
        (total (numPages * T.slotsPerPage) (localContent insertions content)) := by
  induction numPages with
  | zero =>
    refine ⟨table, chains, rfl, ?_⟩
    rw [Nat.zero_mul]
    exact .refl h
  | succ n ih =>
    obtain ⟨_, _, heq, hmerged⟩ := ih
    obtain ⟨table', chains', heq', hmerged'⟩ :=
      mergePage_spec S hmerged.stored hlocal (n * T.slotsPerPage)
    refine ⟨table', chains', ?_, ?_⟩
    · rw [range_succ, foldlM_append, heq]
      simpa using heq'
    · rw [total, Nat.succ_mul, Finset.sum_range_add]
      exact hmerged.trans hmerged'

theorem total_localContent (hn : insertions.numPSlots ≤ n) :
    total n (localContent insertions content) = total insertions.numPSlots content := by
  obtain ⟨m, rfl⟩ := Nat.exists_eq_add_of_le hn
  rw [total, Finset.sum_range_add]
  have hrest : ∑ x ∈ Finset.range m,
      (localContent insertions content (insertions.numPSlots + x) : Multiset (SlotEntry K)) = 0 :=
    Finset.sum_eq_zero fun x _ => by rw [localContent, if_neg (by omega)]; rfl
  rw [hrest, add_zero]
  exact total_congr fun p hp => if_pos hp

end Local

end Lbug.Index
