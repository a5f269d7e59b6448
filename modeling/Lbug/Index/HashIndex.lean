/-
  Index/HashIndex.lean --- the checkpoint of a persistent hash index.

  Source: `storage/index/hash_index.cpp`, `include/storage/index/hash_index.h` and
  `include/storage/local_storage/local_hash_index.h`.

  A persistent index has the slots and the header of an in-memory one, in disk arrays.
  `table` is what the checkpoint sees of them; of the version that other transactions
  read only the number of overflow slots is used.  A checkpoint reserves slots, splits
  others for that, and merges the entries of the local storage into the chains.  Entries
  are cleared in place, so chains have gaps.

  `splitSlots` buffers new overflow slots and numbers them from the number of overflow
  slots that other transactions read.  While it goes on, a slot is found by that number.
-/
import Mathlib.Data.List.Sort
import Mathlib.Data.Finset.Card
import Lbug.Index.InMemHashIndex

namespace Lbug.Index

open InMemHashIndex

structure HashIndex (K : Type) where
  table : InMemHashIndex K := {}
  numOSlotsRead : Nat := 0

structure HashIndexLocalStorage (K : Type) where
  localDeletions : Finset K := ∅
  localInsertions : InMemHashIndex K

/-- `HashIndexEntryView`; the entry has its fingerprint. -/
structure HashIndexEntryView (K : Type) where
  diskSlotId : Nat
  entry : SlotEntry K

/-- `std::sort` by decreasing slot.  The order of entries of one slot is not
specified. -/
structure EntrySort (K : Type) where
  sort : List (HashIndexEntryView K) → List (HashIndexEntryView K)
  perm : ∀ entries, (sort entries).Perm entries
  sorted : ∀ entries, (sort entries).Pairwise fun a b => b.diskSlotId ≤ a.diskSlotId

namespace HashIndexLocalStorage

variable {K : Type}

def hasUpdates (s : HashIndexLocalStorage K) : Bool :=
  !(s.localInsertions.indexHeader.numEntries == 0 && s.localDeletions.card == 0)

def getNetInserts (s : HashIndexLocalStorage K) : Int :=
  s.localInsertions.indexHeader.numEntries - s.localDeletions.card

end HashIndexLocalStorage

/-! ## Splitting -/

/-- The index while `splitSlots` runs. -/
structure SplitBuffer (K : Type) where
  table : InMemHashIndex K
  numOSlotsRead : Nat
  newOverflowSlots : List (Slot K) := []

namespace SplitBuffer

variable {K : Type} (b : SplitBuffer K)

/-- `getNextOvfSlot`, and the primary slots. -/
def getSlot : SlotInfo → Option (Slot K)
  | .primary slotId => some (b.table.slots (.primary slotId))
  | .ovf slotId =>
    if b.numOSlotsRead ≤ slotId then b.newOverflowSlots[slotId - b.numOSlotsRead]?
    else some (b.table.slots (.ovf slotId))

def isBuffered : SlotInfo → Bool
  | .primary _ => false
  | .ovf slotId => decide (b.numOSlotsRead ≤ slotId)

/-- Write to a slot through a pointer to it. -/
def updateSlot (slotInfo : SlotInfo) (f : Slot K → Slot K) : SplitBuffer K :=
  match slotInfo with
  | .primary slotId => { b with
      table := b.table.setSlot (.primary slotId) (f (b.table.slots (.primary slotId))) }
  | .ovf slotId =>
    if b.numOSlotsRead ≤ slotId then
      { b with newOverflowSlots := b.newOverflowSlots.modify (slotId - b.numOSlotsRead) f }
    else { b with table := b.table.setSlot (.ovf slotId) (f (b.table.slots (.ovf slotId))) }

/-- The new overflow slots are appended to `oSlots`. -/
def flush : InMemHashIndex K :=
  { b.table with
    slots := fun
      | .primary i => b.table.slots (.primary i)
      | .ovf i =>
        if b.table.numOSlots ≤ i then (b.newOverflowSlots[i - b.table.numOSlots]?).getD {}
        else b.table.slots (.ovf i)
    numOSlots := b.table.numOSlots + b.newOverflowSlots.length }

end SplitBuffer

/-- The local variables of `splitSlots` for the slot that is split. -/
structure DiskSplit (K : Type) where
  buffer : SplitBuffer K
  newSlot : SlotInfo
  newEntryPos : Nat

namespace HashIndex

variable {K : Type} (T : KeyType K)

/-- A full new slot gets an overflow slot.  If the slot that is read is in the buffer,
the buffer may move in memory, and the pointer to the slot becomes invalid. -/
def extendNewSlot (originalSlot : SlotInfo) (s : DiskSplit K) : Option (DiskSplit K) :=
  if s.newEntryPos < T.persistentSlotCapacity then some s
  else if s.buffer.isBuffered originalSlot then none
  else
    let nextOvfSlotId := s.buffer.newOverflowSlots.length + s.buffer.numOSlotsRead
    let buffer := s.buffer.updateSlot s.newSlot fun slot =>
      { slot with nextOvfSlotId := some nextOvfSlotId }
    some ⟨{ buffer with newOverflowSlots := buffer.newOverflowSlots ++ [{}] },
      .ovf nextOvfSlotId, 0⟩

/-- The body of the loop over the positions of the slot that is split. -/
def splitEntry (originalSlot : SlotInfo) (s : DiskSplit K) (originalEntryPos : Nat) :
    Option (DiskSplit K) :=
  match s.buffer.getSlot originalSlot with
  | none => none
  | some slot =>
    match slot.entries originalEntryPos with
    | none => some s
    | some entry =>
      (extendNewSlot T originalSlot s).map fun s =>
        let header := s.buffer.table.indexHeader
        if T.hash entry.key % 2 ^ (header.currentLevel + 1) ≠ header.nextSplitSlotId then
          let buffer := s.buffer.updateSlot s.newSlot (·.setEntry s.newEntryPos (some entry))
          { s with
            buffer := buffer.updateSlot originalSlot (·.setEntry originalEntryPos none)
            newEntryPos := s.newEntryPos + 1 }
        else s

/-- The loop over the chain of the slot that is split. -/
def splitChain : Nat → SlotInfo → DiskSplit K → Option (DiskSplit K)
  | 0, _, _ => none
  | fuel + 1, originalSlot, s =>
    ((List.range T.persistentSlotCapacity).foldlM (splitEntry T originalSlot) s).bind fun s =>
      match s.buffer.getSlot originalSlot with
      | none => none
      | some slot =>
        match slot.nextOvfSlotId with
        | none => some s
        | some next => splitChain fuel (.ovf next) s

/-- One round of the loop of `splitSlots`. -/
def splitSlot (b : SplitBuffer K) : Option (SplitBuffer K) :=
  let newSlot := SlotInfo.primary b.table.numPSlots
  let table := b.table.allocatePSlots 1
  let originalSlot := SlotInfo.primary table.indexHeader.nextSplitSlotId
  let fuel := table.numOSlots + b.newOverflowSlots.length + 1
  (splitChain T fuel originalSlot ⟨{ b with table := table }, newSlot, 0⟩).map fun s =>
    { s.buffer with table := { s.buffer.table with
        indexHeader := s.buffer.table.indexHeader.incrementNextSplitSlotId } }

def splitRounds : Nat → SplitBuffer K → Option (SplitBuffer K)
  | 0, b => some b
  | n + 1, b => (splitSlot T b).bind (splitRounds n)

def splitSlots (idx : HashIndex K) (numSlotsToSplit : Nat) : Option (HashIndex K) :=
  (splitRounds T numSlotsToSplit ⟨idx.table, idx.numOSlotsRead, []⟩).map fun b =>
    { idx with table := b.flush }

/-- The number of primary slots that `reserve` requires. -/
def requiredSlots (header : HashIndexHeader) (newEntries : Nat) : Nat :=
  max (max (numRequiredSlots T.persistentSlotCapacity (header.numEntries + newEntries))
    (2 ^ header.currentLevel)) T.slotsPerPage

/-- `reserve`.  For an empty index it resizes `pSlots`, which does not remove slots, and
computes the level as `allocateSlots` of the in-memory index does.  The difference of the
numbers of slots has 64 bits. -/
def reserve (idx : HashIndex K) (newEntries : Nat) : Option (HashIndex K) :=
  let required := requiredSlots T idx.table.indexHeader newEntries
  if idx.table.indexHeader.numEntries = 0 then
    some { idx with table := idx.table.allocateSlots required }
  else if idx.table.numPSlots ≤ required then
    splitSlots T idx (required - idx.table.numPSlots)
  else splitSlots T idx (required + 2 ^ 64 - idx.table.numPSlots)

/-! ## Merging -/

/-- The loop of `sortEntries` over the slots of a local chain. -/
def localEntries (insertLocalStorage : InMemHashIndex K) :
    Nat → SlotInfo → Option (List (SlotEntry K))
  | 0, _ => none
  | fuel + 1, slotInfo =>
    let slot := insertLocalStorage.slots slotInfo
    let entries := (List.range (slot.numEntries T.slotCapacity)).filterMap slot.entries
    match insertLocalStorage.nextChainedSlot slotInfo with
    | none => some entries
    | some next => (localEntries insertLocalStorage fuel next).map (entries ++ ·)

section

variable (S : EntrySort K) (idx : HashIndex K) (localStorage : HashIndexLocalStorage K)

def sortEntries (header : HashIndexHeader) (insertLocalStorage : InMemHashIndex K) (slotId : Nat) :
    Option (List (HashIndexEntryView K)) :=
  (localEntries T insertLocalStorage insertLocalStorage.chainFuel (.primary slotId)).map
    fun entries => S.sort (entries.map fun e => ⟨header.getPrimarySlotIdForHash (T.hash e.key), e⟩)

/-- The inner loop of `mergeSlot`: the next empty position of the chain, in a new
overflow slot if there is none. -/
def nextEmptyEntry : Nat → InMemHashIndex K → SlotInfo → Nat →
    Option (InMemHashIndex K × SlotInfo × Nat)
  | 0, _, _, _ => none
  | fuel + 1, table, diskSlot, diskEntryPos =>
    if (table.slots diskSlot).isEntryValid diskEntryPos ∨
        T.persistentSlotCapacity ≤ diskEntryPos then
      if diskEntryPos + 1 < T.persistentSlotCapacity then
        nextEmptyEntry fuel table diskSlot (diskEntryPos + 1)
      else
        match (table.slots diskSlot).nextOvfSlotId with
        | some next => nextEmptyEntry fuel table (.ovf next) 0
        | none =>
          let newSlotId := table.numOSlots
          nextEmptyEntry fuel ((table.resizeOSlots 1).setNext diskSlot (some newSlotId))
            (.ovf newSlotId) 0
    else some (table, diskSlot, diskEntryPos)

/-- The number of rounds that `nextEmptyEntry` needs. -/
def mergeFuel (table : InMemHashIndex K) : Nat :=
  (table.numOSlots + 2) * (T.persistentSlotCapacity + 1) + 1

/-- The loop of `mergeSlot` over the entries from the back: how many had the slot. -/
def mergeEntries (diskSlotId : Nat) : List (HashIndexEntryView K) → InMemHashIndex K → SlotInfo →
    Nat → Option (InMemHashIndex K × Nat)
  | [], table, _, _ => some (table, 0)
  | view :: rest, table, diskSlot, diskEntryPos =>
    if view.diskSlotId ≠ diskSlotId then some (table, 0)
    else
      match nextEmptyEntry T (mergeFuel T table) table diskSlot diskEntryPos with
      | none => none
      | some (table, diskSlot, diskEntryPos) =>
        let table := table.setEntry diskSlot diskEntryPos (some view.entry)
        let header := { table.indexHeader with numEntries := table.indexHeader.numEntries + 1 }
        (mergeEntries diskSlotId rest { table with indexHeader := header } diskSlot
          (diskEntryPos + 1)).map fun (table, merged) => (table, merged + 1)

def mergeSlot (table : InMemHashIndex K) (slotToMerge : List (HashIndexEntryView K))
    (diskSlotId : Nat) : Option (InMemHashIndex K × Nat) :=
  mergeEntries T diskSlotId slotToMerge.reverse table (.primary diskSlotId) 0

/-- The entries of one local slot that are left, and its bit in `done`. -/
structure Partition (K : Type) where
  done : Bool := false
  entries : List (HashIndexEntryView K)

/-- The inner loop of `mergeBulkInserts`: all partitions whose next entry belongs to the
page of the first such entry. -/
def mergeRound : Option Nat → List (Partition K) → InMemHashIndex K →
    Option (InMemHashIndex K × List (Partition K))
  | _, [], table => some (table, [])
  | diskSlotPage, part :: rest, table =>
    match part.done, part.entries.getLast? with
    | false, some view =>
      let page := diskSlotPage.getD (view.diskSlotId / T.slotsPerPage)
      if view.diskSlotId / T.slotsPerPage = page then
        match mergeSlot T table part.entries view.diskSlotId with
        | none => none
        | some (table, merged) =>
          let entries := part.entries.take (part.entries.length - merged)
          (mergeRound (some page) rest table).map fun (table, rest) =>
            (table, ⟨entries.isEmpty, entries⟩ :: rest)
      else (mergeRound (some page) rest table).map fun (table, rest) => (table, part :: rest)
    | _, _ => (mergeRound diskSlotPage rest table).map fun (table, rest) =>
        (table, { part with done := true } :: rest)

/-- The loop until all partitions are done. -/
def mergeRounds : Nat → List (Partition K) → InMemHashIndex K → Option (InMemHashIndex K)
  | 0, _, _ => none
  | fuel + 1, partitions, table =>
    if partitions.all (·.done) then some table
    else (mergeRound T none partitions table).bind fun (table, partitions) =>
      mergeRounds fuel partitions table

/-- The local slots of one page. -/
def mergePage (insertLocalStorage : InMemHashIndex K) (table : InMemHashIndex K)
    (localSlotId : Nat) : Option (InMemHashIndex K) :=
  let slotIds := (List.range T.slotsPerPage).map (localSlotId + ·)
  (slotIds.mapM fun slotId =>
    if slotId < insertLocalStorage.numPSlots then
      sortEntries T S table.indexHeader insertLocalStorage slotId
    else some []).bind fun partitionedEntries =>
      mergeRounds T (partitionedEntries.flatten.length + 2)
        (partitionedEntries.map fun entries => { entries := entries }) table

def mergeBulkInserts (insertLocalStorage : InMemHashIndex K) : Option (HashIndex K) :=
  (reserve T idx insertLocalStorage.indexHeader.numEntries).bind fun idx =>
    let numPages := (insertLocalStorage.numPSlots + T.slotsPerPage - 1) / T.slotsPerPage
    ((List.range numPages).foldlM
      (fun table page => mergePage T S insertLocalStorage table (page * T.slotsPerPage))
      idx.table).map fun table => { idx with table := table }

/-! ## The checkpoint -/

/-- `checkpoint`.  The local deletions are counted, and not applied. -/
def checkpoint : Option (HashIndex K) :=
  if localStorage.hasUpdates then
    let netInserts := localStorage.getNetInserts
    let reserved := if 0 < netInserts then reserve T idx netInserts.toNat else some idx
    reserved.bind fun idx => mergeBulkInserts T S idx localStorage.localInsertions
  else some idx

/-- The checkpoint and the switch of the headers that follows. -/
def completeCheckpoint : Option (HashIndex K) :=
  (checkpoint T S idx localStorage).map fun idx =>
    { idx with numOSlotsRead := idx.table.numOSlots }

end

variable [DecidableEq K]

/-- `lookupInPersistentIndex`: all positions of the slots of a chain are searched. -/
def lookupInPersistentIndex (idx : HashIndex K) (key : K) (isVisible : Nat → Bool) :
    Option (Option Nat) :=
  if idx.table.indexHeader.numEntries = 0 then some none
  else
    (findKey T.persistent idx.table (fun e => matchesKey T key e && isVisible e.value)
        idx.table.chainFuel (slotOf T idx.table key)).map fun found =>
      found.bind fun (slotInfo, pos) => ((idx.table.slots slotInfo).entries pos).map (·.value)

end HashIndex

end Lbug.Index
