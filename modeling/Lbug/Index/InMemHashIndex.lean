/-
  Index/InMemHashIndex.lean --- the in-memory hash index.

  Source: `include/storage/index/in_mem_hash_index.h` and
  `storage/index/in_mem_hash_index.cpp`.

  The index is a linear hash table.  `pSlots` and `oSlots` are the primary and the
  overflow slots, here one map `slots` with the two sizes.  The overflow slots that are
  no longer used form a chain that starts at `firstFreeOverflowSlotId`.

  The loops of the source follow chains of slots.  They get a number of steps that no
  chain exceeds; a loop that is still going then returns `none`, as does a step whose
  behaviour the source leaves undefined.  A slot iterator is the place of its slot.
-/
import Lbug.Index.Slot

namespace Lbug.Index

structure InMemHashIndex (K : Type) where
  indexHeader : HashIndexHeader := {}
  slots : SlotInfo → Slot K := fun _ => {}
  numPSlots : Nat := 0
  numOSlots : Nat := 0
  numFreeSlots : Nat := 0

namespace InMemHashIndex

variable {K : Type} (T : KeyType K) (idx : InMemHashIndex K)

def setSlot (slotInfo : SlotInfo) (slot : Slot K) : InMemHashIndex K :=
  { idx with slots := Function.update idx.slots slotInfo slot }

/-- Write or clear one position of a slot. -/
def setEntry (slotInfo : SlotInfo) (entryPos : Nat)
    (entry : Option (SlotEntry K)) : InMemHashIndex K :=
  idx.setSlot slotInfo ((idx.slots slotInfo).setEntry entryPos entry)

def setNext (slotInfo : SlotInfo) (next : Option Nat) : InMemHashIndex K :=
  idx.setSlot slotInfo { idx.slots slotInfo with nextOvfSlotId := next }

def nextChainedSlot (slotInfo : SlotInfo) : Option SlotInfo :=
  (idx.slots slotInfo).nextOvfSlotId.map .ovf

/-- More steps than a chain has slots. -/
def chainFuel : Nat := idx.numOSlots + 1

/-! ## Allocation -/

/-- `allocatePSlots`: the new slots are default-constructed. -/
def allocatePSlots (numSlots : Nat) : InMemHashIndex K :=
  { idx with
    slots := fun
      | .primary i => if idx.numPSlots ≤ i then {} else idx.slots (.primary i)
      | .ovf i => idx.slots (.ovf i)
    numPSlots := idx.numPSlots + numSlots }

def resizeOSlots (numSlots : Nat) : InMemHashIndex K :=
  { idx with
    slots := fun
      | .primary i => idx.slots (.primary i)
      | .ovf i => if idx.numOSlots ≤ i then {} else idx.slots (.ovf i)
    numOSlots := idx.numOSlots + numSlots }

/-- `allocateAOSlot`: take the first free overflow slot, or a new one. -/
def allocateAOSlot : InMemHashIndex K × Nat :=
  match idx.indexHeader.firstFreeOverflowSlotId with
  | none => (idx.resizeOSlots 1, idx.numOSlots)
  | some freeOSlotId =>
    ({ idx.setNext (.ovf freeOSlotId) none with
        indexHeader := { idx.indexHeader with
          firstFreeOverflowSlotId := (idx.slots (.ovf freeOSlotId)).nextOvfSlotId }
        numFreeSlots := idx.numFreeSlots - 1 }, freeOSlotId)

def addFreeOverflowSlot (slotId : Nat) : InMemHashIndex K :=
  { idx.setNext (.ovf slotId) idx.indexHeader.firstFreeOverflowSlotId with
    indexHeader := { idx.indexHeader with firstFreeOverflowSlotId := some slotId }
    numFreeSlots := idx.numFreeSlots + 1 }

/-- The loop of `reserveOverflowSlots`.  Its bound is evaluated again in every round and
sinks with each free slot, so only half of the new slots become free ones. -/
def addFreeOverflowSlots (idx : InMemHashIndex K) (totalSlotsRequired i slotId : Nat) :
    InMemHashIndex K :=
  if i < totalSlotsRequired - idx.numFreeSlots then
    (idx.addFreeOverflowSlot slotId).addFreeOverflowSlots totalSlotsRequired (i + 1) (slotId + 1)
  else idx
termination_by totalSlotsRequired - i
decreasing_by omega

def reserveOverflowSlots (totalSlotsRequired : Nat) : InMemHashIndex K :=
  if idx.numFreeSlots < totalSlotsRequired then
    (idx.resizeOSlots (totalSlotsRequired - idx.numFreeSlots)).addFreeOverflowSlots
      totalSlotsRequired 0 idx.numOSlots
  else idx

/-- The loop of `allocateSlots` that raises the level. -/
def raiseLevel (header : HashIndexHeader) (newNumSlots : Nat) : HashIndexHeader :=
  if 2 ^ (header.currentLevel + 1) ≤ newNumSlots then
    raiseLevel header.incrementLevel newNumSlots
  else header
termination_by newNumSlots - header.currentLevel
decreasing_by
  have := Nat.lt_two_pow_self (n := header.currentLevel + 1)
  simp only [HashIndexHeader.incrementLevel]
  omega

def allocateSlots (newNumSlots : Nat) : InMemHashIndex K :=
  let idx := if idx.numPSlots < newNumSlots then
      idx.allocatePSlots (newNumSlots - idx.numPSlots) else idx
  let header := raiseLevel idx.indexHeader newNumSlots
  { idx with
    indexHeader := if 2 ^ header.currentLevel ≤ newNumSlots then
        { header with nextSplitSlotId := newNumSlots - 2 ^ header.currentLevel }
      else header }

/-- The constructor. -/
def new : InMemHashIndex K := ({} : InMemHashIndex K).allocateSlots T.slotsPerPage

/-- `clear` leaves `numFreeSlots` as it is. -/
def clear : InMemHashIndex K :=
  ({ numFreeSlots := idx.numFreeSlots } : InMemHashIndex K).allocateSlots T.slotsPerPage

/-! ## Walking a chain -/

/-- The first position of a slot below `bound` that `found` accepts. -/
def findInSlot (slot : Slot K) (bound : Nat) (found : SlotEntry K → Bool) : Option Nat :=
  (List.range bound).find? fun entryPos => (slot.entries entryPos).any found

/-- `findEntry`: the slot at which the walk ends and the position of the entry in it. -/
def findEntry (found : SlotEntry K → Bool) : Nat → SlotInfo → Option (SlotInfo × Option Nat)
  | 0, _ => none
  | fuel + 1, slotInfo =>
    let slot := idx.slots slotInfo
    let numEntries := slot.numEntries T.slotCapacity
    match findInSlot slot numEntries found with
    | some entryPos => some (slotInfo, some entryPos)
    | none =>
      if numEntries < T.slotCapacity then some (slotInfo, none)
      else
        match idx.nextChainedSlot slotInfo with
        | none => some (slotInfo, none)
        | some next => findEntry found fuel next

/-- The search of `deleteKey`: every valid position of every slot of the chain. -/
def findKey (found : SlotEntry K → Bool) : Nat → SlotInfo → Option (Option (SlotInfo × Nat))
  | 0, _ => none
  | fuel + 1, slotInfo =>
    match findInSlot (idx.slots slotInfo) T.slotCapacity found with
    | some entryPos => some (some (slotInfo, entryPos))
    | none =>
      match idx.nextChainedSlot slotInfo with
      | none => some none
      | some next => findKey found fuel next

/-- `while (nextChainedSlot(iter)) {}`. -/
def lastChainedSlot : Nat → SlotInfo → Option SlotInfo
  | 0, _ => none
  | fuel + 1, slotInfo =>
    match idx.nextChainedSlot slotInfo with
    | none => some slotInfo
    | some next => lastChainedSlot fuel next

def countSlots : Nat → SlotInfo → Option Nat
  | 0, _ => none
  | fuel + 1, slotInfo =>
    match idx.nextChainedSlot slotInfo with
    | none => some 1
    | some next => (countSlots fuel next).map (· + 1)

/-! ## Reclaiming overflow slots -/

/-- The first loop of `reclaimOverflowSlots`: the last slot to keep and, if there is one,
the first empty overflow slot after it. -/
def skipNonEmptySlots : Nat → SlotInfo → SlotInfo → Option (SlotInfo × Option SlotInfo)
  | 0, _, _ => none
  | fuel + 1, lastNonEmptySlot, slotInfo =>
    if 0 < (idx.slots slotInfo).numEntries T.slotCapacity ∨ slotInfo.isPrimary then
      match idx.nextChainedSlot slotInfo with
      | none => some (slotInfo, none)
      | some next => skipNonEmptySlots fuel slotInfo next
    else some (lastNonEmptySlot, some slotInfo)

/-- The second loop: unchain the slots one by one and add them to the free slots. -/
def freeChain : Nat → InMemHashIndex K → SlotInfo → Option (InMemHashIndex K)
  | 0, _, _ => none
  | fuel + 1, idx, slotInfo =>
    let next := idx.nextChainedSlot slotInfo
    let idx := idx.setNext slotInfo none
    let idx := match slotInfo with
      | .ovf slotId => idx.addFreeOverflowSlot slotId
      | .primary _ => idx
    match next with
    | none => some idx
    | some next => freeChain fuel idx next

def reclaimOverflowSlots (slotInfo : SlotInfo) : Option (InMemHashIndex K) :=
  match idx.nextChainedSlot slotInfo with
  | none => some idx
  | some _ =>
    match skipNonEmptySlots T idx idx.chainFuel slotInfo slotInfo with
    | none => none
    | some (lastNonEmptySlot, rest) =>
      let idx := idx.setNext lastNonEmptySlot none
      match rest with
      | none => some idx
      | some slotInfo => freeChain idx.chainFuel idx slotInfo

/-! ## Splitting -/

/-- The local variables of `splitSlot`: the iterator that reads, the iterator and the
position that fill the first gap, and the iterator and the position that write to the
new slot. -/
structure SplitState where
  originalSlot : SlotInfo
  entryPos : Nat
  originalSlotForInsert : SlotInfo
  entryPosToInsert : Nat
  newSlot : SlotInfo
  newSlotPos : Nat
  gaps : Bool
  deriving DecidableEq, Repr

/-- The inner loop that moves to the first gap. -/
def findGap : Nat → SlotInfo → Nat → Option (SlotInfo × Nat)
  | 0, _, _ => none
  | fuel + 1, slotInfo, entryPos =>
    if (idx.slots slotInfo).isEntryValid entryPos then
      if entryPos + 1 < T.slotCapacity then findGap fuel slotInfo (entryPos + 1)
      else
        match idx.nextChainedSlot slotInfo with
        | none => none
        | some next => findGap fuel next 0
    else some (slotInfo, entryPos)

/-- Move an entry to the new slot, which gets a further overflow slot when it is full. -/
def moveEntry (s : SplitState) (entry : SlotEntry K) : InMemHashIndex K × SplitState :=
  let (idx, s) :=
    if T.slotCapacity ≤ s.newSlotPos then
      let (idx, newOvfSlotId) := idx.allocateAOSlot
      (idx.setNext s.newSlot (some newOvfSlotId),
        { s with newSlot := .ovf newOvfSlotId, newSlotPos := 0 })
    else (idx, s)
  ((idx.setEntry s.newSlot s.newSlotPos (some entry)).setEntry s.originalSlot s.entryPos none,
    { s with entryPos := s.entryPos + 1, newSlotPos := s.newSlotPos + 1, gaps := true })

/-- Move an entry of the original chain to its first gap. -/
def fillGap (s : SplitState) (entry : SlotEntry K) : Option (InMemHashIndex K × SplitState) :=
  (findGap T idx ((idx.numOSlots + 1) * T.slotCapacity + 1) s.originalSlotForInsert
      s.entryPosToInsert).map fun (slotInfo, entryPos) =>
    ((idx.setEntry slotInfo entryPos (some entry)).setEntry s.originalSlot s.entryPos none,
      { s with
        entryPos := s.entryPos + 1
        originalSlotForInsert := slotInfo
        entryPosToInsert := entryPos })

/-- One round of the loop over the original chain: `none` for the new state when the
loop ends. -/
def splitStep (s : SplitState) : Option (InMemHashIndex K × Option SplitState) :=
  if s.entryPos < T.slotCapacity then
    match (idx.slots s.originalSlot).entries s.entryPos with
    | none => some (idx, none)
    | some entry =>
      let hash := T.hash entry.key
      let entry := { entry with fingerprint := getFingerprintForHash hash }
      if hash % 2 ^ (idx.indexHeader.currentLevel + 1) ≠ idx.indexHeader.nextSplitSlotId then
        let (idx, s) := moveEntry T idx s entry
        some (idx, some s)
      else if s.gaps then (fillGap T idx s entry).map fun (idx, s) => (idx, some s)
      else some (idx, some { s with entryPos := s.entryPos + 1 })
  else
    match idx.nextChainedSlot s.originalSlot with
    | none => some (idx, none)
    | some next => some (idx, some { s with originalSlot := next, entryPos := 0 })

/-- The loop over the original chain; it returns where the gaps were filled last. -/
def splitLoop : Nat → InMemHashIndex K → SplitState → Option (InMemHashIndex K × SlotInfo)
  | 0, _, _ => none
  | fuel + 1, idx, s =>
    match splitStep T idx s with
    | none => none
    | some (idx, none) => some (idx, s.originalSlotForInsert)
    | some (idx, some s) => splitLoop fuel idx s

def splitSlot : Option (InMemHashIndex K) :=
  let newSlot := SlotInfo.primary idx.numPSlots
  let idx := idx.allocatePSlots 1
  let originalSlot := SlotInfo.primary idx.indexHeader.nextSplitSlotId
  match countSlots idx idx.chainFuel originalSlot with
  | none => none
  | some count =>
    let idx := idx.reserveOverflowSlots count
    match splitLoop T ((idx.numOSlots + 2) * (T.slotCapacity + 1)) idx
        ⟨originalSlot, 0, originalSlot, 0, newSlot, 0, false⟩ with
    | none => none
    | some (idx, slotForInsert) =>
      (reclaimOverflowSlots T idx slotForInsert).map fun idx =>
        { idx with indexHeader := idx.indexHeader.incrementNextSplitSlotId }

def splitSlots : Nat → InMemHashIndex K → Option (InMemHashIndex K)
  | 0, idx => some idx
  | n + 1, idx => (splitSlot T idx).bind (splitSlots n)

/-- `reserve`, whose argument has 32 bits.  Each round of its loop adds one slot. -/
def reserve (numEntries : Nat) : Option (InMemHashIndex K) :=
  let required := numRequiredSlots T.slotCapacity (numEntries % 2 ^ 32)
  if required ≤ idx.numPSlots then some idx
  else if idx.indexHeader.numEntries = 0 then some (idx.allocateSlots required)
  else splitSlots T (required - idx.numPSlots) idx

/-! ## The operations -/

variable [DecidableEq K]

/-- The comparison of `findEntry` and `deleteKey`: the fingerprint first, then the
key. -/
def matchesKey (key : K) (entry : SlotEntry K) : Bool :=
  entry.fingerprint == getFingerprintForHash (T.hash key) && decide (entry.key = key)

/-- The first slot of the chain of a key. -/
def slotOf (key : K) : SlotInfo :=
  .primary (idx.indexHeader.getPrimarySlotIdForHash (T.hash key))

def lookup (key : K) (isVisible : Nat → Bool) : Option (Option Nat) :=
  if idx.indexHeader.numEntries = 0 then some none
  else
    (findEntry T idx (fun e => matchesKey T key e && isVisible e.value) idx.chainFuel
        (slotOf T idx key)).map fun (slotInfo, entryPos) =>
      entryPos.bind fun pos => ((idx.slots slotInfo).entries pos).map (·.value)

/-- `appendInternal`: `false` when a visible entry has the key. -/
def appendInternal (key : K) (value : Nat) (isVisible : Nat → Bool) :
    Option (InMemHashIndex K × Bool) :=
  match findEntry T idx (fun e => matchesKey T key e && isVisible e.value) idx.chainFuel
      (slotOf T idx key) with
  | none => none
  | some (_, some _) => some (idx, false)
  | some (slotInfo, none) =>
    let entry : SlotEntry K := ⟨key, value, getFingerprintForHash (T.hash key)⟩
    let numEntries := (idx.slots slotInfo).numEntries T.slotCapacity
    let idx := if numEntries < T.slotCapacity then idx.setEntry slotInfo numEntries (some entry)
      else
        let (idx, newSlotId) := idx.allocateAOSlot
        (idx.setNext slotInfo (some newSlotId)).setEntry (.ovf newSlotId) 0 (some entry)
    some ({ idx with
      indexHeader := { idx.indexHeader with numEntries := idx.indexHeader.numEntries + 1 } }, true)

/-- `append` of one entry. -/
def append (key : K) (value : Nat) (isVisible : Nat → Bool) : Option (InMemHashIndex K × Bool) :=
  (reserve T idx (idx.indexHeader.numEntries + 1)).bind fun idx =>
    appendInternal T idx key value isVisible

/-- The loop of `append` over a buffer: how many entries went in before one failed. -/
def appendAll (isVisible : Nat → Bool) :
    List (K × Nat) → InMemHashIndex K → Option (InMemHashIndex K × Nat)
  | [], idx => some (idx, 0)
  | (key, value) :: rest, idx =>
    match appendInternal T idx key value isVisible with
    | none => none
    | some (idx, false) => some (idx, 0)
    | some (idx, true) => (appendAll isVisible rest idx).map fun (idx, n) => (idx, n + 1)

/-- `append` of a buffer from an offset on. -/
def appendBuffer (buffer : List (K × Nat)) (bufferOffset : Nat) (isVisible : Nat → Bool) :
    Option (InMemHashIndex K × Nat) :=
  (reserve T idx (idx.indexHeader.numEntries + buffer.length - bufferOffset)).bind
    (appendAll T isVisible (buffer.drop bufferOffset))

/-- The writes of `deleteKey`: the last entry of the chain, in slot `newIter`, is moved to
the place of the one that is deleted, in slot `iter`, if that is another one. -/
def removeEntry (iter newIter : SlotInfo) (deletedPos lastEntryPos : Nat) : InMemHashIndex K :=
  if newIter ≠ iter ∨ deletedPos ≠ lastEntryPos then
    (idx.setEntry iter deletedPos ((idx.slots newIter).entries lastEntryPos)).setEntry
      newIter lastEntryPos none
  else idx.setEntry iter deletedPos none

/-- `deleteKey`.  It does not change `numEntries`. -/
def deleteKey (key : K) : Option (InMemHashIndex K × Bool) :=
  if idx.indexHeader.numEntries = 0 then some (idx, false)
  else
    match findKey T idx (matchesKey T key) idx.chainFuel (slotOf T idx key) with
    | none => none
    | some none => some (idx, false)
    | some (some (iter, deletedPos)) =>
      match lastChainedSlot idx idx.chainFuel iter with
      | none => none
      | some newIter =>
        let lastEntryPos := (idx.slots newIter).numEntries T.slotCapacity - 1
        let idx := removeEntry idx iter newIter deletedPos lastEntryPos
        if (idx.slots newIter).numEntries T.slotCapacity = 0 then
          (reclaimOverflowSlots T idx (slotOf T idx key)).map fun idx => (idx, true)
        else some (idx, true)

def size : Nat := idx.indexHeader.numEntries

end InMemHashIndex

end Lbug.Index
