/-
  Storage/DiskArray.lean --- arrays of elements in the pages of the data file.

  Source: `storage/disk_array.cpp`, `include/storage/disk_array.h`,
  `storage/shadow_file.cpp`, `storage/shadow_utils.cpp` and, for the two headers,
  `include/storage/disk_array_collection.h`.

  The elements are in array pages (APs); the page indices of the array pages are in page
  index pages (PIPs), which are chained.  A checkpoint writes with the header
  `headerForWriteTrx` and the pending `pipUpdates`; all other transactions read with
  `header` and `pips`.  A page index is `none` where the source has `INVALID_PAGE_IDX`.

  `file` is the data file as its frames show it.  A shadow page is a record of the shadow
  file with its contents; the map from pages to records can lose an entry while the
  record stays.  An access that is undefined in the source gives `none`.
-/
import Lbug.Foundation.Pages

namespace Lbug.Storage

open Foundation Function

/-- The number of elements of an array page and of page indices of a PIP
(`NUM_PAGE_IDXS_PER_PIP`). -/
structure PageStorageInfo where
  numElementsPerPage : Nat
  numPageIdxsPerPIP : Nat
  numElementsPerPage_pos : 0 < numElementsPerPage
  numPageIdxsPerPIP_pos : 0 < numPageIdxsPerPIP

structure DiskArrayHeader where
  numElements : Nat := 0
  firstPIPPageIdx : Option Nat := none
  deriving DecidableEq, Repr

structure PIP where
  nextPipPageIdx : Option Nat := none
  pageIdxs : Nat → Option Nat := fun _ => none

structure PIPWrapper where
  pipPageIdx : Nat
  pipContents : PIP := {}

structure PIPUpdates where
  updatedLastPIP : Option PIPWrapper := none
  newPIPs : List PIPWrapper := []

/-- A page holds elements or a PIP. -/
inductive DiskPage (V : Type) where
  | array (elements : Nat → V)
  | pip (contents : PIP)

/-- Who accesses the array: the checkpoint, or any other transaction. -/
inductive ArrayAccess where
  | read
  | checkpoint
  deriving DecidableEq, Repr

namespace DiskPage

variable {V : Type} [Inhabited V]

def elements : DiskPage V → Nat → V
  | .array elements => elements
  | .pip _ => fun _ => default

def set (page : DiskPage V) (elemPosInPage : Nat) (value : V) : DiskPage V :=
  .array (update page.elements elemPosInPage value)

end DiskPage

namespace PIPWrapper

/-- Write one page index of a PIP. -/
def setPageIdx (pip : PIPWrapper) (offset pageIdx : Nat) : PIPWrapper :=
  { pip with pipContents := { pip.pipContents with
      pageIdxs := update pip.pipContents.pageIdxs offset (some pageIdx) } }

def setNext (pip : PIPWrapper) (nextPIPPageIdx : Nat) : PIPWrapper :=
  { pip with pipContents := { pip.pipContents with nextPipPageIdx := some nextPIPPageIdx } }

end PIPWrapper

/-! ## The shadow file -/

/-- `shadowPageRecords`, each with the contents of its shadow page, and
`shadowPagesMap`, which gives the record of a page. -/
structure ShadowFile (V : Type) where
  shadowPagesMap : Nat → Option Nat := fun _ => none
  shadowPageRecords : List (Nat × DiskPage V) := []

namespace ShadowFile

variable {V : Type}

section

variable (s : ShadowFile V)

def getShadowPage (pageIdx : Nat) : Option (DiskPage V) :=
  (s.shadowPagesMap pageIdx).bind fun i => s.shadowPageRecords[i]?.map Prod.snd

/-- `clearShadowPage` takes the page out of the map only. -/
def clearShadowPage (pageIdx : Nat) : ShadowFile V :=
  { s with shadowPagesMap := update s.shadowPagesMap pageIdx none }

/-- `ShadowUtils::updatePage`.  A new shadow page starts as `original`. -/
def updatePage (pageIdx : Nat) (original : DiskPage V) (updateOp : DiskPage V → DiskPage V) :
    ShadowFile V :=
  match s.shadowPagesMap pageIdx with
  | some i => { s with
      shadowPageRecords := s.shadowPageRecords.modify i fun r => (r.1, updateOp r.2) }
  | none => {
      shadowPagesMap := update s.shadowPagesMap pageIdx (some s.shadowPageRecords.length)
      shadowPageRecords := s.shadowPageRecords ++ [(pageIdx, updateOp original)] }

/-- `applyShadowPages` goes through the records in order. -/
def applyShadowPages (file : Nat → DiskPage V) : Nat → DiskPage V :=
  writeAll s.shadowPageRecords file

end

end ShadowFile

/-! ## The array -/

structure DiskArray (V : Type) where
  header : DiskArrayHeader
  headerForWriteTrx : DiskArrayHeader
  hasTransactionalUpdates : Bool := false
  pips : List PIPWrapper
  pipUpdates : PIPUpdates := {}
  lastAPPageIdx : Option Nat := none
  lastPageOnDisk : Option Nat := none
  file : Nat → DiskPage V
  shadowFile : ShadowFile V := {}

namespace DiskArray

variable {V : Type} (info : PageStorageInfo) (s : DiskArray V)

def getDiskArrayHeader : ArrayAccess → DiskArrayHeader
  | .read => s.header
  | .checkpoint => s.headerForWriteTrx

def getNumElements (access : ArrayAccess) : Nat :=
  (s.getDiskArrayHeader access).numElements

/-- Pages up to `lastPageOnDisk` are changed in the shadow file, all pages if it is not
set. -/
def shadows (pageIdx : Nat) : Bool :=
  s.lastPageOnDisk.all fun last => decide (pageIdx ≤ last)

def getNumAPs (header : DiskArrayHeader) : Nat :=
  (header.numElements + info.numElementsPerPage - 1) / info.numElementsPerPage

def hasPIPUpdates (pipIdx : Nat) : Bool :=
  decide (s.pips.length ≤ pipIdx) ||
    decide (pipIdx + 1 = s.pips.length) && s.pipUpdates.updatedLastPIP.isSome

/-- `getAPPageIdxNoLock`: the page index of an array page. -/
def getAPPageIdx (apIdx : Nat) (access : ArrayAccess) : Option Nat :=
  let pipIdx := apIdx / info.numPageIdxsPerPIP
  let offsetInPIP := apIdx % info.numPageIdxsPerPIP
  let pip :=
    if access ≠ .checkpoint ∨ s.hasPIPUpdates pipIdx = false then s.pips[pipIdx]?
    else if pipIdx + 1 = s.pips.length ∧ s.pipUpdates.updatedLastPIP.isSome then
      s.pipUpdates.updatedLastPIP
    else s.pipUpdates.newPIPs[pipIdx - s.pips.length]?
  pip.bind fun pip => pip.pipContents.pageIdxs offsetInPIP

def updateLastPageOnDisk : DiskArray V :=
  let numElements := s.getNumElements .read
  if 0 < numElements then
    { s with lastPageOnDisk :=
        s.getAPPageIdx info ((numElements - 1) / info.numElementsPerPage) .read }
  else { s with lastPageOnDisk := some 0 }

/-! ### Loading -/

/-- The PIPs of a chain that starts at a page. -/
def readPIPs (file : Nat → DiskPage V) : Nat → Option Nat → Option (List PIPWrapper)
  | _, none => some []
  | 0, some _ => none
  | fuel + 1, some pipPageIdx =>
    match file pipPageIdx with
    | .array _ => none
    | .pip contents => (readPIPs file fuel contents.nextPipPageIdx).map
        (⟨pipPageIdx, contents⟩ :: ·)

/-- The constructor; `numPIPs` bounds the length of the chain. -/
def load (file : Nat → DiskPage V) (header : DiskArrayHeader) (bypassShadowing : Bool)
    (numPIPs : Nat) : Option (DiskArray V) :=
  (readPIPs file numPIPs header.firstPIPPageIdx).map fun pips =>
    let s : DiskArray V :=
      { header := header, headerForWriteTrx := header, pips := pips, file := file }
    if bypassShadowing then s.updateLastPageOnDisk info else s

/-! ### Reading and writing elements -/

variable [Inhabited V]

/-- The page that an access reads. -/
def readPage (access : ArrayAccess) (apPageIdx : Nat) : DiskPage V :=
  if access ≠ .checkpoint ∨ s.hasTransactionalUpdates = false ∨ s.shadows apPageIdx = false then
    s.file apPageIdx
  else (s.shadowFile.getShadowPage apPageIdx).getD (s.file apPageIdx)

def get (idx : Nat) (access : ArrayAccess) : Option V :=
  (s.getAPPageIdx info (idx / info.numElementsPerPage) access).map fun apPageIdx =>
    (s.readPage access apPageIdx).elements (idx % info.numElementsPerPage)

/-- `updatePage`: through the shadow file or in place.  The frame of a new page is not
read, whatever it holds. -/
def updatePage (pageIdx : Nat) (isNewPage : Bool)
    (updateOp : DiskPage V → DiskPage V) : DiskArray V :=
  if s.shadows pageIdx then
    let original := if isNewPage then .array fun _ => default else s.file pageIdx
    { s with shadowFile := s.shadowFile.updatePage pageIdx original updateOp }
  else { s with file := update s.file pageIdx (updateOp (s.file pageIdx)) }

def update (idx : Nat) (value : V) : Option (DiskArray V) :=
  let s := { s with hasTransactionalUpdates := true }
  (s.getAPPageIdx info (idx / info.numElementsPerPage) .checkpoint).map fun apPageIdx =>
    s.updatePage apPageIdx false (·.set (idx % info.numElementsPerPage) value)

/-! ### Adding an array page -/

/-- `setNextPIPPageIDxOfPIPNoLock`, where `none` is the PIP before the first one. -/
def setNextPIPPageIdxOfPIP (pipIdxOfPreviousPIP : Option Nat) (nextPIPPageIdx : Nat) :
    Option (DiskArray V) :=
  match pipIdxOfPreviousPIP with
  | none =>
    let header := { s.headerForWriteTrx with firstPIPPageIdx := some nextPIPPageIdx }
    some { s with headerForWriteTrx := header }
  | some previous =>
    let setNewPIP (i : Nat) := s.pipUpdates.newPIPs.modify i (·.setNext nextPIPPageIdx)
    if s.pips = [] then
      some { s with pipUpdates := { s.pipUpdates with newPIPs := setNewPIP previous } }
    else
      (s.pipUpdates.updatedLastPIP.or s.pips[previous]?).map fun last =>
        if previous + 1 = s.pips.length then
          let last := last.setNext nextPIPPageIdx
          { s with pipUpdates := { s.pipUpdates with updatedLastPIP := some last } }
        else { s with pipUpdates := ⟨some last, setNewPIP (previous - s.pips.length)⟩ }

/-- `getAPPageIdxAndAddAPToPIPIfNecessaryForWriteTrxNoLock`: the page of an array page
and whether it is new.  `pages` are the pages that the page allocator returns next. -/
def getAPPageIdxAndAddAPToPIPIfNecessary (pages : List Nat) (apIdx : Nat) :
    Option (DiskArray V × Nat × Bool × List Nat) :=
  let numAPs := getNumAPs info s.headerForWriteTrx
  match s.lastAPPageIdx with
  | some lastAPPageIdx =>
    if apIdx + 1 = numAPs then some (s, lastAPPageIdx, false, pages) else existingOrNew numAPs
  | none => existingOrNew numAPs
where
  /-- The page is looked up or allocated. -/
  existingOrNew (numAPs : Nat) : Option (DiskArray V × Nat × Bool × List Nat) :=
    if apIdx < numAPs then
      (s.getAPPageIdx info apIdx .checkpoint).map fun apPageIdx => (s, apPageIdx, false, pages)
    else
      match pages with
      | [] => none
      | newAPPageIdx :: pages =>
        let pipIdx := apIdx / info.numPageIdxsPerPIP
        let offset := apIdx % info.numPageIdxsPerPIP
        if pipIdx < s.pips.length then
          (s.pipUpdates.updatedLastPIP.or s.pips[pipIdx]?).map fun last =>
            let last := last.setPageIdx offset newAPPageIdx
            ({ s with pipUpdates := { s.pipUpdates with updatedLastPIP := some last } },
              newAPPageIdx, true, pages)
        else if pipIdx - s.pips.length < s.pipUpdates.newPIPs.length then
          let newPIPs := s.pipUpdates.newPIPs.modify (pipIdx - s.pips.length)
            (·.setPageIdx offset newAPPageIdx)
          some ({ s with pipUpdates := { s.pipUpdates with newPIPs := newPIPs } },
            newAPPageIdx, true, pages)
        else
          match pages with
          | [] => none
          | pipPageIdx :: pages =>
            let newPIPs := s.pipUpdates.newPIPs ++ [⟨pipPageIdx, {}⟩]
            let s := { s with pipUpdates := { s.pipUpdates with newPIPs := newPIPs } }
            let previous := if pipIdx = 0 then none else some (pipIdx - 1)
            (s.setNextPIPPageIdxOfPIP previous pipPageIdx).map fun s =>
              let newPIPs := s.pipUpdates.newPIPs.modify (s.pipUpdates.newPIPs.length - 1)
                (·.setPageIdx offset newAPPageIdx)
              ({ s with pipUpdates := { s.pipUpdates with newPIPs := newPIPs } },
                newAPPageIdx, true, pages)

/-! ### The write iterator -/

/-- A write iterator: the index of its array page and the page that it has pinned. -/
structure WriteIterator where
  apIdx : Nat := 0
  originalPage : Option Nat := none
  deriving DecidableEq, Repr

/-- `WriteIterator::pushBack`. -/
def pushBack (it : WriteIterator) (pages : List Nat) (value : V) :
    Option (DiskArray V × WriteIterator × List Nat) :=
  let idx := s.headerForWriteTrx.numElements
  let apIdx := idx / info.numElementsPerPage
  (s.getAPPageIdxAndAddAPToPIPIfNecessary info pages apIdx).map
    fun (s, apPageIdx, isNewlyAdded, pages) =>
      let header := { s.headerForWriteTrx with numElements := s.headerForWriteTrx.numElements + 1 }
      let s := { s with lastAPPageIdx := some apPageIdx, headerForWriteTrx := header }
      -- the pinned page is kept as long as the elements go to the same array page
      let page := match it.originalPage with
        | none => apPageIdx
        | some pinned => if isNewlyAdded ∨ apIdx ≠ it.apIdx then apPageIdx else pinned
      (s.updatePage page isNewlyAdded (·.set (idx % info.numElementsPerPage) value),
        ⟨apIdx, some page⟩, pages)

/-- Push the values with one iterator. -/
def pushAll (s : DiskArray V) (it : WriteIterator) (pages : List Nat) :
    List V → Option (DiskArray V)
  | [] => some s
  | value :: rest =>
    match s.pushBack info it pages value with
    | none => none
    | some (s, it, pages) => pushAll s it pages rest

/-- `iter_mut` and a `pushBack` for each value. -/
def pushBackAll (pages : List Nat) (values : List V) : Option (DiskArray V) :=
  pushAll info { s with hasTransactionalUpdates := true } {} pages values

/-- `resize`, which returns the number of elements before. -/
def resize (pages : List Nat) (newNumElements : Nat) : Option (DiskArray V × Nat) :=
  let numElements := s.getNumElements .checkpoint
  (s.pushBackAll info pages (List.replicate (newNumElements - numElements) default)).map
    fun s => (s, numElements)

/-! ### Checkpoint and rollback -/

/-- `checkpoint`: the PIPs that changed are written to the shadow file. -/
def checkpoint : DiskArray V :=
  let changed := s.pipUpdates.updatedLastPIP.toList ++ s.pipUpdates.newPIPs
  let writePIP (shadowFile : ShadowFile V) (pip : PIPWrapper) :=
    shadowFile.updatePage pip.pipPageIdx (s.file pip.pipPageIdx) fun _ => .pip pip.pipContents
  { s with shadowFile := changed.foldl writePIP s.shadowFile }

/-- `checkpointOrRollbackInMemoryIfNecessaryNoLock`. -/
def checkpointOrRollbackInMemory (isCheckpoint : Bool) : DiskArray V :=
  if s.hasTransactionalUpdates = false then s
  else
    let pips := match s.pipUpdates.updatedLastPIP with
      | some last => if isCheckpoint then s.pips.dropLast ++ [last] else s.pips
      | none => s.pips
    let cleared := (if s.pipUpdates.updatedLastPIP.isSome then pips.getLast?.toList else []) ++
      s.pipUpdates.newPIPs
    let shadowFile := cleared.foldl (fun shadow pip => shadow.clearShadowPage pip.pipPageIdx)
      s.shadowFile
    let pips := if isCheckpoint then pips ++ s.pipUpdates.newPIPs else pips
    let s : DiskArray V := { s with
      pips := pips
      shadowFile := shadowFile
      pipUpdates := {}
      hasTransactionalUpdates := false }
    if isCheckpoint ∧ s.lastPageOnDisk ≠ none then s.updateLastPageOnDisk info else s

/-- A whole checkpoint of the array: the PIPs, the state in memory, the header of the
collection and then the shadow pages. -/
def completeCheckpoint : DiskArray V :=
  let s := s.checkpoint.checkpointOrRollbackInMemory info true
  { s with
    header := s.headerForWriteTrx
    file := s.shadowFile.applyShadowPages s.file
    shadowFile := {} }

/-- The rollback of a checkpoint that failed, before or after `checkpoint` wrote the
PIPs. -/
def rollbackCheckpoint (wrotePIPs : Bool) : DiskArray V :=
  let s := if wrotePIPs then s.checkpoint else s
  let s := s.checkpointOrRollbackInMemory info false
  { s with headerForWriteTrx := s.header }

end DiskArray

end Lbug.Storage
