/-
  Storage/VersionInfo.lean --- the compressed per-row version map.

  Source: `storage/table/version_info.cpp`.

  A `VersionInfo` keeps, for every row of a chunked node group, the version of its
  insertion and of its deletion.  Rows are grouped into vectors of
  `DEFAULT_VECTOR_CAPACITY = 1 << VECTOR_CAPACITY_LOG_2` rows; the exponent is a
  build option and stays a parameter `k` here.  A vector does not store a version
  per row unless it has to: two status flags say that nothing was inserted or
  deleted, one shared version stands for all rows that one transaction inserted, and
  the arrays are only allocated when rows of a vector differ.

  Reads and writes of a C++ array are `readEntry` and `writeRange`; a member function
  that throws returns the vector as the throw leaves it next to the error.  `persisted` is
  what `deSerialize` reads back from `serialize`.  The debugging assertions are not
  modelled.
-/
import Lbug.Foundation.Blocks
import Lbug.Transaction.Timestamp

namespace Lbug.Storage

open Foundation Transaction

/-- `DEFAULT_VECTOR_CAPACITY`. -/
def vectorCapacity (k : Nat) : Nat := 2 ^ k

theorem vectorCapacity_pos (k : Nat) : 0 < vectorCapacity k := Nat.two_pow_pos k

/-- What is known of the insertions of a vector without looking at its versions. -/
inductive InsertionStatus where
  | noInserted
  | checkVersion
  | alwaysInserted
  deriving DecidableEq, Repr

inductive DeletionStatus where
  | noDeleted
  | checkVersion
  deriving DecidableEq, Repr

/-- `std::array<transaction_t, DEFAULT_VECTOR_CAPACITY>`. -/
abbrev VersionArray (k : Nat) := Vector Nat (vectorCapacity k)

/-- An array filled with `INVALID_TRANSACTION`. -/
def initVersionArray (k : Nat) : VersionArray k :=
  Vector.replicate (vectorCapacity k) invalidTransaction

/-- The version that an array holds for a row. -/
def versionAt {k : Nat} (a : VersionArray k) (row : Nat) : Nat :=
  readEntry a invalidTransaction row

/-- Some entry of the array is a version. -/
def hasAnyVersion {k : Nat} (a : VersionArray k) : Bool := a.any (· != invalidTransaction)

/-- The versions of one vector: an array for each kind, or one version that all its rows share. -/
structure VectorVersionInfo (k : Nat) where
  insertedVersions : Option (VersionArray k) := none
  deletedVersions : Option (VersionArray k) := none
  sameInsertionVersion : Nat := invalidTransaction
  sameDeletionVersion : Nat := invalidTransaction
  insertionStatus : InsertionStatus := .noInserted
  deletionStatus : DeletionStatus := .noDeleted

/-- What `delete_` throws. -/
def writeWriteConflictOnDelete : String :=
  "Write-write conflict: deleting a row that is already deleted by another transaction."

namespace VectorVersionInfo

variable {k : Nat}

section

variable (v : VectorVersionInfo k)

def isSameInsertionVersion : Bool :=
  v.sameInsertionVersion != invalidTransaction

def isSameDeletionVersion : Bool :=
  v.sameDeletionVersion != invalidTransaction

/-- The array is allocated when a second transaction appends to the vector. -/
def append (transactionID startRow numRows : Nat) : VectorVersionInfo k :=
  let v := { v with insertionStatus := .checkVersion }
  if transactionID = v.sameInsertionVersion then v
  else match v.insertedVersions with
    | none =>
      if !v.isSameInsertionVersion then { v with sameInsertionVersion := transactionID }
      else
        -- the rows before `startRow` were inserted under the shared version
        let a := writeRange (initVersionArray k) 0 startRow v.sameInsertionVersion
        { v with
          insertedVersions := some (writeRange a startRow numRows transactionID)
          sameInsertionVersion := invalidTransaction }
    | some a => { v with insertedVersions := some (writeRange a startRow numRows transactionID) }

/-- Whether the row was deleted by this call; a row that another transaction deleted is a
conflict. -/
def delete_ (transactionID rowIdx : Nat) : VectorVersionInfo k × Except String Bool :=
  let v := { v with deletionStatus := .checkVersion }
  if transactionID = v.sameDeletionVersion then (v, .ok false)
  else if v.isSameDeletionVersion then (v, .error writeWriteConflictOnDelete)
  else
    let a := v.deletedVersions.getD (initVersionArray k)
    let v := { v with deletedVersions := some a }
    if versionAt a rowIdx = transactionID then (v, .ok false)
    else if versionAt a rowIdx ≠ invalidTransaction then (v, .error writeWriteConflictOnDelete)
    else ({ v with deletedVersions := some (writeRange a rowIdx 1 transactionID) }, .ok true)

/-- A shared version is replaced whichever rows are committed. -/
def setInsertCommitTS (commitTS startRow numRows : Nat) : VectorVersionInfo k :=
  if v.isSameInsertionVersion then { v with sameInsertionVersion := commitTS }
  else { v with
    insertedVersions := v.insertedVersions.map fun a => writeRange a startRow numRows commitTS }

def setDeleteCommitTS (commitTS startRow numRows : Nat) : VectorVersionInfo k :=
  if v.isSameDeletionVersion then { v with sameDeletionVersion := commitTS }
  else { v with
    deletedVersions := v.deletedVersions.map fun a => writeRange a startRow numRows commitTS }

/-- Whether the deletion is visible to the transaction. -/
def isDeleted (startTS transactionID rowIdx : Nat) : Bool :=
  match v.deletionStatus with
  | .noDeleted => false
  | .checkVersion =>
    let deletion :=
      if v.isSameDeletionVersion then v.sameDeletionVersion
      else (v.deletedVersions.map (versionAt · rowIdx)).getD invalidTransaction
    visible startTS transactionID deletion

def isInserted (startTS transactionID rowIdx : Nat) : Bool :=
  match v.insertionStatus with
  | .alwaysInserted => true
  | .noInserted => false
  | .checkVersion =>
    let insertion :=
      if v.isSameInsertionVersion then v.sameInsertionVersion
      else (v.insertedVersions.map (versionAt · rowIdx)).getD invalidTransaction
    visible startTS transactionID insertion

def isSelected (startTS transactionID rowIdx : Nat) : Bool :=
  if v.deletionStatus = .noDeleted ∧ v.insertionStatus = .alwaysInserted then true
  else if v.insertionStatus = .noInserted then false
  else if v.isInserted startTS transactionID rowIdx then
    !v.isDeleted startTS transactionID rowIdx
  else false

def getNumDeletions (startTS transactionID startRow numRows : Nat) : Nat :=
  if v.deletionStatus = .noDeleted then 0
  else (List.range' startRow numRows).countP (v.isDeleted startTS transactionID)

/-- Overwrite the rows with `INVALID_TRANSACTION` and drop the array once no version
is left in it. -/
def clearVersions (versions : Option (VersionArray k)) (startRow numRows : Nat) :
    Option (VersionArray k) :=
  versions.bind fun a =>
    let a := writeRange a startRow numRows invalidTransaction
    if hasAnyVersion a then some a else none

/-- A vector left without insertion versions drops its deletion status too. -/
def rollbackInsertions (startRowInVector numRows : Nat) : VectorVersionInfo k :=
  let v :=
    -- the shared version is reset whichever rows are rolled back
    if v.isSameInsertionVersion then { v with sameInsertionVersion := invalidTransaction }
    else { v with
      insertedVersions := clearVersions v.insertedVersions startRowInVector numRows }
  if v.insertedVersions.isNone then
    { v with insertionStatus := .noInserted, deletionStatus := .noDeleted }
  else v

def rollbackDeletions (startRowInVector numRows : Nat) : VectorVersionInfo k :=
  let v :=
    if v.isSameDeletionVersion then { v with sameDeletionVersion := invalidTransaction }
    else { v with
      deletedVersions := clearVersions v.deletedVersions startRowInVector numRows }
  if v.deletedVersions.isNone then { v with deletionStatus := .noDeleted } else v

end

end VectorVersionInfo

/-- `SelectionVector`: the first positions, or a list of positions. -/
inductive SelectionVector
  | unfiltered (size : Nat)
  | filtered (positions : List Nat)
  deriving DecidableEq, Repr

def SelectionVector.positions : SelectionVector → List Nat
  | .unfiltered size => List.range size
  | .filtered positions => positions

namespace VectorVersionInfo

variable {k : Nat}

/-- The rows of a vector that a scan selects, added to the positions selected before. -/
def getSelVectorForScan (v : VectorVersionInfo k) (startTS transactionID : Nat)
    (selVector : SelectionVector) (startRow numRows startOutputPos : Nat) : SelectionVector :=
  if v.deletionStatus = .noDeleted ∧ v.insertionStatus = .alwaysInserted then
    match selVector with
    | .unfiltered size => .unfiltered (size + numRows)
    | .filtered positions => .filtered (positions ++ List.range' startOutputPos numRows)
  else if v.insertionStatus ≠ .noInserted then
    .filtered (selVector.positions ++
      ((List.range numRows).filter fun i => v.isInserted startTS transactionID (startRow + i) &&
        !v.isDeleted startTS transactionID (startRow + i)).map (startOutputPos + ·))
  else selVector

/-- The insertion versions are not written. -/
def persisted (v : VectorVersionInfo k) : VectorVersionInfo k where
  insertionStatus := v.insertionStatus
  deletionStatus := v.deletionStatus
  sameDeletionVersion := match v.deletionStatus with
    | .noDeleted => invalidTransaction
    | .checkVersion => v.sameDeletionVersion
  deletedVersions := match v.deletionStatus with
    | .noDeleted => none
    | .checkVersion => if v.isSameDeletionVersion then none else v.deletedVersions

end VectorVersionInfo

/-- The vectors of one chunked node group; a vector is created when it is first
touched. -/
structure VersionInfo (k : Nat) where
  vectorsInfo : List (Option (VectorVersionInfo k)) := []

namespace VersionInfo

variable {k : Nat}

section

variable (vi : VersionInfo k)

def getVectorVersionInfo (vectorIdx : Nat) : Option (VectorVersionInfo k) :=
  slotAt vi.vectorsInfo vectorIdx

/-- A vector that is created holds no insertion. -/
def getOrCreateVersionInfo (vectorIdx : Nat) : VectorVersionInfo k :=
  (vi.getVectorVersionInfo vectorIdx).getD {}

/-- The loop that `append`, `commitInsert`, `rollbackInsert`, `commitDelete` and
`rollbackDelete` share: visit the vectors of a range of rows, creating those that are
missing, and give each one its first row and its number of rows. -/
def forEachVector (f : VectorVersionInfo k → Nat → Nat → VectorVersionInfo k)
    (vi : VersionInfo k) (startRow numRows : Nat) : VersionInfo k :=
  ⟨forParts (vectorCapacity k) (fun v s n => f (v.getD {}) s n) vi.vectorsInfo startRow numRows⟩

def append (transactionID startRow numRows : Nat) : VersionInfo k :=
  vi.forEachVector (fun v s n => v.append transactionID s n) startRow numRows

/-- A vector without insertions counts as inserted from its first deletion on. -/
def delete_ (transactionID rowIdx : Nat) : VersionInfo k × Except String Bool :=
  let vectorIdx := rowIdx / vectorCapacity k
  let v := vi.getOrCreateVersionInfo vectorIdx
  let v := if v.insertionStatus = .noInserted then { v with insertionStatus := .alwaysInserted }
    else v
  let r := v.delete_ transactionID (rowIdx % vectorCapacity k)
  (⟨putSlot vi.vectorsInfo vectorIdx r.1⟩, r.2)

/-- Every row of a vector without version information is selected. -/
def isSelected (startTS transactionID rowIdx : Nat) : Bool :=
  match vi.getVectorVersionInfo (rowIdx / vectorCapacity k) with
  | some v => v.isSelected startTS transactionID (rowIdx % vectorCapacity k)
  | none => true

def isDeleted (t : Snapshot) (rowInChunk : Nat) : Bool :=
  match vi.getVectorVersionInfo (rowInChunk / vectorCapacity k) with
  | some v => v.isDeleted t.startTS t.id (rowInChunk % vectorCapacity k)
  | none => false

def isInserted (t : Snapshot) (rowInChunk : Nat) : Bool :=
  match vi.getVectorVersionInfo (rowInChunk / vectorCapacity k) with
  | some v => v.isInserted t.startTS t.id (rowInChunk % vectorCapacity k)
  | none => true

/-- The loop over the vectors of the range; `outputPos` counts the rows before the vector. -/
def getSelVectorToScan (startTS transactionID startRow numRows : Nat) : SelectionVector :=
  if numRows = 0 then .unfiltered 0
  else
    let startVectorIdx := startRow / vectorCapacity k
    let endVectorIdx := (startRow + numRows - 1) / vectorCapacity k
    let visit := fun (state : SelectionVector × Nat) (vectorIdx : Nat) =>
      let startRowIdx := if vectorIdx = startVectorIdx then startRow % vectorCapacity k else 0
      let endRowIdx := if vectorIdx = endVectorIdx then (startRow + numRows - 1) % vectorCapacity k
        else vectorCapacity k - 1
      let numRowsInVector := endRowIdx - startRowIdx + 1
      let selVector := match vi.getVectorVersionInfo vectorIdx with
        | some v => v.getSelVectorForScan startTS transactionID state.1 startRowIdx numRowsInVector
            state.2
        | none =>
          match state.1 with
          | .unfiltered size => .unfiltered (size + numRowsInVector)
          | .filtered positions => .filtered (positions ++ List.range' state.2 numRowsInVector)
      (selVector, state.2 + numRowsInVector)
    ((List.range' startVectorIdx (endVectorIdx - startVectorIdx + 1)).foldl visit
      (.unfiltered 0, 0)).1

/-- The rows are counted vector by vector. -/
def getNumDeletions (t : Snapshot) (startRow numRows : Nat) : Nat :=
  if numRows = 0 then 0
  else ((blocksOf (vectorCapacity k) startRow numRows).map fun vectorIdx =>
    match vi.getVectorVersionInfo vectorIdx with
    | some v => v.getNumDeletions t.startTS t.id (blockStart (vectorCapacity k) startRow vectorIdx)
        (blockLen (vectorCapacity k) startRow numRows vectorIdx)
    | none => 0).sum

def persisted : VersionInfo k :=
  ⟨vi.vectorsInfo.map (·.map VectorVersionInfo.persisted)⟩

def commitInsert (startRow numRows commitTS : Nat) : VersionInfo k :=
  vi.forEachVector (fun v s n => v.setInsertCommitTS commitTS s n) startRow numRows

def rollbackInsert (startRow numRows : Nat) : VersionInfo k :=
  vi.forEachVector (fun v s n => v.rollbackInsertions s n) startRow numRows

def commitDelete (startRow numRows commitTS : Nat) : VersionInfo k :=
  vi.forEachVector (fun v s n => v.setDeleteCommitTS commitTS s n) startRow numRows

def rollbackDelete (startRow numRows : Nat) : VersionInfo k :=
  vi.forEachVector (fun v s n => v.rollbackDeletions s n) startRow numRows

end

end VersionInfo

end Lbug.Storage
