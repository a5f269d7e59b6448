/-
  Storage/CSRIndex.lean --- the rows in memory of a CSR node group and their index.

  Source: `storage/table/csr_node_group.cpp` (`appendChunkedCSRGroup`, `append`,
  `updateCSRIndex`, `scanCommittedInMem`), `include/storage/table/csr_node_group.h`
  (`NodeCSRIndex`), `storage/table/rel_table_data.cpp` (`pushInsertInfo`,
  `InMemoryVersionRecordHandler::rollbackInsert`), `storage/table/rel_table.cpp`
  (`commit`, `prepareCommitForNodeGroup`).

  Relationships that are not checkpointed yet are appended to a node group in the order of
  their inserts, and an index lists the rows of each bound node.  The index of a bound
  node is a start and a length as long as its rows follow each other, and a sorted list of
  rows otherwise.  A rollback takes rows off the node group and leaves the index as it is.

  One node group is modelled.  The collection removes node groups without rows in memory
  from its end when an insert is rolled back; whether all node groups behind this one are
  empty by then is an argument of the rollback.
-/
import Mathlib.Data.List.Sort
import Lbug.Storage.NodeGroupCollection

namespace Lbug.Storage

open Foundation Transaction Function

universe u

variable {k : Nat} {V : Type u}

/-- If `isSequential`, the row indices are the first row and the number of rows. -/
structure NodeCSRIndex where
  isSequential : Bool := false
  rowIndices : List Nat := []
  deriving DecidableEq, Repr

namespace NodeCSRIndex

def startRow (i : NodeCSRIndex) : Nat := (i.rowIndices[0]?).getD 0

def length (i : NodeCSRIndex) : Nat := (i.rowIndices[1]?).getD 0

def getRows (i : NodeCSRIndex) : List Nat :=
  if i.isSequential then List.range' i.startRow i.length else i.rowIndices

/-- `updateCSRIndex` for one bound node. -/
def update (i : NodeCSRIndex) (startRow length : Nat) : NodeCSRIndex :=
  let isEmptyCSR := i.rowIndices.isEmpty
  let appendToEndOfCSR := !isEmptyCSR && i.isSequential && i.startRow + i.length == startRow
  let sequential := isEmptyCSR || appendToEndOfCSR
  let rowIndices :=
    if i.isSequential && !sequential then List.range' i.startRow i.length else i.rowIndices
  if sequential then
    { isSequential := true
      rowIndices :=
        if rowIndices.isEmpty then [startRow, length] else [i.startRow, i.length + length] }
  else
    { isSequential := false
      rowIndices := (rowIndices ++ List.range' startRow length).insertionSort (· ≤ ·) }

end NodeCSRIndex

/-- The rows in memory of a CSR node group; `csrIndex` is created with the first rows. -/
structure CSRNodeGroup (k : Nat) (V : Type u) where
  nodeGroup : NodeGroup k V
  csrIndex : Option (Nat → NodeCSRIndex)

namespace CSRNodeGroup

variable (cap : Nat) (g : CSRNodeGroup k V)

def create (numColumns : Nat) : CSRNodeGroup k V := ⟨⟨numColumns, 0, []⟩, none⟩

def updateCSRIndex (index : Nat → NodeCSRIndex) (boundOffset startRow length : Nat) :
    Nat → NodeCSRIndex :=
  update index boundOffset ((index boundOffset).update startRow length)

/-- Append one row. -/
def append (transactionID boundOffset : Nat) (row : List V) : CSRNodeGroup k V :=
  { nodeGroup := g.nodeGroup.append cap transactionID (row.map fun value => [value]) 1
    csrIndex := some (updateCSRIndex (g.csrIndex.getD fun _ => {}) boundOffset
      g.nodeGroup.numRows 1) }

/-- `prepareCommitForNodeGroup`. -/
def appendRows (transactionID boundOffset : Nat) (rows : List (List V)) : CSRNodeGroup k V :=
  rows.foldl (fun g row => g.append cap transactionID boundOffset row) g

/-- The index of bound node `i` and of those behind it gets the next rows. -/
def updateLoop (index : Nat → NodeCSRIndex) (i startRow : Nat) : List Nat → Nat → NodeCSRIndex
  | [] => index
  | length :: lengths =>
    updateLoop (updateCSRIndex index i startRow length) (i + 1) (startRow + length) lengths

def appendChunkedCSRGroup (transactionID : Nat)
    (lengths : List Nat) (columns : List (List V)) : CSRNodeGroup k V :=
  { nodeGroup := g.nodeGroup.append cap transactionID columns lengths.sum
    csrIndex := some (updateLoop (g.csrIndex.getD fun _ => {}) 0 g.nodeGroup.numRows lengths) }

/-- The rows of a bound node, by the index. -/
def rowsOfNode (boundOffset : Nat) : List Nat :=
  (g.csrIndex.map fun index => (index boundOffset).getRows).getD []

/-- The rows in memory that a scan of a bound node reads. -/
def scanCommittedInMem (t : Snapshot) (boundOffset : Nat) : List (List (Option V)) :=
  (g.rowsOfNode boundOffset).filterMap fun row => g.nodeGroup.lookup cap t row

def commitInsert (cap commitTS : Nat) (g : CSRNodeGroup k V) (r : InsertRecord) :
    CSRNodeGroup k V :=
  { g with
    nodeGroup := g.nodeGroup.applyFuncToChunkedGroups cap
      (ChunkedNodeGroup.commitInsert commitTS) r.startRow r.numRows }

def rollbackInsert (r : InsertRecord) : CSRNodeGroup k V :=
  { g with
    nodeGroup := (g.nodeGroup.applyFuncToChunkedGroups cap ChunkedNodeGroup.rollbackInsert
      r.startRow r.numRows).rollbackInsert r.startRow }

end CSRNodeGroup

/-! ## Transactions -/

/-- A node group with the records of the undo buffers that are about it.  The rows that
are stored, each with its bound node, are kept for the specification only. -/
structure CSRState (k : Nat) (V : Type u) where
  numColumns : Nat
  nodeGroupIdx : Nat
  group : Option (CSRNodeGroup k V)
  undoBuffer : Nat → List InsertRecord
  rows : List (Nat × AppendedRow V)

inductive CSRAction (V : Type u) where
  /-- the rows of one bound node, when a transaction commits its local storage -/
  | insert (transactionID boundOffset : Nat) (rows : List (List V))
  /-- `COPY` to a node group that has rows: the number of rows of each bound node -/
  | copy (transactionID : Nat) (lengths : List Nat) (columns : List (List V))
  | commit (transactionID commitTS : Nat)
  /-- `trailing`: the node groups behind have no rows -/
  | rollback (transactionID : Nat) (trailing : Bool)

namespace CSRState

def init (numColumns nodeGroupIdx : Nat) : CSRState k V where
  numColumns := numColumns
  nodeGroupIdx := nodeGroupIdx
  group := none
  undoBuffer := fun _ => []
  rows := []

/-- `getOrCreateNodeGroup`. -/
def getOrCreate (s : CSRState k V) : CSRNodeGroup k V := s.group.getD (.create s.numColumns)

/-- The insert info is pushed before the rows are appended. -/
def pushInsertInfo (s : CSRState k V) (transactionID numRows : Nat) : Nat → List InsertRecord :=
  update s.undoBuffer transactionID (s.undoBuffer transactionID ++
    [⟨s.nodeGroupIdx, s.getOrCreate.nodeGroup.numRows, numRows⟩])

/-- The bound nodes of the rows of a `COPY`. -/
def boundsOf (i : Nat) : List Nat → List Nat
  | [] => []
  | length :: lengths => List.replicate length i ++ boundsOf (i + 1) lengths

def step (cap : Nat) (s : CSRState k V) : CSRAction V → CSRState k V
  | .insert transactionID boundOffset rows =>
    { s with
      group := some (s.getOrCreate.appendRows cap transactionID boundOffset rows)
      undoBuffer := s.pushInsertInfo transactionID rows.length
      rows := s.rows ++ rows.map fun row => (boundOffset, ⟨transactionID, row.map some⟩) }
  | .copy transactionID lengths columns =>
    { s with
      group := some (s.getOrCreate.appendChunkedCSRGroup cap transactionID lengths columns)
      undoBuffer := s.pushInsertInfo transactionID lengths.sum
      rows := s.rows ++ (boundsOf 0 lengths).zip (rowsOf transactionID columns lengths.sum) }
  | .commit transactionID commitTS =>
    { s with
      group := s.group.map fun g =>
        (s.undoBuffer transactionID).foldl (fun g r => g.commitInsert cap commitTS r) g
      undoBuffer := update s.undoBuffer transactionID []
      rows := s.rows.map fun x =>
        (x.1, if x.2.version = transactionID then { x.2 with version := commitTS } else x.2) }
  | .rollback transactionID trailing =>
    let group := s.group.map fun g =>
      (s.undoBuffer transactionID).foldr (fun r g => g.rollbackInsert cap r) g
    let numRows := (group.map fun g => g.nodeGroup.numRows).getD 0
    { s with
      group := if numRows = 0 ∧ trailing then none else group
      undoBuffer := update s.undoBuffer transactionID []
      rows := s.rows.take numRows }

end CSRState

end Lbug.Storage
