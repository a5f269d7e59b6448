/-
  Storage/NodeGroup.lean --- node groups.

  Source: `storage/table/node_group.cpp`, `storage/table/chunked_node_group.cpp`.

  The rows of a node group are stored in chunked groups: at most one on disk, which comes
  first, and chunked groups in memory that take the rows appended since the last
  checkpoint.  A chunked group has a chunk for each column and the versions of its rows.
  `NodeGroup.checkpoint` replaces all of them by one chunked group on disk.

  The capacity of a chunked group in memory (`CHUNKED_NODE_GROUP_CAPACITY`) is a
  parameter, `cap`.  All columns of the table take part in a checkpoint; dropping columns,
  zone maps, semi masks and the compression of a chunk are not modelled.
-/
import Lbug.Foundation.Segments
import Lbug.Storage.ColumnChunk

namespace Lbug.Storage

open Foundation Transaction

universe u

inductive ResidencyState
  | inMemory
  | onDisk
  deriving DecidableEq, Repr

structure ChunkedNodeGroup (k : Nat) (V : Type u) where
  residencyState : ResidencyState
  startRowIdx : Nat
  capacity : Nat
  numRows : Nat
  chunks : List (ColumnChunk k V)
  versionInfo : Option (VersionInfo k)

namespace ChunkedNodeGroup

variable {k : Nat} {V : Type u}

section

variable (c : ChunkedNodeGroup k V) (t : Snapshot)

def isFullOrOnDisk : Bool :=
  c.numRows == c.capacity || c.residencyState == .onDisk

def isDeleted (row : Nat) : Bool :=
  match c.versionInfo with
  | none => false
  | some vi => vi.isDeleted t row

def isSelected (row : Nat) : Bool :=
  match c.versionInfo with
  | none => true
  | some vi => vi.isSelected t.startTS t.id row

/-- The values of a row, whether it is visible or not. -/
def readRow (row : Nat) : List (Option V) :=
  c.chunks.map (·.lookup t row)

def lookup (row : Nat) : Option (List (Option V)) :=
  if c.isSelected t row then some (c.readRow t row) else none

/-- The selection vector of a scan. -/
def selVectorToScan (startRow numRows : Nat) : SelectionVector :=
  match c.versionInfo with
  | none => .unfiltered numRows
  | some vi => vi.getSelVectorToScan t.startTS t.id startRow numRows

/-- The selected rows of a range, with their numbers in the node group. -/
def scan (startRow numRows : Nat) : List (Nat × List (Option V)) :=
  (c.selVectorToScan t startRow numRows).positions.map fun i =>
    (c.startRowIdx + startRow + i, c.chunks.map fun chunk => (chunk.scan t startRow numRows)[i]?)

/-- All scans of a chunked group from a row on, each of at most one vector of rows. -/
def scanFrom (row : Nat) : List (Nat × List (Option V)) :=
  if _h : row < c.numRows then
    let numRows := min (c.numRows - row) (vectorCapacity k)
    c.scan t row numRows ++ scanFrom (row + numRows)
  else []
termination_by c.numRows - row
decreasing_by
  have := vectorCapacity_pos k
  omega

/-- A new chunked group in memory. -/
def create (capacity numColumns startRowIdx : Nat) : ChunkedNodeGroup k V where
  residencyState := .inMemory
  startRowIdx := startRowIdx
  capacity := capacity
  numRows := 0
  chunks := List.replicate numColumns { values := [] }
  versionInfo := none

/-- Append the rows `[offset, offset + numRows)` of the columns. -/
def append (transactionID : Nat) (columns : List (List V))
    (offset numRows : Nat) : ChunkedNodeGroup k V :=
  { c with
    chunks := c.chunks.zipWith (fun chunk column =>
      { chunk with values := chunk.values ++ (column.drop offset).take numRows }) columns
    versionInfo := if transactionID = dummyTransactionID then c.versionInfo
      else some ((c.versionInfo.getD {}).append transactionID c.numRows numRows)
    numRows := c.numRows + numRows }

def delete_ (transactionID row : Nat) : ChunkedNodeGroup k V × Except String Bool :=
  let r := (c.versionInfo.getD {}).delete_ transactionID row
  ({ c with versionInfo := some r.1 }, r.2)

def commitInsert (commitTS : Nat) (c : ChunkedNodeGroup k V) (startRow numRows : Nat) :
    ChunkedNodeGroup k V :=
  { c with versionInfo := c.versionInfo.map (·.commitInsert startRow numRows commitTS) }

def commitDelete (commitTS : Nat) (c : ChunkedNodeGroup k V) (startRow numRows : Nat) :
    ChunkedNodeGroup k V :=
  { c with versionInfo := c.versionInfo.map (·.commitDelete startRow numRows commitTS) }

end

/-- An empty chunked group on disk. -/
def flushEmpty (capacity numColumns startRowIdx : Nat) : ChunkedNodeGroup k V :=
  { create capacity numColumns startRowIdx with residencyState := .onDisk }

/-- A chunked group on disk with the given chunks. -/
def persistent (startRowIdx : Nat) (chunks : List (ColumnChunk k V))
    (versionInfo : Option (VersionInfo k)) : ChunkedNodeGroup k V :=
  let numRows := (chunks.head?.map (·.values.length)).getD 0
  { residencyState := .onDisk, startRowIdx, capacity := numRows, numRows, chunks, versionInfo }

end ChunkedNodeGroup

structure NodeGroup (k : Nat) (V : Type u) where
  numColumns : Nat
  numRows : Nat
  chunkedGroups : List (ChunkedNodeGroup k V)

namespace NodeGroup

variable {k : Nat} {V : Type u} (cap : Nat) (g : NodeGroup k V) (t : Snapshot)

/-- `findChunkedGroupIdxFromRowIdxNoLock`; `none` is `INVALID_CHUNKED_GROUP_IDX`. -/
def findChunkedGroupIdxFromRowIdx (rowIdx : Nat) : Option (Nat × Nat) :=
  match g.chunkedGroups with
  | [] => none
  | first :: _ =>
    if rowIdx < first.startRowIdx then none
    else
      let rowIdx := rowIdx - first.startRowIdx
      if rowIdx < first.numRows then some (0, rowIdx)
      else
        let rowIdx := rowIdx - first.numRows
        let chunkedGroupIdx := rowIdx / cap + 1
        if g.chunkedGroups.length ≤ chunkedGroupIdx then none
        else some (chunkedGroupIdx, rowIdx % cap)

/-- The chunked group of a row, and its index. -/
def findChunkedGroupFromRowIdx (rowIdx : Nat) : Option (Nat × ChunkedNodeGroup k V) :=
  (g.findChunkedGroupIdxFromRowIdx cap rowIdx).bind fun p =>
    g.chunkedGroups[p.1]?.map fun c => (p.1, c)

def lookup (rowIdx : Nat) : Option (List (Option V)) :=
  (g.findChunkedGroupFromRowIdx cap rowIdx).bind fun p => p.2.lookup t (rowIdx - p.2.startRowIdx)

/-- All scans of the node group. -/
def scan : List (Nat × List (Option V)) :=
  g.chunkedGroups.flatMap fun c => c.scanFrom t 0

/-- The loop of `append`: fill the last chunked group, opening new ones as needed, until
`numRowsToAppend` rows are appended.  The guard `0 < n` holds whenever a chunked group
that is not full has room. -/
def appendLoop (cap numColumns transactionID : Nat) (columns : List (List V))
    (numRowsBefore numRowsToAppend : Nat) (chunkedGroups : List (ChunkedNodeGroup k V))
    (numRowsAppended : Nat) : List (ChunkedNodeGroup k V) :=
  if _h : numRowsAppended < numRowsToAppend then
    let fresh := .create cap numColumns (numRowsBefore + numRowsAppended)
    let (before, last) := match chunkedGroups.getLast? with
      | none => (chunkedGroups, fresh)
      | some last => if last.isFullOrOnDisk then (chunkedGroups, fresh)
          else (chunkedGroups.dropLast, last)
    let n := min (numRowsToAppend - numRowsAppended) (cap - last.numRows)
    if _hn : 0 < n then
      appendLoop cap numColumns transactionID columns numRowsBefore numRowsToAppend
        (before ++ [last.append transactionID columns numRowsAppended n]) (numRowsAppended + n)
    else before ++ [last]
  else chunkedGroups
termination_by numRowsToAppend - numRowsAppended

def append (transactionID : Nat) (columns : List (List V))
    (numRowsToAppend : Nat) : NodeGroup k V :=
  let chunkedGroups := if g.chunkedGroups.isEmpty then [.create cap g.numColumns 0]
    else g.chunkedGroups
  { g with
    chunkedGroups := appendLoop cap g.numColumns transactionID columns g.numRows numRowsToAppend
      chunkedGroups 0
    numRows := g.numRows + numRowsToAppend }

/-- `delete_` of a row that exists. -/
def delete_ (transactionID rowIdx : Nat) : Option (NodeGroup k V × Except String Bool) :=
  (g.findChunkedGroupFromRowIdx cap rowIdx).map fun (i, c) =>
    let r := c.delete_ transactionID (rowIdx - c.startRowIdx)
    ({ g with chunkedGroups := g.chunkedGroups.set i r.1 }, r.2)

/-- The loop of `applyFuncToChunkedGroups`. -/
def applyLoop (f : ChunkedNodeGroup k V → Nat → Nat → ChunkedNodeGroup k V) :
    List (ChunkedNodeGroup k V) → Nat → Nat → List (ChunkedNodeGroup k V)
  | [], _, _ => []
  | c :: rest, startRow, numRowsLeft =>
    if numRowsLeft = 0 then c :: rest
    else
      let n := min numRowsLeft (c.numRows - startRow)
      f c startRow n :: applyLoop f rest 0 (numRowsLeft - n)

def applyFuncToChunkedGroups
    (f : ChunkedNodeGroup k V → Nat → Nat → ChunkedNodeGroup k V) (startRow numRows : Nat) :
    NodeGroup k V :=
  match g.findChunkedGroupIdxFromRowIdx cap startRow with
  | none => g
  | some (i, row) =>
    { g with chunkedGroups :=
        g.chunkedGroups.take i ++ applyLoop f (g.chunkedGroups.drop i) row numRows }

/-! ## The checkpoint of a node group -/

/-- The deletions of one chunked group that the checkpoint sees; its rows start at
`currRow`. -/
def checkpointDeletions (c : ChunkedNodeGroup k V) (currRow : Nat) (vi : VersionInfo k) :
    VersionInfo k :=
  if c.versionInfo.isSome then
    (List.range c.numRows).foldl
      (fun vi i => if c.isDeleted t i then (vi.delete_ t.id (currRow + i)).1 else vi) vi
  else vi

/-- The loop of `checkpointVersionInfo`. -/
def checkpointVersionInfoFrom : List (ChunkedNodeGroup k V) → Nat → VersionInfo k → VersionInfo k
  | [], _, vi => vi
  | c :: rest, currRow, vi =>
    checkpointVersionInfoFrom rest (currRow + c.numRows) (checkpointDeletions t c currRow vi)

def checkpointVersionInfo : VersionInfo k :=
  checkpointVersionInfoFrom t g.chunkedGroups 0 {}

/-- The chunked groups in memory. -/
def resident : List (ChunkedNodeGroup k V) :=
  g.chunkedGroups.filter fun c => c.residencyState = .inMemory

/-- One column of `scanAllInsertedAndVersions`: the rows in memory, whoever inserted
them, with the values that the checkpoint sees. -/
def scanAllInserted (column : Nat) : List V :=
  (g.resident.flatMap fun c => (c.chunks[column]?.map (·.scanCommitted t)).getD []).take
    (g.resident.map (·.numRows)).sum

def checkpointInMemAndOnDisk (first : ChunkedNodeGroup k V) (vi : VersionInfo k) :
    ChunkedNodeGroup k V :=
  .persistent first.startRowIdx
    (first.chunks.mapIdx fun column chunk => chunk.checkpoint t (g.scanAllInserted t column))
    (some vi)

def checkpointInMemOnly (vi : VersionInfo k) : ChunkedNodeGroup k V :=
  .persistent 0
    ((List.range g.numColumns).map fun column => { values := g.scanAllInserted t column })
    (some vi)

/-- `checkpoint`; an empty group or one whose rows are all deleted is replaced by an
empty chunked group that starts behind them. -/
def checkpoint : NodeGroup k V :=
  match g.chunkedGroups with
  | [] => g
  | first :: _ =>
    let vi := g.checkpointVersionInfo t
    let checkpointed :=
      if vi.getNumDeletions t 0 g.numRows = g.numRows - first.startRowIdx then
        .flushEmpty cap g.numColumns g.numRows
      else if first.residencyState = .onDisk then g.checkpointInMemAndOnDisk t first vi
      else g.checkpointInMemOnly t vi
    { g with chunkedGroups := [checkpointed] }

end NodeGroup

/-- The transaction of a checkpoint at a snapshot; at timestamp 0 it is the one that sees
all commits. -/
def checkpointTransaction (snapshotTS : Nat) : Snapshot :=
  if 0 < snapshotTS then { id := dummyTransactionID, startTS := snapshotTS }
  else { id := dummyTransactionID, startTS := startTransactionID - 1 }

end Lbug.Storage
