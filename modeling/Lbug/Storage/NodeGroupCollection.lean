/-
  Storage/NodeGroupCollection.lean --- appending to a table, and taking appends back.

  Source: `storage/table/node_group_collection.cpp`, `storage/table/node_group.cpp`
  (`append`, `rollbackInsert`), `storage/table/chunked_node_group.cpp` (`rollbackInsert`,
  `truncate`, `handleAppendException`), `storage/table/node_table.cpp`
  (`NodeTableVersionRecordHandler::rollbackInsert`), `storage/undo_buffer.cpp`,
  `include/storage/table/group_collection.h`.

  The rows of a table are in node groups.  Each append pushes one record for each node
  group it touches to the undo buffer of the transaction; a commit gives the rows of the
  records their timestamp, a rollback goes through the records backwards.  A node group
  keeps a cursor, `nextRowToAppend`, next to its number of rows.

  The capacities of chunked groups and of node groups are parameters, `cap` and `size`.
  The primary key index and statistics are not modelled.
-/
import Mathlib.Data.List.DropRight
import Lbug.Foundation.Transition
import Lbug.Storage.NodeGroup

namespace Lbug.Storage

open Foundation Transaction Function

universe u

variable {k : Nat} {V : Type u}

namespace ChunkedNodeGroup

def truncate (c : ChunkedNodeGroup k V) (numRows : Nat) : ChunkedNodeGroup k V :=
  { c with
    chunks := c.chunks.map fun chunk => { chunk with values := chunk.values.take numRows }
    numRows := numRows }

/-- `append` when a chunk throws, `handleAppendException`: no chunk keeps what it got. -/
def appendThrows (c : ChunkedNodeGroup k V) : ChunkedNodeGroup k V := c.truncate c.numRows

/-- The chunks are cut only if all rows are rolled back. -/
def rollbackInsert (c : ChunkedNodeGroup k V) (startRow numRows : Nat) : ChunkedNodeGroup k V :=
  if startRow = 0 then { c.truncate 0 with versionInfo := none }
  else if c.numRows ≤ startRow then c
  else { c with
    versionInfo := c.versionInfo.map (·.rollbackInsert startRow numRows)
    numRows := startRow }

end ChunkedNodeGroup

/-- The loop of `append` when a chunk throws after `rounds` chunked groups got their rows.
The number of rows of the node group is not raised. -/
def NodeGroup.appendThrowsLoop (cap numColumns transactionID : Nat) (columns : List (List V))
    (numRowsBefore numRowsToAppend : Nat) :
    Nat → List (ChunkedNodeGroup k V) → Nat → Option (List (ChunkedNodeGroup k V))
  | rounds, chunkedGroups, numRowsAppended =>
    let fresh := .create cap numColumns (numRowsBefore + numRowsAppended)
    let (before, last) := match chunkedGroups.getLast? with
      | none => (chunkedGroups, fresh)
      | some last => if last.isFullOrOnDisk then (chunkedGroups, fresh)
          else (chunkedGroups.dropLast, last)
    let n := min (numRowsToAppend - numRowsAppended) (cap - last.numRows)
    if numRowsAppended < numRowsToAppend then
      match rounds with
      | 0 => some (before ++ [last.appendThrows])
      | rounds + 1 => appendThrowsLoop cap numColumns transactionID columns numRowsBefore
          numRowsToAppend rounds (before ++ [last.append transactionID columns numRowsAppended n])
          (numRowsAppended + n)
    else none

def NodeGroup.appendThrows (cap : Nat) (g : NodeGroup k V) (transactionID : Nat)
    (columns : List (List V)) (numRowsToAppend rounds : Nat) : Option (NodeGroup k V) :=
  (appendThrowsLoop cap g.numColumns transactionID columns g.numRows numRowsToAppend rounds
    g.chunkedGroups 0).map fun chunkedGroups => { g with chunkedGroups := chunkedGroups }

/-- Remove the groups at the end that have no rows. -/
def NodeGroup.rollbackInsert (g : NodeGroup k V) (startRow : Nat) : NodeGroup k V :=
  { g with
    chunkedGroups := g.chunkedGroups.rdropWhile fun c => c.numRows = 0
    numRows := startRow }

/-- A node group of a collection, with its cursor. -/
structure AppendedGroup (k : Nat) (V : Type u) where
  nodeGroup : NodeGroup k V
  nextRowToAppend : Nat

/-- A record of the undo buffer. -/
structure InsertRecord where
  nodeGroupIdx : Nat
  startRow : Nat
  numRows : Nat
  deriving DecidableEq, Repr

structure NodeGroupCollection (k : Nat) (V : Type u) where
  numColumns : Nat
  nodeGroups : List (AppendedGroup k V)
  numTotalRows : Nat

namespace NodeGroupCollection

/-- The node groups before the one that takes the next rows, and that one: the last one,
or a new one if there is none or the last one is full. -/
def target (size : Nat) (numColumns : Nat) (groups : List (AppendedGroup k V)) :
    List (AppendedGroup k V) × AppendedGroup k V :=
  let fresh : AppendedGroup k V := ⟨⟨numColumns, 0, []⟩, 0⟩
  match groups.getLast? with
  | none => (groups, fresh)
  | some last => if last.nodeGroup.numRows = size then (groups, fresh) else (groups.dropLast, last)

/-- The node group that takes the next rows: a new one, or the last one if it is not full. -/
theorem target_cases {size numColumns : Nat} {groups before : List (AppendedGroup k V)}
    {last : AppendedGroup k V} (h : target size numColumns groups = (before, last)) :
    before = groups ∧ (∀ g ∈ groups.getLast?, g.nodeGroup.numRows = size) ∧
        last = ⟨⟨numColumns, 0, []⟩, 0⟩ ∨
      groups = before ++ [last] ∧ last.nodeGroup.numRows ≠ size := by
  unfold target at h
  cases hlast : groups.getLast? with
  | none =>
    rw [hlast] at h
    cases h
    exact .inl ⟨rfl, nofun, rfl⟩
  | some =>
    rw [hlast] at h
    dsimp only at h
    split_ifs at h with hfull
    · cases h
      exact .inl ⟨rfl, by rintro _ ⟨⟩; exact hfull, rfl⟩
    · cases h
      obtain ⟨_, rfl⟩ := List.getLast?_eq_some_iff.mp hlast
      rw [List.dropLast_concat]
      exact .inr ⟨rfl, hfull⟩

/-- The loop of `append`, with the records that are pushed.  A round that appends no row
changes nothing, so the loop never ends: the result is `none`. -/
def appendLoop (size cap numColumns transactionID : Nat) (columns : List (List V))
    (numRowsToAppend : Nat) (groups : List (AppendedGroup k V)) (numRowsAppended : Nat) :
    Option (List (AppendedGroup k V) × List InsertRecord) :=
  if _h : numRowsAppended < numRowsToAppend then
    let (before, last) := target size numColumns groups
    let n := min (numRowsToAppend - numRowsAppended) (size - last.nextRowToAppend)
    if _hn : 0 < n then
      (appendLoop size cap numColumns transactionID columns numRowsToAppend
        (before ++ [{ nodeGroup := last.nodeGroup.append cap transactionID
                        (columns.map fun column => column.drop numRowsAppended) n
                      nextRowToAppend := last.nextRowToAppend + n }])
        (numRowsAppended + n)).map fun r =>
          (r.1, ⟨before.length, last.nodeGroup.numRows, n⟩ :: r.2)
    else none
  else some (groups, [])
termination_by numRowsToAppend - numRowsAppended

def append (size cap : Nat) (c : NodeGroupCollection k V) (transactionID : Nat)
    (columns : List (List V)) (numRowsToAppend : Nat) :
    Option (NodeGroupCollection k V × List InsertRecord) :=
  (appendLoop size cap c.numColumns transactionID columns numRowsToAppend c.nodeGroups 0).map
    fun r => ({ c with nodeGroups := r.1, numTotalRows := c.numTotalRows + numRowsToAppend }, r.2)

/-- The loop of `append` when a chunk throws: `rounds` node groups got their rows, and the
next one has `chunkRounds` chunked groups that did.  Its cursor has moved, and its record
is pushed. -/
def appendThrowsLoop (size cap numColumns transactionID : Nat) (columns : List (List V))
    (numRowsToAppend chunkRounds : Nat) :
    Nat → List (AppendedGroup k V) → Nat → Option (List (AppendedGroup k V) × List InsertRecord)
  | rounds, groups, numRowsAppended =>
    let (before, last) := target size numColumns groups
    let n := min (numRowsToAppend - numRowsAppended) (size - last.nextRowToAppend)
    let columnsLeft := columns.map fun column => column.drop numRowsAppended
    let record := ⟨before.length, last.nodeGroup.numRows, n⟩
    match rounds with
    | 0 => (last.nodeGroup.appendThrows cap transactionID columnsLeft n chunkRounds).map
        fun nodeGroup => (before ++ [⟨nodeGroup, last.nextRowToAppend + n⟩], [record])
    | rounds + 1 =>
      (appendThrowsLoop size cap numColumns transactionID columns numRowsToAppend chunkRounds
        rounds (before ++ [⟨last.nodeGroup.append cap transactionID columnsLeft n,
          last.nextRowToAppend + n⟩]) (numRowsAppended + n)).map fun r => (r.1, record :: r.2)

def appendThrows (size cap : Nat) (c : NodeGroupCollection k V) (transactionID : Nat)
    (columns : List (List V)) (numRowsToAppend rounds chunkRounds : Nat) :
    Option (NodeGroupCollection k V × List InsertRecord) :=
  (appendThrowsLoop size cap c.numColumns transactionID columns numRowsToAppend chunkRounds rounds
    c.nodeGroups 0).map fun r => ({ c with
      nodeGroups := r.1, numTotalRows := c.numTotalRows + (r.2.map (·.numRows)).sum }, r.2)

/-- The commit of a record. -/
def commitInsert (cap commitTS : Nat) (c : NodeGroupCollection k V) (r : InsertRecord) :
    NodeGroupCollection k V :=
  { c with
    nodeGroups := c.nodeGroups.modify r.nodeGroupIdx fun g =>
      { g with
        nodeGroup := g.nodeGroup.applyFuncToChunkedGroups cap
          (ChunkedNodeGroup.commitInsert commitTS) r.startRow r.numRows } }

/-- The rollback of a record.  The difference of two row numbers is one of unsigned
numbers: if it is negative, the minimum is the number of rows of the record. -/
def rollbackInsert (cap : Nat) (c : NodeGroupCollection k V) (r : InsertRecord) :
    NodeGroupCollection k V :=
  match c.nodeGroups[r.nodeGroupIdx]? with
  | none => c
  | some g =>
    let nodeGroup := g.nodeGroup.applyFuncToChunkedGroups cap ChunkedNodeGroup.rollbackInsert
      r.startRow r.numRows
    let numRowsToRollback :=
      if r.startRow ≤ nodeGroup.numRows then min r.numRows (nodeGroup.numRows - r.startRow)
      else r.numRows
    { c with
      nodeGroups := (c.nodeGroups.set r.nodeGroupIdx
        { g with nodeGroup := nodeGroup.rollbackInsert r.startRow }).rdropWhile fun g =>
          g.nodeGroup.numRows = 0
      numTotalRows := c.numTotalRows - numRowsToRollback }

/-- The node group of an offset, and the row in it. -/
def lookup (size cap : Nat) (c : NodeGroupCollection k V) (t : Snapshot) (offset : Nat) :
    Option (List (Option V)) :=
  (c.nodeGroups[offset / size]?).bind fun g => g.nodeGroup.lookup cap t (offset % size)

end NodeGroupCollection

/-! ## Transactions -/

/-- A row as it was appended, and the number that its version has: the ID of the
transaction, or its commit timestamp. -/
@[ext] structure AppendedRow (V : Type u) where
  version : Nat
  values : List (Option V)
  deriving DecidableEq

/-- A table with the undo buffers of the transactions.  The rows that were appended and
not rolled back, with the offsets they got, are kept for the specification only. -/
structure AppendState (k : Nat) (V : Type u) where
  collection : NodeGroupCollection k V
  undoBuffer : Nat → List InsertRecord
  rows : List (Nat × AppendedRow V)

inductive AppendAction (V : Type u) where
  | append (transactionID : Nat) (columns : List (List V)) (numRows : Nat)
  | appendThrows (transactionID : Nat) (columns : List (List V)) (numRows rounds chunkRounds : Nat)
  | commit (transactionID commitTS : Nat)
  | rollback (transactionID : Nat)

/-- The offsets that a record stands for. -/
def InsertRecord.offsets (size : Nat) (r : InsertRecord) : List Nat :=
  List.range' (size * r.nodeGroupIdx + r.startRow) r.numRows

/-- The rows of an append. -/
def rowsOf (transactionID : Nat) (columns : List (List V)) (numRows : Nat) : List (AppendedRow V) :=
  (List.range numRows).map fun i => ⟨transactionID, columns.map (·[i]?)⟩

namespace AppendState

def init (numColumns : Nat) : AppendState k V where
  collection := ⟨numColumns, [], 0⟩
  undoBuffer := fun _ => []
  rows := []

/-- An append that does not return, and steps after it, do not exist. -/
def step (size cap : Nat) (s : AppendState k V) : AppendAction V → Option (AppendState k V)
  | .append transactionID columns numRows =>
    (s.collection.append size cap transactionID columns numRows).map fun r =>
      { collection := r.1
        undoBuffer := update s.undoBuffer transactionID
          (s.undoBuffer transactionID ++ r.2)
        rows := s.rows ++ (r.2.flatMap (·.offsets size)).zip
          (rowsOf transactionID columns numRows) }
  | .appendThrows transactionID columns numRows rounds chunkRounds =>
    (s.collection.appendThrows size cap transactionID columns numRows rounds chunkRounds).map
      fun r =>
        { collection := r.1
          undoBuffer := update s.undoBuffer transactionID (s.undoBuffer transactionID ++ r.2)
          -- the rows of the last record were not appended
          rows := s.rows ++ (r.2.dropLast.flatMap (·.offsets size)).zip
            (rowsOf transactionID columns numRows) }
  | .commit transactionID commitTS =>
    some
      { collection := (s.undoBuffer transactionID).foldl
          (fun c r => c.commitInsert cap commitTS r) s.collection
        undoBuffer := update s.undoBuffer transactionID []
        rows := s.rows.map fun x =>
          (x.1, if x.2.version = transactionID then { x.2 with version := commitTS } else x.2) }
  | .rollback transactionID =>
    some
      { collection := (s.undoBuffer transactionID).foldr
          (fun r c => c.rollbackInsert cap r) s.collection
        undoBuffer := update s.undoBuffer transactionID []
        rows := s.rows.filter fun x => x.2.version ≠ transactionID }

end AppendState

end Lbug.Storage
