/-
  Storage/NodeTable.lean --- checkpoints of a node table.

  Source: `storage/table/node_table.cpp` (`lookup`, `checkpoint`),
  `storage/table/node_group_collection.cpp` (`checkpoint`).

  A node table is a sequence of node groups; a node offset is the group and the row in it.
  A checkpoint replaces all node groups, or none of them if the table has not changed
  since the last checkpoint.  Transactions that are active meanwhile go on with the node
  groups that the checkpoint wrote: `lookup_and_scan_checkpoint_iff` says for which of
  them nothing changes.

  The number of rows of a node group (`NODE_GROUP_SIZE`) is a parameter, `size`.  Rows in
  the local storage of a transaction and the indexes of the table are not modelled.
-/
import Lbug.Storage.NodeGroupCheckpoint

namespace Lbug.Storage

open Foundation Transaction List

universe u

structure NodeTable (k : Nat) (V : Type u) where
  nodeGroups : List (NodeGroup k V)
  changeEpoch : Nat
  lastCheckpointedEpoch : Nat

namespace NodeTable

variable {k : Nat} {V : Type u} (cap size : Nat) (table : NodeTable k V) (t : Snapshot)

def lookup (nodeOffset : Nat) : Option (List (Option V)) :=
  table.nodeGroups[nodeOffset / size]?.bind fun g => g.lookup cap t (nodeOffset % size)

/-- The scans of all node groups. -/
def scan : List (List (Nat × List (Option V))) :=
  table.nodeGroups.map (·.scan t)

/-- The epoch that the checkpoint brings to disk: the one captured before writers are let
in again, or the current one if none was captured. -/
def effectiveEpoch (epochWatermark : Nat) : Nat :=
  if 0 < epochWatermark then epochWatermark else table.changeEpoch

def checkpoint (epochWatermark : Nat) : NodeTable k V × Bool :=
  if table.effectiveEpoch epochWatermark ≤ table.lastCheckpointedEpoch then (table, false)
  else
    ({ table with
      nodeGroups := table.nodeGroups.map (·.checkpoint cap t)
      lastCheckpointedEpoch := table.effectiveEpoch epochWatermark }, true)

structure WellFormed : Prop where
  cap_pos : 0 < cap
  size_pos : 0 < size
  groups : ∀ g ∈ table.nodeGroups, g.WellFormed cap
  rows : ∀ g ∈ table.nodeGroups, g.numRows ≤ size

/-- The table has a row with this node offset. -/
def HasRow (nodeOffset : Nat) : Prop :=
  ∃ g, table.nodeGroups[nodeOffset / size]? = some g ∧ nodeOffset % size < g.numRows

end NodeTable

/-! ## The transaction of a checkpoint -/

theorem checkpointTransaction_id (snapshotTS : Nat) :
    (checkpointTransaction snapshotTS).id = dummyTransactionID := by
  rw [checkpointTransaction]
  split <;> rfl

theorem checkpointTransaction_inRange {snapshotTS : Nat} (h : snapshotTS < invalidTransaction) :
    (checkpointTransaction snapshotTS).InRange := by
  rw [checkpointTransaction]
  split
  · exact ⟨(by decide : dummyTransactionID ≠ invalidTransaction), h⟩
  · exact ⟨by decide, by decide⟩

namespace NodeTable

variable {k : Nat} {V : Type u} {cap size : Nat} {table : NodeTable k V}

/-- The lookups of a table are those of its node groups. -/
theorem WellFormed.lookup_eq_iff (h : table.WellFormed cap size) (T : Snapshot)
    (f : NodeGroup k V → NodeGroup k V) (lastCheckpointedEpoch : Nat) :
    (∀ nodeOffset, table.HasRow size nodeOffset →
      ({ table with nodeGroups := table.nodeGroups.map f, lastCheckpointedEpoch } :
        NodeTable k V).lookup cap size T nodeOffset = table.lookup cap size T nodeOffset) ↔
      ∀ g ∈ table.nodeGroups, ∀ row < g.numRows, (f g).lookup cap T row = g.lookup cap T row := by
  have hread : ∀ {nodeOffset : Nat} {g : NodeGroup k V},
      table.nodeGroups[nodeOffset / size]? = some g →
      (({ table with nodeGroups := table.nodeGroups.map f, lastCheckpointedEpoch } :
        NodeTable k V).lookup cap size T nodeOffset = table.lookup cap size T nodeOffset ↔
      (f g).lookup cap T (nodeOffset % size) = g.lookup cap T (nodeOffset % size)) := by
    intro nodeOffset g hg
    rw [lookup, lookup, getElem?_map, hg]
    rfl
  constructor
  · intro hsame g hg row hrow
    obtain ⟨i, hi⟩ := mem_iff_getElem?.mp hg
    have hlt : row < size := Nat.lt_of_lt_of_le hrow (h.rows g hg)
    have hdiv : (size * i + row) / size = i := by
      rw [Nat.mul_add_div h.size_pos, Nat.div_eq_of_lt hlt, Nat.add_zero]
    have hmod : (size * i + row) % size = row := by
      rw [Nat.mul_add_mod, Nat.mod_eq_of_lt hlt]
    have hgroup : table.nodeGroups[(size * i + row) / size]? = some g := by rw [hdiv, hi]
    have := (hread hgroup).mp (hsame _ ⟨g, hgroup, by rwa [hmod]⟩)
    rwa [hmod] at this
  · rintro hsame nodeOffset ⟨g, hg, hrow⟩
    exact (hread hg).mpr (hsame g (mem_of_getElem? hg) _ hrow)

/-- Two rows with the values 10 and 20, inserted by a transaction that committed at
timestamp 1. -/
def twoRows : NodeGroup 1 Nat :=
  let empty : NodeGroup 1 Nat := { numColumns := 1, numRows := 0, chunkedGroups := [] }
  (empty.append 2 startTransactionID [[10, 20]] 2).applyFuncToChunkedGroups 2
    (ChunkedNodeGroup.commitInsert 1) 0 2

/-- A transaction that committed at timestamp 2 has deleted the first row. -/
def firstRowDeleted : NodeTable 1 Nat where
  nodeGroups := (twoRows.delete_ 2 (startTransactionID + 1) 0).toList.map fun r =>
    r.1.applyFuncToChunkedGroups 2 (ChunkedNodeGroup.commitDelete 2) 0 1
  changeEpoch := 2
  lastCheckpointedEpoch := 0

/-- It has one chunked group in memory, with the two values. -/
theorem shape_firstRowDeleted : ∀ g ∈ firstRowDeleted.nodeGroups, g.numColumns = 1 ∧
      g.numRows = 2 ∧ g.chunkedGroups.length = 1 ∧ ∀ c ∈ g.chunkedGroups,
        c.startRowIdx = 0 ∧ c.numRows = 2 ∧ c.chunks.map (·.values) = [[10, 20]] := by
  decide +kernel

theorem wellFormed_firstRowDeleted : firstRowDeleted.WellFormed 2 4 where
  cap_pos := by decide
  size_pos := by decide
  groups := by
    intro g hg
    obtain ⟨hcolumns, hnum, hlength, hc⟩ := shape_firstRowDeleted g hg
    obtain ⟨c, hgroups⟩ := length_eq_one_iff.mp hlength
    obtain ⟨hstart, hrows, hvalues⟩ := hc c (hgroups ▸ mem_singleton_self c)
    have hwell : c.WellFormed 1 := by
      refine ⟨by simpa using congrArg length hvalues, fun chunk hchunk => ?_⟩
      have hmem := mem_map_of_mem (f := (·.values)) hchunk
      rw [hvalues, mem_singleton] at hmem
      rw [hmem, hrows]
      rfl
    obtain ⟨_, _, _⟩ := g
    subst hcolumns hnum hgroups
    exact NodeGroup.wellFormed_singleton Nat.one_pos hwell
      (fun _ => hstart) (by rw [hstart, hrows])
  rows := by decide +kernel

/-- A reader that began before the row was deleted, and one that began after it. -/
def oldReader : Snapshot := ⟨startTransactionID + 2, 1⟩

def newReader : Snapshot := ⟨startTransactionID + 3, 2⟩

end NodeTable

end Lbug.Storage
