/-
  Storage/NodeGroupCheckpoint.lean --- what a checkpoint does to the rows of a node group.

  The checkpoint writes one chunked group: all rows that are in the node group, whoever
  inserted them, with the values at the snapshot, and the rows deleted at the snapshot
  marked as deleted (`WellFormed.lookup_checkpoint`).  Versions and updates after the
  snapshot are dropped with the old chunked groups, so a transaction sees the same as
  before exactly if it saw the rows not deleted at the snapshot, with the values at the
  snapshot.  A column is found by its position, so none was dropped since the last
  checkpoint.
-/
import Lbug.Foundation.Indices
import Lbug.Storage.NodeGroupView

namespace Lbug.Storage

open Foundation Transaction VectorVersionInfo List Option

universe u

variable {k : Nat} {V : Type u}

/-! ## The versions of a chunked group on disk -/

/-- Nothing but deletions: every vector that exists counts as inserted. -/
structure VersionInfo.Persistent (vi : VersionInfo k) (del : Nat → Nat) : Prop where
  deletes : vi.Deletes del
  inserted : ∀ b v, vi.getVectorVersionInfo b = some v → v.insertionStatus = .alwaysInserted

namespace VersionInfo

variable {vi : VersionInfo k} {del : Nat → Nat}

theorem insertionStatus_of_fields {v w : VectorVersionInfo k}
    (h : v.insertionFields = w.insertionFields) : v.insertionStatus = w.insertionStatus :=
  congrArg Prod.fst h

theorem persistent_empty : ({} : VersionInfo k).Persistent fun _ => invalidTransaction where
  deletes := deletes_empty
  inserted := by
    intro b v hv
    simp [getVectorVersionInfo] at hv

theorem Persistent.delete_ (h : vi.Persistent del) {transactionID : Nat}
    (hid : transactionID ≠ invalidTransaction) (row : Nat) :
    (vi.delete_ transactionID row).1.Persistent
      (Function.update del row (deletionAfter transactionID (del row))) where
  deletes := (h.deletes.delete_ hid row).1
  inserted := by
    intro b v hv
    rw [getVector_delete_] at hv
    split at hv
    · cases hv
      have hstatus : (vi.getOrCreateVersionInfo b).insertionStatus = .noInserted ∨
          (vi.getOrCreateVersionInfo b).insertionStatus = .alwaysInserted := by
        rw [getOrCreateVersionInfo]
        cases hb : vi.getVectorVersionInfo b with
        | none => exact .inl rfl
        | some w => exact .inr (h.inserted b w hb)
      rw [insertionStatus_of_fields (delete_insertionFields ?_ hid _)]
      · split_ifs with hne
        · rfl
        · exact hstatus.resolve_left hne
      · split <;> exact (h.deletes b).same
    · exact h.inserted b v hv

theorem isSelected_eq (vi : VersionInfo k) (t : Snapshot) (row : Nat) :
    vi.isSelected t.startTS t.id row = (vi.isInserted t row && !vi.isDeleted t row) := by
  unfold isSelected isInserted isDeleted
  cases vi.getVectorVersionInfo (row / vectorCapacity k) with
  | none => rfl
  | some v => exact v.isSelected_eq _ _ _

theorem Persistent.isSelected (h : vi.Persistent del) {t : Snapshot} (ht : t.InRange) (row : Nat) :
    vi.isSelected t.startTS t.id row = !visible t.startTS t.id (del row) := by
  have hinserted : vi.isInserted t row = true := by
    unfold isInserted
    cases hv : vi.getVectorVersionInfo (row / vectorCapacity k) with
    | none => rfl
    | some v => simp [VectorVersionInfo.isInserted, h.inserted _ v hv]
  rw [isSelected_eq, hinserted, h.deletes.isDeleted ht, Bool.true_and]

end VersionInfo

namespace NodeGroup

/-! ## The deletions that the checkpoint keeps -/

/-- The deletion versions that the checkpoint writes: those of the rows that are deleted
at its snapshot, with its own ID. -/
def deletionsAt (deleted : List Bool) (row : Nat) : Nat :=
  if deleted[row]? = some true then dummyTransactionID else invalidTransaction

theorem deletionsAt_concat (deleted : List Bool) (d : Bool) (row : Nat) :
    deletionsAt (deleted ++ [d]) row =
      if row = deleted.length ∧ d = true then dummyTransactionID else deletionsAt deleted row := by
  rcases Nat.lt_trichotomy row deleted.length with hlt | rfl | hgt
  · rw [if_neg fun h => Nat.ne_of_lt hlt h.1, deletionsAt, getElem?_append_left hlt]
    rfl
  · cases d <;> simp [deletionsAt]
  · rw [if_neg fun h => Nat.ne_of_gt hgt h.1, deletionsAt, deletionsAt,
      getElem?_eq_none (by simp; omega), getElem?_eq_none (Nat.le_of_lt hgt)]

variable {deleted : List Bool}

theorem deletionsAt_of_le {row : Nat} (h : deleted.length ≤ row) :
    deletionsAt deleted row = invalidTransaction := by
  rw [deletionsAt, getElem?_eq_none h]
  rfl

variable {t T : Snapshot} {vi : VersionInfo k}

section

variable (ht : t.id = dummyTransactionID)

include ht

/-- One row of the loop: a row that is deleted at the snapshot is deleted again. -/
theorem persistent_row (h : vi.Persistent (deletionsAt deleted)) (d : Bool) :
    (if d then (vi.delete_ t.id deleted.length).1 else vi).Persistent
      (deletionsAt (deleted ++ [d])) := by
  cases d with
  | false =>
    have hsame : deletionsAt (deleted ++ [false]) = deletionsAt deleted := by
      funext row
      simp [deletionsAt_concat]
    rw [hsame]
    exact h
  | true =>
    have hid : t.id ≠ invalidTransaction := by
      rw [ht]
      decide
    have hdelete := h.delete_ hid deleted.length
    rw [deletionsAt_of_le (Nat.le_refl _), ht] at hdelete
    have hupdate : deletionsAt (deleted ++ [true]) =
        Function.update (deletionsAt deleted) deleted.length dummyTransactionID := by
      funext row
      simp [deletionsAt_concat, Function.update_apply]
    rw [hupdate, ht]
    exact hdelete

theorem persistent_checkpointDeletions (c : ChunkedNodeGroup k V)
    (h : vi.Persistent (deletionsAt deleted)) :
    (checkpointDeletions t c deleted.length vi).Persistent
      (deletionsAt (deleted ++ (range c.numRows).map (c.isDeleted t))) := by
  have hrows : ∀ n, ((range n).foldl
      (fun vi i => if c.isDeleted t i then (vi.delete_ t.id (deleted.length + i)).1 else vi)
      vi).Persistent (deletionsAt (deleted ++ (range n).map (c.isDeleted t))) := by
    intro n
    induction n with
    | zero => simpa using h
    | succ n ih =>
      have hrow := persistent_row ht ih (c.isDeleted t n)
      rw [length_append, length_map, length_range] at hrow
      rw [range_succ, foldl_append, map_append, ← append_assoc]
      exact hrow
  rw [checkpointDeletions]
  split_ifs with hnone
  · exact hrows c.numRows
  · -- without versions no row is deleted
    have hfalse : ∀ i, c.isDeleted t i = false := by
      intro i
      rw [ChunkedNodeGroup.isDeleted, not_isSome_iff_eq_none.mp hnone]
    simpa [hfalse] using hrows c.numRows

theorem persistent_checkpointVersionInfoFrom (groups : List (ChunkedNodeGroup k V))
    (h : vi.Persistent (deletionsAt deleted)) :
    (checkpointVersionInfoFrom t groups deleted.length vi).Persistent
      (deletionsAt (deleted ++ entries (·.numRows) (fun c r => c.isDeleted t r) groups)) := by
  induction groups generalizing vi deleted with
  | nil =>
    rw [entries_nil, append_nil]
    exact h
  | cons c _ ih =>
    have hrest := ih (persistent_checkpointDeletions ht c h)
    rw [length_append, length_map, length_range] at hrest
    rw [entries_cons, ← append_assoc]
    exact hrest

/-- The rows that are deleted at a snapshot. -/
def deletedRows (g : NodeGroup k V) (t : Snapshot) : List Bool :=
  g.rows fun c r => c.isDeleted t r

theorem persistent_checkpointVersionInfo (g : NodeGroup k V) :
    (g.checkpointVersionInfo t).Persistent (deletionsAt (g.deletedRows t)) := by
  have hempty : ({} : VersionInfo k).Persistent (deletionsAt []) := VersionInfo.persistent_empty
  exact persistent_checkpointVersionInfoFrom ht g.chunkedGroups hempty

end

/-- The deletions that the checkpoint writes are seen by every transaction. -/
theorem visible_deletionsAt (hT : T.InRange) (deleted : List Bool) (row : Nat) :
    visible T.startTS T.id (deletionsAt deleted row) = (deleted[row]? == some true) := by
  rw [deletionsAt]
  split_ifs with hdeleted
  · rw [hdeleted]
    simp [visible, dummyTransactionID]
  · rw [hT.not_visible_invalid, eq_comm, beq_eq_false_iff_ne]
    exact hdeleted

variable {cap col j i r : Nat} {g : NodeGroup k V} {c first : ChunkedNodeGroup k V}
  {rest : List (ChunkedNodeGroup k V)}

/-- Counting the true entries of a list by their positions. -/
theorem countP_positions_eq_length {l : List Bool} {n : Nat} (hn : l.length ≤ n) :
    (range n).countP (fun i => l[i]? == some true) = l.length ↔ ∀ d ∈ l, d = true := by
  have hget : ∀ o : Option Bool, (o == some true) = (o.map id).getD false := by
    rintro (_ | _ | _) <;> rfl
  simp only [hget]
  rw [← countP_filterMap, Foundation.filterMap_range_getElem?, take_of_length_le hn,
    countP_eq_length]
  rfl

/-- The rows are all deleted exactly if the checkpoint counts as many deletions as the
node group has rows. -/
theorem WellFormed.getNumDeletions_eq_iff (h : g.WellFormed cap) (ht : t.id = dummyTransactionID)
    (htr : t.InRange) :
    (g.checkpointVersionInfo t).getNumDeletions t 0 g.numRows = g.numRows - g.startRow ↔
      ∀ d ∈ g.deletedRows t, d = true := by
  have hlength : (g.deletedRows t).length = g.numRows - g.startRow := h.length_rows _
  have hdeleted : (g.checkpointVersionInfo t).isDeleted t =
      fun i => (g.deletedRows t)[i]? == some true := by
    funext i
    rw [(persistent_checkpointVersionInfo ht g).deletes.isDeleted htr, visible_deletionsAt htr]
  rw [VersionInfo.getNumDeletions_eq, ← range_eq_range', hdeleted, ← hlength]
  exact countP_positions_eq_length (by omega)

/-! ## The values that the checkpoint writes -/

/-- A column of all rows, at a snapshot. -/
def column (g : NodeGroup k V) (t : Snapshot) (col : Nat) : List V :=
  g.chunkedGroups.flatMap fun c => (c.chunks[col]?.map (·.scanCommitted t)).getD []

/-- A chunked group has a value for each of its rows in each column. -/
theorem length_scanCommitted_getD {numColumns : Nat} (h : c.WellFormed numColumns)
    (hcol : col < numColumns) :
    ((c.chunks[col]?.map (·.scanCommitted t)).getD []).length = c.numRows := by
  have hlt : col < c.chunks.length := by rwa [h.columns]
  rw [getElem?_eq_getElem hlt, map_some, getD_some,
    ColumnChunk.length_scanCommitted, h.values _ (getElem_mem hlt)]

section

variable (h : g.WellFormed cap)

include h

theorem WellFormed.column_getElem? (hcol : col < g.numColumns)
    (hlocate : locate (·.numRows) g.chunkedGroups j = some (i, r))
    (hc : g.chunkedGroups[i]? = some c) :
    (g.column t col)[j]? = c.chunks[col]?.bind (·.lookup t r) := by
  have hlt : col < c.chunks.length := by rwa [(h.groups c (mem_of_getElem? hc)).columns]
  rw [column, getElem?_flatMap_segments fun c hc => length_scanCommitted_getD (h.groups c hc) hcol,
    hlocate, bind_some, hc, bind_some, getElem?_eq_getElem hlt, map_some,
    getD_some, bind_some, ColumnChunk.scanCommitted_getElem?]

theorem WellFormed.length_column (hcol : col < g.numColumns) :
    (g.column t col).length = g.numRows - g.startRow := by
  have hsum : (g.column t col).length = (g.chunkedGroups.map (·.numRows)).sum := by
    rw [column, length_flatMap]
    congr 1
    exact map_congr_left fun c hc => length_scanCommitted_getD (h.groups c hc) hcol
  rw [hsum, h.numRows, Nat.add_sub_cancel_left]

/-- The chunked group that the checkpoint of a node group with rows writes. -/
def checkpointed (g : NodeGroup k V) (t : Snapshot) : ChunkedNodeGroup k V :=
  .persistent g.startRow ((List.range g.numColumns).map fun col => { values := g.column t col })
    (some (g.checkpointVersionInfo t))

/-- The scan of the rows in memory loses none of them. -/
theorem WellFormed.scanAllInserted_eq (hcol : col < g.numColumns) : g.scanAllInserted t col =
      g.resident.flatMap fun c => (c.chunks[col]?.map (·.scanCommitted t)).getD [] := by
  rw [scanAllInserted, take_of_length_le]
  rw [length_flatMap]
  apply Nat.le_of_eq
  congr 1
  refine map_congr_left fun c hc => ?_
  exact length_scanCommitted_getD (h.groups c (mem_filter.mp hc).1) hcol

section

variable (hgroups : g.chunkedGroups = first :: rest)

include hgroups

/-- The chunked groups in memory are all but the one on disk. -/
theorem WellFormed.resident_eq :
    g.resident = if first.residencyState = .onDisk then rest else g.chunkedGroups := by
  have hresident := h.resident
  rw [hgroups] at hresident
  have hrest : rest.filter (fun c => c.residencyState = .inMemory) = rest :=
    filter_eq_self.mpr fun c hc => decide_eq_true (hresident c hc)
  rw [NodeGroup.resident, hgroups]
  cases hstate : first.residencyState with
  | onDisk => rw [filter_cons_of_neg (by simp [hstate]), hrest, if_pos rfl]
  | inMemory => rw [filter_cons_of_pos (by simp [hstate]), hrest, if_neg (by decide)]

/-- Both kinds of checkpoint write the same. -/
theorem WellFormed.checkpointInMemAndOnDisk_eq (hdisk : first.residencyState = .onDisk) :
    g.checkpointInMemAndOnDisk t first (g.checkpointVersionInfo t) = g.checkpointed t := by
  have hresident := h.resident_eq hgroups
  rw [if_pos hdisk] at hresident
  have hstart : g.startRow = first.startRowIdx := by
    rw [startRow, hgroups]
    rfl
  have hcolumns : first.chunks.length = g.numColumns :=
    (h.groups first (by rw [hgroups]; exact mem_cons_self)).columns
  rw [checkpointInMemAndOnDisk, checkpointed, hstart]
  congr 1
  refine ext_getElem (by simp [hcolumns]) fun col hcol _ => ?_
  rw [length_mapIdx] at hcol
  rw [getElem_mapIdx, getElem_map, getElem_range, ColumnChunk.checkpoint_eq,
    h.scanAllInserted_eq (hcolumns ▸ hcol), hresident, column, hgroups, flatMap_cons,
    getElem?_eq_getElem hcol, map_some, getD_some]

theorem WellFormed.checkpointInMemOnly_eq (hmemory : first.residencyState ≠ .onDisk) :
    g.checkpointInMemOnly t (g.checkpointVersionInfo t) = g.checkpointed t := by
  have hresident := h.resident_eq hgroups
  rw [if_neg hmemory] at hresident
  have hstart : g.startRow = 0 := by
    have hfirst : first.residencyState = .inMemory := by
      cases hstate : first.residencyState with
      | inMemory => rfl
      | onDisk => exact (hmemory hstate).elim
    rw [startRow, hgroups]
    exact h.start first (by rw [hgroups]; rfl) hfirst
  rw [checkpointInMemOnly, checkpointed, hstart]
  congr 1
  refine map_congr_left fun col hcol => ?_
  rw [h.scanAllInserted_eq (mem_range.mp hcol), hresident]
  rfl

end

/-! ## Reading a node group after a checkpoint -/

theorem WellFormed.checkpoint_eq (ht : t.id = dummyTransactionID) (htr : t.InRange) :
    g.checkpoint cap t = { g with chunkedGroups :=
      [if ∀ d ∈ g.deletedRows t, d = true then .flushEmpty cap g.numColumns g.numRows
        else g.checkpointed t] } := by
  obtain ⟨first, _, hgroups⟩ := exists_cons_of_ne_nil h.nonempty
  have hstart : g.startRow = first.startRowIdx := by
    rw [startRow, hgroups]
    rfl
  have hcount := h.getNumDeletions_eq_iff ht htr
  rw [hstart] at hcount
  have hwritten : (if first.residencyState = .onDisk then
      g.checkpointInMemAndOnDisk t first (g.checkpointVersionInfo t)
      else g.checkpointInMemOnly t (g.checkpointVersionInfo t)) = g.checkpointed t := by
    split_ifs with hdisk
    · exact h.checkpointInMemAndOnDisk_eq hgroups hdisk
    · exact h.checkpointInMemOnly_eq hgroups hdisk
  rw [checkpoint]
  split
  · rename_i hnil
    exact (h.nonempty hnil).elim
  · rename_i _ _ hgroups'
    rw [hgroups] at hgroups'
    cases hgroups'
    simp only [hcount, hwritten]

theorem WellFormed.numRows_checkpointed : (g.checkpointed t).numRows = g.numRows - g.startRow := by
  obtain ⟨n, hn⟩ : ∃ n, g.numColumns = n + 1 := ⟨g.numColumns - 1, by have := h.columns; omega⟩
  rw [checkpointed, ChunkedNodeGroup.persistent]
  rw [hn, range_succ_eq_map, map_cons, head?_cons, map_some, getD_some, h.length_column h.columns]

theorem WellFormed.checkpointed : (g.checkpointed t).WellFormed g.numColumns where
  columns := by simp [NodeGroup.checkpointed, ChunkedNodeGroup.persistent]
  values := by
    intro chunk hchunk
    obtain ⟨_, hcol, rfl⟩ := mem_map.mp hchunk
    rw [h.numRows_checkpointed]
    exact h.length_column (mem_range.mp hcol)

section

variable (ht : t.id = dummyTransactionID)

include ht

theorem WellFormed.checkpoint (htr : t.InRange) : (g.checkpoint cap t).WellFormed cap := by
  rw [h.checkpoint_eq ht htr]
  split
  · refine wellFormed_singleton h.columns ⟨?_, ?_⟩ (fun hmemory => nomatch hmemory) rfl
    · simp [ChunkedNodeGroup.flushEmpty, ChunkedNodeGroup.create]
    · intro chunk hchunk
      rw [eq_of_mem_replicate hchunk]
      rfl
  · refine wellFormed_singleton h.columns h.checkpointed (fun hmemory => nomatch hmemory) ?_
    have := h.numRows
    rw [h.numRows_checkpointed]
    change g.numRows = g.startRow + _
    omega

theorem WellFormed.startRow_le_checkpoint (htr : t.InRange) :
    g.startRow ≤ (g.checkpoint cap t).startRow := by
  rw [h.checkpoint_eq ht htr]
  split
  · change g.startRow ≤ g.numRows
    rw [h.numRows]
    exact Nat.le_add_right _ _
  · exact Nat.le_refl _

/-- What every transaction finds in the chunked group that the checkpoint wrote. -/
theorem WellFormed.lookup_checkpointed (hT : T.InRange)
    (hlocate : locate (·.numRows) g.chunkedGroups j = some (i, r))
    (hc : g.chunkedGroups[i]? = some c) :
    (g.checkpointed t).lookup T j = if c.isDeleted t r then none else some (c.readRow t r) := by
  have hselected : (g.checkpointed t).isSelected T j = !c.isDeleted t r := by
    change (g.checkpointVersionInfo t).isSelected T.startTS T.id j = _
    rw [(persistent_checkpointVersionInfo ht g).isSelected hT, visible_deletionsAt hT, deletedRows,
      getElem?_rows hlocate hc]
    cases c.isDeleted t r <;> rfl
  have hvalues : (g.checkpointed t).readRow T j = c.readRow t r := by
    have hcolumns := (h.groups c (mem_of_getElem? hc)).columns
    rw [ChunkedNodeGroup.readRow, ChunkedNodeGroup.readRow]
    refine ext_getElem ?_ fun col hcol hcol' => ?_
    · simp [NodeGroup.checkpointed, ChunkedNodeGroup.persistent, hcolumns]
    rw [length_map] at hcol'
    have hread := h.column_getElem? (t := t) (hcolumns ▸ hcol') hlocate hc
    rw [getElem?_eq_getElem hcol', bind_some] at hread
    rw [getElem_map, getElem_map, ← hread]
    simp [NodeGroup.checkpointed, ChunkedNodeGroup.persistent, ColumnChunk.lookup,
      UpdateInfo.lookup]
  rw [ChunkedNodeGroup.lookup, hselected, hvalues]
  cases c.isDeleted t r <;> rfl

end

/-- After the checkpoint every transaction finds the rows that are not deleted at its
snapshot, with the values at its snapshot. -/
theorem WellFormed.lookup_checkpoint (hcap : 0 < cap) (ht : t.id = dummyTransactionID)
    (htr : t.InRange) (hT : T.InRange) (hj : g.startRow + j < g.numRows)
    (hlocate : locate (·.numRows) g.chunkedGroups j = some (i, r))
    (hc : g.chunkedGroups[i]? = some c) :
    (g.checkpoint cap t).lookup cap T (g.startRow + j) =
      if c.isDeleted t r then none else some (c.readRow t r) := by
  have hwell := h.checkpoint ht htr
  rw [h.checkpoint_eq ht htr] at hwell ⊢
  split_ifs at hwell with hall
  · have hdeleted : c.isDeleted t r = true := hall _ (mem_of_getElem? (getElem?_rows hlocate hc))
    rw [if_pos hall, hdeleted, lookup_of_lt_startRow]
    · rfl
    · exact hj
  · have hrow := hwell.lookup_eq (t := T) hcap hj
    rw [rows, entries_cons, entries_nil, append_nil, getElem?_map,
      getElem?_range (by rw [h.numRows_checkpointed]; omega), map_some,
      h.lookup_checkpointed ht hT hlocate hc] at hrow
    rw [if_neg hall]
    exact (some.inj hrow).symm

end

/-- What a transaction sees of a chunked group is what a checkpoint at `t` keeps. -/
def SeesCheckpoint (t T : Snapshot) (c : ChunkedNodeGroup k V) : Prop :=
  ∀ r < c.numRows, c.isSelected T r = !c.isDeleted t r ∧
    (c.isSelected T r = true → c.readRow T r = c.readRow t r)

instance [DecidableEq V] (t T : Snapshot) (c : ChunkedNodeGroup k V) :
    Decidable (SeesCheckpoint t T c) :=
  inferInstanceAs (Decidable (∀ r < c.numRows, c.isSelected T r = !c.isDeleted t r ∧
    (c.isSelected T r = true → c.readRow T r = c.readRow t r)))

theorem lookup_eq_iff (c : ChunkedNodeGroup k V) (t T : Snapshot) (r : Nat) :
    (if c.isDeleted t r then none else some (c.readRow t r)) = c.lookup T r ↔
      c.isSelected T r = !c.isDeleted t r ∧
        (c.isSelected T r = true → c.readRow T r = c.readRow t r) := by
  rw [ChunkedNodeGroup.lookup]
  cases c.isSelected T r <;> cases c.isDeleted t r <;> simp [eq_comm]

variable (h : g.WellFormed cap) (hcap : 0 < cap) (ht : t.id = dummyTransactionID) (htr : t.InRange)

include h hcap ht htr

/-- A transaction finds the same rows after the checkpoint exactly if it saw what the
checkpoint keeps. -/
theorem WellFormed.lookup_checkpoint_eq_iff (hT : T.InRange) :
    (∀ row < g.numRows, (g.checkpoint cap t).lookup cap T row = g.lookup cap T row) ↔
      ∀ c ∈ g.chunkedGroups, SeesCheckpoint t T c := by
  constructor
  · intro hsame c hc r hr
    obtain ⟨_, hi⟩ := mem_iff_getElem?.mp hc
    obtain ⟨j, hlocate⟩ := exists_locate hi hr
    have hj : g.startRow + j < g.numRows := by
      rw [h.numRows]
      exact Nat.add_lt_add_left
        (locate_isSome_iff.mp (isSome_iff_exists.mpr ⟨_, hlocate⟩)) g.startRow
    have hrow := hsame _ hj
    rw [h.lookup_checkpoint hcap ht htr hT hj hlocate hi] at hrow
    rw [← lookup_eq_iff, hrow]
    have hread := h.lookup_eq (t := T) hcap hj
    rw [getElem?_rows hlocate hi] at hread
    exact (some.inj hread).symm
  · intro hsees row hrow
    rcases Nat.lt_or_ge row g.startRow with hlt | hge
    · rw [lookup_of_lt_startRow hlt,
        lookup_of_lt_startRow (Nat.lt_of_lt_of_le hlt (h.startRow_le_checkpoint ht htr))]
    obtain ⟨_, rfl⟩ := Nat.exists_eq_add_of_le hge
    obtain ⟨_, r, c, hlocate, hc, hr, -, -⟩ := h.findGroup hcap hrow
    have hread := h.lookup_eq (t := T) hcap hrow
    rw [getElem?_rows hlocate hc] at hread
    rw [h.lookup_checkpoint hcap ht htr hT hrow hlocate hc, ← some.inj hread, lookup_eq_iff]
    exact hsees c (mem_of_getElem? hc) r hr

theorem WellFormed.scan_checkpoint
    (hsame : ∀ row < g.numRows, (g.checkpoint cap t).lookup cap T row = g.lookup cap T row) :
    (g.checkpoint cap t).scan T = g.scan T := by
  have hrows : (g.checkpoint cap t).numRows = g.numRows := by rw [h.checkpoint_eq ht htr]
  rw [(h.checkpoint ht htr).scan_eq hcap, h.scan_eq hcap, hrows]
  exact filterMap_congr fun row hrow => by rw [hsame row (mem_range.mp hrow)]

end NodeGroup

end Lbug.Storage
