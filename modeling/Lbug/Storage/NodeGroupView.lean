/-
  Storage/NodeGroupView.lean --- what a transaction reads from a node group.

  The rows of a node group are the entries of its chunked groups, one after the other.
  In a well-formed node group the row index that `lookup` computes by a division is the
  one that this enumeration gives (`WellFormed.find`), and a scan returns the selected rows
  with the values of a lookup (`WellFormed.scan_eq`).
-/
import Lbug.Storage.NodeGroup
import Lbug.Storage.SelectionScan

namespace Lbug.Storage

open Foundation Transaction List Option

universe u v

variable {k numRows : Nat} {V : Type u}

/-! ## Scans of one chunked group -/

namespace ChunkedNodeGroup

/-- The selected rows of a range of rows, as lookups. -/
def selectedRows (c : ChunkedNodeGroup k V) (t : Snapshot) (startRow numRows : Nat) :
    List (Nat × List (Option V)) :=
  (List.range' startRow numRows).filterMap fun row =>
    (c.lookup t row).map fun values => (c.startRowIdx + row, values)

section

variable (c : ChunkedNodeGroup k V) (t : Snapshot) {startRow : Nat}

include c t

section

variable (halign : startRow % vectorCapacity k = 0) (hnum : numRows ≤ vectorCapacity k)

include halign hnum

theorem positions_selVectorToScan :
    (c.selVectorToScan t startRow numRows).positions =
      (range numRows).filter fun i => c.isSelected t (startRow + i) := by
  unfold selVectorToScan isSelected
  cases c.versionInfo with
  | none => simp [SelectionVector.positions]
  | some vi => exact vi.positions_getSelVectorToScan t.startTS t.id halign hnum

theorem scan_eq : c.scan t startRow numRows = c.selectedRows t startRow numRows := by
  rw [scan, positions_selVectorToScan c t halign hnum, selectedRows, range'_eq_map_range,
    filterMap_map, ← filterMap_eq_map, filterMap_filter]
  refine filterMap_congr fun i hi => ?_
  have hlt := mem_range.mp hi
  simp only [Function.comp_apply, lookup]
  split
  · rw [Nat.add_assoc]
    congr 2
    exact map_congr_left fun chunk _ => chunk.scan_getElem? t hlt
  · rfl

end

theorem selectedRows_add (startRow m n : Nat) : c.selectedRows t startRow (m + n) =
      c.selectedRows t startRow m ++ c.selectedRows t (startRow + m) n := by
  rw [selectedRows, ← range'_append_1, filterMap_append]
  rfl

theorem scanFrom_eq (row : Nat) (halign : row % vectorCapacity k = 0) :
    c.scanFrom t row = c.selectedRows t row (c.numRows - row) := by
  fun_induction scanFrom c t row with
  | case1 row _ numRows ih =>
    rcases Nat.lt_or_ge (vectorCapacity k) (c.numRows - row) with hgt | hle
    · have hnum : numRows = vectorCapacity k := Nat.min_eq_right (Nat.le_of_lt hgt)
      rw [ih (by rw [hnum, Nat.add_mod_right, halign]),
        scan_eq c t halign (Nat.le_of_eq hnum), ← selectedRows_add]
      congr 1
      omega
    · -- the last vector
      have hnum : numRows = c.numRows - row := Nat.min_eq_left hle
      have hdone : c.scanFrom t (row + numRows) = [] := by
        rw [scanFrom, dif_neg (by omega)]
      rw [hdone, append_nil, hnum, scan_eq c t halign hle]
  | case2 _ hge =>
    rw [Nat.sub_eq_zero_of_le (Nat.le_of_not_lt hge)]
    rfl

end

/-- Every chunk has a value for each row. -/
structure WellFormed (numColumns : Nat) (c : ChunkedNodeGroup k V) : Prop where
  columns : c.chunks.length = numColumns
  values : ∀ chunk ∈ c.chunks, chunk.values.length = c.numRows

end ChunkedNodeGroup

/-! ## The rows of a node group -/

namespace NodeGroup

/-- Each chunked group starts where the one before it ends. -/
def Consecutive : Nat → List (ChunkedNodeGroup k V) → Prop
  | _, [] => True
  | start, c :: rest => c.startRowIdx = start ∧ Consecutive (start + c.numRows) rest

/-- `getStartRowIdxInGroupNoLock`: the rows before it have been deleted and dropped. -/
def startRow (g : NodeGroup k V) : Nat := (g.chunkedGroups.head?.map (·.startRowIdx)).getD 0

/-- The shape of a node group: one chunked group that may be on disk, followed by chunked
groups in memory, all but the last of them full. -/
structure WellFormed (cap : Nat) (g : NodeGroup k V) : Prop where
  columns : 0 < g.numColumns
  groups : ∀ c ∈ g.chunkedGroups, c.WellFormed g.numColumns
  nonempty : g.chunkedGroups ≠ []
  start : ∀ c ∈ g.chunkedGroups.head?, c.residencyState = .inMemory → c.startRowIdx = 0
  consecutive : Consecutive g.startRow g.chunkedGroups
  resident : ∀ c ∈ g.chunkedGroups.tail, c.residencyState = .inMemory
  full : FullButLast (·.numRows) cap g.chunkedGroups.tail
  numRows : g.numRows = g.startRow + (g.chunkedGroups.map (·.numRows)).sum

/-- What holds of each row, from `startRow` on. -/
def rows {β : Type v} (g : NodeGroup k V) (f : ChunkedNodeGroup k V → Nat → β) : List β :=
  entries (·.numRows) f g.chunkedGroups

variable {j : Nat} {c : ChunkedNodeGroup k V} {i r : Nat}

theorem Consecutive.startRowIdx_add {groups : List (ChunkedNodeGroup k V)} {start : Nat}
    (h : Consecutive start groups) (hlocate : locate (·.numRows) groups j = some (i, r))
    (hc : groups[i]? = some c) :
    c.startRowIdx + r = start + j := by
  induction groups generalizing start j i with
  | nil => cases hlocate
  | cons _ _ ih =>
    obtain ⟨hfirst, hrest⟩ := h
    rw [locate] at hlocate
    split_ifs at hlocate with hge
    · cases hlocate
      cases hc
      rw [hfirst]
    · obtain ⟨⟨_, _⟩, hlater, heq⟩ := map_eq_some_iff.mp hlocate
      cases heq
      have := ih hrest hlater hc
      omega

variable {cap : Nat} {g : NodeGroup k V} {t : Snapshot} {β : Type v}

/-- A single chunked group. -/
theorem wellFormed_singleton {numColumns : Nat} (hcolumns : 0 < numColumns)
    (hc : c.WellFormed numColumns) (hmemory : c.residencyState = .inMemory → c.startRowIdx = 0)
    (hrows : numRows = c.startRowIdx + c.numRows) :
    ({ numColumns, numRows, chunkedGroups := [c] } : NodeGroup k V).WellFormed cap where
  columns := hcolumns
  groups := by
    intro c' hc'
    rw [mem_singleton.mp hc']
    exact hc
  nonempty := cons_ne_nil _ _
  start := by
    intro c' hc' hstate
    cases hc'
    exact hmemory hstate
  consecutive := ⟨rfl, trivial⟩
  resident := by
    intro c' hc'
    cases hc'
  full := trivial
  numRows := by simpa [startRow] using hrows

section

variable (h : g.WellFormed cap) (hcap : 0 < cap) (hj : g.startRow + j < g.numRows)

include h hcap hj

/-- The chunked group of a row. -/
theorem WellFormed.find :
    ∃ i r c, locate (·.numRows) g.chunkedGroups j = some (i, r) ∧ g.chunkedGroups[i]? = some c ∧
      r < c.numRows ∧ c.startRowIdx + r = g.startRow + j ∧
      g.findChunkedGroupIdxFromRowIdx cap (g.startRow + j) = some (i, r) := by
  have hlt : j < (g.chunkedGroups.map (·.numRows)).sum := by
    have := h.numRows
    omega
  obtain ⟨⟨i, r⟩, hlocate⟩ := isSome_iff_exists.mp (locate_isSome_iff.mpr hlt)
  obtain ⟨c, hc, hr⟩ := locate_spec hlocate
  refine ⟨i, r, c, hlocate, hc, hr, h.consecutive.startRowIdx_add hlocate hc, ?_⟩
  obtain ⟨first, _, hgroups⟩ := exists_cons_of_ne_nil h.nonempty
  have hstart : g.startRow = first.startRowIdx := by
    rw [startRow, hgroups]
    rfl
  have hfull := h.full
  have hlength := (List.getElem?_eq_some_iff.mp hc).1
  rw [hgroups] at hlocate hlt hfull hlength
  rw [tail_cons] at hfull
  rw [map_cons, sum_cons] at hlt
  simp only [findChunkedGroupIdxFromRowIdx, hgroups, hstart,
    if_neg (Nat.not_lt.mpr (Nat.le_add_right first.startRowIdx j)), Nat.add_sub_cancel_left]
  rw [locate] at hlocate
  split_ifs at hlocate with hfirst
  · rw [if_pos hfirst]
    exact hlocate
  · rw [locate_of_fullButLast hcap hfull (by omega)] at hlocate
    cases hlocate
    rw [if_neg hfirst, if_neg (Nat.not_le.mpr hlength)]

theorem WellFormed.findGroup :
    ∃ i r c, locate (·.numRows) g.chunkedGroups j = some (i, r) ∧ g.chunkedGroups[i]? = some c ∧
      r < c.numRows ∧ g.startRow + j - c.startRowIdx = r ∧
      g.findChunkedGroupFromRowIdx cap (g.startRow + j) = some (i, c) := by
  obtain ⟨i, r, c, hlocate, hc, hr, hsum, hfind⟩ := h.find hcap hj
  refine ⟨i, r, c, hlocate, hc, hr, by omega, ?_⟩
  rw [findChunkedGroupFromRowIdx, hfind, bind_some, hc]
  rfl

end

theorem getElem?_rows {f : ChunkedNodeGroup k V → Nat → β}
    (hlocate : locate (·.numRows) g.chunkedGroups j = some (i, r))
    (hc : g.chunkedGroups[i]? = some c) : (g.rows f)[j]? = some (f c r) := by
  rw [rows, getElem?_entries, hlocate, bind_some, hc]
  rfl

theorem WellFormed.length_rows (h : g.WellFormed cap) (f : ChunkedNodeGroup k V → Nat → β) :
    (g.rows f).length = g.numRows - g.startRow := by
  rw [rows, length_entries, h.numRows, Nat.add_sub_cancel_left]

/-- A lookup reads the row that the enumeration gives. -/
theorem WellFormed.lookup_eq (h : g.WellFormed cap) (hcap : 0 < cap)
    (hj : g.startRow + j < g.numRows) :
    (g.rows fun c r => c.lookup t r)[j]? = some (g.lookup cap t (g.startRow + j)) := by
  obtain ⟨_, _, _, hlocate, hc, hr, hrow, hfind⟩ := h.findGroup hcap hj
  rw [getElem?_rows hlocate hc, lookup, hfind, bind_some, hrow]

/-- Rows that have been dropped are not found. -/
theorem lookup_of_lt_startRow {row : Nat} (hrow : row < g.startRow) :
    g.lookup cap t row = none := by
  unfold startRow at hrow
  unfold lookup findChunkedGroupFromRowIdx findChunkedGroupIdxFromRowIdx
  cases hgroups : g.chunkedGroups with
  | nil => rfl
  | cons =>
    rw [hgroups] at hrow
    dsimp only
    rw [if_pos (by simpa using hrow)]
    rfl

/-- A scan returns the rows that lookups find. -/
theorem WellFormed.scan_eq (h : g.WellFormed cap) (hcap : 0 < cap) :
    g.scan t = (range g.numRows).filterMap fun row =>
      (g.lookup cap t row).map fun values => (row, values) := by
  have hrows : (g.rows fun c r => (c.lookup t r).map fun values => (c.startRowIdx + r, values)) =
      (range (g.numRows - g.startRow)).map fun j =>
        (g.lookup cap t (g.startRow + j)).map fun values => (g.startRow + j, values) := by
    refine ext_getElem? fun j => ?_
    rcases Nat.lt_or_ge j (g.numRows - g.startRow) with hlt | hge
    · obtain ⟨_, _, _, hlocate, hc, hr, hrow, hfind⟩ := h.findGroup hcap (by omega : _ + j < _)
      have hsum := h.consecutive.startRowIdx_add hlocate hc
      rw [getElem?_rows hlocate hc, getElem?_map, getElem?_range hlt, map_some,
        lookup, hfind, bind_some, hrow, hsum]
    · rw [getElem?_eq_none (by rwa [h.length_rows]), getElem?_eq_none (by simpa using hge)]
  have hscan : g.scan t =
      (g.rows fun c r => (c.lookup t r).map fun values => (c.startRowIdx + r, values)).filterMap
        id := by
    rw [scan, rows, entries, filterMap_flatMap]
    congr 1
    funext c
    rw [c.scanFrom_eq t 0 (Nat.zero_mod _), ChunkedNodeGroup.selectedRows, filterMap_map,
      ← range_eq_range']
    rfl
  -- no lookup finds the rows before `startRow`
  have hdropped : (range g.startRow).filterMap (fun row =>
      (g.lookup cap t row).map fun values => (row, values)) = [] := by
    refine filterMap_eq_nil_iff.mpr fun row hrow => ?_
    rw [lookup_of_lt_startRow (mem_range.mp hrow)]
    rfl
  have hsplit : range g.numRows = range g.startRow ++
      (range (g.numRows - g.startRow)).map (g.startRow + ·) := by
    rw [← range_add, Nat.add_sub_cancel' (h.numRows ▸ Nat.le_add_right _ _)]
  rw [hscan, hrows, hsplit, filterMap_append, hdropped, filterMap_map, filterMap_map]
  rfl

end NodeGroup

end Lbug.Storage
