/-
  Storage/ColumnChunk.lean --- the values of one column with their updates.

  Source: `storage/table/column_chunk.cpp`, `storage/table/update_info.cpp`
  (`iterateScan`, `scan`, `scanCommitted`, `hasUpdates`),
  `include/storage/table/combined_chunk_scanner.h`, `lazy_segment_scanner.cpp`.

  A chunk has a value for each row and the chains of the values that were written later.
  `lookup` reads one row; `scan` and `scanCommitted` read ranges, and walk each chain once
  for all rows of a vector.  Both give the same values (`scan_getElem?`,
  `scanCommitted_getElem?`).

  The segments of a chunk and where they are stored do not matter for its values: `values`
  is their concatenation.
-/
import Lbug.Storage.UpdateInfo
import Mathlib.Logic.Function.Basic

namespace Lbug.Storage

open Foundation Transaction List UpdateInfo

universe u

namespace UpdateInfo

variable {k : Nat} {V : Type u} (u : UpdateInfo k V) (t : Snapshot)

/-- The innermost loop of `iterateScan`: the rows of one node from `lo` up to `hi` that
have no newer value yet. -/
def scanRows (lo hi : Nat) : List (Nat × V) → (Nat → Option V) → Nat → Option V
  | [], out => out
  | (row, value) :: rest, out =>
    if lo ≤ row ∧ row < hi ∧ (out row).isNone then
      scanRows lo hi rest (Function.update out row (some value))
    else scanRows lo hi rest out

/-- `iterateVectorInfo` with the function of `iterateScan`, on one chain; `out` holds the
values found so far. -/
def scanChain (lo hi : Nat) : List (VectorUpdateInfo V) → (Nat → Option V) → Nat → Option V
  | [], out => out
  | n :: rest, out =>
    if visible t.startTS t.id n.version then
      -- nothing in the node, or all rows have a newer value
      if n.rows.isEmpty ∨ (List.range' lo (hi - lo)).all fun row => (out row).isSome then
        scanChain lo hi rest out
      else scanChain lo hi rest (scanRows lo hi n.rows out)
    else scanChain lo hi rest out

/-- `iterateScan`: the value that is written to the output for a row, if any.  The loop
visits each vector of the range once; a row gets its value in the iteration of its
vector. -/
def iterateScan (startOffset numRows row : Nat) : Option V :=
  if u.updates.isEmpty then none
  else
    let idx := row / vectorCapacity k
    let lo := if idx = startOffset / vectorCapacity k then startOffset % vectorCapacity k else 0
    let hi := if idx = (startOffset + numRows) / vectorCapacity k
      then (startOffset + numRows) % vectorCapacity k else vectorCapacity k
    scanChain t lo hi (u.chain idx) (fun _ => none) (row % vectorCapacity k)

def hasUpdates (startRow numRows : Nat) : Bool :=
  (List.range numRows).any fun i => (u.iterateScan t startRow numRows (startRow + i)).isSome

theorem scanRows_apply (lo hi row : Nat) (rows : List (Nat × V)) (out : Nat → Option V) :
    scanRows lo hi rows out row =
      if lo ≤ row ∧ row < hi then (out row).or ((rows.find? fun p => p.1 == row).map Prod.snd)
      else out row := by
  induction rows generalizing out with
  | nil => simp [scanRows]
  | cons p rest ih =>
    obtain ⟨row', value⟩ := p
    rw [scanRows]
    rcases eq_or_ne row' row with rfl | hne
    · split
      · rename_i hin
        rw [ih, if_pos ⟨hin.1, hin.2.1⟩, if_pos ⟨hin.1, hin.2.1⟩,
          Option.isNone_iff_eq_none.mp hin.2.2]
        simp
      rename_i hout
      rw [ih]
      split_ifs with hrange
      · cases hnewer : out row' with
        | none => exact (hout ⟨hrange.1, hrange.2, by rw [hnewer]; rfl⟩).elim
        | some => rfl
      · rfl
    · have hfind : (((row', value) :: rest).find? fun p => p.1 == row) =
          rest.find? fun p => p.1 == row := by
        rw [find?_cons, beq_eq_false_iff_ne.mpr hne]
      rw [hfind]
      split
      · rw [ih, Function.update_of_ne (Ne.symm hne)]
      · exact ih out

/-- The scan of a chain gives each row of the range the value that a lookup finds. -/
theorem scanChain_apply {lo hi row : Nat} (hrow : lo ≤ row ∧ row < hi)
    (nodes : List (VectorUpdateInfo V)) (out : Nat → Option V) :
    scanChain t lo hi nodes out row = (out row).or (lookupChain t row nodes) := by
  induction nodes generalizing out with
  | nil => simp [scanChain, lookupChain]
  | cons n _ ih =>
    rw [scanChain, lookupChain]
    split
    · split_ifs with hskip
      · rw [ih]
        rcases hskip with hempty | hall
        · have hread : n.read row = none := by
            rw [VectorUpdateInfo.read, isEmpty_iff.mp hempty]
            rfl
          rw [hread]
        · have hmem : row ∈ range' lo (hi - lo) := by
            rw [mem_range'_1]
            omega
          obtain ⟨v, hv⟩ := Option.isSome_iff_exists.mp (all_eq_true.mp hall row hmem)
          simp [hv]
      · rw [ih, scanRows_apply, if_pos hrow]
        cases hout : out row with
        | some => rfl
        | none =>
          change (n.read row).or _ = _
          cases n.read row <;> rfl
    · exact ih out

theorem iterateScan_eq_lookup {startOffset numRows row : Nat}
    (hlo : startOffset ≤ row) (hhi : row < startOffset + numRows) :
    u.iterateScan t startOffset numRows row = u.lookup t row := by
  unfold iterateScan lookup
  split
  · rfl
  have hpos := vectorCapacity_pos k
  have hmod := Nat.mod_lt row hpos
  have hrow := Nat.div_add_mod row (vectorCapacity k)
  have hstart := Nat.div_add_mod startOffset (vectorCapacity k)
  have hend := Nat.div_add_mod (startOffset + numRows) (vectorCapacity k)
  rw [scanChain_apply, Option.none_or]
  constructor
  · split_ifs with heq
    · rw [heq] at hrow
      omega
    · exact Nat.zero_le _
  · split_ifs with heq
    · rw [heq] at hrow
      omega
    · exact hmod

theorem lookup_of_not_hasUpdates {u : UpdateInfo k V} {t : Snapshot} {numRows row : Nat}
    (h : u.hasUpdates t 0 numRows = false) (hrow : row < numRows) : u.lookup t row = none := by
  rw [hasUpdates, any_eq_false] at h
  have hnone := h row (mem_range.mpr hrow)
  rw [Nat.zero_add, iterateScan_eq_lookup u t (Nat.zero_le row) (by omega)] at hnone
  simpa using hnone

end UpdateInfo

structure ColumnChunk (k : Nat) (V : Type u) where
  values : List V
  updateInfo : UpdateInfo k V := {}

namespace ColumnChunk

variable {k : Nat} {V : Type u} (c : ColumnChunk k V) (t : Snapshot)

/-- The value of the chunk, overwritten by the newest update that the reader sees. -/
def lookup (row : Nat) : Option V :=
  c.values[row]?.map fun value => (c.updateInfo.lookup t row).getD value

def scan (startRow numRows : Nat) : List V :=
  ((c.values.drop startRow).take numRows).mapIdx fun i value =>
    (c.updateInfo.iterateScan t startRow numRows (startRow + i)).getD value

def scanCommitted : List V :=
  c.values.mapIdx fun i value => (c.updateInfo.iterateScan t 0 c.values.length i).getD value

/-- `checkpoint` and the preceding `scanCommittedUpdatesForColumn`: a chunk on disk gets
the updates that the checkpoint sees, and the inserted rows. -/
def checkpoint (inserted : List V) : ColumnChunk k V :=
  { values := (if c.updateInfo.hasUpdates t 0 c.values.length then c.scanCommitted t
      else c.values) ++
      inserted }

include c t

@[simp] theorem length_scanCommitted : (c.scanCommitted t).length = c.values.length := by
  simp [scanCommitted]

theorem scan_getElem? {startRow numRows i : Nat} (hi : i < numRows) :
    (c.scan t startRow numRows)[i]? = c.lookup t (startRow + i) := by
  rw [scan, getElem?_mapIdx, getElem?_take_of_lt hi, getElem?_drop]
  congr 1
  funext value
  rw [iterateScan_eq_lookup _ _ (by omega) (by omega)]

theorem scanCommitted_getElem? (i : Nat) : (c.scanCommitted t)[i]? = c.lookup t i := by
  rw [scanCommitted, getElem?_mapIdx, lookup]
  rcases Nat.lt_or_ge i c.values.length with hlt | hge
  · rw [getElem?_eq_getElem hlt, Option.map_some, Option.map_some,
      iterateScan_eq_lookup _ _ (Nat.zero_le i) (by omega)]
  · rw [getElem?_eq_none hge]
    rfl

/-- A chunk without updates that the checkpoint sees stays as it is. -/
theorem checkpoint_eq (inserted : List V) :
    c.checkpoint t inserted = { values := c.scanCommitted t ++ inserted } := by
  rw [checkpoint]
  split_ifs with hnone
  · rfl
  rw [Bool.not_eq_true] at hnone
  have hsame : c.scanCommitted t = c.values := by
    refine ext_getElem? fun i => ?_
    rw [scanCommitted_getElem?, lookup]
    rcases Nat.lt_or_ge i c.values.length with hlt | hge
    · rw [lookup_of_not_hasUpdates hnone hlt]
      simp
    · rw [getElem?_eq_none hge]
      rfl
  rw [hsame]

end ColumnChunk

end Lbug.Storage
