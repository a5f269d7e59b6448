/-
  Storage/SelectionScan.lean --- the selection vector of a scan.

  Source: `storage/table/version_info.cpp` (`getSelVectorForScan`, `getSelVectorToScan`).

  A range of at most one vector capacity of rows meets one vector or two.  A vector that
  selects all of its rows only raises the size of an unfiltered selection, which stands for
  the positions from zero on; that is right while every row before it is selected too.  A
  vector without rows leaves the selection unfiltered, so a vector behind it that selects
  all of its rows gets the positions of the rows before it (`ShiftsRows`).
-/
import Lbug.Storage.VersionHistory

namespace Lbug.Storage

open Foundation Transaction List

variable {k : Nat}

theorem VectorVersionInfo.isSelected_eq (v : VectorVersionInfo k)
    (startTS transactionID row : Nat) :
    v.isSelected startTS transactionID row =
      (v.isInserted startTS transactionID row && !v.isDeleted startTS transactionID row) := by
  unfold isSelected
  split
  · rename_i hstatus
    simp [isInserted, isDeleted, hstatus.1, hstatus.2]
  · split
    · rename_i hstatus
      simp [isInserted, hstatus]
    · cases v.isInserted startTS transactionID row <;> rfl

theorem VectorVersionInfo.getNumDeletions_eq (v : VectorVersionInfo k) (ts id s n : Nat) :
    v.getNumDeletions ts id s n = (range' s n).countP (v.isDeleted ts id) := by
  unfold getNumDeletions
  split_ifs with hstatus
  · exact (countP_eq_zero.mpr fun i _ => by simp [isDeleted, hstatus]).symm
  · rfl

namespace VersionInfo

variable (vi : VersionInfo k)

/-- The rows of the vector are selected without a look at their versions. -/
def SelectsAll (b : Nat) : Prop :=
  ∀ v, vi.getVectorVersionInfo b = some v →
    v.deletionStatus = .noDeleted ∧ v.insertionStatus = .alwaysInserted

/-- The vector has no inserted rows. -/
def SelectsNone (b : Nat) : Prop :=
  ∃ v, vi.getVectorVersionInfo b = some v ∧ v.insertionStatus = .noInserted

/-- The first vector of the range has no rows and the last one selects all of its rows. -/
def ShiftsRows (startRow numRows : Nat) : Prop :=
  startRow / vectorCapacity k < (startRow + numRows - 1) / vectorCapacity k ∧
    vi.SelectsNone (startRow / vectorCapacity k) ∧
    vi.SelectsAll ((startRow + numRows - 1) / vectorCapacity k)

/-- One round of the loop of `getSelVectorToScan`. -/
def visitVector (startTS transactionID b : Nat) (selVector : SelectionVector)
    (startRow numRows outputPos : Nat) : SelectionVector :=
  match vi.getVectorVersionInfo b with
  | some v => v.getSelVectorForScan startTS transactionID selVector startRow numRows outputPos
  | none =>
    match selVector with
    | .unfiltered size => .unfiltered (size + numRows)
    | .filtered positions => .filtered (positions ++ List.range' outputPos numRows)

variable {vi} {sel : SelectionVector} {ts id b s m n out : Nat} {i : Nat}

theorem visitVector_of_selectsNone (h : vi.SelectsNone b) :
    vi.visitVector ts id b sel s n out = sel := by
  obtain ⟨v, hv, hstatus⟩ := h
  simp [visitVector, hv, VectorVersionInfo.getSelVectorForScan, hstatus]

theorem visitVector_of_selectsAll (h : vi.SelectsAll b) : vi.visitVector ts id b sel s n out =
      match sel with
      | .unfiltered size => .unfiltered (size + n)
      | .filtered positions => .filtered (positions ++ range' out n) := by
  unfold visitVector
  cases hv : vi.getVectorVersionInfo b with
  | none => rfl
  | some v => exact if_pos (h v hv)

/-- A vector of neither kind makes the selection a list. -/
theorem visitVector_of_checked (hall : ¬ vi.SelectsAll b) (hnone : ¬ vi.SelectsNone b) :
    ∃ v, vi.getVectorVersionInfo b = some v ∧ vi.visitVector ts id b sel s n out =
      .filtered (sel.positions ++ ((range n).filter fun i =>
        v.isSelected ts id (s + i)).map (out + ·)) := by
  cases hv : vi.getVectorVersionInfo b with
  | none => exact absurd (fun v h => by cases hv.symm.trans h) hall
  | some v =>
    refine ⟨v, rfl, ?_⟩
    have hchecked : ¬ (v.deletionStatus = .noDeleted ∧ v.insertionStatus = .alwaysInserted) := by
      intro hstatus
      exact hall fun w hw => by cases hv.symm.trans hw; exact hstatus
    have hinserted : v.insertionStatus ≠ .noInserted := fun h => hnone ⟨v, hv, h⟩
    simp only [visitVector, hv, VectorVersionInfo.getSelVectorForScan, if_neg hchecked,
      if_pos hinserted, VectorVersionInfo.isSelected_eq]

theorem isSelected_row {v : VectorVersionInfo k} (hv : vi.getVectorVersionInfo b = some v)
    (hi : i < vectorCapacity k) :
    vi.isSelected ts id (vectorCapacity k * b + i) = v.isSelected ts id i := by
  rw [isSelected, div_row hi, mod_row hi, hv]

theorem isSelected_of_selectsAll (h : vi.SelectsAll b) (hi : i < vectorCapacity k) :
    vi.isSelected ts id (vectorCapacity k * b + i) = true := by
  cases hv : vi.getVectorVersionInfo b with
  | none => rw [isSelected, div_row hi, hv]
  | some v =>
    rw [isSelected_row hv hi]
    exact if_pos (h v hv)

/-- The rows of one vector are added at their positions, unless all of them are selected and
the selection is unfiltered with rows missing. -/
theorem positions_visitVector (hs : s + n ≤ vectorCapacity k)
    (hsel : ∀ size, sel = .unfiltered size → vi.SelectsAll b → size = out) :
    (vi.visitVector ts id b sel s n out).positions = sel.positions ++
      ((range n).filter fun i => vi.isSelected ts id (vectorCapacity k * b + s + i)).map
        (out + ·) := by
  have hlt : ∀ i ∈ range n, s + i < vectorCapacity k := fun i hi => by
    have := mem_range.mp hi
    omega
  by_cases hall : vi.SelectsAll b
  · rw [visitVector_of_selectsAll hall, filter_eq_self.mpr fun i hi => by
      rw [Nat.add_assoc, isSelected_of_selectsAll hall (hlt i hi)]]
    cases sel with
    | unfiltered size =>
      obtain rfl := hsel size rfl hall
      exact range_add
    | filtered =>
      rw [← range'_eq_map_range]
      rfl
  · by_cases hnone : vi.SelectsNone b
    · rw [visitVector_of_selectsNone hnone]
      obtain ⟨v, hv, hstatus⟩ := hnone
      rw [filter_eq_nil_iff.mpr fun i hi => by
        rw [Nat.add_assoc, isSelected_row hv (hlt i hi)]
        simp [VectorVersionInfo.isSelected, hstatus]]
      exact (append_nil _).symm
    · obtain ⟨v, hv, hvisit⟩ := visitVector_of_checked hall hnone
      rw [hvisit, filter_congr fun i hi => (isSelected_row hv (hlt i hi)).symm]
      simp only [SelectionVector.positions, Nat.add_assoc]

/-! ## Ranges -/

/-- The loop with the parts of the range as `Foundation.Blocks` cuts them. -/
theorem getSelVectorToScan_eq_foldl {startRow : Nat} (hn : n ≠ 0) :
    vi.getSelVectorToScan ts id startRow n = ((range' (startRow / vectorCapacity k)
        ((startRow + n - 1) / vectorCapacity k - startRow / vectorCapacity k + 1)).foldl
        (fun state b =>
          (vi.visitVector ts id b state.1 (blockStart (vectorCapacity k) startRow b)
            (blockLen (vectorCapacity k) startRow n b) state.2,
            state.2 + blockLen (vectorCapacity k) startRow n b))
        (.unfiltered 0, 0)).1 := by
  rw [getSelVectorToScan, if_neg hn]
  rfl

theorem lastVector_of_one (hn : 0 < n) (hs : s + n ≤ vectorCapacity k) :
    (vectorCapacity k * b + s + n - 1) / vectorCapacity k = b ∧
      (vectorCapacity k * b + s + n - 1) % vectorCapacity k = s + n - 1 := by
  rw [show vectorCapacity k * b + s + n - 1 = vectorCapacity k * b + (s + n - 1) by omega]
  exact ⟨div_row (by omega), mod_row (by omega)⟩

/-- A range in one vector. -/
theorem positions_of_one (hs : s + n ≤ vectorCapacity k) :
    (vi.getSelVectorToScan ts id (vectorCapacity k * b + s) n).positions =
      (range n).filter fun i => vi.isSelected ts id (vectorCapacity k * b + s + i) := by
  rcases Nat.eq_zero_or_pos n with rfl | hn
  · rfl
  obtain ⟨hend, hlast⟩ := lastVector_of_one (b := b) hn hs
  have hrows : s + n - 1 - s + 1 = n := by omega
  have hscan : vi.getSelVectorToScan ts id (vectorCapacity k * b + s) n =
      vi.visitVector ts id b (.unfiltered 0) s n 0 := by
    rw [getSelVectorToScan_eq_foldl (by omega)]
    simp only [blockLen, blockStart, blockEnd, div_row (show s < vectorCapacity k by omega),
      mod_row (show s < vectorCapacity k by omega), hend, hlast, Nat.sub_self, Nat.zero_add,
      range'_one, foldl_cons, foldl_nil, if_true, hrows]
  rw [hscan, positions_visitVector hs (by rintro size ⟨⟩ -; rfl)]
  simp [SelectionVector.positions]

section

variable (hm : 0 < m) (hs : s + m = vectorCapacity k) (hn : 0 < n) (hle : n ≤ vectorCapacity k)

include hm hs hn hle

theorem getSelVectorToScan_two : vi.getSelVectorToScan ts id (vectorCapacity k * b + s) (m + n) =
      vi.visitVector ts id (b + 1) (vi.visitVector ts id b (.unfiltered 0) s m 0) 0 n m := by
  have hrange : vectorCapacity k * b + s + (m + n) = vectorCapacity k * (b + 1) + 0 + n := by
    rw [Nat.mul_add]
    omega
  obtain ⟨hend, hlast⟩ := lastVector_of_one (k := k) (b := b + 1) (s := 0) hn (by omega)
  have hvectors : range' b (b + 1 - b + 1) = [b, b + 1] := by
    rw [Nat.add_sub_cancel_left]
    rfl
  have hrows : 0 + n - 1 - 0 + 1 = n := by omega
  have hfirst : vectorCapacity k - 1 - s + 1 = m := by omega
  have hne : b ≠ b + 1 := by omega
  rw [getSelVectorToScan_eq_foldl (by omega)]
  simp only [blockLen, blockStart, blockEnd, hrange, div_row (show s < vectorCapacity k by omega),
    mod_row (show s < vectorCapacity k by omega), hend, hlast, hvectors, foldl_cons,
    foldl_nil, if_true, if_neg hne, if_neg hne.symm, hfirst]
  rw [hrows, Nat.zero_add]

/-- A range in two vectors: positions are wrong exactly if the first vector is passed over
and the second one extends the unfiltered selection. -/
theorem positions_of_two :
    (vi.getSelVectorToScan ts id (vectorCapacity k * b + s) (m + n)).positions =
        ((range (m + n)).filter fun i =>
          vi.isSelected ts id (vectorCapacity k * b + s + i)) ↔
      ¬ (vi.SelectsNone b ∧ vi.SelectsAll (b + 1)) := by
  have hfirst : (vi.visitVector ts id b (.unfiltered 0) s m 0).positions =
      (range m).filter fun i => vi.isSelected ts id (vectorCapacity k * b + s + i) := by
    rw [positions_visitVector (Nat.le_of_eq hs) (by rintro size ⟨⟩ -; rfl)]
    simp [SelectionVector.positions]
  have hsecond : ∀ i, vectorCapacity k * b + s + (m + i) = vectorCapacity k * (b + 1) + 0 + i := by
    intro i
    rw [Nat.mul_add]
    omega
  rw [getSelVectorToScan_two hm hs hn hle, range_add, filter_append, filter_map,
    Function.comp_def, ← hfirst]
  simp only [hsecond]
  constructor
  · rintro hpositions ⟨hnone, hall⟩
    have hlt : ∀ i ∈ range n, 0 + i < vectorCapacity k := fun i hi => by
      have := mem_range.mp hi
      omega
    rw [visitVector_of_selectsNone hnone, visitVector_of_selectsAll hall,
      filter_eq_self.mpr fun i hi => by
        rw [Nat.add_assoc, isSelected_of_selectsAll hall (hlt i hi)]] at hpositions
    -- the first position is that of the first row of the range
    have hhead := congrArg head? hpositions
    simp only [SelectionVector.positions, Nat.zero_add, range_zero, nil_append, head?_map,
      head?_range, if_neg (show n ≠ 0 by omega), Option.map_some, Option.some.injEq] at hhead
    omega
  · intro hshift
    refine positions_visitVector (by omega) fun size hsize hall => ?_
    have hnone : ¬ vi.SelectsNone b := fun hnone => hshift ⟨hnone, hall⟩
    by_cases hfull : vi.SelectsAll b
    · rw [visitVector_of_selectsAll hfull] at hsize
      cases hsize
      exact Nat.zero_add m
    · obtain ⟨v, -, hvisit⟩ := visitVector_of_checked hfull hnone
      cases hvisit.symm.trans hsize

end

/-- A scan of at most one vector of rows selects the rows that `isSelected` accepts. -/
theorem positions_getSelVectorToScan (vi : VersionInfo k) (startTS transactionID : Nat)
    {startRow numRows : Nat} (halign : startRow % vectorCapacity k = 0)
    (hnum : numRows ≤ vectorCapacity k) :
    (vi.getSelVectorToScan startTS transactionID startRow numRows).positions =
      (range numRows).filter fun i => vi.isSelected startTS transactionID (startRow + i) := by
  rw [← row_eq startRow]
  exact positions_of_one (by omega)

/-- The selection vector of a range of at most one vector capacity of rows holds the rows
that `isSelected` accepts exactly if the range does not start in a vector without rows and
go on into one that selects all of its rows. -/
theorem getSelVectorToScan_exact_iff (vi : VersionInfo k) (startTS transactionID : Nat)
    {startRow numRows : Nat} (hnum : numRows ≤ vectorCapacity k) :
    (vi.getSelVectorToScan startTS transactionID startRow numRows).positions =
        ((range numRows).filter fun i =>
          vi.isSelected startTS transactionID (startRow + i)) ↔
      ¬ vi.ShiftsRows startRow numRows := by
  have hs := Nat.mod_lt startRow (vectorCapacity_pos k)
  rw [← row_eq startRow]
  generalize startRow / vectorCapacity k = b at *
  generalize startRow % vectorCapacity k = s at *
  unfold ShiftsRows
  rw [div_row hs]
  rcases Nat.lt_or_ge (vectorCapacity k) (s + numRows) with htwo | hone
  · obtain ⟨m, hm⟩ : ∃ m, s + m = vectorCapacity k := ⟨vectorCapacity k - s, by omega⟩
    obtain ⟨n, rfl⟩ : ∃ n, numRows = m + n := ⟨numRows - m, by omega⟩
    have hrange : vectorCapacity k * b + s + (m + n) = vectorCapacity k * (b + 1) + 0 + n := by
      rw [Nat.mul_add]
      omega
    rw [positions_of_two (by omega) hm (by omega) (by omega), hrange,
      (lastVector_of_one (by omega) (by omega)).1]
    simp
  · refine iff_of_true (positions_of_one hone) ?_
    rintro ⟨hlt, -⟩
    have hle := Nat.div_le_div_right (c := vectorCapacity k)
      (show vectorCapacity k * b + s + numRows - 1 ≤ vectorCapacity k * b + (vectorCapacity k - 1)
        by omega)
    rw [div_row (by omega)] at hle
    omega

/-- Three rows that start in the middle of a vector are three positions. -/
theorem getSelVectorToScan_exact_iff_sample : ¬ ({} : VersionInfo 2).ShiftsRows 2 3 ∧
      (({} : VersionInfo 2).getSelVectorToScan 0 1 2 3).positions = [0, 1, 2] := by
  have hshift : ¬ ({} : VersionInfo 2).ShiftsRows 2 3 := by
    rintro ⟨-, ⟨v, hv, -⟩, -⟩
    cases hv
  exact ⟨hshift, (getSelVectorToScan_exact_iff {} 0 1 (by decide)).mpr hshift⟩

/-- `getNumDeletions` counts the rows of the range that are deleted. -/
theorem getNumDeletions_eq (vi : VersionInfo k) (t : Snapshot) (startRow numRows : Nat) :
    vi.getNumDeletions t startRow numRows =
      (range' startRow numRows).countP (vi.isDeleted t) := by
  unfold getNumDeletions
  split_ifs with hzero
  · rw [hzero]
    rfl
  have hB := vectorCapacity_pos k
  have hn : 0 < numRows := Nat.pos_of_ne_zero hzero
  rw [← (blockRows_perm hB hn).countP_eq, countP_flatMap]
  congr 1
  refine map_congr_left fun b hb => ?_
  rw [Function.comp_apply, ← map_add_range', countP_map]
  have hrow : ∀ i ∈ range' (blockStart (vectorCapacity k) startRow b)
      (blockLen (vectorCapacity k) startRow numRows b), i < vectorCapacity k := fun i hi =>
    Nat.lt_of_lt_of_le (mem_range'_1.mp hi).2 (blockPart_le hB hn ((mem_blocksOf hn).mp hb))
  cases hv : vi.getVectorVersionInfo b with
  | none =>
    refine (countP_eq_zero.mpr fun i hi => ?_).symm
    simp [isDeleted, div_row (hrow i hi), hv]
  | some v =>
    refine (v.getNumDeletions_eq _ _ _ _).trans (countP_congr fun i hi => ?_)
    simp [isDeleted, div_row (hrow i hi), mod_row (hrow i hi), hv]

end VersionInfo

/-- A transaction commits the rows of one vector; another one appends a row to the next
vector and rolls back. -/
def rolledBackVectorCalls : List VersionCall :=
  let a := startTransactionID + 1
  let b := startTransactionID + 2
  [.begin, .append a 2, .startCommit a 5, .commitRecord a, .finishCommit a, .begin, .append b 1,
    .startRollback b, .rollbackRecord b, .finishRollback b]

/-- The range of the last row of the vector that was rolled back and of the row behind it:
only the second row is selected, and the selection vector names the first one. -/
theorem getSelVectorToScan_shifts_rows :
    ¬ ∀ (k : Nat) (s : VersionHistory k), Reachable VersionHistory.step {} Always s →
      ∀ startTS transactionID startRow numRows, numRows ≤ vectorCapacity k →
        (s.versionInfo.getSelVectorToScan startTS transactionID startRow numRows).positions =
          (range numRows).filter fun i =>
            s.versionInfo.isSelected startTS transactionID (startRow + i) := by
  intro hexact
  obtain ⟨s, hs, hne⟩ : ∃ s : VersionHistory 1, Reachable VersionHistory.step {} Always s ∧
      (s.versionInfo.getSelVectorToScan 5 startTransactionID 3 2).positions ≠
        (range 2).filter fun i => s.versionInfo.isSelected 5 startTransactionID (3 + i) :=
    reachable_of_run rolledBackVectorCalls (by decide +kernel)
  exact hne (hexact 1 s hs 5 startTransactionID 3 2 (by decide))

end Lbug.Storage
