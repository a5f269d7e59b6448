/-
  Storage/AppendedRows.lean --- the rows of a chunked group after appends and rollbacks.

  A chunked group holds a list of rows, each with the number of its version and its values
  (`ChunkedNodeGroup.Holds`).  An append adds rows at the end, a commit changes their
  versions, and a rollback of the last rows cuts the list.

  A rollback goes record by record.  When it cuts a vector of which all rows have one
  version, the vector forgets the rows before the cut as well; these belong to the
  transaction that is rolled back, and the next records remove them.  Until then the
  versions are those of all other rows (`RepresentsOthers`).
-/
import Mathlib.Data.List.TakeDrop
import Lbug.Storage.NodeGroupCollection
import Lbug.Storage.NodeGroupView
import Lbug.Storage.RowVersions

namespace Lbug.Storage

open Foundation Transaction List Option VectorVersionInfo VersionInfo

universe u

/-! ## Versions -/

/-- No row is deleted. -/
abbrev undeleted : Nat → Nat := fun _ => invalidTransaction

namespace VectorVersionInfo

variable {k : Nat} {v : VectorVersionInfo k} {c : Nat} {ins : Nat → Nat}

theorem rollbackInsertions_idle (h : VectorRep v 0 ins undeleted) (start n : Nat) :
    VectorRep (v.rollbackInsertions start n) 0 ins undeleted := by
  cases h.insertion with
  | shared => omega
  | perRow => omega
  | idle _ hstatus hsame harray =>
    have heq : v.rollbackInsertions start n = { v with deletionStatus := .noDeleted } := by
      cases v
      simp_all [rollbackInsertions, isSameInsertionVersion, clearVersions]
    rw [heq]
    exact ⟨Nat.zero_le _, .idle rfl hstatus hsame harray,
      ⟨h.deletion.same, h.deletion.entry, fun _ _ _ => rfl⟩, fun _ _ _ => rfl⟩

end VectorVersionInfo

variable {n : Nat}

namespace VersionInfo

variable {k : Nat} {vi : VersionInfo k} {numRows T : Nat} {ins : Nat → Nat}

/-- The versions of all rows, but for vectors that have forgotten the rows of `T` and have
no others. -/
def RepresentsOthers (vi : VersionInfo k) (T numRows : Nat) (ins : Nat → Nat) : Prop :=
  ∀ b, VectorRep (vi.getOrCreateVersionInfo b) (rowsInVector k numRows b)
      (fun i => ins (vectorCapacity k * b + i)) undeleted ∨
    VectorRep (vi.getOrCreateVersionInfo b) 0 (fun i => ins (vectorCapacity k * b + i)) undeleted ∧
      ∀ i < rowsInVector k numRows b, ins (vectorCapacity k * b + i) = T

theorem Represents.others (h : vi.Represents numRows ins undeleted) (T : Nat) :
    vi.RepresentsOthers T numRows ins := fun b => .inl (h b)

variable (h : vi.RepresentsOthers T numRows ins)

include h

/-- Once no row of `T` is left, nothing is forgotten. -/
theorem RepresentsOthers.represents (hT : ∀ r < numRows, ins r ≠ T) :
    vi.Represents numRows ins undeleted := by
  intro b
  rcases h b with hb | ⟨hb, hrows⟩
  · exact hb
  have hnone : rowsInVector k numRows b = 0 := by
    rcases Nat.eq_zero_or_pos (rowsInVector k numRows b) with hzero | hpos
    · exact hzero
    · exact absurd (hrows 0 hpos) (hT _ (lt_rowsInVector_iff.mp hpos).2)
  rw [hnone]
  exact hb

/-- Rolling back the last rows, which are of `T`. -/
theorem RepresentsOthers.rollbackInsert {start : Nat} (hrange : start + n = numRows)
    (hT : ∀ r, start ≤ r → r < numRows → ins r = T) :
    (vi.rollbackInsert start n).RepresentsOthers T start ins := by
  rcases Nat.eq_zero_or_pos n with rfl | hn
  · rw [VersionInfo.rollbackInsert]
    rw [Nat.add_zero] at hrange
    exact hrange ▸ h
  intro b
  have hpos := vectorCapacity_pos k
  rw [VersionInfo.rollbackInsert, getOrCreate_forEachVector _ _ _ _ hn]
  by_cases hb : InBlocks (vectorCapacity k) start n b
  · rw [if_pos hb]
    obtain ⟨hstart, hend⟩ := rowsInVector_block hn hb
    rw [hrange] at hend
    have hlen : 0 < blockLen (vectorCapacity k) start n b := blockLen_pos
    rw [hstart]
    rcases h b with hrep | ⟨hrep, hrows⟩
    · by_cases hcut : blockStart (vectorCapacity k) start b ≠ 0 ∧
          (vi.getOrCreateVersionInfo b).isSameInsertionVersion = true
      · -- the rows before the cut have the version of those behind it
        refine .inr ⟨rollbackInsertions_shared hrep hcut.2 (fun _ _ => rfl) _ _, fun i hi => ?_⟩
        have hlast := shared_eq hrep hcut.2 (i := blockStart (vectorCapacity k) start b) (by omega)
        have hlt := lt_rowsInVector_iff.mp
          (show blockStart (vectorCapacity k) start b < rowsInVector k numRows b by omega)
        rw [shared_eq hrep hcut.2 (by omega), ← hlast]
        exact hT _ ((blockStart_le_iff hpos hb.1 _).mp (le_refl _)) hlt.2
      · refine .inl (rollbackInsertions_rep hrep hlen hend.symm (fun hne => ?_) fun _ _ _ => rfl)
        simpa [hne] using hcut
    · exact .inr ⟨rollbackInsertions_idle hrep _ _, fun i hi => hrows i (by omega)⟩
  · rw [if_neg hb]
    have hsame : rowsInVector k start b = rowsInVector k numRows b := by
      refine rowsInVector_eq (min_le_left _ _) fun i hi => ?_
      have := not_mem_of_not_inBlocks hi hb
      rw [lt_rowsInVector_iff]
      omega
    rw [hsame]
    exact h b

/-- The versions of all rows, or of all but those of a transaction that is being rolled
back. -/
def Describes (vi : VersionInfo k) : Option Nat → Nat → (Nat → Nat) → Prop
  | none, numRows, ins => vi.Represents numRows ins undeleted
  | some T, numRows, ins => vi.RepresentsOthers T numRows ins

omit h in
theorem Represents.congr {del ins' : Nat → Nat} (h : vi.Represents numRows ins del)
    (hins : ∀ r < numRows, ins' r = ins r) : vi.Represents numRows ins' del :=
  fun b => VectorRep.rows_congr (h b) (fun _ _ => Iff.rfl) hins

theorem RepresentsOthers.congr {ins' : Nat → Nat} (hins : ∀ r < numRows, ins' r = ins r) :
    vi.RepresentsOthers T numRows ins' := by
  intro b
  rcases h b with hb | ⟨hb, hrows⟩
  · have hb : VectorRep (vi.getOrCreateVersionInfo b) (rowsInVector k numRows b)
        (fun i => ins (vectorCapacity k * b + i))
        (fun i => undeleted (vectorCapacity k * b + i)) := hb
    exact .inl (VectorRep.rows_congr hb (fun _ _ => Iff.rfl) hins)
  · refine .inr ⟨⟨hb.le, hb.insertion.congr fun i hi => absurd hi (Nat.not_lt_zero i), hb.deletion,
      hb.unborn⟩, fun i hi => ?_⟩
    rw [hins _ (lt_rowsInVector_iff.mp hi).2, hrows i hi]

end VersionInfo

/-! ## Chunked groups -/

variable {k r T commitTS : Nat} {V : Type u} {rows a b : List (AppendedRow V)}
  {rows' : List (AppendedRow V)} {row : AppendedRow V}

/-- The version of a row. -/
def versionOf (rows : List (AppendedRow V)) (r : Nat) : Nat :=
  ((rows[r]?).map (·.version)).getD invalidTransaction

theorem versionOf_eq (h : rows[r]? = some row) : versionOf rows r = row.version := by
  rw [versionOf, h]
  rfl

theorem versionOf_take (h : r < n) : versionOf (rows.take n) r = versionOf rows r := by
  rw [versionOf, versionOf, getElem?_take, if_pos h]

theorem versionOf_drop (rows : List (AppendedRow V)) (n r : Nat) :
    versionOf (rows.drop n) r = versionOf rows (n + r) := by
  rw [versionOf, versionOf, getElem?_drop]

theorem versionOf_append_left (h : r < rows.length) :
    versionOf (rows ++ rows') r = versionOf rows r := by
  rw [versionOf, versionOf, getElem?_append_left h]

theorem versionOf_append_right (h : rows.length ≤ r) :
    versionOf (rows ++ rows') r = versionOf rows' (r - rows.length) := by
  rw [versionOf, versionOf, getElem?_append_right h]

namespace ChunkedNodeGroup

/-- A chunked group holds rows.  Its chunks may have more values. -/
structure Holds (cap numColumns : Nat) (T : Option Nat) (start : Nat) (c : ChunkedNodeGroup k V)
    (rows : List (AppendedRow V)) : Prop where
  residencyState : c.residencyState = .inMemory
  startRowIdx : c.startRowIdx = start
  capacity : c.capacity = cap
  numRows : c.numRows = rows.length
  columns : c.chunks.length = numColumns
  updates : ∀ chunk ∈ c.chunks, chunk.updateInfo = {}
  length_le : ∀ chunk ∈ c.chunks, rows.length ≤ chunk.values.length
  values : ∀ (r : Nat) row, rows[r]? = some row → c.chunks.map (fun chunk => chunk.values[r]?) =
    row.values
  versionInfo : rows ≠ [] → c.versionInfo.isSome = true
  versions : (c.versionInfo.getD {}).Describes T rows.length (versionOf rows)

/-- The chunks have no more values than there are rows. -/
def InStep (c : ChunkedNodeGroup k V) : Prop := ∀ chunk ∈ c.chunks, chunk.values.length = c.numRows
  deriving Decidable

variable {cap numColumns start T transactionID : Nat} {c : ChunkedNodeGroup k V}
  {rows : List (AppendedRow V)} {columns : List (List V)} {offset : Nat}

theorem holds_create (cap numColumns start : Nat) :
    (create cap numColumns start : ChunkedNodeGroup k V).Holds cap numColumns none start [] where
  residencyState := rfl
  startRowIdx := rfl
  capacity := rfl
  numRows := rfl
  columns := length_replicate
  updates := by
    intro chunk hchunk
    rw [eq_of_mem_replicate hchunk]
  length_le := fun _ _ => Nat.zero_le _
  values := by simp
  versionInfo := fun h => absurd rfl h
  versions := represents_empty _

theorem inStep_create (cap numColumns start : Nat) :
    (create cap numColumns start : ChunkedNodeGroup k V).InStep := by
  intro chunk hchunk
  rw [eq_of_mem_replicate hchunk]
  rfl

variable (h : c.Holds cap numColumns none start rows)

include h

theorem Holds.others (T : Nat) : c.Holds cap numColumns (some T) start rows :=
  { h with versions := VersionInfo.Represents.others h.versions T }

omit h in
theorem Holds.settled (h : c.Holds cap numColumns (some T) start rows)
    (hT : ∀ row ∈ rows, row.version ≠ T) : c.Holds cap numColumns none start rows := by
  refine { h with versions := VersionInfo.RepresentsOthers.represents h.versions fun r hr => ?_ }
  rw [versionOf_eq (getElem?_eq_getElem hr)]
  exact hT _ (getElem_mem hr)

omit h in
theorem mem_chunks_append {chunk : ColumnChunk k V}
    (h : chunk ∈ (c.append transactionID columns offset n).chunks) :
    ∃ chunk' ∈ c.chunks, ∃ column ∈ columns,
      chunk = { chunk' with values := chunk'.values ++ (column.drop offset).take n } := by
  obtain ⟨i, hi, rfl⟩ := getElem_of_mem h
  have hchunks : i < c.chunks.length := by simp [append] at hi; omega
  have hcolumns : i < columns.length := by simp [append] at hi; omega
  exact ⟨_, getElem_mem hchunks, _, getElem_mem hcolumns, by simp [append]⟩

omit h in
theorem InStep.append (h : c.InStep) (hlen : ∀ column ∈ columns, offset + n ≤ column.length) :
    (c.append transactionID columns offset n).InStep := by
  intro chunk hchunk
  obtain ⟨chunk', hmem, column, hcolumn, rfl⟩ := mem_chunks_append hchunk
  have hlen := hlen column hcolumn
  simp [ChunkedNodeGroup.append, h chunk' hmem]
  omega

/-- Rows are appended behind the others if the chunks are in step. -/
theorem Holds.append (hstep : c.InStep) (hid : transactionID ≠ invalidTransaction)
    (hdummy : transactionID ≠ dummyTransactionID) (hcolumns : columns.length = numColumns)
    (hlen : ∀ column ∈ columns, offset + n ≤ column.length) :
    (c.append transactionID columns offset n).Holds cap numColumns none start
      (rows ++ (range n).map fun i => ⟨transactionID, columns.map (·[offset + i]?)⟩) := by
  refine { h with
    numRows := by simp [ChunkedNodeGroup.append, h.numRows]
    columns := by simp [ChunkedNodeGroup.append, h.columns, hcolumns]
    updates := ?updates
    length_le := ?length_le
    values := ?values
    versionInfo := by simp [ChunkedNodeGroup.append, hdummy]
    versions := ?versions }
  case updates =>
    intro chunk hmem
    obtain ⟨chunk', hmem', _, -, rfl⟩ := mem_chunks_append hmem
    exact h.updates chunk' hmem'
  case length_le =>
    intro chunk hmem
    obtain ⟨chunk', hmem', column, hcolumn, rfl⟩ := mem_chunks_append hmem
    have hle := h.length_le chunk' hmem'
    have hcol := hlen column hcolumn
    simp only [length_append, length_map, length_range, length_take, length_drop]
    omega
  case values =>
    intro r row hrow
    have hvalues : ∀ chunk ∈ c.chunks, chunk.values.length = rows.length := fun chunk hmem =>
      (hstep chunk hmem).trans h.numRows
    have hlenEq : c.chunks.length = columns.length := h.columns.trans hcolumns.symm
    rcases lt_or_ge r rows.length with hr | hr
    · rw [getElem?_append_left hr] at hrow
      rw [← h.values r row hrow]
      refine ext_getElem (by simp [ChunkedNodeGroup.append, hlenEq]) fun i hi hi' => ?_
      have hi₁ : i < c.chunks.length := by simpa using hi'
      have hlt : r < c.chunks[i].values.length := by
        rw [hvalues _ (getElem_mem hi₁)]
        exact hr
      simp [ChunkedNodeGroup.append, getElem?_append_left hlt]
    · rw [getElem?_append_right hr, List.getElem?_map] at hrow
      obtain ⟨_, hj, rfl⟩ := map_eq_some_iff.mp hrow
      obtain ⟨hjn, rfl⟩ := List.getElem?_eq_some_iff.mp hj
      rw [length_range] at hjn
      refine ext_getElem (by simp [ChunkedNodeGroup.append, hlenEq]) fun i hi hi' => ?_
      have hi₁ : i < c.chunks.length := by simp [ChunkedNodeGroup.append] at hi; omega
      have hge : c.chunks[i].values.length ≤ r := by
        rw [hvalues _ (getElem_mem hi₁)]
        exact hr
      simp [ChunkedNodeGroup.append, getElem?_append_right hge, hvalues _ (getElem_mem hi₁), hjn]
  case versions =>
    have hrep := append_represents h.versions hid n
    have hget : (c.append transactionID columns offset n).versionInfo.getD {} =
        (c.versionInfo.getD {}).append transactionID rows.length n := by
      simp [ChunkedNodeGroup.append, hdummy, h.numRows]
    rw [hget, length_append, length_map, length_range]
    refine VersionInfo.Represents.congr hrep fun r hr => ?_
    split_ifs with hge
    · rw [versionOf, getElem?_append_right hge, List.getElem?_map, getElem?_range (by omega)]
      rfl
    · rw [versionOf, getElem?_append_left (by omega)]
      rfl

omit h in
/-- The last rows are rolled back. -/
theorem Holds.rollbackInsert (h : c.Holds cap numColumns (some T) start rows) {startRow : Nat}
    (hrange : startRow + n = rows.length) (hn : 0 < n)
    (hT : ∀ row ∈ rows.drop startRow, row.version = T) :
    (c.rollbackInsert startRow n).Holds cap numColumns (some T) start (rows.take startRow) := by
  rcases Nat.eq_zero_or_pos startRow with rfl | hpos
  · exact
      { h with
        numRows := rfl
        columns := (length_map _).trans h.columns
        updates := by
          intro chunk hmem
          obtain ⟨chunk', hmem', rfl⟩ := mem_map.mp hmem
          exact h.updates chunk' hmem'
        length_le := fun _ _ => Nat.zero_le _
        values := by simp
        versionInfo := fun hne => absurd rfl hne
        versions := (represents_empty _).others T }
  · have hlt : ¬c.numRows ≤ startRow := by
      rw [h.numRows]
      omega
    have heq : c.rollbackInsert startRow n =
        { c with
          versionInfo := c.versionInfo.map (·.rollbackInsert startRow n)
          numRows := startRow } := by
      rw [ChunkedNodeGroup.rollbackInsert, if_neg (by omega), if_neg hlt]
    have hlen : (rows.take startRow).length = startRow := by
      rw [length_take]
      omega
    have hsome : c.versionInfo.isSome = true := h.versionInfo (by
      rintro rfl
      simp at hrange
      omega)
    obtain ⟨_, hvi⟩ := isSome_iff_exists.mp hsome
    rw [heq]
    refine { h with
      numRows := hlen.symm
      length_le := fun chunk hmem => le_trans (length_take_le' ..) (h.length_le chunk hmem)
      values := fun r row hrow => ?_
      versionInfo := by simp [hvi]
      versions := ?_ }
    · rw [getElem?_take] at hrow
      split at hrow
      · exact h.values r row hrow
      · cases hrow
    · have hversions := h.versions
      rw [hvi] at hversions
      simp only [hvi, hlen]
      refine VersionInfo.RepresentsOthers.congr
        (VersionInfo.RepresentsOthers.rollbackInsert hversions hrange fun r hge hr => ?_)
        fun r hr => versionOf_take hr
      rw [versionOf_eq (getElem?_eq_getElem hr)]
      exact hT _ (mem_iff_getElem?.mpr ⟨r - startRow, by
        rw [getElem?_drop, Nat.add_sub_cancel' hge, getElem?_eq_getElem hr]⟩)

/-- A lookup finds a row if its version is seen. -/
theorem Holds.lookup (hr : rows[r]? = some row) {t : Snapshot} (ht : t.InRange) :
    c.lookup t r = if visible t.startTS t.id row.version then some row.values else none := by
  obtain ⟨hlt, -⟩ := List.getElem?_eq_some_iff.mp hr
  obtain ⟨_, hvi⟩ := isSome_iff_exists.mp (h.versionInfo (ne_nil_of_length_pos
    (lt_of_le_of_lt (Nat.zero_le r) hlt)))
  have hversions := h.versions
  rw [hvi, getD_some] at hversions
  have hselected : c.isSelected t r = visible t.startTS t.id row.version := by
    rw [isSelected, hvi]
    dsimp only
    rw [VersionInfo.Represents.isSelected hversions hlt ht, versionOf_eq hr,
      ht.not_visible_invalid, Bool.not_false, Bool.and_true]
  have hread : c.readRow t r = row.values := by
    rw [← h.values r row hr]
    refine map_congr_left fun chunk hmem => ?_
    rw [ColumnChunk.lookup, h.updates chunk hmem]
    simp [UpdateInfo.lookup]
  rw [ChunkedNodeGroup.lookup, hselected, hread]

end ChunkedNodeGroup

/-- Rows after a part of a commit: some of the rows of `T` have the timestamp. -/
structure CommittedRows (T commitTS : Nat) (rows rows' : List (AppendedRow V)) : Prop where
  length : rows'.length = rows.length
  row : ∀ (r : Nat) row row', rows[r]? = some row → rows'[r]? = some row' →
    row'.values = row.values ∧
      (row'.version = row.version ∨ row.version = T ∧ row'.version = commitTS)

theorem CommittedRows.refl (T commitTS : Nat) (rows : List (AppendedRow V)) :
    CommittedRows T commitTS rows rows := by
  refine ⟨rfl, fun r row row' h h' => ?_⟩
  cases h.symm.trans h'
  exact ⟨rfl, .inl rfl⟩

theorem CommittedRows.trans {c : List (AppendedRow V)} (hab : CommittedRows T commitTS a b)
    (hbc : CommittedRows T commitTS b c) :
    CommittedRows T commitTS a c := by
  refine ⟨hbc.length.trans hab.length, fun r row row'' hrow hrow'' => ?_⟩
  have hlt : r < b.length := by
    rw [hab.length]
    exact (List.getElem?_eq_some_iff.mp hrow).1
  obtain ⟨hvalues, hversion⟩ := hab.row r row _ hrow (List.getElem?_eq_getElem hlt)
  obtain ⟨hvalues', hversion'⟩ := hbc.row r _ row'' (List.getElem?_eq_getElem hlt) hrow''
  refine ⟨hvalues'.trans hvalues, ?_⟩
  rcases hversion with heq | ⟨hT, hts⟩ <;> rcases hversion' with heq' | ⟨hT', hts'⟩
  · exact .inl (heq'.trans heq)
  · exact .inr ⟨heq.symm.trans hT', hts'⟩
  · exact .inr ⟨hT, heq'.trans hts⟩
  · exact .inr ⟨hT, hts'⟩

theorem CommittedRows.versionOf (h : CommittedRows T commitTS a b) (r : Nat) :
    versionOf b r = versionOf a r ∨ versionOf a r = T ∧ versionOf b r = commitTS := by
  rcases lt_or_ge r a.length with hlt | hge
  · have ha := getElem?_eq_getElem hlt
    have hb := getElem?_eq_getElem (h.length ▸ hlt : r < b.length)
    rw [versionOf_eq ha, versionOf_eq hb]
    exact (h.row r _ _ ha hb).2
  · left
    rw [Storage.versionOf, Storage.versionOf, getElem?_eq_none hge,
      getElem?_eq_none (h.length ▸ hge)]

theorem CommittedRows.append {a' b' : List (AppendedRow V)} (ha : CommittedRows T commitTS a a')
    (hb : CommittedRows T commitTS b b') :
    CommittedRows T commitTS (a ++ b) (a' ++ b') := by
  refine ⟨by rw [length_append, length_append, ha.length, hb.length],
    fun r row row' hrow hrow' => ?_⟩
  rcases lt_or_ge r a.length with hr | hr
  · rw [getElem?_append_left hr] at hrow
    rw [getElem?_append_left (ha.length ▸ hr)] at hrow'
    exact ha.row r row row' hrow hrow'
  · rw [getElem?_append_right hr] at hrow
    rw [getElem?_append_right (ha.length ▸ hr), ha.length] at hrow'
    exact hb.row _ row row' hrow hrow'

namespace ChunkedNodeGroup

variable {cap numColumns start T commitTS : Nat} {c : ChunkedNodeGroup k V}
  {rows : List (AppendedRow V)}

/-- Rows of `T` are committed.  Some of them may have the timestamp already. -/
theorem Holds.commitInsert (h : c.Holds cap numColumns none start rows) (startRow n : Nat)
    (hrange : startRow + n ≤ rows.length) (hts : commitTS ≠ invalidTransaction)
    (hT : ∀ r, startRow ≤ r → r < startRow + n →
      versionOf rows r = T ∨ versionOf rows r = commitTS) :
    ∃ rows', (ChunkedNodeGroup.commitInsert commitTS c startRow n).Holds cap numColumns none start
        rows' ∧ CommittedRows T commitTS rows rows' ∧
      ∀ r, startRow ≤ r → r < startRow + n → versionOf rows' r = commitTS := by
  cases hvi : c.versionInfo with
  | none =>
    have hnil : rows = [] := by
      by_contra hne
      have hsome := h.versionInfo hne
      rw [hvi] at hsome
      cases hsome
    have hzero : n = 0 := by
      rw [hnil, length_nil] at hrange
      omega
    have hsame : ChunkedNodeGroup.commitInsert commitTS c startRow n = c := by
      rw [ChunkedNodeGroup.commitInsert, hvi, map_none, ← hvi]
    exact ⟨rows, by rw [hsame]; exact h, .refl _ _ _, fun r hr hlt => by omega⟩
  | some vi =>
    have hversions := h.versions
    rw [hvi] at hversions
    obtain ⟨ins, hrep, hin, hother⟩ := commitInsert_represents hversions hts hrange
    let rows' := rows.mapIdx fun r row => { row with version := ins r }
    have hget : ∀ (r : Nat) row', rows'[r]? = some row' ↔ ∃ row, rows[r]? = some row ∧
        row' = { row with version := ins r } := by
      intro r row'
      simp [rows', eq_comm (a := row')]
    have hversion : ∀ r < rows.length, versionOf rows' r = ins r := by
      intro r hr
      rw [versionOf_eq ((hget r _).mpr ⟨_, List.getElem?_eq_getElem hr, rfl⟩)]
    refine ⟨rows', ?_, ?_, fun r hr hlt => by rw [hversion r (by omega), hin r hr hlt]⟩
    · have hlen : rows'.length = rows.length := length_mapIdx
      have hinfo : (ChunkedNodeGroup.commitInsert commitTS c startRow n).versionInfo =
          some (vi.commitInsert startRow n commitTS) := by
        simp [ChunkedNodeGroup.commitInsert, hvi]
      refine { h with
        numRows := h.numRows.trans hlen.symm
        length_le := hlen ▸ h.length_le
        values := fun r row' hrow' => ?_
        versionInfo := by simp [hinfo]
        versions := ?_ }
      · obtain ⟨row, hrow, rfl⟩ := (hget r row').mp hrow'
        exact h.values r row hrow
      · rw [hinfo, hlen]
        exact VersionInfo.Represents.congr hrep hversion
    · refine ⟨length_mapIdx, fun r row row' hrow hrow' => ?_⟩
      obtain ⟨_, hrow₀, rfl⟩ := (hget r row').mp hrow'
      cases hrow.symm.trans hrow₀
      refine ⟨rfl, ?_⟩
      rcases hother r (List.getElem?_eq_some_iff.mp hrow).1 with heq | ⟨heq, r₀, hlow, hhigh, hsame⟩
      · exact .inl (heq.trans (versionOf_eq hrow))
      · rw [versionOf_eq hrow] at hsame
        rcases hT r₀ hlow hhigh with hold | hnew
        · exact .inr ⟨hsame.symm.trans hold, heq⟩
        · exact .inl (heq.trans (hnew.symm.trans hsame))

end ChunkedNodeGroup

end Lbug.Storage
