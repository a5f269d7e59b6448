/-
  Storage/AppendHistory.lean --- runs of appends, commits and rollbacks.

  In every state of a run in which no append follows a rollback in its chunked group, no
  append goes over the end of a node group whose cursor is behind its rows, and no rollback
  is of rows in front of rows of another transaction, and no append throws: each row that
  was appended and not rolled back is read back at its offset.  Without the condition a row
  reads the values of a row that was rolled back, or is lost, or the append does not
  return, or the number of rows is too large.
-/
import Lbug.Foundation.Indices
import Lbug.Storage.AppendedCollection

namespace Lbug.Storage

open Foundation Transaction List Function

universe u

variable {k : Nat} {V : Type u}

/-- The numbers are those that the transaction manager hands out, and each row has a value
in each column. -/
def AppendAction.Proper (numColumns : Nat) : AppendAction V → Prop
  | .append transactionID columns numRows =>
    startTransactionID ≤ transactionID ∧ transactionID < invalidTransaction ∧
      columns.length = numColumns ∧ ∀ column ∈ columns, column.length = numRows
  | .appendThrows transactionID columns numRows _ _ =>
    startTransactionID ≤ transactionID ∧ transactionID < invalidTransaction ∧
      columns.length = numColumns ∧ ∀ column ∈ columns, column.length = numRows
  | .commit transactionID commitTS =>
    startTransactionID ≤ transactionID ∧ commitTS < startTransactionID
  | .rollback transactionID => startTransactionID ≤ transactionID

instance (numColumns : Nat) : (a : AppendAction V) → Decidable (a.Proper numColumns)
  | .append _ _ _ => inferInstanceAs (Decidable (_ ∧ _ ∧ _ ∧ ∀ column ∈ _, _))
  | .appendThrows _ _ _ _ _ => inferInstanceAs (Decidable (_ ∧ _ ∧ _ ∧ ∀ column ∈ _, _))
  | .commit _ _ => inferInstanceAs (Decidable (_ ∧ _))
  | .rollback _ => inferInstanceAs (Decidable (_ ≤ _))

/-- The rows of an append fit in the last node group, no append throws, and the rows of a
rollback are the last ones. -/
def AppendState.InSequence (size : Nat) (s : AppendState k V) : AppendAction V → Prop
  | .append _ _ numRows => Fits size numRows s.collection.nodeGroups
  | .appendThrows _ _ _ _ _ => False
  | .commit _ _ => True
  | .rollback transactionID => ∀ x ∈ s.rows, ∀ y ∈ s.rows,
      x.2.version = transactionID → x.1 < y.1 → y.2.version = transactionID

instance (size : Nat) (s : AppendState k V) : (a : AppendAction V) → Decidable (s.InSequence size a)
  | .append _ _ numRows => inferInstanceAs (Decidable (Fits size numRows _))
  | .appendThrows _ _ _ _ _ => inferInstanceAs (Decidable False)
  | .commit _ _ => inferInstanceAs (Decidable True)
  | .rollback _ => inferInstanceAs (Decidable (∀ x ∈ s.rows, ∀ y ∈ s.rows, _))

/-! ## Rows of a transaction -/

/-- The offsets of the rows of a version. -/
def positions (T : Nat) (rows : List (AppendedRow V)) : List Nat :=
  indicesWhere (fun row => row.version = T) rows

/-- The rows with their offsets. -/
def withOffsets (rows : List (AppendedRow V)) : List (Nat × AppendedRow V) :=
  (List.range rows.length).zip rows

section

variable {T : Nat} {rows new : List (AppendedRow V)}

theorem withOffsets_append :
    withOffsets (rows ++ new) = withOffsets rows ++ (range' rows.length new.length).zip new := by
  rw [withOffsets, length_append, range_eq_range', ← range'_append_1, Nat.zero_add,
    zip_append (length_range' ..), withOffsets, range_eq_range']

theorem mem_withOffsets {x : Nat × AppendedRow V} :
    x ∈ withOffsets rows ↔ rows[x.1]? = some x.2 := by
  rw [mem_iff_getElem?]
  constructor
  · rintro ⟨i, hi⟩
    obtain ⟨hrange, hrow⟩ := getElem?_zip_eq_some.mp hi
    obtain ⟨hlt, heq⟩ := List.getElem?_eq_some_iff.mp hrange
    rw [getElem_range] at heq
    rw [← heq]
    exact hrow
  · intro hrow
    have hlt := (List.getElem?_eq_some_iff.mp hrow).1
    exact ⟨x.1, getElem?_zip_eq_some.mpr ⟨getElem?_range hlt, hrow⟩⟩

theorem mem_positions {o : Nat} :
    o ∈ positions T rows ↔ o < rows.length ∧ versionOf rows o = T := by
  rw [positions, mem_indicesWhere]
  constructor
  · rintro ⟨row, hrow, hT⟩
    exact ⟨(List.getElem?_eq_some_iff.mp hrow).1, (versionOf_eq hrow).trans hT⟩
  · rintro ⟨ho, hT⟩
    have hrow := List.getElem?_eq_getElem ho
    exact ⟨_, hrow, (versionOf_eq hrow).symm.trans hT⟩

theorem positions_append_of_forall (h : ∀ row ∈ new, row.version = T) :
    positions T (rows ++ new) = positions T rows ++ range' rows.length new.length :=
  indicesWhere_append_of_forall h

theorem positions_append_of_forall_ne (h : ∀ row ∈ new, row.version ≠ T) :
    positions T (rows ++ new) = positions T rows :=
  indicesWhere_append_of_forall_not h

theorem positions_of_forall_ne (h : ∀ row ∈ rows, row.version ≠ T) : positions T rows = [] :=
  indicesWhere_of_forall_not h

/-- Rows of `T` behind all other rows. -/
theorem exists_eq_append (h : ∀ i j, i < j → j < rows.length → versionOf rows i = T →
    versionOf rows j = T) :
    ∃ front back, rows = front ++ back ∧ (∀ row ∈ front, row.version ≠ T) ∧
      ∀ row ∈ back, row.version = T := by
  induction rows with
  | nil => exact ⟨[], [], rfl, by simp, by simp⟩
  | cons row rows ih =>
    by_cases hT : row.version = T
    · refine ⟨[], row :: rows, rfl, by simp, fun row' hrow' => ?_⟩
      obtain ⟨j, hj⟩ := mem_iff_getElem?.mp hrow'
      rcases Nat.eq_zero_or_pos j with rfl | hpos
      · cases hj
        exact hT
      · rw [← versionOf_eq hj]
        exact h 0 j hpos (List.getElem?_eq_some_iff.mp hj).1 hT
    · obtain ⟨front, back, rfl, hfront, hback⟩ := ih fun i j hij hj hi =>
        h (i + 1) (j + 1) (by omega) (by rw [length_cons]; omega) hi
      exact ⟨row :: front, back, rfl, by simpa using ⟨hT, hfront⟩, hback⟩

end

/-! ## The invariant -/

namespace AppendState

/-- The state with the rows `rows`, in the order of their offsets. -/
structure Inv (size cap numColumns : Nat) (s : AppendState k V) (rows : List (AppendedRow V)) :
    Prop where
  rows_eq : s.rows = withOffsets rows
  collection : s.collection.Holds size cap numColumns none rows
  valid : ∀ T, ∀ r ∈ s.undoBuffer T, r.Valid size
  offsets : ∀ T, startTransactionID ≤ T →
    (s.undoBuffer T).flatMap (·.offsets size) = positions T rows

variable {size cap numColumns T commitTS : Nat} {s s' : AppendState k V}
  {rows : List (AppendedRow V)}
  {columns : List (List V)} {n : Nat}

theorem inv_init : (init numColumns : AppendState k V).Inv size cap numColumns [] where
  rows_eq := rfl
  collection := ⟨rfl, rfl, rfl⟩
  valid := fun _ _ hr => absurd hr not_mem_nil
  offsets := fun _ _ => rfl

theorem version_of_mem_rowsOf {row : AppendedRow V} (h : row ∈ rowsOf T columns n) :
    row.version = T := by
  obtain ⟨_, -, rfl⟩ := mem_map.mp h
  rfl

theorem length_rowsOf (T : Nat) (columns : List (List V)) (n : Nat) :
    (rowsOf T columns n).length = n := by
  simp [rowsOf]

section

variable (h : s.Inv size cap numColumns rows) (hcap : 0 < cap) (hsize : 0 < size)

include h hcap hsize

theorem Inv.append (hproper : (AppendAction.append T columns n).Proper numColumns)
    (hfits : Fits size n s.collection.nodeGroups) :
    ∃ s', s.step size cap (.append T columns n) = some s' ∧
      s'.Inv size cap numColumns (rows ++ rowsOf T columns n) := by
  obtain ⟨hid, hvalid, hcolumns, hlen⟩ := hproper
  have hdummy : T ≠ dummyTransactionID := by
    have hpos : dummyTransactionID < startTransactionID := by decide
    omega
  obtain ⟨_, _, happend, hholds, hoffsets, hrecords⟩ := h.collection.append hcap hsize
    (ne_of_lt hvalid) hdummy hcolumns (fun column hmem => le_of_eq (hlen column hmem).symm)
    hfits
  refine ⟨_, by rw [step, happend, Option.map_some], ?_, hholds, fun T' r hr => ?_,
    fun T' hT' => ?_⟩
  · dsimp only
    rw [h.rows_eq, hoffsets, withOffsets_append, length_rowsOf]
  · dsimp only at hr
    by_cases hT : T' = T
    · rw [hT, update_self] at hr
      rcases mem_append.mp hr with hr | hr
      · exact h.valid T r hr
      · exact hrecords r hr
    · rw [update_of_ne hT] at hr
      exact h.valid T' r hr
  · dsimp only
    by_cases hT : T' = T
    · rw [hT, update_self, flatMap_append, h.offsets T hid, hoffsets,
        positions_append_of_forall fun _ => version_of_mem_rowsOf, length_rowsOf]
    · rw [update_of_ne hT, h.offsets T' hT', positions_append_of_forall_ne]
      intro row hrow
      rw [version_of_mem_rowsOf hrow]
      exact Ne.symm hT

theorem Inv.rollback (hid : startTransactionID ≤ T) (hlast : s.InSequence size (.rollback T))
    (hs : s.step size cap (.rollback T) = some s') :
    ∃ rows', s'.Inv size cap numColumns rows' := by
  have hbehind : ∀ i j, i < j → j < rows.length → versionOf rows i = T → versionOf rows j = T := by
    intro i j hij hj hi
    have hlt : i < rows.length := by omega
    have hx : (i, rows[i]) ∈ s.rows := by
      rw [h.rows_eq, mem_withOffsets]
      exact getElem?_eq_getElem hlt
    have hy : (j, rows[j]) ∈ s.rows := by
      rw [h.rows_eq, mem_withOffsets]
      exact getElem?_eq_getElem hj
    rw [versionOf_eq (getElem?_eq_getElem hj)]
    rw [versionOf_eq (getElem?_eq_getElem hlt)] at hi
    exact hlast _ hx _ hy hi hij
  obtain ⟨front, _, rfl, hfront, hback⟩ := exists_eq_append hbehind
  have hoffsets := h.offsets T hid
  rw [positions_append_of_forall hback, positions_of_forall_ne hfront, nil_append] at hoffsets
  have hrolled := (h.collection.others T).rollbackRecords hcap hsize (s.undoBuffer T) (h.valid T)
    (o := front.length) (by simp) (by rw [hoffsets, length_append, Nat.add_sub_cancel_left])
    (by rw [drop_left]; exact hback)
  rw [take_left] at hrolled
  cases hs
  refine ⟨front, ?_, hrolled.settled hfront, fun T' r hr => ?_, fun T' hT' => ?_⟩
  · dsimp only
    rw [h.rows_eq, withOffsets_append, filter_append, filter_eq_self.mpr,
      filter_eq_nil_iff.mpr, append_nil]
    · intro x hx
      have hmem := of_mem_zip hx
      simpa using hback x.2 hmem.2
    · intro x hx
      have hmem := of_mem_zip hx
      simpa using hfront x.2 hmem.2
  · dsimp only at hr
    by_cases hT : T' = T
    · rw [hT, update_self] at hr
      cases hr
    · rw [update_of_ne hT] at hr
      exact h.valid T' r hr
  · dsimp only
    by_cases hT : T' = T
    · rw [hT, update_self, positions_of_forall_ne hfront]
      rfl
    · rw [update_of_ne hT, h.offsets T' hT', positions_append_of_forall_ne]
      intro row hrow
      rw [hback row hrow]
      exact Ne.symm hT

end

/-- The version of a row after a commit. -/
def committed (T commitTS : Nat) (row : AppendedRow V) : AppendedRow V :=
  if row.version = T then { row with version := commitTS } else row

section

variable (T commitTS : Nat) (row : AppendedRow V)

theorem version_committed :
    (committed T commitTS row).version = if row.version = T then commitTS else row.version := by
  unfold committed
  split <;> rfl

theorem values_committed : (committed T commitTS row).values = row.values := by
  unfold committed
  split <;> rfl

end

/-- All rows of `T` have the timestamp. -/
theorem eq_map_committed {rows' : List (AppendedRow V)} (h : CommittedRows T commitTS rows rows')
    (hdone : ∀ j ∈ positions T rows, versionOf rows' j = commitTS) :
    rows' = rows.map (committed T commitTS) := by
  refine ext_getElem (by rw [h.length, length_map]) fun j hj' hj => ?_
  rw [length_map] at hj
  obtain ⟨hvalues, hversion⟩ := h.row j _ _ (getElem?_eq_getElem hj) (getElem?_eq_getElem hj')
  rw [getElem_map]
  refine AppendedRow.ext ?_ (by rw [hvalues, values_committed])
  rw [version_committed]
  split_ifs with hT
  · rw [← versionOf_eq (getElem?_eq_getElem hj')]
    exact hdone j (mem_positions.mpr ⟨hj, (versionOf_eq (getElem?_eq_getElem hj)).trans hT⟩)
  · exact hversion.resolve_right fun hcommitted => hT hcommitted.1

theorem positions_map_committed {T' : Nat} (hne : T' ≠ commitTS) :
    positions T' (rows.map (committed T commitTS)) = if T' = T then [] else positions T' rows := by
  rw [positions, indicesWhere_map]
  split_ifs with hT
  · subst hT
    refine indicesWhere_of_forall_not fun row _ hnew => ?_
    rw [version_committed] at hnew
    split at hnew
    · exact hne hnew.symm
    · rename_i hold
      exact hold hnew
  · refine indicesWhere_congr fun row _ => ?_
    rw [version_committed]
    split_ifs with hold
    · rw [hold]
      exact ⟨fun heq => absurd heq.symm hne, fun heq => absurd heq.symm hT⟩
    · rfl

section

variable (h : s.Inv size cap numColumns rows) (hcap : 0 < cap) (hsize : 0 < size)

include h hcap hsize

theorem Inv.commit (hid : startTransactionID ≤ T) (hts : commitTS < startTransactionID)
    (hs : s.step size cap (.commit T commitTS) = some s') :
    s'.Inv size cap numColumns (rows.map (committed T commitTS)) := by
  have hvalid : commitTS ≠ invalidTransaction := by
    have hlt : startTransactionID < invalidTransaction := by decide
    omega
  obtain ⟨_, hholds, hcommitted, hdone⟩ := h.collection.commitRecords hcap hsize hvalid
    (s.undoBuffer T) (h.valid T) fun j hj => by
      rw [h.offsets T hid] at hj
      obtain ⟨hlt, hT⟩ := mem_positions.mp hj
      exact ⟨hlt, .inl hT⟩
  rw [h.offsets T hid] at hdone
  obtain rfl := eq_map_committed hcommitted hdone
  cases hs
  refine ⟨?_, hholds, fun T' r hr => ?_, fun T' hT' => ?_⟩
  · dsimp only
    rw [h.rows_eq, withOffsets, withOffsets, length_map, zip_map_right]
    rfl
  · dsimp only at hr
    by_cases hT : T' = T
    · rw [hT, update_self] at hr
      cases hr
    · rw [update_of_ne hT] at hr
      exact h.valid T' r hr
  · dsimp only
    rw [positions_map_committed (by omega)]
    by_cases hT : T' = T
    · rw [hT, update_self, if_pos rfl]
      rfl
    · rw [update_of_ne hT, if_neg hT, h.offsets T' hT']

theorem Inv.step {a : AppendAction V} (hproper : a.Proper numColumns) (hseq : s.InSequence size a) :
    ∃ s', s.step size cap a = some s' ∧ ∃ rows', s'.Inv size cap numColumns rows' := by
  cases a with
  | append =>
    obtain ⟨s', hs, h'⟩ := h.append hcap hsize hproper hseq
    exact ⟨s', hs, _, h'⟩
  | appendThrows => exact hseq.elim
  | commit => exact ⟨_, rfl, _, h.commit hcap hsize hproper.1 hproper.2 rfl⟩
  | rollback => exact ⟨_, rfl, h.rollback hcap hsize hproper hseq rfl⟩

end

/-- A run of proper calls that meet the condition. -/
def Permitted (size numColumns : Nat) (s : AppendState k V) (a : AppendAction V) : Prop :=
  a.Proper numColumns ∧ s.InSequence size a
  deriving Decidable

theorem exists_inv (hcap : 0 < cap) (hsize : 0 < size)
    (h : Reachable (AppendState.step size cap) (init numColumns) (Permitted size numColumns) s) :
    ∃ rows, s.Inv size cap numColumns rows := by
  refine h.invariant (fun s : AppendState k V => ∃ rows, s.Inv size cap numColumns rows)
    ⟨[], inv_init⟩ ?_
  rintro s a s' ⟨rows, hinv⟩ ⟨hproper, hseq⟩ hs
  obtain ⟨_, hs₁, hrows⟩ := hinv.step hcap hsize hproper hseq
  cases hs.symm.trans hs₁
  exact hrows

end AppendState

/-- In every state of a run of permitted calls, a row that was appended and not rolled back
has its own offset and is read back there, in every column, by the transactions that see
it; permitted calls return, and the rows of an append get the next offsets. -/
theorem appended_rows_read_back (size cap numColumns : Nat) (hcap : 0 < cap) (hsize : 0 < size)
    (s : AppendState k V)
    (h : Reachable (AppendState.step size cap) (.init numColumns)
      (AppendState.Permitted size numColumns) s) :
    (s.rows.map Prod.fst).Nodup ∧ s.collection.numTotalRows = s.rows.length ∧
      (∀ x ∈ s.rows, ∀ t : Snapshot, t.InRange → s.collection.lookup size cap t x.1 =
        if visible t.startTS t.id x.2.version then some x.2.values else none) ∧
      (∀ a, AppendState.Permitted size numColumns s a → (s.step size cap a).isSome = true) ∧
      ∀ T columns n s', AppendState.Permitted size numColumns s (.append T columns n) →
        s.step size cap (.append T columns n) = some s' →
        s'.rows = s.rows ++ (range' s.collection.numTotalRows n).zip (rowsOf T columns n) := by
  obtain ⟨rows, hinv⟩ := AppendState.exists_inv hcap hsize h
  have hlen : (withOffsets rows).length = rows.length := by
    rw [withOffsets, length_zip, length_range, min_self]
  refine ⟨?_, ?_, ?_, ?_, ?_⟩
  · rw [hinv.rows_eq, withOffsets, map_fst_zip (by simp)]
    exact nodup_range
  · rw [hinv.rows_eq, hlen]
    exact hinv.collection.numTotalRows_eq
  · intro x hx t ht
    rw [hinv.rows_eq, mem_withOffsets] at hx
    exact hinv.collection.lookup hcap hsize hx ht
  · rintro a ⟨hproper, hseq⟩
    obtain ⟨_, hs', -⟩ := hinv.step hcap hsize hproper hseq
    rw [hs']
    rfl
  · rintro T columns n s' ⟨hproper, hseq⟩ hs'
    obtain ⟨_, hs₁, hinv'⟩ := hinv.append hcap hsize hproper hseq
    cases hs'.symm.trans hs₁
    rw [hinv'.rows_eq, hinv.rows_eq, withOffsets_append, AppendState.length_rowsOf,
      hinv.collection.numTotalRows_eq]

/-- Two transactions append after each other, and the second one rolls back. -/
theorem appended_rows_read_back_sample :
    ∃ s : AppendState 11 Nat, Reachable (AppendState.step 131072 2048) (.init 2)
        (AppendState.Permitted 131072 2) s ∧ s.rows.length = 2 ∧
      s.collection.numTotalRows = s.rows.length ∧
      ∀ x ∈ s.rows, ∀ t : Snapshot, t.InRange → s.collection.lookup 131072 2048 t x.1 =
        if visible t.startTS t.id x.2.version then some x.2.values else none := by
  refine exists_reachable_of_run
    [.append startTransactionID [[1, 2], [3, 4]] 2, .commit startTransactionID 1,
      .append (startTransactionID + 1) [[5], [6]] 1, .append (startTransactionID + 1) [[7], [8]] 1,
      .rollback (startTransactionID + 2), .append (startTransactionID + 1) [[], []] 0,
      .rollback (startTransactionID + 1), .commit (startTransactionID + 3) 2]
    (fun s => s.rows.length = 2) (by decide +kernel) fun s hs hlen => ?_
  obtain ⟨-, htotal, hread, -⟩ := appended_rows_read_back 131072 2048 2 (by decide) (by decide) s hs
  exact ⟨hlen, htotal, hread⟩

/-- A transaction rolls back one row behind a committed one, and the next transaction
appends a row: it reads the value that was rolled back.  If a row of another transaction
was appended and committed behind the rows that are rolled back, it is gone.  An append
that throws and is rolled back leaves the number of rows too large. -/
theorem rolled_back_value_read_and_committed_row_lost :
    (∃ s : AppendState 11 Nat, Reachable (AppendState.step 131072 2048) (.init 1)
        (fun _ a => a.Proper 1) s ∧
      (1, ⟨startTransactionID + 2, [some 3]⟩) ∈ s.rows ∧
      s.collection.lookup 131072 2048 ⟨startTransactionID + 2, 1⟩ 1 = some [some 2]) ∧
    (∃ s : AppendState 11 Nat, Reachable (AppendState.step 131072 2048) (.init 1)
        (fun _ a => a.Proper 1) s ∧
      (1, ⟨1, [some 2]⟩) ∈ s.rows ∧
      s.collection.lookup 131072 2048 ⟨startTransactionID + 2, 1⟩ 1 = none) ∧
    ∃ s : AppendState 11 Nat, Reachable (AppendState.step 131072 2048) (.init 1)
        (fun _ a => a.Proper 1) s ∧
      s.rows = [] ∧ s.collection.numTotalRows = 1 := by
  refine ⟨?_, ?_, ?_⟩
  · exact reachable_of_run
      [.append startTransactionID [[1]] 1, .commit startTransactionID 1,
        .append (startTransactionID + 1) [[2]] 1, .rollback (startTransactionID + 1),
        .append (startTransactionID + 2) [[3]] 1] (by decide +kernel)
  · exact reachable_of_run
      [.append startTransactionID [[1]] 1, .append (startTransactionID + 1) [[2]] 1,
        .commit (startTransactionID + 1) 1, .rollback startTransactionID] (by decide +kernel)
  · exact reachable_of_run
      [.appendThrows startTransactionID [[1]] 1 0 0, .rollback startTransactionID]
      (by decide +kernel)

end Lbug.Storage
