/-
  Storage/CSRHistory.lean --- runs of inserts, commits and rollbacks on a CSR node group.

  In every state of a run in which a transaction is rolled back only if it has no rows in
  the node group, or if all rows are its own and the node group goes away with them, the
  index of each bound node lists the rows of that node.  A rollback that leaves other rows
  also leaves the index entries of the rows it takes off, and the rows that are appended
  next are then reached through a bound node they do not belong to.
-/
import Lbug.Foundation.Transition
import Lbug.Storage.AppendHistory
import Lbug.Storage.CSRIndex

namespace Lbug.Storage

open Foundation Transaction List Function AppendState CSRNodeGroup

universe u

variable {k commitTS : Nat} {V : Type u} {index : Nat → NodeCSRIndex}
  {rows : List (Nat × AppendedRow V)} {columns : List (List V)} {lengths : List Nat}
  {startRow : Nat} {b : Nat}

/-! ## The index of a bound node -/

namespace NodeCSRIndex

/-- A sequential index is a start and a length. -/
def Wf (i : NodeCSRIndex) : Prop := i.isSequential = true → ∃ start n, i.rowIndices = [start, n]

theorem getRows_sequential (start n : Nat) :
    (⟨true, [start, n]⟩ : NodeCSRIndex).getRows = range' start n := rfl

/-- New rows that follow the others leave a sorted list sorted. -/
theorem insertionSort_append_range' {rows : List Nat} (hsorted : rows.Pairwise (· < ·))
    (hlt : ∀ r ∈ rows, r < startRow) (n : Nat) :
    (rows ++ range' startRow n).insertionSort (· ≤ ·) = rows ++ range' startRow n := by
  refine List.Pairwise.insertionSort_eq (pairwise_append.mpr ⟨?_, ?_, fun r hr r' hr' => ?_⟩)
  · exact hsorted.imp le_of_lt
  · exact pairwise_le_range'
  · have hle := (mem_range'_1.mp hr').1
    have hr := hlt r hr
    omega

theorem update_spec {i : NodeCSRIndex} (h : i.Wf) (hsorted : i.getRows.Pairwise (· < ·))
    (hlt : ∀ r ∈ i.getRows, r < startRow) (n : Nat) :
    (i.update startRow n).Wf ∧
      (i.update startRow n).getRows = i.getRows ++ range' startRow n := by
  obtain ⟨sequential, rowIndices⟩ := i
  cases sequential with
  | true =>
    obtain ⟨start, m, hrows⟩ := h rfl
    subst hrows
    rw [getRows_sequential] at hsorted hlt ⊢
    by_cases hend : start + m = startRow
    · have hupdate : update ⟨true, [start, m]⟩ startRow n = ⟨true, [start, m + n]⟩ := by
        simp [update, NodeCSRIndex.startRow, length, hend]
      rw [hupdate, ← hend, range'_append_1]
      exact ⟨fun _ => ⟨_, _, rfl⟩, rfl⟩
    · have hupdate : update ⟨true, [start, m]⟩ startRow n =
          ⟨false, (range' start m ++ range' startRow n).insertionSort (· ≤ ·)⟩ := by
        simp [update, NodeCSRIndex.startRow, length, hend]
      rw [hupdate, insertionSort_append_range' hsorted hlt]
      exact ⟨fun hseq => absurd hseq Bool.false_ne_true, rfl⟩
  | false =>
    cases rowIndices with
    | nil => exact ⟨fun _ => ⟨_, _, rfl⟩, rfl⟩
    | cons r rest =>
      have hupdate : update ⟨false, r :: rest⟩ startRow n =
          ⟨false, ((r :: rest) ++ range' startRow n).insertionSort (· ≤ ·)⟩ := by
        simp [update]
      change (r :: rest).Pairwise (· < ·) at hsorted
      rw [hupdate, insertionSort_append_range' hsorted hlt]
      exact ⟨fun hseq => absurd hseq Bool.false_ne_true, rfl⟩

end NodeCSRIndex

/-- Each bound node has the rows of its own, with their places in `rows`. -/
def IndexLists (index : Nat → NodeCSRIndex) (rows : List (Nat × AppendedRow V)) : Prop :=
  ∀ b, (index b).Wf ∧ (index b).getRows = indicesWhere (fun x => x.1 = b) rows

/-- The next rows are of one bound node. -/
theorem IndexLists.update (h : IndexLists index rows) (new : List (Nat × AppendedRow V))
    (hnew : ∀ x ∈ new, x.1 = b) :
    IndexLists (updateCSRIndex index b rows.length new.length) (rows ++ new) := by
  intro b'
  obtain ⟨hwf, hrows⟩ := h b'
  rw [updateCSRIndex]
  rcases eq_or_ne b' b with rfl | hb
  · rw [update_self, indicesWhere_append_of_forall hnew, ← hrows]
    refine NodeCSRIndex.update_spec hwf ?_ (fun r hr => ?_) _
    · rw [hrows]
      exact pairwise_indicesWhere
    · rw [hrows] at hr
      obtain ⟨_, hx, -⟩ := mem_indicesWhere.mp hr
      exact (List.getElem?_eq_some_iff.mp hx).1
  · rw [update_of_ne hb, indicesWhere_append_of_forall_not]
    · exact ⟨hwf, hrows⟩
    · intro x hx hx'
      exact hb (hx'.symm.trans (hnew x hx))

theorem length_boundsOf (lengths : List Nat) (i : Nat) :
    (CSRState.boundsOf i lengths).length = lengths.sum := by
  induction lengths generalizing i with
  | nil => rfl
  | cons _ _ ih => simp [CSRState.boundsOf, ih]

/-- The rows of a `COPY`, bound node after bound node. -/
theorem IndexLists.updateLoop (lengths : List Nat) (i : Nat) (h : IndexLists index rows)
    (new : List (AppendedRow V)) (hlen : new.length = lengths.sum) :
    IndexLists (updateLoop index i rows.length lengths)
      (rows ++ (CSRState.boundsOf i lengths).zip new) := by
  induction lengths generalizing i index rows new with
  | nil =>
    rw [CSRState.boundsOf, zip_nil_left, append_nil]
    exact h
  | cons length lengths ih =>
    rw [sum_cons] at hlen
    -- the first `length` rows are of bound node `i`
    have hfront : (replicate length i).length = (new.take length).length := by
      rw [length_replicate, length_take]
      omega
    have hrest : (new.drop length).length = lengths.sum := by
      rw [length_drop]
      omega
    have hsplit : (CSRState.boundsOf i (length :: lengths)).zip new =
        (replicate length i).zip (new.take length) ++
          (CSRState.boundsOf (i + 1) lengths).zip (new.drop length) := by
      rw [← zip_append hfront, take_append_drop]
      rfl
    have hcount : ((replicate length i).zip (new.take length)).length = length := by
      rw [length_zip, ← hfront, min_self, length_replicate]
    have hone := h.update ((replicate length i).zip (new.take length))
      fun x hx => eq_of_mem_replicate (of_mem_zip hx).1
    have hall := ih (i + 1) hone (new.drop length) hrest
    rw [length_append, hcount, append_assoc, ← hsplit] at hall
    exact hall

/-! ## The node group -/

namespace NodeGroup

theorem applyLoop_eq_nil_iff (f : ChunkedNodeGroup k V → Nat → Nat → ChunkedNodeGroup k V)
    (cs : List (ChunkedNodeGroup k V)) (startRow n : Nat) :
    applyLoop f cs startRow n = [] ↔ cs = [] := by
  cases cs with
  | nil => exact Iff.rfl
  | cons =>
    rw [applyLoop]
    split <;> simp

/-- A commit does not touch the values. -/
theorem applyLoop_inStep {cs : List (ChunkedNodeGroup k V)} (h : ∀ c ∈ cs.getLast?, c.InStep)
    (commitTS startRow n : Nat) :
    ∀ c ∈ (applyLoop (ChunkedNodeGroup.commitInsert commitTS) cs startRow n).getLast?,
      c.InStep := by
  induction cs generalizing startRow n with
  | nil => exact h
  | cons c cs ih =>
    rw [applyLoop]
    split
    · exact h
    rcases cs.eq_nil_or_concat with rfl | ⟨_, _, rfl⟩
    · intro c' hc'
      obtain rfl := Option.some.inj hc'
      exact h c rfl
    · rw [getLast?_cons_of_ne_nil fun hnil =>
        absurd ((applyLoop_eq_nil_iff ..).mp hnil) (by simp)]
      refine ih (fun c' hc' => h c' ?_) _ _
      rw [getLast?_cons_of_ne_nil (by simp)]
      exact hc'

theorem InStep.commitInsert {g : NodeGroup k V} (h : g.InStep) (cap commitTS startRow n : Nat) :
    (g.applyFuncToChunkedGroups cap (ChunkedNodeGroup.commitInsert commitTS) startRow
      n).InStep := by
  unfold applyFuncToChunkedGroups
  split
  · exact h
  rename_i i row _
  unfold InStep
  have hsplit := take_append_drop i g.chunkedGroups
  rw [getLast?_append]
  intro c hc
  rcases hlast : (applyLoop (ChunkedNodeGroup.commitInsert commitTS) (g.chunkedGroups.drop i) row
    n).getLast? with _ | _
  · -- the loop has nothing to do
    rw [hlast] at hc
    have hnil := (applyLoop_eq_nil_iff ..).mp (getLast?_eq_none_iff.mp hlast)
    rw [hnil, append_nil] at hsplit
    rw [hsplit] at hc
    exact h c hc
  · rw [hlast] at hc
    refine applyLoop_inStep (fun c hc => h c ?_) commitTS row n c (hlast.trans hc)
    rw [← hsplit, getLast?_append, hc]
    rfl

end NodeGroup

namespace CSRNodeGroup

/-- A CSR node group holds rows, and its index lists them. -/
structure Holds (cap numColumns : Nat) (g : CSRNodeGroup k V) (rows : List (Nat × AppendedRow V)) :
    Prop where
  nodeGroup : g.nodeGroup.Holds cap numColumns none (rows.map Prod.snd)
  inStep : g.nodeGroup.InStep
  index : IndexLists (g.csrIndex.getD fun _ => {}) rows

variable {cap numColumns T : Nat} {g : CSRNodeGroup k V} {rows : List (Nat × AppendedRow V)}

theorem holds_create : (create numColumns : CSRNodeGroup k V).Holds cap numColumns [] where
  nodeGroup := ⟨rfl, rfl, rfl⟩
  inStep := fun _ hc => absurd hc (by simp [create])
  index := fun _ => ⟨fun h => absurd h Bool.false_ne_true, rfl⟩

section

variable (h : g.Holds cap numColumns rows)

include h

theorem Holds.numRows_eq : g.nodeGroup.numRows = rows.length := by
  rw [h.nodeGroup.numRows_eq, length_map]

theorem Holds.rowsOfNode_eq (b : Nat) : g.rowsOfNode b = indicesWhere (fun x => x.1 = b) rows := by
  rw [← (h.index b).2, rowsOfNode]
  cases g.csrIndex <;> rfl

/-- A scan of a bound node reads its rows. -/
theorem Holds.scan (hcap : 0 < cap) {t : Snapshot} (ht : t.InRange) (b : Nat) :
    g.scanCommittedInMem cap t b =
      ((rows.filter fun x => x.1 = b).map Prod.snd).filterMap fun row =>
        if visible t.startTS t.id row.version then some row.values else none := by
  rw [scanCommittedInMem, h.rowsOfNode_eq, filterMap_map]
  refine filterMap_indicesWhere fun i x hx => ?_
  exact h.nodeGroup.lookup hcap (by rw [getElem?_map, hx, Option.map_some]) ht

end

/-- The transaction has an ID that the transaction manager hands out. -/
def ValidID (T : Nat) : Prop := startTransactionID ≤ T ∧ T < invalidTransaction
  deriving Decidable

theorem ValidID.ne_dummy (hT : ValidID T) : T ≠ dummyTransactionID := by
  have hpos : dummyTransactionID < startTransactionID := by decide
  have hle := hT.1
  omega

theorem rowsOf_one (T : Nat) (row : List V) :
    rowsOf T (row.map fun value => [value]) 1 = [⟨T, row.map some⟩] := by
  simp [rowsOf]

section

variable (h : g.Holds cap numColumns rows) (hcap : 0 < cap) (hT : ValidID T)

include h hcap hT

theorem Holds.append (b : Nat) {row : List V} (hrow : row.length = numColumns) :
    (g.append cap T b row).Holds cap numColumns (rows ++ [(b, ⟨T, row.map some⟩)]) := by
  have hcolumns : (row.map fun value => [value]).length = numColumns := by
    rw [length_map, hrow]
  obtain ⟨hgroup, hstep⟩ := h.nodeGroup.append hcap h.inStep (ne_of_lt hT.2) hT.ne_dummy
    hcolumns one_pos (by simp)
  rw [rowsOf_one] at hgroup
  refine ⟨by rw [map_append]; exact hgroup, hstep, ?_⟩
  have hindex := h.index.update (b := b) [(b, ⟨T, row.map some⟩)] (by simp)
  rw [← h.numRows_eq] at hindex
  exact hindex

theorem Holds.appendRows (b : Nat) {new : List (List V)}
    (hnew : ∀ row ∈ new, row.length = numColumns) :
    (g.appendRows cap T b new).Holds cap numColumns
      (rows ++ new.map fun row => (b, ⟨T, row.map some⟩)) := by
  induction new generalizing g rows with
  | nil =>
    rw [map_nil, append_nil]
    exact h
  | cons row _ ih =>
    have hone := h.append hcap hT b (hnew row mem_cons_self)
    have hall := ih hone fun row' hrow' => hnew row' (mem_cons_of_mem _ hrow')
    rw [append_assoc] at hall
    exact hall

theorem Holds.appendChunkedCSRGroup (hpos : 0 < lengths.sum)
    (hcolumns : columns.length = numColumns)
    (hlen : ∀ column ∈ columns, column.length = lengths.sum) :
    (g.appendChunkedCSRGroup cap T lengths columns).Holds cap numColumns
      (rows ++ (CSRState.boundsOf 0 lengths).zip (rowsOf T columns lengths.sum)) := by
  obtain ⟨hgroup, hstep⟩ := h.nodeGroup.append hcap h.inStep (ne_of_lt hT.2) hT.ne_dummy
    hcolumns hpos fun column hmem => le_of_eq (hlen column hmem).symm
  have hlength := length_rowsOf T columns lengths.sum
  refine ⟨?_, hstep, ?_⟩
  · rw [map_append, map_snd_zip (by rw [length_boundsOf, hlength])]
    exact hgroup
  · have hindex := h.index.updateLoop lengths 0 _ hlength
    rw [← h.numRows_eq] at hindex
    exact hindex

end

/-- A row after the commit of `T`. -/
def committedRow (T commitTS : Nat) (x : Nat × AppendedRow V) : Nat × AppendedRow V :=
  (x.1, AppendState.committed T commitTS x.2)

theorem IndexLists.congr {rows' : List (Nat × AppendedRow V)} (h : IndexLists index rows)
    (hrows : rows'.map Prod.fst = rows.map Prod.fst) :
    IndexLists index rows' := by
  intro b
  have hfst : indicesWhere (fun x => x.1 = b) rows' = indicesWhere (fun x => x.1 = b) rows := by
    rw [← indicesWhere_map (p := fun c => c = b) Prod.fst, hrows, indicesWhere_map]
  rw [hfst]
  exact h b

/-- A part of the rows of `T` is committed, record by record. -/
theorem foldl_commitInsert (hcap : 0 < cap) (hts : commitTS ≠ invalidTransaction)
    (records : List InsertRecord) {stored : List (AppendedRow V)}
    (hgroup : g.nodeGroup.Holds cap numColumns none stored) (hstep : g.nodeGroup.InStep)
    (hpos : ∀ r ∈ records, 0 < r.numRows)
    (hT : ∀ j ∈ records.flatMap (fun r => List.range' r.startRow r.numRows), j < stored.length ∧
      (versionOf stored j = T ∨ versionOf stored j = commitTS)) :
    ∃ stored', CommittedRows T commitTS stored stored' ∧
      (records.foldl (fun g r => g.commitInsert cap commitTS r) g).nodeGroup.Holds cap numColumns
        none stored' ∧
      (records.foldl (fun g r => g.commitInsert cap commitTS r) g).nodeGroup.InStep ∧
      (records.foldl (fun g r => g.commitInsert cap commitTS r) g).csrIndex = g.csrIndex ∧
      ∀ j ∈ records.flatMap (fun r => range' r.startRow r.numRows),
        versionOf stored' j = commitTS := by
  induction records generalizing g stored with
  | nil => exact ⟨stored, .refl _ _ _, hgroup, hstep, rfl, fun j hj => absurd hj (by simp)⟩
  | cons r _ ih =>
    have hr := hpos r mem_cons_self
    have hfirst : ∀ j, r.startRow ≤ j → j < r.startRow + r.numRows → j < stored.length ∧
        (versionOf stored j = T ∨ versionOf stored j = commitTS) := fun j hle hlt =>
      hT j (mem_append_left _ (mem_range'_1.mpr ⟨hle, hlt⟩))
    have hend := (hfirst (r.startRow + r.numRows - 1) (by omega) (by omega)).1
    obtain ⟨_, hgroup₁, hcommitted₁, hdone₁⟩ := hgroup.commitInsert hcap hts hr
      (by omega) fun j hle hlt => (hfirst j hle hlt).2
    obtain ⟨stored₂, hcommitted₂, hgroup₂, hstep₂, hindex₂, hdone₂⟩ :=
      ih (g := g.commitInsert cap commitTS r) hgroup₁
        (hstep.commitInsert cap commitTS r.startRow r.numRows)
        (fun r' hr' => hpos r' (mem_cons_of_mem _ hr')) fun j hj => by
          obtain ⟨hlt, hversion⟩ := hT j (mem_append_right _ hj)
          refine ⟨by rw [hcommitted₁.length]; exact hlt, ?_⟩
          rcases hcommitted₁.versionOf j with hsame | ⟨-, hnew⟩
          · rw [hsame]
            exact hversion
          · exact .inr hnew
    refine ⟨stored₂, hcommitted₁.trans hcommitted₂, hgroup₂, hstep₂, hindex₂, fun j hj => ?_⟩
    rcases mem_append.mp hj with hj | hj
    · obtain ⟨hle, hlt⟩ := mem_range'_1.mp hj
      -- a row that has the timestamp keeps it
      rcases hcommitted₂.versionOf j with hsame | ⟨-, hnew⟩
      · rw [hsame]
        exact hdone₁ j hle hlt
      · exact hnew
    · exact hdone₂ j hj

/-- All rows of `T` are committed. -/
theorem Holds.commit (h : g.Holds cap numColumns rows) (hcap : 0 < cap)
    (hts : commitTS < startTransactionID) {records : List InsertRecord}
    (hpos : ∀ r ∈ records, 0 < r.numRows)
    (hrecords : records.flatMap (fun r => List.range' r.startRow r.numRows) =
      positions T (rows.map Prod.snd)) :
    (records.foldl (fun g r => g.commitInsert cap commitTS r) g).Holds cap numColumns
      (rows.map (committedRow T commitTS)) := by
  have hvalid : commitTS ≠ invalidTransaction := by
    have hlt : startTransactionID < invalidTransaction := by decide
    omega
  obtain ⟨_, hcommitted, hgroup, hstep, hindex, hdone⟩ := foldl_commitInsert hcap
    hvalid records h.nodeGroup h.inStep hpos fun j hj => by
      rw [hrecords] at hj
      obtain ⟨hlt, hT⟩ := mem_positions.mp hj
      exact ⟨hlt, .inl hT⟩
  rw [hrecords] at hdone
  obtain rfl := eq_map_committed hcommitted hdone
  refine ⟨?_, hstep, ?_⟩
  · rw [map_map] at hgroup ⊢
    exact hgroup
  · rw [hindex]
    exact IndexLists.congr h.index (by rw [map_map]; rfl)

/-- The rollback of the records of a transaction ends at the row of the first one. -/
theorem numRows_foldr_rollbackInsert (r : InsertRecord) (records : List InsertRecord)
    (g : CSRNodeGroup k V) :
    ((r :: records).foldr (fun r g => g.rollbackInsert cap r) g).nodeGroup.numRows =
      r.startRow := rfl

end CSRNodeGroup

/-! ## Runs -/

/-- The numbers are those that the transaction manager hands out, there are rows to insert,
and each row has a value in each column. -/
def CSRAction.Proper (numColumns : Nat) : CSRAction V → Prop
  | .insert transactionID _ rows =>
    CSRNodeGroup.ValidID transactionID ∧ rows ≠ [] ∧ ∀ row ∈ rows, row.length = numColumns
  | .copy transactionID lengths columns =>
    CSRNodeGroup.ValidID transactionID ∧ 0 < lengths.sum ∧ columns.length = numColumns ∧
      ∀ column ∈ columns, column.length = lengths.sum
  | .commit transactionID commitTS =>
    CSRNodeGroup.ValidID transactionID ∧ commitTS < startTransactionID
  | .rollback transactionID _ => CSRNodeGroup.ValidID transactionID

instance (numColumns : Nat) : (a : CSRAction V) → Decidable (a.Proper numColumns)
  | .insert _ _ rows => inferInstanceAs (Decidable (_ ∧ ¬rows = [] ∧ ∀ row ∈ rows, _))
  | .copy _ _ columns => inferInstanceAs (Decidable (_ ∧ _ ∧ _ ∧ ∀ column ∈ columns, _))
  | .commit _ _ => inferInstanceAs (Decidable (_ ∧ _))
  | .rollback _ _ => inferInstanceAs (Decidable (CSRNodeGroup.ValidID _))

/-- A rollback is of a transaction without rows here, or the node group goes away. -/
def CSRState.RollsBackWhole (s : CSRState k V) : CSRAction V → Prop
  | .rollback transactionID trailing =>
    (∀ x ∈ s.rows, x.2.version ≠ transactionID) ∨
      (∀ x ∈ s.rows, x.2.version = transactionID) ∧ trailing = true
  | _ => True

instance (s : CSRState k V) : (a : CSRAction V) → Decidable (s.RollsBackWhole a)
  | .insert .. | .copy .. | .commit .. => inferInstanceAs (Decidable True)
  | .rollback _ _ => inferInstanceAs (Decidable ((∀ x ∈ s.rows, _) ∨ (∀ x ∈ s.rows, _) ∧ _))

namespace CSRState

/-- The rows of the records. -/
def recordRows (records : List InsertRecord) : List Nat :=
  records.flatMap fun r => List.range' r.startRow r.numRows

structure Inv (cap numColumns : Nat) (s : CSRState k V) : Prop where
  numColumns_eq : s.numColumns = numColumns
  group : s.getOrCreate.Holds cap numColumns s.rows
  pos : ∀ T, ∀ r ∈ s.undoBuffer T, 0 < r.numRows
  records : ∀ T, startTransactionID ≤ T →
    recordRows (s.undoBuffer T) = positions T (s.rows.map Prod.snd)

variable {cap numColumns nodeGroupIdx T : Nat} {s : CSRState k V}

theorem inv_init : (init numColumns nodeGroupIdx : CSRState k V).Inv cap numColumns where
  numColumns_eq := rfl
  group := holds_create
  pos := fun _ _ hr => absurd hr not_mem_nil
  records := fun _ _ => rfl

section

variable (h : s.Inv cap numColumns) {new : List (Nat × AppendedRow V)}

include h

theorem Inv.rows_eq_nil (hgroup : s.group = none) : s.rows = [] := by
  have hlen := h.group.numRows_eq
  rw [getOrCreate, hgroup] at hlen
  exact length_eq_zero_iff.mp hlen.symm

/-- The records of the transactions when `T` has appended `new`. -/
theorem Inv.pushInsertInfo (hnew : ∀ x ∈ new, x.2.version = T) (hpos : 0 < new.length) :
    (∀ T', ∀ r ∈ s.pushInsertInfo T new.length T', 0 < r.numRows) ∧
      ∀ T', startTransactionID ≤ T' → recordRows (s.pushInsertInfo T new.length T') =
        positions T' ((s.rows ++ new).map Prod.snd) := by
  have hversion : ∀ row ∈ new.map Prod.snd, row.version = T := by
    intro row hrow
    obtain ⟨x, hx, rfl⟩ := mem_map.mp hrow
    exact hnew x hx
  refine ⟨fun T' r hr => ?_, fun T' hT' => ?_⟩
  · rcases eq_or_ne T' T with rfl | hT
    · rw [CSRState.pushInsertInfo, update_self] at hr
      rcases mem_append.mp hr with hr | hr
      · exact h.pos T' r hr
      · rw [mem_singleton.mp hr]
        exact hpos
    · rw [CSRState.pushInsertInfo, update_of_ne hT] at hr
      exact h.pos T' r hr
  · rw [map_append]
    rcases eq_or_ne T' T with rfl | hT
    · rw [CSRState.pushInsertInfo, positions_append_of_forall hversion, ← h.records T' hT',
        h.group.numRows_eq]
      simp [recordRows]
    · rw [CSRState.pushInsertInfo, update_of_ne hT, h.records T' hT', positions_append_of_forall_ne]
      intro row hrow heq
      exact hT (heq.symm.trans (hversion row hrow))

/-- Rows of `T` are appended. -/
theorem Inv.extend {g : CSRNodeGroup k V} (hg : g.Holds cap numColumns (s.rows ++ new))
    (hnew : ∀ x ∈ new, x.2.version = T) (hpos : 0 < new.length) {n : Nat} (hn : n = new.length) :
    ({ s with
      group := some g
      undoBuffer := s.pushInsertInfo T n
      rows := s.rows ++ new } : CSRState k V).Inv cap numColumns := by
  subst hn
  obtain ⟨hrecordsPos, hrecords⟩ := h.pushInsertInfo hnew hpos
  exact ⟨h.numColumns_eq, hg, hrecordsPos, hrecords⟩

theorem Inv.insert (hcap : 0 < cap) {rows : List (List V)}
    (hproper : (CSRAction.insert T b rows).Proper numColumns) :
    (s.step cap (.insert T b rows)).Inv cap numColumns := by
  obtain ⟨hT, hne, hrows⟩ := hproper
  refine h.extend (h.group.appendRows hcap hT b hrows) (fun x hx => ?_) ?_ (length_map _).symm
  · obtain ⟨_, -, rfl⟩ := mem_map.mp hx
    rfl
  · rw [length_map]
    exact length_pos_iff.mpr hne

theorem Inv.copy (hcap : 0 < cap) (hproper : (CSRAction.copy T lengths columns).Proper numColumns) :
    (s.step cap (.copy T lengths columns)).Inv cap numColumns := by
  obtain ⟨hT, hpos, hcolumns, hlen⟩ := hproper
  have hlength : ((boundsOf 0 lengths).zip (rowsOf T columns lengths.sum)).length =
      lengths.sum := by
    rw [length_zip, length_boundsOf, length_rowsOf, min_self]
  refine h.extend (h.group.appendChunkedCSRGroup hcap hT hpos hcolumns hlen) (fun x hx => ?_) ?_
    hlength.symm
  · exact version_of_mem_rowsOf (of_mem_zip hx).2
  · rw [hlength]
    exact hpos

/-- The records of the other transactions when `T` has ended. -/
theorem Inv.end_records (stored : List (AppendedRow V)) (hT : positions T stored = [])
    (hothers : ∀ T', startTransactionID ≤ T' → T' ≠ T →
      positions T' stored = positions T' (s.rows.map Prod.snd)) :
    (∀ T', ∀ r ∈ update s.undoBuffer T [] T', 0 < r.numRows) ∧ ∀ T', startTransactionID ≤ T' →
        recordRows (update s.undoBuffer T [] T') = positions T' stored := by
  refine ⟨fun T' r hr => ?_, fun T' hT' => ?_⟩
  · by_cases hne : T' = T
    · rw [hne, update_self] at hr
      cases hr
    · rw [update_of_ne hne] at hr
      exact h.pos T' r hr
  · by_cases hne : T' = T
    · rw [hne, update_self, hT]
      rfl
    · rw [update_of_ne hne, hothers T' hT' hne, h.records T' hT']

theorem Inv.commit (hcap : 0 < cap) (hT : CSRNodeGroup.ValidID T)
    (hts : commitTS < startTransactionID) :
    (s.step cap (.commit T commitTS)).Inv cap numColumns := by
  have hstored : (s.rows.map (committedRow T commitTS)).map Prod.snd =
      (s.rows.map Prod.snd).map (committed T commitTS) := by
    rw [map_map, map_map]
    rfl
  have hpositions : ∀ T', startTransactionID ≤ T' →
      positions T' ((s.rows.map Prod.snd).map (committed T commitTS)) =
        if T' = T then [] else positions T' (s.rows.map Prod.snd) := fun T' hT' =>
    positions_map_committed (by omega)
  obtain ⟨hpos, hrecords⟩ := h.end_records
    ((s.rows.map (committedRow T commitTS)).map Prod.snd)
    (by rw [hstored, hpositions T hT.1, if_pos rfl])
    (fun T' hT' hne => by rw [hstored, hpositions T' hT', if_neg hne])
  refine ⟨h.numColumns_eq, ?_, hpos, hrecords⟩
  have hg := h.group
  cases hgroup : s.group with
  | none =>
    simpa [step, getOrCreate, hgroup, h.rows_eq_nil hgroup] using hg
  | some =>
    rw [getOrCreate, hgroup] at hg
    simp only [step, hgroup]
    exact hg.commit hcap hts (h.pos T) (h.records T hT.1)

section

variable (hid : startTransactionID ≤ T) (hT : ∀ x ∈ s.rows, x.2.version ≠ T)

include hid hT

/-- Without rows of `T` there is nothing to roll back. -/
theorem Inv.undoBuffer_eq_nil : s.undoBuffer T = [] := by
  have hrecords := h.records T hid
  rw [positions_of_forall_ne (fun row hrow => by
    obtain ⟨x, hx, rfl⟩ := mem_map.mp hrow
    exact hT x hx)] at hrecords
  refine eq_nil_iff_forall_not_mem.mpr fun r hr => ?_
  have hempty := flatMap_eq_nil_iff.mp hrecords r hr
  have hpos := h.pos T r hr
  rw [range'_eq_nil_iff] at hempty
  omega

theorem Inv.rollback_nothing (trailing : Bool) :
    (s.step cap (.rollback T trailing)).Inv cap numColumns := by
  have hnil := h.undoBuffer_eq_nil hid hT
  have hnumRows : (s.group.map fun g => g.nodeGroup.numRows).getD 0 = s.rows.length := by
    have hlen := h.group.numRows_eq
    cases hgroup : s.group with
    | none => rw [h.rows_eq_nil hgroup]; rfl
    | some => rwa [getOrCreate, hgroup] at hlen
  have hstep : s.step cap (.rollback T trailing) =
      { s with
        group := if s.rows.length = 0 ∧ trailing then none else s.group
        undoBuffer := update s.undoBuffer T [] } := by
    simp only [step, hnil, foldr_nil, Option.map_id_fun', id_eq, hnumRows, take_length]
  obtain ⟨hpos, hrecords⟩ := h.end_records (s.rows.map Prod.snd)
    ((h.records T hid).symm.trans (by rw [hnil]; rfl)) fun _ _ _ => rfl
  rw [hstep]
  refine ⟨h.numColumns_eq, ?_, hpos, hrecords⟩
  have hg := h.group
  rw [getOrCreate]
  split_ifs with hempty
  · rw [length_eq_zero_iff.mp hempty.1]
    rw [h.numColumns_eq]
    exact holds_create
  · exact hg

end

/-- All rows are of `T`, and the node group is the last one with rows. -/
theorem Inv.rollback_all (hid : startTransactionID ≤ T) (hT : ∀ x ∈ s.rows, x.2.version = T) :
    (s.step cap (.rollback T true)).Inv cap numColumns := by
  by_cases hrows : s.rows = []
  · exact h.rollback_nothing hid (by simp [hrows]) true
  have hversion : ∀ row ∈ s.rows.map Prod.snd, row.version = T := by
    intro row hrow
    obtain ⟨x, hx, rfl⟩ := mem_map.mp hrow
    exact hT x hx
  have hrecords := h.records T hid
  rw [positions, indicesWhere_of_forall hversion] at hrecords
  obtain ⟨r, records, hbuffer, hstart⟩ : ∃ r records, s.undoBuffer T = r :: records ∧
      r.startRow = 0 := by
    cases hbuffer : s.undoBuffer T with
    | nil =>
      rw [hbuffer] at hrecords
      exact absurd (range_eq_nil.mp hrecords.symm) (by simpa using hrows)
    | cons r records =>
      refine ⟨r, records, rfl, ?_⟩
      have hpos := h.pos T r (by rw [hbuffer]; exact mem_cons_self)
      rw [hbuffer, recordRows, range_eq_range'] at hrecords
      have hhead := congrArg head? hrecords
      simpa [head?_range', ne_of_gt hpos, hrows] using hhead
  have hgroup : ∃ g, s.group = some g :=
    Option.ne_none_iff_exists'.mp fun hnone => hrows (h.rows_eq_nil hnone)
  obtain ⟨_, hgroup⟩ := hgroup
  have hstep : s.step cap (.rollback T true) =
      { s with group := none, undoBuffer := update s.undoBuffer T [], rows := [] } := by
    simp only [step, hgroup, hbuffer, Option.map_some, Option.getD_some,
      numRows_foldr_rollbackInsert, hstart, take_zero, and_self, if_true]
  obtain ⟨hpos, hothers⟩ := h.end_records [] rfl fun T' _ hne =>
    (positions_of_forall_ne fun row hrow heq => hne (heq.symm.trans (hversion row hrow))).symm
  rw [hstep]
  refine ⟨h.numColumns_eq, ?_, hpos, hothers⟩
  rw [h.numColumns_eq]
  exact holds_create

theorem Inv.step (hcap : 0 < cap) {a : CSRAction V} (hproper : a.Proper numColumns)
    (hwhole : s.RollsBackWhole a) :
    (s.step cap a).Inv cap numColumns := by
  cases a with
  | insert => exact h.insert hcap hproper
  | copy => exact h.copy hcap hproper
  | commit => exact h.commit hcap hproper.1 hproper.2
  | rollback _ trailing =>
    rcases hwhole with hnone | ⟨hall, rfl⟩
    · exact h.rollback_nothing hproper.1 hnone trailing
    · exact h.rollback_all hproper.1 hall

end

/-- The rows of a bound node that a scan, an update, a delete or a checkpoint goes through. -/
def rowsOfNode (s : CSRState k V) (boundOffset : Nat) : List Nat :=
  (s.group.map fun g => g.rowsOfNode boundOffset).getD []

/-- The rows in memory that a scan reads. -/
def scan (cap : Nat) (s : CSRState k V) (t : Snapshot) (boundOffset : Nat) :
    List (List (Option V)) :=
  (s.group.map fun g => g.scanCommittedInMem cap t boundOffset).getD []

/-- Proper calls, and rollbacks that leave no other rows. -/
def Permitted (numColumns : Nat) (s : CSRState k V) (a : CSRAction V) : Prop :=
  a.Proper numColumns ∧ s.RollsBackWhole a
  deriving Decidable

end CSRState

/-- In every run in which each rollback finds no rows of its transaction, or takes the node
group away with all its rows, the index of a bound node lists the rows of that node, and a
scan reads those that its transaction sees, in the order of their inserts. -/
theorem csr_index_lists_rows_of_node (cap numColumns nodeGroupIdx : Nat) (hcap : 0 < cap)
    (s : CSRState k V)
    (h : Reachable (fun (s : CSRState k V) a => some (s.step cap a)) (.init numColumns nodeGroupIdx)
      (CSRState.Permitted numColumns) s) (b : Nat) :
    s.rowsOfNode b = indicesWhere (fun x => x.1 = b) s.rows ∧
      ∀ t : Snapshot, t.InRange → s.scan cap t b =
        ((s.rows.filter fun x => x.1 = b).map Prod.snd).filterMap fun row =>
          if visible t.startTS t.id row.version then some row.values else none := by
  have hinv : s.Inv cap numColumns := by
    refine h.invariant (CSRState.Inv cap numColumns) CSRState.inv_init ?_
    rintro s a s' hinv ⟨hproper, hwhole⟩ hs
    cases hs
    exact hinv.step hcap hproper hwhole
  have hg := hinv.group
  cases hgroup : s.group with
  | none =>
    rw [CSRState.rowsOfNode, hgroup, hinv.rows_eq_nil hgroup]
    refine ⟨rfl, fun t _ => ?_⟩
    rw [CSRState.scan, hgroup]
    rfl
  | some =>
    rw [CSRState.getOrCreate, hgroup] at hg
    rw [CSRState.rowsOfNode, hgroup]
    refine ⟨hg.rowsOfNode_eq b, fun t ht => ?_⟩
    rw [CSRState.scan, hgroup]
    exact hg.scan hcap ht b

/-- Two bound nodes get rows, the second one also by `COPY`, and a third transaction that
has no rows here rolls back. -/
theorem csr_index_lists_rows_of_node_sample :
    ∃ s : CSRState 11 Nat, Reachable (fun (s : CSRState 11 Nat) a => some (s.step 2048 a))
        (.init 1 0) (CSRState.Permitted 1) s ∧ s.rows.length = 5 ∧
      s.rowsOfNode 1 = indicesWhere (fun x => x.1 = 1) s.rows := by
  refine exists_reachable_of_run
    [.insert startTransactionID 7 [[9]], .rollback startTransactionID true,
      .insert (startTransactionID + 1) 1 [[1]], .commit (startTransactionID + 1) 1,
      .insert (startTransactionID + 2) 0 [[2], [3]], .copy (startTransactionID + 2) [0, 2] [[4, 5]],
      .rollback (startTransactionID + 3) false]
    (fun s => s.rows.length = 5) (by decide +kernel) fun s hs hlen => ⟨hlen, ?_⟩
  exact (csr_index_lists_rows_of_node 2048 1 0 (by decide) s hs 1).1

/-- A transaction inserts a relationship of bound node 0 and commits, the next one inserts
one of bound node 1 and rolls back, and a third one inserts one of bound node 2: a scan of
bound node 1, which has no relationships, reads that one. -/
theorem csr_index_reaches_other_node :
    ∃ s : CSRState 11 Nat, Reachable (fun (s : CSRState 11 Nat) a => some (s.step 2048 a))
        (.init 1 0) (fun _ a => a.Proper 1) s ∧
      indicesWhere (fun x => x.1 = 1) s.rows = [] ∧ s.rowsOfNode 1 = [1] ∧
      s.rows[1]? = some (2, ⟨2, [some 3]⟩) ∧
      s.scan 2048 ⟨startTransactionID + 3, 2⟩ 1 ≠ [] :=
  reachable_of_run
    [.insert startTransactionID 0 [[1]], .commit startTransactionID 1,
      .insert (startTransactionID + 1) 1 [[2]], .rollback (startTransactionID + 1) true,
      .insert (startTransactionID + 2) 2 [[3]], .commit (startTransactionID + 2) 2]
    (by decide +kernel)

end Lbug.Storage
