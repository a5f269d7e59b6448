/-
  Storage/VersionHistory.lean --- all histories of one `VersionInfo`.

  Source: `storage/table/version_info.cpp`, called from `storage/undo_buffer.cpp`,
  `storage/table/node_group_collection.cpp` and `storage/table/node_table.cpp`.

  Any number of transactions call `append`, `delete_`, `commitInsert`, `commitDelete`,
  `rollbackInsert` and `rollbackDelete`.  An append starts at the current row count and
  pushes an insert record; a `delete_` that returns pushes a delete record, whatever it
  returns (`NodeTable::delete_`); a commit visits the records of its transaction in
  order, a rollback in reverse order, and the rollback of an insert removes the last
  rows.

  Next to the `VersionInfo` the state carries what the calls mean: which transaction
  inserted a row and which one deleted it.  `Selected` is the specification of
  `isSelected` in these terms.  The histories that meet `CallOk` keep the two together
  (`isSelected_iff_selected`); a history that rolls back a part of a vector with a
  shared insertion version separates them.
-/
import Lbug.Foundation.Transition
import Lbug.Storage.RowVersions
import Lbug.Transaction.History

namespace Lbug.Storage

open Foundation Transaction List Function Option TxnTable VersionInfo

/-- The undo records of a `VersionInfo`. -/
inductive VersionUndo where
  | insertInfo (startRow numRows : Nat)
  | deleteInfo (row : Nat)
  deriving DecidableEq, Repr

structure VersionHistory (k : Nat) where
  table : TxnTable VersionUndo := {}
  versionInfo : VersionInfo k := {}
  numRows : Nat := 0
  /-- the transaction that inserted a row -/
  inserter : Nat → Nat := fun _ => 0
  /-- the transaction that deleted a row -/
  deleter : Nat → Option Nat := fun _ => none

inductive VersionCall where
  | begin
  | append (id numRows : Nat)
  | delete (id row : Nat)
  | startCommit (id commitTS : Nat)
  | commitRecord (id : Nat)
  | finishCommit (id : Nat)
  | startRollback (id : Nat)
  | rollbackRecord (id : Nat)
  | finishRollback (id : Nat)
  deriving DecidableEq, Repr

namespace VersionHistory

variable {k : Nat}

def append (s : VersionHistory k) (id n : Nat) : VersionHistory k :=
  { s with
    table := s.table.push id (.insertInfo s.numRows n)
    versionInfo := s.versionInfo.append id s.numRows n
    numRows := s.numRows + n
    inserter := fun r => if s.numRows ≤ r then id else s.inserter r }

section

variable (s : VersionHistory k)

/-- A throwing `delete_` pushes no record. -/
def delete (id row : Nat) : VersionHistory k :=
  match s.versionInfo.delete_ id row with
  | (vi, .error _) => { s with versionInfo := vi }
  | (vi, .ok deleted) =>
    { s with
      table := s.table.push id (.deleteInfo row)
      versionInfo := vi
      deleter := if deleted then update s.deleter row (some id) else s.deleter }

def commitRecord (vi : VersionInfo k) (commitTS : Nat) : VersionUndo → VersionInfo k
  | .insertInfo startRow n => vi.commitInsert startRow n commitTS
  | .deleteInfo row => vi.commitDelete row 1 commitTS

/-- Undo one record of `id`.  An insert is undone only while its rows are the last
ones; a record of no rows does nothing. -/
def rollbackRecord (id : Nat) : VersionUndo → Option (VersionHistory k)
  | .insertInfo startRow n =>
    if n = 0 then some { s with versionInfo := s.versionInfo.rollbackInsert startRow n }
    else if startRow + n = s.numRows then
      some { s with
        versionInfo := s.versionInfo.rollbackInsert startRow n
        numRows := startRow
        deleter := fun r => if startRow ≤ r then none else s.deleter r }
    else none
  | .deleteInfo row =>
    some { s with
      versionInfo := s.versionInfo.rollbackDelete row 1
      deleter := if s.deleter row = some id then update s.deleter row none
        else s.deleter }

def step : VersionCall → Option (VersionHistory k)
  | .begin => s.table.begin.map fun table => { s with table }
  | .append id n => if (s.table.txn id).phase = .active then some (s.append id n) else none
  | .delete id row => if (s.table.txn id).phase = .active then some (s.delete id row) else none
  | .startCommit id cts => (s.table.startCommit id cts).map fun table => { s with table }
  | .commitRecord id => (s.table.nextPending id).map fun (record, cts, table) =>
      { s with table, versionInfo := commitRecord s.versionInfo cts record }
  | .finishCommit id => (s.table.finishCommit id).map fun table => { s with table }
  | .startRollback id => (s.table.startRollback id).map fun table => { s with table }
  | .rollbackRecord id => (s.table.nextUndo id).bind fun (record, table) =>
      ({ s with table } : VersionHistory k).rollbackRecord id record
  | .finishRollback id => (s.table.finishRollback id).map fun table => { s with table }

/-- `isSelected` for transaction `id`. -/
def isSelected (id row : Nat) : Bool :=
  s.versionInfo.isSelected (s.table.snapshot id).startTS (s.table.snapshot id).id row

/-- The snapshot of `id` contains the insertion of the row and not its deletion. -/
def Selected (id row : Nat) : Prop :=
  s.table.Sees id (s.inserter row) ∧ ∀ d, s.deleter row = some d → ¬ s.table.Sees id d

/-- Rolling back `record` of `id` gives up a shared insertion version only with all of
its rows, and undoes no deletion of another transaction. -/
def RollbackOk (id : Nat) : VersionUndo → Prop
  | .insertInfo startRow n => n = 0 ∨ s.versionInfo.CutsNoSharedVector startRow
  | .deleteInfo row => s.deleter row = none ∨ s.deleter row = some id

/-- The calls under which the compressed versions stay exact: a transaction deletes
rows that exist and whose insertion it sees, and rollbacks are `RollbackOk`. -/
def CallOk : VersionCall → Prop
  | .delete id row => row < s.numRows ∧ s.table.Sees id (s.inserter row)
  | .rollbackRecord id => ∀ record ∈ (s.table.txn id).undo.head?, s.RollbackOk id record
  | _ => True

end

instance (s : VersionHistory k) (id : Nat) : ∀ record, Decidable (s.RollbackOk id record)
  | .insertInfo .. | .deleteInfo _ => inferInstanceAs (Decidable (_ ∨ _))

instance (s : VersionHistory k) : ∀ call, Decidable (s.CallOk call)
  | .delete _ _ => inferInstanceAs (Decidable (_ ∧ _))
  | .rollbackRecord id =>
    inferInstanceAs (Decidable (∀ record ∈ (s.table.txn id).undo.head?, s.RollbackOk id record))
  | .begin | .append _ _ | .startCommit _ _ | .commitRecord _ | .finishCommit _
  | .startRollback _ | .finishRollback _ => inferInstanceAs (Decidable True)

/-! ## The invariant -/

/-- The transaction has finished its commit. -/
def Committed (s : VersionHistory k) (id : Nat) : Prop :=
  ∃ cts, (s.table.txn id).phase = .committed cts

/-- The record is older than an insert that started at `row`. -/
def Precedes (row : Nat) : VersionUndo → Prop
  | .insertInfo startRow n => n ≠ 0 → startRow + n ≤ row
  | .deleteInfo r => r < row

/-- An insert record of `records` covers the row. -/
def Covered (records : List VersionUndo) (row : Nat) : Prop :=
  ∃ startRow n, VersionUndo.insertInfo startRow n ∈ records ∧ startRow ≤ row ∧ row < startRow + n

/-- The version map `ins`, `del` that the `VersionInfo` stands for marks every row with
its inserter and its deleter, and the undo buffers cover exactly the rows of their
transactions. -/
structure Exact (s : VersionHistory k) (ins del : Nat → Nat) : Prop where
  wf : s.table.WellFormed
  rep : s.versionInfo.Represents s.numRows ins del
  unborn : ∀ r, s.numRows ≤ r → s.deleter r = none
  insVersion : ∀ r, r < s.numRows → s.table.VersionOf (s.inserter r) (ins r)
  delNone : ∀ r, r < s.numRows → s.deleter r = none → del r = invalidTransaction
  delVersion : ∀ r d, s.deleter r = some d → s.table.VersionOf d (del r)
  /-- a row is deleted by its inserter or after the commit of its inserter -/
  delSees : ∀ r d, s.deleter r = some d → s.inserter r = d ∨ s.Committed (s.inserter r)
  insCovered : ∀ r, r < s.numRows → s.table.CommitBegun (s.inserter r) = false →
    Covered (s.table.txn (s.inserter r)).undo r
  delCovered : ∀ r d, s.deleter r = some d → s.table.CommitBegun d = false →
    VersionUndo.deleteInfo r ∈ (s.table.txn d).undo
  /-- what a commit under way has not moved to its timestamp is still pending -/
  insPending : ∀ r cts, r < s.numRows → (s.table.txn (s.inserter r)).phase = .committing cts →
    ins r = cts ∨ Covered (s.table.txn (s.inserter r)).pending r
  delPending : ∀ r d cts, s.deleter r = some d → (s.table.txn d).phase = .committing cts →
    del r = cts ∨ VersionUndo.deleteInfo r ∈ (s.table.txn d).pending
  pendingUndo : ∀ id cts, (s.table.txn id).phase = .committing cts →
    ∀ record ∈ (s.table.txn id).pending, record ∈ (s.table.txn id).undo
  insRecord : ∀ id startRow n, VersionUndo.insertInfo startRow n ∈ (s.table.txn id).undo →
    (n ≠ 0 → startRow + n ≤ s.numRows) ∧ ∀ r, startRow ≤ r → r < startRow + n → s.inserter r = id
  delRecord : ∀ id r, VersionUndo.deleteInfo r ∈ (s.table.txn id).undo →
    r < s.numRows ∧ (s.inserter r = id ∨ s.Committed (s.inserter r)) ∧
      ((s.table.txn id).phase ≠ .rollingBack → s.deleter r = some id)
  ordered : ∀ id, (s.table.txn id).undo.Pairwise fun newer older =>
    ∀ startRow n, newer = .insertInfo startRow n → Precedes startRow older

theorem exact_init : Exact ({} : VersionHistory k) (fun _ => 0) (fun _ => invalidTransaction) where
  wf := wellFormed_init
  rep := represents_empty _
  unborn := fun _ _ => rfl
  insVersion := fun _ h => absurd h (Nat.not_lt_zero _)
  delNone := fun _ _ _ => rfl
  delVersion := fun _ _ h => by cases h
  delSees := fun _ _ h => by cases h
  insCovered := fun _ h => absurd h (Nat.not_lt_zero _)
  delCovered := fun _ _ h => by cases h
  insPending := fun _ _ h => absurd h (Nat.not_lt_zero _)
  delPending := fun _ _ _ h => by cases h
  pendingUndo := fun _ _ h => by cases h
  insRecord := fun _ _ _ h => by cases h
  delRecord := fun _ _ h => by cases h
  ordered := fun _ => List.Pairwise.nil

variable {s s' : VersionHistory k} {ins del : Nat → Nat} {id row r : Nat}
  {table : TxnTable VersionUndo}

/-- In a state with an exact version map, `isSelected` is `Selected`. -/
theorem Exact.isSelected_iff (h : s.Exact ins del) (hstarted : (s.table.txn id).phase ≠ .notStarted)
    (hid : s.table.CommitBegun id = false) (hrow : row < s.numRows) :
    s.isSelected id row = true ↔ s.Selected id row := by
  have hrange := h.wf.snapshot_inRange hstarted
  unfold isSelected Selected
  rw [h.rep.isSelected hrow hrange, Bool.and_eq_true,
    h.wf.visible_iff_sees hstarted hid (h.insVersion row hrow)]
  refine and_congr_right fun _ => ?_
  cases hd : s.deleter row with
  | none => simp [h.delNone row hrow hd, hrange.not_visible_invalid]
  | some d =>
    have hsees := h.wf.visible_iff_sees hstarted hid (h.delVersion row d hd)
    simp only [Bool.not_eq_true', some.injEq, forall_eq']
    rw [← hsees, Bool.not_eq_true]

/-! ## Steps of the transactions only -/

def Covers (row : Nat) (record : VersionUndo) : Prop :=
  ∃ startRow n, record = .insertInfo startRow n ∧ startRow ≤ row ∧ row < startRow + n

theorem covered_iff {records : List VersionUndo} :
    Covered records row ↔ ∃ record ∈ records, Covers row record := by
  constructor
  · rintro ⟨startRow, n, hmem, hrange⟩
    exact ⟨_, hmem, startRow, n, rfl, hrange⟩
  · rintro ⟨_, hmem, startRow, n, rfl, hrange⟩
    exact ⟨startRow, n, hmem, hrange⟩

theorem Exact.insChange (h : s.Exact ins del) (hr : r < s.numRows) :
    s.table.Recorded (s.inserter r) (ins r) (Covers r) :=
  ⟨h.insVersion r hr, fun hb => covered_iff.mp (h.insCovered r hr hb),
    fun cts hp => (h.insPending r cts hr hp).imp_right covered_iff.mp⟩

theorem Exact.delChange (h : s.Exact ins del) {d : Nat} (hd : s.deleter r = some d) :
    s.table.Recorded d (del r) (· = .deleteInfo r) :=
  ⟨h.delVersion r d hd, by simpa using h.delCovered r d hd,
    by simpa using fun cts => h.delPending r d cts hd⟩

theorem Exact.of_changes (wf : s.table.WellFormed)
    (rep : s.versionInfo.Represents s.numRows ins del)
    (unborn : ∀ r, s.numRows ≤ r → s.deleter r = none)
    (insChange : ∀ r, r < s.numRows → s.table.Recorded (s.inserter r) (ins r) (Covers r))
    (delNone : ∀ r, r < s.numRows → s.deleter r = none → del r = invalidTransaction)
    (delChange : ∀ r d, s.deleter r = some d → s.table.Recorded d (del r) (· = .deleteInfo r))
    (delSees : ∀ r d, s.deleter r = some d → s.inserter r = d ∨ s.Committed (s.inserter r))
    (visits : s.table.VisitsUndo)
    (insRecord : ∀ id startRow n, VersionUndo.insertInfo startRow n ∈ (s.table.txn id).undo →
      (n ≠ 0 → startRow + n ≤ s.numRows) ∧ ∀ r, startRow ≤ r → r < startRow + n → s.inserter r = id)
    (delRecord : ∀ id r, VersionUndo.deleteInfo r ∈ (s.table.txn id).undo →
      r < s.numRows ∧ (s.inserter r = id ∨ s.Committed (s.inserter r)) ∧
        ((s.table.txn id).phase ≠ .rollingBack → s.deleter r = some id))
    (ordered : ∀ id, (s.table.txn id).undo.Pairwise fun newer older =>
      ∀ startRow n, newer = .insertInfo startRow n → Precedes startRow older) :
    s.Exact ins del :=
  ⟨wf, rep, unborn, fun r hr => (insChange r hr).version, delNone,
    fun r d hd => (delChange r d hd).version, delSees,
    fun r hr hb => covered_iff.mpr ((insChange r hr).undo hb),
    fun r d hd => by simpa using (delChange r d hd).undo,
    fun r cts hr hp => ((insChange r hr).pending cts hp).imp_right covered_iff.mpr,
    fun r d cts hd => by simpa using (delChange r d hd).pending cts,
    visits, insRecord, delRecord, ordered⟩

section

variable (h : s.Exact ins del) {record : VersionUndo} {vi : VersionInfo k} {cts : Nat}

include h

/-- A step of a transaction that visits no record keeps the version map exact. -/
theorem Exact.retable (hkeeps : s.table.Keeps table) : Exact { s with table } ins del := by
  have hcommitted : ∀ {a}, s.Committed a → ∃ c, (table.txn a).phase = .committed c :=
    (·.imp (hkeeps.committed _))
  refine .of_changes hkeeps.wf h.rep h.unborn (fun r hr => hkeeps.recorded (h.insChange hr))
    h.delNone (fun r d hd => hkeeps.recorded (h.delChange hd))
    (fun r d hd => (h.delSees r d hd).imp_right hcommitted) (hkeeps.visits h.pendingUndo)
    (fun id startRow n hmem => h.insRecord id startRow n (hkeeps.mem_undo hmem))
    (fun id r hmem => ?_) fun id => ?_
  · obtain ⟨hr, hsees, hown⟩ := h.delRecord id r (hkeeps.mem_undo hmem)
    refine ⟨hr, hsees.imp_right hcommitted, fun hp => ?_⟩
    rcases hkeeps.rolling id hp with hp' | hnil
    · exact hown hp'
    · rw [show (table.txn id).undo = [] from hnil] at hmem
      cases hmem
  · rcases hkeeps.undo id with heq | ⟨hnil, -⟩
    · rw [heq]
      exact h.ordered id
    · rw [hnil]
      exact .nil

/-! ## Appending and deleting -/

theorem VersionUndo.precedes_numRows : ∀ record ∈ (s.table.txn id).undo, Precedes s.numRows record
  | .insertInfo startRow n, hmem => (h.insRecord id startRow n hmem).1
  | .deleteInfo r, hmem => (h.delRecord id r hmem).1

theorem Exact.append (n : Nat) (hactive : (s.table.txn id).phase = .active) :
    Exact (s.append id n) (fun r => if s.numRows ≤ r then id else ins r) del := by
  have hstarted : (s.table.txn id).phase ≠ .notStarted := by
    simp [hactive]
  have hadv := advance_setUndo
    (VersionUndo.insertInfo s.numRows n :: (s.table.txn id).undo) h.wf hstarted
  have hold : ∀ r, r < s.numRows → (s.append id n).inserter r = s.inserter r :=
    fun r hr => if_neg (Nat.not_le_of_lt hr)
  have hdel : ∀ r d, s.deleter r = some d → r < s.numRows := by
    intro r d hd
    by_contra hge
    rw [h.unborn r (Nat.le_of_not_lt hge)] at hd
    cases hd
  apply Exact.of_changes
  · exact hadv.wf
  · exact append_represents h.rep (h.wf.version_ne_invalid (versionOf_self (.inl hactive))) n
  · exact fun r hr => h.unborn r (Nat.le_of_add_right_le hr)
  · intro r hr
    show TxnTable.Recorded _ (if s.numRows ≤ r then id else s.inserter r)
      (if s.numRows ≤ r then id else ins r) _
    split
    · exact recorded_push h.wf hactive ⟨_, _, rfl, ‹_›, hr⟩
    · exact (h.insChange (Nat.lt_of_not_le ‹_›)).push h.wf hstarted
  · intro r _ hnone
    by_cases hr : r < s.numRows
    · exact h.delNone r hr hnone
    · exact h.rep.unborn (Nat.le_of_not_lt hr)
  · exact fun r d hd => (h.delChange hd).push h.wf hstarted
  · intro r d hd
    rw [hold r (hdel r d hd)]
    exact (h.delSees r d hd).imp_right (·.imp (hadv.committed _))
  · exact TxnTable.VisitsUndo.push h.pendingUndo
  · intro a startRow m hmem
    rcases mem_push_undo.mp hmem with ⟨rfl, heq⟩ | hmem
    · cases heq
      exact ⟨fun _ => Nat.le_refl _, fun r hr _ => if_pos hr⟩
    · obtain ⟨hle, hrows⟩ := h.insRecord a startRow m hmem
      refine ⟨fun hm => Nat.le_add_right_of_le (hle hm), fun r h1 h2 => ?_⟩
      rw [hold r (by have := hle (by omega); omega)]
      exact hrows r h1 h2
  · intro a r hmem
    rcases mem_push_undo.mp hmem with ⟨_, heq⟩ | hmem
    · cases heq
    · obtain ⟨hr, hsees, hrow⟩ := h.delRecord a r hmem
      refine ⟨Nat.lt_add_right n hr, ?_, ?_⟩
      · rw [hold r hr]
        exact hsees.imp_right (·.imp (hadv.committed _))
      · simpa [VersionHistory.append, push] using hrow
  · intro a
    show ((s.table.push id (.insertInfo s.numRows n)).txn a).undo.Pairwise _
    rw [push, setUndo_undo]
    split_ifs with heq
    · subst heq
      refine pairwise_cons.mpr ⟨fun record hmem startRow m heq => ?_, h.ordered a⟩
      cases heq
      exact VersionUndo.precedes_numRows h record hmem
    · exact h.ordered a

section

variable (hactive : (s.table.txn id).phase = .active) (hrow : row < s.numRows)

include hactive hrow

/-- A deletion of a row that no other transaction has deleted, with its record. -/
theorem Exact.deleteRow (hsees : s.inserter row = id ∨ s.Committed (s.inserter row))
    (hfree : s.deleter row = none ∨ s.deleter row = some id)
    (hrep : vi.Represents s.numRows ins (update del row id)) :
    Exact { s with
      table := s.table.push id (.deleteInfo row)
      versionInfo := vi
      deleter := update s.deleter row (some id) } ins (update del row id) := by
  have hstarted : (s.table.txn id).phase ≠ .notStarted := by
    simp [hactive]
  have hadv := advance_setUndo (VersionUndo.deleteInfo row :: (s.table.txn id).undo) h.wf hstarted
  have hcommitted : ∀ {a}, s.Committed a →
      ∃ c, ((s.table.push id (.deleteInfo row)).txn a).phase = .committed c :=
    (·.imp (hadv.committed _))
  -- who has deleted a row after the call
  have hdeleter : ∀ r d, update s.deleter row (some id) r = some d →
      (r = row ∧ d = id) ∨ (r ≠ row ∧ s.deleter r = some d) := by
    intro r d hd
    rcases eq_or_ne r row with rfl | heq
    · simp only [update_self, some.injEq] at hd
      exact .inl ⟨rfl, hd.symm⟩
    · rw [update_of_ne heq] at hd
      exact .inr ⟨heq, hd⟩
  apply Exact.of_changes
  · exact hadv.wf
  · exact hrep
  · intro r hr
    replace hr : s.numRows ≤ r := hr
    show update s.deleter row (some id) r = none
    rw [update_of_ne (by omega)]
    exact h.unborn r hr
  · exact fun r hr => (h.insChange hr).push h.wf hstarted
  · intro r hr hnone
    replace hnone : update s.deleter row (some id) r = none := hnone
    have hne : r ≠ row := by
      rintro rfl
      simp at hnone
    rw [update_of_ne hne] at hnone ⊢
    exact h.delNone r hr hnone
  · intro r d hd
    rcases hdeleter r d hd with ⟨rfl, rfl⟩ | ⟨hne, hd⟩
    · rw [update_self]
      exact recorded_push h.wf hactive rfl
    · rw [update_of_ne hne]
      exact (h.delChange hd).push h.wf hstarted
  · intro r d hd
    rcases hdeleter r d hd with ⟨rfl, rfl⟩ | ⟨_, hd⟩
    · exact hsees.imp_right hcommitted
    · exact (h.delSees r d hd).imp_right hcommitted
  · exact TxnTable.VisitsUndo.push h.pendingUndo
  · intro a startRow m hmem
    rcases mem_push_undo.mp hmem with ⟨_, heq⟩ | hmem
    · cases heq
    · exact h.insRecord a startRow m hmem
  · intro a r hmem
    rcases mem_push_undo.mp hmem with ⟨rfl, heq⟩ | hmem
    · cases heq
      exact ⟨hrow, hsees.imp_right hcommitted, fun _ => by simp⟩
    obtain ⟨hr, hsees', hrow'⟩ := h.delRecord a r hmem
    refine ⟨hr, hsees'.imp_right hcommitted, fun hp => ?_⟩
    replace hrow' := hrow' (by simpa [push] using hp)
    show update s.deleter row (some id) r = some a
    rcases eq_or_ne r row with rfl | heq
    · rw [update_self]
      rcases hfree with hf | hf
      · rw [hf] at hrow'
        cases hrow'
      · rw [← hrow', hf]
    · rw [update_of_ne heq]
      exact hrow'
  · intro a
    rw [push, setUndo_undo]
    split_ifs with heq
    · subst heq
      exact pairwise_cons.mpr ⟨(fun _ _ _ _ heq => by cases heq), h.ordered a⟩
    · exact h.ordered a

theorem Exact.delete (hsees : s.table.Sees id (s.inserter row)) :
    ∃ del', Exact (s.delete id row) ins del' := by
  have hown := versionOf_self (.inl hactive)
  have hid := h.wf.version_ne_invalid hown
  have hsees' : s.inserter row = id ∨ s.Committed (s.inserter row) :=
    hsees.imp_right fun ⟨cts, hc, _⟩ => ⟨cts, commitTS_eq_some.mp hc⟩
  obtain ⟨hrep, hres⟩ := delete_represents h.rep hid hrow
  rcases hpair : s.versionInfo.delete_ id row with ⟨_, _⟩
  simp only [hpair] at hrep hres
  simp only [VersionHistory.delete, hpair]
  by_cases hdel : del row = id
  · -- the transaction has deleted the row before
    have hdeleter : s.deleter row = some id := by
      cases hd : s.deleter row with
      | none => exact absurd ((h.delNone row hrow hd).symm.trans hdel).symm hid
      | some d =>
        have hv := h.delVersion row d hd
        rw [hdel] at hv
        rw [h.wf.version_inj hv hown]
    have hkeep : update s.deleter row (some id) = s.deleter := by
      rw [← hdeleter, update_eq_self]
    simp only [VectorVersionInfo.deleteResult, hdel] at hres
    simp only [VectorVersionInfo.deletionAfter, hdel, hid] at hrep
    have hnew := h.deleteRow hactive hrow hsees' (.inr hdeleter) hrep
    rw [hkeep] at hnew
    subst hres
    exact ⟨_, hnew⟩
  · by_cases hfree : del row = invalidTransaction
    · have hnone : s.deleter row = none := by
        cases hd : s.deleter row with
        | none => rfl
        | some d => exact absurd hfree (h.wf.version_ne_invalid (h.delVersion row d hd))
      have hne : ¬ invalidTransaction = id := fun heq => hid heq.symm
      simp only [VectorVersionInfo.deleteResult, hfree, hne] at hres
      simp only [hfree] at hrep
      subst hres
      exact ⟨_, h.deleteRow hactive hrow hsees' (.inl hnone) hrep⟩
    · -- another transaction has deleted the row: `delete_` throws
      simp only [VectorVersionInfo.deleteResult, hdel, hfree, ne_eq] at hres
      have hsame : update del row (VectorVersionInfo.deletionAfter id (del row)) = del := by
        simp [VectorVersionInfo.deletionAfter, hfree]
      rw [hsame] at hrep
      subst hres
      exact ⟨del, { h with rep := hrep }⟩

end

/-! ## Visiting a record -/

/-- A commit that has visited a record: the versions of the rows may have moved to its
timestamp, and what has not moved is pending. -/
theorem Exact.commitStep {rest : List VersionUndo} {ins' del' : Nat → Nat}
    (hphase : (s.table.txn id).phase = .committing cts)
    (hpending : (s.table.txn id).pending = record :: rest)
    (hrep : vi.Represents s.numRows ins' del')
    (hins : ∀ r, r < s.numRows → ins' r = ins r ∨ (ins' r = cts ∧ s.inserter r = id))
    (hdel : ∀ r, del' r = del r ∨ (del' r = cts ∧ s.deleter r = some id))
    (hinsDone : ∀ startRow n, record = .insertInfo startRow n →
      ∀ r, startRow ≤ r → r < startRow + n → ins' r = cts)
    (hdelDone : ∀ r, record = .deleteInfo r → del' r = cts) :
    Exact { s with table := s.table.setPending id rest, versionInfo := vi } ins' del' := by
  have hadv := advance_setPending rest h.wf
    (show (s.table.txn id).phase ≠ .notStarted by simp [hphase])
  have hphase' : ((s.table.setPending id rest).txn id).phase = .committing cts := by
    simpa using hphase
  apply Exact.of_changes
  · exact hadv.wf
  · exact hrep
  · exact h.unborn
  · intro r hr
    rcases hins r hr with heq | ⟨heq, hid⟩
    · rw [heq]
      refine (h.insChange hr).setPending h.wf hphase hpending fun _ hcovers => ?_
      obtain ⟨startRow, n, hrecord, h1, h2⟩ := hcovers
      exact heq.symm.trans (hinsDone startRow n hrecord r h1 h2)
    · rw [heq, hid]
      exact recorded_commitTS hphase'
  · intro r hr hnone
    rcases hdel r with heq | ⟨_, hid⟩
    · rw [heq]
      exact h.delNone r hr hnone
    · exact absurd (hnone.symm.trans hid) nofun
  · intro r d hd
    rcases hdel r with heq | ⟨heq, hid⟩
    · rw [heq]
      exact (h.delChange hd).setPending h.wf hphase hpending fun _ hrecord =>
        heq.symm.trans (hdelDone r hrecord)
    · rw [heq, some.inj (hd.symm.trans hid)]
      exact recorded_commitTS hphase'
  · exact fun r d hd => (h.delSees r d hd).imp_right (·.imp (hadv.committed _))
  · exact TxnTable.VisitsUndo.setPending h.pendingUndo hpending
  · simpa using h.insRecord
  · intro a r hmem
    simp only [setPending_undo] at hmem
    obtain ⟨hr, hsees, hown⟩ := h.delRecord a r hmem
    exact ⟨hr, hsees.imp_right (·.imp (hadv.committed _)), by simpa using hown⟩
  · simpa using h.ordered

theorem Exact.commitRecord (hs : s.table.nextPending id = some (record, cts, table)) :
    ∃ ins' del', Exact { s with
      table, versionInfo := commitRecord s.versionInfo cts record } ins' del' := by
  obtain ⟨hphase, _, hpending, rfl⟩ := nextPending_eq_some hs
  have hcts : s.table.VersionOf id cts := by simp [TxnTable.VersionOf, hphase, Phase.Marks]
  have hmem : record ∈ (s.table.txn id).undo :=
    h.pendingUndo id cts hphase record (hpending ▸ mem_cons_self)
  cases record with
  | insertInfo startRow n =>
    obtain ⟨hle, hrows⟩ := h.insRecord id startRow n hmem
    by_cases hn : n = 0
    · -- a record of no rows
      subst hn
      refine ⟨ins, del, h.commitStep hphase hpending ?_ (fun _ _ => .inl rfl) (fun _ => .inl rfl)
        ?_ fun _ heq => by cases heq⟩
      · simp only [commitRecord]
        exact h.rep
      · rintro _ _ heq r h1 h2
        cases heq
        omega
    · obtain ⟨ins', hrep, hin, hout⟩ := commitInsert_represents h.rep
        (h.wf.version_ne_invalid hcts) (hle hn)
      refine ⟨ins', del, h.commitStep hphase hpending hrep (fun r hr => ?_) (fun _ => .inl rfl)
        ?_ fun _ heq => by cases heq⟩
      · rcases hout r hr with heq | ⟨heq, r₀, h1, h2, hsame⟩
        · exact .inl heq
        · -- rows with the same version have the same inserter
          refine .inr ⟨heq, ?_⟩
          have hv := h.insVersion r₀ (Nat.lt_of_lt_of_le h2 (hle hn))
          rw [hrows r₀ h1 h2, hsame] at hv
          exact h.wf.version_inj (h.insVersion r hr) hv
      · rintro _ _ heq r h1 h2
        cases heq
        exact hin r h1 h2
  | deleteInfo row =>
    obtain ⟨hrow, -, hown⟩ := h.delRecord id row hmem
    have hdeleter := hown (by simp [hphase])
    have hused := h.wf.version_ne_invalid (h.delVersion row id hdeleter)
    have hrep := commitDelete_represents h.rep row 1 cts hrow fun r h1 h2 => by
      have heq : r = row := by omega
      rwa [heq]
    refine ⟨ins, _, h.commitStep hphase hpending hrep (fun _ _ => .inl rfl) (fun r => ?_)
      (fun _ _ heq => by cases heq) fun r heq => ?_⟩
    · by_cases hr : row ≤ r ∧ r < row + 1
      · have heq : r = row := by omega
        subst heq
        exact .inr ⟨if_pos hr, hdeleter⟩
      · exact .inl (if_neg hr)
    · cases heq
      exact if_pos ⟨Nat.le_refl _, Nat.lt_succ_self _⟩

end

section Rollback

variable {id startRow : Nat} {record : VersionUndo} {rest : List VersionUndo}

variable (h : s.Exact ins del)

include h

/-- A record that has been undone changes no phase. -/
theorem Exact.rolledBack (rest : List VersionUndo)
    (hphase : (s.table.txn id).phase = .rollingBack) :
    (s.table.setUndo id rest).WellFormed ∧ ∀ {a}, s.Committed a →
      ∃ c, ((s.table.setUndo id rest).txn a).phase = .committed c :=
  have hadv := advance_setUndo rest h.wf (by simp [hphase])
  ⟨hadv.wf, (·.imp (hadv.committed _))⟩

theorem ordered_rest (hundo : (s.table.txn id).undo = record :: rest) (a : Nat) :
    ((s.table.setUndo id rest).txn a).undo.Pairwise fun newer older =>
      ∀ startRow n, newer = .insertInfo startRow n → Precedes startRow older := by
  have hord := h.ordered a
  rw [setUndo_undo]
  split_ifs with heq
  · rw [heq, hundo] at hord
    exact (pairwise_cons.mp hord).2
  · exact hord

section

variable (hphase : (s.table.txn id).phase = .rollingBack) {n : Nat}

include hphase

/-- Undoing the deletion of a row that no other transaction has deleted meanwhile. -/
theorem Exact.rollbackDelete (hundo : (s.table.txn id).undo = .deleteInfo row :: rest)
    (hfree : s.deleter row = none ∨ s.deleter row = some id) :
    Exact { s with
      table := s.table.setUndo id rest
      versionInfo := s.versionInfo.rollbackDelete row 1
      deleter := update s.deleter row none } ins
      (fun r => if row ≤ r ∧ r < row + 1 then invalidTransaction else del r) := by
  obtain ⟨hwf, hcommitted⟩ := h.rolledBack rest hphase
  have hdeleter : ∀ r d, update s.deleter row none r = some d → r ≠ row ∧ s.deleter r = some d := by
    intro r d hd
    have hne : r ≠ row := by
      rintro rfl
      simp at hd
    rw [update_of_ne hne] at hd
    exact ⟨hne, hd⟩
  have hdel : ∀ r, r ≠ row →
      (if row ≤ r ∧ r < row + 1 then invalidTransaction else del r) = del r :=
    fun r hne => if_neg (by omega)
  apply Exact.of_changes
  · exact hwf
  · exact rollbackDelete_represents h.rep row 1
  · intro r hr
    rcases eq_or_ne r row with rfl | heq
    · simp
    · simpa [heq] using h.unborn r hr
  · exact fun r hr => (h.insChange hr).setUndo h.wf hphase hundo nofun
  · intro r hr hnone
    rcases eq_or_ne r row with rfl | heq
    · exact if_pos ⟨Nat.le_refl _, Nat.lt_succ_self _⟩
    · rw [hdel r heq]
      exact h.delNone r hr (by simpa [heq] using hnone)
  · intro r d hd
    obtain ⟨hne, hd⟩ := hdeleter r d hd
    rw [hdel r hne]
    refine (h.delChange hd).setUndo h.wf hphase hundo fun _ heq => ?_
    cases heq
    exact hne rfl
  · exact fun r d hd => (h.delSees r d (hdeleter r d hd).2).imp_right hcommitted
  · exact TxnTable.VisitsUndo.setUndo h.pendingUndo hphase hundo
  · exact fun a startRow n hmem => h.insRecord a startRow n (mem_undo_of_rest hundo hmem)
  · intro a r hmem
    obtain ⟨hr, hsees, hown⟩ := h.delRecord a r (mem_undo_of_rest hundo hmem)
    refine ⟨hr, hsees.imp_right hcommitted, fun hp => ?_⟩
    simp only [setUndo_phase] at hp
    have hne : r ≠ row := by
      rintro rfl
      rcases hfree with hf | hf
      · exact absurd (hf.symm.trans (hown hp)) nofun
      · rw [← some.inj (hf.symm.trans (hown hp)), hphase] at hp
        exact hp rfl
    simpa [hne] using hown hp
  · exact ordered_rest h hundo

/-- A record of no rows. -/
theorem Exact.rollbackNothing (hundo : (s.table.txn id).undo = .insertInfo startRow 0 :: rest) :
    Exact { s with
      table := s.table.setUndo id rest
      versionInfo := s.versionInfo.rollbackInsert startRow 0 } ins del := by
  obtain ⟨hwf, hcommitted⟩ := h.rolledBack rest hphase
  apply Exact.of_changes
  · exact hwf
  · simp only [rollbackInsert]
    exact h.rep
  · exact h.unborn
  · refine fun r hr => (h.insChange hr).setUndo h.wf hphase hundo fun _ hcovers => ?_
    obtain ⟨_, _, heq, h1, h2⟩ := hcovers
    cases heq
    omega
  · exact h.delNone
  · exact fun r d hd => (h.delChange hd).setUndo h.wf hphase hundo fun _ hcovers =>
      by cases hcovers
  · exact fun r d hd => (h.delSees r d hd).imp_right hcommitted
  · exact TxnTable.VisitsUndo.setUndo h.pendingUndo hphase hundo
  · exact fun a start n hmem => h.insRecord a start n (mem_undo_of_rest hundo hmem)
  · intro a r hmem
    obtain ⟨hr, hsees, hown⟩ := h.delRecord a r (mem_undo_of_rest hundo hmem)
    exact ⟨hr, hsees.imp_right hcommitted, by simpa using hown⟩
  · exact ordered_rest h hundo

/-- The rows of an insert that is rolled back are not deleted. -/
theorem Exact.not_deleted_of_rollback
    (hundo : (s.table.txn id).undo = .insertInfo startRow n :: rest)
    (hrange : startRow + n = s.numRows) (hr : startRow ≤ r) : s.deleter r = none := by
  by_cases hlt : r < s.numRows
  · cases hd : s.deleter r with
    | none => rfl
    | some d =>
      have hinserter : s.inserter r = id :=
        (h.insRecord id startRow n (hundo ▸ mem_cons_self)).2 r hr (by omega)
      rcases h.delSees r d hd with heq | ⟨_, hc⟩
      · -- the inserter's own deletion is newer than its insert and has been undone
        rw [hinserter] at heq
        subst heq
        have hmem := h.delCovered r id hd (by simp [TxnTable.CommitBegun, hphase])
        have hord := h.ordered id
        rw [hundo] at hmem hord
        rcases mem_cons.mp hmem with heq | hmem
        · cases heq
        · have hbelow : r < startRow := (pairwise_cons.mp hord).1 _ hmem startRow n rfl
          omega
      · rw [hinserter, hphase] at hc
        cases hc
  · exact h.unborn r (Nat.le_of_not_lt hlt)

theorem Exact.rollbackInsert (hundo : (s.table.txn id).undo = .insertInfo startRow n :: rest)
    (hrange : startRow + n = s.numRows) (hcut : s.versionInfo.CutsNoSharedVector startRow) :
    Exact { s with
      table := s.table.setUndo id rest
      versionInfo := s.versionInfo.rollbackInsert startRow n
      numRows := startRow
      deleter := fun r => if startRow ≤ r then none else s.deleter r } ins del := by
  obtain ⟨hwf, hcommitted⟩ := h.rolledBack rest hphase
  have hnone : ∀ r, startRow ≤ r → s.deleter r = none :=
    fun r hr => h.not_deleted_of_rollback hphase hundo hrange hr
  have hdeleter : (fun r => if startRow ≤ r then none else s.deleter r) = s.deleter := by
    funext r
    split_ifs with hr
    · exact (hnone r hr).symm
    · rfl
  have hinserter : ∀ r, startRow ≤ r → r < s.numRows → s.inserter r = id :=
    fun r h1 h2 => (h.insRecord id startRow n (hundo ▸ mem_cons_self)).2 r h1 (by omega)
  -- the older records of `id` concern the rows below
  have hbelow : ∀ r ∈ rest, Precedes startRow r := by
    intro r hmem
    have hord := h.ordered id
    rw [hundo] at hord
    exact (pairwise_cons.mp hord).1 r hmem startRow n rfl
  have hlt : ∀ {r}, r < startRow → r < s.numRows := by
    intro r hr
    omega
  rw [hdeleter]
  apply Exact.of_changes
  · exact hwf
  · refine rollbackInsert_represents h.rep hrange hcut fun r hr => ?_
    by_cases hr' : r < s.numRows
    · exact h.delNone r hr' (hnone r hr)
    · exact h.rep.unborn (Nat.le_of_not_lt hr')
  · exact hnone
  · refine fun r hr => (h.insChange (hlt hr)).setUndo h.wf hphase hundo fun _ hcovers => ?_
    obtain ⟨_, _, heq, h1, h2⟩ := hcovers
    cases heq
    exact absurd h1 (Nat.not_le_of_lt hr)
  · exact fun r hr => h.delNone r (hlt hr)
  · exact fun r d hd => (h.delChange hd).setUndo h.wf hphase hundo nofun
  · exact fun r d hd => (h.delSees r d hd).imp_right hcommitted
  · exact TxnTable.VisitsUndo.setUndo h.pendingUndo hphase hundo
  · intro a start m hmem
    obtain ⟨hle, hrows⟩ := h.insRecord a start m (mem_undo_of_rest hundo hmem)
    refine ⟨fun hm => ?_, hrows⟩
    show start + m ≤ startRow
    rw [setUndo_undo] at hmem
    split at hmem
    · exact hbelow _ hmem hm
    -- the last row of another transaction's insert is not one of the removed rows
    rename_i hne
    by_contra hgt
    have hm' := hle hm
    have h1 := hrows (start + m - 1) (by omega) (by omega)
    have h2 := hinserter (start + m - 1) (by omega) (by omega)
    exact hne (h1.symm.trans h2)
  · intro a r hmem
    obtain ⟨hr, hsees, hown⟩ := h.delRecord a r (mem_undo_of_rest hundo hmem)
    refine ⟨?_, hsees.imp_right hcommitted, by simpa using hown⟩
    rw [setUndo_undo] at hmem
    split_ifs at hmem with hne
    · exact hbelow _ hmem
    by_contra hge
    have hid := hinserter r (Nat.le_of_not_lt hge) hr
    rcases hsees with heq | ⟨_, hc⟩
    · exact hne (heq.symm.trans hid)
    · rw [hid, hphase] at hc
      cases hc
  · exact ordered_rest h hundo

end

theorem Exact.rollbackRecord (hs : s.table.nextUndo id = some (record, table))
    (hok : s.RollbackOk id record)
    (hs' : ({ s with table } : VersionHistory k).rollbackRecord id record = some s') :
    ∃ del', Exact s' ins del' := by
  obtain ⟨hphase, _, hundo, rfl⟩ := nextUndo_eq_some hs
  cases record with
  | insertInfo =>
    simp only [rollbackRecord] at hs'
    split at hs'
    · rename_i hn
      subst hn
      cases hs'
      exact ⟨del, h.rollbackNothing hphase hundo⟩
    rename_i hn
    split at hs'
    · rename_i hrange
      cases hs'
      exact ⟨del, h.rollbackInsert hphase hundo hrange (hok.resolve_left hn)⟩
    · cases hs'
  | deleteInfo row =>
    simp only [rollbackRecord, some.injEq] at hs'
    subst hs'
    have hdeleter : (if s.deleter row = some id then update s.deleter row none
        else s.deleter) = update s.deleter row none := by
      rcases hok with hnone | hown
      · rw [if_neg (by rw [hnone]; exact nofun), ← hnone, update_eq_self]
      · rw [if_pos hown]
    have hnew := h.rollbackDelete hphase hundo hok
    rw [← hdeleter] at hnew
    exact ⟨_, hnew⟩

end Rollback

/-! ## Whole histories -/

theorem Exact.step (h : s.Exact ins del) {call : VersionCall} (hok : s.CallOk call)
    (hs : s.step call = some s') : ∃ ins' del', Exact s' ins' del' := by
  cases call with
  | begin | startCommit | finishCommit | startRollback | finishRollback =>
    obtain ⟨_, ht, rfl⟩ := map_eq_some_iff.mp hs
    exact ⟨ins, del, h.retable (keeps_of_life h.wf (by grind))⟩
  | append _ n =>
    obtain ⟨hactive, ⟨⟩⟩ := ite_none_right_eq_some.mp hs
    exact ⟨_, _, h.append n hactive⟩
  | delete =>
    obtain ⟨hactive, ⟨⟩⟩ := ite_none_right_eq_some.mp hs
    exact ⟨ins, h.delete hactive hok.1 hok.2⟩
  | commitRecord =>
    obtain ⟨⟨_, _, _⟩, ht, rfl⟩ := map_eq_some_iff.mp hs
    exact h.commitRecord ht
  | rollbackRecord id =>
    obtain ⟨⟨record, _⟩, ht, hs'⟩ := bind_eq_some_iff.mp hs
    obtain ⟨-, _, hundo, -⟩ := nextUndo_eq_some ht
    have hok' : s.RollbackOk id record := hok record (by simp [hundo])
    exact ⟨ins, h.rollbackRecord ht hok' hs'⟩

theorem exact_of_reachable (h : Reachable VersionHistory.step {} CallOk s) :
    ∃ ins del, s.Exact ins del :=
  h.invariant (fun s => ∃ ins del, s.Exact ins del) ⟨_, _, exact_init⟩
    fun _ _ _ ⟨_, _, hexact⟩ hok hs => hexact.step hok hs

/-- In every history whose calls are `CallOk`, and for every transaction whose own
commit has not begun and every row: `isSelected` holds exactly when the row's inserter
is the transaction or committed by its start timestamp, and the row's deleter, if any,
is neither. -/
theorem isSelected_iff_selected (h : Reachable VersionHistory.step {} CallOk s) {id row : Nat}
    (hstarted : (s.table.txn id).phase ≠ .notStarted) (hid : s.table.CommitBegun id = false)
    (hrow : row < s.numRows) : s.isSelected id row = true ↔ s.Selected id row := by
  obtain ⟨_, _, hexact⟩ := exact_of_reachable h
  exact hexact.isSelected_iff hstarted hid hrow

/-- Two transactions insert, one of them rolls back, the other deletes one of its own
rows and commits; a third one starts during the commit and a fourth one after it. -/
def sampleCalls : List VersionCall :=
  let a := startTransactionID + 1
  let b := startTransactionID + 2
  [.begin, .append a 2, .append a 1, .begin, .append b 3, .startRollback b, .rollbackRecord b,
    .finishRollback b, .delete a 1, .startCommit a 5, .commitRecord a, .begin, .commitRecord a,
    .commitRecord a, .finishCommit a, .begin]

theorem isSelected_iff_selected_sample :
    ∃ s : VersionHistory 2, Reachable step {} CallOk s ∧
      s.Selected (startTransactionID + 4) 0 ∧ ¬ s.Selected (startTransactionID + 4) 1 ∧
      ¬ s.Selected (startTransactionID + 3) 0 := by
  refine exists_reachable_of_run sampleCalls (fun s =>
      (s.table.txn (startTransactionID + 4)).phase = .active ∧
      (s.table.txn (startTransactionID + 3)).phase = .active ∧ s.numRows = 3 ∧
      s.isSelected (startTransactionID + 4) 0 = true ∧
      ¬ s.isSelected (startTransactionID + 4) 1 = true ∧
      ¬ s.isSelected (startTransactionID + 3) 0 = true) (by decide +kernel) ?_
  rintro s hs ⟨h4, h3, hrows, hsel, hdel, hold⟩
  have hiff : ∀ {id row}, (s.table.txn id).phase = .active → row < 3 →
      (s.isSelected id row = true ↔ s.Selected id row) := fun hactive hrow =>
    isSelected_iff_selected hs (by simp [hactive]) (by simp [TxnTable.CommitBegun, hactive])
      (by omega)
  exact ⟨(hiff h4 (by omega)).mp hsel, (hiff h4 (by omega)).not.mp hdel,
    (hiff h3 (by omega)).not.mp hold⟩

/-- A transaction appends twice to one vector and has rolled back the second append. -/
def cutSharedVectorCalls : List VersionCall :=
  let a := startTransactionID + 1
  [.begin, .append a 2, .append a 1, .startRollback a, .rollbackRecord a]

/-- Rolling back a part of a vector with a shared insertion version breaks `isSelected`:
the first row is no longer selected for the transaction, whose insertion of it still
stands. -/
theorem isSelected_wrong_after_cut :
    ¬ ∀ (k : Nat) (s : VersionHistory k), Reachable step {} Always s →
      ∀ id row, (s.table.txn id).phase ≠ .notStarted → s.table.CommitBegun id = false →
        row < s.numRows → (s.isSelected id row = true ↔ s.Selected id row) := by
  intro hexact
  obtain ⟨s, hs, hphase, hrow, hnot, hsees, hdeleter⟩ : ∃ s : VersionHistory 2,
      Reachable step {} Always s ∧
      (s.table.txn (startTransactionID + 1)).phase = .rollingBack ∧ 0 < s.numRows ∧
      ¬ s.isSelected (startTransactionID + 1) 0 = true ∧
      s.table.Sees (startTransactionID + 1) (s.inserter 0) ∧ s.deleter 0 = none :=
    reachable_of_run cutSharedVectorCalls (by decide +kernel)
  have hiff := hexact 2 s hs (startTransactionID + 1) 0 (by simp [hphase])
    (by simp [TxnTable.CommitBegun, hphase]) hrow
  exact hnot (hiff.mpr ⟨hsees, by simp [hdeleter]⟩)

end VersionHistory

end Lbug.Storage
