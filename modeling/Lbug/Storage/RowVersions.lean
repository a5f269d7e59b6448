/-
  Storage/RowVersions.lean --- the version map that a `VersionInfo` stands for.

  Source: `storage/table/version_info.cpp`.

  The abstract object is a map from rows to two versions, that of the insertion and
  that of the deletion, with `INVALID_TRANSACTION` for "none".  `VectorRep` relates a
  vector to its part of the map and `Represents` a whole `VersionInfo` to all of it.
  Each operation of the source is then a pointwise change of the map, and the status
  flags, the shared version and the arrays are not looked at again.

  Two operations are not pointwise on their own: `commitInsert` moves every row of a
  vector that shares its version with a row of the range, and `rollbackInsert` forgets
  all rows of a vector with a shared version, so it is a pointwise change only if it
  starts at the first row of such a vector (`CutsNoSharedVector`).
-/
import Lbug.Storage.VersionInfo

namespace Lbug.Storage

open Foundation Transaction Function Option

/-! ## One vector -/

namespace VectorVersionInfo

variable {k : Nat}

/-- The ways in which a vector with `c` rows stores the insertion versions `ins`. -/
inductive InsertionRep (v : VectorVersionInfo k) (c : Nat) (ins : Nat → Nat) : Prop
  | idle (hc : c = 0) (hstatus : v.insertionStatus = .noInserted)
      (hsame : v.sameInsertionVersion = invalidTransaction)
      (harray : v.insertedVersions = none)
  | shared (hc : 0 < c) (hstatus : v.insertionStatus = .checkVersion)
      (hsame : v.sameInsertionVersion ≠ invalidTransaction)
      (harray : v.insertedVersions = none)
      (hins : ∀ i, i < c → ins i = v.sameInsertionVersion)
  | perRow (a : VersionArray k) (hc : 0 < c) (hstatus : v.insertionStatus = .checkVersion)
      (hsame : v.sameInsertionVersion = invalidTransaction)
      (harray : v.insertedVersions = some a)
      (hins : ∀ i, i < c → versionAt a i = ins i ∧ ins i ≠ invalidTransaction)
      (htail : ∀ i, c ≤ i → versionAt a i = invalidTransaction)

/-- The deletion version that the arrays hold for a row, whatever the status says. -/
def deletionEntry (v : VectorVersionInfo k) (i : Nat) : Nat :=
  (v.deletedVersions.map (versionAt · i)).getD invalidTransaction

/-- A vector stores the deletion versions `del` of its rows. -/
structure DeletionRep (v : VectorVersionInfo k) (del : Nat → Nat) : Prop where
  same : v.sameDeletionVersion = invalidTransaction
  entry : ∀ i, i < vectorCapacity k → v.deletionEntry i = del i
  quiet : v.deletionStatus = .noDeleted → ∀ i, i < vectorCapacity k → del i = invalidTransaction

end VectorVersionInfo

open VectorVersionInfo

/-- A vector with `c` rows stands for the versions `ins` and `del`. -/
structure VectorRep {k : Nat} (v : VectorVersionInfo k) (c : Nat) (ins del : Nat → Nat) : Prop where
  le : c ≤ vectorCapacity k
  insertion : v.InsertionRep c ins
  deletion : v.DeletionRep del
  unborn : ∀ i, c ≤ i → i < vectorCapacity k → del i = invalidTransaction

variable {n start i transactionID commitTS : Nat} {t : Snapshot} {ins' : Nat → Nat}
  {del' : Nat → Nat} {row : Nat}

namespace VectorVersionInfo

variable {k : Nat} {v : VectorVersionInfo k} {c : Nat} {ins del : Nat → Nat}
  {v' : VectorVersionInfo k}

@[simp] theorem versionAt_init (i : Nat) : versionAt (initVersionArray k) i = invalidTransaction :=
  readEntry_replicate _ _

theorem versionAt_writeRange (a : VersionArray k) (x i : Nat) (h : start + n ≤ vectorCapacity k) :
    versionAt (writeRange a start n x) i = if start ≤ i ∧ i < start + n then x else versionAt a i :=
  readEntry_writeRange a _ x start n i h

theorem hasAnyVersion_iff (a : VersionArray k) :
    hasAnyVersion a = true ↔ ∃ i, i < vectorCapacity k ∧ versionAt a i ≠ invalidTransaction := by
  unfold hasAnyVersion versionAt
  rw [any_iff_exists_readEntry a invalidTransaction]
  simp

theorem vectorRep_default :
    VectorRep ({} : VectorVersionInfo k) 0 ins (fun _ => invalidTransaction) where
  le := Nat.zero_le _
  insertion := .idle rfl rfl rfl rfl
  deletion := ⟨rfl, fun _ _ => rfl, fun _ _ _ => rfl⟩
  unborn := fun _ _ _ => rfl

/-- Only the rows below `c` matter for the insertion versions. -/
theorem InsertionRep.congr (h : v.InsertionRep c ins) (heq : ∀ i, i < c → ins' i = ins i) :
    v.InsertionRep c ins' := by
  cases h with
  | idle hc hstatus hsame harray => exact .idle hc hstatus hsame harray
  | shared hc hstatus hsame harray hins =>
    exact .shared hc hstatus hsame harray fun i hi => (heq i hi).trans (hins i hi)
  | perRow a hc hstatus hsame harray hins htail =>
    refine .perRow a hc hstatus hsame harray (fun i hi => ?_) htail
    rw [heq i hi]
    exact hins i hi

theorem DeletionRep.congr (h : v.DeletionRep del)
    (heq : ∀ i, i < vectorCapacity k → del' i = del i) : v.DeletionRep del' where
  same := h.same
  entry := fun i hi => (h.entry i hi).trans (heq i hi).symm
  quiet := fun hq i hi => (heq i hi).trans (h.quiet hq i hi)

/-- The fields that hold insertions, and those that hold deletions. -/
def insertionFields (v : VectorVersionInfo k) : InsertionStatus × Nat × Option (VersionArray k) :=
  (v.insertionStatus, v.sameInsertionVersion, v.insertedVersions)

def deletionFields (v : VectorVersionInfo k) : DeletionStatus × Nat × Option (VersionArray k) :=
  (v.deletionStatus, v.sameDeletionVersion, v.deletedVersions)

theorem InsertionRep.frame (h : v.InsertionRep c ins)
    (heq : v'.insertionFields = v.insertionFields) : v'.InsertionRep c ins := by
  simp only [insertionFields, Prod.mk.injEq] at heq
  obtain ⟨h1, h2, h3⟩ := heq
  cases h with
  | idle hc hstatus hsame harray =>
    exact .idle hc (h1.trans hstatus) (h2.trans hsame) (h3.trans harray)
  | shared hc hstatus hsame harray hins =>
    exact .shared hc (h1.trans hstatus) (h2 ▸ hsame) (h3.trans harray) (h2 ▸ hins)
  | perRow a hc hstatus hsame harray hins htail =>
    exact .perRow a hc (h1.trans hstatus) (h2.trans hsame) (h3.trans harray) hins htail

theorem DeletionRep.frame (h : v.DeletionRep del) (heq : v'.deletionFields = v.deletionFields) :
    v'.DeletionRep del := by
  simp only [deletionFields, Prod.mk.injEq] at heq
  obtain ⟨h1, h2, h3⟩ := heq
  refine ⟨h2.trans h.same, fun i hi => ?_, fun hq => h.quiet (h1 ▸ hq)⟩
  rw [deletionEntry, h3]
  exact h.entry i hi

/-! ### Reading -/

theorem isInserted_of_rep (h : v.InsertionRep c ins) (hi : i < c) (startTS transactionID : Nat) :
    v.isInserted startTS transactionID i = visible startTS transactionID (ins i) := by
  cases h with
  | idle => omega
  | shared _ hstatus hsame _ hins =>
    simp [isInserted, hstatus, isSameInsertionVersion, hsame, hins i hi]
  | perRow _ _ hstatus hsame harray hins =>
    simp [isInserted, hstatus, isSameInsertionVersion, hsame, harray, (hins i hi).1]

theorem isDeleted_of_rep (h : v.DeletionRep del) (hi : i < vectorCapacity k) (ht : t.InRange) :
    v.isDeleted t.startTS t.id i = visible t.startTS t.id (del i) := by
  have hentry := h.entry i hi
  unfold deletionEntry at hentry
  cases hstatus : v.deletionStatus with
  | noDeleted => simp [isDeleted, hstatus, h.quiet hstatus i hi, ht.not_visible_invalid]
  | checkVersion => simp [isDeleted, hstatus, isSameDeletionVersion, h.same, hentry]

theorem InsertionRep.status (h : v.InsertionRep c ins) (hc : 0 < c) :
    v.insertionStatus = .checkVersion := by
  cases h with
  | idle => omega
  | shared _ hstatus | perRow _ _ hstatus => exact hstatus

theorem isSelected_of_rep (h : VectorRep v c ins del) (hi : i < c) (ht : t.InRange) :
    v.isSelected t.startTS t.id i =
      (visible t.startTS t.id (ins i) && !visible t.startTS t.id (del i)) := by
  have hstatus := h.insertion.status (Nat.zero_lt_of_lt hi)
  have hcap := Nat.lt_of_lt_of_le hi h.le
  simp only [isSelected, hstatus, isInserted_of_rep h.insertion hi,
    isDeleted_of_rep h.deletion hcap ht]
  cases visible t.startTS t.id (ins i) <;> simp

/-- All rows of a vector with a shared insertion version have that version. -/
theorem shared_eq (h : VectorRep v c ins del) (hshared : v.isSameInsertionVersion = true)
    (hi : i < c) : ins i = v.sameInsertionVersion := by
  have hne : v.sameInsertionVersion ≠ invalidTransaction := by
    simpa [isSameInsertionVersion] using hshared
  cases h.insertion with
  | idle => omega
  | shared _ _ _ _ hins => exact hins i hi
  | perRow _ _ _ hsame => exact absurd hsame hne

/-! ### Inserting -/

theorem append_deletionFields (v : VectorVersionInfo k) (transactionID startRow numRows : Nat) :
    (v.append transactionID startRow numRows).deletionFields = v.deletionFields := by
  simp only [append]
  split
  · rfl
  · split
    · split <;> rfl
    · rfl

section

variable (h : VectorRep v c ins del)

include h

theorem append_rep (hid : transactionID ≠ invalidTransaction) (hn : 0 < n)
    (hcn : c + n ≤ vectorCapacity k) :
    VectorRep (v.append transactionID c n) (c + n)
      (fun i => if c ≤ i then transactionID else ins i) del := by
  refine ⟨hcn, ?_, ?_, fun i hi => h.unborn i (by omega)⟩
  · cases h.insertion with
    | idle hc _ hsame harray =>
      have heq : v.append transactionID c n =
          { v with insertionStatus := .checkVersion, sameInsertionVersion := transactionID } := by
        simp [append, hsame, hid, harray, isSameInsertionVersion]
      rw [heq]
      exact .shared (by omega) rfl hid harray fun i _ => by simp [hc]
    | shared _ _ hsame harray hins =>
      by_cases hsameID : transactionID = v.sameInsertionVersion
      · have heq : v.append transactionID c n = { v with insertionStatus := .checkVersion } := by
          simp [append, hsameID]
        rw [heq]
        refine .shared (by omega) rfl hsame harray fun i _ => ?_
        split
        · exact hsameID
        · exact hins i (by omega)
      · have heq : v.append transactionID c n =
            { v with
              insertionStatus := .checkVersion
              insertedVersions := some (writeRange
                (writeRange (initVersionArray k) 0 c v.sameInsertionVersion) c n transactionID)
              sameInsertionVersion := invalidTransaction } := by
          simp [append, hsameID, harray, isSameInsertionVersion, hsame]
        rw [heq]
        refine .perRow _ (by omega) rfl rfl rfl (fun i hi => ?_) (fun i hi => ?_)
        · rw [versionAt_writeRange _ _ _ hcn, versionAt_writeRange _ _ _ (by omega)]
          by_cases hci : c ≤ i
          · simp [hci, hi, hid]
          · simp [hci, hins i (by omega), hsame]
        · rw [versionAt_writeRange _ _ _ hcn, versionAt_writeRange _ _ _ (by omega),
            if_neg (by omega), if_neg (by omega), versionAt_init]
    | perRow a _ _ hsame harray hins htail =>
      have heq : v.append transactionID c n =
          { v with
            insertionStatus := .checkVersion
            insertedVersions := some (writeRange a c n transactionID) } := by
        simp [append, hsame, hid, harray]
      rw [heq]
      refine .perRow _ (by omega) rfl hsame rfl (fun i hi => ?_) (fun i hi => ?_)
      · rw [versionAt_writeRange _ _ _ hcn]
        by_cases hci : c ≤ i
        · simp [hci, hi, hid]
        · simpa [hci] using hins i (by omega)
      · rw [versionAt_writeRange _ _ _ hcn, if_neg (by omega)]
        exact htail i (by omega)
  · exact h.deletion.frame (append_deletionFields v transactionID c n)

/-- Committing a range under a shared version moves all rows of the vector. -/
theorem setInsertCommitTS_rep (hts : commitTS ≠ invalidTransaction) (hn : 0 < n)
    (hc : start + n ≤ c) :
    VectorRep (v.setInsertCommitTS commitTS start n) c
      (fun i => if v.isSameInsertionVersion = true ∨ (start ≤ i ∧ i < start + n)
        then commitTS else ins i) del := by
  have hle := h.le
  refine ⟨hle, ?_, ?_, h.unborn⟩
  · cases h.insertion with
    | idle => omega
    | shared hpos hstatus hsame harray =>
      have hshared : v.isSameInsertionVersion = true := by simp [isSameInsertionVersion, hsame]
      have heq : v.setInsertCommitTS commitTS start n =
          { v with sameInsertionVersion := commitTS } := by
        simp [setInsertCommitTS, hshared]
      rw [heq]
      exact .shared hpos hstatus hts harray fun i _ => by simp [hshared]
    | perRow a hpos hstatus hsame harray hins htail =>
      have hshared : v.isSameInsertionVersion = false := by simp [isSameInsertionVersion, hsame]
      have heq : v.setInsertCommitTS commitTS start n =
          { v with insertedVersions := some (writeRange a start n commitTS) } := by
        simp [setInsertCommitTS, hshared, harray]
      rw [heq]
      refine .perRow _ hpos hstatus hsame rfl (fun i hi => ?_) (fun i hi => ?_)
      · rw [versionAt_writeRange _ _ _ (by omega)]
        simp only [hshared, Bool.false_eq_true, false_or]
        split
        · exact ⟨rfl, hts⟩
        · exact hins i hi
      · rw [versionAt_writeRange _ _ _ (by omega), if_neg (by omega)]
        exact htail i hi
  · refine h.deletion.frame ?_
    unfold setInsertCommitTS
    split <;> rfl

/-- A vector with one version for all rows forgets them all. -/
theorem rollbackInsertions_shared (hshared : v.isSameInsertionVersion = true)
    (hdel : ∀ i < vectorCapacity k, del i = invalidTransaction) (start n : Nat) :
    VectorRep (v.rollbackInsertions start n) 0 ins del := by
  cases h.insertion with
  | idle _ _ hsame | perRow _ _ _ hsame => simp [isSameInsertionVersion, hsame] at hshared
  | shared _ _ _ harray =>
    have heq : v.rollbackInsertions start n =
        { v with
          sameInsertionVersion := invalidTransaction
          insertionStatus := .noInserted
          deletionStatus := .noDeleted } := by
      simp [rollbackInsertions, hshared, harray]
    rw [heq]
    exact ⟨Nat.zero_le _, .idle rfl rfl rfl harray,
      ⟨h.deletion.same, h.deletion.entry, fun _ => hdel⟩, fun i _ => hdel i⟩

/-- Rolling back the last `n` rows, where a shared version is given up only with all
of its rows. -/
theorem rollbackInsertions_rep (hn : 0 < n) (hc : start + n = c)
    (hcut : start ≠ 0 → v.isSameInsertionVersion = false)
    (hdel : ∀ i, start ≤ i → i < vectorCapacity k → del i = invalidTransaction) :
    VectorRep (v.rollbackInsertions start n) start ins del := by
  have hle := h.le
  have hd := h.deletion
  cases h.insertion with
  | idle => omega
  | shared _ _ hsame =>
    have hshared : v.isSameInsertionVersion = true := by simp [isSameInsertionVersion, hsame]
    have hstart : start = 0 := by
      by_contra hne
      simp [hcut hne] at hshared
    subst hstart
    exact rollbackInsertions_shared h hshared (fun i => hdel i (Nat.zero_le i)) 0 n
  | perRow a hpos hstatus hsame harray hins htail =>
    have hshared : v.isSameInsertionVersion = false := by simp [isSameInsertionVersion, hsame]
    have hread : ∀ i, versionAt (writeRange a start n invalidTransaction) i =
        if start ≤ i ∧ i < start + n then invalidTransaction else versionAt a i :=
      fun i => versionAt_writeRange _ _ _ (by omega)
    by_cases hany : hasAnyVersion (writeRange a start n invalidTransaction) = true
    · have heq : v.rollbackInsertions start n =
          { v with insertedVersions := some (writeRange a start n invalidTransaction) } := by
        simp [rollbackInsertions, hshared, harray, clearVersions, hany]
      rw [heq]
      have hstart : 0 < start := by
        obtain ⟨i, _, hi⟩ := (hasAnyVersion_iff _).mp hany
        rw [hread i] at hi
        by_contra hzero
        split at hi
        · exact hi rfl
        · exact hi (htail i (by omega))
      refine ⟨by omega, .perRow _ hstart hstatus hsame rfl (fun i hi => ?_) (fun i hi => ?_),
        { hd with }, hdel⟩
      · rw [hread i, if_neg (by omega)]
        exact hins i (by omega)
      · rw [hread i]
        split
        · rfl
        · exact htail i (by omega)
    · have heq : v.rollbackInsertions start n =
          { v with
            insertedVersions := none
            insertionStatus := .noInserted
            deletionStatus := .noDeleted } := by
        simp [rollbackInsertions, hshared, harray, clearVersions, hany]
      rw [heq]
      -- a row below `start` would have kept its version in the array
      have hstart : start = 0 := by
        by_contra hne
        apply hany
        rw [hasAnyVersion_iff]
        refine ⟨0, by omega, ?_⟩
        rw [hread 0, if_neg (by omega), (hins 0 hpos).1]
        exact (hins 0 hpos).2
      exact ⟨by omega, .idle hstart rfl hsame rfl,
        ⟨hd.same, hd.entry, fun _ i hi => hdel i (by omega) hi⟩, hdel⟩

end

/-! ### Deleting -/

/-- The answer of `delete_` depends on the row's deletion version only. -/
def deleteResult (transactionID deletion : Nat) : Except String Bool :=
  if deletion = transactionID then .ok false
  else if deletion ≠ invalidTransaction then .error writeWriteConflictOnDelete
  else .ok true

/-- The row's deletion version after `delete_`. -/
def deletionAfter (transactionID deletion : Nat) : Nat :=
  if deletion = invalidTransaction then transactionID else deletion

/-- Without a shared deletion version, `delete_` allocates the array and writes the
row's entry if it is free. -/
theorem delete_eq (hsame : v.sameDeletionVersion = invalidTransaction)
    (hid : transactionID ≠ invalidTransaction) (row : Nat) {a : VersionArray k}
    (ha : v.deletedVersions.getD (initVersionArray k) = a) :
    v.delete_ transactionID row =
      ({ v with
          deletionStatus := .checkVersion
          deletedVersions := some (if versionAt a row = invalidTransaction
            then writeRange a row 1 transactionID else a) },
        deleteResult transactionID (versionAt a row)) := by
  have hid' : invalidTransaction ≠ transactionID := fun heq => hid heq.symm
  simp only [delete_, hsame, hid, isSameDeletionVersion, ha, deleteResult]
  by_cases hown : versionAt a row = transactionID
  · simp [hown, hid]
  · by_cases hfree : versionAt a row = invalidTransaction
    · simp [hfree, hid']
    · simp [hown, hfree]

theorem DeletionRep.delete_ (h : v.DeletionRep del) (hid : transactionID ≠ invalidTransaction)
    (hrow : row < vectorCapacity k) :
    (v.delete_ transactionID row).1.DeletionRep
        (update del row (deletionAfter transactionID (del row))) ∧
      (v.delete_ transactionID row).2 = deleteResult transactionID (del row) := by
  have hread : ∀ i, versionAt (v.deletedVersions.getD (initVersionArray k)) i =
      v.deletionEntry i := by
    intro i
    unfold deletionEntry
    cases v.deletedVersions <;> simp
  rw [delete_eq h.same hid row rfl]
  refine ⟨⟨h.same, fun i hi => ?_, nofun⟩, ?_⟩
  · rw [deletionEntry, map_some, getD_some, hread, h.entry row hrow]
    by_cases hfree : del row = invalidTransaction
    · rw [if_pos hfree, versionAt_writeRange _ _ _ (by omega), hread, h.entry i hi]
      rcases eq_or_ne i row with rfl | hne
      · simp [deletionAfter, hfree]
      · rw [update_of_ne hne, if_neg (by omega)]
    · rw [if_neg hfree, hread, h.entry i hi]
      simp [deletionAfter, hfree]
  · rw [hread, h.entry row hrow]

theorem delete_insertionFields (h : v.sameDeletionVersion = invalidTransaction)
    (hid : transactionID ≠ invalidTransaction) (row : Nat) :
    (v.delete_ transactionID row).1.insertionFields = v.insertionFields := by
  rw [delete_eq h hid row rfl]
  rfl

theorem DeletionRep.setDeleteCommitTS (h : v.DeletionRep del) (hn : 0 < n)
    (hcap : start + n ≤ vectorCapacity k)
    (hdel : ∀ i, start ≤ i → i < start + n → del i ≠ invalidTransaction) :
    (v.setDeleteCommitTS commitTS start n).DeletionRep
      (fun i => if start ≤ i ∧ i < start + n then commitTS else del i) := by
  have hshared : v.isSameDeletionVersion = false := by simp [isSameDeletionVersion, h.same]
  have hstart := h.entry start (by omega)
  have hused := hdel start (Nat.le_refl _) (by omega)
  obtain ⟨a, ha⟩ : ∃ a, v.deletedVersions = some a := by
    cases harray : v.deletedVersions with
    | none =>
      rw [deletionEntry, harray] at hstart
      exact absurd hstart.symm hused
    | some a => exact ⟨a, rfl⟩
  have heq : v.setDeleteCommitTS commitTS start n =
      { v with deletedVersions := some (writeRange a start n commitTS) } := by
    simp [VectorVersionInfo.setDeleteCommitTS, hshared, ha]
  rw [heq]
  refine ⟨h.same, fun i hi => ?_, fun hq i hi => ?_⟩
  · have hentry := h.entry i hi
    simp only [deletionEntry, ha, map_some, getD_some] at hentry ⊢
    rw [versionAt_writeRange _ _ _ hcap, hentry]
  · exact absurd (h.quiet hq start (by omega)) hused

theorem setDeleteCommitTS_insertionFields (v : VectorVersionInfo k) (commitTS start n : Nat) :
    (v.setDeleteCommitTS commitTS start n).insertionFields = v.insertionFields := by
  unfold setDeleteCommitTS
  split <;> rfl

theorem DeletionRep.rollbackDeletions (h : v.DeletionRep del)
    (hcap : start + n ≤ vectorCapacity k) :
    (v.rollbackDeletions start n).DeletionRep
      (fun i => if start ≤ i ∧ i < start + n then invalidTransaction else del i) := by
  have hshared : v.isSameDeletionVersion = false := by simp [isSameDeletionVersion, h.same]
  have heq : v.rollbackDeletions start n =
      { v with
        deletedVersions := clearVersions v.deletedVersions start n
        deletionStatus := if (clearVersions v.deletedVersions start n).isNone then .noDeleted
          else v.deletionStatus } := by
    simp only [VectorVersionInfo.rollbackDeletions, hshared, Bool.false_eq_true, if_false]
    split <;> rfl
  -- dropping an array without versions does not change what is read
  have hentry : ∀ i, i < vectorCapacity k →
      ((clearVersions v.deletedVersions start n).map (versionAt · i)).getD invalidTransaction =
        if start ≤ i ∧ i < start + n then invalidTransaction else del i := by
    intro i hi
    have hi' := h.entry i hi
    unfold deletionEntry at hi'
    rw [← hi']
    cases v.deletedVersions with
    | none => simp [clearVersions]
    | some a =>
      simp only [clearVersions, bind_some, map_some, getD_some]
      rw [← versionAt_writeRange a invalidTransaction i hcap]
      split_ifs with hnone
      · rfl
      · by_contra hne
        exact hnone ((hasAnyVersion_iff _).mpr ⟨i, hi, fun h => hne h.symm⟩)
  rw [heq]
  refine ⟨h.same, hentry, fun hq i hi => ?_⟩
  split_ifs at hq with hnone
  · rw [← hentry i hi, isNone_iff_eq_none.mp hnone]
    rfl
  · split
    · rfl
    · exact h.quiet hq i hi

theorem rollbackDeletions_insertionFields (v : VectorVersionInfo k) (start n : Nat) :
    (v.rollbackDeletions start n).insertionFields = v.insertionFields := by
  simp only [rollbackDeletions]
  split <;> split <;> rfl

end VectorVersionInfo

/-! ## All vectors -/

/-- Number of rows of vector `b` in a group of `numRows` rows. -/
def rowsInVector (k numRows b : Nat) : Nat :=
  min (vectorCapacity k) (numRows - vectorCapacity k * b)

variable {b : Nat}

theorem lt_rowsInVector_iff {k numRows : Nat} :
    i < rowsInVector k numRows b ↔ i < vectorCapacity k ∧ vectorCapacity k * b + i < numRows := by
  unfold rowsInVector
  omega

theorem rowsInVector_eq {k numRows c : Nat} (hc : c ≤ vectorCapacity k)
    (h : ∀ i, i < vectorCapacity k → (i < c ↔ vectorCapacity k * b + i < numRows)) :
    rowsInVector k numRows b = c := by
  have hlow := h (c - 1)
  have hhigh := h c
  unfold rowsInVector
  omega

/-- A `VersionInfo` of `numRows` rows stands for the insertion versions `ins` and the
deletion versions `del`. -/
def VersionInfo.Represents {k : Nat} (vi : VersionInfo k) (numRows : Nat)
    (ins del : Nat → Nat) : Prop :=
  ∀ b, VectorRep (vi.getOrCreateVersionInfo b) (rowsInVector k numRows b)
    (fun i => ins (vectorCapacity k * b + i)) (fun i => del (vectorCapacity k * b + i))

/-- No vector with a shared insertion version would be cut by a rollback that starts
at `startRow`. -/
def VersionInfo.CutsNoSharedVector {k : Nat} (vi : VersionInfo k) (startRow : Nat) : Prop :=
  startRow % vectorCapacity k ≠ 0 →
    (vi.getOrCreateVersionInfo (startRow / vectorCapacity k)).isSameInsertionVersion = false
  deriving Decidable

namespace VersionInfo

variable {k r : Nat} {vi : VersionInfo k} {numRows : Nat} {ins del : Nat → Nat}

theorem represents_empty (ins : Nat → Nat) :
    ({} : VersionInfo k).Represents 0 ins (fun _ => invalidTransaction) := by
  intro b
  have hzero : rowsInVector k 0 b = 0 := by simp [rowsInVector]
  rw [hzero]
  exact vectorRep_default

theorem div_row (hi : i < vectorCapacity k) :
    (vectorCapacity k * b + i) / vectorCapacity k = b := div_block hi

theorem mod_row (hi : i < vectorCapacity k) :
    (vectorCapacity k * b + i) % vectorCapacity k = i := by
  rw [Nat.mul_add_mod, Nat.mod_eq_of_lt hi]

theorem row_eq (r : Nat) : vectorCapacity k * (r / vectorCapacity k) + r % vectorCapacity k = r :=
  Nat.div_add_mod r (vectorCapacity k)

theorem mod_lt_rowsInVector (hr : r < numRows) :
    r % vectorCapacity k < rowsInVector k numRows (r / vectorCapacity k) :=
  lt_rowsInVector_iff.mpr ⟨Nat.mod_lt _ (vectorCapacity_pos k), by rw [row_eq]; exact hr⟩

section

variable (h : vi.Represents numRows ins del)

include h

/-- A row that exists lies in a vector that exists. -/
theorem Represents.getVector (hr : r < numRows) : vi.getVectorVersionInfo (r / vectorCapacity k) =
      some (vi.getOrCreateVersionInfo (r / vectorCapacity k)) := by
  have hpos := Nat.zero_lt_of_lt (mod_lt_rowsInVector (k := k) hr)
  have hrep := (h (r / vectorCapacity k)).insertion
  unfold getOrCreateVersionInfo at hrep ⊢
  cases hv : vi.getVectorVersionInfo (r / vectorCapacity k) with
  | some => rfl
  | none =>
    rw [hv] at hrep
    cases hrep.status hpos

theorem Represents.isSelected (hr : r < numRows) (ht : t.InRange) : vi.isSelected t.startTS t.id r =
      (visible t.startTS t.id (ins r) && !visible t.startTS t.id (del r)) := by
  have hsel := isSelected_of_rep (h (r / vectorCapacity k)) (mod_lt_rowsInVector hr) ht
  simp only [row_eq] at hsel
  simp only [VersionInfo.isSelected, h.getVector hr, hsel]

theorem Represents.unborn (hr : numRows ≤ r) : del r = invalidTransaction := by
  have hlt : ¬ r % vectorCapacity k < rowsInVector k numRows (r / vectorCapacity k) := by
    rw [lt_rowsInVector_iff, row_eq]
    omega
  have := (h (r / vectorCapacity k)).unborn (r % vectorCapacity k) (by omega)
    (Nat.mod_lt _ (vectorCapacity_pos k))
  rwa [row_eq] at this

end

/-- What a loop over the vectors leaves in each vector. -/
theorem getOrCreate_forEachVector (f : VectorVersionInfo k → Nat → Nat → VectorVersionInfo k)
    (vi : VersionInfo k) (start b : Nat) (hn : 0 < n) :
    (vi.forEachVector f start n).getOrCreateVersionInfo b =
      if InBlocks (vectorCapacity k) start n b then
        f (vi.getOrCreateVersionInfo b) (blockStart (vectorCapacity k) start b)
          (blockLen (vectorCapacity k) start n b)
      else vi.getOrCreateVersionInfo b := by
  simp only [forEachVector, getOrCreateVersionInfo, getVectorVersionInfo,
    slotAt_forParts _ _ _ _ hn]
  split <;> rfl

/-- A vector that the interval does not meet has no row in the interval. -/
theorem not_mem_of_not_inBlocks (hi : i < vectorCapacity k)
    (hb : ¬ InBlocks (vectorCapacity k) start n b) :
    ¬ (start ≤ vectorCapacity k * b + i ∧ vectorCapacity k * b + i < start + n) := by
  rintro ⟨h1, h2⟩
  have hin := inBlocks_of_mem (B := vectorCapacity k) h1 h2
  rw [div_row hi] at hin
  exact hb hin

section

variable (hn : 0 < n) (hb : InBlocks (vectorCapacity k) start n b)

include hn hb

/-- The part of a range of existing rows that falls into a vector. -/
theorem blockPart_le_rows (hrange : start + n ≤ numRows) :
    blockStart (vectorCapacity k) start b + blockLen (vectorCapacity k) start n b ≤
      rowsInVector k numRows b := by
  have hpos := vectorCapacity_pos k
  have hcap := blockPart_le hpos hn hb
  have hlen : 0 < blockLen (vectorCapacity k) start n b := blockLen_pos
  have hlast := mem_blockPart hpos hn hb (i := blockStart (vectorCapacity k) start b +
    blockLen (vectorCapacity k) start n b - 1) (by omega)
  unfold rowsInVector
  omega

/-- The rows of a vector before and after an interval that starts or ends with the rows. -/
theorem rowsInVector_block :
    rowsInVector k start b = blockStart (vectorCapacity k) start b ∧ rowsInVector k (start + n) b =
        blockStart (vectorCapacity k) start b + blockLen (vectorCapacity k) start n b := by
  have hpos := vectorCapacity_pos k
  refine ⟨rowsInVector_eq (Nat.le_of_lt (blockStart_lt hpos)) fun i _ => ?_,
    rowsInVector_eq (blockPart_le hpos hn hb) fun i hi => ?_⟩
  · have := blockStart_le_iff hpos hb.1 i
    omega
  · have hmem := mem_blockPart hpos hn hb hi
    have := blockStart_le_iff hpos hb.1 i
    omega

end

/-- A vector whose rows do not change. -/
theorem VectorRep.rows_congr {v : VectorVersionInfo k} {numRows' : Nat}
    (h : VectorRep v (rowsInVector k numRows b) (fun i => ins (vectorCapacity k * b + i))
      (fun i => del (vectorCapacity k * b + i))) (hrows : ∀ i, i < vectorCapacity k →
      (vectorCapacity k * b + i < numRows' ↔ vectorCapacity k * b + i < numRows))
    (hins : ∀ r, r < numRows → ins' r = ins r) :
    VectorRep v (rowsInVector k numRows' b) (fun i => ins' (vectorCapacity k * b + i))
      (fun i => del (vectorCapacity k * b + i)) := by
  have heq : rowsInVector k numRows' b = rowsInVector k numRows b :=
    rowsInVector_eq h.le fun i hi => by
      rw [lt_rowsInVector_iff, hrows i hi]
      exact and_iff_right hi
  rw [heq]
  exact ⟨h.le, h.insertion.congr fun i hi => hins _ (lt_rowsInVector_iff.mp hi).2,
    h.deletion, h.unborn⟩

section

variable (h : vi.Represents numRows ins del)

include h

theorem append_represents (hid : transactionID ≠ invalidTransaction) (n : Nat) :
    (vi.append transactionID numRows n).Represents (numRows + n)
      (fun r => if numRows ≤ r then transactionID else ins r) del := by
  have hkeep : ∀ r, r < numRows → (if numRows ≤ r then transactionID else ins r) = ins r :=
    fun r hr => if_neg (Nat.not_le_of_lt hr)
  rcases Nat.eq_zero_or_pos n with rfl | hn
  · rw [append]
    exact fun b => VectorRep.rows_congr (h b) (fun i _ => Iff.rfl) hkeep
  intro b
  have hpos := vectorCapacity_pos k
  rw [append, getOrCreate_forEachVector _ _ _ _ hn]
  by_cases hb : InBlocks (vectorCapacity k) numRows n b
  · rw [if_pos hb]
    obtain ⟨hstart, hend⟩ := rowsInVector_block hn hb
    have hrep := append_rep (hstart ▸ h b) hid (blockLen_pos)
      (blockPart_le hpos hn hb)
    rw [hend]
    refine ⟨hrep.le, hrep.insertion.congr fun i _ => ?_, hrep.deletion, hrep.unborn⟩
    simp only [blockStart_le_iff hpos hb.1 i]
  · rw [if_neg hb]
    refine VectorRep.rows_congr (h b) (fun i hi => ?_) hkeep
    have := not_mem_of_not_inBlocks hi hb
    omega

/-- `commitInsert` moves the rows of the range to the commit timestamp; a row outside
of the range moves with them only if it had the version of a row in the range. -/
theorem commitInsert_represents (hts : commitTS ≠ invalidTransaction)
    (hrange : start + n ≤ numRows) :
    ∃ ins', (vi.commitInsert start n commitTS).Represents numRows ins' del ∧
      (∀ r, start ≤ r → r < start + n → ins' r = commitTS) ∧
      ∀ r, r < numRows → ins' r = ins r ∨
        (ins' r = commitTS ∧ ∃ r₀, start ≤ r₀ ∧ r₀ < start + n ∧ ins r₀ = ins r) := by
  rcases Nat.eq_zero_or_pos n with rfl | hn
  · refine ⟨ins, ?_, fun r h1 h2 => by omega, fun r _ => .inl rfl⟩
    exact h
  have hpos := vectorCapacity_pos k
  refine ⟨fun r => if (InBlocks (vectorCapacity k) start n (r / vectorCapacity k) ∧
      (vi.getOrCreateVersionInfo (r / vectorCapacity k)).isSameInsertionVersion = true) ∨
      (start ≤ r ∧ r < start + n) then commitTS else ins r, ?_, ?_, ?_⟩
  · intro b
    rw [commitInsert, getOrCreate_forEachVector _ _ _ _ hn]
    by_cases hb : InBlocks (vectorCapacity k) start n b
    · rw [if_pos hb]
      have hrep := setInsertCommitTS_rep (h b) hts blockLen_pos (blockPart_le_rows hn hb hrange)
      refine ⟨hrep.le, hrep.insertion.congr fun i hi => ?_, hrep.deletion, hrep.unborn⟩
      have hi' := (lt_rowsInVector_iff.mp hi).1
      simp only [div_row hi', hb, true_and, mem_blockPart hpos hn hb hi']
    · rw [if_neg hb]
      refine ⟨(h b).le, (h b).insertion.congr fun i hi => ?_, (h b).deletion, (h b).unborn⟩
      have hi' := (lt_rowsInVector_iff.mp hi).1
      have hnot := not_mem_of_not_inBlocks hi' hb
      simp only [div_row hi', hb, false_and, false_or, if_neg hnot]
  · intro r h1 h2
    exact if_pos (.inr ⟨h1, h2⟩)
  · intro r hr
    simp only
    split_ifs with hcase
    · refine .inr ⟨rfl, ?_⟩
      rcases hcase with ⟨hb, hshared⟩ | ⟨h1, h2⟩
      · -- every row of the vector has the shared version, the first of the range too
        have hpart := blockPart_le_rows hn hb hrange
        have hfirst : blockStart (vectorCapacity k) start (r / vectorCapacity k) <
            rowsInVector k numRows (r / vectorCapacity k) :=
          Nat.lt_of_lt_of_le (Nat.lt_add_of_pos_right blockLen_pos) hpart
        have hmem := (mem_blockPart hpos hn hb (lt_rowsInVector_iff.mp hfirst).1).mp
          ⟨Nat.le_refl _, Nat.lt_add_of_pos_right blockLen_pos⟩
        refine ⟨_, hmem.1, hmem.2, ?_⟩
        have hr' := shared_eq (h (r / vectorCapacity k)) hshared (mod_lt_rowsInVector hr)
        rw [row_eq] at hr'
        exact (shared_eq (h (r / vectorCapacity k)) hshared hfirst).trans hr'.symm
      · exact ⟨r, h1, h2, rfl⟩
    · exact .inl rfl

/-- Rolling back the last rows, if no vector with a shared version is cut. -/
theorem rollbackInsert_represents (hrange : start + n = numRows)
    (hcut : vi.CutsNoSharedVector start) (hdel : ∀ r, start ≤ r → del r = invalidTransaction) :
    (vi.rollbackInsert start n).Represents start ins del := by
  rcases Nat.eq_zero_or_pos n with rfl | hn
  · rw [rollbackInsert]
    rw [Nat.add_zero] at hrange
    exact hrange ▸ h
  intro b
  have hpos := vectorCapacity_pos k
  rw [rollbackInsert, getOrCreate_forEachVector _ _ _ _ hn]
  by_cases hb : InBlocks (vectorCapacity k) start n b
  · rw [if_pos hb]
    obtain ⟨hstart, hend⟩ := rowsInVector_block hn hb
    rw [hrange] at hend
    have hshared : blockStart (vectorCapacity k) start b ≠ 0 →
        (vi.getOrCreateVersionInfo b).isSameInsertionVersion = false := by
      intro hne
      unfold blockStart at hne
      split_ifs at hne with hfirst
      · rw [hfirst]
        exact hcut hne
      · exact absurd rfl hne
    rw [hstart]
    exact rollbackInsertions_rep (h b) blockLen_pos hend.symm hshared fun i hi _ =>
      hdel _ ((blockStart_le_iff hpos hb.1 i).mp hi)
  · rw [if_neg hb]
    refine VectorRep.rows_congr (h b) (fun i hi => ?_) fun r _ => rfl
    have := not_mem_of_not_inBlocks hi hb
    omega

/-! ### Deletions -/

/-- The deletion versions of a `VersionInfo`, whatever its insertion versions are. -/
def Deletes (vi : VersionInfo k) (del : Nat → Nat) : Prop :=
  ∀ b, (vi.getOrCreateVersionInfo b).DeletionRep fun i => del (vectorCapacity k * b + i)

theorem Represents.deletes : vi.Deletes del := fun b => (h b).deletion

/-- Operations that leave the insertions alone. -/
theorem Represents.of_deletes {vi' : VersionInfo k}
    (hfields : ∀ b, (vi'.getOrCreateVersionInfo b).insertionFields =
      (vi.getOrCreateVersionInfo b).insertionFields) (hdeletes : vi'.Deletes del')
    (hunborn : ∀ r, numRows ≤ r → del' r = invalidTransaction) :
    vi'.Represents numRows ins del' := by
  intro b
  refine ⟨(h b).le, (h b).insertion.frame (hfields b), hdeletes b, fun i hi hcap => hunborn _ ?_⟩
  exact Nat.le_of_not_lt fun hlt => Nat.not_lt_of_le hi (lt_rowsInVector_iff.mpr ⟨hcap, hlt⟩)

end

theorem deletes_empty : ({} : VersionInfo k).Deletes fun _ => invalidTransaction :=
  fun _ => ⟨rfl, fun _ _ => rfl, fun _ _ _ => rfl⟩

theorem Deletes.isDeleted (h : vi.Deletes del) (ht : t.InRange) (row : Nat) :
    vi.isDeleted t row = visible t.startTS t.id (del row) := by
  have hrep := h (row / vectorCapacity k)
  have hmod := Nat.mod_lt row (vectorCapacity_pos k)
  unfold VersionInfo.isDeleted
  unfold getOrCreateVersionInfo at hrep
  cases hv : vi.getVectorVersionInfo (row / vectorCapacity k) with
  | none =>
    rw [hv] at hrep
    have hfree := hrep.quiet rfl (row % vectorCapacity k) hmod
    rw [row_eq] at hfree
    rw [hfree, ht.not_visible_invalid]
  | some =>
    rw [hv] at hrep
    have hread := isDeleted_of_rep hrep hmod ht
    rw [row_eq] at hread
    exact hread

section

variable (vi : VersionInfo k) (transactionID row b : Nat)

/-- The vector of the row is created if it is missing; its insertions stay as they are
unless it had none. -/
theorem getVector_delete_ :
    (vi.delete_ transactionID row).1.getVectorVersionInfo b = if b = row / vectorCapacity k then
        some (VectorVersionInfo.delete_
          (if (vi.getOrCreateVersionInfo b).insertionStatus = .noInserted
            then { vi.getOrCreateVersionInfo b with insertionStatus := .alwaysInserted }
            else vi.getOrCreateVersionInfo b) transactionID (row % vectorCapacity k)).1
      else vi.getVectorVersionInfo b := by
  rw [delete_]
  rw [getVectorVersionInfo, slotAt_putSlot]
  split
  · rename_i hb
    rw [hb]
  · rfl

theorem getOrCreate_delete_ :
    (vi.delete_ transactionID row).1.getOrCreateVersionInfo b = if b = row / vectorCapacity k then
        (VectorVersionInfo.delete_ (if (vi.getOrCreateVersionInfo b).insertionStatus = .noInserted
          then { vi.getOrCreateVersionInfo b with insertionStatus := .alwaysInserted }
          else vi.getOrCreateVersionInfo b) transactionID (row % vectorCapacity k)).1
      else vi.getOrCreateVersionInfo b := by
  rw [getOrCreateVersionInfo, getVector_delete_]
  split <;> rfl

end

theorem Deletes.delete_ (h : vi.Deletes del) (hid : transactionID ≠ invalidTransaction)
    (row : Nat) :
    (vi.delete_ transactionID row).1.Deletes
        (update del row (deletionAfter transactionID (del row))) ∧
      (vi.delete_ transactionID row).2 = deleteResult transactionID (del row) := by
  have hmod := Nat.mod_lt row (vectorCapacity_pos k)
  have hframe : ∀ b, (if (vi.getOrCreateVersionInfo b).insertionStatus = .noInserted
      then { vi.getOrCreateVersionInfo b with insertionStatus := .alwaysInserted }
      else vi.getOrCreateVersionInfo b).DeletionRep fun i => del (vectorCapacity k * b + i) := by
    intro b
    split
    · exact (h b).frame rfl
    · exact h b
  constructor
  · intro b
    rw [getOrCreate_delete_]
    split
    · rename_i hb
      subst hb
      refine ((hframe _).delete_ hid hmod).1.congr fun i hi => ?_
      rcases eq_or_ne i (row % vectorCapacity k) with rfl | hne
      · rw [row_eq, update_self, update_self]
      · rw [update_of_ne hne, update_of_ne]
        intro heq
        exact hne (by rw [← heq, mod_row hi])
    · rename_i hb
      refine (h b).congr fun i hi => update_of_ne ?_ _ _
      rintro rfl
      exact hb (div_row hi).symm
  · have hresult := ((hframe (row / vectorCapacity k)).delete_ hid hmod).2
    rw [row_eq] at hresult
    exact hresult

theorem forEachVector_zero (f : VectorVersionInfo k → Nat → Nat → VectorVersionInfo k)
    (vi : VersionInfo k) (start : Nat) : vi.forEachVector f start 0 = vi := by
  rw [forEachVector, forParts_zero]

/-- A loop that changes the deletion versions of a range of rows. -/
theorem Deletes.forEachVector (h : vi.Deletes del) {x : Nat}
    {f : VectorVersionInfo k → Nat → Nat → VectorVersionInfo k}
    (hf : 0 < n → ∀ b, InBlocks (vectorCapacity k) start n b →
      (f (vi.getOrCreateVersionInfo b) (blockStart (vectorCapacity k) start b)
          (blockLen (vectorCapacity k) start n b)).DeletionRep
        (fun i => if blockStart (vectorCapacity k) start b ≤ i ∧
            i < blockStart (vectorCapacity k) start b + blockLen (vectorCapacity k) start n b
          then x else del (vectorCapacity k * b + i))) :
    (vi.forEachVector f start n).Deletes
      (fun r => if start ≤ r ∧ r < start + n then x else del r) := by
  intro b
  rcases Nat.eq_zero_or_pos n with rfl | hn
  · rw [forEachVector_zero]
    exact (h b).congr fun i _ => if_neg (by omega)
  rw [getOrCreate_forEachVector _ _ _ _ hn]
  split_ifs with hb
  · refine (hf hn b hb).congr fun i hi => ?_
    simp only [mem_blockPart (vectorCapacity_pos k) hn hb hi]
  · exact (h b).congr fun i hi => if_neg (not_mem_of_not_inBlocks hi hb)

theorem Deletes.commitDelete (h : vi.Deletes del) (start n commitTS : Nat)
    (hdel : ∀ r, start ≤ r → r < start + n → del r ≠ invalidTransaction) :
    (vi.commitDelete start n commitTS).Deletes
      (fun r => if start ≤ r ∧ r < start + n then commitTS else del r) := by
  refine h.forEachVector fun hn b hb => ?_
  have hpos := vectorCapacity_pos k
  have hcap := blockPart_le hpos hn hb
  refine (h b).setDeleteCommitTS blockLen_pos hcap fun i h1 h2 => ?_
  have hmem := (mem_blockPart hpos hn hb (by omega)).mp ⟨h1, h2⟩
  exact hdel _ hmem.1 hmem.2

theorem Deletes.rollbackDelete (h : vi.Deletes del) (start n : Nat) :
    (vi.rollbackDelete start n).Deletes
      (fun r => if start ≤ r ∧ r < start + n then invalidTransaction else del r) :=
  h.forEachVector fun hn b hb =>
    (h b).rollbackDeletions (blockPart_le (vectorCapacity_pos k) hn hb)

/-- A loop whose body leaves the insertions alone. -/
theorem forEachVector_insertionFields (f : VectorVersionInfo k → Nat → Nat → VectorVersionInfo k)
    (hf : ∀ v s m, (f v s m).insertionFields = v.insertionFields) (vi : VersionInfo k)
    (start n b : Nat) :
    ((vi.forEachVector f start n).getOrCreateVersionInfo b).insertionFields =
      (vi.getOrCreateVersionInfo b).insertionFields := by
  rcases Nat.eq_zero_or_pos n with rfl | hn
  · rw [forEachVector_zero]
  · rw [getOrCreate_forEachVector _ _ _ _ hn]
    split
    · exact hf _ _ _
    · rfl

variable (h : vi.Represents numRows ins del)

include h

theorem delete_represents (hid : transactionID ≠ invalidTransaction) (hrow : row < numRows) :
    (vi.delete_ transactionID row).1.Represents numRows ins
        (update del row (deletionAfter transactionID (del row))) ∧
      (vi.delete_ transactionID row).2 = deleteResult transactionID (del row) := by
  obtain ⟨hdeletes, hresult⟩ := h.deletes.delete_ hid row
  refine ⟨h.of_deletes (fun b => ?_) hdeletes fun r hr => ?_, hresult⟩
  · rw [getOrCreate_delete_]
    split
    · rename_i hb
      subst hb
      -- the vector has a row, so its insertions are known
      have hstatus := (h _).insertion.status (Nat.zero_lt_of_lt (mod_lt_rowsInVector hrow))
      rw [if_neg (by simp [hstatus])]
      exact delete_insertionFields (h _).deletion.same hid _
    · rfl
  · rw [update_of_ne (by omega)]
    exact h.unborn hr

theorem commitDelete_represents (start n commitTS : Nat) (hrange : start + n ≤ numRows)
    (hdel : ∀ r, start ≤ r → r < start + n → del r ≠ invalidTransaction) :
    (vi.commitDelete start n commitTS).Represents numRows ins
      (fun r => if start ≤ r ∧ r < start + n then commitTS else del r) := by
  refine h.of_deletes (fun b => ?_) (h.deletes.commitDelete start n commitTS hdel) fun r hr => ?_
  · exact forEachVector_insertionFields _
      (fun v s m => setDeleteCommitTS_insertionFields v commitTS s m) vi start n b
  · rw [if_neg (by omega)]
    exact h.unborn hr

theorem rollbackDelete_represents (start n : Nat) :
    (vi.rollbackDelete start n).Represents numRows ins
      (fun r => if start ≤ r ∧ r < start + n then invalidTransaction else del r) := by
  refine h.of_deletes (fun b => ?_) (h.deletes.rollbackDelete start n) fun r hr => ?_
  · exact forEachVector_insertionFields _ rollbackDeletions_insertionFields vi start n b
  · rw [h.unborn hr]
    split <;> rfl

end VersionInfo

end Lbug.Storage
