/-
  Storage/VersionSerialization.lean --- the versions that a checkpoint writes.

  Source: `storage/table/version_info.cpp` (`serialize`, `deSerialize`, `deserialize`).

  Values are written as their bytes; the keys of a debug build are left out.  A vector is
  written without its insertion versions, and `serialize` asserts that none are needed:
  `Serializable` has what it asserts.  Assertions are checked in debug builds only; without
  them a vector can be read back whose versions are missing, and looking at one of its rows
  dereferences a null pointer.  `isSelected?` has this as an error.
-/
import Lbug.Foundation.Bytes
import Lbug.Storage.SelectionScan

namespace Lbug.Storage

open Foundation Transaction List

variable {k : Nat}

namespace VectorVersionInfo

/-- The status of the insertions is written, their versions are not. -/
def serialize (v : VectorVersionInfo k) : List UInt8 :=
  writeBytes 1 v.insertionStatus.ctorIdx ++ (writeBytes 1 v.deletionStatus.ctorIdx ++
    match v.deletionStatus with
    | .noDeleted => []
    | .checkVersion => writeBytes 8 v.sameDeletionVersion ++
      if v.isSameDeletionVersion then []
      else (v.deletedVersions.getD (initVersionArray k)).toList.flatMap (writeBytes 8))

def deSerialize (bytes : List UInt8) : Option (VectorVersionInfo k × List UInt8) := do
  let (insertion, bytes) ← readBytes 1 bytes
  let (deletion, bytes) ← readBytes 1 bytes
  let v : VectorVersionInfo k :=
    { insertionStatus := .ofNat insertion, deletionStatus := .ofNat deletion }
  match v.deletionStatus with
  | .noDeleted => return (v, bytes)
  | .checkVersion =>
    let (version, bytes) ← readBytes 8 bytes
    let v := { v with sameDeletionVersion := version }
    if v.isSameDeletionVersion then return (v, bytes)
    let (versions, bytes) ← readMany (readBytes 8) (vectorCapacity k) bytes
    let a : VersionArray k := .ofFn fun i => versions.getD i invalidTransaction
    return ({ v with deletedVersions := some a }, bytes)

/-- `isSelected`; an array of versions that is read but not there is an error. -/
def isSelected? (v : VectorVersionInfo k) (startTS transactionID rowIdx : Nat) : Option Bool :=
  if v.insertionStatus = .checkVersion ∧ !v.isSameInsertionVersion ∧ v.insertedVersions.isNone then
    none
  else if v.isInserted startTS transactionID rowIdx ∧ v.deletionStatus = .checkVersion ∧
      !v.isSameDeletionVersion ∧ v.deletedVersions.isNone then none
  else some (v.isSelected startTS transactionID rowIdx)

/-- The deletion versions are committed, and the insertion versions are not needed. -/
structure Serializable (v : VectorVersionInfo k) : Prop where
  inserted : v.insertionStatus ≠ .checkVersion
  committed : ∀ version, version = v.sameDeletionVersion ∨
    (∃ a ∈ v.deletedVersions, version ∈ a.toList) →
      version = invalidTransaction ∨ version < startTransactionID
  deleted : v.deletionStatus = .checkVersion → v.isSameDeletionVersion = false →
    v.deletedVersions.isSome = true

variable {v : VectorVersionInfo k}

/-- The versions that a checkpoint writes fit into their eight bytes. -/
theorem readBytes_committed {version : Nat}
    (h : version = invalidTransaction ∨ version < startTransactionID) (rest : List UInt8) :
    readBytes 8 (writeBytes 8 version ++ rest) = some (version, rest) := by
  refine readBytes_writeBytes ?_ rest
  rcases h with rfl | h
  · decide
  · exact Nat.lt_trans h (by decide)

theorem deSerialize_serialize (h : v.Serializable) (rest : List UInt8) :
    deSerialize (v.serialize ++ rest) = some (v.persisted, rest) := by
  have hinsertion : v.insertionStatus.ctorIdx < 256 ^ 1 := by
    cases v.insertionStatus <;> decide
  have hdeletion : v.deletionStatus.ctorIdx < 256 ^ 1 := by
    cases v.deletionStatus <;> decide
  simp only [serialize, deSerialize, append_assoc, readBytes_writeBytes hinsertion,
    readBytes_writeBytes hdeletion, InsertionStatus.ofNat_ctorIdx, DeletionStatus.ofNat_ctorIdx,
    Option.bind_eq_bind, Option.bind_some]
  cases hstatus : v.deletionStatus with
  | noDeleted => simp [persisted, hstatus]
  | checkVersion =>
    simp only [append_assoc, readBytes_committed (h.committed _ (.inl rfl)), Option.bind_some]
    by_cases hsame : v.isSameDeletionVersion = true
    · have hread : v.sameDeletionVersion != invalidTransaction := hsame
      simp [isSameDeletionVersion, persisted, hstatus, hread]
    obtain ⟨a, ha⟩ := Option.isSome_iff_exists.mp (h.deleted hstatus (by simpa using hsame))
    have hversions : ∀ version ∈ a.toList, ∀ rest,
        readBytes 8 (writeBytes 8 version ++ rest) = some (id version, rest) := fun version hv =>
      readBytes_committed (h.committed version (.inr ⟨a, ha, hv⟩))
    have hread := readMany_flatMap hversions rest
    rw [Vector.length_toList] at hread
    have hinvalid : ¬ (v.sameDeletionVersion != invalidTransaction) = true := hsame
    simp [isSameDeletionVersion, persisted, hstatus, hinvalid, ha, hread]

/-- The deletions are read back as they were. -/
theorem isDeleted_persisted (v : VectorVersionInfo k) (startTS transactionID row : Nat) :
    v.persisted.isDeleted startTS transactionID row = v.isDeleted startTS transactionID row := by
  cases hstatus : v.deletionStatus with
  | noDeleted => simp [isDeleted, persisted, hstatus]
  | checkVersion =>
    by_cases hsame : v.sameDeletionVersion = invalidTransaction <;>
      simp [isDeleted, persisted, isSameDeletionVersion, hstatus, hsame]

theorem isSelected_persisted (h : v.Serializable) (startTS transactionID row : Nat) :
    v.persisted.isSelected startTS transactionID row = v.isSelected startTS transactionID row := by
  have hinserted : v.persisted.isInserted startTS transactionID row =
      v.isInserted startTS transactionID row := by
    cases hstatus : v.insertionStatus with
    | checkVersion => exact absurd hstatus h.inserted
    | noInserted | alwaysInserted => simp [isInserted, persisted, hstatus]
  rw [isSelected_eq, isSelected_eq, hinserted, isDeleted_persisted]

/-- No array is missing where a vector can be serialized. -/
theorem isSelected?_eq (h : v.Serializable) (startTS transactionID row : Nat) :
    v.isSelected? startTS transactionID row = some (v.isSelected startTS transactionID row) := by
  rw [isSelected?, if_neg fun hmissing => h.inserted hmissing.1, if_neg]
  rintro ⟨-, hstatus, hsame, hnone⟩
  have hsome := h.deleted hstatus (by simpa using hsame)
  rw [Option.isNone_iff_eq_none.mp hnone] at hsome
  cases hsome

theorem Serializable.persisted (h : v.Serializable) : v.persisted.Serializable where
  inserted := h.inserted
  committed := by
    have hcommitted := h.committed
    unfold VectorVersionInfo.persisted
    grind
  deleted := by
    have hdeleted := h.deleted
    unfold VectorVersionInfo.persisted isSameDeletionVersion at *
    grind

end VectorVersionInfo

namespace VersionInfo

/-- `isSelected`, with the errors of the vectors. -/
def isSelected? (vi : VersionInfo k) (startTS transactionID rowIdx : Nat) : Option Bool :=
  match vi.getVectorVersionInfo (rowIdx / vectorCapacity k) with
  | some v => v.isSelected? startTS transactionID (rowIdx % vectorCapacity k)
  | none => some true

/-- A vector, behind a flag that says whether there is one. -/
def serializeVector : Option (VectorVersionInfo k) → List UInt8
  | some v => writeBytes 1 1 ++ v.serialize
  | none => writeBytes 1 0

def deserializeVector (bytes : List UInt8) :
    Option (Option (VectorVersionInfo k) × List UInt8) := do
  let (hasVectorVersion, bytes) ← readBytes 1 bytes
  if hasVectorVersion = 0 then return (none, bytes)
  let (v, bytes) ← VectorVersionInfo.deSerialize bytes
  return (some v, bytes)

def serialize (vi : VersionInfo k) : List UInt8 :=
  writeBytes 8 vi.vectorsInfo.length ++ vi.vectorsInfo.flatMap serializeVector

def deserialize (bytes : List UInt8) : Option (VersionInfo k) := do
  let (vectorSize, bytes) ← readBytes 8 bytes
  let (vectors, _) ← readMany deserializeVector vectorSize bytes
  return ⟨vectors⟩

/-- The vectors can be serialized, and a 32-bit number counts them. -/
structure Serializable (vi : VersionInfo k) : Prop where
  count : vi.vectorsInfo.length < 2 ^ 32
  vectors : ∀ v, some v ∈ vi.vectorsInfo → v.Serializable

variable {vi : VersionInfo k}

theorem deserialize_serialize (h : vi.Serializable) :
    deserialize vi.serialize = some vi.persisted := by
  have hlength : vi.vectorsInfo.length < 256 ^ 8 := Nat.lt_trans h.count (by decide)
  have hvector : ∀ entry ∈ vi.vectorsInfo, ∀ rest,
      deserializeVector (serializeVector entry ++ rest) =
      some (entry.map VectorVersionInfo.persisted, rest) := by
    intro entry hentry rest
    cases entry with
    | none => rfl
    | some v =>
      have hflag : readBytes 1 (1 :: (v.serialize ++ rest)) = some (1, v.serialize ++ rest) := rfl
      simp [deserializeVector, serializeVector, writeBytes, hflag,
        VectorVersionInfo.deSerialize_serialize (h.vectors v hentry)]
  have hvectors := readMany_flatMap hvector []
  rw [append_nil] at hvectors
  simp [serialize, deserialize, readBytes_writeBytes hlength, hvectors, persisted]

theorem isSelected?_eq (h : ∀ v, some v ∈ vi.vectorsInfo → v.Serializable)
    (startTS transactionID row : Nat) :
    vi.isSelected? startTS transactionID row = some (vi.isSelected startTS transactionID row) := by
  rw [isSelected?, isSelected]
  cases hv : vi.getVectorVersionInfo (row / vectorCapacity k) with
  | none => rfl
  | some v =>
    exact VectorVersionInfo.isSelected?_eq
      (h v (mem_of_getElem? (Option.join_eq_some_iff.mp hv))) ..

/-- Versions that can be serialized are read back with the same selected rows for every
transaction, no version is missing before or after, and deletions are counted before and
after. -/
theorem deserialize_selects_same (vi : VersionInfo k) (h : vi.Serializable) :
    ∃ vi' : VersionInfo k, deserialize vi.serialize = some vi' ∧
      (∀ startTS transactionID row, vi'.isSelected startTS transactionID row =
          vi.isSelected startTS transactionID row ∧
        vi.isSelected? startTS transactionID row = some (vi.isSelected startTS transactionID row) ∧
        vi'.isSelected? startTS transactionID row =
          some (vi'.isSelected startTS transactionID row)) ∧
      ∀ t startRow numRows, vi.getNumDeletions t startRow numRows =
          (range' startRow numRows).countP (vi.isDeleted t) ∧
        vi'.getNumDeletions t startRow numRows =
          (range' startRow numRows).countP (vi'.isDeleted t) := by
  have hpersisted : ∀ v, some v ∈ vi.persisted.vectorsInfo → v.Serializable := by
    intro v hv
    obtain ⟨_, hentry, hmap⟩ := mem_map.mp hv
    obtain ⟨w, rfl, rfl⟩ := Option.map_eq_some_iff.mp hmap
    exact (h.vectors w hentry).persisted
  refine ⟨_, deserialize_serialize h, fun startTS transactionID row =>
    ⟨?_, isSelected?_eq h.vectors .., isSelected?_eq hpersisted ..⟩,
    fun t startRow numRows => ⟨getNumDeletions_eq _ _ _ _, getNumDeletions_eq _ _ _ _⟩⟩
  have hvector : vi.persisted.getVectorVersionInfo (row / vectorCapacity k) =
      (vi.getVectorVersionInfo (row / vectorCapacity k)).map VectorVersionInfo.persisted := by
    rw [persisted]
    cases hentry : vi.vectorsInfo[row / vectorCapacity k]? <;>
      simp [getVectorVersionInfo, slotAt, hentry]
  rw [isSelected, isSelected, hvector]
  cases hv : vi.getVectorVersionInfo (row / vectorCapacity k) with
  | none => rfl
  | some v =>
    refine VectorVersionInfo.isSelected_persisted (h.vectors v ?_) _ _ _
    exact mem_of_getElem? (Option.join_eq_some_iff.mp hv)

/-- Rows that one committed transaction deleted. -/
def oneDeleted : VersionInfo 0 :=
  ⟨[some { sameDeletionVersion := 5, insertionStatus := .alwaysInserted
           deletionStatus := .checkVersion }]⟩

theorem oneDeleted_serializable : oneDeleted.Serializable := by
  refine ⟨by decide, fun v hv => ?_⟩
  obtain rfl := Option.some.inj (mem_singleton.mp hv)
  refine ⟨by decide, ?_, fun _ hsame => by cases hsame⟩
  rintro version (rfl | ⟨a, ⟨⟩, -⟩)
  exact .inr (by decide)

theorem deserialize_selects_same_sample :
    ∃ vi' : VersionInfo 0, deserialize oneDeleted.serialize = some vi' ∧
      vi'.isSelected 7 startTransactionID 0 = false := by
  obtain ⟨vi', hread, hselected, -⟩ := deserialize_selects_same _ oneDeleted_serializable
  refine ⟨vi', hread, ?_⟩
  rw [(hselected ..).1]
  decide

/-- A row that a transaction inserted which committed at timestamp 5.  A build without
assertions serializes it. -/
def oneInserted : VersionInfo 0 :=
  (VersionInfo.append {} (startTransactionID + 1) 0 1).commitInsert 0 1 5

/-- The insertion version is not read back: a later transaction finds the row before, and
dereferences a null pointer after. -/
theorem deserialize_loses_insertions :
    oneInserted.isSelected? 7 (startTransactionID + 2) 0 = some true ∧
      (deserialize oneInserted.serialize).map (fun vi : VersionInfo 0 =>
        vi.isSelected? 7 (startTransactionID + 2) 0) = some none := by
  decide

end VersionInfo

end Lbug.Storage
