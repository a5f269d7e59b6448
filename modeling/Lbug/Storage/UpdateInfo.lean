/-
  Storage/UpdateInfo.lean --- update chains.

  Source: `storage/table/update_info.cpp` and `include/storage/table/update_info.h`.

  A column chunk does not overwrite a value in place.  For every vector of rows it keeps
  a chain of `VectorUpdateInfo` nodes, newest first; a node holds the values that one
  transaction wrote to rows of the vector, under one version.  The version is the
  transaction's ID until the commit replaces it by the commit timestamp, and a reader
  takes a row's value from the first node of the chain that it may see.

  A node is allocated once and referred to by pointer from the undo buffer; `addr` is
  that pointer.  The arrays `rowsInVector` and `data`, of which the first
  `numRowsUpdated` entries are used, are one list of rows with their values.  The
  latches of the chains are not modelled: each member function runs under one of them.
-/
import Lbug.Storage.VersionInfo

namespace Lbug.Storage

open Foundation Transaction List

universe u

structure VectorUpdateInfo (V : Type u) where
  addr : Nat
  version : Nat
  rows : List (Nat × V)

/-- What `update` throws. -/
def writeWriteConflictOnUpdate : String := "Write-write conflict of updating the same row."

/-- What `getUpdateNode` throws. -/
def noUpdateNode (vectorIdx : Nat) : String :=
  "UpdateInfo does not have update node for vector index: " ++ toString vectorIdx

namespace VectorUpdateInfo

variable {V : Type u}

section

variable (n : VectorUpdateInfo V)

/-- The value that the node holds for a row of the vector. -/
def read (row : Nat) : Option V :=
  (n.rows.find? fun p => p.1 == row).map Prod.snd

/-- Overwrite the value of a row, or append it. -/
def writeRows (row : Nat) (value : V) : List (Nat × V) → List (Nat × V)
  | [] => [(row, value)]
  | p :: rest => if p.1 = row then (row, value) :: rest else p :: writeRows row value rest

def write (row : Nat) (value : V) : VectorUpdateInfo V :=
  { n with rows := writeRows row value n.rows }

theorem find_writeRows (row row' : Nat) (value : V) : ∀ rows : List (Nat × V),
    ((writeRows row value rows).find? fun p => p.1 == row').map Prod.snd =
      if row' = row then some value
      else (rows.find? fun p => p.1 == row').map Prod.snd
  | [] => by
    by_cases h : row' = row
    · simp [writeRows, h]
    · simp [writeRows, h, Ne.symm h]
  | p :: rest => by
    have ih := find_writeRows row row' value rest
    unfold writeRows
    by_cases hp : p.1 = row
    · by_cases h : row' = row
      · simp [hp, h]
      · simp [hp, h, Ne.symm h]
    rcases eq_or_ne p.1 row' with rfl | h
    · simp [hp]
    · have hne : (p.1 == row') = false := by simpa using h
      simp only [if_neg hp, find?_cons, hne]
      exact ih

theorem read_write (row row' : Nat) (value : V) :
    (n.write row value).read row' = if row' = row then some value else n.read row' :=
  find_writeRows row row' value n.rows

end

end VectorUpdateInfo

/-- The chains of a column chunk, one for each vector; `nextAddr` is the address of the
next node. -/
structure UpdateInfo (k : Nat) (V : Type u) where
  updates : List (List (VectorUpdateInfo V)) := []
  nextAddr : Nat := 0

namespace UpdateInfo

variable {k : Nat} {V : Type u}

section

variable (u : UpdateInfo k V)

/-- The chain of a vector, newest node first. -/
def chain (vectorIdx : Nat) : List (VectorUpdateInfo V) :=
  u.updates.getD vectorIdx []

def setChain (vectorIdx : Nat) (nodes : List (VectorUpdateInfo V)) : UpdateInfo k V :=
  { u with updates := u.updates.set vectorIdx nodes }

def getOrCreateUpdateNode (vectorIdx : Nat) : UpdateInfo k V :=
  { u with updates := u.updates ++ List.replicate (vectorIdx + 1 - u.updates.length) [] }

/-- The first loop of `update`: find the node of the transaction, or a conflict. -/
def findOwn (t : Snapshot) (row : Nat) :
    List (VectorUpdateInfo V) → Option Nat → Except String (Option Nat)
  | [], own => .ok own
  | n :: rest, own =>
    if n.version = t.id then findOwn t row rest (some n.addr)
    else if t.startTS < n.version ∧ (n.read row).isSome then .error writeWriteConflictOnUpdate
    else findOwn t row rest own

/-- `update`; the result is the address of the node that holds the value. -/
def update (t : Snapshot) (vectorIdx rowIdxInVector : Nat) (value : V) :
    UpdateInfo k V × Except String Nat :=
  let u := u.getOrCreateUpdateNode vectorIdx
  let nodes := u.chain vectorIdx
  match findOwn t rowIdxInVector nodes none with
  | .error e => (u, .error e)
  | .ok (some addr) =>
    (u.setChain vectorIdx
      (nodes.map fun n => if n.addr = addr then n.write rowIdxInVector value else n), .ok addr)
  | .ok none =>
    ({ u.setChain vectorIdx
        (⟨u.nextAddr, t.id, [(rowIdxInVector, value)]⟩ :: nodes) with nextAddr := u.nextAddr + 1 },
      .ok u.nextAddr)

/-- The nodes of a chain that a transaction may see, as `iterateVectorInfo` visits
them; the first one that holds the row gives its value. -/
def lookupChain (t : Snapshot) (row : Nat) : List (VectorUpdateInfo V) → Option V
  | [] => none
  | n :: rest =>
    if visible t.startTS t.id n.version then
      match n.read row with
      | some value => some value
      | none => lookupChain t row rest
    else lookupChain t row rest

/-- `lookup`; `none` leaves the output as it is. -/
def lookup (t : Snapshot) (rowInChunk : Nat) : Option V :=
  if u.updates.isEmpty then none
  else lookupChain t (rowInChunk % vectorCapacity k) (u.chain (rowInChunk / vectorCapacity k))

/-- `commit`; throws when the vector has no update node. -/
def commit (vectorIdx addr commitTS : Nat) : Except String (UpdateInfo k V) :=
  if u.updates.length ≤ vectorIdx then .error (noUpdateNode vectorIdx)
  else .ok (u.setChain vectorIdx ((u.chain vectorIdx).map fun n =>
    if n.addr = addr then { n with version := commitTS } else n))

/-- Unlink the first node with the version, if there is one. -/
def rollback (vectorIdx version : Nat) : UpdateInfo k V :=
  u.setChain vectorIdx ((u.chain vectorIdx).eraseP fun n => n.version == version)

end

/-! ## Chains -/

section

variable (u : UpdateInfo k V)

include u

theorem chain_getOrCreate (vectorIdx i : Nat) :
    (u.getOrCreateUpdateNode vectorIdx).chain i = u.chain i := by
  unfold chain getOrCreateUpdateNode
  simp only [getD_eq_getElem?_getD, getElem?_append, getElem?_replicate]
  split
  · rfl
  · rename_i hlen
    rw [getElem?_eq_none (by omega)]
    split <;> rfl

section

variable (vectorIdx : Nat)

theorem lt_length_getOrCreate : vectorIdx < (u.getOrCreateUpdateNode vectorIdx).updates.length := by
  simp only [getOrCreateUpdateNode, length_append, length_replicate]
  omega

theorem length_le_getOrCreate :
    u.updates.length ≤ (u.getOrCreateUpdateNode vectorIdx).updates.length := by
  simp [getOrCreateUpdateNode]

variable (nodes : List (VectorUpdateInfo V))

@[simp] theorem length_setChain :
    (u.setChain vectorIdx nodes).updates.length = u.updates.length := by
  simp [setChain]

@[simp] theorem nextAddr_setChain : (u.setChain vectorIdx nodes).nextAddr = u.nextAddr := rfl

end

theorem chain_setChain {vectorIdx : Nat} (nodes : List (VectorUpdateInfo V))
    (hlt : vectorIdx < u.updates.length) (i : Nat) :
    (u.setChain vectorIdx nodes).chain i = if i = vectorIdx then nodes else u.chain i := by
  unfold chain setChain
  simp only [getD_eq_getElem?_getD]
  rcases eq_or_ne i vectorIdx with rfl | hi
  · simp [hlt]
  · simp [hi, Ne.symm hi]

/-- A vector without update node has an empty chain. -/
theorem chain_of_length_le {i : Nat} (h : u.updates.length ≤ i) : u.chain i = [] := by
  unfold chain
  rw [getD_eq_getElem?_getD, getElem?_eq_none h]
  rfl

theorem lookup_eq (t : Snapshot) (rowInChunk : Nat) : u.lookup t rowInChunk =
      lookupChain t (rowInChunk % vectorCapacity k) (u.chain (rowInChunk / vectorCapacity k)) := by
  unfold lookup
  split_ifs with hempty
  · rw [List.isEmpty_iff] at hempty
    rw [chain_of_length_le u (by simp [hempty])]
    rfl
  · rfl

end

/-! ## The two loops over a chain -/

/-- `findOwn` succeeds when every node that holds the row is the transaction's own or
visible at its start; it then reports its own node, if the chain has one. -/
theorem findOwn_ok {t : Snapshot} {row : Nat} : ∀ {nodes : List (VectorUpdateInfo V)}
    {own res : Option Nat}, findOwn t row nodes own = .ok res →
    (∀ n ∈ nodes, (n.read row).isSome → n.version = t.id ∨ n.version ≤ t.startTS) ∧
    ((res = own ∧ ∀ n ∈ nodes, n.version ≠ t.id) ∨
      ∃ n ∈ nodes, n.version = t.id ∧ res = some n.addr) := by
  intro nodes
  induction nodes with
  | nil =>
    intro own res h
    cases h
    exact ⟨nofun, .inl ⟨rfl, nofun⟩⟩
  | cons n _ ih =>
    intro own res h
    simp only [findOwn] at h
    split at h
    · rename_i hown
      obtain ⟨hvis, hres⟩ := ih h
      refine ⟨fun m hm hread => ?_, .inr ?_⟩
      · rcases mem_cons.mp hm with rfl | hm
        · exact .inl hown
        · exact hvis m hm hread
      · rcases hres with ⟨hres, _⟩ | ⟨m, hm, hres⟩
        · exact ⟨n, mem_cons_self, hown, hres⟩
        · exact ⟨m, mem_cons_of_mem _ hm, hres⟩
    · rename_i hown
      split at h
      · cases h
      rename_i hconflict
      obtain ⟨hvis, hres⟩ := ih h
      refine ⟨fun m hm hread => ?_, ?_⟩
      · rcases mem_cons.mp hm with rfl | hm
        · exact .inr (Nat.le_of_not_lt fun hlt => hconflict ⟨hlt, hread⟩)
        · exact hvis m hm hread
      · refine hres.imp ?_ ?_
        · rintro ⟨hres, hnone⟩
          exact ⟨hres, forall_mem_cons.mpr ⟨hown, hnone⟩⟩
        · rintro ⟨m, hm, hres⟩
          exact ⟨m, mem_cons_of_mem _ hm, hres⟩

/-- `lookupChain` takes the value from the first visible node that holds the row. -/
theorem lookupChain_spec (t : Snapshot) (row : Nat) : ∀ nodes : List (VectorUpdateInfo V),
    (lookupChain t row nodes = none ∧
      ∀ n ∈ nodes, visible t.startTS t.id n.version = true → n.read row = none) ∨
    ∃ newer n older value, nodes = newer ++ n :: older ∧
      visible t.startTS t.id n.version = true ∧ n.read row = some value ∧
      lookupChain t row nodes = some value ∧
      ∀ m ∈ newer, visible t.startTS t.id m.version = true → m.read row = none := by
  intro nodes
  induction nodes with
  | nil => exact .inl ⟨rfl, nofun⟩
  | cons n rest ih =>
    -- a node that is invisible or does not hold the row is passed over
    have hpass : (visible t.startTS t.id n.version = true → n.read row = none) →
        lookupChain t row (n :: rest) = lookupChain t row rest := by
      intro hnone
      simp only [lookupChain]
      split_ifs with hvis
      · rw [hnone hvis]
      · rfl
    by_cases hhit : visible t.startTS t.id n.version = true → n.read row = none
    · rw [hpass hhit]
      rcases ih with ⟨heq, hnone⟩ | ⟨newer, m, older, value, hsplit, hvis, hread, heq, hnone⟩
      · exact .inl ⟨heq, forall_mem_cons.mpr ⟨hhit, hnone⟩⟩
      · refine .inr ⟨n :: newer, m, older, value, by rw [hsplit]; rfl, hvis, hread, heq, ?_⟩
        intro m' hm'
        rcases mem_cons.mp hm' with rfl | hm'
        · exact hhit
        · exact hnone m' hm'
    · obtain ⟨hvis, hread⟩ := Classical.not_imp.mp hhit
      obtain ⟨value, hvalue⟩ := Option.ne_none_iff_exists'.mp hread
      refine .inr ⟨[], n, rest, value, rfl, hvis, hvalue, ?_, nofun⟩
      simp [lookupChain, hvis, hvalue]

end UpdateInfo

end Lbug.Storage
