/-
  Catalog/CatalogSet.lean --- the version chains of a `CatalogSet`.

  Source: `catalog/catalog_set.cpp`, `include/catalog/catalog_entry/catalog_entry.h`,
  `include/catalog/catalog_entry/dummy_catalog_entry.h`,
  `catalog/catalog_entry/table_catalog_entry.cpp` (`TableCatalogEntry::alter`) and
  `storage/undo_buffer.cpp` (`commitCatalogEntryRecord`, `rollbackCatalogEntryRecord`).

  A set keeps one chain of versions for each name, newest first.  `create`, `drop` and
  `alter` put a version on top of a chain, marked with the ID of their transaction; an
  undo record points to the version below, so that a commit and a rollback reach the
  version through `getNext` of the record's entry.

  The type of names is a parameter.  The map of the source compares names without case,
  so a value of `Name` is a name up to case.  The position in the list of chains stands
  for the iteration order of the hash map.
-/
import Lbug.Transaction.Timestamp
import Mathlib.Data.List.AList

namespace Lbug.Catalog

open Transaction List Option

/-- One version of an entry.  `addr` is the identity that pointers compare.  A dummy
entry, which stands for a deleted or a not yet created one, has no content. -/
structure CatalogEntry (Name Content : Type) where
  addr : Nat
  name : Name
  oid : Nat
  timestamp : Nat
  content : Option Content
  deriving DecidableEq, Repr

/-- The undo record of a catalog change points to the entry below the new version. -/
structure CatalogEntryRecord (Name : Type) where
  name : Name
  addr : Nat
  deriving DecidableEq, Repr

inductive CatalogError (Name : Type) where
  | notExist (name : Name)
  | exist (name : Name)
  | conflict (name : Name)
  | notDeleted (name : Name)
  deriving DecidableEq, Repr

/-- What `BoundAlterInfo` asks for.  Only `ADD_FROM_TO_CONNECTION` takes an object ID. -/
inductive AlterInfo (Name Content : Type) where
  | rename (newName : Name)
  | change (alter : Content → Content)
  | addConnection (alter : Nat → Content → Content)

structure CatalogSet (Name Content : Type) where
  nextOID : Nat := 0
  nextAddr : Nat := 0
  entries : AList (fun _ : Name => List (CatalogEntry Name Content)) := ∅

variable {Name Content : Type}

def CatalogEntry.isDeleted (e : CatalogEntry Name Content) : Bool := e.content.isNone

/-- What a reader gets from a version: its object ID and content. -/
def CatalogEntry.view (e : CatalogEntry Name Content) : Option (Nat × Content) :=
  e.content.map fun content => (e.oid, content)

/-- `DummyCatalogEntry`. -/
def dummyEntry (addr : Nat) (name : Name) (oid timestamp : Nat) : CatalogEntry Name Content :=
  { addr, name, oid, timestamp, content := none }

def checkWWConflict (t : Snapshot) (e : CatalogEntry Name Content) : Bool :=
  (decide (startTransactionID ≤ e.timestamp) && e.timestamp != t.id) ||
    (decide (e.timestamp < startTransactionID) && decide (t.startTS < e.timestamp))

/-- `traverseVersionChainsForTransactionNoLock`. -/
def traverseVersionChains (t : Snapshot) (chain : List (CatalogEntry Name Content)) :
    Option (CatalogEntry Name Content) :=
  chain.find? fun e => visible t.startTS t.id e.timestamp

/-- Give the version above `addr` the commit timestamp. -/
def setAbove (addr commitTS : Nat) :
    List (CatalogEntry Name Content) → Option (List (CatalogEntry Name Content))
  | newer :: e :: rest =>
    if e.addr = addr then some ({ newer with timestamp := commitTS } :: e :: rest)
    else (setAbove addr commitTS (e :: rest)).map (newer :: ·)
  | _ => none

/-- Remove the version above `addr`, from the top of the chain or from inside it. -/
def removeAbove (addr : Nat) :
    List (CatalogEntry Name Content) → Option (List (CatalogEntry Name Content))
  | newer :: e :: rest =>
    if e.addr = addr then some (e :: rest)
    else (removeAbove addr (e :: rest)).map (newer :: ·)
  | _ => none

namespace CatalogSet

variable [DecidableEq Name]

section

variable (set : CatalogSet Name Content)

def chain (name : Name) : List (CatalogEntry Name Content) :=
  (set.entries.lookup name).getD []

def putChain (name : Name) (chain : List (CatalogEntry Name Content)) : CatalogSet Name Content :=
  { set with entries := set.entries.insert name chain }

/-- `emplaceNoLock` of an entry that is allocated for it. -/
def emplaceNoLock (name : Name) (oid timestamp : Nat) (content : Option Content) :
    CatalogSet Name Content :=
  { set.putChain name ({ addr := set.nextAddr, name, oid, timestamp, content } ::
      set.chain name) with nextAddr := set.nextAddr + 1 }

section

variable (t : Snapshot)

/-- The entry of a name for a transaction, deleted or not. -/
def visibleEntry (name : Name) : Option (CatalogEntry Name Content) :=
  traverseVersionChains t (set.chain name)

def containsEntryNoLock (name : Name) : Bool :=
  (set.visibleEntry t name).any fun e => !e.isDeleted

/-- `createEntryNoLock`; the record points to the dummy entry of a new name or to the
deleted entry that was on top. -/
def createEntryNoLock (name : Name) (oid : Nat) (content : Option Content) :
    Except (CatalogError Name) (CatalogSet Name Content × CatalogEntryRecord Name) :=
  if set.containsEntryNoLock t name then .error (.exist name)
  else
    match set.chain name with
    | [] =>
      -- the name is new: the dummy entry is its version for every older transaction
      .ok ((set.emplaceNoLock name oid 0 none).emplaceNoLock name oid t.id content,
        ⟨name, set.nextAddr⟩)
    | existing :: _ =>
      if checkWWConflict t existing then .error (.conflict name)
      else if !existing.isDeleted then .error (.notDeleted name)
      else .ok (set.emplaceNoLock name oid t.id content, ⟨name, existing.addr⟩)

/-- `createEntry`: the object ID is used up whether or not the entry is created. -/
def createEntry (name : Name) (content : Content) :
    CatalogSet Name Content × Except (CatalogError Name) (CatalogEntryRecord Name) :=
  let set' := { set with nextOID := set.nextOID + 1 }
  match set'.createEntryNoLock t name set.nextOID (some content) with
  | .error error => (set', .error error)
  | .ok (set'', record) => (set'', .ok record)

/-- `dropEntryNoLock` puts a tombstone on the chain, whatever is on top of it. -/
def dropEntryNoLock (name : Name) (oid : Nat) :
    Except (CatalogError Name) (CatalogSet Name Content × CatalogEntryRecord Name) :=
  if set.containsEntryNoLock t name then
    match set.chain name with
    | [] => .error (.notExist name)
    | top :: _ => .ok (set.emplaceNoLock name oid t.id none, ⟨name, top.addr⟩)
  else .error (.notExist name)

/-- The altered copy of the content, and the object IDs it takes. -/
def alterContent (nextOID : Nat) : AlterInfo Name Content → Content → Content × Nat
  | .rename _, content => (content, nextOID)
  | .change alter, content => (alter content, nextOID)
  | .addConnection alter, content => (alter nextOID content, nextOID + 1)

/-- `alterTableEntry`.  The record of the altered name points to the entry that the
transaction sees.  A rename drops and creates; when the creation throws, the tombstone
is on the chain and no record points to it. -/
def alterTableEntry (name : Name) (info : AlterInfo Name Content) :
    CatalogSet Name Content × Except (CatalogError Name) (List (CatalogEntryRecord Name)) :=
  match set.visibleEntry t name with
  | some { addr, oid, content := some content, .. } =>
    let (content', nextOID) := alterContent set.nextOID info content
    let set := { set with nextOID }
    match info with
    | .rename newName =>
      match set.dropEntryNoLock t name oid with
      | .error error => (set, .error error)
      | .ok (dropped, _) =>
        match dropped.createEntryNoLock t newName oid (some content') with
        | .error error => (dropped, .error error)
        | .ok (created, record) => (created, .ok [⟨name, addr⟩, record])
    | _ => (set.emplaceNoLock name oid t.id (some content'), .ok [⟨name, addr⟩])
  | _ => (set, .error (.notExist name))

def getEntries : List (Name × CatalogEntry Name Content) :=
  set.entries.entries.filterMap fun ⟨name, chain⟩ =>
    (traverseVersionChains t chain).bind fun e =>
      if e.isDeleted then none else some (name, e)

/-- `getEntryOfOID`: a chain is looked at only if its newest version has the ID. -/
def getEntryOfOID (oid : Nat) : Option (CatalogEntry Name Content) :=
  set.entries.entries.findSome? fun ⟨_, chain⟩ =>
    match chain with
    | [] => none
    | newest :: _ =>
      if newest.oid ≠ oid then none
      else (traverseVersionChains t chain).bind fun e => if e.isDeleted then none else some e

end

/-- `commitCatalogEntryRecord`; `none` when the record's entry has no newer version. -/
def commitRecord (commitTS : Nat) (record : CatalogEntryRecord Name) :
    Option (CatalogSet Name Content) :=
  (setAbove record.addr commitTS (set.chain record.name)).map (set.putChain record.name)

/-- `rollbackCatalogEntryRecord`; `none` when the record's entry has no newer version. -/
def rollbackRecord (record : CatalogEntryRecord Name) : Option (CatalogSet Name Content) :=
  (removeAbove record.addr (set.chain record.name)).map (set.putChain record.name)

end

/-! ## Chains under the operations -/

variable {set : CatalogSet Name Content} {name n : Name} {t : Snapshot} {oid timestamp : Nat}
  {content : Option Content} {l : List (CatalogEntry Name Content)} {e : CatalogEntry Name Content}

theorem chain_putChain : (set.putChain name l).chain n = if n = name then l else set.chain n := by
  unfold chain putChain
  rcases eq_or_ne n name with rfl | h
  · simp
  · simp [h]

theorem chain_emplaceNoLock : (set.emplaceNoLock name oid timestamp content).chain n =
    if n = name then { addr := set.nextAddr, name, oid, timestamp, content } :: set.chain n
    else set.chain n := by
  have h : (set.emplaceNoLock name oid timestamp content).chain n =
      (set.putChain name ({ addr := set.nextAddr, name, oid, timestamp, content } ::
        set.chain name)).chain n := rfl
  rw [h, chain_putChain]
  split_ifs with heq
  · rw [heq]
  · rfl

theorem mem_entries_iff : ⟨n, l⟩ ∈ set.entries.entries ↔ set.entries.lookup n = some l :=
  (AList.mem_lookup_iff).symm

theorem mem_getEntries :
    (n, e) ∈ set.getEntries t ↔ set.visibleEntry t n = some e ∧ e.isDeleted = false := by
  unfold getEntries visibleEntry chain
  rw [mem_filterMap]
  constructor
  · rintro ⟨⟨m, l⟩, hmem, heq⟩
    obtain ⟨_, he', hif⟩ := bind_eq_some_iff.mp heq
    split at hif
    · cases hif
    · rename_i hdel
      cases hif
      rw [mem_entries_iff.mp hmem]
      exact ⟨he', Bool.eq_false_iff.mpr hdel⟩
  · rintro ⟨hvis, hdel⟩
    cases hl : set.entries.lookup n with
    | none =>
      rw [hl] at hvis
      cases hvis
    | some l =>
      rw [hl, getD_some] at hvis
      exact ⟨⟨n, l⟩, mem_entries_iff.mpr hl, by simp [hvis, hdel]⟩

/-! ## Lookup by object ID -/

/-- The chains agree with the lookup by ID for `t`: where `t` sees an entry, the newest
version has the ID of that entry, and `t` sees no two entries with one ID. -/
structure OIDsAgree (set : CatalogSet Name Content) (t : Snapshot) : Prop where
  newest : ∀ n e, (n, e) ∈ set.getEntries t → ∀ newest ∈ (set.chain n).head?, newest.oid = e.oid
  unique : ∀ n e m e', (n, e) ∈ set.getEntries t → (m, e') ∈ set.getEntries t →
    e.oid = e'.oid → e = e'

/-- Every version is on the chain of its name. -/
def Named (set : CatalogSet Name Content) : Prop := ∀ n, ∀ e ∈ set.chain n, e.name = n

theorem name_of_mem_getEntries (hnamed : set.Named) (h : (n, e) ∈ set.getEntries t) : e.name = n :=
  hnamed n e (mem_of_find?_eq_some (mem_getEntries.mp h).1)

/-- What `getEntryOfOID` returns is the entry that `t` sees on a chain whose newest
version has the ID. -/
theorem exists_of_getEntryOfOID (h : set.getEntryOfOID t oid = some e) :
    ∃ n newest, (n, e) ∈ set.getEntries t ∧ (set.chain n).head? = some newest ∧
      newest.oid = oid := by
  obtain ⟨⟨n, l⟩, hmem, heq⟩ := exists_of_findSome?_eq_some h
  have hchain : set.chain n = l := by simp [chain, mem_entries_iff.mp hmem]
  cases l with
  | nil => cases heq
  | cons newest =>
    simp only at heq
    split at heq
    · cases heq
    rename_i hoid
    obtain ⟨_, he', hif⟩ := bind_eq_some_iff.mp heq
    split at hif
    · cases hif
    rename_i hdel
    cases hif
    refine ⟨n, newest, mem_getEntries.mpr ⟨?_, Bool.eq_false_iff.mpr hdel⟩, ?_, ?_⟩
    · rw [visibleEntry, hchain]
      exact he'
    · rw [hchain]
      rfl
    · exact Decidable.not_not.mp hoid

theorem getEntryOfOID_isSome {newest : CatalogEntry Name Content} (h : (n, e) ∈ set.getEntries t)
    (hnewest : (set.chain n).head? = some newest) :
    (set.getEntryOfOID t newest.oid).isSome := by
  obtain ⟨hvis, hdel⟩ := mem_getEntries.mp h
  cases hl : set.entries.lookup n with
  | none =>
    rw [chain, hl] at hnewest
    cases hnewest
  | some =>
    rw [chain, hl] at hnewest
    rw [visibleEntry, chain, hl, getD_some] at hvis
    obtain ⟨rest, rfl⟩ := head?_eq_some_iff.mp hnewest
    rw [getEntryOfOID, findSome?_isSome_iff]
    exact ⟨⟨n, newest :: rest⟩, mem_entries_iff.mpr hl, by simp [hvis, hdel]⟩

/-- The lookup by ID returns the entry of `getEntries` with that ID, for every ID,
exactly when the chains agree with it. -/
theorem getEntryOfOID_iff_of_named (hnamed : set.Named) :
    (∀ oid e, set.getEntryOfOID t oid = some e ↔
      ∃ n, (n, e) ∈ set.getEntries t ∧ e.oid = oid) ↔ set.OIDsAgree t := by
  constructor
  · intro h
    constructor
    · intro n e hmem newest hnewest
      -- the chain that the lookup found is the chain of the entry's name
      obtain ⟨m, _, hmem', hnewest', hoid⟩ :=
        exists_of_getEntryOfOID ((h e.oid e).mpr ⟨n, hmem, rfl⟩)
      have hm : m = n := by
        rw [← name_of_mem_getEntries hnamed hmem', name_of_mem_getEntries hnamed hmem]
      rw [← hm, hnewest'] at hnewest
      cases hnewest
      exact hoid
    · intro n e m e' hmem hmem' hoid
      have h1 := (h e.oid e).mpr ⟨n, hmem, rfl⟩
      have h2 := (h e.oid e').mpr ⟨m, hmem', hoid.symm⟩
      rw [h1] at h2
      exact some.inj h2
  · intro h oid e
    constructor
    · intro hget
      obtain ⟨n, newest, hmem, hnewest, hoid⟩ := exists_of_getEntryOfOID hget
      exact ⟨n, hmem, by rw [← hoid, h.newest n e hmem newest hnewest]⟩
    rintro ⟨n, hmem, rfl⟩
    have hne : ∃ newest, (set.chain n).head? = some newest := by
      have := mem_of_find?_eq_some (mem_getEntries.mp hmem).1
      cases hc : set.chain n with
      | nil =>
        rw [hc] at this
        cases this
      | cons newest => exact ⟨newest, rfl⟩
    obtain ⟨newest, hnewest⟩ := hne
    have hsome := getEntryOfOID_isSome hmem hnewest
    rw [h.newest n e hmem newest hnewest] at hsome
    obtain ⟨e', he'⟩ := isSome_iff_exists.mp hsome
    -- whichever chain was found first, it is the only one with the ID
    obtain ⟨m, newest', hmem', hnewest', hoid⟩ := exists_of_getEntryOfOID he'
    have heq := h.unique n e m e' hmem hmem' (by rw [← hoid, h.newest m e' hmem' newest' hnewest'])
    rw [he', heq]

end CatalogSet

end Lbug.Catalog
