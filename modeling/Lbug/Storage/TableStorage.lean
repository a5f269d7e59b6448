/-
  Storage/TableStorage.lean --- the tables of the storage manager next to the catalog.

  Source: `storage/storage_manager.cpp` (`createTable`, `addRelTable`,
  `reclaimDroppedTables`, `checkpoint`, `serialize`), `processor/operator/ddl/create_table.cpp`,
  `processor/operator/ddl/alter.cpp`, `catalog/catalog_entry/rel_group_catalog_entry.cpp`,
  `transaction/transaction_manager.cpp` (`beginTransaction`, `checkpointNoLock`),
  `storage/checkpointer.cpp`.

  The catalog is the one of `CatalogHistory`, with node tables and relationship groups as
  entries; a group has one table for each pair of node tables.  A checkpoint takes a
  snapshot while no write transaction is there, opens the gate for new ones if the log was
  rotated, checkpoints the tables of the snapshot, reclaims the tables that the latest
  committed catalog does not have, and serializes the entries of the snapshot.

  `reclaimDroppedTables` looks tables up one by one while the catalog changes, so each
  lookup is a step.  Table IDs are new when a table is added, so the map of tables is a
  list.  Internal tables, which have a catalog set of their own, are not modelled.
-/
import Lbug.Catalog.CatalogHistory

namespace Lbug.Storage

open Catalog Transaction Foundation

/-- `RelTableCatalogInfo`. -/
structure RelTableInfo where
  srcTableID : Nat
  dstTableID : Nat
  oid : Nat
  deriving DecidableEq, Repr

/-- The content of a table entry, as far as the storage manager reads it. -/
inductive TableEntry where
  | node
  | relGroup (relTableInfos : List RelTableInfo)
  deriving DecidableEq, Repr

/-- A table of the storage manager. -/
inductive StoredTable where
  | node (tableID : Nat)
  | rel (tableID relGroupID srcTableID dstTableID : Nat)
  deriving DecidableEq, Repr

namespace TableEntry

/-- The tables of an entry with ID `oid`. -/
def tables (oid : Nat) : TableEntry → List StoredTable
  | .node => [.node oid]
  | .relGroup infos => infos.map fun info => .rel info.oid oid info.srcTableID info.dstTableID

def getRelEntryInfo (srcTableID dstTableID : Nat) : TableEntry → Option RelTableInfo
  | .node => none
  | .relGroup infos =>
    infos.find? fun info => info.srcTableID = srcTableID ∧ info.dstTableID = dstTableID

def addFromToConnection (srcTableID dstTableID oid : Nat) : TableEntry → TableEntry
  | .node => .node
  | .relGroup infos => .relGroup (infos ++ [⟨srcTableID, dstTableID, oid⟩])

def dropFromToConnection (srcTableID dstTableID : Nat) : TableEntry → TableEntry
  | .node => .node
  | .relGroup infos => .relGroup (infos.filter fun info =>
      ¬(info.srcTableID = srcTableID ∧ info.dstTableID = dstTableID))

end TableEntry

/-- `DUMMY_CHECKPOINT_TRANSACTION` sees everything that is committed. -/
def dummyCheckpointTransaction : Snapshot := ⟨dummyTransactionID, startTransactionID - 1⟩

/-- The transaction of a snapshot checkpoint. -/
def snapshotTxn (snapshotTS : Nat) : Snapshot := ⟨dummyTransactionID, snapshotTS⟩

section

variable {Name : Type} [DecidableEq Name]

/-- The tables of a version. -/
def entryTables (e : CatalogEntry Name TableEntry) : List StoredTable :=
  (e.content.map (·.tables e.oid)).getD []

/-- The tables of the entries that a transaction sees. -/
def tablesOf (set : CatalogSet Name TableEntry) (t : Snapshot) : List StoredTable :=
  (set.getEntries t).flatMap fun x => entryTables x.2

/-- The lookups of `reclaimDroppedTables`: a node table by its ID, a relationship table by
the ID of its group and then by its pair of node tables. -/
def isInCatalog (set : CatalogSet Name TableEntry) (t : Snapshot) : StoredTable → Bool
  | .node tableID => (set.getEntryOfOID t tableID).isSome
  | .rel _ relGroupID srcTableID dstTableID =>
    (set.getEntryOfOID t relGroupID).any fun e =>
      (e.content.bind (·.getRelEntryInfo srcTableID dstTableID)).isSome

end

inductive CheckpointPhase where
  | idle
  | begun (snapshotTS : Nat)
  | reclaiming (snapshotTS : Nat) (tables : List StoredTable)
  deriving DecidableEq, Repr

def CheckpointPhase.isReclaiming : CheckpointPhase → Bool
  | .reclaiming _ _ => true
  | _ => false

structure StorageState (Name : Type) where
  catalog : CatalogHistory Name TableEntry
  tables : List StoredTable
  /-- the write transactions, finished ones too -/
  writers : List Nat := []
  /-- no write transaction can begin -/
  gateClosed : Bool := false
  phase : CheckpointPhase := .idle

/-- The calls of transactions, and the steps of a checkpoint.  `alterProperty` stands for
the alterations that leave the tables of an entry as they are. -/
inductive StorageCall (Name : Type) where
  | begin (write : Bool)
  | createNodeTable (id : Nat) (name : Name)
  | createRelGroup (id : Nat) (name : Name) (nodePairs : List (Nat × Nat))
  | drop (id : Nat) (name : Name) (oid : Nat)
  | rename (id : Nat) (name newName : Name)
  | alterProperty (id : Nat) (name : Name)
  | addFromToConnection (id : Nat) (name : Name) (srcTableID dstTableID : Nat)
  | dropFromToConnection (id : Nat) (name : Name) (srcTableID dstTableID : Nat)
  | startCommit (id commitTS : Nat)
  | commitRecord (id : Nat)
  | finishCommit (id : Nat)
  | startRollback (id : Nat)
  | rollbackRecord (id : Nat)
  | finishRollback (id : Nat)
  | beginCheckpoint (walRotated : Bool)
  | checkpointTables
  | reclaim
  | finishCheckpoint
  | failCheckpoint
  deriving DecidableEq, Repr

namespace StorageState

variable {Name : Type} [DecidableEq Name]

/-- The tables of a catalog that was loaded, as `deserialize` creates them. -/
def init (set : CatalogSet Name TableEntry) : StorageState Name where
  catalog := .init set
  tables := tablesOf set dummyCheckpointTransaction

section

variable (s : StorageState Name)

/-- The content of the entry that transaction `id` sees. -/
def seenBy (id : Nat) (name : Name) : Option (Nat × TableEntry) :=
  (s.catalog.set.visibleEntry (s.catalog.table.snapshot id) name).bind CatalogEntry.view

/-- A call of a transaction to the catalog. -/
def catalogStep (call : CatalogCall Name TableEntry) : Option (StorageState Name) :=
  (s.catalog.step call).map fun catalog => { s with catalog }

/-- A change of the catalog by a write transaction, with the tables that are added after
it. -/
def ddl (id : Nat) (call : CatalogCall Name TableEntry) (added : List StoredTable) :
    Option (StorageState Name) :=
  if id ∈ s.writers then
    (s.catalogStep call).map fun s' => { s' with tables := s'.tables ++ added }
  else none

/-- `CREATE TABLE`: the tables are created if the entry is.  The call waits while tables are
reclaimed, which holds the lock of the storage manager. -/
def create (id : Nat) (name : Name) (entry : TableEntry) : Option (StorageState Name) :=
  let set := s.catalog.set
  match (set.createEntry (s.catalog.table.snapshot id) name entry).2 with
  | .ok _ =>
    if s.phase.isReclaiming then none
    else s.ddl id (.create id name entry) (entry.tables set.nextOID)
  | .error _ => s.ddl id (.create id name entry) []

/-- The tables of a new group take the next object IDs. -/
def relTableInfos (nextOID : Nat) (nodePairs : List (Nat × Nat)) : List RelTableInfo :=
  nodePairs.mapIdx fun i pair => ⟨pair.1, pair.2, nextOID + i⟩

/-- A connection that is there already is not added again. -/
def addConnection (id : Nat) (name : Name)
    (srcTableID dstTableID : Nat) : Option (StorageState Name) :=
  match s.seenBy id name with
  | some (relGroupID, .relGroup infos) =>
    if ((TableEntry.relGroup infos).getRelEntryInfo srcTableID dstTableID).isSome then some s
    else s.ddl id
      (.alter id name
        (.addConnection fun oid entry => entry.addFromToConnection srcTableID dstTableID oid))
      [.rel s.catalog.set.nextOID relGroupID srcTableID dstTableID]
  | _ => none

/-- All write transactions have left. -/
def noActiveWriter : Bool :=
  s.writers.all fun id =>
    match (s.catalog.table.txn id).phase with
    | .committed _ | .rolledBack => true
    | _ => false

/-- A table of the snapshot is not there. -/
def tableMissing (snapshotTS : Nat) : Bool :=
  (tablesOf s.catalog.set (snapshotTxn snapshotTS)).any fun x => x ∉ s.tables

/-- A checkpoint that throws is rolled back: the gate is opened, and tables that were
reclaimed do not come back. -/
def step : StorageCall Name → Option (StorageState Name)
  | .begin write =>
    if write ∧ s.gateClosed then none
    else (s.catalogStep .begin).map fun s' =>
      if write then { s' with writers := s'.catalog.table.lastTransactionID :: s.writers } else s'
  | .createNodeTable id name => s.create id name .node
  | .createRelGroup id name nodePairs =>
    let nextOID := s.catalog.set.nextOID
    let set := { s.catalog.set with nextOID := nextOID + nodePairs.length }
    StorageState.create { s with catalog := { s.catalog with set } } id name
      (.relGroup (relTableInfos nextOID nodePairs))
  | .drop id name oid => s.ddl id (.drop id name oid) []
  | .rename id name newName => s.ddl id (.alter id name (.rename newName)) []
  | .alterProperty id name => s.ddl id (.alter id name (.change fun entry => entry)) []
  | .addFromToConnection id name src dst => s.addConnection id name src dst
  | .dropFromToConnection id name src dst =>
    s.ddl id (.alter id name (.change fun entry => entry.dropFromToConnection src dst)) []
  | .startCommit id commitTS =>
    if id ∈ s.writers then s.catalogStep (.startCommit id commitTS) else none
  | .commitRecord id => s.catalogStep (.commitRecord id)
  | .finishCommit id => s.catalogStep (.finishCommit id)
  | .startRollback id => s.catalogStep (.startRollback id)
  | .rollbackRecord id => s.catalogStep (.rollbackRecord id)
  | .finishRollback id => s.catalogStep (.finishRollback id)
  | .beginCheckpoint walRotated =>
    match s.phase with
    | .idle =>
      if s.noActiveWriter then
        some { s with
          gateClosed := !walRotated
          phase := .begun s.catalog.table.lastTimestamp }
      else none
    | _ => none
  | .checkpointTables =>
    match s.phase with
    | .begun ts =>
      if s.tableMissing ts then some { s with gateClosed := false, phase := .idle }
      else some { s with phase := .reclaiming ts s.tables }
    | _ => none
  | .reclaim =>
    match s.phase with
    | .reclaiming ts (x :: todo) =>
      some { s with
        tables := if isInCatalog s.catalog.set dummyCheckpointTransaction x then s.tables
          else s.tables.filter (· ≠ x)
        phase := .reclaiming ts todo }
    | _ => none
  | .finishCheckpoint =>
    match s.phase with
    | .reclaiming _ [] => some { s with gateClosed := false, phase := .idle }
    | _ => none
  | .failCheckpoint =>
    match s.phase with
    | .idle => none
    | _ => some { s with gateClosed := false, phase := .idle }

/-! ## Who sees a table -/

/-- The timestamp of the checkpoint that is under way. -/
def snapshotTS : Option Nat :=
  match s.phase with
  | .idle => none
  | .begun ts | .reclaiming ts _ => some ts

/-- What a transaction sees that is not finished: during its commit it sees its own
changes, marked or not. -/
def viewOf (tb : TxnTable (CatalogEntryRecord Name)) (id : Nat) : Option Snapshot :=
  match (tb.txn id).phase with
  | .active => some (tb.snapshot id)
  | .committing commitTS => some ⟨id, commitTS⟩
  | _ => none

/-- The snapshot of the checkpoint, the transactions that are not finished, and a
transaction that begins now. -/
def viewers : List Snapshot :=
  snapshotTxn s.catalog.table.lastTimestamp :: s.snapshotTS.toList.map snapshotTxn ++
    (List.range' (startTransactionID + 1)
      (s.catalog.table.lastTransactionID - startTransactionID)).filterMap (viewOf s.catalog.table)

/-- No change of the catalog is in flight: the newest version of every name was committed
when the snapshot was taken and before every transaction began that is not finished; and
the latest committed entries have IDs of their own. -/
def Settled : Prop :=
  (∀ p ∈ s.catalog.set.entries.entries, ∀ newest ∈ p.2.head?, ∀ v ∈ s.viewers,
    newest.timestamp ≤ v.startTS) ∧
  ((s.catalog.set.getEntries dummyCheckpointTransaction).map (·.2.oid)).Nodup
  deriving Decidable

end

/-- The catalog call of a call. -/
def catalogCall : StorageCall Name → Option (CatalogCall Name TableEntry)
  | .drop id name oid => some (.drop id name oid)
  | .rename id name newName => some (.alter id name (.rename newName))
  | .alterProperty id name => some (.alter id name (.change fun entry => entry))
  | .addFromToConnection id name src dst =>
    some (.alter id name (.addConnection fun oid entry => entry.addFromToConnection src dst oid))
  | .dropFromToConnection id name src dst =>
    some (.alter id name (.change fun entry => entry.dropFromToConnection src dst))
  | _ => none

/-- Entries that are dropped or altered are in no write-write conflict. -/
def NoConflict (s : StorageState Name) (call : StorageCall Name) : Prop :=
  ∀ c ∈ catalogCall call, s.catalog.CallOk c
  deriving Decidable

/-- Moreover, tables are reclaimed only while no change of the catalog is in flight. -/
def Permitted (s : StorageState Name) (call : StorageCall Name) : Prop :=
  s.NoConflict call ∧ (call = .reclaim → s.Settled)
  deriving Decidable

end StorageState

end Lbug.Storage
