/-
  Storage/RecoveryOutcome.lean --- what recovery gives for the files of a run.

  A WAL that holds whole transactions (`Logs`) replays to the effect of their logged
  operations (`replayed`).  The lemmas below say what opening the database gives for
  the four situations a run leaves behind: logs without a checkpoint record, a frozen
  WAL that ends in one with its shadow pages still on disk, the same without the shadow
  pages, and an active WAL that holds one.
-/
import Lbug.Storage.WalReplay

namespace Lbug.Storage

open Foundation List Database

variable {σ Op Page : Type} {s : σ} {txns : List (List Op)} {e : RecoveryError}

/-! ## Transactions in a WAL -/

section

variable (db : Database σ Op Page)

/-- The effect of the operations of a transaction, in order. -/
def Database.applyAll (txn : List Op) (s : σ) : σ :=
  txn.foldl (fun s o => db.apply o s) s

/-- The state produced by transactions that commit in order. -/
def Database.applied (txns : List (List Op)) (s : σ) : σ :=
  txns.foldl (fun s txn => db.applyAll txn s) s

/-- The state produced by the operations of the transactions that a WAL records. -/
def Database.replayed (txns : List (List Op)) (s : σ) : σ :=
  db.applied (txns.map (·.filter db.isLogged)) s

/-- The local WAL of a transaction at its commit. -/
def Database.localWAL (txn : List Op) : List (WalEntry Op) :=
  .record .beginTransaction :: ((txn.filter db.isLogged).map fun o => .record (.op o)) ++
    [.record .commit]

def Database.localWALs (txns : List (List Op)) : List (WalEntry Op) :=
  txns.flatMap db.localWAL

/-- The contents of a WAL file with the given transactions. -/
def Database.walFile (ident : WalIdentity) (txns : List (List Op)) : List (WalEntry Op) :=
  .header ident.databaseID ident.enableChecksums :: db.localWALs txns

end

/-- A WAL file that holds the given transactions: it does not exist, is empty, or has a
header and their local WALs. -/
inductive Logs (db : Database σ Op Page) (ident : WalIdentity) :
    Option (List (WalEntry Op)) → List (List Op) → Prop
  | absent : Logs db ident none []
  | empty : Logs db ident (some []) []
  | written (txns : List (List Op)) : Logs db ident (some (db.walFile ident txns)) txns

section Transactions

variable (db : Database σ Op Page) (cfg : ReplayConfig) (ident : WalIdentity)
  (throwOnFailure : Bool)

section

variable (txns txns' : List (List Op))

theorem Database.applied_append (s : σ) :
    db.applied (txns ++ txns') s = db.applied txns' (db.applied txns s) :=
  foldl_append

theorem Database.replayed_append (s : σ) :
    db.replayed (txns ++ txns') s = db.replayed txns' (db.replayed txns s) := by
  rw [replayed, map_append, applied_append]
  rfl

theorem reopen_enableChecksums :
    (ident.reopen throwOnFailure).enableChecksums = ident.enableChecksums := rfl

theorem walFile_isEmpty (rest : List (WalEntry Op)) :
    (db.walFile ident txns ++ rest).isEmpty = false := rfl

end

variable (rest : List (WalEntry Op)) (read offset : Nat)

theorem dryScan_ops (ops : List Op) :
    dryScan cfg ((ops.map fun o => WalEntry.record (.op o)) ++ rest) read offset =
      dryScan cfg rest (read + ops.length) offset := by
  induction ops generalizing read with
  | nil => rfl
  | cons _ _ ih =>
    rw [map_cons, cons_append, dryScan, ih, length_cons]
    congr 1
    omega

theorem Database.localWAL_append (txn : List Op) :
    db.localWAL txn ++ rest = .record .beginTransaction ::
      (((txn.filter db.isLogged).map fun o => .record (.op o)) ++ .record .commit :: rest) := by
  simp [localWAL]

/-- The dry replay of one local WAL ends at its commit record. -/
theorem dryScan_localWAL (txn : List Op) :
    dryScan cfg (db.localWAL txn ++ rest) read offset =
      dryScan cfg rest (read + (db.localWAL txn).length) (read + (db.localWAL txn).length) := by
  have hlen : (db.localWAL txn).length = (txn.filter db.isLogged).length + 2 := by
    simp [localWAL]
  rw [localWAL_append, dryScan, dryScan_ops, dryScan]
  congr 1 <;> omega

variable (txns : List (List Op))

/-- The dry replay of whole transactions ends at the last commit record. -/
theorem dryScan_localWALs :
    dryScan cfg (db.localWALs txns ++ rest) read offset =
      dryScan cfg rest (read + (db.localWALs txns).length)
        (if txns = [] then offset else read + (db.localWALs txns).length) := by
  induction txns generalizing read offset with
  | nil => rfl
  | cons _ txns ih =>
    rw [localWALs, flatMap_cons, append_assoc, dryScan_localWAL, ← localWALs, ih,
      length_append, Nat.add_assoc]
    split
    · subst txns
      rfl
    · rfl

theorem replayEntries_ops (ops : List Op) (s t : σ) :
    replayEntries db ((ops.map fun o => WalEntry.record (.op o)) ++ rest) ⟨s, some t⟩ =
      replayEntries db rest ⟨s, some (db.applyAll ops t)⟩ := by
  induction ops generalizing t with
  | nil => rfl
  | cons o _ ih => exact ih (db.apply o t)

theorem replayEntries_localWAL (txn : List Op) (s : σ) :
    replayEntries db (db.localWAL txn ++ rest) ⟨s, none⟩ =
      replayEntries db rest ⟨db.applyAll (txn.filter db.isLogged) s, none⟩ := by
  rw [localWAL_append]
  exact replayEntries_ops db (.record .commit :: rest) (txn.filter db.isLogged) s s

/-- The replay of whole transactions has the effect of their logged operations. -/
theorem replayEntries_localWALs (s : σ) :
    replayEntries db (db.localWALs txns ++ rest) ⟨s, none⟩ =
      replayEntries db rest ⟨db.replayed txns s, none⟩ := by
  induction txns generalizing s with
  | nil => rfl
  | cons _ _ ih =>
    rw [localWALs, flatMap_cons, append_assoc, replayEntries_localWAL]
    exact ih _

/-- A WAL of whole transactions is replayed up to its end. -/
theorem dryReplay_walFile :
    dryReplay (ident.reopen throwOnFailure) (db.walFile ident txns) =
      .ok (if txns = [] then 0 else (db.localWALs txns).length + 1, false) := by
  have hscan := dryScan_localWALs db (ident.reopen throwOnFailure) [] 1 0 txns
  rw [append_nil] at hscan
  rw [walFile, dryReplay, if_pos (reopen_enableChecksums ident throwOnFailure).symm, hscan,
    dryScan, Nat.add_comm]

theorem replayUpTo_walFile {headerPage : Page}
    (hid : db.databaseID headerPage = some ident.databaseID) (txns : List (List Op)) (s : σ) :
    replayUpTo db headerPage (db.walFile ident txns)
      (if txns = [] then 0 else (db.localWALs txns).length + 1) s = .ok (db.replayed txns s) := by
  split
  · subst txns
    rfl
  · have hreplay := replayEntries_localWALs db [] txns s
    rw [append_nil] at hreplay
    rw [replayUpTo, walFile, take_succ_cons, take_length]
    simp only [hid, hreplay]
    rfl

/-- A frozen WAL of whole transactions that ends in a checkpoint record. -/
theorem dryReplay_checkpoint :
    ∃ offset, dryReplay (ident.reopen throwOnFailure)
      (db.walFile ident txns ++ [.record .checkpoint]) = .ok (offset, true) := by
  refine ⟨1 + (db.localWALs txns).length + 1, ?_⟩
  rw [walFile, cons_append, dryReplay,
    if_pos (reopen_enableChecksums ident throwOnFailure).symm, dryScan_localWALs, dryScan]

end Transactions

/-! ## The part before the active WAL -/

section Base

variable {db : Database σ Op Page} {cfg : ReplayConfig} {disk : Disk Op Page}
  {ops : List (FileOp Page)} {data : Nat → Page}

theorem readCheckpoint_some (h : db.readCheckpoint data = some s) :
    readCheckpoint db data = .ok s := by
  rw [readCheckpoint, h]

/-- Page writes change nothing but the data file. -/
theorem performAll_dataWrites (disk : Disk Op Page) (ws : List (Nat × Page)) :
    disk.performAll (dataWrites ws) = { disk with data := writeAll ws disk.data } := by
  induction ws generalizing disk with
  | nil => rfl
  | cons w _ ih => exact ih (disk.perform (.writeData w.1 w.2))

theorem performAll_append (disk : Disk Op Page) (ops ops' : List (FileOp Page)) :
    disk.performAll (ops ++ ops') = (disk.performAll ops).performAll ops' :=
  foldl_append

/-- Whatever the part before the active WAL does, it ends without a frozen WAL and
without a shadow file. -/
theorem replayBase_ok (h : replayBase db cfg disk = (ops, .ok s)) :
    ∃ data, disk.performAll ops = { disk with data := data, frozen := none, shadow := none } := by
  unfold replayBase at h
  split at h
  · rename_i _ hfrozen
    unfold replayFrozenWAL at h
    split at h
    · obtain ⟨rfl, -⟩ := Prod.mk.inj h
      exact ⟨disk.data, rfl⟩
    split at h
    · cases h
    · split at h
      · cases h
      · rename_i ws _
        obtain ⟨rfl, -⟩ := Prod.mk.inj h
        refine ⟨writeAll ws disk.data, ?_⟩
        rw [performAll_append, performAll_dataWrites]
        rfl
    · split at h
      · cases h
      · split at h
        · cases h
        · cases h
          exact ⟨disk.data, rfl⟩
  · rename_i hfrozen
    obtain ⟨rfl, -⟩ := Prod.mk.inj h
    exact ⟨disk.data, by rw [← hfrozen]; rfl⟩

theorem recover_error_of_base (h : replayBase db cfg disk = (ops, .error e)) :
    recover db cfg disk = .error e := by
  rw [recover, replay, h]

/-- An active WAL that holds a checkpoint record is never recovered: the shadow
file is gone before the active WAL is looked at. -/
theorem recover_activeCheckpoint {wal : List (WalEntry Op)} {offset : Nat}
    (hwal : disk.wal = some wal) (hdry : dryReplay cfg wal = .ok (offset, true))
    (hne : wal ≠ []) : ∃ e, recover db cfg disk = .error e := by
  cases hbase : replayBase db cfg disk with
  | mk _ result =>
    cases result with
    | error e => exact ⟨e, recover_error_of_base hbase⟩
    | ok =>
      obtain ⟨_, hdisk⟩ := replayBase_ok hbase
      refine ⟨.shadowFileMissing, ?_⟩
      have hempty : wal.isEmpty = false := by cases wal <;> simp at hne ⊢
      rw [recover, replay, hbase]
      simp only [hwal, hdisk, replayActiveWAL, hempty, hdry]
      rfl

/-- With whole transactions in the active WAL, recovery adds their logged effect to what
the part before the active WAL gives. -/
theorem recover_of_base {ident : WalIdentity} {throwOnFailure : Bool}
    (hbase : replayBase db (ident.reopen throwOnFailure) disk = (ops, .ok s))
    (hdata : (disk.performAll ops).data = data)
    (hid : db.databaseID (data 0) = some ident.databaseID) (hwal : Logs db ident disk.wal txns) :
    recover db (ident.reopen throwOnFailure) disk = .ok (db.replayed txns s) := by
  rw [recover, replay, hbase]
  subst data
  generalize hw : disk.wal = wal at hwal
  cases hwal with
  | absent => rfl
  | empty => rfl
  | written =>
    have hempty := walFile_isEmpty db ident txns []
    rw [append_nil] at hempty
    simp only [replayActiveWAL, hempty, dryReplay_walFile, Bool.false_eq_true, if_false,
      replayUpTo_walFile db ident hid]

end Base

/-! ## The situations a run leaves behind -/

section Outcomes

variable {db : Database σ Op Page} {disk : Disk Op Page} {ident : WalIdentity}
  {throwOnFailure : Bool} {frozenTxns : List (List Op)}

/-- Logs without a checkpoint record: every transaction of both WALs is replayed, and
what is left of a shadow file is ignored. -/
theorem recover_logged (hread : db.readCheckpoint disk.data = some s)
    (hid : db.databaseID (disk.data 0) = some ident.databaseID)
    (hfrozen : Logs db ident disk.frozen frozenTxns) (hwal : Logs db ident disk.wal txns) :
    recover db (ident.reopen throwOnFailure) disk = .ok (db.replayed (frozenTxns ++ txns) s) := by
  rw [replayed_append]
  have hcheckpoint := readCheckpoint_some hread
  suffices hbase : ∃ ops, replayBase db (ident.reopen throwOnFailure) disk =
      (ops, .ok (db.replayed frozenTxns s)) ∧ (disk.performAll ops).data = disk.data by
    obtain ⟨_, hbase, hdata⟩ := hbase
    exact recover_of_base hbase hdata hid hwal
  generalize hf : disk.frozen = frozen at hfrozen
  cases hfrozen with
  | absent | empty => exact ⟨_, by rw [replayBase, hf]; exact congrArg _ hcheckpoint, rfl⟩
  | written =>
    refine ⟨[.removeShadow, .removeFrozen], ?_, rfl⟩
    have hempty := walFile_isEmpty db ident frozenTxns []
    rw [append_nil] at hempty
    simp only [replayBase, hf, replayFrozenWAL, hempty, dryReplay_walFile,
      Bool.false_eq_true, if_false, hcheckpoint, replayUpTo_walFile db ident hid]

variable (hfrozen : disk.frozen = some (db.walFile ident frozenTxns ++ [.record .checkpoint]))

include hfrozen

/-- A frozen WAL that ends in a checkpoint record, with its shadow pages: the pages are
written again and the checkpoint is read. -/
theorem recover_checkpointed {ws : List (Nat × Page)}
    (hshadow : replayShadowPageRecords db disk = .ok ws)
    (hread : db.readCheckpoint (writeAll ws disk.data) = some s)
    (hid : db.databaseID (writeAll ws disk.data 0) = some ident.databaseID)
    (hwal : Logs db ident disk.wal txns) :
    recover db (ident.reopen throwOnFailure) disk = .ok (db.replayed txns s) := by
  obtain ⟨_, hdry⟩ := dryReplay_checkpoint db ident throwOnFailure frozenTxns
  have hbase : replayBase db (ident.reopen throwOnFailure) disk =
      (dataWrites ws ++ [.removeFrozen, .removeShadow], .ok s) := by
    simp only [replayBase, hfrozen, replayFrozenWAL, walFile_isEmpty, hdry, hshadow,
      Bool.false_eq_true, if_false, readCheckpoint_some hread]
  refine recover_of_base hbase ?_ hid hwal
  rw [performAll_append, performAll_dataWrites]
  rfl

/-- The same frozen WAL without its shadow pages: opening the database throws. -/
theorem recover_checkpointed_error (hshadow : replayShadowPageRecords db disk = .error e) :
    recover db (ident.reopen throwOnFailure) disk = .error e := by
  obtain ⟨_, hdry⟩ := dryReplay_checkpoint db ident throwOnFailure frozenTxns
  have hbase : replayBase db (ident.reopen throwOnFailure) disk = ([], .error e) := by
    simp only [replayBase, hfrozen, replayFrozenWAL, walFile_isEmpty, hdry, hshadow,
      Bool.false_eq_true, if_false]
  exact recover_error_of_base hbase

end Outcomes

end Lbug.Storage
