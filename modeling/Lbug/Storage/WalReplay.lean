/-
  Storage/WalReplay.lean --- the files of a database and what opening it does with them.

  A database is four files: the data file, the active WAL, the frozen WAL of a
  checkpoint that rotated the log, and the shadow file.  `replay` embeds
  `WALReplayer::replay` (wal_replayer.cpp) in read-write mode: it decides from the
  files what to do, and returns the file operations in the order in which they are
  performed together with the state that is opened, or the error that is thrown.  The
  operations are kept apart from the result so that a crash in the middle of a recovery
  is a prefix of the list.

  The contents of a file are a list of entries (WAL) or of pages (data and shadow file);
  an entry `torn` is one whose bytes cannot be deserialised.  What the pages mean is a
  parameter (`Database`): how a checkpoint is read from the data file, which pages that
  reads, and what an operation of a transaction does to a state.
-/
import Lbug.Foundation.Pages

namespace Lbug.Storage

open Foundation

/-! ## Files -/

/-- The records of a WAL; `op` stands for the records of catalog and table changes. -/
inductive WalRecord (Op : Type)
  | beginTransaction
  | op (o : Op)
  | commit
  | checkpoint
  deriving DecidableEq, Repr

inductive WalEntry (Op : Type)
  | header (databaseID : Nat) (enableChecksums : Bool)
  | record (r : WalRecord Op)
  /-- Bytes that cannot be deserialised. -/
  | torn
  deriving DecidableEq, Repr

/-- The contents of one page of the shadow file.  The records stand behind the last
shadow page. -/
inductive ShadowSlot (Page : Type)
  | hole
  /-- `ShadowFileHeader`, page 0. -/
  | header (numShadowPages databaseID : Nat)
  | page (p : Page)
  /-- The vector of `ShadowPageRecord`: the original page of each shadow page. -/
  | records (originalPages : List Nat)
  deriving DecidableEq, Repr

/-- The files of a database; `none` is a file that does not exist. -/
structure Disk (Op Page : Type) where
  data : Nat → Page
  wal : Option (List (WalEntry Op))
  frozen : Option (List (WalEntry Op))
  shadow : Option (Nat → ShadowSlot Page)

/-- What the contents of the files mean.  `readCheckpoint` reads the header page of the
data file and from there the catalog and the metadata; it depends on the live pages
only. -/
structure Database (σ Op Page : Type) where
  readCheckpoint : (Nat → Page) → Option σ
  /-- The database ID in a header page, if the page is a valid header. -/
  databaseID : Page → Option Nat
  /-- The pages of the data file in use by the checkpoint it holds. -/
  live : (Nat → Page) → Nat → Prop
  live_header : ∀ f, live f 0
  readCheckpoint_congr : ∀ f g, (∀ i, live f i → g i = f i) → readCheckpoint g = readCheckpoint f
  apply : Op → σ → σ
  /-- Whether the operation writes a WAL record; COPY FROM does not. -/
  isLogged : Op → Bool

/-- The two options a database is opened with that recovery reads. -/
structure ReplayConfig where
  throwOnWalReplayFailure : Bool
  enableChecksums : Bool
  deriving DecidableEq, Repr

/-- What the header of a WAL holds: the database ID and the checksum option. -/
structure WalIdentity where
  databaseID : Nat
  enableChecksums : Bool
  deriving DecidableEq, Repr

/-- The configuration to open a database with the checksum option it was written with. -/
def WalIdentity.reopen (ident : WalIdentity) (throwOnWalReplayFailure : Bool) : ReplayConfig where
  throwOnWalReplayFailure := throwOnWalReplayFailure
  enableChecksums := ident.enableChecksums

inductive RecoveryError
  /-- `checkWALHeader`. -/
  | checksumsMismatch
  | walCorrupted
  /-- `verifyDatabaseID`. -/
  | databaseIDMismatch
  | shadowFileMissing
  | shadowFileCorrupted
  /-- `getOldDatabaseID`. -/
  | noDatabaseHeader
  | invalidCheckpoint
  /-- A record of a change outside of a transaction, or a begin inside of one. -/
  | transactionExpected
  deriving DecidableEq, Repr

/-- The file operations of a recovery.  Removing a file that does not exist is no
operation. -/
inductive FileOp (Page : Type)
  | writeData (page : Nat) (p : Page)
  | removeShadow
  | removeFrozen
  | removeWal
  | truncateWal (size : Nat)
  deriving DecidableEq, Repr

variable {σ Op Page : Type}

namespace Disk

def perform (disk : Disk Op Page) : FileOp Page → Disk Op Page
  | .writeData i p => { disk with data := Function.update disk.data i p }
  | .removeShadow => { disk with shadow := none }
  | .removeFrozen => { disk with frozen := none }
  | .removeWal => { disk with wal := none }
  | .truncateWal size => { disk with wal := disk.wal.map (·.take size) }

def performAll (disk : Disk Op Page) (ops : List (FileOp Page)) : Disk Op Page :=
  ops.foldl perform disk

end Disk

/-! ## Reading a WAL -/

/-- The loop of `dryReplay`: `read` entries are read, the last commit ends at `offset`. -/
def dryScan (cfg : ReplayConfig) :
    List (WalEntry Op) → (read offset : Nat) → Except RecoveryError (Nat × Bool)
  | [], _, offset => .ok (offset, false)
  | .record .checkpoint :: _, read, _ => .ok (read + 1, true)
  | .record .commit :: rest, read, _ => dryScan cfg rest (read + 1) (read + 1)
  | .record .beginTransaction :: rest, read, offset | .record (.op _) :: rest, read, offset =>
    dryScan cfg rest (read + 1) offset
  | .header _ _ :: _, _, offset | .torn :: _, _, offset =>
    if cfg.throwOnWalReplayFailure then .error .walCorrupted else .ok (offset, false)

/-- `dryReplay`: the number of entries up to the end of the last commit or checkpoint
record, and whether that is a checkpoint record. -/
def dryReplay (cfg : ReplayConfig) : List (WalEntry Op) → Except RecoveryError (Nat × Bool)
  | .header _ enableChecksums :: rest =>
    if enableChecksums = cfg.enableChecksums then dryScan cfg rest 1 0
    else if cfg.throwOnWalReplayFailure then .error .checksumsMismatch else .ok (0, false)
  | _ => if cfg.throwOnWalReplayFailure then .error .walCorrupted else .ok (0, false)

/-- The state while records are replayed: the committed state, and the state of the
recovery transaction if one is active. -/
structure ReplayState (σ : Type) where
  committed : σ
  active : Option σ

section

variable (db : Database σ Op Page)

/-- `replayWALRecord`.  A commit without a transaction does nothing. -/
def replayRecord (s : ReplayState σ) : WalEntry Op → Except RecoveryError (ReplayState σ)
  | .record .beginTransaction =>
    match s.active with
    | none => .ok { s with active := some s.committed }
    | some _ => .error .transactionExpected
  | .record (.op o) =>
    match s.active with
    | some t => .ok { s with active := some (db.apply o t) }
    | none => .error .transactionExpected
  | .record .commit =>
    match s.active with
    | some t => .ok { committed := t, active := none }
    | none => .ok s
  | _ => .error .walCorrupted

def replayEntries : List (WalEntry Op) → ReplayState σ → Except RecoveryError (ReplayState σ)
  | [], s => .ok s
  | e :: rest, s => (replayRecord db s e).bind (replayEntries rest)

/-- The second pass over a WAL: verify the database ID of its header and replay the
records up to the offset of the dry replay. -/
def replayUpTo (headerPage : Page) (wal : List (WalEntry Op)) (offset : Nat) (s : σ) :
    Except RecoveryError σ :=
  match wal.take offset with
  | [] => .ok s
  | .header id _ :: rest =>
    if db.databaseID headerPage = some id then
      (replayEntries db rest { committed := s, active := none }).map ReplayState.committed
    else .error .databaseIDMismatch
  | _ => .error .walCorrupted

/-! ## Recovery -/

def readCheckpoint (data : Nat → Page) : Except RecoveryError σ :=
  match db.readCheckpoint data with
  | some s => .ok s
  | none => .error .invalidCheckpoint

/-- The loop of `replayShadowPageRecords`: the page of record `k` is in slot `k + 1`. -/
def shadowWrites (image : Nat → ShadowSlot Page) : List Nat → Nat → Option (List (Nat × Page))
  | [], _ => some []
  | original :: rest, slot =>
    match image slot with
    | .page p => (shadowWrites image rest (slot + 1)).map ((original, p) :: ·)
    | _ => none

/-- `ShadowFile::replayShadowPageRecords`: the page writes, or the error before the
first of them. -/
def replayShadowPageRecords (disk : Disk Op Page) : Except RecoveryError (List (Nat × Page)) :=
  match disk.shadow with
  | none => .error .shadowFileMissing
  | some image =>
    match db.databaseID (disk.data 0), image 0 with
    | none, _ => .error .noDatabaseHeader
    | some old, .header numShadowPages id =>
      if old = id then
        match image (numShadowPages + 1) with
        | .records originalPages =>
          (shadowWrites image originalPages 1).elim (.error .shadowFileCorrupted) .ok
        | _ => .error .shadowFileCorrupted
      else .error .databaseIDMismatch
    | some _, _ => .error .databaseIDMismatch

def dataWrites (ws : List (Nat × Page)) : List (FileOp Page) :=
  ws.map fun w => .writeData w.1 w.2

section

variable (cfg : ReplayConfig)

section

variable (disk : Disk Op Page)

def replayFrozenWAL (wal : List (WalEntry Op)) : List (FileOp Page) × Except RecoveryError σ :=
  if wal.isEmpty then ([.removeFrozen, .removeShadow], readCheckpoint db disk.data)
  else
    match dryReplay cfg wal with
    | .error e => ([], .error e)
    | .ok (_, true) =>
      match replayShadowPageRecords db disk with
      | .error e => ([], .error e)
      | .ok ws =>
        (dataWrites ws ++ [.removeFrozen, .removeShadow], readCheckpoint db (writeAll ws disk.data))
    | .ok (offset, false) =>
      match readCheckpoint db disk.data with
      | .error e => ([.removeShadow], .error e)
      | .ok s =>
        match replayUpTo db (disk.data 0) wal offset s with
        | .error e => ([.removeShadow], .error e)
        | .ok s' => ([.removeShadow, .removeFrozen], .ok s')

/-- `replayActiveWAL`, after the checkpoint or the frozen WAL gave the state `s`. -/
def replayActiveWAL (wal : List (WalEntry Op)) (s : σ) :
    List (FileOp Page) × Except RecoveryError σ :=
  if wal.isEmpty then ([.removeWal], .ok s)
  else
    match dryReplay cfg wal with
    | .error e => ([], .error e)
    | .ok (_, true) =>
      match replayShadowPageRecords db disk with
      | .error e => ([], .error e)
      | .ok ws =>
        (dataWrites ws ++ [.removeShadow, .removeWal], readCheckpoint db (writeAll ws disk.data))
    | .ok (offset, false) =>
      match replayUpTo db (disk.data 0) wal offset s with
      | .error e => ([], .error e)
      | .ok s' => ([.truncateWal offset], .ok s')

/-- The part of `replay` before the active WAL. -/
def replayBase : List (FileOp Page) × Except RecoveryError σ :=
  match disk.frozen with
  | some wal => replayFrozenWAL db cfg disk wal
  | none => ([.removeShadow], readCheckpoint db disk.data)

/-- `WALReplayer::replay`: the file operations of the recovery, and its outcome. -/
def replay : List (FileOp Page) × Except RecoveryError σ :=
  match replayBase db cfg disk with
  | (ops, .error e) => (ops, .error e)
  | (ops, .ok s) =>
    match disk.wal with
    | none => (ops, .ok s)
    | some wal =>
      let active := replayActiveWAL db cfg (disk.performAll ops) wal s
      (ops ++ active.1, active.2)

def recover : Except RecoveryError σ :=
  (replay db cfg disk).2

def recoveryOps : List (FileOp Page) :=
  (replay db cfg disk).1

end

end

end

end Lbug.Storage
