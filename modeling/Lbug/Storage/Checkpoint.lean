/-
  Storage/Checkpoint.lean --- the checkpoint as a sequence of file operations.

  Embeds what `Checkpointer` (checkpointer.cpp), `WAL` (wal.cpp) and `ShadowFile`
  (shadow_file.cpp) do to the files of a database, one file operation at a time:
  `beginCheckpoint` rotates the WAL if there is one; the storage phase and the
  serialisation of the catalog and the metadata write new pages directly and existing
  pages through the shadow file; `finishCheckpoint` flushes the shadow file, logs the
  checkpoint record and applies the shadow pages; `postCheckpointCleanup` removes the
  files that are no longer needed.

  The memory that survives from operation to operation is the state of the WAL's writer
  (`LogStore`) and the shadow pages and records (`PageStore`).  Which pages a checkpoint
  writes is its `Plan`; `Plan.Serializes` says that they hold the state, which is the
  contract between the storage phase and this protocol.
-/
import Lbug.Foundation.Transition
import Lbug.Storage.RecoveryOutcome

namespace Lbug.Storage

open Foundation Function

/-! ## The WAL -/

/-- `WAL`: its two files, and the writer of the active one with its buffer. -/
structure LogStore (Op : Type) where
  wal : Option (List (WalEntry Op))
  frozen : Option (List (WalEntry Op))
  /-- `serializer != nullptr`. -/
  writerOpen : Bool
  buffer : List (WalEntry Op)

inductive LogOp
  /-- `flushAndSyncNoLock`. -/
  | flush
  /-- The rename of `rotateForCheckpoint`. -/
  | rename
  | initWriter
  /-- `addNewWALRecordNoLock` of a checkpoint record. -/
  | addCheckpoint
  /-- `logAndFlushCheckpointToFrozen`. -/
  | checkpointToFrozen
  | clear
  | clearFrozenWAL
  | reset
  deriving DecidableEq, Repr

namespace LogStore

variable {Op : Type} (ident : WalIdentity) (s : LogStore Op)

/-- `initWriter`: open or create the active WAL; an empty file gets a header. -/
def initWriter : LogStore Op :=
  if s.writerOpen then s
  else
    { s with
      wal := some (s.wal.getD [])
      writerOpen := true
      buffer := if (s.wal.getD []).isEmpty then [.header ident.databaseID ident.enableChecksums]
        else [] }

def add (entries : List (WalEntry Op)) : LogStore Op :=
  { s with buffer := s.buffer ++ entries }

def flush : LogStore Op :=
  { s with wal := s.wal.map (· ++ s.buffer), buffer := [] }

/-- Whether `rotateForCheckpoint` rotates. -/
def rotates : Bool := s.writerOpen || s.wal.isSome

theorem rotates_eq_false {s : LogStore Op} :
    s.rotates = false ↔ s.writerOpen = false ∧ s.wal = none := by
  rw [rotates, Bool.or_eq_false_iff, Option.isSome_eq_false_iff, Option.isNone_iff_eq_none]

def logCommittedWAL (ident : WalIdentity) (localWAL : List (WalEntry Op)) (s : LogStore Op) :
    LogStore Op :=
  ((s.initWriter ident).add localWAL).flush

def perform : LogOp → LogStore Op
  | .flush => if s.writerOpen then s.flush else s
  -- an existing frozen WAL is replaced
  | .rename => { wal := none, frozen := s.wal, writerOpen := false, buffer := [] }
  | .initWriter => s.initWriter ident
  | .addCheckpoint => s.add [.record .checkpoint]
  | .checkpointToFrozen => { s with frozen := s.frozen.map (· ++ [.record .checkpoint]) }
  | .clear => { s with wal := s.wal.map fun _ => [], buffer := [] }
  | .clearFrozenWAL => { s with frozen := none }
  | .reset => { s with wal := none, writerOpen := false, buffer := [] }

end LogStore

/-! ## Data file and shadow file -/

/-- The data file, the shadow file, and the shadow pages in memory: `records` is
`shadowPageRecords`, `frames` the contents of the shadow pages by slot. -/
structure PageStore (Page : Type) where
  data : Nat → Page
  shadow : Option (Nat → ShadowSlot Page)
  records : List Nat
  frames : Nat → Page

inductive PageOp (Page : Type)
  /-- `getOrCreateShadowPage` and the write to the page in memory. -/
  | shadowWrite (original : Nat) (p : Page)
  | writePage (page : Nat) (p : Page)
  /-- A shadow page goes to the shadow file, evicted or flushed. -/
  | flushSlot (slot : Nat)
  | flushHeader
  | flushRecords
  /-- One iteration of `applyShadowPages`. -/
  | applyPage (index : Nat)
  | clear
  | reset
  deriving DecidableEq, Repr

namespace PageStore

variable {Page : Type} (s : PageStore Page)

/-- `getOrCreateShadowPage` and the write to its frame.  The first shadow page creates
the file. -/
def shadowWrite (original : Nat) (p : Page) : PageStore Page :=
  if original ∈ s.records then
    { s with frames := update s.frames (s.records.idxOf original + 1) p }
  else
    { s with
      shadow := some (s.shadow.getD fun _ => .hole)
      records := s.records ++ [original]
      frames := update s.frames (s.records.length + 1) p }

def writeSlot (slot : Nat) (contents : ShadowSlot Page) : PageStore Page :=
  { s with shadow := s.shadow.map fun image => update image slot contents }

def slotPage (slot : Nat) : Option Page :=
  match s.shadow with
  | none => none
  | some image =>
    match image slot with
    | .page p => some p
    | _ => none

def perform (databaseID : Nat) (s : PageStore Page) : PageOp Page → PageStore Page
  | .shadowWrite original p => s.shadowWrite original p
  | .writePage i p => { s with data := update s.data i p }
  | .flushSlot slot =>
    -- only pages that exist are evicted or flushed; page 0 of the file is its header
    if 0 < slot ∧ slot ≤ s.records.length then s.writeSlot slot (.page (s.frames slot)) else s
  | .flushHeader => s.writeSlot 0 (.header s.records.length databaseID)
  | .flushRecords => s.writeSlot (s.records.length + 1) (.records s.records)
  | .applyPage index =>
    match s.records[index]?, s.slotPage (index + 1) with
    | some original, some p => { s with data := update s.data original p }
    | _, _ => s
  | .clear => { s with shadow := s.shadow.map fun _ _ => .hole, records := [] }
  | .reset => { s with shadow := none }

end PageStore

/-! ## The script of a checkpoint -/

/-- What the storage phase and the serialisation do (`storage`, in order), and the
shadow pages that are dirty when the shadow file is flushed. -/
structure Plan (Page : Type) where
  storage : List (PageOp Page)
  dirty : List Nat

inductive CheckpointOp (Page : Type)
  | log (op : LogOp)
  | page (op : PageOp Page)
  deriving DecidableEq, Repr

namespace Plan

variable {Page : Type}

section

variable (plan : Plan Page)

def flushAll : List (PageOp Page) :=
  .flushHeader :: (plan.dirty.map .flushSlot ++ [.flushRecords])

/-- Everything before the checkpoint record. -/
def prepare : List (PageOp Page) := plan.storage ++ plan.flushAll

def applyShadowPages (numRecords : Nat) : List (PageOp Page) :=
  (List.range numRecords).map .applyPage

/-- The operations of a checkpoint that rotates the WAL; `numRecords` is the number of
shadow page records when they are applied. -/
def rotatedScript (numRecords : Nat) : List (CheckpointOp Page) :=
  [.log .flush, .log .rename] ++ plan.prepare.map .page ++ [.log .checkpointToFrozen] ++
    (applyShadowPages numRecords).map .page ++ [.page .clear] ++
    [.log .clearFrozenWAL, .page .reset]

/-- The operations of a checkpoint that finds no WAL to rotate. -/
def plainScript (numRecords : Nat) : List (CheckpointOp Page) :=
  plan.prepare.map .page ++ [.log .initWriter, .log .addCheckpoint, .log .flush] ++
    (applyShadowPages numRecords).map .page ++ [.log .clear, .page .clear] ++
    [.log .reset, .page .reset]

def directs : List (Nat × Page) :=
  plan.storage.filterMap fun
    | .writePage i p => some (i, p)
    | _ => none

def shadows : List (Nat × Page) :=
  plan.storage.filterMap fun
    | .shadowWrite i p => some (i, p)
    | _ => none

/-- The pages after the storage phase and the serialisation. -/
def stored (databaseID : Nat) (pages : PageStore Page) (plan : Plan Page) : PageStore Page :=
  plan.storage.foldl (PageStore.perform databaseID) pages

/-- The data file once the checkpoint is complete. -/
def planned (data : Nat → Page) : Nat → Page :=
  writeAll plan.shadows (writeAll plan.directs data)

end

end Plan

/-- The operations of the storage phase and the serialisation. -/
def PageOp.isStorage {Page : Type} : PageOp Page → Bool
  | .shadowWrite _ _ | .writePage _ _ | .flushSlot _ => true
  | .flushHeader | .flushRecords | .applyPage _ | .clear | .reset => false

/-! ## The system -/

/-- A checkpoint in progress: whether it rotated the WAL, the pages it writes through the
shadow file, and the operations that are left. -/
structure Pending (Page : Type) where
  rotated : Bool
  own : List Nat
  rest : List (CheckpointOp Page)

/-- The files and the memory of an open database.  `state` is the state in memory, the
one produced by all committed transactions. -/
structure Engine (σ Op Page : Type) where
  logs : LogStore Op
  pages : PageStore Page
  state : σ
  pending : Option (Pending Page)

inductive EngineCall (Op Page : Type)
  | commit (txn : List Op)
  /-- `checkpointNoLock` gets the write gate. -/
  | checkpoint (plan : Plan Page)
  | next
  /-- `beginCheckpoint`, `checkpointStoragePhase` or `finishCheckpoint` throws. -/
  | throw_

namespace Engine

variable {σ Op Page : Type} (db : Database σ Op Page) (ident : WalIdentity) (s : Engine σ Op Page)

/-- The files, as a crash leaves them. -/
def disk : Disk Op Page :=
  { data := s.pages.data, wal := s.logs.wal, frozen := s.logs.frozen, shadow := s.pages.shadow }

def perform : CheckpointOp Page → Engine σ Op Page
  | .log op => { s with logs := s.logs.perform ident op }
  | .page op => { s with pages := s.pages.perform ident.databaseID op }

def performAll (ops : List (CheckpointOp Page)) : Engine σ Op Page :=
  ops.foldl (perform ident) s

/-- `Transaction::commit` with its WAL. -/
def commit (txn : List Op) : Engine σ Op Page :=
  { s with
    logs := s.logs.logCommittedWAL ident (db.localWAL txn)
    state := db.applyAll txn s.state }

/-- The pages after everything that precedes the checkpoint record. -/
def prepared (plan : Plan Page) : PageStore Page :=
  plan.flushAll.foldl (PageStore.perform ident.databaseID) (plan.stored ident.databaseID s.pages)

def script (plan : Plan Page) : List (CheckpointOp Page) :=
  let numRecords := (s.prepared ident plan).records.length
  if s.logs.rotates then plan.rotatedScript numRecords else plan.plainScript numRecords

/-- Whether the checkpoint in progress holds the write gate: until the WAL is rotated,
and without a rotation until `finishCheckpoint` returns. -/
def gateHeld (p : Pending Page) : Bool :=
  p.rest.any fun
    | .log .rename => true
    | .page .clear => !p.rotated
    | _ => false

/-- Whether the checkpoint in progress is still before `postCheckpointCleanup`. -/
def canThrow (p : Pending Page) : Bool :=
  p.rest.any fun
    | .page .clear => true
    | _ => false

/-- A failed checkpoint leaves the files, the writer and the shadow pages as they are:
`Checkpointer::rollback` only undoes changes of the tables in memory. -/
def step : EngineCall Op Page → Option (Engine σ Op Page)
  | .commit txn =>
    match s.pending with
    | none => some (s.commit db ident txn)
    | some p => if gateHeld p then none else some (s.commit db ident txn)
  | .checkpoint plan =>
    match s.pending with
    | none => some { s with
        pending := some
          { rotated := s.logs.rotates
            own := plan.shadows.map Prod.fst
            rest := s.script ident plan } }
    | some _ => none
  | .next =>
    match s.pending with
    | some { rotated, own, rest := op :: rest } =>
      some { s.perform ident op with
        pending := if rest.isEmpty then none else some { rotated, own, rest } }
    | _ => none
  | .throw_ =>
    match s.pending with
    | some p => if canThrow p then some { s with pending := none } else none
    | none => none

section StepCases

variable {db ident s} {s' : Engine σ Op Page}
  {plan : Plan Page}

theorem step_commit {txn : List Op} (h : s.step db ident (.commit txn) = some s') :
    (∀ p, s.pending = some p → gateHeld p = false) ∧ s' = s.commit db ident txn := by
  simp only [step] at h
  split at h
  · rename_i hpending
    cases h
    exact ⟨fun p hp => by simp [hpending] at hp, rfl⟩
  rename_i p hpending
  split at h
  · cases h
  rename_i hgate
  cases h
  refine ⟨fun q hq => ?_, rfl⟩
  rw [hpending] at hq
  cases hq
  exact Bool.eq_false_iff.mpr hgate

theorem step_checkpoint (h : s.step db ident (.checkpoint plan) = some s') :
    s.pending = none ∧ s' = { s with
      pending := some
        { rotated := s.logs.rotates
          own := plan.shadows.map Prod.fst
          rest := s.script ident plan } } := by
  simp only [step] at h
  split at h
  · rename_i hpending
    cases h
    exact ⟨hpending, rfl⟩
  · cases h

theorem step_next (h : s.step db ident .next = some s') :
    ∃ rotated own op rest, s.pending = some { rotated, own, rest := op :: rest } ∧
      s' = { s.perform ident op with
        pending := if rest.isEmpty then none else some { rotated, own, rest } } := by
  simp only [step] at h
  split at h
  · rename_i rotated own op rest hpending
    cases h
    exact ⟨rotated, own, op, rest, hpending, rfl⟩
  · cases h

theorem step_throw (h : s.step db ident .throw_ = some s') :
    ∃ p, s.pending = some p ∧ canThrow p = true ∧ s' = { s with pending := none } := by
  simp only [step] at h
  split at h
  · rename_i p hpending
    split at h
    · rename_i hthrow
      cases h
      exact ⟨p, hpending, hthrow, rfl⟩
    · cases h
  · cases h

theorem page_mem_script {op : PageOp Page} (h : .page op ∈ s.script ident plan) :
    op ∈ plan.prepare ∨ (∃ k, op = .applyPage k) ∨ op = .clear ∨ op = .reset := by
  unfold script at h
  split at h
  · simp [Plan.rotatedScript, Plan.applyShadowPages] at h
    grind
  · simp [Plan.plainScript, Plan.applyShadowPages] at h
    grind

end StepCases

end Engine

/-- The pages a plan writes hold the state: direct writes avoid the pages that the
checkpoint on disk uses, the header page is written through the shadow file and keeps
its ID, the finished data file reads as the state, and every shadow page is on disk once
the dirty ones are flushed. -/
structure Plan.Serializes {σ Op Page : Type} (db : Database σ Op Page) (databaseID : Nat)
    (pages : PageStore Page) (state : σ) (plan : Plan Page) : Prop where
  isStorage : ∀ op ∈ plan.storage, op.isStorage = true
  dead : ∀ w ∈ plan.directs, ¬ db.live pages.data w.1
  header : 0 ∈ plan.shadows.map Prod.fst
  reads : db.readCheckpoint (plan.planned pages.data) = some state
  keepsID : ∀ p, (0, p) ∈ plan.shadows → db.databaseID p = some databaseID
  onDisk : ∀ k < (plan.stored databaseID pages).records.length, k + 1 ∈ plan.dirty ∨
    (plan.stored databaseID pages).slotPage (k + 1) =
      some ((plan.stored databaseID pages).frames (k + 1))

/-- The runs of an open database: every checkpoint serialises the state it starts from. -/
def Engine.Sound {σ Op Page : Type} (db : Database σ Op Page) (ident : WalIdentity)
    (s : Engine σ Op Page) : EngineCall Op Page → Prop
  | .checkpoint plan => plan.Serializes db ident.databaseID s.pages s.state
  | .commit _ | .next | .throw_ => True

end Lbug.Storage
