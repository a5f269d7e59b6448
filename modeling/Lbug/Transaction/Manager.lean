/-
  Transaction/Manager.lean --- the transaction manager and its three mutexes.

  Embeds `TransactionManager` (transaction_manager.cpp) as a transition system over
  any number of threads.  A thread is either outside the manager (`idle`) or at a
  place inside one of its calls; a place stands right before a lock, or inside the
  scope of the locks it holds.  What a call does while it holds
  `mtxForSerializingPublicFunctionCalls` is one step, since everything it touches is
  protected by that mutex; the drain loop of a checkpoint polls the atomic counter of
  active write transactions, one iteration a step.

  Exceptions are steps too: a commit whose `Transaction::commit` throws, a drain loop
  that times out, a checkpoint phase that fails.  The scopes release their locks.
-/
import Mathlib.Logic.Function.Basic
import Lbug.Foundation.Transition
import Lbug.Transaction.Timestamp

namespace Lbug.Transaction

inductive TransactionType
  | readOnly
  | write
  | checkpoint
  | dummy
  | recovery
  deriving DecidableEq, Repr

/-- The types that count as active writers. -/
def TransactionType.writes : TransactionType → Bool
  | .write | .recovery => true
  | .readOnly | .checkpoint | .dummy => false

/-- An entry of `activeTransactions`: the fields of a `Transaction` that the manager reads. -/
structure TransactionEntry where
  id : Nat
  type : TransactionType
  startTS : Nat
  deriving DecidableEq, Repr

def threadSleepTimeWhenWaitingInMicros : Nat := 500

def defaultCheckpointWaitTimeoutInMicros : Nat := 5000000

/-- The configuration the manager reads from the client context, and its timeout. -/
structure ManagerConfig where
  inMemory : Bool := false
  enableMultiWrites : Bool := false
  checkpointWaitTimeoutInMicros : Nat := defaultCheckpointWaitTimeoutInMicros
  deriving DecidableEq, Repr

inductive ManagerCall
  | beginTransaction (type : TransactionType)
  | commit (transaction : TransactionEntry)
  | rollback (transaction : TransactionEntry)
  | checkpoint
  | tryCheckpoint
  deriving DecidableEq, Repr

/-- Where a thread is.  A place whose name starts with `want` stands right before a
lock of the source. -/
inductive Place
  | idle
  /-- `beginTransaction`, before `publicFunctionLck`. -/
  | beginWantPublic (type : TransactionType)
  /-- `beginTransaction` of a type other than READ_ONLY, before `newTransactionLck.lock()`. -/
  | beginWantGate (type : TransactionType)
  /-- `beginTransaction`, at its `switch`. -/
  | beginBody (type : TransactionType)
  | commitWantPublic (transaction : TransactionEntry)
  | commitBody (transaction : TransactionEntry)
  | rollbackWantPublic (transaction : TransactionEntry)
  | rollbackBody (transaction : TransactionEntry)
  /-- `checkpoint`, before `checkpointLck`. -/
  | checkpointWantCheckpoint
  /-- `tryCheckpoint`, before its `try_to_lock`. -/
  | tryCheckpoint
  /-- `checkpointNoLock`, before the lock of the write gate. -/
  | checkpointWantGate
  /-- The loop that waits for the active write transactions to leave. -/
  | drain (numTimesWaited : Nat)
  /-- Before the public lock under which `lastTimestamp` is read. -/
  | checkpointWantPublic
  | snapshot
  | beginCheckpoint (snapshotTimestamp : Nat)
  | storagePhase (walRotated : Bool)
  | finishCheckpoint (walRotated : Bool)
  | postCheckpointCleanup
  deriving DecidableEq, Repr

/-- What the environment decides at a step. -/
inductive Choice
  | call (c : ManagerCall)
  /-- The thread goes on; a commit does not ask for a checkpoint, and a rotation of the
  WAL is decided by `walRotated`. -/
  | go (walRotated : Bool)
  /-- A commit that asks for a checkpoint: forced, or by `canAutoCheckpoint`. -/
  | shouldCheckpoint
  | throw_
  deriving DecidableEq, Repr

/-- The state of the manager: its mutexes, each with its owner, its fields, and the
place of every thread. -/
structure Manager (ι : Type) where
  /-- `mtxForSerializingPublicFunctionCalls`. -/
  publicLock : Option ι
  /-- `mtxForStartingNewTransactions`. -/
  gate : Option ι
  /-- `mtxForCheckpoint`. -/
  checkpointLock : Option ι
  activeWriteTransactionCount : UInt32
  lastTransactionID : Nat
  lastTimestamp : Nat
  activeTransactions : List TransactionEntry
  pc : ι → Place

namespace Manager

variable {ι : Type} [DecidableEq ι]

/-- The manager as constructed, with every thread outside of it. -/
def init : Manager ι where
  publicLock := none
  gate := none
  checkpointLock := none
  activeWriteTransactionCount := 0
  lastTransactionID := startTransactionID
  lastTimestamp := 1
  activeTransactions := []
  pc := fun _ => .idle

section

variable (cfg : ManagerConfig) (s : Manager ι)

def goto (t : ι) (place : Place) : Manager ι :=
  { s with pc := Function.update s.pc t place }

def lockPublic (t : ι) : Option (Manager ι) :=
  if s.publicLock = none then some { s with publicLock := some t } else none

def lockGate (t : ι) : Option (Manager ι) :=
  if s.gate = none then some { s with gate := some t } else none

def lockCheckpoint (t : ι) : Option (Manager ι) :=
  if s.checkpointLock = none then some { s with checkpointLock := some t } else none

def unlockPublic : Manager ι := { s with publicLock := none }

def unlockGate : Manager ι := { s with gate := none }

def unlockCheckpoint : Manager ι := { s with checkpointLock := none }

def hasActiveWriteTransactionNoLock : Bool :=
  0 < s.activeWriteTransactionCount

def clearTransactionNoLock (transactionID : Nat) : Manager ι :=
  { s with activeTransactions := s.activeTransactions.filter fun txn => txn.id ≠ transactionID }

/-- `++lastTransactionID` and the new entry of `activeTransactions`. -/
def pushTransaction (type : TransactionType) : Manager ι :=
  { s with
    lastTransactionID := s.lastTransactionID + 1
    activeTransactions := s.activeTransactions ++
      [{ id := s.lastTransactionID + 1, type := type, startTS := s.lastTimestamp }] }

/-- The `switch` of `beginTransaction`: nothing changes when it throws. -/
def beginSwitch : TransactionType → Manager ι
  | .readOnly => s.pushTransaction .readOnly
  | .checkpoint | .dummy => s
  | type =>
    if !cfg.enableMultiWrites && s.hasActiveWriteTransactionNoLock then s
    else { s.pushTransaction type with
      activeWriteTransactionCount := s.activeWriteTransactionCount + 1 }

def commitSwitch (txn : TransactionEntry) : Manager ι :=
  if txn.type.writes then
    { s.clearTransactionNoLock txn.id with
      lastTimestamp := s.lastTimestamp + 1
      activeWriteTransactionCount := s.activeWriteTransactionCount - 1 }
  else if txn.type = .readOnly then s.clearTransactionNoLock txn.id
  else s

/-- The `switch` of `commit` when `Transaction::commit` throws: the timestamp is
already taken. -/
def commitThrow (txn : TransactionEntry) : Manager ι :=
  if txn.type.writes then { s with lastTimestamp := s.lastTimestamp + 1 } else s

def rollbackSwitch (txn : TransactionEntry) : Manager ι :=
  if txn.type.writes then
    { s.clearTransactionNoLock txn.id with
      activeWriteTransactionCount := s.activeWriteTransactionCount - 1 }
  else if txn.type = .readOnly then s.clearTransactionNoLock txn.id
  else s

/-- An idle thread enters a call.  `commit` and `rollback` are given a transaction of
the manager (the assertion of `clearTransactionNoLock`), and `checkpoint` and
`tryCheckpoint` return at once for an in-memory database. -/
def call (t : ι) : ManagerCall → Option (Manager ι)
  | .beginTransaction type => some (s.goto t (.beginWantPublic type))
  | .commit txn =>
    if txn ∈ s.activeTransactions then some (s.goto t (.commitWantPublic txn)) else none
  | .rollback txn =>
    if txn ∈ s.activeTransactions then some (s.goto t (.rollbackWantPublic txn)) else none
  | .checkpoint =>
    if cfg.inMemory then some s else some (s.goto t .checkpointWantCheckpoint)
  | .tryCheckpoint =>
    if cfg.inMemory then some s else some (s.goto t .tryCheckpoint)

/-- One iteration of the drain loop: leave it, time out (the scopes of the gate and of
the checkpoint mutex end), or sleep. -/
def drainStep (t : ι) (numTimesWaited : Nat) : Manager ι :=
  if !s.hasActiveWriteTransactionNoLock then s.goto t .checkpointWantPublic
  else if cfg.checkpointWaitTimeoutInMicros <
      (numTimesWaited + 1) * threadSleepTimeWhenWaitingInMicros % 2 ^ 64 then
    (s.unlockGate.unlockCheckpoint).goto t .idle
  else s.goto t (.drain (numTimesWaited + 1))

/-- The checkpoint leaves with an exception: `writeGate` is still locked in the phases
before its release, and always in a checkpoint that did not rotate the WAL. -/
def checkpointThrow (t : ι) (gateHeld : Bool) : Manager ι :=
  ((if gateHeld then s.unlockGate else s).unlockCheckpoint).goto t .idle

/-- One step of thread `t`.  A thread at a lock has a step only if the mutex is free. -/
def step (a : ι × Choice) : Option (Manager ι) :=
  let t := a.1
  match s.pc t, a.2 with
  | .idle, .call c => s.call cfg t c
  | .beginWantPublic type, .go _ => (s.lockPublic t).map fun s =>
      s.goto t (if type = .readOnly then .beginBody type else .beginWantGate type)
  | .beginWantGate type, .go _ => (s.lockGate t).map (·.goto t (.beginBody type))
  | .beginBody type, .go _ =>
      let s' := s.beginSwitch cfg type
      some ((if type = .readOnly then s' else s'.unlockGate).unlockPublic.goto t .idle)
  | .commitWantPublic txn, .go _ => (s.lockPublic t).map (·.goto t (.commitBody txn))
  | .commitBody txn, .go _ => some ((s.commitSwitch txn).unlockPublic.goto t .idle)
  | .commitBody txn, .shouldCheckpoint =>
      -- only the write branch sets `shouldCheckpoint`
      some ((s.commitSwitch txn).unlockPublic.goto t
        (if txn.type.writes && !cfg.inMemory then .tryCheckpoint else .idle))
  | .commitBody txn, .throw_ => some ((s.commitThrow txn).unlockPublic.goto t .idle)
  | .rollbackWantPublic txn, .go _ => (s.lockPublic t).map (·.goto t (.rollbackBody txn))
  | .rollbackBody txn, .go _ => some ((s.rollbackSwitch txn).unlockPublic.goto t .idle)
  | .rollbackBody _, .throw_ => some (s.unlockPublic.goto t .idle)
  | .checkpointWantCheckpoint, .go _ => (s.lockCheckpoint t).map (·.goto t .checkpointWantGate)
  | .tryCheckpoint, .go _ =>
      match s.lockCheckpoint t with
      | some s => some (s.goto t .checkpointWantGate)
      | none => some (s.goto t .idle)
  | .checkpointWantGate, .go _ => (s.lockGate t).map (·.goto t (.drain 0))
  | .drain numTimesWaited, .go _ => some (s.drainStep cfg t numTimesWaited)
  | .checkpointWantPublic, .go _ => (s.lockPublic t).map (·.goto t .snapshot)
  | .snapshot, .go _ => some (s.unlockPublic.goto t (.beginCheckpoint s.lastTimestamp))
  | .beginCheckpoint _, .go walRotated =>
      some ((if walRotated then s.unlockGate else s).goto t (.storagePhase walRotated))
  | .beginCheckpoint _, .throw_ => some (s.checkpointThrow t true)
  | .storagePhase walRotated, .go _ => some (s.goto t (.finishCheckpoint walRotated))
  | .storagePhase walRotated, .throw_ => some (s.checkpointThrow t !walRotated)
  | .finishCheckpoint walRotated, .go _ =>
      some ((if walRotated then s else s.unlockGate).goto t .postCheckpointCleanup)
  | .finishCheckpoint walRotated, .throw_ => some (s.checkpointThrow t !walRotated)
  | .postCheckpointCleanup, .go _ | .postCheckpointCleanup, .throw_ =>
      some (s.checkpointThrow t false)
  | _, _ => none

end

end Manager

end Lbug.Transaction
