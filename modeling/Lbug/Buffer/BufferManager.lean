/-
  Buffer/BufferManager.lean --- pages, the eviction queue and the memory counters.

  Source: `include/storage/buffer_manager/page_state.h`,
  `storage/buffer_manager/buffer_manager.cpp`, `storage/buffer_manager/memory_manager.cpp`,
  `storage/buffer_manager/spiller.cpp`, `storage/checkpointer.cpp`
  (`postCheckpointCleanup`).

  Any number of threads run the calls of the buffer manager and of the memory manager, and
  every access to a word that threads share is a step of its own: the compare-and-swaps on
  page states and on slots of the queue, the reads and the updates of the counters.  Loading
  a word and swapping it is one step, since the swap succeeds only on the value that was
  loaded, and so is loading and storing the word of a page that is locked; the page that a
  thread has loaded from a slot before may be any page.  Whether `reserve` tries to evict or
  to spill first is left open, and so is how often it tries.
  A pin with its unpin, or with the buffer that owns the page, is one activity; a thread
  that holds several pages stands for several.
-/
import Mathlib.Data.Fintype.Basic
import Lbug.Foundation.Transition

namespace Lbug.Buffer

open Function

/-! ## Page states -/

inductive LockState where
  | unlocked
  | locked
  | marked
  | evicted
  deriving DecidableEq, Repr

/-- The word of a page: 8 bits of state, the dirty bit, and 55 bits of version. -/
structure PageState where
  state : LockState := .evicted
  version : Nat := 0
  dirty : Bool := false
  deriving DecidableEq, Repr

namespace PageState

section

variable (w : PageState)

def updateStateWithSameVersion (state : LockState) : PageState := { w with state }

/-- The lowest bit of the state is set by a carry. -/
def withCarry : LockState → LockState
  | .unlocked => .locked
  | .locked => .locked
  | .marked => .evicted
  | .evicted => .evicted

/-- The version is incremented together with the dirty bit above it. -/
def updateStateAndIncrementVersion (state : LockState) : PageState :=
  if w.version + 1 < 2 ^ 55 then ⟨state, w.version + 1, w.dirty⟩
  else if w.dirty then ⟨withCarry state, 0, false⟩
  else ⟨state, 0, true⟩

/-- `tryLock` and `spinLock` where they succeed. -/
def lock : PageState := w.updateStateWithSameVersion .locked

def unlock : PageState := w.updateStateAndIncrementVersion .unlocked

def unlockUnchanged : PageState := w.updateStateWithSameVersion .unlocked

def resetToEvicted : PageState := w.updateStateAndIncrementVersion .evicted

def setDirty : PageState := { w with dirty := true }

def clearDirty : PageState := { w with dirty := false }

end

end PageState

/-! ## Sizes -/

inductive PageSizeClass where
  | regular
  | temp
  deriving DecidableEq

/-- `LBUG_PAGE_SIZE` and `TEMP_PAGE_SIZE`. -/
def PageSizeClass.size : PageSizeClass → Nat
  | .regular => 4096
  | .temp => 262144

structure Config (Page : Type) where
  bufferPoolSize : Nat
  /-- `verifySizeParams` -/
  pageSize_le : 4096 ≤ bufferPoolSize
  sizeClass : Page → PageSizeClass
  isInMemoryMode : Page → Bool
  hasSpiller : Bool

namespace Config

variable {Page : Type}

def pageSize (cfg : Config Page) (X : Page) : Nat := (cfg.sizeClass X).size

/-- `EvictionQueue::BATCH_SIZE`. -/
def batchSize : Nat := 64

def queueCapacity (cfg : Config Page) : Nat :=
  cfg.bufferPoolSize / 4096 + (batchSize - cfg.bufferPoolSize / 4096 % batchSize)

/-- The memory of the queue itself; a candidate has 8 bytes. -/
def queueMemory (cfg : Config Page) : Nat := cfg.queueCapacity * 8

end Config

/-! ## Calls in progress -/

/-- The calls that reserve memory. -/
inductive ReserveCall (Page Buf : Type) where
  | pin (X : Page)
  | malloc (b : Buf) (size : Nat)
  /-- `prepareLoadFromDisk` -/
  | reload (b : Buf) (size : Nat)
  deriving DecidableEq

/-- The page that is locked for the call. -/
def ReserveCall.locked {Page Buf : Type} : ReserveCall Page Buf → List Page
  | .pin X => [X]
  | _ => []

/-- Where `evictPages` is with the page of a slot. -/
inductive EvictPhase (Page : Type) where
  /-- an evicted page is locked to clear its slot -/
  | stale
  | staleCleared (cleared : Bool)
  | staleCounted
  /-- `tryEvictPage`: the page is locked -/
  | victim
  /-- the frame is released -/
  | released
  /-- `clear` has loaded the slot -/
  | clearing (loaded : Page)
  | cleared
  | counted
  deriving DecidableEq

/-- Where `reserve` is in its loop. -/
inductive ReservePhase where
  | checking
  /-- `needMoreMemory` was true -/
  | claiming
  /-- a group is spilled -/
  | spilled (evictable : Nat)
  /-- there is enough memory -/
  | crediting
  /-- the claimed memory is no longer in use -/
  | credited
  | failing
  | refunded
  deriving DecidableEq

inductive RemovePhase where
  /-- the page was not evicted when it was looked at -/
  | checked
  | locked
  | released
  | freed
  deriving DecidableEq

inductive Activity (Page Buf : Type) where
  | idle
  /-- `pin` has locked an evicted page -/
  | locked (X : Page)
  /-- the loop of `reserve`: the memory claimed so far, and the part of it that was not
  evictable -/
  | reserving (call : ReserveCall Page Buf) (claimed nonEvictable : Nat) (phase : ReservePhase)
  | evicting (call : ReserveCall Page Buf) (claimed nonEvictable : Nat) (slot : Nat) (Y : Page)
      (phase : EvictPhase Page)
  /-- `reserve` has returned true -/
  | granted (call : ReserveCall Page Buf)
  /-- `reserve` has returned false to `pin` -/
  | failed (X : Page)
  /-- the page is read into its frame -/
  | loaded (X : Page)
  /-- the page is in a slot of the queue, and not counted yet -/
  | inserted (X : Page)
  | pinned (X : Page)
  /-- the page of a memory buffer -/
  | buffered (b : Buf) (X : Page)
  /-- a buffer of `malloc` is freed -/
  | freeing (size : Nat)
  | freed (size : Nat)
  | removing (X : Page) (phase : RemovePhase)
  | updating (X : Page)
  /-- the function of `optimisticRead` runs: the word at its start, and the frame -/
  | reading (X : Page) (word : PageState) (frame : Nat)
  /-- `removeEvictedCandidates` has found the page of a slot evicted -/
  | found (slot : Nat)
  | clearing (slot : Nat) (loaded : Page)
  | cleared
  /-- `pin` has thrown: the queue is full -/
  | queueFull (X : Page)
  /-- `clear` has reached its unreachable branch -/
  | unreachable (locked : List Page)
  deriving DecidableEq

/-- A memory buffer.  One of `TEMP_PAGE_SIZE` bytes has a page, the others are allocated
by `malloc`. -/
inductive BufferState (Page Thread : Type) where
  | unallocated
  | malloced (size : Nat)
  | spilled (size : Nat)
  | paged (i : Thread) (X : Page)
  | spilledPage (X : Page)
  /-- reloaded by `malloc`, with its page index left as it was -/
  | reloadedPage (X : Page)
  deriving DecidableEq

/-- The state.  The number of changes of a frame is kept for the specification only. -/
structure State (Page Thread Buf : Type) where
  word : Page → PageState
  frame : Page → Nat
  resident : Page → Bool
  slots : Nat → Option Page
  queueSize : Int
  usedMemory : Int
  nonEvictableMemory : Int
  buffers : Buf → BufferState Page Thread
  activity : Thread → Activity Page Buf

inductive Action (Page Buf : Type) where
  -- pin and unpin
  | pinCached (X : Page)
  | pinEvicted (X : Page)
  | startPin
  | load
  | insert (slot : Nat)
  | insertFull
  | countInserted
  | resetFailed
  | write
  | unpin
  -- optimisticRead
  | startRead (X : Page)
  | endRead
  | clearMark (X : Page)
  -- removePageFromFrame
  | checkRemove (X : Page)
  | lockRemove
  | releaseRemove
  | freeRemove
  | resetRemove
  -- updateFrameIfPageIsInFrame
  | lockUpdate (X : Page)
  | copyUpdate
  | unlockUpdate
  -- memory buffers
  | startMalloc (b : Buf) (size : Nat)
  | startReload (b : Buf)
  | finishMalloc
  | freeMalloced (b : Buf)
  | freeUsed
  | freeNonEvictable
  | allocPaged (b : Buf)
  | freePaged
  | freeReloaded (b : Buf)
  -- reserve and evictPages
  | checkMemory
  | checkAgain
  | giveUp
  | mark (Y : Page)
  | lockStale (slot : Nat) (Y : Page)
  | clearStale
  | countStale
  | resetStale
  | lockVictim (slot : Nat) (Y : Page)
  | abortVictim
  | releaseVictim
  | loadVictim
  | clearVictim
  | countVictim
  | resetVictim
  | spill (group : List Buf)
  | countEvictable
  | reserveDone
  | reserveFail
  | creditNonEvictable
  -- removeEvictedCandidates
  | findEvicted (slot : Nat) (X : Page)
  | loadFound
  | clearFound
  | countCleared

section

variable {Page Thread Buf : Type} [DecidableEq Page] [DecidableEq Thread] [DecidableEq Buf]

def Config.callSize (cfg : Config Page) : ReserveCall Page Buf → Nat
  | .pin X => cfg.pageSize X
  | .malloc _ size => size
  | .reload _ size => size

namespace State

def init (cfg : Config Page) : State Page Thread Buf where
  word := fun _ => {}
  frame := fun _ => 0
  resident := fun _ => false
  slots := fun _ => none
  queueSize := 0
  usedMemory := cfg.queueMemory
  nonEvictableMemory := 0
  buffers := fun _ => .unallocated
  activity := fun _ => .idle

section

variable (s : State Page Thread Buf)

def goto (i : Thread) (a : Activity Page Buf) : State Page Thread Buf :=
  { s with activity := update s.activity i a }

def setWord (X : Page) (w : PageState) : State Page Thread Buf :=
  { s with word := update s.word X w }

/-- The content of a frame changes. -/
def changeFrame (X : Page) : State Page Thread Buf :=
  { s with frame := update s.frame X (s.frame X + 1) }

def setResident (X : Page) (resident : Bool) : State Page Thread Buf :=
  { s with resident := update s.resident X resident }

/-- `releaseFrameForPage`. -/
def releaseFrame (X : Page) : State Page Thread Buf :=
  (s.changeFrame X).setResident X false

def setSlot (slot : Nat) (candidate : Option Page) : State Page Thread Buf :=
  { s with slots := update s.slots slot candidate }

def setBuffer (b : Buf) (buffer : BufferState Page Thread) : State Page Thread Buf :=
  { s with buffers := update s.buffers b buffer }

def addUsed (n : Int) : State Page Thread Buf :=
  { s with usedMemory := s.usedMemory + n }

def addNonEvictable (n : Int) : State Page Thread Buf :=
  { s with nonEvictableMemory := s.nonEvictableMemory + n }

def addQueueSize (n : Int) : State Page Thread Buf :=
  { s with queueSize := s.queueSize + n }

end

section

variable (cfg : Config Page)

section

variable (s : State Page Thread Buf)

/-- `needMoreMemory` of `reserve`; if more is claimed than the pool has, the difference
wraps. -/
def needMoreMemory (call : ReserveCall Page Buf) (claimed : Nat) : Bool :=
  claimed < cfg.callSize call && claimed ≤ cfg.bufferPoolSize &&
    (cfg.bufferPoolSize : Int) - claimed < s.usedMemory

/-- `setSpilledToDisk`: the memory that is freed and the memory that is evictable now. -/
def spillBuffer (x : State Page Thread Buf × Nat × Nat) (b : Buf) :
    State Page Thread Buf × Nat × Nat :=
  match x.1.buffers b with
  | .malloced size => (x.1.setBuffer b (.spilled size), x.2.1 + size, x.2.2)
  | .paged i X =>
    (((x.1.setWord X (x.1.word X).unlock).goto i .idle).setBuffer b (.spilledPage X), x.2.1,
      x.2.2 + cfg.pageSize X)
  | _ => x

/-- `claimNextGroup`. -/
def spillGroup (group : List Buf) : State Page Thread Buf × Nat × Nat :=
  group.foldl (spillBuffer cfg) (s, 0, 0)

/-- What a spilled group adds to the claimed memory.  If it made pages evictable, or freed
nothing, what `evictPages` claims takes its place. -/
def claimedBySpill (freed evictable : Nat) : Nat := if freed = 0 ∨ 0 < evictable then 0 else freed

/-- The queue size after `tryClear`. -/
def sizeChange (cleared : Bool) : Int := if cleared then -1 else 0

/-- A step of thread `i`. -/
def stepOf (i : Thread) : Action Page Buf → Option (State Page Thread Buf)
  | .pinCached X =>
    match s.activity i, (s.word X).state with
    | .idle, .unlocked => some ((s.setWord X (s.word X).lock).goto i (.pinned X))
    | .idle, .marked => some ((s.setWord X (s.word X).lock).goto i (.pinned X))
    | _, _ => none
  | .pinEvicted X =>
    match s.activity i, (s.word X).state with
    | .idle, .evicted => some ((s.setWord X (s.word X).lock).goto i (.locked X))
    | _, _ => none
  | .startPin =>
    match s.activity i with
    | .locked X => some ((s.addUsed (cfg.pageSize X)).goto i (.reserving (.pin X) 0 0 .checking))
    | _ => none
  | .load =>
    match s.activity i with
    | .granted (.pin X) =>
      some ((((s.setWord X (s.word X).clearDirty).changeFrame X).setResident X true).goto i
        (.loaded X))
    | _ => none
  | .insert slot =>
    match s.activity i, s.slots slot with
    | .loaded X, none =>
      if slot < cfg.queueCapacity then some ((s.setSlot slot (some X)).goto i (.inserted X))
      else none
    | _, _ => none
  | .insertFull =>
    match s.activity i with
    | .loaded X =>
      if s.queueSize < cfg.queueCapacity then none else some (s.goto i (.queueFull X))
    | _ => none
  | .countInserted =>
    match s.activity i with
    | .inserted X => some ((s.addQueueSize 1).goto i (.pinned X))
    | _ => none
  | .resetFailed =>
    match s.activity i with
    | .failed X => some ((s.setWord X (s.word X).resetToEvicted).goto i .idle)
    | _ => none
  | .write =>
    match s.activity i with
    | .pinned X => some ((s.setWord X (s.word X).setDirty).changeFrame X)
    | .buffered _ X => some ((s.setWord X (s.word X).setDirty).changeFrame X)
    | _ => none
  | .unpin =>
    match s.activity i with
    | .pinned X => some ((s.setWord X (s.word X).unlock).goto i .idle)
    | _ => none
  | .startRead X =>
    match s.activity i, (s.word X).state with
    | .idle, .unlocked => some (s.goto i (.reading X (s.word X) (s.frame X)))
    | _, _ => none
  | .endRead =>
    match s.activity i with
    | .reading _ _ _ => some (s.goto i .idle)
    | _ => none
  | .clearMark X =>
    match s.activity i, (s.word X).state with
    | .idle, .marked => some (s.setWord X (s.word X).unlockUnchanged)
    | _, _ => none
  | .checkRemove X =>
    match s.activity i with
    | .idle =>
      if (s.word X).state = .evicted then none else some (s.goto i (.removing X .checked))
    | _ => none
  | .lockRemove =>
    match s.activity i with
    -- `spinLock` goes on with the value it finds, whatever its state is
    | .removing X .checked =>
      some ((s.setWord X (s.word X).lock).goto i (.removing X .locked))
    | _ => none
  | .releaseRemove =>
    match s.activity i with
    | .removing X .locked => some ((s.releaseFrame X).goto i (.removing X .released))
    | _ => none
  | .freeRemove =>
    match s.activity i with
    | .removing X .released =>
      some ((s.addUsed (-cfg.pageSize X)).goto i (.removing X .freed))
    | _ => none
  | .resetRemove =>
    match s.activity i with
    | .removing X .freed => some ((s.setWord X (s.word X).resetToEvicted).goto i .idle)
    | _ => none
  | .lockUpdate X =>
    match s.activity i with
    | .idle =>
      -- `tryLock` also succeeds on a page that is locked
      if (s.word X).state = .evicted then none
      else some ((s.setWord X (s.word X).lock).goto i (.updating X))
    | _ => none
  | .copyUpdate =>
    match s.activity i with
    | .updating X => some (s.changeFrame X)
    | _ => none
  | .unlockUpdate =>
    match s.activity i with
    | .updating X => some ((s.setWord X (s.word X).unlock).goto i .idle)
    | _ => none
  | .startMalloc b size =>
    match s.activity i, s.buffers b with
    | .idle, .unallocated =>
      some ((s.addUsed size).goto i (.reserving (.malloc b size) 0 0 .checking))
    | _, _ => none
  | .startReload b =>
    match s.activity i, s.buffers b with
    | .idle, .spilled size =>
      some ((s.addUsed size).goto i (.reserving (.reload b size) 0 0 .checking))
    | .idle, .spilledPage X =>
      some ((s.addUsed (cfg.pageSize X)).goto i
        (.reserving (.reload b (cfg.pageSize X)) 0 0 .checking))
    | _, _ => none
  | .finishMalloc =>
    match s.activity i with
    | .granted (.malloc b size) =>
      if s.buffers b = .unallocated then
        some (((s.addNonEvictable size).setBuffer b (.malloced size)).goto i .idle)
      else none
    | .granted (.reload b size) =>
      match s.buffers b with
      | .spilled n =>
        if n = size then
          some (((s.addNonEvictable size).setBuffer b (.malloced size)).goto i .idle)
        else none
      | .spilledPage X =>
        if cfg.pageSize X = size then
          some (((s.addNonEvictable size).setBuffer b (.reloadedPage X)).goto i .idle)
        else none
      | _ => none
    | _ => none
  | .freeMalloced b =>
    match s.activity i, s.buffers b with
    | .idle, .malloced size => some ((s.setBuffer b .unallocated).goto i (.freeing size))
    | _, _ => none
  | .freeUsed =>
    match s.activity i with
    | .freeing size => some ((s.addUsed (-size)).goto i (.freed size))
    | _ => none
  | .freeNonEvictable =>
    match s.activity i with
    | .freed size => some ((s.addNonEvictable (-size)).goto i .idle)
    | _ => none
  | .allocPaged b =>
    match s.activity i, s.buffers b with
    | .pinned X, .unallocated => some ((s.setBuffer b (.paged i X)).goto i (.buffered b X))
    | _, _ => none
  | .freePaged =>
    match s.activity i with
    | .buffered b X =>
      some (((s.setWord X (s.word X).unlock).setBuffer b .unallocated).goto i .idle)
    | _ => none
  | .freeReloaded b =>
    match s.activity i, s.buffers b with
    -- the page index is still there, so the page is unpinned and no memory is given back
    | .idle, .reloadedPage X =>
      some ((s.setWord X (s.word X).unlock).setBuffer b .unallocated)
    | _, _ => none
  | .checkMemory =>
    match s.activity i with
    | .reserving call claimed nonEvictable .checking =>
      if s.needMoreMemory cfg call claimed then
        some (s.goto i (.reserving call claimed nonEvictable .claiming))
      else some (s.goto i (.reserving call claimed nonEvictable .crediting))
    | _ => none
  | .checkAgain =>
    match s.activity i with
    | .reserving call claimed nonEvictable .claiming =>
      some (s.goto i (.reserving call claimed nonEvictable .checking))
    | _ => none
  | .giveUp =>
    match s.activity i with
    | .reserving call claimed nonEvictable .claiming =>
      if s.needMoreMemory cfg call claimed then
        some (s.goto i (.reserving call claimed nonEvictable .failing))
      else none
    | _ => none
  | .mark Y =>
    match s.activity i, (s.word Y).state with
    | .reserving _ _ _ .claiming, .unlocked =>
      some (s.setWord Y ((s.word Y).updateStateWithSameVersion .marked))
    | _, _ => none
  | .lockStale slot Y =>
    match s.activity i, (s.word Y).state with
    | .reserving call claimed nonEvictable .claiming, .evicted =>
      some ((s.setWord Y (s.word Y).lock).goto i
        (.evicting call claimed nonEvictable slot Y .stale))
    | _, _ => none
  | .clearStale =>
    match s.activity i with
    | .evicting call claimed nonEvictable slot Y .stale =>
      if s.slots slot = some Y then
        some ((s.setSlot slot none).goto i
          (.evicting call claimed nonEvictable slot Y (.staleCleared true)))
      else some (s.goto i (.evicting call claimed nonEvictable slot Y (.staleCleared false)))
    | _ => none
  | .countStale =>
    match s.activity i with
    | .evicting call claimed nonEvictable slot Y (.staleCleared cleared) =>
      some ((s.addQueueSize (sizeChange cleared)).goto i
        (.evicting call claimed nonEvictable slot Y .staleCounted))
    | _ => none
  | .resetStale =>
    match s.activity i with
    | .evicting call claimed nonEvictable _ Y .staleCounted =>
      some ((s.setWord Y (s.word Y).resetToEvicted).goto i
        (.reserving call claimed nonEvictable .claiming))
    | _ => none
  | .lockVictim slot Y =>
    match s.activity i, (s.word Y).state with
    | .reserving call claimed nonEvictable .claiming, .marked =>
      some ((s.setWord Y (s.word Y).lock).goto i
        (.evicting call claimed nonEvictable slot Y .victim))
    | _, _ => none
  | .abortVictim =>
    match s.activity i with
    | .evicting call claimed nonEvictable slot Y .victim =>
      if s.slots slot = some Y ∧ cfg.isInMemoryMode Y = false then none
      else some ((s.setWord Y (s.word Y).unlockUnchanged).goto i
        (.reserving call claimed nonEvictable .claiming))
    | _ => none
  | .releaseVictim =>
    match s.activity i with
    | .evicting call claimed nonEvictable slot Y .victim =>
      if s.slots slot = some Y ∧ cfg.isInMemoryMode Y = false then
        some ((s.releaseFrame Y).goto i (.evicting call claimed nonEvictable slot Y .released))
      else none
    | _ => none
  | .loadVictim =>
    match s.activity i with
    | .evicting call claimed nonEvictable slot Y .released =>
      match s.slots slot with
      | none => some (s.goto i (.unreachable (Y :: call.locked)))
      | some Z => some (s.goto i (.evicting call claimed nonEvictable slot Y (.clearing Z)))
    | _ => none
  | .clearVictim =>
    match s.activity i with
    | .evicting call claimed nonEvictable slot Y (.clearing Z) =>
      if s.slots slot = some Z then
        some ((s.setSlot slot none).goto i (.evicting call claimed nonEvictable slot Y .cleared))
      else some (s.goto i (.unreachable (Y :: call.locked)))
    | _ => none
  | .countVictim =>
    match s.activity i with
    | .evicting call claimed nonEvictable slot Y .cleared =>
      some ((s.addQueueSize (-1)).goto i (.evicting call claimed nonEvictable slot Y .counted))
    | _ => none
  | .resetVictim =>
    match s.activity i with
    | .evicting call claimed nonEvictable _ Y .counted =>
      some ((s.setWord Y (s.word Y).resetToEvicted).goto i
        (.reserving call (claimed + cfg.pageSize Y) nonEvictable .claiming))
    | _ => none
  | .spill group =>
    match s.activity i with
    | .reserving call claimed nonEvictable .claiming =>
      if cfg.hasSpiller then
        let r := s.spillGroup cfg group
        some (r.1.goto i (.reserving call (claimed + claimedBySpill r.2.1 r.2.2)
          (nonEvictable + r.2.1) (.spilled r.2.2)))
      else none
    | _ => none
  | .countEvictable =>
    match s.activity i with
    | .reserving call claimed nonEvictable (.spilled evictable) =>
      some ((s.addNonEvictable (-evictable)).goto i
        (.reserving call claimed nonEvictable .claiming))
    | _ => none
  | .reserveDone =>
    match s.activity i with
    | .reserving call claimed nonEvictable .crediting =>
      if claimed = 0 then some (s.goto i (.granted call))
      else some ((s.addUsed (-claimed)).goto i (.reserving call claimed nonEvictable .credited))
    | _ => none
  | .reserveFail =>
    match s.activity i with
    | .reserving call claimed nonEvictable .failing =>
      some ((s.addUsed (-(cfg.callSize call + claimed))).goto i
        (.reserving call claimed nonEvictable .refunded))
    | _ => none
  | .creditNonEvictable =>
    match s.activity i with
    | .reserving call _ nonEvictable .credited =>
      some ((s.addNonEvictable (-nonEvictable)).goto i (.granted call))
    | .reserving (.pin X) _ nonEvictable .refunded =>
      some ((s.addNonEvictable (-nonEvictable)).goto i (.failed X))
    | .reserving _ _ nonEvictable .refunded =>
      some ((s.addNonEvictable (-nonEvictable)).goto i .idle)
    | _ => none
  | .findEvicted slot X =>
    match s.activity i with
    | .idle => if (s.word X).state = .evicted then some (s.goto i (.found slot)) else none
    | _ => none
  | .loadFound =>
    match s.activity i with
    | .found slot =>
      match s.slots slot with
      | none => some (s.goto i (.unreachable []))
      | some Z => some (s.goto i (.clearing slot Z))
    | _ => none
  | .clearFound =>
    match s.activity i with
    | .clearing slot Z =>
      if s.slots slot = some Z then some ((s.setSlot slot none).goto i .cleared)
      else some (s.goto i (.unreachable []))
    | _ => none
  | .countCleared =>
    match s.activity i with
    | .cleared => some ((s.addQueueSize (-1)).goto i .idle)
    | _ => none

def step (call : Thread × Action Page Buf) : Option (State Page Thread Buf) :=
  s.stepOf cfg call.1 call.2

end

end

end State

end

end Lbug.Buffer
