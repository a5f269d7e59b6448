/-
  Buffer/Transitions.lean --- what each step of the buffer manager does.

  `Transition` lists the steps with their conditions and the states they lead to;
  `transition_of_stepOf` reads the step function as it.  The results about pages, memory
  and the queue go through these cases.
-/
import Lbug.Buffer.BufferManager

namespace Lbug.Buffer

variable {Page Thread Buf : Type} [DecidableEq Page] [DecidableEq Thread] [DecidableEq Buf]

variable (cfg : Config Page) (s : State Page Thread Buf) (i : Thread)

/-- The steps of thread `i`.  `X`, `Y` and `Z` are pages, `b` is a buffer, and `c` and `n` are
what a call has claimed so far, all of it and of the memory that cannot be evicted. -/
inductive Transition : Action Page Buf → State Page Thread Buf → Prop
  | pinUnlocked {X} (hidle : s.activity i = .idle) (hstate : (s.word X).state = .unlocked) :
      Transition (.pinCached X) ((s.setWord X (s.word X).lock).goto i (.pinned X))
  | pinMarked {X} (hidle : s.activity i = .idle) (hstate : (s.word X).state = .marked) :
      Transition (.pinCached X) ((s.setWord X (s.word X).lock).goto i (.pinned X))
  | pinEvicted {X} (hidle : s.activity i = .idle) (hstate : (s.word X).state = .evicted) :
      Transition (.pinEvicted X) ((s.setWord X (s.word X).lock).goto i (.locked X))
  | startPin {X} (hlocked : s.activity i = .locked X) :
      Transition .startPin ((s.addUsed (cfg.pageSize X)).goto i (.reserving (.pin X) 0 0 .checking))
  | load {X} (hgranted : s.activity i = .granted (.pin X)) :
      Transition .load
        ((((s.setWord X (s.word X).clearDirty).changeFrame X).setResident X true).goto i
          (.loaded X))
  | insert {slot X} (hloaded : s.activity i = .loaded X) (hempty : s.slots slot = none)
      (hslot : slot < cfg.queueCapacity) :
      Transition (.insert slot) ((s.setSlot slot (some X)).goto i (.inserted X))
  | insertFull {X} (hloaded : s.activity i = .loaded X) (hfull : ¬s.queueSize < cfg.queueCapacity) :
      Transition .insertFull (s.goto i (.queueFull X))
  | countInserted {X} (hinserted : s.activity i = .inserted X) :
      Transition .countInserted ((s.addQueueSize 1).goto i (.pinned X))
  | resetFailed {X} (hfailed : s.activity i = .failed X) :
      Transition .resetFailed ((s.setWord X (s.word X).resetToEvicted).goto i .idle)
  | writePinned {X} (hpinned : s.activity i = .pinned X) :
      Transition .write ((s.setWord X (s.word X).setDirty).changeFrame X)
  | writeBuffered {b X} (hbuffered : s.activity i = .buffered b X) :
      Transition .write ((s.setWord X (s.word X).setDirty).changeFrame X)
  | unpin {X} (hpinned : s.activity i = .pinned X) :
      Transition .unpin ((s.setWord X (s.word X).unlock).goto i .idle)
  | startRead {X} (hidle : s.activity i = .idle) (hstate : (s.word X).state = .unlocked) :
      Transition (.startRead X) (s.goto i (.reading X (s.word X) (s.frame X)))
  | endRead {X w f} (hreading : s.activity i = .reading X w f) :
      Transition .endRead (s.goto i .idle)
  | clearMark {X} (hidle : s.activity i = .idle) (hstate : (s.word X).state = .marked) :
      Transition (.clearMark X) (s.setWord X (s.word X).unlockUnchanged)
  | checkRemove {X} (hidle : s.activity i = .idle) (hcached : ¬(s.word X).state = .evicted) :
      Transition (.checkRemove X) (s.goto i (.removing X .checked))
  | lockRemove {X} (hchecked : s.activity i = .removing X .checked) :
      Transition .lockRemove ((s.setWord X (s.word X).lock).goto i (.removing X .locked))
  | releaseRemove {X} (hlocked : s.activity i = .removing X .locked) :
      Transition .releaseRemove ((s.releaseFrame X).goto i (.removing X .released))
  | freeRemove {X} (hreleased : s.activity i = .removing X .released) :
      Transition .freeRemove ((s.addUsed (-cfg.pageSize X)).goto i (.removing X .freed))
  | resetRemove {X} (hfreed : s.activity i = .removing X .freed) :
      Transition .resetRemove ((s.setWord X (s.word X).resetToEvicted).goto i .idle)
  | lockUpdate {X} (hidle : s.activity i = .idle) (hcached : ¬(s.word X).state = .evicted) :
      Transition (.lockUpdate X) ((s.setWord X (s.word X).lock).goto i (.updating X))
  | copyUpdate {X} (hupdating : s.activity i = .updating X) :
      Transition .copyUpdate (s.changeFrame X)
  | unlockUpdate {X} (hupdating : s.activity i = .updating X) :
      Transition .unlockUpdate ((s.setWord X (s.word X).unlock).goto i .idle)
  | startMalloc {b size} (hidle : s.activity i = .idle) (hbuffer : s.buffers b = .unallocated) :
      Transition (.startMalloc b size)
        ((s.addUsed size).goto i (.reserving (.malloc b size) 0 0 .checking))
  | startReload {b size} (hidle : s.activity i = .idle) (hbuffer : s.buffers b = .spilled size) :
      Transition (.startReload b)
        ((s.addUsed size).goto i (.reserving (.reload b size) 0 0 .checking))
  | startReloadPage {b X} (hidle : s.activity i = .idle) (hbuffer : s.buffers b = .spilledPage X) :
      Transition (.startReload b) ((s.addUsed (cfg.pageSize X)).goto i
          (.reserving (.reload b (cfg.pageSize X)) 0 0 .checking))
  | finishMalloc {b size} (hgranted : s.activity i = .granted (.malloc b size))
      (hbuffer : s.buffers b = .unallocated) :
      Transition .finishMalloc
        (((s.addNonEvictable size).setBuffer b (.malloced size)).goto i .idle)
  | finishReload {b size} (hgranted : s.activity i = .granted (.reload b size))
      (hbuffer : s.buffers b = .spilled size) :
      Transition .finishMalloc
        (((s.addNonEvictable size).setBuffer b (.malloced size)).goto i .idle)
  | finishReloadPage {b size X}
      (hgranted : s.activity i = .granted (.reload b size)) (hbuffer : s.buffers b = .spilledPage X)
      (hsize : cfg.pageSize X = size) :
      Transition .finishMalloc
        (((s.addNonEvictable size).setBuffer b (.reloadedPage X)).goto i .idle)
  | freeMalloced {b size} (hidle : s.activity i = .idle) (hbuffer : s.buffers b = .malloced size) :
      Transition (.freeMalloced b) ((s.setBuffer b .unallocated).goto i (.freeing size))
  | freeUsed {size} (hfreeing : s.activity i = .freeing size) :
      Transition .freeUsed ((s.addUsed (-size)).goto i (.freed size))
  | freeNonEvictable {size} (hfreed : s.activity i = .freed size) :
      Transition .freeNonEvictable ((s.addNonEvictable (-size)).goto i .idle)
  | allocPaged {b X} (hpinned : s.activity i = .pinned X) (hbuffer : s.buffers b = .unallocated) :
      Transition (.allocPaged b) ((s.setBuffer b (.paged i X)).goto i (.buffered b X))
  | freePaged {b X} (hbuffered : s.activity i = .buffered b X) :
      Transition .freePaged
        (((s.setWord X (s.word X).unlock).setBuffer b .unallocated).goto i .idle)
  | freeReloaded {b X} (hidle : s.activity i = .idle) (hbuffer : s.buffers b = .reloadedPage X) :
      Transition (.freeReloaded b) ((s.setWord X (s.word X).unlock).setBuffer b .unallocated)
  | needMemory {call c n} (hreserving : s.activity i = .reserving call c n .checking)
      (hneed : s.needMoreMemory cfg call c = true) :
      Transition .checkMemory (s.goto i (.reserving call c n .claiming))
  | enoughMemory {call c n} (hreserving : s.activity i = .reserving call c n .checking)
      (hneed : ¬s.needMoreMemory cfg call c = true) :
      Transition .checkMemory (s.goto i (.reserving call c n .crediting))
  | checkAgain {call c n} (hreserving : s.activity i = .reserving call c n .claiming) :
      Transition .checkAgain (s.goto i (.reserving call c n .checking))
  | giveUp {call c n} (hreserving : s.activity i = .reserving call c n .claiming)
      (hneed : s.needMoreMemory cfg call c = true) :
      Transition .giveUp (s.goto i (.reserving call c n .failing))
  | mark {Y call c n}
      (hreserving : s.activity i = .reserving call c n .claiming)
      (hstate : (s.word Y).state = .unlocked) :
      Transition (.mark Y) (s.setWord Y ((s.word Y).updateStateWithSameVersion .marked))
  | lockStale {slot Y call c n}
      (hreserving : s.activity i = .reserving call c n .claiming)
      (hstate : (s.word Y).state = .evicted) :
      Transition (.lockStale slot Y)
        ((s.setWord Y (s.word Y).lock).goto i (.evicting call c n slot Y .stale))
  | clearStale {slot Y call c n}
      (hstale : s.activity i = .evicting call c n slot Y .stale) (hslot : s.slots slot = some Y) :
      Transition .clearStale
        ((s.setSlot slot none).goto i (.evicting call c n slot Y (.staleCleared true)))
  | keepStale {slot Y call c n}
      (hstale : s.activity i = .evicting call c n slot Y .stale) (hslot : ¬s.slots slot = some Y) :
      Transition .clearStale (s.goto i (.evicting call c n slot Y (.staleCleared false)))
  | countStale {slot Y call c n cleared}
      (hstale : s.activity i = .evicting call c n slot Y (.staleCleared cleared)) :
      Transition .countStale ((s.addQueueSize (State.sizeChange cleared)).goto i
          (.evicting call c n slot Y .staleCounted))
  | resetStale {slot Y call c n} (hstale : s.activity i = .evicting call c n slot Y .staleCounted) :
      Transition .resetStale
        ((s.setWord Y (s.word Y).resetToEvicted).goto i (.reserving call c n .claiming))
  | lockVictim {slot Y call c n}
      (hreserving : s.activity i = .reserving call c n .claiming)
      (hstate : (s.word Y).state = .marked) :
      Transition (.lockVictim slot Y)
        ((s.setWord Y (s.word Y).lock).goto i (.evicting call c n slot Y .victim))
  | abortVictim {slot Y call c n} (hvictim : s.activity i = .evicting call c n slot Y .victim)
      (hother : ¬(s.slots slot = some Y ∧ cfg.isInMemoryMode Y = false)) :
      Transition .abortVictim
        ((s.setWord Y (s.word Y).unlockUnchanged).goto i (.reserving call c n .claiming))
  | releaseVictim {slot Y call c n} (hvictim : s.activity i = .evicting call c n slot Y .victim)
      (hslot : s.slots slot = some Y ∧ cfg.isInMemoryMode Y = false) :
      Transition .releaseVictim ((s.releaseFrame Y).goto i (.evicting call c n slot Y .released))
  | loadVictim {slot Y Z call c n} (hreleased : s.activity i = .evicting call c n slot Y .released)
      (hslot : s.slots slot = some Z) :
      Transition .loadVictim (s.goto i (.evicting call c n slot Y (.clearing Z)))
  | loadVictimEmpty {slot Y call c n}
      (hreleased : s.activity i = .evicting call c n slot Y .released)
      (hslot : s.slots slot = none) :
      Transition .loadVictim (s.goto i (.unreachable (Y :: call.locked)))
  | clearVictim {slot Y Z call c n}
      (hclearing : s.activity i = .evicting call c n slot Y (.clearing Z))
      (hslot : s.slots slot = some Z) :
      Transition .clearVictim ((s.setSlot slot none).goto i (.evicting call c n slot Y .cleared))
  | clearVictimOther {slot Y Z call c n}
      (hclearing : s.activity i = .evicting call c n slot Y (.clearing Z))
      (hslot : ¬s.slots slot = some Z) :
      Transition .clearVictim (s.goto i (.unreachable (Y :: call.locked)))
  | countVictim {slot Y call c n} (hcleared : s.activity i = .evicting call c n slot Y .cleared) :
      Transition .countVictim ((s.addQueueSize (-1)).goto i (.evicting call c n slot Y .counted))
  | resetVictim {slot Y call c n} (hcounted : s.activity i = .evicting call c n slot Y .counted) :
      Transition .resetVictim ((s.setWord Y (s.word Y).resetToEvicted).goto i
          (.reserving call (c + cfg.pageSize Y) n .claiming))
  | spill {group call c n}
      (hreserving : s.activity i = .reserving call c n .claiming)
      (hspiller : cfg.hasSpiller = true) :
      Transition (.spill group) ((s.spillGroup cfg group).1.goto i
          (.reserving call (c + State.claimedBySpill (s.spillGroup cfg group).2.1
            (s.spillGroup cfg group).2.2) (n + (s.spillGroup cfg group).2.1)
            (.spilled (s.spillGroup cfg group).2.2)))
  | countEvictable {call c n evictable}
      (hreserving : s.activity i = .reserving call c n (.spilled evictable)) :
      Transition .countEvictable
        ((s.addNonEvictable (-evictable)).goto i (.reserving call c n .claiming))
  | reserveDone {call c n}
      (hreserving : s.activity i = .reserving call c n .crediting) (hclaimed : ¬c = 0) :
      Transition .reserveDone ((s.addUsed (-c)).goto i (.reserving call c n .credited))
  | reserveAtOnce {call n} (hreserving : s.activity i = .reserving call 0 n .crediting) :
      Transition .reserveDone (s.goto i (.granted call))
  | credit {call c n} (hreserving : s.activity i = .reserving call c n .credited) :
      Transition .creditNonEvictable ((s.addNonEvictable (-n)).goto i (.granted call))
  | reserveFail {call c n} (hreserving : s.activity i = .reserving call c n .failing) :
      Transition .reserveFail
        ((s.addUsed (-(cfg.callSize call + c))).goto i (.reserving call c n .refunded))
  | failPin {X c n} (hreserving : s.activity i = .reserving (.pin X) c n .refunded) :
      Transition .creditNonEvictable ((s.addNonEvictable (-n)).goto i (.failed X))
  | failOther {call c n} (hreserving : s.activity i = .reserving call c n .refunded)
      (hother : ∀ X, call = .pin X → False) :
      Transition .creditNonEvictable ((s.addNonEvictable (-n)).goto i .idle)
  | findEvicted {slot X} (hidle : s.activity i = .idle) (hstate : (s.word X).state = .evicted) :
      Transition (.findEvicted slot X) (s.goto i (.found slot))
  | loadFound {slot Z} (hfound : s.activity i = .found slot) (hslot : s.slots slot = some Z) :
      Transition .loadFound (s.goto i (.clearing slot Z))
  | loadFoundEmpty {slot} (hfound : s.activity i = .found slot) (hslot : s.slots slot = none) :
      Transition .loadFound (s.goto i (.unreachable []))
  | clearFound {slot Z} (hclearing : s.activity i = .clearing slot Z)
      (hslot : s.slots slot = some Z) :
      Transition .clearFound ((s.setSlot slot none).goto i .cleared)
  | clearFoundOther {slot Z} (hclearing : s.activity i = .clearing slot Z)
      (hslot : ¬s.slots slot = some Z) :
      Transition .clearFound (s.goto i (.unreachable []))
  | countCleared (hcleared : s.activity i = .cleared) :
      Transition .countCleared ((s.addQueueSize (-1)).goto i .idle)

variable {cfg s i} in
/-- A step of the step function is one of the transitions. -/
theorem transition_of_stepOf {s' : State Page Thread Buf} {act : Action Page Buf}
    (hs : s.stepOf cfg i act = some s') : Transition cfg s i act s' := by
  cases act <;> dsimp only [State.stepOf] at hs <;> (repeat' split at hs) <;> first
    | (cases hs; done)
    | (cases hs; subst_vars
       first
       -- the second step of those that share an action and the form of their result
       | exact .pinMarked ‹_› ‹_›
       | exact .writeBuffered ‹_›
       | exact .startReloadPage ‹_› ‹_›
       | exact .finishReload ‹_› ‹_›
       | exact .finishReloadPage ‹_› ‹_› rfl
       | constructor <;> assumption)

end Lbug.Buffer
