/-
  Processor/AggregateHashTable.lean --- the hash table of an aggregation.

  Source: `processor/operator/aggregate/aggregate_hash_table.cpp` and `.h`,
  `include/processor/result/base_hash_table.h`.

  A hash table of groups is an array of slots and a table of entries.  An entry holds
  the values of the key columns, the states of all aggregate functions one behind the
  other, and the hash of the key.  A slot holds a part of the hash, the fingerprint, and
  points to an entry; slots are found by linear probing.  Rows come in vectors, and one
  call of `findHashSlots` finds or makes the entries of a whole vector in rounds.

  The states are bytes: a function sees the bytes at the offset it is given, whichever
  function they belong to.  Offsets are counted from the first state, so that the widths
  of the key columns do not matter.  What an aggregate function has to satisfy is part
  of its type: states keep their size, and combining the states of two inputs is the
  state of both.

  Payload columns, which depend on the key, and the overflow buffers of long values are
  not modelled.  Comparing two values of a key column is equality.
-/
import Lbug.Foundation.LinearProbing

namespace Lbug.Processor

open Foundation

universe u v

/-- The values of the key columns of a row, `none` being a null. -/
abbrev GroupKey (V : Type u) := List (Option V)

/-- An input of an aggregate function: a value, or `none` for a function without an
argument such as `COUNT(*)`, and how often it counts. -/
abbrev Input (V : Type u) := Option V × Nat

/-- The state after some inputs. -/
def foldInputs {V : Type u} {B : Type v} (updatePosState : List B → Option V → Nat → List B)
    (state : List B) (inputs : List (Input V)) : List B :=
  inputs.foldl (fun s x => updatePosState s x.1 x.2) state

/-- An aggregate function on states that are strings of bytes. -/
structure AggregateFunction (V : Type u) (B : Type v) where
  isDistinct : Bool
  initialNullAggregateState : List B
  updatePosState : List B → Option V → Nat → List B
  combineState : List B → List B → List B
  finalizeState : List B → List B
  length_updatePosState : ∀ s x n, (updatePosState s x n).length = s.length
  length_combineState : ∀ s s', (combineState s s').length = s.length
  length_finalizeState : ∀ s, (finalizeState s).length = s.length
  combineState_foldInputs : ∀ xs ys,
    combineState (foldInputs updatePosState initialNullAggregateState xs)
        (foldInputs updatePosState initialNullAggregateState ys) =
      foldInputs updatePosState initialNullAggregateState (xs ++ ys)

variable {V : Type u} {B : Type v}

namespace AggregateFunction

def getAggregateStateSize (f : AggregateFunction V B) : Nat := f.initialNullAggregateState.length

/-- The state of a function after some inputs. -/
def fold (f : AggregateFunction V B) (inputs : List (Input V)) : List B :=
  foldInputs f.updatePosState f.initialNullAggregateState inputs

end AggregateFunction

/-! ## States in an entry -/

/-- The bytes of a state at an offset. -/
def readState (states : List B) (offset size : Nat) : List B := (states.drop offset).take size

/-- Overwrite the bytes at an offset. -/
def writeState (states : List B) (offset : Nat) (state : List B) : List B :=
  states.take offset ++ state ++ states.drop (offset + state.length)

/-- A function updates, at an offset, the state that it takes the bytes there for. -/
def AggregateFunction.updateAt (f : AggregateFunction V B) (offset : Nat) (x : Input V)
    (states : List B) : List B :=
  writeState states offset
    (f.updatePosState (readState states offset f.getAggregateStateSize) x.1 x.2)

structure Entry (V : Type u) (B : Type v) where
  key : GroupKey V
  hash : Nat
  states : List B

/-! ## Slots -/

structure HashSlot where
  fingerprint : Nat
  entry : Nat

/-- The upper 7 of the 64 bits of a hash. -/
def fingerprint (hash : Nat) : Nat := hash / 2 ^ 57

structure HashTable (V : Type u) (B : Type v) where
  maxNumHashSlots : Nat
  slots : Nat → Option HashSlot
  entries : List (Entry V B)

/-- The slots of a block, which is what a new table has. -/
def numHashSlotsPerBlock : Nat := 32768

/-- Rows are processed in vectors of at most this length. -/
def defaultVectorCapacity : Nat := 2048

namespace HashTable

variable (t : HashTable V B)

def empty : HashTable V B where
  maxNumHashSlots := numHashSlotsPerBlock
  slots := fun _ => none
  entries := []

def clear : HashTable V B := { t with slots := fun _ => none, entries := [] }

def getSlotIdxForHash (hash : Nat) : Nat := hash % t.maxNumHashSlots

/-- Append an entry and let a slot point to it. -/
def claim (slotIdx : Nat) (e : Entry V B) : HashTable V B where
  maxNumHashSlots := t.maxNumHashSlots
  slots := Function.update t.slots slotIdx (some ⟨fingerprint e.hash, t.entries.length⟩)
  entries := t.entries ++ [e]

/-- The entry that a slot points to. -/
def entryAt (slotIdx : Nat) : Option (Entry V B) :=
  (t.slots slotIdx).bind fun slot => t.entries[slot.entry]?

/-! ## Finding the entries of a vector of rows

A row is given by the entry that it would make: its key, the hash of the key and initial
states.  Rows are named by their positions in the vector. -/

/-- The first half of a round: a row whose slot is free takes it; the others may match
the entry there if the fingerprint does, and do not match otherwise.  The content of an
entry is looked at in the second half only, so it is filled in at once. -/
def claimSlots (rows : Nat → Entry V B) (slotIdxes : Nat → Nat) :
    List Nat → HashTable V B → HashTable V B × List Nat × List Nat
  | [], t => (t, [], [])
  | idx :: rest, t =>
    match t.slots (slotIdxes idx) with
    | none => claimSlots rows slotIdxes rest (t.claim (slotIdxes idx) (rows idx))
    | some slot =>
      let (t', mayMatch, noMatch) := claimSlots rows slotIdxes rest t
      if slot.fingerprint = fingerprint (rows idx).hash then (t', idx :: mayMatch, noMatch)
      else (t', mayMatch, idx :: noMatch)

variable [DecidableEq V]

/-- Whether a row agrees with the entry of its slot in a key column; nulls are equal. -/
def matchesColumn (rows : Nat → Entry V B) (slotIdxes : Nat → Nat) (colIdx idx : Nat) : Bool :=
  match t.entryAt (slotIdxes idx) with
  | none => false
  | some e => e.key[colIdx]? = (rows idx).key[colIdx]?

/-- The second half of a round: the rows that may match are compared column by column,
and those that differ join the ones that do not match. -/
def matchFTEntries (rows : Nat → Entry V B) (slotIdxes : Nat → Nat) :
    List Nat → List Nat → List Nat → List Nat
  | [], _, noMatch => noMatch
  | colIdx :: colIdxes, mayMatch, noMatch =>
    matchFTEntries rows slotIdxes colIdxes
      (mayMatch.filter fun idx => t.matchesColumn rows slotIdxes colIdx idx)
      (noMatch ++ mayMatch.filter fun idx => !t.matchesColumn rows slotIdxes colIdx idx)

/-- The rounds: rows that did not match go on with the next slot.  The first argument
bounds the number of rounds. -/
def findHashSlotsLoop (numKeys : Nat) (rows : Nat → Entry V B) :
    Nat → List Nat → (Nat → Nat) → HashTable V B → Option (HashTable V B × (Nat → Nat))
  | _, [], slotIdxes, t => some (t, slotIdxes)
  | 0, _ :: _, _, _ => none
  | fuel + 1, idx :: rest, slotIdxes, t =>
    let (t', mayMatch, noMatch) := claimSlots rows slotIdxes (idx :: rest) t
    let noMatch := t'.matchFTEntries rows slotIdxes (List.range numKeys) mayMatch noMatch
    findHashSlotsLoop numKeys rows fuel noMatch
      (fun i => if i ∈ noMatch then (slotIdxes i + 1) % t.maxNumHashSlots else slotIdxes i) t'

/-- Find or make the entries of the rows at the given positions; the result gives the
slot of each. -/
def findHashSlots (numKeys : Nat) (rows : Nat → Entry V B) (positions : List Nat) :
    Option (HashTable V B × (Nat → Nat)) :=
  findHashSlotsLoop numKeys rows t.maxNumHashSlots positions
    (fun idx => t.getSlotIdxForHash (rows idx).hash) t

/-- `findEntry`: walk from the slot of the hash to the entry of a key.  The first argument
bounds the number of steps. -/
def findEntryLoop (key : GroupKey V) (hash : Nat) : Nat → Nat → Option Nat
  | 0, _ => none
  | fuel + 1, slotIdx =>
    match t.slots slotIdx with
    | none => none
    | some slot =>
      if slot.fingerprint = fingerprint hash ∧
          (t.entries[slot.entry]?).map (·.key) = some key then some slot.entry
      else findEntryLoop key hash fuel ((slotIdx + 1) % t.maxNumHashSlots)

def findEntry (key : GroupKey V) (hash : Nat) : Option Nat :=
  t.findEntryLoop key hash t.maxNumHashSlots (t.getSlotIdxForHash hash)

/-! ## Growing -/

/-- `fillHashSlot`: let the first free slot of the walk point to an entry. -/
def fillHashSlot (maxNumHashSlots : Nat) (hash entry : Nat) :
    Nat → Nat → (Nat → Option HashSlot) → Option (Nat → Option HashSlot)
  | 0, _, _ => none
  | fuel + 1, slotIdx, slots =>
    match slots slotIdx with
    | none => some (Function.update slots slotIdx (some ⟨fingerprint hash, entry⟩))
    | some _ =>
      fillHashSlot maxNumHashSlots hash entry fuel ((slotIdx + 1) % maxNumHashSlots) slots

/-- Fill in slots for entries, the first of which has the given number. -/
def fillHashSlots (maxNumHashSlots : Nat) :
    List (Entry V B) → Nat → (Nat → Option HashSlot) → Option (Nat → Option HashSlot)
  | [], _, slots => some slots
  | e :: rest, entry, slots =>
    (fillHashSlot maxNumHashSlots e.hash entry maxNumHashSlots (e.hash % maxNumHashSlots)
      slots).bind fun slots => fillHashSlots maxNumHashSlots rest (entry + 1) slots

def resize (newSize : Nat) : Option (HashTable V B) :=
  (fillHashSlots newSize t.entries 0 fun _ => none).map fun slots =>
    { t with maxNumHashSlots := newSize, slots := slots }

/-- Whether more rows would exceed the slots, or the load factor of 1.5. -/
def outOfSpace (newNumTuples : Nat) : Bool :=
  t.entries.length + newNumTuples > t.maxNumHashSlots ∨
    3 * (t.entries.length + newNumTuples) > 2 * t.maxNumHashSlots

def resizeHashTableIfNecessary (maxNumDistinctHashKeys : Nat) : Option (HashTable V B) :=
  if t.outOfSpace maxNumDistinctHashKeys then
    t.resize (3 * max (t.entries.length + maxNumDistinctHashKeys) t.maxNumHashSlots / 2)
  else some t

/-! ## States -/

/-- Change the states of an entry. -/
def updateStates (entry : Nat) (g : List B → List B) : HashTable V B :=
  { t with entries := t.entries.modify entry fun e => { e with states := g e.states } }

/-- Change the states of the entry that a slot points to. -/
def updateSlotStates (slotIdx : Nat) (g : List B → List B) : HashTable V B :=
  match t.slots slotIdx with
  | none => t
  | some slot => t.updateStates slot.entry g

end HashTable

/-- The initial states of all functions. -/
def initialStates (fs : List (AggregateFunction V B)) : List B :=
  (fs.map (·.initialNullAggregateState)).flatten

/-! ## Vectors of rows -/

/-- The vector of a function's argument: none, a flat one, one in the state of the keys, or
an unflat one of its own, of which the selected positions are given. -/
inductive AggregateVector (V : Type u) where
  | none
  | flat (value : Option V)
  | same (values : Nat → Option V)
  | other (positions : List Nat) (values : Nat → Option V)

structure AggregateInput (V : Type u) where
  aggregateVector : AggregateVector V
  multiplicityChunks : List Nat

/-- The rows of one call of `append`: the selected positions of the leading state, the keys
at every position (a flat key vector has one value), and an input for each function. -/
structure Chunk (V : Type u) where
  isFlat : Bool
  positions : List Nat
  keyAt : Nat → GroupKey V
  inputs : List (AggregateInput V)
  resultSetMultiplicity : Nat

/-- The positions that a function is updated at, with the values it takes: the six cases
of `updateAggState`.  Nulls are left out. -/
def AggregateVector.updates (positions : List Nat) : AggregateVector V → List (Nat × Option V)
  | .none => positions.map fun p => (p, Option.none)
  | .flat value => value.elim [] fun v => positions.map fun p => (p, some v)
  | .same values => positions.filterMap fun p => (values p).map fun v => (p, some v)
  | .other others values =>
    positions.flatMap fun p => others.filterMap fun q => (values q).map fun v => (p, some v)

/-- The rows of the distinct table: the keys with the argument as one more key. -/
def AggregateVector.distinctKeys (positions : List Nat) (keyAt : Nat → GroupKey V) :
    AggregateVector V → List (GroupKey V)
  | .none => []
  | .flat value => positions.map fun p => keyAt p ++ [value]
  | .same values => positions.map fun p => keyAt p ++ [values p]
  | .other others values => others.map fun q => keyAt q ++ [values q]

def AggregateInput.multiplicity (a : AggregateInput V) (resultSetMultiplicity : Nat) : Nat :=
  a.multiplicityChunks.foldl (· * ·) resultSetMultiplicity

namespace HashTable

/-- Update the states of one function, at an offset. -/
def updateAggState (t : HashTable V B) (slotIdxes : Nat → Nat) (f : AggregateFunction V B)
    (updates : List (Nat × Option V)) (multiplicity offset : Nat) : HashTable V B :=
  updates.foldl (fun t u => t.updateSlotStates (slotIdxes u.1)
    (f.updateAt offset (u.2, multiplicity))) t

variable [DecidableEq V]

/-- `append` of rows to a table without aggregate functions, as the distinct tables are. -/
def appendKeys (t : HashTable V B) (hashKey : GroupKey V → Nat) (numKeys : Nat)
    (keys : List (GroupKey V)) : Option (HashTable V B) :=
  (t.resizeHashTableIfNecessary keys.length).bind fun t =>
    (t.findHashSlots numKeys (fun idx => let key := (keys[idx]?).getD []
        { key := key, hash := hashKey key, states := [] })
      (List.range keys.length)).map Prod.fst

end HashTable

/-- Update the states of the functions that are not distinct, and put the inputs of the
others into their tables.  The offset moves on for the former only.  Every function has a
table here; that of a function that is not distinct is not used. -/
def updateAggStates [DecidableEq V] (hashKey : GroupKey V → Nat) (numKeys : Nat) (c : Chunk V)
    (slotIdxes : Nat → Nat) :
    List (AggregateFunction V B) → List (AggregateInput V) → List (HashTable V B) → Nat →
      HashTable V B → Option (HashTable V B × List (HashTable V B))
  | f :: fs, a :: inputs, d :: distincts, offset, t =>
    if f.isDistinct then do
      let keys := a.aggregateVector.distinctKeys c.positions c.keyAt
      let d ← d.appendKeys hashKey (numKeys + 1) keys
      let (t, distincts) ← updateAggStates hashKey numKeys c slotIdxes fs inputs distincts offset t
      return (t, d :: distincts)
    else do
      let t := t.updateAggState slotIdxes f (a.aggregateVector.updates c.positions)
        (a.multiplicity c.resultSetMultiplicity) offset
      let (t, distincts) ← updateAggStates hashKey numKeys c slotIdxes fs inputs distincts
        (offset + f.getAggregateStateSize) t
      return (t, d :: distincts)
  | _, _, distincts, _, t => some (t, distincts)

/-! ## Merging -/

/-- Combine, for the functions that are not distinct, the states of tuples into the
entries of their slots.  The offset moves on for every function. -/
def combineStates (slotIdxes : Nat → Nat) (tuples : List (Entry V B)) :
    List (AggregateFunction V B) → Nat → HashTable V B → HashTable V B
  | [], _, t => t
  | f :: fs, offset, t =>
    let size := f.getAggregateStateSize
    let t :=
      if f.isDistinct then t
      else tuples.zipIdx.foldl (fun t p => t.updateSlotStates (slotIdxes p.2) fun states =>
        writeState states offset
          (f.combineState (readState states offset size) (readState p.1.states offset size))) t
    combineStates slotIdxes tuples fs (offset + size) t

/-- Cut a table of tuples into vectors. -/
def vectors {α : Type u} : Nat → List α → List (List α)
  | 0, _ => []
  | _ + 1, [] => []
  | fuel + 1, a :: rest =>
    (a :: rest).take defaultVectorCapacity :: vectors fuel ((a :: rest).drop defaultVectorCapacity)

namespace HashTable

variable [DecidableEq V]

/-- Merge a vector of tuples. -/
def mergeVector (fs : List (AggregateFunction V B)) (numKeys : Nat) (t : HashTable V B)
    (tuples : List (Entry V B)) : Option (HashTable V B) :=
  (t.findHashSlots numKeys
    (fun idx => ((tuples[idx]?).map fun e => { e with states := initialStates fs }).getD
      { key := [], hash := 0, states := [] })
    (List.range tuples.length)).map fun r => combineStates r.2 tuples fs 0 r.1

/-- `merge`: the tuples of a block of a queue. -/
def merge (fs : List (AggregateFunction V B)) (numKeys : Nat) (t : HashTable V B)
    (tuples : List (Entry V B)) : Option (HashTable V B) :=
  (t.resizeHashTableIfNecessary tuples.length).bind fun t =>
    (vectors tuples.length tuples).foldlM (mergeVector fs numKeys) t

/-- Update one function with the tuples of its distinct table, in the group of each; null
arguments are left out. -/
def mergeDistinctTable (hashKey : GroupKey V → Nat) (f : AggregateFunction V B) (offset : Nat)
    (tuples : List (Entry V B)) (t : HashTable V B) : Option (HashTable V B) :=
  tuples.foldlM (fun t e =>
    match e.key.getLast?.join with
    | none => some t
    | some v =>
      (t.findEntry e.key.dropLast (hashKey e.key.dropLast)).map fun entry =>
        t.updateStates entry (f.updateAt offset (some v, 1))) t

def mergeDistinctAggregateInfo (hashKey : GroupKey V → Nat) :
    List (AggregateFunction V B) → List (HashTable V B) → Nat → HashTable V B →
      Option (HashTable V B)
  | f :: fs, d :: distincts, offset, t =>
    (if f.isDistinct then t.mergeDistinctTable hashKey f offset d.entries else some t).bind
      fun t => mergeDistinctAggregateInfo hashKey fs distincts (offset + f.getAggregateStateSize) t
  | _, _, _, t => some t

end HashTable

/-- Finalize the states of all functions in an entry. -/
def finalizeStates : List (AggregateFunction V B) → Nat → List B → List B
  | [], _, states => states
  | f :: fs, offset, states =>
    finalizeStates fs (offset + f.getAggregateStateSize) (writeState states offset
        (f.finalizeState (readState states offset f.getAggregateStateSize)))

def HashTable.finalizeAggregateStates (fs : List (AggregateFunction V B)) (t : HashTable V B) :
    HashTable V B :=
  { t with entries := t.entries.map fun e => { e with states := finalizeStates fs 0 e.states } }

end Lbug.Processor
