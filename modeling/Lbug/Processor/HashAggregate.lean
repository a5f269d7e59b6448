/-
  Processor/HashAggregate.lean --- the hash aggregation operator.

  Source: `PartitioningAggregateHashTable` in `aggregate_hash_table.cpp`,
  `hash_aggregate.cpp` and `.h`, `base_aggregate.cpp`.

  Every thread aggregates its rows in a table of its own.  When the table is full, and at
  the end, its entries go to queues, one for each partition of the hashes; the tables of
  distinct inputs go to queues of their own, in the partition of the group.  When all
  threads are done, the queues of each partition are merged into one table.

  Threads append to a queue concurrently, and blocks of tuples leave it in an order of
  its own.  A queue is therefore the list of its tuples in the order of arrival, and a
  merge takes them in any order and cut into any blocks.
-/
import Mathlib.Data.Nat.Size
import Lbug.Processor.AggregateUpdates

namespace Lbug.Processor

open Foundation

universe u v

variable {V : Type u} {B : Type v}

/-- What the operator is made for: its functions, the hash of keys, the number of key
columns and the number of partitions. -/
structure AggregatePlan (V : Type u) (B : Type v) where
  functions : List (AggregateFunction V B)
  hashKey : GroupKey V → Nat
  numKeys : Nat
  numPartitions : Nat
  numPartitions_pos : 0 < numPartitions

variable (P : AggregatePlan V B)

/-- The partition of a hash, by its upper bits. -/
def AggregatePlan.partitionOf (hash : Nat) : Nat :=
  hash / 2 ^ (64 - Nat.size (P.numPartitions - 1)) % P.numPartitions

/-- `PartitioningAggregateHashTable`: the table of a thread, with a table of distinct
inputs for each function. -/
structure LocalTable (V : Type u) (B : Type v) where
  main : HashTable V B
  distincts : List (HashTable V B)

/-- The queues of the partitions: for groups, and for the distinct inputs of a function. -/
structure SharedState (V : Type u) (B : Type v) where
  queue : Nat → List (Entry V B)
  distinctTableQueues : Nat → Nat → List (Entry V B)

/-- Append tuples to the queues of their partitions. -/
def appendTuples (partition : Entry V B → Nat) (queue : Nat → List (Entry V B))
    (tuples : List (Entry V B)) : Nat → List (Entry V B) :=
  tuples.foldl (fun q e => Function.update q (partition e) (q (partition e) ++ [e])) queue

/-- The partition of a tuple of distinct inputs: that of its group. -/
def AggregatePlan.distinctPartition (e : Entry V B) : Nat :=
  P.partitionOf (P.hashKey e.key.dropLast)

/-- Move the tables of distinct inputs that are full, or all of them, to their queues. -/
def mergeDistinctsIfFull (tuplesToAdd : Nat) (mergeAll : Bool) :
    List (AggregateFunction V B) → List (HashTable V B) → (Nat → Nat → List (Entry V B)) →
      Nat → List (HashTable V B) × (Nat → Nat → List (Entry V B))
  | f :: fs, d :: distincts, queues, i =>
    if f.isDistinct && (mergeAll || d.outOfSpace tuplesToAdd) then
      let (distincts, queues) := mergeDistinctsIfFull tuplesToAdd mergeAll fs distincts
        (Function.update queues i (appendTuples P.distinctPartition (queues i) d.entries)) (i + 1)
      (d.clear :: distincts, queues)
    else
      let (distincts, queues) := mergeDistinctsIfFull tuplesToAdd mergeAll fs distincts queues
        (i + 1)
      (d :: distincts, queues)
  | _, distincts, queues, _ => (distincts, queues)

def LocalTable.mergeIfFull (tuplesToAdd : Nat) (mergeAll : Bool)
    (l : LocalTable V B) (s : SharedState V B) : LocalTable V B × SharedState V B :=
  let (main, queue) :=
    if mergeAll || l.main.outOfSpace tuplesToAdd then
      (l.main.clear, appendTuples (fun e => P.partitionOf e.hash) s.queue l.main.entries)
    else (l.main, s.queue)
  let (distincts, queues) := mergeDistinctsIfFull P tuplesToAdd mergeAll P.functions l.distincts
    s.distinctTableQueues 0
  (⟨main, distincts⟩, ⟨queue, queues⟩)

section Append

variable [DecidableEq V]

/-- The part of `append` behind `mergeIfFull`. -/
def LocalTable.appendRows (l : LocalTable V B) (c : Chunk V) : Option (LocalTable V B) :=
  (l.main.findHashSlots P.numKeys
    (fun p => { key := c.keyAt p, hash := P.hashKey (c.keyAt p),
                states := initialStates P.functions }) c.positions).bind fun r =>
    (updateAggStates P.hashKey P.numKeys c r.2 P.functions c.inputs l.distincts 0 r.1).map
      fun r => ⟨r.1, r.2⟩

def LocalTable.append (l : LocalTable V B) (s : SharedState V B)
    (c : Chunk V) : Option (LocalTable V B × SharedState V B) :=
  let (l, s) := l.mergeIfFull P c.positions.length false s
  (l.appendRows P c).map fun l => (l, s)

/-! ## Threads -/

structure HashAggregate (V : Type u) (B : Type v) where
  locals : List (LocalTable V B)
  shared : SharedState V B

/-- A thread appends a chunk of rows, or it is done and moves all it has to the queues. -/
inductive AggregateAction (V : Type u) where
  | append (thread : Nat) (chunk : Chunk V)
  | finish (thread : Nat)

namespace HashAggregate

def init (numThreads : Nat) : HashAggregate V B where
  locals := List.replicate numThreads ⟨.empty, P.functions.map fun _ => .empty⟩
  shared := ⟨fun _ => [], fun _ _ => []⟩

def step (s : HashAggregate V B) : AggregateAction V → Option (HashAggregate V B)
  | .append thread chunk =>
    (s.locals[thread]?).bind fun l => (l.append P s.shared chunk).map fun r =>
      ⟨s.locals.set thread r.1, r.2⟩
  | .finish thread =>
    (s.locals[thread]?).map fun l =>
      let r := l.mergeIfFull P 0 true s.shared
      ⟨s.locals.set thread r.1, r.2⟩

def run (s : HashAggregate V B) (actions : List (AggregateAction V)) : Option (HashAggregate V B) :=
  actions.foldlM (step P) s

end HashAggregate

/-! ## The partitions -/

/-- Merge the queues of distinct inputs, from a function on. -/
def mergeDistinctQueues (blocks : Nat → List (List (Entry V B))) :
    List (AggregateFunction V B) → Nat → Option (List (HashTable V B))
  | [], _ => some []
  | f :: fs, i => do
    let d ← if f.isDistinct then (blocks i).foldlM (HashTable.merge [] (P.numKeys + 1)) .empty
      else some .empty
    let distincts ← mergeDistinctQueues blocks fs (i + 1)
    return d :: distincts

/-- `finalizePartitions` for one partition; the queues are given as the blocks that leave
them. -/
def finalizePartition (blocks : List (List (Entry V B)))
    (distinctBlocks : Nat → List (List (Entry V B))) : Option (HashTable V B) := do
  let distincts ← mergeDistinctQueues P distinctBlocks P.functions 0
  let main ← blocks.foldlM (HashTable.merge P.functions P.numKeys) .empty
  let main ← main.mergeDistinctAggregateInfo P.hashKey P.functions distincts 0
  return main.finalizeAggregateStates P.functions

/-- `finalizePartitions`: one table for each partition. -/
def finalizePartitions (blocks : Nat → List (List (Entry V B)))
    (distinctBlocks : Nat → Nat → List (List (Entry V B))) : Option (List (HashTable V B)) :=
  (List.range P.numPartitions).mapM fun p => finalizePartition P (blocks p) (distinctBlocks p)

end Append

end Lbug.Processor
