/-
  Processor/AggregateHistory.lean --- what a hash aggregation returns.

  Over every run of the threads the inputs of a group are in the tables of the threads
  and in the queue of its partition: each once for the functions that are not distinct
  (`GroupsInv`), at least once for the others (`DistinctInv`).  Merging the queues then
  gives one entry for each group, and the state of each function after all inputs of the
  group.  This needs that no function that is not distinct comes behind a distinct one;
  otherwise its state is updated in the wrong place.
-/
import Lbug.Foundation.Sums
import Mathlib.Algebra.Order.Group.Multiset
import Lbug.Processor.HashAggregate

namespace Lbug.Processor

open Foundation List Function HashTable LocalTable

universe u v

variable {V : Type u} {B : Type v}

/-- A chunk as the planner makes it for the functions: it fits a vector, a flat leading
state has one position and one key, and a distinct function does not take an unflat
argument of its own next to unflat keys. -/
structure Chunk.Planned (P : AggregatePlan V B) (c : Chunk V) : Prop where
  length_positions : c.positions.length ≤ defaultVectorCapacity
  length_keyAt : ∀ p, (c.keyAt p).length = P.numKeys
  length_inputs : c.inputs.length = P.functions.length
  flat : c.isFlat = true → c.positions.length = 1 ∧ ∀ p q, c.keyAt p = c.keyAt q
  distinct : ∀ (i : Nat) f a, P.functions[i]? = some f → c.inputs[i]? = some a →
    f.isDistinct = true → ∀ others values, a.aggregateVector = .other others values →
    c.isFlat = true

/-! ## Queues -/

theorem appendTuples_apply (partition : Entry V B → Nat) (queue : Nat → List (Entry V B))
    (tuples : List (Entry V B)) (p : Nat) :
    appendTuples partition queue tuples p = queue p ++ tuples.filter fun e => partition e = p := by
  unfold appendTuples
  induction tuples generalizing queue with
  | nil => simp
  | cons e _ ih =>
    rw [foldl_cons, ih, filter_cons]
    rcases eq_or_ne (partition e) p with rfl | hp
    · simp
    · rw [update_of_ne fun h => hp h.symm, if_neg (by simpa using hp)]

variable [DecidableEq V] {t : Nat} {m : HashTable V B} {c : Chunk V} {l : LocalTable V B}
  {P : AggregatePlan V B} {cs : List (Chunk V)} {α : Type*} {n : Nat} {i : Nat}

/-! ## Groups -/

/-- The groups of the threads' tables and of the queues, where `L` are the inputs that the
tables have seen, and `Q` are the queues with the inputs that the tuples have seen.
Together these are the inputs of the chunks. -/
structure GroupsInv (P : AggregatePlan V B) (mains : List (HashTable V B))
    (queue : Nat → List (Entry V B)) (cs : List (Chunk V))
    (L : Nat → GroupKey V → Nat → List (Input V))
    (Q : Nat → List (Entry V B × (Nat → List (Input V)))) : Prop where
  groups : ∀ (t : Nat) m, mains[t]? = some m → m.Groups P.functions P.hashKey P.numKeys (L t)
  slots : ∀ m ∈ mains, m.maxNumHashSlots = numHashSlotsPerBlock
  queue_eq : ∀ p, (Q p).map Prod.fst = queue p
  tuples : ∀ p, ∀ x ∈ Q p, TupleOk P.functions P.hashKey P.numKeys x ∧ P.partitionOf x.1.hash = p
  plain : ∀ (i : Nat) f, P.functions[i]? = some f → f.isDistinct = true → ∀ t k, L t k i = []
  inputs : ∀ i < P.functions.length, ∀ k,
    (∑ t ∈ Finset.range mains.length, (L t k i : Multiset (Input V))) +
        mergedInputs P.functions (Q (P.partitionOf (P.hashKey k))) k i =
      ((cs.flatMap fun c => c.plainInputs P.functions c.inputs k i : List (Input V)) :
        Multiset (Input V))
  keys : ∀ k, ((∃ m ∈ mains, k ∈ m.keys) ∨ ∃ e ∈ queue (P.partitionOf (P.hashKey k)), e.key = k) ↔
    ∃ c ∈ cs, ∃ p ∈ c.positions, c.keyAt p = k

omit [DecidableEq V] in
/-- The sum over the threads after the inputs of one of them changed. -/
theorem sum_update_inputs (ht : t < n) (L : Nat → GroupKey V → Nat → List (Input V))
    (new : GroupKey V → Nat → List (Input V)) (k : GroupKey V) (i : Nat) :
    (∑ s ∈ Finset.range n, (update L t new s k i : Multiset (Input V))) + L t k i =
      (∑ s ∈ Finset.range n, (L s k i : Multiset (Input V))) + new k i := by
  exact sum_update_add (Finset.mem_range.mpr ht) (fun _ xs => (xs k i : Multiset (Input V))) L new

theorem forall_mem_set {l : List α} {b : α} {q : α → Prop} (h : ∀ a ∈ l, q a) (hb : q b) :
    ∀ a ∈ l.set t b, q a := by
  intro a ha
  rcases mem_or_eq_of_mem_set ha with ha | rfl
  · exact h a ha
  · exact hb

theorem exists_mem_set {l : List α} {a b : α} (ha : l[t]? = some a) (q : α → Prop) :
    (∃ x ∈ l.set t b, q x) ↔ q b ∨ ∃ s x, s ≠ t ∧ l[s]? = some x ∧ q x := by
  have hlt : t < l.length := (List.getElem?_eq_some_iff.mp ha).1
  constructor
  · rintro ⟨x, hx, hq⟩
    obtain ⟨s, hs⟩ := mem_iff_getElem?.mp hx
    rcases eq_or_ne t s with rfl | hne
    · rw [getElem?_set_self hlt] at hs
      cases hs
      exact .inl hq
    · rw [getElem?_set_ne hne] at hs
      exact .inr ⟨s, x, hne.symm, hs, hq⟩
  · rintro (hq | ⟨s, x, hne, hs, hq⟩)
    · exact ⟨b, mem_iff_getElem?.mpr ⟨t, getElem?_set_self hlt⟩, hq⟩
    · exact ⟨x, mem_iff_getElem?.mpr ⟨s, by rw [getElem?_set_ne hne.symm]; exact hs⟩, hq⟩

theorem exists_mem_iff {l : List α} {a : α} (ha : l[t]? = some a) (q : α → Prop) :
    (∃ x ∈ l, q x) ↔ q a ∨ ∃ s x, s ≠ t ∧ l[s]? = some x ∧ q x := by
  have hset : l.set t a = l := by
    obtain ⟨hlt, rfl⟩ := List.getElem?_eq_some_iff.mp ha
    exact set_getElem_self hlt
  rw [← exists_mem_set ha q, hset]

/-- What an element had is now elsewhere. -/
theorem exists_mem_set_moved {l : List α} {a b : α} {q : α → Prop} {r r' : Prop}
    (ha : l[t]? = some a) (hb : ¬q b) (hr : r' ↔ r ∨ q a) :
    (∃ x ∈ l.set t b, q x) ∨ r' ↔ (∃ x ∈ l, q x) ∨ r := by
  rw [exists_mem_set ha, exists_mem_iff ha, hr, or_iff_right hb, or_comm (a := q a), or_assoc,
    or_comm (a := r)]

omit [DecidableEq V] in
theorem exists_mem_appendTuples {partition : Entry V B → Nat} {queue : Nat → List (Entry V B)}
    {k : GroupKey V} {p : Nat} (h : ∀ e ∈ m.entries, e.key = k → partition e = p) :
    (∃ e ∈ appendTuples partition queue m.entries p, e.key = k) ↔
      (∃ e ∈ queue p, e.key = k) ∨ k ∈ m.keys := by
  simp only [appendTuples_apply, mem_append, or_and_right, exists_or]
  refine or_congr_right ⟨?_, fun hk => ?_⟩
  · rintro ⟨e, he, rfl⟩
    exact mem_map.mpr ⟨e, (mem_filter.mp he).1, rfl⟩
  · obtain ⟨e, he, rfl⟩ := mem_map.mp hk
    exact ⟨e, mem_filter.mpr ⟨he, decide_eq_true (h e he rfl)⟩, rfl⟩

theorem filter_key_eq_singleton {es : List (Entry V B)} (hnodup : (es.map (·.key)).Nodup)
    {e : Entry V B} (he : e ∈ es) : (es.filter fun x => x.key = e.key) = [e] := by
  induction es with
  | nil => cases he
  | cons x _ ih =>
    obtain ⟨hx, hnodup⟩ := nodup_cons.mp hnodup
    rcases mem_cons.mp he with rfl | he
    · rw [filter_cons_of_pos (by simp), filter_eq_nil_iff.mpr fun y hy hkey => ?_]
      exact hx (mem_map.mpr ⟨y, hy, by simpa using hkey⟩)
    · have hne : x.key ≠ e.key := fun hkey =>
        hx (mem_map.mpr ⟨e, he, hkey.symm⟩)
      rw [filter_cons_of_neg (by simpa using hne), ih hnodup he]

/-- The tuples that a thread moves to the queue of a group's partition bring along what its
table has seen of the group. -/
theorem mergedInputs_flushed {xs : GroupKey V → Nat → List (Input V)}
    (h : m.Groups P.functions P.hashKey P.numKeys xs)
    (hplain : ∀ (i : Nat) f, P.functions[i]? = some f → f.isDistinct = true → ∀ k, xs k i = [])
    (hi : i < P.functions.length) (k : GroupKey V) :
    mergedInputs P.functions
      ((m.entries.filter fun e => P.partitionOf e.hash = P.partitionOf (P.hashKey k)).map
        fun e => (e, xs e.key)) k i = xs k i := by
  have hf : P.functions[i]? = some P.functions[i] := getElem?_eq_getElem hi
  rw [mergedInputs, hf]
  dsimp only
  cases hd : P.functions[i].isDistinct with
  | true => rw [if_pos rfl, hplain i _ hf hd k]
  | false =>
    have hkeys : ((m.entries.filter fun e => P.partitionOf e.hash =
          P.partitionOf (P.hashKey k)).filter fun e => e.key = k) =
        m.entries.filter fun e => e.key = k := by
      rw [filter_filter]
      refine filter_congr fun e he => ?_
      by_cases hkey : e.key = k
      · simp [hkey, h.valid.hash_eq e he]
      · simp [hkey]
    rw [if_neg (by simp), filter_map, flatMap_map]
    simp only [comp_def, hkeys]
    by_cases hk : k ∈ m.keys
    · obtain ⟨e, he, rfl⟩ := mem_map.mp hk
      rw [filter_key_eq_singleton h.valid.keys_nodup he, flatMap_singleton]
    · rw [filter_eq_nil_iff.mpr fun e he hkey => hk (mem_map.mpr
        ⟨e, he, by simpa using hkey⟩), h.represents.missing k hk i, flatMap_nil]

namespace GroupsInv

variable {mains : List (HashTable V B)} {queue : Nat → List (Entry V B)}
  {L : Nat → GroupKey V → Nat → List (Input V)}
  {Q : Nat → List (Entry V B × (Nat → List (Input V)))}

variable (h : GroupsInv P mains queue cs L Q) (hm : mains[t]? = some m)

include h hm

/-- A thread moves its table to the queues. -/
theorem flush : GroupsInv P (mains.set t m.clear)
      (appendTuples (fun e => P.partitionOf e.hash) queue m.entries) cs
      (update L t fun _ _ => [])
      (fun p => Q p ++ (m.entries.filter fun e => P.partitionOf e.hash = p).map
        fun e => (e, L t e.key)) := by
  have hlt : t < mains.length := (List.getElem?_eq_some_iff.mp hm).1
  have hg := h.groups t m hm
  constructor
  case groups =>
    intro s m' hm'
    rcases eq_or_ne t s with rfl | hne
    · rw [getElem?_set_self hlt] at hm'
      cases hm'
      rw [update_self]
      exact ⟨valid_empty _, ⟨by simp [clear], fun _ _ _ => rfl⟩⟩
    · rw [getElem?_set_ne hne] at hm'
      rw [update_of_ne hne.symm]
      exact h.groups s m' hm'
  case slots => exact forall_mem_set h.slots (h.slots m (mem_of_getElem? hm))
  case queue_eq =>
    intro p
    rw [appendTuples_apply, map_append, h.queue_eq p]
    simp [comp_def]
  case tuples =>
    intro p x hx
    rcases mem_append.mp hx with hx | hx
    · exact h.tuples p x hx
    · obtain ⟨e, he, rfl⟩ := mem_map.mp hx
      obtain ⟨he, hp⟩ := mem_filter.mp he
      exact ⟨⟨hg.represents.states_eq e he, hg.valid.hash_eq e he, hg.valid.key_length e he⟩,
        by simpa using hp⟩
  case plain =>
    intro i f hf hd
    exact (forall_update_iff L fun _ xs => ∀ k, xs k i = []).mpr
      ⟨fun _ => rfl, fun s _ => h.plain i f hf hd s⟩
  case inputs =>
    intro i hi k
    have hsum := sum_update_inputs hlt L (fun _ _ => []) k i
    rw [Multiset.coe_nil, add_zero] at hsum
    rw [length_set, mergedInputs_append,
      mergedInputs_flushed hg (fun i f hf hd => h.plain i f hf hd t) hi, ← Multiset.coe_add,
      ← add_assoc, add_right_comm, hsum]
    exact h.inputs i hi k
  case keys =>
    intro k
    rw [← h.keys k]
    refine exists_mem_set_moved hm (by simp [clear, HashTable.keys])
      (exists_mem_appendTuples fun e he hk => ?_)
    rw [hg.valid.hash_eq e he, hk]

/-- A thread appends the rows of a chunk to its table. -/
theorem append {m' : HashTable V B} (hg : m'.Groups P.functions P.hashKey P.numKeys
      (fun k i => L t k i ++ c.plainInputs P.functions c.inputs k i))
    (hslots : m'.maxNumHashSlots = m.maxNumHashSlots)
    (hkeys : ∀ k, k ∈ m'.keys ↔ k ∈ m.keys ∨ ∃ p ∈ c.positions, c.keyAt p = k) :
    GroupsInv P (mains.set t m') queue (cs ++ [c])
      (update L t fun k i => L t k i ++ c.plainInputs P.functions c.inputs k i) Q := by
  have hlt : t < mains.length := (List.getElem?_eq_some_iff.mp hm).1
  constructor
  case groups =>
    intro s m₁ hm₁
    rcases eq_or_ne t s with rfl | hne
    · rw [getElem?_set_self hlt] at hm₁
      cases hm₁
      rw [update_self]
      exact hg
    · rw [getElem?_set_ne hne] at hm₁
      rw [update_of_ne hne.symm]
      exact h.groups s m₁ hm₁
  case slots => exact forall_mem_set h.slots (hslots.trans (h.slots m (mem_of_getElem? hm)))
  case queue_eq => exact h.queue_eq
  case tuples => exact h.tuples
  case plain =>
    intro i f hf hd
    refine (forall_update_iff L fun _ xs => ∀ k, xs k i = []).mpr
      ⟨fun k => ?_, fun s _ => h.plain i f hf hd s⟩
    rw [h.plain i f hf hd t k, nil_append, Chunk.plainInputs, hf]
    split
    · rename_i g a hg' _
      cases hg'
      rw [if_pos hd]
    · rfl
  case inputs =>
    intro i hi k
    have hsum := sum_update_inputs hlt L
      (fun k i => L t k i ++ c.plainInputs P.functions c.inputs k i) k i
    rw [← Multiset.coe_add, add_comm (L t k i : Multiset (Input V)), ← add_assoc] at hsum
    rw [length_set, add_right_cancel hsum, flatMap_append, flatMap_singleton,
      ← Multiset.coe_add, ← h.inputs i hi k, add_right_comm]
  case keys =>
    intro k
    rw [exists_mem_set hm, hkeys k]
    have hold := h.keys k
    rw [exists_mem_iff hm] at hold
    simp only [mem_append, mem_singleton, or_and_right, exists_or, exists_eq_left, ← hold]
    rw [or_right_comm (a := k ∈ m.keys), or_right_comm]

end GroupsInv

/-! ## Distinct inputs -/

omit [DecidableEq V] in
/-- What moving the tables of distinct inputs does to the table and the queue of each
function. -/
theorem mergeDistinctsIfFull_spec {tuplesToAdd n : Nat} {mergeAll : Bool}
    {fs : List (AggregateFunction V B)} {distincts distincts' : List (HashTable V B)}
    {queues queues' : Nat → Nat → List (Entry V B)}
    (hrun : mergeDistinctsIfFull P tuplesToAdd mergeAll fs distincts queues n =
      (distincts', queues')) :
    distincts'.length = distincts.length ∧ (∀ i < n, queues' i = queues i) ∧
    (∀ j, distincts'[j]? = distincts[j]? ∧ queues' (n + j) = queues (n + j) ∨
      ∃ d, distincts[j]? = some d ∧ distincts'[j]? = some d.clear ∧
        queues' (n + j) = appendTuples P.distinctPartition (queues (n + j)) d.entries) ∧
    ∀ (j : Nat) f d, fs[j]? = some f → f.isDistinct = true → distincts[j]? = some d →
      mergeAll = true → distincts'[j]? = some d.clear := by
  induction fs generalizing distincts queues n distincts' queues' with
  | nil =>
    cases hrun
    exact ⟨rfl, fun _ _ => rfl, fun j => .inl ⟨rfl, rfl⟩, by simp⟩
  | cons _ fs ih =>
    cases distincts with
    | nil =>
      cases hrun
      exact ⟨rfl, fun _ _ => rfl, fun j => .inl ⟨rfl, rfl⟩, by simp⟩
    | cons d distincts =>
      rw [mergeDistinctsIfFull] at hrun
      split_ifs at hrun with hcond
      · rcases hrest : mergeDistinctsIfFull P tuplesToAdd mergeAll fs distincts
          (update queues n (appendTuples P.distinctPartition (queues n) d.entries))
          (n + 1) with ⟨ds, qs⟩
        rw [hrest] at hrun
        cases hrun
        obtain ⟨hlen, hbelow, hcases, hall⟩ := ih hrest
        have hself : queues' n = appendTuples P.distinctPartition (queues n) d.entries := by
          rw [hbelow n (Nat.lt_succ_self n), update_self]
        refine ⟨by simp [hlen], fun i hi => ?_, fun j => ?_, fun j g e hg hd he hmerge => ?_⟩
        · rw [hbelow i (by omega), update_of_ne (by omega)]
        · cases j with
          | zero => exact .inr ⟨d, rfl, rfl, hself⟩
          | succ j =>
            have hj := hcases j
            rw [update_of_ne (by omega), add_right_comm] at hj
            exact hj
        · cases j with
          | zero =>
            cases he
            rfl
          | succ j => exact hall j g e hg hd he hmerge
      · rcases hrest : mergeDistinctsIfFull P tuplesToAdd mergeAll fs distincts queues (n + 1)
          with ⟨ds, qs⟩
        rw [hrest] at hrun
        cases hrun
        obtain ⟨hlen, hbelow, hcases, hall⟩ := ih hrest
        refine ⟨by simp [hlen], fun i hi => hbelow i (by omega), fun j => ?_,
          fun j g e hg hd he hmerge => ?_⟩
        · cases j with
          | zero => exact .inl ⟨rfl, hbelow n (Nat.lt_succ_self n)⟩
          | succ j =>
            have hj := hcases j
            rw [add_right_comm] at hj
            exact hj
        · cases j with
          | zero =>
            cases hg
            simp [hd, hmerge] at hcond
          | succ j => exact hall j g e hg hd he hmerge

/-- The keys in a thread's table of distinct inputs. -/
def LocalTable.distinctKeys (l : LocalTable V B) (i : Nat) : List (GroupKey V) :=
  ((l.distincts[i]?).map HashTable.keys).getD []

omit [DecidableEq V] in
theorem LocalTable.mem_distinctKeys {k : GroupKey V} :
    k ∈ l.distinctKeys i ↔ ∃ d, l.distincts[i]? = some d ∧ k ∈ d.keys := by
  unfold distinctKeys
  cases l.distincts[i]? <;> simp

/-- The tables and the queues of distinct inputs, for every function. -/
structure DistinctInv (P : AggregatePlan V B) (locals : List (LocalTable V B))
    (queues : Nat → Nat → List (Entry V B)) (cs : List (Chunk V)) : Prop where
  length_distincts : ∀ l ∈ locals, l.distincts.length = P.functions.length
  ok : ∀ l ∈ locals, ∀ d ∈ l.distincts, d.DistinctOk P.hashKey (P.numKeys + 1)
  tuples : ∀ i p, ∀ e ∈ queues i p, HashTable.RowOk P.hashKey (P.numKeys + 1) e ∧
    e.states = [] ∧ P.distinctPartition e = p
  keys : ∀ i k, ((∃ l ∈ locals, k ∈ l.distinctKeys i) ∨
      ∃ e ∈ queues i (P.partitionOf (P.hashKey k.dropLast)), e.key = k) ↔
    ∃ c ∈ cs, c.DistinctKey P.functions c.inputs i k

namespace DistinctInv

variable {locals : List (LocalTable V B)} {queues : Nat → Nat → List (Entry V B)}
  {l' : LocalTable V B}

omit [DecidableEq V] in
/-- A thread moves some of its tables to the queues. -/
theorem flush (h : DistinctInv P locals queues cs) (hl : locals[t]? = some l)
    {queues' : Nat → Nat → List (Entry V B)} (hlen : l'.distincts.length = l.distincts.length)
    (hcases : ∀ j, l'.distincts[j]? = l.distincts[j]? ∧ queues' j = queues j ∨
      ∃ d, l.distincts[j]? = some d ∧ l'.distincts[j]? = some d.clear ∧
        queues' j = appendTuples P.distinctPartition (queues j) d.entries) :
    DistinctInv P (locals.set t l') queues' cs := by
  have hmem := mem_of_getElem? hl
  constructor
  case length_distincts =>
    exact forall_mem_set h.length_distincts (hlen.trans (h.length_distincts l hmem))
  case ok =>
    refine forall_mem_set h.ok fun d hd => ?_
    obtain ⟨j, hj⟩ := mem_iff_getElem?.mp hd
    rcases hcases j with ⟨hsame, -⟩ | ⟨d₀, hd₀, hclear, -⟩
    · exact h.ok l hmem d (mem_of_getElem? (hsame ▸ hj))
    · rw [hclear] at hj
      cases hj
      have hok := h.ok l hmem d₀ (mem_of_getElem? hd₀)
      exact ⟨valid_empty _, hok.two_le, by simp [clear]⟩
  case tuples =>
    intro i p e he
    rcases hcases i with ⟨-, hq⟩ | ⟨d, hd, -, hq⟩
    · exact h.tuples i p e (hq ▸ he)
    rw [hq, appendTuples_apply] at he
    rcases mem_append.mp he with he | he
    · exact h.tuples i p e he
    · obtain ⟨he, hp⟩ := mem_filter.mp he
      have hok := h.ok l hmem d (mem_of_getElem? hd)
      exact ⟨⟨hok.valid.hash_eq e he, hok.valid.key_length e he⟩, hok.states_nil e he,
        by simpa using hp⟩
  case keys =>
    intro i k
    rw [← h.keys i k]
    rcases hcases i with ⟨hsame, hq⟩ | ⟨d, hd, hclear, hq⟩
    · rw [hq, exists_mem_set hl, exists_mem_iff hl, distinctKeys, hsame, distinctKeys]
    have hnew : l'.distinctKeys i = [] := by
      rw [distinctKeys, hclear]
      rfl
    have hold : l.distinctKeys i = d.keys := by rw [distinctKeys, hd]; rfl
    rw [hq]
    refine exists_mem_set_moved hl (by simp [hnew]) ?_
    rw [hold]
    exact exists_mem_appendTuples fun e _ hk => by rw [AggregatePlan.distinctPartition, hk]

omit [DecidableEq V] in
/-- A thread puts the inputs of a chunk into its tables. -/
theorem append (h : DistinctInv P locals queues cs) (hl : locals[t]? = some l)
    (hlen : l'.distincts.length = P.functions.length)
    (hok : ∀ d ∈ l'.distincts, d.DistinctOk P.hashKey (P.numKeys + 1))
    (hkeys : ∀ (i : Nat) d d', l.distincts[i]? = some d → l'.distincts[i]? = some d' →
      ∀ k, k ∈ d'.keys ↔ k ∈ d.keys ∨ c.DistinctKey P.functions c.inputs i k) :
    DistinctInv P (locals.set t l') queues (cs ++ [c]) := by
  have hmem := mem_of_getElem? hl
  constructor
  case length_distincts => exact forall_mem_set h.length_distincts hlen
  case ok => exact forall_mem_set h.ok hok
  case tuples => exact h.tuples
  case keys =>
    intro i k
    have hnew : k ∈ l'.distinctKeys i ↔
        k ∈ l.distinctKeys i ∨ c.DistinctKey P.functions c.inputs i k := by
      rcases lt_or_ge i P.functions.length with hi | hi
      · have hd := getElem?_eq_getElem
          (by rw [h.length_distincts l hmem]; exact hi)
        have hd' := getElem?_eq_getElem (l := l'.distincts) (i := i) (by omega)
        simpa [mem_distinctKeys, hd, hd'] using hkeys i _ _ hd hd' k
      -- there is no such function
      have hnone : ¬c.DistinctKey P.functions c.inputs i k := by
        rintro ⟨f, a, hf, -⟩
        rw [getElem?_eq_none hi] at hf
        cases hf
      have hd : l.distincts[i]? = none :=
        getElem?_eq_none (by rw [h.length_distincts l hmem]; exact hi)
      have hd' : l'.distincts[i]? = none := getElem?_eq_none (by omega)
      simp [mem_distinctKeys, hd, hd', hnone]
    have hold := h.keys i k
    rw [exists_mem_iff hl] at hold
    rw [exists_mem_set hl, hnew]
    simp only [mem_append, mem_singleton, or_and_right, exists_or, exists_eq_left, ← hold]
    rw [or_right_comm (a := k ∈ l.distinctKeys i), or_right_comm]

end DistinctInv

/-! ## Runs -/

/-- The chunks that the threads have appended. -/
def AggregateAction.chunks : AggregateAction V → List (Chunk V)
  | .append _ chunk => [chunk]
  | .finish _ => []

def AggregateAction.thread : AggregateAction V → Nat
  | .append thread _ => thread
  | .finish thread => thread

/-- An action of one of the threads, with a chunk as the planner makes it. -/
structure AggregateAction.Planned (P : AggregatePlan V B) (numThreads : Nat)
    (a : AggregateAction V) : Prop where
  thread_lt : a.thread < numThreads
  chunks : ∀ c ∈ a.chunks, c.Planned P

/-- A thread has moved its groups and its distinct inputs to the queues. -/
structure LocalTable.Emptied (P : AggregatePlan V B) (l : LocalTable V B) : Prop where
  main : l.main.entries = []
  distincts : ∀ (j : Nat) f, P.functions[j]? = some f → f.isDistinct = true → l.distinctKeys j = []

/-- What holds after the chunks `cs` of `numThreads` threads. -/
structure HashAggregate.Inv (P : AggregatePlan V B) (numThreads : Nat) (s : HashAggregate V B)
    (cs : List (Chunk V)) : Prop where
  length_locals : s.locals.length = numThreads
  groups : ∃ L Q, GroupsInv P (s.locals.map (·.main)) s.shared.queue cs L Q
  distincts : DistinctInv P s.locals s.shared.distinctTableQueues cs

namespace HashAggregate

variable {numThreads : Nat} {s : HashAggregate V B}

variable (P numThreads) in
theorem inv_init : (init P numThreads).Inv P numThreads [] := by
  have hlocal : ∀ l ∈ (init P numThreads).locals,
      l = ⟨.empty, P.functions.map fun _ => .empty⟩ := fun l hl => eq_of_mem_replicate hl
  have hmain : ∀ m ∈ (init P numThreads).locals.map (·.main), m = .empty := by
    intro m hm
    obtain ⟨l, hl, rfl⟩ := mem_map.mp hm
    rw [hlocal l hl]
  have hdistinct : ∀ l ∈ (init P numThreads).locals, ∀ d ∈ l.distincts, d = .empty := by
    intro l hl d hd
    rw [hlocal l hl] at hd
    obtain ⟨f, -, rfl⟩ := mem_map.mp hd
    rfl
  refine ⟨length_replicate, ⟨fun _ _ _ => [], fun _ => [], ?_⟩, ?_⟩
  · constructor
    case groups =>
      intro t m hm
      rw [hmain m (mem_of_getElem? hm)]
      exact groups_empty _ _ _
    case slots =>
      intro m hm
      rw [hmain m hm]
      rfl
    case queue_eq => exact fun _ => rfl
    case tuples => simp
    case plain => exact fun _ _ _ _ _ _ => rfl
    case inputs =>
      intro i hi k
      rw [mergedInputs_eq_nil (by simp)]
      simp
    case keys =>
      intro k
      have hnone : ∀ m ∈ (init P numThreads).locals.map (·.main), k ∉ m.keys := by
        intro m hm
        rw [hmain m hm]
        exact not_mem_nil
      simpa [init] using hnone
  · constructor
    case length_distincts =>
      intro l hl
      rw [hlocal l hl]
      exact length_map _
    case ok =>
      intro l hl d hd
      rw [hdistinct l hl d hd]
      exact ⟨valid_empty _, Nat.le_of_ble_eq_true rfl, by simp [empty]⟩
    case tuples => simp [init]
    case keys =>
      intro i k
      have hnone : ∀ l ∈ (init P numThreads).locals, k ∉ l.distinctKeys i := by
        intro l hl hk
        obtain ⟨d, hd, hk⟩ := mem_distinctKeys.mp hk
        rw [hdistinct l hl d (mem_of_getElem? hd)] at hk
        exact not_mem_nil hk
      simpa [init] using hnone

section

variable (h : s.Inv P numThreads cs)

include h

/-- A thread moves its tables to the queues if they are full.  Then there is room for the
new rows; in the end all tables are empty. -/
theorem Inv.mergeIfFull (hl : s.locals[t]? = some l) (hn : n ≤ defaultVectorCapacity)
    (mergeAll : Bool) :
    let r := l.mergeIfFull P n mergeAll s.shared
    (⟨s.locals.set t r.1, r.2⟩ : HashAggregate V B).Inv P numThreads cs ∧
      r.1.main.entries.length + n < r.1.main.maxNumHashSlots ∧
      (mergeAll = true → r.1.Emptied P) := by
  obtain ⟨L, Q, hg⟩ := h.groups
  have hmain : (s.locals.map (·.main))[t]? = some l.main := by rw [List.getElem?_map, hl]; rfl
  have hslots := hg.slots l.main (mem_of_getElem? hmain)
  rcases hmove : mergeDistinctsIfFull P n mergeAll P.functions l.distincts
    s.shared.distinctTableQueues 0 with ⟨distincts, queues⟩
  obtain ⟨hlen, -, hcases, hall⟩ := mergeDistinctsIfFull_spec hmove
  simp only [zero_add] at hcases
  have hcleared : ∀ main : HashTable V B, mergeAll = true → ∀ (j : Nat) f,
      P.functions[j]? = some f → f.isDistinct = true →
      (⟨main, distincts⟩ : LocalTable V B).distinctKeys j = [] := by
    intro main hmerge j f hf hd
    have hlt : j < l.distincts.length := by
      rw [h.distincts.length_distincts l (mem_of_getElem? hl)]
      exact (List.getElem?_eq_some_iff.mp hf).1
    have hnew := hall j f _ hf hd (List.getElem?_eq_getElem hlt) hmerge
    rw [distinctKeys, hnew]
    rfl
  have hdistincts : ∀ main, DistinctInv P (s.locals.set t ⟨main, distincts⟩) queues cs :=
    fun main => h.distincts.flush hl hlen hcases
  have hlocals : ∀ l' : LocalTable V B, (s.locals.set t l').length = numThreads := fun l' => by
    rw [length_set, h.length_locals]
  have hset : ∀ l' : LocalTable V B, (s.locals.set t l').map (·.main) =
      (s.locals.map (·.main)).set t l'.main := fun l' => map_set
  simp only [LocalTable.mergeIfFull, hmove]
  split_ifs with hfull
  · have hflush := hg.flush hmain
    refine ⟨⟨hlocals _, ?_, hdistincts _⟩, ?_, fun hmerge => ⟨rfl, hcleared _ hmerge⟩⟩
    · dsimp only
      rw [hset]
      exact ⟨_, _, hflush⟩
    · have hcap : l.main.clear.maxNumHashSlots = numHashSlotsPerBlock := hslots
      rw [hcap]
      exact lt_of_le_of_lt (by simpa [clear] using hn) (by decide)
  · simp only [Bool.or_eq_true, not_or, outOfSpace, decide_eq_true_eq] at hfull
    refine ⟨⟨hlocals _, ⟨L, Q, ?_⟩, hdistincts _⟩, ?_, fun hmerge => absurd hmerge hfull.1⟩
    · have hsame : (s.locals.map (·.main)).set t l.main = s.locals.map (·.main) := by
        obtain ⟨hlt, hget⟩ := List.getElem?_eq_some_iff.mp hmain
        rw [← hget, set_getElem_self]
      rw [hset, hsame]
      exact hg
    · have hspace := hfull.2
      simp only [numHashSlotsPerBlock] at hspace hslots
      dsimp only
      omega

/-- A thread appends a chunk to tables that have room for it. -/
theorem Inv.appendRows (hfirst : NonDistinctFirst P.functions) (hl : s.locals[t]? = some l)
    (hc : c.Planned P)
    (hroom : l.main.entries.length + c.positions.length < l.main.maxNumHashSlots) :
    ∃ l', l.appendRows P c = some l' ∧
      (⟨s.locals.set t l', s.shared⟩ : HashAggregate V B).Inv P numThreads (cs ++ [c]) := by
  obtain ⟨L, Q, hg⟩ := h.groups
  have hmain : (s.locals.map (·.main))[t]? = some l.main := by rw [getElem?_map, hl]; rfl
  have hgroups := hg.groups t l.main hmain
  let rows : Nat → Entry V B := fun p =>
    { key := c.keyAt p, hash := P.hashKey (c.keyAt p), states := initialStates P.functions }
  have hrows : ∀ p ∈ c.positions, HashTable.RowOk P.hashKey P.numKeys (rows p) :=
    fun p _ => ⟨rfl, hc.length_keyAt p⟩
  have hrowKey : ∀ p, (rows p).key = c.keyAt p := fun _ => rfl
  obtain ⟨m, slotIdxes, hfind, hv, hgrown, -, hfound⟩ :=
    findHashSlots_spec hgroups.valid hrows hroom
  have hrep := hgroups.represents.grown hv hgrown fun _ _ => rfl
  obtain ⟨distincts, hupdate, hlen, hok, hkeys⟩ := updateAggStates_spec 0 hc.length_keyAt
    hrowKey hc.length_inputs (h.distincts.length_distincts l (mem_of_getElem? hl))
    (h.distincts.ok l (mem_of_getElem? hl)) hv hfound
  refine ⟨⟨m.mapStates (updatedStates c P.functions c.inputs 0), distincts⟩, ?_,
    ⟨by rw [length_set, h.length_locals], ?_, h.distincts.append hl hlen hok hkeys⟩⟩
  · rw [LocalTable.appendRows, hfind, Option.bind_some, hupdate]
    rfl
  rw [map_set]
  refine ⟨_, Q, hg.append hmain ⟨hv.mapStates _, fun e he => ?_, fun k hk i => ?_⟩
    hgrown.extend.maxNumHashSlots_eq fun k => ?_⟩
  · obtain ⟨e', he', rfl⟩ := mem_map.mp he
    have hstates := updatedStates_statesOf hfirst c.inputs [] e'.key (L t e'.key) (c := c)
    simpa [← hrep.states_eq e' he'] using hstates
  · rw [keys_mapStates, hgrown.mem_keys hfound k, not_or] at hk
    rw [hgroups.represents.missing k hk.1 i]
    exact Chunk.plainInputs_eq_nil (fun p hp hkey => hk.2 ⟨p, hp, hkey⟩)
  · rw [keys_mapStates, hgrown.mem_keys hfound k]

/-- One action of a thread. -/
theorem Inv.step (hfirst : NonDistinctFirst P.functions) {a : AggregateAction V}
    (ha : a.Planned P numThreads) :
    ∃ s', step P s a = some s' ∧ s'.Inv P numThreads (cs ++ a.chunks) ∧
      (∀ t ≠ a.thread, s'.locals[t]? = s.locals[t]?) ∧
      ∀ t, a = .finish t → ∃ l, s'.locals[t]? = some l ∧ l.Emptied P := by
  have hlt : a.thread < s.locals.length := h.length_locals ▸ ha.thread_lt
  have hl := getElem?_eq_getElem hlt
  cases a with
  | append t c =>
    have hc := ha.chunks c mem_cons_self
    have hlt : t < s.locals.length := hlt
    rcases hmove : s.locals[t].mergeIfFull P c.positions.length false s.shared with ⟨l, sh⟩
    have hmerge := h.mergeIfFull hl hc.length_positions false
    simp only [AggregateAction.thread, hmove] at hmerge
    obtain ⟨hinv, hroom, -⟩ := hmerge
    have hl' : (s.locals.set t l)[t]? = some l := getElem?_set_self hlt
    obtain ⟨l', happend, hinv'⟩ := hinv.appendRows hfirst hl' hc hroom
    refine ⟨⟨s.locals.set t l', sh⟩, ?_, by simpa [AggregateAction.chunks] using hinv',
      fun u hu => getElem?_set_ne (Ne.symm hu), nofun⟩
    · have hget : s.locals[t]? = some s.locals[t] := hl
      rw [HashAggregate.step, hget]
      simp only [Option.bind_some, append, hmove, happend, Option.map_some]
  | finish t =>
    have hlt : t < s.locals.length := hlt
    have hmerge := h.mergeIfFull hl (Nat.zero_le _) true
    refine ⟨_, ?_, by simpa [AggregateAction.chunks] using hmerge.1,
      fun u hu => getElem?_set_ne (Ne.symm hu), ?_⟩
    · have hget : s.locals[t]? = some s.locals[t] := hl
      rw [HashAggregate.step, hget]
      rfl
    · rintro _ ⟨⟩
      exact ⟨_, getElem?_set_self hlt, hmerge.2.2 rfl⟩

end

/-- The actions of all threads, in the order in which they happened. -/
theorem Inv.run (hfirst : NonDistinctFirst P.functions) (actions : List (AggregateAction V))
    (s : HashAggregate V B) (cs : List (Chunk V)) (h : s.Inv P numThreads cs)
    (hactions : ∀ a ∈ actions, a.Planned P numThreads) :
    ∃ s', run P s actions = some s' ∧
      s'.Inv P numThreads (cs ++ actions.flatMap AggregateAction.chunks) ∧
      ∀ t, (∀ a ∈ actions, a.thread ≠ t) → s'.locals[t]? = s.locals[t]? := by
  induction actions generalizing s cs with
  | nil => exact ⟨s, rfl, by simpa using h, fun _ _ => rfl⟩
  | cons a _ ih =>
    obtain ⟨s₁, hstep, h₁, hother₁, -⟩ := h.step hfirst (hactions a mem_cons_self)
    obtain ⟨s', hrun, h', hother⟩ := ih s₁ _ h₁ fun b hb => hactions b (mem_cons_of_mem _ hb)
    refine ⟨s', ?_, ?_, fun t ht => ?_⟩
    · rw [HashAggregate.run, foldlM_cons, hstep]
      exact hrun
    · rw [flatMap_cons, ← append_assoc]
      exact h'
    · rw [hother t fun b hb => ht b (mem_cons_of_mem _ hb),
        hother₁ t (Ne.symm (ht a mem_cons_self))]

end HashAggregate

/-- A thread is done at the end of a run: its last action was to finish. -/
def Finished (actions : List (AggregateAction V)) (t : Nat) : Prop :=
  ∃ before after, actions = before ++ .finish t :: after ∧ ∀ a ∈ after, a.thread ≠ t

namespace HashAggregate

variable {numThreads : Nat} {s s' : HashAggregate V B}

theorem Inv.emptied (h : s.Inv P numThreads cs) (hfirst : NonDistinctFirst P.functions)
    {actions : List (AggregateAction V)} (hactions : ∀ a ∈ actions, a.Planned P numThreads)
    (hrun : HashAggregate.run P s actions = some s') (hdone : Finished actions t) :
    ∃ l, s'.locals[t]? = some l ∧ l.Emptied P := by
  obtain ⟨before, after, rfl, hafter⟩ := hdone
  obtain ⟨s₁, hrun₁, h₁, -⟩ := Inv.run hfirst before s cs h
    fun a ha => hactions a (mem_append_left _ ha)
  obtain ⟨s₂, hstep, h₂, -, hfinish⟩ := h₁.step hfirst
    (hactions (.finish t) (mem_append_right _ mem_cons_self))
  obtain ⟨s₃, hrun₃, -, hother⟩ := Inv.run hfirst after s₂ _ h₂
    fun a ha => hactions a (mem_append_right _ (mem_cons_of_mem _ ha))
  have hrun' : HashAggregate.run P s (before ++ .finish t :: after) = some s₃ := by
    unfold HashAggregate.run at hrun₁ hrun₃ ⊢
    rw [foldlM_append, hrun₁, Option.bind_eq_bind, Option.bind_some, foldlM_cons, hstep]
    exact hrun₃
  obtain rfl : s₃ = s' := Option.some.inj (hrun'.symm.trans hrun)
  obtain ⟨l, hl, hempty⟩ := hfinish t rfl
  exact ⟨l, (hother t hafter).trans hl, hempty⟩

end HashAggregate

end Lbug.Processor
