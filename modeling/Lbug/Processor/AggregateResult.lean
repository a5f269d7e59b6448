/-
  Processor/AggregateResult.lean --- what a hash aggregation returns.

  The rows of the chunks, their groups and the arguments in them are the specification
  (`inputsOf`, `IsAggregation`).  When all threads are done, the queue of a partition has
  the groups of the partition with all their inputs, in any order.  Merging its blocks,
  then the distinct inputs, and finalizing gives one entry for each group, and for each
  function the state after the inputs of the group.
-/
import Lbug.Processor.AggregateHistory

namespace Lbug.Processor

open Foundation List Function HashTable

universe u v

variable {V : Type u} {B : Type v} {i : Nat} {f : AggregateFunction V B} {α β : Type*}
  {P : AggregatePlan V B}

/-! ## The inputs of a group -/

section Inputs

variable [DecidableEq V] {c : Chunk V}

/-- The inputs of a function in the rows of a group: its arguments, with the multiplicity
of the rows. -/
def Chunk.inputsOf (c : Chunk V) (i : Nat) (k : GroupKey V) : List (Input V) :=
  (c.inputs[i]?).elim [] fun a =>
    (c.positions.filter fun p => c.keyAt p = k).flatMap fun p =>
      (a.aggregateVector.argumentsAt p).map fun x => (x, a.multiplicity c.resultSetMultiplicity)

/-- The inputs of a function in the rows of a group of all chunks. -/
def inputsOf (cs : List (Chunk V)) (i : Nat) (k : GroupKey V) : List (Input V) :=
  cs.flatMap fun c => c.inputsOf i k

theorem Chunk.groupInputs_eq {a : AggregateInput V} (ha : c.inputs[i]? = some a) (k : GroupKey V) :
    c.groupInputs a k = c.inputsOf i k := by
  rw [groupInputs, AggregateVector.updates_eq, Chunk.inputsOf, ha]
  induction c.positions with
  | nil => rfl
  | cons p _ ih =>
    rw [flatMap_cons, filter_append, map_append, ih]
    by_cases hp : c.keyAt p = k
    · simp [hp, filter_map, comp_def]
    · simp [hp]

/-- What a function takes of the inputs of a group: all of them in some order, or each
value once. -/
def AggregateFunction.Takes (f : AggregateFunction V B) (all xs : List (Input V)) : Prop :=
  if f.isDistinct then
    ∃ vs : List V, vs.Nodup ∧ (∀ v, v ∈ vs ↔ ∃ n, (some v, n) ∈ all) ∧
      xs = vs.map fun v => (some v, 1)
  else xs.Perm all

/-- The entries are the aggregation of the rows of the chunks: one for each group, with
the final state of each function at its place. -/
structure IsAggregation (fs : List (AggregateFunction V B)) (cs : List (Chunk V))
    (entries : List (Entry V B)) : Prop where
  nodup : (entries.map (·.key)).Nodup
  groups : ∀ k, k ∈ entries.map (·.key) ↔ ∃ c ∈ cs, ∃ p ∈ c.positions, c.keyAt p = k
  states : ∀ e ∈ entries, ∀ (i : Nat) f, fs[i]? = some f → ∃ xs, f.Takes (inputsOf cs i e.key) xs ∧
      readState e.states (stateOffset fs i) f.getAggregateStateSize = f.finalizeState (f.fold xs)

theorem Chunk.plainInputs_eq (hc : c.Planned P) (hf : P.functions[i]? = some f)
    (hd : f.isDistinct = false) (k : GroupKey V) :
    c.plainInputs P.functions c.inputs k i = c.inputsOf i k := by
  have hlt : i < c.inputs.length := by
    rw [hc.length_inputs]
    exact (List.getElem?_eq_some_iff.mp hf).1
  have ha := List.getElem?_eq_getElem hlt
  rw [plainInputs, hf, ha]
  dsimp only
  rw [hd, if_neg Bool.false_ne_true, c.groupInputs_eq ha]

end Inputs

/-! ## Distinct values -/

section Distinct

variable {P : AggregatePlan V B} {c : Chunk V} {k : GroupKey V}

/-- A row of a distinct table belongs to the group of a row of the chunk. -/
theorem Chunk.Planned.exists_row (hc : c.Planned P) (hk : c.DistinctKey P.functions c.inputs i k) :
    ∃ p ∈ c.positions, c.keyAt p = k.dropLast := by
  obtain ⟨f, a, hf, ha, hd, hk⟩ := hk
  cases hv : a.aggregateVector with
  | none =>
    rw [hv] at hk
    cases hk
  | flat | same =>
    rw [hv] at hk
    obtain ⟨p, hp, rfl⟩ := mem_map.mp hk
    exact ⟨p, hp, by simp⟩
  | other others values =>
    rw [hv] at hk
    obtain ⟨_, hq, rfl⟩ := mem_map.mp hk
    -- the keys are flat, so all positions have the same
    obtain ⟨hone, hkeys⟩ := hc.flat (hc.distinct i f a hf ha hd others values hv)
    have hlt : 0 < c.positions.length := by omega
    exact ⟨c.positions[0], getElem_mem hlt, by rw [dropLast_concat]; exact hkeys _ _⟩

variable [DecidableEq V]

/-- The distinct table has the values that are among the inputs of the group. -/
theorem Chunk.Planned.distinctKey_iff (hc : c.Planned P) (hf : P.functions[i]? = some f)
    (hd : f.isDistinct = true) (k : GroupKey V) (v : V) :
    c.DistinctKey P.functions c.inputs i (k ++ [some v]) ↔ ∃ n, (some v, n) ∈ c.inputsOf i k := by
  have hlt : i < c.inputs.length := by
    rw [hc.length_inputs]
    exact (List.getElem?_eq_some_iff.mp hf).1
  obtain ⟨a, ha⟩ : ∃ a, c.inputs[i]? = some a := ⟨_, List.getElem?_eq_getElem hlt⟩
  have hkey : c.DistinctKey P.functions c.inputs i (k ++ [some v]) ↔
      k ++ [some v] ∈ a.aggregateVector.distinctKeys c.positions c.keyAt := by
    constructor
    · rintro ⟨f', a', -, ha', -, hk⟩
      cases ha.symm.trans ha'
      exact hk
    · exact fun hk => ⟨f, a, hf, ha, hd, hk⟩
  have hinput : (∃ n, (some v, n) ∈ c.inputsOf i k) ↔
      ∃ p ∈ c.positions, c.keyAt p = k ∧ some v ∈ a.aggregateVector.argumentsAt p := by
    simp [Chunk.inputsOf, ha, and_assoc]
  have hsplit : ∀ (k' : GroupKey V) x, k' ++ [x] = k ++ [some v] ↔ k' = k ∧ x = some v :=
    fun k' x => by simp
  rw [hkey, hinput]
  cases hv : a.aggregateVector with
  | none => simp [AggregateVector.distinctKeys, AggregateVector.argumentsAt]
  | flat value =>
    simp only [AggregateVector.distinctKeys, AggregateVector.argumentsAt]
    cases value <;> simp [eq_comm]
  | same values =>
    simp only [AggregateVector.distinctKeys, mem_map, hsplit, AggregateVector.argumentsAt]
    refine exists_congr fun p => and_congr_right fun _ => and_congr_right fun _ => ?_
    cases values p <;> simp [eq_comm]
  | other others values =>
    obtain ⟨hone, hkeys⟩ := hc.flat (hc.distinct i f a hf ha hd others values hv)
    obtain ⟨p, hp⟩ := length_eq_one_iff.mp hone
    simp only [AggregateVector.distinctKeys, mem_map, hsplit, AggregateVector.argumentsAt, hp,
      mem_singleton, exists_eq_left, mem_filterMap, Option.map_eq_some_iff,
      Option.some.injEq, exists_eq_right]
    constructor
    · rintro ⟨q, hq, hkq, hval⟩
      exact ⟨(hkeys p q).trans hkq, q, hq, hval⟩
    · rintro ⟨hkp, q, hq, hval⟩
      exact ⟨q, hq, (hkeys q p).trans hkp, hval⟩

omit [DecidableEq V] in
theorem key_eq_of_getLast {v : V} (h : k.getLast?.join = some v) : k = k.dropLast ++ [some v] := by
  have hlast : k.getLast? = some (some v) := Option.join_eq_some_iff.mp h
  obtain ⟨_, rfl⟩ := getLast?_eq_some_iff.mp hlast
  rw [dropLast_concat]

/-- A distinct table gives each value of a group once. -/
theorem distinctInputs_eq {tuples : List (Entry V B)} (hnodup : (tuples.map (·.key)).Nodup)
    (k : GroupKey V) : ∃ vs : List V, vs.Nodup ∧
      (∀ v, v ∈ vs ↔ k ++ [some v] ∈ tuples.map (·.key)) ∧
      distinctInputs tuples k = vs.map fun v => (some v, 1) := by
  let value : GroupKey V → Option V := fun key =>
    if key.dropLast = k then key.getLast?.join else none
  have hvalue : ∀ key v, value key = some v ↔ key = k ++ [some v] := by
    intro key v
    dsimp only [value]
    constructor
    · intro h
      split at h
      · rename_i hk
        rw [← hk]
        exact key_eq_of_getLast h
      · cases h
    · rintro rfl
      simp
  refine ⟨(tuples.map (·.key)).filterMap value, ?_, fun v => ?_, ?_⟩
  · refine hnodup.filterMap fun key key' v hkey hkey' => ?_
    rw [(hvalue key v).mp hkey, (hvalue key' v).mp hkey']
  · simp [hvalue]
  · rw [map_filterMap, filterMap_map]
    refine filterMap_congr fun e _ => ?_
    simp only [comp_apply, value]
    split <;> rfl

end Distinct

/-! ## Blocks of a queue -/

theorem exists_blocks_map_eq (f : α → β) (blocks : List (List β)) (q : List α)
    (h : q.map f = blocks.flatten) :
    ∃ blocks' : List (List α), blocks'.map (map f) = blocks ∧ blocks'.flatten = q := by
  induction blocks generalizing q with
  | nil => exact ⟨[], rfl, by simpa using h.symm⟩
  | cons _ _ ih =>
    obtain ⟨q₁, q₂, rfl, hq₁, hq₂⟩ := map_eq_append_iff.mp (h.trans flatten_cons)
    obtain ⟨blocks', hmap, rfl⟩ := ih q₂ hq₂
    exact ⟨q₁ :: blocks', by rw [map_cons, hmap, hq₁], by rw [flatten_cons]⟩

section Partition

variable [DecidableEq V] {blocks : Nat → List (List (Entry V B))}

theorem mergedInputs_perm {fs : List (AggregateFunction V B)}
    {tuples tuples' : List (Entry V B × (Nat → List (Input V)))} (h : tuples.Perm tuples')
    (k : GroupKey V) (i : Nat) :
    (mergedInputs fs tuples k i).Perm (mergedInputs fs tuples' k i) := by
  unfold mergedInputs
  split
  · split
    · exact .refl _
    · exact (h.filter _).flatMap_right _
  · exact .refl _

/-- Merging the queues of distinct inputs gives tables with their keys. -/
theorem mergeDistinctQueues_spec (hblocks : ∀ i, ∀ e ∈ (blocks i).flatten,
      HashTable.RowOk P.hashKey (P.numKeys + 1) e ∧ e.states = [])
    (fs : List (AggregateFunction V B)) (n : Nat) :
    ∃ ds, mergeDistinctQueues P blocks fs n = some ds ∧ ds.length = fs.length ∧
      ∀ (j : Nat) f d, fs[j]? = some f → ds[j]? = some d → f.isDistinct = true →
        d.Valid P.hashKey (P.numKeys + 1) ∧
        ∀ k, k ∈ d.keys ↔ ∃ e ∈ (blocks (n + j)).flatten, e.key = k := by
  induction fs generalizing n with
  | nil => exact ⟨[], rfl, rfl, by simp⟩
  | cons f _ ih =>
    obtain ⟨ds, hds, hlen, hspec⟩ := ih (n + 1)
    -- tuples without states are those of no functions
    let ghost : Entry V B → Entry V B × (Nat → List (Input V)) := fun e => (e, fun _ => [])
    have hfst : ((blocks n).map (map ghost)).map (map Prod.fst) = blocks n := by
      simp [ghost, comp_def]
    have hflat : ((blocks n).map (map ghost)).flatten = (blocks n).flatten.map ghost :=
      map_flatten.symm
    obtain ⟨d, hmerge, hd, -⟩ := foldlM_merge [] (P.numKeys + 1) P.hashKey
      ((blocks n).map (map ghost)) (by
        intro x hx
        rw [hflat] at hx
        obtain ⟨e, he, rfl⟩ := mem_map.mp hx
        exact ⟨(hblocks n e he).2, (hblocks n e he).1⟩)
    rw [hfst] at hmerge
    have hkeys : ∀ k, k ∈ d.keys ↔ ∃ e ∈ (blocks n).flatten, e.key = k := by
      intro k
      rw [hd.keys k]
      simp [empty, HashTable.keys, ghost]
    refine ⟨(if f.isDistinct then d else .empty) :: ds, ?_, by rw [length_cons, hlen]; rfl, ?_⟩
    · rw [mergeDistinctQueues, hmerge]
      cases f.isDistinct <;> simp [hds]
    intro j g d' hg hd' hdistinct
    cases j with
    | zero =>
      cases hg
      rw [if_pos hdistinct] at hd'
      cases hd'
      exact ⟨hd.groups.valid, hkeys⟩
    | succ j =>
      have hj := hspec j g d' hg hd' hdistinct
      rw [add_right_comm] at hj
      exact hj

omit [DecidableEq V] in
theorem keys_finalizeAggregateStates (fs : List (AggregateFunction V B)) (t : HashTable V B) :
    (t.finalizeAggregateStates fs).keys = t.keys := by
  simp [finalizeAggregateStates, HashTable.keys]

namespace HashAggregate

variable {P : AggregatePlan V B} {numThreads : Nat} {s : HashAggregate V B} {cs : List (Chunk V)}

section

variable (h : s.Inv P numThreads cs) (hempty : ∀ l ∈ s.locals, l.Emptied P)

include h hempty

/-- The queue of a partition, when all threads are done, has the groups of the partition
and all their inputs. -/
theorem Inv.queue (p : Nat) : ∃ q, q.map Prod.fst = s.shared.queue p ∧
      (∀ x ∈ q, TupleOk P.functions P.hashKey P.numKeys x) ∧
      (∀ k, (∃ x ∈ q, x.1.key = k) ↔ P.partitionOf (P.hashKey k) = p ∧
        ∃ c ∈ cs, ∃ r ∈ c.positions, c.keyAt r = k) ∧
      ∀ k, P.partitionOf (P.hashKey k) = p → ∀ i < P.functions.length,
        (mergedInputs P.functions q k i).Perm
          (cs.flatMap fun c => c.plainInputs P.functions c.inputs k i) := by
  obtain ⟨L, Q, hg⟩ := h.groups
  have hkeys : ∀ m ∈ s.locals.map (·.main), m.keys = [] := by
    intro m hm
    obtain ⟨l, hl, rfl⟩ := mem_map.mp hm
    rw [HashTable.keys, (hempty l hl).main]
    rfl
  refine ⟨Q p, hg.queue_eq p, fun x hx => (hg.tuples p x hx).1, fun k => ?_, fun k hk i hi => ?_⟩
  · have hmem : (∃ x ∈ Q p, x.1.key = k) ↔ ∃ e ∈ s.shared.queue p, e.key = k := by
      rw [← hg.queue_eq p]
      simp
    rw [← hg.keys k, hmem]
    constructor
    · rintro ⟨e, he, rfl⟩
      rw [← hg.queue_eq p] at he
      obtain ⟨x, hx, rfl⟩ := mem_map.mp he
      obtain ⟨⟨-, hrow⟩, hp⟩ := hg.tuples p x hx
      have hpart : P.partitionOf (P.hashKey x.1.key) = p := by rw [← hrow.1, hp]
      exact ⟨hpart, .inr ⟨x.1, by rw [hpart, ← hg.queue_eq p]; exact mem_map.mpr ⟨x, hx, rfl⟩, rfl⟩⟩
    · rintro ⟨hpart, ⟨m, hm, hk⟩ | ⟨e, he, rfl⟩⟩
      · rw [hkeys m hm] at hk
        cases hk
      · exact ⟨e, hpart ▸ he, rfl⟩
  · -- nothing is left in the tables of the threads
    have hnone : ∀ t ∈ Finset.range (s.locals.map (·.main)).length,
        (L t k i : Multiset (Input V)) = 0 := by
      intro t ht
      have hm := getElem?_eq_getElem (Finset.mem_range.mp ht)
      have hmissing := (hg.groups t _ hm).represents.missing k
        (by rw [hkeys _ (mem_of_getElem? hm)]; exact not_mem_nil) i
      rw [hmissing]
      rfl
    have hinputs := hg.inputs i hi k
    rw [Finset.sum_eq_zero hnone, hk] at hinputs
    exact Multiset.coe_eq_coe.mp hinputs

/-- The distinct queues of a partition, when all threads are done. -/
theorem Inv.distinctQueue (hf : P.functions[i]? = some f) (hd : f.isDistinct = true) (p : Nat)
    (k : GroupKey V) :
    (∃ e ∈ s.shared.distinctTableQueues i p, e.key = k) ↔ P.partitionOf (P.hashKey k.dropLast) = p ∧
        ∃ c ∈ cs, c.DistinctKey P.functions c.inputs i k := by
  rw [← h.distincts.keys i k]
  constructor
  · rintro ⟨e, he, rfl⟩
    have hpart : P.partitionOf (P.hashKey e.key.dropLast) = p := (h.distincts.tuples i p e he).2.2
    exact ⟨hpart, .inr ⟨e, by rw [hpart]; exact he, rfl⟩⟩
  · rintro ⟨hpart, ⟨l, hl, hk⟩ | ⟨e, he, rfl⟩⟩
    · rw [(hempty l hl).distincts i f hf hd] at hk
      cases hk
    · exact ⟨e, hpart ▸ he, rfl⟩

/-- One partition: its groups, and the states of the functions. -/
theorem Inv.finalizePartition (hcs : ∀ c ∈ cs, c.Planned P) (p : Nat)
    {blocks : List (List (Entry V B))} (hblocks : blocks.flatten.Perm (s.shared.queue p))
    {distinctBlocks : Nat → List (List (Entry V B))}
    (hdistinct : ∀ i, (distinctBlocks i).flatten.Perm (s.shared.distinctTableQueues i p)) :
    ∃ t, Processor.finalizePartition P blocks distinctBlocks = some t ∧ t.keys.Nodup ∧
      (∀ k, k ∈ t.keys ↔ P.partitionOf (P.hashKey k) = p ∧
        ∃ c ∈ cs, ∃ r ∈ c.positions, c.keyAt r = k) ∧
      ∀ e ∈ t.entries, ∀ (i : Nat) f, P.functions[i]? = some f →
        ∃ xs, f.Takes (inputsOf cs i e.key) xs ∧
          readState e.states (stateOffset P.functions i) f.getAggregateStateSize =
            f.finalizeState (f.fold xs) := by
  -- the distinct tables
  have htuples : ∀ i, ∀ e ∈ (distinctBlocks i).flatten,
      HashTable.RowOk P.hashKey (P.numKeys + 1) e ∧ e.states = [] := by
    intro i e he
    have htuple := h.distincts.tuples i p e ((hdistinct i).subset he)
    exact ⟨htuple.1, htuple.2.1⟩
  obtain ⟨ds, hds, hlen, hdsSpec⟩ := mergeDistinctQueues_spec htuples P.functions 0
  have hdsKeys : ∀ (i : Nat) f d, P.functions[i]? = some f → ds[i]? = some d →
      f.isDistinct = true → ∀ k, k ∈ d.keys ↔ P.partitionOf (P.hashKey k.dropLast) = p ∧
        ∃ c ∈ cs, c.DistinctKey P.functions c.inputs i k := by
    intro i f d hf hd hdist k
    rw [(hdsSpec i f d hf hd hdist).2 k, ← h.distinctQueue hempty hf hdist p k, zero_add]
    exact exists_congr fun e => and_congr_left' (hdistinct i).mem_iff
  -- the groups
  obtain ⟨q, hq, htuples, hqKeys, hqInputs⟩ := h.queue hempty p
  obtain ⟨q', hq', hperm⟩ := (congrFun₂ (eq_map_comp_perm Prod.fst) _ q).mpr (hq ▸ hblocks)
  obtain ⟨blocks', rfl, hflat⟩ := exists_blocks_map_eq Prod.fst blocks q' hq'.symm
  obtain ⟨t, hmerge, ht, hroom⟩ := foldlM_merge P.functions P.numKeys P.hashKey
    blocks' fun x hx => htuples x (hperm.subset (hflat ▸ hx))
  rw [hflat] at ht
  have htKeys : ∀ k, k ∈ t.keys ↔ P.partitionOf (P.hashKey k) = p ∧
      ∃ c ∈ cs, ∃ r ∈ c.positions, c.keyAt r = k := by
    intro k
    rw [← hqKeys k, ht.keys k]
    simp only [empty, HashTable.keys, map_nil, not_mem_nil, false_or]
    exact exists_congr fun x => and_congr_left' hperm.mem_iff
  -- every distinct input belongs to a group of the partition
  have hgroup : ∀ (i : Nat) f d, P.functions[i]? = some f → ds[i]? = some d →
      f.isDistinct = true → ∀ e ∈ d.entries, e.key.dropLast ∈ t.keys := by
    intro i f d hf hd hdist e he
    obtain ⟨hpart, c, hc, hkey⟩ := (hdsKeys i f d hf hd hdist e.key).mp (mem_map.mpr ⟨e, he, rfl⟩)
    obtain ⟨r, hr, hrow⟩ := (hcs c hc).exists_row hkey
    exact (htKeys _).mpr ⟨hpart, c, hc, r, hr, hrow⟩
  have hinfo := mergeDistinctAggregateInfo_eq P.functions ds 0 t ht.groups.valid hroom hgroup
  refine ⟨(t.mapStates (distinctStates P.functions ds 0)).finalizeAggregateStates P.functions,
    ?_, ?_, ?_, ?_⟩
  · rw [Processor.finalizePartition, hds]
    simp only [Option.bind_eq_bind, Option.bind_some]
    rw [hmerge, Option.bind_some, hinfo]
    rfl
  · rw [keys_finalizeAggregateStates, keys_mapStates]
    exact ht.groups.valid.keys_nodup
  · rw [keys_finalizeAggregateStates, keys_mapStates]
    exact htKeys
  · intro e he i f hf
    obtain ⟨_, he₁, rfl⟩ := mem_map.mp he
    obtain ⟨e₂, he₂, rfl⟩ := mem_map.mp he₁
    obtain ⟨hpart, -⟩ := (htKeys e₂.key).mp (mem_map.mpr ⟨e₂, he₂, rfl⟩)
    have hi : i < P.functions.length := (List.getElem?_eq_some_iff.mp hf).1
    obtain ⟨d, hd⟩ : ∃ d, ds[i]? = some d := ⟨_, List.getElem?_eq_getElem (hlen ▸ hi)⟩
    have hstates : finalizeStates P.functions 0 (distinctStates P.functions ds 0 e₂.key e₂.states) =
        finalStatesOf P.functions fun i => mergedInputs P.functions q' e₂.key i ++
          distinctInputsOf P.functions ds e₂.key i := by
      rw [ht.groups.represents.states_eq e₂ he₂]
      have hdist := distinctStates_statesOf P.functions ds [] e₂.key
        (fun i => [] ++ mergedInputs P.functions q' e₂.key i)
      have hfinal := finalizeStates_statesOf P.functions [] fun i =>
        mergedInputs P.functions q' e₂.key i ++ distinctInputsOf P.functions ds e₂.key i
      simp only [nil_append, length_nil] at hdist hfinal ⊢
      rw [hdist, hfinal]
    refine ⟨mergedInputs P.functions q' e₂.key i ++ distinctInputsOf P.functions ds e₂.key i,
      ?_, ?_⟩
    · rw [AggregateFunction.Takes]
      cases hdist : f.isDistinct with
      | true =>
        obtain ⟨vs, hnodup, hvs, heq⟩ := distinctInputs_eq (hdsSpec i f d hf hd hdist).1.keys_nodup
          e₂.key
        refine ⟨vs, hnodup, fun v => ?_, ?_⟩
        · have hkey := hdsKeys i f d hf hd hdist (e₂.key ++ [some v])
          rw [dropLast_concat] at hkey
          refine (hvs v).trans (hkey.trans ?_)
          simp only [hpart, true_and, inputsOf, mem_flatMap]
          rw [exists_comm]
          refine exists_congr fun c => ?_
          rw [exists_and_left]
          exact and_congr_right fun hc => (hcs c hc).distinctKey_iff hf hdist e₂.key v
        · rw [mergedInputs, distinctInputsOf, hf, hd]
          simpa [hdist] using heq
      | false =>
        have hnone : distinctInputsOf P.functions ds e₂.key i = [] := by
          rw [distinctInputsOf, hf, hd]
          simp [hdist]
        rw [hnone, append_nil]
        have hplain : (cs.flatMap fun c => c.plainInputs P.functions c.inputs e₂.key i) =
            inputsOf cs i e₂.key :=
          flatMap_congr fun c hc => Chunk.plainInputs_eq (hcs c hc) hf hdist _
        rw [← hplain]
        exact (mergedInputs_perm hperm _ _).trans (hqInputs e₂.key hpart i hi)
    · dsimp only
      rw [hstates]
      exact readState_finalStatesOf hf _

end

theorem mapM_eq_some_map {f : α → Option β} {g : α → β} (l : List α)
    (h : ∀ a ∈ l, f a = some (g a)) : l.mapM f = some (l.map g) := by
  induction l with
  | nil => rfl
  | cons a _ ih =>
    rw [mapM_cons, h a mem_cons_self, ih fun b hb => h b (mem_cons_of_mem _ hb)]
    rfl

/-- The tables of all partitions. -/
theorem Inv.finalizePartitions (h : s.Inv P numThreads cs) (hempty : ∀ l ∈ s.locals, l.Emptied P)
    (hcs : ∀ c ∈ cs, c.Planned P) (hblocks : ∀ p, (blocks p).flatten.Perm (s.shared.queue p))
    {distinctBlocks : Nat → Nat → List (List (Entry V B))}
    (hdistinct : ∀ p i, (distinctBlocks p i).flatten.Perm (s.shared.distinctTableQueues i p)) :
    ∃ tables, finalizePartitions P blocks distinctBlocks = some tables ∧
      IsAggregation P.functions cs (tables.flatMap (·.entries)) := by
  choose t ht hnodup hkeys hstates using fun p =>
    h.finalizePartition hempty hcs p (hblocks p) (hdistinct p)
  have hentries : ((range P.numPartitions).map t).flatMap (·.entries) =
      (range P.numPartitions).flatMap fun p => (t p).entries := flatMap_map _ _ _
  refine ⟨(range P.numPartitions).map t, mapM_eq_some_map _ fun p _ => ht p, ?_⟩
  rw [hentries]
  constructor
  case nodup =>
    rw [map_flatMap, nodup_flatMap]
    refine ⟨fun p _ => hnodup p, nodup_range.imp fun {p p'} hne => ?_⟩
    -- a key is in the table of its partition only
    intro k hk hk'
    exact hne (((hkeys p k).mp hk).1.symm.trans ((hkeys p' k).mp hk').1)
  case groups =>
    intro k
    rw [map_flatMap, mem_flatMap]
    constructor
    · rintro ⟨p, -, hk⟩
      exact ((hkeys p k).mp hk).2
    · intro hrow
      refine ⟨P.partitionOf (P.hashKey k), ?_, (hkeys _ k).mpr ⟨rfl, hrow⟩⟩
      exact mem_range.mpr (Nat.mod_lt _ P.numPartitions_pos)
  case states =>
    intro e he
    obtain ⟨p, -, he⟩ := mem_flatMap.mp he
    exact hstates p e he

end HashAggregate

/-- Whatever the rows, their distribution over the threads and the points at which tables
are moved to the queues: if no function that is not distinct comes behind a distinct one,
the tables of all partitions together are the aggregation of the rows. -/
theorem hashAggregate_isAggregation (P : AggregatePlan V B) (numThreads : Nat)
    (actions : List (AggregateAction V)) (hfirst : NonDistinctFirst P.functions)
    (hactions : ∀ a ∈ actions, a.Planned P numThreads)
    (hdone : ∀ t < numThreads, Finished actions t) :
    ∃ s, HashAggregate.run P (.init P numThreads) actions = some s ∧
      ∀ (blocks : Nat → List (List (Entry V B)))
        (distinctBlocks : Nat → Nat → List (List (Entry V B))),
        (∀ p, (blocks p).flatten.Perm (s.shared.queue p)) →
        (∀ p i, (distinctBlocks p i).flatten.Perm (s.shared.distinctTableQueues i p)) →
        ∃ tables, finalizePartitions P blocks distinctBlocks = some tables ∧
          IsAggregation P.functions (actions.flatMap AggregateAction.chunks)
            (tables.flatMap (·.entries)) := by
  have hinit := HashAggregate.inv_init P numThreads
  obtain ⟨s, hrun, hs, -⟩ := HashAggregate.Inv.run hfirst actions _ _ hinit hactions
  refine ⟨s, hrun, fun blocks distinctBlocks hblocks hdistinct => ?_⟩
  have hempty : ∀ l ∈ s.locals, l.Emptied P := by
    intro l hl
    obtain ⟨t, ht⟩ := mem_iff_getElem?.mp hl
    have hlt : t < numThreads := hs.length_locals ▸ (List.getElem?_eq_some_iff.mp ht).1
    obtain ⟨_, hl', hempty⟩ := hinit.emptied hfirst hactions hrun (hdone t hlt)
    cases ht.symm.trans hl'
    exact hempty
  have hcs : ∀ c ∈ actions.flatMap AggregateAction.chunks, c.Planned P := by
    intro c hc
    obtain ⟨a, ha, hc⟩ := mem_flatMap.mp hc
    exact (hactions a ha).chunks c hc
  exact hs.finalizePartitions hempty hcs hblocks hdistinct

end Partition

/-! ## Two functions -/

/-- A function on one number to which every input adds, as `SUM` and `COUNT` do. -/
def accumulate (isDistinct : Bool) (amount : Option Nat → Nat) : AggregateFunction Nat Nat where
  isDistinct := isDistinct
  initialNullAggregateState := [0]
  updatePosState := fun s x n => s.map (· + amount x * n)
  combineState := fun s s' => s.map (· + s'.headD 0)
  finalizeState := id
  length_updatePosState := fun _ _ _ => List.length_map _
  length_combineState := fun _ _ => List.length_map _
  length_finalizeState := fun _ => rfl
  combineState_foldInputs := by
    have hfold : ∀ (xs : List (Input Nat)) (a : Nat),
        foldInputs (fun s x n => s.map (· + amount x * n)) [a] xs =
          [a + (xs.map fun x => amount x.1 * x.2).sum] := by
      intro xs
      induction xs with
      | nil => simp [foldInputs]
      | cons x xs ih =>
        intro a
        have hstep : foldInputs (fun s x n => s.map (· + amount x * n)) [a] (x :: xs) =
            foldInputs (fun s x n => s.map (· + amount x * n)) [a + amount x.1 * x.2] xs := rfl
        rw [hstep, ih, List.map_cons, List.sum_cons, Nat.add_assoc]
    intro xs ys
    simp [hfold]

def sum : AggregateFunction Nat Nat := accumulate false (·.getD 0)

def countDistinct : AggregateFunction Nat Nat := accumulate true fun _ => 1

/-- One row with the key 7, for two functions: one takes 3 and the other one 5. -/
def oneRow : Chunk Nat where
  isFlat := false
  positions := [0]
  keyAt := fun _ => [some 7]
  inputs := [⟨.flat (some 3), []⟩, ⟨.same fun _ => some 5, []⟩]
  resultSetMultiplicity := 1

/-- Two functions over one key column and one partition. -/
def twoFunctions (f g : AggregateFunction Nat Nat) : AggregatePlan Nat Nat where
  functions := [f, g]
  hashKey := fun k => k.length
  numKeys := 1
  numPartitions := 1
  numPartitions_pos := Nat.one_pos

theorem planned_oneRow (f g : AggregateFunction Nat Nat) : oneRow.Planned (twoFunctions f g) where
  length_positions := by decide
  length_keyAt := fun _ => rfl
  length_inputs := rfl
  flat := nofun
  distinct := by
    intro i f' a hf ha _ others values hv
    have hmem : a ∈ oneRow.inputs := mem_of_getElem? ha
    simp only [oneRow, mem_cons, not_mem_nil, or_false] at hmem
    rcases hmem with rfl | rfl <;> cases hv

theorem planned_oneRow_actions (f g : AggregateFunction Nat Nat) :
    ∀ a ∈ [AggregateAction.append 0 oneRow, .finish 0], a.Planned (twoFunctions f g) 1 := by
  intro a ha
  simp only [mem_cons, not_mem_nil, or_false] at ha
  rcases ha with rfl | rfl
  · exact ⟨one_pos, fun c hc => by
      obtain rfl : c = oneRow := mem_singleton.mp hc
      exact planned_oneRow f g⟩
  · exact ⟨one_pos, nofun⟩

theorem finished_oneRow_actions :
    ∀ t < 1, Finished [AggregateAction.append 0 oneRow, .finish 0] t := by
  intro t ht
  obtain rfl : t = 0 := by omega
  exact ⟨[.append 0 oneRow], [], rfl, by simp⟩

/-- A sum before a count of distinct values. -/
theorem sum_countDistinct_isAggregation : ∃ s, HashAggregate.run (twoFunctions sum countDistinct)
        (.init (twoFunctions sum countDistinct) 1) [.append 0 oneRow, .finish 0] = some s ∧
      ∃ tables, finalizePartitions (twoFunctions sum countDistinct)
          (fun p => [s.shared.queue p]) (fun p i => [s.shared.distinctTableQueues i p]) =
            some tables ∧
        IsAggregation [sum, countDistinct] [oneRow] (tables.flatMap (·.entries)) := by
  obtain ⟨s, hrun, hspec⟩ := hashAggregate_isAggregation (twoFunctions sum countDistinct) 1
    [.append 0 oneRow, .finish 0]
    (by simp [NonDistinctFirst, twoFunctions, sum, accumulate])
    (planned_oneRow_actions _ _) finished_oneRow_actions
  exact ⟨s, hrun, hspec _ _ (fun p => by simp) fun p i => by simp⟩

/-- A sum behind a count of distinct values is lost: the thread adds 5 to the state of the
count, and merges the state of the sum, which is still 0. -/
theorem countDistinct_sum_not_isAggregation : (∀ a ∈ [AggregateAction.append 0 oneRow, .finish 0],
      a.Planned (twoFunctions countDistinct sum) 1) ∧
    (∀ t < 1, Finished [AggregateAction.append 0 oneRow, .finish 0] t) ∧
    ∃ s, HashAggregate.run (twoFunctions countDistinct sum)
        (.init (twoFunctions countDistinct sum) 1) [.append 0 oneRow, .finish 0] = some s ∧
      ∃ tables, finalizePartitions (twoFunctions countDistinct sum)
          (fun p => [s.shared.queue p]) (fun p i => [s.shared.distinctTableQueues i p]) =
            some tables ∧
        (tables.flatMap (·.entries)).map (·.states) = [[1, 0]] ∧
        ¬IsAggregation [countDistinct, sum] [oneRow] (tables.flatMap (·.entries)) := by
  refine ⟨planned_oneRow_actions _ _, finished_oneRow_actions, ?_⟩
  have hresult : ((HashAggregate.run (twoFunctions countDistinct sum)
      (.init (twoFunctions countDistinct sum) 1) [.append 0 oneRow, .finish 0]).bind fun s =>
        finalizePartitions (twoFunctions countDistinct sum) (fun p => [s.shared.queue p])
          (fun p i => [s.shared.distinctTableQueues i p])).map (fun tables =>
            (tables.flatMap (·.entries)).map fun e => (e.key, e.states)) =
      some [([some 7], [1, 0])] := by
    decide +kernel
  obtain ⟨tables, htables, hentries⟩ := Option.map_eq_some_iff.mp hresult
  obtain ⟨s, hrun, hfinal⟩ := Option.bind_eq_some_iff.mp htables
  obtain ⟨e, he, hpair⟩ := map_eq_singleton_iff.mp hentries
  obtain ⟨hkey, hstates⟩ : e.key = [some 7] ∧ e.states = [1, 0] := Prod.mk.inj hpair
  refine ⟨s, hrun, tables, hfinal, by simp [he, hstates], fun h => ?_⟩
  obtain ⟨xs, htakes, hread⟩ := h.states e (by simp [he]) 1 sum rfl
  have hinputs : inputsOf [oneRow] 1 e.key = [(some 5, 1)] := by
    rw [hkey]
    decide
  have hxs : xs = [(some 5, 1)] := by
    rw [hinputs] at htakes
    exact perm_singleton.mp htakes
  rw [hstates, hxs] at hread
  revert hread
  decide

end Lbug.Processor
