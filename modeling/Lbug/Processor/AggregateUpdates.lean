/-
  Processor/AggregateUpdates.lean --- inputs that reach the states of their groups.

  For each operation of an aggregation that changes states: which inputs it adds to
  which function of which group.  A vector of rows adds the rows' inputs to the
  functions that are not distinct (`updateAggStates_spec`), if none of these comes
  behind a distinct function, and adds keys to the tables of the others; merging tuples
  adds what their states have seen (`mergeVector_spec`, `merge_spec`); the tuples of a
  distinct table are inputs of its function (`mergeDistinctAggregateInfo_spec`).
-/
import Lbug.Processor.AggregateStates

namespace Lbug.Processor

open Foundation List HashTable

universe u v

variable {V : Type u} {B : Type v} [DecidableEq V] {c : Chunk V} {k : GroupKey V}
  {fs : List (AggregateFunction V B)} {numKeys : Nat} {hashKey : GroupKey V → Nat}
  {tuples : List (Entry V B × (Nat → List (Input V)))} {inputs : List (AggregateInput V)}
  {distincts : List (HashTable V B)} {t : HashTable V B} {offset : Nat} {i : Nat}
  {rows : Nat → Entry V B} {slotIdxes : Nat → Nat} {a : AggregateVector V} {positions : List Nat}

/-- No function that is not distinct comes behind a distinct one. -/
def NonDistinctFirst (fs : List (AggregateFunction V B)) : Prop :=
  fs.Pairwise fun f g => f.isDistinct = true → g.isDistinct = true

/-- The inputs that a function takes from the rows of a group. -/
def Chunk.groupInputs (c : Chunk V) (a : AggregateInput V) (k : GroupKey V) : List (Input V) :=
  ((a.aggregateVector.updates c.positions).filter fun u => c.keyAt u.1 = k).map fun u =>
    (u.2, a.multiplicity c.resultSetMultiplicity)

/-- The inputs that the functions that are not distinct take from the rows of a group. -/
def Chunk.plainInputs (c : Chunk V) (fs : List (AggregateFunction V B))
    (inputs : List (AggregateInput V)) (k : GroupKey V) (i : Nat) : List (Input V) :=
  match fs[i]?, inputs[i]? with
  | some f, some a => if f.isDistinct then [] else c.groupInputs a k
  | _, _ => []

/-- The arguments that are not null in the rows at a position. -/
def AggregateVector.argumentsAt (p : Nat) : AggregateVector V → List (Option V)
  | .none => [Option.none]
  | .flat value => (value.map some).toList
  | .same values => ((values p).map some).toList
  | .other others values => others.filterMap fun q => (values q).map some

omit [DecidableEq V] in
theorem AggregateVector.updates_eq (positions : List Nat) (a : AggregateVector V) :
    a.updates positions = positions.flatMap fun p => (a.argumentsAt p).map fun x => (p, x) := by
  cases a with
  | none => simp [updates, argumentsAt, map_eq_flatMap]
  | flat value => cases value <;> simp [updates, argumentsAt, map_eq_flatMap]
  | same values =>
    rw [updates, filterMap_eq_flatMap_toList]
    refine flatMap_congr fun p _ => ?_
    cases hp : values p <;> simp [argumentsAt, hp]
  | other =>
    refine flatMap_congr fun p _ => ?_
    rw [argumentsAt, map_filterMap]
    simp [Function.comp_def]

omit [DecidableEq V] in
theorem AggregateVector.mem_updates {p : Nat} {x : Option V} (h : (p, x) ∈ a.updates positions) :
    p ∈ positions := by
  rw [updates_eq] at h
  obtain ⟨_, hq, h⟩ := mem_flatMap.mp h
  obtain ⟨_, -, he⟩ := mem_map.mp h
  cases he
  exact hq

theorem Chunk.groupInputs_eq_nil (hk : ∀ p ∈ c.positions, c.keyAt p ≠ k) (a : AggregateInput V) :
    c.groupInputs a k = [] := by
  rw [groupInputs, filter_eq_nil_iff.mpr, map_nil]
  intro u hu hkey
  exact hk u.1 (AggregateVector.mem_updates hu) (by simpa using hkey)

theorem Chunk.plainInputs_eq_nil (hk : ∀ p ∈ c.positions, c.keyAt p ≠ k) :
    c.plainInputs fs inputs k i = [] := by
  unfold plainInputs
  split
  · split
    · rfl
    · exact groupInputs_eq_nil hk _
  · rfl

/-! ## The rows of a chunk -/

/-- What `updateAggStates` does to the states of a group. -/
def updatedStates (c : Chunk V) :
    List (AggregateFunction V B) → List (AggregateInput V) → Nat → GroupKey V → List B → List B
  | f :: fs, a :: inputs, offset, k, s =>
    if f.isDistinct then updatedStates c fs inputs offset k s
    else updatedStates c fs inputs (offset + f.getAggregateStateSize) k
      ((c.groupInputs a k).foldl (fun s x => f.updateAt offset x s) s)
  | _, _, _, _, s => s

theorem updatedStates_of_distinct (hfs : ∀ f ∈ fs, f.isDistinct = true) (s : List B) :
    updatedStates c fs inputs offset k s = s := by
  induction fs generalizing inputs with
  | nil => rfl
  | cons f _ ih =>
    cases inputs with
    | nil => rfl
    | cons =>
      rw [updatedStates, if_pos (hfs f mem_cons_self)]
      exact ih fun g hg => hfs g (mem_cons_of_mem _ hg)

/-- Up to the first distinct function the offset is that of the function's own state; from
there on no state is updated. -/
theorem updatedStates_statesOf (hfs : NonDistinctFirst fs) (inputs : List (AggregateInput V))
    (p : List B) (k : GroupKey V) (xs : Nat → List (Input V)) :
    updatedStates c fs inputs p.length k (p ++ statesOf fs xs) =
      p ++ statesOf fs fun i => xs i ++ c.plainInputs fs inputs k i := by
  induction fs generalizing inputs p xs with
  | nil => simp [updatedStates, statesOf]
  | cons f fs ih =>
    obtain ⟨hf, hfs⟩ := pairwise_cons.mp hfs
    cases inputs with
    | nil =>
      exact congrArg (p ++ ·) (statesOf_congr fun i _ => by simp [Chunk.plainInputs])
    | cons a =>
      cases hd : f.isDistinct with
      | true =>
        have hall : ∀ g ∈ f :: fs, g.isDistinct = true :=
          forall_mem_cons.mpr ⟨hd, fun g hg => hf g hg hd⟩
        rw [updatedStates_of_distinct hall]
        refine congrArg (p ++ ·) (statesOf_congr fun i _ => ?_)
        unfold Chunk.plainInputs
        split
        · rename_i g b hg _
          rw [if_pos (hall g (mem_of_getElem? hg)), append_nil]
        · rw [append_nil]
      | false =>
        rw [updatedStates, statesOf, ← append_assoc, f.foldl_updateAt_append, statesOf]
        rw [f.length_add_size p (xs 0 ++ c.groupInputs a k), ih hfs]
        simp [Chunk.plainInputs, hd]

/-- A table of distinct inputs that can grow. -/
structure HashTable.DistinctOk (d : HashTable V B) (hashKey : GroupKey V → Nat) (numKeys : Nat) :
    Prop where
  valid : d.Valid hashKey numKeys
  two_le : 2 ≤ d.maxNumHashSlots
  states_nil : ∀ e ∈ d.entries, e.states = []

theorem HashTable.DistinctOk.appendKeys {d : HashTable V B} (h : d.DistinctOk hashKey numKeys)
    {keys : List (GroupKey V)} (hkeys : ∀ k ∈ keys, k.length = numKeys) :
    ∃ d', d.appendKeys hashKey numKeys keys = some d' ∧ d'.DistinctOk hashKey numKeys ∧
      ∀ k, k ∈ d'.keys ↔ k ∈ d.keys ∨ k ∈ keys := by
  obtain ⟨t, hresize, hv, hentries, hroom, hcap⟩ :=
    resizeHashTableIfNecessary_spec h.valid h.two_le
  let rows : Nat → Entry V B := fun idx =>
    { key := (keys[idx]?).getD [], hash := hashKey ((keys[idx]?).getD []), states := [] }
  have hrow : ∀ idx ∈ range keys.length,
      ∃ k, keys[idx]? = some k ∧ (rows idx).key = k ∧ k ∈ keys := by
    intro idx hidx
    have hlt := mem_range.mp hidx
    refine ⟨keys[idx], getElem?_eq_getElem hlt, ?_, getElem_mem hlt⟩
    simp [rows, getElem?_eq_getElem hlt]
  have hrowOk : ∀ idx ∈ range keys.length, HashTable.RowOk hashKey numKeys (rows idx) := by
    intro idx hidx
    obtain ⟨k, -, hk, hmem⟩ := hrow idx hidx
    exact ⟨rfl, by rw [hk]; exact hkeys k hmem⟩
  obtain ⟨t', slotIdxes, hfind, hv', hgrown, -, hfound⟩ :=
    findHashSlots_spec hv hrowOk (by simpa using hroom)
  refine ⟨t', ?_, ⟨hv', by rw [hgrown.extend.maxNumHashSlots_eq]; exact hcap, fun e he => ?_⟩,
    fun k => ?_⟩
  · have hfind' : t.findHashSlots numKeys (fun idx =>
        { key := (keys[idx]?).getD [], hash := hashKey ((keys[idx]?).getD []), states := [] })
        (range keys.length) = some (t', slotIdxes) := hfind
    rw [HashTable.appendKeys, hresize, Option.bind_some, hfind']
    rfl
  · rcases hgrown.mem e he with he | ⟨_, -, rfl⟩
    · exact h.states_nil e (hentries ▸ he)
    · rfl
  · have hold : t.keys = d.keys := by rw [HashTable.keys, hentries]; rfl
    rw [hgrown.mem_keys hfound k, hold]
    refine or_congr_right ⟨?_, fun hk => ?_⟩
    · rintro ⟨idx, hidx, rfl⟩
      obtain ⟨_, -, hk, hmem⟩ := hrow idx hidx
      exact hk ▸ hmem
    · obtain ⟨idx, hlt, rfl⟩ := getElem_of_mem hk
      exact ⟨idx, mem_range.mpr hlt, by simp [rows, getElem?_eq_getElem hlt]⟩

/-- The keys that a chunk adds to the tables of distinct inputs. -/
def Chunk.DistinctKey (c : Chunk V) (fs : List (AggregateFunction V B))
    (inputs : List (AggregateInput V)) (i : Nat) (k : GroupKey V) : Prop :=
  ∃ f a, fs[i]? = some f ∧ inputs[i]? = some a ∧ f.isDistinct = true ∧
    k ∈ a.aggregateVector.distinctKeys c.positions c.keyAt

omit [DecidableEq V] in
theorem AggregateVector.length_distinctKeys {keyAt : Nat → GroupKey V}
    (hkeys : ∀ p, (keyAt p).length = numKeys) (hk : k ∈ a.distinctKeys positions keyAt) :
    k.length = numKeys + 1 := by
  cases a with
  | none => cases hk
  | flat | same | other =>
    obtain ⟨_, -, rfl⟩ := mem_map.mp hk
    simp [hkeys]

variable (offset) in
theorem updateAggStates_spec (hkeys : ∀ p, (c.keyAt p).length = numKeys)
    (hrows : ∀ p, (rows p).key = c.keyAt p) (hinputs : inputs.length = fs.length)
    (hdistincts : distincts.length = fs.length)
    (hok : ∀ d ∈ distincts, d.DistinctOk hashKey (numKeys + 1)) (hv : t.Valid hashKey numKeys)
    (hf : ∀ p ∈ c.positions, t.Found slotIdxes rows p) :
    ∃ distincts', updateAggStates hashKey numKeys c slotIdxes fs inputs distincts offset t =
        some (t.mapStates (updatedStates c fs inputs offset), distincts') ∧
      distincts'.length = fs.length ∧
      (∀ d ∈ distincts', d.DistinctOk hashKey (numKeys + 1)) ∧
      ∀ (i : Nat) d d', distincts[i]? = some d → distincts'[i]? = some d' →
        ∀ k, k ∈ d'.keys ↔ k ∈ d.keys ∨ c.DistinctKey fs inputs i k := by
  induction fs generalizing inputs distincts offset t with
  | nil =>
    obtain rfl := length_eq_zero_iff.mp hdistincts
    refine ⟨[], ?_, rfl, by simp, by simp⟩
    rw [updateAggStates.eq_2 hashKey numKeys c slotIdxes [] inputs [] offset t (by simp)]
    have hid : updatedStates c ([] : List (AggregateFunction V B)) inputs offset =
        fun _ s => s := by
      funext k s
      rw [updatedStates.eq_2 c _ _ _ _ _ (by simp)]
    rw [hid, mapStates_id]
  | cons f fs ih =>
    obtain ⟨a, inputs, rfl⟩ := exists_cons_of_length_eq_add_one hinputs
    obtain ⟨d, distincts, rfl⟩ := exists_cons_of_length_eq_add_one hdistincts
    simp only [length_cons, add_right_cancel_iff] at hinputs hdistincts
    have hokd := hok d mem_cons_self
    have hokrest : ∀ d ∈ distincts, d.DistinctOk hashKey (numKeys + 1) := fun d hd =>
      hok d (mem_cons_of_mem _ hd)
    cases hd : f.isDistinct with
    | true =>
      have hlength : ∀ k ∈ a.aggregateVector.distinctKeys c.positions c.keyAt,
          k.length = numKeys + 1 := fun k hk => AggregateVector.length_distinctKeys hkeys hk
      obtain ⟨d', hd', hok', hmem⟩ := hokd.appendKeys hlength
      obtain ⟨ds', hrun, hlen, hoks, hall⟩ := ih offset hinputs hdistincts hokrest hv hf
      refine ⟨d' :: ds', ?_, by simp [hlen], ?_, ?_⟩
      · rw [updateAggStates, if_pos hd]
        dsimp only
        rw [hd', hrun]
        have hstates : updatedStates c (f :: fs) (a :: inputs) offset =
            updatedStates c fs inputs offset := by
          funext k s
          rw [updatedStates, if_pos hd]
        rw [hstates]
        rfl
      · exact forall_mem_cons.mpr ⟨hok', hoks⟩
      · intro i e e' he he' k
        cases i with
        | zero =>
          cases he
          cases he'
          rw [hmem k]
          exact or_congr_right ⟨fun hk => ⟨f, a, rfl, rfl, hd, hk⟩, by
            rintro ⟨_, _, ⟨⟩, ⟨⟩, -, hk⟩
            exact hk⟩
        | succ i => exact hall i e e' he he' k
    | false =>
      have hfound : ∀ u ∈ a.aggregateVector.updates c.positions, t.Found slotIdxes rows u.1 :=
        fun u hu => hf u.1 (AggregateVector.mem_updates hu)
      have hupdate : t.updateAggState slotIdxes f (a.aggregateVector.updates c.positions)
          (a.multiplicity c.resultSetMultiplicity) offset =
          t.mapStates fun k s =>
            (c.groupInputs a k).foldl (fun s x => f.updateAt offset x s) s := by
        rw [updateAggState, HashTable.Valid.foldl_updateSlotStates Prod.fst
          (fun u => f.updateAt offset (u.2, a.multiplicity c.resultSetMultiplicity)) _ t hv hfound]
        congr
        funext k s
        simp only [Chunk.groupInputs, foldl_map, hrows]
      obtain ⟨ds', hrun, hlen, hoks, hall⟩ := ih _ hinputs hdistincts hokrest (hv.mapStates _)
        fun p hp => found_mapStates (hf p hp)
          fun k s => (c.groupInputs a k).foldl (fun s x => f.updateAt offset x s) s
      refine ⟨d :: ds', ?_, by simp [hlen], ?_, ?_⟩
      · rw [updateAggStates, if_neg (by simp [hd]), hupdate]
        dsimp only
        rw [hrun, mapStates_mapStates]
        have hstates : updatedStates c (f :: fs) (a :: inputs) offset = fun k s =>
            updatedStates c fs inputs (offset + f.getAggregateStateSize) k
              ((c.groupInputs a k).foldl (fun s x => f.updateAt offset x s) s) := by
          funext k s
          rw [updatedStates, if_neg (by simp [hd])]
        rw [hstates]
        rfl
      · exact forall_mem_cons.mpr ⟨hokd, hoks⟩
      · intro i e e' he he' k
        cases i with
        | zero =>
          cases he
          cases he'
          refine ⟨.inl, fun h => h.resolve_right ?_⟩
          rintro ⟨_, _, ⟨⟩, -, hdist, -⟩
          rw [hd] at hdist
          cases hdist
        | succ i => exact hall i e e' he he' k

/-! ## Tuples

A tuple is an entry that comes out of another table.  Next to it stand the inputs that
its states have seen. -/

/-- The inputs that tuples bring along for the functions that are not distinct. -/
def mergedInputs (fs : List (AggregateFunction V B))
    (tuples : List (Entry V B × (Nat → List (Input V)))) (k : GroupKey V) (i : Nat) :
    List (Input V) :=
  match fs[i]? with
  | some f =>
    if f.isDistinct then [] else (tuples.filter fun x => x.1.key = k).flatMap fun x => x.2 i
  | none => []

/-- What `combineStates` does to the states of a group. -/
def combinedStates (tuples : List (Entry V B)) :
    List (AggregateFunction V B) → Nat → GroupKey V → List B → List B
  | [], _, _, s => s
  | f :: fs, offset, k, s =>
    combinedStates tuples fs (offset + f.getAggregateStateSize) k (if f.isDistinct then s
        else (tuples.filter fun e => e.key = k).foldl (fun s e => writeState s offset
          (f.combineState (readState s offset f.getAggregateStateSize)
            (readState e.states offset f.getAggregateStateSize))) s)

theorem combineStates_eq {tuples : List (Entry V B)}
    (hrows : ∀ x ∈ tuples.zipIdx, (rows x.2).key = x.1.key) (hv : t.Valid hashKey numKeys)
    (hf : ∀ i ∈ List.range tuples.length, t.Found slotIdxes rows i) :
    combineStates slotIdxes tuples fs offset t = t.mapStates (combinedStates tuples fs offset) := by
  induction fs generalizing offset t with
  | nil => exact mapStates_id.symm
  | cons f _ ih =>
    -- the pass of one function over the tuples
    let g : GroupKey V → List B → List B := combinedStates tuples [f] offset
    have hpass : (if f.isDistinct then t
        else tuples.zipIdx.foldl (fun t p => t.updateSlotStates (slotIdxes p.2) fun states =>
          writeState states offset (f.combineState
            (readState states offset f.getAggregateStateSize)
            (readState p.1.states offset f.getAggregateStateSize))) t) = t.mapStates g := by
      cases hd : f.isDistinct with
      | true => simp [g, combinedStates, hd, mapStates_id]
      | false =>
        rw [if_neg (by simp), HashTable.Valid.foldl_updateSlotStates Prod.snd _ _ t hv
          fun x hx => hf x.2 (mem_range.mpr (by
            have := snd_lt_of_mem_zipIdx hx
            omega))]
        congr
        funext k s
        have hfilter : (tuples.zipIdx.filter fun x => (rows x.2).key = k) =
            tuples.zipIdx.filter fun x => x.1.key = k :=
          filter_congr fun x hx => by rw [hrows x hx]
        have hfst : (tuples.zipIdx.filter fun x => x.1.key = k).map Prod.fst =
            tuples.filter fun e => e.key = k := by
          conv_rhs => rw [← zipIdx_map_fst 0 tuples, filter_map]
          rfl
        simp only [g, combinedStates, hd, Bool.false_eq_true, if_false, hfilter, ← hfst,
          foldl_map]
    rw [combineStates]
    rw [hpass, ih (hv.mapStates g) fun i hi => found_mapStates (hf i hi) g,
      mapStates_mapStates]
    rfl

omit [DecidableEq V] in
/-- Combining the states of tuples, at the right offset, adds their inputs. -/
theorem AggregateFunction.foldl_combine (f : AggregateFunction V B) {p q : List B}
    (htuples : ∀ x ∈ tuples, ∃ p' q', p'.length = p.length ∧
      x.1.states = p' ++ f.fold (x.2 0) ++ q') (xs : List (Input V)) :
    tuples.foldl (fun s x => writeState s p.length
        (f.combineState (readState s p.length f.getAggregateStateSize)
          (readState x.1.states p.length f.getAggregateStateSize))) (p ++ f.fold xs ++ q) =
      p ++ f.fold (xs ++ tuples.flatMap fun x => x.2 0) ++ q := by
  induction tuples generalizing xs with
  | nil => simp
  | cons x _ ih =>
    obtain ⟨_, _, hp', hstates⟩ := htuples x mem_cons_self
    have hread : readState x.1.states p.length f.getAggregateStateSize = f.fold (x.2 0) := by
      rw [hstates, ← hp', readState_append (f.length_fold _)]
    rw [foldl_cons, readState_append (f.length_fold xs), hread,
      writeState_append (f.length_combineState _ _), fold, fold, f.combineState_foldInputs,
      ← fold, ih fun y hy => htuples y (mem_cons_of_mem _ hy), append_assoc xs,
      flatMap_cons]

variable (tuples) in
theorem combinedStates_statesOf (p : List B)
    (htuples : ∀ x ∈ tuples, ∃ p', p'.length = p.length ∧ x.1.states = p' ++ statesOf fs x.2)
    (k : GroupKey V) (xs : Nat → List (Input V)) :
    combinedStates (tuples.map Prod.fst) fs p.length k (p ++ statesOf fs xs) =
      p ++ statesOf fs fun i => xs i ++ mergedInputs fs tuples k i := by
  induction fs generalizing tuples p xs with
  | nil => simp [combinedStates, statesOf]
  | cons f fs ih =>
    -- the first function, and the tuples without it
    let ys : List (Input V) := mergedInputs (f :: fs) tuples k 0
    have hfirst : (if f.isDistinct then p ++ statesOf (f :: fs) xs
        else ((tuples.map Prod.fst).filter fun e => e.key = k).foldl
          (fun s e => writeState s p.length
            (f.combineState (readState s p.length f.getAggregateStateSize)
              (readState e.states p.length f.getAggregateStateSize)))
          (p ++ statesOf (f :: fs) xs)) =
        p ++ f.fold (xs 0 ++ ys) ++ statesOf fs fun i => xs (i + 1) := by
      cases hd : f.isDistinct with
      | true => simp [ys, mergedInputs, hd, statesOf]
      | false =>
        rw [statesOf, ← append_assoc, filter_map, foldl_map]
        rw [f.foldl_combine fun x hx => by
          obtain ⟨p', hp', hstates⟩ := htuples x (mem_of_mem_filter hx)
          exact ⟨p', statesOf fs fun i => x.2 (i + 1), hp', by
            rw [hstates, statesOf, append_assoc]⟩]
        simp [ys, mergedInputs, hd, Function.comp_def]
    have hrest := ih (tuples.map fun x => (x.1, fun i => x.2 (i + 1))) (p ++ f.fold (xs 0 ++ ys))
      (fun x hx => by
        obtain ⟨y, hy, rfl⟩ := mem_map.mp hx
        obtain ⟨p', hp', hstates⟩ := htuples y hy
        refine ⟨p' ++ f.fold (y.2 0), ?_, ?_⟩
        · rw [← f.length_add_size, ← f.length_add_size, hp']
        · rw [hstates, statesOf, append_assoc]) fun i => xs (i + 1)
    have hmap : (tuples.map fun x => (x.1, fun i => x.2 (i + 1))).map Prod.fst =
        tuples.map Prod.fst := by simp
    rw [combinedStates, hfirst, f.length_add_size p (xs 0 ++ ys), ← hmap, hrest, append_assoc]
    congr 2
    refine statesOf_congr fun i _ => ?_
    simp only [mergedInputs, filter_map, flatMap_map]
    rfl

theorem mergedInputs_append (tuples' : List (Entry V B × (Nat → List (Input V)))) :
    mergedInputs fs (tuples ++ tuples') k i =
      mergedInputs fs tuples k i ++ mergedInputs fs tuples' k i := by
  unfold mergedInputs
  split
  · split
    · rfl
    · rw [filter_append, flatMap_append]
  · rfl

theorem mergedInputs_eq_nil (hk : ∀ x ∈ tuples, x.1.key ≠ k) : mergedInputs fs tuples k i = [] := by
  unfold mergedInputs
  split
  · split
    · rfl
    · rw [filter_eq_nil_iff.mpr fun x hx hkey => hk x hx (by simpa using hkey), flatMap_nil]
  · rfl

/-- A tuple with the states of its inputs, for a table with these keys. -/
def TupleOk (fs : List (AggregateFunction V B)) (hashKey : GroupKey V → Nat) (numKeys : Nat)
    (x : Entry V B × (Nat → List (Input V))) : Prop :=
  x.1.states = statesOf fs x.2 ∧ HashTable.RowOk hashKey numKeys x.1

/-- A table that holds the states of its groups' inputs. -/
structure HashTable.Groups (fs : List (AggregateFunction V B)) (hashKey : GroupKey V → Nat)
    (numKeys : Nat) (t : HashTable V B) (xs : GroupKey V → Nat → List (Input V)) : Prop where
  valid : t.Valid hashKey numKeys
  represents : t.Represents fs xs

section Merge

variable {xs : GroupKey V → Nat → List (Input V)}

variable (fs hashKey numKeys) in
omit [DecidableEq V] in
theorem HashTable.groups_empty : (empty : HashTable V B).Groups fs hashKey numKeys fun _ _ => [] :=
  ⟨valid_empty _, by simp [empty], fun _ _ _ => rfl⟩

/-- A table of which `xs` are the inputs has taken in tuples. -/
structure HashTable.Merged (fs : List (AggregateFunction V B)) (hashKey : GroupKey V → Nat)
    (numKeys : Nat) (t : HashTable V B) (xs : GroupKey V → Nat → List (Input V))
    (tuples : List (Entry V B × (Nat → List (Input V)))) (t' : HashTable V B) : Prop where
  groups : t'.Groups fs hashKey numKeys fun k i => xs k i ++ mergedInputs fs tuples k i
  keys : ∀ k, k ∈ t'.keys ↔ k ∈ t.keys ∨ ∃ x ∈ tuples, x.1.key = k

theorem HashTable.Merged.trans {t₁ t' : HashTable V B}
    {tuples' : List (Entry V B × (Nat → List (Input V)))}
    (h : Merged fs hashKey numKeys t xs tuples t₁)
    (h' : Merged fs hashKey numKeys t₁ (fun k i => xs k i ++ mergedInputs fs tuples k i) tuples'
      t') :
    Merged fs hashKey numKeys t xs (tuples ++ tuples') t' := by
  refine ⟨?_, fun k => ?_⟩
  · have hxs : (fun k i => xs k i ++ mergedInputs fs (tuples ++ tuples') k i) =
        fun k i => (xs k i ++ mergedInputs fs tuples k i) ++ mergedInputs fs tuples' k i := by
      funext k i
      rw [mergedInputs_append, append_assoc]
    rw [hxs]
    exact h'.groups
  · rw [h'.keys k, h.keys k]
    simp only [mem_append, or_and_right, exists_or, or_assoc]

theorem flatten_vectors {α : Type u} (fuel : Nat) (l : List α) (hfuel : l.length ≤ fuel) :
    (vectors fuel l).flatten = l := by
  induction fuel generalizing l with
  | zero => simpa [vectors] using (length_eq_zero_iff.mp (by omega)).symm
  | succ fuel ih =>
    cases l with
    | nil => rfl
    | cons a rest =>
      have hdrop : ((a :: rest).drop defaultVectorCapacity).length ≤ fuel := by
        simp only [length_drop, defaultVectorCapacity] at hfuel ⊢
        omega
      rw [vectors, flatten_cons, ih _ hdrop, take_append_drop]

theorem vectors_map {α β : Type u} (f : α → β) (fuel : Nat) (l : List α) :
    vectors fuel (l.map f) = (vectors fuel l).map (map f) := by
  induction fuel generalizing l with
  | zero => rfl
  | succ _ ih =>
    cases l with
    | nil => rfl
    | cons =>
      rw [map_cons, vectors, vectors, ← map_cons, ← map_take, ← map_drop, ih, map_cons]

section

variable (h : t.Groups fs hashKey numKeys xs)

include h

theorem HashTable.Groups.merged_nil : Merged fs hashKey numKeys t xs [] t := by
  refine ⟨?_, by simp⟩
  have hxs : (fun k i => xs k i ++ mergedInputs fs [] k i) = xs := by
    funext k i
    rw [mergedInputs_eq_nil (by simp), append_nil]
  rw [hxs]
  exact h

theorem HashTable.Groups.mergeVector (htuples : ∀ x ∈ tuples, TupleOk fs hashKey numKeys x)
    (hroom : t.entries.length + tuples.length < t.maxNumHashSlots) :
    ∃ t', t.mergeVector fs numKeys (tuples.map Prod.fst) = some t' ∧
      Merged fs hashKey numKeys t xs tuples t' ∧ t'.maxNumHashSlots = t.maxNumHashSlots ∧
      t'.entries.length ≤ t.entries.length + tuples.length := by
  let rows : Nat → Entry V B := fun idx =>
    (((tuples.map Prod.fst)[idx]?).map fun e => { e with states := initialStates fs }).getD
      { key := [], hash := 0, states := [] }
  have hrow : ∀ idx (hlt : idx < tuples.length),
      rows idx = { tuples[idx].1 with states := initialStates fs } := by
    intro idx hlt
    simp [rows, getElem?_eq_getElem hlt]
  have hrowOk : ∀ idx ∈ range tuples.length, RowOk hashKey numKeys (rows idx) := by
    intro idx hidx
    have hlt := mem_range.mp hidx
    rw [hrow idx hlt]
    exact (htuples _ (getElem_mem hlt)).2
  obtain ⟨t₁, slotIdxes, hfind, hv, hgrown, hlen, hfound⟩ :=
    findHashSlots_spec h.valid hrowOk (by simpa using hroom)
  have hrep := h.represents.grown hv hgrown fun idx hidx => by
    rw [hrow idx (mem_range.mp hidx)]
  have hzip : ∀ x ∈ (tuples.map Prod.fst).zipIdx, (rows x.2).key = x.1.key := by
    intro x hx
    have hget := mem_zipIdx_iff_getElem?.mp hx
    simp only [rows, hget]
    rfl
  have hfound' : ∀ i ∈ range (tuples.map Prod.fst).length, t₁.Found slotIdxes rows i := by
    simpa using hfound
  have hcombine : combineStates slotIdxes _ fs 0 t₁ = _ := combineStates_eq hzip hv hfound'
  have hkeys : ∀ k, k ∈ t₁.keys ↔ k ∈ t.keys ∨ ∃ x ∈ tuples, x.1.key = k := by
    intro k
    rw [hgrown.mem_keys hfound k]
    refine or_congr_right ⟨?_, ?_⟩
    · rintro ⟨idx, hidx, rfl⟩
      have hlt := mem_range.mp hidx
      exact ⟨tuples[idx], getElem_mem hlt, by rw [hrow idx hlt]⟩
    · rintro ⟨x, hx, rfl⟩
      obtain ⟨idx, hlt, rfl⟩ := getElem_of_mem hx
      exact ⟨idx, mem_range.mpr hlt, by rw [hrow idx hlt]⟩
  refine ⟨t₁.mapStates (combinedStates (tuples.map Prod.fst) fs 0), ?_,
    ⟨⟨hv.mapStates _, ⟨fun e he => ?_, fun k hk i => ?_⟩⟩, by simpa using hkeys⟩,
    hgrown.extend.maxNumHashSlots_eq, by simpa using hlen⟩
  · have hfind' : t.findHashSlots numKeys rows (range (tuples.map Prod.fst).length) =
        some (t₁, slotIdxes) := by
      rw [length_map]
      exact hfind
    rw [HashTable.mergeVector, hfind', Option.map_some, hcombine]
  · obtain ⟨e', he', rfl⟩ := mem_map.mp he
    have hcombined := combinedStates_statesOf tuples []
      (fun x hx => ⟨[], rfl, (htuples x hx).1⟩) e'.key (xs e'.key)
    simpa [← hrep.states_eq e' he'] using hcombined
  · rw [keys_mapStates, hkeys k, not_or] at hk
    rw [h.represents.missing k hk.1 i]
    exact mergedInputs_eq_nil fun x hx hxk => hk.2 ⟨x, hx, hxk⟩

/-- Lists of tuples, one after the other; `Room n` is what `n` more tuples need. -/
theorem HashTable.Groups.foldlM {f : HashTable V B → List (Entry V B) → Option (HashTable V B)}
    (Room : Nat → HashTable V B → Prop)
    (hstep : ∀ {t xs tuples} n, t.Groups fs hashKey numKeys xs → Room (tuples.length + n) t →
      (∀ x ∈ tuples, TupleOk fs hashKey numKeys x) → ∃ t', f t (tuples.map Prod.fst) = some t' ∧
        Merged fs hashKey numKeys t xs tuples t' ∧ Room n t')
    (vs : List (List (Entry V B × (Nat → List (Input V))))) (hroom : Room vs.flatten.length t)
    (htuples : ∀ x ∈ vs.flatten, TupleOk fs hashKey numKeys x) :
    ∃ t', (vs.map (map Prod.fst)).foldlM f t = some t' ∧
      Merged fs hashKey numKeys t xs vs.flatten t' ∧ Room 0 t' := by
  induction vs generalizing t xs with
  | nil => exact ⟨t, rfl, h.merged_nil, hroom⟩
  | cons _ _ ih =>
    rw [flatten_cons, length_append] at hroom
    obtain ⟨_, hmerge, h₁, hroom₁⟩ := hstep _ h hroom
      fun x hx => htuples x (mem_append_left _ hx)
    obtain ⟨t', hrun, h', hroom'⟩ := ih h₁.groups hroom₁
      fun x hx => htuples x (mem_append_right _ hx)
    refine ⟨t', ?_, h₁.trans h', hroom'⟩
    rw [map_cons, foldlM_cons, hmerge]
    exact hrun

theorem HashTable.Groups.merge (hcap : 2 ≤ t.maxNumHashSlots)
    (htuples : ∀ x ∈ tuples, TupleOk fs hashKey numKeys x) :
    ∃ t', t.merge fs numKeys (tuples.map Prod.fst) = some t' ∧
      Merged fs hashKey numKeys t xs tuples t' ∧ 2 ≤ t'.maxNumHashSlots ∧
      t'.entries.length < t'.maxNumHashSlots := by
  obtain ⟨t₁, hresize, hv, hentries, hroom, hcap₁⟩ :=
    resizeHashTableIfNecessary_spec h.valid (n := (tuples.map Prod.fst).length) hcap
  have hold : t₁.keys = t.keys := by rw [keys, hentries]; rfl
  have h₁ : t₁.Groups fs hashKey numKeys xs := by
    refine ⟨hv, fun e he => h.represents.states_eq e (hentries ▸ he), fun k hk => ?_⟩
    exact h.represents.missing k (hold ▸ hk)
  have hflat := flatten_vectors tuples.length tuples le_rfl
  obtain ⟨t', hrun, h', hroom'⟩ := h₁.foldlM
    (fun n t => 2 ≤ t.maxNumHashSlots ∧ t.entries.length + n < t.maxNumHashSlots)
    (fun n h hroom htuples => by
      obtain ⟨t', hmerge, hmerged, hcap, hlen⟩ := h.mergeVector htuples (by omega)
      exact ⟨t', hmerge, hmerged, by omega, by omega⟩)
    (vectors tuples.length tuples) ⟨by omega, by rw [hflat]; simpa using hroom⟩ (by rwa [hflat])
  rw [hflat] at h'
  refine ⟨t', ?_, ⟨h'.groups, fun k => ?_⟩, hroom'⟩
  · rw [HashTable.merge, hresize, vectors_map, length_map]
    exact hrun
  · rw [h'.keys k, hold]

end

variable (fs hashKey numKeys) in
/-- Blocks of tuples, one after the other. -/
theorem HashTable.foldlM_merge (blocks : List (List (Entry V B × (Nat → List (Input V)))))
    (htuples : ∀ x ∈ blocks.flatten, TupleOk fs hashKey numKeys x) :
    ∃ t', (blocks.map (map Prod.fst)).foldlM (merge fs numKeys) .empty = some t' ∧
      Merged fs hashKey numKeys .empty (fun _ _ => []) blocks.flatten t' ∧
      t'.entries.length < t'.maxNumHashSlots := by
  obtain ⟨t', hrun, h', -, hroom⟩ := (groups_empty fs numKeys hashKey).foldlM
    (fun _ t => 2 ≤ t.maxNumHashSlots ∧ t.entries.length < t.maxNumHashSlots)
    (fun _ h hroom => h.merge hroom.1) blocks
    ⟨Nat.le_of_ble_eq_true rfl, Nat.le_of_ble_eq_true rfl⟩ htuples
  exact ⟨t', hrun, h', hroom⟩

end Merge

/-! ## Distinct inputs -/

/-- The inputs that a group has in a table of distinct inputs. -/
def distinctInputs (tuples : List (Entry V B)) (k : GroupKey V) : List (Input V) :=
  tuples.filterMap fun e =>
    if e.key.dropLast = k then e.key.getLast?.join.map fun v => (some v, 1) else none

theorem mergeDistinctTable_eq (f : AggregateFunction V B) (offset : Nat) (tuples : List (Entry V B))
    (t : HashTable V B) (hv : t.Valid hashKey numKeys)
    (hroom : t.entries.length < t.maxNumHashSlots)
    (htuples : ∀ e ∈ tuples, e.key.dropLast ∈ t.keys) :
    t.mergeDistinctTable hashKey f offset tuples = some (t.mapStates fun k s =>
      (distinctInputs tuples k).foldl (fun s x => f.updateAt offset x s) s) := by
  unfold mergeDistinctTable
  induction tuples generalizing t with
  | nil => exact congrArg some mapStates_id.symm
  | cons e tuples ih =>
    have hrest : ∀ e ∈ tuples, e.key.dropLast ∈ t.keys := fun e he =>
      htuples e (mem_cons_of_mem _ he)
    rw [foldlM_cons]
    cases hlast : e.key.getLast?.join with
    | none =>
      rw [Option.bind_eq_bind, Option.bind_some, ih t hv hroom hrest]
      simp [distinctInputs, hlast]
    | some =>
      obtain ⟨_, he', hkey⟩ := mem_map.mp (htuples e mem_cons_self)
      obtain ⟨i, hlt, rfl⟩ := getElem_of_mem he'
      have hget : t.entries[i]? = some t.entries[i] := getElem?_eq_getElem hlt
      have hfind := findEntry_spec hv hroom hget
      rw [hkey] at hfind
      dsimp only
      rw [hfind, Option.map_some, hv.updateStates_eq hget, hkey, Option.bind_eq_bind,
        Option.bind_some, ih _ (hv.mapStates _) (by simpa using hroom) (by simpa using hrest),
        mapStates_mapStates]
      congr
      funext k s
      by_cases hk : e.key.dropLast = k
      · simp [distinctInputs, hk, hlast]
      · have hk' : k ≠ e.key.dropLast := fun h => hk h.symm
        simp [distinctInputs, hk, hk']

/-- The inputs that the distinct functions take from their tables. -/
def distinctInputsOf (fs : List (AggregateFunction V B)) (distincts : List (HashTable V B))
    (k : GroupKey V) (i : Nat) : List (Input V) :=
  match fs[i]?, distincts[i]? with
  | some f, some d => if f.isDistinct then distinctInputs d.entries k else []
  | _, _ => []

/-- What `mergeDistinctAggregateInfo` does to the states of a group. -/
def distinctStates :
    List (AggregateFunction V B) → List (HashTable V B) → Nat → GroupKey V → List B → List B
  | f :: fs, d :: distincts, offset, k, s =>
    distinctStates fs distincts (offset + f.getAggregateStateSize) k (if f.isDistinct then
        (distinctInputs d.entries k).foldl (fun s x => f.updateAt offset x s) s else s)
  | _, _, _, _, s => s

section

variable (fs : List (AggregateFunction V B)) (distincts : List (HashTable V B))

theorem mergeDistinctAggregateInfo_eq (offset : Nat) (t : HashTable V B)
    (hv : t.Valid hashKey numKeys) (hroom : t.entries.length < t.maxNumHashSlots)
    (hdistincts : ∀ (i : Nat) f d, fs[i]? = some f → distincts[i]? = some d →
      f.isDistinct = true → ∀ e ∈ d.entries, e.key.dropLast ∈ t.keys) :
    t.mergeDistinctAggregateInfo hashKey fs distincts offset =
      some (t.mapStates (distinctStates fs distincts offset)) := by
  induction fs generalizing distincts offset t with
  | nil =>
    rw [mergeDistinctAggregateInfo.eq_2 _ _ _ _ _ (by simp)]
    have hid : distinctStates ([] : List (AggregateFunction V B)) distincts offset =
        fun _ s => s := by
      funext k s
      rw [distinctStates.eq_2 _ _ _ _ _ (by simp)]
    rw [hid, mapStates_id]
  | cons f fs ih =>
    cases distincts with
    | nil =>
      rw [mergeDistinctAggregateInfo.eq_2 _ _ _ _ _ (by simp)]
      have hid : distinctStates (f :: fs) [] offset = fun _ s => s := by
        funext k s
        rw [distinctStates.eq_2 _ _ _ _ _ (by simp)]
      rw [hid, mapStates_id]
    | cons d distincts =>
      have hrest : ∀ (i : Nat) g d', fs[i]? = some g → distincts[i]? = some d' →
          g.isDistinct = true → ∀ e ∈ d'.entries, e.key.dropLast ∈ t.keys := fun i g d' hg hd' =>
        hdistincts (i + 1) g d' hg hd'
      have hstep : (if f.isDistinct then t.mergeDistinctTable hashKey f offset d.entries
          else some t) = some (t.mapStates fun k s =>
            if f.isDistinct then
              (distinctInputs d.entries k).foldl (fun s x => f.updateAt offset x s) s else s) := by
        cases hd : f.isDistinct with
        | true =>
          rw [mergeDistinctTable_eq f offset d.entries t hv hroom
            (hdistincts 0 f d rfl rfl hd)]
          rfl
        | false =>
          exact congrArg some mapStates_id.symm
      rw [mergeDistinctAggregateInfo, hstep, Option.bind_some,
        ih _ _ _ (hv.mapStates _) (by simpa using hroom) (by simpa using hrest),
        mapStates_mapStates]
      rfl

theorem distinctStates_statesOf (p : List B) (k : GroupKey V) (xs : Nat → List (Input V)) :
    distinctStates fs distincts p.length k (p ++ statesOf fs xs) =
      p ++ statesOf fs fun i => xs i ++ distinctInputsOf fs distincts k i := by
  induction fs generalizing distincts p xs with
  | nil => simp [distinctStates, statesOf]
  | cons f fs ih =>
    cases distincts with
    | nil =>
      exact congrArg (p ++ ·) (statesOf_congr fun i _ => by simp [distinctInputsOf])
    | cons d distincts =>
      let ys : List (Input V) := distinctInputsOf (f :: fs) (d :: distincts) k 0
      have hfirst : (if f.isDistinct then (distinctInputs d.entries k).foldl
            (fun s x => f.updateAt p.length x s) (p ++ statesOf (f :: fs) xs)
          else p ++ statesOf (f :: fs) xs) =
          p ++ f.fold (xs 0 ++ ys) ++ statesOf fs fun i => xs (i + 1) := by
        cases hd : f.isDistinct with
        | true =>
          rw [statesOf, ← append_assoc, f.foldl_updateAt_append]
          simp [ys, distinctInputsOf, hd]
        | false => simp [ys, distinctInputsOf, hd, statesOf]
      rw [distinctStates, hfirst, f.length_add_size p (xs 0 ++ ys), ih, append_assoc]
      rfl

end

/-! ## The final step -/

/-- The finalized states of functions after their inputs. -/
def finalStatesOf : List (AggregateFunction V B) → (Nat → List (Input V)) → List B
  | [], _ => []
  | f :: fs, xs => f.finalizeState (f.fold (xs 0)) ++ finalStatesOf fs fun i => xs (i + 1)

omit [DecidableEq V] in
theorem finalizeStates_statesOf (fs : List (AggregateFunction V B)) (p : List B)
    (xs : Nat → List (Input V)) :
    finalizeStates fs p.length (p ++ statesOf fs xs) = p ++ finalStatesOf fs xs := by
  induction fs generalizing p xs with
  | nil => simp [finalizeStates, statesOf, finalStatesOf]
  | cons f _ ih =>
    have hlen : p.length + f.getAggregateStateSize =
        (p ++ f.finalizeState (f.fold (xs 0))).length := by
      rw [length_append, f.length_finalizeState, f.length_fold]
    rw [finalizeStates, statesOf, ← append_assoc, readState_append (f.length_fold _),
      writeState_append (f.length_finalizeState _), hlen, ih, finalStatesOf, append_assoc]

/-- The offset of a function's state. -/
def stateOffset (fs : List (AggregateFunction V B)) (i : Nat) : Nat :=
  ((fs.take i).map (·.getAggregateStateSize)).sum

omit [DecidableEq V] in
theorem readState_finalStatesOf {i : Nat} {f : AggregateFunction V B} (hf : fs[i]? = some f)
    (xs : Nat → List (Input V)) :
    readState (finalStatesOf fs xs) (stateOffset fs i) f.getAggregateStateSize =
      f.finalizeState (f.fold (xs i)) := by
  induction fs generalizing i xs with
  | nil => cases hf
  | cons g _ ih =>
    have hlen : (g.finalizeState (g.fold (xs 0))).length = g.getAggregateStateSize := by
      rw [g.length_finalizeState, g.length_fold]
    cases i with
    | zero =>
      cases hf
      exact readState_append hlen (p := [])
    | succ i =>
      rw [← ih hf fun i => xs (i + 1), finalStatesOf, readState, stateOffset, take_succ_cons,
        map_cons, sum_cons, ← drop_drop, ← hlen, drop_left]
      rfl

end Lbug.Processor
