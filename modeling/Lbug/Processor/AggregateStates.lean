/-
  Processor/AggregateStates.lean --- the states of the groups.

  What `updateAggStates`, `combineStates`, the distinct tables and the final step do to
  a table is the same for all entries: the new states of an entry are a function of its
  key and its old states (`HashTable.mapStates`).  `statesOf fs xs` are the states of the
  functions `fs` one behind the other, each after its inputs `xs`; every operation that
  uses the right offset adds inputs to the functions it is meant for.  `updateAggStates`
  uses the right offset if no function that is not distinct comes behind a distinct one.
-/
import Lbug.Processor.AggregateGroups

namespace Lbug.Processor

open Foundation List

universe u v

variable {V : Type u} {B : Type v} {p q : List B} {rows : Nat → Entry V B} {slotIdxes : Nat → Nat}
  {fs : List (AggregateFunction V B)} {t t' : HashTable V B} {positions : List Nat}

/-! ## States one behind the other -/

/-- The states of functions after their inputs. -/
def statesOf : List (AggregateFunction V B) → (Nat → List (Input V)) → List B
  | [], _ => []
  | f :: fs, xs => f.fold (xs 0) ++ statesOf fs fun i => xs (i + 1)

namespace AggregateFunction

variable (f : AggregateFunction V B)

theorem length_foldInputs (s : List B) (xs : List (Input V)) :
    (foldInputs f.updatePosState s xs).length = s.length := by
  unfold foldInputs
  induction xs generalizing s with
  | nil => rfl
  | cons _ _ ih => rw [foldl_cons, ih, f.length_updatePosState]

@[simp] theorem length_fold (xs : List (Input V)) : (f.fold xs).length = f.getAggregateStateSize :=
  f.length_foldInputs _ _

/-- The offset behind the state of a function. -/
theorem length_add_size (p : List B) (xs : List (Input V)) :
    p.length + f.getAggregateStateSize = (p ++ f.fold xs).length := by
  rw [length_append, f.length_fold]

theorem fold_append_singleton (xs : List (Input V)) (x : Input V) :
    f.fold (xs ++ [x]) = f.updatePosState (f.fold xs) x.1 x.2 := by
  simp [fold, foldInputs]

end AggregateFunction

/-- What is read at the offset behind `p` is the state that stands there. -/
theorem readState_append {s : List B} {size : Nat} (hs : s.length = size) :
    readState (p ++ s ++ q) p.length size = s := by
  rw [readState, append_assoc, drop_left, ← hs, take_left]

/-- A write at the offset behind `p` leaves the other states alone. -/
theorem writeState_append {s s' : List B} (hs : s'.length = s.length) :
    writeState (p ++ s ++ q) p.length s' = p ++ s' ++ q := by
  have htake : (p ++ s ++ q).take p.length = p := by rw [append_assoc, take_left]
  have hdrop : (p ++ s ++ q).drop (p.length + s'.length) = q := by
    rw [hs, ← length_append, drop_left]
  rw [writeState, htake, hdrop]

/-- One update at the right offset adds one input. -/
theorem AggregateFunction.updateAt_append (f : AggregateFunction V B) (xs : List (Input V))
    (x : Input V) :
    f.updateAt p.length x (p ++ f.fold xs ++ q) = p ++ f.fold (xs ++ [x]) ++ q := by
  rw [updateAt, readState_append (f.length_fold xs),
    writeState_append (by rw [f.length_updatePosState]), f.fold_append_singleton]

/-- Updates at the right offset add inputs. -/
theorem AggregateFunction.foldl_updateAt_append (f : AggregateFunction V B)
    (xs ys : List (Input V)) :
    ys.foldl (fun s x => f.updateAt p.length x s) (p ++ f.fold xs ++ q) =
      p ++ f.fold (xs ++ ys) ++ q := by
  induction ys generalizing xs with
  | nil => simp
  | cons _ _ ih =>
    rw [foldl_cons, f.updateAt_append, ih, append_assoc xs, singleton_append]

theorem statesOf_congr {xs ys : Nat → List (Input V)} (h : ∀ i < fs.length, xs i = ys i) :
    statesOf fs xs = statesOf fs ys := by
  induction fs generalizing xs ys with
  | nil => rfl
  | cons _ _ ih =>
    rw [statesOf, statesOf, h 0 (by simp), ih fun i hi => h (i + 1) (by simpa using hi)]

/-- Initial states are the states after no input. -/
theorem initialStates_eq (fs : List (AggregateFunction V B)) :
    initialStates fs = statesOf fs fun _ => [] := by
  induction fs with
  | nil => rfl
  | cons _ _ ih => rw [statesOf, ← ih]; rfl

/-! ## Tables -/

namespace HashTable

/-- Change the states of every entry, depending on its key. -/
def mapStates (t : HashTable V B) (g : GroupKey V → List B → List B) : HashTable V B :=
  { t with entries := t.entries.map fun e => { e with states := g e.key e.states } }

/-- The keys of the entries. -/
def keys (t : HashTable V B) : List (GroupKey V) := t.entries.map (·.key)

variable {t : HashTable V B} {hashKey : GroupKey V → Nat} {numKeys : Nat} {idx : Nat}

section

variable (g : GroupKey V → List B → List B)

include g

@[simp] theorem mapStates_maxNumHashSlots :
    (t.mapStates g).maxNumHashSlots = t.maxNumHashSlots := rfl

@[simp] theorem mapStates_slots : (t.mapStates g).slots = t.slots := rfl

@[simp] theorem keys_mapStates : (t.mapStates g).keys = t.keys := by
  simp [keys, mapStates]

@[simp] theorem length_entries_mapStates :
    (t.mapStates g).entries.length = t.entries.length := length_map _

theorem getElem?_mapStates (i : Nat) : (t.mapStates g).entries[i]? =
      (t.entries[i]?).map fun e => { e with states := g e.key e.states } :=
  getElem?_map

end

theorem mapStates_mapStates (g g' : GroupKey V → List B → List B) :
    (t.mapStates g).mapStates g' = t.mapStates fun k s => g' k (g k s) := by
  simp [mapStates]

theorem mapStates_id : t.mapStates (fun _ s => s) = t := by
  simp [mapStates]

/-- The slots of a table depend on the keys of its entries only. -/
theorem Valid.mapStates (h : t.Valid hashKey numKeys) (g : GroupKey V → List B → List B) :
    (t.mapStates g).Valid hashKey numKeys where
  keys_nodup := by
    have hkeys : (t.mapStates g).entries.map (·.key) = t.entries.map (·.key) := keys_mapStates g
    rw [hkeys]
    exact h.keys_nodup
  hash_eq := by
    intro e he
    obtain ⟨e', he', rfl⟩ := mem_map.mp he
    exact h.hash_eq e' he'
  key_length := by
    intro e he
    obtain ⟨e', he', rfl⟩ := mem_map.mp he
    exact h.key_length e' he'
  slot_entry := by
    intro s slot hs
    obtain ⟨e, he, hfp⟩ := h.slot_entry s slot hs
    refine ⟨{ e with states := g e.key e.states }, ?_, hfp⟩
    rw [getElem?_mapStates, he]
    rfl
  entry_slot := by
    intro i hi
    exact h.entry_slot i (by simpa using hi)
  slot_injective := h.slot_injective
  probed := by
    refine h.probed.congr fun s slot hs => ?_
    obtain ⟨_, he, -⟩ := h.slot_entry s slot hs
    simp [home, getSlotIdxForHash, getElem?_mapStates, he]

theorem found_mapStates (h : t.Found slotIdxes rows idx) (g : GroupKey V → List B → List B) :
    (t.mapStates g).Found slotIdxes rows idx := by
  obtain ⟨e, he, hkey⟩ := h
  obtain ⟨slot, hs, hget⟩ := entryAt_eq_some.mp he
  refine ⟨{ e with states := g e.key e.states }, entryAt_eq_some.mpr ⟨slot, hs, ?_⟩, hkey⟩
  rw [getElem?_mapStates, hget]
  rfl

variable [DecidableEq V]

/-- The entries have different keys, so changing one is changing all with its key. -/
theorem Valid.updateStates_eq (h : t.Valid hashKey numKeys) {i : Nat} {e : Entry V B}
    (he : t.entries[i]? = some e) (g : List B → List B) :
    t.updateStates i g = t.mapStates fun k s => if k = e.key then g s else s := by
  have hentries : (t.entries.modify i fun e => { e with states := g e.states }) =
      t.entries.map fun e' =>
        { e' with states := if e'.key = e.key then g e'.states else e'.states } := by
    refine ext_getElem? fun j => ?_
    rw [getElem?_modify, List.getElem?_map]
    cases hj : t.entries[j]? with
    | none => rfl
    | some e' =>
      have hiff : i = j ↔ e'.key = e.key := by
        constructor
        · rintro rfl
          rw [Option.some.inj (he.symm.trans hj)]
        intro hkey
        have hlt : i < (t.entries.map (·.key)).length := by
          rw [length_map]
          exact (List.getElem?_eq_some_iff.mp he).1
        refine (getElem?_inj hlt h.keys_nodup).mp ?_
        rw [List.getElem?_map, List.getElem?_map, he, hj, Option.map_some, Option.map_some, hkey]
      by_cases hij : i = j
      · simp [hij, hiff.mp hij]
      · have hne : e'.key ≠ e.key := fun hkey => hij (hiff.mpr hkey)
        simp [hij, hne]
  simp only [updateStates, hentries]
  rfl

/-- Updating through the slot of a row updates the group of its key. -/
theorem Valid.updateSlotStates_eq (h : t.Valid hashKey numKeys) (hf : t.Found slotIdxes rows idx)
    (g : List B → List B) :
    t.updateSlotStates (slotIdxes idx) g =
      t.mapStates fun k s => if k = (rows idx).key then g s else s := by
  obtain ⟨_, he, hkey⟩ := hf
  obtain ⟨_, hs, hget⟩ := entryAt_eq_some.mp he
  rw [updateSlotStates, hs, ← hkey]
  exact h.updateStates_eq hget g

/-- Updates of the entries of rows, one after the other. -/
theorem Valid.foldl_updateSlotStates {α : Type*} (idx : α → Nat) (g : α → List B → List B)
    (l : List α) (t : HashTable V B) (h : t.Valid hashKey numKeys)
    (hf : ∀ a ∈ l, t.Found slotIdxes rows (idx a)) :
    l.foldl (fun t a => t.updateSlotStates (slotIdxes (idx a)) (g a)) t = t.mapStates fun k s =>
        (l.filter fun a => (rows (idx a)).key = k).foldl (fun s a => g a s) s := by
  induction l generalizing t with
  | nil => exact mapStates_id.symm
  | cons a _ ih =>
    rw [foldl_cons, h.updateSlotStates_eq (hf a mem_cons_self),
      ih _ (h.mapStates _) fun b hb => found_mapStates (hf b (mem_cons_of_mem _ hb)) _,
      mapStates_mapStates]
    congr
    funext k s
    by_cases hk : (rows (idx a)).key = k
    · simp [hk]
    · have hk' : k ≠ (rows (idx a)).key := fun h => hk h.symm
      simp [hk, hk']

end HashTable

/-! ## What the groups have seen -/

/-- The entries of the table hold the states of their groups' inputs; a group that is not
in the table has none. -/
structure HashTable.Represents (fs : List (AggregateFunction V B)) (t : HashTable V B)
    (xs : GroupKey V → Nat → List (Input V)) : Prop where
  states_eq : ∀ e ∈ t.entries, e.states = statesOf fs (xs e.key)
  missing : ∀ k ∉ t.keys, ∀ i, xs k i = []

/-- A table that grew by rows with initial states represents what it did. -/
theorem HashTable.Represents.grown {xs : GroupKey V → Nat → List (Input V)} (h : t.Represents fs xs)
    {hashKey : GroupKey V → Nat} {numKeys : Nat} (hv : t'.Valid hashKey numKeys)
    (hg : GrownBy rows positions t t')
    (hrows : ∀ idx ∈ positions, (rows idx).states = initialStates fs) : t'.Represents fs xs := by
  obtain ⟨new, hnew⟩ := hg.extend.entries
  constructor
  · intro e he
    rcases hg.mem e he with he' | ⟨idx, hidx, rfl⟩
    · exact h.states_eq e he'
    by_cases hin : rows idx ∈ t.entries
    · exact h.states_eq _ hin
    -- the row is new, so its key was missing
    have hmiss : (rows idx).key ∉ t.keys := by
      have hmem : rows idx ∈ new := by
        rw [hnew] at he
        exact (mem_append.mp he).resolve_left hin
      have hnodup := hv.keys_nodup
      rw [hnew, map_append, nodup_append] at hnodup
      intro hk
      exact hnodup.2.2 _ hk _ (mem_map.mpr ⟨_, hmem, rfl⟩) rfl
    rw [hrows idx hidx, initialStates_eq]
    exact statesOf_congr fun i _ => (h.missing _ hmiss i).symm
  · intro k hk
    refine h.missing k fun hk' => hk ?_
    rw [keys, hnew, map_append]
    exact mem_append_left _ hk'

/-- The keys of a table that grew are the old ones and those of the rows. -/
theorem HashTable.GrownBy.mem_keys (hg : GrownBy rows positions t t')
    (hf : ∀ idx ∈ positions, t'.Found slotIdxes rows idx) (k : GroupKey V) :
    k ∈ t'.keys ↔ k ∈ t.keys ∨ ∃ idx ∈ positions, (rows idx).key = k := by
  constructor
  · intro hk
    obtain ⟨e, he, rfl⟩ := mem_map.mp hk
    rcases hg.mem e he with he | ⟨idx, hidx, rfl⟩
    · exact .inl (mem_map.mpr ⟨e, he, rfl⟩)
    · exact .inr ⟨idx, hidx, rfl⟩
  · rintro (hk | ⟨idx, hidx, rfl⟩)
    · obtain ⟨_, hnew⟩ := hg.extend.entries
      rw [keys, hnew, map_append]
      exact mem_append_left _ hk
    · obtain ⟨e, he, hkey⟩ := hf idx hidx
      obtain ⟨_, -, hget⟩ := entryAt_eq_some.mp he
      exact mem_map.mpr ⟨e, mem_of_getElem? hget, hkey⟩

end Lbug.Processor
