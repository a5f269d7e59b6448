/-
  Index/InMemMultimap.lean --- the in-memory index refines a multimap.

  The multimap is a multiset of keys and values.  Every sequence of calls of the index
  succeeds, with outcomes that the multimap allows, and then `lookup` and `append` see
  exactly the entries of the multimap (`Represents`).

  `size` is the number of entries in the header.  `deleteKey` leaves it as it is, so
  `size` counts the entries that were removed since the last `clear` as well.
-/
import Lbug.Foundation.Simulation
import Lbug.Index.InMemOperations

namespace Lbug.Index

open Foundation Multiset

variable {K : Type}

/-- The calls of the index. -/
inductive IndexCall (K : Type) where
  | reserve (numEntries : Nat)
  | append (key : K) (value : Nat) (isVisible : Nat → Bool)
  | appendBuffer (buffer : List (K × Nat)) (bufferOffset : Nat) (isVisible : Nat → Bool)
  | deleteKey (key : K)
  | clear

inductive IndexOutcome where
  | done
  | appended (success : Bool)
  | appendedCount (numAppended : Nat)
  | deleted (success : Bool)
  deriving DecidableEq, Repr

/-! ## The multimap -/

/-- The stored entries, and how many have been deleted since the last `clear`. -/
structure Multimap (K : Type) where
  entries : Multiset (K × Nat) := 0
  numDeleted : Nat := 0

namespace Multimap

/-- Some stored entry of the key is visible. -/
def Visible (m : Multimap K) (key : K) (isVisible : Nat → Bool) : Prop :=
  ∃ value, (key, value) ∈ m.entries ∧ isVisible value = true

def insert (m : Multimap K) (key : K) (value : Nat) : Multimap K :=
  { m with entries := (key, value) ::ₘ m.entries }

/-- The entries of a buffer are inserted up to the first whose key is visible. -/
inductive InsertsAll (isVisible : Nat → Bool) :
    Multimap K → List (K × Nat) → Nat → Multimap K → Prop
  | nil (m : Multimap K) : InsertsAll isVisible m [] 0 m
  | stop {m : Multimap K} {key} (value : Nat) (rest : List (K × Nat)) :
      m.Visible key isVisible → InsertsAll isVisible m ((key, value) :: rest) 0 m
  | cons {m m' : Multimap K} {key value rest n} :
      ¬ m.Visible key isVisible → InsertsAll isVisible (m.insert key value) rest n m' →
      InsertsAll isVisible m ((key, value) :: rest) (n + 1) m'

/-- What a call of a multimap may return and do.  `deleteKey` removes one of the entries
of the key. -/
inductive Step : Multimap K → IndexCall K → IndexOutcome → Multimap K → Prop
  | reserve (m : Multimap K) (n : Nat) : Step m (.reserve n) .done m
  | append {m : Multimap K} {key isVisible} (value : Nat) :
      ¬ m.Visible key isVisible →
      Step m (.append key value isVisible) (.appended true) (m.insert key value)
  | appendFails {m : Multimap K} {key isVisible} (value : Nat) :
      m.Visible key isVisible → Step m (.append key value isVisible) (.appended false) m
  | appendBuffer {m m' : Multimap K} {buffer offset n isVisible} :
      InsertsAll isVisible m (buffer.drop offset) n m' →
      Step m (.appendBuffer buffer offset isVisible) (.appendedCount n) m'
  | deleteKey {m : Multimap K} {key value rest} :
      m.entries = (key, value) ::ₘ rest →
      Step m (.deleteKey key) (.deleted true) ⟨rest, m.numDeleted + 1⟩
  | deleteFails {m : Multimap K} {key} : (∀ value, (key, value) ∉ m.entries) →
      Step m (.deleteKey key) (.deleted false) m
  | clear (m : Multimap K) : Step m .clear .done {}

end Multimap

/-! ## The index -/

namespace InMemHashIndex

/-- The entries of the slots as entries of the multimap. -/
def pairs (entries : Multiset (SlotEntry K)) : Multiset (K × Nat) :=
  entries.map fun e => (e.key, e.value)

/-- The entries of the index are those of the multimap, and the header counts them and
those that were deleted. -/
def Represents (T : KeyType K) (idx : InMemHashIndex K) (m : Multimap K) : Prop :=
  ∃ chains free content, Stored T idx chains free content ∧
    pairs (total idx.numPSlots content) = m.entries ∧
    idx.indexHeader.numEntries = m.entries.card + m.numDeleted

variable {T : KeyType K} {idx : InMemHashIndex K} {m : Multimap K}
  {entries : Multiset (SlotEntry K)}

theorem mem_pairs {key : K} {value : Nat} :
    (key, value) ∈ pairs entries ↔ ∃ e ∈ entries, e.key = key ∧ e.value = value := by
  simp [pairs]

theorem visible_iff (hm : pairs entries = m.entries) (key : K) (isVisible : Nat → Bool) :
    Visible entries key isVisible ↔ m.Visible key isVisible := by
  simp only [Multimap.Visible, ← hm, mem_pairs]
  constructor
  · rintro ⟨e, he, hkey, hvisible⟩
    exact ⟨e.value, ⟨e, he, hkey, rfl⟩, hvisible⟩
  · rintro ⟨value, ⟨e, he, hkey, rfl⟩, hvisible⟩
    exact ⟨e, he, hkey, hvisible⟩

theorem total_eq_zero (hm : pairs entries = m.entries)
    (hnum : idx.indexHeader.numEntries = m.entries.card + m.numDeleted)
    (hzero : idx.indexHeader.numEntries = 0) : entries = 0 := by
  rw [← card_eq_zero, ← card_map fun e : SlotEntry K => (e.key, e.value)]
  show (pairs entries).card = 0
  rw [hm]
  omega

theorem Represents.reserve (h : Represents T idx m) (numEntries : Nat) :
    ∃ idx', reserve T idx numEntries = some idx' ∧ Represents T idx' m := by
  obtain ⟨_, _, _, hstored, hm, hnum⟩ := h
  obtain ⟨idx', chains', free', content', heq, hstored', hsame⟩ :=
    hstored.reserve (total_eq_zero hm hnum) numEntries
  refine ⟨idx', heq, chains', free', content', hstored', ?_, hsame.numEntries.trans hnum⟩
  rw [hsame.total]
  exact hm

theorem represents_clear (idx : InMemHashIndex K) : Represents T (clear T idx) {} := by
  obtain ⟨chains, hstored, hnum⟩ := stored_clear idx
  exact ⟨chains, [], _, hstored, by simp [total, pairs], by simp [hnum]⟩

theorem represents_new : Represents T (new T) {} := represents_clear {}

variable [DecidableEq K]

def step (T : KeyType K) (idx : InMemHashIndex K) : IndexCall K →
    Option (InMemHashIndex K × IndexOutcome)
  | .reserve numEntries => (reserve T idx numEntries).map fun idx => (idx, .done)
  | .append key value isVisible =>
    (append T idx key value isVisible).map fun (idx, ok) => (idx, .appended ok)
  | .appendBuffer buffer bufferOffset isVisible =>
    (appendBuffer T idx buffer bufferOffset isVisible).map fun (idx, n) => (idx, .appendedCount n)
  | .deleteKey key => (deleteKey T idx key).map fun (idx, ok) => (idx, .deleted ok)
  | .clear => some (clear T idx, .done)

section

variable (h : Represents T idx m) (key : K) (value : Nat) (isVisible : Nat → Bool)

include h

theorem Represents.appendInternal : (m.Visible key isVisible ∧
      appendInternal T idx key value isVisible = some (idx, false)) ∨
    (¬ m.Visible key isVisible ∧ ∃ idx',
      appendInternal T idx key value isVisible = some (idx', true) ∧
      Represents T idx' (m.insert key value)) := by
  obtain ⟨_, _, _, hstored, hm, hnum⟩ := h
  rcases hstored.appendInternal key value isVisible with ⟨hvisible, heq⟩ |
    ⟨hnot, idx', chains', free', content', heq, hstored', htotal, hnum'⟩
  · exact .inl ⟨(visible_iff hm key isVisible).mp hvisible, heq⟩
  refine .inr ⟨mt (visible_iff hm key isVisible).mpr hnot, idx', heq, chains', free', content',
    hstored', ?_, ?_⟩
  · rw [htotal, pairs, map_cons, ← pairs, hm]
    rfl
  · rw [hnum', hnum, Multimap.insert, card_cons]
    exact add_right_comm _ _ _

theorem Represents.append :
    ∃ idx' ok m', InMemHashIndex.append T idx key value isVisible = some (idx', ok) ∧
      Multimap.Step m (.append key value isVisible) (.appended ok) m' ∧ Represents T idx' m' := by
  obtain ⟨idx₁, heq, h₁⟩ := h.reserve (idx.indexHeader.numEntries + 1)
  simp only [InMemHashIndex.append, heq]
  rcases h₁.appendInternal key value isVisible with ⟨hvisible, heq'⟩ | ⟨hnot, idx', heq', h'⟩
  · exact ⟨idx₁, false, m, heq', .appendFails value hvisible, h₁⟩
  · exact ⟨idx', true, _, heq', .append value hnot, h'⟩

end

theorem Represents.appendAll (h : Represents T idx m) (isVisible : Nat → Bool)
    (buffer : List (K × Nat)) :
    ∃ idx' n m', appendAll T isVisible buffer idx = some (idx', n) ∧
      Multimap.InsertsAll isVisible m buffer n m' ∧ Represents T idx' m' := by
  induction buffer generalizing idx m with
  | nil => exact ⟨idx, 0, m, rfl, .nil m, h⟩
  | cons entry rest ih =>
    obtain ⟨key, value⟩ := entry
    simp only [appendAll]
    rcases h.appendInternal key value isVisible with ⟨hvisible, heq⟩ | ⟨hnot, _, heq, h₁⟩
    · exact ⟨idx, 0, m, by rw [heq], .stop value rest hvisible, h⟩
    · obtain ⟨idx', n, m', heq', hinserts, h'⟩ := ih h₁
      exact ⟨idx', n + 1, m', by simp [heq, heq'], .cons hnot hinserts, h'⟩

theorem Represents.deleteKey (h : Represents T idx m) (key : K) :
    ∃ idx' ok m', deleteKey T idx key = some (idx', ok) ∧
      Multimap.Step m (.deleteKey key) (.deleted ok) m' ∧ Represents T idx' m' := by
  obtain ⟨chains, free, content, hstored, hm, hnum⟩ := h
  rcases hstored.deleteKey (total_eq_zero hm hnum) key with ⟨hnone, heq⟩ |
    ⟨e, he, rfl, idx', chains', free', content', heq, hstored', htotal, hnum'⟩
  · refine ⟨idx, false, m, heq, .deleteFails fun value hmem => ?_, chains, free, content, hstored,
      hm, hnum⟩
    rw [← hm] at hmem
    obtain ⟨e, he, hkey, -⟩ := mem_pairs.mp hmem
    exact hnone e he hkey
  · have hrest : m.entries = (e.key, e.value) ::ₘ pairs (total idx'.numPSlots content') := by
      rw [← hm, ← htotal, pairs, map_cons]
      rfl
    refine ⟨idx', true, _, heq, .deleteKey hrest, chains', free', content', hstored', rfl, ?_⟩
    rw [hnum', hnum, hrest, card_cons]
    simp only
    omega

/-- Every call of the index is a call of the multimap. -/
theorem simulates : Simulates (step T) Multimap.Step (Represents T) := by
  intro idx m h call
  cases call with
  | reserve numEntries =>
    obtain ⟨idx', heq, h'⟩ := h.reserve numEntries
    exact ⟨idx', .done, m, by simp [step, heq], .reserve m numEntries, h'⟩
  | append key value isVisible =>
    obtain ⟨idx', ok, m', heq, hstep, h'⟩ := h.append key value isVisible
    exact ⟨idx', .appended ok, m', by simp [step, heq], hstep, h'⟩
  | appendBuffer buffer bufferOffset isVisible =>
    obtain ⟨_, heq, h₁⟩ := h.reserve (idx.indexHeader.numEntries + buffer.length - bufferOffset)
    obtain ⟨idx', n, m', heq', hinserts, h'⟩ := h₁.appendAll isVisible (buffer.drop bufferOffset)
    exact ⟨idx', .appendedCount n, m', by simp [step, appendBuffer, heq, heq'],
      .appendBuffer hinserts, h'⟩
  | deleteKey key =>
    obtain ⟨idx', ok, m', heq, hstep, h'⟩ := h.deleteKey key
    exact ⟨idx', .deleted ok, m', by simp [step, heq], hstep, h'⟩
  | clear => exact ⟨clear T idx, .done, {}, rfl, .clear m, represents_clear idx⟩

theorem Represents.lookup (h : Represents T idx m) (key : K) (isVisible : Nat → Bool) :
    ∃ r, lookup T idx key isVisible = some r ∧
      (r.isSome = true ↔ m.Visible key isVisible) ∧
      ∀ v ∈ r, (key, v) ∈ m.entries ∧ isVisible v = true := by
  obtain ⟨_, _, _, hstored, hm, hnum⟩ := h
  obtain ⟨r, heq, hfinds, hvalue⟩ := hstored.lookup (total_eq_zero hm hnum) key isVisible
  refine ⟨r, heq, hfinds.trans (visible_iff hm key isVisible), fun v hv => ?_⟩
  obtain ⟨e, he, hkey, hval, hvisible⟩ := hvalue v hv
  rw [← hm]
  exact ⟨mem_pairs.mpr ⟨e, he, hkey, hval⟩, hvisible⟩

/-- Every sequence of calls on a new index succeeds with outcomes of a multimap.  After
it `lookup` finds a value exactly when a stored entry of the key is visible, and `size`
is the number of stored entries exactly when no entry has been deleted since the last
`clear`. -/
theorem serve_refines_multimap (T : KeyType K) (calls : List (IndexCall K)) :
    ∃ idx outcomes m, serve (step T) (new T) calls = some (idx, outcomes) ∧
      Allows Multimap.Step {} calls outcomes m ∧
      (∀ key isVisible, ∃ r, lookup T idx key isVisible = some r ∧
        (r.isSome = true ↔ m.Visible key isVisible) ∧
        ∀ v ∈ r, (key, v) ∈ m.entries ∧ isVisible v = true) ∧
      (size idx = m.entries.card ↔ m.numDeleted = 0) := by
  obtain ⟨idx, outcomes, m, hserve, hallows, h⟩ := simulates.serve calls represents_new
  refine ⟨idx, outcomes, m, hserve, hallows, h.lookup, ?_⟩
  obtain ⟨-, -, -, -, -, hnum⟩ := h
  rw [size]
  omega

/-- A key type as that of 64-bit keys. -/
def int64Keys : KeyType Nat := ⟨id, 14, 14, 16, by decide, by decide, by decide⟩

/-- An entry is appended and deleted again.  Nothing is stored, and `size` is 1. -/
theorem size_counts_deleted_entry : ∃ idx, serve (step int64Keys) (new int64Keys)
        [.append 7 1 (fun _ => true), .deleteKey 7] =
        some (idx, [.appended true, .deleted true]) ∧
      Allows Multimap.Step {} [.append 7 1 (fun _ => true), .deleteKey 7]
        [.appended true, .deleted true] ⟨0, 1⟩ ∧
      size idx = 1 := by
  have hrun : (serve (step int64Keys) (new int64Keys)
      [.append 7 1 (fun _ => true), .deleteKey 7]).map (fun r => (size r.1, r.2)) =
      some (1, [.appended true, .deleted true]) := by decide +kernel
  obtain ⟨⟨idx, _⟩, hserve, heq⟩ := Option.map_eq_some_iff.mp hrun
  simp only [Prod.mk.injEq] at heq
  obtain ⟨hsize, rfl⟩ := heq
  refine ⟨idx, hserve, ?_, hsize⟩
  have hone : (({} : Multimap Nat).insert 7 1).entries = (7, 1) ::ₘ 0 := rfl
  refine .cons (.append 1 ?_) (.cons (.deleteKey hone) (.nil _))
  rintro ⟨value, hmem, -⟩
  exact notMem_zero _ hmem

end InMemHashIndex

end Lbug.Index
