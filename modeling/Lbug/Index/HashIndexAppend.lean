/-
  Index/HashIndexAppend.lean --- appending a buffer of keys to an index.

  Source: `HashIndex::appendNoLock` in `storage/index/hash_index.h`.

  The entries of a buffer go into the local storage up to the first key that has a visible
  entry.  If the persistent index has entries, the loop stops only at a key that is found
  there: a key that is found in the local storage alone is left out, and the loop goes on.
-/
import Lbug.Index.HashIndexHistory

namespace Lbug.Index

open InMemHashIndex Multiset

variable {K : Type}

namespace Multimap

/-- The entries of the persistent index and of the local storage. -/
def union (p m : Multimap K) : Multimap K := { m with entries := p.entries + m.entries }

/-- What the loop of `appendNoLock` does, after `i` keys of which `c` have been inserted. -/
inductive AppendsAll (p : Multimap K) (isVisible : Nat → Bool) :
    Multimap K → List (K × Nat) → Nat → Nat → Nat → Multimap K → Prop
  | nil (m i c) : AppendsAll p isVisible m [] i c c m
  | stop {m key} (value rest i c) :
      p.Visible key isVisible → AppendsAll p isVisible m ((key, value) :: rest) i c i m
  | skip {m m' : Multimap K} {key rest i c n} (value) :
      ¬ p.Visible key isVisible → m.Visible key isVisible →
      AppendsAll p isVisible m rest (i + 1) c n m' →
      AppendsAll p isVisible m ((key, value) :: rest) i c n m'
  | cons {m m' : Multimap K} {key value rest i c n} :
      ¬ p.Visible key isVisible → ¬ m.Visible key isVisible →
      AppendsAll p isVisible (m.insert key value) rest (i + 1) (c + 1) n m' →
      AppendsAll p isVisible m ((key, value) :: rest) i c n m'

/-- At the first key that is found in the local storage alone, all keys after it are. -/
def StopsAtFailure (p : Multimap K) (isVisible : Nat → Bool) : Multimap K → List (K × Nat) → Prop
  | _, [] => True
  | m, (key, value) :: rest =>
    p.Visible key isVisible ∨
      (m.Visible key isVisible ∧
        ∀ x ∈ rest, ¬ p.Visible x.1 isVisible ∧ m.Visible x.1 isVisible) ∨
      (¬ m.Visible key isVisible ∧ StopsAtFailure p isVisible (m.insert key value) rest)

end Multimap

variable {p m m' : Multimap K} {isVisible : Nat → Bool} {key : K} {value i c n : Nat}
  {rest buffer : List (K × Nat)}

namespace Multimap

theorem visible_union : (p.union m).Visible key isVisible ↔
    p.Visible key isVisible ∨ m.Visible key isVisible := by
  simp only [Visible, union, mem_add, or_and_right, exists_or]

theorem union_insert : p.union (m.insert key value) = (p.union m).insert key value := by
  simp [union, insert]

theorem insertsAll_of_visible (h : m.Visible key isVisible) :
    InsertsAll isVisible m ((key, value) :: rest) n m' ↔ n = 0 ∧ m' = m := by
  constructor
  · rintro (_ | _ | ⟨hnot, _⟩)
    · exact ⟨rfl, rfl⟩
    · exact absurd h hnot
  · rintro ⟨rfl, rfl⟩
    exact .stop value rest h

theorem insertsAll_of_not_visible (h : ¬ m.Visible key isVisible) :
    InsertsAll isVisible m ((key, value) :: rest) n m' ↔
      ∃ k, n = k + 1 ∧ InsertsAll isVisible (m.insert key value) rest k m' := by
  constructor
  · rintro (_ | ⟨_, _, hvisible⟩ | ⟨_, hrest⟩)
    · exact absurd hvisible h
    · exact ⟨_, rfl, hrest⟩
  · rintro ⟨k, rfl, hrest⟩
    exact .cons h hrest

variable (h : AppendsAll p isVisible m buffer i c n m')

include h

theorem AppendsAll.card_le : m.entries.card ≤ m'.entries.card := by
  induction h with
  | nil | stop => exact le_refl _
  | skip _ _ _ _ ih => exact ih
  | cons _ _ _ ih =>
    rw [insert, card_cons] at ih
    omega

/-- After a key was left out, the result is right only if all others are left out. -/
theorem AppendsAll.skipped (hlt : c < i) :
    n = c ∧ m' = m ↔ ∀ x ∈ buffer, ¬ p.Visible x.1 isVisible ∧ m.Visible x.1 isVisible := by
  induction h with
  | nil => exact iff_of_true ⟨rfl, rfl⟩ nofun
  | stop _ _ _ _ hvisible =>
    refine iff_of_false (fun hsame => ?_) fun hall => (hall _ List.mem_cons_self).1 hvisible
    omega
  | skip _ hnot hvisible _ ih =>
    rw [ih (Nat.lt_succ_of_lt hlt), List.forall_mem_cons]
    exact (and_iff_right ⟨hnot, hvisible⟩).symm
  | cons _ hnot hrest =>
    refine iff_of_false (fun hsame => ?_) fun hall => hnot (hall _ List.mem_cons_self).2
    have hle := hrest.card_le
    rw [hsame.2, insert, card_cons] at hle
    omega

theorem AppendsAll.insertsAll_iff (hc : c = i) :
    (∃ k, n = i + k ∧ InsertsAll isVisible (p.union m) buffer k (p.union m')) ↔
      StopsAtFailure p isVisible m buffer := by
  induction h with
  | nil => exact iff_of_true ⟨0, hc, .nil _⟩ trivial
  | stop value rest _ _ hvisible =>
    exact iff_of_true ⟨0, rfl, .stop value rest (visible_union.mpr (.inl hvisible))⟩ (.inl hvisible)
  | skip _ hnot hvisible hrest =>
    have hunion (m₁ m₂ : Multimap K) : p.union m₁ = p.union m₂ ↔ m₁ = m₂ := by
      obtain ⟨_, _⟩ := m₁
      obtain ⟨_, _⟩ := m₂
      simp [union]
    subst hc
    simp only [StopsAtFailure, hnot, hvisible, not_true_eq_false, false_or, false_and, or_false,
      true_and, insertsAll_of_visible (visible_union.mpr (.inr hvisible)), hunion,
      ← hrest.skipped (Nat.lt_succ_self _)]
    exact ⟨fun ⟨k, hn, hk, hm⟩ => ⟨by omega, hm⟩, fun ⟨hn, hm⟩ => ⟨0, hn, rfl, hm⟩⟩
  | cons hnot hnot' _ ih =>
    have hunion := mt visible_union.mp (not_or.mpr ⟨hnot, hnot'⟩)
    simp only [StopsAtFailure, hnot, hnot', not_false_eq_true, false_or, false_and, true_and,
      ← ih (by omega), union_insert, insertsAll_of_not_visible hunion]
    constructor
    · rintro ⟨_, hn, k, rfl, hinserts⟩
      exact ⟨k, by omega, hinserts⟩
    · rintro ⟨k, hn, hinserts⟩
      exact ⟨k + 1, by omega, k, rfl, hinserts⟩

end Multimap

namespace HashIndex

open Multimap

variable [DecidableEq K] (T : KeyType K) (idx : HashIndex K)

/-- The loop of `appendNoLock`; `i` counts from `bufferOffset`. -/
def appendLoop (isVisible : Nat → Bool) : List (K × Nat) → InMemHashIndex K →
    (i numValuesInserted : Nat) → Option (InMemHashIndex K × Nat)
  | [], localInsertions, _, numValuesInserted => some (localInsertions, numValuesInserted)
  | (key, value) :: rest, localInsertions, i, numValuesInserted =>
    (lookupInPersistentIndex T idx key isVisible).bind fun
      | some _ => some (localInsertions, i)
      | none =>
        (append T localInsertions key value isVisible).bind fun (localInsertions, inserted) =>
          appendLoop isVisible rest localInsertions (i + 1) (numValuesInserted + inserted.toNat)

def appendNoLock (localInsertions : InMemHashIndex K) (buffer : List (K × Nat)) (bufferOffset : Nat)
    (isVisible : Nat → Bool) : Option (InMemHashIndex K × Nat) :=
  if 0 < idx.table.indexHeader.numEntries then
    (InMemHashIndex.reserve T localInsertions
      (localInsertions.indexHeader.numEntries + (buffer.length - bufferOffset))).bind
        fun localInsertions =>
          appendLoop T idx isVisible (buffer.drop bufferOffset) localInsertions 0 0
  else appendBuffer T localInsertions buffer bufferOffset isVisible

variable {T idx} {localInsertions : InMemHashIndex K} (h : Holds T idx p.entries)
  (hlocal : Represents T localInsertions m)

include h hlocal

theorem Holds.appendLoop (isVisible : Nat → Bool) (buffer : List (K × Nat)) (i c : Nat) :
    ∃ ins n m', appendLoop T idx isVisible buffer localInsertions i c = some (ins, n) ∧
      AppendsAll p isVisible m buffer i c n m' ∧ Represents T ins m' := by
  induction buffer generalizing localInsertions m i c with
  | nil => exact ⟨_, c, m, rfl, .nil m i c, hlocal⟩
  | cons entry rest ih =>
    obtain ⟨key, value⟩ := entry
    rw [appendLoop]
    obtain ⟨_ | _, heq, hfound, -⟩ := h.lookup key isVisible
    · have hnot : ¬ p.Visible key isVisible := mt hfound.mpr Bool.false_ne_true
      obtain ⟨_, ok, _, happend, hstep, hlocal₁⟩ := hlocal.append key value isVisible
      simp only [heq, happend]
      obtain ⟨ins', n, m', hloop, happends, hlocal'⟩ := ih hlocal₁ (i + 1) (c + ok.toNat)
      refine ⟨ins', n, m', hloop, ?_, hlocal'⟩
      cases hstep with
      | append _ hnot' => exact .cons hnot hnot' happends
      | appendFails _ hvisible => exact .skip value hnot hvisible happends
    · rw [heq]
      exact ⟨_, i, m, rfl, .stop value rest i c (hfound.mp rfl), hlocal⟩

/-- `appendNoLock` succeeds.  It inserts up to the first key that has a visible entry, and
returns how many, exactly if the persistent index is empty or the loop stops there. -/
theorem appendNoLock_inserts_iff (buffer : List (K × Nat)) (bufferOffset : Nat) :
    ∃ ins n m',
      appendNoLock T idx localInsertions buffer bufferOffset isVisible = some (ins, n) ∧
      Represents T ins m' ∧
      (InsertsAll isVisible (p.union m) (buffer.drop bufferOffset) n (p.union m') ↔
        p.entries = 0 ∨ StopsAtFailure p isVisible m (buffer.drop bufferOffset)) := by
  rw [appendNoLock, h.numEntries]
  split_ifs with hpos
  · have hne : p.entries ≠ 0 := card_pos.mp hpos
    obtain ⟨_, heq, hlocal₁⟩ := hlocal.reserve
      (localInsertions.indexHeader.numEntries + (buffer.length - bufferOffset))
    obtain ⟨ins', n, m', hloop, happends, hlocal'⟩ :=
      h.appendLoop hlocal₁ isVisible (buffer.drop bufferOffset) 0 0
    refine ⟨ins', n, m', by rw [heq, Option.bind_some, hloop], hlocal', ?_⟩
    rw [or_iff_right hne, ← happends.insertsAll_iff rfl]
    simp
  · have hzero : p.entries = 0 := card_eq_zero.mp (Nat.eq_zero_of_not_pos hpos)
    obtain ⟨_, heq, hlocal₁⟩ := hlocal.reserve
      (localInsertions.indexHeader.numEntries + buffer.length - bufferOffset)
    obtain ⟨ins', n, m', hall, hinserts, hlocal'⟩ :=
      hlocal₁.appendAll isVisible (buffer.drop bufferOffset)
    refine ⟨ins', n, m', by rw [appendBuffer, heq, Option.bind_some, hall], hlocal', ?_⟩
    simp only [Multimap.union, hzero, zero_add, true_or, iff_true]
    exact hinserts

omit h hlocal

theorem appendNoLock_new_index : ∃ ins n m',
    appendNoLock int64Keys {} (new int64Keys) [(2, 2), (2, 4)] 0 (fun _ => true) = some (ins, n) ∧
    Represents int64Keys ins m' ∧
    InsertsAll (fun _ => true) (union {} {}) [(2, 2), (2, 4)] n (union {} m') := by
  obtain ⟨ins, n, m', heq, hlocal, hiff⟩ := appendNoLock_inserts_iff (p := {})
    (holds_new) represents_new [(2, 2), (2, 4)] 0
  exact ⟨ins, n, m', heq, hlocal, hiff.mpr (.inl rfl)⟩

/-- The persistent index has key 7.  The second of three keys fails, the third one goes in,
and the result is 2. -/
theorem appendNoLock_goes_on : ∃ idx ins, checkpointKeys {} [7] ∅ = some idx ∧
    appendNoLock int64Keys idx (new int64Keys) [(2, 2), (2, 4), (3, 3)] 0 (fun _ => true) =
      some (ins, 2) ∧
    lookup int64Keys ins 3 (fun _ => true) = some (some 3) := by
  have hrun : ((checkpointKeys {} [7] ∅).bind fun idx =>
      (appendNoLock int64Keys idx (new int64Keys) [(2, 2), (2, 4), (3, 3)] 0 fun _ => true).map
        fun r => (r.2, lookup int64Keys r.1 3 fun _ => true)) =
      some (2, some (some 3)) := by decide +kernel
  obtain ⟨idx, hidx, hrest⟩ := Option.bind_eq_some_iff.mp hrun
  obtain ⟨⟨ins, _⟩, happend, heq⟩ := Option.map_eq_some_iff.mp hrest
  obtain ⟨rfl, hfound⟩ := Prod.mk.inj heq
  exact ⟨idx, ins, hidx, happend, hfound⟩

end HashIndex

end Lbug.Index
