/-
  Foundation/Blocks.lean --- arrays of fixed capacity, sparse vectors of blocks, and
  loops that cut an interval of rows into blocks.

  A row store keeps rows in blocks of `B` rows.  An operation on the rows
  `[start, start + n)` is a loop over the blocks `start / B, ..., (start + n - 1) / B`
  that hands each block its own part of the interval: from the remainder of `start`
  in the first block, from `0` in the others, to the remainder of the last row in the
  last block, to the end of the block in the others.  `mem_blockPart` says that those
  parts are the interval.  The blocks themselves live in a vector of optional entries
  that grows when a block is first touched (`slotAt`, `putSlot`).
-/
import Mathlib.Data.List.Nodup

namespace Lbug.Foundation

universe u

variable {α : Type u} {c i : Nat}

/-! ## Arrays of fixed capacity -/

/-- The loop `for i in [start, start + n) { a[i] = x }`. -/
def writeRange {c : Nat} (a : Vector α c) (start : Nat) : Nat → α → Vector α c
  | 0, _ => a
  | n + 1, x => (writeRange a start n x).setIfInBounds (start + n) x

/-- Read an entry; `d` stands for a read outside of the array. -/
def readEntry {c : Nat} (a : Vector α c) (d : α) (i : Nat) : α := a[i]?.getD d

theorem readEntry_set (a : Vector α c) (d x : α) (j : Nat) (hi : i < c) :
    readEntry (a.setIfInBounds i x) d j = if j = i then x else readEntry a d j := by
  unfold readEntry
  rcases eq_or_ne j i with rfl | hj
  · simp [hi]
  · simp [hj, Ne.symm hj]

theorem readEntry_writeRange (a : Vector α c) (d x : α) (start : Nat) :
    ∀ (n j : Nat), start + n ≤ c → readEntry (writeRange a start n x) d j =
        if start ≤ j ∧ j < start + n then x else readEntry a d j := by
  intro n
  induction n with
  | zero =>
    intro j _
    have : ¬ (start ≤ j ∧ j < start + 0) := by omega
    simp only [writeRange, if_neg this]
  | succ n ih =>
    intro j hc
    rw [writeRange, readEntry_set _ _ _ _ (by omega), ih j (by omega)]
    rcases eq_or_ne j (start + n) with rfl | hj
    · simp
    · have hiff : (start ≤ j ∧ j < start + n) ↔ (start ≤ j ∧ j < start + (n + 1)) := by omega
      simp only [if_neg hj, hiff]

@[simp] theorem readEntry_replicate (d : α) (i : Nat) :
    readEntry (Vector.replicate c d) d i = d := by
  unfold readEntry
  by_cases hi : i < c
  · simp [hi]
  · simp [hi]

theorem any_iff_exists_readEntry (a : Vector α c) (d : α) (p : α → Bool) :
    a.any p = true ↔ ∃ i, i < c ∧ p (readEntry a d i) = true := by
  rw [Vector.any_iff_exists]
  constructor
  · rintro ⟨i, hi, hp⟩
    exact ⟨i, hi, by simpa [readEntry, hi] using hp⟩
  · rintro ⟨i, hi, hp⟩
    exact ⟨i, hi, by simpa [readEntry, hi] using hp⟩

/-! ## Sparse vectors -/

/-- The entry `i`, or nothing when it is out of range or was never created. -/
def slotAt (l : List (Option α)) (i : Nat) : Option α := (l[i]?).join

/-- Store at `i`, first growing the vector with empty entries if it is too short. -/
def putSlot (l : List (Option α)) (i : Nat) (x : α) : List (Option α) :=
  (l ++ List.replicate (i + 1 - l.length) none).set i (some x)

@[simp] theorem slotAt_nil (i : Nat) : slotAt ([] : List (Option α)) i = none := rfl

theorem slotAt_putSlot (l : List (Option α)) (i j : Nat) (x : α) :
    slotAt (putSlot l i x) j = if j = i then some x else slotAt l j := by
  unfold slotAt putSlot
  rcases eq_or_ne j i with rfl | hj
  · have hlen : j < (l ++ List.replicate (j + 1 - l.length) (none : Option α)).length := by
      simp only [List.length_append, List.length_replicate]
      omega
    rw [List.getElem?_set_self hlen]
    simp
  · rw [List.getElem?_set_ne (Ne.symm hj), List.getElem?_append]
    split_ifs with hlt
    · rfl
    · have hnone : l[j]? = none := List.getElem?_eq_none (by omega)
      rw [hnone, List.getElem?_replicate]
      split <;> rfl

/-! ## Cutting an interval into blocks -/

/-- First row of the interval inside block `b`. -/
def blockStart (B start b : Nat) : Nat := if b = start / B then start % B else 0

/-- Last row of the interval inside block `b`. -/
def blockEnd (B start n b : Nat) : Nat :=
  if b = (start + n - 1) / B then (start + n - 1) % B else B - 1

/-- Number of rows of the interval inside block `b`. -/
def blockLen (B start n b : Nat) : Nat := blockEnd B start n b - blockStart B start b + 1

/-- The blocks that a nonempty interval meets. -/
def InBlocks (B start n b : Nat) : Prop := start / B ≤ b ∧ b ≤ (start + n - 1) / B
  deriving Decidable

/-- The blocks in order. -/
def blocksOf (B start n : Nat) : List Nat :=
  List.range' (start / B) ((start + n - 1) / B - start / B + 1)

section Parts

variable {B start n b : Nat} {r : Nat}

theorem mem_blocksOf (hn : 0 < n) : b ∈ blocksOf B start n ↔ InBlocks B start n b := by
  have hle : start / B ≤ (start + n - 1) / B := Nat.div_le_div_right (by omega)
  rw [blocksOf, List.mem_range'_1, InBlocks]
  omega

theorem inBlocks_of_mem (h1 : start ≤ r) (h2 : r < start + n) : InBlocks B start n (r / B) :=
  ⟨Nat.div_le_div_right h1, Nat.div_le_div_right (by omega)⟩

section

variable (hB : 0 < B)

include hB

theorem blockStart_lt : blockStart B start b < B := by
  unfold blockStart
  split
  · exact Nat.mod_lt _ hB
  · exact hB

theorem blockEnd_lt : blockEnd B start n b < B := by
  unfold blockEnd
  split
  · exact Nat.mod_lt _ hB
  · omega

theorem blockStart_le_iff (hb : start / B ≤ b) (i : Nat) :
    blockStart B start b ≤ i ↔ start ≤ B * b + i := by
  have hdm := Nat.div_add_mod start B
  unfold blockStart
  split_ifs with heq
  · subst heq
    omega
  · have hlt : start / B + 1 ≤ b := by omega
    have hmul : B * (start / B + 1) ≤ B * b := Nat.mul_le_mul_left B hlt
    have hmod := Nat.mod_lt start hB
    rw [Nat.mul_add] at hmul
    omega

theorem le_blockEnd_iff (hn : 0 < n) (hb : b ≤ (start + n - 1) / B) (hi : i < B) :
    i ≤ blockEnd B start n b ↔ B * b + i < start + n := by
  have hdm := Nat.div_add_mod (start + n - 1) B
  unfold blockEnd
  split_ifs with heq
  · subst heq
    omega
  · have hlt : b + 1 ≤ (start + n - 1) / B := by omega
    have hmul : B * (b + 1) ≤ B * ((start + n - 1) / B) := Nat.mul_le_mul_left B hlt
    rw [Nat.mul_add] at hmul
    omega

variable (hn : 0 < n) (hb : InBlocks B start n b)

include hn hb

theorem blockStart_le_blockEnd : blockStart B start b ≤ blockEnd B start n b := by
  rw [blockStart_le_iff hB hb.1]
  by_cases hfirst : b = start / B
  · have hmem : start % B ≤ blockEnd B start n b := by
      rw [le_blockEnd_iff hB hn hb.2 (Nat.mod_lt _ hB), hfirst, Nat.div_add_mod]
      omega
    have := Nat.div_add_mod start B
    rw [hfirst]
    rw [hfirst] at hmem
    omega
  · have hlt : start / B + 1 ≤ b := by
      have := hb.1
      omega
    have hmul : B * (start / B + 1) ≤ B * b := Nat.mul_le_mul_left B hlt
    have hmod := Nat.mod_lt start hB
    have := Nat.div_add_mod start B
    rw [Nat.mul_add] at hmul
    omega

/-- The parts that the blocks receive make up the interval. -/
theorem mem_blockPart (hi : i < B) :
    (blockStart B start b ≤ i ∧ i < blockStart B start b + blockLen B start n b) ↔
      (start ≤ B * b + i ∧ B * b + i < start + n) := by
  have hle := blockStart_le_blockEnd hB hn hb
  rw [← blockStart_le_iff hB hb.1, ← le_blockEnd_iff hB hn hb.2 hi]
  unfold blockLen
  omega

theorem blockPart_le : blockStart B start b + blockLen B start n b ≤ B := by
  have hle := blockStart_le_blockEnd hB hn hb
  have hlt : blockEnd B start n b < B := blockEnd_lt hB
  unfold blockLen
  omega

end

theorem blockLen_pos : 0 < blockLen B start n b := Nat.succ_pos _

theorem div_block (hi : i < B) : (B * b + i) / B = b := by
  rw [Nat.mul_add_div (by omega), Nat.div_eq_of_lt hi, Nat.add_zero]

theorem mem_blockRows (hB : 0 < B) (hn : 0 < n) (hb : b ∈ blocksOf B start n) :
    r ∈ List.range' (B * b + blockStart B start b) (blockLen B start n b) ↔
      b = r / B ∧ start ≤ r ∧ r < start + n := by
  rw [mem_blocksOf hn] at hb
  rw [List.mem_range'_1]
  constructor
  · rintro ⟨hlo, hhi⟩
    obtain ⟨i, rfl⟩ := Nat.exists_eq_add_of_le (Nat.le_of_add_right_le hlo)
    have hi : i < B := Nat.lt_of_lt_of_le (by omega) (blockPart_le hB hn hb)
    exact ⟨(div_block hi).symm, (mem_blockPart hB hn hb hi).mp (by omega)⟩
  · rintro ⟨rfl, hrows⟩
    have hr := Nat.div_add_mod r B
    have hmem := (mem_blockPart hB hn hb (Nat.mod_lt r hB)).mpr (by rwa [hr])
    omega

/-- The rows of the parts, block after block, are the rows of the interval. -/
theorem blockRows_perm (hB : 0 < B) (hn : 0 < n) : ((blocksOf B start n).flatMap fun b =>
      List.range' (B * b + blockStart B start b) (blockLen B start n b)).Perm
        (List.range' start n) := by
  refine (List.perm_ext_iff_of_nodup ?_ List.nodup_range').mpr fun r => ?_
  · refine List.nodup_flatMap.mpr ⟨fun b _ => List.nodup_range', ?_⟩
    refine List.Nodup.pairwise_of_forall_ne List.nodup_range' fun b hb b' hb' hne r hr hr' => hne ?_
    rw [((mem_blockRows hB hn hb).mp hr).1, ((mem_blockRows hB hn hb').mp hr').1]
  rw [List.mem_flatMap, List.mem_range'_1]
  constructor
  · rintro ⟨b, hb, hr⟩
    exact ((mem_blockRows hB hn hb).mp hr).2
  · intro hr
    have hb : r / B ∈ blocksOf B start n := (mem_blocksOf hn).mpr (inBlocks_of_mem hr.1 hr.2)
    exact ⟨r / B, hb, (mem_blockRows hB hn hb).mpr ⟨rfl, hr⟩⟩

end Parts

/-! ## The loop over the blocks -/

/-- The loop over blocks `first, ..., first + count - 1`; `f` gets the block's index
and its present entry. -/
def forBlocks (f : Nat → Option α → α) (l : List (Option α)) (first : Nat) : Nat → List (Option α)
  | 0 => l
  | count + 1 =>
    let l' := forBlocks f l first count
    putSlot l' (first + count) (f (first + count) (slotAt l' (first + count)))

theorem slotAt_forBlocks (f : Nat → Option α → α) (l : List (Option α)) (first : Nat) :
    ∀ (count j : Nat), slotAt (forBlocks f l first count) j =
      if first ≤ j ∧ j < first + count then some (f j (slotAt l j)) else slotAt l j := by
  intro count
  induction count with
  | zero =>
    intro j
    have : ¬ (first ≤ j ∧ j < first + 0) := by omega
    simp only [forBlocks, if_neg this]
  | succ count ih =>
    intro j
    simp only [forBlocks, slotAt_putSlot]
    rcases eq_or_ne j (first + count) with rfl | hj
    · rw [ih]
      simp
    · rw [if_neg hj, ih]
      have hiff : (first ≤ j ∧ j < first + count) ↔
          (first ≤ j ∧ j < first + (count + 1)) := by omega
      simp only [hiff]

/-- Hand every block that meets `[start, start + n)` its part of the interval. -/
def forParts (B : Nat) (f : Option α → Nat → Nat → α) (l : List (Option α))
    (start n : Nat) : List (Option α) :=
  if n = 0 then l else
    forBlocks (fun b entry => f entry (blockStart B start b) (blockLen B start n b)) l
      (start / B) ((start + n - 1) / B + 1 - start / B)

theorem forParts_zero (B : Nat) (f : Option α → Nat → Nat → α) (l : List (Option α))
    (start : Nat) : forParts B f l start 0 = l := by
  simp [forParts]

theorem slotAt_forParts {B n : Nat} (f : Option α → Nat → Nat → α) (l : List (Option α))
    (start b : Nat) (hn : 0 < n) :
    slotAt (forParts B f l start n) b = if InBlocks B start n b then
        some (f (slotAt l b) (blockStart B start b) (blockLen B start n b))
      else slotAt l b := by
  have hle : start / B ≤ (start + n - 1) / B := Nat.div_le_div_right (by omega)
  have hiff : (start / B ≤ b ∧ b < start / B + ((start + n - 1) / B + 1 - start / B)) ↔
      InBlocks B start n b := by
    unfold InBlocks
    omega
  rw [forParts, if_neg (by omega), slotAt_forBlocks]
  simp only [hiff]

end Lbug.Foundation
