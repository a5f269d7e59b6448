/-
  Storage/ChunkSplit.lean --- splitting a column chunk into segments (`ColumnChunkData::split`).

  Rows go to a segment in batches of 64 while its size is within the target, and the batch
  that exceeded it is taken back.  An empty segment has no page, so every round keeps rows,
  whatever the sizes of the segments are.
-/
import Mathlib.Data.List.Basic

namespace Lbug.Storage

open List

/-- A chunk or a segment of it: the values, each with its null bit. -/
structure Segment (α : Type) where
  rows : List (α × Bool)
  capacity : Nat

namespace Segment

variable {α : Type} (s : Segment α)

def values : List α := s.rows.map Prod.fst

def nulls : List Bool := s.rows.map Prod.snd

/-- `append`, of the values and of the null bits of another chunk. -/
def append (other : Segment α) (startPosInOtherChunk numValuesToAppend : Nat) : Segment α :=
  { s with rows := s.rows ++ (other.rows.drop startPosInOtherChunk).take numValuesToAppend }

/-- `truncate`: the values and null bits after the first `numValues` are dropped. -/
def truncate (numValues : Nat) : Segment α := { s with rows := s.rows.take numValues }

theorem length_append {other : Segment α} {start n : Nat} (h : n ≤ other.rows.length - start) :
    (s.append other start n).rows.length = s.rows.length + n := by
  rw [append, List.length_append, length_take, length_drop, Nat.min_eq_left h]

theorem length_truncate {n : Nat} (h : n ≤ s.rows.length) : (s.truncate n).rows.length = n := by
  rw [truncate, length_take, Nat.min_eq_left h]

end Segment

variable {α : Type} (pagesSize : List (α × Bool) → Nat) (targetSize : Nat) (chunk : Segment α)

/-- The pages of the rows, under the compression that their statistics select; there is none
if there are no rows. -/
def Segment.getSizeOnDiskInMemoryStats (s : Segment α) : Nat :=
  if s.rows.isEmpty then 0 else pagesSize s.rows

/-- The inner loop of `split`. -/
def fillSegment (pos : Nat) (s : Segment α) : Nat × Segment α :=
  if pos < chunk.rows.length ∧ s.getSizeOnDiskInMemoryStats pagesSize ≤ targetSize then
    let capacity := if s.rows.length = s.capacity then s.capacity * 2 else s.capacity
    let numValuesToAppendInChunk := min (chunk.rows.length - pos) 64
    fillSegment (pos + numValuesToAppendInChunk)
      (Segment.append { s with capacity } chunk pos numValuesToAppendInChunk)
  else (pos, s)
termination_by chunk.rows.length - pos

/-- The segment of one round of the outer loop, and the position after it. -/
def nextSegment (pos : Nat) : Nat × Segment α :=
  let (pos, s) := fillSegment pagesSize targetSize chunk pos ⟨[], min 64 chunk.rows.length⟩
  if pos < chunk.rows.length ∧ s.rows.length > 64 then
    (pos - 64, s.truncate (s.rows.length - 64))
  else (pos, s)

/-- `s` has the rows from `start` to `pos`, and room for the next batch. -/
structure Filled (start pos : Nat) (s : Segment α) : Prop where
  take_eq : chunk.rows.take pos = chunk.rows.take start ++ s.rows
  length_eq : start + s.rows.length = pos
  le_length : pos ≤ chunk.rows.length
  le_capacity : s.rows.length ≤ s.capacity
  room : pos < chunk.rows.length → 0 < s.capacity ∧
    (s.rows.length % 64 = 0 ∧ s.capacity % 64 = 0 ∨
      s.rows.length = 0 ∧ chunk.rows.length ≤ s.capacity ∧ s.capacity ≤ 64)

variable {pagesSize targetSize chunk} {start pos : Nat} {s : Segment α}

theorem filled_empty (h : start < chunk.rows.length) :
    Filled chunk start start ⟨[], min 64 chunk.rows.length⟩ where
  take_eq := (append_nil _).symm
  length_eq := rfl
  le_length := Nat.le_of_lt h
  le_capacity := Nat.zero_le _
  room _ := by
    dsimp only [length_nil]
    rcases Nat.le_total 64 chunk.rows.length with hle | hle
    · rw [Nat.min_eq_left hle]
      omega
    · rw [Nat.min_eq_right hle]
      omega

/-- The rows of one batch are appended within the capacity. -/
theorem Filled.appendBatch (h : Filled chunk start pos s) (hlt : pos < chunk.rows.length) :
    Filled chunk start (pos + min (chunk.rows.length - pos) 64)
      (Segment.append
        { s with capacity := if s.rows.length = s.capacity then s.capacity * 2 else s.capacity }
        chunk pos (min (chunk.rows.length - pos) 64)) := by
  have hfits : min (chunk.rows.length - pos) 64 ≤ chunk.rows.length - pos := Nat.min_le_left _ _
  obtain ⟨htake, hstart, -, hcapacity, hroom⟩ := h
  obtain ⟨hpos, hroom⟩ := hroom hlt
  refine ⟨?_, ?_, by omega, ?_, fun hnext => ?_⟩
  · rw [take_add, htake, append_assoc]
    rfl
  · rw [Segment.length_append _ hfits, ← Nat.add_assoc, hstart]
  · rw [Segment.length_append _ hfits]
    dsimp only [Segment.append]
    split <;> omega
  · rw [Segment.length_append _ hfits, Nat.min_eq_right (by omega)]
    dsimp only [Segment.append]
    split <;> omega

theorem le_fillSegment : pos ≤ (fillSegment pagesSize targetSize chunk pos s).1 := by
  fun_induction fillSegment pagesSize targetSize chunk pos s with
  | case1 _ _ _ _ _ ih => exact Nat.le_of_add_right_le ih
  | case2 => exact Nat.le_refl _

theorem Filled.fillSegment (pagesSize : List (α × Bool) → Nat) (targetSize : Nat)
    (h : Filled chunk start pos s) :
    Filled chunk start (fillSegment pagesSize targetSize chunk pos s).1
      (fillSegment pagesSize targetSize chunk pos s).2 := by
  fun_induction Storage.fillSegment pagesSize targetSize chunk pos s with
  | case1 _ _ hcond _ _ ih => exact ih (h.appendBatch hcond.1)
  | case2 => exact h

/-- Taking back the last of several batches. -/
theorem Filled.truncate (h : Filled chunk start pos s) (hlt : pos < chunk.rows.length)
    (hmore : s.rows.length > 64) : Filled chunk start (pos - 64)
      (s.truncate (s.rows.length - 64)) := by
  obtain ⟨htake, hstart, -, hcapacity, hroom⟩ := h
  have hroom := hroom hlt
  refine ⟨?_, ?_, by omega, ?_, fun _ => ?_⟩
  · have hcut := congrArg (take (pos - 64)) htake
    rwa [take_take, Nat.min_eq_left (Nat.sub_le _ _), take_append, take_take,
      Nat.min_eq_right (by omega), length_take, Nat.min_eq_left (by omega),
      show pos - 64 - start = s.rows.length - 64 by omega] at hcut
  · rw [Segment.length_truncate _ (Nat.sub_le _ _)]
    omega
  all_goals
    rw [Segment.length_truncate _ (Nat.sub_le _ _)]
    dsimp only [Segment.truncate]
    omega

/-- A round gets past its start. -/
theorem nextSegment_spec (pagesSize : List (α × Bool) → Nat) (targetSize : Nat)
    (h : start < chunk.rows.length) :
    start < (nextSegment pagesSize targetSize chunk start).1 ∧
      Filled chunk start (nextSegment pagesSize targetSize chunk start).1
        (nextSegment pagesSize targetSize chunk start).2 := by
  have hlt : start < (fillSegment pagesSize targetSize chunk start
      ⟨[], min 64 chunk.rows.length⟩).1 := by
    -- the empty segment is within any target
    rw [fillSegment, if_pos ⟨h, Nat.zero_le _⟩]
    exact Nat.lt_of_lt_of_le (by omega) le_fillSegment
  have hfilled := (filled_empty h).fillSegment pagesSize targetSize
  rw [nextSegment]
  dsimp only
  split_ifs with hcut
  · have hlength := hfilled.length_eq
    exact ⟨by omega, hfilled.truncate hcut.1 hcut.2⟩
  · exact ⟨hlt, hfilled⟩

variable (pagesSize targetSize chunk)

/-- The outer loop of `split`. -/
def splitLoop (pos : Nat) : List (Segment α) :=
  if _ : pos < chunk.rows.length then
    (nextSegment pagesSize targetSize chunk pos).2 ::
      splitLoop (nextSegment pagesSize targetSize chunk pos).1
  else []
termination_by chunk.rows.length - pos
decreasing_by
  have hlt := (nextSegment_spec pagesSize targetSize ‹_›).1
  omega

/-- For either `targetSize` that the source may choose. -/
def split : List (Segment α) := splitLoop pagesSize targetSize chunk 0

theorem splitLoop_spec (pos : Nat) :
    chunk.rows.take pos ++ ((splitLoop pagesSize targetSize chunk pos).map (·.rows)).flatten =
      chunk.rows ∧
      ∀ s ∈ splitLoop pagesSize targetSize chunk pos,
        s.rows ≠ [] ∧ s.rows.length ≤ s.capacity := by
  fun_induction splitLoop pagesSize targetSize chunk pos with
  | case1 _ h ih =>
    obtain ⟨hlt, hfilled⟩ := nextSegment_spec pagesSize targetSize h
    rw [hfilled.take_eq, append_assoc] at ih
    refine ⟨ih.1, forall_mem_cons.mpr ⟨⟨fun hnil => ?_, hfilled.le_capacity⟩, ih.2⟩⟩
    have hlength := hfilled.length_eq
    rw [hnil, length_nil] at hlength
    omega
  | case2 _ h => simp [take_of_length_le (Nat.le_of_not_lt h)]

/-- The segments are not empty, hold their rows within their capacity, and have the rows of
the chunk, their values and their null bits, in their order. -/
theorem split_lossless :
    ((split pagesSize targetSize chunk).map (·.values)).flatten = chunk.values ∧
      ((split pagesSize targetSize chunk).map (·.nulls)).flatten = chunk.nulls ∧
      ∀ s ∈ split pagesSize targetSize chunk,
        s.values ≠ [] ∧ s.values.length ≤ s.capacity := by
  obtain ⟨hrows, hsegments⟩ := splitLoop_spec pagesSize targetSize chunk 0
  rw [take_zero, nil_append] at hrows
  refine ⟨?_, ?_, fun s hs => ?_⟩
  · rw [Segment.values, ← hrows, map_flatten, map_map]
    rfl
  · rw [Segment.nulls, ← hrows, map_flatten, map_map]
    rfl
  · obtain ⟨hne, hle⟩ := hsegments s hs
    exact ⟨fun hnil => hne (map_eq_nil_iff.mp hnil), by rwa [Segment.values, length_map]⟩

end Lbug.Storage
