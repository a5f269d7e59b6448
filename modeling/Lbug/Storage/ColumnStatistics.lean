/-
  Storage/ColumnStatistics.lean --- the bounds kept with a persistent column chunk.

  Source: `Column::updateStatistics`, `writeSegment`, `appendValues`,
  `checkpointColumnChunkInPlace`, `checkpointColumnChunkOutOfPlace`,
  `canCheckpointInPlace` and `checkpointSegment` in `storage/table/column.cpp`;
  `getMetadataToFlush`, `flush` and `split` in `storage/table/column_chunk_data.cpp`;
  `ColumnChunk::checkpoint` in `storage/table/column_chunk.cpp`; `getTypedMinMax`,
  `canUpdateInPlace` and `getPackingInfo` in `storage/compression/compression.cpp`.

  A persistent column chunk is a list of segments.  The metadata of a segment holds the
  least and the greatest value in it.  A flush computes the two from the values; a write
  in place widens them.

  A row is an optional value, `none` being a null: the null column, which is written
  beside the values, is not kept apart.  The pages behind a segment are the list of its
  rows, so that compression is what decides between the two ways to write.  The bits of
  a floating point value and the number it stands for are different things, and a value
  may stand for no number; `StorageType` says so for each physical type.
-/
import Mathlib.Data.Nat.Size
import Mathlib.Algebra.Order.Ring.Int
import Lbug.Foundation.Transition

namespace Lbug.Storage

open Foundation List Option

universe u v

inductive CompressionType where
  | uncompressed
  | integerBitpacking
  | booleanBitpacking
  | constant
  | alp
  deriving DecidableEq, Repr

structure BitpackInfo (V : Type u) where
  bitWidth : Nat
  hasNegative : Bool
  offset : V
  deriving DecidableEq

structure CompressionMetadata (V : Type u) where
  min : V
  max : V
  compression : CompressionType

structure ColumnChunkMetadata (V : Type u) where
  numPages : Nat
  numValues : Nat
  compMeta : CompressionMetadata V

/-- A physical type whose values are kept in statistics.  `number` is what a comparison
sees of a value; `none` is a floating point value that compares with nothing.  The other
fields are the parts of the compression of the type that decide how a segment is
written: the compression and the number of pages chosen for a flush, the values that fit
a page, the bit packing of a range, whether a batch fits a floating point compression
after the batches before it, and where a rewritten segment is cut (`[]` if it is not). -/
structure StorageType (V : Type u) (R : Type v) where
  number : V → Option R
  zero : V
  zero_number : (number zero).isSome
  compress : List (Option V) → V → V → CompressionType × Nat
  numValuesPerPage : CompressionMetadata V → Nat
  packingInfo : V → V → BitpackInfo V
  canUpdateFloat : CompressionMetadata V → List (List (Option V)) → List (Option V) → Bool
  segmentLengths : List (Option V) → List Nat

variable {V : Type u} {R : Type v} [LinearOrder R] {v : V} {rows values : List (Option V)}
  {offset : Nat} (T : StorageType V R)

namespace StorageType

/-- The comparison `a < b` of the type. -/
def lt (a b : V) : Bool :=
  match T.number a, T.number b with
  | some x, some y => decide (x < y)
  | _, _ => false

/-- `StorageValue::gt`. -/
def gt (a b : V) : Bool := T.lt b a

/-- The value stands for a number. -/
def Number (a : V) : Prop := (T.number a).isSome
  deriving Decidable

/-- Both values stand for numbers, the first for one that is not above the second. -/
def Le (a b : V) : Prop :=
  ∃ x y, T.number a = some x ∧ T.number b = some y ∧ x ≤ y

variable {T} {a b c : V}

theorem lt_iff : T.lt a b = true ↔ ∃ x y, T.number a = some x ∧ T.number b = some y ∧ x < y := by
  unfold lt
  cases ha : T.number a <;> cases hb : T.number b <;> simp

theorem Le.refl (h : T.Number a) : T.Le a a := by
  obtain ⟨x, hx⟩ := isSome_iff_exists.mp h
  exact ⟨x, x, hx, hx, le_rfl⟩

theorem Le.trans (h : T.Le a b) (h' : T.Le b c) : T.Le a c := by
  obtain ⟨x, y, hx, hy, hxy⟩ := h
  obtain ⟨y', z, hy', hz, hyz⟩ := h'
  obtain rfl : y = y' := some.inj (hy.symm.trans hy')
  exact ⟨x, z, hx, hz, hxy.trans hyz⟩

theorem Le.number_left (h : T.Le a b) : T.Number a := by
  obtain ⟨x, _, hx, _⟩ := h
  exact isSome_iff_exists.mpr ⟨x, hx⟩

theorem Le.number_right (h : T.Le a b) : T.Number b := by
  obtain ⟨_, y, _, hy, _⟩ := h
  exact isSome_iff_exists.mpr ⟨y, hy⟩

theorem le_of_lt (h : T.lt a b = true) : T.Le a b := by
  obtain ⟨x, y, hx, hy, hxy⟩ := lt_iff.mp h
  exact ⟨x, y, hx, hy, hxy.le⟩

/-- On numbers the comparison is total. -/
theorem le_of_not_lt (ha : T.Number a) (hb : T.Number b) (h : T.lt a b = false) : T.Le b a := by
  obtain ⟨x, hx⟩ := isSome_iff_exists.mp ha
  obtain ⟨y, hy⟩ := isSome_iff_exists.mp hb
  refine ⟨y, x, hy, hx, not_lt.mp fun hxy => ?_⟩
  exact absurd (lt_iff.mpr ⟨x, y, hx, hy, hxy⟩) (by simp [h])

end StorageType

/-! ## The bounds of a batch -/

/-- The first least value. -/
def minElement (v : V) (rest : List V) : V :=
  rest.foldl (fun m x => if T.lt x m then x else m) v

/-- The first greatest value. -/
def maxElement (v : V) (rest : List V) : V :=
  rest.foldl (fun m x => if T.gt x m then x else m) v

/-- The last greatest value, which `std::minmax_element` returns. -/
def lastMaxElement (v : V) (rest : List V) : V :=
  rest.foldl (fun m x => if T.lt x m then m else x) v

/-- The least and the greatest value of a batch; nothing if all rows are null.  Rows
without nulls go through `std::minmax_element`, others through a loop. -/
def getTypedMinMax (rows : List (Option V)) : Option (V × V) :=
  match rows.filterMap id with
  | [] => none
  | v :: rest =>
    some (minElement T v rest,
      if rows.all Option.isSome then lastMaxElement T v rest else maxElement T v rest)

/-- Every value of the batch stands for a number. -/
def Numbers (rows : List (Option V)) : Prop :=
  ∀ r ∈ rows, ∀ v ∈ r, T.Number v
  deriving Decidable

section Extremes

variable {T}

omit [LinearOrder R] in
/-- A fold that always keeps one of the two values it compares, and one that does not come
after the other, ends in a bound of all values. -/
theorem foldl_bound (le : V → V → Prop) (hrefl : ∀ a, T.Number a → le a a)
    (htrans : ∀ a b c, le a b → le b c → le a c) (pick : V → V → V)
    (hpick : ∀ m x, T.Number m → T.Number x →
      T.Number (pick m x) ∧ le (pick m x) m ∧ le (pick m x) x) (rest : List V)
    (hv : T.Number v) (hrest : ∀ x ∈ rest, T.Number x) :
    le (rest.foldl pick v) v ∧ ∀ x ∈ rest, le (rest.foldl pick v) x := by
  induction rest generalizing v with
  | nil => exact ⟨hrefl v hv, by simp⟩
  | cons x _ ih =>
    obtain ⟨hnum, hm, hx⟩ := hpick v x hv (hrest x mem_cons_self)
    obtain ⟨hle, hall⟩ := ih hnum fun y hy => hrest y (mem_cons_of_mem _ hy)
    exact ⟨htrans _ _ _ hle hm, forall_mem_cons.mpr ⟨htrans _ _ _ hle hx, hall⟩⟩

section

variable (rest : List V) (hv : T.Number v) (hrest : ∀ x ∈ rest, T.Number x)

include rest hv hrest

theorem minElement_spec :
    T.Le (minElement T v rest) v ∧ ∀ x ∈ rest, T.Le (minElement T v rest) x := by
  refine foldl_bound T.Le (fun _ => .refl) (fun _ _ _ => .trans) _ (fun m x hm hx => ?_)
    rest hv hrest
  split_ifs with hlt
  · exact ⟨hx, StorageType.le_of_lt hlt, .refl hx⟩
  · exact ⟨hm, .refl hm, StorageType.le_of_not_lt hx hm (by simpa using hlt)⟩

theorem maxElement_spec :
    T.Le v (maxElement T v rest) ∧ ∀ x ∈ rest, T.Le x (maxElement T v rest) := by
  refine foldl_bound (fun a b => T.Le b a) (fun _ => .refl) (fun _ _ _ h h' => h'.trans h) _
    (fun m x hm hx => ?_) rest hv hrest
  split_ifs with hgt
  · exact ⟨hx, StorageType.le_of_lt hgt, .refl hx⟩
  · exact ⟨hm, .refl hm, StorageType.le_of_not_lt hm hx (by simpa [StorageType.gt] using hgt)⟩

theorem lastMaxElement_spec :
    T.Le v (lastMaxElement T v rest) ∧ ∀ x ∈ rest, T.Le x (lastMaxElement T v rest) := by
  refine foldl_bound (fun a b => T.Le b a) (fun _ => .refl) (fun _ _ _ h h' => h'.trans h) _
    (fun m x hm hx => ?_) rest hv hrest
  split_ifs with hlt
  · exact ⟨hm, .refl hm, StorageType.le_of_lt hlt⟩
  · exact ⟨hx, StorageType.le_of_not_lt hx hm (by simpa using hlt), .refl hx⟩

end

omit [LinearOrder R] in
theorem Numbers.filterMap (h : Numbers T rows) : ∀ x ∈ rows.filterMap id, T.Number x := by
  intro x hx
  obtain ⟨r, hr, hrx⟩ := mem_filterMap.mp hx
  exact h r hr x hrx

/-- The bounds of a batch of numbers bound its values, and they are numbers. -/
theorem getTypedMinMax_spec (hrows : Numbers T rows) {mn mx : V}
    (h : getTypedMinMax T rows = some (mn, mx)) :
    T.Number mn ∧ T.Number mx ∧ ∀ v, some v ∈ rows → T.Le mn v ∧ T.Le v mx := by
  have hnum := hrows.filterMap
  have hmem : ∀ v, some v ∈ rows → v ∈ rows.filterMap id := fun v hv =>
    mem_filterMap.mpr ⟨some v, hv, rfl⟩
  unfold getTypedMinMax at h
  cases hl : rows.filterMap id with
  | nil =>
    rw [hl] at h
    cases h
  | cons v rest =>
    rw [hl] at h hnum hmem
    have hv : T.Number v := hnum v mem_cons_self
    have hrest : ∀ x ∈ rest, T.Number x := fun x hx => hnum x (mem_cons_of_mem _ hx)
    have hmin := minElement_spec rest hv hrest
    have hmax : T.Le v mx ∧ ∀ x ∈ rest, T.Le x mx := by
      simp only [some.injEq, Prod.mk.injEq] at h
      rw [← h.2]
      split
      · exact lastMaxElement_spec rest hv hrest
      · exact maxElement_spec rest hv hrest
    obtain rfl : minElement T v rest = mn := by
      simp only [some.injEq, Prod.mk.injEq] at h
      exact h.1
    refine ⟨hmin.1.number_left, hmax.1.number_right, fun w hw => ?_⟩
    rcases mem_cons.mp (hmem w hw) with rfl | hw
    · exact ⟨hmin.1, hmax.1⟩
    · exact ⟨hmin.2 w hw, hmax.2 w hw⟩

theorem getTypedMinMax_eq_none (h : getTypedMinMax T rows = none) (v : V) : some v ∉ rows := by
  intro hv
  have hmem : v ∈ rows.filterMap id := mem_filterMap.mpr ⟨some v, hv, rfl⟩
  unfold getTypedMinMax at h
  cases hl : rows.filterMap id with
  | nil => rw [hl] at hmem; cases hmem
  | cons => rw [hl] at h; cases h

end Extremes

/-! ## Segments -/

/-- A persistent segment: its rows and its metadata. -/
structure ColumnChunkData (V : Type u) where
  values : List (Option V)
  metadata : ColumnChunkMetadata V

/-- Rows that a checkpoint writes to a segment, from an offset on. -/
structure SegmentCheckpointState (V : Type u) where
  rows : List (Option V)
  offsetInSegment : Nat

/-- Overwrite the rows from an offset on.  Rows between the end and the offset have never
been written. -/
def writeRowsAt (values : List (Option V)) (offset : Nat) (rows : List (Option V)) :
    List (Option V) :=
  values.take offset ++ List.replicate (offset - values.length) none ++ rows ++
    values.drop (offset + rows.length)

theorem mem_writeRowsAt (h : some v ∈ writeRowsAt values offset rows) :
    some v ∈ values ∨ some v ∈ rows := by
  simp only [writeRowsAt, mem_append, mem_replicate] at h
  rcases h with ((h | h) | h) | h
  · exact .inl (mem_of_mem_take h)
  · cases h.2
  · exact .inr h
  · exact .inl (mem_of_mem_drop h)

def updateStatistics (m : ColumnChunkMetadata V) (maxIndex : Nat)
    (minMax : Option (V × V)) : ColumnChunkMetadata V :=
  let m := if m.numValues ≤ maxIndex then { m with numValues := maxIndex + 1 } else m
  match minMax with
  | none => m
  | some (min, max) =>
    -- one of the two bounds is widened, never both
    if T.gt max m.compMeta.max then { m with compMeta := { m.compMeta with max := max } }
    else if T.gt m.compMeta.min min then { m with compMeta := { m.compMeta with min := min } }
    else m

namespace ColumnChunkData

variable (d : ColumnChunkData V)

def writeSegment (s : SegmentCheckpointState V) : ColumnChunkData V where
  values := writeRowsAt d.values s.offsetInSegment s.rows
  metadata := updateStatistics T d.metadata (s.offsetInSegment + s.rows.length - 1)
    (getTypedMinMax T s.rows)

/-- Append to the end of the segment. -/
def appendValues (rows : List (Option V)) : ColumnChunkData V :=
  d.writeSegment T { rows := rows, offsetInSegment := d.metadata.numValues }

variable [DecidableEq V]

def getMetadataToFlush (values : List (Option V)) : ColumnChunkMetadata V :=
  let minMax := getTypedMinMax T values
  let min := (minMax.map Prod.fst).getD T.zero
  let max := (minMax.map Prod.snd).getD T.zero
  if min = max then
    { numPages := 0, numValues := values.length, compMeta := ⟨min, max, .constant⟩ }
  else
    let (compression, numPages) := T.compress values min max
    { numPages := numPages, numValues := values.length, compMeta := ⟨min, max, compression⟩ }

def flush (values : List (Option V)) : ColumnChunkData V where
  values := values
  metadata := getMetadataToFlush T values

/-- Cut rows into pieces of the given lengths; the last piece takes what is left. -/
def split : List Nat → List (Option V) → List (List (Option V))
  | [], values => [values]
  | n :: lengths, values => values.take n :: split lengths (values.drop n)

/-- Cut the rows if they are too many for one segment, and flush the pieces. -/
def flushSegments (values : List (Option V)) : List (ColumnChunkData V) :=
  (split (T.segmentLengths values) values).map (flush T)

def isEndOffsetOutOfPagesCapacity (m : ColumnChunkMetadata V) (endOffset : Nat) : Bool :=
  m.compMeta.compression ≠ .constant ∧ T.numValuesPerPage m.compMeta * m.numPages ≤ endOffset

variable (m : CompressionMetadata V)

def canAlwaysUpdateInPlace : Bool :=
  match m.compression with
  | .booleanBitpacking | .uncompressed => true
  | .constant | .alp | .integerBitpacking => false

/-- Whether the bit packing of the range stays the same when the batch widens it. -/
def canUpdateBitpacked (rows : List (Option V)) : Bool :=
  match getTypedMinMax T rows with
  | none => true
  | some (min, max) =>
    T.packingInfo m.min m.max =
      T.packingInfo (if T.lt min m.min then min else m.min) (if T.lt m.max max then max else m.max)

/-- Whether a batch can be written over a segment that is compressed as `m` says;
`before` are the batches already checked. -/
def canUpdateInPlace (before : List (List (Option V))) (rows : List (Option V)) : Bool :=
  match m.compression with
  | .constant => rows.all fun r => r.all fun v => v = m.min
  | .booleanBitpacking | .uncompressed => true
  | .alp => T.canUpdateFloat m before rows
  | .integerBitpacking => canUpdateBitpacked T m rows

/-- The check of all batches, each one against the metadata before the checkpoint. -/
def canUpdateAll : List (List (Option V)) → List (List (Option V)) → Bool
  | _, [] => true
  | before, rows :: rest =>
    (rows.isEmpty || canUpdateInPlace T m before rows) && canUpdateAll (before ++ [rows]) rest

def endRowIdxToWrite (states : List (SegmentCheckpointState V)) : Nat :=
  states.foldl (fun e s => if s.offsetInSegment + s.rows.length > e then
    s.offsetInSegment + s.rows.length else e) 0

variable (states : List (SegmentCheckpointState V))

def canCheckpointInPlace : Bool :=
  if isEndOffsetOutOfPagesCapacity T d.metadata (endRowIdxToWrite states) then false
  else if canAlwaysUpdateInPlace d.metadata.compMeta then true
  else canUpdateAll T d.metadata.compMeta [] (states.map (·.rows))

def checkpointColumnChunkInPlace : ColumnChunkData V :=
  states.foldl (writeSegment T) d

def checkpointColumnChunkOutOfPlace : List (ColumnChunkData V) :=
  flushSegments T
    (states.foldl (fun values s => writeRowsAt values s.offsetInSegment s.rows) d.values)

/-- Checkpoint a segment; it may be replaced by several. -/
def checkpointSegment : List (ColumnChunkData V) :=
  if states.isEmpty then [d]
  else if d.canCheckpointInPlace T states then [d.checkpointColumnChunkInPlace T states]
  else d.checkpointColumnChunkOutOfPlace T states

end ColumnChunkData

/-! ## Chunks -/

/-- Rows that a checkpoint writes to a chunk, from a row on. -/
structure ChunkCheckpointState (V : Type u) where
  startRow : Nat
  rows : List (Option V)

/-- The parts of the written rows that fall into one segment.  The last segment also
takes the rows behind its end. -/
def segmentCheckpointStates (states : List (ChunkCheckpointState V)) (segmentStart numValues : Nat)
    (isLastSegment : Bool) : List (SegmentCheckpointState V) :=
  states.filterMap fun s =>
    if s.startRow + s.rows.length > segmentStart ∧
        (isLastSegment = true ∨ s.startRow < segmentStart + numValues) then
      let startOffset := max s.startRow segmentStart
      let endOffset :=
        if isLastSegment then s.startRow + s.rows.length
        else min (s.startRow + s.rows.length) (segmentStart + numValues)
      some
        { rows := (s.rows.drop (startOffset - s.startRow)).take (endOffset - startOffset)
          offsetInSegment := startOffset - segmentStart }
    else none

/-- The segments of a chunk that starts at a row, each with what is written to it. -/
def segmentPlans (states : List (ChunkCheckpointState V)) :
    Nat → List (ColumnChunkData V) → List (ColumnChunkData V × List (SegmentCheckpointState V))
  | _, [] => []
  | segmentStart, d :: rest =>
    (d, segmentCheckpointStates states segmentStart d.metadata.numValues rest.isEmpty) ::
      segmentPlans states (segmentStart + d.metadata.numValues) rest

/-- `ColumnChunk::checkpoint`. -/
def checkpointChunk [DecidableEq V] (chunk : List (ColumnChunkData V))
    (states : List (ChunkCheckpointState V)) : List (ColumnChunkData V) :=
  (segmentPlans states 0 chunk).flatMap fun p => p.1.checkpointSegment T p.2

theorem mem_segmentPlans {states : List (ChunkCheckpointState V)}
    {p : ColumnChunkData V × List (SegmentCheckpointState V)} {chunk : List (ColumnChunkData V)}
    {segmentStart : Nat} (h : p ∈ segmentPlans states segmentStart chunk) :
    p.1 ∈ chunk ∧ ∀ s ∈ p.2, ∃ st ∈ states, ∀ r ∈ s.rows, r ∈ st.rows := by
  induction chunk generalizing segmentStart with
  | nil => cases h
  | cons _ _ ih =>
    rcases mem_cons.mp h with rfl | h
    · refine ⟨mem_cons_self, fun s hs => ?_⟩
      obtain ⟨st, hst, hs⟩ := mem_filterMap.mp hs
      split at hs
      · cases hs
        exact ⟨st, hst, fun r hr => mem_of_mem_drop (mem_of_mem_take hr)⟩
      · cases hs
    · exact ⟨mem_cons_of_mem _ (ih h).1, (ih h).2⟩

/-! ## Bounds that hold -/

/-- The bounds of the metadata are numbers and bound every value of the segment. -/
structure ColumnChunkData.Bounded (d : ColumnChunkData V) : Prop where
  min_number : T.Number d.metadata.compMeta.min
  max_number : T.Number d.metadata.compMeta.max
  bounds : ∀ v, some v ∈ d.values → T.Le d.metadata.compMeta.min v ∧ T.Le v d.metadata.compMeta.max

/-- The batch does not lie outside both bounds at once. -/
def OneSided (m : CompressionMetadata V) (rows : List (Option V)) : Prop :=
  ∀ b ∈ getTypedMinMax T rows, ¬ (T.gt b.2 m.max = true ∧ T.gt m.min b.1 = true)
  deriving Decidable

/-- Written one after the other, no batch lies outside both bounds at once. -/
def WritesOneSided : ColumnChunkData V → List (SegmentCheckpointState V) → Prop
  | _, [] => True
  | d, s :: rest => OneSided T d.metadata.compMeta s.rows ∧ WritesOneSided (d.writeSegment T s) rest

instance decidableWritesOneSided :
    ∀ (states : List (SegmentCheckpointState V)) (d : ColumnChunkData V),
      Decidable (WritesOneSided T d states)
  | [], _ => inferInstanceAs (Decidable True)
  | s :: rest, d =>
    have := decidableWritesOneSided rest (d.writeSegment T s)
    inferInstanceAs (Decidable (OneSided T d.metadata.compMeta s.rows ∧ WritesOneSided T _ rest))

namespace ColumnChunkData.Bounded

variable {T} {d : ColumnChunkData V} {states : List (SegmentCheckpointState V)}

/-- A batch that lies outside at most one of the bounds leaves both of them right. -/
theorem writeSegment (h : d.Bounded T) {s : SegmentCheckpointState V} (hs : Numbers T s.rows)
    (hone : OneSided T d.metadata.compMeta s.rows) : (d.writeSegment T s).Bounded T := by
  have hnew : (d.writeSegment T s).metadata.compMeta = (match getTypedMinMax T s.rows with
      | none => d.metadata.compMeta
      | some (min, max) =>
        if T.gt max d.metadata.compMeta.max then { d.metadata.compMeta with max := max }
        else if T.gt d.metadata.compMeta.min min then { d.metadata.compMeta with min := min }
        else d.metadata.compMeta) := by
    simp only [ColumnChunkData.writeSegment, updateStatistics]
    split <;> split <;> (try split) <;> (try split) <;> rfl
  cases hb : getTypedMinMax T s.rows with
  | none =>
    simp only [hb] at hnew
    constructor
    · rw [hnew]
      exact h.min_number
    · rw [hnew]
      exact h.max_number
    · intro v hv
      rw [hnew]
      rcases mem_writeRowsAt hv with hv | hv
      · exact h.bounds v hv
      · exact absurd hv (getTypedMinMax_eq_none hb v)
  | some b =>
    obtain ⟨mn, mx⟩ := b
    obtain ⟨hmn, hmx, hall⟩ := getTypedMinMax_spec hs hb
    have hnot := hone (mn, mx) hb
    simp only [hb] at hnew
    -- what is left to show of the new bounds: numbers that enclose the old ones and the batch
    suffices henc : T.Le (d.writeSegment T s).metadata.compMeta.min d.metadata.compMeta.min ∧
        T.Le (d.writeSegment T s).metadata.compMeta.min mn ∧
        T.Le d.metadata.compMeta.max (d.writeSegment T s).metadata.compMeta.max ∧
        T.Le mx (d.writeSegment T s).metadata.compMeta.max by
      obtain ⟨hminOld, hminNew, hmaxOld, hmaxNew⟩ := henc
      refine ⟨hminOld.number_left, hmaxOld.number_right, fun v hv => ?_⟩
      rcases mem_writeRowsAt hv with hv | hv
      · exact ⟨hminOld.trans (h.bounds v hv).1, (h.bounds v hv).2.trans hmaxOld⟩
      · exact ⟨hminNew.trans (hall v hv).1, (hall v hv).2.trans hmaxNew⟩
    rw [hnew]
    split
    · rename_i hgt
      have hmin : T.gt d.metadata.compMeta.min mn = false := by
        simpa [hgt] using hnot
      exact ⟨.refl h.min_number, StorageType.le_of_not_lt hmn h.min_number hmin,
        StorageType.le_of_lt hgt, .refl hmx⟩
    · rename_i hgt
      have hmax : T.Le mx d.metadata.compMeta.max :=
        StorageType.le_of_not_lt h.max_number hmx (by simpa [StorageType.gt] using hgt)
      split_ifs with hlt
      · exact ⟨StorageType.le_of_lt hlt, .refl hmn, .refl h.max_number, hmax⟩
      · exact ⟨.refl h.min_number,
          StorageType.le_of_not_lt hmn h.min_number (by simpa [StorageType.gt] using hlt),
          .refl h.max_number, hmax⟩

theorem checkpointInPlace (h : d.Bounded T) (hs : ∀ s ∈ states, Numbers T s.rows)
    (hone : WritesOneSided T d states) :
    (d.checkpointColumnChunkInPlace T states).Bounded T := by
  induction states generalizing d with
  | nil => exact h
  | cons s _ ih =>
    exact ih (h.writeSegment (hs s mem_cons_self) hone.1)
      (fun t ht => hs t (mem_cons_of_mem _ ht)) hone.2

theorem numbers (h : d.Bounded T) : Numbers T d.values := by
  rintro r hr v rfl
  exact (h.bounds v hr).1.number_right

variable [DecidableEq V]

/-- A flush computes bounds that hold. -/
theorem flush (hvalues : Numbers T values) : (ColumnChunkData.flush T values).Bounded T := by
  obtain ⟨hmin, hmax⟩ : (ColumnChunkData.flush T values).metadata.compMeta.min =
        ((getTypedMinMax T values).map Prod.fst).getD T.zero ∧
      (ColumnChunkData.flush T values).metadata.compMeta.max =
        ((getTypedMinMax T values).map Prod.snd).getD T.zero := by
    dsimp only [ColumnChunkData.flush, getMetadataToFlush]
    split <;> exact ⟨rfl, rfl⟩
  cases hb : getTypedMinMax T values with
  | none =>
    rw [hb] at hmin hmax
    refine ⟨hmin ▸ T.zero_number, hmax ▸ T.zero_number, fun v hv => ?_⟩
    exact absurd hv (getTypedMinMax_eq_none hb v)
  | some b =>
    obtain ⟨_, _⟩ := b
    obtain ⟨hmn, hmx, hall⟩ := getTypedMinMax_spec hvalues hb
    rw [hb] at hmin hmax
    refine ⟨hmin ▸ hmn, hmax ▸ hmx, fun v hv => ?_⟩
    rw [hmin, hmax]
    exact hall v hv

omit [DecidableEq V] in
theorem mem_split {lengths : List Nat} {piece : List (Option V)}
    (h : piece ∈ split lengths values) : ∀ r ∈ piece, r ∈ values := by
  induction lengths generalizing values with
  | nil =>
    rcases mem_singleton.mp h with rfl
    exact fun r hr => hr
  | cons _ _ ih =>
    intro r hr
    rcases mem_cons.mp h with rfl | h
    · exact mem_of_mem_take hr
    · exact mem_of_mem_drop (ih h r hr)

theorem flushSegments (hvalues : Numbers T values) : ∀ d ∈ flushSegments T values, d.Bounded T := by
  intro d hd
  obtain ⟨_, hpiece, rfl⟩ := mem_map.mp hd
  exact flush fun r hr => hvalues r (mem_split hpiece r hr)

omit [LinearOrder R] [DecidableEq V] in
theorem numbers_writeRowsAt (hvalues : Numbers T values) (hrows : Numbers T rows) :
    Numbers T (writeRowsAt values offset rows) := by
  rintro r hr v rfl
  rcases mem_writeRowsAt hr with hv | hv
  · exact hvalues _ hv v rfl
  · exact hrows _ hv v rfl

omit [LinearOrder R] [DecidableEq V] in
theorem numbers_foldl_writeRowsAt (hvalues : Numbers T values)
    (hs : ∀ s ∈ states, Numbers T s.rows) :
    Numbers T (states.foldl (fun values s => writeRowsAt values s.offsetInSegment s.rows)
      values) := by
  induction states generalizing values with
  | nil => exact hvalues
  | cons s _ ih =>
    exact ih (numbers_writeRowsAt hvalues (hs s mem_cons_self))
      fun t ht => hs t (mem_cons_of_mem _ ht)

theorem checkpointSegment (h : d.Bounded T) (hs : ∀ s ∈ states, Numbers T s.rows)
    (hone : d.canCheckpointInPlace T states = true → WritesOneSided T d states) :
    ∀ e ∈ d.checkpointSegment T states, e.Bounded T := by
  intro e he
  unfold ColumnChunkData.checkpointSegment at he
  split at he
  · rcases mem_singleton.mp he with rfl
    exact h
  · split_ifs at he with hin
    · rcases mem_singleton.mp he with rfl
      exact h.checkpointInPlace hs (hone hin)
    · exact flushSegments (numbers_foldl_writeRowsAt h.numbers hs) e he

end ColumnChunkData.Bounded

/-! ## Integer types -/

/-- `std::bit_width` of a number, taken as an unsigned one of `width` bits. -/
def bitWidthAs (width : Nat) (z : Int) : Nat := Nat.size (z % 2 ^ width).toNat

/-- `IntegerBitpacking::getPackingInfo` for a type of `width` bits. -/
def getPackingInfo (width : Nat) (min max : Int) : BitpackInfo Int :=
  if 0 < min ∧ 0 < max ∧ bitWidthAs width (max - min) < bitWidthAs width max then
    { bitWidth := bitWidthAs width (max - min), hasNegative := false, offset := min }
  else if min < 0 ∧ max < 0 ∧ bitWidthAs width (min - max) < bitWidthAs width max then
    { bitWidth := bitWidthAs width (min - max) + 1, hasNegative := true, offset := max }
  else if min < 0 then
    { bitWidth := bitWidthAs width (Max.max min.natAbs max.natAbs : Nat) + 1, hasNegative := true,
      offset := 0 }
  else
    { bitWidth := bitWidthAs width (Max.max min.natAbs max.natAbs : Nat), hasNegative := false,
      offset := 0 }

def pageSize : Nat := 4096

/-- `CompressionMetadata::numValues` of a page, for an integer type of `width` bits. -/
def integersPerPage (width : Nat) (m : CompressionMetadata Int) : Nat :=
  match m.compression with
  | .integerBitpacking =>
    let info := getPackingInfo width m.min m.max
    if info.bitWidth = 0 then 2 ^ 64 - 1 else pageSize * 8 / info.bitWidth
  | _ => pageSize / (width / 8)

/-- `GetBitpackingMetadata`: bit packing, unless it needs all bits of the type. -/
def compressIntegers (width : Nat) (values : List (Option Int)) (min max : Int) :
    CompressionType × Nat :=
  let compression : CompressionType :=
    if (getPackingInfo width min max).bitWidth ≥ width then .uncompressed else .integerBitpacking
  let perPage := integersPerPage width ⟨min, max, compression⟩
  (compression, if perPage = 2 ^ 64 - 1 then 0 else
    values.length / perPage + if values.length % perPage = 0 then 0 else 1)

/-- An integer type of `width` bits, with compression enabled. -/
def integerType (width : Nat) (segmentLengths : List (Option Int) → List Nat) :
    StorageType Int Int where
  number := some
  zero := 0
  zero_number := rfl
  compress := compressIntegers width
  numValuesPerPage := integersPerPage width
  packingInfo := getPackingInfo width
  canUpdateFloat := fun _ _ _ => false
  segmentLengths := segmentLengths

end Lbug.Storage
