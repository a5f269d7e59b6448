/-
  Storage/ZoneMap.lean --- skipping a column chunk by its bounds.

  Source: `ColumnChunkStats::update` in `storage/table/column_chunk_stats.cpp`,
  `getMergedColumnChunkStats` in `storage/table/column_chunk.cpp`,
  `checkZoneMapSwitch` in `storage/predicate/constant_predicate.cpp` and the comparison
  functions of `include/function/comparison/comparison_functions.h`.

  A scan with a comparison against a constant asks the bounds of a chunk whether a row
  of it can satisfy the comparison, and reads nothing if none can.  The chunk is the one
  of `ColumnStatistics`, written by any sequence of flushes, checkpoints and appends.
  Writing a batch in place widens one bound only, so the bounds may exclude a value that
  the batch has written; they are right in every run whose batches lie outside one bound
  at a time.
-/
import Lbug.Storage.ColumnStatistics

namespace Lbug.Storage

open Foundation List Option

universe u v

variable {V : Type u} {R : Type v} [LinearOrder R] (T : StorageType V R)

/-! ## Statistics -/

structure ColumnChunkStats (V : Type u) where
  min : Option V
  max : Option V

/-- `ColumnChunkStats::update` with two optional bounds. -/
def ColumnChunkStats.update (s : ColumnChunkStats V)
    (newMin newMax : Option V) : ColumnChunkStats V where
  min := match s.min, newMin with
    | none, _ => newMin
    | some m, some n => if T.gt m n then newMin else s.min
    | some _, none => s.min
  max := match s.max, newMax with
    | none, _ => newMax
    | some m, some n => if T.gt n m then newMax else s.max
    | some _, none => s.max

/-- The bounds of all segments of a chunk. -/
def getMergedColumnChunkStats (chunk : List (ColumnChunkData V)) : ColumnChunkStats V :=
  chunk.foldl (fun s d => s.update T (some d.metadata.compMeta.min) (some d.metadata.compMeta.max))
    ⟨none, none⟩

/-! ## Comparisons -/

inductive ExpressionType where
  | equals
  | notEquals
  | greaterThan
  | greaterThanEquals
  | lessThan
  | lessThanEquals
  deriving DecidableEq, Repr

namespace StorageType

/-- The comparison `a == b` of the type. -/
def eq (a b : V) : Bool :=
  match T.number a, T.number b with
  | some x, some y => decide (x = y)
  | _, _ => false

/-- The comparison functions: all of them are made of `==` and `>`. -/
def compare (e : ExpressionType) (left right : V) : Bool :=
  match e with
  | .equals => T.eq left right
  | .notEquals => !T.eq left right
  | .greaterThan => T.gt left right
  | .greaterThanEquals => T.gt left right || T.eq left right
  | .lessThan => !(T.gt left right || T.eq left right)
  | .lessThanEquals => !T.gt left right

end StorageType

inductive ZoneMapCheckResult where
  | alwaysScan
  | skipScan
  deriving DecidableEq, Repr

/-- Whether the bounds rule out that a row compares with the constant as asked.  The constant
has the type of the column: there is no cast between them. -/
def checkZoneMap (stats : ColumnChunkStats V) (e : ExpressionType)
    (constant : V) : ZoneMapCheckResult :=
  match stats.min, stats.max with
  | some min, some max =>
    let skip : Bool :=
      match e with
      | .equals =>
        !(T.compare .greaterThanEquals constant min && T.compare .lessThanEquals constant max)
      | .notEquals => T.compare .equals constant min && T.compare .equals constant max
      | .greaterThan => T.compare .greaterThanEquals constant max
      | .greaterThanEquals => T.compare .greaterThan constant max
      | .lessThan => T.compare .lessThanEquals constant min
      | .lessThanEquals => T.compare .lessThan constant min
    if skip then .skipScan else .alwaysScan
  | _, _ => .alwaysScan

section Sound

variable {T} {s : ColumnChunkStats V} {v : V} {min max : V}

/-- The statistics enclose a value. -/
def ColumnChunkStats.Encloses (T : StorageType V R) (s : ColumnChunkStats V) (v : V) : Prop :=
  (∃ m, s.min = some m ∧ T.Le m v) ∧ ∃ m, s.max = some m ∧ T.Le v m

/-- A skipped chunk has no row that satisfies the comparison. -/
theorem not_compare_of_skip {e : ExpressionType} {constant : V} (hs : s.Encloses T v)
    (hconstant : T.Number constant) (hskip : checkZoneMap T s e constant = .skipScan) :
    T.compare e v constant = false := by
  obtain ⟨⟨_, hmin, _, y, hx, hy, hxy⟩, _, hmax, y', _, hy', hz, hyz⟩ := hs
  obtain rfl : y = y' := some.inj (hy.symm.trans hy')
  obtain ⟨_, hc⟩ := isSome_iff_exists.mp hconstant
  simp only [checkZoneMap, hmin, hmax] at hskip
  -- on numbers every comparison is one of the linear order
  cases e <;>
    simp only [StorageType.compare, StorageType.eq, StorageType.gt, StorageType.lt, hx, hy, hz, hc,
      Bool.and_eq_true, Bool.not_eq_true', Bool.or_eq_false_iff, Bool.and_eq_false_iff,
      Bool.not_eq_false', decide_eq_true_eq, decide_eq_false_iff_not, ite_eq_left_iff, reduceCtorEq,
      imp_false, not_not] at hskip ⊢
  case equals => rintro rfl; rcases hskip with ⟨h, h'⟩ | h <;> grind
  case notEquals => exact le_antisymm (hyz.trans hskip.2.ge) (hskip.1.le.trans hxy)
  case greaterThan => grind
  case greaterThanEquals => grind
  case lessThan => grind
  case lessThanEquals => grind

/-- The statistics hold numbers. -/
def ColumnChunkStats.Proper (T : StorageType V R) (s : ColumnChunkStats V) : Prop :=
  (∀ m ∈ s.min, T.Number m) ∧ ∀ m ∈ s.max, T.Number m

/-- Merging bounds keeps what is enclosed. -/
theorem ColumnChunkStats.Encloses.update (h : s.Encloses T v) (min max : V) :
    (s.update T (some min) (some max)).Encloses T v := by
  obtain ⟨⟨m, hm, hmv⟩, n, hn, hvn⟩ := h
  simp only [ColumnChunkStats.update, ColumnChunkStats.Encloses, hm, hn]
  constructor
  · split_ifs with hgt
    · exact ⟨min, rfl, (StorageType.le_of_lt hgt).trans hmv⟩
    · exact ⟨m, rfl, hmv⟩
  · split_ifs with hgt
    · exact ⟨max, rfl, hvn.trans (StorageType.le_of_lt hgt)⟩
    · exact ⟨n, rfl, hvn⟩

/-- Merging bounds encloses what lies between them. -/
theorem ColumnChunkStats.Proper.encloses_update (h : s.Proper T) (hmin : T.Le min v)
    (hmax : T.Le v max) :
    (s.update T (some min) (some max)).Encloses T v := by
  constructor
  · cases hm : s.min with
    | none => exact ⟨min, by simp [ColumnChunkStats.update, hm], hmin⟩
    | some m =>
      cases hgt : T.gt m min with
      | true => exact ⟨min, by simp [ColumnChunkStats.update, hm, hgt], hmin⟩
      | false =>
        have hle : T.Le m min := StorageType.le_of_not_lt hmin.number_left (h.1 m hm) hgt
        exact ⟨m, by simp [ColumnChunkStats.update, hm, hgt], hle.trans hmin⟩
  · cases hm : s.max with
    | none => exact ⟨max, by simp [ColumnChunkStats.update, hm], hmax⟩
    | some m =>
      cases hgt : T.gt max m with
      | true => exact ⟨max, by simp [ColumnChunkStats.update, hm, hgt], hmax⟩
      | false =>
        have hle : T.Le max m := StorageType.le_of_not_lt (h.2 m hm) hmax.number_right hgt
        exact ⟨m, by simp [ColumnChunkStats.update, hm, hgt], hmax.trans hle⟩

theorem ColumnChunkStats.Proper.update (h : s.Proper T) (hmin : T.Number min)
    (hmax : T.Number max) :
    (s.update T (some min) (some max)).Proper T := by
  obtain ⟨smin, smax⟩ := s
  constructor
  · intro m hm
    cases smin with
    | none => exact mem_some_iff.mp hm ▸ hmin
    | some =>
      simp only [ColumnChunkStats.update] at hm
      split at hm
      · exact mem_some_iff.mp hm ▸ hmin
      · exact h.1 m hm
  · intro m hm
    cases smax with
    | none => exact mem_some_iff.mp hm ▸ hmax
    | some =>
      simp only [ColumnChunkStats.update] at hm
      split at hm
      · exact mem_some_iff.mp hm ▸ hmax
      · exact h.2 m hm

/-- The merged bounds of right segments enclose every value of the chunk. -/
theorem encloses_merged {chunk : List (ColumnChunkData V)} (h : ∀ d ∈ chunk, d.Bounded T)
    {d : ColumnChunkData V} (hd : d ∈ chunk) (hv : some v ∈ d.values) :
    (getMergedColumnChunkStats T chunk).Encloses T v := by
  -- over the segments: the statistics so far are numbers, and what they enclose stays enclosed
  suffices hfold : ∀ (chunk : List (ColumnChunkData V)) (s : ColumnChunkStats V), s.Proper T →
      (∀ d ∈ chunk, d.Bounded T) → (s.Encloses T v ∨ ∃ d ∈ chunk, some v ∈ d.values) →
      (chunk.foldl (fun s d =>
        s.update T (some d.metadata.compMeta.min) (some d.metadata.compMeta.max)) s).Encloses T v by
    exact hfold chunk ⟨none, none⟩ ⟨by simp, by simp⟩ h (.inr ⟨d, hd, hv⟩)
  intro chunk
  induction chunk with
  | nil =>
    rintro s - - (hs | ⟨d, hd, -⟩)
    · exact hs
    · cases hd
  | cons e _ ih =>
    intro s hs hall hv
    have he := hall e mem_cons_self
    refine ih _ (hs.update he.min_number he.max_number)
      (fun d hd => hall d (mem_cons_of_mem _ hd)) ?_
    rcases hv with hv | ⟨d, hd, hv⟩
    · exact .inl (hv.update _ _)
    · rcases mem_cons.mp hd with rfl | hd
      · exact .inl (hs.encloses_update (he.bounds v hv).1 (he.bounds v hv).2)
      · exact .inr ⟨d, hd, hv⟩

end Sound

/-! ## Runs -/

/-- What happens to a chunk: it is flushed for the first time, a checkpoint writes to it,
or rows are appended to one of its segments. -/
inductive ChunkWrite (V : Type u) where
  | flush (rows : List (Option V))
  | checkpoint (states : List (ChunkCheckpointState V))
  | append (segment : Nat) (rows : List (Option V))

variable [DecidableEq V]

namespace ChunkWrite

def step (chunk : List (ColumnChunkData V)) : ChunkWrite V → Option (List (ColumnChunkData V))
  | .flush rows => some (ColumnChunkData.flushSegments T rows)
  | .checkpoint states => some (checkpointChunk T chunk states)
  | .append i rows => (chunk[i]?).map fun d => chunk.set i (d.appendValues T rows)

/-- Only numbers are written, and no batch that is written in place lies outside both
bounds of its segment at once. -/
def Ok (chunk : List (ColumnChunkData V)) : ChunkWrite V → Prop
  | .flush rows => Numbers T rows
  | .checkpoint states => (∀ s ∈ states, Numbers T s.rows) ∧
      ∀ p ∈ segmentPlans states 0 chunk,
        p.1.canCheckpointInPlace T p.2 = true → WritesOneSided T p.1 p.2
  | .append i rows => Numbers T rows ∧ ∀ d ∈ chunk[i]?, OneSided T d.metadata.compMeta rows

instance (chunk : List (ColumnChunkData V)) : ∀ a : ChunkWrite V, Decidable (Ok T chunk a)
  | .flush rows => inferInstanceAs (Decidable (Numbers T rows))
  | .checkpoint states =>
    have : ∀ p : ColumnChunkData V × List (SegmentCheckpointState V),
        Decidable (p.1.canCheckpointInPlace T p.2 = true → WritesOneSided T p.1 p.2) :=
      fun p => have := decidableWritesOneSided T p.2 p.1; inferInstance
    inferInstanceAs (Decidable ((∀ s ∈ states, Numbers T s.rows) ∧
      ∀ p ∈ segmentPlans states 0 chunk, _))
  | .append i rows =>
    inferInstanceAs (Decidable (Numbers T rows ∧ ∀ d ∈ chunk[i]?, _))

theorem bounded_step {T : StorageType V R} {chunk chunk' : List (ColumnChunkData V)}
    {a : ChunkWrite V} (h : ∀ d ∈ chunk, d.Bounded T) (hok : a.Ok T chunk)
    (hstep : step T chunk a = some chunk') : ∀ d ∈ chunk', d.Bounded T := by
  cases a with
  | flush =>
    cases hstep
    exact ColumnChunkData.Bounded.flushSegments hok
  | checkpoint =>
    cases hstep
    intro e he
    obtain ⟨p, hp, he⟩ := mem_flatMap.mp he
    obtain ⟨hd, hrows⟩ := mem_segmentPlans hp
    refine (h p.1 hd).checkpointSegment (fun s hs r hr => ?_) (hok.2 p hp) e he
    obtain ⟨st, hst, hsub⟩ := hrows s hs
    exact hok.1 st hst r (hsub r hr)
  | append =>
    obtain ⟨d, hd, rfl⟩ := map_eq_some_iff.mp hstep
    intro e he
    rcases mem_or_eq_of_mem_set he with he | rfl
    · exact h e he
    · exact (h d (mem_of_getElem? hd)).writeSegment hok.1 (hok.2 d hd)

end ChunkWrite

/-- In every run that writes only numbers and no batch in place that lies outside both
bounds of its segment at once, the bounds of every segment hold, and a chunk skipped for
a comparison with a number has no row that satisfies it. -/
theorem bounds_and_zoneMap_sound (T : StorageType V R) {chunk : List (ColumnChunkData V)}
    (h : Reachable (ChunkWrite.step T) [] (fun c a => a.Ok T c) chunk) :
    (∀ d ∈ chunk, ∀ v, some v ∈ d.values →
      T.Le d.metadata.compMeta.min v ∧ T.Le v d.metadata.compMeta.max) ∧
    ∀ e constant, T.Number constant →
      checkZoneMap T (getMergedColumnChunkStats T chunk) e constant = .skipScan →
      ∀ d ∈ chunk, ∀ v, some v ∈ d.values → T.compare e v constant = false := by
  have hall : ∀ d ∈ chunk, d.Bounded T := h.invariant (fun c => ∀ d ∈ c, d.Bounded T) (by simp)
      fun _ _ _ hc hok hstep => ChunkWrite.bounded_step hc hok hstep
  refine ⟨fun d hd => (hall d hd).bounds, fun e constant hconstant hskip d hd v hv => ?_⟩
  exact not_compare_of_skip (encloses_merged hall hd hv) hconstant hskip

/-- A chunk of 64 bit integers that is never cut. -/
def int64 : StorageType Int Int := integerType 64 fun _ => []

/-- A flush of 2 and 12, then a checkpoint that overwrites the 12 by 15. -/
def widenMax : List (ChunkWrite Int) :=
  [.flush [some 2, some 12], .checkpoint [{ startRow := 1, rows := [some 15] }]]

theorem widenMax_bounds : ∃ chunk,
    Reachable (ChunkWrite.step int64) [] (fun c a => a.Ok int64 c) chunk ∧
    chunk.map (·.values) = [[some 2, some 15]] ∧
    ∀ d ∈ chunk, ∀ v, some v ∈ d.values →
      int64.Le d.metadata.compMeta.min v ∧ int64.Le v d.metadata.compMeta.max := by
  exact exists_reachable_of_run widenMax (fun c => c.map (·.values) = [[some 2, some 15]])
    (by decide) fun _ hreach hvalues => ⟨hvalues, (bounds_and_zoneMap_sound int64 hreach).1⟩

/-- A flush of 2 and 12, then a checkpoint that overwrites both by 1 and 15. -/
def widenBoth : List (ChunkWrite Int) :=
  [.flush [some 2, some 12], .checkpoint [{ startRow := 0, rows := [some 1, some 15] }]]

/-- The batch is written in place and only the upper bound is widened.  The 1 is below the
lower bound, and the chunk is skipped for a comparison with it. -/
theorem zoneMap_drops_row : ∃ chunk, Reachable (ChunkWrite.step int64) [] Always chunk ∧
    ∃ d ∈ chunk, some 1 ∈ d.values ∧ ¬ int64.Le d.metadata.compMeta.min 1 ∧
      int64.compare .equals 1 1 = true ∧
      checkZoneMap int64 (getMergedColumnChunkStats int64 chunk) .equals 1 = .skipScan := by
  refine exists_reachable_of_run widenBoth
    (fun c => c.map (fun d => (d.values, d.metadata.compMeta.min)) = [([some 1, some 15], 2)] ∧
      checkZoneMap int64 (getMergedColumnChunkStats int64 c) .equals 1 = .skipScan) (by decide) ?_
  rintro chunk - ⟨hchunk, hskip⟩
  obtain ⟨d, _, rfl, hd, -⟩ := map_eq_cons_iff.mp hchunk
  have hvalues : d.values = [some 1, some 15] := congrArg Prod.fst hd
  have hmin : d.metadata.compMeta.min = 2 := congrArg Prod.snd hd
  refine ⟨d, mem_cons_self, by simp [hvalues], ?_, by decide, hskip⟩
  rintro ⟨x, y, hx, hy, hxy⟩
  cases hx
  cases hy
  omega

end Lbug.Storage
