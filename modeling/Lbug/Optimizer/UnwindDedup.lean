/-
  Optimizer/UnwindDedup.lean --- duplicate values of an UNWIND before a MERGE.

  Source: `optimizer/unwind_dedup_optimizer.cpp`, `processor/map/map_unwind_dedup.cpp`,
  `processor/operator/unwind_dedup.cpp`, `processor/operator/persistent/merge.cpp`.

  The optimizer drops the rows whose unwound value has a hash that was seen before.  MERGE
  creates a pattern once for all rows with the same keys and hands every row on, so each row
  that is dropped is missing from the output.  The UNWIND may stand below a projection that
  drops its column, and then the plan cannot be mapped.
-/
import Mathlib.Data.List.Flatten

namespace Lbug.Optimizer.UnwindDedup

open List

inductive LogicalOperator (Expr : Type) where
  | unwind (outExpr : Expr) (child : LogicalOperator Expr)
  | hashJoin (probe build : LogicalOperator Expr)
  | other (n : Nat) (children : Fin n → LogicalOperator Expr)

structure LogicalMerge (Expr : Type) where
  hasOnMatchOrOnCreate : Bool
  child : LogicalOperator Expr

def findUnwind {Expr : Type} : LogicalOperator Expr → Option Expr
  | .unwind outExpr _ => some outExpr
  | .hashJoin probe build => (findUnwind probe).or (findUnwind build)
  | .other n children => (finRange n).findSome? fun i => findUnwind (children i)

/-- The key of the `LogicalUnwindDeduplicate` that is put above the probe side, if one is. -/
def visitMergeReplace {Expr : Type} (merge : LogicalMerge Expr) : Option Expr :=
  match merge.hasOnMatchOrOnCreate, merge.child with
  | false, .hashJoin probe _ => findUnwind probe
  | _, _ => none

/-- The positions of a data chunk: each has the value of a column, and stands for the rows that
it forms with the other chunks. -/
abbrev Batch (Value Row : Type) := List (Value × List Row)

/-- What the operators below the MERGE compute, and its executors. -/
structure Execution (Expr Value Row Match Key DB Out : Type) where
  computeHash : Value → UInt64
  /-- the batches of an operator, seen from the chunk of a column, if that is in its schema -/
  batches : LogicalOperator Expr → Expr → Option (List (Batch Value Row))
  /-- the rows of an operator, in the order in which the chunk of its UNWIND gives them -/
  rows : LogicalOperator Expr → List Row
  rows_eq : ∀ op key found, findUnwind op = some key → batches op key = some found →
    rows op = found.flatten.flatMap (·.2)
  /-- the rows of the build side that match a row of the probe side -/
  matching : LogicalOperator Expr → Row → List Match
  /-- the rows of a child that is not a hash join -/
  optionalRows : LogicalOperator Expr → List (Row × Option Match)
  keys : Row → Key
  onMatch : DB → Row → Match → DB × Out
  onCreatedPattern : DB → Row → DB × Out
  onNewPattern : DB → Row → DB × Out

namespace Execution

variable {Expr Value Row Match Key DB Out : Type}
  (E : Execution Expr Value Row Match Key DB Out)

/-- The loop over the selected positions, with `seenHashes`. -/
def filterBatch (seen : List UInt64) : Batch Value Row → List UInt64 × Batch Value Row
  | [] => (seen, [])
  | entry :: entries =>
    if E.computeHash entry.1 ∈ seen then filterBatch seen entries
    else
      let (seen, kept) := filterBatch (E.computeHash entry.1 :: seen) entries
      (seen, entry :: kept)

/-- The batches that `UnwindDedup` hands out; one without a new value is skipped. -/
def getNextTuples (seen : List UInt64) : List (Batch Value Row) → List (Batch Value Row)
  | [] => []
  | batch :: batches =>
    let (seen, kept) := E.filterBatch seen batch
    if kept.isEmpty then getNextTuples seen batches else kept :: getNextTuples seen batches

/-- The rows of the probe side, above which `UnwindDedup` may stand.  `mapUnwindDedup` throws if
the schema has no position for the key. -/
def output (probe : LogicalOperator Expr) : Option Expr → Option (List Row)
  | some key => do
    let batches ← E.batches probe key
    return (E.getNextTuples [] batches).flatten.flatMap (·.2)
  | none => some (E.rows probe)

/-- A left join with a mark: a row without a match is handed on with the mark unset. -/
def join (build : LogicalOperator Expr) (row : Row) : List (Row × Option Match) :=
  match E.matching build row with
  | [] => [(row, none)]
  | found => found.map fun m => (row, some m)

def childRows (dedup : Option Expr) : LogicalOperator Expr → Option (List (Row × Option Match))
  | .hashJoin probe build => return (← E.output probe dedup).flatMap (E.join build)
  | op => some (E.optionalRows op)

/-- `Merge::getNextTuplesInternal` with the keys of the patterns that were created. -/
def merge [DecidableEq Key] (db : DB) (created : List Key) :
    List (Row × Option Match) → DB × List Out
  | [] => (db, [])
  | (row, found) :: rows =>
    let ((db, out), created) := match found with
      | some m => (E.onMatch db row m, created)
      | none =>
        if E.keys row ∈ created then (E.onCreatedPattern db row, created)
        else (E.onNewPattern db row, E.keys row :: created)
    let (db, outs) := merge db created rows
    (db, out :: outs)

def run [DecidableEq Key] (m : LogicalMerge Expr) (dedup : Option Expr) (db : DB) :
    Option (DB × List Out) :=
  return E.merge db [] (← E.childRows dedup m.child)

theorem length_merge [DecidableEq Key] (db : DB) (created : List Key)
    (rows : List (Row × Option Match)) : (E.merge db created rows).2.length = rows.length := by
  induction rows generalizing db created with
  | nil => rfl
  | cons row rows ih => exact congrArg (· + 1) (ih _ _)

theorem filterBatch_append (seen : List UInt64) (b c : Batch Value Row) :
    (E.filterBatch seen (b ++ c)).2 =
      (E.filterBatch seen b).2 ++ (E.filterBatch (E.filterBatch seen b).1 c).2 := by
  induction b generalizing seen with
  | nil => rfl
  | cons entry b ih =>
    rw [cons_append, filterBatch, filterBatch]
    split
    · exact ih seen
    · exact congrArg (entry :: ·) (ih _)

theorem flatten_getNextTuples (seen : List UInt64) (batches : List (Batch Value Row)) :
    (E.getNextTuples seen batches).flatten = (E.filterBatch seen batches.flatten).2 := by
  induction batches generalizing seen with
  | nil => rfl
  | cons batch batches ih =>
    rw [getNextTuples, flatten_cons, filterBatch_append]
    dsimp only
    split
    · rename_i hempty
      rw [isEmpty_iff.mp hempty, nil_append, ih]
    · rw [flatten_cons, ih]

/-- The kept rows are all rows exactly if a position whose hash was seen before has no rows. -/
theorem filterBatch_rows (seen : List UInt64) (entries : Batch Value Row) :
    (E.filterBatch seen entries).2.flatMap (·.2) <+ entries.flatMap (·.2) ∧
      ((E.filterBatch seen entries).2.flatMap (·.2) = entries.flatMap (·.2) ↔
        (∀ e ∈ entries, E.computeHash e.1 ∈ seen → e.2 = []) ∧
          entries.Pairwise fun a b => E.computeHash a.1 = E.computeHash b.1 → b.2 = []) := by
  induction entries generalizing seen with
  | nil => simp [filterBatch]
  | cons entry entries ih =>
    rw [filterBatch, flatMap_cons, forall_mem_cons, pairwise_cons]
    split
    · rename_i hseen
      obtain ⟨hsub, hiff⟩ := ih seen
      refine ⟨hsub.trans (sublist_append_right _ _), fun heq => ?_, fun h => ?_⟩
      · have hnil : entry.2 = [] := by
          have hle := hsub.length_le
          rw [heq, length_append] at hle
          exact length_eq_zero_iff.mp (by omega)
        rw [hnil, nil_append, hiff] at heq
        exact ⟨⟨fun _ => hnil, heq.1⟩, fun b hb hash => heq.1 b hb (hash ▸ hseen), heq.2⟩
      · rw [h.1.1 hseen, nil_append, hiff]
        exact ⟨h.1.2, h.2.2⟩
    · obtain ⟨hsub, hiff⟩ := ih (E.computeHash entry.1 :: seen)
      refine ⟨hsub.append_left _, ?_⟩
      rw [flatMap_cons, append_cancel_left_eq, hiff]
      grind

theorem join_ne_nil (build : LogicalOperator Expr) (row : Row) : E.join build row ≠ [] := by
  unfold join
  split <;> simp_all

/-- Fewer rows have a shorter join. -/
theorem eq_of_length_join {build : LogicalOperator Expr} {l m : List Row} (hsub : l <+ m)
    (hlen : (l.flatMap (E.join build)).length = (m.flatMap (E.join build)).length) : l = m := by
  induction hsub with
  | slnil => rfl
  | cons a hsub ih =>
    have hpos := length_pos_iff.mpr (E.join_ne_nil build a)
    have hle := (hsub.flatMap (E.join build)).length_le
    rw [flatMap_cons, length_append] at hlen
    omega
  | cons_cons a _ ih =>
    rw [flatMap_cons, flatMap_cons, length_append, length_append] at hlen
    rw [ih (by omega)]

/-- What `UnwindDedup` hands on, of the rows that the probe side has without it. -/
theorem output_some {probe : LogicalOperator Expr} {key : Expr} {batches : List (Batch Value Row)}
    (hfind : findUnwind probe = some key) (hbatches : E.batches probe key = some batches) :
    ∃ rows, E.output probe (some key) = some rows ∧ rows <+ E.rows probe ∧
      (rows = E.rows probe ↔
        batches.flatten.Pairwise fun a b => E.computeHash a.1 = E.computeHash b.1 → b.2 = []) := by
  obtain ⟨hsub, hiff⟩ := E.filterBatch_rows [] batches.flatten
  rw [← E.rows_eq probe key batches hfind hbatches, ← flatten_getNextTuples] at hsub hiff
  refine ⟨_, by rw [output, hbatches]; rfl, hsub, hiff.trans ?_⟩
  exact and_iff_right fun _ _ hnil => absurd hnil not_mem_nil

end Execution

end Lbug.Optimizer.UnwindDedup
