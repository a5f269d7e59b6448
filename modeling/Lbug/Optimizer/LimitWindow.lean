/-
  Optimizer/LimitWindow.lean --- which rows the operators above a plan need.

  The SKIP and LIMIT clauses above an operator leave a window of its rows: to output
  anything they need more than `lower` rows, and rows from `upper` on are never looked at.
  `Shape.enough` compares the window that reaches a distinct, a table function or a
  recursive extend with the SKIP and LIMIT numbers nearest to it.
-/
import Lbug.Optimizer.LimitPushDown

namespace Lbug.Optimizer

open List

/-! ## Windows -/

structure Window where
  lower : Nat
  upper : Option Nat
  deriving DecidableEq

namespace Window

/-- All rows are needed. -/
def all : Window := ⟨0, none⟩

section

variable (w : Window)

/-- Something can be output. -/
def nonempty : Bool :=
  match w.upper with
  | none => true
  | some b => w.lower < b

/-- The first `n` rows are enough. -/
def coveredBy (n : Nat) : Bool :=
  match w.upper with
  | none => false
  | some b => b ≤ n

/-- The window below a SKIP. -/
def skip (s : Nat) : Window := ⟨s + w.lower, w.upper.map (s + ·)⟩

/-- The window below a LIMIT. -/
def limit (l : Nat) : Window :=
  ⟨w.lower, match w.upper with
    | none => some l
    | some b => some (min b l)⟩

/-- The window below an operator that drops rows. -/
def filter : Window := if w.nonempty then ⟨w.lower, none⟩ else w

def clause (skipNum limitNum : Option SkipLimit) : Window :=
  let w := match limitNum with
    | some (.literal l) => w.limit l.toNat
    | _ => w
  match skipNum with
  | some (.literal s) => w.skip s.toNat
  | _ => w

theorem nonempty_skip (s : Nat) : (w.skip s).nonempty = w.nonempty := by
  obtain ⟨_, upper⟩ := w
  cases upper with
  | none => rfl
  | some => simp [nonempty, skip]

end

variable {w : Window}

theorem limit_empty (hw : w.nonempty = false) (l : Nat) : (w.limit l).nonempty = false := by
  obtain ⟨lower, upper⟩ := w
  cases upper with
  | none => cases hw
  | some b =>
    have hb : ¬ lower < b := of_decide_eq_false hw
    exact decide_eq_false fun hlt => hb (Nat.lt_of_lt_of_le hlt (Nat.min_le_left b l))

theorem clause_empty (hw : w.nonempty = false) (skipNum limitNum : Option SkipLimit) :
    (w.clause skipNum limitNum).nonempty = false := by
  match skipNum, limitNum with
  | none, none | none, some .other | some .other, none | some .other, some .other => exact hw
  | none, some (.literal l) | some .other, some (.literal l) => exact limit_empty hw _
  | some (.literal s), none | some (.literal s), some .other =>
    exact (nonempty_skip _ _).trans hw
  | some (.literal s), some (.literal l) => exact (nonempty_skip _ _).trans (limit_empty hw _)

variable {Row : Type} {rows rows' : List Row} {f : Row → List Row} {m : Nat}

/-- Rows that give the same output above: the same ones, the first ones of them, or too few
to output anything. -/
def Same (w : Window) (rows rows' : List Row) : Prop :=
  w.nonempty = true → rows' = rows ∨ (∃ m, w.coveredBy m = true ∧ rows' = rows.take m) ∨
    rows.length ≤ w.lower ∧ rows'.length ≤ w.lower

theorem coveredBy_iff {n : Nat} : w.coveredBy n = true ↔ ∃ b, w.upper = some b ∧ b ≤ n := by
  obtain ⟨_, upper⟩ := w
  cases upper <;> simp [coveredBy]

theorem same_refl (w : Window) (rows : List Row) : w.Same rows rows := fun _ => .inl rfl

theorem Same.drop {s : Nat} (h : (w.skip s).Same rows rows') :
    w.Same (rows.drop s) (rows'.drop s) := by
  intro hw
  rcases h (by rw [nonempty_skip, hw]) with rfl | ⟨m, hm, rfl⟩ | ⟨hrows, hrows'⟩
  · exact .inl rfl
  · obtain ⟨_, hb, hbm⟩ := coveredBy_iff.mp hm
    obtain ⟨b', hb', rfl⟩ := Option.map_eq_some_iff.mp hb
    refine .inr (.inl ⟨m - s, coveredBy_iff.mpr ⟨b', hb', by omega⟩, ?_⟩)
    rw [drop_take]
  · refine .inr (.inr ⟨?_, ?_⟩)
    · rw [length_drop]
      have hle : rows.length ≤ s + w.lower := hrows
      omega
    · rw [length_drop]
      have hle : rows'.length ≤ s + w.lower := hrows'
      omega

theorem Same.take {l : Nat} (h : (w.limit l).Same rows rows') :
    w.Same (rows.take l) (rows'.take l) := by
  intro hw
  by_cases hlimit : (w.limit l).nonempty = true
  · rcases h hlimit with rfl | ⟨m, hm, rfl⟩ | ⟨hrows, hrows'⟩
    · exact .inl rfl
    · obtain ⟨_, hb, hbm⟩ := coveredBy_iff.mp hm
      cases hupper : w.upper with
      | none =>
        simp only [limit, hupper, Option.some.injEq] at hb
        refine .inl ?_
        rw [take_take, Nat.min_eq_left (by omega)]
      | some b' =>
        simp only [limit, hupper, Option.some.injEq] at hb
        by_cases hl : l ≤ m
        · refine .inl ?_
          rw [take_take, Nat.min_eq_left hl]
        · refine .inr (.inl ⟨m, coveredBy_iff.mpr ⟨b', hupper, by omega⟩, ?_⟩)
          rw [take_take, take_take, Nat.min_comm]
    · refine .inr (.inr ⟨?_, ?_⟩)
      · exact Nat.le_trans (length_take_le' _ _) hrows
      · exact Nat.le_trans (length_take_le' _ _) hrows'
  · -- the rows that are left are not enough for the clauses above
    have hle : l ≤ w.lower := by
      obtain ⟨lower, upper⟩ := w
      cases upper with
      | none => exact Nat.le_of_not_lt (mt decide_eq_true hlimit)
      | some b =>
        have hb : lower < b := of_decide_eq_true hw
        have hmin : ¬ lower < min b l := mt decide_eq_true hlimit
        show l ≤ lower
        omega
    refine .inr (.inr ⟨?_, ?_⟩)
    · exact Nat.le_trans (length_take_le _ _) hle
    · exact Nat.le_trans (length_take_le _ _) hle

theorem Same.map (h : w.Same rows rows') (f : Row → Row) : w.Same (rows.map f) (rows'.map f) := by
  intro hw
  rcases h hw with rfl | ⟨m, hm, rfl⟩ | ⟨hrows, hrows'⟩
  · exact .inl rfl
  · exact .inr (.inl ⟨m, hm, map_take⟩)
  · exact .inr (.inr ⟨by rwa [length_map], by rwa [length_map]⟩)

theorem nonempty_filter (w : Window) : w.filter.nonempty = w.nonempty := by
  unfold filter
  split_ifs with h
  · rw [h]
    rfl
  · rfl

theorem Same.filter (h : w.filter.Same rows rows') (p : Row → Bool) :
    w.Same (rows.filter p) (rows'.filter p) := by
  intro hw
  have hfilter : w.filter = ⟨w.lower, none⟩ := if_pos hw
  rcases h (by rw [nonempty_filter, hw]) with rfl | ⟨_, hm, rfl⟩ | ⟨hrows, hrows'⟩
  · exact .inl rfl
  · obtain ⟨_, hb, -⟩ := coveredBy_iff.mp hm
    rw [hfilter] at hb
    cases hb
  · rw [hfilter] at hrows hrows'
    refine .inr (.inr ⟨?_, ?_⟩)
    · exact Nat.le_trans (length_filter_le _ _) hrows
    · exact Nat.le_trans (length_filter_le _ _) hrows'

/-- A window that is not empty and covered by the first `m` rows needs one of them. -/
theorem pos_of_coveredBy (h : w.coveredBy m = true) (hw : w.nonempty = true) : 0 < m := by
  obtain ⟨_, hb, hbm⟩ := coveredBy_iff.mp h
  simp only [nonempty, hb, decide_eq_true_eq] at hw
  omega

theorem Same.accumulate (h : w.Same rows rows') (onEmpty : Option Row) :
    w.Same (if rows.isEmpty then onEmpty.toList else rows)
      (if rows'.isEmpty then onEmpty.toList else rows') := by
  intro hw
  cases rows with
  | nil =>
    rcases h hw with rfl | ⟨_, hm, rfl⟩ | ⟨-, hrows'⟩
    · exact .inl rfl
    · exact .inl (by rw [take_nil])
    · cases rows' with
      | nil => exact .inl rfl
      | cons =>
        refine .inr (.inr ⟨?_, hrows'⟩)
        have hpos : 1 ≤ w.lower := Nat.le_trans (Nat.le_add_left _ _) hrows'
        exact Nat.le_trans Option.length_toList_le hpos
  | cons =>
    rcases h hw with rfl | ⟨m, hm, rfl⟩ | ⟨hrows, hrows'⟩
    · exact .inl rfl
    · obtain ⟨k, rfl⟩ : ∃ k, m = k + 1 := ⟨m - 1, by have := pos_of_coveredBy hm hw; omega⟩
      exact .inr (.inl ⟨k + 1, hm, rfl⟩)
    · refine .inr (.inr ⟨hrows, ?_⟩)
      have hpos : 1 ≤ w.lower := Nat.le_trans (Nat.le_add_left _ _) hrows
      cases rows' with
      | nil => exact Nat.le_trans Option.length_toList_le hpos
      | cons => exact hrows'

theorem take_flatMap (hf : ∀ row, f row ≠ []) (rows : List Row) (m : Nat) :
    ∃ m', m ≤ m' ∧ (rows.take m).flatMap f = (rows.flatMap f).take m' := by
  induction rows generalizing m with
  | nil => exact ⟨m, Nat.le_refl _, by simp⟩
  | cons row _ ih =>
    cases m with
    | zero => exact ⟨0, Nat.le_refl _, by simp⟩
    | succ m =>
      obtain ⟨m', hm', heq⟩ := ih m
      have hpos : 0 < (f row).length := length_pos_iff.mpr (hf row)
      refine ⟨(f row).length + m', by omega, ?_⟩
      rw [take_succ_cons, flatMap_cons, flatMap_cons, heq, take_length_add_append]

/-- Every row gives at least one row. -/
theorem same_take_flatMap (hf : ∀ row, f row ≠ []) (rows : List Row) (hm : w.coveredBy m = true) :
    w.Same (rows.flatMap f) ((rows.take m).flatMap f) := by
  intro _
  obtain ⟨m', hm', heq⟩ := take_flatMap hf rows m
  obtain ⟨b, hb, hbm⟩ := coveredBy_iff.mp hm
  exact .inr (.inl ⟨m', coveredBy_iff.mpr ⟨b, hb, Nat.le_trans hbm hm'⟩, heq⟩)

/-- Nothing above drops a row. -/
theorem Same.eq_of_all (h : all.Same rows rows') : rows' = rows := by
  rcases h rfl with heq | ⟨_, hm, -⟩ | ⟨hrows, hrows'⟩
  · exact heq
  · cases hm
  · rw [length_eq_zero_iff.mp (Nat.le_zero.mp hrows), length_eq_zero_iff.mp (Nat.le_zero.mp hrows')]

theorem same_of_empty (hw : w.nonempty = false) (rows rows' : List Row) : w.Same rows rows' := by
  intro h
  rw [hw] at h
  cases h

/-- SKIP and LIMIT clauses give the same output on such rows. -/
theorem Same.limitRows {skipNum limitNum : Option SkipLimit} {out' : List Row}
    (h : (w.clause skipNum limitNum).Same rows rows')
    (hout' : LogicalOperator.limitRows skipNum limitNum rows' = some out') :
    ∃ out, LogicalOperator.limitRows skipNum limitNum rows = some out ∧ w.Same out out' := by
  match skipNum, limitNum with
  | some .other, _ | none, some .other | some (.literal _), some .other => cases hout'
  | none, none =>
    cases hout'
    exact ⟨rows, rfl, h⟩
  | some (.literal s), none =>
    cases hout'
    exact ⟨rows.drop s.toNat, rfl, h.drop⟩
  | none, some (.literal l) =>
    cases hout'
    exact ⟨rows.take l.toNat, rfl, h.take⟩
  | some (.literal s), some (.literal l) =>
    cases hout'
    exact ⟨(rows.drop s.toNat).take l.toNat, rfl, h.drop.take⟩

/-- The number pushed into an operator is enough: nothing is pushed, the operator does not
stop, nothing is output, or the window ends in time. -/
def servedBy (w : Window) (skipNumber limitNumber number : UInt64) (dropsRows : Bool) : Bool :=
  (limitNumber = invalidLimit && skipNumber = 0) || number = invalidLimit || !w.nonempty ||
    !dropsRows && w.coveredBy number.toNat

/-- An operator that stops at a number that is enough, below operators that produce the rows
`f row` for a row. -/
theorem same_of_stops {skipNumber limitNumber number : UInt64} {dropsRows : Bool}
    (h : w.servedBy skipNumber limitNumber number dropsRows = true)
    (hpushed : ¬ (limitNumber = invalidLimit ∧ skipNumber = 0))
    (hf : dropsRows = false → ∀ row, f row ≠ []) {out : List Row}
    (hstops : LogicalOperator.Stops number rows out) :
    w.Same (rows.flatMap f) (out.flatMap f) := by
  simp only [servedBy, Bool.or_eq_true, Bool.and_eq_true, decide_eq_true_eq, Bool.not_eq_true'] at h
  unfold LogicalOperator.Stops at hstops
  rcases h with ((h | h) | h) | ⟨hdrops, hcovered⟩
  · exact absurd h hpushed
  · rw [if_pos h] at hstops
    rw [hstops]
    exact same_refl w _
  · exact same_of_empty h _ _
  · split at hstops
    · rw [hstops]
      exact same_refl w _
    · obtain ⟨_, hm, rfl⟩ := hstops
      obtain ⟨b, hb, hbm⟩ := coveredBy_iff.mp hcovered
      exact same_take_flatMap (hf hdrops) rows (coveredBy_iff.mpr ⟨b, hb, Nat.le_trans hbm hm⟩)

end Window

theorem JoinKind.rows_ne_nil {Row : Type} {kind : JoinKind Row} (h : kind.isInner = false)
    (built : List Row) (row : Row) : kind.rows built row ≠ [] := by
  cases kind with
  | inner => cases h
  | left =>
    simp only [JoinKind.rows]
    split_ifs with hmatching
    · exact cons_ne_nil _ _
    · intro hnil
      rw [hnil] at hmatching
      exact hmatching rfl
  | mark => exact cons_ne_nil _ _

/-! ## Shapes of plans -/

/-- What the optimizer sees of a plan, with the operators that keep the number of rows
not told apart. -/
inductive Shape where
  | limit (skipNum limitNum : Option SkipLimit) (child : Shape)
  | keep (child : Shape)
  | filter (child : Shape)
  | tableFunctionCall (supportsPushDown : Bool)
  | distinct
  /-- a recursive extend below one or two joins, one of which may drop rows -/
  | extend (dropsRows : Bool)
  | unionAll (n : Nat) (children : Fin n → Shape)
  | other

def LogicalOperator.shape {Row : Type} : LogicalOperator Row → Shape
  | .limit skipNum limitNum child => .limit skipNum limitNum child.shape
  | .multiplicityReducer child => .keep child.shape
  | .explain child => .keep child.shape
  | .accumulate _ child => .keep child.shape
  | .filter _ child => .filter child.shape
  | .projection _ child => .keep child.shape
  | .tableFunctionCall supportsPushDown _ _ => .tableFunctionCall supportsPushDown
  | .distinct _ _ _ _ => .distinct
  | .hashJoin kind (.pathPropertyProbe _ (.recursiveExtend _ _)) _ => .extend kind.isInner
  | .hashJoin kind (.hashJoin kind' (.pathPropertyProbe _ (.recursiveExtend _ _)) _) _ =>
    .extend (kind.isInner || kind'.isInner)
  | .unionAll n children => .unionAll n fun i => (children i).shape
  | _ => .other

namespace Shape

def number (expression : Option SkipLimit) (default : UInt64) : UInt64 :=
  match expression with
  | some (.literal number) => number
  | _ => default

/-- The numbers that reach the operators of the plan are enough for the window of rows that
is needed from each of them. -/
def enough (w : Window) (skipNumber limitNumber : UInt64) : Shape → Bool
  | .limit skipNum limitNum child =>
    -- a number that is not a literal is refused before anything is produced
    skipNum = some .other || limitNum = some .other ||
      child.enough (w.clause skipNum limitNum) (number skipNum skipNumber)
        (number limitNum limitNumber)
  | .keep child => child.enough w skipNumber limitNumber
  | .filter child => child.enough w.filter skipNumber limitNumber
  | .tableFunctionCall supportsPushDown =>
    !supportsPushDown || w.servedBy skipNumber limitNumber (skipNumber + limitNumber) false
  | .distinct =>
    w.servedBy skipNumber limitNumber (LogicalOperator.distinctLimit skipNumber limitNumber) false
  | .extend dropsRows =>
    w.servedBy skipNumber limitNumber (skipNumber + limitNumber) dropsRows
  | .unionAll _ children =>
    !w.nonempty || decide (∀ i, (children i).enough .all 0 invalidLimit = true)
  | .other => true

end Shape

end Lbug.Optimizer
