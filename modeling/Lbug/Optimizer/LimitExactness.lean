/-
  Optimizer/LimitExactness.lean --- plans that show where pushing numbers down loses rows.

  For a shape that is not `enough` a plan of that shape is built over rows that carry a flag:
  filters and inner joins drop the rows whose flag is not set.  `Differs` says in which way
  the rows of the plan and of its rewrite differ, from the operator that stops up to the
  root: fewer rows, or so few that nothing is output.  Up to the first filter above it the
  operator's rows are only counted by their flag.
-/
import Mathlib.Data.List.Nodup
import Lbug.Optimizer.LimitSoundness

namespace Lbug.Optimizer

open List Bool

/-! ## Rows with a flag -/

section

variable (rows : List (Nat × Bool))

/-- The number of rows that filters keep. -/
def kept : Nat := rows.countP (·.2)

theorem kept_le_length : kept rows ≤ rows.length := countP_le_length

theorem kept_append (rows rows' : List (Nat × Bool)) :
    kept (rows ++ rows') = kept rows + kept rows' := countP_append

theorem length_filter_kept : (rows.filter (·.2)).length = kept rows := countP_eq_length_filter.symm

/-- Skipping `s` rows loses at most `s` of those that a filter keeps. -/
theorem kept_le_drop (s : Nat) : kept rows ≤ s + kept (rows.drop s) := by
  have hsplit : kept rows = kept (rows.take s) + kept (rows.drop s) := by
    rw [← kept_append, take_append_drop]
  have htake : kept (rows.take s) ≤ s := Nat.le_trans (kept_le_length _) (length_take_le _ _)
  omega

theorem kept_take_le (n : Nat) : kept (rows.take n) ≤ kept rows := (take_sublist n rows).countP_le

end

/-- Rows `n`, `n + 1`, ... with the same flag. -/
def flagged (flag : Bool) (n k : Nat) : List (Nat × Bool) := (List.range' n k).map (·, flag)

@[simp] theorem length_flagged (flag : Bool) (n k : Nat) : (flagged flag n k).length = k := by
  simp [flagged]

variable {n : Nat} {k : Nat}

theorem mem_flagged {flag : Bool} {row : Nat × Bool} :
    row ∈ flagged flag n k ↔ n ≤ row.1 ∧ row.1 < n + k ∧ row.2 = flag := by
  obtain ⟨i, _⟩ := row
  simp only [flagged, mem_map, mem_range'_1, Prod.mk.injEq]
  constructor
  · rintro ⟨j, ⟨hlo, hhi⟩, rfl, rfl⟩
    exact ⟨hlo, hhi, rfl⟩
  · rintro ⟨hlo, hhi, rfl⟩
    exact ⟨i, ⟨hlo, hhi⟩, rfl, rfl⟩

theorem nodup_flagged (flag : Bool) (n k : Nat) : (flagged flag n k).Nodup := by
  refine List.Nodup.map (fun i j h => ?_) nodup_range'
  exact congrArg Prod.fst h

theorem filter_flagged_true (n k : Nat) : (flagged true n k).filter (·.2) = flagged true n k :=
  filter_eq_self.mpr fun _ hrow => (mem_flagged.mp hrow).2.2

theorem filter_flagged_false (n k : Nat) : (flagged false n k).filter (·.2) = [] := by
  refine filter_eq_nil_iff.mpr fun row hrow => ?_
  rw [(mem_flagged.mp hrow).2.2]
  exact false_ne_true

theorem kept_flagged_true (n k : Nat) : kept (flagged true n k) = k := by
  rw [← length_filter_kept, filter_flagged_true, length_flagged]

theorem kept_flagged_false (n k : Nat) : kept (flagged false n k) = 0 := by
  rw [← length_filter_kept, filter_flagged_false, length_nil]

/-! ## Rows that differ -/

/-- The rows of a plan and of its rewrite below the window `w`; `filtered` is the lower bound
of the window above the nearest filter. -/
inductive Differs (w : Window) (rows rows' : List (Nat × Bool)) : Option Nat → Prop
  /-- without filters above, fewer rows in the window -/
  | fewer (hkept : ∀ row ∈ rows, row.2 = true) (hlower : w.lower < rows.length)
      (hupper : ∀ b, w.upper = some b → rows.length ≤ b) (hrows' : rows'.length < rows.length) :
      Differs w rows rows' none
  /-- nothing is output any more -/
  | nothing {filtered : Option Nat} (hkept : ∀ row ∈ rows, row.2 = true)
      (hlower : w.lower < rows.length) (hrows' : rows'.length ≤ w.lower) :
      Differs w rows rows' filtered
  /-- nothing is output any more after the filter above -/
  | dropped {a : Nat} (hlower : w.lower < kept rows)
      (hupper : ∀ b, w.upper = some b → rows.length ≤ b)
      (hrows' : kept (rows'.drop (w.lower - a)) ≤ a) : Differs w rows rows' (some a)

variable {skipNum limitNum : Option SkipLimit}

namespace Differs

variable {w : Window} {rows rows' : List (Nat × Bool)} {filtered : Option Nat} {l : Nat}

/-- Two results that differ in the window of all rows are different. -/
theorem ne (h : Differs .all rows rows' none) : rows' ≠ rows := by
  rintro rfl
  cases h with
  | fewer _ _ _ hrows' => exact Nat.lt_irrefl _ hrows'
  | nothing _ hlower hrows' => exact Nat.not_lt.mpr hrows' hlower

/-- A difference behind the skipped rows is one after them. -/
theorem drop {s : Nat} (hfiltered : ∀ a, filtered = some a → a ≤ w.lower)
    (h : Differs (w.skip s) rows rows' filtered) :
    Differs w (rows.drop s) (rows'.drop s) filtered := by
  have hmem : ∀ row ∈ rows.drop s, row ∈ rows := fun row => mem_of_mem_drop
  have hub : ∀ {k : Nat}, (∀ b, (w.skip s).upper = some b → k ≤ b) →
      ∀ b, w.upper = some b → k - s ≤ b := by
    intro k hk b hb
    have := hk (s + b) (by simp [Window.skip, hb])
    omega
  cases h with
  | fewer hkept hlower hupper =>
    have hlower : s + w.lower < rows.length := hlower
    refine .fewer (fun row hrow => hkept row (hmem row hrow)) ?_ ?_ ?_
    · rw [length_drop]
      omega
    · rw [length_drop]
      exact hub hupper
    · rw [length_drop, length_drop]
      omega
  | nothing hkept hlower hrows' =>
    have hlower : s + w.lower < rows.length := hlower
    have hrows' : rows'.length ≤ s + w.lower := hrows'
    refine .nothing (fun row hrow => hkept row (hmem row hrow)) ?_ ?_
    · rw [length_drop]
      omega
    · rw [length_drop]
      omega
  | @dropped a hlower hupper =>
    have ha : a ≤ w.lower := hfiltered a rfl
    have hlower : s + w.lower < kept rows := hlower
    refine .dropped ?_ ?_ ?_
    · have := kept_le_drop rows s
      omega
    · rw [length_drop]
      exact hub hupper
    · rw [drop_drop]
      have heq : s + (w.lower - a) = (w.skip s).lower - a := by
        show s + (w.lower - a) = s + w.lower - a
        omega
      rwa [heq]

theorem limit_upper (h : ∀ b, (w.limit l).upper = some b → k ≤ b) :
    k ≤ l ∧ ∀ b, w.upper = some b → k ≤ b := by
  obtain ⟨_, upper⟩ := w
  cases upper with
  | none => exact ⟨h l rfl, fun b hb => by cases hb⟩
  | some b' =>
    have hmin : k ≤ min b' l := h _ rfl
    refine ⟨by omega, fun b hb => ?_⟩
    cases hb
    omega

theorem lower_lt_of_limit (h : (w.limit l).nonempty = true) : w.lower < l := by
  obtain ⟨lower, upper⟩ := w
  cases upper with
  | none => exact of_decide_eq_true h
  | some b =>
    have hmin : lower < min b l := of_decide_eq_true h
    exact Nat.lt_of_lt_of_le hmin (Nat.min_le_right b l)

/-- A difference within the limit is one of the rows up to it. -/
theorem take (hw : (w.limit l).nonempty = true) (h : Differs (w.limit l) rows rows' filtered) :
    Differs w (rows.take l) (rows'.take l) filtered := by
  have hl : w.lower < l := lower_lt_of_limit hw
  cases h with
  | fewer hkept hlower hupper hrows' =>
    obtain ⟨hle, hupper⟩ := limit_upper hupper
    rw [take_of_length_le hle]
    refine .fewer hkept hlower hupper ?_
    exact Nat.lt_of_le_of_lt (length_take_le' _ _) hrows'
  | nothing hkept hlower hrows' =>
    have hlower : w.lower < rows.length := hlower
    refine .nothing (fun row hrow => hkept row (mem_of_mem_take hrow)) ?_ ?_
    · rw [length_take]
      omega
    · exact Nat.le_trans (length_take_le' _ _) hrows'
  | dropped hlower hupper hrows' =>
    obtain ⟨hle, hupper⟩ := limit_upper hupper
    rw [take_of_length_le hle]
    refine .dropped hlower hupper ?_
    rw [drop_take]
    exact Nat.le_trans (kept_take_le _ _) hrows'

/-- A LIMIT keeps a difference that lies in its window. -/
theorem limitRows {out out' : List (Nat × Bool)} (hw : (w.clause skipNum limitNum).nonempty = true)
    (hfiltered : ∀ a, filtered = some a → a ≤ w.lower)
    (h : Differs (w.clause skipNum limitNum) rows rows' filtered)
    (hout : LogicalOperator.limitRows skipNum limitNum rows = some out)
    (hout' : LogicalOperator.limitRows skipNum limitNum rows' = some out') :
    Differs w out out' filtered := by
  match skipNum, limitNum with
  | some .other, _ | none, some .other | some (.literal _), some .other => cases hout
  | none, none =>
    cases hout
    cases hout'
    exact h
  | some (.literal s), none =>
    cases hout
    cases hout'
    exact h.drop hfiltered
  | none, some (.literal l) =>
    cases hout
    cases hout'
    exact h.take hw
  | some (.literal s), some (.literal l) =>
    cases hout
    cases hout'
    have hlimit : (w.limit l.toNat).nonempty = true := by
      rwa [← Window.nonempty_skip]
    exact (h.drop (w := w.limit l.toNat) hfiltered).take hlimit

/-- A filter keeps enough of the plan's rows and too few of the rewrite's. -/
theorem filter (hw : w.nonempty = true) (h : Differs w.filter rows rows' (some w.lower)) :
    Differs w (rows.filter (·.2)) (rows'.filter (·.2)) filtered := by
  have hfilter : w.filter = ⟨w.lower, none⟩ := if_pos hw
  rw [hfilter] at h
  have hkept : ∀ row ∈ rows.filter (·.2), row.2 = true := fun row hrow => of_mem_filter hrow
  cases h with
  | nothing hall _ hrows' =>
    refine .nothing hkept ?_ ?_
    · rwa [filter_eq_self.mpr hall]
    · exact Nat.le_trans (length_filter_le _ _) hrows'
  | dropped _ _ hrows' =>
    refine .nothing hkept ?_ ?_
    · rwa [length_filter_kept]
    · rw [length_filter_kept]
      simpa using hrows'

end Differs

/-! ## Contents for an operator that stops -/

variable {w : Window} {dropsRows : Bool}

/-- An operator below filters that stops too early. -/
theorem exists_dropped {a : Nat} (hw : w.nonempty = true) (ha : a ≤ w.lower)
    (hn : w.coveredBy n = false) :
    ∃ rows : List (Nat × Bool), rows.Nodup ∧
      ∀ rows', rows'.Perm rows → Differs w rows' (rows.take n) (some a) := by
  -- the rows that are skipped, rows that are dropped, and as many as are needed
  obtain ⟨skipped, hskipped⟩ : ∃ skipped, w.lower = skipped + a := ⟨w.lower - a, by omega⟩
  let head := flagged true 0 skipped
  let gap := flagged false 0 (n - w.lower)
  let tail := flagged true skipped (a + 1)
  have hlength : (head ++ (gap ++ tail)).length = skipped + ((n - w.lower) + (a + 1)) := by
    simp [head, gap, tail]
  refine ⟨head ++ (gap ++ tail), ?_, fun rows' hperm => .dropped ?_ ?_ ?_⟩
  · rw [nodup_append', nodup_append']
    refine ⟨nodup_flagged _ _ _, ⟨nodup_flagged _ _ _, nodup_flagged _ _ _, ?_⟩, ?_⟩
    · intro row hgap htail
      have hfalse := (mem_flagged.mp hgap).2.2
      rw [(mem_flagged.mp htail).2.2] at hfalse
      cases hfalse
    intro row hhead hrest
    obtain ⟨-, hlt, htrue⟩ := mem_flagged.mp hhead
    rcases mem_append.mp hrest with hgap | htail
    · rw [(mem_flagged.mp hgap).2.2] at htrue
      cases htrue
    · have := (mem_flagged.mp htail).1
      omega
  · have hkept : kept rows' = kept (head ++ (gap ++ tail)) := hperm.countP_eq _
    rw [hkept, kept_append, kept_append, kept_flagged_true, kept_flagged_true]
    omega
  · intro b hb
    rw [hperm.length_eq]
    simp only [Window.nonempty, hb, decide_eq_true_eq] at hw
    simp only [Window.coveredBy, hb, decide_eq_false_iff_not] at hn
    omega
  · have hdrop : (head ++ (gap ++ tail)).drop skipped = gap ++ tail := by
      rw [drop_left' (length_flagged true 0 skipped)]
    have hsub : w.lower - a = skipped := by omega
    rw [hsub, drop_take, hdrop, take_append, kept_append]
    have hgap : kept (gap.take (n - skipped)) ≤ 0 :=
      Nat.le_trans (kept_take_le _ _) (Nat.le_of_eq (kept_flagged_false _ _))
    have htail : kept (tail.take (n - skipped - gap.length)) ≤ n - skipped - gap.length :=
      Nat.le_trans (kept_le_length _) (length_take_le _ _)
    have hgapLength : gap.length = n - w.lower := length_flagged _ _ _
    omega

/-- An operator without filters above that stops too early. -/
theorem exists_fewer (hw : w.nonempty = true) (hn : w.coveredBy n = false) :
    ∃ rows : List (Nat × Bool), rows.Nodup ∧
      ∀ rows', rows'.Perm rows → Differs w rows' (rows.take n) none := by
  refine ⟨flagged true 0 (max n w.lower + 1), nodup_flagged _ _ _, fun rows' hperm => ?_⟩
  refine .fewer (fun row hrow => ?_) ?_ ?_ ?_
  · exact (mem_flagged.mp (hperm.mem_iff.mp hrow)).2.2
  · rw [hperm.length_eq, length_flagged]
    omega
  · intro b hb
    rw [hperm.length_eq, length_flagged]
    simp only [Window.nonempty, hb, decide_eq_true_eq] at hw
    simp only [Window.coveredBy, hb, decide_eq_false_iff_not] at hn
    omega
  · rw [hperm.length_eq, length_take, length_flagged]
    omega

/-- Rows of which the first `n` do not do for the window. -/
theorem exists_differs {filtered : Option Nat} (hw : w.nonempty = true)
    (hfiltered : ∀ a, filtered = some a → a ≤ w.lower) (hn : w.coveredBy n = false) :
    ∃ rows : List (Nat × Bool), rows.Nodup ∧
      ∀ rows', rows'.Perm rows → Differs w rows' (rows.take n) filtered := by
  cases filtered with
  | none => exact exists_fewer hw hn
  | some a => exact exists_dropped hw (hfiltered a rfl) hn

/-! ## Plans of a shape -/

/-- Some plan of the shape, visited with these numbers, loses rows that are needed. -/
def Shape.Loses (shape : Shape) (w : Window) (filtered : Option Nat)
    (skipNumber limitNumber : UInt64) : Prop :=
  ∃ plan plan' : LogicalOperator (Nat × Bool), ∃ rows', plan.shape = shape ∧ plan.Fresh ∧
      plan.visitOperator skipNumber limitNumber = some plan' ∧ plan'.Produces rows' ∧
        ∀ rows, plan.Produces rows → Differs w rows rows' filtered

theorem Window.servedBy_eq_false {skipNumber limitNumber number : UInt64}
    (h : w.servedBy skipNumber limitNumber number dropsRows = false) :
    ¬ (limitNumber = invalidLimit ∧ skipNumber = 0) ∧ number ≠ invalidLimit ∧
      w.nonempty = true ∧ (dropsRows = false → w.coveredBy number.toNat = false) := by
  simp only [servedBy, or_eq_false_iff, and_eq_false_imp, decide_eq_true_eq,
    decide_eq_false_iff_not, not_eq_false', not_eq_true'] at h
  obtain ⟨⟨⟨hpushed, hnumber⟩, hw⟩, hcovered⟩ := h
  exact ⟨fun hboth => hpushed hboth.1 hboth.2, hnumber, hw, hcovered⟩

namespace Shape

open LogicalOperator

variable {w : Window} {filtered : Option Nat} {skipNumber limitNumber : UInt64} {shape : Shape}
  {Row : Type}

theorem stops_take {number : UInt64} (hnumber : number ≠ invalidLimit) (rows : List Row) :
    Stops number rows (rows.take number.toNat) := by
  rw [Stops, if_neg hnumber]
  exact ⟨number.toNat, Nat.le_refl _, rfl⟩

/-- A source without a limit does not stop early. -/
theorem eq_of_stops_invalidLimit {rows out : List Row} (h : Stops invalidLimit rows out) :
    out = rows := by
  rwa [Stops] at h

/-- Without numbers the groups are all rows, in some order. -/
theorem perm_of_produces_distinct {content rows : List Row} (hnodup : content.Nodup)
    (h : (LogicalOperator.distinct id (.other (· = content)) invalidLimit invalidLimit).Produces
      rows) : rows.Perm content := by
  obtain ⟨_, _, rfl, hgroups, hmem, hstops⟩ := h
  have hinvalid : distinctLimit invalidLimit invalidLimit = invalidLimit := by decide
  rw [eq_of_stops_invalidLimit hstops]
  refine (perm_ext_iff_of_nodup hgroups hnodup).mpr fun row => ?_
  rw [hmem, map_id]

theorem produces_distinct_take {content : List Row} (hnodup : content.Nodup)
    {skipNum limitNum : UInt64} (hnumber : distinctLimit skipNum limitNum ≠ invalidLimit) :
    (LogicalOperator.distinct id (.other (· = content)) skipNum limitNum).Produces
      (content.take (distinctLimit skipNum limitNum).toNat) :=
  ⟨content, content, rfl, hnodup, fun row => by rw [map_id], stops_take hnumber content⟩

/-- A table function that stops too early. -/
theorem loses_tableFunctionCall (hfiltered : ∀ a, filtered = some a → a ≤ w.lower)
    (h : w.servedBy skipNumber limitNumber (skipNumber + limitNumber) false = false) :
    (tableFunctionCall true).Loses w filtered skipNumber limitNumber := by
  obtain ⟨hpushed, hnumber, hw, hcovered⟩ := Window.servedBy_eq_false h
  obtain ⟨content, -, hdiffers⟩ := exists_differs hw hfiltered (hcovered rfl)
  refine ⟨.tableFunctionCall true (· = content) invalidLimit,
    .tableFunctionCall true (· = content) (skipNumber + limitNumber), _, rfl, rfl, ?_,
    ⟨content, rfl, stops_take hnumber content⟩, ?_⟩
  · simp [visitOperator, if_neg hpushed]
  · rintro rows ⟨content', rfl, hstops⟩
    rw [eq_of_stops_invalidLimit hstops]
    exact hdiffers _ (List.Perm.refl _)

theorem loses_distinct (hfiltered : ∀ a, filtered = some a → a ≤ w.lower)
    (h : w.servedBy skipNumber limitNumber (distinctLimit skipNumber limitNumber) false = false) :
    distinct.Loses w filtered skipNumber limitNumber := by
  obtain ⟨hpushed, hnumber, hw, hcovered⟩ := Window.servedBy_eq_false h
  obtain ⟨content, hnodup, hdiffers⟩ := exists_differs hw hfiltered (hcovered rfl)
  refine ⟨.distinct id (.other (· = content)) invalidLimit invalidLimit,
    .distinct id (.other (· = content)) skipNumber limitNumber, _, rfl, ⟨rfl, rfl, trivial⟩, ?_,
    produces_distinct_take hnodup hnumber, fun rows hrows => ?_⟩
  · simp only [visitOperator, if_neg hpushed]
  · exact hdiffers rows (perm_of_produces_distinct hnodup hrows)

/-- The joins above the recursive extend keep every row, or the rows with a flag. -/
def extendPlan (dropsRows : Bool) (content : List (Nat × Bool)) (number : UInt64) :
    LogicalOperator (Nat × Bool) :=
  .hashJoin
    (if dropsRows then .inner fun row _ => if row.2 then [row] else [] else .mark fun row _ => row)
    (.pathPropertyProbe id (.recursiveExtend (· = content) number)) (.other (· = []))

/-- The limit passes a hash join and the probe of path properties. -/
theorem visitOperator_extendPlan (hpushed : ¬ (limitNumber = invalidLimit ∧ skipNumber = 0))
    (dropsRows : Bool) (content : List (Nat × Bool)) :
    (extendPlan dropsRows content invalidLimit).visitOperator skipNumber limitNumber =
      some (extendPlan dropsRows content (skipNumber + limitNumber)) := by
  simp only [extendPlan, visitOperator, if_neg hpushed, setExtendLimit, Option.map_some]

theorem flatMap_flag (rows : List (Nat × Bool)) :
    rows.flatMap (fun row => if row.2 then [row] else []) = rows.filter (·.2) := by
  induction rows with
  | nil => rfl
  | cons _ _ ih =>
    rw [flatMap_cons, ih, filter_cons]
    split <;> rfl

/-- The plan hands on the rows of the stopped extension, or the flagged ones of them. -/
theorem produces_extendPlan (dropsRows : Bool) (content out : List (Nat × Bool)) (number : UInt64) :
    (extendPlan dropsRows content number).Produces out ↔ ∃ rows, Stops number content rows ∧
      out = if dropsRows then rows.filter (·.2) else rows := by
  have hjoin (rows : List (Nat × Bool)) : rows.flatMap (JoinKind.rows
      (if dropsRows then .inner fun row _ => if row.2 then [row] else []
        else .mark fun row _ => row)
      []) = if dropsRows then rows.filter (·.2) else rows := by
    cases dropsRows with
    | false => exact flatMap_singleton' rows
    | true => exact flatMap_flag rows
  constructor
  · rintro ⟨_, _, ⟨rows, ⟨_, rfl, hstops⟩, rfl⟩, rfl, rfl⟩
    refine ⟨rows, hstops, ?_⟩
    rw [map_id, hjoin]
  · rintro ⟨rows, hstops, hout⟩
    refine ⟨_, [], ⟨rows, ⟨content, rfl, hstops⟩, rfl⟩, rfl, ?_⟩
    rw [hout, map_id, hjoin]

/-- The plan over `content` loses rows if the joined rows differ. -/
theorem loses_extendPlan (content : List (Nat × Bool))
    (hpushed : ¬ (limitNumber = invalidLimit ∧ skipNumber = 0))
    (hnumber : skipNumber + limitNumber ≠ invalidLimit)
    (hdiffers : Differs w (if dropsRows then content.filter (·.2) else content)
      (if dropsRows then (content.take (skipNumber + limitNumber).toNat).filter (·.2)
        else content.take (skipNumber + limitNumber).toNat) filtered) :
    (extend dropsRows).Loses w filtered skipNumber limitNumber := by
  refine ⟨extendPlan dropsRows content invalidLimit, _, _, by cases dropsRows <;> rfl,
    ⟨rfl, trivial⟩, visitOperator_extendPlan hpushed _ _,
    (produces_extendPlan _ _ _ _).mpr ⟨_, stops_take hnumber content, rfl⟩, ?_⟩
  intro out hout
  obtain ⟨_, hstops, rfl⟩ := (produces_extendPlan _ _ _ _).mp hout
  rwa [eq_of_stops_invalidLimit hstops]

theorem loses_extend (hfiltered : ∀ a, filtered = some a → a ≤ w.lower)
    (h : w.servedBy skipNumber limitNumber (skipNumber + limitNumber) dropsRows = false) :
    (extend dropsRows).Loses w filtered skipNumber limitNumber := by
  obtain ⟨hpushed, hnumber, hw, hcovered⟩ := Window.servedBy_eq_false h
  cases dropsRows with
  | false =>
    obtain ⟨content, -, hdiffers⟩ := exists_differs hw hfiltered (hcovered rfl)
    exact loses_extendPlan content hpushed hnumber (hdiffers _ (List.Perm.refl _))
  | true =>
    -- the join drops the rows up to the number
    let number := (skipNumber + limitNumber).toNat
    let content := flagged false 0 number ++ flagged true 0 (w.lower + 1)
    have htake : content.take number = flagged false 0 number :=
      take_left' (length_flagged false 0 number)
    have hcontent : content.filter (·.2) = flagged true 0 (w.lower + 1) := by
      rw [filter_append, filter_flagged_false, filter_flagged_true, nil_append]
    refine loses_extendPlan content hpushed hnumber ?_
    refine .nothing (fun row hrow => of_mem_filter hrow) ?_ ?_
    · rw [if_pos rfl, hcontent, length_flagged]
      exact Nat.lt_succ_self _
    · rw [htake, filter_flagged_false]
      exact Nat.zero_le _

section

variable (hskip : skipNum ≠ some .other) (hlimit : limitNum ≠ some .other)

include hskip hlimit

theorem exists_limitRows (rows : List (Nat × Bool)) :
    ∃ out, limitRows skipNum limitNum rows = some out := by
  match skipNum, limitNum with
  | some .other, _ => exact absurd rfl hskip
  | none, some .other | some (.literal _), some .other => exact absurd rfl hlimit
  | none, none | some (.literal _), none | none, some (.literal _)
  | some (.literal _), some (.literal _) => exact ⟨_, rfl⟩

/-- A LIMIT above does not repair the loss. -/
theorem Loses.limit (hw : (w.clause skipNum limitNum).nonempty = true)
    (hfiltered : ∀ a, filtered = some a → a ≤ w.lower)
    (h : shape.Loses (w.clause skipNum limitNum) filtered (number skipNum skipNumber)
      (number limitNum limitNumber)) :
    (limit skipNum limitNum shape).Loses w filtered skipNumber limitNumber := by
  obtain ⟨plan, plan', rows', rfl, hfresh, hvisit, hrows', hdiffers⟩ := h
  obtain ⟨out', hout'⟩ := exists_limitRows hskip hlimit rows'
  refine ⟨.limit skipNum limitNum plan, .limit skipNum limitNum plan', out', rfl, hfresh, ?_,
    ⟨rows', hrows', hout'⟩, ?_⟩
  · exact Option.map_eq_some_iff.mpr ⟨plan', hvisit, rfl⟩
  · rintro out ⟨rows, hrows, hout⟩
    exact (hdiffers rows hrows).limitRows hw hfiltered hout hout'

end

theorem Loses.keep (h : shape.Loses w filtered skipNumber limitNumber) :
    (keep shape).Loses w filtered skipNumber limitNumber := by
  obtain ⟨plan, plan', rows', rfl, hfresh, hvisit, hrows', hdiffers⟩ := h
  refine ⟨.explain plan, .explain plan', rows', rfl, hfresh, ?_, hrows', hdiffers⟩
  exact Option.map_eq_some_iff.mpr ⟨plan', hvisit, rfl⟩

/-- Above a filter, the window of all rows from the lower end on counts. -/
theorem Loses.filter (hw : w.nonempty = true)
    (h : shape.Loses w.filter (some w.lower) skipNumber limitNumber) :
    (filter shape).Loses w filtered skipNumber limitNumber := by
  obtain ⟨plan, plan', rows', rfl, hfresh, hvisit, hrows', hdiffers⟩ := h
  refine ⟨.filter (·.2) plan, .filter (·.2) plan', rows'.filter (·.2), rfl, hfresh, ?_,
    ⟨rows', hrows', rfl⟩, ?_⟩
  · exact Option.map_eq_some_iff.mpr ⟨plan', hvisit, rfl⟩
  · rintro out ⟨rows, hrows, rfl⟩
    exact (hdiffers rows hrows).filter hw

def unionFree : Shape → Bool
  | .limit _ _ child => child.unionFree
  | .keep child => child.unionFree
  | .filter child => child.unionFree
  | .unionAll _ _ => false
  | _ => true

theorem lower_le_clause (w : Window) (skipNum limitNum : Option SkipLimit) :
    w.lower ≤ (w.clause skipNum limitNum).lower := by
  match skipNum, limitNum with
  | none, none | none, some .other | some .other, none | some .other, some .other
  | none, some (.literal _) | some .other, some (.literal _) => exact Nat.le_refl _
  | some (.literal s), none | some (.literal s), some .other
  | some (.literal s), some (.literal _) => exact Nat.le_add_left _ _

theorem lower_filter (w : Window) : w.filter.lower = w.lower := by
  unfold Window.filter
  split <;> rfl

variable (shape : Shape) (hunion : shape.unionFree = true)

include hunion

/-- A shape whose limits are not enough has a plan that loses rows. -/
theorem loses_of_not_enough (hfiltered : ∀ a, filtered = some a → a ≤ w.lower)
    (h : shape.enough w skipNumber limitNumber = false) :
    shape.Loses w filtered skipNumber limitNumber := by
  induction shape generalizing w filtered skipNumber limitNumber with
  | limit skipNum limitNum child ih =>
    have hw : (w.clause skipNum limitNum).nonempty = true := by
      refine not_eq_false _ ▸ fun hempty => ?_
      simp [enough, enough_of_empty child hempty] at h
    simp only [enough, or_eq_false_iff, decide_eq_false_iff_not] at h
    obtain ⟨⟨hskip, hlimit⟩, h⟩ := h
    refine (ih hunion (fun a ha => ?_) h).limit hskip hlimit hw hfiltered
    exact Nat.le_trans (hfiltered a ha) (lower_le_clause w skipNum limitNum)
  | keep _ ih => exact (ih hunion hfiltered h).keep
  | filter child ih =>
    have hw : w.nonempty = true := by
      refine not_eq_false _ ▸ fun hempty => ?_
      rw [enough_of_empty (.filter child) hempty] at h
      cases h
    refine (ih hunion (fun a ha => ?_) h).filter hw
    cases ha
    exact Nat.le_of_eq (lower_filter w).symm
  | tableFunctionCall =>
    simp only [enough, or_eq_false_iff, not_eq_false'] at h
    obtain ⟨rfl, h⟩ := h
    exact loses_tableFunctionCall hfiltered h
  | distinct => exact loses_distinct hfiltered h
  | extend => exact loses_extend hfiltered h
  | unionAll => cases hunion
  | other => cases h

/-- A plan of the shape whose rewrite produces rows that the plan could not produce. -/
theorem exists_unsound (h : shape.enough .all 0 invalidLimit = false) :
    ∃ plan : LogicalOperator (Nat × Bool), plan.Fresh ∧ plan.shape = shape ∧
      ¬ plan.PushDownSound := by
  have hloses : shape.Loses .all none 0 invalidLimit :=
    loses_of_not_enough shape hunion (fun a ha => by cases ha) h
  obtain ⟨plan, plan', rows', hshape, hfresh, hvisit, hrows', hdiffers⟩ := hloses
  refine ⟨plan, hfresh, hshape, fun hsound => ?_⟩
  exact (hdiffers rows' (hsound plan' rows' hvisit hrows')).ne rfl

end Shape

/-! ## When the rewrite is sound -/

/-- A plan whose shape is enough produces after the rewrite what it could produce before; and
of the shapes without a UNION ALL these are the only ones of which this holds for every plan
and content. -/
theorem limit_push_down_sound_iff (shape : Shape) :
    (shape.enough .all 0 invalidLimit = true → ∀ (Row : Type) (plan : LogicalOperator Row),
      plan.Fresh → plan.shape = shape → plan.PushDownSound) ∧
    (shape.unionFree = true →
      ((∀ (Row : Type) (plan : LogicalOperator Row), plan.Fresh → plan.shape = shape →
        plan.PushDownSound) ↔ shape.enough .all 0 invalidLimit = true)) := by
  have hsound : shape.enough .all 0 invalidLimit = true → ∀ (Row : Type)
      (plan : LogicalOperator Row), plan.Fresh → plan.shape = shape → plan.PushDownSound := by
    rintro henough Row plan hfresh rfl
    exact LogicalOperator.pushDownSound_of_enough hfresh henough
  refine ⟨hsound, fun hunion => ⟨fun hall => ?_, hsound⟩⟩
  refine not_eq_false _ ▸ fun hnot => ?_
  obtain ⟨plan, hfresh, hshape, hunsound⟩ := shape.exists_unsound hunion hnot
  exact hunsound (hall _ plan hfresh hshape)

section Samples

open LogicalOperator Shape

def distinctOf (content : List Nat) : LogicalOperator Nat :=
  .distinct id (.other (· = content)) invalidLimit invalidLimit

/-- `RETURN DISTINCT n SKIP 1 LIMIT 1` -/
def skipLimitPlan : LogicalOperator Nat :=
  .limit (some (.literal 1)) (some (.literal 1)) (.projection (· + 1) (distinctOf [1, 2, 3]))

theorem limit_push_down_sound_iff_sample :
    skipLimitPlan.Fresh ∧ skipLimitPlan.shape.enough .all 0 invalidLimit = true ∧
      skipLimitPlan.PushDownSound := by
  have hfresh : skipLimitPlan.Fresh := ⟨rfl, rfl, trivial⟩
  have henough : skipLimitPlan.shape.enough .all 0 invalidLimit = true := by decide
  exact ⟨hfresh, henough,
    (limit_push_down_sound_iff skipLimitPlan.shape).1 henough Nat skipLimitPlan hfresh rfl⟩

/-- `RETURN DISTINCT n SKIP 1` -/
def skipPlan : LogicalOperator Nat := .limit (some (.literal 1)) none (distinctOf [1, 2])

/-- `WITH DISTINCT n WHERE n = 2 RETURN n LIMIT 1` -/
def filterPlan : LogicalOperator Nat :=
  .limit none (some (.literal 1)) (.filter (· = 2) (distinctOf [1, 2]))

/-- `WITH DISTINCT n SKIP 1 RETURN n SKIP 1 LIMIT 1` -/
def nestedPlan : LogicalOperator Nat :=
  .limit (some (.literal 1)) (some (.literal 1))
    (.limit (some (.literal 1)) none (distinctOf [1, 2, 3]))

/-- `CALL f() RETURN n SKIP 1` -/
def skipCallPlan : LogicalOperator Nat :=
  .limit (some (.literal 1)) none (.tableFunctionCall true (· = [1, 2]) invalidLimit)

theorem skipPlan_unsound : ¬ skipPlan.PushDownSound := by
  intro hsound
  have hstopped := produces_distinct_take (show [1, 2].Nodup by decide)
    (show distinctLimit 1 invalidLimit ≠ invalidLimit by decide)
  obtain ⟨rows, hrows, hout⟩ := hsound _ [] rfl ⟨_, hstopped, rfl⟩
  have hlength : rows.length = 2 := (perm_of_produces_distinct (by decide) hrows).length_eq
  have hle : rows.length ≤ 1 := drop_eq_nil_iff.mp (Option.some.inj hout)
  omega

theorem filterPlan_unsound : ¬ filterPlan.PushDownSound := by
  intro hsound
  have hstopped := produces_distinct_take (show [1, 2].Nodup by decide)
    (show distinctLimit 0 1 ≠ invalidLimit by decide)
  obtain ⟨_, ⟨groups, hgroups, rfl⟩, hout⟩ := hsound _ [] rfl ⟨_, ⟨_, hstopped, rfl⟩, rfl⟩
  have hmem : 2 ∈ groups := (perm_of_produces_distinct (by decide) hgroups).mem_iff.mpr (by decide)
  have hempty : (groups.filter (· = 2)).take 1 = [] := Option.some.inj hout
  rcases take_eq_nil_iff.mp hempty with hzero | hnil
  · cases hzero
  · exact filter_eq_nil_iff.mp hnil 2 hmem (by decide)

theorem nestedPlan_unsound : ¬ nestedPlan.PushDownSound := by
  intro hsound
  have hstopped := produces_distinct_take (show [1, 2, 3].Nodup by decide)
    (show distinctLimit 1 1 ≠ invalidLimit by decide)
  obtain ⟨rows, ⟨groups, hgroups, hrows⟩, hout⟩ := hsound _ [] rfl ⟨_, ⟨_, hstopped, rfl⟩, rfl⟩
  have hlength : groups.length = 3 := (perm_of_produces_distinct (by decide) hgroups).length_eq
  have hrows : groups.drop 1 = rows := Option.some.inj hrows
  have hempty : (rows.drop 1).take 1 = [] := Option.some.inj hout
  have hzero : ((rows.drop 1).take 1).length = 0 := by rw [hempty]; rfl
  rw [← hrows, length_take, length_drop, length_drop] at hzero
  omega

theorem skipCallPlan_unsound : ¬ skipCallPlan.PushDownSound := by
  intro hsound
  have hstopped : Stops (1 + invalidLimit) [1, 2] [] := ⟨0, Nat.le_refl _, rfl⟩
  obtain ⟨_, ⟨_, rfl, hrows⟩, hout⟩ := hsound _ [] rfl ⟨_, ⟨_, rfl, hstopped⟩, rfl⟩
  subst hrows
  cases hout

theorem limit_push_down_loses_rows : (skipPlan.Fresh ∧ ¬ skipPlan.PushDownSound) ∧
      (filterPlan.Fresh ∧ ¬ filterPlan.PushDownSound) ∧
      (nestedPlan.Fresh ∧ ¬ nestedPlan.PushDownSound) ∧
      skipCallPlan.Fresh ∧ ¬ skipCallPlan.PushDownSound := by
  refine ⟨⟨?_, skipPlan_unsound⟩, ⟨?_, filterPlan_unsound⟩, ⟨?_, nestedPlan_unsound⟩, ?_,
    skipCallPlan_unsound⟩
  · exact ⟨rfl, rfl, trivial⟩
  · exact ⟨rfl, rfl, trivial⟩
  · exact ⟨rfl, rfl, trivial⟩
  · exact rfl

end Samples

end Lbug.Optimizer
