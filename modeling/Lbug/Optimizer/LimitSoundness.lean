/-
  Optimizer/LimitSoundness.lean --- when pushing SKIP and LIMIT numbers down is sound.

  On a plan whose shape is `enough` the rewritten plan produces what the plan could produce.
  On the other shapes without a UNION ALL some plan and content show the difference.
-/
import Lbug.Optimizer.LimitWindow

namespace Lbug.Optimizer

open List Option

variable {w : Window}

namespace Shape

/-- Nothing has to be pushed below a window that is empty. -/
theorem enough_of_empty (shape : Shape) (hw : w.nonempty = false)
    (skipNumber limitNumber : UInt64) : shape.enough w skipNumber limitNumber = true := by
  induction shape generalizing w skipNumber limitNumber with
  | limit skipNum limitNum _ ih =>
    simp only [enough, Bool.or_eq_true]
    exact .inr (ih (Window.clause_empty hw skipNum limitNum) _ _)
  | keep _ ih => exact ih hw _ _
  | filter _ ih => exact ih (by rw [Window.nonempty_filter, hw]) _ _
  | tableFunctionCall | distinct | extend => simp [enough, Window.servedBy, hw]
  | unionAll => simp [enough, hw]
  | other => rfl

end Shape

namespace LogicalOperator

variable {Row : Type} {skipNumber limitNumber : UInt64} {child child' plan' : LogicalOperator Row}
  {kind : JoinKind Row} {plan : LogicalOperator Row} {number : UInt64}

theorem stops_invalidLimit (rows : List Row) : Stops invalidLimit rows rows := by
  rw [Stops, if_pos rfl]

/-- A source whose limit serves the window stops behind it. -/
theorem Stops.same {rows out : List Row} (hstops : Stops number rows out)
    (hpushed : ¬ (limitNumber = invalidLimit ∧ skipNumber = 0))
    (h : w.servedBy skipNumber limitNumber number false = true) : w.Same rows out := by
  have hsame := Window.same_of_stops h hpushed
    (fun _ row => cons_ne_nil row []) hstops
  rwa [flatMap_singleton', flatMap_singleton'] at hsame

/-- What `plan` and `plan'` produce is the same to the operators above. -/
def Simulated (w : Window) (plan plan' : LogicalOperator Row) : Prop :=
  ∀ out', plan'.Produces out' → ∃ out, plan.Produces out ∧ w.Same out out'

theorem simulated_refl (w : Window) (plan : LogicalOperator Row) : Simulated w plan plan :=
  fun out hout => ⟨out, hout, w.same_refl out⟩

/-- A LIMIT reads its window of the child. -/
theorem Simulated.limit {skipNum limitNum : Option SkipLimit}
    (h : Simulated (w.clause skipNum limitNum) child child') :
    Simulated w (.limit skipNum limitNum child) (.limit skipNum limitNum child') := by
  rintro out' ⟨rows', hrows', hout'⟩
  obtain ⟨rows, hrows, hsame⟩ := h rows' hrows'
  obtain ⟨out, hout, hsame⟩ := hsame.limitRows hout'
  exact ⟨out, ⟨rows, hrows, hout⟩, hsame⟩

/-- An operator whose output is a function of its input. -/
theorem Simulated.map {w' : Window} {f : List Row → List Row} (h : Simulated w' child child')
    (hf : ∀ {rows rows'}, w'.Same rows rows' → w.Same (f rows) (f rows')) {out' : List Row} :
    (∃ rows', child'.Produces rows' ∧ out' = f rows') →
      ∃ out, (∃ rows, child.Produces rows ∧ out = f rows) ∧ w.Same out out' := by
  rintro ⟨rows', hrows', rfl⟩
  obtain ⟨rows, hrows, hsame⟩ := h rows' hrows'
  exact ⟨_, ⟨rows, hrows, rfl⟩, hf hsame⟩

section

variable (hpushed : ¬ (limitNumber = invalidLimit ∧ skipNumber = 0))

include hpushed

theorem simulated_tableFunctionCall
    (h : w.servedBy skipNumber limitNumber (skipNumber + limitNumber) false = true)
    (results : List Row → Prop) :
    Simulated w (.tableFunctionCall true results invalidLimit)
      (.tableFunctionCall true results (skipNumber + limitNumber)) := by
  rintro out' ⟨rows, hrows, hstops⟩
  exact ⟨rows, ⟨rows, hrows, stops_invalidLimit rows⟩, hstops.same hpushed h⟩

theorem simulated_distinct
    (h : w.servedBy skipNumber limitNumber (distinctLimit skipNumber limitNumber) false = true)
    (keys : Row → Row) (child : LogicalOperator Row) :
    Simulated w (.distinct keys child invalidLimit invalidLimit)
      (.distinct keys child skipNumber limitNumber) := by
  rintro out' ⟨rows, groups, hrows, hnodup, hgroups, hstops⟩
  refine ⟨groups, ⟨rows, groups, hrows, hnodup, hgroups, ?_⟩, hstops.same hpushed h⟩
  exact stops_invalidLimit groups

/-- The join with the destination's properties above a recursive extend. -/
theorem simulated_extend
    (h : w.servedBy skipNumber limitNumber (skipNumber + limitNumber) kind.isInner = true)
    (properties : Row → Row) (results : List Row → Prop) (build : LogicalOperator Row) :
    Simulated w (.hashJoin kind (.pathPropertyProbe properties (.recursiveExtend results
        invalidLimit)) build)
      (.hashJoin kind (.pathPropertyProbe properties (.recursiveExtend results
        (skipNumber + limitNumber))) build) := by
  rintro out' ⟨paths', built, ⟨ends, ⟨rows, hrows, hstops⟩, rfl⟩, hbuilt, rfl⟩
  refine ⟨_, ⟨_, built, ⟨rows, ⟨rows, hrows, stops_invalidLimit rows⟩, rfl⟩, hbuilt, rfl⟩, ?_⟩
  rw [flatMap_map, flatMap_map]
  exact Window.same_of_stops h hpushed
    (fun hinner row => JoinKind.rows_ne_nil hinner built (properties row)) hstops

/-- Two joins above a recursive extend. -/
theorem simulated_extend_join {kind' : JoinKind Row}
    (h : w.servedBy skipNumber limitNumber (skipNumber + limitNumber)
      (kind.isInner || kind'.isInner) = true) (properties : Row → Row) (results : List Row → Prop)
    (build build' : LogicalOperator Row) :
    Simulated w (.hashJoin kind (.hashJoin kind' (.pathPropertyProbe properties
        (.recursiveExtend results invalidLimit)) build') build)
      (.hashJoin kind (.hashJoin kind' (.pathPropertyProbe properties
        (.recursiveExtend results (skipNumber + limitNumber))) build') build) := by
  rintro out' ⟨joined, built, ⟨paths', built', ⟨ends, ⟨rows, hrows, hstops⟩, rfl⟩, hbuilt', rfl⟩,
    hbuilt, rfl⟩
  refine ⟨_, ⟨_, built, ⟨_, built', ⟨rows, ⟨rows, hrows, stops_invalidLimit rows⟩, rfl⟩, hbuilt',
    rfl⟩, hbuilt, rfl⟩, ?_⟩
  rw [flatMap_map, flatMap_map, flatMap_assoc, flatMap_assoc]
  refine Window.same_of_stops h hpushed (fun hinner row hnil => ?_) hstops
  rw [Bool.or_eq_false_iff] at hinner
  obtain ⟨row', hrow'⟩ := exists_mem_of_ne_nil _
    (JoinKind.rows_ne_nil hinner.2 built' (properties row))
  exact JoinKind.rows_ne_nil hinner.1 built row' (flatMap_eq_nil_iff.mp hnil row' hrow')

end

theorem simulated_unionAll {n : Nat} {children children' : Fin n → LogicalOperator Row}
    (h : w.nonempty = true → ∀ i, Simulated .all (children i) (children' i))
    (hempty : ∀ i, Simulated ⟨0, some 0⟩ (children i) (children' i)) :
    Simulated w (.unionAll n children) (.unionAll n children') := by
  rintro out' ⟨parts', hparts', hperm⟩
  cases hw : w.nonempty with
  | true =>
    refine ⟨out', ⟨parts', fun i => ?_, hperm⟩, w.same_refl out'⟩
    obtain ⟨_, hrows, hsame⟩ := h hw i (parts' i) (hparts' i)
    rwa [hsame.eq_of_all]
  | false =>
    choose parts hparts _ using fun i => hempty i (parts' i) (hparts' i)
    exact ⟨_, ⟨parts, hparts, List.Perm.refl _⟩, Window.same_of_empty hw _ _⟩

/-- `setExtendLimit` changes a recursive extension below a path probe, or nothing. -/
theorem setExtendLimit_cases (h : setExtendLimit number plan = some plan') :
    plan' = plan ∨ ∃ properties results limitNum,
      plan = .pathPropertyProbe properties (.recursiveExtend results limitNum) ∧
        plan' = .pathPropertyProbe properties (.recursiveExtend results number) := by
  unfold setExtendLimit at h
  split at h
  · cases h
    exact .inr ⟨_, _, _, rfl, rfl⟩
  · cases h
  · cases h
    exact .inl rfl

theorem simulated_hashJoin {probe build : LogicalOperator Row}
    (hfresh : (hashJoin kind probe build).Fresh)
    (h : (hashJoin kind probe build).shape.enough w skipNumber limitNumber = true)
    (hvisit : visitOperator skipNumber limitNumber (.hashJoin kind probe build) = some plan') :
    Simulated w (.hashJoin kind probe build) plan' := by
  simp only [visitOperator] at hvisit
  split at hvisit
  · cases hvisit
    exact simulated_refl w _
  rename_i hpushed
  split at hvisit
  · obtain ⟨_, hprobe', rfl⟩ := map_eq_some_iff.mp hvisit
    rcases setExtendLimit_cases hprobe' with rfl | ⟨properties, results, limitNum, rfl, rfl⟩
    · exact simulated_refl w _
    · have hlimit : limitNum = invalidLimit := hfresh.1.1
      subst hlimit
      exact simulated_extend_join hpushed h properties results build _
  · obtain ⟨_, hprobe', rfl⟩ := map_eq_some_iff.mp hvisit
    rcases setExtendLimit_cases hprobe' with rfl | ⟨properties, results, limitNum, rfl, rfl⟩
    · exact simulated_refl w _
    · have hlimit : limitNum = invalidLimit := hfresh.1
      subst hlimit
      exact simulated_extend hpushed h properties results build

/-- The rewrite of a plan whose shape is enough. -/
theorem simulated_visitOperator (plan : LogicalOperator Row) (hfresh : plan.Fresh)
    (h : plan.shape.enough w skipNumber limitNumber = true)
    (hvisit : visitOperator skipNumber limitNumber plan = some plan') : Simulated w plan plan' := by
  induction plan generalizing w skipNumber limitNumber plan' with
  | limit skipNum _ _ ih =>
    obtain ⟨_, hchild, rfl⟩ := map_eq_some_iff.mp hvisit
    simp only [shape, Shape.enough, Bool.or_eq_true, decide_eq_true_eq] at h
    rcases h with (h | h) | h
    · subst h
      rintro out' ⟨rows', -, hout'⟩
      cases hout'
    · subst h
      rintro out' ⟨rows', -, hout'⟩
      cases skipNum with
      | none => cases hout'
      | some skipNum => cases skipNum <;> cases hout'
    · exact (ih hfresh h hchild).limit
  | multiplicityReducer child ih | explain child ih =>
    obtain ⟨child', hchild, rfl⟩ := map_eq_some_iff.mp hvisit
    have hsim : Simulated w child child' := ih hfresh h hchild
    exact hsim
  | accumulate onEmpty _ ih =>
    obtain ⟨_, hchild, rfl⟩ := map_eq_some_iff.mp hvisit
    exact fun _ => (ih hfresh h hchild).map (·.accumulate onEmpty)
  | filter predicate _ ih =>
    obtain ⟨_, hchild, rfl⟩ := map_eq_some_iff.mp hvisit
    exact fun _ => (ih hfresh h hchild).map (·.filter predicate)
  | projection expressions _ ih =>
    obtain ⟨_, hchild, rfl⟩ := map_eq_some_iff.mp hvisit
    exact fun _ => (ih hfresh h hchild).map (·.map expressions)
  | tableFunctionCall _ results limitNum =>
    have hfresh : limitNum = invalidLimit := hfresh
    subst hfresh
    simp only [visitOperator] at hvisit
    split at hvisit
    · cases hvisit
      exact simulated_refl w _
    rename_i hpushed
    split_ifs at hvisit with hsupports
    · cases hvisit
      subst hsupports
      exact simulated_tableFunctionCall hpushed h results
    · cases hvisit
      exact simulated_refl w _
  | distinct keys child =>
    obtain ⟨rfl, rfl, -⟩ := hfresh
    simp only [visitOperator] at hvisit
    split at hvisit
    · cases hvisit
      exact simulated_refl w _
    · rename_i hpushed
      cases hvisit
      exact simulated_distinct hpushed h keys child
  | hashJoin => exact simulated_hashJoin hfresh h hvisit
  | unionAll _ _ ih =>
    simp only [visitOperator] at hvisit
    split at hvisit
    · rename_i hsome
      cases hvisit
      refine simulated_unionAll (fun hw i => ?_) (fun i => ?_)
      · simp only [shape, Shape.enough, hw, Bool.not_true, Bool.false_or, decide_eq_true_eq] at h
        exact ih i (hfresh i) (h i) (some_get _).symm
      · exact ih i (hfresh i) (Shape.enough_of_empty _ rfl _ _) (some_get _).symm
    · cases hvisit
  | pathPropertyProbe | recursiveExtend | other =>
    cases hvisit
    exact simulated_refl w _

/-- Limits that are enough for the window of all rows lose none. -/
theorem pushDownSound_of_enough (hfresh : plan.Fresh)
    (h : plan.shape.enough .all 0 invalidLimit = true) : plan.PushDownSound := by
  intro plan' out hrewrite hout
  obtain ⟨_, hrows, hsame⟩ := simulated_visitOperator plan hfresh h hrewrite out hout
  rwa [hsame.eq_of_all]

end LogicalOperator

end Lbug.Optimizer
