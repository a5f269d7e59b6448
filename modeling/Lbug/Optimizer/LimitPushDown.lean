/-
  Optimizer/LimitPushDown.lean --- pushing SKIP and LIMIT numbers down a plan.

  Source: `optimizer/limit_push_down_optimizer.cpp`, `processor/map/map_limit.cpp`,
  `processor/map/map_distinct.cpp`, `processor/operator/aggregate/hash_aggregate.cpp`
  (`executeInternal`), `include/processor/operator/recursive_extend_shared_state.h`.

  A logical plan carries the meaning of its expressions and the content of its sources, and
  `Produces` says which lists of rows it can produce; the order in which threads deliver
  rows is part of what may differ.  An operator that was given a number stops once it has
  produced that many rows, and may have produced more.  Operators that the optimizer does
  not look into are given by what they can produce.
-/
import Mathlib.Data.List.Basic

namespace Lbug.Optimizer

/-- `INVALID_LIMIT`. -/
def invalidLimit : UInt64 := 0xFFFFFFFFFFFFFFFF

/-- The expression of a SKIP or LIMIT; a parameter that has a value is a literal. -/
inductive SkipLimit where
  | literal (number : UInt64)
  | other
  deriving DecidableEq

/-- The rows of a hash join for a row of the probe side. -/
inductive JoinKind (Row : Type) where
  | inner (matching : Row → List Row → List Row)
  | left (matching : Row → List Row → List Row) (nullExtended : Row → Row)
  /-- mark and count joins -/
  | mark (marked : Row → List Row → Row)

namespace JoinKind

variable {Row : Type}

def rows (kind : JoinKind Row) (build : List Row) (row : Row) : List Row :=
  match kind with
  | .inner matching => matching row build
  | .left matching nullExtended =>
    if (matching row build).isEmpty then [nullExtended row] else matching row build
  | .mark marked => [marked row build]

def isInner : JoinKind Row → Bool
  | .inner _ => true
  | _ => false

end JoinKind

inductive LogicalOperator (Row : Type) where
  | limit (skipNum limitNum : Option SkipLimit) (child : LogicalOperator Row)
  | multiplicityReducer (child : LogicalOperator Row)
  | explain (child : LogicalOperator Row)
  /-- an optional accumulate has a row for the case that there is none -/
  | accumulate (onEmpty : Option Row) (child : LogicalOperator Row)
  | filter (predicate : Row → Bool) (child : LogicalOperator Row)
  | projection (expressions : Row → Row) (child : LogicalOperator Row)
  | tableFunctionCall (supportsPushDown : Bool) (results : List Row → Prop) (limitNum : UInt64)
  | distinct (keys : Row → Row) (child : LogicalOperator Row) (skipNum limitNum : UInt64)
  | hashJoin (kind : JoinKind Row) (probe build : LogicalOperator Row)
  | pathPropertyProbe (properties : Row → Row) (child : LogicalOperator Row)
  | recursiveExtend (results : List Row → Prop) (limitNum : UInt64)
  | unionAll (n : Nat) (children : Fin n → LogicalOperator Row)
  | other (results : List Row → Prop)

namespace LogicalOperator

variable {Row : Type}

/-! ## The optimizer -/

/-- The recursive extend below the path property probe of a hash join; it throws if there is
none. -/
def setExtendLimit (number : UInt64) : LogicalOperator Row → Option (LogicalOperator Row)
  | .pathPropertyProbe properties (.recursiveExtend results _) =>
    some (.pathPropertyProbe properties (.recursiveExtend results number))
  | .pathPropertyProbe _ _ => none
  | op => some op

/-- `visitOperator` with the numbers found so far. -/
def visitOperator (skipNumber limitNumber : UInt64) :
    LogicalOperator Row → Option (LogicalOperator Row)
  | .limit skipNum limitNum child =>
    let skipNumber := match skipNum with
      | some (.literal number) => number
      | _ => skipNumber
    let limitNumber := match limitNum with
      | some (.literal number) => number
      | _ => limitNumber
    (visitOperator skipNumber limitNumber child).map (.limit skipNum limitNum)
  | .multiplicityReducer child =>
    (visitOperator skipNumber limitNumber child).map .multiplicityReducer
  | .explain child => (visitOperator skipNumber limitNumber child).map .explain
  | .accumulate onEmpty child =>
    (visitOperator skipNumber limitNumber child).map (.accumulate onEmpty)
  | .filter predicate child =>
    (visitOperator skipNumber limitNumber child).map (.filter predicate)
  | .projection expressions child =>
    (visitOperator skipNumber limitNumber child).map (.projection expressions)
  | .tableFunctionCall supportsPushDown results limitNum =>
    if limitNumber = invalidLimit ∧ skipNumber = 0 then
      some (.tableFunctionCall supportsPushDown results limitNum)
    else if supportsPushDown then
      some (.tableFunctionCall supportsPushDown results (skipNumber + limitNumber))
    else some (.tableFunctionCall supportsPushDown results limitNum)
  | .distinct keys child skipNum limitNum =>
    if limitNumber = invalidLimit ∧ skipNumber = 0 then
      some (.distinct keys child skipNum limitNum)
    else some (.distinct keys child skipNumber limitNumber)
  | .hashJoin kind probe build =>
    if limitNumber = invalidLimit ∧ skipNumber = 0 then some (.hashJoin kind probe build)
    else
      match probe with
      -- the join that reads the properties of the destination node
      | .hashJoin kind' probe' build' =>
        (setExtendLimit (skipNumber + limitNumber) probe').map fun probe' =>
          .hashJoin kind (.hashJoin kind' probe' build') build
      | probe =>
        (setExtendLimit (skipNumber + limitNumber) probe).map fun probe =>
          .hashJoin kind probe build
  | .unionAll n children =>
    if h : ∀ i, (visitOperator 0 invalidLimit (children i)).isSome then
      some (.unionAll n fun i => (visitOperator 0 invalidLimit (children i)).get (h i))
    else none
  | op => some op

def rewrite (plan : LogicalOperator Row) : Option (LogicalOperator Row) :=
  visitOperator 0 invalidLimit plan

/-! ## What a plan produces -/

/-- The rows that SKIP and LIMIT leave; `mapLimit` throws if a number is not a literal. -/
def limitRows (skipNum limitNum : Option SkipLimit) (rows : List Row) : Option (List Row) :=
  match skipNum, limitNum with
  | some .other, _ => none
  | _, some .other => none
  | none, none => some rows
  | some (.literal s), none => some (rows.drop s.toNat)
  | none, some (.literal l) => some (rows.take l.toNat)
  | some (.literal s), some (.literal l) => some ((rows.drop s.toNat).take l.toNat)

/-- The number that `mapDistinct` gives to the hash aggregate. -/
def distinctLimit (skipNum limitNum : UInt64) : UInt64 :=
  let number := (if limitNum = invalidLimit then 0 else limitNum) +
    if skipNum = invalidLimit then 0 else skipNum
  if number = 0 then invalidLimit else number

/-- An operator that stops once it has produced `number` rows. -/
def Stops (number : UInt64) (rows out : List Row) : Prop :=
  if number = invalidLimit then out = rows else ∃ m, number.toNat ≤ m ∧ out = rows.take m

def Produces : LogicalOperator Row → List Row → Prop
  | .limit skipNum limitNum child, out =>
    ∃ rows, Produces child rows ∧ limitRows skipNum limitNum rows = some out
  | .multiplicityReducer child, out => Produces child out
  | .explain child, out => Produces child out
  | .accumulate onEmpty child, out =>
    ∃ rows, Produces child rows ∧ out = if rows.isEmpty then onEmpty.toList else rows
  | .filter predicate child, out => ∃ rows, Produces child rows ∧ out = rows.filter predicate
  | .projection expressions child, out => ∃ rows, Produces child rows ∧ out = rows.map expressions
  | .tableFunctionCall _ results limitNum, out => ∃ rows, results rows ∧ Stops limitNum rows out
  | .distinct keys child skipNum limitNum, out =>
    ∃ rows groups, Produces child rows ∧ groups.Nodup ∧
      (∀ row, row ∈ groups ↔ row ∈ rows.map keys) ∧
      Stops (distinctLimit skipNum limitNum) groups out
  | .hashJoin kind probe build, out =>
    ∃ rows built, Produces probe rows ∧ Produces build built ∧ out = rows.flatMap (kind.rows built)
  | .pathPropertyProbe properties child, out =>
    ∃ rows, Produces child rows ∧ out = rows.map properties
  | .recursiveExtend results limitNum, out => ∃ rows, results rows ∧ Stops limitNum rows out
  | .unionAll n children, out =>
    ∃ parts : Fin n → List Row, (∀ i, Produces (children i) (parts i)) ∧
      out.Perm (List.ofFn parts).flatten
  | .other results, out => results out

/-- No operator has a number yet, as the planner builds them. -/
def Fresh : LogicalOperator Row → Prop
  | .limit _ _ child => Fresh child
  | .multiplicityReducer child => Fresh child
  | .explain child => Fresh child
  | .accumulate _ child => Fresh child
  | .filter _ child => Fresh child
  | .projection _ child => Fresh child
  | .tableFunctionCall _ _ limitNum => limitNum = invalidLimit
  | .distinct _ child skipNum limitNum =>
    skipNum = invalidLimit ∧ limitNum = invalidLimit ∧ Fresh child
  | .hashJoin _ probe build => Fresh probe ∧ Fresh build
  | .pathPropertyProbe _ child => Fresh child
  | .recursiveExtend _ limitNum => limitNum = invalidLimit
  | .unionAll _ children => ∀ i, Fresh (children i)
  | .other _ => True

/-- What the plan produces after the rewrite, it could produce before. -/
def PushDownSound (plan : LogicalOperator Row) : Prop :=
  ∀ plan' out, plan.rewrite = some plan' → plan'.Produces out → plan.Produces out

end LogicalOperator

end Lbug.Optimizer
