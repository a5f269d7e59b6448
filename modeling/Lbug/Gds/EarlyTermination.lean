/-
  Gds/EarlyTermination.lean --- the search for shortest paths that ends when the output
  nodes are reached.

  `SPEdgeCompute::terminate` counts the masked nodes, while
  `RJOutputWriter::inOutputNodeMask` accepts every node of a table whose mask is not
  enabled.  The search can end too early when such a table has a node that is not masked.

  The source keeps iteration numbers and the upper bound in 16 bits and takes the largest
  number for a node that is not visited.  Here they are natural numbers: with an upper bound
  below that number no iteration reaches it (`written_iff_distance`).
-/
import Mathlib.Data.Fintype.Card

namespace Lbug.Gds

open Finset

/-- `FRONTIER_UNVISITED`, the largest `iteration_t`. -/
def frontierUnvisited : Nat := 65535

/-- The mask of a table. -/
structure SemiMask (V : Type) where
  enabled : Bool
  isMasked : V → Bool

/-- The nodes with their tables, and the mask of each table of the output node.  A table
without a mask is not written (`RJVertexCompute::beginOnTable`). -/
structure NodeOffsetMaskMap (V Table : Type) where
  tableID : V → Table
  maskMap : Table → Option (SemiMask V)

/-- The iteration in which each node was visited.  `numNodesReached` is the counter of
`SPEdgeCompute`. -/
structure FrontierPair (V : Type) where
  curIter : Nat := 0
  /-- `none` is `FRONTIER_UNVISITED`. -/
  iteration : V → Option Nat
  hasActiveNodesForNextIter : Bool := true
  numNodesReached : Nat := 0

variable {V Table : Type} (mask : NodeOffsetMaskMap V Table)

namespace NodeOffsetMaskMap

def inOutputNodeMask (v : V) : Bool :=
  (mask.maskMap (mask.tableID v)).any fun m => !m.enabled || m.isMasked v

def isMasked (v : V) : Bool := (mask.maskMap (mask.tableID v)).any fun m => m.isMasked v

def getNumMaskedNode [Fintype V] : Nat := #{v | mask.isMasked v}

end NodeOffsetMaskMap

namespace FrontierPair

variable [Fintype V] (edge : V → V → Bool) (s : FrontierPair V)

def initSource [DecidableEq V] (source : V) : FrontierPair V where
  iteration v := if v = source then some 0 else none

def beginNewIteration : FrontierPair V :=
  { s with curIter := s.curIter + 1, hasActiveNodesForNextIter := false }

def getNumActiveNodesInCurrentFrontier : Nat :=
  #{v | mask.isMasked v ∧ s.iteration v = some (s.curIter - 1)}

/-- `SPEdgeCompute::terminate`, with `EARLY_TERM_NUM_NODES_THRESHOLD` = 100. -/
def terminate : FrontierPair V × Bool :=
  if mask.getNumMaskedNode > 100 then (s, false)
  else
    let numNodesReached := s.numNodesReached + s.getNumActiveNodesInCurrentFrontier mask
    ({ s with numNodesReached }, numNodesReached == mask.getNumMaskedNode)

/-- Every unvisited neighbour of an active node is added, in whatever order the threads of
an iteration come to it. -/
def runOneIteration : FrontierPair V :=
  let iteration := fun v => s.iteration v <|>
    if ∃ u, s.iteration u = some (s.curIter - 1) ∧ edge u v then some s.curIter else none
  { s with iteration, hasActiveNodesForNextIter := decide (∃ v, s.iteration v ≠ iteration v) }

/-- `runRecursiveJoinEdgeCompute` with `rounds` iterations left to the upper bound; without
`early` it goes on where it would terminate. -/
def runEdgeCompute (early : Bool) : Nat → FrontierPair V → FrontierPair V
  | 0, s => s
  | rounds + 1, s =>
    if s.hasActiveNodesForNextIter then
      let (s, done) := s.beginNewIteration.terminate mask
      if early && done then s else runEdgeCompute early rounds (s.runOneIteration edge)
    else s

/-- The length in the row that is written for `v`. -/
def written [DecidableEq V] (source v : V) : Option Nat :=
  if mask.inOutputNodeMask v ∧ v ≠ source then s.iteration v else none

variable {mask edge s} {source u v : V} {i rounds : Nat} {early : Bool}

/-- An iteration marks the unvisited neighbours of the frontier, and no other node. -/
theorem runOneIteration_eq_some : (s.runOneIteration edge).iteration v = some i ↔
    s.iteration v = some i ∨ s.iteration v = none ∧ s.curIter = i ∧
      ∃ u, s.iteration u = some (s.curIter - 1) ∧ edge u v := by
  cases hv : s.iteration v with
  | none => simp [runOneIteration, hv, and_comm]
  | some j => simp [runOneIteration, hv]

variable (mask s) in
/-- The state and the answer of `terminate` at the start of an iteration. -/
abbrev enter : FrontierPair V × Bool := s.beginNewIteration.terminate mask

variable (mask s) in
theorem enter_iteration : (s.enter mask).1.iteration = s.iteration := by
  rw [enter, terminate]
  split <;> rfl

theorem enter_curIter : (s.enter mask).1.curIter = s.curIter + 1 := by
  rw [enter, terminate]
  split <;> rfl

theorem runEdgeCompute_active (hactive : s.hasActiveNodesForNextIter = true) :
    runEdgeCompute mask edge early (rounds + 1) s =
      if early && (s.enter mask).2 then (s.enter mask).1
      else runEdgeCompute mask edge early rounds ((s.enter mask).1.runOneIteration edge) := by
  rw [runEdgeCompute, if_pos hactive]

theorem runEdgeCompute_idle (hidle : ¬s.hasActiveNodesForNextIter = true) :
    runEdgeCompute mask edge early (rounds + 1) s = s := by
  rw [runEdgeCompute, if_neg hidle]

/-- A node that is visited keeps its iteration. -/
theorem runEdgeCompute_of_visited (rounds : Nat) (hv : s.iteration v = some i) :
    (runEdgeCompute mask edge early rounds s).iteration v = some i := by
  induction rounds generalizing s with
  | zero => exact hv
  | succ rounds ih =>
    by_cases hactive : s.hasActiveNodesForNextIter = true
    · have hv' : (s.enter mask).1.iteration v = some i := by rwa [enter_iteration]
      rw [runEdgeCompute_active hactive]
      split
      · exact hv'
      · exact ih (runOneIteration_eq_some.mpr (.inl hv'))
    · rwa [runEdgeCompute_idle hactive]

/-- `v` is at most `n` edges away from `source`. -/
def Within (edge : V → V → Bool) (source : V) : Nat → V → Prop
  | 0, v => v = source
  | n + 1, v => Within edge source n v ∨ ∃ u, Within edge source n u ∧ edge u v

def At (edge : V → V → Bool) (source : V) (n : Nat) (v : V) : Prop :=
  Within edge source n v ∧ ∀ m < n, ¬Within edge source m v

section
omit [Fintype V]
variable {m n : Nat}

theorem Within.mono (h : Within edge source m v) (hle : m ≤ n) : Within edge source n v :=
  Nat.le_induction h (fun _ _ => .inl) n hle

theorem Within.step (h : Within edge source n u) (huv : edge u v) : Within edge source (n + 1) v :=
  .inr ⟨u, h, huv⟩

theorem At.unique (hm : At edge source m v) (hn : At edge source n v) : m = n :=
  Nat.le_antisymm (Nat.le_of_not_lt fun hlt => hm.2 n hlt hn.1)
    (Nat.le_of_not_lt fun hlt => hn.2 m hlt hm.1)

theorem within_iff : Within edge source n v ↔ ∃ m ≤ n, At edge source m v := by
  classical
  refine ⟨fun h => ?_, fun ⟨m, hle, h⟩ => h.1.mono hle⟩
  have hex : ∃ m, Within edge source m v := ⟨n, h⟩
  exact ⟨Nat.find hex, Nat.find_min' hex h, Nat.find_spec hex, fun m => Nat.find_min hex⟩

/-- The nodes of the next level are the unvisited neighbours of this one. -/
theorem at_succ : At edge source (n + 1) v ↔
    ¬Within edge source n v ∧ ∃ u, At edge source n u ∧ edge u v := by
  refine ⟨fun ⟨h, hmin⟩ => ?_, fun ⟨hnot, u, hu, huv⟩ => ?_⟩
  · have hnot := hmin n n.lt_succ_self
    obtain ⟨u, hu, huv⟩ := h.resolve_left hnot
    obtain ⟨m, hle, hm⟩ := within_iff.mp hu
    -- a nearer `u` would make `v` nearer
    rcases hle.eq_or_lt with rfl | hlt
    · exact ⟨hnot, u, hm, huv⟩
    · exact absurd ((hm.1.step huv).mono hlt) hnot
  · exact ⟨hu.1.step huv, fun m hlt hm => hnot (hm.mono (Nat.le_of_lt_succ hlt))⟩

end

open Classical in
/-- What holds between two iterations. -/
structure Reached (mask : NodeOffsetMaskMap V Table) (edge : V → V → Bool) (source : V)
    (s : FrontierPair V) : Prop where
  iteration : ∀ v i, s.iteration v = some i ↔ i ≤ s.curIter ∧ At edge source i v
  idle : ¬s.hasActiveNodesForNextIter = true → ∀ v, ¬At edge source s.curIter v
  counted : mask.getNumMaskedNode ≤ 100 →
    s.numNodesReached = #{v | mask.isMasked v ∧ ∃ i < s.curIter, At edge source i v}

variable (mask edge source) in
theorem reached_initSource [DecidableEq V] : Reached mask edge source (initSource source) where
  iteration v i := by
    simp only [initSource, Nat.le_zero]
    grind [At, Within]
  idle hidle := absurd rfl hidle
  counted _ := by simp [initSource]

namespace Reached

variable (h : s.Reached mask edge source)

include h

theorem visited : (∃ i, s.iteration v = some i) ↔ Within edge source s.curIter v := by
  simp only [h.iteration, within_iff]

open Classical in
theorem numNodesReached (hfew : mask.getNumMaskedNode ≤ 100) :
    (s.enter mask).1.numNodesReached =
      #{v | mask.isMasked v ∧ ∃ i < s.curIter + 1, At edge source i v} := by
  rw [enter, terminate, if_neg (Nat.not_lt.mpr hfew)]
  show s.numNodesReached + #{v | mask.isMasked v ∧ s.iteration v = some s.curIter} = _
  rw [h.counted hfew, ← card_union_of_disjoint]
  · congr 1
    ext v
    simp only [mem_union, mem_filter, mem_univ, true_and, h.iteration]
    grind
  · rw [disjoint_filter]
    rintro v - ⟨-, i, hlt, hi⟩ ⟨-, hcur⟩
    exact hlt.ne (hi.unique ((h.iteration ..).mp hcur).2)

/-- The search terminates when it has visited all masked nodes. -/
theorem done_iff : (s.enter mask).2 = true ↔
    mask.getNumMaskedNode ≤ 100 ∧ ∀ v, mask.isMasked v → Within edge source s.curIter v := by
  classical
  rcases Nat.lt_or_ge 100 mask.getNumMaskedNode with hmany | hfew
  · simp [enter, terminate, hmany]
  have hdone : (s.enter mask).2 = true ↔
      (s.enter mask).1.numNodesReached = mask.getNumMaskedNode := by
    rw [enter, terminate, if_neg (Nat.not_lt.mpr hfew)]
    exact beq_iff_eq
  rw [and_iff_right hfew, hdone, h.numNodesReached hfew, NodeOffsetMaskMap.getNumMaskedNode,
    ← filter_filter, card_filter_eq_iff]
  simp only [mem_filter, mem_univ, true_and, within_iff, Nat.lt_succ_iff]

theorem next : ((s.enter mask).1.runOneIteration edge).Reached mask edge source := by
  have hcur : ((s.enter mask).1.runOneIteration edge).curIter = s.curIter + 1 := enter_curIter
  have hiter : ∀ v i, ((s.enter mask).1.runOneIteration edge).iteration v = some i ↔
      i ≤ s.curIter + 1 ∧ At edge source i v := by
    intro v i
    have hnone : s.iteration v = none ↔ ¬Within edge source s.curIter v := by
      rw [← h.visited, not_exists, Option.eq_none_iff_forall_ne_some]
    rw [runOneIteration_eq_some, enter_iteration, enter_curIter, Nat.add_sub_cancel, hnone]
    simp only [h.iteration, le_refl, true_and]
    have hsucc : At edge source (s.curIter + 1) v ↔ _ := at_succ
    grind
  refine ⟨hcur ▸ hiter, fun hidle v hv => ?_, fun hfew => ?_⟩
  · have hsame : ∀ v, (s.enter mask).1.iteration v =
        ((s.enter mask).1.runOneIteration edge).iteration v :=
      not_exists_not.mp (of_decide_eq_false (Bool.eq_false_iff.mpr hidle))
    have hv' := (hiter v _).mpr ⟨hcur.le, hv⟩
    rw [← hsame, enter_iteration, h.iteration, hcur] at hv'
    exact absurd hv'.1 (Nat.not_succ_le_self _)
  · rw [hcur]
    exact h.numNodesReached hfew

/-- With an empty frontier nothing more is reached. -/
theorem within_of_idle (hidle : ¬s.hasActiveNodesForNextIter = true) {n : Nat}
    (hv : Within edge source n v) : Within edge source s.curIter v := by
  induction n generalizing v with
  | zero => exact Within.mono (m := 0) hv (Nat.zero_le _)
  | succ n ih =>
    rcases hv with hv | ⟨u, hu, huv⟩
    · exact ih hv
    · obtain ⟨i, hle, hi⟩ := within_iff.mp (ih hu)
      exact (hi.1.step huv).mono (hle.lt_of_ne fun heq => h.idle hidle u (heq ▸ hi))

omit h in
theorem next_curIter_add (mask : NodeOffsetMaskMap V Table) (edge : V → V → Bool) :
    ((s.enter mask).1.runOneIteration edge).curIter + rounds = s.curIter + (rounds + 1) := by
  rw [Nat.add_comm rounds 1, ← Nat.add_assoc]
  exact congrArg (· + rounds) enter_curIter

/-- Without early termination, the nodes within the bound are visited. -/
theorem visited_run (rounds : Nat) :
    (∃ i, (runEdgeCompute mask edge false rounds s).iteration v = some i) ↔
      Within edge source (s.curIter + rounds) v := by
  induction rounds generalizing s with
  | zero => exact h.visited
  | succ rounds ih =>
    by_cases hactive : s.hasActiveNodesForNextIter = true
    · rw [runEdgeCompute_active hactive, Bool.false_and, if_neg Bool.false_ne_true, ih h.next,
        next_curIter_add]
    · rw [runEdgeCompute_idle hactive, h.visited]
      exact ⟨fun hv => hv.mono (Nat.le_add_right ..), h.within_of_idle hactive⟩

/-- Whenever the search ends, the nodes it has visited have their distance. -/
theorem at_of_run (rounds : Nat)
    (hi : (runEdgeCompute mask edge early rounds s).iteration v = some i) :
    i ≤ s.curIter + rounds ∧ At edge source i v := by
  have hvisited : s.iteration v = some i → i ≤ s.curIter + rounds ∧ At edge source i v :=
    fun hi => ((h.iteration v i).mp hi).imp_left fun hle => hle.trans (Nat.le_add_right ..)
  induction rounds generalizing s with
  | zero => exact hvisited hi
  | succ rounds ih =>
    by_cases hactive : s.hasActiveNodesForNextIter = true
    · rw [runEdgeCompute_active hactive] at hi
      split at hi
      · rw [enter_iteration] at hi
        exact hvisited hi
      · rw [← next_curIter_add mask edge]
        refine ih h.next hi fun hi => ?_
        exact ((h.next.iteration v i).mp hi).imp_left fun hle => hle.trans (Nat.le_add_right ..)
    · rw [runEdgeCompute_idle hactive] at hi
      exact hvisited hi

/-- The early run stops at the first distance within which all masked nodes are. -/
theorem early_eq_iff (rounds : Nat) :
    (∀ v, mask.inOutputNodeMask v → (runEdgeCompute mask edge true rounds s).iteration v =
      (runEdgeCompute mask edge false rounds s).iteration v) ↔
    100 < mask.getNumMaskedNode ∨ ∀ n, s.curIter ≤ n → n < s.curIter + rounds →
      (∀ v, mask.isMasked v → Within edge source n v) →
      ∀ v, mask.inOutputNodeMask v → Within edge source (s.curIter + rounds) v →
        Within edge source n v := by
  induction rounds generalizing s with
  | zero => exact iff_of_true (fun _ _ => rfl) (.inr fun n hle hlt => absurd hlt (by omega))
  | succ rounds ih =>
    by_cases hactive : s.hasActiveNodesForNextIter = true
    swap
    · rw [runEdgeCompute_idle hactive, runEdgeCompute_idle hactive]
      exact iff_of_true (fun _ _ => rfl)
        (.inr fun n hle _ _ v _ hv => (h.within_of_idle hactive hv).mono hle)
    rw [runEdgeCompute_active hactive]
    cases hdone : (s.enter mask).2 with
    | false =>
      rw [runEdgeCompute_active hactive, Bool.and_false, Bool.false_and]
      refine (ih h.next).trans ?_
      rw [next_curIter_add]
      have hnot := mt h.done_iff.mpr (Bool.eq_false_iff.mp hdone)
      refine or_congr_right' fun hfew => ⟨fun hn n hle hlt hall => ?_, fun hn n hle => hn n ?_⟩
      · rcases hle.eq_or_lt with rfl | hlt'
        · exact absurd ⟨Nat.not_lt.mp hfew, hall⟩ hnot
        · exact hn n (enter_curIter.trans_le hlt') hlt hall
      · exact Nat.le_of_succ_le (enter_curIter.symm.trans_le hle)
    | true =>
      obtain ⟨hfew, hall⟩ := h.done_iff.mp hdone
      rw [or_iff_right (Nat.not_lt.mpr hfew), Bool.and_self, if_pos rfl, enter_iteration]
      refine ⟨fun hsame n hle _ _ v hout hv => ?_, fun hn v hout => ?_⟩
      · obtain ⟨i, hi⟩ := (h.visited_run (rounds + 1)).mpr hv
        exact (h.visited.mp ⟨i, (hsame v hout).trans hi⟩).mono hle
      · cases hv : (runEdgeCompute mask edge false (rounds + 1) s).iteration v with
        | some i =>
          have hnear := hn _ le_rfl (by omega) hall v hout ((h.visited_run _).mp ⟨i, hv⟩)
          obtain ⟨j, hj⟩ := h.visited.mpr hnear
          rw [hj, ← hv, runEdgeCompute_of_visited _ hj]
        | none =>
          refine Option.eq_none_iff_forall_ne_some.mpr fun i hi => ?_
          simp [runEdgeCompute_of_visited _ hi] at hv

end Reached
end FrontierPair

open FrontierPair

/-- A search to the upper bound writes the output nodes within the bound, each with its
distance from the source; one that ends early writes no other lengths.  No node gets the
number that stands for one that is not visited. -/
theorem written_iff_distance [Fintype V] [DecidableEq V] (edge : V → V → Bool) (source v : V)
    {bound : Nat} (hbound : bound < frontierUnvisited) (i : Nat) :
    ((runEdgeCompute mask edge false bound (initSource source)).written mask source v = some i ↔
      mask.inOutputNodeMask v ∧ v ≠ source ∧ i ≤ bound ∧ At edge source i v) ∧
    ((runEdgeCompute mask edge true bound (initSource source)).written mask source v = some i →
      At edge source i v) ∧
    ∀ early, (runEdgeCompute mask edge early bound (initSource source)).iteration v = some i →
      i < frontierUnvisited := by
  have hreached := reached_initSource mask edge source
  have hcur : (initSource source).curIter + bound = bound := Nat.zero_add bound
  have hat : ∀ {early}, (runEdgeCompute mask edge early bound (initSource source)).iteration v =
      some i → i ≤ bound ∧ At edge source i v := fun hi => hcur ▸ hreached.at_of_run bound hi
  simp only [written, Option.ite_none_right_eq_some, and_assoc]
  refine ⟨and_congr_right' (and_congr_right' ⟨hat, fun ⟨hle, hi⟩ => ?_⟩),
    fun ⟨_, _, hi⟩ => (hat hi).2, fun early hi => (hat hi).1.trans_lt hbound⟩
  obtain ⟨j, hj⟩ := (hreached.visited_run bound).mpr (hcur.symm ▸ hi.1.mono hle)
  rw [hj, (hreached.at_of_run bound hj).2.unique hi]

/-- Two nodes with an edge from each to each. -/
theorem written_iff_distance_sample :
    let mask : NodeOffsetMaskMap Bool Unit := ⟨fun _ => (), fun _ => some ⟨true, fun _ => true⟩⟩
    (runEdgeCompute mask (fun _ _ => true) false 1 (initSource false)).written mask false true =
        some 1 ∧ At (fun _ _ => true) false 1 true := by
  intro mask
  have hrow : (runEdgeCompute mask (fun _ _ => true) false 1 (initSource false)).written mask
      false true = some 1 := by decide
  exact ⟨hrow, ((written_iff_distance mask (fun _ _ => true) false true (by decide) 1).1.mp
    hrow).2.2.2⟩

/-- The rows of the two searches agree exactly if more than 100 nodes are masked, or if no
output node within the bound is farther away than all masked nodes. -/
theorem early_termination_iff [Fintype V] [DecidableEq V] (edge : V → V → Bool) (source : V)
    (bound : Nat) :
    (∀ v, (runEdgeCompute mask edge true bound (initSource source)).written mask source v =
      (runEdgeCompute mask edge false bound (initSource source)).written mask source v) ↔
    100 < mask.getNumMaskedNode ∨
      ∀ n < bound, (∀ v, mask.isMasked v → Within edge source n v) →
        ∀ v, mask.inOutputNodeMask v → Within edge source bound v → Within edge source n v := by
  have hsource : ∀ early,
      (runEdgeCompute mask edge early bound (initSource source)).iteration source = some 0 :=
    fun early => runEdgeCompute_of_visited bound (if_pos rfl)
  have hiff := (reached_initSource mask edge source).early_eq_iff bound
  simp only [show (initSource source).curIter = 0 from rfl, Nat.zero_le, true_implies,
    Nat.zero_add] at hiff
  rw [← hiff]
  refine forall_congr' fun v => ?_
  by_cases hv : v = source
  · simp [written, hv, hsource]
  · by_cases hout : mask.inOutputNodeMask v <;> simp [written, hv, hout]

/-- The table of both nodes has a mask that is not enabled: the search ends at once. -/
theorem early_termination_loses_row :
    let mask : NodeOffsetMaskMap Bool Unit := ⟨fun _ => (), fun _ => some ⟨false, fun _ => false⟩⟩
    (runEdgeCompute mask (fun _ _ => true) true 1 (initSource false)).written mask false true =
        none ∧
      (runEdgeCompute mask (fun _ _ => true) false 1 (initSource false)).written mask false true =
        some 1 := by
  decide

end Lbug.Gds
