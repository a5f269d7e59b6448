/-
  Storage/AppendProgress.lean --- when the loop of an append ends.

  Source: `storage/table/node_group_collection.cpp` (`append`),
  `include/storage/table/node_group.h` (`getNumRowsLeftToAppend`, `isFull`).

  A round appends what fits behind the cursor of the last node group, and a new node group
  is opened when the last one has all of its rows.  A rollback takes rows away and leaves
  the cursor, so the cursor can reach the end of a node group that never gets full: from
  then on no round appends a row.
-/
import Mathlib.Logic.Function.Iterate
import Lbug.Storage.NodeGroupCollection

namespace Lbug.Storage

open Foundation Transaction List Function Option NodeGroupCollection

universe u

variable {k : Nat} {V : Type u}

/-- The rows of node groups. -/
def numRowsOf (groups : List (AppendedGroup k V)) : Nat := (groups.map (·.nodeGroup.numRows)).sum

/-- No cursor is behind the end of its node group. -/
def CursorsInside (size : Nat) (groups : List (AppendedGroup k V)) : Prop :=
  ∀ g ∈ groups, g.nextRowToAppend ≤ size

/-- The last node group is full, or its cursor is at its last row, or `n` rows fit behind the
cursor. -/
def CursorFits (size n : Nat) (groups : List (AppendedGroup k V)) : Prop :=
  ∀ g ∈ groups.getLast?, g.nodeGroup.numRows = size ∨
    g.nextRowToAppend = g.nodeGroup.numRows ∨ n ≤ size - g.nextRowToAppend

/-- A call of `append`, with the capacities of node groups and chunked groups. -/
structure AppendCall (V : Type u) where
  size : Nat
  cap : Nat
  numColumns : Nat
  transactionID : Nat
  columns : List (List V)
  numRowsToAppend : Nat

namespace AppendCall

/-- One round of the loop, on the node groups and `numRowsAppended`. -/
def round (c : AppendCall V) (state : List (AppendedGroup k V) × Nat) :
    List (AppendedGroup k V) × Nat :=
  if state.2 < c.numRowsToAppend then
    let (before, last) := NodeGroupCollection.target c.size c.numColumns state.1
    let n := min (c.numRowsToAppend - state.2) (c.size - last.nextRowToAppend)
    (before ++ [{ nodeGroup := last.nodeGroup.append c.cap c.transactionID
                    (c.columns.map fun column => column.drop state.2) n
                  nextRowToAppend := last.nextRowToAppend + n }], state.2 + n)
  else state

/-- The loop ends after `m` rounds with all rows appended, and each round appended a row. -/
def EndsAfter (c : AppendCall V) (state : List (AppendedGroup k V) × Nat) (m : Nat) : Prop :=
  (c.round^[m] state).2 = c.numRowsToAppend ∧
    numRowsOf (c.round^[m] state).1 = numRowsOf state.1 + (c.numRowsToAppend - state.2) ∧
    ∀ j < m, (c.round^[j] state).2 < (c.round^[j + 1] state).2

end AppendCall

/-! ## Cursors -/

section Cursors

variable {size cap numColumns : Nat} {groups before : List (AppendedGroup k V)}
  {last : AppendedGroup k V} {c : NodeGroupCollection k V}

theorem CursorsInside.target (h : CursorsInside size groups)
    (htarget : NodeGroupCollection.target size numColumns groups = (before, last)) :
    CursorsInside size before ∧ last.nextRowToAppend ≤ size := by
  rcases target_cases htarget with ⟨rfl, -, rfl⟩ | ⟨rfl, -⟩
  · exact ⟨h, Nat.zero_le _⟩
  · exact ⟨fun g hg => h g (mem_append_left _ hg), h last (by simp)⟩

theorem CursorsInside.concat (h : CursorsInside size before) (hlast : last.nextRowToAppend ≤ size) :
    CursorsInside size (before ++ [last]) := by
  intro g hg
  rcases mem_append.mp hg with hg | hg
  · exact h g hg
  · rwa [mem_singleton.mp hg]

theorem CursorsInside.appendLoop {transactionID numRowsToAppend : Nat} {columns : List (List V)}
    (groups : List (AppendedGroup k V)) (a : Nat) (h : CursorsInside size groups) :
    ∀ r, NodeGroupCollection.appendLoop size cap numColumns transactionID columns numRowsToAppend
      groups a = some r → CursorsInside size r.1 := by
  fun_induction NodeGroupCollection.appendLoop size cap numColumns transactionID columns
    numRowsToAppend groups a with
  | case1 groups a hlt before last htarget n hn ih =>
    intro r hr
    obtain ⟨r', hr', rfl⟩ := map_eq_some_iff.mp hr
    obtain ⟨hbefore, hlast⟩ := h.target htarget
    exact ih (hbefore.concat (by dsimp only; omega)) r' hr'
  | case2 => exact nofun
  | case3 groups a hge =>
    intro r hr
    cases hr
    exact h

/-- The cursor has moved also if the append throws. -/
theorem CursorsInside.appendThrowsLoop {transactionID numRowsToAppend chunkRounds : Nat}
    {columns : List (List V)} (rounds : Nat) (h : CursorsInside size groups) (a : Nat) :
    ∀ r, NodeGroupCollection.appendThrowsLoop size cap numColumns transactionID columns
      numRowsToAppend chunkRounds rounds groups a = some r → CursorsInside size r.1 := by
  fun_induction NodeGroupCollection.appendThrowsLoop size cap numColumns transactionID columns
    numRowsToAppend chunkRounds rounds groups a with
  | case1 groups a before last htarget n =>
    intro r hr
    obtain ⟨hbefore, hlast⟩ := h.target htarget
    obtain ⟨_, -, rfl⟩ := map_eq_some_iff.mp hr
    exact hbefore.concat (by dsimp only; omega)
  | case2 groups a before last htarget n _ _ _ ih =>
    intro r hr
    obtain ⟨hbefore, hlast⟩ := h.target htarget
    obtain ⟨r', hr', rfl⟩ := map_eq_some_iff.mp hr
    exact ih (hbefore.concat (by dsimp only; omega)) r' hr'

theorem CursorsInside.commitInsert (h : CursorsInside size c.nodeGroups) (commitTS : Nat)
    (r : InsertRecord) :
    CursorsInside size (c.commitInsert cap commitTS r).nodeGroups := by
  intro g hg
  obtain ⟨_, hi⟩ := mem_iff_getElem?.mp hg
  simp only [NodeGroupCollection.commitInsert, getElem?_modify] at hi
  obtain ⟨g', hg', rfl⟩ := map_eq_some_iff.mp hi
  have hle := h g' (mem_of_getElem? hg')
  split
  all_goals exact hle

/-- A rollback leaves the cursors of the node groups that stay. -/
theorem CursorsInside.rollbackInsert (h : CursorsInside size c.nodeGroups) (r : InsertRecord) :
    CursorsInside size (c.rollbackInsert cap r).nodeGroups := by
  unfold NodeGroupCollection.rollbackInsert
  split
  · exact h
  · rename_i g hg
    intro g' hg'
    rcases mem_or_eq_of_mem_set (( rdropWhile_prefix _ _).subset hg') with hg' | rfl
    · exact h g' hg'
    · exact h g (mem_of_getElem? hg)

theorem cursorsInside_of_reachable {s : AppendState k V}
    (h : Reachable (AppendState.step size cap) (.init numColumns) Always s) :
    CursorsInside size s.collection.nodeGroups := by
  refine h.invariant (fun s => CursorsInside size s.collection.nodeGroups)
    (fun _ hg => by cases hg) ?_
  rintro s action s' hinv - hs
  cases action with
  | append =>
    obtain ⟨_, hr, rfl⟩ := map_eq_some_iff.mp hs
    obtain ⟨r', hr', rfl⟩ := map_eq_some_iff.mp hr
    exact CursorsInside.appendLoop _ _ hinv r' hr'
  | appendThrows =>
    obtain ⟨_, hr, rfl⟩ := map_eq_some_iff.mp hs
    obtain ⟨r', hr', rfl⟩ := map_eq_some_iff.mp hr
    exact CursorsInside.appendThrowsLoop _ hinv _ r' hr'
  | commit _ ts =>
    cases hs
    exact foldlRecOn _ (motive := fun c : NodeGroupCollection k V =>
      CursorsInside size c.nodeGroups) _ hinv fun c hc r _ => hc.commitInsert ts r
  | rollback =>
    cases hs
    exact foldrRecOn _ (motive := fun c : NodeGroupCollection k V =>
      CursorsInside size c.nodeGroups) _ hinv fun c hc r _ => hc.rollbackInsert r

end Cursors

/-! ## Rounds -/

namespace AppendCall

variable {c : AppendCall V} {groups : List (AppendedGroup k V)} {a : Nat}

/-- A round on node groups whose last cursor fits appends a row, and the cursor fits again. -/
theorem round_of_fits (hsize : 0 < c.size) (hlt : a < c.numRowsToAppend)
    (hinside : CursorsInside c.size groups)
    (hfits : CursorFits c.size (c.numRowsToAppend - a) groups) :
    ∃ groups' n, c.round (groups, a) = (groups', a + n) ∧ 0 < n ∧ a + n ≤ c.numRowsToAppend ∧
      numRowsOf groups' = numRowsOf groups + n ∧ CursorsInside c.size groups' ∧
      CursorFits c.size (c.numRowsToAppend - (a + n)) groups' := by
  obtain ⟨before, last, htarget⟩ : ∃ before last,
    target c.size c.numColumns groups = (before, last) := ⟨_, _, rfl⟩
  obtain ⟨hbefore, hlast⟩ := hinside.target htarget
  -- the cursor is at the last row, or there is room for all rows
  have hcursor : last.nextRowToAppend < c.size ∧ (last.nextRowToAppend = last.nodeGroup.numRows ∨
      c.numRowsToAppend - a ≤ c.size - last.nextRowToAppend) := by
    rcases target_cases htarget with ⟨-, -, rfl⟩ | ⟨rfl, hroom⟩
    · exact ⟨hsize, .inl rfl⟩
    · have hg := (hfits last (by simp)).resolve_left hroom
      omega
  have hrows : numRowsOf groups = numRowsOf before + last.nodeGroup.numRows := by
    rcases target_cases htarget with ⟨rfl, -, rfl⟩ | ⟨rfl, -⟩
    · rfl
    · simp [numRowsOf]
  let n := min (c.numRowsToAppend - a) (c.size - last.nextRowToAppend)
  refine ⟨before ++ [⟨last.nodeGroup.append c.cap c.transactionID
    (c.columns.map fun column => column.drop a) n, last.nextRowToAppend + n⟩], n, ?_, by omega,
    by omega, ?_, hbefore.concat (by dsimp only; omega), fun g hg => ?_⟩
  · rw [round, if_pos hlt, htarget]
  · simp only [numRowsOf, map_append, sum_append, map_singleton, sum_singleton,
      NodeGroup.append] at hrows ⊢
    omega
  · rw [getLast?_concat, mem_some_iff] at hg
    subst hg
    dsimp only [NodeGroup.append]
    omega

section

variable (hinside : CursorsInside c.size groups)
  (hfits : ¬ CursorFits c.size (c.numRowsToAppend - a) groups)

include hinside hfits

/-- If the last cursor does not fit, it does not fit after a round, and rows are missing. -/
theorem round_of_not_fits :
    a < c.numRowsToAppend ∧ CursorsInside c.size (c.round (groups, a)).1 ∧
      ¬ CursorFits c.size (c.numRowsToAppend - (c.round (groups, a)).2)
        (c.round (groups, a)).1 := by
  simp only [CursorFits, not_forall, not_or] at hfits
  obtain ⟨g, hg, hrows, hnext, hleft⟩ := hfits
  have hlt : a < c.numRowsToAppend := by omega
  obtain ⟨front, rfl⟩ := getLast?_eq_some_iff.mp hg
  have hcursor := hinside g (by simp)
  have htarget : target c.size c.numColumns (front ++ [g]) = (front, g) := by
    rw [target, getLast?_concat]
    dsimp only
    rw [if_neg hrows, dropLast_concat]
  rw [round, if_pos hlt, htarget]
  refine ⟨hlt, CursorsInside.concat (fun g hg => hinside g (mem_append_left _ hg))
    (by dsimp only; omega), fun hfits' => ?_⟩
  have hlast := hfits' _ getLast?_concat
  dsimp only [NodeGroup.append] at hlast
  omega

omit hinside hfits in
theorem exists_endsAfter (hsize : 0 < c.size) (ha : a ≤ c.numRowsToAppend)
    (hinside : CursorsInside c.size groups)
    (hfits : CursorFits c.size (c.numRowsToAppend - a) groups) :
    ∃ m, c.EndsAfter (groups, a) m := by
  -- on the number of rows that are missing
  induction hd : c.numRowsToAppend - a using Nat.strong_induction_on generalizing groups a with
  | _ _ ih =>
    rcases eq_or_lt_of_le ha with rfl | hlt
    · exact ⟨0, rfl, by simp, nofun⟩
    obtain ⟨_, _, hround, hn, hle, hrows, hinside', hfits'⟩ :=
      round_of_fits hsize hlt hinside hfits
    obtain ⟨m, hend, hsum, hprogress⟩ := ih _ (by omega) hle hinside' hfits' rfl
    refine ⟨m + 1, ?_, ?_, fun j hj => ?_⟩
    · rwa [iterate_succ_apply, hround]
    · rw [iterate_succ_apply, hround, hsum]
      dsimp only
      omega
    · cases j with
      | zero =>
        rw [iterate_one, hround]
        exact Nat.lt_add_of_pos_right hn
      | succ j =>
        rw [iterate_succ_apply, iterate_succ_apply, hround]
        exact hprogress j (by omega)

theorem iterate_of_not_fits (m : Nat) : (c.round^[m] (groups, a)).2 < c.numRowsToAppend := by
  induction m generalizing groups a with
  | zero => exact (round_of_not_fits hinside hfits).1
  | succ _ ih =>
    obtain ⟨-, hinside', hfits'⟩ := round_of_not_fits hinside hfits
    exact ih hinside' hfits'

end

/-- The rounds are those of `append`: one for each record that it returns. -/
theorem iterate_of_appendLoop (groups : List (AppendedGroup k V)) (a : Nat) :
    a ≤ c.numRowsToAppend → ∀ r, appendLoop c.size c.cap c.numColumns
      c.transactionID c.columns c.numRowsToAppend groups a = some r →
      c.round^[r.2.length] (groups, a) = (r.1, c.numRowsToAppend) := by
  fun_induction appendLoop c.size c.cap c.numColumns c.transactionID c.columns
    c.numRowsToAppend groups a with
  | case1 groups a hlt before last htarget n hn ih =>
    intro ha r hr
    obtain ⟨r', hr', rfl⟩ := map_eq_some_iff.mp hr
    have hrest := ih (by omega) r' hr'
    rwa [length_cons, iterate_succ_apply, round, if_pos hlt, htarget]
  | case2 => exact fun _ => nofun
  | case3 groups a hge =>
    intro ha r hr
    cases hr
    exact congrArg (groups, ·) (le_antisymm ha (Nat.le_of_not_lt hge))

end AppendCall

end Lbug.Storage
