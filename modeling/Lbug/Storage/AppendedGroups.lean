/-
  Storage/AppendedGroups.lean --- the rows of a node group after appends and rollbacks.

  A node group in memory holds its rows in chunked groups, a full capacity in each but the
  last one (`NodeGroup.Holds`).  An append fills the last chunked group and opens new
  ones; a rollback cuts one chunked group and removes those behind it.
-/
import Lbug.Storage.AppendedRows

namespace Lbug.Storage

open Foundation Transaction List

universe u

variable {k n : Nat} {V : Type u} {columns : List (List V)}

/-- Chunked groups hold rows, a full capacity in each but the last one. -/
abbrev ChunksHold (cap numColumns : Nat) (T : Option Nat) :
    Nat → List (ChunkedNodeGroup k V) → List (AppendedRow V) → Prop :=
  Segmented cap fun i c rows => c.Holds cap numColumns T (cap * i) rows

namespace NodeGroup

/-- A node group in memory holds rows. -/
structure Holds (cap numColumns : Nat) (T : Option Nat) (g : NodeGroup k V)
    (rows : List (AppendedRow V)) : Prop where
  numColumns_eq : g.numColumns = numColumns
  numRows_eq : g.numRows = rows.length
  chunkedGroups : ChunksHold cap numColumns T 0 g.chunkedGroups rows

/-- The chunked group that takes the next rows is in step. -/
def InStep (g : NodeGroup k V) : Prop := ∀ c ∈ g.chunkedGroups.getLast?, c.InStep
  deriving Decidable

end NodeGroup

theorem drop_rowsOf_of_le {transactionID numRows a : Nat} (h : numRows ≤ a) :
    (rowsOf transactionID columns numRows).drop a = [] :=
  drop_eq_nil_of_le (by simpa [rowsOf] using h)

/-- The rows of an append from a row on. -/
theorem drop_rowsOf {transactionID : Nat} {numRows a : Nat} (h : a + n ≤ numRows) :
    (rowsOf transactionID columns numRows).drop a =
      (range n).map (fun i => ⟨transactionID, columns.map (·[a + i]?)⟩) ++
        (rowsOf transactionID columns numRows).drop (a + n) := by
  refine ext_getElem? fun r => ?_
  rw [getElem?_drop]
  rcases lt_or_ge r n with hr | hr
  · rw [getElem?_append_left (by simpa using hr), rowsOf, getElem?_map, getElem?_map,
      getElem?_range (by omega), getElem?_range hr]
    rfl
  · rw [getElem?_append_right (by simpa using hr), getElem?_drop]
    simp only [length_map, length_range]
    congr 1
    omega

namespace NodeGroup

variable {cap numColumns T transactionID start : Nat} {g : NodeGroup k V}
  {rows : List (AppendedRow V)}
  {α : Type*} {p : α → Bool} {commitTS : Nat} {as : List α} {j : Nat}

/-- The chunked group that takes the next rows: the last one, or a new one. -/
theorem target_holds (hcap : 0 < cap) {groups before : List (ChunkedNodeGroup k V)}
    {last : ChunkedNodeGroup k V} (h : ChunksHold cap numColumns none 0 groups rows)
    (hstep : ∀ c ∈ groups.getLast?, c.InStep) {numRows : Nat} (hrows : rows.length = numRows)
    (htarget : (match groups.getLast? with
      | none => (groups, .create cap numColumns numRows)
      | some last => if last.isFullOrOnDisk = true then (groups, .create cap numColumns numRows)
          else (groups.dropLast, last)) = (before, last)) :
    ChunksHold cap numColumns none 0 before (rows.take (cap * before.length)) ∧
      cap * before.length ≤ rows.length ∧ rows.length < cap * (before.length + 1) ∧
      last.Holds cap numColumns none (cap * before.length) (rows.drop (cap * before.length)) ∧
      last.InStep := by
  subst hrows
  have hnext : (before = groups ∧ rows.length = cap * groups.length ∧
      last = .create cap numColumns rows.length) ∨
      groups = before ++ [last] ∧ rows.length < cap * groups.length := by
    cases hlast : groups.getLast? with
    | none =>
      obtain rfl := getLast?_eq_none_iff.mp hlast
      obtain rfl : rows = [] := h
      cases htarget
      exact .inl ⟨rfl, rfl, rfl⟩
    | some =>
      rw [hlast] at htarget
      obtain ⟨_, rfl⟩ := getLast?_eq_some_iff.mp hlast
      obtain ⟨-, hlt, hle, hc⟩ := (Segmented.concat_iff hcap).mp h
      dsimp only at htarget
      rw [ChunkedNodeGroup.isFullOrOnDisk, hc.residencyState, hc.capacity, hc.numRows] at htarget
      rw [length_append, length_singleton, Nat.mul_add]
      rw [Nat.mul_add] at hle
      split_ifs at htarget with hfull
      · cases htarget
        simp at hfull
        exact .inl ⟨rfl, by omega, rfl⟩
      · rw [dropLast_concat] at htarget
        cases htarget
        simp at hfull
        exact .inr ⟨rfl, by omega⟩
  have hinStep : last.InStep := by
    rcases hnext with ⟨-, -, rfl⟩ | ⟨rfl, -⟩
    · exact ChunkedNodeGroup.inStep_create _ _ _
    · exact hstep _ (by simp)
  obtain ⟨hbefore, hlow, hhigh, hlast⟩ := h.next hcap (hnext.imp_left fun ⟨hgroups, hlen, heq⟩ =>
    ⟨hgroups, hlen, by
      rw [heq, Nat.zero_add, ← hlen]
      exact ChunkedNodeGroup.holds_create _ _ _⟩)
  rw [Nat.zero_add] at hlast
  exact ⟨hbefore, hlow, hhigh, hlast, hinStep⟩

theorem appendLoop_holds (hcap : 0 < cap) (hid : transactionID ≠ invalidTransaction)
    (hdummy : transactionID ≠ dummyTransactionID) (hcolumns : columns.length = numColumns)
    {numRowsBefore numRowsToAppend : Nat}
    (hlen : ∀ column ∈ columns, numRowsToAppend ≤ column.length)
    (groups : List (ChunkedNodeGroup k V)) (a : Nat) (ha : a ≤ numRowsToAppend)
    (rows : List (AppendedRow V)) (hrows : rows.length = numRowsBefore + a)
    (h : ChunksHold cap numColumns none 0 groups rows) (hstep : ∀ c ∈ groups.getLast?, c.InStep) :
    ChunksHold cap numColumns none 0
        (appendLoop cap numColumns transactionID columns numRowsBefore numRowsToAppend groups a)
        (rows ++ (rowsOf transactionID columns numRowsToAppend).drop a) ∧
      ∀ c ∈ (appendLoop cap numColumns transactionID columns numRowsBefore numRowsToAppend groups
        a).getLast?, c.InStep := by
  fun_induction appendLoop cap numColumns transactionID columns numRowsBefore numRowsToAppend
    groups a generalizing rows with
  | case1 groups a hlt fresh before last htarget n hn ih =>
    obtain ⟨hbefore, hlow, hhigh, hlast, hinStep⟩ := target_holds hcap h hstep hrows htarget
    have hnum : last.numRows = rows.length - cap * before.length := by
      rw [hlast.numRows, length_drop]
    have hle : a + n ≤ numRowsToAppend := by omega
    have hcol : ∀ column ∈ columns, a + n ≤ column.length := fun column hcolumn =>
      le_trans hle (hlen column hcolumn)
    have hnew := hlast.append hinStep hid hdummy hcolumns hcol
    let new : List (AppendedRow V) :=
      (range n).map fun i => ⟨transactionID, columns.map (·[a + i]?)⟩
    have hnewLen : new.length = n := by simp [new]
    have hround : ChunksHold cap numColumns none 0
        (before ++ [last.append transactionID columns a n]) (rows ++ new) :=
      hbefore.extend hcap hlow (by omega) (by omega) (by rw [Nat.zero_add]; exact hnew)
    have hrec := ih hle (rows ++ new) (by rw [length_append]; omega) hround
      (by simpa using hinStep.append hcol)
    rw [append_assoc, ← drop_rowsOf hle] at hrec
    exact hrec
  | case2 groups a hlt fresh before last htarget n hn =>
    -- there is always room
    obtain ⟨-, hlow, hhigh, hlast, -⟩ := target_holds hcap h hstep hrows htarget
    have hnum : last.numRows = rows.length - cap * before.length := by
      rw [hlast.numRows, length_drop]
    rw [Nat.mul_add] at hhigh
    omega
  | case3 groups a hge =>
    rw [drop_rowsOf_of_le (Nat.le_of_not_lt hge), append_nil]
    exact ⟨h, hstep⟩

theorem Holds.others (h : g.Holds cap numColumns none rows) (T : Nat) :
    g.Holds cap numColumns (some T) rows :=
  { h with chunkedGroups := h.chunkedGroups.imp fun _ _ _ _ hc => hc.others T }

theorem Holds.settled (h : g.Holds cap numColumns (some T) rows)
    (hT : ∀ row ∈ rows, row.version ≠ T) : g.Holds cap numColumns none rows :=
  { h with
    chunkedGroups := h.chunkedGroups.imp fun _ _ _ hsub hc =>
      hc.settled fun row hrow => hT row (hsub.subset hrow) }

/-- An empty node group starts with an empty chunked group. -/
theorem appendLoop_create (hcap : 0 < cap) {numRowsToAppend : Nat} (hpos : 0 < numRowsToAppend) :
    appendLoop cap numColumns transactionID columns 0 numRowsToAppend
        [(.create cap numColumns 0 : ChunkedNodeGroup k V)] 0 =
      appendLoop cap numColumns transactionID columns 0 numRowsToAppend [] 0 := by
  have hfresh : (ChunkedNodeGroup.create cap numColumns 0 : ChunkedNodeGroup k V).isFullOrOnDisk =
      false := by
    simp only [ChunkedNodeGroup.isFullOrOnDisk, ChunkedNodeGroup.create, Bool.or_eq_false_iff,
      beq_eq_false_iff_ne]
    exact ⟨by omega, by decide⟩
  rw [appendLoop, dif_pos hpos]
  conv_rhs => rw [appendLoop, dif_pos hpos]
  simp [hfresh]

theorem Holds.append (h : g.Holds cap numColumns none rows) (hcap : 0 < cap) (hstep : g.InStep)
    (hid : transactionID ≠ invalidTransaction) (hdummy : transactionID ≠ dummyTransactionID)
    (hcolumns : columns.length = numColumns) (hn : 0 < n)
    (hlen : ∀ column ∈ columns, n ≤ column.length) :
    (g.append cap transactionID columns n).Holds cap numColumns none
        (rows ++ rowsOf transactionID columns n) ∧
      (g.append cap transactionID columns n).InStep := by
  have hrows : rows.length = g.numRows + 0 := h.numRows_eq.symm
  have hloop := appendLoop_holds hcap hid hdummy hcolumns hlen g.chunkedGroups 0 (Nat.zero_le _)
    rows hrows h.chunkedGroups hstep
  have hgroups : (g.append cap transactionID columns n).chunkedGroups =
      appendLoop cap numColumns transactionID columns g.numRows n g.chunkedGroups 0 := by
    unfold NodeGroup.append
    rw [h.numColumns_eq]
    split_ifs with hempty
    · have hnil := isEmpty_iff.mp hempty
      have hrows : rows = [] := by
        have hchunks := h.chunkedGroups
        rw [hnil] at hchunks
        exact hchunks
      have hzero : g.numRows = 0 := by rw [h.numRows_eq, hrows]; rfl
      rw [hnil, hzero]
      exact appendLoop_create hcap hn
    · rfl
  refine ⟨⟨h.numColumns_eq, ?_, ?_⟩, ?_⟩
  · simp [NodeGroup.append, h.numRows_eq, rowsOf]
  · rw [hgroups]
    exact hloop.1
  · rw [InStep, hgroups]
    exact hloop.2

/-- The chunked group of a row. -/
theorem Holds.find {T : Option Nat} (h : g.Holds cap numColumns T rows) (hcap : 0 < cap)
    (hj : j < rows.length) :
    g.findChunkedGroupIdxFromRowIdx cap j = some (j / cap, j % cap) := by
  have hlt : j / cap < g.chunkedGroups.length :=
    (h.chunkedGroups.length_iff _).mpr (lt_of_le_of_lt (Nat.mul_div_le j cap) hj)
  have hdiv := Nat.div_add_mod j cap
  unfold findChunkedGroupIdxFromRowIdx
  cases hgroups : g.chunkedGroups with
  | nil =>
    rw [hgroups] at hlt
    exact absurd hlt (Nat.not_lt_zero _)
  | cons first =>
    have hfirst := h.chunkedGroups.getElem? (j := 0) (by rw [hgroups]; rfl)
    have hstart : first.startRowIdx = 0 := hfirst.startRowIdx
    have hnum : first.numRows = min cap rows.length := by
      rw [hfirst.numRows, length_segment, Nat.mul_zero, Nat.sub_zero]
    rw [hgroups, length_cons] at hlt
    simp only [hstart, hnum, Nat.not_lt_zero, if_false, Nat.sub_zero, length_cons]
    split
    · rename_i hin
      rw [Nat.div_eq_of_lt (by omega), Nat.mod_eq_of_lt (by omega)]
    · rename_i hout
      have hge : cap ≤ j := by omega
      rw [min_eq_left (by omega), ← Nat.mod_eq_sub_mod hge, ← Nat.div_eq_sub_div hcap hge,
        if_neg (by omega)]

theorem Holds.lookup (h : g.Holds cap numColumns none rows) (hcap : 0 < cap) {row : AppendedRow V}
    (hrow : rows[j]? = some row) {t : Snapshot} (ht : t.InRange) :
    g.lookup cap t j = if visible t.startTS t.id row.version then some row.values else none := by
  obtain ⟨c, hget, hc, hrow'⟩ := h.chunkedGroups.exists_getElem? hcap hrow
  rw [Nat.zero_add] at hc
  have hsub : j - c.startRowIdx = j % cap := by
    rw [hc.startRowIdx]
    have := Nat.div_add_mod j cap
    omega
  rw [NodeGroup.lookup, findChunkedGroupFromRowIdx,
    h.find hcap (List.getElem?_eq_some_iff.mp hrow).1]
  simp only [Option.bind_some, hget, Option.map_some, hsub]
  exact hc.lookup hrow' ht

/-! ### Rollbacks -/

theorem rdropWhile_append (as bs : List α) : (as ++ bs).rdropWhile p =
      if bs.rdropWhile p = [] then as.rdropWhile p else as ++ bs.rdropWhile p := by
  unfold rdropWhile
  rw [reverse_append, dropWhile_append]
  by_cases hbs : bs.reverse.dropWhile p = []
  · simp [hbs]
  · simp [hbs]

theorem rdropWhile_of_forall (h : ∀ a ∈ as, p a = true) : as.rdropWhile p = [] :=
  rdropWhile_eq_nil_iff.mpr h

theorem rdropWhile_of_forall_not (h : ∀ a ∈ as, p a = false) : as.rdropWhile p = as :=
  rdropWhile_eq_self_iff.mpr fun hl => by simp [h _ (getLast_mem hl)]

/-- Chunked groups that are rolled back as a whole are empty. -/
theorem rollback_rest (cs : List (ChunkedNodeGroup k V)) (i : Nat) (rows : List (AppendedRow V))
    (h : ChunksHold cap numColumns (some T) i cs rows) :
    ∀ c ∈ applyLoop ChunkedNodeGroup.rollbackInsert cs 0 rows.length, c.numRows = 0 := by
  induction cs generalizing i rows with
  | nil => simp [applyLoop]
  | cons c _ ih =>
    obtain ⟨hne, hc, hcs⟩ := h
    have hpos := length_pos_iff.mpr hne
    have hnum : c.numRows = min cap rows.length := by rw [hc.numRows, length_take]
    have hleft : rows.length - min rows.length (c.numRows - 0) = (rows.drop cap).length := by
      rw [length_drop]
      omega
    rw [applyLoop, if_neg (by omega)]
    intro c' hc'
    rcases mem_cons.mp hc' with rfl | hc'
    · rfl
    · rw [hleft] at hc'
      exact ih _ _ hcs c' hc'

/-- The first chunked group is cut, the others go away. -/
theorem rollback_first {cs : List (ChunkedNodeGroup k V)} {i : Nat}
    (h : ChunksHold cap numColumns (some T) i cs rows) (hstart : start < cap)
    (hrange : start + n = rows.length) (hn : 0 < n)
    (hT : ∀ row ∈ rows.drop start, row.version = T) :
    ChunksHold cap numColumns (some T) i
      ((applyLoop ChunkedNodeGroup.rollbackInsert cs start n).rdropWhile fun c => c.numRows = 0)
      (rows.take start) := by
  cases cs with
  | nil =>
    obtain rfl : rows = [] := h
    simp only [length_nil] at hrange
    omega
  | cons c cs =>
    obtain ⟨hne, hc, hcs⟩ := h
    have hnum : c.numRows = min cap rows.length := by rw [hc.numRows, length_take]
    have hfirst : start + min n (c.numRows - start) = (rows.take cap).length := by
      rw [length_take]
      omega
    have hrest : n - min n (c.numRows - start) = (rows.drop cap).length := by
      rw [length_drop]
      omega
    have hcut := hc.rollbackInsert hfirst (by omega) fun row hrow => by
      rw [drop_take] at hrow
      exact hT row (mem_of_mem_take hrow)
    rw [take_take, min_eq_left (le_of_lt hstart)] at hcut
    have hcutRows : (c.rollbackInsert start (min n (c.numRows - start))).numRows = start := by
      rw [hcut.numRows, length_take]
      omega
    have hempty := rollback_rest cs (i + 1) _ hcs
    rw [applyLoop, if_neg (by omega)]
    dsimp only
    rw [hrest]
    rcases Nat.eq_zero_or_pos start with rfl | hpos
    · rw [rdropWhile_of_forall]
      · rfl
      · intro c' hc'
        rcases mem_cons.mp hc' with rfl | hc'
        · simpa using hcutRows
        · simpa using hempty c' hc'
    · have hnil : (applyLoop ChunkedNodeGroup.rollbackInsert cs 0
          (rows.drop cap).length).rdropWhile (fun c => c.numRows = 0) = [] :=
        rdropWhile_of_forall fun c' hc' => by simpa using hempty c' hc'
      rw [← singleton_append, rdropWhile_append, if_pos hnil, rdropWhile_of_forall_not]
      · refine Segmented.of_singleton ?_ ?_ hcut
        · exact ne_nil_of_length_pos (by rw [length_take]; omega)
        · rw [length_take]
          omega
      · intro c' hc'
        rw [mem_singleton.mp hc']
        simp only [decide_eq_false_iff_not]
        omega

/-- The last rows of a node group are rolled back. -/
theorem Holds.rollbackInsert (h : g.Holds cap numColumns (some T) rows) (hcap : 0 < cap)
    (hrange : start + n = rows.length) (hn : 0 < n)
    (hT : ∀ row ∈ rows.drop start, row.version = T) :
    ((g.applyFuncToChunkedGroups cap ChunkedNodeGroup.rollbackInsert start n).rollbackInsert
      start).Holds cap numColumns (some T) (rows.take start) := by
  have hdiv := Nat.div_add_mod start cap
  have hmod := Nat.mod_lt start hcap
  have hlt : start / cap < g.chunkedGroups.length := (h.chunkedGroups.length_iff _).mpr (by omega)
  have hdrop : (rows.drop (cap * (start / cap))).drop (start % cap) = rows.drop start := by
    rw [drop_drop, hdiv]
  have hrest := rollback_first (h.chunkedGroups.drop (start / cap)) hmod
    (by rw [length_drop]; omega) hn (by rw [hdrop]; exact hT)
  have hfront := h.chunkedGroups.take hcap (start / cap)
  -- the chunked groups before are full
  have hnonempty : ∀ c ∈ g.chunkedGroups.take (start / cap), decide (c.numRows = 0) = false := by
    intro c hc
    obtain ⟨_, _, hne, hholds⟩ := hfront.exists_of_mem hcap hc
    simpa [hholds.numRows] using hne
  have hfind := h.find hcap (j := start) (by omega)
  have hgroups : ((g.applyFuncToChunkedGroups cap ChunkedNodeGroup.rollbackInsert start
      n).rollbackInsert start).chunkedGroups =
      g.chunkedGroups.take (start / cap) ++ (applyLoop ChunkedNodeGroup.rollbackInsert
        (g.chunkedGroups.drop (start / cap)) (start % cap) n).rdropWhile
          fun c => c.numRows = 0 := by
    rw [NodeGroup.rollbackInsert, applyFuncToChunkedGroups, hfind]
    rw [rdropWhile_append]
    split_ifs with hnil
    · rw [hnil, append_nil, rdropWhile_of_forall_not hnonempty]
    · rfl
  refine ⟨?_, ?_, ?_⟩
  · rw [applyFuncToChunkedGroups, hfind]
    exact h.numColumns_eq
  · have hcut : start ≤ rows.length := by omega
    rw [length_take, min_eq_left hcut]
    rfl
  · rw [hgroups]
    have hrows : rows.take start = rows.take (cap * (start / cap)) ++
        (rows.drop (cap * (start / cap))).take (start % cap) := by
      rw [← take_add, hdiv]
    rw [hrows]
    exact h.chunkedGroups.replaceFrom hcap hlt hrest

/-! ### Commits -/

/-- A range of rows of `T` is committed, chunked group by chunked group. -/
theorem applyLoop_commitInsert (hcap : 0 < cap) (hts : commitTS ≠ invalidTransaction)
    (cs : List (ChunkedNodeGroup k V)) (i : Nat) (rows : List (AppendedRow V)) (start n : Nat)
    (h : ChunksHold cap numColumns none i cs rows) (hstart : start ≤ cap)
    (hrange : start + n ≤ rows.length)
    (hT : ∀ r, start ≤ r → r < start + n → versionOf rows r = T ∨ versionOf rows r = commitTS) :
    ∃ rows', ChunksHold cap numColumns none i
        (applyLoop (ChunkedNodeGroup.commitInsert commitTS) cs start n) rows' ∧
      CommittedRows T commitTS rows rows' ∧
      ∀ r, start ≤ r → r < start + n → versionOf rows' r = commitTS := by
  induction cs generalizing i rows start n with
  | nil =>
    obtain rfl : rows = [] := h
    rw [length_nil] at hrange
    exact ⟨[], rfl, .refl _ _ _, fun r hr hlt => by omega⟩
  | cons c _ ih =>
    rw [applyLoop]
    split_ifs with hn
    · exact ⟨rows, h, .refl _ _ _, fun r hr hlt => by omega⟩
    obtain ⟨hne, hc, hcs⟩ := h
    have hnum : c.numRows = min cap rows.length := by rw [hc.numRows, length_take]
    have htake : (rows.take cap).length = min cap rows.length := length_take
    obtain ⟨rows₁, hc₁, hcommitted₁, hdone₁⟩ := hc.commitInsert start
      (min n (c.numRows - start)) (by omega) hts fun r hr hlt => by
        rw [versionOf_take (by omega)]
        exact hT r hr (by omega)
    obtain ⟨rows₂, hcs₂, hcommitted₂, hdone₂⟩ := ih (i + 1) (rows.drop cap) 0
      (n - min n (c.numRows - start)) hcs (Nat.zero_le _) (by rw [length_drop]; omega)
      fun r hr hlt => by
        rw [versionOf_drop]
        exact hT _ (by omega) (by omega)
    have hlen₁ : rows₁.length = min cap rows.length := hcommitted₁.length.trans htake
    have hlen₂ : rows₂.length = rows.length - cap := hcommitted₂.length.trans length_drop
    have hpos := length_pos_iff.mpr hne
    refine ⟨rows₁ ++ rows₂, .cons_append (ne_nil_of_length_pos (by omega)) (by omega) hc₁ hcs₂, ?_,
      fun r hr hlt => ?_⟩
    · have happend := hcommitted₁.append hcommitted₂
      rwa [take_append_drop] at happend
    · rcases lt_or_ge r rows₁.length with hr₁ | hr₁
      · rw [versionOf_append_left hr₁]
        exact hdone₁ r hr (by omega)
      · rw [versionOf_append_right hr₁]
        exact hdone₂ _ (Nat.zero_le _) (by omega)

/-- A range of rows of `T` is committed. -/
theorem Holds.commitInsert (h : g.Holds cap numColumns none rows) (hcap : 0 < cap)
    (hts : commitTS ≠ invalidTransaction) (hn : 0 < n) (hrange : start + n ≤ rows.length)
    (hT : ∀ r, start ≤ r → r < start + n → versionOf rows r = T ∨ versionOf rows r = commitTS) :
    ∃ rows', (g.applyFuncToChunkedGroups cap (ChunkedNodeGroup.commitInsert commitTS) start
        n).Holds cap numColumns none rows' ∧ CommittedRows T commitTS rows rows' ∧
      ∀ r, start ≤ r → r < start + n → versionOf rows' r = commitTS := by
  have hdiv := Nat.div_add_mod start cap
  have hmod := Nat.mod_lt start hcap
  have hlt : start / cap < g.chunkedGroups.length := (h.chunkedGroups.length_iff _).mpr (by omega)
  have hfull := h.chunkedGroups.length_take_eq hlt
  obtain ⟨rows₂, hrest, hcommitted, hdone⟩ := applyLoop_commitInsert hcap hts _ _ _ (start % cap) n
    (h.chunkedGroups.drop (start / cap)) (le_of_lt hmod) (by rw [length_drop]; omega)
    fun r hr hlt => by
      rw [versionOf_drop]
      exact hT _ (by omega) (by omega)
  have hall := (CommittedRows.refl T commitTS (rows.take (cap * (start / cap)))).append hcommitted
  rw [take_append_drop] at hall
  refine ⟨rows.take (cap * (start / cap)) ++ rows₂, ⟨?_, ?_, ?_⟩, hall, fun r hr hlt => ?_⟩
  · rw [applyFuncToChunkedGroups, h.find hcap (by omega)]
    exact h.numColumns_eq
  · rw [applyFuncToChunkedGroups, h.find hcap (by omega), hall.length]
    exact h.numRows_eq
  · rw [applyFuncToChunkedGroups, h.find hcap (by omega)]
    exact h.chunkedGroups.replaceFrom hcap hlt hrest
  · rw [versionOf_append_right (by omega)]
    exact hdone _ (by omega) (by omega)

end NodeGroup

end Lbug.Storage
