/-
  Storage/AppendedCollection.lean --- the rows of a table after appends and rollbacks.

  A collection holds its rows in node groups, `size` in each but the last one
  (`NodeGroupCollection.Holds`).  An append fills the last node group and opens new ones.
  The loop ends if the cursor of the last node group is its number of rows, or if all rows
  fit behind the cursor (`Fits`).
-/
import Lbug.Storage.AppendedGroups

namespace Lbug.Storage

open Foundation Transaction List NodeGroup

universe u

variable {k : Nat} {V : Type u}

/-- A node group of a collection holds rows.  The cursor may be behind the last row. -/
structure AppendedGroup.Holds (size cap numColumns : Nat) (T : Option Nat) (g : AppendedGroup k V)
    (rows : List (AppendedRow V)) : Prop where
  nodeGroup : g.nodeGroup.Holds cap numColumns T rows
  le_next : rows.length ≤ g.nextRowToAppend
  next_le : g.nextRowToAppend ≤ size

/-- Node groups hold rows, a full node group in each but the last one. -/
abbrev GroupsHold (size cap numColumns : Nat) (T : Option Nat) :
    Nat → List (AppendedGroup k V) → List (AppendedRow V) → Prop :=
  Segmented size fun _ g rows => g.Holds size cap numColumns T rows

/-- The last node group takes `n` rows. -/
def Fits (size n : Nat) (groups : List (AppendedGroup k V)) : Prop :=
  ∀ g ∈ groups.getLast?, g.nodeGroup.numRows = size ∨ g.nodeGroup.InStep ∧
    (g.nextRowToAppend = g.nodeGroup.numRows ∨ n ≤ size - g.nextRowToAppend)
  deriving Decidable

/-- A record of rows of one node group. -/
structure InsertRecord.Valid (size : Nat) (r : InsertRecord) : Prop where
  pos : 0 < r.numRows
  le : r.startRow + r.numRows ≤ size

namespace NodeGroupCollection

structure Holds (size cap numColumns : Nat) (T : Option Nat) (c : NodeGroupCollection k V)
    (rows : List (AppendedRow V)) : Prop where
  numColumns_eq : c.numColumns = numColumns
  numTotalRows_eq : c.numTotalRows = rows.length
  nodeGroups : GroupsHold size cap numColumns T 0 c.nodeGroups rows

variable {size cap numColumns T transactionID : Nat} {c : NodeGroupCollection k V}
  {rows : List (AppendedRow V)} {columns : List (List V)} {r : InsertRecord} {commitTS : Nat}
  {n : Nat}

/-! ### Appends -/

/-- The node group that takes the next rows: the last one, or a new one. -/
theorem target_holds (hsize : 0 < size) {groups before : List (AppendedGroup k V)}
    {last : AppendedGroup k V} (h : GroupsHold size cap numColumns none 0 groups rows)
    (hfits : Fits size n groups) (htarget : target size numColumns groups = (before, last)) :
    GroupsHold size cap numColumns none 0 before (rows.take (size * before.length)) ∧
      size * before.length ≤ rows.length ∧ rows.length < size * (before.length + 1) ∧
      last.Holds size cap numColumns none (rows.drop (size * before.length)) ∧
      last.nodeGroup.InStep ∧
      (last.nextRowToAppend = last.nodeGroup.numRows ∨ n ≤ size - last.nextRowToAppend) := by
  have hnum : ∀ front g, groups = front ++ [g] → size * front.length < rows.length ∧
      rows.length ≤ size * front.length + size ∧
      g.nodeGroup.numRows = rows.length - size * front.length := by
    rintro front g rfl
    obtain ⟨-, hlt, hle, hg⟩ := (Segmented.concat_iff hsize).mp h
    rw [hg.nodeGroup.numRows_eq, length_drop]
    exact ⟨hlt, hle, rfl⟩
  rcases target_cases htarget with ⟨rfl, hfull, rfl⟩ | ⟨rfl, hroom⟩
  · have hlen : rows.length = size * before.length := by
      rcases eq_nil_or_concat' before with rfl | ⟨front, g, rfl⟩
      · obtain rfl : rows = [] := h
        rfl
      · have hg := hnum front g rfl
        have hsize' := hfull g (by simp)
        rw [length_append, length_singleton, Nat.mul_add]
        omega
    have hempty : (⟨⟨numColumns, 0, []⟩, 0⟩ : AppendedGroup k V).Holds size cap numColumns
        none [] := ⟨⟨rfl, rfl, rfl⟩, le_refl _, Nat.zero_le _⟩
    obtain ⟨hbefore, hlow, hhigh, hlast⟩ := h.next hsize (.inl ⟨rfl, hlen, hempty⟩)
    exact ⟨hbefore, hlow, hhigh, hlast, nofun, .inl rfl⟩
  · have hg := hnum before last rfl
    obtain ⟨hbefore, hlow, hhigh, hlast⟩ := h.next hsize (.inr ⟨rfl, by
      rw [length_append, length_singleton, Nat.mul_add]
      omega⟩)
    obtain ⟨hinStep, hcursor⟩ := (hfits last (by simp)).resolve_left hroom
    exact ⟨hbefore, hlow, hhigh, hlast, hinStep, hcursor⟩

theorem appendLoop_holds (hcap : 0 < cap) (hsize : 0 < size)
    (hid : transactionID ≠ invalidTransaction) (hdummy : transactionID ≠ dummyTransactionID)
    (hcolumns : columns.length = numColumns) {numRowsToAppend : Nat}
    (hlen : ∀ column ∈ columns, numRowsToAppend ≤ column.length) (groups : List (AppendedGroup k V))
    (a : Nat) (ha : a ≤ numRowsToAppend) (rows : List (AppendedRow V))
    (h : GroupsHold size cap numColumns none 0 groups rows)
    (hfits : Fits size (numRowsToAppend - a) groups) :
    ∃ groups' records,
      appendLoop size cap numColumns transactionID columns numRowsToAppend groups a =
        some (groups', records) ∧
      GroupsHold size cap numColumns none 0 groups'
        (rows ++ (rowsOf transactionID columns numRowsToAppend).drop a) ∧
      records.flatMap (·.offsets size) = range' rows.length (numRowsToAppend - a) ∧
      ∀ r ∈ records, r.Valid size := by
  fun_induction appendLoop size cap numColumns transactionID columns numRowsToAppend groups a
    generalizing rows with
  | case1 groups a hlt before last htarget n hn ih =>
    let last' : AppendedGroup k V :=
      { nodeGroup := last.nodeGroup.append cap transactionID
          (columns.map fun column => column.drop a) n
        nextRowToAppend := last.nextRowToAppend + n }
    obtain ⟨hbefore, hlow, hhigh, hlast, hinStep, hcursor⟩ := target_holds hsize h hfits htarget
    have hnum : last.nodeGroup.numRows = rows.length - size * before.length := by
      rw [hlast.nodeGroup.numRows_eq, length_drop]
    have hlenext := hlast.le_next
    rw [length_drop] at hlenext
    have hle : a + n ≤ numRowsToAppend := by omega
    have hcol : ∀ column ∈ columns.map (fun column => column.drop a), n ≤ column.length := by
      intro column hmem
      obtain ⟨column, hcolumn, rfl⟩ := mem_map.mp hmem
      rw [length_drop]
      have hlong := hlen column hcolumn
      omega
    obtain ⟨hnew, hnewStep⟩ := hlast.nodeGroup.append hcap hinStep hid hdummy
      (by rw [length_map, hcolumns]) hn hcol
    let new : List (AppendedRow V) :=
      (range n).map fun i => ⟨transactionID, columns.map (·[a + i]?)⟩
    have hnewRows : rowsOf transactionID (columns.map fun column => column.drop a) n = new := by
      simp [rowsOf, new]
    have hnewLen : new.length = n := by simp [new]
    rw [hnewRows] at hnew
    have hround : GroupsHold size cap numColumns none 0 (before ++ [last']) (rows ++ new) := by
      refine hbefore.extend hsize hlow (by omega) (by omega) ⟨hnew, ?_, ?_⟩
      · rw [length_append, length_drop, hnewLen]
        exact Nat.add_le_add_right hlenext n
      · have hnext := hlast.next_le
        change last.nextRowToAppend + n ≤ size
        omega
    have hnumNew : last'.nodeGroup.numRows = last.nodeGroup.numRows + n := by
      rw [show last'.nodeGroup.numRows = _ from hnew.numRows_eq, length_append,
        length_drop, hnewLen, hnum]
    have hfitsNew : Fits size (numRowsToAppend - (a + n)) (before ++ [last']) := by
      intro g hg
      rw [getLast?_concat, Option.mem_some_iff] at hg
      subst hg
      -- either this was the last round or the node group is full
      rcases lt_or_ge (a + n) numRowsToAppend with hmore | hdone
      · left
        omega
      · refine .inr ⟨hnewStep, .inr ?_⟩
        omega
    obtain ⟨groups', records, heq, hholds, hoffsets, hvalid⟩ := ih hle (rows ++ new) hround hfitsNew
    refine ⟨groups', ⟨before.length, last.nodeGroup.numRows, n⟩ :: records, ?_, ?_, ?_, ?_⟩
    · rw [heq, Option.map_some]
    · rw [append_assoc, ← drop_rowsOf hle] at hholds
      exact hholds
    · rw [flatMap_cons, hoffsets, InsertRecord.offsets, length_append, hnewLen]
      dsimp only
      rw [show size * before.length + last.nodeGroup.numRows = rows.length by omega,
        range'_append_1]
      congr 1
      omega
    · refine forall_mem_cons.mpr ⟨⟨hn, ?_⟩, hvalid⟩
      dsimp only
      omega
  | case2 groups a hlt before last htarget n hn =>
    -- there is always room
    obtain ⟨-, hlow, hhigh, hlast, -, hcursor⟩ := target_holds hsize h hfits htarget
    have hnum : last.nodeGroup.numRows = rows.length - size * before.length := by
      rw [hlast.nodeGroup.numRows_eq, length_drop]
    rw [Nat.mul_add] at hhigh
    omega
  | case3 groups a hge =>
    have hdone : a = numRowsToAppend := by omega
    refine ⟨groups, [], rfl, ?_, ?_, by simp⟩
    · rw [drop_rowsOf_of_le (Nat.le_of_not_lt hge), append_nil]
      exact h
    · rw [hdone, Nat.sub_self]
      rfl

section

variable (h : c.Holds size cap numColumns none rows)

include h

/-- An append returns, and its rows are behind the others. -/
theorem Holds.append (hcap : 0 < cap) (hsize : 0 < size) (hid : transactionID ≠ invalidTransaction)
    (hdummy : transactionID ≠ dummyTransactionID) (hcolumns : columns.length = numColumns)
    (hlen : ∀ column ∈ columns, n ≤ column.length) (hfits : Fits size n c.nodeGroups) :
    ∃ c' records, c.append size cap transactionID columns n = some (c', records) ∧
      c'.Holds size cap numColumns none (rows ++ rowsOf transactionID columns n) ∧
      records.flatMap (·.offsets size) = range' rows.length n ∧
      ∀ r ∈ records, r.Valid size := by
  obtain ⟨groups', records, heq, hholds, hoffsets, hvalid⟩ := appendLoop_holds hcap hsize hid hdummy
    hcolumns hlen c.nodeGroups 0 (Nat.zero_le n) rows h.nodeGroups hfits
  refine ⟨{ c with nodeGroups := groups', numTotalRows := c.numTotalRows + n }, records, ?_,
    ⟨h.numColumns_eq, ?_, hholds⟩, hoffsets, hvalid⟩
  · rw [NodeGroupCollection.append, h.numColumns_eq, heq]
    rfl
  · rw [length_append, ← h.numTotalRows_eq]
    simp [rowsOf]

/-! ### Lookups -/

theorem Holds.lookup (hcap : 0 < cap) (hsize : 0 < size) {j : Nat} {row : AppendedRow V}
    (hrow : rows[j]? = some row) {t : Snapshot} (ht : t.InRange) :
    c.lookup size cap t j =
      if visible t.startTS t.id row.version then some row.values else none := by
  obtain ⟨_, hg, hholds, hrow⟩ := h.nodeGroups.exists_getElem? hsize hrow
  rw [NodeGroupCollection.lookup, hg]
  exact hholds.nodeGroup.lookup hcap hrow ht

/-! ### Rollbacks -/

theorem Holds.others (T : Nat) : c.Holds size cap numColumns (some T) rows :=
  { h with
    nodeGroups := h.nodeGroups.imp fun _ _ _ _ hg =>
      { hg with nodeGroup := hg.nodeGroup.others T } }

end

theorem Holds.settled (h : c.Holds size cap numColumns (some T) rows)
    (hT : ∀ row ∈ rows, row.version ≠ T) : c.Holds size cap numColumns none rows :=
  { h with
    nodeGroups := h.nodeGroups.imp fun _ _ _ hsub hg =>
      { hg with nodeGroup := hg.nodeGroup.settled fun row hrow => hT row (hsub.subset hrow) } }

/-- The last rows of a table are rolled back. -/
theorem Holds.rollbackInsert (h : c.Holds size cap numColumns (some T) rows) (hcap : 0 < cap)
    (hsize : 0 < size) (hr : r.Valid size)
    (hrange : size * r.nodeGroupIdx + r.startRow + r.numRows = rows.length)
    (hT : ∀ row ∈ rows.drop (size * r.nodeGroupIdx + r.startRow), row.version = T) :
    (c.rollbackInsert cap r).Holds size cap numColumns (some T)
      (rows.take (size * r.nodeGroupIdx + r.startRow)) := by
  obtain ⟨idx, startRow, numRows⟩ := r
  obtain ⟨hpos, hle⟩ := hr
  dsimp only at hpos hle hrange hT ⊢
  have hlt : idx < c.nodeGroups.length := (h.nodeGroups.length_iff idx).mpr (by omega)
  -- the record is about the last node group
  have hlast : c.nodeGroups.drop (idx + 1) = [] := by
    have hout := h.nodeGroups.length_iff (idx + 1)
    rw [Nat.mul_add] at hout
    exact drop_of_length_le (by omega)
  obtain ⟨g, hget⟩ : ∃ g, c.nodeGroups[idx]? = some g := ⟨_, getElem?_eq_getElem hlt⟩
  have hg := h.nodeGroups.getElem? hget
  rw [Foundation.segment, take_of_length_le (by rw [length_drop]; omega)] at hg
  have hfront := h.nodeGroups.take hsize idx
  have hend : startRow + numRows = (rows.drop (size * idx)).length := by
    rw [length_drop]
    omega
  have hrolled := hg.nodeGroup.rollbackInsert hcap hend hpos (by rwa [drop_drop])
  have hnum : (g.nodeGroup.applyFuncToChunkedGroups cap ChunkedNodeGroup.rollbackInsert startRow
      numRows).numRows = startRow + numRows := by
    have hsame : (g.nodeGroup.applyFuncToChunkedGroups cap ChunkedNodeGroup.rollbackInsert startRow
        numRows).numRows = g.nodeGroup.numRows := by
      unfold applyFuncToChunkedGroups
      split <;> rfl
    rw [hsame, hg.nodeGroup.numRows_eq, hend]
  let g' : AppendedGroup k V :=
    { g with
      nodeGroup := (g.nodeGroup.applyFuncToChunkedGroups cap ChunkedNodeGroup.rollbackInsert
        startRow numRows).rollbackInsert startRow }
  have hresult : c.rollbackInsert cap ⟨idx, startRow, numRows⟩ =
      { c with
        nodeGroups := (c.nodeGroups.take idx ++ [g']).rdropWhile fun g => g.nodeGroup.numRows = 0
        numTotalRows := c.numTotalRows - numRows } := by
    have hset : c.nodeGroups.set idx g' = c.nodeGroups.take idx ++ [g'] := by
      rw [set_eq_take_append_cons_drop, if_pos hlt, hlast]
    rw [rollbackInsert, hget]
    dsimp only
    rw [hnum, if_pos (Nat.le_add_right _ _), Nat.add_sub_cancel_left, min_self, ← hset]
  have hnonempty : ∀ g ∈ c.nodeGroups.take idx, decide (g.nodeGroup.numRows = 0) = false := by
    intro g hmem
    obtain ⟨_, _, hne, hholds⟩ := hfront.exists_of_mem hsize hmem
    simpa [hholds.nodeGroup.numRows_eq] using hne
  rw [hresult]
  refine ⟨h.numColumns_eq, ?_, ?_⟩
  · dsimp only
    rw [length_take, h.numTotalRows_eq]
    omega
  rw [rdropWhile_append]
  rcases Nat.eq_zero_or_pos startRow with rfl | hstart
  · have hgone : [g'].rdropWhile (fun g => decide (g.nodeGroup.numRows = 0)) = [] :=
      rdropWhile_of_forall fun g hmem => by
        rw [mem_singleton.mp hmem]
        rfl
    rw [rdropWhile_of_forall_not hnonempty]
    exact hfront
  · have hstays : [g'].rdropWhile (fun g => decide (g.nodeGroup.numRows = 0)) = [g'] :=
      rdropWhile_of_forall_not fun g hmem => by
        rw [mem_singleton.mp hmem]
        exact decide_eq_false (Nat.pos_iff_ne_zero.mp hstart)
    have hlen : ((rows.drop (size * idx)).take startRow).length = startRow := by
      rw [length_take, length_drop]
      omega
    rw [hstays, take_add]
    refine h.nodeGroups.replaceFrom hsize hlt (.of_singleton (ne_nil_of_length_pos (by omega))
      (by omega) ⟨hrolled, ?_, hg.next_le⟩)
    have hnext := hg.le_next
    rw [length_drop] at hnext
    show _ ≤ g.nextRowToAppend
    omega

/-- The records of the last rows of a table are rolled back, the last one first. -/
theorem Holds.rollbackRecords (hcap : 0 < cap) (hsize : 0 < size) (records : List InsertRecord)
    (hvalid : ∀ r ∈ records, r.Valid size) {o : Nat} (ho : o ≤ rows.length)
    (hoffsets : records.flatMap (·.offsets size) = List.range' o (rows.length - o))
    (h : c.Holds size cap numColumns (some T) rows) (hT : ∀ row ∈ rows.drop o, row.version = T) :
    (records.foldr (fun r c => c.rollbackInsert cap r) c).Holds size cap numColumns (some T)
      (rows.take o) := by
  induction records using reverseRecOn generalizing c rows with
  | nil =>
    have hzero := congrArg length hoffsets
    rw [flatMap_nil, length_nil, length_range'] at hzero
    rw [take_of_length_le (by omega)]
    exact h
  | append_singleton records r ih =>
    rw [flatMap_append, flatMap_singleton, InsertRecord.offsets] at hoffsets
    have hr := hvalid r (by simp)
    have hlen := congrArg length hoffsets
    rw [length_append, length_range', length_range'] at hlen
    obtain ⟨l, hl⟩ : ∃ l, (records.flatMap (·.offsets size)).length = l := ⟨_, rfl⟩
    rw [hl] at hlen
    have hsplit : range' o (rows.length - o) =
        range' o l ++ range' (o + l) r.numRows := by
      rw [range'_append_1, hlen]
    rw [hsplit] at hoffsets
    obtain ⟨hfirst, hlast⟩ := append_inj hoffsets (by rw [hl, length_range'])
    have hstart : size * r.nodeGroupIdx + r.startRow = o + l := by
      have hhead := congrArg head? hlast
      rw [head?_range', head?_range', if_neg hr.pos.ne', if_neg hr.pos.ne'] at hhead
      exact Option.some.inj hhead
    rw [foldr_append]
    have hrolled := h.rollbackInsert hcap hsize hr (by omega) fun row hrow => by
      rw [hstart, ← drop_drop] at hrow
      exact hT row (mem_of_mem_drop hrow)
    rw [hstart] at hrolled
    have htake : (rows.take (o + l)).take o = rows.take o := by
      rw [take_take, min_eq_left (Nat.le_add_right _ _)]
    rw [← htake]
    refine ih (fun r hmem => hvalid r (mem_append_left _ hmem))
      (by rw [length_take]; omega) ?_ hrolled fun row hrow => ?_
    · rw [hfirst, length_take]
      congr 1
      omega
    · rw [drop_take] at hrow
      exact hT row (mem_of_mem_take hrow)

/-! ### Commits -/

theorem Holds.commitInsert (h : c.Holds size cap numColumns none rows) (hcap : 0 < cap)
    (hsize : 0 < size) (hts : commitTS ≠ invalidTransaction) (hr : r.Valid size)
    (hT : ∀ j ∈ r.offsets size, j < rows.length ∧
      (versionOf rows j = T ∨ versionOf rows j = commitTS)) :
    ∃ rows', (c.commitInsert cap commitTS r).Holds size cap numColumns none rows' ∧
      CommittedRows T commitTS rows rows' ∧
      ∀ j ∈ r.offsets size, versionOf rows' j = commitTS := by
  obtain ⟨idx, startRow, numRows⟩ := r
  obtain ⟨hpos, hle⟩ := hr
  dsimp only [InsertRecord.offsets] at hpos hle hT ⊢
  simp only [mem_range'_1] at hT ⊢
  have hend := (hT (size * idx + startRow + numRows - 1) (by omega)).1
  have hlt : idx < c.nodeGroups.length := (h.nodeGroups.length_iff idx).mpr (by omega)
  obtain ⟨g, hget⟩ : ∃ g, c.nodeGroups[idx]? = some g := ⟨_, getElem?_eq_getElem hlt⟩
  have hg := h.nodeGroups.getElem? hget
  have hseg : (segment size rows idx).length = min size (rows.length - size * idx) := length_segment
  have hversion : ∀ j < size, versionOf (segment size rows idx) j =
      versionOf rows (size * idx + j) :=
    fun j hj => by rw [versionOf, versionOf, getElem?_segment, if_pos hj]
  have hrange : startRow + numRows ≤ (segment size rows idx).length := by omega
  obtain ⟨_, hholds, hcommitted, hdone⟩ := hg.nodeGroup.commitInsert hcap hts hpos hrange
    fun j hj hj' => by
      rw [hversion j (by omega)]
      exact (hT _ (by omega)).2
  have hgroups := h.nodeGroups.set hsize hlt (a := { g with
    nodeGroup := g.nodeGroup.applyFuncToChunkedGroups cap
      (ChunkedNodeGroup.commitInsert commitTS) startRow numRows }) hcommitted.length
    ⟨hholds, by rw [hcommitted.length]; exact hg.le_next, hg.next_le⟩
  have hall := (CommittedRows.refl T commitTS (rows.take (size * idx))).append
    (hcommitted.append (.refl T commitTS (rows.drop (size * (idx + 1)))))
  rw [take_append_segment] at hall
  refine ⟨_, ⟨h.numColumns_eq, ?_, ?_⟩, hall, fun j hj => ?_⟩
  · rw [hall.length]
    exact h.numTotalRows_eq
  · rw [commitInsert]
    rw [modify_eq_set_getElem?, hget]
    exact hgroups
  · have hfront : (rows.take (size * idx)).length = size * idx := by
      rw [length_take]
      omega
    rw [versionOf_append_right (by omega), versionOf_append_left (by rw [hcommitted.length]; omega)]
    exact hdone _ (by omega) (by omega)

theorem Holds.commitRecords (hcap : 0 < cap) (hsize : 0 < size)
    (hts : commitTS ≠ invalidTransaction) (records : List InsertRecord)
    (hvalid : ∀ r ∈ records, r.Valid size) (h : c.Holds size cap numColumns none rows)
    (hT : ∀ j ∈ records.flatMap (·.offsets size), j < rows.length ∧
      (versionOf rows j = T ∨ versionOf rows j = commitTS)) :
    ∃ rows', (records.foldl (fun c r => c.commitInsert cap commitTS r) c).Holds size cap numColumns
        none rows' ∧ CommittedRows T commitTS rows rows' ∧
      ∀ j ∈ records.flatMap (·.offsets size), versionOf rows' j = commitTS := by
  induction records generalizing c rows with
  | nil => exact ⟨rows, h, .refl _ _ _, by simp⟩
  | cons r _ ih =>
    obtain ⟨_, h₁, hcommitted₁, hdone₁⟩ := h.commitInsert hcap hsize hts (hvalid r (by simp))
      fun j hj => hT j (mem_append_left _ hj)
    obtain ⟨rows₂, h₂, hcommitted₂, hdone₂⟩ := ih (fun r hmem => hvalid r (by simp [hmem])) h₁
      fun j hj => by
        obtain ⟨hlt, hold⟩ := hT j (mem_append_right _ hj)
        refine ⟨hcommitted₁.length ▸ hlt, ?_⟩
        rcases hcommitted₁.versionOf j with hsame | ⟨-, hnew⟩
        · rw [hsame]
          exact hold
        · exact .inr hnew
    refine ⟨rows₂, h₂, hcommitted₁.trans hcommitted₂, fun j hj => ?_⟩
    rcases mem_append.mp hj with hj | hj
    · rcases hcommitted₂.versionOf j with hsame | ⟨-, hnew⟩
      · exact hsame.trans (hdone₁ j hj)
      · exact hnew
    · exact hdone₂ j hj

end NodeGroupCollection

end Lbug.Storage
