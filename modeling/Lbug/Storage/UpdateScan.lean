/-
  Storage/UpdateScan.lean --- scans of update chains, and the number of updated rows.

  Source: `storage/table/update_info.cpp` (`scan`, `iterateScan`, `getNumUpdatedRows`).

  A scan goes through the visible nodes of each vector of its range and writes the rows
  that no newer node has written; `rowsUpdated` is the bitset of these rows.  The result
  is that of a lookup of each row (`scan_apply`).  `getNumUpdatedRows` collects the
  positions of the updated rows inside of their vectors, without the vectors.
-/
import Mathlib.Data.Set.Card
import Lbug.Storage.UpdateHistory

namespace Lbug.Storage

open Foundation Transaction List UpdateInfo

universe u

variable {k : Nat} {V : Type u} {s : UpdateHistory k V}

namespace UpdateInfo

variable (u : UpdateInfo k V) (t : Snapshot)

/-- `iterateVectorInfo`: the nodes of a vector that the transaction may see. -/
def visibleNodes (idx : Nat) : List (VectorUpdateInfo V) :=
  (u.chain idx).filter fun n => visible t.startTS t.id n.version

/-- One entry of a node, for the rows `[start, stop)` of the vector, which are the positions
from `pos` on. -/
def scanEntry (start stop pos : Nat) (state : (Nat → V) × Finset Nat) (entry : Nat × V) :
    (Nat → V) × Finset Nat :=
  if entry.1 < start ∨ stop ≤ entry.1 then state
  else if entry.1 - start ∈ state.2 then state
  else (Function.update state.1 (pos + (entry.1 - start)) entry.2, insert (entry.1 - start) state.2)

def scanNode (start stop pos : Nat) (state : (Nat → V) × Finset Nat) (n : VectorUpdateInfo V) :
    (Nat → V) × Finset Nat :=
  if n.rows.length = 0 then state
  else if state.2.card = stop - start then state
  else n.rows.foldl (scanEntry start stop pos) state

/-- The loop of `iterateScan` over the vectors, with `scan`'s function for each row. -/
def scanLoop (offset length : Nat) : List Nat → (Nat → V) → Nat → Nat → V
  | [], output, _ => output
  | idx :: rest, output, pos =>
    let start := if idx = offset / vectorCapacity k then offset % vectorCapacity k else 0
    let stop := if idx = (offset + length) / vectorCapacity k then
      (offset + length) % vectorCapacity k else vectorCapacity k
    scanLoop offset length rest
      ((u.visibleNodes t idx).foldl (scanNode start stop pos) (output, ∅)).1 (pos + (stop - start))

def scan (output : Nat → V) (offsetInChunk length : Nat) : Nat → V :=
  if u.updates.isEmpty then output
  else
    let first := offsetInChunk / vectorCapacity k
    scanLoop u t offsetInChunk length
      (List.range' first ((offsetInChunk + length) / vectorCapacity k - first + 1)) output 0

/-- The set takes the rows' positions inside of their vectors. -/
def getNumUpdatedRows : Nat :=
  ((List.range u.updates.length).flatMap fun idx =>
    (u.visibleNodes t idx).flatMap fun n => n.rows.map Prod.fst).toFinset.card

/-! ## One vector -/

theorem lookupChain_eq_find (row : Nat) (nodes : List (VectorUpdateInfo V)) :
    lookupChain t row nodes =
      (((nodes.filter fun n => visible t.startTS t.id n.version).flatMap (·.rows)).find? fun e =>
        e.1 == row).map Prod.snd := by
  induction nodes with
  | nil => rfl
  | cons n _ ih =>
    rw [lookupChain, ih]
    by_cases hvis : visible t.startTS t.id n.version = true
    · simp only [hvis, if_true, filter_cons, flatMap_cons, find?_append, VectorUpdateInfo.read]
      cases n.rows.find? fun e => e.1 == row <;> rfl
    · simp [hvis]

variable {e : Nat × V} {idx : Nat}

section Vector

variable {start stop pos : Nat} {state : (Nat → V) × Finset Nat}

/-- Each position in the range that is not marked gets the first entry of its row. -/
theorem foldl_scanEntry_apply (entries : List (Nat × V)) (output : Nat → V) (rows : Finset Nat)
    (q : Nat) :
    (entries.foldl (scanEntry start stop pos) (output, rows)).1 q =
      if pos ≤ q ∧ q < pos + (stop - start) ∧ q - pos ∉ rows then
        ((entries.find? fun e => e.1 == start + (q - pos)).map Prod.snd).getD (output q)
      else output q := by
  induction entries generalizing output rows with
  | nil => simp
  | cons e _ ih =>
    rw [foldl_cons, find?_cons]
    by_cases hrow : e.1 < start ∨ stop ≤ e.1 ∨ e.1 - start ∈ rows
    · -- the entry is passed over, and it is none for an unmarked position
      have hsame : scanEntry start stop pos (output, rows) e = (output, rows) := by
        unfold scanEntry
        split
        · rfl
        · rename_i hin
          exact if_pos (by tauto)
      rw [hsame, ih]
      split_ifs with hq
      · have hne : (e.1 == start + (q - pos)) = false := by
          refine beq_eq_false_iff_ne.mpr fun heq => ?_
          rw [heq, Nat.add_sub_cancel_left] at hrow
          rcases hrow with hlt | hge | hmarked
          · omega
          · omega
          · exact hq.2.2 hmarked
        rw [hne]
      · rfl
    · simp only [not_or] at hrow
      have hwrite : scanEntry start stop pos (output, rows) e =
          (Function.update output (pos + (e.1 - start)) e.2, insert (e.1 - start) rows) := by
        unfold scanEntry
        rw [if_neg (by omega), if_neg hrow.2.2]
      rw [hwrite, ih]
      by_cases hq : q = pos + (e.1 - start)
      · have hpos : q - pos = e.1 - start := by omega
        have heq : e.1 = start + (e.1 - start) := by omega
        rw [if_neg (by simp [hpos]), if_pos ⟨by omega, by omega, by rw [hpos]; exact hrow.2.2⟩,
          hpos, ← heq, hq]
        simp
      · rw [Function.update_of_ne hq]
        by_cases hin : pos ≤ q ∧ q < pos + (stop - start)
        · have hne : q - pos ≠ e.1 - start := by omega
          have hbeq : (e.1 == start + (q - pos)) = false := beq_eq_false_iff_ne.mpr (by omega)
          simp only [Finset.mem_insert, hne, false_or, hbeq]
        · rw [if_neg fun h => hin ⟨h.1, h.2.1⟩, if_neg fun h => hin ⟨h.1, h.2.1⟩]

/-- The bitset holds rows of the range. -/
theorem scanEntry_subset (h : state.2 ⊆ Finset.range (stop - start)) :
    (scanEntry start stop pos state e).2 ⊆ Finset.range (stop - start) := by
  unfold scanEntry
  split
  · exact h
  · rename_i hin
    split
    · exact h
    · refine Finset.insert_subset (Finset.mem_range.mpr ?_) h
      omega

theorem foldl_scanEntry_subset (entries : List (Nat × V))
    (h : state.2 ⊆ Finset.range (stop - start)) :
    (entries.foldl (scanEntry start stop pos) state).2 ⊆ Finset.range (stop - start) := by
  induction entries generalizing state with
  | nil => exact h
  | cons _ _ ih => exact ih (scanEntry_subset h)

/-- A node is left out only if all rows of the range are marked: it would change nothing. -/
theorem scanNode_eq (h : state.2 ⊆ Finset.range (stop - start)) (n : VectorUpdateInfo V) :
    scanNode start stop pos state n = n.rows.foldl (scanEntry start stop pos) state := by
  unfold scanNode
  split
  · rename_i hempty
    rw [length_eq_zero_iff.mp hempty, foldl_nil]
  split_ifs with hfull
  · have hall : state.2 = Finset.range (stop - start) :=
      Finset.eq_of_subset_of_card_le h (by rw [Finset.card_range, hfull])
    induction n.rows with
    | nil => rfl
    | cons e _ ih =>
      have hsame : scanEntry start stop pos state e = state := by
        unfold scanEntry
        rw [hall]
        split
        · rfl
        · rename_i hin
          exact if_pos (Finset.mem_range.mpr (by omega))
      rw [foldl_cons, hsame]
      exact ih
  · rfl

theorem foldl_scanNode_eq (nodes : List (VectorUpdateInfo V))
    (h : state.2 ⊆ Finset.range (stop - start)) :
    nodes.foldl (scanNode start stop pos) state =
      (nodes.flatMap (·.rows)).foldl (scanEntry start stop pos) state := by
  induction nodes generalizing state with
  | nil => rfl
  | cons _ _ ih =>
    rw [foldl_cons, scanNode_eq h, ih (foldl_scanEntry_subset _ h), flatMap_cons, foldl_append]

/-- The rows of one vector get the values of their lookups. -/
theorem scanVector_apply {offset : Nat} (output : Nat → V)
    (q : Nat) (hstop : stop ≤ vectorCapacity k)
    (hpos : vectorCapacity k * idx + start = offset + pos) :
    ((u.visibleNodes t idx).foldl (scanNode start stop pos) (output, ∅)).1 q =
      if pos ≤ q ∧ q < pos + (stop - start) then (u.lookup t (offset + q)).getD (output q)
      else output q := by
  rw [foldl_scanNode_eq _ (Finset.empty_subset _), foldl_scanEntry_apply]
  refine ite_congr (by simp) (fun hq => ?_) fun _ => rfl
  have hlt : start + (q - pos) < vectorCapacity k := by omega
  have hrow : offset + q = vectorCapacity k * idx + (start + (q - pos)) := by omega
  rw [hrow, lookup_eq, Nat.mul_add_mod, Nat.mod_eq_of_lt hlt,
    Nat.mul_add_div (vectorCapacity_pos k), Nat.div_eq_of_lt hlt, lookupChain_eq_find]
  rfl

end Vector

/-! ## The loop over the vectors -/

theorem scanLoop_apply {offset length : Nat} (q vectors : Nat)
    {pos : Nat} (output : Nat → V) (hlast : idx + vectors = (offset + length) / vectorCapacity k)
    (hidx : offset / vectorCapacity k ≤ idx) (hpos : vectorCapacity k * idx +
      (if idx = offset / vectorCapacity k then offset % vectorCapacity k else 0) = offset + pos) :
    scanLoop u t offset length (range' idx (vectors + 1)) output pos q =
      if pos ≤ q ∧ q < length then (u.lookup t (offset + q)).getD (output q) else output q := by
  have hend := Nat.div_add_mod (offset + length) (vectorCapacity k)
  have hmod := Nat.mod_lt (offset + length) (vectorCapacity_pos k)
  have hstart := Nat.mod_lt offset (vectorCapacity_pos k)
  induction vectors generalizing idx pos output with
  | zero =>
    rw [add_zero] at hlast
    rw [range'_one, scanLoop, scanLoop, if_pos hlast,
      scanVector_apply u t output q (le_of_lt hmod) hpos]
    rw [← hlast] at hend
    generalize (if idx = offset / vectorCapacity k then offset % vectorCapacity k else 0) =
      start at hpos ⊢
    refine ite_congr ?_ (fun _ => rfl) fun _ => rfl
    rw [eq_iff_iff]
    omega
  | succ _ ih =>
    have hne : idx ≠ (offset + length) / vectorCapacity k := by omega
    have hnext : idx + 1 ≠ offset / vectorCapacity k := by omega
    have hmul : vectorCapacity k * (idx + 1) ≤ offset + length := by
      rw [← hend]
      exact le_trans (Nat.mul_le_mul_left _ (by omega)) (Nat.le_add_right _ _)
    rw [mul_add] at hmul
    have hvector := scanVector_apply u t output q (le_refl _) hpos
    have hle : (if idx = offset / vectorCapacity k then offset % vectorCapacity k else 0) ≤
        vectorCapacity k := by
      split
      · exact le_of_lt hstart
      · exact Nat.zero_le _
    rw [range'_succ, scanLoop]
    simp only [if_neg hne]
    generalize (if idx = offset / vectorCapacity k then offset % vectorCapacity k else 0) =
      start at hpos hvector hle ⊢
    rw [ih _ (by omega) (by omega) (by rw [if_neg hnext, mul_add]; omega)]
    -- a row of this vector, or one behind it
    by_cases hq : q < pos + (vectorCapacity k - start)
    · rw [if_neg (by omega), hvector]
      refine ite_congr ?_ (fun _ => rfl) fun _ => rfl
      rw [eq_iff_iff]
      omega
    · rw [if_neg (fun h => hq h.2)] at hvector
      rw [hvector]
      refine ite_congr ?_ (fun _ => rfl) fun _ => rfl
      rw [eq_iff_iff]
      omega

/-- A scan gives each position the value of the lookup of its row. -/
theorem scan_apply (output : Nat → V) (offset length q : Nat) :
    u.scan t output offset length q =
      if q < length then (u.lookup t (offset + q)).getD (output q) else output q := by
  unfold scan
  split
  · rename_i hempty
    simp [lookup, hempty]
  · have hdiv := Nat.div_le_div_right (c := vectorCapacity k) (Nat.le_add_right offset length)
    rw [scanLoop_apply u t q _ output (by omega) (le_refl _)
      (by rw [if_pos rfl, Nat.div_add_mod, add_zero])]
    simp

/-! ## The number of updated rows -/

/-- The entries of the nodes are rows of their vectors. -/
def RowsInVector : Prop :=
  ∀ nodes ∈ u.updates, ∀ n ∈ nodes, ∀ e ∈ n.rows, e.1 < vectorCapacity k

variable {u}

theorem RowsInVector.chain (h : u.RowsInVector) {n : VectorUpdateInfo V} (hn : n ∈ u.chain idx)
    (he : e ∈ n.rows) :
    e.1 < vectorCapacity k := by
  unfold UpdateInfo.chain at hn
  rw [getD_eq_getElem?_getD] at hn
  cases hnodes : u.updates[idx]? with
  | none => rw [hnodes] at hn; cases hn
  | some nodes =>
    rw [hnodes] at hn
    exact h nodes (mem_of_getElem? hnodes) n hn e he

theorem RowsInVector.setChain (h : u.RowsInVector) {nodes : List (VectorUpdateInfo V)}
    (hnodes : ∀ n ∈ nodes, ∀ e ∈ n.rows, e.1 < vectorCapacity k) :
    (u.setChain idx nodes).RowsInVector := by
  intro nodes' hmem
  rcases mem_or_eq_of_mem_set hmem with hmem | rfl
  · exact h nodes' hmem
  · exact hnodes

theorem mem_writeRows {row : Nat} {value : V} {rows : List (Nat × V)}
    (he : e ∈ VectorUpdateInfo.writeRows row value rows) : e = (row, value) ∨ e ∈ rows := by
  induction rows with
  | nil => exact .inl (mem_singleton.mp he)
  | cons _ _ ih =>
    unfold VectorUpdateInfo.writeRows at he
    split at he
    · rcases mem_cons.mp he with rfl | he
      · exact .inl rfl
      · exact .inr (mem_cons_of_mem _ he)
    · rcases mem_cons.mp he with rfl | he
      · exact .inr mem_cons_self
      · exact (ih he).imp_right (mem_cons_of_mem _)

theorem RowsInVector.update (h : u.RowsInVector) (t : Snapshot) (idx row : Nat) (value : V)
    (hrow : row < vectorCapacity k) : (u.update t idx row value).1.RowsInVector := by
  have hcreated : (u.getOrCreateUpdateNode idx).RowsInVector := by
    intro nodes hmem
    rcases mem_append.mp hmem with hmem | hmem
    · exact h nodes hmem
    · rw [eq_of_mem_replicate hmem]
      exact nofun
  unfold UpdateInfo.update
  dsimp only
  split
  · exact hcreated
  · refine hcreated.setChain fun n hn e he => ?_
    obtain ⟨_, hm, rfl⟩ := mem_map.mp hn
    split at he
    · rcases mem_writeRows he with rfl | he
      · exact hrow
      · exact hcreated.chain hm he
    · exact hcreated.chain hm he
  · refine hcreated.setChain fun n hn e he => ?_
    rcases mem_cons.mp hn with rfl | hn
    · rw [mem_singleton.mp he]
      exact hrow
    · exact hcreated.chain hn he

theorem isSome_lookup_iff (u : UpdateInfo k V) (t : Snapshot) (row : Nat) :
    (u.lookup t row).isSome ↔ ∃ n ∈ u.visibleNodes t (row / vectorCapacity k),
      row % vectorCapacity k ∈ n.rows.map Prod.fst := by
  rw [lookup_eq, lookupChain_eq_find, Option.isSome_map, find?_isSome]
  simp only [mem_flatMap, mem_map, beq_iff_eq]
  constructor
  · rintro ⟨e, ⟨n, hn, he⟩, heq⟩
    exact ⟨n, hn, e, he, heq⟩
  · rintro ⟨n, hn, e, he, heq⟩
    exact ⟨e, ⟨n, hn, he⟩, heq⟩

/-- The number that is returned is that of the positions of the updated rows. -/
theorem getNumUpdatedRows_eq (h : u.RowsInVector) (t : Snapshot) : u.getNumUpdatedRows t =
      (Set.image (· % vectorCapacity k) {row | (u.lookup t row).isSome}).ncard := by
  rw [getNumUpdatedRows, ← Set.ncard_coe_finset]
  congr 1
  ext i
  simp only [Finset.mem_coe, mem_toFinset, mem_flatMap, mem_range, Set.mem_image, isSome_lookup_iff]
  constructor
  · rintro ⟨idx, -, n, hn, hi⟩
    obtain ⟨e, he, rfl⟩ := mem_map.mp hi
    have hlt := h.chain (mem_of_mem_filter hn) he
    refine ⟨vectorCapacity k * idx + e.1, ⟨n, ?_, ?_⟩, ?_⟩
    · rwa [Nat.mul_add_div (vectorCapacity_pos k), Nat.div_eq_of_lt hlt]
    · rwa [Nat.mul_add_mod, Nat.mod_eq_of_lt hlt]
    · rw [Nat.mul_add_mod, Nat.mod_eq_of_lt hlt]
  · rintro ⟨row, ⟨n, hn, hi⟩, rfl⟩
    refine ⟨row / vectorCapacity k, ?_, n, hn, hi⟩
    by_contra hge
    have hnil := chain_of_length_le u (Nat.le_of_not_lt hge)
    rw [visibleNodes, hnil] at hn
    cases hn

theorem finite_updatedRows (u : UpdateInfo k V) (t : Snapshot) :
    {row | (u.lookup t row).isSome}.Finite := by
  refine (Set.finite_lt_nat (u.updates.length * vectorCapacity k)).subset fun row hrow => ?_
  by_contra hge
  have hnil := chain_of_length_le u ((Nat.le_div_iff_mul_le (vectorCapacity_pos k)).mpr
    (Nat.le_of_not_lt hge))
  rw [Set.mem_ofPred_eq, lookup_eq, hnil] at hrow
  cases hrow

end UpdateInfo

theorem rowsInVector_of_reachable (h : Reachable UpdateHistory.step {} Always s) :
    s.updateInfo.RowsInVector := by
  refine h.invariant (fun s => s.updateInfo.RowsInVector) nofun ?_
  rintro s call s' hinv - hs
  cases call with
  | update id row value =>
    obtain ⟨-, ⟨⟩⟩ := Option.ite_none_right_eq_some.mp hs
    have hupdate := hinv.update (s.table.snapshot id) (row / vectorCapacity k) _ value
      (Nat.mod_lt row (vectorCapacity_pos k))
    unfold UpdateHistory.update
    split
    all_goals
      rename_i heq
      rwa [heq] at hupdate
  | commitRecord =>
    obtain ⟨⟨_, _, _⟩, -, hs⟩ := Option.bind_eq_some_iff.mp hs
    simp only at hs
    split at hs
    · rename_i _ hcommit
      cases hs
      unfold commit at hcommit
      split at hcommit
      · cases hcommit
      · cases hcommit
        refine hinv.setChain fun n hn e he => ?_
        obtain ⟨_, hm, rfl⟩ := mem_map.mp hn
        split at he
        all_goals exact hinv.chain hm he
    · cases hs
  | rollbackRecord =>
    obtain ⟨⟨_, _⟩, -, rfl⟩ := Option.map_eq_some_iff.mp hs
    exact hinv.setChain fun n hn e he => hinv.chain (mem_of_mem_eraseP hn) he
  | begin | startCommit | finishCommit | startRollback | finishRollback =>
    obtain ⟨_, -, rfl⟩ := Option.map_eq_some_iff.mp hs
    exact hinv

/-- The count is right exactly if no two updated rows have the same position. -/
theorem getNumUpdatedRows_iff (h : Reachable UpdateHistory.step {} Always s) (t : Snapshot) :
    s.updateInfo.getNumUpdatedRows t = {row | (s.updateInfo.lookup t row).isSome}.ncard ↔
      Set.InjOn (· % vectorCapacity k) {row | (s.updateInfo.lookup t row).isSome} := by
  rw [getNumUpdatedRows_eq (rowsInVector_of_reachable h),
    Set.ncard_image_iff (s.updateInfo.finite_updatedRows t)]

/-- In every history a scan agrees with the lookups of its rows, and the number of updated
rows is right exactly if no two rows that a lookup finds updated have the same position in
different vectors. -/
theorem scan_and_count_exact_iff (h : Reachable UpdateHistory.step {} Always s) (t : Snapshot) :
    ((∀ output offset length q, s.updateInfo.scan t output offset length q =
        if q < length then (s.updateInfo.lookup t (offset + q)).getD (output q) else output q) ∧
      s.updateInfo.getNumUpdatedRows t = {row | (s.updateInfo.lookup t row).isSome}.ncard) ↔
    Set.InjOn (· % vectorCapacity k) {row | (s.updateInfo.lookup t row).isSome} := by
  rw [getNumUpdatedRows_iff h]
  exact and_iff_right (s.updateInfo.scan_apply t)

/-- One row is updated; the scan of its vector returns the value at its position. -/
theorem scan_and_count_exact_iff_sample :
    ∃ s : UpdateHistory 1 Nat, Reachable UpdateHistory.step {} Always s ∧
      s.updateInfo.scan ⟨startTransactionID + 1, 0⟩ (fun _ => 7) 0 2 1 = 10 ∧
      s.updateInfo.getNumUpdatedRows ⟨startTransactionID + 1, 0⟩ =
        {row | (s.updateInfo.lookup ⟨startTransactionID + 1, 0⟩ row).isSome}.ncard := by
  refine exists_reachable_of_run [.begin, .update (startTransactionID + 1) 1 10]
    (fun s => s.updateInfo.updates.length = 1 ∧
      s.updateInfo.lookup ⟨startTransactionID + 1, 0⟩ 1 = some 10) (by decide +kernel) ?_
  rintro s hs ⟨hlen, hlookup⟩
  -- only rows of the first vector are updated
  have hlt : ∀ row, (s.updateInfo.lookup ⟨startTransactionID + 1, 0⟩ row).isSome → row < 2 := by
    intro row hrow
    by_contra hge
    have hnil : s.updateInfo.chain (row / vectorCapacity 1) = [] :=
      chain_of_length_le _ (by rw [vectorCapacity]; omega)
    rw [lookup_eq, hnil] at hrow
    cases hrow
  obtain ⟨hscan, hcount⟩ := (scan_and_count_exact_iff hs ⟨startTransactionID + 1, 0⟩).mpr
    fun r hr r' hr' heq => by
      have hr := hlt r hr
      have hr' := hlt r' hr'
      simp only [vectorCapacity] at heq
      omega
  refine ⟨?_, hcount⟩
  rw [hscan, hlookup]
  rfl

/-- Rows 0 and 2, the first ones of two vectors of two rows, are counted as one. -/
theorem getNumUpdatedRows_misses_row :
    ¬ ∀ (k : Nat) (s : UpdateHistory k Nat), Reachable UpdateHistory.step {} Always s → ∀ t,
      s.updateInfo.getNumUpdatedRows t = {row | (s.updateInfo.lookup t row).isSome}.ncard := by
  intro hcount
  obtain ⟨s, hs, hp⟩ : ∃ s : UpdateHistory 1 Nat, Reachable UpdateHistory.step {} Always s ∧
      (s.updateInfo.lookup ⟨startTransactionID + 1, 0⟩ 0).isSome ∧
      (s.updateInfo.lookup ⟨startTransactionID + 1, 0⟩ 2).isSome :=
    reachable_of_run
      [.begin, .update (startTransactionID + 1) 0 10, .update (startTransactionID + 1) 2 20]
      (by decide +kernel)
  have hinj := (getNumUpdatedRows_iff hs _).mp (hcount 1 s hs ⟨startTransactionID + 1, 0⟩)
  exact absurd (hinj hp.1 hp.2 rfl) (by decide)

end Lbug.Storage
