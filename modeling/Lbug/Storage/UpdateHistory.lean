/-
  Storage/UpdateHistory.lean --- all histories of one `UpdateInfo`.

  Source: `storage/table/update_info.cpp`, called from `ColumnChunk::update`
  (`storage/table/column_chunk.cpp`) and `storage/undo_buffer.cpp`.

  Any number of transactions update rows, commit and roll back, record by record.
  Every update pushes one undo record, so a node that holds several rows is committed
  and rolled back several times; the first rollback unlinks it.

  Next to the chains the state carries what the calls mean: `written id row` is the
  value that transaction `id` last wrote to the row and did not roll back, and `owner`
  is the transaction that allocated a node.  A chain is ordered by creation while
  readers look for commit timestamps; the two agree for each row because conflict
  detection keeps the writers of a row apart in time (`Chained.rowOrder`).
-/
import Lbug.Foundation.Transition
import Lbug.Storage.UpdateInfo
import Lbug.Transaction.History
import Mathlib.Data.List.Pairwise

namespace Lbug.Storage

open Foundation Transaction List Function Option TxnTable UpdateInfo

universe u

/-- The undo record of an update: the vector and the node. -/
structure UpdateUndo where
  vectorIdx : Nat
  addr : Nat
  deriving DecidableEq, Repr

structure UpdateHistory (k : Nat) (V : Type u) where
  table : TxnTable UpdateUndo := {}
  updateInfo : UpdateInfo k V := {}
  owner : Nat → Nat := fun _ => 0
  written : Nat → Nat → Option V := fun _ _ => none

inductive UpdateCall (V : Type u) where
  | begin
  | update (id row : Nat) (value : V)
  | startCommit (id commitTS : Nat)
  | commitRecord (id : Nat)
  | finishCommit (id : Nat)
  | startRollback (id : Nat)
  | rollbackRecord (id : Nat)
  | finishRollback (id : Nat)
  deriving DecidableEq, Repr

namespace UpdateHistory

variable {k : Nat} {V : Type u} (s : UpdateHistory k V)

/-- `ColumnChunk::update`; an update that throws writes nothing and pushes nothing. -/
def update (id row : Nat) (value : V) : UpdateHistory k V :=
  match s.updateInfo.update (s.table.snapshot id) (row / vectorCapacity k)
      (row % vectorCapacity k) value with
  | (u, .error _) => { s with updateInfo := u }
  | (u, .ok addr) =>
    { table := s.table.push id ⟨row / vectorCapacity k, addr⟩
      updateInfo := u
      owner := Function.update s.owner addr id
      written := Function.update s.written id (Function.update (s.written id) row (some value)) }

/-- `UndoBuffer::rollbackVectorUpdateInfo`; the values that `id` wrote to the vector are
gone with its node. -/
def rollbackRecord (id : Nat) (record : UpdateUndo) : UpdateHistory k V :=
  { s with
    updateInfo := s.updateInfo.rollback record.vectorIdx id
    written := Function.update s.written id fun row =>
      if row / vectorCapacity k = record.vectorIdx then none else s.written id row }

def step : UpdateCall V → Option (UpdateHistory k V)
  | .begin => s.table.begin.map fun table => { s with table }
  | .update id row value =>
    if (s.table.txn id).phase = .active then some (s.update id row value) else none
  | .startCommit id cts => (s.table.startCommit id cts).map fun table => { s with table }
  | .commitRecord id => (s.table.nextPending id).bind fun (record, cts, table) =>
      match s.updateInfo.commit record.vectorIdx record.addr cts with
      | .ok updateInfo => some { s with table, updateInfo }
      | .error _ => none
  | .finishCommit id => (s.table.finishCommit id).map fun table => { s with table }
  | .startRollback id => (s.table.startRollback id).map fun table => { s with table }
  | .rollbackRecord id => (s.table.nextUndo id).map fun (record, table) =>
      ({ s with table } : UpdateHistory k V).rollbackRecord id record
  | .finishRollback id => (s.table.finishRollback id).map fun table => { s with table }

def lookup (id row : Nat) : Option V :=
  s.updateInfo.lookup (s.table.snapshot id) row

/-- `other` committed a value for the row at `cts`, in the snapshot of `id`. -/
def CommittedValue (id row other cts : Nat) (value : V) : Prop :=
  (s.table.txn other).phase = .committed cts ∧ cts ≤ (s.table.txn id).startTS ∧
    s.written other row = some value

/-- What `id` must read: its own last value, otherwise the committed value with the
largest timestamp in its snapshot, otherwise nothing. -/
inductive Expected (id row : Nat) : Option V → Prop
  | own {value : V} (h : s.written id row = some value) : Expected id row (some value)
  | committed {other cts : Nat} {value : V} (hown : s.written id row = none)
      (h : s.CommittedValue id row other cts value)
      (hmax : ∀ other' cts' value', s.CommittedValue id row other' cts' value' → cts' ≤ cts) :
      Expected id row (some value)
  | nothing (hown : s.written id row = none)
      (h : ∀ other cts value, ¬ s.CommittedValue id row other cts value) : Expected id row none

/-! ## The invariant -/

/-- `newer` may stand above `older` in a chain. -/
structure Above (newer older : VectorUpdateInfo V) : Prop where
  owner_ne : s.owner newer.addr ≠ s.owner older.addr
  /-- the newer node was created after the transaction of the older one had started -/
  stack : ¬ s.table.CommittedBefore (s.owner newer.addr) (s.owner older.addr)
  /-- two transactions that hold the same row follow each other in time -/
  rowOrder : ∀ row, (newer.read row).isSome → (older.read row).isSome →
    s.table.CommittedBefore (s.owner older.addr) (s.owner newer.addr)

structure Chained : Prop where
  wf : s.table.WellFormed
  addr_lt : ∀ i, ∀ n ∈ s.updateInfo.chain i, n.addr < s.updateInfo.nextAddr
  version : ∀ i, ∀ n ∈ s.updateInfo.chain i, s.table.VersionOf (s.owner n.addr) n.version
  above : ∀ i, (s.updateInfo.chain i).Pairwise s.Above
  written : ∀ a row value, s.written a row = some value ↔
    ∃ n ∈ s.updateInfo.chain (row / vectorCapacity k),
      s.owner n.addr = a ∧ n.read (row % vectorCapacity k) = some value
  recorded : ∀ i, ∀ n ∈ s.updateInfo.chain i, s.table.CommitBegun (s.owner n.addr) = false →
    ⟨i, n.addr⟩ ∈ (s.table.txn (s.owner n.addr)).undo
  /-- what a commit under way has not moved to its timestamp is still pending -/
  pending : ∀ i, ∀ n ∈ s.updateInfo.chain i, ∀ cts,
    (s.table.txn (s.owner n.addr)).phase = .committing cts →
    n.version = cts ∨ ⟨i, n.addr⟩ ∈ (s.table.txn (s.owner n.addr)).pending
  pendingUndo : ∀ id cts, (s.table.txn id).phase = .committing cts →
    ∀ record ∈ (s.table.txn id).pending, record ∈ (s.table.txn id).undo
  record : ∀ id, ∀ record ∈ (s.table.txn id).undo, s.owner record.addr = id ∧
    record.addr < s.updateInfo.nextAddr ∧ record.vectorIdx < s.updateInfo.updates.length

theorem chained_init : Chained ({} : UpdateHistory k V) where
  wf := wellFormed_init
  addr_lt := fun _ _ h => by cases h
  version := fun _ _ h => by cases h
  above := fun _ => List.Pairwise.nil
  written := fun _ _ _ => ⟨nofun, fun ⟨_, h, _⟩ => by cases h⟩
  recorded := fun _ _ h => by cases h
  pending := fun _ _ h => by cases h
  pendingUndo := fun _ _ h => by cases h
  record := fun _ _ h => by cases h

variable {s} {s' : UpdateHistory k V} {i cts row : Nat} {n : VectorUpdateInfo V}
  {u : UpdateInfo k V}
  {id : Nat}

theorem Above.congr {newer older newer' older' : VectorUpdateInfo V} (h : s.Above newer older)
    (hnew : s'.owner newer'.addr = s.owner newer.addr)
    (hold : s'.owner older'.addr = s.owner older.addr)
    (hiff : ∀ {a b}, b = s.owner newer.addr ∨ b = s.owner older.addr →
      (s'.table.CommittedBefore a b ↔ s.table.CommittedBefore a b))
    (hread : ∀ row, (newer'.read row).isSome → (older'.read row).isSome →
      ((newer.read row).isSome ∧ (older.read row).isSome) ∨
        s.table.CommittedBefore (s.owner older.addr) (s.owner newer.addr) :=
      by exact fun _ h1 h2 => .inl ⟨h1, h2⟩) :
    s'.Above newer' older' where
  owner_ne := by
    rw [hnew, hold]
    exact h.owner_ne
  stack := by
    rw [hnew, hold, hiff (.inr rfl)]
    exact h.stack
  rowOrder := by
    intro row h1 h2
    rw [hnew, hold, hiff (.inl rfl)]
    rcases hread row h1 h2 with ⟨h1, h2⟩ | hbefore
    · exact h.rowOrder row h1 h2
    · exact hbefore

theorem pairwise_or {α : Type u} {R : α → α → Prop} {l : List α} {a b : α} (h : l.Pairwise R)
    (ha : a ∈ l) (hb : b ∈ l) (hne : a ≠ b) : R a b ∨ R b a :=
  have : Std.Symm fun a b => R a b ∨ R b a := ⟨fun _ _ => Or.symm⟩
  (h.imp (S := fun a b => R a b ∨ R b a) Or.inl).forall ha hb hne

/-- A transaction has at most one node in a chain. -/
theorem Chained.eq_of_owner (h : s.Chained) {m : VectorUpdateInfo V} (hm : m ∈ s.updateInfo.chain i)
    (hn : n ∈ s.updateInfo.chain i) (howner : s.owner m.addr = s.owner n.addr) : m = n := by
  by_contra hne
  rcases pairwise_or (h.above i) hm hn hne with ha | ha
  · exact ha.owner_ne howner
  · exact ha.owner_ne howner.symm

theorem Chained.owner_eq (h : s.Chained) (hn : n ∈ s.updateInfo.chain i)
    (hid : s.table.VersionOf id id) (hver : n.version = id) : s.owner n.addr = id := by
  have hv := h.version i n hn
  rw [hver] at hv
  exact h.wf.version_inj hv hid

/-! ## Steps of the transactions only -/

theorem Chained.changes (h : s.Chained) (hn : n ∈ s.updateInfo.chain i) :
    s.table.Recorded (s.owner n.addr) n.version (· = ⟨i, n.addr⟩) :=
  ⟨h.version i n hn, by simpa using h.recorded i n hn, by simpa using h.pending i n hn⟩

theorem Chained.of_changes (wf : s.table.WellFormed)
    (addr_lt : ∀ i, ∀ n ∈ s.updateInfo.chain i, n.addr < s.updateInfo.nextAddr)
    (changes : ∀ i, ∀ n ∈ s.updateInfo.chain i,
      s.table.Recorded (s.owner n.addr) n.version (· = ⟨i, n.addr⟩))
    (above : ∀ i, (s.updateInfo.chain i).Pairwise s.Above)
    (written : ∀ a row value, s.written a row = some value ↔
      ∃ n ∈ s.updateInfo.chain (row / vectorCapacity k),
        s.owner n.addr = a ∧ n.read (row % vectorCapacity k) = some value)
    (visits : s.table.VisitsUndo)
    (record : ∀ id, ∀ record ∈ (s.table.txn id).undo, s.owner record.addr = id ∧
      record.addr < s.updateInfo.nextAddr ∧ record.vectorIdx < s.updateInfo.updates.length) :
    s.Chained :=
  ⟨wf, addr_lt, fun i n hn => (changes i n hn).version, above, written,
    fun i n hn => by simpa using (changes i n hn).undo,
    fun i n hn => by simpa using (changes i n hn).pending, visits, record⟩

theorem Chained.retable (h : s.Chained) {table : TxnTable UpdateUndo}
    (hkeeps : s.table.Keeps table) : Chained { s with table } :=
  .of_changes hkeeps.wf h.addr_lt (fun _ _ hn => hkeeps.recorded (h.changes hn))
    (fun i => (h.above i).imp_of_mem fun {m n} hm hn ha =>
      ha.congr rfl rfl (fun hb => hkeeps.before (by
        rcases hb with rfl | rfl
        · exact (h.version i m hm).started
        · exact (h.version i n hn).started)))
    h.written (hkeeps.visits h.pendingUndo)
    fun id record hmem => h.record id record (hkeeps.mem_undo hmem)

/-! ## Updating -/

section Update

variable {id row : Nat} {value : V} {nodes : List (VectorUpdateInfo V)}

/-- A node that holds a row which `id` may update belongs to `id` or to a transaction
that committed before `id` started. -/
theorem Chained.holder (h : s.Chained) (hactive : (s.table.txn id).phase = .active)
    (hn : n ∈ s.updateInfo.chain i) (hver : n.version = id ∨ n.version ≤ (s.table.txn id).startTS)
    (hne : s.owner n.addr ≠ id) :
    s.table.CommittedBefore (s.owner n.addr) id := by
  have hsees := (h.wf.visible_iff_sees (by simp [hactive])
    (by simp [TxnTable.CommitBegun, hactive]) (h.version i n hn)).mp (visible_iff.mpr hver)
  exact hsees.resolve_left hne

/-- The nodes have what those of the vector of `row` have, and the value of `id` at the row. -/
def WriteOf (s : UpdateHistory k V) (owner : Nat → Nat) (nodes : List (VectorUpdateInfo V))
    (id row : Nat) (value : V) : Prop :=
  ∀ a j v, (∃ n ∈ nodes, owner n.addr = a ∧ n.read j = some v) ↔
    if a = id ∧ j = row % vectorCapacity k then v = value
    else ∃ n ∈ s.updateInfo.chain (row / vectorCapacity k), s.owner n.addr = a ∧ n.read j = some v

/-- The nodes of the vector of a row. -/
abbrev chainOf (s : UpdateHistory k V) (row : Nat) : List (VectorUpdateInfo V) :=
  s.updateInfo.chain (row / vectorCapacity k)

/-- Writing a row of a vector changes what its transaction has written to that row. -/
theorem written_update_iff {owner : Nat → Nat}
    (hold : ∀ a r v, s.written a r = some v ↔ ∃ n ∈ s.updateInfo.chain (r / vectorCapacity k),
        s.owner n.addr = a ∧ n.read (r % vectorCapacity k) = some v)
    (hothers : ∀ i, ∀ n ∈ s.updateInfo.chain i, owner n.addr = s.owner n.addr)
    (hnodes : s.WriteOf owner nodes id row value) (a r : Nat) (v : V) :
    Function.update s.written id (Function.update (s.written id) row (some value)) a r = some v ↔
      ∃ n ∈ (if r / vectorCapacity k = row / vectorCapacity k then nodes
          else s.updateInfo.chain (r / vectorCapacity k)),
        owner n.addr = a ∧ n.read (r % vectorCapacity k) = some v := by
  by_cases hvec : r / vectorCapacity k = row / vectorCapacity k
  · rw [if_pos hvec, hnodes a _ v]
    rcases eq_or_ne a id with rfl | ha
    · rw [update_self]
      rcases eq_or_ne r row with rfl | hr
      · simp [eq_comm]
      · have hmod : r % vectorCapacity k ≠ row % vectorCapacity k := fun hmod =>
          hr (Nat.ext_div_mod hvec hmod)
        rw [update_of_ne hr, if_neg (by simp [hmod]), hold, hvec]
    · rw [update_of_ne ha, if_neg (by simp [ha]), hold, hvec]
  · rw [if_neg hvec]
    have hr : r ≠ row := by
      rintro rfl
      exact hvec rfl
    have hsame : Function.update s.written id (Function.update (s.written id) row (some value)) a r
        = s.written a r := by
      rcases eq_or_ne a id with rfl | ha
      · simp [hr]
      · simp [ha]
    rw [hsame, hold]
    exact exists_congr fun n => and_congr_right fun hn => by rw [hothers _ n hn]

variable (h : s.Chained) {addr : Nat}

include h

/-- The chains after an update: one chain has new nodes, and the node at `addr` belongs
to the transaction. -/
theorem Chained.updated (hactive : (s.table.txn id).phase = .active)
    (hchain : ∀ i, u.chain i = if i = row / vectorCapacity k then nodes else s.updateInfo.chain i)
    (hlen : s.updateInfo.updates.length ≤ u.updates.length)
    (hlt : row / vectorCapacity k < u.updates.length) (hnext : s.updateInfo.nextAddr ≤ u.nextAddr)
    (haddr : addr < u.nextAddr)
    (hothers : ∀ a, a < s.updateInfo.nextAddr → Function.update s.owner addr id a = s.owner a)
    (hnodes : ∀ n ∈ nodes, (n.addr = addr ∧ n.version = id) ∨
      ∃ m ∈ s.chainOf row, m.addr = n.addr ∧ m.version = n.version)
    (habove : nodes.Pairwise (Above { s with owner := Function.update s.owner addr id }))
    (hwritten : s.WriteOf (Function.update s.owner addr id) nodes id row value) :
    Chained {
      table := s.table.push id ⟨row / vectorCapacity k, addr⟩
      updateInfo := u
      owner := Function.update s.owner addr id
      written := Function.update s.written id
        (Function.update (s.written id) row (some value)) } := by
  have hstarted : (s.table.txn id).phase ≠ .notStarted := by simp [hactive]
  -- every node is an old one or the one at `addr`
  have hmem : ∀ i, ∀ n ∈ u.chain i, (i = row / vectorCapacity k ∧ n.addr = addr ∧ n.version = id) ∨
      ∃ m ∈ s.updateInfo.chain i, m.addr = n.addr ∧ m.version = n.version := by
    intro i n hn
    rw [hchain] at hn
    split_ifs at hn with heq
    · subst heq
      exact (hnodes n hn).imp_left fun hnew => ⟨rfl, hnew⟩
    · exact .inr ⟨n, hn, rfl, rfl⟩
  have hkeep : ∀ i, ∀ m ∈ s.updateInfo.chain i,
      Function.update s.owner addr id m.addr = s.owner m.addr :=
    fun i m hm => hothers _ (h.addr_lt i m hm)
  have hbefore : ∀ {a b}, (s.table.push id ⟨row / vectorCapacity k, addr⟩).CommittedBefore a b ↔
      s.table.CommittedBefore a b := setUndo_committedBefore_iff
  apply Chained.of_changes
  · exact (advance_setUndo _ h.wf hstarted).wf
  · intro i n hn
    rcases hmem i n hn with ⟨_, heq, _⟩ | ⟨m, hm, heq, _⟩
    · rw [heq]
      exact haddr
    · rw [← heq]
      exact Nat.lt_of_lt_of_le (h.addr_lt i m hm) hnext
  · intro i n hn
    show TxnTable.Recorded _ (Function.update s.owner addr id n.addr) n.version _
    rcases hmem i n hn with ⟨rfl, heq, hver⟩ | ⟨m, hm, heq, hver⟩
    · rw [heq, update_self, hver]
      exact recorded_push h.wf hactive rfl
    · rw [← heq, ← hver, hkeep i m hm]
      exact (h.changes hm).push h.wf hstarted
  · intro i
    rw [hchain]
    split
    · exact habove.imp fun ha => ha.congr rfl rfl fun _ => hbefore
    · exact (h.above i).imp_of_mem fun {m n} hm hn ha =>
        ha.congr (hkeep i m hm) (hkeep i n hn) fun _ => hbefore
  · intro a r v
    rw [hchain]
    exact written_update_iff h.written hkeep hwritten a r v
  · exact TxnTable.VisitsUndo.push h.pendingUndo
  · intro a record hrec
    rcases mem_push_undo.mp hrec with ⟨rfl, rfl⟩ | hrec
    · exact ⟨update_self _ _ _, haddr, hlt⟩
    · obtain ⟨howner, hlt', hidx⟩ := h.record a record hrec
      exact ⟨(hothers _ hlt').trans howner, Nat.lt_of_lt_of_le hlt' hnext,
        Nat.lt_of_lt_of_le hidx hlen⟩

/-- An update that throws leaves the chains as they are. -/
theorem Chained.getOrCreate (vectorIdx : Nat) :
    Chained { s with updateInfo := s.updateInfo.getOrCreateUpdateNode vectorIdx } := by
  have hchain : ∀ i, (s.updateInfo.getOrCreateUpdateNode vectorIdx).chain i =
      s.updateInfo.chain i := fun i => chain_getOrCreate _ _ i
  refine .of_changes h.wf (fun i n hn => h.addr_lt i n (hchain i ▸ hn))
    (fun i n hn => h.changes (hchain i ▸ hn)) (fun i => ?_) (fun a r v => ?_) h.pendingUndo
    fun a record hmem => ?_
  · rw [hchain]
    exact (h.above i).imp fun ha => ha.congr rfl rfl fun _ => Iff.rfl
  · rw [hchain]
    exact h.written a r v
  · obtain ⟨h1, h2, h3⟩ := h.record a record hmem
    exact ⟨h1, h2, Nat.lt_of_lt_of_le h3 (length_le_getOrCreate _ _)⟩

variable (hactive : (s.table.txn id).phase = .active)

include hactive

/-- The transaction already has a node `n₀` in the chain: the value goes there. -/
theorem Chained.updateOwn (value : V) {n₀ : VectorUpdateInfo V}
    (hn₀ : n₀ ∈ s.chainOf row) (hown : n₀.version = id)
    (hfree : ∀ n ∈ s.chainOf row,
      (n.read (row % vectorCapacity k)).isSome →
      n.version = id ∨ n.version ≤ (s.table.txn id).startTS) :
    ((s.chainOf row).map fun n =>
        if n.addr = n₀.addr then n.write (row % vectorCapacity k) value else n).Pairwise s.Above ∧
      s.WriteOf s.owner ((s.chainOf row).map fun n =>
        if n.addr = n₀.addr then n.write (row % vectorCapacity k) value else n) id row value := by
  have hid := versionOf_self (.inl hactive)
  have howner := h.owner_eq hn₀ hid hown
  have hmine : ∀ n ∈ s.chainOf row, s.owner n.addr = id → n = n₀ :=
    fun n hn heq => h.eq_of_owner hn hn₀ (heq.trans howner.symm)
  have hread : ∀ (n : VectorUpdateInfo V) (j : Nat),
      (if n.addr = n₀.addr then n.write (row % vectorCapacity k) value else n).read j
      = if n.addr = n₀.addr ∧ j = row % vectorCapacity k then some value else n.read j := by
    intro n j
    by_cases hn : n.addr = n₀.addr
    · simp [hn, VectorUpdateInfo.read_write]
    · simp [hn]
  have haddr' : ∀ n : VectorUpdateInfo V,
      (if n.addr = n₀.addr then n.write (row % vectorCapacity k) value else n).addr = n.addr := by
    intro n
    split <;> rfl
  refine ⟨?_, ?_⟩
  · rw [pairwise_map]
    refine (h.above _).imp_of_mem fun {m n} hm hn ha => ?_
    refine ha.congr (by rw [haddr']) (by rw [haddr']) (fun _ => Iff.rfl) fun j h1 h2 => ?_
    rw [hread] at h1 h2
    by_cases hm₀ : m.addr = n₀.addr ∧ j = row % vectorCapacity k
    · -- the written node is the newer one: older holders committed before the start
      have hn₁ : ¬ (n.addr = n₀.addr ∧ j = row % vectorCapacity k) := fun hn₁ =>
        ha.owner_ne (by rw [hm₀.1, hn₁.1])
      rw [if_neg hn₁, hm₀.2] at h2
      have hne : s.owner n.addr ≠ id := fun heq => hn₁ ⟨by rw [hmine n hn heq], hm₀.2⟩
      rw [hm₀.1, howner]
      exact .inr (h.holder hactive hn (hfree n hn h2) hne)
    · rw [if_neg hm₀] at h1
      by_cases hn₁ : n.addr = n₀.addr ∧ j = row % vectorCapacity k
      · -- no newer node may hold the row
        rw [hn₁.2] at h1
        have hne : s.owner m.addr ≠ id := fun heq => hm₀ ⟨by rw [hmine m hm heq], hn₁.2⟩
        have hbefore := h.holder hactive hm (hfree m hm h1) hne
        rw [← howner, ← hn₁.1] at hbefore
        exact absurd hbefore ha.stack
      · rw [if_neg hn₁] at h2
        exact .inl ⟨h1, h2⟩
  · intro a j v
    simp only [List.mem_map, exists_exists_and_eq_and, haddr', hread]
    split_ifs with hhit
    · obtain ⟨rfl, rfl⟩ := hhit
      constructor
      · rintro ⟨n, hn, hna, hval⟩
        rw [if_pos ⟨by rw [hmine n hn hna], rfl⟩] at hval
        exact (some.inj hval).symm
      · rintro rfl
        exact ⟨n₀, hn₀, howner, by simp⟩
    · refine exists_congr fun n => and_congr_right fun hn => and_congr_right fun hna => ?_
      rw [if_neg]
      rintro ⟨heq, hj⟩
      exact hhit ⟨by rw [← hna, heq, howner], hj⟩

/-- The transaction has no node in the chain: a new one is put in front. -/
theorem Chained.updateNew (value : V) (hnone : ∀ n ∈ s.chainOf row, n.version ≠ id)
    (hfree : ∀ n ∈ s.chainOf row,
      (n.read (row % vectorCapacity k)).isSome →
      n.version = id ∨ n.version ≤ (s.table.txn id).startTS)
    (haddr : ∀ n ∈ s.chainOf row, n.addr ≠ addr) :
    ((⟨addr, id, [(row % vectorCapacity k, value)]⟩ : VectorUpdateInfo V) ::
        s.chainOf row).Pairwise
        (Above { s with owner := Function.update s.owner addr id }) ∧
      s.WriteOf (Function.update s.owner addr id) (⟨addr, id, [(row % vectorCapacity k, value)]⟩ ::
        s.chainOf row) id row value := by
  have hid := versionOf_self (.inl hactive)
  have hforeign : ∀ n ∈ s.chainOf row, s.owner n.addr ≠ id := by
    intro n hn heq
    have hv := h.version _ n hn
    rw [heq] at hv
    simp only [TxnTable.VersionOf, hactive] at hv
    exact hnone n hn hv
  have hkeep : ∀ n ∈ s.chainOf row,
      Function.update s.owner addr id n.addr = s.owner n.addr :=
    fun n hn => update_of_ne (haddr n hn) _ _
  have hread : ∀ j, (⟨addr, id, [(row % vectorCapacity k, value)]⟩ : VectorUpdateInfo V).read j =
      if j = row % vectorCapacity k then some value else none := by
    intro j
    by_cases hj : j = row % vectorCapacity k
    · simp [VectorUpdateInfo.read, hj]
    · simp [VectorUpdateInfo.read, hj, Ne.symm hj]
  refine ⟨pairwise_cons.mpr ⟨fun n hn => ?_, ?_⟩, ?_⟩
  · constructor
    · show Function.update s.owner addr id addr ≠ Function.update s.owner addr id n.addr
      rw [update_self, hkeep n hn]
      exact (hforeign n hn).symm
    · show ¬ s.table.CommittedBefore (Function.update s.owner addr id addr) _
      rw [update_self]
      rintro ⟨cts, hc, _⟩
      rw [commitTS_eq_some, hactive] at hc
      cases hc
    · intro j h1 h2
      show s.table.CommittedBefore (Function.update s.owner addr id n.addr)
        (Function.update s.owner addr id addr)
      rw [update_self, hkeep n hn]
      rw [hread] at h1
      split_ifs at h1 with hj
      · subst hj
        exact h.holder hactive hn (hfree n hn h2) (hforeign n hn)
      · cases h1
  · exact (h.above _).imp_of_mem fun {m n} hm hn ha =>
      ha.congr (hkeep m hm) (hkeep n hn) fun _ => Iff.rfl
  · intro a j v
    simp only [mem_cons, exists_eq_or_imp, update_self, hread]
    have hrest : (∃ n ∈ s.chainOf row,
        Function.update s.owner addr id n.addr = a ∧ n.read j = some v) ↔
        ∃ n ∈ s.chainOf row, s.owner n.addr = a ∧ n.read j = some v :=
      exists_congr fun n => and_congr_right fun hn => by rw [hkeep n hn]
    rw [hrest]
    rcases eq_or_ne a id with rfl | ha
    · have hno : ¬ ∃ n ∈ s.chainOf row, s.owner n.addr = a ∧
          n.read j = some v := by
        rintro ⟨n, hn, heq, _⟩
        exact hforeign n hn heq
      by_cases hj : j = row % vectorCapacity k
      · simp only [hj, if_true, true_and, some.injEq]
        rw [hj] at hno
        rw [or_iff_left hno, eq_comm]
      · simp [hj]
    · simp [ha, Ne.symm ha]

theorem Chained.update : Chained (s.update id row value) := by
  have hchain : ∀ i, (s.updateInfo.getOrCreateUpdateNode (row / vectorCapacity k)).chain i =
      s.updateInfo.chain i := fun i => chain_getOrCreate _ _ i
  have hlt := lt_length_getOrCreate s.updateInfo (row / vectorCapacity k)
  have hlen := length_le_getOrCreate s.updateInfo (row / vectorCapacity k)
  unfold UpdateHistory.update UpdateInfo.update
  simp only [hchain]
  cases hfind : findOwn (s.table.snapshot id) (row % vectorCapacity k)
      (s.chainOf row) none with
  | error e => exact h.getOrCreate _
  | ok res =>
    obtain ⟨hfree, hres⟩ := findOwn_ok hfind
    rcases hres with ⟨rfl, hnone⟩ | ⟨n₀, hn₀, hown, rfl⟩
    · have hnew : ∀ n ∈ s.chainOf row,
          n.addr ≠ s.updateInfo.nextAddr := fun n hn => Nat.ne_of_lt (h.addr_lt _ n hn)
      obtain ⟨habove, hwritten⟩ := h.updateNew hactive value hnone hfree hnew
      refine h.updated hactive (fun i => ?_) (by simpa using hlen) (by simpa using hlt)
        (Nat.le_succ _) (Nat.lt_succ_self _) (fun a ha => ?_) (fun n hn => ?_) habove hwritten
      · refine (chain_setChain _ _ hlt i).trans ?_
        rw [hchain]
        rfl
      · exact update_of_ne (Nat.ne_of_lt ha) _ _
      · rcases mem_cons.mp hn with rfl | hn
        · exact .inl ⟨rfl, rfl⟩
        · exact .inr ⟨n, hn, rfl, rfl⟩
    · obtain ⟨habove, hwritten⟩ := h.updateOwn hactive value hn₀ hown hfree
      have hid := versionOf_self (.inl hactive)
      have howner := h.owner_eq hn₀ hid hown
      have hsame : Function.update s.owner n₀.addr id = s.owner := by
        rw [← howner, update_eq_self]
      refine h.updated hactive (fun i => ?_) (by simpa using hlen) (by simpa using hlt)
        (Nat.le_refl _) (h.addr_lt _ n₀ hn₀) (fun a _ => by rw [hsame]) (fun n hn => ?_)
        (by rw [hsame]; exact habove) (by rw [hsame]; exact hwritten)
      · rw [chain_setChain _ _ hlt i, hchain]
      · obtain ⟨m, hm, rfl⟩ := mem_map.mp hn
        refine .inr ⟨m, hm, ?_⟩
        split
        · exact ⟨rfl, rfl⟩
        · exact ⟨rfl, rfl⟩

end Update

/-! ## Visiting a record -/

section Visit

variable {id : Nat} {record : UpdateUndo} {table : TxnTable UpdateUndo}

/-- The vector of a pending record has an update node, so its commit does not throw. -/
theorem Chained.commit_ok (h : s.Chained)
    (hs : s.table.nextPending id = some (record, cts, table)) :
    s.updateInfo.commit record.vectorIdx record.addr cts =
      .ok (s.updateInfo.setChain record.vectorIdx ((s.updateInfo.chain record.vectorIdx).map
        fun n => if n.addr = record.addr then { n with version := cts } else n)) := by
  obtain ⟨hphase, _, hpending, -⟩ := nextPending_eq_some hs
  have hmem := h.pendingUndo id cts hphase record (hpending ▸ mem_cons_self)
  have hlt := (h.record id record hmem).2.2
  rw [commit, if_neg (Nat.not_le_of_lt hlt)]

/-- A node of vector `i` gets the timestamp if the record points to it. -/
def stamp (record : UpdateUndo) (cts i : Nat) (n : VectorUpdateInfo V) : VectorUpdateInfo V :=
  if i = record.vectorIdx ∧ n.addr = record.addr then { n with version := cts } else n

@[simp] theorem stamp_addr : (stamp record cts i n).addr = n.addr := by
  unfold stamp
  split <;> rfl

@[simp] theorem stamp_read (j : Nat) : (stamp record cts i n).read j = n.read j := by
  unfold stamp
  split <;> rfl

theorem chain_commit (hlt : record.vectorIdx < s.updateInfo.updates.length) (cts i : Nat) :
    (s.updateInfo.setChain record.vectorIdx ((s.updateInfo.chain record.vectorIdx).map fun n =>
        if n.addr = record.addr then { n with version := cts } else n)).chain i =
      (s.updateInfo.chain i).map (stamp record cts i) := by
  rw [chain_setChain _ _ hlt]
  split_ifs with heq
  · subst heq
    exact map_congr_left fun n _ => by simp [stamp]
  · exact (map_id'' (fun n => if_neg fun h => heq h.1) _).symm

theorem Chained.commitRecord (h : s.Chained)
    (hs : s.table.nextPending id = some (record, cts, table))
    (hu : s.updateInfo.commit record.vectorIdx record.addr cts = .ok u) :
    Chained { s with table, updateInfo := u } := by
  rw [h.commit_ok hs] at hu
  cases hu
  obtain ⟨hphase, rest, hpending, rfl⟩ := nextPending_eq_some hs
  have hmem := h.pendingUndo id cts hphase record (hpending ▸ mem_cons_self)
  obtain ⟨howner, -, hlt⟩ := h.record id record hmem
  have hchain := chain_commit hlt cts
  apply Chained.of_changes
  · exact (advance_setPending rest h.wf (by simp [hphase])).wf
  · intro i n hn
    obtain ⟨m, hm, rfl⟩ := mem_map.mp (hchain i ▸ hn)
    rw [stamp_addr]
    exact h.addr_lt i m hm
  · intro i n hn
    obtain ⟨_, hm, rfl⟩ := mem_map.mp (hchain i ▸ hn)
    simp only [stamp_addr]
    unfold stamp
    split_ifs with hrec
    · rw [hrec.2, howner]
      exact recorded_commitTS (by simpa using hphase)
    · exact (h.changes hm).setPending h.wf hphase hpending fun _ heq =>
        absurd (by rw [heq]; exact ⟨rfl, rfl⟩) hrec
  · intro i
    rw [hchain, pairwise_map]
    exact (h.above i).imp fun ha => ha.congr (by simp) (by simp)
      (fun _ => setPending_committedBefore_iff) fun row h1 h2 => .inl ⟨by
        simpa using h1, by simpa using h2⟩
  · intro a r v
    rw [h.written]
    rw [hchain]
    simp
  · exact TxnTable.VisitsUndo.setPending h.pendingUndo hpending
  · simpa using h.record

/-- After a rollback has unlinked the node of `id`, none is left in the chain. -/
theorem Chained.owner_ne_of_eraseP (h : s.Chained) (hphase : (s.table.txn id).phase = .rollingBack)
    (hn : n ∈ (s.updateInfo.chain i).eraseP fun n => n.version == id) : s.owner n.addr ≠ id := by
  intro heq
  have hid := versionOf_self (.inr hphase)
  have hmem := mem_of_mem_eraseP hn
  have hver : n.version = id := by
    have hv := h.version i n hmem
    rw [heq] at hv
    simpa [TxnTable.VersionOf, hphase, Phase.Marks] using hv
  obtain ⟨m, _, _, hnewer, hm, hsplit, herase⟩ :=
    exists_of_eraseP (p := fun n => n.version == id) hmem (by simpa using hver)
  have hmver : m.version = id := by simpa using hm
  rw [herase] at hn
  rcases mem_append.mp hn with hn | hn
  · exact hnewer n hn (by simpa using hver)
  -- the erased node and `n` would be two nodes of one transaction
  have habove := h.above i
  rw [hsplit] at habove
  have hmn := (pairwise_cons.mp (pairwise_append.mp habove).2.1).1 n hn
  have hmowner := h.owner_eq (by rw [hsplit]; simp) hid hmver
  exact hmn.owner_ne (hmowner.trans heq.symm)

theorem Chained.rollbackRecord (h : s.Chained) (hs : s.table.nextUndo id = some (record, table)) :
    Chained (({ s with table } : UpdateHistory k V).rollbackRecord id record) := by
  obtain ⟨hphase, rest, hundo, rfl⟩ := nextUndo_eq_some hs
  obtain ⟨-, -, hlt⟩ := h.record id record (hundo ▸ mem_cons_self)
  have hid := versionOf_self (.inr hphase)
  have hchain : ∀ i, (s.updateInfo.rollback record.vectorIdx id).chain i =
      if i = record.vectorIdx then (s.updateInfo.chain i).eraseP fun n => n.version == id
      else s.updateInfo.chain i := by
    intro i
    rw [rollback, chain_setChain _ _ hlt]
    split_ifs with heq
    · rw [heq]
    · rfl
  have hsub : ∀ i, ((s.updateInfo.rollback record.vectorIdx id).chain i).Sublist
      (s.updateInfo.chain i) := by
    intro i
    rw [hchain]
    split
    · exact eraseP_sublist
    · exact List.Sublist.refl _
  have hold : ∀ i, ∀ n ∈ (s.updateInfo.rollback record.vectorIdx id).chain i,
      n ∈ s.updateInfo.chain i := fun i n hn => (hsub i).subset hn
  -- the transaction has no node left in the vector of the record
  have hgone : ∀ n ∈ (s.updateInfo.rollback record.vectorIdx id).chain record.vectorIdx,
      s.owner n.addr ≠ id := by
    intro n hn
    rw [hchain, if_pos rfl] at hn
    exact h.owner_ne_of_eraseP hphase hn
  have hkept : ∀ i, ∀ n ∈ s.updateInfo.chain i, (s.owner n.addr = id → i ≠ record.vectorIdx) →
      n ∈ (s.updateInfo.rollback record.vectorIdx id).chain i := by
    intro i n hn hne
    rw [hchain]
    split_ifs with heq
    · refine (mem_eraseP_of_neg ?_).mpr hn
      exact fun hver => hne (h.owner_eq hn hid (by simpa using hver)) heq
    · exact hn
  apply Chained.of_changes
  · exact (advance_setUndo rest h.wf (by simp [hphase])).wf
  · exact fun i n hn => h.addr_lt i n (hold i n hn)
  · refine fun i n hn => (h.changes (hold i n hn)).setUndo h.wf hphase hundo fun heq hrec => ?_
    subst hrec
    exact hgone n hn heq
  · intro i
    exact ((h.above i).sublist (hsub i)).imp fun ha => ha.congr rfl rfl fun _ =>
      setUndo_committedBefore_iff
  · intro a r v
    show Function.update s.written id (fun row => if row / vectorCapacity k = record.vectorIdx
        then none else s.written id row) a r = some v ↔
      ∃ n ∈ (s.updateInfo.rollback record.vectorIdx id).chain (r / vectorCapacity k), _
    have hiff : (a = id → r / vectorCapacity k ≠ record.vectorIdx) →
        ((∃ n ∈ s.updateInfo.chain (r / vectorCapacity k), s.owner n.addr = a ∧
          n.read (r % vectorCapacity k) = some v) ↔
        ∃ n ∈ (s.updateInfo.rollback record.vectorIdx id).chain (r / vectorCapacity k),
          s.owner n.addr = a ∧ n.read (r % vectorCapacity k) = some v) :=
      fun hne => exists_congr fun n => and_congr_left fun ⟨hna, _⟩ =>
        ⟨fun hn => hkept _ n hn fun heq => hne (hna.symm.trans heq), hold _ n⟩
    rcases eq_or_ne a id with rfl | ha
    · rw [update_self]
      by_cases hvec : r / vectorCapacity k = record.vectorIdx
      · rw [if_pos hvec, hvec]
        refine ⟨nofun, ?_⟩
        rintro ⟨n, hn, hna, _⟩
        exact absurd hna (hgone n hn)
      · rw [if_neg hvec, h.written]
        exact hiff fun _ => hvec
    · rw [update_of_ne ha, h.written]
      exact hiff fun heq => absurd heq ha
  · exact TxnTable.VisitsUndo.setUndo h.pendingUndo hphase hundo
  · intro a r hr
    obtain ⟨h1, h2, h3⟩ := h.record a r (mem_undo_of_rest hundo hr)
    exact ⟨h1, h2, by simpa [rollbackRecord, rollback] using h3⟩

end Visit

/-! ## Whole histories -/

theorem Chained.step (h : s.Chained) {call : UpdateCall V} (hs : s.step call = some s') :
    s'.Chained := by
  cases call with
  | begin | startCommit | finishCommit | startRollback | finishRollback =>
    obtain ⟨_, ht, rfl⟩ := map_eq_some_iff.mp hs
    exact h.retable (keeps_of_life h.wf (by grind))
  | update =>
    obtain ⟨hactive, ⟨⟩⟩ := ite_none_right_eq_some.mp hs
    exact h.update hactive
  | commitRecord =>
    obtain ⟨⟨_, _, _⟩, ht, hs'⟩ := bind_eq_some_iff.mp hs
    simp only at hs'
    split at hs'
    · rename_i u hu
      cases hs'
      exact h.commitRecord ht hu
    · cases hs'
  | rollbackRecord =>
    obtain ⟨⟨_, _⟩, ht, rfl⟩ := map_eq_some_iff.mp hs
    exact h.rollbackRecord ht

theorem chained_of_reachable
    (h : Reachable (UpdateHistory.step (k := k) (V := V)) {} Always s) : s.Chained :=
  h.invariant Chained chained_init fun _ _ _ hinv _ hs => hinv.step hs

/-- Two transactions with a value for the same row do not overlap in time. -/
theorem Chained.apart (h : s.Chained) {a b : Nat} (hne : a ≠ b) (ha : s.written a row ≠ none)
    (hb : s.written b row ≠ none) :
    s.table.CommittedBefore a b ∨ s.table.CommittedBefore b a := by
  obtain ⟨va, hva⟩ := ne_none_iff_exists'.mp ha
  obtain ⟨vb, hvb⟩ := ne_none_iff_exists'.mp hb
  obtain ⟨_, hm, rfl, hmread⟩ := (h.written a row va).mp hva
  obtain ⟨_, hn, rfl, hnread⟩ := (h.written b row vb).mp hvb
  rcases pairwise_or (h.above _) hm hn (fun heq => hne (by rw [heq])) with ha | ha
  · exact .inr (ha.rowOrder (row % vectorCapacity k) (by simp [hmread]) (by simp [hnread]))
  · exact .inl (ha.rowOrder (row % vectorCapacity k) (by simp [hnread]) (by simp [hmread]))

/-- A node that a snapshot contains, and that is not the reader's own, is a committed
value of the snapshot. -/
theorem Chained.committedValue_iff (h : s.Chained) {id other : Nat} {value : V} :
    s.CommittedValue id row other cts value ↔
      ∃ n ∈ s.chainOf row, s.owner n.addr = other ∧
        n.read (row % vectorCapacity k) = some value ∧
        (s.table.txn other).phase = .committed cts ∧ cts ≤ (s.table.txn id).startTS := by
  unfold CommittedValue
  rw [h.written]
  constructor
  · rintro ⟨hphase, hle, n, hn, howner, hread⟩
    exact ⟨n, hn, howner, hread, hphase, hle⟩
  · rintro ⟨n, hn, howner, hread, hphase, hle⟩
    exact ⟨hphase, hle, n, hn, howner, hread⟩

theorem Chained.lookup_expected (h : s.Chained) (hstarted : (s.table.txn id).phase ≠ .notStarted)
    (hid : s.table.CommitBegun id = false) :
    s.Expected id row (s.lookup id row) := by
  have hvis : ∀ n ∈ s.chainOf row,
      (visible (s.table.snapshot id).startTS (s.table.snapshot id).id n.version = true ↔
        s.table.Sees id (s.owner n.addr)) :=
    fun n hn => h.wf.visible_iff_sees hstarted hid (h.version _ n hn)
  have hnot : ∀ b, ¬ s.table.CommittedBefore id b := by
    rintro b ⟨cts, hc, _⟩
    rw [commitTS_eq_some] at hc
    simp [TxnTable.CommitBegun, hc] at hid
  unfold lookup
  rw [lookup_eq]
  rcases lookupChain_spec (s.table.snapshot id) (row % vectorCapacity k) (s.chainOf row) with
    ⟨hlook, hnone⟩ | ⟨newer, n, older, value, hsplit, hsee, hread, hlook, hnewer⟩
  · rw [hlook]
    refine .nothing (eq_none_iff_forall_ne_some.mpr fun v hv => ?_) ?_
    · -- the reader's own node would be visible
      obtain ⟨n, hn, howner, hread⟩ := (h.written id row v).mp hv
      cases (hnone n hn ((hvis n hn).mpr (.inl howner))).symm.trans hread
    · intro other cts value hval
      obtain ⟨n, hn, howner, hread, hphase, hle⟩ := h.committedValue_iff.mp hval
      have hnil := hnone n hn ((hvis n hn).mpr (.inr
        ⟨cts, by rw [howner]; exact commitTS_eq_some.mpr hphase, hle⟩))
      cases hnil.symm.trans hread
  · have hn : n ∈ s.chainOf row := by
      rw [hsplit]
      simp
    have habove : (s.chainOf row).Pairwise s.Above := h.above _
    rw [hsplit] at habove
    obtain ⟨-, hcons, hcross⟩ := pairwise_append.mp habove
    have holder := (pairwise_cons.mp hcons).1
    rw [hlook]
    rcases (hvis n hn).mp hsee with howner | ⟨cts, hc, hle⟩
    · exact .own ((h.written id row value).mpr ⟨n, hn, howner, hread⟩)
    rw [commitTS_eq_some] at hc
    have hval : s.CommittedValue id row (s.owner n.addr) cts value :=
      h.committedValue_iff.mpr ⟨n, hn, rfl, hread, hc, hle⟩
    -- every other holder of the row that the reader sees is older
    have hlatest : ∀ m ∈ s.chainOf row, ∀ v,
        m.read (row % vectorCapacity k) = some v → s.table.Sees id (s.owner m.addr) →
        m = n ∨ s.table.CommittedBefore (s.owner m.addr) (s.owner n.addr) := by
      intro m hm v hmread hsees
      rcases mem_append.mp (hsplit ▸ hm) with hnew | hold
      · cases (hnewer m hnew ((hvis m hm).mpr hsees)).symm.trans hmread
      · exact (mem_cons.mp hold).imp_right fun hold =>
          (holder m hold).rowOrder (row % vectorCapacity k) (by simp [hread]) (by simp [hmread])
    refine .committed (eq_none_iff_forall_ne_some.mpr fun v hv => ?_) hval ?_
    · obtain ⟨m, hm, hmowner, hmread⟩ := (h.written id row v).mp hv
      rcases hlatest m hm v hmread (.inl hmowner) with rfl | hbefore
      · rw [hmowner] at hc
        simp [TxnTable.CommitBegun, hc] at hid
      · rw [hmowner] at hbefore
        exact hnot _ hbefore
    · intro other' cts' value' hval
      obtain ⟨m, hm, rfl, hmread, hmphase, hmle⟩ := h.committedValue_iff.mp hval
      rcases hlatest m hm _ hmread (.inr ⟨cts', commitTS_eq_some.mpr hmphase, hmle⟩)
        with rfl | ⟨_, hc', hle'⟩
      · rw [hc] at hmphase
        cases hmphase
        exact Nat.le_refl _
      · -- an older holder of the row committed before this one started
        rw [commitTS_eq_some, hmphase] at hc'
        cases hc'
        have := (h.wf.committed _ cts hc).1
        omega

/-- In every interleaving of updates, commits and rollbacks of any number of
transactions: a transaction whose own commit has not begun reads its own last value of a
row, otherwise the committed value with the largest timestamp not above its start
timestamp, otherwise nothing; and of two transactions that have a value for the row and
have not rolled it back, one committed before the other started. -/
theorem lookup_expected_and_apart
    (h : Reachable (UpdateHistory.step (k := k) (V := V)) {} Always s) :
    (∀ id row, (s.table.txn id).phase ≠ .notStarted → s.table.CommitBegun id = false →
      s.Expected id row (s.lookup id row)) ∧
    ∀ a b row, a ≠ b → s.written a row ≠ none → s.written b row ≠ none →
      s.table.CommittedBefore a b ∨ s.table.CommittedBefore b a :=
  ⟨fun _ _ hstarted hid => (chained_of_reachable h).lookup_expected hstarted hid,
    fun _ _ _ hne ha hb => (chained_of_reachable h).apart hne ha hb⟩

/-- Two transactions write different rows of one vector, one of them commits, the other
rolls back; a third one overwrites a committed value. -/
def sampleCalls : List (UpdateCall Nat) :=
  let a := startTransactionID + 1
  let b := startTransactionID + 2
  let c := startTransactionID + 3
  [.begin, .begin, .update a 0 10, .update b 1 20, .update a 0 11, .startCommit a 2,
    .commitRecord a, .commitRecord a, .finishCommit a, .startRollback b, .rollbackRecord b,
    .finishRollback b, .begin, .update c 0 30]

theorem lookup_expected_and_apart_sample :
    ∃ s : UpdateHistory 2 Nat, Reachable step {} Always s ∧
      s.Expected (startTransactionID + 3) 0 (some 30) ∧
      s.Expected (startTransactionID + 3) 1 none ∧
      s.table.CommittedBefore (startTransactionID + 1) (startTransactionID + 3) := by
  refine exists_reachable_of_run sampleCalls (fun s =>
      (s.table.txn (startTransactionID + 3)).phase = .active ∧
      s.lookup (startTransactionID + 3) 0 = some 30 ∧ s.lookup (startTransactionID + 3) 1 = none ∧
      s.table.CommittedBefore (startTransactionID + 1) (startTransactionID + 3))
    (by decide +kernel) ?_
  rintro s hs ⟨hphase, h0, h1, hbefore⟩
  have hlookup := fun row => (lookup_expected_and_apart hs).1 (startTransactionID + 3) row
    (by simp [hphase]) (by simp [TxnTable.CommitBegun, hphase])
  exact ⟨h0 ▸ hlookup 0, h1 ▸ hlookup 1, hbefore⟩

end UpdateHistory

end Lbug.Storage
