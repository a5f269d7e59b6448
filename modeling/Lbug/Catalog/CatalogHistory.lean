/-
  Catalog/CatalogHistory.lean --- all histories of one `CatalogSet`.

  Source: `catalog/catalog_set.cpp` and `storage/undo_buffer.cpp`, called from
  `catalog/catalog.cpp` and `transaction/transaction.cpp`.

  Any number of transactions create, drop and alter entries; a commit visits the undo
  records of its transaction in order and marks the versions with its timestamp, a
  rollback visits them in reverse order and takes the versions off their chains.

  Next to the set the state carries a log of the changes that are not undone, newest
  first: which transaction gave which name which entry.  `expected` is the specification
  of `getEntries` in these terms: of the changes of a name that a transaction sees, the
  newest one counts.

  `create` checks for write-write conflicts, `drop` and `alter` do not.  The histories
  that meet `CallOk`, in which no transaction drops or alters an entry under a newer
  version that it does not see, keep the set and the log together (`Tracks`).
-/
import Lbug.Catalog.CatalogSet
import Lbug.Foundation.Transition
import Lbug.Transaction.History

namespace Lbug.Catalog

open Foundation Transaction List Option TxnTable CatalogSet

/-- Transaction `tx` gave the name of its record the entry `result`, or none. -/
structure Change (Name Content : Type) where
  tx : Nat
  record : CatalogEntryRecord Name
  result : Option (Nat × Content)

structure CatalogHistory (Name Content : Type) where
  table : TxnTable (CatalogEntryRecord Name) := {}
  set : CatalogSet Name Content := {}
  /-- the entries that were there before the first transaction -/
  base : Name → Option (Nat × Content) := fun _ => none
  log : List (Change Name Content) := []

inductive CatalogCall (Name Content : Type) where
  | begin
  | create (id : Nat) (name : Name) (content : Content)
  | drop (id : Nat) (name : Name) (oid : Nat)
  | alter (id : Nat) (name : Name) (info : AlterInfo Name Content)
  | startCommit (id commitTS : Nat)
  | commitRecord (id : Nat)
  | finishCommit (id : Nat)
  | startRollback (id : Nat)
  | rollbackRecord (id : Nat)
  | finishRollback (id : Nat)

/-- The newest entry in `changes` that `id` sees. -/
def newestSeen {Name Content : Type} (tb : TxnTable (CatalogEntryRecord Name)) (id : Nat)
    (base : Option (Nat × Content)) (changes : List (Change Name Content)) :
    Option (Nat × Content) :=
  match changes.find? (fun c => tb.Sees id c.tx) with
  | some change => change.result
  | none => base

namespace CatalogHistory

variable {Name Content : Type} [DecidableEq Name]

/-- A history starts with the entries of a set, as `deserialize` builds it. -/
def init (set : CatalogSet Name Content) : CatalogHistory Name Content :=
  { set, base := fun name => (set.chain name).head?.bind CatalogEntry.view }

variable (s : CatalogHistory Name Content) (id : Nat) (name : Name)

/-- A change was made: push its undo record and note it. -/
def note (set : CatalogSet Name Content) (change : Change Name Content) :
    CatalogHistory Name Content :=
  { s with set, table := s.table.push change.tx change.record, log := change :: s.log }

def create (content : Content) : CatalogHistory Name Content :=
  match s.set.createEntry (s.table.snapshot id) name content with
  | (set, .error _) => { s with set }
  | (set, .ok record) => s.note set ⟨id, record, some (s.set.nextOID, content)⟩

def drop (oid : Nat) : CatalogHistory Name Content :=
  match s.set.dropEntryNoLock (s.table.snapshot id) name oid with
  | .error _ => s
  | .ok (set, record) => s.note set ⟨id, record, none⟩

/-- The entry that `alter` makes of the one that `id` sees. -/
def altered (info : AlterInfo Name Content) : Option (Nat × Content) :=
  ((s.set.visibleEntry (s.table.snapshot id) name).bind CatalogEntry.view).map fun (oid, content) =>
    (oid, (CatalogSet.alterContent s.set.nextOID info content).1)

/-- A rename takes the entry away from the old name and gives it to the new one. -/
def alter (info : AlterInfo Name Content) : CatalogHistory Name Content :=
  match s.set.alterTableEntry (s.table.snapshot id) name info with
  | (set, .ok [record]) => s.note set ⟨id, record, s.altered id name info⟩
  | (set, .ok [dropped, created]) =>
    (s.note set ⟨id, dropped, none⟩).note set ⟨id, created, s.altered id name info⟩
  | (set, _) => { s with set }

def step : CatalogCall Name Content → Option (CatalogHistory Name Content)
  | .begin => s.table.begin.map fun table => { s with table }
  | .create id name content =>
    if (s.table.txn id).phase = .active then some (s.create id name content) else none
  | .drop id name oid =>
    if (s.table.txn id).phase = .active then some (s.drop id name oid) else none
  | .alter id name info =>
    if (s.table.txn id).phase = .active then some (s.alter id name info) else none
  | .startCommit id cts => (s.table.startCommit id cts).map fun table => { s with table }
  | .commitRecord id => (s.table.nextPending id).bind fun (record, cts, table) =>
      (s.set.commitRecord cts record).map fun set => { s with table, set }
  | .finishCommit id => (s.table.finishCommit id).map fun table => { s with table }
  | .startRollback id => (s.table.startRollback id).map fun table => { s with table }
  | .rollbackRecord id => (s.table.nextUndo id).bind fun (record, table) =>
      (s.set.rollbackRecord record).map fun set =>
        { s with table, set, log := s.log.eraseP (·.tx = id) }
  | .finishRollback id => (s.table.finishRollback id).map fun table => { s with table }

/-- The changes of a name, newest first. -/
def changesOf : List (Change Name Content) :=
  s.log.filter (·.record.name = name)

/-- The entry of a name that the operations of `id` and of the transactions committed
by its start timestamp produced. -/
def expected : Option (Nat × Content) :=
  newestSeen s.table id (s.base name) (s.changesOf name)

/-- The newest version of a name is no write-write conflict for `id`. -/
def NoConflict : Prop :=
  ∀ newest ∈ (s.set.chain name).head?, checkWWConflict (s.table.snapshot id) newest = false
  deriving Decidable

/-- An entry can be created under the name. -/
def Free : Prop :=
  s.set.containsEntryNoLock (s.table.snapshot id) name = false ∧ s.NoConflict id name
  deriving Decidable

/-- The new name of a rename is the old one or free. -/
def TargetFree : AlterInfo Name Content → Prop
  | .rename newName => newName = name ∨ s.Free id newName
  | _ => True

instance : ∀ info, Decidable (s.TargetFree id name info)
  | .rename _ => inferInstanceAs (Decidable (_ ∨ _))
  | .change _ | .addConnection _ => inferInstanceAs (Decidable True)

/-- The calls under which the version chains stay exact: an entry that a transaction
drops or alters is in no write-write conflict with it, and a rename does not stop half
way. -/
def CallOk : CatalogCall Name Content → Prop
  | .drop id name _ =>
    s.set.containsEntryNoLock (s.table.snapshot id) name = true → s.NoConflict id name
  | .alter id name info =>
    s.set.containsEntryNoLock (s.table.snapshot id) name = true →
      s.NoConflict id name ∧ s.TargetFree id name info
  | _ => True

instance : ∀ call, Decidable (s.CallOk call)
  | .drop _ _ _ => inferInstanceAs (Decidable (_ → _))
  | .alter _ _ _ => inferInstanceAs (Decidable (_ → _ ∧ _))
  | .begin | .create _ _ _ | .startCommit _ _ | .commitRecord _ | .finishCommit _
  | .startRollback _ | .rollbackRecord _ | .finishRollback _ => inferInstanceAs (Decidable True)

end CatalogHistory

/-! ## Chains aligned with changes -/

variable {cts id : Nat}

section Aligned

variable {Name Content : Type}

/-- The timestamp `ts` is right for the version that `c` made: during a commit it is
the commit timestamp unless the record of `c` is still to be visited. -/
structure Marked (tb : TxnTable (CatalogEntryRecord Name)) (c : Change Name Content)
    (ts : Nat) : Prop where
  version : tb.VersionOf c.tx ts
  pending : ∀ cts, (tb.txn c.tx).phase = .committing cts →
    ts = cts ∨ c.record ∈ (tb.txn c.tx).pending

/-- The versions of a chain are those that the changes made, above one version that was
there for every transaction.  The record of a change points to the version below, and
each change was made by a transaction that sees the change below. -/
inductive Aligned (tb : TxnTable (CatalogEntryRecord Name)) (base : Option (Nat × Content)) :
    List (Change Name Content) → List (CatalogEntry Name Content) → Prop
  | bottom {e : CatalogEntry Name Content} : e.timestamp = 0 → e.view = base →
      Aligned tb base [] [e]
  | push {c : Change Name Content} {cs : List (Change Name Content)}
      {w e : CatalogEntry Name Content} {es : List (CatalogEntry Name Content)} :
      Aligned tb base cs (e :: es) → Marked tb c w.timestamp → w.view = c.result →
      c.record.addr = e.addr → (∀ c' ∈ cs.head?, tb.Sees c.tx c'.tx) →
      Aligned tb base (c :: cs) (w :: e :: es)

variable {tb tb' : TxnTable (CatalogEntryRecord Name)} {base : Option (Nat × Content)}
  {cs : List (Change Name Content)} {es : List (CatalogEntry Name Content)}

section

variable (h : Aligned tb base cs es)

include h

theorem Aligned.mono (hmarked : ∀ c ∈ cs, ∀ ts, Marked tb c ts → Marked tb' c ts)
    (hsees : ∀ a b, (tb.txn a).phase ≠ .notStarted → tb.Sees a b → tb'.Sees a b) :
    Aligned tb' base cs es := by
  induction h with
  | bottom hts hview => exact .bottom hts hview
  | push _ hm hview haddr hs ih =>
    exact .push (ih fun c hc => hmarked c (mem_cons_of_mem _ hc))
      (hmarked _ mem_cons_self _ hm) hview haddr
      fun c' hc' => hsees _ _ hm.version.started (hs c' hc')

/-- The records point to the versions below the top, in order. -/
theorem Aligned.records : cs.map (·.record.addr) = es.tail.map (·.addr) := by
  induction h with
  | bottom => rfl
  | push _ _ _ haddr _ ih => simp [haddr, ih]

theorem Aligned.ne_nil : es ≠ [] := by
  cases h <;> exact nofun

end

/-- No record points to the version on top. -/
theorem Aligned.addr_ne {e : CatalogEntry Name Content} (h : Aligned tb base cs (e :: es))
    (hnodup : ((e :: es).map (·.addr)).Nodup) : ∀ c ∈ cs, c.record.addr ≠ e.addr := by
  intro c hc heq
  have hmem : c.record.addr ∈ es.map (·.addr) := h.records ▸ mem_map_of_mem hc
  rw [heq] at hmem
  exact (nodup_cons.mp hnodup).1 hmem

/-- The newest version is the one that the newest change made. -/
theorem Aligned.marked_head {e : CatalogEntry Name Content} (h : Aligned tb base cs (e :: es)) :
    ∀ c ∈ cs.head?, Marked tb c e.timestamp := by
  cases h with
  | bottom => exact nofun
  | push _ hm =>
    rintro c ⟨⟩
    exact hm

/-- The version above the record of a change gets a timestamp that is right for the
change. -/
theorem Aligned.setAbove {c₀ : Change Name Content} (h : Aligned tb base cs es)
    (hnodup : (es.map (·.addr)).Nodup) (hc₀ : c₀ ∈ cs)
    (hother : ∀ c ∈ cs, c.record.addr ≠ c₀.record.addr → ∀ ts, Marked tb c ts → Marked tb' c ts)
    (hhit : Marked tb' c₀ cts)
    (hsees : ∀ a b, (tb.txn a).phase ≠ .notStarted → tb.Sees a b → tb'.Sees a b) :
    ∃ es', setAbove c₀.record.addr cts es = some es' ∧ Aligned tb' base cs es' ∧
      es'.map (·.addr) = es.map (·.addr) := by
  induction h with
  | bottom => cases hc₀
  | @push c cs w e es hal hm hview haddr hs ih =>
    have hsees' : ∀ c' ∈ cs.head?, tb'.Sees c.tx c'.tx :=
      fun c' hc' => hsees _ _ hm.version.started (hs c' hc')
    have hnodup' : ((e :: es).map (·.addr)).Nodup := (nodup_cons.mp hnodup).2
    have hbelow := hal.addr_ne hnodup'
    by_cases heq : e.addr = c₀.record.addr
    · -- the change on top is the one
      have hc : c₀ = c := by
        rcases mem_cons.mp hc₀ with hc | hc
        · exact hc
        · exact absurd heq.symm (hbelow c₀ hc)
      subst hc
      refine ⟨{ w with timestamp := cts } :: e :: es, by simp [Catalog.setAbove, heq], ?_, rfl⟩
      refine .push (hal.mono (fun c' hc' => ?_) hsees) hhit hview haddr hsees'
      exact hother c' (mem_cons_of_mem _ hc') (by rw [← heq]; exact hbelow c' hc')
    · have hc : c₀ ∈ cs := by
        rcases mem_cons.mp hc₀ with hc | hc
        · rw [hc, haddr] at heq
          exact absurd rfl heq
        · exact hc
      obtain ⟨_, hset, hal', hmap⟩ := ih hnodup' hc
        fun c' hc' => hother c' (mem_cons_of_mem _ hc')
      obtain ⟨e', rest, rfl⟩ := exists_cons_of_ne_nil hal'.ne_nil
      simp only [map_cons, cons.injEq] at hmap
      refine ⟨w :: e' :: rest, by simp [Catalog.setAbove, heq, hset], ?_, by simp [hmap]⟩
      refine .push hal' (hother c mem_cons_self ?_ _ hm) hview (by rw [haddr, hmap.1]) hsees'
      rw [haddr]
      exact heq

/-- A transaction that is not committed has no change of another one above its own. -/
theorem Aligned.sees_above {above below : List (Change Name Content)} {c : Change Name Content}
    (h : Aligned tb base (above ++ c :: below) es) (hne : above ≠ []) :
    ∃ c' ∈ above, tb.Sees c'.tx c.tx := by
  induction above generalizing es with
  | nil => exact absurd rfl hne
  | cons c' rest ih =>
    cases h with
    | push hal _ _ _ hs =>
      cases rest with
      | nil => exact ⟨c', mem_cons_self, hs c rfl⟩
      | cons =>
        obtain ⟨d, hd, hsees⟩ := ih hal nofun
        exact ⟨d, mem_cons_of_mem _ hd, hsees⟩

variable (hwf : tb.WellFormed)

include hwf

theorem sees_trans {a b c : Nat} (hab : tb.Sees a b) (hbc : tb.Sees b c) : tb.Sees a c := by
  rcases hab with rfl | ⟨ctsb, hb, hle⟩
  · exact hbc
  · rcases hbc with rfl | ⟨ctsc, hc, hlec⟩
    · exact .inr ⟨ctsb, hb, hle⟩
    · have := (hwf.committed b ctsb (commitTS_eq_some.mp hb)).1
      exact .inr ⟨ctsc, hc, by omega⟩

/-- Every change was made by a transaction that sees all the changes below. -/
theorem Aligned.pairwise (h : Aligned tb base cs es) :
    cs.Pairwise fun c c' => tb.Sees c.tx c'.tx := by
  induction h with
  | bottom => exact .nil
  | @push _ cs _ _ _ _ _ _ _ hs ih =>
    refine pairwise_cons.mpr ⟨fun d hd => ?_, ih⟩
    cases cs with
    | nil => cases hd
    | cons c' =>
      have htop := hs c' rfl
      rcases mem_cons.mp hd with rfl | hd
      · exact htop
      · exact sees_trans hwf htop ((pairwise_cons.mp ih).1 d hd)

/-- The visible version of a chain is the newest change that the transaction sees. -/
theorem Aligned.view_traverse (hstarted : (tb.txn id).phase ≠ .notStarted)
    (hid : tb.CommitBegun id = false) (h : Aligned tb base cs es) :
    (traverseVersionChains (tb.snapshot id) es).bind CatalogEntry.view =
      newestSeen tb id base cs := by
  induction h with
  | bottom hts hview => simp [traverseVersionChains, newestSeen, hts, visible, hview]
  | @push c _ _ _ _ _ hm hview _ _ ih =>
    have hiff := hwf.visible_iff_sees hstarted hid hm.version
    unfold traverseVersionChains newestSeen at ih ⊢
    by_cases hsees : tb.Sees id c.tx
    · simp only [find?_cons, hiff.mpr hsees, decide_eq_true hsees, bind_some, hview]
    · have hnot := Bool.eq_false_iff.mpr fun hv => hsees (hiff.mp hv)
      simp only [find?_cons, hnot, decide_eq_false hsees]
      exact ih

end Aligned

namespace CatalogHistory

variable {Name Content : Type} [DecidableEq Name]

/-! ## The invariant -/

/-- The chain of a name is not there yet or aligned with the changes of the name. -/
def Chained (s : CatalogHistory Name Content) (name : Name) : Prop :=
  (s.set.chain name = [] ∧ s.changesOf name = [] ∧ s.base name = none) ∨
    Aligned s.table (s.base name) (s.changesOf name) (s.set.chain name)

/-- The set is what the changes of the log made of it, and the undo buffers hold the
records of the changes of their transactions. -/
structure Tracks (s : CatalogHistory Name Content) : Prop where
  wf : s.table.WellFormed
  chained : ∀ name, s.Chained name
  nodup : ∀ name, ((s.set.chain name).map (·.addr)).Nodup
  allocated : ∀ name, ∀ e ∈ s.set.chain name, e.addr < s.set.nextAddr
  undo : ∀ id, s.table.commitTS id = none →
    (s.table.txn id).undo = (s.log.filter (·.tx = id)).map (·.record)
  pending : ∀ id cts, (s.table.txn id).phase = .committing cts →
    ∀ record ∈ (s.table.txn id).pending, record ∈ (s.table.txn id).undo

variable {s s' : CatalogHistory Name Content} {name : Name}
  {table : TxnTable (CatalogEntryRecord Name)} {set : CatalogSet Name Content}
  {record : CatalogEntryRecord Name} {chain : List (CatalogEntry Name Content)}
  {tb : TxnTable (CatalogEntryRecord Name)} {call : CatalogCall Name Content}
  {info : AlterInfo Name Content} {t : Snapshot} {ts : Nat}

omit [DecidableEq Name] in
theorem step_of_active {f : CatalogHistory Name Content}
    (hs : (if (s.table.txn id).phase = .active then some f else none) = some s') :
    (s.table.txn id).phase = .active ∧ s' = f :=
  (ite_none_right_eq_some.mp hs).imp_right fun heq => (some.inj heq).symm

theorem mem_changesOf {c : Change Name Content} :
    c ∈ s.changesOf name ↔ c ∈ s.log ∧ c.record.name = name := by
  simp [changesOf]

/-- A name with changes has its chain. -/
theorem Tracks.aligned (h : s.Tracks) {c : Change Name Content} (hc : c ∈ s.changesOf name) :
    Aligned s.table (s.base name) (s.changesOf name) (s.set.chain name) := by
  rcases h.chained name with ⟨-, hnil, -⟩ | hal
  · rw [hnil] at hc
    cases hc
  · exact hal

/-- The version that a change made, with the record of the change. -/
theorem Tracks.recorded (h : s.Tracks) {c : Change Name Content} (hc : c ∈ s.log)
    (hm : Marked s.table c ts) : s.table.Recorded c.tx ts (· = c.record) := by
  refine ⟨hm.version, fun hb => ⟨c.record, ?_, rfl⟩, by simpa using hm.pending⟩
  have hnone : s.table.commitTS c.tx = none := by
    cases hp : (s.table.txn c.tx).phase <;>
      simp [TxnTable.CommitBegun, commitTS, hp] at hb ⊢
  rw [h.undo _ hnone]
  exact mem_map_of_mem (mem_filter.mpr ⟨hc, by simp⟩)

omit [DecidableEq Name] in
theorem marked_of_recorded {c : Change Name Content} (h : tb.Recorded c.tx ts (· = c.record)) :
    Marked tb c ts :=
  ⟨h.version, by simpa using h.pending⟩

/-- Only the versions that the changes made and the pending records matter. -/
theorem Chained.mono (h : s.Chained name) (hbase : s'.base = s.base)
    (hchain : s'.set.chain name = s.set.chain name)
    (hchanges : s'.changesOf name = s.changesOf name)
    (hmarked : ∀ c ∈ s.changesOf name, ∀ ts, Marked s.table c ts → Marked s'.table c ts)
    (hsees : ∀ a b, (s.table.txn a).phase ≠ .notStarted → s.table.Sees a b → s'.table.Sees a b) :
    s'.Chained name := by
  unfold Chained
  rw [hbase, hchain, hchanges]
  exact h.imp_right fun hal => hal.mono hmarked hsees

/-- A step of a transaction that visits no record leaves the chains as they are. -/
theorem Tracks.retable (h : s.Tracks) (hkeeps : s.table.Keeps table) : Tracks { s with table } where
  wf := hkeeps.wf
  chained := fun name => (h.chained name).mono rfl rfl rfl
    (fun _ hc _ hm => marked_of_recorded (hkeeps.recorded (h.recorded (mem_changesOf.mp hc).1 hm)))
    fun _ _ ha hs => hs.imp_right (hkeeps.before ha).mpr
  nodup := h.nodup
  allocated := h.allocated
  undo := fun id hnone => by
    rcases hkeeps.undo id with heq | ⟨-, hsome⟩
    · refine heq.trans (h.undo id (eq_none_iff_forall_ne_some.mpr fun cts hc => ?_))
      have := hkeeps.committed id cts (commitTS_eq_some.mp hc)
      rw [commitTS_eq_some.mpr this] at hnone
      cases hnone
    · exact absurd hnone hsome
  pending := hkeeps.visits h.pending

/-! ## Changes -/

omit [DecidableEq Name] in
theorem checkWWConflict_eq_false_iff (hwf : tb.WellFormed)
    (hactive : (tb.txn id).phase = .active) {e : CatalogEntry Name Content} :
    checkWWConflict (tb.snapshot id) e = false ↔
      visible (tb.snapshot id).startTS (tb.snapshot id).id e.timestamp = true := by
  have h1 : startTransactionID < (tb.snapshot id).id :=
    (hwf.started id (by simp [hactive])).1
  have h2 : (tb.snapshot id).startTS ≤ tb.lastTimestamp := hwf.startTS_le id
  have h3 := hwf.timestamp_lt
  rw [visible_iff]
  simp only [checkWWConflict, Bool.or_eq_false_iff, Bool.and_eq_false_iff,
    decide_eq_false_iff_not, bne_eq_false_iff_eq]
  omega

theorem Tracks.setNextOID (h : s.Tracks) (k : Nat) :
    Tracks { s with set := { s.set with nextOID := k } } :=
  { h with }

section Note

variable {id : Nat} {name : Name} {oid : Nat} {content : Option Content}
  {top : CatalogEntry Name Content} {rest : List (CatalogEntry Name Content)}

theorem nodup_emplaceNoLock {timestamp : Nat} {n : Name}
    (hnodup : ((set.chain n).map (·.addr)).Nodup)
    (hallocated : ∀ e ∈ set.chain n, e.addr < set.nextAddr) :
    (((set.emplaceNoLock name oid timestamp content).chain n).map (·.addr)).Nodup ∧
      ∀ e ∈ (set.emplaceNoLock name oid timestamp content).chain n,
        e.addr < (set.emplaceNoLock name oid timestamp content).nextAddr := by
  rw [chain_emplaceNoLock]
  split
  · constructor
    · rw [map_cons, nodup_cons]
      refine ⟨fun hmem => ?_, hnodup⟩
      obtain ⟨e, he, heq⟩ := mem_map.mp hmem
      have hlt := hallocated e he
      rw [heq] at hlt
      exact lt_irrefl _ hlt
    · intro e he
      rcases mem_cons.mp he with rfl | he
      · exact Nat.lt_succ_self _
      · exact Nat.lt_succ_of_lt (hallocated e he)
  · exact ⟨hnodup, fun e he => Nat.lt_succ_of_lt (hallocated e he)⟩

section

variable (h : s.Tracks)

include h

/-- A transaction puts a version on top of one that it sees. -/
theorem Tracks.note (hactive : (s.table.txn id).phase = .active)
    (htop : s.set.chain name = top :: rest)
    (hvisible : visible (s.table.snapshot id).startTS (s.table.snapshot id).id top.timestamp) :
    Tracks (s.note (s.set.emplaceNoLock name oid id content)
      ⟨id, ⟨name, top.addr⟩, content.map fun c => (oid, c)⟩) := by
  have hstarted : (s.table.txn id).phase ≠ .notStarted := by
    simp [hactive]
  have hbegun : s.table.CommitBegun id = false := by simp [TxnTable.CommitBegun, hactive]
  have hadv := advance_setUndo (⟨name, top.addr⟩ :: (s.table.txn id).undo) h.wf hstarted
  have hmarked : ∀ n, ∀ c ∈ s.changesOf n, ∀ ts, Marked s.table c ts →
      Marked (s.table.push id ⟨name, top.addr⟩) c ts := fun n c hc ts hm =>
    marked_of_recorded ((h.recorded (mem_changesOf.mp hc).1 hm).push h.wf hstarted)
  have hsees : ∀ a b, s.table.Sees a b → (s.table.push id ⟨name, top.addr⟩).Sees a b :=
    fun a b hs => hs.imp_right setUndo_committedBefore_iff.mpr
  constructor
  · exact hadv.wf
  · intro n
    rcases eq_or_ne name n with rfl | hn
    · rcases h.chained name with ⟨hnil, -⟩ | hal
      · rw [htop] at hnil
        cases hnil
      right
      simp only [CatalogHistory.note, changesOf, chain_emplaceNoLock, filter_cons_of_pos,
        decide_true]
      rw [htop] at hal ⊢
      refine .push (hal.mono (hmarked name) fun a b _ => hsees a b) ?_ rfl rfl ?_
      · exact marked_of_recorded (recorded_push h.wf hactive rfl)
      · -- the change below is visible, so its transaction is seen
        exact fun c' hc' => hsees _ _ ((h.wf.visible_iff_sees hstarted hbegun
          (hal.marked_head c' hc').version).mp hvisible)
    · refine (h.chained n).mono rfl ?_ ?_ (hmarked n) fun a b _ => hsees a b
      · exact chain_emplaceNoLock.trans (if_neg fun heq => hn heq.symm)
      · simp [CatalogHistory.note, changesOf, hn]
  · exact fun n => (nodup_emplaceNoLock (h.nodup n) (h.allocated n)).1
  · exact fun n => (nodup_emplaceNoLock (h.nodup n) (h.allocated n)).2
  · intro a hnone
    have hnone' : s.table.commitTS a = none := by
      simpa [commitTS, CatalogHistory.note, push] using hnone
    simp only [CatalogHistory.note, push, setUndo_undo, filter_cons, decide_eq_true_eq]
    rcases eq_or_ne a id with rfl | ha
    · simp [h.undo a hnone']
    · rw [if_neg ha, if_neg fun heq => ha heq.symm]
      exact h.undo a hnone'
  · exact TxnTable.VisitsUndo.push h.pending

/-- The dummy entry of a new name changes nothing for any transaction. -/
theorem Tracks.dummy (hnil : s.set.chain name = []) :
    Tracks { s with set := s.set.emplaceNoLock name oid 0 none } := by
  refine ⟨h.wf, fun n => ?_, fun n => (nodup_emplaceNoLock (h.nodup n) (h.allocated n)).1,
    fun n => (nodup_emplaceNoLock (h.nodup n) (h.allocated n)).2, h.undo, h.pending⟩
  rcases eq_or_ne n name with rfl | hn
  · rcases h.chained n with ⟨-, hchanges, hbase⟩ | hal
    · right
      show Aligned s.table (s.base n) (s.changesOf n) _
      rw [chain_emplaceNoLock, if_pos rfl, hnil, hchanges, hbase]
      exact .bottom rfl rfl
    · exact absurd hnil hal.ne_nil
  · exact (h.chained n).mono rfl (chain_emplaceNoLock.trans (if_neg hn)) rfl
      (fun _ _ _ hm => hm) fun _ _ _ hs => hs

variable (hactive : (s.table.txn id).phase = .active)

include hactive

theorem Tracks.createEntryNoLock
    (hs : s.set.createEntryNoLock (s.table.snapshot id) name oid content = .ok (set, record)) :
    Tracks (s.note set ⟨id, record, content.map fun c => (oid, c)⟩) := by
  unfold CatalogSet.createEntryNoLock at hs
  split at hs
  · cases hs
  split at hs
  · rename_i hnil
    cases hs
    have hchain : (s.set.emplaceNoLock name oid 0 none).chain name =
        [dummyEntry s.set.nextAddr name oid 0] := by
      rw [chain_emplaceNoLock, if_pos rfl, hnil]
      rfl
    exact (h.dummy hnil).note hactive hchain (by simp [dummyEntry, visible])
  · rename_i _ _ hchain
    split at hs
    · cases hs
    rename_i hconflict
    split at hs
    · cases hs
    · cases hs
      exact h.note hactive hchain ((checkWWConflict_eq_false_iff h.wf hactive).mp
        (Bool.eq_false_iff.mpr hconflict))

/-- Without a conflict the entry that a transaction sees is the newest version. -/
theorem Tracks.chain_of_noConflict (hok : s.NoConflict id name) {e : CatalogEntry Name Content}
    (he : s.set.visibleEntry (s.table.snapshot id) name = some e) :
    (∃ rest, s.set.chain name = e :: rest) ∧
      visible (s.table.snapshot id).startTS (s.table.snapshot id).id e.timestamp := by
  have hvisible : visible (s.table.snapshot id).startTS (s.table.snapshot id).id e.timestamp :=
    by simpa using find?_some he
  refine ⟨?_, hvisible⟩
  cases hchain : s.set.chain name with
  | nil =>
    rw [visibleEntry, hchain] at he
    cases he
  | cons top rest =>
    have htop := (checkWWConflict_eq_false_iff h.wf hactive).mp (hok top (by rw [hchain]; rfl))
    rw [visibleEntry, hchain, traverseVersionChains, find?_cons, htop] at he
    cases he
    exact ⟨rest, rfl⟩

theorem Tracks.dropEntryNoLock
    (hok : s.set.containsEntryNoLock (s.table.snapshot id) name = true → s.NoConflict id name)
    (hs : s.set.dropEntryNoLock (s.table.snapshot id) name oid = .ok (set, record)) :
    Tracks (s.note set ⟨id, record, none⟩) := by
  unfold CatalogSet.dropEntryNoLock at hs
  split at hs
  · rename_i hcontains
    split at hs
    · cases hs
    · rename_i top _ hchain
      cases hs
      have htop := (checkWWConflict_eq_false_iff h.wf hactive).mp
        (hok hcontains top (by rw [hchain]; rfl))
      exact h.note hactive hchain htop
  · cases hs

theorem Tracks.create {c : Content} : Tracks (s.create id name c) := by
  have hnext := h.setNextOID (s.set.nextOID + 1)
  unfold CatalogHistory.create createEntry
  simp only
  cases hs : CatalogSet.createEntryNoLock { s.set with nextOID := s.set.nextOID + 1 }
      (s.table.snapshot id) name s.set.nextOID (some c) with
  | error => exact hnext
  | ok created => exact hnext.createEntryNoLock hactive hs

theorem Tracks.drop (hok : s.CallOk (.drop id name oid)) : Tracks (s.drop id name oid) := by
  unfold CatalogHistory.drop
  cases hs : s.set.dropEntryNoLock (s.table.snapshot id) name oid with
  | error => exact h
  | ok => exact h.dropEntryNoLock hactive hok hs

end

/-- A name without a visible entry whose newest version is visible can be taken. -/
theorem exists_createEntryNoLock (hcontains : set.containsEntryNoLock t name = false)
    (hhead : ∀ newest ∈ (set.chain name).head?,
      checkWWConflict t newest = false ∧ visible t.startTS t.id newest.timestamp = true) :
    ∃ set' record, set.createEntryNoLock t name oid content = .ok (set', record) := by
  unfold createEntryNoLock
  rw [hcontains]
  cases hchain : set.chain name with
  | nil => exact ⟨_, _, rfl⟩
  | cons newest =>
    obtain ⟨hconflict, hvisible⟩ := hhead newest (by rw [hchain]; rfl)
    have hdeleted : newest.isDeleted = true := by
      rw [containsEntryNoLock, visibleEntry, hchain, traverseVersionChains,
        find?_cons, hvisible] at hcontains
      simpa using hcontains
    simp only [hconflict, hdeleted]
    exact ⟨_, _, rfl⟩

variable (h : s.Tracks) (hactive : (s.table.txn id).phase = .active)

include h hactive

/-- After the tombstone of the old name the new name can be taken. -/
theorem Tracks.exists_rename {newName : Name} (htarget : newName = name ∨ s.Free id newName) :
    ∃ set record, (s.set.emplaceNoLock name oid id none).createEntryNoLock (s.table.snapshot id)
      newName oid content = .ok (set, record) := by
  have hconflict : ∀ e : CatalogEntry Name Content,
      checkWWConflict (s.table.snapshot id) e = false ↔
        visible (s.table.snapshot id).startTS (s.table.snapshot id).id e.timestamp = true :=
    fun _ => checkWWConflict_eq_false_iff h.wf hactive
  rcases eq_or_ne newName name with rfl | hname
  · have hvisible : visible (s.table.snapshot id).startTS (s.table.snapshot id).id id = true := by
      simp [visible, snapshot]
    apply exists_createEntryNoLock
    · simp [containsEntryNoLock, visibleEntry,
        chain_emplaceNoLock, traverseVersionChains, hvisible, CatalogEntry.isDeleted]
    · rw [chain_emplaceNoLock, if_pos rfl]
      rintro newest ⟨⟩
      exact ⟨(hconflict _).mpr hvisible, hvisible⟩
  · have hchain : (s.set.emplaceNoLock name oid id none).chain newName = s.set.chain newName :=
      chain_emplaceNoLock.trans (if_neg hname)
    obtain ⟨hcontains, hno⟩ := htarget.resolve_left hname
    apply exists_createEntryNoLock
    · rw [← hcontains, containsEntryNoLock, containsEntryNoLock,
        visibleEntry, visibleEntry, hchain]
    · rw [hchain]
      exact fun newest hnewest => ⟨hno newest hnewest, (hconflict _).mp (hno newest hnewest)⟩

theorem Tracks.alter (hok : s.CallOk (.alter id name info)) : Tracks (s.alter id name info) := by
  cases hvis : s.set.visibleEntry (s.table.snapshot id) name with
  | none =>
    simp only [CatalogHistory.alter, alterTableEntry, hvis]
    exact h
  | some e =>
    obtain ⟨addr, _, oid, _, _ | c⟩ := e
    · simp only [CatalogHistory.alter, alterTableEntry, hvis]
      exact h
    have hcontains : s.set.containsEntryNoLock (s.table.snapshot id) name = true := by
      simp [containsEntryNoLock, hvis, CatalogEntry.isDeleted]
    obtain ⟨hno, htarget⟩ := hok hcontains
    obtain ⟨⟨_, hchain⟩, hvisible⟩ := h.chain_of_noConflict hactive hno hvis
    have haltered : s.altered id name info =
        some (oid, (alterContent s.set.nextOID info c).1) := by
      simp [altered, hvis, CatalogEntry.view]
    cases info with
    | change alter =>
      simp only [CatalogHistory.alter, alterTableEntry, hvis, haltered]
      exact h.note hactive hchain hvisible
    | addConnection alter =>
      simp only [CatalogHistory.alter, alterTableEntry, hvis, haltered]
      exact (h.setNextOID (s.set.nextOID + 1)).note hactive hchain hvisible
    | rename newName =>
      have hdrop : s.set.dropEntryNoLock (s.table.snapshot id) name oid =
          .ok (s.set.emplaceNoLock name oid id none, ⟨name, addr⟩) := by
        rw [CatalogSet.dropEntryNoLock, if_pos hcontains, hchain]
        rfl
      obtain ⟨created, record, hcreate⟩ : ∃ created record,
          (s.set.emplaceNoLock name oid id none).createEntryNoLock (s.table.snapshot id) newName
            oid (some c) = .ok (created, record) := h.exists_rename hactive htarget
      simp only [CatalogHistory.alter, alterTableEntry, hvis, haltered,
        alterContent, hdrop, hcreate]
      have hdropped := h.dropEntryNoLock hactive (fun _ => hno) hdrop
      have hsnapshot : (s.table.push id ⟨name, addr⟩).snapshot id = s.table.snapshot id := by
        simp [push, setUndo, snapshot]
      rw [← hsnapshot] at hcreate
      have hactive' : ((s.table.push id ⟨name, addr⟩).txn id).phase = .active := by
        simpa [push] using hactive
      exact hdropped.createEntryNoLock hactive' hcreate

end Note

/-! ## Commits and rollbacks -/

/-- A chain whose versions are some of the old ones. -/
theorem Tracks.putChain (h : s.Tracks)
    (hsub : (chain.map (·.addr)).Sublist ((s.set.chain name).map (·.addr))) (n : Name) :
    (((s.set.putChain name chain).chain n).map (·.addr)).Nodup ∧
      ∀ e ∈ (s.set.putChain name chain).chain n, e.addr < s.set.nextAddr := by
  rw [chain_putChain]
  split
  · refine ⟨(h.nodup name).sublist hsub, fun e he => ?_⟩
    obtain ⟨e', he', heq⟩ := mem_map.mp (hsub.subset (mem_map_of_mem he))
    exact heq ▸ h.allocated name e' he'
  · exact ⟨h.nodup n, h.allocated n⟩

/-- The commit of a record marks the version of its change. -/
theorem Tracks.commitRecord (h : s.Tracks) (ht : s.table.nextPending id = some (record, cts, table))
    (hset : s.set.commitRecord cts record = some set) : Tracks { s with table, set } := by
  obtain ⟨hphase, rest, hpending, rfl⟩ := nextPending_eq_some ht
  have hmarked : ∀ n, ∀ c ∈ s.changesOf n, c.record ≠ record → ∀ ts, Marked s.table c ts →
      Marked (s.table.setPending id rest) c ts := fun n c hc hne ts hm =>
    marked_of_recorded ((h.recorded (mem_changesOf.mp hc).1 hm).setPending h.wf hphase hpending
      fun _ heq => absurd heq.symm hne)
  have hsees : ∀ a b, (s.table.txn a).phase ≠ .notStarted → s.table.Sees a b →
      (s.table.setPending id rest).Sees a b :=
    fun a b _ hs => hs.imp_right setPending_committedBefore_iff.mpr
  -- the record belongs to a change of `id`
  obtain ⟨c₀, hc₀, hrecord⟩ : ∃ c₀ ∈ s.log.filter (·.tx = id), c₀.record = record := by
    have hmem := h.pending id cts hphase record (by rw [hpending]; exact mem_cons_self)
    rw [h.undo id (by simp [commitTS, hphase])] at hmem
    exact mem_map.mp hmem
  obtain ⟨hlog, htx⟩ := mem_filter.mp hc₀
  simp only [decide_eq_true_eq] at htx
  subst hrecord htx
  have hmem : c₀ ∈ s.changesOf c₀.record.name := mem_changesOf.mpr ⟨hlog, rfl⟩
  have hhit : Marked (s.table.setPending c₀.tx rest) c₀ cts :=
    marked_of_recorded (recorded_commitTS (by simpa using hphase))
  obtain ⟨_, habove, hal', haddrs⟩ := (h.aligned hmem).setAbove (h.nodup _) hmem
    (fun c hc hne => hmarked _ c hc fun heq => hne (by rw [heq])) hhit hsees
  rw [commitRecord, habove, map_some, some.injEq] at hset
  subst hset
  constructor
  · exact (advance_setPending rest h.wf (by simp [hphase])).wf
  · intro n
    rcases eq_or_ne n c₀.record.name with rfl | hn
    · right
      rw [chain_putChain, if_pos rfl]
      exact hal'
    · refine (h.chained n).mono rfl (chain_putChain.trans (if_neg hn)) rfl
        (fun c hc => hmarked n c hc fun heq => hn ?_) hsees
      rw [← (mem_changesOf.mp hc).2, heq]
  · exact fun n => (h.putChain (haddrs ▸ .refl _) n).1
  · exact fun n => (h.putChain (haddrs ▸ .refl _) n).2
  · intro a hnone
    rw [setPending_undo]
    exact h.undo a (by simpa [commitTS] using hnone)
  · exact TxnTable.VisitsUndo.setPending h.pending hpending

/-- The newest change of a transaction that rolls back is on top of its chain. -/
theorem Tracks.top_of_rollingBack (h : s.Tracks) {c : Change Name Content}
    {newer older : List (Change Name Content)} (hlog : s.log = newer ++ c :: older)
    (hnewer : ∀ c' ∈ newer, c'.tx ≠ c.tx) (hphase : (s.table.txn c.tx).phase = .rollingBack) :
    newer.filter (·.record.name = c.record.name) = [] := by
  have hchanges : s.changesOf c.record.name = newer.filter (·.record.name = c.record.name) ++
      c :: older.filter (·.record.name = c.record.name) := by
    simp [changesOf, hlog]
  by_contra hne
  have hal := h.aligned (hchanges ▸ mem_append_right _ mem_cons_self)
  rw [hchanges] at hal
  obtain ⟨c', hc', hsees⟩ := hal.sees_above hne
  rcases hsees with heq | ⟨_, hcts, -⟩
  · exact hnewer c' (mem_filter.mp hc').1 heq.symm
  · rw [commitTS_eq_some, hphase] at hcts
    cases hcts

/-- The rollback of a record takes the version of its change off the chain. -/
theorem Tracks.rollbackRecord (h : s.Tracks) (ht : s.table.nextUndo id = some (record, table))
    (hset : s.set.rollbackRecord record = some set) :
    Tracks { s with table, set, log := s.log.eraseP (·.tx = id) } := by
  obtain ⟨hphase, rest, hundo, rfl⟩ := nextUndo_eq_some ht
  have hadv : s.table.Advance (s.table.setUndo id rest) :=
    advance_setUndo rest h.wf (by simp [hphase])
  have hmarked : ∀ c : Change Name Content, ∀ ts, Marked s.table c ts →
      Marked (s.table.setUndo id rest) c ts := by
    intro c ts hm
    refine ⟨hadv.version _ _ hm.version, fun cts hp => ?_⟩
    simpa using hm.pending cts (by simpa using hp)
  have hsees : ∀ a b, (s.table.txn a).phase ≠ .notStarted → s.table.Sees a b →
      (s.table.setUndo id rest).Sees a b :=
    fun a b _ hs => hs.imp_right setUndo_committedBefore_iff.mpr
  -- the record is that of the newest change of `id`
  have hfilter := h.undo id (by simp [commitTS, hphase])
  rw [hundo, eq_comm, map_eq_cons_iff] at hfilter
  obtain ⟨c, _, hcs, rfl, rfl⟩ := hfilter
  obtain ⟨newer, older, hlog, hnewer, htx, rfl⟩ := filter_eq_cons_iff.mp hcs
  simp only [decide_eq_true_eq] at hnewer htx
  subst htx
  have herase : s.log.eraseP (·.tx = c.tx) = newer ++ older := by
    rw [hlog, eraseP_append_right _ (by simpa using hnewer), eraseP_cons_of_pos (by simp)]
  have htop := h.top_of_rollingBack hlog hnewer hphase
  have hchanges : s.changesOf c.record.name =
      c :: older.filter (·.record.name = c.record.name) := by
    simp [changesOf, hlog, htop]
  have hal := h.aligned (hchanges ▸ mem_cons_self)
  rw [hchanges] at hal
  generalize hchain : s.set.chain c.record.name = chain at hal
  cases hal with
  | @push _ _ w e es hbelow _ _ haddr =>
    have hremove : removeAbove c.record.addr (w :: e :: es) = some (e :: es) := by
      simp [removeAbove, haddr]
    rw [rollbackRecord, hchain, hremove, map_some, some.injEq] at hset
    subst hset
    rw [herase]
    constructor
    · exact hadv.wf
    · intro n
      rcases eq_or_ne n c.record.name with rfl | hn
      · right
        have hnew : (newer ++ older).filter (·.record.name = c.record.name) =
            older.filter (·.record.name = c.record.name) := by simp [htop]
        show Aligned _ (s.base _) ((newer ++ older).filter _) _
        rw [chain_putChain, if_pos rfl, hnew]
        exact hbelow.mono (fun c _ => hmarked c) hsees
      · refine (h.chained n).mono rfl (chain_putChain.trans (if_neg hn)) ?_
          (fun c _ => hmarked c) hsees
        have hn' : c.record.name ≠ n := fun heq => hn heq.symm
        simp [changesOf, hlog, hn']
    · exact fun n => (h.putChain (hchain ▸ sublist_cons_self ..) n).1
    · exact fun n => (h.putChain (hchain ▸ sublist_cons_self ..) n).2
    · intro a hnone
      simp only [setUndo_undo]
      split
      · rename_i heq
        subst heq
        have hnil : newer.filter (·.tx = c.tx) = [] := by
          simpa [filter_eq_nil_iff] using hnewer
        rw [filter_append, hnil, nil_append]
      · rename_i hne
        have hne' : c.tx ≠ a := fun heq => hne heq.symm
        rw [h.undo a (by simpa [commitTS] using hnone), hlog]
        simp [hne']
    · exact TxnTable.VisitsUndo.setUndo h.pending hphase hundo

/-! ## Whole histories -/

/-- A set as `deserialize` builds it: one version of each entry, visible to everyone. -/
def Loaded (set : CatalogSet Name Content) : Prop :=
  ∀ name, set.chain name = [] ∨
    ∃ e, set.chain name = [e] ∧ e.timestamp = 0 ∧ e.name = name ∧ e.addr < set.nextAddr

theorem loaded_empty : Loaded ({} : CatalogSet Name Content) := fun _ => .inl rfl

theorem tracks_init (hset : Loaded set) : Tracks (init set) := by
  refine ⟨wellFormed_init, fun name => ?_, fun name => ?_, fun name => ?_,
    fun _ _ => rfl, fun _ _ hp => by cases hp⟩
  · rcases hset name with hnil | ⟨_, he, hts, -, -⟩
    · exact .inl ⟨hnil, rfl, by simp [init, hnil]⟩
    · right
      show Aligned _ ((set.chain name).head?.bind _) [] (set.chain name)
      rw [he]
      exact .bottom hts rfl
  · rcases hset name with hnil | ⟨_, he, -⟩
    · simp [init, hnil]
    · simp [init, he]
  · rcases hset name with hnil | ⟨_, he, -, -, hlt⟩
    · simp [init, hnil]
    · simpa [init, he] using hlt

theorem Tracks.step (h : s.Tracks) (hok : s.CallOk call) (hs : s.step call = some s') :
    s'.Tracks := by
  cases call with
  | begin | startCommit | finishCommit | startRollback | finishRollback =>
    obtain ⟨_, ht, rfl⟩ := map_eq_some_iff.mp hs
    exact h.retable (keeps_of_life h.wf (by grind))
  | create =>
    obtain ⟨hactive, rfl⟩ := step_of_active hs
    exact h.create hactive
  | drop =>
    obtain ⟨hactive, rfl⟩ := step_of_active hs
    exact h.drop hactive hok
  | alter =>
    obtain ⟨hactive, rfl⟩ := step_of_active hs
    exact h.alter hactive hok
  | commitRecord =>
    obtain ⟨⟨_, _, _⟩, ht, hs'⟩ := bind_eq_some_iff.mp hs
    obtain ⟨_, hset, rfl⟩ := map_eq_some_iff.mp hs'
    exact h.commitRecord ht hset
  | rollbackRecord =>
    obtain ⟨⟨_, _⟩, ht, hs'⟩ := bind_eq_some_iff.mp hs
    obtain ⟨_, hset, rfl⟩ := map_eq_some_iff.mp hs'
    exact h.rollbackRecord ht hset

theorem tracks_of_reachable (hset : Loaded set)
    (h : Reachable CatalogHistory.step (init set) CallOk s) : s.Tracks :=
  h.invariant Tracks (tracks_init hset) fun _ _ _ htracks hok hs => htracks.step hok hs

/-- The entry of a name that a transaction gets is the expected one. -/
theorem Tracks.view_visibleEntry (h : s.Tracks) (hstarted : (s.table.txn id).phase ≠ .notStarted)
    (hid : s.table.CommitBegun id = false) (name : Name) :
    (s.set.visibleEntry (s.table.snapshot id) name).bind CatalogEntry.view =
      s.expected id name := by
  unfold visibleEntry expected
  rcases h.chained name with ⟨hchain, hchanges, hbase⟩ | hal
  · rw [hchain, hchanges, hbase]
    rfl
  · exact hal.view_traverse h.wf hstarted hid

theorem mem_getEntries_view {v : Nat × Content} :
    (∃ e, (name, e) ∈ set.getEntries t ∧ e.view = some v) ↔
      (set.visibleEntry t name).bind CatalogEntry.view = some v := by
  rw [bind_eq_some_iff]
  refine exists_congr fun e => ?_
  rw [mem_getEntries]
  constructor
  · exact fun ⟨⟨hvis, _⟩, hview⟩ => ⟨hvis, hview⟩
  · rintro ⟨hvis, hview⟩
    obtain ⟨_, hc, -⟩ := map_eq_some_iff.mp hview
    exact ⟨⟨hvis, by simp [CatalogEntry.isDeleted, hc]⟩, hview⟩

/-- In every history whose calls are `CallOk`: `getEntries` returns to a transaction,
whose own commit has not begun, exactly the entries that its own operations and those of
the transactions committed by its start timestamp produced; and of two transactions that
changed the same name and did not roll the changes back, one sees the other. -/
theorem getEntries_eq_expected {set : CatalogSet Name Content} (hset : Loaded set)
    (h : Reachable CatalogHistory.step (init set) CallOk s) :
    (∀ id, (s.table.txn id).phase ≠ .notStarted → s.table.CommitBegun id = false →
      ∀ name v, (∃ e, (name, e) ∈ s.set.getEntries (s.table.snapshot id) ∧ e.view = some v) ↔
        s.expected id name = some v) ∧
    ∀ c ∈ s.log, ∀ c' ∈ s.log, c.record.name = c'.record.name →
      s.table.Sees c.tx c'.tx ∨ s.table.Sees c'.tx c.tx := by
  have htracks := tracks_of_reachable hset h
  constructor
  · intro id hstarted hid name v
    rw [mem_getEntries_view, htracks.view_visibleEntry hstarted hid]
  intro c hc c' hc' hname
  have hmem := mem_changesOf.mpr ⟨hc, rfl⟩
  have hmem' := mem_changesOf.mpr ⟨hc', hname.symm⟩
  let R : Change Name Content → Change Name Content → Prop := fun a b =>
    s.table.Sees a.tx b.tx ∨ s.table.Sees b.tx a.tx
  have : Std.Symm R := ⟨fun _ _ => Or.symm⟩
  have hpair : (s.changesOf c.record.name).Pairwise R :=
    ((htracks.aligned hmem).pairwise htracks.wf).imp .inl
  exact hpair.forall_of_forall (fun _ _ => .inl (.inl rfl)) hmem hmem'

/-- One transaction creates an entry and commits, a second one renames it and starts its
commit, a third one begins before the commit has ended and a fourth one drops the entry
after it. -/
def sampleCalls : List (CatalogCall Nat Nat) :=
  let a := startTransactionID + 1
  let b := startTransactionID + 2
  let d := startTransactionID + 4
  [.begin, .create a 7 10, .startCommit a 2, .commitRecord a, .finishCommit a, .begin,
    .alter b 7 (.rename 8), .startCommit b 3, .commitRecord b, .begin, .commitRecord b,
    .finishCommit b, .begin, .drop d 8 0]

theorem getEntries_eq_expected_sample :
    ∃ s : CatalogHistory Nat Nat, Reachable step (init {}) CallOk s ∧
      s.expected (startTransactionID + 3) 7 = some (0, 10) ∧
      s.expected (startTransactionID + 3) 8 = none ∧
      s.expected (startTransactionID + 4) 7 = none ∧
      s.expected (startTransactionID + 4) 8 = none := by
  refine exists_reachable_of_run sampleCalls (fun s =>
      (s.table.txn (startTransactionID + 3)).phase = .active ∧
      (7, ⟨1, 7, 0, 2, some 10⟩) ∈ s.set.getEntries (s.table.snapshot (startTransactionID + 3)) ∧
      s.expected (startTransactionID + 3) 8 = none ∧
      s.expected (startTransactionID + 4) 7 = none ∧
      s.expected (startTransactionID + 4) 8 = none) (by decide +kernel) ?_
  rintro s hs ⟨hactive, hentry, hnone⟩
  have hiff := (getEntries_eq_expected loaded_empty hs).1 (startTransactionID + 3)
    (by simp [hactive]) (by simp [TxnTable.CommitBegun, hactive])
  exact ⟨(hiff 7 _).mp ⟨_, hentry, rfl⟩, hnone⟩

/-- Two transactions alter one entry; the second one commits and the first one is still
active. -/
def twoAltersCalls : List (CatalogCall Nat Nat) :=
  let a := startTransactionID + 1
  let b := startTransactionID + 2
  let c := startTransactionID + 3
  [.begin, .create a 7 10, .startCommit a 2, .commitRecord a, .finishCommit a, .begin, .begin,
    .alter b 7 (.change (· + 1)), .alter c 7 (.change (· + 2)), .startCommit c 3,
    .commitRecord c, .finishCommit c, .begin]

/-- Both alterations succeed, and the commit of the second one marks the version of the
first one: a later transaction gets the entry of the transaction that is still active. -/
theorem getEntries_wrong_after_two_alters :
    ∃ s : CatalogHistory Nat Nat, Reachable step (init {}) Always s ∧
      (s.table.txn (startTransactionID + 2)).phase = .active ∧
      (s.table.txn (startTransactionID + 4)).phase = .active ∧
      s.expected (startTransactionID + 4) 7 = some (0, 12) ∧
      (∃ e, (7, e) ∈ s.set.getEntries (s.table.snapshot (startTransactionID + 4)) ∧
        e.view = some (0, 11)) ∧
      ∃ c ∈ s.log, ∃ c' ∈ s.log, c.record.name = c'.record.name ∧
        ¬ s.table.Sees c.tx c'.tx ∧ ¬ s.table.Sees c'.tx c.tx := by
  refine exists_reachable_of_run twoAltersCalls (fun s =>
      (s.table.txn (startTransactionID + 2)).phase = .active ∧
      (s.table.txn (startTransactionID + 4)).phase = .active ∧
      s.expected (startTransactionID + 4) 7 = some (0, 12) ∧
      (7, ⟨2, 7, 0, 3, some 11⟩) ∈ s.set.getEntries (s.table.snapshot (startTransactionID + 4)) ∧
      ∃ c ∈ s.log, ∃ c' ∈ s.log, c.record.name = c'.record.name ∧
        ¬ s.table.Sees c.tx c'.tx ∧ ¬ s.table.Sees c'.tx c.tx) (by decide +kernel) ?_
  rintro s - ⟨h2, h4, hexp, hmem, hlog⟩
  exact ⟨h2, h4, hexp, ⟨_, hmem, rfl⟩, hlog⟩

/-! ## The lookup by object ID -/

section Named

variable {set set' : CatalogSet Name Content} {t : Snapshot} {name : Name} {oid timestamp : Nat}
  {content : Option Content} {record : CatalogEntryRecord Name}
  {es es' : List (CatalogEntry Name Content)} {addr : Nat}

theorem named_emplaceNoLock (h : set.Named) :
    (set.emplaceNoLock name oid timestamp content).Named := by
  intro n e he
  rw [chain_emplaceNoLock] at he
  split_ifs at he with heq
  · rcases mem_cons.mp he with rfl | he
    · exact heq.symm
    · exact h n e he
  · exact h n e he

theorem named_createEntryNoLock (h : set.Named)
    (hs : set.createEntryNoLock t name oid content = .ok (set', record)) : set'.Named := by
  unfold createEntryNoLock at hs
  split at hs
  · cases hs
  split at hs
  · cases hs
    exact named_emplaceNoLock (named_emplaceNoLock h)
  split at hs
  · cases hs
  · split at hs
    · cases hs
    · cases hs
      exact named_emplaceNoLock h

theorem named_dropEntryNoLock (h : set.Named)
    (hs : set.dropEntryNoLock t name oid = .ok (set', record)) : set'.Named := by
  unfold dropEntryNoLock at hs
  split at hs
  · split at hs
    · cases hs
    · cases hs
      exact named_emplaceNoLock h
  · cases hs

theorem named_alterTableEntry (h : set.Named) (info : AlterInfo Name Content) :
    (set.alterTableEntry t name info).1.Named := by
  unfold alterTableEntry
  split
  · cases info with
    | change | addConnection => exact named_emplaceNoLock h
    | rename =>
      simp only [alterContent]
      split
      · exact h
      rename_i _ _ hdrop
      have hdropped := named_dropEntryNoLock h hdrop
      split
      · exact hdropped
      · rename_i _ _ hcreate
        exact named_createEntryNoLock hdropped hcreate
  · exact h

omit [DecidableEq Name] in
theorem setAbove_eq_some (h : setAbove addr cts es = some es') :
    ∃ above w e rest, es = above ++ w :: e :: rest ∧ e.addr = addr ∧
      es' = above ++ { w with timestamp := cts } :: e :: rest := by
  fun_induction setAbove addr cts es generalizing es' with
  | case1 w e rest haddr =>
    cases h
    exact ⟨[], w, e, rest, rfl, haddr, rfl⟩
  | case2 w _ _ _ ih =>
    obtain ⟨_, htail, rfl⟩ := map_eq_some_iff.mp h
    obtain ⟨above, w', e', rest', heq, haddr, rfl⟩ := ih htail
    exact ⟨w :: above, w', e', rest', by rw [heq]; rfl, haddr, rfl⟩
  | case3 => cases h

omit [DecidableEq Name] in
theorem removeAbove_eq_some (h : removeAbove addr es = some es') :
    ∃ above w e rest, es = above ++ w :: e :: rest ∧ e.addr = addr ∧ es' = above ++ e :: rest := by
  fun_induction removeAbove addr es generalizing es' with
  | case1 w e rest haddr =>
    cases h
    exact ⟨[], w, e, rest, rfl, haddr, rfl⟩
  | case2 w _ _ _ ih =>
    obtain ⟨_, htail, rfl⟩ := map_eq_some_iff.mp h
    obtain ⟨above, w', e', rest', heq, haddr, rfl⟩ := ih htail
    exact ⟨w :: above, w', e', rest', by rw [heq]; rfl, haddr, rfl⟩
  | case3 => cases h

theorem named_putChain (h : set.Named) (hchain : ∀ e ∈ chain, e.name = name) :
    (set.putChain name chain).Named := by
  intro n e he
  rw [chain_putChain] at he
  split_ifs at he with heq
  · rw [heq]
    exact hchain e he
  · exact h n e he

theorem named_commitRecord (h : set.Named) (hs : set.commitRecord cts record = some set') :
    set'.Named := by
  obtain ⟨_, hchain, rfl⟩ := map_eq_some_iff.mp hs
  obtain ⟨_, _, _, _, hes, -, rfl⟩ := setAbove_eq_some hchain
  have hname := h record.name
  simp only [hes] at hname
  refine named_putChain h ?_
  simpa only [forall_mem_append, forall_mem_cons] using hname

theorem named_rollbackRecord (h : set.Named) (hs : set.rollbackRecord record = some set') :
    set'.Named := by
  obtain ⟨_, hchain, rfl⟩ := map_eq_some_iff.mp hs
  obtain ⟨above, w, _, _, hes, -, rfl⟩ := removeAbove_eq_some hchain
  refine named_putChain h fun e' he' => h _ e' ?_
  rw [hes]
  exact (List.Sublist.append_left (sublist_cons_self w _) above).subset he'

theorem set_alter {id : Nat} : (s.alter id name info).set =
    (s.set.alterTableEntry (s.table.snapshot id) name info).1 := by
  unfold alter
  split
  all_goals
    rename_i heq
    rw [heq]
  all_goals rfl

theorem named_step (h : s.set.Named) (hs : s.step call = some s') : s'.set.Named := by
  cases call with
  | create id name content =>
    obtain ⟨-, rfl⟩ := step_of_active hs
    unfold create createEntry
    simp only
    cases hc : createEntryNoLock { s.set with nextOID := s.set.nextOID + 1 }
        (s.table.snapshot id) name s.set.nextOID (some content) with
    | error => exact h
    | ok created =>
      have hnext : CatalogSet.Named { s.set with nextOID := s.set.nextOID + 1 } := h
      exact named_createEntryNoLock hnext hc
  | drop id name oid =>
    obtain ⟨-, rfl⟩ := step_of_active hs
    unfold drop
    cases hd : s.set.dropEntryNoLock (s.table.snapshot id) name oid with
    | error => exact h
    | ok => exact named_dropEntryNoLock h hd
  | alter _ _ info =>
    obtain ⟨-, rfl⟩ := step_of_active hs
    rw [set_alter]
    exact named_alterTableEntry h info
  | commitRecord =>
    obtain ⟨⟨_, _, _⟩, -, hs'⟩ := bind_eq_some_iff.mp hs
    obtain ⟨_, hset, rfl⟩ := map_eq_some_iff.mp hs'
    exact named_commitRecord h hset
  | rollbackRecord =>
    obtain ⟨⟨_, _⟩, -, hs'⟩ := bind_eq_some_iff.mp hs
    obtain ⟨_, hset, rfl⟩ := map_eq_some_iff.mp hs'
    exact named_rollbackRecord h hset
  | begin | startCommit | finishCommit | startRollback | finishRollback =>
    obtain ⟨_, -, rfl⟩ := map_eq_some_iff.mp hs
    exact h

end Named

theorem named_of_reachable (hset : Loaded set)
    (h : Reachable CatalogHistory.step (init set) Always s) : s.set.Named := by
  refine h.invariant (fun s => s.set.Named) ?_ fun _ _ _ hnamed _ hs => named_step hnamed hs
  intro n e he
  replace he : e ∈ set.chain n := he
  rcases hset n with hnil | ⟨_, he', -, hname, -⟩
  · rw [hnil] at he
    cases he
  · rw [he', mem_singleton] at he
    rw [he]
    exact hname

/-- In every reachable state, for every transaction and whatever order the map iterates
in: the lookup by ID agrees with `getEntries` for every ID exactly when the newest
version of every visible entry has the entry's ID and no two visible entries share
one. -/
theorem getEntryOfOID_iff_oidsAgree {set : CatalogSet Name Content} (hset : Loaded set)
    (h : Reachable CatalogHistory.step (init set) Always s) {ordered : CatalogSet Name Content}
    (horder : ordered.entries.entries.Perm s.set.entries.entries) (t : Snapshot) :
    (∀ oid e, ordered.getEntryOfOID t oid = some e ↔
      ∃ n, (n, e) ∈ s.set.getEntries t ∧ e.oid = oid) ↔ s.set.OIDsAgree t := by
  have hchain : ∀ n, ordered.chain n = s.set.chain n := by
    intro n
    unfold chain
    rw [AList.perm_lookup horder]
  have hmem : ∀ n e, (n, e) ∈ s.set.getEntries t ↔ (n, e) ∈ ordered.getEntries t := by
    intro n e
    simp only [mem_getEntries, visibleEntry, hchain]
  have hnamed : ordered.Named := by
    intro n e he
    rw [hchain] at he
    exact named_of_reachable hset h n e he
  have hagree : s.set.OIDsAgree t ↔ ordered.OIDsAgree t := by
    constructor <;> rintro ⟨h1, h2⟩
    · simp only [hmem, ← hchain] at h1 h2
      exact ⟨h1, h2⟩
    · simp only [← hmem, hchain] at h1 h2
      exact ⟨h1, h2⟩
  simp only [hmem]
  rw [hagree]
  exact getEntryOfOID_iff_of_named hnamed

/-- An entry is created and committed; a second transaction begins; a third one drops
the entry, creates it again and commits. -/
def recreateCalls : List (CatalogCall Nat Nat) :=
  let a := startTransactionID + 1
  let c := startTransactionID + 3
  [.begin, .create a 7 10, .startCommit a 2, .commitRecord a, .finishCommit a, .begin, .begin,
    .drop c 7 0, .create c 7 20, .startCommit c 3, .commitRecord c, .commitRecord c,
    .finishCommit c]

theorem getEntryOfOID_iff_oidsAgree_sample :
    ∃ s : CatalogHistory Nat Nat, Reachable step (init {}) Always s ∧
      s.set.getEntryOfOID ⟨startTransactionID + 4, 3⟩ 1 = some ⟨3, 7, 1, 3, some 20⟩ ∧
      ¬ s.set.OIDsAgree (s.table.snapshot (startTransactionID + 2)) := by
  refine exists_reachable_of_run recreateCalls (fun s =>
      s.set.getEntryOfOID ⟨startTransactionID + 4, 3⟩ 1 = some ⟨3, 7, 1, 3, some 20⟩ ∧
      (7, ⟨1, 7, 0, 2, some 10⟩) ∈ s.set.getEntries (s.table.snapshot (startTransactionID + 2)) ∧
      s.set.getEntryOfOID (s.table.snapshot (startTransactionID + 2)) 0 = none)
    (by decide +kernel) ?_
  rintro s hs ⟨hnew, hold, hnone⟩
  refine ⟨hnew, fun hbad => ?_⟩
  have hfound := ((getEntryOfOID_iff_oidsAgree loaded_empty hs (.refl _) _).mpr hbad 0 _).mpr
    ⟨7, hold, rfl⟩
  rw [hnone] at hfound
  cases hfound

/-- The second transaction gets the entry from `getEntries`, but the lookup of its ID
finds nothing, and the lookup of the new ID finds it. -/
theorem getEntryOfOID_wrong_after_recreate :
    ∃ s : CatalogHistory Nat Nat, Reachable step (init {}) Always s ∧
      (s.table.txn (startTransactionID + 2)).phase = .active ∧
      s.set.getEntries (s.table.snapshot (startTransactionID + 2)) = [(7, ⟨1, 7, 0, 2, some 10⟩)] ∧
      s.set.getEntryOfOID (s.table.snapshot (startTransactionID + 2)) 0 = none ∧
      s.set.getEntryOfOID (s.table.snapshot (startTransactionID + 2)) 1 =
        some ⟨1, 7, 0, 2, some 10⟩ :=
  reachable_of_run recreateCalls (by decide +kernel)

end CatalogHistory

end Lbug.Catalog
