/-
  Storage/TableReclaim.lean --- every table that somebody sees has its storage.

  The viewers of a state are the snapshot of the checkpoint, the transactions that are not
  finished, and a transaction that begins now.  Each call leaves to every viewer the tables
  it saw, up to the tables that the call adds; only a round of `reclaimDroppedTables` takes
  storage away.
-/
import Lbug.Storage.TableStorage

namespace Lbug.Storage

open Catalog Transaction Foundation List Function TxnTable CatalogSet CatalogHistory StorageState

variable {Name : Type} {e : CatalogEntry Name TableEntry}
  {above rest : List (CatalogEntry Name TableEntry)} {chain : List (CatalogEntry Name TableEntry)}
  {txn : Txn (CatalogEntryRecord Name)} {info : AlterInfo Name TableEntry}
  {w : CatalogEntry Name TableEntry}

/-! ## Tables that a transaction sees -/

section Tables

variable {set set' : CatalogSet Name TableEntry} {t v v' : Snapshot} {x : StoredTable} {name : Name}
  {oid timestamp : Nat} {content : Option TableEntry} {record : CatalogEntryRecord Name}

theorem mem_entryTables : x ∈ entryTables e ↔ ∃ c, e.content = some c ∧ x ∈ c.tables e.oid := by
  unfold entryTables
  cases e.content <;> simp

theorem traverseVersionChains_congr
    (h : ∀ e ∈ chain, visible v.startTS v.id e.timestamp = visible v'.startTS v'.id e.timestamp) :
    traverseVersionChains v chain = traverseVersionChains v' chain := by
  induction chain with
  | nil => rfl
  | cons e _ ih =>
    rw [traverseVersionChains, traverseVersionChains, find?_cons, find?_cons, h e mem_cons_self]
    split
    · rfl
    · exact ih fun e' he' => h e' (mem_cons_of_mem _ he')

variable [DecidableEq Name]

theorem mem_tablesOf :
    x ∈ tablesOf set v ↔ ∃ n e, set.visibleEntry v n = some e ∧ x ∈ entryTables e := by
  rw [tablesOf, mem_flatMap]
  constructor
  · rintro ⟨⟨n, e⟩, hmem, hx⟩
    exact ⟨n, e, (mem_getEntries.mp hmem).1, hx⟩
  · rintro ⟨n, e, he, hx⟩
    obtain ⟨_, hc, -⟩ := mem_entryTables.mp hx
    exact ⟨(n, e), mem_getEntries.mpr ⟨he, by simp [CatalogEntry.isDeleted, hc]⟩, hx⟩

theorem visibleEntry_of_newest {newest : CatalogEntry Name TableEntry}
    (hhead : (set.chain name).head? = some newest) (hle : newest.timestamp ≤ v.startTS) :
    set.visibleEntry v name = some newest := by
  obtain ⟨_, hchain⟩ := head?_eq_some_iff.mp hhead
  rw [visibleEntry, hchain, traverseVersionChains, find?_cons,
    visible_iff.mpr (.inr hle)]

/-- The first entry that passes a weaker test, if it passes the stronger one. -/
theorem find?_of_imp {α : Type*} {p q : α → Bool} {l : List α} {a : α} (h : l.find? p = some a)
    (himp : ∀ b, q b = true → p b = true) (ha : q a = true) : l.find? q = some a := by
  rw [find?_eq_some_iff_append] at h ⊢
  obtain ⟨-, as, bs, hl, hbefore⟩ := h
  refine ⟨ha, as, bs, hl, fun b hb => ?_⟩
  simpa using mt (himp b) (by simpa using hbefore b hb)

/-- Two transactions to which the same versions are visible see the same tables. -/
theorem mem_tablesOf_congr (h : ∀ n, ∀ e ∈ set.chain n,
    visible v.startTS v.id e.timestamp = visible v'.startTS v'.id e.timestamp) :
    x ∈ tablesOf set v ↔ x ∈ tablesOf set v' := by
  have hsame : ∀ n, set.visibleEntry v n = set.visibleEntry v' n := fun n =>
    traverseVersionChains_congr (h n)
  rw [mem_tablesOf, mem_tablesOf]
  simp only [hsame]

/-- A transaction without versions of its own sees what the snapshot at its start has. -/
theorem mem_tablesOf_snapshotTxn {id ts : Nat} (h : ∀ n, ∀ e ∈ set.chain n, e.timestamp ≠ id) :
    x ∈ tablesOf set ⟨id, ts⟩ ↔ x ∈ tablesOf set (snapshotTxn ts) := by
  refine mem_tablesOf_congr fun n e he => ?_
  have hzero : e.timestamp = dummyTransactionID → e.timestamp ≤ ts := fun heq => by
    rw [heq]
    exact Nat.zero_le _
  rw [Bool.eq_iff_iff, visible_iff, visible_iff]
  exact ⟨fun hor => .inr (hor.resolve_left (h n e he)), fun hor =>
    .inr (hor.elim hzero fun hle => hle)⟩

/-- A new version shows its tables to those who see it, and hides tables at most. -/
theorem mem_tablesOf_emplaceNoLock
    (h : x ∈ tablesOf (set.emplaceNoLock name oid timestamp content) v) :
    x ∈ tablesOf set v ∨
      visible v.startTS v.id timestamp = true ∧ ∃ c, content = some c ∧ x ∈ c.tables oid := by
  obtain ⟨n, e, he, hx⟩ := mem_tablesOf.mp h
  rw [visibleEntry, chain_emplaceNoLock, traverseVersionChains] at he
  split at he
  · rw [find?_cons] at he
    split at he
    · rename_i hvisible
      cases he
      exact .inr ⟨hvisible, mem_entryTables.mp hx⟩
    · exact .inl (mem_tablesOf.mpr ⟨n, e, he, hx⟩)
  · exact .inl (mem_tablesOf.mpr ⟨n, e, he, hx⟩)

theorem mem_tablesOf_createEntryNoLock
    (hset : set.createEntryNoLock t name oid content = .ok (set', record))
    (h : x ∈ tablesOf set' v) :
    x ∈ tablesOf set v ∨
      visible v.startTS v.id t.id = true ∧ ∃ c, content = some c ∧ x ∈ c.tables oid := by
  unfold createEntryNoLock at hset
  split at hset
  · cases hset
  split at hset
  · cases hset
    exact (mem_tablesOf_emplaceNoLock h).imp_left fun h =>
      (mem_tablesOf_emplaceNoLock h).resolve_right (by simp)
  · split at hset
    · cases hset
    · split at hset
      · cases hset
      · cases hset
        exact mem_tablesOf_emplaceNoLock h

theorem mem_tablesOf_dropEntryNoLock
    (hset : set.dropEntryNoLock t name oid = .ok (set', record)) (h : x ∈ tablesOf set' v) :
    x ∈ tablesOf set v := by
  unfold dropEntryNoLock at hset
  split at hset
  · split at hset
    · cases hset
    · cases hset
      exact (mem_tablesOf_emplaceNoLock h).resolve_right (by simp)
  · cases hset

/-- An alteration shows the altered entry to its transaction. -/
theorem mem_tablesOf_alterTableEntry (h : x ∈ tablesOf (set.alterTableEntry t name info).1 v) :
    x ∈ tablesOf set v ∨ visible v.startTS v.id t.id = true ∧
      ∃ e c, set.visibleEntry t name = some e ∧ e.content = some c ∧
        x ∈ (alterContent set.nextOID info c).1.tables e.oid := by
  unfold alterTableEntry at h
  split at h
  · rename_i _ _ _ _ c hentry
    cases info with
    | rename =>
      dsimp only [alterContent] at h
      split at h
      · exact .inl h
      rename_i _ _ hdrop
      split at h
      · exact .inl (mem_tablesOf_dropEntryNoLock hdrop h)
      · rename_i _ _ hcreate
        rcases mem_tablesOf_createEntryNoLock hcreate h with h | ⟨hvisible, _, ⟨⟩, hx⟩
        · exact .inl (mem_tablesOf_dropEntryNoLock hdrop h)
        · exact .inr ⟨hvisible, _, c, hentry, rfl, hx⟩
    | change | addConnection =>
      rcases mem_tablesOf_emplaceNoLock h with h | ⟨hvisible, _, ⟨⟩, hx⟩
      · exact .inl h
      · exact .inr ⟨hvisible, _, c, hentry, rfl, hx⟩
  · exact .inl h

end Tables

/-! ## Versions of a chain -/

section Versions

variable {tb : TxnTable (CatalogEntryRecord Name)} {base : Option (Nat × TableEntry)}
  {cs : List (Change Name TableEntry)} {es es' : List (CatalogEntry Name TableEntry)}

/-- Every version was there from the start or is the one of a change. -/
theorem timestamp_of_aligned (h : Aligned tb base cs es) (he : e ∈ es) :
    e.timestamp = 0 ∨ ∃ a, tb.VersionOf a e.timestamp := by
  induction h with
  | bottom hts =>
    rw [mem_singleton.mp he]
    exact .inl hts
  | push _ hmarked _ _ _ ih =>
    rcases mem_cons.mp he with rfl | he
    · exact .inr ⟨_, hmarked.version⟩
    · exact ih he

/-- The version above the record of a change is the one of the change. -/
theorem marked_above (h : Aligned tb base cs es) (hnodup : (es.map (·.addr)).Nodup)
    {c : Change Name TableEntry} (hc : c ∈ cs) (hes : es = above ++ w :: e :: rest)
    (haddr : e.addr = c.record.addr) :
    Marked tb c w.timestamp := by
  induction h generalizing above with
  | bottom => cases hc
  | @push _ _ _ _ es'' hrest hmarked _ hrecord _ ih =>
    have hnodup' := (nodup_cons.mp hnodup).2
    cases above with
    | nil =>
      cases hes
      rcases mem_cons.mp hc with rfl | hc
      · exact hmarked
      · exact absurd haddr.symm (hrest.addr_ne hnodup' c hc)
    | cons _ above =>
      obtain ⟨rfl, hes'⟩ := cons.inj hes
      rcases mem_cons.mp hc with rfl | hc
      · refine absurd ?_ (nodup_cons.mp hnodup').1
        have htail : es'' = (above ++ w :: e :: rest).tail := congrArg tail hes'
        dsimp only
        rw [← hrecord, ← haddr, htail]
        refine mem_map_of_mem ?_
        cases above <;> simp
      · exact ih hnodup' hc hes'

end Versions

/-! ## Calls of transactions to the catalog -/

namespace StorageState

section Views

variable {tb tb' : TxnTable (CatalogEntryRecord Name)} {id a : Nat} {v : Snapshot}

theorem viewOf_eq_some : viewOf tb id = some v ↔ (tb.txn id).phase = .active ∧ v = tb.snapshot id ∨
      ∃ commitTS, (tb.txn id).phase = .committing commitTS ∧ v = ⟨id, commitTS⟩ := by
  unfold viewOf
  cases hphase : (tb.txn id).phase <;> simp [eq_comm]

theorem viewOf_congr (hphase : (tb'.txn a).phase = (tb.txn a).phase)
    (hstart : (tb'.txn a).startTS = (tb.txn a).startTS) : viewOf tb' a = viewOf tb a := by
  rw [viewOf, viewOf, hphase, snapshot, snapshot, hstart]

/-- The table of transactions is the same up to undo buffers. -/
structure SameViews (tb tb' : TxnTable (CatalogEntryRecord Name)) : Prop where
  lastTimestamp : tb'.lastTimestamp = tb.lastTimestamp
  lastTransactionID : tb'.lastTransactionID = tb.lastTransactionID
  viewOf : ∀ a, viewOf tb' a = viewOf tb a

theorem SameViews.refl : SameViews tb tb := ⟨rfl, rfl, fun _ => rfl⟩

theorem sameViews_put (hphase : txn.phase = (tb.txn id).phase)
    (hstart : txn.startTS = (tb.txn id).startTS) :
    SameViews tb (tb.put id txn) :=
  ⟨rfl, rfl, fun a => viewOf_congr (put_apply Txn.phase hphase a) (put_apply Txn.startTS hstart a)⟩

theorem SameViews.push (h : SameViews tb tb') (record : CatalogEntryRecord Name) :
    SameViews tb (tb'.push id record) :=
  have hput : SameViews tb' (tb'.push id record) := sameViews_put rfl rfl
  ⟨hput.lastTimestamp.trans h.lastTimestamp, hput.lastTransactionID.trans h.lastTransactionID,
    fun a => (hput.viewOf a).trans (h.viewOf a)⟩

end Views

section Catalog

variable [DecidableEq Name] {c : CatalogHistory Name TableEntry} {id oid : Nat} {name : Name}
  {entry : TableEntry}
  {info : AlterInfo Name TableEntry} {x : StoredTable} {v : Snapshot}

theorem set_create : (c.create id name entry).set =
    (c.set.createEntry (c.table.snapshot id) name entry).1 := by
  unfold CatalogHistory.create
  split
  · rename_i heq
    rw [heq]
  · rename_i heq
    rw [heq]
    rfl

theorem sameViews_create : SameViews c.table (c.create id name entry).table := by
  unfold CatalogHistory.create
  split
  · exact .refl
  · exact SameViews.refl.push _

theorem sameViews_alter : SameViews c.table (c.alter id name info).table := by
  unfold alter
  split
  · exact SameViews.refl.push _
  · exact (SameViews.refl.push _).push _
  · exact .refl

theorem sameViews_drop : SameViews c.table (c.drop id name oid).table := by
  unfold CatalogHistory.drop
  split
  · exact .refl
  · exact SameViews.refl.push _

theorem mem_tablesOf_drop (h : x ∈ tablesOf (c.drop id name oid).set v) : x ∈ tablesOf c.set v := by
  unfold CatalogHistory.drop at h
  split at h
  · exact h
  · rename_i heq
    exact mem_tablesOf_dropEntryNoLock heq h

/-- A created entry shows its tables to its transaction. -/
theorem mem_tablesOf_create (h : x ∈ tablesOf (c.create id name entry).set v) :
    x ∈ tablesOf c.set v ∨
      (∃ record, (c.set.createEntry (c.table.snapshot id) name entry).2 = .ok record) ∧
        x ∈ entry.tables c.set.nextOID := by
  rw [set_create] at h
  unfold createEntry at h ⊢
  dsimp only at h ⊢
  split at h
  · exact .inl h
  · rename_i _ record heq
    rcases mem_tablesOf_createEntryNoLock heq h with h | ⟨-, _, ⟨⟩, hx⟩
    · exact .inl h
    · exact .inr ⟨⟨record, rfl⟩, hx⟩

end Catalog

/-! ## The viewers -/

variable {s s' : StorageState Name} {v : Snapshot} {x : StoredTable} {id cts : Nat} {name : Name}
  {table : TxnTable (CatalogEntryRecord Name)} {set : CatalogSet Name TableEntry}
  {added : List StoredTable} {entry : TableEntry} {n : Name}

theorem mem_viewers (hwf : s.catalog.table.WellFormed) :
    v ∈ s.viewers ↔ v = snapshotTxn s.catalog.table.lastTimestamp ∨
      (∃ ts, s.snapshotTS = some ts ∧ v = snapshotTxn ts) ∨
      ∃ id, viewOf s.catalog.table id = some v := by
  rw [viewers, mem_append, mem_cons, or_assoc]
  refine or_congr Iff.rfl (or_congr ?_ ?_)
  · simp [eq_comm]
  rw [mem_filterMap]
  refine ⟨fun ⟨id, _, hid⟩ => ⟨id, hid⟩, fun ⟨id, hid⟩ => ⟨id, ?_, hid⟩⟩
  have hstarted := hwf.started id fun hphase => by
    rw [viewOf, hphase] at hid
    cases hid
  rw [mem_range'_1]
  omega

theorem viewers_congr (htable : SameViews s.catalog.table s'.catalog.table)
    (hsnapshot : s'.snapshotTS = s.snapshotTS) : s'.viewers = s.viewers := by
  have hviews : viewOf s'.catalog.table = viewOf s.catalog.table := funext htable.viewOf
  rw [viewers, viewers, htable.lastTimestamp, htable.lastTransactionID, hviews, hsnapshot]

variable [DecidableEq Name]

/-- Every table that a viewer sees has its storage. -/
structure Inv (s : StorageState Name) : Prop where
  tracks : s.catalog.Tracks
  snapshot_le : ∀ ts, s.snapshotTS = some ts → ts ≤ s.catalog.table.lastTimestamp
  stored : ∀ v ∈ s.viewers, ∀ x ∈ tablesOf s.catalog.set v, x ∈ s.tables

/-- What a viewer sees afterwards a viewer has seen before, or it is there. -/
theorem Inv.mono (h : s.Inv) (htracks : s'.catalog.Tracks)
    (hsnapshot : ∀ ts, s'.snapshotTS = some ts → ts ≤ s'.catalog.table.lastTimestamp)
    (hkeep : ∀ x ∈ s.tables, x ∈ s'.tables)
    (hviews : ∀ v ∈ s'.viewers, ∀ x ∈ tablesOf s'.catalog.set v,
      (∃ v' ∈ s.viewers, x ∈ tablesOf s.catalog.set v') ∨ x ∈ s'.tables) : s'.Inv := by
  refine ⟨htracks, hsnapshot, fun v hv x hx => ?_⟩
  rcases hviews v hv x hx with ⟨v', hv', hx'⟩ | hx'
  · exact hkeep x (h.stored v' hv' x hx')
  · exact hx'

section

variable (h : s.Inv) (hv : v ∈ s.viewers)

include h hv

theorem Inv.viewer_lt : v.startTS < startTransactionID := by
  have hwf := h.tracks.wf
  have hlast := hwf.timestamp_lt
  rcases (mem_viewers hwf).mp hv with rfl | ⟨ts, hts, rfl⟩ | ⟨id, hid⟩
  · exact hlast
  · exact lt_of_le_of_lt (h.snapshot_le ts hts) hlast
  · rcases viewOf_eq_some.mp hid with ⟨-, rfl⟩ | ⟨cts, hphase, rfl⟩
    · exact lt_of_le_of_lt (hwf.startTS_le id) hlast
    · exact (hwf.committing id cts hphase).2.2

/-- A viewer that is a transaction is named by its ID. -/
theorem Inv.viewer_id (hid : v.id ≠ dummyTransactionID) : viewOf s.catalog.table v.id = some v := by
  rcases (mem_viewers h.tracks.wf).mp hv with rfl | ⟨_, -, rfl⟩ | ⟨id, hview⟩
  · exact absurd rfl hid
  · exact absurd rfl hid
  · have hsame : v.id = id := by
      rcases viewOf_eq_some.mp hview with ⟨-, rfl⟩ | ⟨_, -, rfl⟩ <;> rfl
    rw [hsame]
    exact hview

/-- A version that a transaction has not committed is visible to that transaction only. -/
theorem Inv.eq_of_visible {T : Nat} (hT : startTransactionID < T)
    (hvisible : visible v.startTS v.id T = true) : v.id = T := by
  have hlt := h.viewer_lt hv
  rcases visible_iff.mp hvisible with heq | hle
  · exact heq.symm
  · omega

end

/-- A change of the catalog by an active transaction. -/
theorem Inv.change (h : s.Inv) {catalog : CatalogHistory Name TableEntry}
    (added : List StoredTable) (htracks : catalog.Tracks)
    (hsame : SameViews s.catalog.table catalog.table)
    (htables : ∀ v ∈ s.viewers, ∀ x ∈ tablesOf catalog.set v,
      (∃ v' ∈ s.viewers, x ∈ tablesOf s.catalog.set v') ∨ x ∈ added) :
    Inv { s with catalog, tables := s.tables ++ added } := by
  refine h.mono htracks (fun ts hts => ?_) (fun x hx => mem_append_left _ hx) fun v hv x hx => ?_
  · rw [hsame.lastTimestamp]
    exact h.snapshot_le ts hts
  · have hsameViewers : viewers { s with catalog, tables := s.tables ++ added } = s.viewers :=
      viewers_congr hsame rfl
    rw [hsameViewers] at hv
    exact (htables v hv x hx).imp_right (mem_append_right _)

theorem ddl_eq_some {call : CatalogCall Name TableEntry} (hs : s.ddl id call added = some s') :
    ∃ catalog, s.catalog.step call = some catalog ∧
      s' = { s with catalog, tables := s.tables ++ added } := by
  unfold ddl catalogStep at hs
  split at hs
  · obtain ⟨_, hs₁, rfl⟩ := Option.map_eq_some_iff.mp hs
    obtain ⟨catalog, hcatalog, rfl⟩ := Option.map_eq_some_iff.mp hs₁
    exact ⟨catalog, hcatalog, rfl⟩
  · cases hs

section

variable (h : s.Inv)

include h

theorem Inv.create (hs : s.create id name entry = some s') : s'.Inv := by
  -- the added tables are those of the entry if it is created
  have hadded : ∃ added, s.ddl id (.create id name entry) added = some s' ∧
      ∀ record, (s.catalog.set.createEntry (s.catalog.table.snapshot id) name entry).2 =
        .ok record → added = entry.tables s.catalog.set.nextOID := by
    unfold StorageState.create at hs
    dsimp only at hs
    split at hs
    · split at hs
      · cases hs
      · exact ⟨_, hs, fun _ _ => rfl⟩
    · rename_i herror
      refine ⟨_, hs, fun record hok => ?_⟩
      rw [herror] at hok
      cases hok
  obtain ⟨_, hddl, hok⟩ := hadded
  obtain ⟨_, hcatalog, rfl⟩ := ddl_eq_some hddl
  obtain ⟨hactive, rfl⟩ := step_of_active hcatalog
  refine h.change _ (h.tracks.create hactive) sameViews_create fun v hv x hx => ?_
  rcases mem_tablesOf_create hx with hx | ⟨⟨record, hrecord⟩, hx⟩
  · exact .inl ⟨v, hv, hx⟩
  · rw [hok record hrecord]
    exact .inr hx

theorem Inv.setNextOID (k : Nat) :
    Inv { s with catalog := { s.catalog with set := { s.catalog.set with nextOID := k } } } :=
  ⟨h.tracks.setNextOID k, h.snapshot_le, h.stored⟩

theorem Inv.drop {oid : Nat} (hok : s.catalog.CallOk (.drop id name oid))
    (hs : s.ddl id (.drop id name oid) [] = some s') : s'.Inv := by
  obtain ⟨_, hcatalog, rfl⟩ := ddl_eq_some hs
  obtain ⟨hactive, rfl⟩ := step_of_active hcatalog
  exact h.change _ (h.tracks.drop hactive hok) sameViews_drop fun v hv x hx =>
    .inl ⟨v, hv, mem_tablesOf_drop hx⟩

/-- An alteration that shows the tables of the entry and the added ones. -/
theorem Inv.alter (hok : s.catalog.CallOk (.alter id name info))
    (hinfo : ∀ oid entry, s.seenBy id name = some (oid, entry) →
      ∀ x ∈ (CatalogSet.alterContent s.catalog.set.nextOID info entry).1.tables oid,
        x ∈ entry.tables oid ∨ x ∈ added) (hs : s.ddl id (.alter id name info) added = some s') :
    s'.Inv := by
  obtain ⟨catalog, hcatalog, rfl⟩ := ddl_eq_some hs
  obtain ⟨hactive, rfl⟩ := step_of_active hcatalog
  refine h.change _ (h.tracks.alter hactive hok) sameViews_alter fun v hv x hx => ?_
  rw [set_alter] at hx
  rcases mem_tablesOf_alterTableEntry hx with hx | ⟨-, e, c, he, hc, hx⟩
  · exact .inl ⟨v, hv, hx⟩
  have hseen : s.seenBy id name = some (e.oid, c) := by
    rw [seenBy, he, Option.bind_some, CatalogEntry.view, hc, Option.map_some]
  refine (hinfo _ _ hseen x hx).imp_left fun hx => ⟨s.catalog.table.snapshot id, ?_, ?_⟩
  · exact (mem_viewers h.tracks.wf).mpr (.inr (.inr ⟨id, viewOf_eq_some.mpr (.inl ⟨hactive, rfl⟩)⟩))
  · exact mem_tablesOf.mpr ⟨name, e, he, mem_entryTables.mpr ⟨c, hc, hx⟩⟩

/-! ## The life of a transaction -/

theorem Inv.timestamp (he : e ∈ s.catalog.set.chain n) :
    e.timestamp = 0 ∨ ∃ a, s.catalog.table.VersionOf a e.timestamp := by
  rcases h.tracks.chained n with ⟨hnil, -, -⟩ | haligned
  · rw [hnil] at he
    cases he
  · exact timestamp_of_aligned haligned he

theorem Inv.lastViewer : snapshotTxn s.catalog.table.lastTimestamp ∈ s.viewers :=
  (mem_viewers h.tracks.wf).mpr (.inl rfl)

theorem Inv.viewer_of_viewOf (id : Nat) (hid : viewOf s.catalog.table id = some v) :
    v ∈ s.viewers :=
  (mem_viewers h.tracks.wf).mpr (.inr (.inr ⟨id, hid⟩))

/-- A step in the life of the transaction `id` that leaves the set as it is. -/
theorem Inv.retable (hkeeps : s.catalog.table.Keeps table)
    (hlast : s.catalog.table.lastTimestamp ≤ table.lastTimestamp)
    (hothers : ∀ a, a ≠ id → table.txn a = s.catalog.table.txn a)
    (hnew : ∀ x ∈ tablesOf s.catalog.set (snapshotTxn table.lastTimestamp),
      ∃ v ∈ s.viewers, x ∈ tablesOf s.catalog.set v)
    (hview : ∀ v, viewOf table id = some v → ∀ x ∈ tablesOf s.catalog.set v,
      ∃ v' ∈ s.viewers, x ∈ tablesOf s.catalog.set v') :
    Inv { s with catalog := { s.catalog with table } } := by
  have htracks := h.tracks.retable hkeeps
  refine h.mono htracks (fun ts hts => le_trans (h.snapshot_le ts hts) hlast)
    (fun x hx => hx) fun v hv x hx => .inl ?_
  rcases (mem_viewers htracks.wf).mp hv with rfl | ⟨ts, hts, rfl⟩ | ⟨a, ha⟩
  · exact hnew x hx
  · exact ⟨_, (mem_viewers h.tracks.wf).mpr (.inr (.inl ⟨ts, hts, rfl⟩)), hx⟩
  · rcases eq_or_ne a id with rfl | hne
    · exact hview v ha x hx
    · refine ⟨v, h.viewer_of_viewOf a ?_, hx⟩
      rw [← ha]
      exact (viewOf_congr (by rw [hothers a hne]) (by rw [hothers a hne])).symm

theorem Inv.begin (hs : s.catalog.table.begin = some table) :
    Inv { s with catalog := { s.catalog with table } } := by
  have hwf := h.tracks.wf
  obtain ⟨-, rfl⟩ := begin_eq_some hs
  refine h.retable (lifeStep_begin hwf hs).keeps (le_refl _)
    (fun a ha => update_of_ne ha _ _) (fun x hx => ⟨_, h.lastViewer, hx⟩) fun v hid x hx => ?_
  -- the new transaction sees what a transaction that begins now saw
  have hv : v = ⟨s.catalog.table.lastTransactionID + 1, s.catalog.table.lastTimestamp⟩ := by
    rcases viewOf_eq_some.mp hid with ⟨-, rfl⟩ | ⟨_, hphase, -⟩
    · simp [snapshot]
    · simp at hphase
  subst hv
  refine ⟨_, h.lastViewer, (mem_tablesOf_snapshotTxn fun n e he heq => ?_).mp hx⟩
  have hge := hwf.id_ge
  rcases h.timestamp he with hzero | ⟨_, ha⟩
  · omega
  · rcases hwf.version_cases ha with ⟨hversion, -⟩ | ⟨hlt, -⟩
    · have hfresh := hwf.fresh
      rw [← heq, hversion] at hfresh
      exact ha.started hfresh
    · omega

/-- A commit sees the changes of its transaction and all that is committed. -/
theorem Inv.startCommit (hs : s.catalog.table.startCommit id cts = some table) :
    Inv { s with catalog := { s.catalog with table } } := by
  have hwf := h.tracks.wf
  obtain ⟨hactive, hcommitter, hlt, hcts, rfl⟩ := startCommit_eq_some hs
  refine h.retable (lifeStep_startCommit hwf hs).keeps (le_refl _)
    (fun a ha => update_of_ne ha _ _) (fun x hx => ⟨_, h.lastViewer, hx⟩) fun v ha x hx => ?_
  have hv : v = ⟨id, cts⟩ := by
    rcases viewOf_eq_some.mp ha with ⟨hphase, -⟩ | ⟨_, hphase, rfl⟩
    · simp at hphase
    · simp at hphase
      rw [hphase]
  subst hv
  obtain ⟨n, e, he, hx⟩ := mem_tablesOf.mp hx
  have hmem := mem_of_find?_eq_some he
  -- the version is one of the transaction, or it was committed before
  have hvisible := find?_some he
  have hself : viewOf s.catalog.table id = some (s.catalog.table.snapshot id) :=
    viewOf_eq_some.mpr (.inl ⟨hactive, rfl⟩)
  have hstart := hwf.startTS_le id
  by_cases hown : e.timestamp = id
  · refine ⟨_, h.viewer_of_viewOf id hself, mem_tablesOf.mpr ⟨n, e, ?_, hx⟩⟩
    refine find?_of_imp he (fun e' hvis => ?_) (visible_iff.mpr (.inl hown))
    exact visible_iff.mpr ((visible_iff.mp hvis).imp_right fun hle =>
      le_trans hle (le_of_lt (lt_of_le_of_lt hstart hlt)))
  · refine ⟨_, h.lastViewer, mem_tablesOf.mpr ⟨n, e, ?_, hx⟩⟩
    have hle : e.timestamp ≤ cts := (visible_iff.mp hvisible).resolve_left hown
    refine find?_of_imp he (fun e' hvis => visible_iff.mpr (.inr ?_)) (visible_iff.mpr (.inr ?_))
    · exact (visible_iff.mp hvis).elim (fun heq => heq ▸ Nat.zero_le _)
        fun hle' => le_trans hle' (le_of_lt hlt)
    · rcases h.timestamp hmem with hzero | ⟨b, hb⟩
      · rw [hzero]
        exact Nat.zero_le _
      rcases hwf.version_cases hb with ⟨-, hgt, -⟩ | ⟨-, hphase | hphase⟩
      · omega
      · have hcommitting := (hwf.committing b _ hphase).1
        rw [hcommitter] at hcommitting
        cases hcommitting
      · exact (hwf.committed b _ hphase).2

/-- When a commit ends, a new transaction sees what the commit saw. -/
theorem Inv.finishCommit (hs : s.catalog.table.finishCommit id = some table) :
    Inv { s with catalog := { s.catalog with table } } := by
  have hwf := h.tracks.wf
  have hkeeps := keeps_finishCommit hwf hs
  have htracks := h.tracks.retable hkeeps
  obtain ⟨cts, hphase, -, rfl⟩ := finishCommit_eq_some hs
  obtain ⟨-, hlt, hcts⟩ := hwf.committing id cts hphase
  refine h.retable hkeeps (le_of_lt hlt) (fun a ha => update_of_ne ha _ _)
    (fun x hx => ?_) fun v ha x hx => ?_
  · refine ⟨⟨id, cts⟩, h.viewer_of_viewOf id (viewOf_eq_some.mpr (.inr ⟨cts, hphase, rfl⟩)),
      (mem_tablesOf_snapshotTxn fun n e he heq => ?_).mpr hx⟩
    -- no version has the ID of the transaction any more
    have hgt := (hwf.started id (by simp [hphase])).1
    rcases htracks.chained n with ⟨hnil, -, -⟩ | haligned
    · rw [show s.catalog.set.chain n = [] from hnil] at he
      cases he
    rcases timestamp_of_aligned haligned he with hzero | ⟨_, ha⟩
    · omega
    · rcases htracks.wf.version_cases ha with ⟨hversion, -, -, hnone⟩ | ⟨hsmall, -⟩
      · rw [← hversion, heq] at hnone
        simp [commitTS] at hnone
      · omega
  · rcases viewOf_eq_some.mp ha with ⟨hphase', -⟩ | ⟨_, hphase', -⟩ <;> simp at hphase'

/-- A transaction that rolls back sees nothing any more. -/
theorem Inv.leave (hphase : txn.phase = .rollingBack ∨ txn.phase = .rolledBack)
    (hkeeps : s.catalog.table.Keeps (s.catalog.table.put id txn)) :
    Inv { s with catalog := { s.catalog with table := s.catalog.table.put id txn } } := by
  refine h.retable hkeeps (le_refl _) (fun a ha => update_of_ne ha _ _)
    (fun x hx => ⟨_, h.lastViewer, hx⟩) fun v ha x hx => ?_
  rw [viewOf, put_txn, update_self] at ha
  rcases hphase with hphase | hphase <;> rw [hphase] at ha <;> cases ha

end

/-! ## Commit and rollback of a record -/

theorem mem_tablesOf_putChain (hchain : ∀ e, traverseVersionChains v chain = some e →
      ∃ e', traverseVersionChains v (set.chain name) = some e' ∧ entryTables e' = entryTables e)
    (h : x ∈ tablesOf (set.putChain name chain) v) : x ∈ tablesOf set v := by
  obtain ⟨n, e, he, hx⟩ := mem_tablesOf.mp h
  rw [visibleEntry, chain_putChain] at he
  split at he
  · obtain ⟨e', he', hsame⟩ := hchain e he
    exact mem_tablesOf.mpr ⟨name, e', he', hsame ▸ hx⟩
  · exact mem_tablesOf.mpr ⟨n, e, he, hx⟩

section

variable (h : s.Inv)

include h

/-- The version that a record of a transaction belongs to is marked by the transaction. -/
theorem Inv.version_above {record : CatalogEntryRecord Name}
    (hrecord : record ∈ (s.catalog.table.txn id).undo) (hnone : s.catalog.table.commitTS id = none)
    (hchain : s.catalog.set.chain record.name = above ++ w :: e :: rest)
    (haddr : e.addr = record.addr) : s.catalog.table.VersionOf id w.timestamp := by
  rw [h.tracks.undo id hnone] at hrecord
  obtain ⟨c, hc, rfl⟩ := mem_map.mp hrecord
  obtain ⟨hlog, htx⟩ := mem_filter.mp hc
  have hid : c.tx = id := of_decide_eq_true htx
  have hchange : c ∈ s.catalog.changesOf c.record.name := mem_changesOf.mpr ⟨hlog, rfl⟩
  rw [← hid]
  exact (marked_above (h.tracks.aligned hchange) (h.tracks.nodup _) hchange hchain haddr).version

section

variable (hphase : (s.catalog.table.txn id).phase = .committing cts)

include hphase

/-- Only the commit under way sees what is not committed yet. -/
theorem Inv.viewer_le (hv : v ∈ s.viewers) (hid : v.id ≠ id) :
    v.startTS ≤ s.catalog.table.lastTimestamp := by
  have hwf := h.tracks.wf
  rcases (mem_viewers hwf).mp hv with rfl | ⟨ts, hts, rfl⟩ | ⟨a, ha⟩
  · exact le_refl _
  · exact h.snapshot_le ts hts
  · rcases viewOf_eq_some.mp ha with ⟨-, rfl⟩ | ⟨cts', hphase', rfl⟩
    · exact hwf.startTS_le a
    · have hcommitter := (hwf.committing a cts' hphase').1
      rw [(hwf.committing id cts hphase).1] at hcommitter
      cases hcommitter
      exact absurd rfl hid

/-- During a commit, the mark of a version changes nothing for any viewer. -/
theorem Inv.visible_mark {version : Nat} (hversion : s.catalog.table.VersionOf id version)
    (hv : v ∈ s.viewers) :
    visible v.startTS v.id version = visible v.startTS v.id cts := by
  have hwf := h.tracks.wf
  obtain ⟨hcommitter, hlast, hcts⟩ := hwf.committing id cts hphase
  have hgt := (hwf.started id (by simp [hphase])).1
  rw [TxnTable.VersionOf, hphase] at hversion
  rcases hversion with rfl | rfl
  swap
  · rfl
  by_cases hid : v.id = version
  · have hview := h.viewer_id hv (hid ▸ ne_of_gt (Nat.zero_lt_of_lt hgt))
    have hv' : v = ⟨version, cts⟩ := by
      rcases viewOf_eq_some.mp hview with ⟨hactive, -⟩ | ⟨_, hphase', heq⟩
      · rw [hid, hphase] at hactive
        cases hactive
      · rw [hid, hphase] at hphase'
        cases hphase'
        rw [heq, hid]
    rw [hv', visible_iff.mpr (.inl rfl), visible_iff.mpr (.inr (le_refl _))]
  · have hother : visible v.startTS v.id version = false := by
      exact Bool.eq_false_iff.mpr fun hvisible => hid (h.eq_of_visible hv hgt hvisible)
    have hmarked : visible v.startTS v.id cts = false := by
      refine Bool.eq_false_iff.mpr fun hvisible => ?_
      rcases visible_iff.mp hvisible with hown | hle
      · rcases Nat.eq_zero_or_pos v.id with hzero | hpos
        · omega
        · have hview := h.viewer_id hv (Nat.pos_iff_ne_zero.mp hpos)
          have hstarted := (hwf.started v.id fun hnot => by
            rw [viewOf, hnot] at hview
            cases hview).1
          omega
      · exact absurd hle (not_le.mpr (lt_of_le_of_lt (h.viewer_le hphase hv hid) hlast))
    rw [hother, hmarked]

end

theorem Inv.commitRecord (hs : s.catalogStep (.commitRecord id) = some s') : s'.Inv := by
  obtain ⟨catalog, hcatalog, rfl⟩ := Option.map_eq_some_iff.mp hs
  have htracks := h.tracks.step (show s.catalog.CallOk (.commitRecord id) from trivial) hcatalog
  obtain ⟨⟨record, cts, _⟩, hpending, hset⟩ := Option.bind_eq_some_iff.mp hcatalog
  obtain ⟨_, hput, rfl⟩ := Option.map_eq_some_iff.mp hset
  obtain ⟨_, hchain, rfl⟩ := Option.map_eq_some_iff.mp hput
  obtain ⟨hphase, _, hrest, rfl⟩ := nextPending_eq_some hpending
  obtain ⟨above, w, e, _, hes, haddr, rfl⟩ := setAbove_eq_some hchain
  have hversion := h.version_above
    (h.tracks.pending id cts hphase record (by rw [hrest]; exact mem_cons_self))
    (by rw [commitTS, hphase]) hes haddr
  have hinv := h.change [] htracks (sameViews_put rfl rfl) fun v hv x hx =>
    .inl ⟨v, hv, mem_tablesOf_putChain (fun e' he' => ?_) hx⟩
  · rw [append_nil] at hinv
    exact hinv
  rw [hes]
  rw [traverseVersionChains, find?_append] at he' ⊢
  cases hfind : find? (fun e => visible v.startTS v.id e.timestamp) above with
  | some =>
    rw [hfind] at he'
    exact ⟨e', he', rfl⟩
  | none =>
    rw [hfind, find?_cons] at he'
    rw [find?_cons, h.visible_mark hphase hversion hv]
    dsimp only at he'
    split at he'
    · cases he'
      exact ⟨w, rfl, rfl⟩
    · exact ⟨e', he', rfl⟩

theorem Inv.rollbackRecord (hs : s.catalogStep (.rollbackRecord id) = some s') : s'.Inv := by
  have hwf := h.tracks.wf
  obtain ⟨catalog, hcatalog, rfl⟩ := Option.map_eq_some_iff.mp hs
  have htracks := h.tracks.step (show s.catalog.CallOk (.rollbackRecord id) from trivial) hcatalog
  obtain ⟨⟨_, _⟩, hundo, hset⟩ := Option.bind_eq_some_iff.mp hcatalog
  obtain ⟨_, hput, rfl⟩ := Option.map_eq_some_iff.mp hset
  obtain ⟨_, hchain, rfl⟩ := Option.map_eq_some_iff.mp hput
  obtain ⟨hphase, _, hrest, rfl⟩ := nextUndo_eq_some hundo
  obtain ⟨_, w, _, _, hes, haddr, rfl⟩ := removeAbove_eq_some hchain
  have hgt := (hwf.started id (by simp [hphase])).1
  have hversion := h.version_above (by rw [hrest]; exact mem_cons_self)
    (by rw [commitTS, hphase]) hes haddr
  rw [TxnTable.VersionOf, hphase] at hversion
  have hinv := h.change [] htracks (sameViews_put rfl rfl) fun v hv x hx =>
    .inl ⟨v, hv, mem_tablesOf_putChain (fun e' he' => ?_) hx⟩
  · rw [append_nil] at hinv
    exact hinv
  -- the version was visible to its transaction only
  have hinvisible : visible v.startTS v.id w.timestamp = false := by
    rw [show w.timestamp = id from hversion]
    refine Bool.eq_false_iff.mpr fun hvisible => ?_
    have hid := h.eq_of_visible hv hgt hvisible
    have hview := h.viewer_id hv (hid ▸ ne_of_gt (Nat.zero_lt_of_lt hgt))
    rw [hid, viewOf, hphase] at hview
    cases hview
  refine ⟨e', ?_, rfl⟩
  rw [hes, ← he', traverseVersionChains, traverseVersionChains, find?_append,
    find?_append, find?_cons, hinvisible]

/-! ## The checkpoint -/

/-- A step of the checkpoint that takes no table away. -/
theorem Inv.setPhase {phase : CheckpointPhase} (gateClosed : Bool)
    (hphase : ∀ ts, snapshotTS { s with gateClosed, phase } = some ts →
      s.snapshotTS = some ts ∨ ts = s.catalog.table.lastTimestamp) :
    Inv { s with gateClosed, phase } := by
  have hwf := h.tracks.wf
  refine h.mono h.tracks (fun ts hts => ?_) (fun x hx => hx) fun v hv x hx => .inl ⟨v, ?_, hx⟩
  · rcases hphase ts hts with hold | rfl
    · exact h.snapshot_le ts hold
    · exact le_refl _
  have hv' := (mem_viewers (s := { s with gateClosed, phase }) hwf).mp hv
  rcases hv' with rfl | ⟨ts, hts, rfl⟩ | ⟨id, hid⟩
  · exact h.lastViewer
  · rcases hphase ts hts with hold | rfl
    · exact (mem_viewers hwf).mpr (.inr (.inl ⟨ts, hold, rfl⟩))
    · exact h.lastViewer
  · exact h.viewer_of_viewOf id hid

/-- Every viewer and the checkpoint see the newest version of each name. -/
theorem Inv.visibleEntry_of_settled (hsettled : s.Settled) (hv : v ∈ s.viewers)
    {newest : CatalogEntry Name TableEntry} (hhead : (s.catalog.set.chain n).head? = some newest) :
    s.catalog.set.visibleEntry v n = some newest ∧
      s.catalog.set.visibleEntry dummyCheckpointTransaction n = some newest := by
  have hle : newest.timestamp ≤ v.startTS := by
    cases hl : s.catalog.set.entries.lookup n with
    | none =>
      rw [CatalogSet.chain, hl] at hhead
      cases hhead
    | some l =>
      rw [CatalogSet.chain, hl] at hhead
      exact hsettled.1 ⟨n, l⟩ (mem_entries_iff.mpr hl) newest hhead v hv
  have hlt := h.viewer_lt hv
  refine ⟨visibleEntry_of_newest hhead hle, visibleEntry_of_newest hhead ?_⟩
  change newest.timestamp ≤ startTransactionID - 1
  omega

/-- While no change is in flight, `reclaimDroppedTables` finds every table that somebody
sees. -/
theorem Inv.isInCatalog_of_settled (hsettled : s.Settled) (hv : v ∈ s.viewers)
    (hx : x ∈ tablesOf s.catalog.set v) :
    isInCatalog s.catalog.set dummyCheckpointTransaction x = true := by
  obtain ⟨n, e, he, hx⟩ := mem_tablesOf.mp hx
  obtain ⟨c, hc, hx⟩ := mem_entryTables.mp hx
  have hhead : (s.catalog.set.chain n).head? = some e := by
    cases hhead : (s.catalog.set.chain n).head? with
    | none =>
      rw [visibleEntry, head?_eq_none_iff.mp hhead] at he
      cases he
    | some => rw [← (h.visibleEntry_of_settled hsettled hv hhead).1, he]
  have hmem : (n, e) ∈ s.catalog.set.getEntries dummyCheckpointTransaction :=
    mem_getEntries.mpr ⟨(h.visibleEntry_of_settled hsettled hv hhead).2, by
      simp [CatalogEntry.isDeleted, hc]⟩
  have hsome := getEntryOfOID_isSome hmem hhead
  cases c with
  | node =>
    rw [mem_singleton.mp hx]
    exact hsome
  | relGroup =>
    obtain ⟨info, hinfo, rfl⟩ := mem_map.mp hx
    obtain ⟨e', he'⟩ := Option.isSome_iff_exists.mp hsome
    -- the entry that is found has the ID of the group
    have hsame : e' = e := by
      obtain ⟨m, newest, hmem', hhead', hoid⟩ := exists_of_getEntryOfOID he'
      have hnewest : e' = newest := Option.some.inj ((mem_getEntries.mp hmem').1.symm.trans
        (h.visibleEntry_of_settled hsettled hv hhead').2)
      exact congrArg Prod.snd (inj_on_of_nodup_map hsettled.2 hmem' hmem (hnewest ▸ hoid))
    subst hsame
    rw [isInCatalog, he', Option.any_some, hc, Option.bind_some, TableEntry.getRelEntryInfo,
      find?_isSome]
    exact ⟨info, hinfo, by simp⟩

/-- A round of `reclaimDroppedTables`. -/
theorem Inv.reclaim (hsettled : s.Settled) (hs : s.step .reclaim = some s') : s'.Inv := by
  dsimp only [step] at hs
  split at hs
  · rename_i ts y todo hphase
    cases hs
    have hsnapshot : s.snapshotTS = some ts := by rw [snapshotTS, hphase]
    have hviewers : ∀ tables, viewers { s with tables, phase := .reclaiming ts todo } = s.viewers :=
      fun _ => viewers_congr .refl hsnapshot.symm
    refine ⟨h.tracks, fun ts' hts' => h.snapshot_le ts' (hsnapshot.trans hts'), fun v hv x hx => ?_⟩
    rw [hviewers] at hv
    have hstored := h.stored v hv x hx
    split_ifs with hnot
    · exact hstored
    · refine mem_filter.mpr ⟨hstored, decide_eq_true fun heq => ?_⟩
      subst heq
      exact hnot (h.isInCatalog_of_settled hsettled hv hx)
  · cases hs

end

theorem tables_dropFromToConnection {oid src dst : Nat}
    (hx : x ∈ (entry.dropFromToConnection src dst).tables oid) : x ∈ entry.tables oid := by
  cases entry with
  | node => exact hx
  | relGroup =>
    obtain ⟨_, hinfo, rfl⟩ := mem_map.mp hx
    exact mem_map_of_mem (mem_of_mem_filter hinfo)

theorem Inv.addConnection (h : s.Inv) {src dst : Nat} (hok : s.catalog.CallOk (.alter id name
      (.addConnection fun oid entry => entry.addFromToConnection src dst oid)))
    (hs : s.addConnection id name src dst = some s') : s'.Inv := by
  unfold StorageState.addConnection at hs
  split at hs
  · rename_i _ _ hseen
    split at hs
    · cases hs
      exact h
    refine h.alter hok (fun oid entry hentry x hx => ?_) hs
    cases hseen.symm.trans hentry
    obtain ⟨_, hinfo, rfl⟩ := mem_map.mp hx
    rcases mem_append.mp hinfo with hold | hnew
    · exact .inl (mem_map_of_mem hold)
    · rw [mem_singleton.mp hnew]
      exact .inr (mem_singleton.mpr rfl)
  · cases hs

theorem Inv.step (h : s.Inv) {call : StorageCall Name} (hok : s.Permitted call)
    (hs : s.step call = some s') : s'.Inv := by
  obtain ⟨hcall, hsettled⟩ := hok
  cases call with
  | begin =>
    dsimp only [StorageState.step] at hs
    split at hs
    · cases hs
    obtain ⟨_, hs₁, rfl⟩ := Option.map_eq_some_iff.mp hs
    obtain ⟨_, hcatalog, rfl⟩ := Option.map_eq_some_iff.mp hs₁
    obtain ⟨_, htable, rfl⟩ := Option.map_eq_some_iff.mp hcatalog
    have hinv := h.begin htable
    split
    · exact { hinv with }
    · exact hinv
  | createNodeTable => exact h.create hs
  | createRelGroup => exact (h.setNextOID _).create hs
  | drop => exact h.drop (hcall _ rfl) hs
  | rename | alterProperty => exact h.alter (hcall _ rfl) (fun _ _ _ _ hx => .inl hx) hs
  | addFromToConnection => exact h.addConnection (hcall _ rfl) hs
  | dropFromToConnection =>
    exact h.alter (hcall _ rfl) (fun _ _ _ _ hx => .inl (tables_dropFromToConnection hx)) hs
  | startCommit =>
    obtain ⟨-, hs⟩ := Option.ite_none_right_eq_some.mp hs
    obtain ⟨_, hcatalog, rfl⟩ := Option.map_eq_some_iff.mp hs
    obtain ⟨_, htable, rfl⟩ := Option.map_eq_some_iff.mp hcatalog
    exact h.startCommit htable
  | commitRecord => exact h.commitRecord hs
  | finishCommit =>
    obtain ⟨_, hcatalog, rfl⟩ := Option.map_eq_some_iff.mp hs
    obtain ⟨_, htable, rfl⟩ := Option.map_eq_some_iff.mp hcatalog
    exact h.finishCommit htable
  | startRollback =>
    obtain ⟨_, hcatalog, rfl⟩ := Option.map_eq_some_iff.mp hs
    obtain ⟨_, htable, rfl⟩ := Option.map_eq_some_iff.mp hcatalog
    have hkeeps := (lifeStep_startRollback h.tracks.wf htable).keeps
    obtain ⟨-, rfl⟩ := startRollback_eq_some htable
    exact h.leave (.inl rfl) hkeeps
  | rollbackRecord => exact h.rollbackRecord hs
  | finishRollback =>
    obtain ⟨_, hcatalog, rfl⟩ := Option.map_eq_some_iff.mp hs
    obtain ⟨_, htable, rfl⟩ := Option.map_eq_some_iff.mp hcatalog
    have hkeeps := (lifeStep_finishRollback h.tracks.wf htable).keeps
    obtain ⟨-, -, rfl⟩ := finishRollback_eq_some htable
    exact h.leave (.inr rfl) hkeeps
  | beginCheckpoint =>
    dsimp only [StorageState.step] at hs
    split at hs
    · split at hs
      · cases hs
        exact h.setPhase _ fun ts hts => .inr (Option.some.inj hts).symm
      · cases hs
    · cases hs
  | checkpointTables =>
    dsimp only [StorageState.step] at hs
    split at hs
    · rename_i ts hphase
      split at hs
      · cases hs
        exact h.setPhase _ fun ts hts => by cases hts
      · cases hs
        refine h.setPhase s.gateClosed fun ts' hts' => .inl ?_
        rw [← hts', snapshotTS, snapshotTS, hphase]
    · cases hs
  | reclaim => exact h.reclaim (hsettled rfl) hs
  | finishCheckpoint =>
    dsimp only [StorageState.step] at hs
    split at hs
    · cases hs
      exact h.setPhase _ fun ts hts => by cases hts
    · cases hs
  | failCheckpoint =>
    dsimp only [StorageState.step] at hs
    split at hs
    · cases hs
    · cases hs
      exact h.setPhase _ fun ts hts => by cases hts

theorem inv_init (hset : CatalogHistory.Loaded set) : (init set).Inv := by
  have htracks : (init set).catalog.Tracks := tracks_init hset
  refine ⟨htracks, fun ts hts => (by cases hts), fun v hv x hx => ?_⟩
  -- there is one version of each entry, and everybody sees it
  have hvisible : ∀ n, ∀ e ∈ set.chain n, e.timestamp = 0 := by
    intro n e he
    rcases hset n with hnil | ⟨_, hchain, hts, -, -⟩
    · rw [hnil] at he
      cases he
    · rw [hchain, mem_singleton] at he
      rw [he, hts]
  refine (mem_tablesOf_congr fun n e he => ?_).mp hx
  rw [hvisible n e he, visible_iff.mpr (.inr (Nat.zero_le _)),
    visible_iff.mpr (.inr (Nat.zero_le _))]

end StorageState

/-- In every state of a run of permitted calls: the tables of all entries that the snapshot
of the checkpoint under way has, and of all entries that an active transaction sees, have
their storage; and a round of `reclaimDroppedTables` takes the storage of a table only if
the snapshot does not have it. -/
theorem tables_have_storage [DecidableEq Name] {set : CatalogSet Name TableEntry}
    (hset : CatalogHistory.Loaded set)
    {s : StorageState Name}
    (h : Reachable StorageState.step (.init set) StorageState.Permitted s) :
    (∀ ts, s.snapshotTS = some ts → ∀ x ∈ tablesOf s.catalog.set (snapshotTxn ts), x ∈ s.tables) ∧
      (∀ id, (s.catalog.table.txn id).phase = .active →
        ∀ x ∈ tablesOf s.catalog.set (s.catalog.table.snapshot id), x ∈ s.tables) ∧
      ∀ s', s.Permitted .reclaim → s.step .reclaim = some s' → ∀ x ∈ s.tables, x ∉ s'.tables →
        ∃ ts, s.snapshotTS = some ts ∧ x ∉ tablesOf s.catalog.set (snapshotTxn ts) := by
  have hinv : s.Inv := h.invariant StorageState.Inv (inv_init hset)
    fun s a s' hs hok hstep => hs.step hok hstep
  have hwf := hinv.tracks.wf
  refine ⟨fun ts hts x hx => ?_, fun id hid x hx => ?_, fun s' hok hs x hx hx' => ?_⟩
  · exact hinv.stored _ ((mem_viewers hwf).mpr (.inr (.inl ⟨ts, hts, rfl⟩))) x hx
  · exact hinv.stored _ (hinv.viewer_of_viewOf id (viewOf_eq_some.mpr (.inl ⟨hid, rfl⟩))) x hx
  · have hinv' := hinv.step hok hs
    dsimp only [StorageState.step] at hs
    split at hs
    · rename_i ts y _ hphase
      cases hs
      have hts : s.snapshotTS = some ts := by rw [snapshotTS, hphase]
      refine ⟨ts, hts, fun hmem => hx' (hinv'.stored (snapshotTxn ts) ?_ x hmem)⟩
      exact (mem_viewers hinv'.tracks.wf).mpr (.inr (.inl ⟨ts, rfl, rfl⟩))
    · cases hs

/-- Two tables and a group are created, the first table is dropped, and a checkpoint
reclaims it. -/
theorem tables_have_storage_sample :
    ∃ s : StorageState Nat, Reachable StorageState.step (.init {}) StorageState.Permitted s ∧
      s.tables = [.node 1, .rel 2 3 1 1] ∧ s.snapshotTS = some 3 ∧
      ∀ x ∈ tablesOf s.catalog.set (snapshotTxn 3), x ∈ s.tables := by
  let a := startTransactionID + 1
  let b := startTransactionID + 2
  refine exists_reachable_of_run
    [.begin true, .createNodeTable a 7, .createNodeTable a 8, .createRelGroup a 9 [(1, 1)],
      .startCommit a 2, .commitRecord a, .commitRecord a, .commitRecord a, .finishCommit a,
      .begin true, .drop b 7 0, .startCommit b 3, .commitRecord b, .finishCommit b,
      .beginCheckpoint true, .checkpointTables, .reclaim, .begin true, .reclaim, .reclaim]
    (fun s => s.tables = [.node 1, .rel 2 3 1 1] ∧ s.snapshotTS = some 3) (by decide +kernel) ?_
  rintro s hs ⟨htables, hts⟩
  exact ⟨htables, hts, (tables_have_storage loaded_empty hs).1 3 hts⟩

/-- A table that a transaction creates and commits. -/
def createTableCalls : List (StorageCall Nat) :=
  let a := startTransactionID + 1
  [.begin true, .createNodeTable a 7, .startCommit a 2, .commitRecord a, .finishCommit a]

/-- The table is dropped by a commit after the snapshot: it is reclaimed, and the entry of
the snapshot has no storage.  A table is created and not yet committed: it is reclaimed,
and its transaction still sees it.  The table is dropped while an older transaction reads:
it is reclaimed, and the reader still sees it. -/
theorem visible_tables_reclaimed :
    (∃ s : StorageState Nat, Reachable StorageState.step (.init {}) StorageState.NoConflict s ∧
      s.snapshotTS = some 2 ∧ .node 0 ∈ tablesOf s.catalog.set (snapshotTxn 2) ∧ s.tables = []) ∧
    (∃ s : StorageState Nat, Reachable StorageState.step (.init {}) StorageState.NoConflict s ∧
      (s.catalog.table.txn (startTransactionID + 1)).phase = .active ∧
      .node 0 ∈ tablesOf s.catalog.set (s.catalog.table.snapshot (startTransactionID + 1)) ∧
      s.tables = []) ∧
    ∃ s : StorageState Nat, Reachable StorageState.step (.init {}) StorageState.NoConflict s ∧
      (s.catalog.table.txn (startTransactionID + 2)).phase = .active ∧
      .node 0 ∈ tablesOf s.catalog.set (s.catalog.table.snapshot (startTransactionID + 2)) ∧
      s.tables = [] := by
  let a := startTransactionID + 1
  let b := startTransactionID + 2
  let c := startTransactionID + 3
  refine ⟨?_, ?_, ?_⟩
  · exact reachable_of_run
      (createTableCalls ++ [.beginCheckpoint true, .checkpointTables, .begin true, .drop b 7 0,
        .startCommit b 3, .commitRecord b, .finishCommit b, .reclaim]) (by decide +kernel)
  · exact reachable_of_run
      [.beginCheckpoint true, .begin true, .createNodeTable a 7, .checkpointTables, .reclaim]
      (by decide +kernel)
  · exact reachable_of_run
      (createTableCalls ++ [.begin false, .begin true, .drop c 7 0, .startCommit c 3,
        .commitRecord c, .finishCommit c, .beginCheckpoint true, .checkpointTables, .reclaim])
      (by decide +kernel)

end Lbug.Storage
