/-
  Storage/CheckpointPhases.lean --- the files after every operation of a checkpoint.

  A checkpoint starts from a state whose data file holds a checkpoint of `base` and
  whose active WAL holds the transactions since then (`Clean`).  `RotatedPhase` describes
  the files and the memory by the operations that are left; `RotatedPhase.perform` is the
  step lemma, and the `recover` lemmas say what opening the database gives at each phase.
  Commits that happen while a rotated checkpoint runs only touch the active WAL.
-/
import Lbug.Storage.ShadowPages

namespace Lbug.Storage

open Foundation List PageStore

variable {σ Op Page : Type} {base : σ} {plan : Plan Page} {db : Database σ Op Page}

/-! ## Checkpoints in the data file, transactions in the active WAL -/

/-- The data file holds a checkpoint of the state `base`. -/
structure Holds (db : Database σ Op Page) (databaseID : Nat) (data : Nat → Page) (base : σ) :
    Prop where
  reads : db.readCheckpoint data = some base
  keepsID : db.databaseID (data 0) = some databaseID

/-- Two data files agree on the pages that the first one uses. -/
def Agrees (db : Database σ Op Page) (data data' : Nat → Page) : Prop :=
  ∀ i, db.live data i → data' i = data i

theorem Holds.congr {databaseID : Nat} {data data' : Nat → Page} (h : Holds db databaseID data base)
    (hagree : Agrees db data data') :
    Holds db databaseID data' base where
  reads := (db.readCheckpoint_congr data data' hagree).trans h.reads
  keepsID := by rw [hagree 0 (db.live_header data), h.keepsID]

/-- The active WAL holds the given transactions, and its writer, if open, has at most
the header left to write. -/
structure Active (db : Database σ Op Page) (ident : WalIdentity) (logs : LogStore Op)
    (txns : List (List Op)) : Prop where
  wal : Logs db ident logs.wal txns
  writer : logs.writerOpen = true → logs.wal.map (· ++ logs.buffer) = some (db.walFile ident txns)

section Active

variable {db : Database σ Op Page} {ident : WalIdentity} {logs : LogStore Op}
  {txns : List (List Op)}

theorem walFile_append_localWAL (db : Database σ Op Page) (ident : WalIdentity)
    (txns : List (List Op)) (txn : List Op) :
    db.walFile ident txns ++ db.localWAL txn = db.walFile ident (txns ++ [txn]) := by
  rw [Database.walFile, Database.walFile, Database.localWALs, Database.localWALs, flatMap_append,
    flatMap_singleton, cons_append]

variable (h : Active db ident logs txns)

include h

/-- A commit appends its transaction to the active WAL. -/
theorem Active.wal_logCommittedWAL (txn : List Op) : logs.logCommittedWAL ident (db.localWAL txn) =
      { wal := some (db.walFile ident (txns ++ [txn])), frozen := logs.frozen, writerOpen := true,
        buffer := [] } := by
  rw [← walFile_append_localWAL]
  cases hopen : logs.writerOpen with
  | true =>
    have hflushed := h.writer hopen
    obtain ⟨_, hwal, hentries⟩ := Option.map_eq_some_iff.mp hflushed
    simp [LogStore.logCommittedWAL, LogStore.initWriter, LogStore.add, LogStore.flush, hopen,
      hwal, ← hentries]
  | false =>
    obtain ⟨hwal, -⟩ := h
    generalize hw : logs.wal = wal at hwal
    cases hwal with
    | absent | empty =>
      simp [LogStore.logCommittedWAL, LogStore.initWriter, LogStore.add, LogStore.flush, hopen, hw,
        Database.walFile, Database.localWALs]
    | written =>
      simp [LogStore.logCommittedWAL, LogStore.initWriter, LogStore.add, LogStore.flush, hopen, hw,
        Database.walFile]

theorem Active.logCommittedWAL (txn : List Op) :
    Active db ident (logs.logCommittedWAL ident (db.localWAL txn)) (txns ++ [txn]) := by
  rw [h.wal_logCommittedWAL]
  exact ⟨.written _, fun _ => by simp⟩

omit h in
theorem Active.commit_frozen {s : Engine σ Op Page} {txn : List Op}
    (h : Active db ident s.logs txns) : (s.commit db ident txn).logs.frozen = s.logs.frozen := by
  rw [Engine.commit, h.wal_logCommittedWAL]

/-- The flush before a rotation completes the file. -/
theorem Active.perform_flush (hrotates : logs.rotates = true)
    (hempty : logs.writerOpen = false → logs.wal ≠ some []) :
    (logs.perform ident .flush).wal = some (db.walFile ident txns) := by
  simp only [LogStore.perform]
  split_ifs with hopen
  · exact h.writer hopen
  rw [Bool.not_eq_true] at hopen
  obtain ⟨hwal, -⟩ := h
  have hne := hempty hopen
  rw [LogStore.rotates, hopen] at hrotates
  generalize logs.wal = wal at *
  cases hwal with
  | absent => cases hrotates
  | empty => exact (hne rfl).elim
  | written => rfl

/-- The flush has nothing to do on a file that is complete. -/
theorem Active.perform_flush_of_written (hwal : logs.wal = some (db.walFile ident txns)) :
    logs.perform ident .flush = logs := by
  simp only [LogStore.perform]
  split_ifs with hopen
  · have hflushed := h.writer hopen
    obtain ⟨_, _, _, _⟩ := logs
    simp_all [LogStore.flush]
  · rfl

end Active

/-- A state in which a checkpoint starts as intended: no frozen WAL and no shadow pages
are left from an earlier one. -/
structure Clean (db : Database σ Op Page) (ident : WalIdentity) (s : Engine σ Op Page) (base : σ)
    (txns : List (List Op)) : Prop where
  data : Holds db ident.databaseID s.pages.data base
  active : Active db ident s.logs txns
  frozen : s.logs.frozen = none
  records : s.pages.records = []
  state : s.state = db.applied txns base

theorem Clean.commit {ident : WalIdentity} {s : Engine σ Op Page} {txns : List (List Op)}
    (h : Clean db ident s base txns) (txn : List Op) :
    Clean db ident (s.commit db ident txn) base (txns ++ [txn]) where
  data := h.data
  active := h.active.logCommittedWAL txn
  frozen := h.active.commit_frozen.trans h.frozen
  records := h.records
  state := by
    rw [Database.applied_append, ← h.state]
    rfl

/-! ## The prepared pages -/

/-- The pages right before the checkpoint record: the data file still holds `base`, the
shadow file is complete, and the data file seen through it holds `target`. -/
structure Prepared (db : Database σ Op Page) (databaseID : Nat) (base target : σ)
    (pages : PageStore Page) : Prop where
  complete : PageStore.Complete databaseID pages
  nodup : pages.records.Nodup
  data : Holds db databaseID pages.data base
  view : Holds db databaseID (pages.view pages.data) target

/-- The operations before the checkpoint record, on a data file whose checkpoint uses
the live pages of `data`. -/
def PageOp.Prepares (db : Database σ Op Page) (data : Nat → Page) : PageOp Page → Prop
  | .writePage i _ => ¬ db.live data i
  | .shadowWrite _ _ | .flushSlot _ | .flushHeader | .flushRecords => True
  | .applyPage _ | .clear | .reset => False

section Prepare

variable {db : Database σ Op Page} {databaseID : Nat} {data : Nat → Page} {pages : PageStore Page}
  {op : PageOp Page} {state : σ}

theorem agrees_perform {s : PageStore Page} (hop : op.Prepares db data)
    (h : Agrees db data s.data) : Agrees db data (s.perform databaseID op).data := by
  cases op with
  | shadowWrite =>
    simp only [perform, shadowWrite_data]
    exact h
  | writePage i =>
    intro j hj
    have hne : j ≠ i := fun heq => hop (heq ▸ hj)
    simp only [perform, Function.update_of_ne hne]
    exact h j hj
  | flushSlot =>
    simp only [perform]
    split <;> exact h
  | flushHeader | flushRecords => exact h
  | applyPage | clear | reset => cases hop

theorem prepares_of_serializes (h : plan.Serializes db databaseID pages state)
    (hop : op ∈ plan.prepare) :
    op.Prepares db pages.data := by
  rcases mem_append.mp hop with hstorage | hflush
  · have hkind := h.isStorage op hstorage
    cases op with
    | writePage i p =>
      refine h.dead (i, p) (mem_filterMap.mpr ⟨.writePage i p, hstorage, rfl⟩)
    | shadowWrite | flushSlot => trivial
    | flushHeader | flushRecords | applyPage | clear | reset => cases hkind
  · rw [Plan.flushAll, mem_cons, mem_append, mem_map, mem_singleton] at hflush
    rcases hflush with rfl | ⟨_, -, rfl⟩ | rfl <;> trivial

/-- A plan that serialises the state prepares it. -/
theorem prepared_of_serializes (hdata : Holds db databaseID pages.data base)
    (hrecords : pages.records = []) (h : plan.Serializes db databaseID pages state) :
    Prepared db databaseID base state
      (plan.flushAll.foldl (perform databaseID) (plan.stored databaseID pages)) := by
  have hnil : pages.records.Nodup := by
    rw [hrecords]
    exact nodup_nil
  obtain ⟨hnodup, hmem, hstored, hview⟩ := stored_spec databaseID plan h.isStorage pages
    hnil (writeAll plan.directs pages.data)
  obtain ⟨hsameRecords, hsameData, hsameFrames⟩ :=
    flushAll_frame databaseID plan (plan.stored databaseID pages)
  have hagree : Agrees db pages.data (writeAll plan.directs pages.data) := by
    intro i hi
    apply writeAll_of_notMem
    intro hdirect
    obtain ⟨w, hw, rfl⟩ := mem_map.mp hdirect
    exact h.dead w hw hi
  have hviewEq : view
      (plan.flushAll.foldl (perform databaseID) (plan.stored databaseID pages))
      (plan.flushAll.foldl (perform databaseID) (plan.stored databaseID pages)).data =
      plan.planned pages.data := by
    have hempty : pages.view (writeAll plan.directs pages.data) =
        writeAll plan.directs pages.data := by
      funext i
      simp [view, hrecords]
    rw [hempty] at hview
    rw [hsameData, hstored]
    refine Eq.trans ?_ hview
    funext i
    simp only [view, hsameRecords, hsameFrames]
  refine ⟨?_, ?_, ?_, ?_⟩
  · have hshadow := shadow_isSome_stored databaseID plan h.isStorage pages
      (fun hne => absurd hrecords hne)
    refine complete_flushAll (hshadow ?_) h.onDisk
    exact ne_nil_of_mem ((hmem 0).mpr (.inr h.header))
  · rw [hsameRecords]
    exact hnodup
  · rw [hsameData, hstored]
    exact hdata.congr hagree
  · rw [hviewEq]
    exact ⟨h.reads, h.keepsID _ (writeAll_mem h.header _)⟩

end Prepare

/-! ## A checkpoint that rotates the WAL -/

/-- The operations from the application of record `k` on. -/
def rotatedTail (numRecords k : Nat) : List (CheckpointOp Page) :=
  ((List.range numRecords).drop k).map (fun i => .page (.applyPage i)) ++
    [.page .clear, .log .clearFrozenWAL, .page .reset]

/-- The files and the memory of a rotated checkpoint, by the operations that are left.
`txns` are the transactions of the frozen WAL, `newTxns` those of the active WAL. -/
inductive RotatedPhase (db : Database σ Op Page) (ident : WalIdentity) (data : Nat → Page)
    (base target : σ) (txns : List (List Op)) (pages : PageStore Page) :
    List (CheckpointOp Page) → Engine σ Op Page → List (List Op) → Prop
  | preparing {s : Engine σ Op Page} {newTxns : List (List Op)} (ops : List (PageOp Page))
      (hagree : Agrees db data s.pages.data) (hops : ∀ op ∈ ops, op.Prepares db data)
      (hpages : ops.foldl (PageStore.perform ident.databaseID) s.pages = pages)
      (hfrozen : s.logs.frozen = some (db.walFile ident txns))
      (hactive : Active db ident s.logs newTxns) :
      RotatedPhase db ident data base target txns pages
        (ops.map .page ++ .log .checkpointToFrozen :: rotatedTail pages.records.length 0) s newTxns
  | applying {s : Engine σ Op Page} {newTxns : List (List Op)} (k : Nat)
      (hpages : s.pages = { pages with
        data := writeAll ((PageStore.pairs pages.frames pages.records 1).take k) pages.data })
      (hfrozen : s.logs.frozen = some (db.walFile ident txns ++ [.record .checkpoint]))
      (hactive : Active db ident s.logs newTxns) :
      RotatedPhase db ident data base target txns pages (rotatedTail pages.records.length k)
        s newTxns
  | cleared {s : Engine σ Op Page} {newTxns : List (List Op)}
      (hdata : Holds db ident.databaseID s.pages.data target)
      (hshadow : s.pages.shadow = some fun _ => .hole) (hrecords : s.pages.records = [])
      (hfrozen : s.logs.frozen = some (db.walFile ident txns ++ [.record .checkpoint]))
      (hactive : Active db ident s.logs newTxns) :
      RotatedPhase db ident data base target txns pages [.log .clearFrozenWAL, .page .reset]
        s newTxns
  | removed {s : Engine σ Op Page} {newTxns : List (List Op)} {rest : List (CheckpointOp Page)}
      (hrest : rest = [.page .reset] ∨ rest = [])
      (hdata : Holds db ident.databaseID s.pages.data target) (hrecords : s.pages.records = [])
      (hfrozen : s.logs.frozen = none) (hactive : Active db ident s.logs newTxns) :
      RotatedPhase db ident data base target txns pages rest s newTxns

section Rotated

variable {db : Database σ Op Page} {ident : WalIdentity} {data : Nat → Page} {base target : σ}
  {txns newTxns : List (List Op)} {pages : PageStore Page} {rest : List (CheckpointOp Page)}
  {s : Engine σ Op Page} {k numRecords : Nat}

theorem drop_range_of_lt (hk : k < numRecords) :
    (range numRecords).drop k = k :: (range numRecords).drop (k + 1) := by
  rw [drop_eq_getElem_cons (by rwa [length_range]), getElem_range]

theorem rotatedTail_of_lt (hk : k < numRecords) :
    (rotatedTail numRecords k : List (CheckpointOp Page)) =
      .page (.applyPage k) :: rotatedTail numRecords (k + 1) := by
  rw [rotatedTail, drop_range_of_lt hk]
  rfl

theorem rotatedTail_of_le (hk : numRecords ≤ k) :
    (rotatedTail numRecords k : List (CheckpointOp Page)) =
      [.page .clear, .log .clearFrozenWAL, .page .reset] := by
  rw [rotatedTail, drop_eq_nil_of_le (by rwa [length_range])]
  rfl

/-- A commit during a rotated checkpoint goes to the active WAL only. -/
theorem RotatedPhase.commit (h : RotatedPhase db ident data base target txns pages rest s newTxns)
    (txn : List Op) :
    RotatedPhase db ident data base target txns pages rest (s.commit db ident txn)
      (newTxns ++ [txn]) := by
  cases h with
  | preparing ops hagree hops hpages hfrozen hactive =>
    exact .preparing ops hagree hops hpages (hactive.commit_frozen.trans hfrozen)
      (hactive.logCommittedWAL txn)
  | applying k hpages hfrozen hactive =>
    exact .applying k hpages (hactive.commit_frozen.trans hfrozen) (hactive.logCommittedWAL txn)
  | cleared hdata hshadow hrecords hfrozen hactive =>
    exact .cleared hdata hshadow hrecords (hactive.commit_frozen.trans hfrozen)
      (hactive.logCommittedWAL txn)
  | removed hrest hdata hrecords hfrozen hactive =>
    exact .removed hrest hdata hrecords (hactive.commit_frozen.trans hfrozen)
      (hactive.logCommittedWAL txn)

/-- The rename starts the first phase. -/
theorem rotatedPhase_rename (hwal : s.logs.wal = some (db.walFile ident txns))
    (hplan : plan.Serializes db ident.databaseID s.pages target) :
    RotatedPhase db ident s.pages.data base target txns (s.prepared ident plan)
      (plan.prepare.map .page ++
        .log .checkpointToFrozen :: rotatedTail (s.prepared ident plan).records.length 0)
      (s.perform ident (.log .rename)) [] := by
  refine .preparing plan.prepare (fun _ _ => rfl) (fun op hop => prepares_of_serializes hplan hop)
    ?_ hwal ⟨.absent, nofun⟩
  exact foldl_append

section

variable (hprepared : Prepared db ident.databaseID base target pages)

include hprepared

/-- Once all records are applied, the data file holds the new checkpoint. -/
theorem Prepared.applied (hk : pages.records.length ≤ k) :
    Holds db ident.databaseID
      (writeAll ((pairs pages.frames pages.records 1).take k) pages.data) target := by
  rw [take_of_length_le (by rwa [pairs_length]), writeAll_pairs_view pages hprepared.nodup]
  exact hprepared.view

/-- Each operation of a rotated checkpoint leads to the next phase. -/
theorem RotatedPhase.perform {op : CheckpointOp Page}
    (h : RotatedPhase db ident data base target txns pages (op :: rest) s newTxns) :
    RotatedPhase db ident data base target txns pages rest (s.perform ident op) newTxns := by
  generalize hall : op :: rest = all at h
  cases h with
  | preparing ops hagree hops hpages hfrozen hactive =>
    cases ops with
    | nil =>
      cases hall
      refine .applying 0 hpages ?_ ⟨hactive.wal, hactive.writer⟩
      simp [Engine.perform, LogStore.perform, hfrozen]
    | cons pageOp ops =>
      cases hall
      refine .preparing ops ?_ ?_ hpages hfrozen hactive
      · exact agrees_perform (hops pageOp mem_cons_self) hagree
      · exact fun op hop => hops op (mem_cons_of_mem _ hop)
  | applying k hpages hfrozen hactive =>
    rcases Nat.lt_or_ge k pages.records.length with hk | hk
    · rw [rotatedTail_of_lt hk] at hall
      cases hall
      refine .applying (k + 1) ?_ hfrozen hactive
      rw [← perform_applyPage hprepared.complete, ← hpages]
      rfl
    · rw [rotatedTail_of_le hk] at hall
      cases hall
      refine .cleared ?_ ?_ rfl hfrozen hactive
      · simp only [Engine.perform, hpages]
        exact hprepared.applied hk
      · obtain ⟨_, himage, -⟩ := hprepared.complete
        simp only [Engine.perform, perform, hpages, himage, Option.map_some]
  | cleared hdata _ hrecords _ hactive =>
    cases hall
    exact .removed (.inl rfl) hdata hrecords rfl ⟨hactive.wal, hactive.writer⟩
  | removed hrest hdata hrecords hfrozen hactive =>
    rcases hrest with rfl | rfl
    · cases hall
      exact .removed (.inr rfl) hdata hrecords hfrozen hactive
    · cases hall

/-! ### What opening the database gives -/

variable {throwOnFailure : Bool}

/-- While record after record is applied, page 0 keeps the database ID. -/
theorem Prepared.keepsID (k : Nat) :
    db.databaseID (writeAll ((pairs pages.frames pages.records 1).take k) pages.data 0) =
      some ident.databaseID := by
  by_cases hzero : 0 ∈ ((pairs pages.frames pages.records 1).take k).map Prod.fst
  · -- page 0 already has its final contents: no later record is about it
    have hlater : 0 ∉ ((pairs pages.frames pages.records 1).drop k).map Prod.fst := by
      rw [map_take, pairs_map_fst] at hzero
      rw [map_drop, pairs_map_fst]
      have hnodup := hprepared.nodup
      rw [← take_append_drop k pages.records, nodup_append] at hnodup
      exact fun hdrop => hnodup.2.2 0 hzero 0 hdrop rfl
    have hfinal := hprepared.view.keepsID
    rw [← writeAll_pairs_view pages hprepared.nodup,
      ← take_append_drop k (pairs pages.frames pages.records 1), writeAll_append,
      writeAll_of_notMem hlater] at hfinal
    exact hfinal
  · rw [writeAll_of_notMem hzero]
    exact hprepared.data.keepsID

omit hprepared in
theorem recover_preparing (hbase : Holds db ident.databaseID data base)
    (hagree : Agrees db data s.pages.data)
    (hfrozen : s.logs.frozen = some (db.walFile ident txns))
    (hactive : Active db ident s.logs newTxns) :
    recover db (ident.reopen throwOnFailure) s.disk = .ok (db.replayed (txns ++ newTxns) base) := by
  have hdata := hbase.congr hagree
  refine recover_logged hdata.reads hdata.keepsID ?_ hactive.wal
  rw [Engine.disk, hfrozen]
  exact .written txns

theorem recover_applying (hpages : s.pages = { pages with
      data := writeAll ((PageStore.pairs pages.frames pages.records 1).take k) pages.data })
    (hfrozen : s.logs.frozen = some (db.walFile ident txns ++ [.record .checkpoint]))
    (hactive : Active db ident s.logs newTxns) :
    recover db (ident.reopen throwOnFailure) s.disk = .ok (db.replayed newTxns target) := by
  have hview : writeAll (pairs pages.frames pages.records 1) s.disk.data =
      pages.view pages.data := by
    rw [Engine.disk, hpages, writeAll_take_redo, writeAll_pairs_view pages hprepared.nodup]
  have hshadow : replayShadowPageRecords db s.disk =
      .ok (pairs pages.frames pages.records 1) := by
    refine replayShadowPageRecords_complete hprepared.complete ?_ ?_
    · rw [Engine.disk, hpages]
    · rw [Engine.disk, hpages]
      exact hprepared.keepsID k
  refine recover_checkpointed hfrozen hshadow ?_ ?_ hactive.wal
  · rw [hview]
    exact hprepared.view.reads
  · rw [hview]
    exact hprepared.view.keepsID

end

variable (hdata : Holds db ident.databaseID s.pages.data target)

include hdata

/-- Between the truncation of the shadow file and the removal of the frozen WAL the
database cannot be opened. -/
theorem recover_cleared (hshadow : s.pages.shadow = some fun _ => .hole)
    (hfrozen : s.logs.frozen = some (db.walFile ident txns ++ [.record .checkpoint])) :
    recover db (ident.reopen throwOnFailure) s.disk = .error .databaseIDMismatch := by
  apply recover_checkpointed_error hfrozen
  simp only [replayShadowPageRecords, Engine.disk, hshadow, hdata.keepsID]

theorem recover_removed (hfrozen : s.logs.frozen = none) (hwal : Logs db ident s.logs.wal newTxns) :
    recover db (ident.reopen throwOnFailure) s.disk = .ok (db.replayed newTxns target) := by
  have hnone : Logs db ident s.disk.frozen [] := by
    rw [Engine.disk, hfrozen]
    exact .absent
  exact recover_logged hdata.reads hdata.keepsID hnone hwal

end Rotated

end Lbug.Storage
