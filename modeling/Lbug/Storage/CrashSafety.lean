/-
  Storage/CrashSafety.lean --- crashes in the middle of one checkpoint.

  The database is opened again on the files that are left after any operation of a
  checkpoint.  With a rotated WAL the outcome is the state of all committed
  transactions, except between the truncation of the shadow file and the removal of the
  frozen WAL, where the checkpoint record can no longer be honoured
  (`recover_rotated_iff`).  Without a rotation the checkpoint record goes to the active
  WAL, and from then on until the WAL is cleared the database cannot be opened
  (`recover_plain_error`).
-/
import Lbug.Storage.CheckpointPhases

namespace Lbug.Storage

open Foundation List

variable {σ Op Page : Type} {db : Database σ Op Page} {newTxns : List (List Op)}
  {s : Engine σ Op Page} {txns : List (List Op)} {ident : WalIdentity} {base : σ}

namespace Engine

variable {db : Database σ Op Page} {ident : WalIdentity} {s : Engine σ Op Page}

section

variable (ident : WalIdentity) (s : Engine σ Op Page)

theorem performAll_append (ops ops' : List (CheckpointOp Page)) :
    s.performAll ident (ops ++ ops') = (s.performAll ident ops).performAll ident ops' :=
  foldl_append

/-- Page operations change nothing but the pages. -/
theorem performAll_pages (ops : List (PageOp Page)) :
    s.performAll ident (ops.map .page) =
      { s with pages := ops.foldl (PageStore.perform ident.databaseID) s.pages } := by
  induction ops generalizing s with
  | nil => rfl
  | cons op _ ih => exact ih (s.perform ident (.page op))

end

/-- Transactions commit one after the other. -/
def commitAll (db : Database σ Op Page) (ident : WalIdentity) (s : Engine σ Op Page)
    (txns : List (List Op)) : Engine σ Op Page :=
  txns.foldl (commit db ident) s

end Engine

theorem Clean.commitAll (h : Clean db ident s base txns) (newTxns : List (List Op)) :
    Clean db ident (s.commitAll db ident newTxns) base (txns ++ newTxns) := by
  induction newTxns generalizing s txns with
  | nil =>
    rw [append_nil]
    exact h
  | cons txn _ ih =>
    have hrest := ih (h.commit txn)
    rw [append_assoc] at hrest
    exact hrest

/-- After at least one commit the active WAL is there and its writer is open. -/
theorem Clean.wal_commitAll (h : Clean db ident s base txns) (hne : newTxns ≠ []) :
    (s.commitAll db ident newTxns).logs.writerOpen = true ∧
      (s.commitAll db ident newTxns).logs.wal = some (db.walFile ident (txns ++ newTxns)) := by
  obtain ⟨init, txn, rfl⟩ : ∃ init txn, newTxns = init ++ [txn] :=
    ⟨newTxns.dropLast, newTxns.getLast hne, (dropLast_append_getLast hne).symm⟩
  have hinit := h.commitAll init
  have hlast : s.commitAll db ident (init ++ [txn]) =
      (s.commitAll db ident init).commit db ident txn :=
    foldl_concat ..
  rw [hlast, Engine.commit, hinit.active.wal_logCommittedWAL, append_assoc]
  exact ⟨rfl, rfl⟩

/-! ## A small database to run

One table of numbers.  The header page names the page that holds the rows; an insertion
is logged, a copy is not. -/

namespace Tally

inductive Operation
  | insert (n : Nat)
  | copy (n : Nat)
  deriving DecidableEq, Repr

inductive TallyPage
  | blank
  | header (databaseID : Nat) (root : Option Nat)
  | rows (ns : List Nat)
  deriving DecidableEq, Repr

def readRows (f : Nat → TallyPage) : Option (List Nat) :=
  match f 0 with
  | .header _ none => some []
  | .header _ (some root) =>
    match f root with
    | .rows ns => some ns
    | _ => none
  | _ => none

def database : Database (List Nat) Operation TallyPage where
  readCheckpoint := readRows
  databaseID
    | .header id _ => some id
    | _ => none
  live f i := i = 0 ∨ ∃ id, f 0 = .header id (some i)
  live_header _ := .inl rfl
  readCheckpoint_congr f g h := by
    have hzero := h 0 (.inl rfl)
    unfold readRows
    rw [hzero]
    split
    · rfl
    · rename_i id root hroot
      rw [h root (.inr ⟨id, hroot⟩)]
    · rfl
  apply
    | .insert n, ns | .copy n, ns => ns ++ [n]
  isLogged
    | .insert _ => true
    | .copy _ => false

def identity : WalIdentity where
  databaseID := 5
  enableChecksums := true

/-- A database that was just created. -/
def created : Engine (List Nat) Operation TallyPage where
  logs := { wal := none, frozen := none, writerOpen := false, buffer := [] }
  pages :=
    { data := Function.update (fun _ => .blank) 0 (.header 5 none)
      shadow := none
      records := []
      frames := fun _ => .blank }
  state := []
  pending := none

theorem created_clean : Clean database identity created [] [] where
  data := ⟨rfl, rfl⟩
  active := ⟨.absent, nofun⟩
  frozen := rfl
  records := rfl
  state := rfl

/-- Write the rows to an unused page and point the header to it. -/
def planFor (page : Nat) (ns : List Nat) : Plan TallyPage where
  storage := [.writePage page (.rows ns), .shadowWrite 0 (.header 5 (some page))]
  dirty := [1]

/-- Such a plan serialises the rows, if the page is not in use. -/
theorem planFor_serializes {pages : PageStore TallyPage} (root : Option Nat) {page : Nat}
    (ns : List Nat) (hrecords : pages.records = []) (hheader : pages.data 0 = .header 5 root)
    (hpage : page ≠ 0) (hroot : root ≠ some page) :
    (planFor page ns).Serializes database identity.databaseID pages ns where
  isStorage := by simp [planFor, PageOp.isStorage]
  dead := by
    simp [planFor, Plan.directs, database, hheader, hpage, hroot]
  header := by simp [planFor, Plan.shadows]
  reads := by
    simp [planFor, Plan.planned, Plan.shadows, Plan.directs, writeAll, database, readRows, hpage]
  keepsID := by simp [planFor, Plan.shadows, database, identity]
  onDisk := by
    intro k hk
    left
    simpa [planFor, Plan.stored, PageStore.perform, PageStore.shadowWrite, hrecords] using hk

end Tally

/-! ## With a rotated WAL -/

section Rotated

variable {db : Database σ Op Page} {ident : WalIdentity} {s : Engine σ Op Page} {base : σ}
  {txns : List (List Op)} {plan : Plan Page} {rest : List (CheckpointOp Page)}
  {pages : PageStore Page} {data : Nat → Page} {target : σ}

theorem rotatedScript_eq (plan : Plan Page) (numRecords : Nat) :
    plan.rotatedScript numRecords = .log .flush :: .log .rename ::
      (plan.prepare.map .page ++ .log .checkpointToFrozen :: rotatedTail numRecords 0) := by
  simp [Plan.rotatedScript, rotatedTail, Plan.applyShadowPages]

/-- A list of operations leads from phase to phase. -/
theorem RotatedPhase.performAll (hprepared : Prepared db ident.databaseID base target pages)
    (pre : List (CheckpointOp Page))
    (h : RotatedPhase db ident data base target txns pages (pre ++ rest) s newTxns) :
    RotatedPhase db ident data base target txns pages rest (s.performAll ident pre) newTxns := by
  induction pre generalizing s with
  | nil => exact h
  | cons _ _ ih => exact ih (h.perform hprepared)

/-- The rotation starts the first phase. -/
theorem Clean.rotated (h : Clean db ident s base txns)
    (hwal : s.logs.wal = some (db.walFile ident txns))
    (hplan : plan.Serializes db ident.databaseID s.pages s.state) :
    RotatedPhase db ident s.pages.data base s.state txns (s.prepared ident plan)
      (plan.prepare.map .page ++
        .log .checkpointToFrozen :: rotatedTail (s.prepared ident plan).records.length 0)
      (s.performAll ident [.log .flush, .log .rename]) [] := by
  have hrenamed : s.performAll ident [.log .flush, .log .rename] =
      s.perform ident (.log .rename) := by
    simp only [Engine.performAll, foldl_cons, foldl_nil]
    simp only [Engine.perform, h.active.perform_flush_of_written hwal]
  rw [hrenamed]
  exact rotatedPhase_rename hwal hplan

theorem Clean.recover (h : Clean db ident s base txns) (throwOnFailure : Bool) :
    recover db (ident.reopen throwOnFailure) s.disk = .ok (db.replayed txns base) := by
  have hnone : Logs db ident s.disk.frozen [] := by
    rw [Engine.disk, h.frozen]
    exact .absent
  exact recover_logged h.data.reads h.data.keepsID hnone h.active.wal

/-- What opening the database gives at each phase, when nothing commits after the
rotation. -/
theorem RotatedPhase.recover_iff (hbase : Holds db ident.databaseID data base)
    (hprepared : Prepared db ident.databaseID base target pages)
    (h : RotatedPhase db ident data base target txns pages rest s []) (throwOnFailure : Bool) :
    recover db (ident.reopen throwOnFailure) s.disk = .ok target ↔
      rest ≠ [.log .clearFrozenWAL, .page .reset] ∧
        (.log .checkpointToFrozen ∈ rest → db.replayed txns base = target) := by
  cases h with
  | preparing ops hagree _ _ hfrozen hactive =>
    have hmem : (.log .checkpointToFrozen : CheckpointOp Page) ∈
        ops.map .page ++ .log .checkpointToFrozen :: rotatedTail pages.records.length 0 :=
      mem_append_right _ mem_cons_self
    rw [recover_preparing hbase hagree hfrozen hactive, append_nil, Except.ok.injEq]
    constructor
    · intro heq
      refine ⟨fun hrest => ?_, fun _ => heq⟩
      rw [hrest] at hmem
      simp at hmem
    · exact fun hcond => hcond.2 hmem
  | applying k hpages hfrozen hactive =>
    rw [recover_applying hprepared hpages hfrozen hactive]
    refine iff_of_true rfl ⟨?_, ?_⟩
    · intro hrest
      have hmem : (.page .clear : CheckpointOp Page) ∈ rotatedTail pages.records.length k :=
        mem_append_right _ mem_cons_self
      rw [hrest] at hmem
      simp at hmem
    · intro hmem
      rw [rotatedTail, mem_append, mem_map] at hmem
      rcases hmem with ⟨_, -, hi⟩ | hmem
      · cases hi
      · simp at hmem
  | cleared hdata hshadow _ hfrozen =>
    rw [recover_cleared hdata hshadow hfrozen]
    exact iff_of_false (by simp) fun hcond => hcond.1 rfl
  | removed hrest hdata _ hfrozen hactive =>
    rw [recover_removed hdata hfrozen hactive.wal]
    rcases hrest with rfl | rfl
    · exact iff_of_true rfl ⟨by simp, by simp⟩
    · exact iff_of_true rfl ⟨by simp, by simp⟩

/-- Transactions commit on an open database and a
checkpoint runs until the operations `rest` are left.  Opening the database then gives
the state of all committed transactions, each applied once, unless the shadow file is
already truncated and the frozen WAL not yet removed; as long as the checkpoint record
is not written, what was not logged (COPY FROM) is lost. -/
theorem recover_rotated_iff (start : Engine σ Op Page) (base : σ) (txns₀ txns : List (List Op))
    (hstart : Clean db ident start base txns₀) (hne : txns ≠ []) (plan : Plan Page)
    (hplan : plan.Serializes db ident.databaseID (start.commitAll db ident txns).pages
      (start.commitAll db ident txns).state)
    (pre rest : List (CheckpointOp Page))
    (hsplit : (start.commitAll db ident txns).script ident plan = pre ++ rest)
    (throwOnFailure : Bool) :
    recover db (ident.reopen throwOnFailure)
        ((start.commitAll db ident txns).performAll ident pre).disk =
      .ok (db.applied (txns₀ ++ txns) base) ↔
    rest ≠ [.log .clearFrozenWAL, .page .reset] ∧ (.log .checkpointToFrozen ∈ rest →
        db.replayed (txns₀ ++ txns) base = db.applied (txns₀ ++ txns) base) := by
  have hclean := hstart.commitAll txns
  obtain ⟨hopen, hwal⟩ := hstart.wal_commitAll hne
  rw [← hclean.state]
  generalize start.commitAll db ident txns = s at *
  generalize txns₀ ++ txns = all at *
  have hprepared : Prepared db ident.databaseID base s.state (s.prepared ident plan) :=
    prepared_of_serializes hclean.data hclean.records hplan
  have hscript : s.script ident plan =
      plan.rotatedScript (s.prepared ident plan).records.length := by
    simp only [Engine.script, LogStore.rotates, hopen, Bool.true_or, if_true]
  rw [hscript, rotatedScript_eq] at hsplit
  -- before the rename nothing has changed on disk
  have hbefore : (.log .checkpointToFrozen : CheckpointOp Page) ∈ rest →
      (recover db (ident.reopen throwOnFailure) s.disk = .ok s.state ↔
        rest ≠ [.log .clearFrozenWAL, .page .reset] ∧
          (.log .checkpointToFrozen ∈ rest → db.replayed all base = s.state)) := by
    intro hmem
    rw [hclean.recover, Except.ok.injEq]
    refine ⟨fun heq => ⟨fun hrest => ?_, fun _ => heq⟩, fun hcond => hcond.2 hmem⟩
    rw [hrest] at hmem
    simp at hmem
  rcases pre with _ | ⟨_, _ | ⟨_, pre⟩⟩
  · refine hbefore ?_
    rw [nil_append] at hsplit
    rw [← hsplit]
    simp
  · obtain ⟨rfl, hrest⟩ := cons.inj hsplit
    have hsame : s.performAll ident [.log .flush] = s := by
      simp only [Engine.performAll, foldl_cons, foldl_nil, Engine.perform,
        hclean.active.perform_flush_of_written hwal]
    rw [hsame]
    refine hbefore ?_
    have hrest : _ = rest := hrest
    rw [← hrest]
    simp
  · obtain ⟨rfl, htail⟩ := cons.inj hsplit
    obtain ⟨rfl, hrest⟩ := cons.inj htail
    have hphase := hclean.rotated hwal hplan
    rw [hrest] at hphase
    exact (hphase.performAll hprepared pre).recover_iff hclean.data hprepared throwOnFailure

end Rotated

namespace Tally

/-- One row is inserted. -/
def inserted : Engine (List Nat) Operation TallyPage :=
  created.commitAll database identity [[.insert 7]]

theorem inserted_serializes :
    (planFor 1 [7]).Serializes database identity.databaseID inserted.pages inserted.state :=
  planFor_serializes none [7] rfl rfl (by decide) (by decide)

/-- A crash after the rotation and the direct page write loses nothing. -/
theorem recover_rotated_iff_sample : recover database (identity.reopen true)
        (inserted.performAll identity ((inserted.script identity (planFor 1 [7])).take 3)).disk =
      .ok [7] :=
  (recover_rotated_iff created [] [] [[.insert 7]] created_clean (by decide) (planFor 1 [7])
    inserted_serializes _ ((inserted.script identity (planFor 1 [7])).drop 3)
    (take_append_drop 3 _).symm true).mpr ⟨by decide +kernel, fun _ => rfl⟩

/-- A crash right after the shadow file is truncated: the database cannot be opened. -/
theorem recover_rotated_fails : Clean database identity created [] [] ∧
      (planFor 1 [7]).Serializes database identity.databaseID inserted.pages inserted.state ∧
      ∃ pre, inserted.script identity (planFor 1 [7]) =
          pre ++ [.log .clearFrozenWAL, .page .reset] ∧
        recover database (identity.reopen true) (inserted.performAll identity pre).disk =
          .error .databaseIDMismatch := by
  refine ⟨created_clean, inserted_serializes,
    (inserted.script identity (planFor 1 [7])).take 10, ?_, ?_⟩
  · decide +kernel
  · decide +kernel

end Tally

/-! ## Without a rotation -/

/-- Whatever the state and the plan, the
operations up to the checkpoint record in the active WAL and any part of the application
of the shadow pages are the beginning of the checkpoint, and after them the database
cannot be opened: recovery removes the shadow file before it looks at the active WAL. -/
theorem recover_plain_error (db : Database σ Op Page) (ident : WalIdentity)
    (s : Engine σ Op Page) (hrotates : s.logs.rotates = false) (plan : Plan Page)
    (applied : List (PageOp Page))
    (happlied : applied <+: Plan.applyShadowPages (s.prepared ident plan).records.length)
    (throwOnFailure : Bool) :
    let pre := plan.prepare.map .page ++ [.log .initWriter, .log .addCheckpoint, .log .flush] ++
      applied.map .page
    pre <+: s.script ident plan ∧
      ∃ e, recover db (ident.reopen throwOnFailure) (s.performAll ident pre).disk = .error e := by
  intro pre
  constructor
  · obtain ⟨left, hleft⟩ := happlied
    refine ⟨left.map .page ++ [.log .clear, .page .clear, .log .reset, .page .reset], ?_⟩
    simp only [Engine.script, hrotates, Bool.false_eq_true, if_false, Plan.plainScript, pre,
      ← hleft, map_append, append_assoc, cons_append, nil_append]
  -- the log holds a header and the checkpoint record, whatever the pages are
  have hlogs : (s.performAll ident pre).logs.wal =
      some [.header ident.databaseID ident.enableChecksums, .record .checkpoint] := by
    rw [LogStore.rotates_eq_false] at hrotates
    simp only [pre, Engine.performAll_append, Engine.performAll_pages]
    simp [Engine.performAll, Engine.perform, LogStore.perform, LogStore.initWriter, LogStore.add,
      LogStore.flush, hrotates.1, hrotates.2]
  have hdry : dryReplay (ident.reopen throwOnFailure)
      ([.header ident.databaseID ident.enableChecksums, .record .checkpoint] :
        List (WalEntry Op)) = .ok (2, true) := by
    simp [dryReplay, dryScan, WalIdentity.reopen]
  exact recover_activeCheckpoint hlogs hdry (cons_ne_nil _ _)

namespace Tally

/-- The database that was just created has no WAL to rotate. -/
theorem recover_plain_error_sample :
    ∃ e, recover database (identity.reopen true) (created.performAll identity
      ((planFor 1 []).prepare.map .page ++
        [.log .initWriter, .log .addCheckpoint, .log .flush] ++ ([].map .page))).disk = .error e :=
  (recover_plain_error database identity created rfl (planFor 1 []) [] nil_prefix true).2

/-- A crash right after the checkpoint record of the first checkpoint of a database: the
plan is in order, and still the checkpointed state is not opened. -/
theorem recover_plain_fails :
    (planFor 1 []).Serializes database identity.databaseID created.pages created.state ∧
      created.logs.rotates = false ∧
      ∃ pre, pre <+: created.script identity (planFor 1 []) ∧
        (created.performAll identity pre).logs.wal = some [.header 5 true, .record .checkpoint] ∧
        recover database (identity.reopen true) (created.performAll identity pre).disk ≠
          .ok created.state := by
  refine ⟨planFor_serializes none [] rfl rfl (by decide) (by decide), rfl,
    (created.script identity (planFor 1 [])).take 8, take_prefix _ _, ?_, ?_⟩
  · decide +kernel
  · decide +kernel

end Tally

end Lbug.Storage
