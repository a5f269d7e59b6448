/-
  Storage/PlainPhases.lean --- a checkpoint that finds no WAL to rotate.

  It writes its checkpoint record to an active WAL of its own, which it empties before
  the shadow file is truncated and removes at the end.  `PlainPhase` describes the files
  and the memory by the operations that are left, `PlainPhase.perform` is the step lemma.
  The write gate is given back before the active WAL is removed: only from then on
  (`removed`) may transactions commit.
-/
import Lbug.Storage.CheckpointPhases

namespace Lbug.Storage

open Foundation

variable {σ Op Page : Type}

/-- The operations from the application of record `k` on. -/
def plainTail (numRecords k : Nat) : List (CheckpointOp Page) :=
  ((List.range numRecords).drop k).map (fun i => .page (.applyPage i)) ++
    [.log .clear, .page .clear, .log .reset, .page .reset]

/-- The logs of a checkpoint without a rotation, from `initWriter` on. -/
def plainLogs (entries buffer : List (WalEntry Op)) : LogStore Op :=
  { wal := some entries, frozen := none, writerOpen := true, buffer := buffer }

variable (db : Database σ Op Page) (ident : WalIdentity) (data : Nat → Page) (target : σ)
  (pages : PageStore Page)

/-- The files and the memory of a checkpoint without a rotation, by the operations that
are left; `newTxns` are the transactions that commit after it. -/
inductive PlainPhase : List (CheckpointOp Page) → Engine σ Op Page → List (List Op) → Prop
  | preparing {s : Engine σ Op Page} (ops : List (PageOp Page))
      (hagree : Agrees db data s.pages.data) (hops : ∀ op ∈ ops, op.Prepares db data)
      (hpages : ops.foldl (PageStore.perform ident.databaseID) s.pages = pages)
      (hfrozen : s.logs.frozen = none) (hrotates : s.logs.rotates = false) :
      PlainPhase
        (ops.map .page ++ .log .initWriter :: .log .addCheckpoint :: .log .flush ::
          plainTail pages.records.length 0) s []
  | opened {s : Engine σ Op Page} (hpages : s.pages = pages)
      (hlogs : s.logs = plainLogs [] [.header ident.databaseID ident.enableChecksums]) :
      PlainPhase (.log .addCheckpoint :: .log .flush :: plainTail pages.records.length 0) s []
  | buffered {s : Engine σ Op Page} (hpages : s.pages = pages)
      (hlogs : s.logs =
        plainLogs [] [.header ident.databaseID ident.enableChecksums, .record .checkpoint]) :
      PlainPhase (.log .flush :: plainTail pages.records.length 0) s []
  | applying {s : Engine σ Op Page} (k : Nat)
      (hpages : s.pages = { pages with
        data := writeAll ((PageStore.pairs pages.frames pages.records 1).take k) pages.data })
      (hlogs : s.logs =
        plainLogs [.header ident.databaseID ident.enableChecksums, .record .checkpoint] []) :
      PlainPhase (plainTail pages.records.length k) s []
  | emptied {s : Engine σ Op Page} (hdata : Holds db ident.databaseID s.pages.data target)
      (hlogs : s.logs = plainLogs [] []) :
      PlainPhase [.page .clear, .log .reset, .page .reset] s []
  | cleared {s : Engine σ Op Page} (hdata : Holds db ident.databaseID s.pages.data target)
      (hrecords : s.pages.records = []) (hlogs : s.logs = plainLogs [] []) :
      PlainPhase [.log .reset, .page .reset] s []
  | removed {s : Engine σ Op Page} {newTxns : List (List Op)} {rest : List (CheckpointOp Page)}
      (hrest : rest = [.page .reset] ∨ rest = [])
      (hdata : Holds db ident.databaseID s.pages.data target) (hrecords : s.pages.records = [])
      (hfrozen : s.logs.frozen = none) (hactive : Active db ident s.logs newTxns) :
      PlainPhase rest s newTxns

variable {db ident data target pages} {base : σ} {newTxns : List (List Op)}
  {rest : List (CheckpointOp Page)} {s : Engine σ Op Page} {numRecords k : Nat}

theorem plainTail_of_lt (hk : k < numRecords) :
    (plainTail numRecords k : List (CheckpointOp Page)) =
      .page (.applyPage k) :: plainTail numRecords (k + 1) := by
  rw [plainTail, drop_range_of_lt hk]
  rfl

theorem plainTail_of_le (hk : numRecords ≤ k) :
    (plainTail numRecords k : List (CheckpointOp Page)) =
      [.log .clear, .page .clear, .log .reset, .page .reset] := by
  rw [plainTail, List.drop_eq_nil_of_le (by rwa [List.length_range])]
  rfl

theorem plainScript_eq (plan : Plan Page) (numRecords : Nat) :
    plan.plainScript numRecords = plan.prepare.map .page ++
      .log .initWriter :: .log .addCheckpoint :: .log .flush :: plainTail numRecords 0 := by
  simp [Plan.plainScript, plainTail, Plan.applyShadowPages]

/-- A commit after the checkpoint goes to a new active WAL. -/
theorem PlainPhase.commit (h : PlainPhase db ident data target pages rest s newTxns)
    (hrest : .log .reset ∉ rest) (txn : List Op) :
    PlainPhase db ident data target pages rest (s.commit db ident txn) (newTxns ++ [txn]) := by
  cases h with
  | preparing | opened | buffered | applying | emptied | cleared =>
    simp [plainTail] at hrest
  | removed hlast hdata hrecords hfrozen hactive =>
    exact .removed hlast hdata hrecords (hactive.commit_frozen.trans hfrozen)
      (hactive.logCommittedWAL txn)

/-- Each operation of a checkpoint without a rotation leads to the next phase. -/
theorem PlainPhase.perform (hprepared : Prepared db ident.databaseID base target pages)
    {op : CheckpointOp Page} (h : PlainPhase db ident data target pages (op :: rest) s newTxns) :
    PlainPhase db ident data target pages rest (s.perform ident op) newTxns := by
  generalize hall : op :: rest = all at h
  cases h with
  | preparing ops hagree hops hpages hfrozen hrotates =>
    cases ops with
    | nil =>
      cases hall
      refine .opened hpages ?_
      obtain ⟨hclosed, hwal⟩ := LogStore.rotates_eq_false.mp hrotates
      simp [Engine.perform, LogStore.perform, LogStore.initWriter, hclosed, hwal, hfrozen,
        plainLogs]
    | cons pageOp ops =>
      cases hall
      refine .preparing ops ?_ ?_ hpages hfrozen hrotates
      · exact agrees_perform (hops pageOp List.mem_cons_self) hagree
      · exact fun op hop => hops op (List.mem_cons_of_mem _ hop)
  | opened hpages hlogs =>
    cases hall
    refine .buffered hpages ?_
    simp [Engine.perform, LogStore.perform, LogStore.add, hlogs, plainLogs]
  | buffered hpages hlogs =>
    cases hall
    refine .applying 0 hpages ?_
    simp [Engine.perform, LogStore.perform, LogStore.flush, hlogs, plainLogs]
  | applying k hpages hlogs =>
    rcases Nat.lt_or_ge k pages.records.length with hk | hk
    · rw [plainTail_of_lt hk] at hall
      cases hall
      refine .applying (k + 1) ?_ hlogs
      rw [← PageStore.perform_applyPage hprepared.complete, ← hpages]
      rfl
    · rw [plainTail_of_le hk] at hall
      cases hall
      refine .emptied ?_ ?_
      · simp only [Engine.perform, hpages]
        exact hprepared.applied hk
      · simp [Engine.perform, LogStore.perform, hlogs, plainLogs]
  | emptied hdata hlogs =>
    cases hall
    exact .cleared hdata rfl hlogs
  | cleared hdata hrecords hlogs =>
    cases hall
    refine .removed (.inl rfl) hdata hrecords ?_ ⟨.absent, fun hopen => by cases hopen⟩
    simp [Engine.perform, LogStore.perform, hlogs, plainLogs]
  | removed hrest hdata hrecords hfrozen hactive =>
    rcases hrest with rfl | rfl
    · cases hall
      exact .removed (.inr rfl) hdata hrecords hfrozen hactive
    · cases hall

/-- Without transactions in the logs, opening the database gives the checkpoint. -/
theorem recover_empty (hdata : Holds db ident.databaseID s.pages.data base)
    (hfrozen : s.logs.frozen = none) (hwal : s.logs.wal = none ∨ s.logs.wal = some [])
    (throwOnFailure : Bool) :
    recover db (ident.reopen throwOnFailure) s.disk = .ok base := by
  have hlogs : Logs db ident s.logs.wal [] := by
    rcases hwal with hwal | hwal <;> rw [hwal] <;> constructor
  exact recover_removed hdata hfrozen hlogs

/-- What opening the database gives at each phase, unless the active WAL ends in the
checkpoint record. -/
theorem PlainPhase.recover (h : PlainPhase db ident data target pages rest s newTxns)
    (hbase : Holds db ident.databaseID data target)
    (hprepared : Prepared db ident.databaseID target target pages)
    (hrecord : .record .checkpoint ∉ s.logs.wal.getD []) (throwOnFailure : Bool) :
    recover db (ident.reopen throwOnFailure) s.disk = .ok (db.replayed newTxns target) := by
  cases h with
  | preparing _ hagree _ _ hfrozen hrotates =>
    exact recover_empty (hbase.congr hagree) hfrozen
      (.inl (LogStore.rotates_eq_false.mp hrotates).2) throwOnFailure
  | opened hpages hlogs | buffered hpages hlogs =>
    refine recover_empty ?_ (by rw [hlogs]; rfl) (.inr (by rw [hlogs]; rfl)) throwOnFailure
    rw [hpages]
    exact hprepared.data
  | applying _ _ hlogs =>
    rw [hlogs] at hrecord
    simp [plainLogs] at hrecord
  | emptied hdata hlogs | cleared hdata _ hlogs =>
    exact recover_empty hdata (by rw [hlogs]; rfl) (.inr (by rw [hlogs]; rfl)) throwOnFailure
  | removed _ hdata _ hfrozen hactive =>
    exact recover_removed hdata hfrozen hactive.wal

end Lbug.Storage
