/-
  Storage/FailedCheckpoints.lean --- runs with checkpoints that fail.

  `Checkpointer::rollback` restores nothing of the protocol: a checkpoint that throws
  leaves its frozen WAL, its shadow pages and, without a rotation, its checkpoint record
  where they are.  `Residue` lists what an idle database can look like after any number
  of them, `Progress` what a running checkpoint can look like.  As long as nothing is
  built on such a residue (`Engine.Careful`: no checkpoint next to a frozen WAL or to
  shadow pages of an earlier one, no commit to a WAL that a failed checkpoint has written
  to), every crash is recovered to the committed transactions.
-/
import Lbug.Storage.PlainPhases
import Lbug.Storage.CrashSafety

namespace Lbug.Storage

open Foundation List

variable {σ Op Page : Type} {txns : List (List Op)} {base : σ} {pages : PageStore Page}

/-! ## Conditions on the calls -/

/-- The active WAL can take further transactions: no checkpoint record is in the file or
in the buffer of its writer, and an open writer has written or buffered the header. -/
structure LogStore.Usable (logs : LogStore Op) : Prop where
  noCheckpoint : .record .checkpoint ∉ logs.wal.getD [] ++ logs.buffer
  header : logs.writerOpen = true → logs.wal.getD [] ++ logs.buffer ≠ []

section

variable (db : Database σ Op Page) (ident : WalIdentity) (s : Engine σ Op Page)

/-- Calls that do not build on what a failed checkpoint has left.  A transaction commits
while no checkpoint is about to remove the active WAL, and its logged operations have the
effect of all of them; a checkpoint finds no frozen WAL, no shadow pages and no empty
WAL file. -/
def Engine.Careful : EngineCall Op Page → Prop
  | .commit txn => s.logs.Usable ∧ (∀ p, s.pending = some p → .log .reset ∉ p.rest) ∧
      db.replayed [txn] s.state = db.applied [txn] s.state
  | .checkpoint plan => plan.Serializes db ident.databaseID s.pages s.state ∧ s.logs.Usable ∧
      s.logs.frozen = none ∧ s.pages.records = [] ∧
      (s.logs.writerOpen = false → s.logs.wal ≠ some [])
  | .next | .throw_ => True

/-- Crashes at which no checkpoint record points to shadow pages that recovery cannot
read: none is in the active WAL, and if one is in the frozen WAL the shadow file is not
truncated. -/
structure Engine.CrashOk : Prop where
  active : .record .checkpoint ∉ s.logs.wal.getD []
  frozen : .record .checkpoint ∈ s.logs.frozen.getD [] →
    ∀ image, s.pages.shadow = some image → image 0 ≠ .hole

/-- Opening the database after a crash gives the state of all committed transactions. -/
def Engine.Recovers : Prop :=
  s.CrashOk → ∀ throwOnFailure, recover db (ident.reopen throwOnFailure) s.disk = .ok s.state

/-! ## What failed checkpoints leave -/

/-- The files and the logs of an idle database. -/
inductive Residue : Prop
  /-- A checkpoint in the data file, and all later transactions in the logs. -/
  | logged (base : σ) (txns newTxns : List (List Op))
      (hdata : Holds db ident.databaseID s.pages.data base)
      (hfrozen : Logs db ident s.logs.frozen txns) (hactive : Active db ident s.logs newTxns)
      (hstate : s.state = db.replayed (txns ++ newTxns) base)
  /-- A checkpoint failed while it applied its shadow pages. -/
  | checkpointed (base target : σ) (txns newTxns : List (List Op)) (pages : PageStore Page)
      (k : Nat)
      (hprepared : Prepared db ident.databaseID base target pages)
      (hpages : s.pages = { pages with
        data := writeAll ((PageStore.pairs pages.frames pages.records 1).take k) pages.data })
      (hfrozen : s.logs.frozen = some (db.walFile ident txns ++ [.record .checkpoint]))
      (hactive : Active db ident s.logs newTxns)
      (hstate : s.state = db.replayed newTxns target)
  /-- A checkpoint without a rotation failed after it touched the active WAL. -/
  | blocked (hlogs : ¬ s.logs.Usable) (hrecovers : s.Recovers db ident)

/-- The files and the logs while a checkpoint runs, by the operations that are left. -/
inductive Progress : List (CheckpointOp Page) → Prop
  | starting {rest} (base : σ) (txns : List (List Op)) (plan : Plan Page)
      (hdata : Holds db ident.databaseID s.pages.data base)
      (hactive : Active db ident s.logs txns) (hfrozen : s.logs.frozen = none)
      (hrecords : s.pages.records = [])
      (hplan : plan.Serializes db ident.databaseID s.pages s.state)
      (hstate : s.state = db.replayed txns base)
      (hrest : rest = plan.rotatedScript (s.prepared ident plan).records.length ∧
          (s.logs.perform ident .flush).wal = some (db.walFile ident txns) ∨
        .log .flush :: rest = plan.rotatedScript (s.prepared ident plan).records.length ∧
          s.logs.wal = some (db.walFile ident txns)) :
      Progress rest
  | rotated {rest} (data : Nat → Page) (base target : σ)
      (txns newTxns : List (List Op)) (pages : PageStore Page)
      (hbase : Holds db ident.databaseID data base)
      (hprepared : Prepared db ident.databaseID base target pages)
      (hphase : RotatedPhase db ident data base target txns pages rest s newTxns)
      (htarget : target = db.replayed txns base) (hstate : s.state = db.replayed newTxns target) :
      Progress rest
  | plain {rest} (data : Nat → Page) (target : σ)
      (newTxns : List (List Op)) (pages : PageStore Page)
      (hbase : Holds db ident.databaseID data target)
      (hprepared : Prepared db ident.databaseID target target pages)
      (hphase : PlainPhase db ident data target pages rest s newTxns)
      (hstate : s.state = db.replayed newTxns target) :
      Progress rest

end

section Shapes

variable {db : Database σ Op Page} {ident : WalIdentity} {s : Engine σ Op Page}
  {rest : List (CheckpointOp Page)} {txn : List Op} {data : Nat → Page} {target : σ}
  {newTxns : List (List Op)} {op : CheckpointOp Page} {p : Pending Page} {plan : Plan Page}

/-! ### The checkpoint in progress does not matter for the files -/

theorem Residue.setPending (h : Residue db ident s) (pending : Option (Pending Page)) :
    Residue db ident { s with pending := pending } := by
  cases h with
  | logged base txns newTxns hdata hfrozen hactive hstate =>
    exact .logged base txns newTxns hdata hfrozen hactive hstate
  | checkpointed base target txns newTxns pages k hprepared hpages hfrozen hactive hstate =>
    exact .checkpointed base target txns newTxns pages k hprepared hpages hfrozen hactive hstate
  | blocked hlogs hrecovers => exact .blocked hlogs fun hcrash => hrecovers ⟨hcrash.1, hcrash.2⟩

theorem RotatedPhase.setPending
    (h : RotatedPhase db ident data base target txns pages rest s newTxns)
    (pending : Option (Pending Page)) :
    RotatedPhase db ident data base target txns pages rest { s with pending := pending }
      newTxns := by
  cases h with
  | preparing ops hagree hops hpages hfrozen hactive =>
    exact .preparing ops hagree hops hpages hfrozen hactive
  | applying k hpages hfrozen hactive => exact .applying k hpages hfrozen hactive
  | cleared hdata hshadow hrecords hfrozen hactive =>
    exact .cleared hdata hshadow hrecords hfrozen hactive
  | removed hrest hdata hrecords hfrozen hactive =>
    exact .removed hrest hdata hrecords hfrozen hactive

theorem PlainPhase.setPending (h : PlainPhase db ident data target pages rest s newTxns)
    (pending : Option (Pending Page)) :
    PlainPhase db ident data target pages rest { s with pending := pending } newTxns := by
  cases h with
  | preparing ops hagree hops hpages hfrozen hrotates =>
    exact .preparing ops hagree hops hpages hfrozen hrotates
  | opened hpages hlogs => exact .opened hpages hlogs
  | buffered hpages hlogs => exact .buffered hpages hlogs
  | applying k hpages hlogs => exact .applying k hpages hlogs
  | emptied hdata hlogs => exact .emptied hdata hlogs
  | cleared hdata hrecords hlogs => exact .cleared hdata hrecords hlogs
  | removed hrest hdata hrecords hfrozen hactive =>
    exact .removed hrest hdata hrecords hfrozen hactive

theorem Progress.setPending (h : Progress db ident s rest) (pending : Option (Pending Page)) :
    Progress db ident { s with pending := pending } rest := by
  cases h with
  | starting base txns plan hdata hactive hfrozen hrecords hplan hstate hrest =>
    exact .starting base txns plan hdata hactive hfrozen hrecords hplan hstate hrest
  | rotated data base target txns newTxns pages hbase hprepared hphase htarget hstate =>
    exact .rotated data base target txns newTxns pages hbase hprepared (hphase.setPending pending)
      htarget hstate
  | plain data target newTxns pages hbase hprepared hphase hstate =>
    exact .plain data target newTxns pages hbase hprepared (hphase.setPending pending) hstate

/-! ### Crashes -/

theorem Residue.recovers (h : Residue db ident s) : s.Recovers db ident := by
  intro hcrash throwOnFailure
  cases h with
  | logged _ _ _ hdata hfrozen hactive hstate =>
    rw [hstate]
    exact recover_logged hdata.reads hdata.keepsID hfrozen hactive.wal
  | checkpointed _ _ _ _ _ _ hprepared hpages hfrozen hactive hstate =>
    rw [hstate]
    exact recover_applying hprepared hpages hfrozen hactive
  | blocked _ hrecovers => exact hrecovers hcrash throwOnFailure

theorem RotatedPhase.recovers (h : RotatedPhase db ident data base target txns pages rest s newTxns)
    (hbase : Holds db ident.databaseID data base)
    (hprepared : Prepared db ident.databaseID base target pages)
    (htarget : target = db.replayed txns base) (hstate : s.state = db.replayed newTxns target) :
    s.Recovers db ident := by
  intro hcrash throwOnFailure
  rw [hstate]
  cases h with
  | preparing _ hagree _ _ hfrozen hactive =>
    rw [htarget, ← db.replayed_append]
    exact recover_preparing hbase hagree hfrozen hactive
  | applying _ hpages hfrozen hactive => exact recover_applying hprepared hpages hfrozen hactive
  | cleared _ hshadow _ hfrozen =>
    refine (hcrash.frozen ?_ _ hshadow rfl).elim
    simp [hfrozen]
  | removed _ hdata _ hfrozen hactive => exact recover_removed hdata hfrozen hactive.wal

theorem Progress.recovers (h : Progress db ident s rest) : s.Recovers db ident := by
  cases h with
  | starting _ _ _ hdata hactive hfrozen _ _ hstate =>
    intro hcrash throwOnFailure
    rw [hstate]
    exact recover_removed hdata hfrozen hactive.wal
  | rotated _ _ _ _ _ _ hbase hprepared hphase htarget hstate =>
    exact hphase.recovers hbase hprepared htarget hstate
  | plain _ _ _ _ hbase hprepared hphase hstate =>
    intro hcrash throwOnFailure
    rw [hstate]
    exact hphase.recover hbase hprepared hcrash.active throwOnFailure

/-! ### Commits -/

/-- A commit whose logged operations have its effect. -/
theorem commit_state (hstate : s.state = db.replayed txns base)
    (htxn : db.replayed [txn] s.state = db.applied [txn] s.state) :
    (s.commit db ident txn).state = db.replayed (txns ++ [txn]) base := by
  rw [db.replayed_append, ← hstate, htxn]
  rfl

theorem Residue.commit (h : Residue db ident s) (hlogs : s.logs.Usable)
    (htxn : db.replayed [txn] s.state = db.applied [txn] s.state) :
    Residue db ident (s.commit db ident txn) := by
  cases h with
  | logged base txns newTxns hdata hfrozen hactive hstate =>
    refine .logged base txns (newTxns ++ [txn]) hdata ?_ (hactive.logCommittedWAL txn) ?_
    · rw [hactive.commit_frozen]
      exact hfrozen
    · rw [← append_assoc]
      exact commit_state hstate htxn
  | checkpointed base target txns newTxns pages k hprepared hpages hfrozen hactive hstate =>
    refine .checkpointed base target txns (newTxns ++ [txn]) pages k hprepared hpages ?_
      (hactive.logCommittedWAL txn) (commit_state hstate htxn)
    rw [hactive.commit_frozen]
    exact hfrozen
  | blocked hblocked => exact (hblocked hlogs).elim

/-- While the write gate is free, a checkpoint in progress is past its rotation or its
cleanup, and a commit goes to the new active WAL. -/
theorem Progress.commit (h : Progress db ident s p.rest) (hgate : Engine.gateHeld p = false)
    (hreset : .log .reset ∉ p.rest) (htxn : db.replayed [txn] s.state = db.applied [txn] s.state) :
    Progress db ident (s.commit db ident txn) p.rest := by
  cases h with
  | starting _ _ _ _ _ _ _ _ _ hrest =>
    have hrename : (.log .rename : CheckpointOp Page) ∈ p.rest := by
      rcases hrest with ⟨hrest, -⟩ | ⟨hrest, -⟩
      · rw [hrest, rotatedScript_eq]
        simp
      · rw [rotatedScript_eq] at hrest
        rw [(cons.inj hrest).2]
        exact mem_cons_self
    have hheld : Engine.gateHeld p = true := any_eq_true.mpr ⟨_, hrename, rfl⟩
    rw [hheld] at hgate
    cases hgate
  | rotated data base target txns newTxns pages hbase hprepared hphase htarget hstate =>
    exact .rotated data base target txns (newTxns ++ [txn]) pages hbase hprepared
      (hphase.commit txn) htarget (commit_state hstate htxn)
  | plain data target newTxns pages hbase hprepared hphase hstate =>
    exact .plain data target (newTxns ++ [txn]) pages hbase hprepared (hphase.commit hreset txn)
      (commit_state hstate htxn)

/-! ### Checkpoints -/

/-- A checkpoint that finds nothing of an earlier one. -/
theorem Residue.checkpoint (h : Residue db ident s)
    (hplan : plan.Serializes db ident.databaseID s.pages s.state) (hlogs : s.logs.Usable)
    (hnone : s.logs.frozen = none) (hrecords : s.pages.records = [])
    (hempty : s.logs.writerOpen = false → s.logs.wal ≠ some []) :
    Progress db ident s (s.script ident plan) := by
  cases h with
  | logged base txns newTxns hdata hfrozen hactive hstate =>
    have htxns : txns = [] := by
      rw [hnone] at hfrozen
      cases hfrozen
      rfl
    subst htxns
    have hprepared := prepared_of_serializes hdata hrecords hplan
    cases hrotates : s.logs.rotates with
    | true =>
      refine .starting base newTxns plan hdata hactive hnone hrecords hplan hstate (.inl ⟨?_, ?_⟩)
      · rw [Engine.script, if_pos hrotates]
      · exact hactive.perform_flush hrotates hempty
    | false =>
      -- no WAL means no transactions since the last checkpoint
      have hnew : newTxns = [] := by
        have hwal := hactive.wal
        rw [(LogStore.rotates_eq_false.mp hrotates).2] at hwal
        cases hwal
        rfl
      subst hnew
      have hbase : s.state = base := hstate
      rw [hbase] at hprepared hplan
      refine .plain s.pages.data base [] (s.prepared ident plan) hdata hprepared ?_ hstate
      rw [Engine.script, if_neg (by simp [hrotates]), plainScript_eq]
      exact .preparing plan.prepare (fun _ _ => rfl)
        (fun op hop => prepares_of_serializes hplan hop) foldl_append hnone hrotates
  | checkpointed _ _ _ _ _ _ _ _ hfrozen =>
    rw [hnone] at hfrozen
    cases hfrozen
  | blocked hblocked => exact (hblocked hlogs).elim

theorem active_flush (hwal : (s.logs.perform ident .flush).wal = some (db.walFile ident txns)) :
    Active db ident (s.logs.perform ident .flush) txns := by
  refine ⟨hwal ▸ .written txns, fun hopen => ?_⟩
  simp only [LogStore.perform] at hwal hopen ⊢
  split_ifs at hwal with hwriter
  · rw [if_pos hwriter, hwal]
    simp [LogStore.flush]
  · rw [if_neg hwriter] at hopen
    exact (hwriter hopen).elim

/-- The operations up to the rename. -/
theorem Progress.perform_starting (hdata : Holds db ident.databaseID s.pages.data base)
    (hfrozen : s.logs.frozen = none) (hrecords : s.pages.records = [])
    (hplan : plan.Serializes db ident.databaseID s.pages s.state)
    (hstate : s.state = db.replayed txns base)
    (hrest : op :: rest = plan.rotatedScript (s.prepared ident plan).records.length ∧
        (s.logs.perform ident .flush).wal = some (db.walFile ident txns) ∨
      .log .flush :: op :: rest = plan.rotatedScript (s.prepared ident plan).records.length ∧
        s.logs.wal = some (db.walFile ident txns)) :
    Progress db ident (s.perform ident op) rest := by
  rcases hrest with ⟨hrest, hwal⟩ | ⟨hrest, hwal⟩
  · have hscript := hrest
    cases hrest
    refine .starting base txns plan hdata (active_flush hwal) ?_ hrecords hplan hstate
      (.inr ⟨hscript, hwal⟩)
    simp only [Engine.perform, LogStore.perform]
    split <;> exact hfrozen
  · rw [rotatedScript_eq] at hrest
    obtain ⟨-, hrest⟩ := cons.inj hrest
    cases hrest
    have hprepared := prepared_of_serializes hdata hrecords hplan
    exact .rotated s.pages.data base s.state txns [] _ hdata hprepared
      (rotatedPhase_rename hwal hplan) hstate rfl

theorem Progress.perform (h : Progress db ident s (op :: rest)) :
    Progress db ident (s.perform ident op) rest := by
  have hsame : (s.perform ident op).state = s.state := by cases op <;> rfl
  cases h with
  | starting _ _ _ hdata _ hfrozen hrecords hplan hstate hrest =>
    exact .perform_starting hdata hfrozen hrecords hplan hstate hrest
  | rotated data base target txns newTxns pages hbase hprepared hphase htarget hstate =>
    exact .rotated data base target txns newTxns pages hbase hprepared (hphase.perform hprepared)
      htarget (hsame.trans hstate)
  | plain data target newTxns pages hbase hprepared hphase hstate =>
    exact .plain data target newTxns pages hbase hprepared (hphase.perform hprepared)
      (hsame.trans hstate)

/-- After its last operation a checkpoint leaves a clean database. -/
theorem Progress.finish (h : Progress db ident s []) : Residue db ident s := by
  generalize hnil : ([] : List (CheckpointOp Page)) = rest at h
  cases h with
  | starting _ _ _ _ _ _ _ _ _ hrest =>
    subst hnil
    rw [rotatedScript_eq] at hrest
    simp at hrest
  | rotated _ _ target _ newTxns _ _ _ hphase _ hstate =>
    cases hphase with
    | preparing | applying => simp [rotatedTail] at hnil
    | cleared => cases hnil
    | removed _ hdata _ hfrozen hactive =>
      exact .logged target [] newTxns hdata (hfrozen ▸ .absent) hactive hstate
  | plain _ target newTxns _ _ _ hphase hstate =>
    cases hphase with
    | preparing | applying => simp [plainTail] at hnil
    | opened | buffered | emptied | cleared => cases hnil
    | removed _ hdata _ hfrozen hactive =>
      exact .logged target [] newTxns hdata (hfrozen ▸ .absent) hactive hstate

/-- What a checkpoint leaves when it throws. -/
theorem Progress.throw (h : Progress db ident s p.rest) (hthrow : Engine.canThrow p = true) :
    Residue db ident s := by
  have hrecovers := h.recovers
  have hclear : (.page .clear : CheckpointOp Page) ∈ p.rest := by
    obtain ⟨_, hop, hclear⟩ := any_eq_true.mp hthrow
    split at hclear
    · exact hop
    · cases hclear
  generalize p.rest = rest at h hclear
  cases h with
  | starting base txns _ hdata hactive hfrozen _ _ hstate =>
    exact .logged base [] txns hdata (hfrozen ▸ .absent) hactive hstate
  | rotated _ base target txns newTxns pages hbase hprepared hphase htarget hstate =>
    cases hphase with
    | preparing _ hagree _ _ hfrozen hactive =>
      refine .logged base txns newTxns (hbase.congr hagree) (hfrozen ▸ .written txns) hactive ?_
      rw [db.replayed_append, ← htarget]
      exact hstate
    | applying k hpages hfrozen hactive =>
      exact .checkpointed base target txns newTxns pages k hprepared hpages hfrozen hactive hstate
    | cleared => simp at hclear
    | removed hrest => rcases hrest with rfl | rfl <;> simp at hclear
  | plain data target _ _ hbase hprepared hphase hstate =>
    cases hphase with
    | preparing _ hagree _ _ hfrozen hrotates =>
      refine .logged target [] [] (hbase.congr hagree) (hfrozen ▸ .absent) ⟨?_, ?_⟩ hstate
      · rw [(LogStore.rotates_eq_false.mp hrotates).2]
        exact .absent
      · intro hopen
        rw [(LogStore.rotates_eq_false.mp hrotates).1] at hopen
        cases hopen
    | opened hpages hlogs =>
      refine .logged target [] [] ?_ ?_ ⟨?_, fun _ => ?_⟩ hstate
      · rw [hpages]
        exact hprepared.data
      · rw [hlogs]
        exact .absent
      · rw [hlogs]
        exact .empty
      · rw [hlogs]
        rfl
    | buffered _ hlogs | applying _ _ hlogs =>
      refine .blocked (fun husable => husable.noCheckpoint ?_) hrecovers
      simp [hlogs, plainLogs]
    | emptied _ hlogs =>
      refine .blocked (fun husable => husable.header ?_ ?_) hrecovers
      · rw [hlogs]
        rfl
      · rw [hlogs]
        rfl
    | cleared => simp at hclear
    | removed hrest => rcases hrest with rfl | rfl <;> simp at hclear

end Shapes

/-! ## Runs -/

/-- The invariant of careful runs. -/
structure Engine.Sane (db : Database σ Op Page) (ident : WalIdentity) (s : Engine σ Op Page) :
    Prop where
  idle : s.pending = none → Residue db ident s
  busy : ∀ p, s.pending = some p → Progress db ident s p.rest

/-- A checkpoint in progress only has shadow pages of its own. -/
def Engine.OwnPages (s : Engine σ Op Page) : Prop :=
  ∀ p, s.pending = some p → (∀ i ∈ s.pages.records, i ∈ p.own) ∧
    ∀ i q, .page (.shadowWrite i q) ∈ p.rest → i ∈ p.own

section Runs

variable {db : Database σ Op Page} {ident : WalIdentity} {s s' : Engine σ Op Page}
  {call : EngineCall Op Page}

theorem Engine.Sane.step (h : s.Sane db ident) (hcall : s.Careful db ident call)
    (hs : s.step db ident call = some s') : s'.Sane db ident := by
  cases call with
  | commit =>
    obtain ⟨hgate, rfl⟩ := step_commit hs
    obtain ⟨hlogs, hreset, htxn⟩ := hcall
    refine ⟨fun hidle => (h.idle hidle).commit hlogs htxn, fun p hp => ?_⟩
    exact (h.busy p hp).commit (hgate p hp) (hreset p hp) htxn
  | checkpoint =>
    obtain ⟨hidle, rfl⟩ := step_checkpoint hs
    obtain ⟨hplan, hlogs, hfrozen, hrecords, hempty⟩ := hcall
    refine ⟨nofun, fun p hp => ?_⟩
    cases hp
    exact ((h.idle hidle).checkpoint hplan hlogs hfrozen hrecords hempty).setPending _
  | next =>
    obtain ⟨_, _, _, rest, hpending, rfl⟩ := step_next hs
    have hprogress := (h.busy _ hpending).perform
    cases rest with
    | nil => exact ⟨fun _ => hprogress.finish.setPending none, nofun⟩
    | cons =>
      refine ⟨nofun, fun p hp => ?_⟩
      cases hp
      exact hprogress.setPending _
  | throw_ =>
    obtain ⟨p, hpending, hthrow, rfl⟩ := step_throw hs
    exact ⟨fun _ => ((h.busy p hpending).throw hthrow).setPending none, nofun⟩

theorem Engine.Sane.recovers (h : s.Sane db ident) : s.Recovers db ident := by
  cases hpending : s.pending with
  | none => exact (h.idle hpending).recovers
  | some p => exact (h.busy p hpending).recovers

theorem Clean.sane (h : Clean db ident s base txns)
    (hreplayed : db.replayed txns base = db.applied txns base) (hidle : s.pending = none) :
    s.Sane db ident := by
  refine ⟨fun _ => .logged base [] txns h.data (h.frozen ▸ .absent) h.active ?_, fun p hp => ?_⟩
  · rw [nil_append, hreplayed]
    exact h.state
  · rw [hidle] at hp
    cases hp

theorem PageStore.mem_records_perform {databaseID : Nat} {op : PageOp Page} {i : Nat}
    (h : i ∈ (pages.perform databaseID op).records) :
    i ∈ pages.records ∨ ∃ q, op = .shadowWrite i q := by
  cases op with
  | shadowWrite j q =>
    rcases (PageStore.mem_shadowWrite_records pages j q i).mp h with h | rfl
    · exact .inl h
    · exact .inr ⟨q, rfl⟩
  | flushSlot | applyPage =>
    simp only [PageStore.perform] at h
    split at h <;> exact .inl h
  | clear => cases h
  | writePage | flushHeader | flushRecords | reset => exact .inl h

theorem Engine.OwnPages.step (h : s.OwnPages) (hcall : s.Careful db ident call)
    (hs : s.step db ident call = some s') : s'.OwnPages := by
  cases call with
  | commit =>
    obtain ⟨-, rfl⟩ := step_commit hs
    exact h
  | checkpoint plan =>
    obtain ⟨-, rfl⟩ := step_checkpoint hs
    obtain ⟨-, -, -, hrecords, -⟩ := hcall
    intro p hp
    cases hp
    refine ⟨by simp [hrecords], fun i q hmem => ?_⟩
    have hstorage : .shadowWrite i q ∈ plan.storage := by
      simpa [Plan.prepare, Plan.flushAll] using page_mem_script hmem
    exact mem_map.mpr ⟨(i, q), mem_filterMap.mpr ⟨_, hstorage, rfl⟩, rfl⟩
  | next =>
    obtain ⟨_, _, op, _, hpending, rfl⟩ := step_next hs
    obtain ⟨hrecords, hrest⟩ := h _ hpending
    intro p hp
    split at hp
    · cases hp
    cases hp
    refine ⟨fun i hi => ?_, fun i q hmem => hrest i q (mem_cons_of_mem _ hmem)⟩
    cases op with
    | log => exact hrecords i hi
    | page =>
      rcases PageStore.mem_records_perform hi with hi | ⟨q, rfl⟩
      · exact hrecords i hi
      · exact hrest i q mem_cons_self
  | throw_ =>
    obtain ⟨_, -, -, rfl⟩ := step_throw hs
    intro _ hp
    cases hp

/-- In every careful run, whatever checkpoints failed and
wherever they did, opening the database after a crash gives the state of all committed
transactions, each applied once, and a running checkpoint has no shadow page of an
earlier one to apply. -/
theorem recover_of_careful {start : Engine σ Op Page} {base : σ} {txns : List (List Op)}
    (hstart : Clean db ident start base txns)
    (hreplayed : db.replayed txns base = db.applied txns base) (hidle : start.pending = none)
    (hrun : Reachable (Engine.step db ident) start (Engine.Careful db ident) s) :
    (s.CrashOk → ∀ throwOnFailure, recover db (ident.reopen throwOnFailure) s.disk = .ok s.state) ∧
      ∀ p, s.pending = some p → ∀ i ∈ s.pages.records, i ∈ p.own := by
  have hsane : s.Sane db ident :=
    hrun.invariant _ (hstart.sane hreplayed hidle) fun _ _ _ h hcall hs => h.step hcall hs
  have hown : s.OwnPages := by
    refine hrun.invariant _ ?_ fun _ _ _ h hcall hs => h.step hcall hs
    intro p hp
    rw [hidle] at hp
    cases hp
  exact ⟨hsane.recovers, fun p hp => (hown p hp).1⟩

end Runs

namespace Tally

/-- After the insert, a checkpoint rotates the WAL and fails. -/
def failed : Engine (List Nat) Operation TallyPage :=
  { inserted with
    logs := { wal := none, frozen := inserted.logs.wal, writerOpen := false, buffer := [] } }

theorem failed_reachable {ok : Engine (List Nat) Operation TallyPage →
      EngineCall Operation TallyPage → Prop}
    (hcommit : ok created (.commit [.insert 7]))
    (hcheckpoint : ok inserted (.checkpoint (planFor 1 [7])))
    (hok : ∀ s, ok s .next ∧ ok s .throw_) :
    Reachable (Engine.step database identity) created ok failed := by
  have hinserted : Reachable (Engine.step database identity) created ok inserted :=
    .step _ .init hcommit rfl
  refine .serve [.next, .next, .throw_] (.step _ hinserted hcheckpoint rfl) ?_ rfl
  simp [hok]

/-- Another row is inserted after the failure. -/
def insertedAfter : Engine (List Nat) Operation TallyPage :=
  failed.commitAll database identity [[.insert 8]]

/-- A failed checkpoint does no harm as long as no other one starts. -/
theorem recover_of_careful_sample :
    recover database (identity.reopen true) insertedAfter.disk = .ok [7, 8] := by
  have hcreated : Engine.Careful database identity created (.commit [.insert 7]) :=
    ⟨⟨by decide, by decide⟩, nofun, rfl⟩
  have hinserted : Engine.Careful database identity inserted (.checkpoint (planFor 1 [7])) :=
    ⟨inserted_serializes, ⟨by decide, by decide⟩, rfl, rfl, by decide⟩
  have hfailed : Engine.Careful database identity failed (.commit [.insert 8]) :=
    ⟨⟨by decide, by decide⟩, nofun, rfl⟩
  have hrun : Reachable (Engine.step database identity) created
      (Engine.Careful database identity) insertedAfter :=
    .step _ (failed_reachable hcreated hinserted fun _ => ⟨trivial, trivial⟩) hfailed rfl
  have hcrash : insertedAfter.CrashOk := ⟨by decide, by decide⟩
  exact (recover_of_careful created_clean rfl rfl hrun).1 hcrash true

/-- Two ways to lose count of the row 7 by a second checkpoint.  If another row was
inserted, the second checkpoint replaces the frozen WAL, and when it fails as well the
row is gone.  If not, it succeeds without a rotation, the frozen WAL of the first one is
left next to it, and the row is there twice. -/
theorem recover_careless_fails :
    (∃ s, Reachable (Engine.step database identity) created (Engine.Sound database identity) s ∧
      s.pending = none ∧ s.state = [7, 8] ∧
      recover database (identity.reopen true) s.disk = .ok [8]) ∧
    ∃ s, Reachable (Engine.step database identity) created (Engine.Sound database identity) s ∧
      s.pending = none ∧ s.state = [7] ∧
      recover database (identity.reopen true) s.disk = .ok [7, 7] := by
  have hfailed : Reachable (Engine.step database identity) created
      (Engine.Sound database identity) failed :=
    failed_reachable trivial inserted_serializes fun _ => ⟨trivial, trivial⟩
  constructor
  · have hinserted : Reachable (Engine.step database identity) created
        (Engine.Sound database identity) insertedAfter :=
      .step (.commit [.insert 8]) hfailed trivial rfl
    have hplan : Engine.Sound database identity insertedAfter (.checkpoint (planFor 1 [7, 8])) :=
      planFor_serializes none [7, 8] rfl rfl (by decide) (by decide)
    refine ⟨_, .serve [.next, .next, .throw_] (.step _ hinserted hplan rfl) ?_ rfl, rfl, rfl, ?_⟩
    · simp [Engine.Sound]
    · decide +kernel
  · have hplan : Engine.Sound database identity failed (.checkpoint (planFor 1 [7])) :=
      planFor_serializes none [7] rfl rfl (by decide) (by decide)
    refine ⟨_, .serve (replicate 13 .next) (.step _ hfailed hplan rfl) ?_ rfl, rfl, rfl, ?_⟩
    · simp [Engine.Sound]
    · decide +kernel

end Tally

end Lbug.Storage
