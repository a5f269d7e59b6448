/-
  Storage/RecoveryCrashes.lean --- crashes during recovery.

  A crash during a recovery leaves the files after a prefix of its operations; the next
  recovery starts from there (`Interrupted`, any number of times).  The operations that
  can be cut off are of three kinds: shadow pages that are written again, a shadow file
  or an active WAL that is tidied up, and the removal of the frozen WAL.  Only the last
  one can lose something: a frozen WAL without a checkpoint record is replayed into
  memory and removed, and its transactions are in no file any more (`LosesFrozen`).
-/
import Lbug.Storage.CrashSafety

namespace Lbug.Storage

open Foundation List Bool

variable {σ Op Page : Type} {entries : List (WalEntry Op)} {offset : Nat} {disk' : Disk Op Page}
  {ws : List (Nat × Page)}

/-- The files after further crashes, each in the middle of a recovery or right after
it: `k` operations of the recovery were performed. -/
inductive Interrupted (db : Database σ Op Page) (cfg : ReplayConfig) (disk : Disk Op Page) :
    Disk Op Page → Prop
  | refl : Interrupted db cfg disk disk
  | crash {disk' : Disk Op Page} (k : Nat) : Interrupted db cfg disk disk' →
      Interrupted db cfg disk (disk'.performAll ((recoveryOps db cfg disk').take k))

/-- What the shadow file would write to the header page keeps the database ID. -/
def ShadowKeepsID (db : Database σ Op Page) (disk : Disk Op Page) : Prop :=
  ∀ ws, replayShadowPageRecords db disk = .ok ws → ∀ p, (0, p) ∈ ws →
    db.databaseID p = db.databaseID (disk.data 0)

/-! ## The part of the active WAL -/

/-- The outcome of the active WAL on files without a shadow file. -/
def activeOutcome (db : Database σ Op Page) (cfg : ReplayConfig) (headerPage : Page)
    (wal : Option (List (WalEntry Op))) (s : σ) : Except RecoveryError σ :=
  match wal with
  | none => .ok s
  | some entries =>
    if entries.isEmpty then .ok s
    else
      match dryReplay cfg entries with
      | .error e => .error e
      | .ok (_, true) => .error .shadowFileMissing
      | .ok (offset, false) => replayUpTo db headerPage entries offset s

/-- The active WAL after a part of its recovery: untouched, removed when it was empty, or
truncated to the end of its last commit. -/
inductive Tidied (cfg : ReplayConfig) :
    Option (List (WalEntry Op)) → Option (List (WalEntry Op)) → Prop
  | same (wal : Option (List (WalEntry Op))) : Tidied cfg wal wal
  | removed : Tidied cfg (some []) none
  | truncated {entries : List (WalEntry Op)} {offset : Nat} (hne : entries ≠ [])
      (hdry : dryReplay cfg entries = .ok (offset, false)) :
      Tidied cfg (some entries) (some (entries.take offset))

section Active

variable {db : Database σ Op Page} {cfg : ReplayConfig}

/-- The records up to the last commit that can be read; `none` if there is a checkpoint record,
or bytes that cannot be read and must not be skipped. -/
def committedPart (cfg : ReplayConfig) : List (WalEntry Op) → Option (List (WalEntry Op))
  | [] => some []
  | .record .checkpoint :: _ => none
  | .record .commit :: rest => (committedPart cfg rest).map (.record .commit :: ·)
  | .record r :: rest =>
    (committedPart cfg rest).map fun part => if part.isEmpty then [] else .record r :: part
  | _ => if cfg.throwOnWalReplayFailure then none else some []

/-- The dry replay finds the committed part, also when the file ends there. -/
theorem dryScan_committedPart (cfg : ReplayConfig) (entries : List (WalEntry Op))
    (read offset : Nat) :
    match committedPart cfg entries with
    | some part => part <+: entries ∧ dryScan cfg entries read offset =
          .ok (if part.isEmpty then offset else read + part.length, false) ∧
        ∀ last, dryScan cfg part read last =
          .ok (if part.isEmpty then last else read + part.length, false)
    | none => ∀ last, dryScan cfg entries read offset ≠ .ok (last, false) := by
  induction entries generalizing read offset with
  | nil => exact ⟨prefix_rfl, rfl, fun _ => rfl⟩
  | cons entry rest ih =>
    cases entry with
    | header | torn =>
      simp only [committedPart, dryScan]
      cases cfg.throwOnWalReplayFailure with
      | true => exact fun _ h => by cases h
      | false => exact ⟨ nil_prefix, rfl, fun _ => rfl⟩
    | record r =>
      cases r with
      | checkpoint => exact fun _ h => by cases h
      | commit =>
        have ih := ih (read + 1) (read + 1)
        simp only [committedPart, dryScan]
        cases hpart : committedPart cfg rest with
        | none =>
          rw [hpart] at ih
          exact ih
        | some part =>
          simp only [hpart] at ih
          have hend : (if part.isEmpty then read + 1 else read + 1 + part.length) =
              read + (part.length + 1) := by
            cases part <;> simp
            omega
          rw [hend] at ih
          refine ⟨(prefix_cons_inj _).mpr ih.1, ih.2.1, fun _ => (ih.2.2 (read + 1)).trans ?_⟩
          rw [hend]
          rfl
      | beginTransaction | op =>
        have ih := ih (read + 1) offset
        simp only [committedPart, dryScan]
        cases hpart : committedPart cfg rest with
        | none =>
          rw [hpart] at ih
          exact ih
        | some part =>
          simp only [hpart] at ih
          cases part with
          | nil => exact ⟨ nil_prefix, ih.2.1, fun _ => rfl⟩
          | cons _ part =>
            have hend : read + 1 + (part.length + 1) = read + (part.length + 1 + 1) := by omega
            simp only [isEmpty_cons, false_eq_true, if_false, length_cons, hend] at ih
            exact ⟨(prefix_cons_inj _).mpr ih.1, ih.2⟩

/-- Truncating a WAL to the end of its last commit does not change its dry replay. -/
theorem dryReplay_take (h : dryReplay cfg entries = .ok (offset, false)) :
    offset = 0 ∨ dryReplay cfg (entries.take offset) = .ok (offset, false) := by
  unfold dryReplay at h
  split at h
  · rename_i enableChecksums rest
    split at h
    · rename_i hchecksums
      have hscan := dryScan_committedPart cfg rest 1 0
      cases hpart : committedPart cfg rest with
      | none =>
        rw [hpart] at hscan
        exact absurd h (hscan offset)
      | some part =>
        simp only [hpart] at hscan
        obtain ⟨⟨tail, rfl⟩, hwhole, htaken⟩ := hscan
        cases hwhole.symm.trans h
        cases part with
        | nil => exact .inl rfl
        | cons _ part =>
          right
          simpa [Nat.add_comm 1, dryReplay, hchecksums] using htaken 0
    · split at h <;> cases h
      exact .inl rfl
  · split at h <;> cases h
    exact .inl rfl

/-- Tidying up the active WAL does not change its outcome. -/
theorem Tidied.activeOutcome {wal wal' : Option (List (WalEntry Op))} (h : Tidied cfg wal wal')
    (headerPage : Page) (s : σ) :
    activeOutcome db cfg headerPage wal' s = activeOutcome db cfg headerPage wal s := by
  cases h with
  | same => rfl
  | removed => rfl
  | @truncated entries offset hne hdry =>
    have hfull : Lbug.Storage.activeOutcome db cfg headerPage (some entries) s =
        replayUpTo db headerPage entries offset s := by
      simp only [Lbug.Storage.activeOutcome, isEmpty_eq_false_iff.mpr hne,
        false_eq_true, if_false, hdry]
    rw [hfull]
    rcases dryReplay_take hdry with rfl | htake
    · rfl
    cases htaken : entries.take offset with
    | nil => simp only [replayUpTo, htaken, Lbug.Storage.activeOutcome, isEmpty_nil, if_true]
    | cons e rest =>
      have hagain : (e :: rest).take offset = e :: rest := by
        rw [← htaken, take_take, Nat.min_self]
      rw [htaken] at htake
      simp only [Lbug.Storage.activeOutcome, isEmpty_cons, false_eq_true, if_false,
        htake, replayUpTo, hagain, htaken]

/-- On files without a shadow file, a part of the recovery of the active WAL only tidies
it up. -/
theorem replayActiveWAL_take (db : Database σ Op Page) (cfg : ReplayConfig) (disk : Disk Op Page)
    (hshadow : disk.shadow = none) (hwal : disk.wal = some entries) (s : σ) (k : Nat) :
    (replayActiveWAL db cfg disk entries s).2 = activeOutcome db cfg (disk.data 0) disk.wal s ∧
      ∃ wal', Tidied cfg disk.wal wal' ∧
        disk.performAll ((replayActiveWAL db cfg disk entries s).1.take k) =
          { disk with wal := wal' } := by
  have hsingle : ∀ op : FileOp Page, ∀ wal', disk.perform op = { disk with wal := wal' } →
      Tidied cfg (some entries) wal' → ∃ wal', Tidied cfg disk.wal wal' ∧
        disk.performAll ([op].take k) = { disk with wal := wal' } := by
    intro op wal' hperform htidied
    cases k with
    | zero => exact ⟨disk.wal, .same _, rfl⟩
    | succ =>
      refine ⟨wal', hwal ▸ htidied, ?_⟩
      rw [take_succ_cons, take_nil]
      exact hperform
  have hnothing : ∃ wal', Tidied cfg disk.wal wal' ∧
      disk.performAll (([] : List (FileOp Page)).take k) = { disk with wal := wal' } :=
    ⟨disk.wal, .same _, by rw [take_nil]; rfl⟩
  simp only [replayActiveWAL, activeOutcome, hwal] at hsingle hnothing ⊢
  cases hempty : entries.isEmpty with
  | true =>
    rw [List.isEmpty_iff] at hempty
    subst hempty
    exact ⟨rfl, hsingle .removeWal none rfl .removed⟩
  | false =>
    have hne : entries ≠ [] := isEmpty_eq_false_iff.mp hempty
    simp only [false_eq_true, if_false]
    cases hdry : dryReplay cfg entries with
    | error => exact ⟨rfl, hnothing⟩
    | ok result =>
      obtain ⟨offset, isLastRecordCheckpoint⟩ := result
      cases isLastRecordCheckpoint with
      | true =>
        have hmissing : replayShadowPageRecords db disk = .error .shadowFileMissing := by
          rw [replayShadowPageRecords, hshadow]
        simp only [hmissing]
        exact ⟨trivial, hnothing⟩
      | false =>
        simp only
        cases hreplay : replayUpTo db (disk.data 0) entries offset s with
        | error => exact ⟨rfl, hnothing⟩
        | ok =>
          refine ⟨rfl, hsingle (.truncateWal offset) (some (entries.take offset)) ?_
            (.truncated hne hdry)⟩
          simp [Disk.perform, hwal]

end Active

/-! ## A whole recovery -/

section Replay

variable {db : Database σ Op Page} {cfg : ReplayConfig} {disk : Disk Op Page}
  {ops : List (FileOp Page)}

/-- Opening a database whose part before the active WAL succeeds. -/
theorem recover_eq_activeOutcome {s : σ} (h : replayBase db cfg disk = (ops, .ok s)) :
    recover db cfg disk = activeOutcome db cfg ((disk.performAll ops).data 0) disk.wal s := by
  obtain ⟨_, hdisk⟩ := replayBase_ok h
  rw [recover, replay, h]
  cases hwal : disk.wal with
  | none => rfl
  | some =>
    have hsame : (disk.performAll ops).wal = disk.wal := by rw [hdisk]
    have hactive := (replayActiveWAL_take db cfg (disk.performAll ops) (by rw [hdisk])
      (hsame.trans hwal) s 0).1
    rw [hsame, hwal] at hactive
    exact hactive

/-- The files after a part of a recovery: a part of what precedes the active WAL was
performed, or all of it and the active WAL may be tidied up. -/
theorem performAll_take {result : Except RecoveryError σ}
    (h : replayBase db cfg disk = (ops, result)) (k : Nat) :
    disk.performAll ((recoveryOps db cfg disk).take k) = disk.performAll (ops.take k) ∨
      (∃ s, result = .ok s) ∧ ∃ wal', Tidied cfg disk.wal wal' ∧
        disk.performAll ((recoveryOps db cfg disk).take k) =
          { disk.performAll ops with wal := wal' } := by
  rw [recoveryOps, replay, h]
  cases result with
  | error => exact .inl rfl
  | ok s =>
    obtain ⟨_, hdisk⟩ := replayBase_ok h
    cases hwal : disk.wal with
    | none => exact .inl rfl
    | some =>
      simp only [take_append]
      rcases Nat.le_total k ops.length with hk | hk
      · left
        rw [Nat.sub_eq_zero_of_le hk, take_zero, append_nil]
      right
      have hsame : (disk.performAll ops).wal = disk.wal := by rw [hdisk]
      obtain ⟨-, wal', htidied, hperform⟩ := replayActiveWAL_take db cfg (disk.performAll ops)
        (by rw [hdisk]) (hsame.trans hwal) s (k - ops.length)
      refine ⟨⟨s, rfl⟩, wal', ?_, ?_⟩
      · rw [hsame, hwal] at htidied
        exact htidied
      · rw [take_of_length_le hk, performAll_append]
        exact hperform

/-- Reading the checkpoint of a data file and replaying an active WAL. -/
def readAndReplay (db : Database σ Op Page) (cfg : ReplayConfig) (data : Nat → Page)
    (wal : Option (List (WalEntry Op))) : Except RecoveryError σ :=
  (readCheckpoint db data).bind (activeOutcome db cfg (data 0) wal)

/-- When the part before the active WAL only reads a data file, so does the recovery. -/
theorem recover_eq_readAndReplay {data : Nat → Page}
    (h : replayBase db cfg disk = (ops, readCheckpoint db data))
    (hdata : (disk.performAll ops).data = data) :
    recover db cfg disk = readAndReplay db cfg data disk.wal := by
  unfold readAndReplay
  cases hread : readCheckpoint db data with
  | error =>
    rw [hread] at h
    exact recover_error_of_base h
  | ok =>
    rw [hread] at h
    rw [recover_eq_activeOutcome h, hdata]
    rfl

theorem recover_of_noFrozen (h : disk.frozen = none) :
    recover db cfg disk = readAndReplay db cfg disk.data disk.wal := by
  have hbase : replayBase db cfg disk = ([.removeShadow], readCheckpoint db disk.data) := by
    rw [replayBase, h]
  exact recover_eq_readAndReplay hbase rfl

/-- Files without a frozen WAL whose active WAL was tidied up open as before. -/
theorem recover_of_done (hfrozen : disk'.frozen = none) (htidied : Tidied cfg disk.wal disk'.wal) :
    recover db cfg disk' = readAndReplay db cfg disk'.data disk.wal := by
  rw [recover_of_noFrozen hfrozen]
  unfold readAndReplay
  congr 1
  funext s
  exact htidied.activeOutcome (disk'.data 0) s

end Replay

/-! ## The operations in a log -/

/-- The operations that the records commit, after those of a transaction that has begun;
`none` if a transaction begins inside another one or an operation is outside of one. -/
def recordOps : Option (List Op) → List (WalEntry Op) → Option (List Op)
  | _, [] => some []
  | none, .record .beginTransaction :: rest => recordOps (some []) rest
  | some ops, .record (.op o) :: rest => recordOps (some (ops ++ [o])) rest
  | begun, .record .commit :: rest => (recordOps none rest).map (begun.getD [] ++ ·)
  | _, _ => none

/-- The operations of the transactions that a log without a checkpoint record commits; `none`
if it has a checkpoint record, is not of the database, or its records make no transactions. -/
def logOps (cfg : ReplayConfig) (databaseID : Option Nat) : List (WalEntry Op) → Option (List Op)
  | .header id enableChecksums :: rest =>
    if enableChecksums = cfg.enableChecksums then
      match committedPart cfg rest with
      | some [] => some []
      | some part => if databaseID = some id then recordOps none part else none
      | none => none
    else if cfg.throwOnWalReplayFailure then none else some []
  | _ => if cfg.throwOnWalReplayFailure then none else some []

section Ops

theorem logOps_eq (cfg : ReplayConfig) (databaseID : Option Nat) (entries : List (WalEntry Op)) :
    logOps cfg databaseID entries =
      match dryReplay cfg entries with
      | .ok (offset, false) =>
        match entries.take offset with
        | [] => some []
        | .header id _ :: rest => if databaseID = some id then recordOps none rest else none
        | _ => none
      | _ => none := by
  cases entries with
  | nil => cases hthrow : cfg.throwOnWalReplayFailure <;> simp [logOps, dryReplay, hthrow]
  | cons entry rest =>
    cases entry with
    | record | torn =>
      cases hthrow : cfg.throwOnWalReplayFailure <;> simp [logOps, dryReplay, hthrow]
    | header id enableChecksums =>
      simp only [logOps, dryReplay]
      by_cases hchecksums : enableChecksums = cfg.enableChecksums
      · simp only [if_pos hchecksums]
        have hscan := dryScan_committedPart cfg rest 1 0
        cases hpart : committedPart cfg rest with
        | none =>
          rw [hpart] at hscan
          cases hdry : dryScan cfg rest 1 0 with
          | error => rfl
          | ok result =>
            obtain ⟨last, _ | _⟩ := result
            · exact absurd hdry (hscan last)
            · rfl
        | some part =>
          simp only [hpart] at hscan
          obtain ⟨⟨tail, rfl⟩, hdry, -⟩ := hscan
          rw [hdry]
          cases part with
          | nil => rfl
          | cons => simp [Nat.add_comm 1]
      · simp only [if_neg hchecksums]
        cases cfg.throwOnWalReplayFailure <;> rfl

theorem dryReplay_of_logOps {cfg : ReplayConfig} {databaseID : Option Nat} {o : Op} {ops : List Op}
    (h : logOps cfg databaseID entries = some (o :: ops)) :
    ∃ offset, dryReplay cfg entries = .ok (offset, false) ∧ entries ≠ [] := by
  rw [logOps_eq] at h
  split at h
  · rename_i offset hdry
    refine ⟨offset, hdry, ?_⟩
    rintro rfl
    rw [take_nil] at h
    cases h
  · cases h

variable {db : Database σ Op Page} {cfg : ReplayConfig} {headerPage : Page}

theorem applyAll_append (ops ops' : List Op) (s : σ) :
    db.applyAll (ops ++ ops') s = db.applyAll ops' (db.applyAll ops s) :=
  foldl_append

/-- Either the replay commits the operations of the records, or it throws the same error
from every state. -/
theorem replayEntries_recordOps (begun : Option (List Op)) (entries : List (WalEntry Op)) :
    (∃ ops, recordOps begun entries = some ops ∧
      ∀ s, (replayEntries db entries ⟨s, begun.map (db.applyAll · s)⟩).map ReplayState.committed =
        .ok (db.applyAll ops s)) ∨
    recordOps begun entries = none ∧ ∃ e, ∀ s,
      (replayEntries db entries ⟨s, begun.map (db.applyAll · s)⟩).map ReplayState.committed =
        .error e := by
  induction entries generalizing begun with
  | nil => exact .inl ⟨[], by rw [recordOps], fun s => rfl⟩
  | cons entry rest ih =>
    cases entry with
    | header | torn =>
      exact .inr ⟨by cases begun <;> rfl, .walCorrupted, fun s => by cases begun <;> rfl⟩
    | record r =>
      cases r with
      | checkpoint =>
        exact .inr ⟨by cases begun <;> rfl, .walCorrupted, fun s => by cases begun <;> rfl⟩
      | beginTransaction =>
        cases begun with
        | none => exact ih (some [])
        | some => exact .inr ⟨rfl, .transactionExpected, fun s => rfl⟩
      | op o =>
        cases begun with
        | none => exact .inr ⟨rfl, .transactionExpected, fun s => rfl⟩
        | some ops =>
          have hop : ∀ s, replayEntries db (.record (.op o) :: rest)
              ⟨s, some (db.applyAll ops s)⟩ =
                replayEntries db rest ⟨s, some (db.applyAll (ops ++ [o]) s)⟩ := by
            intro s
            rw [applyAll_append]
            rfl
          simp only [Option.map_some, hop]
          exact ih (some (ops ++ [o]))
      | commit =>
        have hcommit : ∀ s, replayEntries db (.record .commit :: rest)
            ⟨s, begun.map (db.applyAll · s)⟩ =
              replayEntries db rest ⟨db.applyAll (begun.getD []) s, none⟩ := by
          intro s
          cases begun <;> rfl
        have hops : recordOps begun (.record .commit :: rest) =
            (recordOps none rest).map (begun.getD [] ++ ·) := by cases begun <;> rfl
        simp only [hcommit, hops]
        rcases ih none with ⟨ops', hrest, hreplay⟩ | ⟨hnone, e, hreplay⟩
        · refine .inl ⟨begun.getD [] ++ ops', by rw [hrest, Option.map_some], fun s => ?_⟩
          rw [applyAll_append]
          exact hreplay _
        · exact .inr ⟨by rw [hnone, Option.map_none], e, fun s => hreplay _⟩

/-- The second pass over a log without a checkpoint record. -/
theorem replayUpTo_logOps (db : Database σ Op Page) (headerPage : Page)
    (hdry : dryReplay cfg entries = .ok (offset, false)) :
    (∃ ops, logOps cfg (db.databaseID headerPage) entries = some ops ∧
      ∀ s, replayUpTo db headerPage entries offset s = .ok (db.applyAll ops s)) ∨
    logOps cfg (db.databaseID headerPage) entries = none ∧
      ∃ e, ∀ s, replayUpTo db headerPage entries offset s = .error e := by
  simp only [logOps_eq, hdry, replayUpTo]
  cases htake : entries.take offset with
  | nil => exact .inl ⟨[], rfl, fun s => rfl⟩
  | cons entry rest =>
    cases entry with
    | record | torn => exact .inr ⟨rfl, .walCorrupted, fun s => rfl⟩
    | header id checksums =>
      by_cases hid : db.databaseID headerPage = some id
      · simp only [if_pos hid]
        exact replayEntries_recordOps none rest
      · exact .inr ⟨if_neg hid, .databaseIDMismatch, fun s => if_neg hid⟩

/-- The active WAL commits its operations if it has any, or keeps every state from being
opened. -/
theorem activeOutcome_logOps (db : Database σ Op Page) (cfg : ReplayConfig) (headerPage : Page)
    (wal : Option (List (WalEntry Op))) :
    (∀ entries ∈ wal, entries ≠ [] → (logOps cfg (db.databaseID headerPage) entries).isSome) ∧
      (∃ ops, ∀ s, activeOutcome db cfg headerPage wal s = .ok (db.applyAll ops s)) ∨
    (∃ entries ∈ wal, entries ≠ [] ∧ logOps cfg (db.databaseID headerPage) entries = none) ∧
      ∃ e, ∀ s, activeOutcome db cfg headerPage wal s = .error e := by
  cases wal with
  | none => exact .inl ⟨fun _ h => (by cases h), [], fun s => rfl⟩
  | some entries =>
    by_cases hne : entries = []
    · subst hne
      exact .inl ⟨fun _ h hne => absurd (Option.some.inj h).symm hne, [], fun s => rfl⟩
    simp only [activeOutcome, isEmpty_eq_false_iff.mpr hne, false_eq_true, if_false]
    cases hdry : dryReplay cfg entries with
    | error e => exact .inr ⟨⟨entries, rfl, hne, by rw [logOps_eq, hdry]⟩, e, fun s => rfl⟩
    | ok result =>
      obtain ⟨offset, isLastRecordCheckpoint⟩ := result
      cases isLastRecordCheckpoint with
      | true =>
        exact .inr ⟨⟨entries, rfl, hne, by rw [logOps_eq, hdry]⟩, .shadowFileMissing, fun s => rfl⟩
      | false =>
        rcases replayUpTo_logOps db headerPage hdry with
          ⟨ops, hops, hreplay⟩ | ⟨hnone, herror⟩
        · refine .inl ⟨fun _ h _ => ?_, ops, hreplay⟩
          rw [← Option.some.inj h, hops]
          rfl
        · exact .inr ⟨⟨entries, rfl, hne, hnone⟩, herror⟩

end Ops

/-! ## What happens to the frozen WAL -/

section

variable (db : Database σ Op Page) (cfg : ReplayConfig) (disk : Disk Op Page)

/-- The frozen WAL commits an operation and has no checkpoint record, and neither the data
file nor the active WAL keeps the database from opening. -/
structure LosesFrozen : Prop where
  data : (db.readCheckpoint disk.data).isSome
  frozen : ∃ entries ∈ disk.frozen, ∃ o ops,
    logOps cfg (db.databaseID (disk.data 0)) entries = some (o :: ops)
  wal : ∀ entries ∈ disk.wal, entries ≠ [] →
    (logOps cfg (db.databaseID (disk.data 0)) entries).isSome

/-- The branches of the recovery before the active WAL. -/
inductive BaseCase : List (FileOp Page) → Except RecoveryError σ → Prop
  | noFrozen (hfrozen : disk.frozen = none) :
      BaseCase [.removeShadow] (readCheckpoint db disk.data)
  | emptyFrozen (hfrozen : disk.frozen = some []) :
      BaseCase [.removeFrozen, .removeShadow] (readCheckpoint db disk.data)
  /-- The frozen WAL or the shadow file cannot be read. -/
  | unreadable {entries : List (WalEntry Op)} {e : RecoveryError}
      (hfrozen : disk.frozen = some entries)
      (hdry : ∀ offset, dryReplay cfg entries ≠ .ok (offset, false)) :
      BaseCase [] (.error e)
  /-- A checkpoint record: the shadow pages are written. -/
  | applied {entries : List (WalEntry Op)} {offset : Nat} {ws : List (Nat × Page)}
      (hfrozen : disk.frozen = some entries) (hne : entries ≠ [])
      (hdry : dryReplay cfg entries = .ok (offset, true))
      (hshadow : replayShadowPageRecords db disk = .ok ws) :
      BaseCase (dataWrites ws ++ [.removeFrozen, .removeShadow])
        (readCheckpoint db (writeAll ws disk.data))
  /-- No checkpoint record, and the data file or the records cannot be read. -/
  | failed {entries : List (WalEntry Op)} {offset : Nat} {e : RecoveryError}
      (hfrozen : disk.frozen = some entries) (hne : entries ≠ [])
      (hdry : dryReplay cfg entries = .ok (offset, false)) :
      BaseCase [.removeShadow] (.error e)
  | replayed {entries : List (WalEntry Op)} {offset : Nat} {s s' : σ}
      (hfrozen : disk.frozen = some entries) (hne : entries ≠ [])
      (hdry : dryReplay cfg entries = .ok (offset, false))
      (hread : readCheckpoint db disk.data = .ok s)
      (hreplay : replayUpTo db (disk.data 0) entries offset s = .ok s') :
      BaseCase [.removeShadow, .removeFrozen] (.ok s')

theorem replayBase_cases :
    BaseCase db cfg disk (replayBase db cfg disk).1 (replayBase db cfg disk).2 := by
  unfold replayBase
  cases hfrozen : disk.frozen with
  | none => exact .noFrozen hfrozen
  | some entries =>
    simp only [replayFrozenWAL]
    cases hempty : entries.isEmpty with
    | true =>
      rw [List.isEmpty_iff] at hempty
      subst hempty
      exact .emptyFrozen hfrozen
    | false =>
      have hne : entries ≠ [] := isEmpty_eq_false_iff.mp hempty
      simp only [false_eq_true]
      cases hdry : dryReplay cfg entries with
      | error => exact .unreadable hfrozen fun offset hok => by cases hdry.symm.trans hok
      | ok result =>
        obtain ⟨offset, isLastRecordCheckpoint⟩ := result
        cases isLastRecordCheckpoint with
        | true =>
          simp only
          cases hshadow : replayShadowPageRecords db disk with
          | error => exact .unreadable hfrozen fun offset hok => by cases hdry.symm.trans hok
          | ok => exact .applied hfrozen hne hdry hshadow
        | false =>
          simp only
          cases hread : readCheckpoint db disk.data with
          | error => exact .failed hfrozen hne hdry
          | ok s =>
            simp only
            cases hreplay : replayUpTo db (disk.data 0) entries offset s with
            | error => exact .failed hfrozen hne hdry
            | ok => exact .replayed hfrozen hne hdry hread hreplay

end

section Cases

variable {db : Database σ Op Page} {cfg : ReplayConfig} {disk : Disk Op Page}

/-- Without a checkpoint record in the frozen WAL the shadow file does not matter. -/
theorem recover_of_noCheckpoint (hfrozen : disk.frozen = some entries) (hne : entries ≠ [])
    (hdry : dryReplay cfg entries = .ok (offset, false)) :
    recover db cfg { disk with shadow := none } = recover db cfg disk := by
  have hempty := isEmpty_eq_false_iff.mpr hne
  have hbase : replayBase db cfg { disk with shadow := none } = replayBase db cfg disk := by
    simp only [replayBase, hfrozen, replayFrozenWAL, hdry]
  have hops : ∀ s, (replayBase db cfg disk).2 = .ok s →
      (replayBase db cfg disk).1 = [.removeShadow, .removeFrozen] := by
    intro s
    simp only [replayBase, hfrozen, replayFrozenWAL, hempty, false_eq_true, if_false, hdry]
    split
    · intro heq
      cases heq
    · split
      · intro heq
        cases heq
      · exact fun _ => rfl
  cases h : replayBase db cfg disk with
  | mk ops result =>
    cases result with
    | error => rw [recover_error_of_base h, recover_error_of_base (hbase.trans h)]
    | ok s =>
      rw [h] at hops
      have hops : ops = [.removeShadow, .removeFrozen] := hops s rfl
      subst hops
      rw [recover_eq_activeOutcome h, recover_eq_activeOutcome (hbase.trans h)]
      rfl

theorem shadowKeepsID_of_none (h : disk.shadow = none) : ShadowKeepsID db disk := by
  intro ws hws
  rw [replayShadowPageRecords, h] at hws
  cases hws

/-- The shadow file is read with the database ID of the data file only. -/
theorem replayShadowPageRecords_congr (hshadow : disk'.shadow = disk.shadow)
    (hid : db.databaseID (disk'.data 0) = db.databaseID (disk.data 0)) :
    replayShadowPageRecords db disk' = replayShadowPageRecords db disk := by
  simp only [replayShadowPageRecords, hshadow, hid]

theorem ShadowKeepsID.congr (h : ShadowKeepsID db disk) (hshadow : disk'.shadow = disk.shadow)
    (hid : db.databaseID (disk'.data 0) = db.databaseID (disk.data 0)) :
    ShadowKeepsID db disk' := by
  intro ws hws p hp
  rw [replayShadowPageRecords_congr hshadow hid] at hws
  rw [hid]
  exact h ws hws p hp

/-- Writing some of the shadow pages keeps the database ID of the data file. -/
theorem ShadowKeepsID.databaseID_writeAll {ws' : List (Nat × Page)} (h : ShadowKeepsID db disk)
    (hws : replayShadowPageRecords db disk = .ok ws) (hsub : ∀ w ∈ ws', w ∈ ws) :
    db.databaseID (writeAll ws' disk.data 0) = db.databaseID (disk.data 0) := by
  by_cases hzero : 0 ∈ ws'.map Prod.fst
  · exact h ws hws _ (hsub _ (writeAll_mem hzero disk.data))
  · rw [writeAll_of_notMem hzero]

theorem not_losesFrozen_of_none (h : disk.frozen = none) : ¬ LosesFrozen db cfg disk := by
  rintro ⟨-, ⟨entries, hfrozen, -⟩, -⟩
  cases h.symm.trans hfrozen

theorem not_losesFrozen_of_checkpoint (hfrozen : disk.frozen = some entries)
    (hdry : dryReplay cfg entries = .ok (offset, true)) : ¬ LosesFrozen db cfg disk := by
  rintro ⟨-, ⟨entries', hfrozen', o, ops, hops⟩, -⟩
  cases hfrozen.symm.trans hfrozen'
  rw [logOps_eq, hdry] at hops
  cases hops

end Cases

/-! ## One more crash -/

/-- The files `disk'` open as `disk` does, and are no worse for the crashes to come. -/
structure Unharmed (db : Database σ Op Page) (cfg : ReplayConfig) (disk disk' : Disk Op Page) :
    Prop where
  recover : recover db cfg disk' = recover db cfg disk
  keepsID : ShadowKeepsID db disk'
  notLoses : ¬ LosesFrozen db cfg disk'

section OneCrash

variable {db : Database σ Op Page} {cfg : ReplayConfig} {disk disk' : Disk Op Page}

/-- Once the frozen WAL is gone, with its effect in the data file, nothing more can go
wrong. -/
theorem unharmed_of_done (hrecover : recover db cfg disk = readAndReplay db cfg disk'.data disk.wal)
    (hfrozen : disk'.frozen = none) (htidied : Tidied cfg disk.wal disk'.wal)
    (hkeepsID : ShadowKeepsID db disk') : Unharmed db cfg disk disk' where
  recover := (recover_of_done hfrozen htidied).trans hrecover.symm
  keepsID := hkeepsID
  notLoses := not_losesFrozen_of_none hfrozen

/-- With a checkpoint record and the shadow pages, the pages are written and the
checkpoint is read. -/
theorem recover_of_applied (disk : Disk Op Page) (hfrozen : disk.frozen = some entries)
    (hne : entries ≠ []) (hdry : dryReplay cfg entries = .ok (offset, true))
    (hshadow : replayShadowPageRecords db disk = .ok ws) :
    recover db cfg disk = readAndReplay db cfg (writeAll ws disk.data) disk.wal := by
  have hbase : replayBase db cfg disk = (dataWrites ws ++ [.removeFrozen, .removeShadow],
      readCheckpoint db (writeAll ws disk.data)) := by
    simp only [replayBase, hfrozen, replayFrozenWAL, isEmpty_eq_false_iff.mpr hne,
      false_eq_true, if_false, hdry, hshadow]
  refine recover_eq_readAndReplay hbase ?_
  rw [performAll_append, performAll_dataWrites]
  rfl

section

variable (hid : ShadowKeepsID db disk) (hfrozen : disk.frozen = some entries) (hne : entries ≠ [])
  (hdry : dryReplay cfg entries = .ok (offset, true))
  (hshadow : replayShadowPageRecords db disk = .ok ws)

include hid hfrozen hne hdry hshadow

/-- A crash while the shadow pages are written: they are all written again. -/
theorem unharmed_of_writing (k : Nat) :
    Unharmed db cfg disk { disk with data := writeAll (ws.take k) disk.data } := by
  have hsameID := hid.databaseID_writeAll hshadow fun w hw => mem_of_mem_take (i := k) hw
  have hshadow' : replayShadowPageRecords db
      { disk with data := writeAll (ws.take k) disk.data } = .ok ws := by
    rw [← hshadow]
    exact replayShadowPageRecords_congr rfl hsameID
  refine ⟨?_, hid.congr rfl hsameID, not_losesFrozen_of_checkpoint hfrozen hdry⟩
  have hagain := recover_of_applied { disk with data := writeAll (ws.take k) disk.data } hfrozen
      hne hdry
    hshadow'
  rw [writeAll_take_redo] at hagain
  rw [hagain, recover_of_applied disk hfrozen hne hdry hshadow]

/-- A crash anywhere in a recovery that writes the shadow pages. -/
theorem unharmed_of_applied {k : Nat} (htake : disk' = disk.performAll
        ((dataWrites ws ++ [FileOp.removeFrozen, FileOp.removeShadow]).take k) ∨
      ∃ wal', Tidied cfg disk.wal wal' ∧ disk' =
        { disk.performAll (dataWrites ws ++ [FileOp.removeFrozen, FileOp.removeShadow]) with
          wal := wal' }) :
    Unharmed db cfg disk disk' := by
  have hall : disk.performAll (dataWrites ws ++ [FileOp.removeFrozen, FileOp.removeShadow]) =
      { disk with data := writeAll ws disk.data, frozen := none, shadow := none } := by
    rw [performAll_append, performAll_dataWrites]
    rfl
  have hrecover := recover_of_applied disk hfrozen hne hdry hshadow
  rcases htake with rfl | ⟨_, htidied, rfl⟩
  · rcases Nat.le_total k ws.length with hk | hk
    · have hpart : (dataWrites ws ++ [FileOp.removeFrozen, FileOp.removeShadow]).take k =
          dataWrites (ws.take k) := by
        rw [dataWrites, take_append_of_le_length (by rwa [length_map]), dataWrites, map_take]
      rw [hpart, performAll_dataWrites]
      exact unharmed_of_writing hid hfrozen hne hdry hshadow k
    · obtain ⟨k, rfl⟩ := Nat.exists_eq_add_of_le hk
      have hpart : (dataWrites ws ++ [FileOp.removeFrozen, FileOp.removeShadow]).take
          (ws.length + k) = dataWrites ws ++ [FileOp.removeFrozen, FileOp.removeShadow].take k := by
        rw [take_append, take_of_length_le (by simp [dataWrites]), dataWrites,
          length_map, Nat.add_sub_cancel_left]
      rw [hpart, performAll_append, performAll_dataWrites]
      rcases k with _ | _ | _
      · have hunharmed := unharmed_of_writing hid hfrozen hne hdry hshadow ws.length
        rwa [take_length] at hunharmed
      · refine unharmed_of_done hrecover rfl (.same _) (hid.congr rfl ?_)
        exact hid.databaseID_writeAll hshadow fun _ hw => hw
      · rw [take_succ_cons, take_succ_cons, take_nil]
        exact unharmed_of_done hrecover rfl (.same _) (shadowKeepsID_of_none rfl)
  · rw [hall]
    exact unharmed_of_done hrecover rfl htidied (shadowKeepsID_of_none rfl)

end

theorem readCheckpoint_isSome {data : Nat → Page} {s : σ} (h : readCheckpoint db data = .ok s) :
    (db.readCheckpoint data).isSome := by
  unfold readCheckpoint at h
  split at h
  · rename_i hread
    rw [hread]
    rfl
  · cases h

/-- A frozen WAL that is replayed and not lost leaves the checkpoint as it is, or the active
WAL throws anyway. -/
theorem recover_of_replayed {s s' : σ}
    (hbase : replayBase db cfg disk = ([.removeShadow, .removeFrozen], .ok s'))
    (hfrozen : disk.frozen = some entries) (hdry : dryReplay cfg entries = .ok (offset, false))
    (hread : readCheckpoint db disk.data = .ok s)
    (hreplay : replayUpTo db (disk.data 0) entries offset s = .ok s')
    (hkeep : ¬ LosesFrozen db cfg disk) :
    recover db cfg disk = activeOutcome db cfg (disk.data 0) disk.wal s := by
  have hrecover : recover db cfg disk = activeOutcome db cfg (disk.data 0) disk.wal s' :=
    recover_eq_activeOutcome hbase
  rw [hrecover]
  rcases replayUpTo_logOps db (disk.data 0) hdry with
    ⟨ops, hops, hall⟩ | ⟨-, e, hall⟩
  swap
  · cases (hall s).symm.trans hreplay
  obtain rfl : s' = db.applyAll ops s := Except.ok.inj (hreplay.symm.trans (hall s))
  cases ops with
  | nil => rfl
  | cons o ops =>
    rcases activeOutcome_logOps db cfg (disk.data 0) disk.wal with
      ⟨hwal, -⟩ | ⟨-, e, herror⟩
    · refine absurd ⟨?_, ⟨entries, hfrozen, o, ops, hops⟩, hwal⟩ hkeep
      exact readCheckpoint_isSome hread
    · rw [herror, herror]

/-- A crash after the shadow file is removed, next to a frozen WAL without a checkpoint
record. -/
theorem unharmed_of_noShadow (hfrozen : disk.frozen = some entries) (hne : entries ≠ [])
    (hdry : dryReplay cfg entries = .ok (offset, false)) (hkeep : ¬ LosesFrozen db cfg disk) :
    Unharmed db cfg disk { disk with shadow := none } := by
  exact ⟨recover_of_noCheckpoint hfrozen hne hdry, shadowKeepsID_of_none rfl,
    fun hloses => hkeep { hloses with }⟩

section

variable (hid : ShadowKeepsID db disk) (hkeep : ¬ LosesFrozen db cfg disk)

include hid hkeep

/-- If the frozen WAL is not lost, a crash anywhere in the recovery
leaves files that open in the same state. -/
theorem ShadowKeepsID.unharmed (k : Nat) :
    Unharmed db cfg disk (disk.performAll ((recoveryOps db cfg disk).take k)) := by
  have hcase := replayBase_cases db cfg disk
  generalize hbase : replayBase db cfg disk = base at hcase
  obtain ⟨_, _⟩ := base
  have htake := performAll_take hbase k
  generalize disk.performAll ((recoveryOps db cfg disk).take k) = disk' at htake ⊢
  have hrefl : Unharmed db cfg disk disk := ⟨rfl, hid, hkeep⟩
  cases hcase with
  | noFrozen hfrozen =>
    have hrecover : recover db cfg disk = readAndReplay db cfg disk.data disk.wal :=
      recover_of_noFrozen hfrozen
    rcases htake with rfl | ⟨-, _, htidied, rfl⟩
    · cases k with
      | zero => exact hrefl
      | succ =>
        rw [take_succ_cons, take_nil]
        exact unharmed_of_done hrecover hfrozen (.same _) (shadowKeepsID_of_none rfl)
    · exact unharmed_of_done hrecover hfrozen htidied (shadowKeepsID_of_none rfl)
  | emptyFrozen =>
    have hrecover := recover_eq_readAndReplay hbase rfl
    rcases htake with rfl | ⟨-, _, htidied, rfl⟩
    · rcases k with _ | _ | _
      · exact hrefl
      · exact unharmed_of_done hrecover rfl (.same _) (hid.congr rfl rfl)
      · rw [take_succ_cons, take_succ_cons, take_nil]
        exact unharmed_of_done hrecover rfl (.same _) (shadowKeepsID_of_none rfl)
    · exact unharmed_of_done hrecover rfl htidied (shadowKeepsID_of_none rfl)
  | unreadable =>
    rcases htake with rfl | ⟨⟨_, hs⟩, -⟩
    · rw [take_nil]
      exact hrefl
    · cases hs
  | @applied _ _ _ hfrozen hne hdry hshadow =>
    refine unharmed_of_applied hid hfrozen hne hdry hshadow (k := k) ?_
    rcases htake with hpart | ⟨-, hfull⟩
    · exact .inl hpart
    · exact .inr hfull
  | failed hfrozen hne hdry =>
    rcases htake with rfl | ⟨⟨_, hs⟩, -⟩
    · cases k with
      | zero => exact hrefl
      | succ =>
        rw [take_succ_cons, take_nil]
        exact unharmed_of_noShadow hfrozen hne hdry hkeep
    · cases hs
  | replayed hfrozen hne hdry hread hreplay =>
    -- the removed WAL makes no difference, by assumption
    have hrecover : recover db cfg disk = readAndReplay db cfg disk.data disk.wal := by
      rw [recover_of_replayed hbase hfrozen hdry hread hreplay hkeep, readAndReplay, hread]
      rfl
    rcases htake with rfl | ⟨-, _, htidied, rfl⟩
    · rcases k with _ | _ | _
      · exact hrefl
      · exact unharmed_of_noShadow hfrozen hne hdry hkeep
      · rw [take_succ_cons, take_succ_cons, take_nil]
        exact unharmed_of_done hrecover rfl (.same _) (shadowKeepsID_of_none rfl)
    · exact unharmed_of_done hrecover rfl htidied (shadowKeepsID_of_none rfl)

/-- Any number of crashes leave files that open in the same state. -/
theorem Interrupted.unharmed (h : Interrupted db cfg disk disk') : Unharmed db cfg disk disk' := by
  induction h with
  | refl => exact ⟨rfl, hid, hkeep⟩
  | crash k _ ih =>
    have hstep := ih.keepsID.unharmed ih.notLoses k
    exact ⟨hstep.recover.trans ih.recover, hstep.keepsID, hstep.notLoses⟩

end

/-- A crash right after the removal of a frozen WAL that is lost, where states tell which
operations they come from. -/
theorem LosesFrozen.interrupted (h : LosesFrozen db cfg disk)
    (hrecords : ∀ s, Function.Injective fun ops => db.applyAll ops s) :
    ∃ disk', Interrupted db cfg disk disk' ∧ recover db cfg disk' ≠ recover db cfg disk := by
  obtain ⟨hdata, ⟨entries, hfrozen, o, ops, hops⟩, hwal⟩ := h
  obtain ⟨s, hs⟩ := Option.isSome_iff_exists.mp hdata
  have hread : readCheckpoint db disk.data = .ok s := by rw [readCheckpoint, hs]
  obtain ⟨offset, hdry, hne⟩ := dryReplay_of_logOps hops
  have hreplay : replayUpTo db (disk.data 0) entries offset s = .ok (db.applyAll (o :: ops) s) := by
    rcases replayUpTo_logOps db (disk.data 0) hdry with
      ⟨ops', hops', hall⟩ | ⟨hnone, -⟩
    · cases hops.symm.trans hops'
      exact hall s
    · cases hops.symm.trans hnone
  have hbase : replayBase db cfg disk =
      ([.removeShadow, .removeFrozen], .ok (db.applyAll (o :: ops) s)) := by
    simp only [replayBase, Option.mem_def.mp hfrozen, replayFrozenWAL, isEmpty_eq_false_iff.mpr hne,
      false_eq_true, if_false, hdry, hread, hreplay]
  have hops : (recoveryOps db cfg disk).take 2 = [.removeShadow, .removeFrozen] := by
    rw [recoveryOps, replay, hbase]
    cases disk.wal <;> rfl
  refine ⟨_, .crash 2 .refl, ?_⟩
  rw [hops, recover_eq_activeOutcome hbase, recover_of_noFrozen rfl, readAndReplay]
  change (readCheckpoint db disk.data).bind (activeOutcome db cfg (disk.data 0) disk.wal) ≠
    activeOutcome db cfg (disk.data 0) disk.wal _
  rw [hread]
  -- the first operation of the frozen WAL tells the two states apart
  rcases activeOutcome_logOps db cfg (disk.data 0) disk.wal with
    ⟨-, walOps, hok⟩ | ⟨⟨entries', hmem, hne', hnone⟩, -⟩
  · change activeOutcome db cfg (disk.data 0) disk.wal s ≠ _
    rw [hok, hok, ← applyAll_append]
    intro heq
    have hlen := congrArg length (hrecords s (Except.ok.inj heq))
    simp at hlen
    omega
  · have := hwal entries' hmem hne'
    rw [hnone] at this
    cases this

end OneCrash

end Lbug.Storage
