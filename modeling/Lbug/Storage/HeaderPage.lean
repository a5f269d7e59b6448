/-
  Storage/HeaderPage.lean --- the database ID survives every run.

  Page 0 of the data file holds the database ID, and so does every shadow page of it:
  in memory, in the shadow file of a checkpoint that is running, and in the shadow file
  that a failed checkpoint has left behind (`KeepsID`).  Recovery compares the ID of the
  shadow file with the one of the data file before and after a part of the shadow pages
  is written, so this is what lets it start over.
-/
import Lbug.Storage.RecoveryCrashes

namespace Lbug.Storage

open Foundation List Function Option

variable {σ Op Page : Type} {op : PageOp Page} {slot : Nat}

/-- Every copy of page 0 holds the database ID.  `written` and `beyond` say how the
shadow file on disk relates to the records in memory: the records on disk are the first
ones, and no page lies behind the last slot. -/
structure KeepsID (db : Database σ Op Page) (databaseID : Nat) (s : PageStore Page) : Prop where
  data : db.databaseID (s.data 0) = some databaseID
  frames : ∀ k, s.records[k]? = some 0 → db.databaseID (s.frames (k + 1)) = some databaseID
  slots : ∀ image, s.shadow = some image → ∀ k p, s.records[k]? = some 0 →
    image (k + 1) = .page p → db.databaseID p = some databaseID
  written : ∀ image, s.shadow = some image → ∀ slot originals,
    image slot = .records originals → originals <+: s.records
  beyond : ∀ image, s.shadow = some image → ∀ slot p, image slot = .page p → slot ≤ s.records.length

/-- Operations that write page 0 only with the database ID, and only through the shadow
file. -/
def PageOp.KeepsHeader (db : Database σ Op Page) (databaseID : Nat) : PageOp Page → Prop
  | .shadowWrite i p => i = 0 → db.databaseID p = some databaseID
  | .writePage i _ => i ≠ 0
  | _ => True

section Perform

variable {db : Database σ Op Page} {databaseID : Nat} {s : PageStore Page}

theorem getElem?_concat_cases {records : List Nat} {i j k : Nat}
    (h : (records ++ [i])[k]? = some j) :
    records[k]? = some j ∧ k < records.length ∨ k = records.length ∧ i = j := by
  rcases Nat.lt_or_ge k records.length with hlt | hge
  · rw [getElem?_append_left hlt] at h
    exact .inl ⟨h, hlt⟩
  · rw [getElem?_append_right hge, getElem?_singleton, Option.ite_none_right_eq_some] at h
    exact .inr ⟨by omega, Option.some.inj h.2⟩

variable (h : KeepsID db databaseID s) {p : Page} {i : Nat}

include h

theorem KeepsID.shadowWrite_old (hold : i ∈ s.records)
    (hp : i = 0 → db.databaseID p = some databaseID) :
    KeepsID db databaseID (s.shadowWrite i p) := by
  rw [PageStore.shadowWrite, if_pos hold]
  refine ⟨h.data, fun k hk => ?_, h.slots, h.written, h.beyond⟩
  dsimp only at hk ⊢
  rcases eq_or_ne k (s.records.idxOf i) with rfl | hne
  · -- the slot of page `i` is written, so `i` is page 0
    have hi : s.records[s.records.idxOf i]? = some i := getElem?_idxOf hold
    rw [update_self]
    exact hp (some.inj (hi.symm.trans hk))
  · rw [update_of_ne fun heq => hne (Nat.succ.inj heq)]
    exact h.frames k hk

theorem KeepsID.shadowWrite_new (hnew : i ∉ s.records)
    (hp : i = 0 → db.databaseID p = some databaseID) :
    KeepsID db databaseID (s.shadowWrite i p) := by
  rw [PageStore.shadowWrite, if_neg hnew]
  -- a shadow file that has just been created is empty
  have himage : ∀ slot contents, contents ≠ .hole → (s.shadow.getD fun _ => .hole) slot = contents →
        ∃ image, s.shadow = some image ∧ image slot = contents := by
    intro slot contents hne hcontents
    cases hshadow : s.shadow with
    | none =>
      rw [hshadow] at hcontents
      exact (hne hcontents.symm).elim
    | some image =>
      rw [hshadow] at hcontents
      exact ⟨image, rfl, hcontents⟩
  refine ⟨h.data, fun k hk => ?_, ?_, ?_, ?_⟩
  · dsimp only at hk ⊢
    rcases getElem?_concat_cases hk with ⟨hk, hlt⟩ | ⟨rfl, hi⟩
    · rw [update_of_ne (by omega)]
      exact h.frames k hk
    · rw [update_self]
      exact hp hi
  · intro image hshadow k q hk hq
    cases hshadow
    obtain ⟨image, hshadow, hq⟩ := himage _ _ (by simp) hq
    rcases getElem?_concat_cases hk with ⟨hk, -⟩ | ⟨rfl, -⟩
    · exact h.slots image hshadow k q hk hq
    · -- the new slot lies behind all pages of the file
      have := h.beyond image hshadow _ q hq
      omega
  · intro image hshadow slot originals horiginals
    cases hshadow
    obtain ⟨image, hshadow, horiginals⟩ := himage _ _ (by simp) horiginals
    exact (h.written image hshadow slot originals horiginals).trans (prefix_append _ _)
  · intro image hshadow slot q hq
    cases hshadow
    obtain ⟨image, hshadow, hq⟩ := himage _ _ (by simp) hq
    have := h.beyond image hshadow slot q hq
    rw [length_append]
    omega

/-- Writing one slot of the shadow file. -/
theorem KeepsID.writeSlot {contents : ShadowSlot Page} (hpage : ∀ p, contents = .page p →
      slot ≤ s.records.length ∧ ∀ k, k + 1 = slot → s.records[k]? = some 0 →
        db.databaseID p = some databaseID)
    (hrecords : ∀ originals, contents = .records originals → originals <+: s.records) :
    KeepsID db databaseID (s.writeSlot slot contents) := by
  have himage : ∀ image', (s.writeSlot slot contents).shadow = some image' →
      ∃ image, s.shadow = some image ∧ image' = update image slot contents := by
    intro image' hshadow
    obtain ⟨image, himage, rfl⟩ := map_eq_some_iff.mp hshadow
    exact ⟨image, himage, rfl⟩
  refine ⟨h.data, h.frames, ?_, ?_, ?_⟩
  · intro image' hshadow k p hk hp
    obtain ⟨image, hold, rfl⟩ := himage image' hshadow
    rcases eq_or_ne (k + 1) slot with heq | hne
    · rw [heq, update_self] at hp
      exact (hpage p hp).2 k heq hk
    · rw [update_of_ne hne] at hp
      exact h.slots image hold k p hk hp
  · intro image' hshadow j originals horiginals
    obtain ⟨image, hold, rfl⟩ := himage image' hshadow
    rcases eq_or_ne j slot with rfl | hne
    · rw [update_self] at horiginals
      exact hrecords originals horiginals
    · rw [update_of_ne hne] at horiginals
      exact h.written image hold j originals horiginals
  · intro image' hshadow j p hp
    obtain ⟨image, hold, rfl⟩ := himage image' hshadow
    rcases eq_or_ne j slot with rfl | hne
    · rw [update_self] at hp
      exact (hpage p hp).1
    · rw [update_of_ne hne] at hp
      exact h.beyond image hold j p hp

theorem KeepsID.applyPage (index : Nat) :
    KeepsID db databaseID (s.perform databaseID (.applyPage index)) := by
  simp only [PageStore.perform]
  split
  · rename_i original p horiginal hslot
    refine ⟨?_, h.frames, h.slots, h.written, h.beyond⟩
    dsimp only
    rcases eq_or_ne original 0 with rfl | hne
    · rw [update_self]
      unfold PageStore.slotPage at hslot
      split at hslot
      · cases hslot
      rename_i image hshadow
      split at hslot
      · rename_i q hq
        cases hslot
        exact h.slots image hshadow index p horiginal hq
      · cases hslot
    · rw [update_of_ne hne.symm]
      exact h.data
  · exact h

/-- Every operation of a checkpoint keeps the database ID. -/
theorem KeepsID.perform (hop : op.KeepsHeader db databaseID) :
    KeepsID db databaseID (s.perform databaseID op) := by
  cases op with
  | shadowWrite i =>
    rcases Decidable.em (i ∈ s.records) with hold | hnew
    · exact h.shadowWrite_old hold hop
    · exact h.shadowWrite_new hnew hop
  | writePage =>
    refine ⟨?_, h.frames, h.slots, h.written, h.beyond⟩
    simp only [PageStore.perform]
    rw [update_of_ne (Ne.symm hop)]
    exact h.data
  | flushSlot =>
    rw [PageStore.perform]
    split_ifs with hslot
    · refine h.writeSlot ?_ (by simp)
      rintro p hp
      cases hp
      refine ⟨hslot.2, fun k hk hrecord => ?_⟩
      rw [← hk]
      exact h.frames k hrecord
    · exact h
  | flushHeader => exact h.writeSlot (by simp) (by simp)
  | flushRecords =>
    refine h.writeSlot (by simp) ?_
    rintro originals horiginals
    cases horiginals
    exact prefix_refl _
  | applyPage index => exact h.applyPage index
  | clear =>
    refine ⟨h.data, by simp [PageStore.perform], by simp [PageStore.perform], ?_, ?_⟩
    · intro image hshadow slot originals horiginals
      obtain ⟨-, -, rfl⟩ := map_eq_some_iff.mp hshadow
      cases horiginals
    · intro image hshadow slot p hp
      obtain ⟨-, -, rfl⟩ := map_eq_some_iff.mp hshadow
      cases hp
  | reset =>
    exact ⟨h.data, h.frames, by simp [PageStore.perform], by simp [PageStore.perform],
      by simp [PageStore.perform]⟩

end Perform

/-! ## Runs -/

/-- The invariant of runs: the database ID is kept, and the checkpoint in progress will
keep it. -/
structure Engine.KeepsID (db : Database σ Op Page) (ident : WalIdentity)
    (s : Engine σ Op Page) : Prop where
  pages : Lbug.Storage.KeepsID db ident.databaseID s.pages
  pending : ∀ p, s.pending = some p → ∀ op, .page op ∈ p.rest → op.KeepsHeader db ident.databaseID

/-- The runs of an open database: checkpoints write the header page through the shadow file
and with the database ID. -/
def Engine.KeepsHeader (db : Database σ Op Page) (ident : WalIdentity) (_ : Engine σ Op Page) :
    EngineCall Op Page → Prop
  | .checkpoint plan => ∀ op ∈ plan.prepare, op.KeepsHeader db ident.databaseID
  | .commit _ | .next | .throw_ => True

section Runs

variable {db : Database σ Op Page} {ident : WalIdentity} {s s' : Engine σ Op Page}
  {ws : List (Nat × Page)}

theorem Engine.KeepsID.perform (h : s.KeepsID db ident) {op : CheckpointOp Page}
    (hop : ∀ o, op = .page o → o.KeepsHeader db ident.databaseID) :
    Lbug.Storage.KeepsID db ident.databaseID (s.perform ident op).pages := by
  cases op with
  | log => exact h.pages
  | page op => exact h.pages.perform (hop op rfl)

theorem Engine.KeepsID.step (h : s.KeepsID db ident) {call : EngineCall Op Page}
    (hcall : s.KeepsHeader db ident call) (hs : s.step db ident call = some s') :
    s'.KeepsID db ident := by
  cases call with
  | commit =>
    obtain ⟨-, rfl⟩ := step_commit hs
    exact ⟨h.pages, h.pending⟩
  | checkpoint =>
    obtain ⟨-, rfl⟩ := step_checkpoint hs
    refine ⟨h.pages, fun p hp op hop => ?_⟩
    cases hp
    rcases page_mem_script hop with hprepare | ⟨_, rfl⟩ | rfl | rfl
    · exact hcall op hprepare
    all_goals trivial
  | next =>
    obtain ⟨_, _, _, _, hpending, rfl⟩ := step_next hs
    have hops := h.pending _ hpending
    refine ⟨h.perform fun o ho => hops o (ho ▸ mem_cons_self), fun p hp o ho => ?_⟩
    refine hops o (mem_cons_of_mem _ ?_)
    split at hp
    · cases hp
    · cases hp
      exact ho
  | throw_ =>
    obtain ⟨_, -, -, rfl⟩ := step_throw hs
    exact ⟨h.pages, fun q hq => by cases hq⟩

/-- A database that has just been opened: no shadow pages and no checkpoint. -/
structure Engine.Opened (db : Database σ Op Page) (ident : WalIdentity)
    (s : Engine σ Op Page) : Prop where
  header : db.databaseID (s.pages.data 0) = some ident.databaseID
  shadow : s.pages.shadow = none
  records : s.pages.records = []
  pending : s.pending = none

theorem Engine.Opened.keepsID (h : s.Opened db ident) : s.KeepsID db ident := by
  refine ⟨⟨h.header, ?_, ?_, ?_, ?_⟩, ?_⟩
  · simp [h.records]
  · simp [h.shadow]
  · simp [h.shadow]
  · simp [h.shadow]
  · simp [h.pending]

theorem Engine.Opened.keepsID_of_reachable {start : Engine σ Op Page}
    (hstart : start.Opened db ident)
    (hrun : Reachable (Engine.step db ident) start (Engine.KeepsHeader db ident) s) :
    s.KeepsID db ident :=
  hrun.invariant _ hstart.keepsID fun _ _ _ h hcall hs => h.step hcall hs

/-! ## The shadow file of a run -/

/-- The writes read from the shadow file are its pages, in the order of the records. -/
theorem mem_shadowWrites {image : Nat → ShadowSlot Page} {originals : List Nat}
    (h : shadowWrites image originals slot = some ws) {i : Nat} {p : Page} (hmem : (i, p) ∈ ws) :
    ∃ k, originals[k]? = some i ∧ image (k + slot) = .page p := by
  induction originals generalizing slot ws with
  | nil =>
    cases h
    cases hmem
  | cons _ _ ih =>
    rw [shadowWrites] at h
    split at h
    · rename_i q hq
      obtain ⟨_, htail, rfl⟩ := map_eq_some_iff.mp h
      rcases mem_cons.mp hmem with heq | hmem
      · cases heq
        exact ⟨0, rfl, (Nat.zero_add slot).symm ▸ hq⟩
      · obtain ⟨k, horiginal, hslot⟩ := ih htail hmem
        refine ⟨k + 1, horiginal, ?_⟩
        rwa [Nat.add_right_comm]
    · cases h

/-- Shadow page records that are read back are in the file. -/
theorem shadowWrites_of_replay {disk : Disk Op Page}
    (h : replayShadowPageRecords db disk = .ok ws) :
    ∃ image slot originals, disk.shadow = some image ∧ image slot = .records originals ∧
      shadowWrites image originals 1 = some ws := by
  unfold replayShadowPageRecords at h
  split at h
  · cases h
  rename_i image hshadow
  split at h
  · cases h
  · split at h
    · split at h
      · rename_i originals horiginals
        refine ⟨image, _, originals, hshadow, horiginals, ?_⟩
        cases hws : shadowWrites image originals 1 with
        | none =>
          rw [hws] at h
          cases h
        | some =>
          rw [hws] at h
          cases h
          rfl
      · cases h
    · cases h
  · cases h

/-- Whatever the logs hold, the shadow file of a run keeps the database ID. -/
theorem Engine.KeepsID.shadowKeepsID (h : s.KeepsID db ident)
    (wal frozen : Option (List (WalEntry Op))) :
    ShadowKeepsID db { s.disk with wal := wal, frozen := frozen } := by
  intro ws hws p hp
  obtain ⟨image, slot, originals, hshadow, horiginals, hws⟩ := shadowWrites_of_replay hws
  obtain ⟨k, hk, hpage⟩ := mem_shadowWrites hws hp
  obtain ⟨_, hrecords⟩ := h.pages.written image hshadow slot originals horiginals
  have hrecord : s.pages.records[k]? = some 0 := by
    rw [← hrecords, getElem?_append_left (List.getElem?_eq_some_iff.mp hk).1]
    exact hk
  exact (h.pages.slots image hshadow k p hrecord hpage).trans h.pages.data.symm

/-- However the logs of a run end, further crashes change nothing unless the frozen WAL has
no checkpoint record and commits an operation; and then one crash loses it, where states
tell which operations they come from. -/
theorem recover_interrupted_iff {start : Engine σ Op Page} (hstart : start.Opened db ident)
    (hrun : Reachable (Engine.step db ident) start (Engine.KeepsHeader db ident) s)
    (wal frozen : Option (List (WalEntry Op))) (cfg : ReplayConfig) :
    (¬ LosesFrozen db cfg { s.disk with wal := wal, frozen := frozen } →
      ∀ disk', Interrupted db cfg { s.disk with wal := wal, frozen := frozen } disk' →
        recover db cfg disk' = recover db cfg { s.disk with wal := wal, frozen := frozen }) ∧
    ((∀ s, Function.Injective fun ops => db.applyAll ops s) →
      (∀ disk', Interrupted db cfg { s.disk with wal := wal, frozen := frozen } disk' →
        recover db cfg disk' = recover db cfg { s.disk with wal := wal, frozen := frozen }) →
      ¬ LosesFrozen db cfg { s.disk with wal := wal, frozen := frozen }) := by
  have hid := (hstart.keepsID_of_reachable hrun).shadowKeepsID wal frozen
  refine ⟨fun hkeep disk' hcrashes => (hcrashes.unharmed hid hkeep).recover,
    fun hrecords hsame hloses => ?_⟩
  obtain ⟨disk', hcrashes, hdiffers⟩ := hloses.interrupted hrecords
  exact hdiffers (hsame disk' hcrashes)

end Runs

namespace Tally

theorem created_opened : created.Opened database identity := ⟨rfl, rfl, rfl, rfl⟩

theorem inserted_reachable : Reachable (Engine.step database identity) created
    (Engine.KeepsHeader database identity) inserted :=
  .step (.commit [.insert 7]) .init trivial rfl

/-- Without a frozen WAL, the inserted row survives any number of crashes. -/
theorem recover_interrupted_iff_sample :
    recover database (identity.reopen true) inserted.disk = .ok [7] ∧
      ∀ disk', Interrupted database (identity.reopen true) inserted.disk disk' →
        recover database (identity.reopen true) disk' = .ok [7] := by
  have hsame := (recover_interrupted_iff created_opened inserted_reachable inserted.logs.wal none
    (identity.reopen true)).1 (not_losesFrozen_of_none rfl)
  have hfirst : recover database (identity.reopen true) inserted.disk = .ok [7] := by
    decide +kernel
  exact ⟨hfirst, fun disk' hcrashes => (hsame disk' hcrashes).trans hfirst⟩

/-- The WAL is rotated, and the process is killed.  The first recovery finds the row; a
crash right after it, and the row is gone. -/
theorem recover_interrupted_fails :
    ∃ s, Reachable (Engine.step database identity) created
        (Engine.KeepsHeader database identity) s ∧
      ∃ disk', Interrupted database (identity.reopen true) s.disk disk' ∧
        recover database (identity.reopen true) s.disk = .ok [7] ∧
        recover database (identity.reopen true) disk' = .ok [] := by
  have hcheckpoint : Engine.KeepsHeader database identity inserted
      (.checkpoint (planFor 1 [7])) := by
    simp [Engine.KeepsHeader, Plan.prepare, Plan.flushAll, planFor, PageOp.KeepsHeader, database,
      identity]
  refine ⟨_, .step .next (.step .next (.step (.checkpoint (planFor 1 [7])) inserted_reachable
    hcheckpoint rfl) trivial rfl) trivial rfl, _, .crash 2 .refl, ?_, ?_⟩
  · decide +kernel
  · decide +kernel

end Tally

end Lbug.Storage
