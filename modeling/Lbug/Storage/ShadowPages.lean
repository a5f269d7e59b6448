/-
  Storage/ShadowPages.lean --- what a checkpoint leaves in the shadow file.

  Seen through its shadow pages, the data file is `view`: a page that has a shadow page
  reads as its frame.  The storage phase of a checkpoint writes this view
  (`view_stored`), the flush brings every shadow page to the shadow file (`Complete`),
  and applying the records turns the data file into the view.  A complete shadow file
  is read back by recovery as exactly these page writes.
-/
import Lbug.Storage.Checkpoint

namespace Lbug.Storage

open Foundation List Function

namespace PageStore

variable {Page : Type} {databaseID : Nat} {s : PageStore Page}

/-- The data file `f` as seen through the shadow pages. -/
def view (s : PageStore Page) (f : Nat → Page) : Nat → Page :=
  fun i => if i ∈ s.records then s.frames (s.records.idxOf i + 1) else f i

/-- The page writes that the records stand for, from a slot on. -/
def pairs (frames : Nat → Page) : List Nat → Nat → List (Nat × Page)
  | [], _ => []
  | original :: rest, slot => (original, frames slot) :: pairs frames rest (slot + 1)

section

variable (frames : Nat → Page)

section

variable (records : List Nat)

theorem pairs_map_fst (slot : Nat) : (pairs frames records slot).map Prod.fst = records := by
  induction records generalizing slot with
  | nil => rfl
  | cons _ _ ih => rw [pairs, map_cons, ih]

theorem pairs_length (slot : Nat) : (pairs frames records slot).length = records.length := by
  rw [← length_map Prod.fst, pairs_map_fst]

theorem pairs_getElem? (slot k : Nat) :
    (pairs frames records slot)[k]? = records[k]?.map fun original =>
      (original, frames (slot + k)) := by
  induction records generalizing slot k with
  | nil => rfl
  | cons original _ ih =>
    cases k with
    | zero => rfl
    | succ =>
      rw [pairs, getElem?_cons_succ, ih]
      congr 1
      funext original
      rw [Nat.add_right_comm, Nat.add_assoc]

end

/-- Records of distinct pages: writing them gives each page its frame. -/
theorem writeAll_pairs {records : List Nat} (hnodup : records.Nodup) (slot : Nat) (f : Nat → Page)
    (i : Nat) :
    writeAll (pairs frames records slot) f i =
      if i ∈ records then frames (slot + records.idxOf i) else f i := by
  induction records generalizing slot f with
  | nil => rfl
  | cons original rest ih =>
    obtain ⟨hfresh, hrest⟩ := nodup_cons.mp hnodup
    rw [pairs, writeAll_cons, ih hrest]
    by_cases hin : i ∈ rest
    · have hne : original ≠ i := fun heq => hfresh (heq ▸ hin)
      rw [if_pos hin, if_pos (mem_cons_of_mem _ hin), idxOf_cons_ne _ hne]
      congr 1
      omega
    · rw [if_neg hin]
      rcases eq_or_ne i original with rfl | hne
      · rw [update_self, if_pos mem_cons_self, idxOf_cons_self, Nat.add_zero]
      · rw [update_of_ne hne]
        simp [hne, hin]

end

theorem writeAll_pairs_view (s : PageStore Page) (hnodup : s.records.Nodup) (f : Nat → Page) :
    writeAll (pairs s.frames s.records 1) f = s.view f := by
  funext i
  rw [writeAll_pairs s.frames hnodup, view, Nat.add_comm]

/-! ## The storage phase -/

theorem shadowWrite_data (s : PageStore Page) (original : Nat) (p : Page) :
    (s.shadowWrite original p).data = s.data := by
  unfold shadowWrite
  split <;> rfl

theorem shadowWrite_nodup (hnodup : s.records.Nodup) (original : Nat) (p : Page) :
    (s.shadowWrite original p).records.Nodup := by
  unfold shadowWrite
  split_ifs with hnew
  · exact hnodup
  rw [nodup_append]
  refine ⟨hnodup, by simp, ?_⟩
  intro i hi j hj
  rw [mem_singleton] at hj
  rintro rfl
  exact hnew (hj ▸ hi)

section

variable (s : PageStore Page) (original : Nat) (p : Page)

theorem mem_shadowWrite_records (i : Nat) :
    i ∈ (s.shadowWrite original p).records ↔ i ∈ s.records ∨ i = original := by
  unfold shadowWrite
  split_ifs with hold
  · constructor
    · exact .inl
    · rintro (h | rfl)
      · exact h
      · exact hold
  · rw [mem_append, mem_singleton]

/-- A write through the shadow file writes the view. -/
theorem view_shadowWrite (f : Nat → Page) :
    (s.shadowWrite original p).view f = update (s.view f) original p := by
  funext i
  unfold shadowWrite
  split_ifs with hold
  · rcases eq_or_ne i original with rfl | hne
    · simp [view, hold]
    rw [update_of_ne hne]
    simp only [view]
    split_ifs with hin
    · -- another page has another slot
      have hslot : s.records.idxOf i + 1 ≠ s.records.idxOf original + 1 := by
        intro heq
        exact hne (idxOf_inj hin |>.mp (Nat.succ.inj heq))
      rw [update_of_ne hslot]
    · rfl
  · rcases eq_or_ne i original with rfl | hne
    · simp [view, idxOf_append_of_notMem hold]
    rw [update_of_ne hne]
    simp only [view, mem_append, mem_singleton, hne, or_false]
    split_ifs with hin
    · have hlt := idxOf_lt_length_of_mem hin
      rw [idxOf_append_of_mem hin, update_of_ne (by omega)]
    · rfl

end

section

variable (databaseID : Nat) (plan : Plan Page) (hstorage : ∀ op ∈ plan.storage, op.isStorage = true)
  (s : PageStore Page)

include hstorage

/-- The records after a list of operations of the storage phase: distinct pages, the old
ones and those written through the shadow file; the data file has the direct writes,
and the view the writes through the shadow file. -/
theorem stored_spec (hnodup : s.records.Nodup) (f : Nat → Page) :
    (plan.stored databaseID s).records.Nodup ∧
      (∀ i, i ∈ (plan.stored databaseID s).records ↔ i ∈ s.records ∨
        i ∈ plan.shadows.map Prod.fst) ∧
      (plan.stored databaseID s).data = writeAll plan.directs s.data ∧
      (plan.stored databaseID s).view f = writeAll plan.shadows (s.view f) := by
  obtain ⟨storage, _⟩ := plan
  simp only [Plan.stored, Plan.directs, Plan.shadows] at hstorage ⊢
  induction storage generalizing s with
  | nil => simp [hnodup]
  | cons op storage ih =>
    have hrest : ∀ op ∈ storage, op.isStorage = true :=
      fun op hop => hstorage op (mem_cons_of_mem _ hop)
    cases op with
    | shadowWrite i p =>
      obtain ⟨hnodup', hmem, hdata, hview⟩ :=
        ih (s.shadowWrite i p) (shadowWrite_nodup hnodup i p) hrest
      refine ⟨hnodup', ?_, ?_, ?_⟩
      · intro j
        refine (hmem j).trans ?_
        rw [mem_shadowWrite_records, or_assoc, ← mem_cons]
        exact Iff.rfl
      · rw [shadowWrite_data] at hdata
        exact hdata
      · rw [view_shadowWrite] at hview
        exact hview
    | writePage i p =>
      obtain ⟨hnodup', hmem, hdata, hview⟩ := ih { s with data := update s.data i p } hnodup hrest
      exact ⟨hnodup', hmem, hdata, hview⟩
    | flushSlot slot =>
      have hsame : (s.perform databaseID (.flushSlot slot)).records = s.records ∧
          (s.perform databaseID (.flushSlot slot)).data = s.data ∧
          (s.perform databaseID (.flushSlot slot)).view f = s.view f := by
        simp only [perform]
        split <;> exact ⟨rfl, rfl, rfl⟩
      obtain ⟨hrecords, hsameData, hsameView⟩ := hsame
      obtain ⟨hnodup', hmem, hdata, hview⟩ :=
        ih (s.perform databaseID (.flushSlot slot)) (hrecords ▸ hnodup) hrest
      rw [hrecords] at hmem
      rw [hsameData] at hdata
      rw [hsameView] at hview
      exact ⟨hnodup', hmem, hdata, hview⟩
    | flushHeader | flushRecords | applyPage | clear | reset =>
      cases hstorage _ mem_cons_self

/-- The shadow file exists once a page has a shadow page. -/
theorem shadow_isSome_stored (hpages : s.records ≠ [] → s.shadow.isSome = true) :
    (plan.stored databaseID s).records ≠ [] → (plan.stored databaseID s).shadow.isSome = true := by
  obtain ⟨storage, _⟩ := plan
  simp only [Plan.stored] at hstorage ⊢
  induction storage generalizing s with
  | nil => exact hpages
  | cons op storage ih =>
    have hrest : ∀ op ∈ storage, op.isStorage = true :=
      fun op hop => hstorage op (mem_cons_of_mem _ hop)
    refine ih _ ?_ hrest
    cases op with
    | shadowWrite =>
      intro _
      simp only [perform, shadowWrite]
      split_ifs with hold
      · exact hpages (ne_nil_of_mem hold)
      · rfl
    | writePage => exact hpages
    | flushSlot =>
      simp only [perform]
      split
      · intro hne
        simpa [writeSlot] using hpages hne
      · exact hpages
    | flushHeader | flushRecords | applyPage | clear | reset =>
      cases hstorage _ mem_cons_self

end

/-! ## The flush -/

/-- The shadow file holds every shadow page, the records and a header that counts
them. -/
def Complete (databaseID : Nat) (s : PageStore Page) : Prop :=
  ∃ image, s.shadow = some image ∧ image 0 = .header s.records.length databaseID ∧
    image (s.records.length + 1) = .records s.records ∧
    ∀ k < s.records.length, image (k + 1) = .page (s.frames (k + 1))

/-- Flushing slots changes nothing but the shadow file. -/
theorem foldl_flushSlot (dirty : List Nat) (s : PageStore Page) :
    (dirty.map PageOp.flushSlot).foldl (perform databaseID) s =
      { s with shadow := s.shadow.map fun image slot =>
          if slot ∈ dirty ∧ 0 < slot ∧ slot ≤ s.records.length then .page (s.frames slot)
          else image slot } := by
  induction dirty generalizing s with
  | nil => simp
  | cons slot _ ih =>
    rw [map_cons, foldl_cons, ih]
    simp only [perform]
    split_ifs with hslot
    · simp only [writeSlot, Option.map_map]
      congr 2
      funext image i
      simp only [comp_apply]
      rcases eq_or_ne i slot with rfl | hne
      · simp [hslot]
      · simp [hne]
    · congr 2
      funext image i
      simp only [mem_cons]
      rcases eq_or_ne i slot with rfl | hne
      · simp [hslot]
      · simp [hne]

theorem flushAll_frame (databaseID : Nat) (plan : Plan Page) (s : PageStore Page) :
    (plan.flushAll.foldl (perform databaseID) s).records = s.records ∧
      (plan.flushAll.foldl (perform databaseID) s).data = s.data ∧
      (plan.flushAll.foldl (perform databaseID) s).frames = s.frames := by
  simp only [Plan.flushAll, foldl_cons, foldl_append, foldl_flushSlot]
  exact ⟨rfl, rfl, rfl⟩

/-- The flush completes the shadow file. -/
theorem complete_flushAll {plan : Plan Page} (hshadow : s.shadow.isSome = true)
    (honDisk : ∀ k < s.records.length, k + 1 ∈ plan.dirty ∨
      s.slotPage (k + 1) = some (s.frames (k + 1))) :
    Complete databaseID (plan.flushAll.foldl (perform databaseID) s) := by
  obtain ⟨_, himage⟩ := Option.isSome_iff_exists.mp hshadow
  simp only [Plan.flushAll, foldl_cons, foldl_append, foldl_flushSlot, foldl_nil]
  simp only [perform, writeSlot, himage, Option.map_some, Complete, Option.some.injEq,
    exists_eq_left']
  refine ⟨?_, ?_, ?_⟩
  · rw [update_of_ne (by omega), if_neg (by simp), update_self]
  · rw [update_self]
  · intro k hk
    rw [update_of_ne (by omega)]
    split_ifs with hclean
    · rfl
    rw [update_of_ne (by omega)]
    have hslot := (honDisk k hk).resolve_left fun hmem => hclean ⟨hmem, by omega, hk⟩
    simp only [slotPage, himage] at hslot
    split at hslot
    · rename_i p hpage
      rw [hpage, Option.some.inj hslot]
    · cases hslot

/-! ## Applying the shadow pages -/

/-- With the first `k` records of a complete shadow file applied, applying the next one
writes its page. -/
theorem perform_applyPage (hcomplete : Complete databaseID s) (k : Nat) :
    perform databaseID { s with data := writeAll ((pairs s.frames s.records 1).take k) s.data }
        (.applyPage k) =
      { s with data := writeAll ((pairs s.frames s.records 1).take (k + 1)) s.data } := by
  obtain ⟨_, himage, -, -, hpages⟩ := hcomplete
  rw [take_add_one, writeAll_append, pairs_getElem?]
  cases hrecord : s.records[k]? with
  | none => simp [perform, hrecord]
  | some =>
    have hlt : k < s.records.length := (List.getElem?_eq_some_iff.mp hrecord).1
    simp [perform, hrecord, slotPage, himage, hpages k hlt, writeAll_cons, Nat.add_comm]

/-- Recovery reads a complete shadow file back as the writes of its records. -/
theorem shadowWrites_pairs {image : Nat → ShadowSlot Page} {frames : Nat → Page}
    (records : List Nat) (slot : Nat)
    (hpages : ∀ k < records.length, image (slot + k) = .page (frames (slot + k))) :
    shadowWrites image records slot = some (pairs frames records slot) := by
  induction records generalizing slot with
  | nil => rfl
  | cons _ rest ih =>
    have hfirst := hpages 0 (Nat.zero_lt_succ _)
    have hrest : shadowWrites image rest (slot + 1) = some (pairs frames rest (slot + 1)) := by
      apply ih
      intro k hk
      have hnext := hpages (k + 1) (Nat.succ_lt_succ hk)
      rwa [show slot + (k + 1) = slot + 1 + k by omega] at hnext
    rw [Nat.add_zero] at hfirst
    rw [shadowWrites, hfirst]
    simp only [hrest]
    rfl

theorem replayShadowPageRecords_complete {σ Op : Type} {db : Database σ Op Page}
    {disk : Disk Op Page} (hcomplete : Complete databaseID s) (hshadow : disk.shadow = s.shadow)
    (hid : db.databaseID (disk.data 0) = some databaseID) :
    replayShadowPageRecords db disk = .ok (pairs s.frames s.records 1) := by
  obtain ⟨image, himage, hheader, hrecords, hpages⟩ := hcomplete
  have hwrites : shadowWrites image s.records 1 = some (pairs s.frames s.records 1) := by
    apply shadowWrites_pairs
    intro k hk
    rw [Nat.add_comm]
    exact hpages k hk
  rw [replayShadowPageRecords, hshadow, himage]
  simp only [hid, hheader, hrecords, hwrites]
  rfl

end PageStore

end Lbug.Storage
