/-
  Storage/DiskArrayList.lean --- a disk array as a list with a checkpointed version.

  `Represents info s saved current` relates a disk array to two lists: what other
  transactions read and what the checkpoint reads.  Each operation is shown to do to the
  lists what its name says, under conditions on the state: a page of the checkpointed
  array must not be written in place, and a rollback must find the checkpointed elements
  unchanged and the cached last page right.
-/
import Lbug.Storage.DiskArrayPages

namespace Lbug.Storage

open Foundation List

/-- The number of array pages of `n` elements. -/
def numAPs (info : PageStorageInfo) (n : Nat) : Nat :=
  (n + info.numElementsPerPage - 1) / info.numElementsPerPage

section NumAPs

variable {info : PageStorageInfo} {n i : Nat}

theorem div_lt_numAPs (hi : i < n) : i / info.numElementsPerPage < numAPs info n := by
  have hpos := info.numElementsPerPage_pos
  rw [numAPs, Nat.lt_div_iff_mul_lt hpos]
  have := Nat.div_mul_le_self i info.numElementsPerPage
  omega

theorem numAPs_of_full (h : n % info.numElementsPerPage = 0) :
    numAPs info n = n / info.numElementsPerPage := by
  have hpos := info.numElementsPerPage_pos
  have hmul : n / info.numElementsPerPage * info.numElementsPerPage = n := by
    have := Nat.div_add_mod n info.numElementsPerPage
    rw [h, Nat.mul_comm] at this
    exact this
  refine Nat.div_eq_of_lt_le ?_ ?_
  · omega
  · rw [Nat.succ_mul]
    omega

theorem numAPs_succ : numAPs info (n + 1) = n / info.numElementsPerPage + 1 := by
  have hpos := info.numElementsPerPage_pos
  rw [numAPs, show n + 1 + info.numElementsPerPage - 1 = n + info.numElementsPerPage by omega,
    Nat.add_div_right _ hpos]

theorem numAPs_of_not_dvd (h : n % info.numElementsPerPage ≠ 0) :
    numAPs info n = n / info.numElementsPerPage + 1 := by
  obtain ⟨m, rfl⟩ : ∃ m, n = m + 1 := ⟨n - 1, by
    cases n with
    | zero => simp at h
    | succ => rfl⟩
  rw [numAPs_succ, Nat.succ_div_of_not_dvd]
  exact fun hdvd => h (Nat.mod_eq_zero_of_dvd hdvd)

theorem numAPs_mono {m : Nat} (h : n ≤ m) : numAPs info n ≤ numAPs info m :=
  Nat.div_le_div_right (by omega)

end NumAPs

namespace DiskArray

variable {V : Type} (info : PageStorageInfo) (s : DiskArray V)

/-- The pages of the PIPs of a table. -/
def pipPages (table : List PIPEntry) : List Nat := table.map Prod.fst

/-- The first `n` array pages of the checkpoint have different pages, which no PIP has.
All their shadow pages are in the map, and they are pages that are shadowed. -/
structure Mapped (n : Nat) : Prop where
  covers : Covers info.numPageIdxsPerPIP s.writeTable n
  pages : ∀ a < n, ∃ p, info.apPage s.writeTable a = some p ∧
    p ∉ pipPages s.writeTable
  inj : ∀ a < n, ∀ b < n, ∀ p, info.apPage s.writeTable a = some p →
    info.apPage s.writeTable b = some p → a = b
  records : ∀ a < n, ∀ p, info.apPage s.writeTable a = some p →
    p ∈ s.shadowFile.shadowPageRecords.map Prod.fst →
      s.shadowFile.shadowPagesMap p ≠ none ∧ s.shadows p = true

/-- The array with `n` array pages holds the two lists. -/
structure Holds (saved current : List V) (n : Nat) [Inhabited V] : Prop where
  wf : s.PIPsWF
  shadow : s.shadowFile.WF
  mapped : Mapped info s n
  le : saved.length ≤ current.length
  numAPs_le : numAPs info current.length ≤ n
  readSize : s.header.numElements = saved.length
  readCovers : Covers info.numPageIdxsPerPIP s.readTable (numAPs info saved.length)
  agree : ∀ a < numAPs info saved.length, info.apPage s.readTable a =
    info.apPage s.writeTable a
  current_eq : ∀ i < current.length, ∀ p,
    info.apPage s.writeTable (i / info.numElementsPerPage) = some p →
    current[i]? = some ((s.content p).elements (i % info.numElementsPerPage))
  saved_eq : ∀ i < saved.length, ∀ p,
    info.apPage s.readTable (i / info.numElementsPerPage) = some p →
    saved[i]? = some ((s.file p).elements (i % info.numElementsPerPage))

/-- The array holds the two lists and its headers and cached fields agree with them. -/
structure Represents (saved current : List V) [Inhabited V] : Prop where
  holds : Holds info s saved current (numAPs info current.length)
  writeSize : s.headerForWriteTrx.numElements = current.length
  quiet : s.hasTransactionalUpdates = false →
    s.pipUpdates.updatedLastPIP = none ∧ s.pipUpdates.newPIPs = [] ∧ current = saved
  lastAP : ∀ q, s.lastAPPageIdx = some q → current.length % info.numElementsPerPage ≠ 0 →
    info.apPage s.writeTable (current.length / info.numElementsPerPage) = some q

/-- Page `p` is no page of the checkpointed array, or it is changed in the shadow file. -/
def Safe (p : Nat) : Prop :=
  ∀ a < numAPs info s.header.numElements,
    info.apPage s.readTable a = some p → s.shadows p = true

variable {info s} {s' : DiskArray V} {saved current : List V} {n p : Nat}

/-- A page that has no record is in no map. -/
theorem map_eq_none_of_shadow (h : s.shadowFile.WF)
    (hp : p ∉ s.shadowFile.shadowPageRecords.map Prod.fst) :
    s.shadowFile.shadowPagesMap p = none := by
  cases hi : s.shadowFile.shadowPagesMap p with
  | none => rfl
  | some i =>
    obtain ⟨_, hc⟩ := h.record p i hi
    exact absurd (mem_map.mpr ⟨_, mem_of_getElem? hc, rfl⟩) hp

theorem Mapped.map_eq_none (h : Mapped info s n) (hshadow : s.shadowFile.WF) {a : Nat} (ha : a < n)
    (hp : info.apPage s.writeTable a = some p) (hnot : s.shadows p = false) :
    s.shadowFile.shadowPagesMap p = none := by
  apply map_eq_none_of_shadow hshadow
  intro hmem
  rw [(h.records a ha p hp hmem).2] at hnot
  cases hnot

variable [Inhabited V] {isNew : Bool} {pages pages' : List Nat} {page idx : Nat}
  {it : WriteIterator}

/-! ## Writing an element -/

section

variable (s : DiskArray V) (p : Nat) (isNew : Bool) (f : DiskPage V → DiskPage V)

theorem writeTable_updatePage : (s.updatePage p isNew f).writeTable = s.writeTable := by
  unfold updatePage
  split <;> rfl

theorem readTable_updatePage : (s.updatePage p isNew f).readTable = s.readTable := by
  unfold updatePage
  split <;> rfl

theorem shadows_updatePage (q : Nat) : (s.updatePage p isNew f).shadows q = s.shadows q := by
  unfold updatePage
  split <;> rfl

theorem header_updatePage : (s.updatePage p isNew f).header = s.header := by
  unfold updatePage
  split <;> rfl

end

theorem Mapped.updatePage (h : Mapped info s n) (hshadow : s.shadowFile.WF) (p : Nat)
    (isNew : Bool) (f : DiskPage V → DiskPage V) : Mapped info (s.updatePage p isNew f) n := by
  refine ⟨?_, ?_, ?_, fun a ha q hq hmem => ?_⟩
  · rw [writeTable_updatePage]
    exact h.covers
  · rw [writeTable_updatePage]
    exact h.pages
  · rw [writeTable_updatePage]
    exact h.inj
  · rw [writeTable_updatePage] at hq
    rw [shadows_updatePage]
    have hmap : ∀ q, (q = p ∧ s.shadows p = true) ∨ s.shadowFile.shadowPagesMap q ≠ none →
        (s.updatePage p isNew f).shadowFile.shadowPagesMap q ≠ none := by
      intro q hq
      unfold DiskArray.updatePage
      split
      · exact ShadowFile.map_updatePage_ne_none _ _ _ _ (hq.imp_left And.left)
      · rename_i hnot
        exact hq.resolve_left fun hand => hnot hand.2
    rcases mem_records_updatePage hshadow p f isNew hmem with hold | ⟨rfl, hshadows⟩
    · exact ⟨hmap q (.inr (h.records a ha q hq hold).1), (h.records a ha q hq hold).2⟩
    · exact ⟨hmap q (.inl ⟨rfl, hshadows⟩), hshadows⟩

theorem elements_set (page : DiskPage V) (pos j : Nat) (v : V) :
    (page.set pos v).elements j = if j = pos then v else page.elements j := by
  rcases eq_or_ne j pos with rfl | h
  · simp [DiskPage.set, DiskPage.elements]
  · simp [DiskPage.set, DiskPage.elements, h]

/-- One element is written, at an index that has a page. -/
theorem Holds.write (h : Holds info s saved current n) {i : Nat} {v : V} {current' : List V}
    (ha : i / info.numElementsPerPage < n)
    (hp : info.apPage s.writeTable (i / info.numElementsPerPage) = some p)
    (hsafe : Safe info s p) (hnew : isNew = true → ∀ j < current.length,
      j / info.numElementsPerPage ≠ i / info.numElementsPerPage)
    (hle : saved.length ≤ current'.length) (hnum : numAPs info current'.length ≤ n)
    (hlt : ∀ j < current'.length, j ≠ i → j < current.length)
    (hvalue : ∀ j < current'.length, current'[j]? = if j = i then some v else current[j]?) :
    Holds info (s.updatePage p isNew (·.set (i % info.numElementsPerPage) v)) saved current' n where
  wf := by
    unfold updatePage
    split
    · exact ⟨h.wf.last, h.wf.linked⟩
    · exact ⟨h.wf.last, h.wf.linked⟩
  shadow := shadowFile_updatePage_wf h.shadow p _ isNew
  mapped := h.mapped.updatePage h.shadow p isNew _
  le := hle
  numAPs_le := hnum
  readSize := by
    rw [header_updatePage]
    exact h.readSize
  readCovers := by
    rw [readTable_updatePage]
    exact h.readCovers
  agree := by
    rw [readTable_updatePage, writeTable_updatePage]
    exact h.agree
  current_eq j hj q hq := by
    rw [writeTable_updatePage] at hq
    rw [content_updatePage h.shadow p _ isNew (h.mapped.map_eq_none h.shadow ha hp), hvalue j hj]
    rcases eq_or_ne j i with rfl | hji
    · rw [hp] at hq
      cases hq
      rw [if_pos rfl, if_pos rfl, elements_set, if_pos rfl]
    have hold := h.current_eq j (hlt j hj hji) q hq
    rw [if_neg hji]
    by_cases hqp : q = p
    · -- another element of the page that is written
      subst hqp
      have hdiv := h.mapped.inj _ (Nat.lt_of_lt_of_le (div_lt_numAPs hj) hnum) _ ha q hq hp
      have hmod : j % info.numElementsPerPage ≠ i % info.numElementsPerPage :=
        fun hmod => hji (Nat.ext_div_mod hdiv hmod)
      have hold' : isNew = false := by
        cases hisNew : isNew with
        | false => rfl
        | true => exact absurd hdiv (hnew hisNew j (hlt j hj hji))
      rw [if_pos rfl, elements_set, if_neg hmod, hold, hold']
      simp
    · rw [if_neg hqp, hold]
  saved_eq j hj q hq := by
    rw [readTable_updatePage] at hq
    rw [file_updatePage]
    · exact h.saved_eq j hj q hq
    · rintro rfl
      exact hsafe _ (by rw [h.readSize]; exact div_lt_numAPs hj) hq

/-! ## Adding elements -/

variable (info s) in
/-- Neither the array nor the shadow file uses the page. -/
structure Fresh (n p : Nat) : Prop where
  notAP : ∀ a < n, info.apPage s.writeTable a ≠ some p
  notPIP : p ∉ pipPages s.writeTable
  noRecord : p ∉ s.shadowFile.shadowPageRecords.map Prod.fst

omit [Inhabited V] in
theorem Mapped.addAP (h : Mapped info s n) (hadd : AddedAP info s s' n page pages pages')
    (hfresh : ∀ p ∈ pages, Fresh info s n p) (hnodup : pages.Nodup) : Mapped info s' (n + 1) := by
  obtain ⟨used, hpages, -, hpips⟩ := hadd.pages
  obtain ⟨_, _, hs'⟩ := hadd.same
  have hused : ∀ p ∈ used, p ∈ pages := fun p hp => by simp [hpages, hp]
  have hpage : page ∈ pages := by simp [hpages]
  have hnotUsed : page ∉ used := by
    rw [hpages, cons_append, nodup_cons] at hnodup
    exact fun hmem => hnodup.1 (mem_append_left _ hmem)
  have hlookup : ∀ a < n + 1, ∀ p, info.apPage s'.writeTable a = some p →
      (a = n ∧ p = page) ∨ (a < n ∧ info.apPage s.writeTable a = some p) := by
    intro a ha p hp
    rw [hadd.lookup a (by omega)] at hp
    split at hp
    · cases hp
      exact .inl ⟨by assumption, rfl⟩
    · exact .inr ⟨by omega, hp⟩
  refine ⟨hadd.covers, fun a ha => ?_, fun a ha b hb p hpa hpb => ?_, fun a ha p hp hmem => ?_⟩
  · rcases Nat.lt_succ_iff_lt_or_eq.mp ha with hlt | rfl
    · obtain ⟨p, hp, hpip⟩ := h.pages a hlt
      refine ⟨p, by rw [hadd.lookup a (by omega), if_neg (by omega), hp], fun hmem => ?_⟩
      rcases hpips p hmem with hold | hnew
      · exact hpip hold
      · exact (hfresh p (hused p hnew)).notAP a hlt hp
    · refine ⟨page, by rw [hadd.lookup a (Nat.le_refl _), if_pos rfl], fun hmem => ?_⟩
      rcases hpips page hmem with hold | hnew
      · exact (hfresh page hpage).notPIP hold
      · exact hnotUsed hnew
  · rcases hlookup a ha p hpa with ⟨rfl, rfl⟩ | ⟨hlt, hpa'⟩
    · rcases hlookup b hb _ hpb with ⟨rfl, -⟩ | ⟨hlt', hpb'⟩
      · rfl
      · exact absurd hpb' ((hfresh _ hpage).notAP b hlt')
    · rcases hlookup b hb p hpb with ⟨rfl, rfl⟩ | ⟨hlt', hpb'⟩
      · exact absurd hpa' ((hfresh _ hpage).notAP a hlt)
      · exact h.inj a hlt b hlt' p hpa' hpb'
  · subst hs'
    rcases hlookup a ha p hp with ⟨rfl, rfl⟩ | ⟨hlt, hp'⟩
    · exact absurd hmem (hfresh _ hpage).noRecord
    · exact h.records a hlt p hp' hmem

theorem Holds.addAP (h : Holds info s saved current n)
    (hadd : AddedAP info s s' n page pages pages') (hfresh : ∀ p ∈ pages, Fresh info s n p)
    (hnodup : pages.Nodup) : Holds info s' saved current (n + 1) := by
  have hmapped := h.mapped.addAP hadd hfresh hnodup
  have hsaved : numAPs info saved.length ≤ n := Nat.le_trans (numAPs_mono h.le) h.numAPs_le
  have hlookup : ∀ a < n, info.apPage s'.writeTable a =
      info.apPage s.writeTable a := by
    intro a ha
    rw [hadd.lookup a (by omega), if_neg (by omega)]
  have hwf := hadd.wf
  obtain ⟨_, _, rfl⟩ := hadd.same
  exact { h with
    wf := hwf
    mapped := hmapped
    numAPs_le := Nat.le_succ_of_le h.numAPs_le
    agree := fun a ha => by
      rw [hlookup a (by omega)]
      exact h.agree a ha
    current_eq := fun i hi p hp => by
      rw [hlookup _ (Nat.lt_of_lt_of_le (div_lt_numAPs hi) h.numAPs_le)] at hp
      exact h.current_eq i hi p hp }

/-- The lists depend on the pages and the PIPs only. -/
theorem Holds.withFields (h : Holds info s saved current n) (lastAP : Option Nat)
    (header : DiskArrayHeader) (updates : Bool) :
    Holds info { s with
      lastAPPageIdx := lastAP
      headerForWriteTrx := header
      hasTransactionalUpdates := updates } saved current n :=
  { h with
    wf := ⟨h.wf.last, h.wf.linked⟩
    mapped := ⟨h.mapped.covers, h.mapped.pages, h.mapped.inj, h.mapped.records⟩ }

variable (info s) in
/-- A page that is not full yet may be written. -/
def TailSafe (size : Nat) : Prop :=
  size % info.numElementsPerPage ≠ 0 → ∀ p,
    info.apPage s.writeTable (size / info.numElementsPerPage) = some p →
      Safe info s p

/-- What the next push finds: the page for the next element. -/
structure NextPage (info : PageStorageInfo) (s s' : DiskArray V) (saved current : List V)
    (page : Nat) (isNew : Bool) (pages pages' : List Nat) : Prop where
  same : ∃ updates first, s' = { s with
    pipUpdates := updates
    headerForWriteTrx := { s.headerForWriteTrx with firstPIPPageIdx := first } }
  holds : Holds info s' saved current (current.length / info.numElementsPerPage + 1)
  page_eq : info.apPage s'.writeTable
    (current.length / info.numElementsPerPage) = some page
  isNew_iff : isNew = true ↔ current.length % info.numElementsPerPage = 0
  old : isNew = false → s' = s
  safe : Safe info s' page
  rest : ∃ used, pages = used ++ pages' ∧ used.length ≤ 2
  fresh : ∀ p ∈ pages', Fresh info s' (current.length / info.numElementsPerPage + 1) p

section

variable (h : Represents info s saved current)

include h

theorem getAPPageIdxAndAdd_of_partial (hmod : current.length % info.numElementsPerPage ≠ 0)
    (pages : List Nat) (hpage : info.apPage s.writeTable
      (current.length / info.numElementsPerPage) = some page) :
    s.getAPPageIdxAndAddAPToPIPIfNecessary info pages (current.length / info.numElementsPerPage) =
      some (s, page, false, pages) := by
  have hnum : getNumAPs info s.headerForWriteTrx =
      current.length / info.numElementsPerPage + 1 := by
    rw [getNumAPs, h.writeSize]
    exact numAPs_of_not_dvd hmod
  have hexisting : getAPPageIdxAndAddAPToPIPIfNecessary.existingOrNew info s pages
      (current.length / info.numElementsPerPage)
      (current.length / info.numElementsPerPage + 1) = some (s, page, false, pages) := by
    unfold getAPPageIdxAndAddAPToPIPIfNecessary.existingOrNew
    rw [if_pos (Nat.lt_succ_self _), getAPPageIdx_checkpoint h.holds.wf, hpage]
    rfl
  unfold getAPPageIdxAndAddAPToPIPIfNecessary
  simp only [hnum]
  cases hlast : s.lastAPPageIdx with
  | none => exact hexisting
  | some q =>
    have hq := h.lastAP q hlast hmod
    rw [hpage] at hq
    cases hq
    simp

theorem getAPPageIdxAndAdd_of_full (hfull : current.length % info.numElementsPerPage = 0)
    (pages : List Nat) :
    s.getAPPageIdxAndAddAPToPIPIfNecessary info pages (current.length / info.numElementsPerPage) =
      getAPPageIdxAndAddAPToPIPIfNecessary.existingOrNew info s pages
        (current.length / info.numElementsPerPage)
        (current.length / info.numElementsPerPage) := by
  have hnum : getNumAPs info s.headerForWriteTrx = current.length / info.numElementsPerPage := by
    rw [getNumAPs, h.writeSize]
    exact numAPs_of_full hfull
  unfold getAPPageIdxAndAddAPToPIPIfNecessary
  simp only [hnum]
  cases s.lastAPPageIdx with
  | none => rfl
  | some => exact if_neg (by omega)

omit h in
theorem Holds.nextPage_of_added
    (h : Holds info s saved current (current.length / info.numElementsPerPage))
    (hfull : current.length % info.numElementsPerPage = 0)
    (hadd : AddedAP info s s' (current.length / info.numElementsPerPage) page pages pages')
    (hfresh : ∀ p ∈ pages, Fresh info s (current.length / info.numElementsPerPage) p)
    (hnodup : pages.Nodup) : NextPage info s s' saved current page true pages pages' := by
  have hholds := h.addAP hadd hfresh hnodup
  have hlookup := hadd.lookup
  obtain ⟨used, hpages, hused, hpips⟩ := hadd.pages
  have hpage : page ∈ pages := by simp [hpages]
  have hsaved : numAPs info saved.length ≤ current.length / info.numElementsPerPage :=
    Nat.le_trans (numAPs_mono h.le) h.numAPs_le
  refine ⟨hadd.same, hholds, by rw [hlookup _ (Nat.le_refl _), if_pos rfl], by simp [hfull],
    by simp, ?_, ⟨page :: used, hpages, Nat.succ_le_succ hused⟩, fun p hp => ?_⟩
  · obtain ⟨_, _, rfl⟩ := hadd.same
    intro a ha hread
    rw [h.readSize] at ha
    exact absurd ((h.agree a ha).symm.trans hread)
      ((hfresh page hpage).notAP a (Nat.lt_of_lt_of_le ha hsaved))
  · -- the pages that are left are different from the pages that were taken
    have hmem : p ∈ pages := by simp [hpages, hp]
    rw [hpages, nodup_append] at hnodup
    have hne : ∀ q ∈ page :: used, q ≠ p := fun q hq => hnodup.2.2 q hq p hp
    have hold := hfresh p hmem
    refine ⟨fun a ha heq => ?_, fun hpip => ?_, ?_⟩
    · rw [hlookup a (by omega)] at heq
      split at heq
      · cases heq
        exact hne _ mem_cons_self rfl
      · exact hold.notAP a (by omega) heq
    · rcases hpips p hpip with hwas | hnew
      · exact hold.notPIP hwas
      · exact hne p (mem_cons_of_mem _ hnew) rfl
    · obtain ⟨_, _, rfl⟩ := hadd.same
      exact hold.noRecord

theorem Represents.nextPage (hfresh : ∀ p ∈ pages, Fresh info s (numAPs info current.length) p)
    (hnodup : pages.Nodup) (hroom : 2 ≤ pages.length) (htail : TailSafe info s current.length) :
    ∃ s' page isNew pages', s.getAPPageIdxAndAddAPToPIPIfNecessary info pages
        (current.length / info.numElementsPerPage) = some (s', page, isNew, pages') ∧
      NextPage info s s' saved current page isNew pages pages' := by
  by_cases hfull : current.length % info.numElementsPerPage = 0
  · obtain ⟨page, pip, rest, rfl⟩ : ∃ page pip rest, pages = page :: pip :: rest := by
      match pages, hroom with
      | page :: pip :: rest, _ => exact ⟨page, pip, rest, rfl⟩
    have hholds := h.holds
    rw [numAPs_of_full hfull] at hholds hfresh
    obtain ⟨s', pages', heq, hadd⟩ := existingOrNew_spec hholds.wf page pip rest
      hholds.mapped.covers
    refine ⟨s', page, true, pages', by rw [getAPPageIdxAndAdd_of_full h hfull, heq], ?_⟩
    exact hholds.nextPage_of_added hfull hadd hfresh hnodup
  · obtain ⟨page, hpage, -⟩ := h.holds.mapped.pages (current.length / info.numElementsPerPage)
      (by rw [numAPs_of_not_dvd hfull]; exact Nat.lt_succ_self _)
    have hholds := h.holds
    rw [numAPs_of_not_dvd hfull] at hholds hfresh
    exact ⟨s, page, false, pages, getAPPageIdxAndAdd_of_partial h hfull pages hpage,
      { same := ⟨s.pipUpdates, s.headerForWriteTrx.firstPIPPageIdx, rfl⟩
        holds := hholds
        page_eq := hpage
        isNew_iff := by simp [hfull]
        old := fun _ => rfl
        safe := htail hfull page hpage
        rest := ⟨[], rfl, Nat.zero_le 2⟩
        fresh := hfresh }⟩

end

variable (info s) in
/-- The state of a bulk push with `k` elements to go. -/
structure Pushing (it : WriteIterator)
    (pages : List Nat) (saved current : List V) (k : Nat) : Prop where
  represents : Represents info s saved current
  active : s.hasTransactionalUpdates = true
  fresh : ∀ p ∈ pages, Fresh info s (numAPs info current.length) p
  nodup : pages.Nodup
  room : 2 * k ≤ pages.length
  tail : TailSafe info s current.length
  pinned : ∀ p, it.originalPage = some p → current.length % info.numElementsPerPage ≠ 0 →
    it.apIdx = current.length / info.numElementsPerPage →
    info.apPage s.writeTable it.apIdx = some p

theorem Fresh.updatePage (h : Fresh info s n p) (hshadow : s.shadowFile.WF) (hne : p ≠ page)
    (isNew : Bool) (f : DiskPage V → DiskPage V) :
    Fresh info (s.updatePage page isNew f) n p := by
  refine ⟨?_, ?_, fun hmem => ?_⟩
  · rw [writeTable_updatePage]
    exact h.notAP
  · rw [writeTable_updatePage]
    exact h.notPIP
  · rcases mem_records_updatePage hshadow page f isNew hmem with hold | ⟨heq, -⟩
    · exact h.noRecord hold
    · exact hne heq

theorem Safe.updatePage (h : Safe info s p) (page : Nat) (isNew : Bool)
    (f : DiskPage V → DiskPage V) : Safe info (s.updatePage page isNew f) p := by
  intro a ha hp
  rw [header_updatePage] at ha
  rw [readTable_updatePage] at hp
  rw [shadows_updatePage]
  exact h a ha hp

omit [Inhabited V] in
theorem getElem?_concat (l : List V) (v : V) {j : Nat} (hj : j < (l ++ [v]).length) :
    (l ++ [v])[j]? = if j = l.length then some v else l[j]? := by
  rw [length_append, length_singleton] at hj
  split_ifs with heq
  · rw [heq, getElem?_concat_length]
  · exact getElem?_append_left (by omega)

/-- The page that is pinned is the page of the next element. -/
theorem Pushing.page_eq {k pinned : Nat} (h : Pushing info s it pages saved current k)
    (hnext : NextPage info s s' saved current page isNew pages pages')
    (hit : it.originalPage = some pinned) (hold : isNew = false)
    (hidx : current.length / info.numElementsPerPage = it.apIdx) : pinned = page := by
  have hmod : current.length % info.numElementsPerPage ≠ 0 := by
    rw [Ne, ← hnext.isNew_iff, hold]
    exact Bool.false_ne_true
  have hpage := hnext.page_eq
  rw [hnext.old hold, hidx, h.pinned pinned hit hmod hidx.symm] at hpage
  exact Option.some.inj hpage

variable (info s) in
/-- The state after the element with index `idx` was pushed to its page. -/
def pushAt (page : Nat) (isNew : Bool) (idx : Nat) (v : V) : DiskArray V :=
  let header := { s.headerForWriteTrx with numElements := s.headerForWriteTrx.numElements + 1 }
  let s := { s with lastAPPageIdx := some page, headerForWriteTrx := header }
  s.updatePage page isNew (·.set (idx % info.numElementsPerPage) v)

theorem NextPage.holds_push (h : NextPage info s s' saved current page isNew pages pages') (v : V) :
    Holds info (s'.pushAt info page isNew current.length v) saved (current ++ [v])
      (current.length / info.numElementsPerPage + 1) := by
  refine Holds.write (h.holds.withFields _ _ s'.hasTransactionalUpdates)
    (Nat.lt_succ_self _) h.page_eq h.safe (fun hnew j hj hdiv => ?_)
    ?_ ?_ (fun j hj hne => ?_) (fun j hj => getElem?_concat current v hj)
  · -- the elements before are on earlier pages
    have hlt : j / info.numElementsPerPage < numAPs info current.length := div_lt_numAPs hj
    rw [numAPs_of_full (h.isNew_iff.mp hnew)] at hlt
    omega
  · have hle := h.holds.le
    rw [length_append]
    omega
  · exact Nat.le_of_eq (by rw [length_append, length_singleton, numAPs_succ])
  · rw [length_append, length_singleton] at hj
    omega

variable (info s) in
theorem pushAt_fields (page : Nat) (isNew : Bool) (idx : Nat) (v : V) :
    (s.pushAt info page isNew idx v).writeTable = s.writeTable ∧
      (s.pushAt info page isNew idx v).lastAPPageIdx = some page ∧
      (s.pushAt info page isNew idx v).headerForWriteTrx.numElements =
        s.headerForWriteTrx.numElements + 1 ∧
      (s.pushAt info page isNew idx v).hasTransactionalUpdates = s.hasTransactionalUpdates := by
  unfold pushAt updatePage
  dsimp only
  split
  · exact ⟨rfl, rfl, rfl, rfl⟩
  · exact ⟨rfl, rfl, rfl, rfl⟩

theorem Fresh.pushAt (h : Fresh info s n p) (hshadow : s.shadowFile.WF) (hne : p ≠ page)
    (isNew : Bool) (idx : Nat) (v : V) :
    Fresh info (s.pushAt info page isNew idx v) n p := by
  refine Fresh.updatePage ?_ ?_ hne isNew _
  · exact { h with }
  · exact hshadow

theorem Safe.pushAt (h : Safe info s p) (page : Nat) (isNew : Bool) (idx : Nat) (v : V) :
    Safe info (s.pushAt info page isNew idx v) p := by
  refine Safe.updatePage ?_ page isNew _
  exact h

/-- A push to a page that is the pinned one, if that is used. -/
theorem pushBack_of_page {size : Nat} (hsize : s.headerForWriteTrx.numElements = size)
    (heq : s.getAPPageIdxAndAddAPToPIPIfNecessary info pages (size / info.numElementsPerPage) =
      some (s', page, isNew, pages'))
    (hpinned : ∀ pinned, it.originalPage = some pinned → isNew = false →
      size / info.numElementsPerPage = it.apIdx → pinned = page) (v : V) :
    s.pushBack info it pages v = some (s'.pushAt info page isNew size v,
      ⟨size / info.numElementsPerPage, some page⟩, pages') := by
  unfold pushBack
  simp only [hsize, heq, Option.map_some]
  cases hit : it.originalPage with
  | none => rfl
  | some pinned =>
    have hpage : (if isNew = true ∨ size / info.numElementsPerPage ≠ it.apIdx then page
        else pinned) = page := by
      split_ifs with hcase
      · rfl
      · rw [not_or, not_not, Bool.not_eq_true] at hcase
        exact hpinned pinned hit hcase.1 hcase.2
    simp only [hpage]
    rfl

/-- One push. -/
theorem Pushing.pushBack {k : Nat} (h : Pushing info s it pages saved current (k + 1)) (v : V) :
    ∃ s' it' pages', s.pushBack info it pages v = some (s', it', pages') ∧
      Pushing info s' it' pages' saved (current ++ [v]) k := by
  have hroom := h.room
  obtain ⟨s₁, page, isNew, pages', heq, hnext⟩ := h.represents.nextPage h.fresh h.nodup
    (by omega) h.tail
  obtain ⟨_, hpages, hused⟩ := hnext.rest
  obtain ⟨htable, hlast, hsize, hactive⟩ := pushAt_fields info s₁ page isNew current.length v
  have hlength : (current ++ [v]).length = current.length + 1 := by simp
  have hnum : numAPs info (current ++ [v]).length =
      current.length / info.numElementsPerPage + 1 := by rw [hlength, numAPs_succ]
  have hpage : ∀ q, (current.length + 1) % info.numElementsPerPage ≠ 0 → q = page →
      info.apPage (s₁.pushAt info page isNew current.length v).writeTable
        ((current.length + 1) / info.numElementsPerPage) = some q := by
    rintro q hmod rfl
    rw [htable, Nat.succ_div_of_not_dvd fun hdvd => hmod (Nat.mod_eq_zero_of_dvd hdvd),
      hnext.page_eq]
  refine ⟨_, _, pages', pushBack_of_page h.represents.writeSize heq
    (fun pinned hit hold hidx => h.page_eq hnext hit hold hidx) v, ?_⟩
  exact {
    represents := {
      holds := by
        rw [hnum]
        exact hnext.holds_push v
      writeSize := by
        obtain ⟨_, _, rfl⟩ := hnext.same
        rw [hsize, hlength]
        exact congrArg (· + 1) h.represents.writeSize
      quiet := fun hquiet => by
        obtain ⟨_, _, rfl⟩ := hnext.same
        rw [hactive, h.active] at hquiet
        cases hquiet
      lastAP := fun q hq hmod => by
        rw [hlength] at hmod ⊢
        rw [hlast] at hq
        exact hpage q hmod (Option.some.inj hq).symm }
    active := by
      obtain ⟨_, _, rfl⟩ := hnext.same
      rw [hactive]
      exact h.active
    fresh := fun p hp => by
      rw [hnum]
      have hne : p ≠ page := fun hpp =>
        (hnext.fresh p hp).notAP _ (Nat.lt_succ_self _) (hpp ▸ hnext.page_eq)
      exact (hnext.fresh p hp).pushAt hnext.holds.shadow hne _ _ _
    nodup := by
      have hnodup := h.nodup
      rw [hpages, nodup_append] at hnodup
      exact hnodup.2.1
    room := by
      rw [hpages, length_append] at hroom
      omega
    tail := fun hmod p hp => by
      rw [hlength] at hmod hp
      rw [hpage page hmod rfl] at hp
      cases hp
      exact hnext.safe.pushAt page _ _ _
    pinned := fun p hp _ _ => by
      cases hp
      rw [htable]
      exact hnext.page_eq }

theorem Pushing.pushAll (values : List V)
    (h : Pushing info s it pages saved current values.length) :
    ∃ s' it' pages', pushAll info s it pages values = some s' ∧
      Pushing info s' it' pages' saved (current ++ values) 0 := by
  induction values generalizing s it pages current with
  | nil =>
    rw [append_nil]
    exact ⟨s, it, pages, rfl, h⟩
  | cons v _ ih =>
    obtain ⟨_, _, _, heq, hpush⟩ := h.pushBack v
    obtain ⟨s', it', pages', hall, hdone⟩ := ih hpush
    refine ⟨s', it', pages', ?_, by rwa [append_assoc] at hdone⟩
    simp only [pushAll, heq, hall]

theorem Represents.activate (h : Represents info s saved current) :
    Represents info { s with hasTransactionalUpdates := true } saved current where
  holds := h.holds.withFields s.lastAPPageIdx s.headerForWriteTrx true
  writeSize := h.writeSize
  quiet hquiet := by cases hquiet
  lastAP := h.lastAP

variable (info s) in
/-- The pages that the allocator returns suffice for `k` pushes and are not in use. -/
structure Allocates (size : Nat) (pages : List Nat) (k : Nat) : Prop where
  fresh : ∀ p ∈ pages, Fresh info s (numAPs info size) p
  nodup : pages.Nodup
  room : 2 * k ≤ pages.length

variable (h : Represents info s saved current)

include h

theorem Represents.pushBackAll (values : List V)
    (hpages : Allocates info s current.length pages values.length)
    (htail : TailSafe info s current.length) :
    ∃ s', s.pushBackAll info pages values = some s' ∧
      Represents info s' saved (current ++ values) := by
  have hstart : Pushing info { s with hasTransactionalUpdates := true } {} pages saved current
      values.length :=
    { represents := h.activate
      active := rfl
      fresh := fun p hp => ⟨(hpages.fresh p hp).notAP, (hpages.fresh p hp).notPIP,
        (hpages.fresh p hp).noRecord⟩
      nodup := hpages.nodup
      room := hpages.room
      tail := htail
      pinned := fun p hp => by cases hp }
  obtain ⟨s', _, _, heq, hdone⟩ := hstart.pushAll values
  exact ⟨s', heq, hdone.represents⟩

theorem Represents.resize (newNumElements : Nat)
    (hpages : Allocates info s current.length pages (newNumElements - current.length))
    (htail : TailSafe info s current.length) :
    ∃ s', s.resize info pages newNumElements = some (s', current.length) ∧ Represents info s' saved
        (current ++ replicate (newNumElements - current.length) default) := by
  have hsize : s.getNumElements .checkpoint = current.length := h.writeSize
  obtain ⟨s', heq, hrep⟩ := h.pushBackAll (replicate (newNumElements - current.length) default)
    (by rwa [length_replicate]) htail
  exact ⟨s', by simp only [DiskArray.resize, hsize, heq, Option.map_some], hrep⟩

variable (info s) in
/-- The page of an element that is written may be written. -/
def WriteSafe (idx : Nat) : Prop :=
  ∀ p, info.apPage s.writeTable (idx / info.numElementsPerPage) = some p →
    Safe info s p

omit h in
theorem Holds.setElement (h : Holds info s saved current n) (hidx : idx < current.length)
    (hp : info.apPage s.writeTable (idx / info.numElementsPerPage) = some p)
    (hsafe : Safe info s p) (v : V) :
    Holds info (s.updatePage p false (·.set (idx % info.numElementsPerPage) v)) saved
      (current.set idx v) n := by
  have hlength : (current.set idx v).length = current.length := length_set
  refine Holds.write h (Nat.lt_of_lt_of_le (div_lt_numAPs hidx) h.numAPs_le) hp hsafe (by simp)
    ?_ ?_ (fun j hj _ => ?_) (fun j hj => ?_)
  · rw [hlength]
    exact h.le
  · rw [hlength]
    exact h.numAPs_le
  · rwa [hlength] at hj
  · rw [hlength] at hj
    rw [getElem?_set]
    by_cases hji : j = idx
    · rw [if_pos hji.symm, if_pos hji, if_pos (hji ▸ hj)]
    · rw [if_neg (Ne.symm hji), if_neg hji]

omit h in
theorem updatePage_fields (s : DiskArray V) (page : Nat) (isNew : Bool)
    (f : DiskPage V → DiskPage V) :
    (s.updatePage page isNew f).headerForWriteTrx = s.headerForWriteTrx ∧
      (s.updatePage page isNew f).lastAPPageIdx = s.lastAPPageIdx ∧
      (s.updatePage page isNew f).hasTransactionalUpdates = s.hasTransactionalUpdates := by
  unfold updatePage
  split
  · exact ⟨rfl, rfl, rfl⟩
  · exact ⟨rfl, rfl, rfl⟩

omit h in
theorem update_of_page (h : s.PIPsWF)
    (hp : info.apPage s.writeTable (idx / info.numElementsPerPage) = some p)
    (v : V) :
    s.update info idx v = some (updatePage { s with hasTransactionalUpdates := true } p
      false (·.set (idx % info.numElementsPerPage) v)) := by
  have hwf : PIPsWF { s with hasTransactionalUpdates := true } := ⟨h.last, h.linked⟩
  unfold update
  simp only [getAPPageIdx_checkpoint hwf]
  rw [show writeTable { s with hasTransactionalUpdates := true } = s.writeTable from rfl, hp]
  rfl

theorem Represents.update (hidx : idx < current.length) (v : V) (hsafe : WriteSafe info s idx) :
    ∃ s', s.update info idx v = some s' ∧ Represents info s' saved (current.set idx v) := by
  obtain ⟨p, hp, -⟩ := h.holds.mapped.pages _ (div_lt_numAPs hidx)
  refine ⟨_, update_of_page h.holds.wf hp v, ?_⟩
  have hholds := h.activate.holds.setElement hidx hp (hsafe p hp) v
  obtain ⟨hheader, hlast, hactive⟩ := updatePage_fields
    { s with hasTransactionalUpdates := true } p false
    (·.set (idx % info.numElementsPerPage) v)
  exact {
    holds := by
      rw [length_set]
      exact hholds
    writeSize := by
      rw [hheader, length_set]
      exact h.writeSize
    quiet := fun hquiet => by
      rw [hactive] at hquiet
      cases hquiet
    lastAP := fun q hq => by
      rw [hlast] at hq
      rw [length_set, writeTable_updatePage]
      exact h.lastAP q hq }

end DiskArray

end Lbug.Storage
