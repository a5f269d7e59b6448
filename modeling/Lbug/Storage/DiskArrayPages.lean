/-
  Storage/DiskArrayPages.lean --- the pages of a disk array.

  The PIPs are a two-level table from array pages to page indices (`lookup`).  The table
  of the checkpoint is made of `pips` and the pending updates; adding an array page
  changes it at one place only (`addAP_spec`), whichever of the three ways the source
  takes.  The contents of a page, seen through the shadow file, change at one page with
  every write (`content_updatePage`), and applying the shadow pages turns the file into
  what was seen (`applyShadowPages_eq`).
-/
import Lbug.Storage.DiskArray

namespace Lbug.Storage

open Foundation List Function Option

/-! ## Two-level tables -/

/-- A PIP as the table sees it: its page and its page indices. -/
abbrev PIPEntry := Nat × (Nat → Option Nat)

def PIPWrapper.entry (pip : PIPWrapper) : PIPEntry := (pip.pipPageIdx, pip.pipContents.pageIdxs)

/-- Set one page index. -/
def setEntryPage (e : PIPEntry) (offset page : Nat) : PIPEntry :=
  (e.1, update e.2 offset (some page))

/-- The page index of array page `a` in a table of PIPs with `C` page indices each. -/
def lookup (C : Nat) (table : List PIPEntry) (a : Nat) : Option Nat :=
  table[a / C]?.bind fun pip => pip.2 (a % C)

abbrev PageStorageInfo.apPage (info : PageStorageInfo) : List PIPEntry → Nat → Option Nat :=
  lookup info.numPageIdxsPerPIP

/-- The table has as many PIPs as `n` array pages need. -/
structure Covers (C : Nat) (table : List PIPEntry) (n : Nat) : Prop where
  le : n ≤ table.length * C
  needed : table = [] ∨ (table.length - 1) * C < n

variable {n C : Nat} {table : List PIPEntry}

theorem div_eq_of_covers (h : Covers C table n) (hlt : n < table.length * C) :
    n / C = table.length - 1 := by
  have hne : table ≠ [] := by
    rintro rfl
    simp at hlt
  have hlast := h.needed.resolve_left hne
  have hpos : 0 < table.length := length_pos_iff.mpr hne
  have hmul : table.length * C = (table.length - 1) * C + C := by
    rw [← Nat.succ_mul, Nat.succ_eq_add_one, Nat.sub_add_cancel hpos]
  refine Nat.div_eq_of_lt_le ?_ ?_
  · omega
  · rw [Nat.succ_mul]
    omega

variable {page : Nat}

/-- Setting one page index of one PIP. -/
theorem lookup_modify (hlt : n / C < table.length) (a : Nat) :
    lookup C (table.modify (n / C) (setEntryPage · (n % C) page)) a =
      if a = n then some page else lookup C table a := by
  unfold lookup
  rw [getElem?_modify]
  rcases eq_or_ne a n with rfl | han
  · rw [getElem?_eq_getElem hlt]
    simp [setEntryPage]
  rw [if_neg han]
  cases htable : table[a / C]? with
  | none => simp
  | some =>
    by_cases hdiv : n / C = a / C
    · have hmod : a % C ≠ n % C := fun hmod => han (Nat.ext_div_mod hdiv.symm hmod)
      simp [hdiv, hmod, setEntryPage]
    · simp [hdiv]

/-- A new PIP with one page index. -/
theorem lookup_append {pip : Nat} (hC : 0 < C) (hn : n = table.length * C) {a : Nat} (ha : a ≤ n) :
    lookup C (table ++ [setEntryPage (pip, fun _ => none) (n % C) page]) a =
      if a = n then some page else lookup C table a := by
  unfold lookup
  by_cases han : a = n
  · have hdiv : a / C = table.length := by rw [han, hn, Nat.mul_div_cancel _ hC]
    rw [hdiv]
    simp [han, setEntryPage]
  · have hlt : a / C < table.length := by
      rw [Nat.div_lt_iff_lt_mul hC]
      omega
    rw [if_neg han, getElem?_append_left hlt]

theorem Covers.append (hC : 0 < C) (hn : n = table.length * C) (e : PIPEntry) :
    Covers C (table ++ [e]) (n + 1) := by
  constructor
  · rw [length_append, length_singleton, Nat.add_mul]
    omega
  · right
    rw [length_append, length_singleton, Nat.add_sub_cancel]
    omega

theorem Covers.succ {i : Nat} {f : PIPEntry → PIPEntry} (h : Covers C table n)
    (hlt : n < table.length * C) : Covers C (table.modify i f) (n + 1) := by
  constructor
  · rw [length_modify]
    exact hlt
  · rw [length_modify]
    refine h.needed.imp (fun hnil => ?_) fun hlast => by omega
    rw [hnil]
    cases i <;> rfl

/-! ## Shadow pages -/

variable {q : Nat}

namespace ShadowFile

variable {V : Type} {s : ShadowFile V} {p q i : Nat}

/-- The map gives the last record of a page. -/
structure WF (s : ShadowFile V) : Prop where
  record : ∀ p i, s.shadowPagesMap p = some i → ∃ c, s.shadowPageRecords[i]? = some (p, c)
  latest : ∀ p i j c, s.shadowPagesMap p = some i → s.shadowPageRecords[j]? = some (p, c) → j ≤ i

theorem WF.lt (h : s.WF) (hi : s.shadowPagesMap p = some i) : i < s.shadowPageRecords.length := by
  obtain ⟨_, hc⟩ := h.record p i hi
  exact (List.getElem?_eq_some_iff.mp hc).1

theorem wf_empty : ({} : ShadowFile V).WF where
  record _ _ h := by cases h
  latest _ _ _ _ h := by cases h

theorem updatePage_of_some (hi : s.shadowPagesMap p = some i) (original : DiskPage V)
    (f : DiskPage V → DiskPage V) :
    s.updatePage p original f = { s with
      shadowPageRecords := s.shadowPageRecords.modify i fun r => (r.1, f r.2) } := by
  rw [updatePage, hi]

theorem updatePage_of_none (hp : s.shadowPagesMap p = none) (original : DiskPage V)
    (f : DiskPage V → DiskPage V) :
    s.updatePage p original f = {
      shadowPagesMap := update s.shadowPagesMap p (some s.shadowPageRecords.length)
      shadowPageRecords := s.shadowPageRecords ++ [(p, f original)] } := by
  rw [updatePage, hp]

theorem WF.clearShadowPage (h : s.WF) (p : Nat) : (s.clearShadowPage p).WF := by
  have hmap : ∀ q i, (s.clearShadowPage p).shadowPagesMap q = some i →
      s.shadowPagesMap q = some i := by
    intro q i hi
    rcases eq_or_ne q p with rfl | hq
    · simp [ShadowFile.clearShadowPage] at hi
    · simpa [ShadowFile.clearShadowPage, hq] using hi
  exact ⟨fun q i hi => h.record q i (hmap q i hi),
    fun q i j c hi hj => h.latest q i j c (hmap q i hi) hj⟩

theorem getShadowPage_clearShadowPage (s : ShadowFile V) (p q : Nat) :
    (s.clearShadowPage p).getShadowPage q = if q = p then none else s.getShadowPage q := by
  rcases eq_or_ne q p with rfl | hq
  · simp [clearShadowPage, getShadowPage]
  · simp [clearShadowPage, getShadowPage, hq]

section

variable (h : s.WF) (p : Nat) (original : DiskPage V) (f : DiskPage V → DiskPage V)

include h

theorem WF.updatePage : (s.updatePage p original f).WF := by
  cases hp : s.shadowPagesMap p with
  | some i =>
    rw [updatePage_of_some hp]
    constructor
    · intro q j hj
      obtain ⟨c, hc⟩ := h.record q j hj
      by_cases hij : i = j
      · exact ⟨f c, by simp [hc, hij]⟩
      · exact ⟨c, by simp [hc, hij]⟩
    · intro q j k c hj hk
      rw [getElem?_modify] at hk
      obtain ⟨⟨_, c'⟩, hc', heq⟩ := map_eq_some_iff.mp hk
      refine h.latest q j k c' hj ?_
      rw [hc']
      split at heq
      · cases heq
        rfl
      · cases heq
        rfl
  | none =>
    rw [updatePage_of_none hp]
    constructor
    · intro q j hj
      simp only at hj
      rcases eq_or_ne q p with rfl | hq
      · rw [update_self, some.injEq] at hj
        exact ⟨f original, by simp [← hj]⟩
      · rw [update_of_ne hq] at hj
        obtain ⟨c, hc⟩ := h.record q j hj
        exact ⟨c, by rw [getElem?_append_left (h.lt hj), hc]⟩
    · intro q j k c hj hk
      simp only at hj hk
      have hk' := (List.getElem?_eq_some_iff.mp hk).1
      rw [length_append, length_singleton] at hk'
      rcases eq_or_ne q p with rfl | hq
      · rw [update_self, some.injEq] at hj
        omega
      rw [update_of_ne hq] at hj
      rcases Nat.lt_or_ge k s.shadowPageRecords.length with hlt | hge
      · rw [getElem?_append_left hlt] at hk
        exact h.latest q j k c hj hk
      · -- the record that was added is one of `p`
        rw [getElem?_append_right hge, show k - s.shadowPageRecords.length = 0 by omega] at hk
        simp only [getElem?_cons_zero, some.injEq, Prod.mk.injEq] at hk
        exact absurd hk.1.symm hq

/-- A write changes one shadow page. -/
theorem getShadowPage_updatePage (q : Nat) : (s.updatePage p original f).getShadowPage q =
      if q = p then some (f ((s.getShadowPage p).getD original)) else s.getShadowPage q := by
  unfold getShadowPage
  cases hp : s.shadowPagesMap p with
  | some i =>
    rw [updatePage_of_some hp]
    obtain ⟨_, hc⟩ := h.record p i hp
    rcases eq_or_ne q p with rfl | hq
    · simp [hp, hc]
    rw [if_neg hq]
    cases hj : s.shadowPagesMap q with
    | none => rfl
    | some j =>
      obtain ⟨_, hc'⟩ := h.record q j hj
      have hij : i ≠ j := by
        rintro rfl
        rw [hc] at hc'
        cases hc'
        exact hq rfl
      simp [hij]
  | none =>
    rw [updatePage_of_none hp]
    rcases eq_or_ne q p with rfl | hq
    · simp
    · simp only [update_of_ne hq, if_neg hq]
      cases hj : s.shadowPagesMap q with
      | none => rfl
      | some => simp [getElem?_append_left (h.lt hj)]

theorem mem_records_updatePage (q : Nat) :
    q ∈ (s.updatePage p original f).shadowPageRecords.map Prod.fst ↔
      q ∈ s.shadowPageRecords.map Prod.fst ∨ q = p := by
  cases hp : s.shadowPagesMap p with
  | some i =>
    rw [updatePage_of_some hp]
    obtain ⟨_, hc⟩ := h.record p i hp
    have hpmem : p ∈ s.shadowPageRecords.map Prod.fst := mem_map.mpr ⟨_, mem_of_getElem? hc, rfl⟩
    have hfst : (s.shadowPageRecords.modify i fun r => (r.1, f r.2)).map Prod.fst =
        s.shadowPageRecords.map Prod.fst := by
      apply ext_getElem?
      intro n
      rw [getElem?_map, getElem?_map, getElem?_modify]
      cases s.shadowPageRecords[n]? with
      | none => rfl
      | some =>
        by_cases hin : i = n
        · simp [hin]
        · simp [hin]
    simp only [hfst]
    constructor
    · exact .inl
    · rintro (hq | rfl)
      · exact hq
      · exact hpmem
  | none =>
    rw [updatePage_of_none hp]
    simp [eq_comm]

end

/-- A write leaves a page in the map, together with those that were in it. -/
theorem map_updatePage_ne_none (s : ShadowFile V) (p : Nat) (original : DiskPage V)
    (f : DiskPage V → DiskPage V) (hq : q = p ∨ s.shadowPagesMap q ≠ none) :
    (s.updatePage p original f).shadowPagesMap q ≠ none := by
  cases hp : s.shadowPagesMap p with
  | some =>
    rw [updatePage_of_some hp]
    rcases hq with rfl | hq
    · simp [hp]
    · exact hq
  | none =>
    rw [updatePage_of_none hp]
    rcases eq_or_ne q p with rfl | heq
    · simp
    · simpa [heq] using hq.resolve_left heq

/-- Applying the shadow pages gives a page the contents of its shadow page, if all its
records are in the map. -/
theorem applyShadowPages_eq (h : s.WF) (file : Nat → DiskPage V)
    (hp : p ∈ s.shadowPageRecords.map Prod.fst → s.shadowPagesMap p ≠ none) :
    s.applyShadowPages file p = (s.getShadowPage p).getD (file p) := by
  unfold applyShadowPages getShadowPage
  cases hi : s.shadowPagesMap p with
  | none => exact writeAll_of_notMem (fun hmem => hp hmem hi) file
  | some i =>
    obtain ⟨_, hc⟩ := h.record p i hi
    rw [writeAll_of_last hc fun j c' hj => h.latest p i j c' hi hj]
    simp [hc]

end ShadowFile

/-! ## The tables of an array -/

namespace DiskArray

variable {V : Type} {info : PageStorageInfo} {s s' : DiskArray V} {u : PIPWrapper}

/-- The PIPs that other transactions read. -/
def readTable (s : DiskArray V) : List PIPEntry := s.pips.map PIPWrapper.entry

/-- The existing PIPs as the checkpoint sees them: the last one may be updated. -/
def basePIPs (pips : List PIPWrapper) (updates : PIPUpdates) : List PIPWrapper :=
  match updates.updatedLastPIP with
  | some last => pips.dropLast ++ [last]
  | none => pips

def writePIPs (s : DiskArray V) : List PIPWrapper :=
  basePIPs s.pips s.pipUpdates ++ s.pipUpdates.newPIPs

def writeTable (s : DiskArray V) : List PIPEntry := s.writePIPs.map PIPWrapper.entry

/-- What the updates of the PIPs look like at any time. -/
structure PIPsWF (s : DiskArray V) : Prop where
  last : ∀ u, s.pipUpdates.updatedLastPIP = some u →
    ∃ l, s.pips.getLast? = some l ∧ u.pipPageIdx = l.pipPageIdx
  linked : s.pips ≠ [] → s.pipUpdates.newPIPs ≠ [] → s.pipUpdates.updatedLastPIP.isSome = true

theorem writePIPs_of_none (hu : s.pipUpdates.updatedLastPIP = none) :
    s.writePIPs = s.pips ++ s.pipUpdates.newPIPs := by
  rw [writePIPs, basePIPs, hu]

theorem writePIPs_of_some (hu : s.pipUpdates.updatedLastPIP = some u) :
    s.writePIPs = (s.pips.dropLast ++ [u]) ++ s.pipUpdates.newPIPs := by
  rw [writePIPs, basePIPs, hu]

theorem PIPsWF.pips_pos (h : s.PIPsWF) (hu : s.pipUpdates.updatedLastPIP = some u) :
    0 < s.pips.length := by
  obtain ⟨_, hl, -⟩ := h.last u hu
  refine length_pos_iff.mpr fun heq => ?_
  rw [heq] at hl
  cases hl

theorem length_basePIPs (h : s.PIPsWF) : (basePIPs s.pips s.pipUpdates).length = s.pips.length := by
  unfold basePIPs
  cases hu : s.pipUpdates.updatedLastPIP with
  | none => rfl
  | some =>
    have hpos := h.pips_pos hu
    simp only [length_append, length_dropLast, length_singleton]
    omega

theorem length_writePIPs (h : s.PIPsWF) :
    s.writePIPs.length = s.pips.length + s.pipUpdates.newPIPs.length := by
  rw [writePIPs, length_append, length_basePIPs h]

theorem getAPPageIdx_read (s : DiskArray V) (a : Nat) :
    s.getAPPageIdx info a .read = info.apPage s.readTable a := by
  simp only [getAPPageIdx, lookup, readTable, getElem?_map]
  cases s.pips[a / info.numPageIdxsPerPIP]? <;> rfl

theorem getAPPageIdx_checkpoint (h : s.PIPsWF) (a : Nat) :
    s.getAPPageIdx info a .checkpoint = info.apPage s.writeTable a := by
  have hpip : (if (ArrayAccess.checkpoint ≠ .checkpoint ∨
        s.hasPIPUpdates (a / info.numPageIdxsPerPIP) = false) then
        s.pips[a / info.numPageIdxsPerPIP]?
      else if a / info.numPageIdxsPerPIP + 1 = s.pips.length ∧
          s.pipUpdates.updatedLastPIP.isSome then s.pipUpdates.updatedLastPIP
      else s.pipUpdates.newPIPs[a / info.numPageIdxsPerPIP - s.pips.length]?) =
      s.writePIPs[a / info.numPageIdxsPerPIP]? := by
    generalize a / info.numPageIdxsPerPIP = k
    unfold hasPIPUpdates
    cases hu : s.pipUpdates.updatedLastPIP with
    | none =>
      rw [writePIPs_of_none hu]
      by_cases hk : s.pips.length ≤ k
      · rw [getElem?_append_right hk]
        simp [hk]
      · rw [getElem?_append_left (by omega)]
        simp [hk]
    | some u =>
      have hpos := h.pips_pos hu
      rw [writePIPs_of_some hu]
      have hlen : (s.pips.dropLast ++ [u]).length = s.pips.length := by
        simp only [length_append, length_dropLast, length_singleton]
        omega
      rcases Nat.lt_trichotomy (k + 1) s.pips.length with hlt | heq | hgt
      · rw [getElem?_append_left (by omega), getElem?_append_left (by simp; omega)]
        simp [Nat.not_le.mpr (show k < s.pips.length by omega), Nat.ne_of_lt hlt,
          show k < s.pips.length - 1 by omega]
      · rw [getElem?_append_left (by omega), getElem?_append_right (by simp; omega)]
        simp [heq, show k - (s.pips.length - 1) = 0 by omega]
      · rw [getElem?_append_right (by omega), hlen]
        simp [show s.pips.length ≤ k by omega, show ¬ k + 1 = s.pips.length by omega]
  simp only [getAPPageIdx, lookup, writeTable, getElem?_map]
  rw [hpip]
  cases s.writePIPs[a / info.numPageIdxsPerPIP]? <;> rfl

/-! ## Contents -/

section Content

/-- A page as the checkpoint sees it. -/
def content (s : DiskArray V) (p : Nat) : DiskPage V :=
  (s.shadowFile.getShadowPage p).getD (s.file p)

variable [Inhabited V]

/-- No page that is written in place has a shadow page. -/
theorem content_updatePage (h : s.shadowFile.WF) (p : Nat) (f : DiskPage V → DiskPage V)
    (isNew : Bool) (hp : s.shadows p = false → s.shadowFile.shadowPagesMap p = none) (q : Nat) :
    (s.updatePage p isNew f).content q =
      if q = p then f (if isNew ∧ s.shadows p ∧ s.shadowFile.getShadowPage p = none then
          .array fun _ => default
        else s.content p)
      else s.content q := by
  unfold updatePage
  by_cases hshadows : s.shadows p = true
  · rw [if_pos hshadows]
    simp only [content, ShadowFile.getShadowPage_updatePage h]
    rcases eq_or_ne q p with rfl | hq
    · cases hpage : s.shadowFile.getShadowPage q with
      | none => cases isNew <;> simp [hshadows]
      | some => simp
    · simp [hq]
  · rw [if_neg hshadows]
    have hnone := hp (by simpa using hshadows)
    have hpage : s.shadowFile.getShadowPage p = none := by simp [ShadowFile.getShadowPage, hnone]
    rcases eq_or_ne q p with rfl | hq
    · simp [content, hpage, hshadows]
    · simp [content, hq]

theorem file_updatePage (s : DiskArray V) (p : Nat) (f : DiskPage V → DiskPage V) (isNew : Bool)
    (hq : q = p → s.shadows p = true) : (s.updatePage p isNew f).file q = s.file q := by
  unfold updatePage
  split
  · rfl
  · rename_i hshadows
    exact update_of_ne (fun heq => hshadows (hq heq)) _ _

variable (h : s.shadowFile.WF) (p : Nat) (f : DiskPage V → DiskPage V) (isNew : Bool)

include h

theorem shadowFile_updatePage_wf : (s.updatePage p isNew f).shadowFile.WF := by
  unfold updatePage
  split
  · exact h.updatePage p _ f
  · exact h

theorem mem_records_updatePage
    (hq : q ∈ (s.updatePage p isNew f).shadowFile.shadowPageRecords.map Prod.fst) :
    q ∈ s.shadowFile.shadowPageRecords.map Prod.fst ∨ (q = p ∧ s.shadows p = true) := by
  unfold updatePage at hq
  split at hq
  · rename_i hshadows
    rw [ShadowFile.mem_records_updatePage h] at hq
    exact hq.imp_right fun heq => ⟨heq, hshadows⟩
  · exact .inl hq

end Content

/-! ## Adding an array page -/

section Modify

variable {α β : Type}

variable (f : α → α)

theorem modify_append_right (l l' : List α) (i : Nat) :
    (l ++ l').modify (l.length + i) f = l ++ l'.modify i f := by
  induction l with
  | nil => simp
  | cons _ _ ih =>
    rw [cons_append, length_cons, Nat.add_right_comm, modify_succ_cons, ih]
    rfl

theorem modify_concat (l : List α) (x : α) : (l ++ [x]).modify l.length f = l ++ [f x] :=
  modify_append_right f l [x] 0

theorem map_modify (g : α → β) (f' : β → β) (h : ∀ a, g (f a) = f' (g a)) (l : List α) (i : Nat) :
    (l.modify i f).map g = (l.map g).modify i f' := by
  induction l generalizing i with
  | nil => cases i <;> rfl
  | cons _ _ ih =>
    cases i with
    | zero => simp [h]
    | succ => simp [ih]

end Modify

/-- The link to the next PIP is no part of the table. -/
theorem map_entry_modify_setNext (l : List PIPWrapper) (i next : Nat) :
    (l.modify i (·.setNext next)).map PIPWrapper.entry = l.map PIPWrapper.entry := by
  rw [map_modify (·.setNext next) PIPWrapper.entry id fun _ => rfl, modify_id]

theorem map_entry_modify_setPageIdx (l : List PIPWrapper) (i offset page : Nat) :
    (l.modify i (·.setPageIdx offset page)).map PIPWrapper.entry =
      (l.map PIPWrapper.entry).modify i (setEntryPage · offset page) :=
  map_modify _ _ (setEntryPage · offset page) (fun _ => rfl) l i

/-- The array page with index `n` was added on the first of the pages. -/
structure AddedAP (info : PageStorageInfo) (s s' : DiskArray V) (n page : Nat)
    (pages pages' : List Nat) : Prop where
  same : ∃ updates first, s' = { s with
    pipUpdates := updates
    headerForWriteTrx := { s.headerForWriteTrx with firstPIPPageIdx := first } }
  wf : s'.PIPsWF
  lookup : ∀ a ≤ n, info.apPage s'.writeTable a =
    if a = n then some page else info.apPage s.writeTable a
  covers : Covers info.numPageIdxsPerPIP s'.writeTable (n + 1)
  pages : ∃ used, pages = page :: used ++ pages' ∧ used.length ≤ 1 ∧
    ∀ p ∈ s'.writeTable.map Prod.fst, p ∈ s.writeTable.map Prod.fst ∨ p ∈ used

/-- One page index of one PIP is set. -/
theorem addedAP_of_modify {pages : List Nat} {updates : PIPUpdates}
    (hcovers : Covers info.numPageIdxsPerPIP s.writeTable n)
    (hlt : n < s.writeTable.length * info.numPageIdxsPerPIP)
    (hwf : PIPsWF { s with pipUpdates := updates })
    (hpips : writePIPs { s with pipUpdates := updates } =
      s.writePIPs.modify (n / info.numPageIdxsPerPIP)
        (·.setPageIdx (n % info.numPageIdxsPerPIP) page)) :
    AddedAP info s { s with pipUpdates := updates } n page (page :: pages) pages := by
  have htable : writeTable { s with pipUpdates := updates } =
      s.writeTable.modify (n / info.numPageIdxsPerPIP)
        (setEntryPage · (n % info.numPageIdxsPerPIP) page) := by
    rw [writeTable, hpips]
    exact map_entry_modify_setPageIdx _ _ _ _
  refine ⟨⟨updates, s.headerForWriteTrx.firstPIPPageIdx, rfl⟩, hwf, fun a _ => ?_, ?_, [], rfl,
    Nat.zero_le 1, fun p hp => .inl ?_⟩
  · rw [htable]
    exact lookup_modify ((Nat.div_lt_iff_lt_mul info.numPageIdxsPerPIP_pos).mpr hlt) a
  · rw [htable]
    exact hcovers.succ hlt
  · have hfst : ∀ e : PIPEntry,
        (setEntryPage e (n % info.numPageIdxsPerPIP) page).1 = id e.1 := fun _ => rfl
    rw [htable, map_modify _ _ _ hfst, modify_id] at hp
    exact hp

/-- The last existing PIP as the checkpoint sees it. -/
theorem PIPsWF.exists_last (h : s.PIPsWF) {l : PIPWrapper} (hl : s.pips.getLast? = some l) :
    ∃ last, s.pipUpdates.updatedLastPIP.or (some l) = some last ∧
      basePIPs s.pips s.pipUpdates = s.pips.dropLast ++ [last] ∧
      last.pipPageIdx = l.pipPageIdx := by
  unfold basePIPs
  cases hu : s.pipUpdates.updatedLastPIP with
  | none =>
    obtain ⟨_, hfront⟩ := getLast?_eq_some_iff.mp hl
    exact ⟨l, rfl, by rw [hfront, dropLast_concat], rfl⟩
  | some u =>
    obtain ⟨_, hl', hpage⟩ := h.last u hu
    rw [hl] at hl'
    cases hl'
    exact ⟨u, rfl, rfl, hpage⟩

/-- Linking a new PIP changes no page index. -/
theorem setNextPIPPageIdxOfPIP_spec (h : s.PIPsWF) (pipPage : Nat) (newPIPs : List PIPWrapper) :
    ∃ updates first, setNextPIPPageIdxOfPIP
        { s with pipUpdates := { s.pipUpdates with newPIPs := newPIPs } }
        (if s.writePIPs.length = 0 then none else some (s.writePIPs.length - 1)) pipPage =
        some { s with
          pipUpdates := updates
          headerForWriteTrx := { s.headerForWriteTrx with firstPIPPageIdx := first } } ∧
      (basePIPs s.pips updates).map PIPWrapper.entry =
        (basePIPs s.pips s.pipUpdates).map PIPWrapper.entry ∧
      updates.newPIPs.map PIPWrapper.entry = newPIPs.map PIPWrapper.entry ∧
      PIPsWF { s with pipUpdates := updates } := by
  have hlength := length_writePIPs h
  by_cases hzero : s.writePIPs.length = 0
  · -- the first PIP of all
    have hpips : s.pips = [] := length_eq_zero_iff.mp (by omega)
    rw [if_pos hzero]
    exact ⟨_, some pipPage, rfl, rfl, rfl, h.last, fun hne => absurd hpips hne⟩
  rw [if_neg hzero]
  simp only [setNextPIPPageIdxOfPIP]
  by_cases hpips : s.pips = []
  · simp only [hpips]
    refine ⟨⟨s.pipUpdates.updatedLastPIP, _⟩, s.headerForWriteTrx.firstPIPPageIdx, rfl, rfl,
      map_entry_modify_setNext _ _ _, fun u hu => ?_, fun hne => absurd rfl hne⟩
    rw [← hpips]
    exact h.last u hu
  · simp only [hpips]
    have hpos := length_pos_iff.mpr hpips
    by_cases hfirst : s.pipUpdates.newPIPs = []
    · -- the new PIP follows the last one of `pips`
      have hlast : s.writePIPs.length - 1 + 1 = s.pips.length := by
        rw [hfirst, length_nil] at hlength
        omega
      have hprevious : s.pips[s.writePIPs.length - 1]? = s.pips.getLast? := by
        rw [getLast?_eq_getElem?, ← hlast, Nat.add_sub_cancel]
      obtain ⟨l, hl⟩ : ∃ l, s.pips.getLast? = some l := ⟨_, getLast?_eq_some_getLast hpips⟩
      obtain ⟨_, hor, hbase, hpage⟩ := h.exists_last hl
      rw [hprevious, hl, hor]
      simp only [hlast]
      refine ⟨_, s.headerForWriteTrx.firstPIPPageIdx, rfl, ?_, rfl, ?_, fun _ _ => rfl⟩
      · rw [hbase]
        simp only [basePIPs, map_append]
        rfl
      · rintro u ⟨⟩
        exact ⟨l, hl, hpage⟩
    · obtain ⟨u, hu⟩ := isSome_iff_exists.mp (h.linked hpips hfirst)
      have hnewLen := length_pos_iff.mpr hfirst
      have hlast : ¬ s.writePIPs.length - 1 + 1 = s.pips.length := by omega
      rw [hu, some_or]
      simp only [hlast]
      refine ⟨_, s.headerForWriteTrx.firstPIPPageIdx, rfl, ?_, map_entry_modify_setNext _ _ _, ?_,
        fun _ _ => rfl⟩
      · simp only [basePIPs, hu]
      · rintro u' ⟨⟩
        exact h.last u hu

/-- `getAPPageIdxAndAddAPToPIPIfNecessary` for the array page behind the last one. -/
theorem existingOrNew_spec (h : s.PIPsWF) (page pip : Nat) (rest : List Nat)
    (hcovers : Covers info.numPageIdxsPerPIP s.writeTable n) :
    ∃ s' pages', getAPPageIdxAndAddAPToPIPIfNecessary.existingOrNew info s (page :: pip :: rest) n n
        = some (s', page, true, pages') ∧
      AddedAP info s s' n page (page :: pip :: rest) pages' := by
  have hC := info.numPageIdxsPerPIP_pos
  have hlength := length_writePIPs h
  have htable : s.writeTable.length = s.writePIPs.length := length_map _
  simp only [getAPPageIdxAndAddAPToPIPIfNecessary.existingOrNew, Nat.lt_irrefl]
  by_cases hold : n / info.numPageIdxsPerPIP < s.pips.length
  · -- the last PIP of `pips` has room
    have hlt : n < s.writeTable.length * info.numPageIdxsPerPIP := by
      rw [← Nat.div_lt_iff_lt_mul hC]
      omega
    have hdiv := div_eq_of_covers hcovers hlt
    have hnone : s.pipUpdates.newPIPs = [] := length_eq_zero_iff.mp (by omega)
    have hindex : n / info.numPageIdxsPerPIP = s.pips.length - 1 := by omega
    obtain ⟨l, hl⟩ : ∃ l, s.pips.getLast? = some l :=
      ⟨_, getLast?_eq_some_getLast (length_pos_iff.mp (by omega))⟩
    obtain ⟨last, hor, hbase, hpage⟩ := h.exists_last hl
    rw [if_pos hold, hindex, ← getLast?_eq_getElem?, hl, hor]
    refine ⟨_, _, rfl, addedAP_of_modify hcovers hlt ⟨?_, fun _ hne => ?_⟩ ?_⟩
    · rintro u ⟨⟩
      exact ⟨l, hl, hpage⟩
    · exact absurd hnone hne
    · rw [writePIPs, writePIPs, hbase, hnone, append_nil, append_nil, hindex]
      have hconcat := modify_concat
        (fun pip : PIPWrapper => pip.setPageIdx (n % info.numPageIdxsPerPIP) page)
        s.pips.dropLast last
      rw [length_dropLast] at hconcat
      exact hconcat.symm
  · rw [if_neg hold]
    by_cases hnew : n / info.numPageIdxsPerPIP - s.pips.length < s.pipUpdates.newPIPs.length
    · -- the last new PIP has room
      have hlt : n < s.writeTable.length * info.numPageIdxsPerPIP := by
        rw [← Nat.div_lt_iff_lt_mul hC]
        omega
      rw [if_pos hnew]
      refine ⟨_, _, rfl, addedAP_of_modify hcovers hlt ⟨h.last, fun hne _ => h.linked hne ?_⟩ ?_⟩
      · exact length_pos_iff.mp (by omega)
      · show basePIPs s.pips s.pipUpdates ++ _ = (basePIPs s.pips s.pipUpdates ++ _).modify _ _
        rw [← modify_append_right, length_basePIPs h, Nat.add_sub_cancel' (Nat.not_lt.mp hold)]
    · -- a new PIP
      have hn : n = s.writeTable.length * info.numPageIdxsPerPIP := by
        refine Nat.le_antisymm hcovers.le ((Nat.le_div_iff_mul_le hC).mp ?_)
        omega
      have hindex : n / info.numPageIdxsPerPIP = s.writePIPs.length := by
        rw [hn, Nat.mul_div_cancel _ hC, htable]
      obtain ⟨updates, first, heq, hbase, hnewPIPs, hwf⟩ :=
        setNextPIPPageIdxOfPIP_spec h pip (s.pipUpdates.newPIPs ++ [⟨pip, {}⟩])
      have hlen : updates.newPIPs.length = s.pipUpdates.newPIPs.length + 1 := by
        have := congrArg length hnewPIPs
        rwa [length_map, length_map, length_append] at this
      -- the table has one more PIP, with one page index
      let newPIPs := updates.newPIPs.modify (updates.newPIPs.length - 1)
        (·.setPageIdx (n % info.numPageIdxsPerPIP) page)
      let s' := { s with
        pipUpdates := { updates with newPIPs := newPIPs }
        headerForWriteTrx := { s.headerForWriteTrx with firstPIPPageIdx := first } }
      have htable' : s'.writeTable =
          s.writeTable ++ [setEntryPage (pip, fun _ => none) (n % info.numPageIdxsPerPIP)
            page] := by
        have hconcat := modify_concat (setEntryPage · (n % info.numPageIdxsPerPIP) page)
          (s.pipUpdates.newPIPs.map PIPWrapper.entry) (pip, fun _ => none)
        rw [length_map] at hconcat
        show map _ (basePIPs s.pips updates ++ newPIPs) = _
        rw [map_append, hbase, map_entry_modify_setPageIdx, hnewPIPs, hlen, map_append, writeTable,
          writePIPs, map_append, append_assoc, ← hconcat]
        rfl
      rw [if_neg hnew]
      simp only [hindex, heq]
      refine ⟨s', rest, rfl, ⟨_, first, rfl⟩, ⟨hwf.last, fun hne _ => hwf.linked hne ?_⟩,
        fun a ha => ?_,
        ?_, [pip], rfl, Nat.le_refl 1, fun p hp => ?_⟩
      · exact length_pos_iff.mp (show 0 < updates.newPIPs.length by omega)
      · rw [htable']
        exact lookup_append hC hn ha
      · rw [htable']
        exact Covers.append hC hn _
      · rw [htable', map_append, mem_append] at hp
        exact hp

end DiskArray

end Lbug.Storage
