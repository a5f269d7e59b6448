/-
  Storage/FreeSpaceManager.lean --- free page ranges of the data file.

  Source: `storage/free_space_manager.cpp`, `include/storage/page_range.h`.

  Free ranges are kept in lists by size: level `l` has the ranges of at least `2^l` and
  less than `2^(l+1)` pages, sorted by size.  Ranges that were freed since the last
  checkpoint wait in a list of their own.  Merging sorts all of them by their first page
  and joins neighbours; if the last one ends the file, the file is cut instead.

  Each operation is described by what it does to the pages of the free lists
  (`pages_addFreePages`, `pages_popFreePages`, `coalesced_mergePageRanges`).  The ranges
  stay in the lists of their levels (`Leveled`), so the first one that is found to be large
  enough is the smallest one.

  A page index is a 32-bit number in the source; files of `2^32` pages are not modelled.
  The frames of evicted pages are not modelled either.
-/
import Mathlib.Data.List.Sort
import Mathlib.Data.List.Nodup
import Mathlib.Data.List.Range

namespace Lbug.Storage

open List

structure PageRange where
  startPageIdx : Nat
  numPages : Nat
  deriving DecidableEq, Repr

variable {p : Nat}

namespace PageRange

def endPageIdx (r : PageRange) : Nat := r.startPageIdx + r.numPages

def pages (r : PageRange) : List Nat := List.range' r.startPageIdx r.numPages

/-- No page is in both ranges. -/
def Disjoint (r r' : PageRange) : Prop := List.Disjoint r.pages r'.pages

theorem mem_pages {r : PageRange} : p ∈ r.pages ↔ r.startPageIdx ≤ p ∧ p < r.endPageIdx := by
  rw [pages, mem_range'_1, endPageIdx]

theorem nodup_pages (r : PageRange) : r.pages.Nodup := nodup_range'

end PageRange

/-- The pages of a list of ranges. -/
def pagesOf (ranges : List PageRange) : List Nat := ranges.flatMap PageRange.pages

structure FreeSpaceManager where
  freeLists : List (List PageRange) := []
  uncheckpointedFreePageRanges : List PageRange := []
  numEntries : Nat := 0
  deriving DecidableEq, Repr

instance : Std.Total fun a b : PageRange => a.startPageIdx ≤ b.startPageIdx :=
  ⟨fun a b => le_total a.startPageIdx b.startPageIdx⟩

instance : IsTrans PageRange fun a b => a.startPageIdx ≤ b.startPageIdx :=
  ⟨fun _ _ _ => le_trans⟩

namespace FreeSpaceManager

/-- The exponent of the largest power of 2 that is at most `numPages`; `bit_floor(0)` is 0,
which has 32 trailing zeros. -/
def getLevel (numPages : Nat) : Nat := if numPages = 0 then 32 else Nat.log2 numPages

def entryCmp (a b : PageRange) : Bool :=
  if a.numPages = b.numPages then a.startPageIdx < b.startPageIdx else a.numPages < b.numPages

/-- The lists with at least `level + 1` levels. -/
def getFreeLists (freeLists : List (List PageRange)) (level : Nat) : List (List PageRange) :=
  freeLists ++ List.replicate (level + 1 - freeLists.length) []

/-- `insert` of a sorted set, for an entry that is not in it. -/
def insertEntry (entry : PageRange) : List PageRange → List PageRange
  | [] => [entry]
  | e :: rest => if entryCmp entry e then entry :: e :: rest else e :: insertEntry entry rest

section

variable (fsm : FreeSpaceManager)

def addFreePages (entry : PageRange) : FreeSpaceManager :=
  let entryLevel := getLevel entry.numPages
  let freeLists := getFreeLists fsm.freeLists entryLevel
  let freeList := freeLists.getD entryLevel []
  if freeList.contains entry then { fsm with freeLists }
  else
    { fsm with
      freeLists := freeLists.set entryLevel (insertEntry entry freeList)
      numEntries := fsm.numEntries + 1 }

def addUncheckpointedFreePages (entry : PageRange) : FreeSpaceManager :=
  { fsm with uncheckpointedFreePageRanges := fsm.uncheckpointedFreePageRanges ++ [entry] }

def rollbackCheckpoint : FreeSpaceManager :=
  { fsm with uncheckpointedFreePageRanges := [] }

/-- Returns the first pages of the range and keeps the others. -/
def splitPageRange (chunk : PageRange) (numRequiredPages : Nat) : FreeSpaceManager × PageRange :=
  let ret := ⟨chunk.startPageIdx, numRequiredPages⟩
  if numRequiredPages < chunk.numPages then
    (fsm.addFreePages ⟨chunk.startPageIdx + numRequiredPages,
      chunk.numPages - numRequiredPages⟩, ret)
  else (fsm, ret)

/-- The loop of `popFreePages` over the levels: take the smallest range that is large
enough. -/
def popFrom (numPages : Nat) : List (List PageRange) → Option (PageRange × List (List PageRange))
  | [] => none
  | curList :: rest =>
    match curList.find? fun e => !entryCmp e ⟨0, numPages⟩ with
    | some entry => some (entry, curList.erase entry :: rest)
    | none => (popFrom numPages rest).map fun p => (p.1, curList :: p.2)

def popFreePages (numPages : Nat) : FreeSpaceManager × Option PageRange :=
  if 0 < numPages then
    let level := getLevel numPages
    match popFrom numPages (fsm.freeLists.drop level) with
    | some (entry, rest) =>
      let fsm := { fsm with
        freeLists := fsm.freeLists.take level ++ rest
        numEntries := fsm.numEntries - 1 }
      let (fsm, ret) := fsm.splitPageRange entry numPages
      (fsm, some ret)
    | none => (fsm, none)
  else (fsm, none)

end

/-- Two ranges that overlap or are adjacent, as one. -/
def joinPageRanges (prevEntry entry : PageRange) : PageRange :=
  let prevEnd := prevEntry.startPageIdx + prevEntry.numPages
  let entryEnd := entry.startPageIdx + entry.numPages
  { prevEntry with
    numPages := (if entryEnd ≤ prevEnd then prevEnd else entryEnd) - prevEntry.startPageIdx }

/-- The loop of `mergePageRanges` over the sorted entries; a range is added when the next
one does not touch it.  The result is the last range. -/
def mergeLoop : FreeSpaceManager → PageRange → List PageRange → FreeSpaceManager × PageRange
  | fsm, prevEntry, [] => (fsm, prevEntry)
  | fsm, prevEntry, entry :: rest =>
    if entry.startPageIdx ≤ prevEntry.startPageIdx + prevEntry.numPages then
      mergeLoop fsm (joinPageRanges prevEntry entry) rest
    else mergeLoop (fsm.addFreePages prevEntry) entry rest

section

variable (fsm : FreeSpaceManager)

/-- The second result is the number of pages of the file. -/
def handleLastPageRange (pageRange : PageRange) (fileNumPages : Nat) : FreeSpaceManager × Nat :=
  if pageRange.startPageIdx + pageRange.numPages = fileNumPages then
    (fsm, min fileNumPages pageRange.startPageIdx)
  else (fsm.addFreePages pageRange, fileNumPages)

def mergePageRanges (newInitialEntries : List PageRange) (fileNumPages : Nat) :
    FreeSpaceManager × Nat :=
  match (newInitialEntries ++ fsm.freeLists.flatten).insertionSort
      fun a b => a.startPageIdx ≤ b.startPageIdx with
  | [] => (fsm, fileNumPages)
  | first :: rest =>
    let (fsm, last) := mergeLoop { fsm with freeLists := [], numEntries := 0 } first rest
    fsm.handleLastPageRange last fileNumPages

/-- `mergeFreePages`; `finalizeCheckpoint` does the same. -/
def mergeFreePages (fileNumPages : Nat) : FreeSpaceManager × Nat :=
  let (merged, fileNumPages) := fsm.mergePageRanges fsm.uncheckpointedFreePageRanges fileNumPages
  ({ merged with uncheckpointedFreePageRanges := [] }, fileNumPages)

def finalizeCheckpoint (fileNumPages : Nat) : FreeSpaceManager × Nat :=
  fsm.mergeFreePages fileNumPages

/-- The ranges of all free lists, in the order of `FreeEntryIterator`. -/
def freeEntries : List PageRange := fsm.freeLists.flatten

def freePages : List Nat := pagesOf fsm.freeEntries

end

end FreeSpaceManager

/-! ## Pages of lists of ranges -/

theorem pagesOf_cons (r : PageRange) (ranges : List PageRange) :
    pagesOf (r :: ranges) = r.pages ++ pagesOf ranges := rfl

@[simp] theorem pagesOf_singleton (r : PageRange) : pagesOf [r] = r.pages := by
  rw [pagesOf, flatMap_singleton]

theorem pagesOf_append (ranges ranges' : List PageRange) :
    pagesOf (ranges ++ ranges') = pagesOf ranges ++ pagesOf ranges' :=
  flatMap_append

variable {ranges : List PageRange} {ranges' : List PageRange}

theorem pagesOf_perm (h : ranges.Perm ranges') : (pagesOf ranges).Perm (pagesOf ranges') :=
  h.flatMap_right _

theorem mem_pagesOf : p ∈ pagesOf ranges ↔ ∃ r ∈ ranges, p ∈ r.pages := mem_flatMap

/-- Ranges whose pages are all different are disjoint. -/
theorem pairwise_disjoint_of_nodup (h : (pagesOf ranges).Nodup) :
    ranges.Pairwise PageRange.Disjoint :=
  (nodup_flatMap.mp h).2

theorem disjoint_of_nodup_append (h : (pagesOf ranges ++ pagesOf ranges').Nodup) :
    ∀ r ∈ ranges, ∀ r' ∈ ranges', r.Disjoint r' := by
  intro r hr r' hr' p hp hp'
  exact List.disjoint_of_nodup_append h (mem_pagesOf.mpr ⟨r, hr, hp⟩)
    (mem_pagesOf.mpr ⟨r', hr', hp'⟩)

namespace FreeSpaceManager

/-! ## Adding and taking ranges -/

variable {a b : PageRange}

theorem le_of_entryCmp (h : entryCmp a b = true) : a.numPages ≤ b.numPages := by
  rw [entryCmp] at h
  split at h <;> simp at h <;> omega

theorem le_of_not_entryCmp (h : ¬ entryCmp a b = true) : b.numPages ≤ a.numPages := by
  rw [entryCmp] at h
  split at h <;> simp at h <;> omega

theorem insertEntry_perm (entry : PageRange) (list : List PageRange) :
    (insertEntry entry list).Perm (entry :: list) := by
  induction list with
  | nil => exact .refl _
  | cons e rest ih =>
    rw [insertEntry]
    split
    · exact .refl _
    · exact (ih.cons e).trans (.swap entry e rest)

variable {entry : PageRange} {lists : List (List PageRange)} {list : List PageRange}

/-- Changing one of several lists. -/
theorem flatten_set_perm {i : Nat} (hi : i < lists.length)
    (h : list.Perm (entry :: lists.getD i [])) :
    (lists.set i list).flatten.Perm (entry :: lists.flatten) := by
  induction lists generalizing i with
  | nil => cases hi
  | cons first _ ih =>
    cases i with
    | zero =>
      exact h.append_right _
    | succ =>
      have hrest := ih (Nat.lt_of_succ_lt_succ hi) h
      exact (hrest.append_left first).trans perm_middle

section

variable (freeLists : List (List PageRange)) (level : Nat)

theorem flatten_getFreeLists : (getFreeLists freeLists level).flatten = freeLists.flatten := by
  rw [getFreeLists, flatten_append, flatten_replicate_nil, append_nil]

theorem lt_length_getFreeLists : level < (getFreeLists freeLists level).length := by
  rw [getFreeLists, length_append, length_replicate]
  omega

end

/-- The range is added to the free lists, unless it is already there. -/
theorem freeEntries_addFreePages (fsm : FreeSpaceManager) (entry : PageRange) :
    (fsm.addFreePages entry).freeEntries.Perm (entry :: fsm.freeEntries) ∨
      entry ∈ fsm.freeEntries ∧ (fsm.addFreePages entry).freeEntries = fsm.freeEntries := by
  rw [addFreePages]
  split_ifs with hcontains
  · refine .inr ⟨?_, flatten_getFreeLists _ _⟩
    rw [freeEntries, ← flatten_getFreeLists fsm.freeLists (getLevel entry.numPages)]
    rw [contains_iff_mem] at hcontains
    have hlt := lt_length_getFreeLists fsm.freeLists (getLevel entry.numPages)
    rw [getD_eq_getElem?_getD, getElem?_eq_getElem hlt] at hcontains
    exact mem_flatten.mpr ⟨_, getElem_mem hlt, hcontains⟩
  · refine .inl ?_
    rw [freeEntries, freeEntries, ← flatten_getFreeLists fsm.freeLists (getLevel entry.numPages)]
    exact flatten_set_perm (lt_length_getFreeLists _ _) (insertEntry_perm _ _)

/-- A list of ranges of this level, sorted by size. -/
def LevelOk (level : Nat) (list : List PageRange) : Prop :=
  (∀ e ∈ list, getLevel e.numPages = level) ∧ list.Pairwise fun a b => a.numPages ≤ b.numPages

/-- Each list has ranges of its own level. -/
def Leveled (freeLists : List (List PageRange)) : Prop :=
  ∀ level list, freeLists[level]? = some list → LevelOk level list

theorem sorted_insertEntry (h : list.Pairwise fun a b => a.numPages ≤ b.numPages) :
    (insertEntry entry list).Pairwise fun a b => a.numPages ≤ b.numPages := by
  induction list with
  | nil => exact pairwise_singleton _ _
  | cons _ rest ih =>
    obtain ⟨he, hrest⟩ := pairwise_cons.mp h
    rw [insertEntry]
    split_ifs with hcmp
    · have hle := le_of_entryCmp hcmp
      refine pairwise_cons.mpr ⟨forall_mem_cons.mpr ⟨hle, fun b hb => ?_⟩, h⟩
      exact le_trans hle (he b hb)
    · refine pairwise_cons.mpr ⟨fun b hb => ?_, ih hrest⟩
      rcases mem_cons.mp ((insertEntry_perm entry rest).subset hb) with rfl | hb
      · exact le_of_not_entryCmp hcmp
      · exact he b hb

theorem Leveled.set (h : Leveled lists) {level : Nat} (hlist : LevelOk level list) :
    Leveled (lists.set level list) := by
  intro level' list' hget
  rw [getElem?_set] at hget
  split_ifs at hget with heq
  · cases hget
    exact heq ▸ hlist
  · exact h level' list' hget

theorem Leveled.addFreePages {fsm : FreeSpaceManager} (h : Leveled fsm.freeLists)
    (entry : PageRange) : Leveled (fsm.addFreePages entry).freeLists := by
  have hlists : Leveled (getFreeLists fsm.freeLists (getLevel entry.numPages)) := by
    intro level list hget
    rw [getFreeLists, getElem?_append, getElem?_replicate] at hget
    split_ifs at hget
    · exact h level list hget
    · cases hget
      exact ⟨nofun, .nil⟩
  rw [FreeSpaceManager.addFreePages]
  split_ifs
  · exact hlists
  · have hlist := hlists _ _ (getElem?_eq_getElem (lt_length_getFreeLists _ _))
    rw [getD_eq_getElem?_getD, getElem?_eq_getElem (lt_length_getFreeLists _ _)]
    refine hlists.set ⟨fun e he => ?_, sorted_insertEntry hlist.2⟩
    rcases mem_cons.mp ((insertEntry_perm entry _).subset he) with rfl | he
    · rfl
    · exact hlist.1 e he

theorem uncheckpointed_addFreePages (fsm : FreeSpaceManager) (entry : PageRange) :
    (fsm.addFreePages entry).uncheckpointedFreePageRanges = fsm.uncheckpointedFreePageRanges := by
  rw [addFreePages]
  split <;> rfl

variable {fsm : FreeSpaceManager}

/-- Pages that are not free yet become free. -/
theorem pages_addFreePages (h : List.Disjoint entry.pages fsm.freePages) :
    (fsm.addFreePages entry).freePages.Perm (entry.pages ++ fsm.freePages) := by
  rcases fsm.freeEntries_addFreePages entry with hnew | ⟨hold, hsame⟩
  · exact pagesOf_perm hnew
  have hempty : entry.pages = [] := by
    rw [eq_nil_iff_forall_not_mem]
    intro p hp
    exact h hp (mem_pagesOf.mpr ⟨entry, hold, hp⟩)
  rw [freePages, hsame, hempty]
  exact .refl _

variable {numPages : Nat} {chunk : PageRange} {n : Nat}

/-- The loop finds the first range that is large enough. -/
theorem map_fst_popFrom (lists : List (List PageRange)) :
    (popFrom numPages lists).map Prod.fst = lists.flatten.find? fun e => numPages ≤ e.numPages := by
  induction lists with
  | nil => rfl
  | cons _ _ ih =>
    have hcmp : (fun e => !entryCmp e ⟨0, numPages⟩) = fun e => decide (numPages ≤ e.numPages) := by
      funext e
      rw [entryCmp]
      split_ifs with heq
      · simpa using le_of_eq heq.symm
      · rw [← decide_not, decide_eq_decide, not_lt]
    rw [popFrom, hcmp, flatten_cons, find?_append, ← ih]
    split
    · rename_i hfind
      rw [hfind]
      rfl
    · rename_i hnone
      rw [hnone, Option.map_map]
      rfl

theorem popFrom_some {lists lists' : List (List PageRange)}
    (h : popFrom numPages lists = some (entry, lists')) :
    lists.flatten.Perm (entry :: lists'.flatten) ∧
      ∃ i list, lists[i]? = some list ∧ lists' = lists.set i (list.erase entry) := by
  induction lists generalizing lists' with
  | nil => cases h
  | cons curList rest ih =>
    rw [popFrom] at h
    split at h
    · rename_i _ hfind
      cases h
      refine ⟨?_, 0, curList, rfl, rfl⟩
      exact (perm_cons_erase (mem_of_find?_eq_some hfind)).append_right rest.flatten
    · obtain ⟨⟨_, _⟩, hrest, heq⟩ := Option.map_eq_some_iff.mp h
      cases heq
      obtain ⟨hperm, i, list, hlist, hset⟩ := ih hrest
      refine ⟨?_, i + 1, list, hlist, congrArg _ hset⟩
      exact (hperm.append_left curList).trans perm_middle

/-- The pages of a range and those of its two parts. -/
theorem pages_split (hn : n ≤ chunk.numPages) :
    chunk.pages = (⟨chunk.startPageIdx, n⟩ : PageRange).pages ++
      (⟨chunk.startPageIdx + n, chunk.numPages - n⟩ : PageRange).pages := by
  have hsum : n + (chunk.numPages - n) = chunk.numPages := by omega
  simp only [PageRange.pages]
  rw [range'_append_1, hsum]

theorem pages_splitPageRange (fsm : FreeSpaceManager) (hn : n ≤ chunk.numPages)
    (hdisjoint : List.Disjoint chunk.pages fsm.freePages) :
    (chunk.pages ++ fsm.freePages).Perm
      ((fsm.splitPageRange chunk n).2.pages ++ (fsm.splitPageRange chunk n).1.freePages) := by
  rw [splitPageRange]
  split
  · have hsplit := pages_split hn
    have hrest : List.Disjoint
        (⟨chunk.startPageIdx + n, chunk.numPages - n⟩ : PageRange).pages fsm.freePages := by
      intro p hp
      exact hdisjoint (by rw [hsplit]; exact mem_append_right _ hp)
    rw [hsplit, append_assoc]
    exact (pages_addFreePages hrest).symm.append_left _
  · have heq : n = chunk.numPages := by omega
    rw [heq]

variable {fsm' : FreeSpaceManager} {ret : PageRange} {prevEntry : PageRange}

/-- `popFreePages` has taken a range out of the free lists and not split it yet. -/
structure Popped (fsm : FreeSpaceManager) (numPages : Nat) (entry : PageRange)
    (fsm₁ : FreeSpaceManager) : Prop where
  entries : fsm.freeEntries.Perm (entry :: fsm₁.freeEntries)
  first : (fsm.freeLists.drop (getLevel numPages)).flatten.find? (fun e => numPages ≤ e.numPages) =
    some entry
  lists : ∃ level list, fsm.freeLists[level]? = some list ∧
    fsm₁.freeLists = fsm.freeLists.set level (list.erase entry)
  uncheckpointed : fsm₁.uncheckpointedFreePageRanges = fsm.uncheckpointedFreePageRanges

theorem Popped.le {fsm₁ : FreeSpaceManager} (h : fsm.Popped numPages entry fsm₁) :
    numPages ≤ entry.numPages := by
  simpa using find?_some h.first

theorem popFreePages_some (h : fsm.popFreePages numPages = (fsm', some ret)) :
    ∃ entry fsm₁, fsm.Popped numPages entry fsm₁ ∧
      fsm₁.splitPageRange entry numPages = (fsm', ret) := by
  rw [popFreePages] at h
  split at h
  · dsimp only at h
    split at h
    · rename_i entry _ hpop
      obtain ⟨hperm, i, list, hlist, rfl⟩ := popFrom_some hpop
      cases h
      rw [getElem?_drop] at hlist
      refine ⟨entry, _, ?_, rfl⟩
      refine ⟨?_, by rw [← map_fst_popFrom, hpop]; rfl, ⟨getLevel numPages + i, list, hlist, ?_⟩,
        rfl⟩
      · have hall := (hperm.append_left (fsm.freeLists.take (getLevel numPages)).flatten).trans
          perm_middle
        rwa [← flatten_append, ← flatten_append, take_append_drop] at hall
      · have hlt := (List.getElem?_eq_some_iff.mp hlist).1
        have htake : (fsm.freeLists.take (getLevel numPages)).length = getLevel numPages := by
          rw [length_take]
          omega
        conv_rhs => rw [← take_append_drop (getLevel numPages) fsm.freeLists]
        rw [set_append_right _ _ (by omega), htake, Nat.add_sub_cancel_left]
    · cases h
  · cases h

/-- Free pages are handed out and no longer free; the others stay. -/
theorem pages_popFreePages (hnodup : fsm.freePages.Nodup)
    (h : fsm.popFreePages numPages = (fsm', some ret)) :
    fsm.freePages.Perm (ret.pages ++ fsm'.freePages) := by
  obtain ⟨_, fsm₁, hpopped, hsplit⟩ := popFreePages_some h
  have hpages := pagesOf_perm hpopped.entries
  have hparts := pages_splitPageRange fsm₁ hpopped.le
    (List.disjoint_of_nodup_append (hpages.nodup hnodup))
  rw [hsplit] at hparts
  exact hpages.trans hparts

/-- Without a result nothing changes. -/
theorem popFreePages_none (h : fsm.popFreePages numPages = (fsm', none)) :
    fsm' = fsm ∧ (0 < numPages → (fsm.freeLists.drop (getLevel numPages)).flatten.find?
      (fun e => numPages ≤ e.numPages) = none) := by
  rw [popFreePages] at h
  split at h
  · dsimp only at h
    split at h <;> cases h
    rename_i hpop
    exact ⟨rfl, fun _ => by rw [← map_fst_popFrom, hpop]; rfl⟩
  · cases h
    exact ⟨rfl, fun hpos => absurd hpos ‹_›⟩

theorem uncheckpointed_popFreePages (h : fsm.popFreePages numPages = (fsm', some ret)) :
    fsm'.uncheckpointedFreePageRanges = fsm.uncheckpointedFreePageRanges := by
  obtain ⟨_, _, hpopped, hsplit⟩ := popFreePages_some h
  rw [← hpopped.uncheckpointed]
  rw [splitPageRange] at hsplit
  split at hsplit
  · cases hsplit
    exact uncheckpointed_addFreePages _ _
  · cases hsplit
    rfl

/-! ## Merging -/

/-- The pages in the free lists all come before the range that is being built. -/
structure Merging (fsm : FreeSpaceManager) (prevEntry : PageRange) : Prop where
  nodup : fsm.freePages.Nodup
  before : ∀ p ∈ fsm.freePages, p < prevEntry.startPageIdx

theorem Merging.disjoint (h : fsm.Merging prevEntry) :
    List.Disjoint prevEntry.pages fsm.freePages := by
  intro p hp hfree
  have := (PageRange.mem_pages.mp hp).1
  have := h.before p hfree
  omega

/-- Free ranges do not touch each other. -/
def Separated (fsm : FreeSpaceManager) : Prop :=
  fsm.freeEntries.Pairwise fun a b => a.endPageIdx < b.startPageIdx ∨ b.endPageIdx < a.startPageIdx

/-- The free lists while ranges are joined: none touches the range that is being built. -/
structure Joining (fsm : FreeSpaceManager) (prevEntry : PageRange) : Prop where
  separated : fsm.Separated
  apart : ∀ e ∈ fsm.freeEntries, e.endPageIdx < prevEntry.startPageIdx
  leveled : Leveled fsm.freeLists

theorem Joining.merging (h : fsm.Joining prevEntry) : fsm.Merging prevEntry := by
  refine ⟨nodup_flatMap.mpr ⟨fun r _ => r.nodup_pages, h.separated.imp ?_⟩, fun p hp => ?_⟩
  · intro a b hab p ha hb
    have := PageRange.mem_pages.mp ha
    have := PageRange.mem_pages.mp hb
    omega
  · obtain ⟨e, he, hpe⟩ := mem_pagesOf.mp hp
    have := (PageRange.mem_pages.mp hpe).2
    have := h.apart e he
    omega

/-- A range is added when the next one does not touch it. -/
theorem Joining.addFreePages {prevEntry r : PageRange} (h : fsm.Joining prevEntry)
    (hlt : prevEntry.endPageIdx < r.startPageIdx) : (fsm.addFreePages prevEntry).Joining r := by
  have hentries : (fsm.addFreePages prevEntry).freeEntries.Perm (prevEntry :: fsm.freeEntries) := by
    refine (fsm.freeEntries_addFreePages prevEntry).resolve_right fun hold => ?_
    have := h.apart _ hold.1
    rw [PageRange.endPageIdx] at this
    omega
  refine ⟨?_, fun e he => ?_, .addFreePages h.leveled prevEntry⟩
  · refine (hentries.pairwise_iff Or.symm).mpr (pairwise_cons.mpr ⟨?_, h.separated⟩)
    exact fun e he => .inr (h.apart e he)
  · rw [PageRange.endPageIdx] at hlt
    rcases mem_cons.mp (hentries.subset he) with rfl | he
    · exact hlt
    · have := h.apart e he
      omega

theorem mem_pages_joinPageRanges (hstart : a.startPageIdx ≤ b.startPageIdx)
    (htouch : b.startPageIdx ≤ a.startPageIdx + a.numPages) :
    p ∈ (joinPageRanges a b).pages ↔ p ∈ a.pages ∨ p ∈ b.pages := by
  simp only [PageRange.mem_pages, PageRange.endPageIdx, joinPageRanges]
  split <;> omega

/-- The loop keeps all pages; those of the last range are not in the free lists yet. -/
theorem Joining.mergeLoop {rest : List PageRange} (h : fsm.Joining prevEntry)
    (hsorted : (prevEntry :: rest).Pairwise fun a b => a.startPageIdx ≤ b.startPageIdx) :
    (mergeLoop fsm prevEntry rest).1.Joining
        (mergeLoop fsm prevEntry rest).2 ∧
      ∀ p, p ∈ (mergeLoop fsm prevEntry rest).1.freePages ∨
          p ∈ (mergeLoop fsm prevEntry rest).2.pages ↔
        p ∈ fsm.freePages ∨ p ∈ pagesOf (prevEntry :: rest) := by
  induction rest generalizing fsm prevEntry with
  | nil =>
    refine ⟨h, fun p => ?_⟩
    simp [mergeLoop]
  | cons entry rest ih =>
    obtain ⟨hfirst, hrest⟩ := pairwise_cons.mp hsorted
    have hstart := hfirst entry mem_cons_self
    rw [mergeLoop]
    split_ifs with htouch
    · have hsorted' : (joinPageRanges prevEntry entry :: rest).Pairwise
          fun a b => a.startPageIdx ≤ b.startPageIdx :=
        pairwise_cons.mpr ⟨fun b hb => hfirst b (mem_cons_of_mem _ hb), (pairwise_cons.mp hrest).2⟩
      have hjoined : fsm.Joining (joinPageRanges prevEntry entry) :=
        { h with }
      obtain ⟨hjoining, hmem⟩ := ih hjoined hsorted'
      refine ⟨hjoining, fun p => ?_⟩
      rw [hmem, pagesOf_cons, pagesOf_cons, pagesOf_cons, mem_append, mem_append,
        mem_append, mem_pages_joinPageRanges hstart htouch, or_assoc]
    · obtain ⟨hjoining, hmem⟩ := ih (h.addFreePages (Nat.lt_of_not_le htouch)) hrest
      refine ⟨hjoining, fun p => ?_⟩
      rw [hmem, (pages_addFreePages h.merging.disjoint).mem_iff, pagesOf_cons prevEntry, mem_append,
        mem_append]
      tauto

/-- What merging does: of all pages, those below the new end of the file are free, each
once, and only free pages are cut off. -/
structure Merged (all : List Nat) (fileNumPages : Nat) (fsm : FreeSpaceManager)
    (fileNumPages' : Nat) : Prop where
  nodup : fsm.freePages.Nodup
  mem : ∀ p, p ∈ fsm.freePages ↔ p ∈ all ∧ p < fileNumPages'
  le : fileNumPages' ≤ fileNumPages
  cut : ∀ p, fileNumPages' ≤ p → p < fileNumPages → p ∈ all

/-- What merging does to any ranges, also to ranges behind the end of the file: the pages
that are cut off are no longer free, and free ranges do not touch. -/
structure Coalesced (all : List Nat) (fileNumPages : Nat) (fsm : FreeSpaceManager)
    (fileNumPages' : Nat) : Prop where
  nodup : fsm.freePages.Nodup
  mem : ∀ p, p ∈ fsm.freePages ↔ p ∈ all ∧ ¬(fileNumPages' ≤ p ∧ p < fileNumPages)
  le : fileNumPages' ≤ fileNumPages
  cut : ∀ p, fileNumPages' ≤ p → p < fileNumPages → p ∈ all
  separated : fsm.Separated
  leveled : Leveled fsm.freeLists

variable {fileNumPages : Nat}

theorem Joining.handleLastPageRange {last : PageRange} {all : List Nat} (h : fsm.Joining last)
    (hall : ∀ p, p ∈ fsm.freePages ∨ p ∈ last.pages ↔ p ∈ all) :
    Coalesced all fileNumPages (fsm.handleLastPageRange last fileNumPages).1
      (fsm.handleLastPageRange last fileNumPages).2 := by
  rw [FreeSpaceManager.handleLastPageRange]
  split_ifs with hend
  · have hmin : min fileNumPages last.startPageIdx = last.startPageIdx := by omega
    rw [hmin]
    refine ⟨h.merging.nodup, fun p => ?_, by omega, fun p hlo hhi => ?_, h.separated, h.leveled⟩
    · rw [← hall, PageRange.mem_pages, PageRange.endPageIdx, hend, or_and_right]
      refine ⟨fun hp => .inl ⟨hp, fun hcut => ?_⟩, by tauto⟩
      exact not_lt.mpr hcut.1 (h.merging.before p hp)
    · refine (hall p).mp (.inr (PageRange.mem_pages.mpr ⟨hlo, ?_⟩))
      rw [PageRange.endPageIdx]
      omega
  · have hadded := h.addFreePages (r := ⟨last.endPageIdx + 1, 0⟩) (Nat.lt_succ_self _)
    refine ⟨hadded.merging.nodup, fun p => ?_, le_refl _, by omega, hadded.separated,
      hadded.leveled⟩
    rw [(pages_addFreePages h.merging.disjoint).mem_iff, mem_append, or_comm, hall]
    exact (and_iff_left (by omega)).symm

theorem coalesced_mergePageRanges (fsm : FreeSpaceManager) (newInitialEntries : List PageRange)
    (fileNumPages : Nat) :
    Coalesced (pagesOf newInitialEntries ++ fsm.freePages) fileNumPages
      (fsm.mergePageRanges newInitialEntries fileNumPages).1
      (fsm.mergePageRanges newInitialEntries fileNumPages).2 := by
  have hperm := perm_insertionSort (fun a b => a.startPageIdx ≤ b.startPageIdx)
    (newInitialEntries ++ fsm.freeLists.flatten)
  have hsorted := pairwise_insertionSort (fun a b : PageRange => a.startPageIdx ≤ b.startPageIdx)
    (newInitialEntries ++ fsm.freeLists.flatten)
  rw [mergePageRanges]
  split
  · rename_i hnil
    rw [hnil] at hperm
    obtain ⟨rfl, hfree⟩ := append_eq_nil_iff.mp hperm.symm.eq_nil
    have hempty : fsm.freeEntries = [] := hfree
    constructor
    case separated => rw [Separated, hempty]; exact .nil
    case leveled =>
      intro level list hget
      rw [flatten_eq_nil_iff.mp hfree list (mem_of_getElem? hget)]
      exact ⟨nofun, .nil⟩
    all_goals simp [freePages, hempty, pagesOf]
  · rename_i first _ hcons
    rw [hcons] at hperm hsorted
    have hpages := pagesOf_perm hperm
    rw [pagesOf_append] at hpages
    have hreset : ({ fsm with freeLists := [], numEntries := 0 } : FreeSpaceManager).Joining
        first :=
      ⟨.nil, nofun, nofun⟩
    obtain ⟨hjoining, hmem⟩ := hreset.mergeLoop hsorted
    refine hjoining.handleLastPageRange fun p => ?_
    rw [hmem, hpages.mem_iff]
    exact or_iff_right nofun

/-- Merging any ranges with those of the free lists. -/
theorem mergeFreePages_coalesces (fsm : FreeSpaceManager) (fileNumPages : Nat) :
    Coalesced (pagesOf fsm.uncheckpointedFreePageRanges ++ fsm.freePages) fileNumPages
      (fsm.mergeFreePages fileNumPages).1 (fsm.mergeFreePages fileNumPages).2 := by
  have h := fsm.coalesced_mergePageRanges fsm.uncheckpointedFreePageRanges fileNumPages
  exact { h with }

theorem merged_mergeFreePages
    (hbelow : ∀ p ∈ pagesOf fsm.uncheckpointedFreePageRanges ++ fsm.freePages, p < fileNumPages) :
    Merged (pagesOf fsm.uncheckpointedFreePageRanges ++ fsm.freePages) fileNumPages
      (fsm.mergeFreePages fileNumPages).1 (fsm.mergeFreePages fileNumPages).2 := by
  have h := fsm.coalesced_mergePageRanges fsm.uncheckpointedFreePageRanges fileNumPages
  refine ⟨h.nodup, fun p => (h.mem p).trans (and_congr_right fun hp => ?_), h.le, h.cut⟩
  have := hbelow p hp
  dsimp only [mergeFreePages]
  omega

/-! ## Best fit -/

/-- No page is free twice, and the ranges are in the lists of their levels. -/
structure Valid (fsm : FreeSpaceManager) : Prop where
  nodup : fsm.freePages.Nodup
  leveled : Leveled fsm.freeLists

theorem getLevel_le {m n : Nat} (hm : 0 < m) (h : m ≤ n) : getLevel m ≤ getLevel n := by
  rw [getLevel, getLevel, if_neg (by omega), if_neg (by omega), Nat.le_log2 (by omega)]
  exact le_trans (Nat.log2_self_le (by omega)) h

/-- The ranges of a level are at most as large as those of the next levels. -/
theorem Leveled.sorted (h : Leveled lists) :
    lists.flatten.Pairwise fun a b => 0 < b.numPages → a.numPages ≤ b.numPages := by
  refine pairwise_flatten.mpr ⟨fun list hlist => ?_, pairwise_iff_getElem.mpr ?_⟩
  · obtain ⟨level, hget⟩ := getElem?_of_mem hlist
    refine (h level list hget).2.imp ?_
    intro a b hle _
    exact hle
  · intro i j hi hj hij a ha b hb hpos
    have := (h i _ (getElem?_eq_getElem hi)).1 a ha
    have := (h j _ (getElem?_eq_getElem hj)).1 b hb
    by_contra hlt
    have := getLevel_le hpos (Nat.le_of_not_le hlt)
    omega

/-- The levels that are not searched have no range that is large enough. -/
theorem Leveled.find?_drop (h : Leveled fsm.freeLists) (hn : 0 < numPages) :
    fsm.freeEntries.find? (fun e => numPages ≤ e.numPages) =
      (fsm.freeLists.drop (getLevel numPages)).flatten.find? fun e => numPages ≤ e.numPages := by
  have hnone : (fsm.freeLists.take (getLevel numPages)).flatten.find?
      (fun e => numPages ≤ e.numPages) = none := by
    rw [find?_eq_none]
    intro e he hle
    obtain ⟨_, hlist, he⟩ := mem_flatten.mp he
    obtain ⟨level, hlt, rfl⟩ := mem_take_iff_getElem.mp hlist
    have := (h level _ (getElem?_eq_getElem (by omega))).1 e he
    have := getLevel_le hn (of_decide_eq_true hle)
    omega
  rw [freeEntries, ← take_append_drop (getLevel numPages) fsm.freeLists, flatten_append,
    find?_append, hnone, take_append_drop]
  rfl

theorem Valid.popFreePages (h : fsm.Valid) (hpop : fsm.popFreePages numPages = (fsm', some ret)) :
    fsm'.Valid := by
  obtain ⟨entry, fsm₁, hpopped, hsplit⟩ := popFreePages_some hpop
  obtain ⟨level, list, hlist, hlists⟩ := hpopped.lists
  have hperm := pages_popFreePages h.nodup hpop
  refine ⟨(nodup_append'.mp (hperm.nodup h.nodup)).2.1, ?_⟩
  have hleveled : Leveled fsm₁.freeLists := by
    obtain ⟨hlevel, hsorted⟩ := h.leveled level list hlist
    rw [hlists]
    exact h.leveled.set ⟨fun e he => hlevel e (mem_of_mem_erase he), hsorted.erase entry⟩
  rw [splitPageRange] at hsplit
  split at hsplit
  · cases hsplit
    exact .addFreePages hleveled _
  · cases hsplit
    exact hleveled

/-- A range of pages that are not free is added. -/
theorem Valid.addFreePages (h : fsm.Valid) (hnew : List.Disjoint entry.pages fsm.freePages) :
    (fsm.addFreePages entry).Valid :=
  ⟨(pages_addFreePages hnew).symm.nodup (nodup_append'.mpr ⟨entry.nodup_pages, h.nodup, hnew⟩),
    h.leveled.addFreePages entry⟩

theorem valid_mergeFreePages (fsm : FreeSpaceManager) (fileNumPages : Nat) :
    (fsm.mergeFreePages fileNumPages).1.Valid := by
  have h := fsm.coalesced_mergePageRanges fsm.uncheckpointedFreePageRanges fileNumPages
  exact ⟨h.nodup, h.leveled⟩

/-- Ranges are handed out from the smallest free range that is large enough. -/
theorem popFreePages_bestFit (h : fsm.Valid) (hn : 0 < numPages) :
    (fsm.popFreePages numPages).1.Valid ∧
      ((fsm.popFreePages numPages).2.isSome = true ↔ ∃ e ∈ fsm.freeEntries, numPages ≤ e.numPages) ∧
      ∀ ret ∈ (fsm.popFreePages numPages).2,
        (∃ e ∈ fsm.freeEntries, numPages ≤ e.numPages ∧ ret = ⟨e.startPageIdx, numPages⟩ ∧
          ∀ e' ∈ fsm.freeEntries, numPages ≤ e'.numPages → e.numPages ≤ e'.numPages) ∧
        ∀ p, p ∈ (fsm.popFreePages numPages).1.freePages ↔ p ∈ fsm.freePages ∧ p ∉ ret.pages := by
  rcases hpop : fsm.popFreePages numPages with ⟨_, _ | _⟩
  · obtain ⟨rfl, hnone⟩ := popFreePages_none hpop
    refine ⟨h, iff_of_false nofun ?_, nofun⟩
    rintro ⟨e, he, hle⟩
    have hfind := (h.leveled.find?_drop hn).trans (hnone hn)
    exact find?_eq_none.mp hfind e he (decide_eq_true hle)
  · obtain ⟨entry, _, hpopped, hsplit⟩ := popFreePages_some hpop
    have hfirst := (h.leveled.find?_drop hn).trans hpopped.first
    have hmem := mem_of_find?_eq_some hfirst
    have hperm := pages_popFreePages h.nodup hpop
    refine ⟨h.popFreePages hpop, iff_of_true rfl ⟨entry, hmem, hpopped.le⟩, ?_⟩
    rintro _ ⟨⟩
    refine ⟨⟨entry, hmem, hpopped.le, ?_, fun e he hle => ?_⟩, fun p => ?_⟩
    · rw [splitPageRange] at hsplit
      split at hsplit <;> cases hsplit <;> rfl
    · obtain ⟨hle', _, _, heq, hbefore⟩ := find?_eq_some_iff_append.mp hfirst
      have hsorted := h.leveled.sorted
      rw [← freeEntries, heq] at hsorted
      rw [heq, mem_append, mem_cons] at he
      rcases he with he | rfl | he
      · exact absurd hle (by simpa using hbefore e he)
      · exact le_refl _
      · exact rel_of_pairwise_cons (pairwise_append.mp hsorted).2.1 he (by omega)
    · have hnodup := nodup_append'.mp (hperm.nodup h.nodup)
      rw [hperm.mem_iff, mem_append]
      have := @hnodup.2.2 p
      tauto

/-- Pages 1 to 5 and 10 to 11 are free. -/
def mergedRanges : FreeSpaceManager :=
  (mergeFreePages { uncheckpointedFreePageRanges := [⟨10, 2⟩, ⟨4, 2⟩, ⟨1, 3⟩] } 20).1

theorem popFreePages_mergedRanges :
    (mergedRanges.popFreePages 1).2 = some ⟨10, 1⟩ ∧ (mergedRanges.popFreePages 1).1.Valid :=
  ⟨by decide +kernel, (popFreePages_bestFit (valid_mergeFreePages _ _) (by decide)).1⟩

end FreeSpaceManager

end Lbug.Storage
