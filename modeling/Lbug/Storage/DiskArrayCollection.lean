/-
  Storage/DiskArrayCollection.lean --- where the headers of disk arrays are stored.

  `addDiskArray` takes the header page from the remainder of an array's number where
  `getDiskArray` takes the quotient, so the header of the first array is in a page where
  it is not looked for, and it stays there.
-/
import Mathlib.Algebra.GroupWithZero.Nat
import Lbug.Storage.DiskArray

namespace Lbug.Storage.DiskArrayCollection

/-- `NUM_HEADERS_PER_PAGE`, of 16 bytes each. -/
def numHeadersPerPage : Nat := (4096 - 4 - 4) / 16

structure HeaderPage where
  headers : List DiskArrayHeader := List.replicate numHeadersPerPage {}
  nextHeaderPage : Option Nat := none
  numHeaders : Nat := 0
  deriving DecidableEq, Repr

/-- The versions of a page in `headersForReadTrx` and `headersForWriteTrx`. -/
structure HeaderVersions where
  read : HeaderPage := {}
  write : HeaderPage := {}
  deriving DecidableEq, Repr

end DiskArrayCollection

open DiskArrayCollection

structure DiskArrayCollection where
  headerPagesOnDisk : Nat := 0
  pages : List HeaderVersions := [{}]
  numHeaders : Nat := 0

namespace DiskArrayCollection

/-- The loop of the constructor over the header pages of the file, for at most `fuel` pages. -/
def readHeaderPages (disk : Nat → HeaderPage) : (fuel headerPage : Nat) → Option (List HeaderPage)
  | 0, _ => none
  | fuel + 1, headerPage =>
    match (disk headerPage).nextHeaderPage with
    | none => some [disk headerPage]
    | some next => (readHeaderPages disk fuel next).map (disk headerPage :: ·)

def ofPages (pages : List HeaderPage) : DiskArrayCollection where
  headerPagesOnDisk := pages.length
  pages := pages.map fun page => { read := page, write := page }
  numHeaders := (pages.map HeaderPage.numHeaders).sum

def populateNextHeaderPage (v : HeaderVersions) (page : Nat) : HeaderVersions :=
  { v with read.nextHeaderPage := some page, write.nextHeaderPage := some page }

/-- The loop of `checkpoint`; `newPage i` is the page allocated for the link of page `i`. -/
def writeHeaderPages (onDisk : Nat) (newPage : Nat → Nat) : (i headerPage : Nat) →
    List HeaderVersions → (Nat → HeaderPage) → List HeaderVersions × (Nat → HeaderPage)
  | _, _, [], disk => ([], disk)
  | i, headerPage, v :: rest, disk =>
    let v := if v.write.nextHeaderPage = none ∧ rest ≠ [] then populateNextHeaderPage v (newPage i)
      else v
    -- the link is set in both versions, so it does not make a page count as changed
    let disk := if onDisk ≤ i ∨ v.write ≠ v.read then Function.update disk headerPage v.write
      else disk
    let written := writeHeaderPages onDisk newPage (i + 1)
      (v.write.nextHeaderPage.getD headerPage) rest disk
    (v :: written.1, written.2)

variable (c : DiskArrayCollection)

/-- The page and the position that the next array's header gets. -/
def nextPlace : Nat × Nat :=
  let pageIdx := (c.numHeaders + 1) % numHeadersPerPage
  (pageIdx, c.pages[pageIdx]?.elim 0 (·.write.numHeaders))

def addDiskArray : DiskArrayCollection × Nat :=
  let (pageIdx, indexInPage) := c.nextPlace
  let pages := if c.pages.length ≤ pageIdx then c.pages ++ [{}] else c.pages
  ({ c with
      pages := pages.modify pageIdx fun v => { v with
        read.numHeaders := v.read.numHeaders + 1
        write.headers := v.write.headers.set indexInPage {}
        write.numHeaders := v.write.numHeaders + 1 }
      numHeaders := c.numHeaders + 1 }, c.numHeaders)

/-- Array `idx` changes the header that `getDiskArray` gave it. -/
def setHeader (idx : Nat) (header : DiskArrayHeader) : DiskArrayCollection :=
  { c with
    pages := c.pages.modify (idx / numHeadersPerPage) fun v =>
      { v with write.headers := v.write.headers.set (idx % numHeadersPerPage) header } }

/-- `checkpoint`, and then `checkpointInMemory`. -/
def checkpoint (firstHeaderPage : Nat) (newPage : Nat → Nat) (disk : Nat → HeaderPage) :
    DiskArrayCollection × (Nat → HeaderPage) :=
  let written := writeHeaderPages c.headerPagesOnDisk newPage 0 firstHeaderPage c.pages disk
  ({ c with
      headerPagesOnDisk := c.pages.length
      pages := written.1.map fun v => { v with read := v.write } }, written.2)

def rollbackCheckpoint : DiskArrayCollection :=
  { c with pages := c.pages.map fun v => { v with write := v.read } }

/-- A collection with its file, and the places where the headers of its arrays were put: of
all of them and, after a checkpoint, of those in the file.  Without one a reload creates a
new collection. -/
structure History where
  collection : DiskArrayCollection := {}
  disk : Nat → HeaderPage := fun _ => {}
  placed : List (Nat × Nat) := []
  saved : Option (List (Nat × Nat)) := none

inductive Reached (first : Nat) : History → Prop
  | new : Reached first {}
  | add {s} (h : Reached first s) : Reached first { s with
      collection := s.collection.addDiskArray.1, placed := s.placed ++ [s.collection.nextPlace] }
  | setHeader {s} (h : Reached first s) (idx : Nat) (header : DiskArrayHeader) :
      Reached first { s with collection := s.collection.setHeader idx header }
  | checkpoint {s} (h : Reached first s) (newPage : Nat → Nat) : Reached first { s with
      collection := (s.collection.checkpoint first newPage s.disk).1
      disk := (s.collection.checkpoint first newPage s.disk).2
      saved := some s.placed }
  | rollback {s} (h : Reached first s) :
      Reached first { s with collection := s.collection.rollbackCheckpoint }
  | reload {s l fuel pages}
      (h : Reached first s) (hsaved : s.saved = some l)
      (hread : readHeaderPages s.disk fuel first = some pages) :
      Reached first { s with collection := ofPages pages, placed := l }

/-- Every array's header is where `getDiskArray` looks for it, and no page is superfluous. -/
def HeadersFound (s : History) : Prop :=
  (∀ idx < s.placed.length,
    s.placed[idx]? = some (idx / numHeadersPerPage, idx % numHeadersPerPage) ∧
    ∃ v ∈ s.collection.pages[idx / numHeadersPerPage]?,
      idx % numHeadersPerPage < v.write.numHeaders) ∧
  s.collection.pages.length =
    max 1 ((s.placed.length + numHeadersPerPage - 1) / numHeadersPerPage)

def Unused (page : HeaderPage) : Prop :=
  page.numHeaders = 0 ∧ page.nextHeaderPage = none

/-- The first header of all is in page 1, and without one there is one unused page. -/
structure Inv (first : Nat) (s : History) : Prop where
  placed : ∀ x ∈ s.placed.head?, x = (1, 0)
  saved : ∀ l ∈ s.saved, (∀ x ∈ l.head?, x = (1, 0)) ∧ (l = [] → Unused (s.disk first))
  empty : s.placed = [] → s.collection.numHeaders = 0 ∧
    (s.collection.headerPagesOnDisk = 0 ∨ Unused (s.disk first)) ∧
    ∃ v, s.collection.pages = [v] ∧ Unused v.read ∧ Unused v.write

variable {first : Nat} {s : History}

theorem Inv.placed_add (h : Inv first s) :
    ∀ x ∈ (s.placed ++ [s.collection.nextPlace]).head?, x = (1, 0) := by
  cases hplaced : s.placed with
  | nil =>
    obtain ⟨hnum, -, v, hpages, -⟩ := h.empty hplaced
    have hplace : s.collection.nextPlace = (1, 0) := by
      rw [nextPlace, hnum, hpages]
      rfl
    simp [hplace]
  | cons => exact fun y hy => h.placed y (by rwa [hplaced])

theorem Inv.unused_checkpoint (h : Inv first s) (newPage : Nat → Nat) (hnil : s.placed = []) :
    Unused ((s.collection.checkpoint first newPage s.disk).2 first) := by
  obtain ⟨-, hon, v, hpages, -, hwrite⟩ := h.empty hnil
  simp only [checkpoint, hpages, writeHeaderPages]
  split_ifs with h1 h2 <;> simp_all

theorem Reached.inv (h : Reached first s) : Inv first s := by
  induction h with
  | new => exact ⟨nofun, nofun, fun _ => ⟨rfl, .inl rfl, {}, rfl, ⟨rfl, rfl⟩, rfl, rfl⟩⟩
  | add _ ih => exact ⟨ih.placed_add, ih.saved, fun hnil => absurd hnil (by simp)⟩
  | setHeader _ idx _ ih =>
    refine ⟨ih.placed, ih.saved, fun hnil => ?_⟩
    obtain ⟨hnum, hon, v, hpages, hread, hwrite⟩ := ih.empty hnil
    refine ⟨hnum, hon, ?_⟩
    simp only [DiskArrayCollection.setHeader, hpages]
    cases idx / numHeadersPerPage with
    | zero => exact ⟨_, rfl, hread, hwrite⟩
    | succ => exact ⟨v, by simp, hread, hwrite⟩
  | @checkpoint _ _ newPage ih =>
    refine ⟨ih.placed, ?_, fun hnil => ?_⟩
    · rintro l ⟨⟩
      exact ⟨ih.placed, ih.unused_checkpoint newPage⟩
    · obtain ⟨hnum, -, v, hpages, -, hwrite⟩ := ih.empty hnil
      refine ⟨hnum, .inr (ih.unused_checkpoint newPage hnil), { v with read := v.write }, ?_,
        hwrite, hwrite⟩
      simp [DiskArrayCollection.checkpoint, hpages, writeHeaderPages]
  | rollback _ ih =>
    refine ⟨ih.placed, ih.saved, fun hnil => ?_⟩
    obtain ⟨hnum, hon, v, hpages, hread, -⟩ := ih.empty hnil
    exact ⟨hnum, hon, { v with write := v.read },
      by simp [rollbackCheckpoint, hpages], hread, hread⟩
  | @reload _ l fuel _ _ hsaved hread ih =>
    obtain ⟨hhead, hunused⟩ := ih.saved l hsaved
    refine ⟨hhead, ih.saved, fun hnil => ?_⟩
    have hpage := hunused hnil
    cases fuel with
    | zero => cases hread
    | succ =>
      simp only [readHeaderPages, hpage.2] at hread
      cases hread
      exact ⟨by simp [ofPages, hpage.1], .inr hpage, _, rfl, hpage, hpage⟩

/-- In every history of the collection its arrays are found, in the pages they need, exactly
if there are none. -/
theorem headersFound_iff (h : Reached first s) : HeadersFound s ↔ s.placed.length = 0 := by
  constructor
  · intro hfound
    by_contra hne
    obtain ⟨hzero, -⟩ := hfound.1 0 (Nat.pos_of_ne_zero hne)
    cases h.inv.placed _ (List.head?_eq_getElem?.trans hzero)
  · intro hlen
    obtain ⟨-, -, v, hpages, -⟩ := h.inv.empty (List.eq_nil_of_length_eq_zero hlen)
    refine ⟨fun idx hidx => absurd hidx (by omega), ?_⟩
    rw [hpages, hlen]
    rfl

theorem headersFound_new : HeadersFound {} :=
  (headersFound_iff (.new : Reached 0 {})).mpr rfl

/-- One array: its header is in page 1, and page 0, where it is looked for, has none. -/
theorem exists_not_headersFound : ∃ s, Reached 0 s ∧ s.placed.length = 1 ∧ ¬ HeadersFound s := by
  refine ⟨_, .add .new, rfl, fun hfound => ?_⟩
  cases (hfound.1 0 Nat.one_pos).1

end Lbug.Storage.DiskArrayCollection
