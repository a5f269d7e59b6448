/-
  Storage/DiskArrayDurability.lean --- which pages a disk array writes in place.

  Next to the array, a history keeps the array as the last checkpoint that was applied
  left it.  The file still has the pages of that checkpoint in every history without
  `bypassShadowing`, and in every history in which a call writes to an existing page of it
  only if the page was checkpointed before the last checkpoint and the indices of such
  pages grow; new pages are never pages of a checkpoint.
-/
import Lbug.Storage.DiskArrayHistory

namespace Lbug.Storage

open Foundation List Option

/-- A disk array, and as it was at the last checkpoint. -/
structure DurableHistory (V : Type) where
  array : DiskArray V
  durable : DiskArray V
  /-- the number of elements before the last checkpoint, all of a loaded array -/
  previousSize : Nat

namespace DurableHistory

variable {V : Type} [Inhabited V] {info : PageStorageInfo}

def isCheckpoint : ArrayCall V → Bool
  | .checkpoint => true
  | _ => false

def step (info : PageStorageInfo) (h : DurableHistory V) (call : ArrayCall V) :
    Option (DurableHistory V) :=
  (h.array.step info call).map fun array =>
    ⟨array, if isCheckpoint call then array else h.durable,
      h.array.sizeBefore h.previousSize call⟩

/-- A history starts with an array that was loaded. -/
def start (s : DiskArray V) : DurableHistory V := ⟨s, s, s.getNumElements .read⟩

/-- The calls of a history that are valid and write in place only what they may. -/
def Permitted (info : PageStorageInfo) (h : DurableHistory V) (call : ArrayCall V) : Prop :=
  h.array.Valid info call ∧ h.array.WritesOldPages info h.previousSize call
  deriving Decidable

/-- The array still has the checkpoint's header and PIPs, and the file its pages. -/
structure Kept (info : PageStorageInfo) (h : DurableHistory V) : Prop where
  header : h.array.header = h.durable.header
  pips : h.array.pips = h.durable.pips
  file : ∀ p ∈ h.durable.arrayPages info .read, h.array.file p = h.durable.file p
  lastPage : h.array.LastPage info h.previousSize

omit [Inhabited V] in
theorem Kept.arrayPages {h : DurableHistory V} (hkept : h.Kept info) :
    h.array.arrayPages info .read = h.durable.arrayPages info .read := by
  unfold DiskArray.arrayPages DiskArray.getAPPageIdx DiskArray.getDiskArrayHeader
  simp [hkept.header, hkept.pips]

theorem Kept.step {h h' : DurableHistory V} (hkept : h.Kept info) {call : ArrayCall V}
    (hok : h.Permitted info call)
    (hstep : h.step info call = some h') : h'.Kept info := by
  obtain ⟨array, harray, rfl⟩ := map_eq_some_iff.mp hstep
  cases hcall : isCheckpoint call with
  | true => exact ⟨rfl, rfl, fun _ _ => rfl, hkept.lastPage.step harray⟩
  | false =>
    have hne : call ≠ .checkpoint := by
      rintro rfl
      cases hcall
    have hkeeps := DiskArray.keeps_step hne harray
    refine ⟨hkeeps.header.trans hkept.header, hkeeps.pips.trans hkept.pips, fun p hp => ?_,
      hkept.lastPage.step harray⟩
    refine (hkeeps.file p fun hwritten => ?_).trans (hkept.file p hp)
    have hp' : p ∈ h.array.arrayPages info .read := by
      rw [hkept.arrayPages]
      exact hp
    rcases hwritten with hnew | hpage
    · exact absurd hnew (DiskArray.notMem_allocated hok.1 hp')
    · exact hkept.lastPage.writesSafely hok.2 p (by rw [hpage]; simp) hp'

open ArrayHistory (smallPages newArray loaded_newArray sampleCalls)

/-- Page `p` belongs to the last checkpoint, and its first element in the file is not that
of the checkpoint. -/
def Overwritten (h : DurableHistory Nat) (p : Nat) : Prop :=
  p ∈ h.durable.arrayPages smallPages .read ∧
    (h.array.file p).elements 0 ≠ (h.durable.file p).elements 0
  deriving Decidable

end DurableHistory

end Lbug.Storage
