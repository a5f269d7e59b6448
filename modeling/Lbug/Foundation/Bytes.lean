/-
  Foundation/Bytes.lean --- values written as bytes and read back.
-/
import Mathlib.Algebra.GroupWithZero.Nat
import Mathlib.Data.List.Basic

namespace Lbug.Foundation

/-- The `w` bytes of a number, the lowest first. -/
def writeBytes : Nat → Nat → List UInt8
  | 0, _ => []
  | w + 1, v => UInt8.ofNat v :: writeBytes w (v / 256)

def readBytes : Nat → List UInt8 → Option (Nat × List UInt8)
  | 0, bytes => some (0, bytes)
  | _ + 1, [] => none
  | w + 1, byte :: bytes =>
    (readBytes w bytes).map fun r => (byte.toNat + 256 * r.1, r.2)

theorem readBytes_writeBytes {w v : Nat} (h : v < 256 ^ w) (rest : List UInt8) :
    readBytes w (writeBytes w v ++ rest) = some (v, rest) := by
  induction w generalizing v with
  | zero =>
    obtain rfl : v = 0 := Nat.lt_one_iff.mp h
    rfl
  | succ w ih =>
    have hrest : v / 256 < 256 ^ w := by
      exact Nat.div_lt_of_lt_mul (by rwa [Nat.mul_comm])
    have hbyte : (UInt8.ofNat v).toNat + 256 * (v / 256) = v := by
      exact Nat.mod_add_div v 256
    rw [writeBytes, List.cons_append, readBytes, ih hrest, Option.map_some, hbyte]

/-- `n` values, each read by `read`. -/
def readMany {α : Type} (read : List UInt8 → Option (α × List UInt8)) :
    Nat → List UInt8 → Option (List α × List UInt8)
  | 0, bytes => some ([], bytes)
  | n + 1, bytes => (read bytes).bind fun r =>
    (readMany read n r.2).map fun rs => (r.1 :: rs.1, rs.2)

theorem readMany_flatMap {α β : Type} {read : List UInt8 → Option (α × List UInt8)}
    {write : β → List UInt8} {f : β → α} {bs : List β}
    (h : ∀ b ∈ bs, ∀ rest, read (write b ++ rest) = some (f b, rest)) (rest : List UInt8) :
    readMany read bs.length (bs.flatMap write ++ rest) = some (bs.map f, rest) := by
  induction bs with
  | nil => rfl
  | cons _ _ ih =>
    obtain ⟨hb, hbs⟩ := List.forall_mem_cons.mp h
    rw [List.flatMap_cons, List.append_assoc, List.length_cons, readMany, hb, Option.bind_some,
      ih hbs]
    rfl

end Lbug.Foundation
