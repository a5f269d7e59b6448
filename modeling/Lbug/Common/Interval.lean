/-
  Common/Interval.lean --- the comparison operators of intervals.

  `operator>` compares the intervals after 30 days have become a month and 24 hours a day,
  `operator==` compares their fields, and `operator<` is derived from both: two ways to write
  the same duration are each less than the other.
-/
import Mathlib.Data.Prod.Lex

namespace Lbug.Common

structure Interval where
  months : Int
  days : Int
  micros : Int
  deriving DecidableEq, Repr

namespace Interval

def daysPerMonth : Int := 30

def microsPerDay : Int := 24 * 60 * 60 * 1000 * 1000

def microsPerMonth : Int := microsPerDay * daysPerMonth

-- Quotients are truncated.  What is left of the days and the microseconds fits in their fields,
-- and the 64 bits of a sum hold every sum of these quotients.
def normalizeIntervalEntries (input : Interval) : Int × Int × Int :=
  let extraMonthsD := input.days.tdiv daysPerMonth
  let extraMonthsMicros := input.micros.tdiv microsPerMonth
  let days := input.days - extraMonthsD * daysPerMonth
  let micros := input.micros - extraMonthsMicros * microsPerMonth
  let extraDaysMicros := micros.tdiv microsPerDay
  (input.months + extraMonthsD + extraMonthsMicros, days + extraDaysMicros,
    micros - extraDaysMicros * microsPerDay)

def greaterThan (left right : Interval) : Bool :=
  let (lMonths, lDays, lMicros) := left.normalizeIntervalEntries
  let (rMonths, rDays, rMicros) := right.normalizeIntervalEntries
  if lMonths > rMonths then true
  else if lMonths < rMonths then false
  else if lDays > rDays then true
  else if lDays < rDays then false
  else lMicros > rMicros

/-- `operator==`. -/
def eq (a b : Interval) : Bool := a.days == b.days && a.months == b.months && a.micros == b.micros

/-- `operator>`. -/
def gt (a b : Interval) : Bool := greaterThan a b

/-- `operator<=`. -/
def le (a b : Interval) : Bool := !a.gt b

/-- `operator>=`. -/
def ge (a b : Interval) : Bool := a.gt b || a.eq b

/-- `operator<`. -/
def lt (a b : Interval) : Bool := !a.ge b

/-- The operators are those of a total preorder on the intervals of `s`. -/
structure Consistent (s : Set Interval) : Prop where
  some : ∀ a ∈ s, ∀ b ∈ s, a.lt b ∨ a.eq b ∨ a.gt b
  one : ∀ a ∈ s, ∀ b ∈ s, ¬(a.lt b ∧ a.eq b) ∧ ¬(a.lt b ∧ a.gt b) ∧ ¬(a.eq b ∧ a.gt b)
  lt_iff_gt : ∀ a ∈ s, ∀ b ∈ s, a.lt b ↔ b.gt a
  le_iff : ∀ a ∈ s, ∀ b ∈ s, a.le b ↔ a.lt b ∨ a.eq b
  ge_iff : ∀ a ∈ s, ∀ b ∈ s, a.ge b ↔ a.gt b ∨ a.eq b
  trans : ∀ a ∈ s, ∀ b ∈ s, ∀ c ∈ s, a.lt b → b.lt c → a.lt c

/-- The normalised entries in the order in which they are compared. -/
def key (a : Interval) : ℤ ×ₗ ℤ ×ₗ ℤ :=
  toLex (a.normalizeIntervalEntries.1, toLex a.normalizeIntervalEntries.2)

variable {a b : Interval}

theorem key_inj : a.key = b.key ↔ a.normalizeIntervalEntries = b.normalizeIntervalEntries := by
  simp [key, Prod.ext_iff]

theorem gt_iff : a.gt b ↔ b.key < a.key := by
  simp only [gt, greaterThan, key, Prod.Lex.toLex_lt_toLex]
  grind

theorem eq_iff : a.eq b ↔ a = b := by
  cases a
  cases b
  simp only [eq, Bool.and_eq_true, beq_iff_eq, mk.injEq]
  tauto

theorem lt_iff : a.lt b ↔ a.key ≤ b.key ∧ a ≠ b := by
  rw [lt, ge, Bool.not_eq_true', Bool.or_eq_false_iff, ← Bool.not_eq_true, ← Bool.not_eq_true,
    gt_iff, eq_iff, not_lt]

theorem le_iff_key : a.le b ↔ a.key ≤ b.key := by
  rw [le, Bool.not_eq_true', ← Bool.not_eq_true, gt_iff, not_lt]

/-- The operators agree exactly on intervals that are told apart by their normalised entries. -/
theorem consistent_iff (s : Set Interval) :
    Consistent s ↔ Set.InjOn normalizeIntervalEntries s := by
  constructor
  · intro h a ha b hb heq
    by_contra hne
    have hkey := key_inj.mpr heq
    -- `a < b` holds and `b > a` does not
    have hlt := (h.lt_iff_gt a ha b hb).mp (lt_iff.mpr ⟨hkey.le, hne⟩)
    exact (gt_iff.mp hlt).ne hkey
  · intro h
    have hlt : ∀ a ∈ s, ∀ b ∈ s, a.lt b ↔ a.key < b.key := by
      intro a ha b hb
      rw [lt_iff, lt_iff_le_and_ne]
      exact and_congr_right fun _ => not_congr ⟨congrArg _, fun hk => h ha hb (key_inj.mp hk)⟩
    have hge : ∀ a b : Interval, a.ge b ↔ a.gt b ∨ a.eq b := by
      simp [ge]
    refine ⟨?_, ?_, ?_, ?_, ?_, ?_⟩
    · intro a _ b _
      rw [lt, Bool.not_eq_true', ← Bool.not_eq_true, hge]
      tauto
    · intro a _ b _
      rw [lt_iff, gt_iff, eq_iff]
      refine ⟨fun h => h.1.2 h.2, fun h => h.1.1.not_gt h.2, ?_⟩
      rintro ⟨rfl, hself⟩
      exact hself.false
    · exact fun a ha b hb => (hlt a ha b hb).trans gt_iff.symm
    · intro a ha b hb
      rw [le_iff_key, lt_iff, eq_iff]
      grind
    · exact fun a _ b _ => hge a b
    · intro a ha b hb c hc h1 h2
      exact (hlt a ha c hc).mpr (((hlt a ha b hb).mp h1).trans ((hlt b hb c hc).mp h2))

theorem comparison_consistent_iff (a b c : Interval) :
    Consistent {a, b, c} ↔ Set.InjOn normalizeIntervalEntries {a, b, c} :=
  consistent_iff {a, b, c}

/-- A month and 30 days are each less than the other, and neither is greater. -/
theorem month_lt_thirty_days : ¬ Consistent {⟨1, 0, 0⟩, ⟨0, 30, 0⟩, ⟨0, 0, 0⟩} := by
  intro h
  have hgt := (h.lt_iff_gt ⟨1, 0, 0⟩ (.inl rfl) ⟨0, 30, 0⟩ (.inr (.inl rfl))).mp (by decide)
  exact absurd hgt (by decide)

end Interval

end Lbug.Common
