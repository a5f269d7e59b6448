/-
  Catalog/Sequence.lean --- sequences and the transactions that take values from them.

  Source: `catalog/catalog_entry/sequence_catalog_entry.cpp`,
  `UndoBuffer::rollbackSequenceEntry` (`storage/undo_buffer.cpp`) and the checks of a
  definition in `binder/bind/bind_ddl.cpp`.

  `nextKVal` advances the sequence value by value.  An exception leaves it where the loop
  stopped, and no undo record is pushed then.  A rollback restores the value that was
  current before a call, whatever other transactions have taken meanwhile.
-/
import Lbug.Foundation.Transition
import Mathlib.Algebra.Order.Ring.Int
import Mathlib.Logic.Function.Basic
import Mathlib.Tactic.Linarith

namespace Lbug.Catalog

open Foundation List Function Option

/-- A definition that the binder accepts. -/
structure SequenceInfo where
  name : String
  startWith : Int
  increment : Int
  minValue : Int
  maxValue : Int
  cycle : Bool
  increment_ne : increment ≠ 0
  start_mem : minValue ≤ startWith ∧ startWith ≤ maxValue
  int64 : -2 ^ 63 ≤ minValue ∧ maxValue < 2 ^ 63

/-- The part of `SequenceData` that changes, and `SequenceRollbackData`. -/
structure SequenceData where
  usageCount : Nat := 0
  currVal : Int
  deriving DecidableEq, Repr

namespace SequenceInfo

variable (info : SequenceInfo)

def limitError (limit : String) (value : Int) : String :=
  "nextval: reached " ++ limit ++ " value of sequence \"" ++ info.name ++ "\" " ++ toString value

def nextValNoLock (d : SequenceData) : Except String SequenceData :=
  if d.usageCount = 0 then .ok { d with usageCount := d.usageCount + 1 }
  else
    let next := d.currVal + info.increment
    let overflow := next < -2 ^ 63 ∨ 2 ^ 63 ≤ next
    if info.cycle then
      let next :=
        if overflow then if info.increment < 0 then info.maxValue else info.minValue
        else if next < info.minValue then info.maxValue
        else if info.maxValue < next then info.minValue
        else next
      .ok ⟨d.usageCount + 1, next⟩
    else if if overflow then info.increment < 0 else next < info.minValue then
      .error (info.limitError "minimum" info.minValue)
    else if if overflow then 0 < info.increment else info.maxValue < next then
      .error (info.limitError "maximum" info.maxValue)
    else .ok ⟨d.usageCount + 1, next⟩

/-- `nextKVal`: the sequence after the call, and the values unless it throws. -/
def nextKVal : Nat → SequenceData → SequenceData × Except String (List Int)
  | 0, d => (d, .ok [])
  | count + 1, d =>
    match info.nextValNoLock d with
    | .error e => (d, .error e)
    | .ok d => ((nextKVal count d).1, (nextKVal count d).2.map (d.currVal :: ·))

def InRange (v : Int) : Prop := info.minValue ≤ v ∧ v ≤ info.maxValue

/-- `a` comes before `b` in the direction of the increment. -/
def Precedes (a b : Int) : Prop := if 0 < info.increment then a < b else b < a

/-- The value after `count` further ones, without cycling, is in range; the first call
hands out the start value. -/
def Fits (d : SequenceData) (count : Nat) : Prop :=
  info.InRange (d.currVal + (if d.usageCount = 0 then count - 1 else count : Nat) * info.increment)

/-- The value has been handed out, or lies before one that was. -/
def Behind (d : SequenceData) (v : Int) : Prop :=
  d.usageCount ≠ 0 ∧ (v = d.currVal ∨ info.Precedes v d.currVal)

/-! ## One value -/

variable {info} {d d' : SequenceData} {v : Int} {count : Nat}

theorem precedes_add : info.Precedes v (v + info.increment) := by
  have := info.increment_ne
  unfold Precedes
  split <;> omega

theorem Precedes.trans {a b c : Int} (hab : info.Precedes a b) (hbc : info.Precedes b c) :
    info.Precedes a c := by
  unfold Precedes at *
  split_ifs at * <;> omega

theorem Precedes.ne {a b : Int} (h : info.Precedes a b) : a ≠ b := by
  unfold Precedes at h
  split at h <;> omega

/-- What one value does: the first is the start value, and without cycling each later one
is the increment further. -/
theorem nextValNoLock_ok (h : info.nextValNoLock d = .ok d') :
    d'.usageCount = d.usageCount + 1 ∧ (info.InRange d.currVal → info.InRange d'.currVal) ∧
      (d.usageCount = 0 → d'.currVal = d.currVal) ∧
      (info.cycle = false → d.usageCount ≠ 0 → d'.currVal = d.currVal + info.increment) := by
  have hstart := info.start_mem
  have hne := info.increment_ne
  unfold nextValNoLock at h
  by_cases hused : d.usageCount = 0
  · rw [if_pos hused] at h
    cases h
    exact ⟨rfl, id, fun _ => rfl, fun _ hne => absurd hused hne⟩
  rw [if_neg hused] at h
  cases hcycle : info.cycle with
  | true =>
    simp only [hcycle, if_true, Except.ok.injEq] at h
    subst h
    refine ⟨rfl, fun _ => ?_, fun hzero => absurd hzero hused, nofun⟩
    unfold InRange
    dsimp only
    split_ifs <;> omega
  | false =>
    simp only [hcycle, Bool.false_eq_true, if_false] at h
    split_ifs at h
    all_goals
      cases h
      refine ⟨rfl, fun _ => ?_, fun hzero => absurd hzero hused, fun _ _ => rfl⟩
      unfold InRange
      dsimp only
      omega

/-- Without cycling the sequence ends where the next value is out of range. -/
theorem nextValNoLock_error_iff (hd : info.InRange d.currVal) :
    (∃ e, info.nextValNoLock d = .error e) ↔ info.cycle = false ∧ ¬ info.Fits d 1 := by
  have hlow := info.int64
  unfold Fits InRange at *
  simp only [nextValNoLock]
  by_cases hused : d.usageCount = 0
  · simp [hused, hd]
  cases hcycle : info.cycle with
  | true => simp [hused]
  | false =>
    simp only [hused]
    split_ifs <;> simp <;> omega

/-! ## All values of a call -/

/-- A value that was behind stays so, and a value that is handed out becomes so. -/
theorem behind_of_next (hcycle : info.cycle = false) (h : info.nextValNoLock d = .ok d') :
    (info.Behind d v → info.Behind d' v) ∧ info.Behind d' d'.currVal ∧
      ¬ info.Behind d d'.currVal := by
  obtain ⟨hcount, -, hfirst, hnext⟩ := nextValNoLock_ok h
  refine ⟨fun ⟨hused, hv⟩ => ⟨by omega, ?_⟩, ⟨by omega, .inl rfl⟩, fun ⟨hused, hv⟩ => ?_⟩
  · rw [hnext hcycle hused]
    rcases hv with rfl | hv
    · exact .inr precedes_add
    · exact .inr (hv.trans precedes_add)
  · rw [hnext hcycle hused] at hv
    rcases hv with heq | hv
    · exact precedes_add.ne heq.symm
    · exact (precedes_add.trans hv).ne rfl

theorem precedes_of_not_behind (hused : d.usageCount ≠ 0) (h : ¬ info.Behind d v) :
    info.Precedes d.currVal v := by
  unfold Behind Precedes at *
  simp only [hused, ne_eq, not_false_eq_true, true_and] at h
  split_ifs at h ⊢ <;> omega

/-- What every value keeps holds after a call, also one that throws. -/
theorem nextKVal_invariant (info : SequenceInfo) (P : SequenceData → Prop)
    (hnext : ∀ d d', info.nextValNoLock d = .ok d' → P d → P d') (count : Nat) (hd : P d) :
    P (info.nextKVal count d).1 := by
  induction count generalizing d with
  | zero => exact hd
  | succ _ ih =>
    rw [nextKVal]
    split
    · exact hd
    · rename_i d' h
      exact ih (hnext d d' h hd)

theorem behind_nextKVal (hcycle : info.cycle = false) (h : info.Behind d v) :
    info.Behind (info.nextKVal count d).1 v :=
  nextKVal_invariant info (info.Behind · v) (fun _ _ hd => (behind_of_next hcycle hd).1) count h

/-- The values of a call that succeeds. -/
theorem nextKVal_ok {values : List Int} (h : (info.nextKVal count d).2 = .ok values) :
    values.length = count ∧ (info.InRange d.currVal → ∀ v ∈ values, info.InRange v) ∧
      (info.cycle = false → values.Pairwise info.Precedes ∧
        ∀ v ∈ values, info.Behind (info.nextKVal count d).1 v ∧ ¬ info.Behind d v) := by
  induction count generalizing d values with
  | zero =>
    cases h
    exact ⟨rfl, nofun, fun _ => ⟨.nil, nofun⟩⟩
  | succ count ih =>
    rw [nextKVal] at h ⊢
    split at h
    · cases h
    rename_i d' hnext
    obtain ⟨rest, hrest, rfl⟩ : ∃ rest, (info.nextKVal count d').2 = .ok rest ∧
        values = d'.currVal :: rest := by
      cases hvals : (info.nextKVal count d').2 with
      | error => simp [hvals, Except.map] at h
      | ok rest => exact ⟨rest, rfl, by simpa [hvals, Except.map, eq_comm] using h⟩
    obtain ⟨hlength, hrange, hmono⟩ := ih hrest
    obtain ⟨-, hin, -, -⟩ := nextValNoLock_ok hnext
    refine ⟨by simp [hlength], fun hd => ?_, fun hcycle => ?_⟩
    · exact forall_mem_cons.mpr ⟨hin hd, hrange (hin hd)⟩
    obtain ⟨hpairwise, hbehind⟩ := hmono hcycle
    have hnew := behind_of_next (v := d'.currVal) hcycle hnext
    refine ⟨pairwise_cons.mpr ⟨fun v hv => ?_, hpairwise⟩, forall_mem_cons.mpr
      ⟨⟨behind_nextKVal hcycle hnew.2.1, hnew.2.2⟩, fun v hv => ⟨(hbehind v hv).1, fun hold => ?_⟩⟩⟩
    · exact precedes_of_not_behind hnew.2.1.1 (hbehind v hv).2
    · exact (hbehind v hv).2 ((behind_of_next hcycle hnext).1 hold)

variable (hd : info.InRange d.currVal)

include hd

/-- A value further on is in range, so the next one is. -/
theorem Fits.first (h : info.Fits d (count + 1)) : info.Fits d 1 := by
  unfold Fits InRange at *
  by_cases hused : d.usageCount = 0
  · simpa [hused] using hd
  simp only [hused, if_false, Nat.cast_add] at h ⊢
  rcases lt_or_gt_of_ne info.increment_ne with hneg | hpos
  · constructor <;> nlinarith
  · constructor <;> nlinarith

omit hd in
theorem fits_next (hcycle : info.cycle = false) (h : info.nextValNoLock d = .ok d') :
    info.Fits d' count ↔ info.Fits d (count + 1) := by
  obtain ⟨hcount, -, hfirst, hnext⟩ := nextValNoLock_ok h
  unfold Fits
  by_cases hused : d.usageCount = 0
  · simp [hcount, hused, hfirst hused]
  · rw [hnext hcycle hused]
    simp [hcount, hused, add_mul, add_assoc, add_comm]

theorem nextKVal_error_iff :
    (∃ e, (info.nextKVal count d).2 = .error e) ↔ info.cycle = false ∧ ¬ info.Fits d count := by
  induction count generalizing d with
  | zero => simpa [nextKVal, Fits] using fun _ => hd
  | succ count ih =>
    rw [nextKVal]
    split
    · rename_i e herror
      obtain ⟨hcycle, hfirst⟩ := (nextValNoLock_error_iff hd).mp ⟨e, herror⟩
      exact ⟨fun _ => ⟨hcycle, fun h => hfirst (h.first hd)⟩, fun _ => ⟨e, rfl⟩⟩
    · rename_i d' hnext
      have hrest := ih ((nextValNoLock_ok hnext).2.1 hd)
      have hmap : (∃ e, (info.nextKVal count d').2.map (d'.currVal :: ·) = .error e) ↔
          ∃ e, (info.nextKVal count d').2 = .error e := by
        cases (info.nextKVal count d').2 <;> simp [Except.map]
      rw [hmap, hrest]
      exact and_congr_right fun hcycle => not_congr (fits_next hcycle hnext)

variable (info) in
/-- A call that throws leaves the sequence as it is; one that succeeds returns `count`
values in range, without cycling each further in the direction of the increment. -/
def Exact (d : SequenceData) (count : Nat) : Prop :=
  match info.nextKVal count d with
  | (d', .error _) => d' = d
  | (_, .ok values) => values.length = count ∧ (∀ v ∈ values, info.InRange v) ∧
      (info.cycle = false → values.Pairwise info.Precedes ∧
        (d.usageCount ≠ 0 → ∀ v ∈ values, info.Precedes d.currVal v))

theorem exact_iff :
    info.Exact d count ↔ info.cycle = true ∨ info.Fits d count ∨ ¬ info.Fits d 1 := by
  have herror : (∃ e, (info.nextKVal count d).2 = .error e) ↔ _ := nextKVal_error_iff hd
  unfold Exact
  split
  · rename_i _ e hcall
    obtain ⟨hcycle, hfits⟩ := herror.mp ⟨e, by rw [hcall]⟩
    simp only [hcycle, Bool.false_eq_true, hfits, false_or]
    obtain ⟨n, rfl⟩ : ∃ n, count = n + 1 := by
      cases count with
      | zero => cases hcall
      | succ n => exact ⟨n, rfl⟩
    rw [nextKVal] at hcall
    split at hcall
    · rename_i _ hfirst
      cases hcall
      exact ⟨fun _ => ((nextValNoLock_error_iff hd).mp ⟨_, hfirst⟩).2, fun _ => rfl⟩
    · -- the first value has been taken
      rename_i d₁ hnext
      have hcount := (nextValNoLock_ok hnext).1
      have hle := nextKVal_invariant info (d₁.usageCount ≤ ·.usageCount)
        (fun _ _ h hle => le_trans hle (by rw [(nextValNoLock_ok h).1]; omega)) n (le_refl _)
      rw [(Prod.mk.inj hcall).1] at hle
      refine ⟨fun heq => ?_, fun hnot => ?_⟩
      · rw [heq] at hle
        omega
      · obtain ⟨_, he'⟩ := (nextValNoLock_error_iff hd).mpr ⟨hcycle, hnot⟩
        cases he'.symm.trans hnext
  · rename_i _ _ hcall
    obtain ⟨hlength, hrange, hmono⟩ := nextKVal_ok (congrArg Prod.snd hcall)
    refine ⟨fun _ => ?_, fun _ => ⟨hlength, hrange hd, fun hcycle => ⟨(hmono hcycle).1, ?_⟩⟩⟩
    · by_contra hnot
      simp only [not_or, Bool.not_eq_true] at hnot
      obtain ⟨_, he⟩ := herror.mpr ⟨hnot.1, hnot.2.1⟩
      rw [hcall] at he
      cases he
    · exact fun hused v hv => precedes_of_not_behind hused ((hmono hcycle).2 v hv).2

end SequenceInfo

/-! ## Transactions -/

inductive SequenceTxn where
  | active
  | committed
  | rollingBack
  deriving DecidableEq, Repr

/-- A sequence with the transactions that use it: `returned` has the values that calls
returned, newest first, each with its transaction. -/
structure SequenceHistory where
  data : SequenceData
  status : Nat → SequenceTxn := fun _ => .active
  undo : Nat → List SequenceData := fun _ => []
  returned : List (Nat × Int) := []

inductive SequenceCall where
  | nextKVal (id count : Nat)
  | commit (id : Nat)
  | startRollback (id : Nat)
  | rollbackRecord (id : Nat)
  deriving DecidableEq, Repr

namespace SequenceInfo

variable (info : SequenceInfo)

def init : SequenceHistory := { data := { currVal := info.startWith } }

/-- One step of a transaction.  A commit does nothing with the records of sequences; a
rollback visits them newest first, and `rollbackVal` restores what they hold. -/
def step (s : SequenceHistory) : SequenceCall → Option SequenceHistory
  | .nextKVal id count =>
    if s.status id = .active then
      match info.nextKVal count s.data with
      | (data, .error _) => some { s with data }
      | (data, .ok values) => some { s with
          data
          undo := update s.undo id (s.data :: s.undo id)
          returned := values.reverse.map (id, ·) ++ s.returned }
    else none
  | .commit id =>
    if s.status id = .active then
      some { s with status := update s.status id .committed }
    else none
  | .startRollback id =>
    if s.status id = .active then
      some { s with status := update s.status id .rollingBack }
    else none
  | .rollbackRecord id =>
    match s.status id, s.undo id with
    | .rollingBack, record :: rest =>
      some { s with data := record, undo := update s.undo id rest }
    | _, _ => none

/-- A rollback restores no value before one that another transaction, not itself rolling
back, has been given. -/
def RollbackOk (s : SequenceHistory) : SequenceCall → Prop
  | .rollbackRecord id => ∀ record ∈ (s.undo id).head?, ∀ p ∈ s.returned, p.1 ≠ id →
      s.status p.1 ≠ .rollingBack → info.Behind record p.2
  | _ => True

variable {info} {s s' : SequenceHistory} {call : SequenceCall}

/-- The current value and those that rollbacks restore are in range. -/
def RangeInv (info : SequenceInfo) (s : SequenceHistory) : Prop :=
  info.InRange s.data.currVal ∧ ∀ id, ∀ record ∈ s.undo id, info.InRange record.currVal

theorem RangeInv.step (h : info.RangeInv s) (hs : info.step s call = some s') :
    info.RangeInv s' := by
  cases call with
  | nextKVal id count =>
    obtain ⟨-, hs⟩ := ite_none_right_eq_some.mp hs
    have hdata := nextKVal_invariant info (info.InRange ·.currVal)
      (fun _ _ hnext => (nextValNoLock_ok hnext).2.1) count h.1
    split at hs <;> rename_i _ _ hcall <;> rw [hcall] at hdata <;> cases hs
    · exact ⟨hdata, h.2⟩
    refine ⟨hdata, fun a record hrecord => ?_⟩
    dsimp only at hrecord
    rcases eq_or_ne a id with rfl | hne
    · rw [update_self] at hrecord
      rcases mem_cons.mp hrecord with rfl | hold
      · exact h.1
      · exact h.2 a record hold
    · rw [update_of_ne hne] at hrecord
      exact h.2 a record hrecord
  | commit | startRollback =>
    obtain ⟨-, ⟨⟩⟩ := ite_none_right_eq_some.mp hs
    exact h
  | rollbackRecord id =>
    simp only [step] at hs
    split at hs <;> cases hs
    rename_i record rest _ hundo
    have hold : ∀ r ∈ record :: rest, info.InRange r.currVal := hundo ▸ h.2 id
    refine ⟨hold record mem_cons_self, fun a r hr => ?_⟩
    dsimp only at hr
    rcases eq_or_ne a id with rfl | hne
    · rw [update_self] at hr
      exact hold r (mem_cons_of_mem _ hr)
    · rw [update_of_ne hne] at hr
      exact h.2 a r hr

/-- In every history a call behaves as it should exactly if it does not run out of values
after it has taken some. -/
theorem nextKVal_exact_iff (info : SequenceInfo) (h : Reachable info.step info.init Always s)
    (count : Nat) : info.Exact s.data count ↔
      info.cycle = true ∨ info.Fits s.data count ∨ ¬ info.Fits s.data 1 := by
  have hinit : info.RangeInv info.init := ⟨info.start_mem, fun _ => forall_mem_nil _⟩
  exact exact_iff (h.invariant info.RangeInv hinit fun _ _ _ hinv _ => hinv.step).1

/-- The values 1 and 2. -/
def twoValues : SequenceInfo :=
  ⟨"s", 1, 1, 1, 2, false, by decide, by decide, by decide⟩

theorem nextKVal_exact_iff_sample : twoValues.Exact ⟨0, 1⟩ 2 ∧ ¬ twoValues.Exact ⟨0, 1⟩ 3 :=
  ⟨(nextKVal_exact_iff twoValues .init 2).mpr (.inr (.inl ⟨by decide, by decide⟩)), fun h => by
    rcases (nextKVal_exact_iff twoValues .init 3).mp h with h | h | h
    · cases h
    · exact absurd h.2 (by decide)
    · exact h ⟨by decide, by decide⟩⟩

/-- The third value does not exist, but the first two are gone. -/
theorem nextKVal_throws_midway :
    ∃ e, twoValues.nextKVal 3 twoValues.init.data = (⟨2, 2⟩, .error e) :=
  ⟨_, rfl⟩

/-- What was returned to a transaction that is not rolling back lies behind the current
value, and was not returned to another one later. -/
structure ValuesInv (info : SequenceInfo) (s : SequenceHistory) : Prop where
  behind : ∀ p ∈ s.returned, s.status p.1 ≠ .rollingBack → info.Behind s.data p.2
  apart : s.returned.Pairwise fun later earlier => later.1 ≠ earlier.1 → later.2 = earlier.2 →
    s.status earlier.1 = .rollingBack

theorem ValuesInv.restatus (h : info.ValuesInv s) {id : Nat} {status : SequenceTxn}
    (hactive : s.status id = .active) :
    info.ValuesInv { s with status := update s.status id status } := by
  have hrolling : ∀ a, s.status a = .rollingBack → update s.status id status a = .rollingBack := by
    rintro a ha
    rw [update_of_ne, ha]
    rintro rfl
    cases hactive.symm.trans ha
  exact ⟨fun p hp hne => h.behind p hp fun heq => hne (hrolling _ heq),
    h.apart.imp fun hold hne heq => hrolling _ (hold hne heq)⟩

theorem ValuesInv.step (hcycle : info.cycle = false) (h : info.ValuesInv s)
    (hok : info.RollbackOk s call) (hs : info.step s call = some s') : info.ValuesInv s' := by
  cases call with
  | nextKVal id count =>
    obtain ⟨-, hs⟩ := ite_none_right_eq_some.mp hs
    have hbehind : ∀ v, info.Behind s.data v → info.Behind (info.nextKVal count s.data).1 v :=
      fun _ => behind_nextKVal hcycle
    split at hs
    · rename_i _ e hcall
      rw [hcall] at hbehind
      cases hs
      exact ⟨fun p hp hne => hbehind _ (h.behind p hp hne), h.apart⟩
    rename_i _ values hcall
    obtain ⟨-, -, hmono⟩ := nextKVal_ok (congrArg Prod.snd hcall)
    have hnew := (hmono hcycle).2
    rw [hcall] at hbehind hnew
    cases hs
    have hmem : ∀ p ∈ values.reverse.map (id, ·), p.1 = id ∧ p.2 ∈ values := by
      intro p hp
      obtain ⟨_, hv, rfl⟩ := mem_map.mp hp
      exact ⟨rfl, mem_reverse.mp hv⟩
    refine ⟨forall_mem_append.mpr ⟨fun p hp _ => (hnew _ (hmem p hp).2).1,
      fun p hp hne => hbehind _ (h.behind p hp hne)⟩, pairwise_append.mpr
        ⟨pairwise_of_forall_mem_list fun p hp q hq hne => ?_, h.apart, fun p hp q hq _ heq => ?_⟩⟩
    · exact absurd ((hmem p hp).1.trans (hmem q hq).1.symm) hne
    · -- a new value is not behind the current one
      by_contra hne
      exact (hnew _ (hmem p hp).2).2 (heq ▸ h.behind q hq hne)
  | commit | startRollback =>
    obtain ⟨hactive, ⟨⟩⟩ := ite_none_right_eq_some.mp hs
    exact h.restatus hactive
  | rollbackRecord =>
    simp only [step] at hs
    split at hs <;> cases hs
    rename_i record _ hstatus hundo
    refine ⟨fun p hp hne => hok record (by rw [hundo]; rfl) p hp ?_ hne, h.apart⟩
    rintro rfl
    exact hne hstatus

/-- In every interleaving of calls, commits and rollbacks in which no rollback restores a
value before one that another transaction holds, a value that was returned to a
transaction that commits is not returned to another one again. -/
theorem committed_values_unique (info : SequenceInfo) (hcycle : info.cycle = false)
    (h : Reachable info.step info.init info.RollbackOk s) :
    s.returned.Pairwise fun later earlier => later.1 ≠ earlier.1 → later.2 = earlier.2 →
      s.status earlier.1 ≠ .committed := by
  have hinit : info.ValuesInv info.init := ⟨forall_mem_nil _, .nil⟩
  have hinv := h.invariant info.ValuesInv hinit fun _ _ _ hinv => hinv.step hcycle
  refine hinv.apart.imp fun hold hne heq => ?_
  rw [hold hne heq]
  exact nofun

/-- The value of a rollback is returned again, to two transactions one after the other. -/
theorem committed_values_unique_sample :
    ∃ s, Reachable twoValues.step twoValues.init twoValues.RollbackOk s ∧
      s.returned = [(3, 2), (2, 1), (1, 1)] ∧ s.status 2 = .committed ∧
      s.returned.Pairwise fun later earlier => later.1 ≠ earlier.1 → later.2 = earlier.2 →
        s.status earlier.1 ≠ .committed := by
  have hrun : Reachable twoValues.step twoValues.init twoValues.RollbackOk _ :=
    .step (.nextKVal 3 1) (.step (.commit 2) (.step (.nextKVal 2 1) (.step (.rollbackRecord 1)
      (.step (.startRollback 1) (.step (.nextKVal 1 1) .init trivial rfl) trivial rfl)
      (fun _ _ p hp hne => absurd (by rw [mem_singleton.mp hp]) hne) rfl) trivial rfl)
      trivial rfl) trivial rfl
  exact ⟨_, hrun, rfl, rfl, committed_values_unique twoValues rfl hrun⟩

/-- Two transactions overlap; the first one rolls back after the second one committed. -/
def overlappingCalls : List SequenceCall :=
  [.nextKVal 1 1, .nextKVal 2 1, .commit 2, .startRollback 1, .rollbackRecord 1, .nextKVal 3 2]

/-- The value of the second transaction is returned to a third one. -/
theorem committed_value_returned_again :
    ∃ s, Reachable twoValues.step twoValues.init Always s ∧ s.status 2 = .committed ∧
      s.returned = [(3, 2), (3, 1), (2, 2), (1, 1)] :=
  reachable_of_run overlappingCalls (by decide +kernel)

end SequenceInfo

end Lbug.Catalog
