/-
  Processor/AggregateGroups.lean --- one entry per group.

  A table is valid if its entries have different keys, every entry has one slot, and the
  slots respect linear probing.  Finding the entries of a vector of rows keeps the table
  valid, makes entries for the keys that were missing, and gives every row a slot with
  an entry of its key: in each round a row has passed entries with other keys only, so
  that a free slot shows that its key is missing.  Growing a table only moves its slots.
-/
import Lbug.Processor.AggregateHashTable

namespace Lbug.Processor

open Foundation List Function Option

universe u v

variable {V : Type u} {B : Type v}

namespace HashTable

/-- The slot where the walk to an entry starts. -/
def home (t : HashTable V B) (slot : HashSlot) : Nat :=
  t.getSlotIdxForHash (((t.entries[slot.entry]?).map (·.hash)).getD 0)

/-- A table of groups with `numKeys` key columns. -/
structure Valid (t : HashTable V B) (hashKey : GroupKey V → Nat) (numKeys : Nat) : Prop where
  keys_nodup : (t.entries.map (·.key)).Nodup
  hash_eq : ∀ e ∈ t.entries, e.hash = hashKey e.key
  key_length : ∀ e ∈ t.entries, e.key.length = numKeys
  slot_entry : ∀ s slot, t.slots s = some slot →
    ∃ e, t.entries[slot.entry]? = some e ∧ slot.fingerprint = fingerprint e.hash
  entry_slot : ∀ i < t.entries.length, ∃ s slot, t.slots s = some slot ∧ slot.entry = i
  slot_injective : ∀ s s' slot slot', t.slots s = some slot → t.slots s' = some slot' →
    slot.entry = slot'.entry → s = s'
  probed : Probed t.maxNumHashSlots t.home t.slots

/-- A row that a table with these keys and this hash function takes. -/
def RowOk (hashKey : GroupKey V → Nat) (numKeys : Nat) (row : Entry V B) : Prop :=
  row.hash = hashKey row.key ∧ row.key.length = numKeys

/-- A table that has more entries, and all slots of the other one. -/
structure Extends (t t' : HashTable V B) : Prop where
  maxNumHashSlots_eq : t'.maxNumHashSlots = t.maxNumHashSlots
  slots : ∀ s slot, t.slots s = some slot → t'.slots s = some slot
  entries : ∃ new, t'.entries = t.entries ++ new

theorem Extends.refl (t : HashTable V B) : Extends t t :=
  ⟨rfl, fun _ _ h => h, [], (append_nil _).symm⟩

variable {t' : HashTable V B} {t t'' : HashTable V B}

theorem Extends.trans (h : Extends t t') (h' : Extends t' t'') : Extends t t'' := by
  refine ⟨h'.maxNumHashSlots_eq.trans h.maxNumHashSlots_eq,
    fun s slot hs => h'.slots s slot (h.slots s slot hs), ?_⟩
  obtain ⟨new, hnew⟩ := h.entries
  obtain ⟨new', hnew'⟩ := h'.entries
  exact ⟨new ++ new', by rw [hnew', hnew, append_assoc]⟩

variable {t t' : HashTable V B} {hashKey : GroupKey V → Nat} {numKeys i s r idx : Nat}
  {e row : Entry V B}
  {rows : Nat → Entry V B} {slotIdxes : Nat → Nat} {mayMatch noMatch : List Nat} {n : Nat}

theorem Extends.getElem? (h : Extends t t') (he : t.entries[i]? = some e) :
    t'.entries[i]? = some e := by
  obtain ⟨_, hnew⟩ := h.entries
  rw [hnew]
  exact getElem?_append_left (List.getElem?_eq_some_iff.mp he).1 ▸ he

theorem entryAt_eq_some :
    t.entryAt s = some e ↔ ∃ slot, t.slots s = some slot ∧ t.entries[slot.entry]? = some e :=
  bind_eq_some_iff

theorem Extends.entryAt (h : Extends t t') (he : t.entryAt s = some e) : t'.entryAt s = some e := by
  obtain ⟨slot, hs, he⟩ := entryAt_eq_some.mp he
  exact entryAt_eq_some.mpr ⟨slot, h.slots s slot hs, h.getElem? he⟩

theorem extends_claim (hfree : t.slots s = none) (row : Entry V B) : Extends t (t.claim s row) := by
  refine ⟨rfl, fun s' slot hs' => ?_, [row], rfl⟩
  have hne : s' ≠ s := by
    rintro rfl
    rw [hfree] at hs'
    cases hs'
  exact (update_of_ne hne _ _).trans hs'

/-- The slots that a row looks at. -/
def walk (t : HashTable V B) (row : Entry V B) (d : Nat) : Nat :=
  probe t.maxNumHashSlots (t.getSlotIdxForHash row.hash) d

/-- The row has passed entries with other keys in its first steps. -/
def Passed (t : HashTable V B) (row : Entry V B) (r : Nat) : Prop :=
  ∀ j < r, ∃ e, t.entryAt (t.walk row j) = some e ∧ e.key ≠ row.key

theorem Extends.walk (h : Extends t t') (row : Entry V B) (d : Nat) :
    t'.walk row d = t.walk row d := by
  rw [HashTable.walk, HashTable.walk, getSlotIdxForHash, getSlotIdxForHash, h.maxNumHashSlots_eq]

theorem Extends.passed (h : Extends t t') (hp : t.Passed row r) : t'.Passed row r := by
  intro j hj
  obtain ⟨e, he, hne⟩ := hp j hj
  exact ⟨e, by rw [h.walk]; exact h.entryAt he, hne⟩

namespace Valid

variable (h : t.Valid hashKey numKeys) {d : Nat}

include h

theorem home_eq {slot : HashSlot} (he : t.entries[slot.entry]? = some e) (hkey : e.key = row.key)
    (hrow : RowOk hashKey numKeys row) :
    t.home slot = t.getSlotIdxForHash row.hash := by
  have hhash : e.hash = row.hash := by
    rw [h.hash_eq e (mem_of_getElem? he), hkey, hrow.1]
  simp [home, he, hhash]

/-- A row that has come to a free slot has a key that is not in the table. -/
theorem key_not_mem (hrow : RowOk hashKey numKeys row) (hpassed : t.Passed row d)
    (hfree : t.slots (t.walk row d) = none) :
    row.key ∉ t.entries.map (·.key) := by
  intro hmem
  obtain ⟨_, he, hkey⟩ := mem_map.mp hmem
  obtain ⟨i, hi, rfl⟩ := getElem_of_mem he
  obtain ⟨_, slot, hs, rfl⟩ := h.entry_slot i hi
  have hget : t.entries[slot.entry]? = some t.entries[slot.entry] := getElem?_eq_getElem hi
  have hhome := h.home_eq hget hkey hrow
  -- the walk has passed the slot of the entry, and found another key there
  obtain ⟨j, hj, hslot⟩ := h.probed.found hs (by rw [hhome]; exact hfree)
  rw [hhome] at hslot
  obtain ⟨_, he', hne⟩ := hpassed j hj
  obtain ⟨slot', hslot', hget'⟩ := entryAt_eq_some.mp he'
  obtain rfl : slot = slot' := some.inj (hslot.symm.trans hslot')
  exact hne (some.inj (hget.symm.trans hget') ▸ hkey)

theorem claim (hrow : RowOk hashKey numKeys row) (hpassed : t.Passed row d)
    (hfree : t.slots (t.walk row d) = none) :
    (t.claim (t.walk row d) row).Valid hashKey numKeys := by
  have hext := extends_claim hfree row
  have hnew : (t.claim (t.walk row d) row).slots (t.walk row d) =
      some ⟨fingerprint row.hash, t.entries.length⟩ := update_self _ _ _
  have hold : ∀ s slot, (t.claim (t.walk row d) row).slots s = some slot →
      s ≠ t.walk row d → t.slots s = some slot := fun s slot hs hne =>
    (update_of_ne hne _ _).symm.trans hs
  have hlast : (t.entries ++ [row])[t.entries.length]? = some row := by simp
  have hlt : ∀ s slot, t.slots s = some slot → slot.entry < t.entries.length := fun s slot hs => by
    obtain ⟨_, he, -⟩ := h.slot_entry s slot hs
    exact (List.getElem?_eq_some_iff.mp he).1
  constructor
  case keys_nodup =>
    have hkeys := h.key_not_mem hrow hpassed hfree
    simp only [HashTable.claim, map_append, map_cons]
    exact nodup_append.mpr ⟨h.keys_nodup, by simp, fun k hk k' hk' hkk' => hkeys (by
      rw [mem_singleton.mp hk'] at hkk'
      exact hkk' ▸ hk)⟩
  case hash_eq => exact forall_mem_append.mpr ⟨h.hash_eq, by simpa using hrow.1⟩
  case key_length => exact forall_mem_append.mpr ⟨h.key_length, by simpa using hrow.2⟩
  case slot_entry =>
    intro s slot hs
    rcases eq_or_ne s (t.walk row d) with rfl | hne
    · rw [hnew] at hs
      cases hs
      exact ⟨row, hlast, rfl⟩
    · obtain ⟨e, he, hf⟩ := h.slot_entry s slot (hold s slot hs hne)
      exact ⟨e, hext.getElem? he, hf⟩
  case entry_slot =>
    intro i hi
    have hi : i < t.entries.length + 1 := by simpa [HashTable.claim] using hi
    rcases Nat.lt_succ_iff_lt_or_eq.mp hi with hi | rfl
    · obtain ⟨s, slot, hs, hslot⟩ := h.entry_slot i hi
      exact ⟨s, slot, hext.slots s slot hs, hslot⟩
    · exact ⟨_, _, hnew, rfl⟩
  case slot_injective =>
    intro s s' slot slot' hs hs' heq
    rcases eq_or_ne s (t.walk row d) with rfl | hne <;>
      rcases eq_or_ne s' (t.walk row d) with rfl | hne'
    · rfl
    · rw [hnew] at hs
      cases hs
      exact absurd (hlt s' slot' (hold s' slot' hs' hne')) (by simp [← heq])
    · rw [hnew] at hs'
      cases hs'
      exact absurd (hlt s slot (hold s slot hs hne)) (by simp [heq])
    · exact h.slot_injective s s' slot slot' (hold s slot hs hne) (hold s' slot' hs' hne') heq
  case probed =>
    -- the new entry does not change where the walks to the others start
    have hprobed : Probed t.maxNumHashSlots (t.claim (t.walk row d) row).home t.slots :=
      h.probed.congr fun s slot hs => by
        obtain ⟨_, he, -⟩ := h.slot_entry s slot hs
        have he' := hext.getElem? he
        simp only [home, he, he']
        rfl
    have hhome : (t.claim (t.walk row d) row).home ⟨fingerprint row.hash, t.entries.length⟩ =
        t.getSlotIdxForHash row.hash := by
      simp [home, HashTable.claim, getSlotIdxForHash]
    have hbefore : ∀ j < d, (t.slots (probe t.maxNumHashSlots
        ((t.claim (t.walk row d) row).home ⟨fingerprint row.hash, t.entries.length⟩)
          j)).isSome := by
      intro j hj
      obtain ⟨_, he, -⟩ := hpassed j hj
      obtain ⟨slot, hslot, -⟩ := entryAt_eq_some.mp he
      rw [hhome]
      exact isSome_iff_exists.mpr ⟨slot, hslot⟩
    have hins := hprobed.insert hbefore
    rw [hhome] at hins
    exact hins

/-- A row does not pass the whole of a table that has a free slot. -/
theorem passed_lt (hfree : t.entries.length < t.maxNumHashSlots) (hpassed : t.Passed row r) :
    r < t.maxNumHashSlots := by
  obtain ⟨d, hd, hnone⟩ := exists_probe_none (fun slot : HashSlot => slot.entry)
    (fun s slot hs => by
      obtain ⟨_, he, -⟩ := h.slot_entry s slot hs
      exact (List.getElem?_eq_some_iff.mp he).1)
    h.slot_injective hfree (t.getSlotIdxForHash row.hash)
  rcases lt_or_ge r t.maxNumHashSlots with hr | hr
  · exact hr
  · obtain ⟨_, he, -⟩ := hpassed d (lt_of_lt_of_le hd hr)
    obtain ⟨_, hslot, -⟩ := entryAt_eq_some.mp he
    have hnone' : t.slots (t.walk row d) = none := hnone
    rw [hnone'] at hslot
    cases hslot

end Valid

/-! ## A round -/

/-- What a round knows of a row before it: it has come to its slot, past other keys. -/
def AtSlot (t : HashTable V B) (slotIdxes : Nat → Nat) (rows : Nat → Entry V B) (r idx : Nat) :
    Prop :=
  slotIdxes idx = t.walk (rows idx) r ∧ t.Passed (rows idx) r

theorem Extends.atSlot (h : Extends t t') (hat : t.AtSlot slotIdxes rows r idx) :
    t'.AtSlot slotIdxes rows r idx :=
  ⟨hat.1.trans (h.walk _ _).symm, h.passed hat.2⟩

/-- The slot of the row has an entry with its key. -/
def Found (t : HashTable V B) (slotIdxes : Nat → Nat) (rows : Nat → Entry V B) (idx : Nat) : Prop :=
  ∃ e, t.entryAt (slotIdxes idx) = some e ∧ e.key = (rows idx).key

theorem Extends.found (h : Extends t t') (hf : t.Found slotIdxes rows idx) :
    t'.Found slotIdxes rows idx := by
  obtain ⟨e, he, hkey⟩ := hf
  exact ⟨e, h.entryAt he, hkey⟩

/-- A table that has grown by entries of some of the rows. -/
structure GrownBy (rows : Nat → Entry V B) (pending : List Nat) (t t' : HashTable V B) : Prop where
  extend : Extends t t'
  mem : ∀ e ∈ t'.entries, e ∈ t.entries ∨ ∃ idx ∈ pending, e = rows idx

theorem GrownBy.refl (rows : Nat → Entry V B) (pending : List Nat) (t : HashTable V B) :
    GrownBy rows pending t t :=
  ⟨.refl t, fun _ he => .inl he⟩

theorem GrownBy.trans {pending pending' : List Nat} (h : GrownBy rows pending t t')
    (h' : GrownBy rows pending' t' t'') (hsub : ∀ idx ∈ pending', idx ∈ pending) :
    GrownBy rows pending t t'' := by
  refine ⟨h.extend.trans h'.extend, fun e he => ?_⟩
  rcases h'.mem e he with he | ⟨idx, hidx, rfl⟩
  · exact h.mem e he
  · exact .inr ⟨idx, hsub idx hidx, rfl⟩

theorem claimSlots_spec (pending : List Nat) (t : HashTable V B) (h : t.Valid hashKey numKeys)
    (hrows : ∀ idx ∈ pending, RowOk hashKey numKeys (rows idx))
    (hat : ∀ idx ∈ pending, t.AtSlot slotIdxes rows r idx)
    (hclaim : claimSlots rows slotIdxes pending t = (t', mayMatch, noMatch)) :
    t'.Valid hashKey numKeys ∧ GrownBy rows pending t t' ∧
    t'.entries.length + (mayMatch.length + noMatch.length) = t.entries.length + pending.length ∧
    (∀ idx ∈ mayMatch, idx ∈ pending ∧ ∃ e, t'.entryAt (slotIdxes idx) = some e) ∧
    (∀ idx ∈ noMatch, idx ∈ pending ∧
      ∃ e, t'.entryAt (slotIdxes idx) = some e ∧ e.key ≠ (rows idx).key) ∧
    ∀ idx ∈ pending, idx ∈ mayMatch ∨ idx ∈ noMatch ∨ t'.Found slotIdxes rows idx := by
  induction pending generalizing t t' mayMatch noMatch with
  | nil =>
    cases hclaim
    exact ⟨h, .refl _ _ _, rfl, by simp, by simp, by simp⟩
  | cons idx rest ih =>
    obtain ⟨⟨hslot, hpassed⟩, hatRest⟩ := forall_mem_cons.mp hat
    obtain ⟨hrow, hrest⟩ := forall_mem_cons.mp hrows
    have hlater : ∀ {P : Nat → Prop} {l : List Nat}, (∀ i ∈ l, i ∈ rest ∧ P i) →
        ∀ i ∈ l, i ∈ idx :: rest ∧ P i := fun h i hi =>
      ⟨mem_cons_of_mem _ (h i hi).1, (h i hi).2⟩
    rw [claimSlots] at hclaim
    cases hs : t.slots (slotIdxes idx) with
    | none =>
      -- the row takes the slot; the rest goes on with the larger table
      rw [hs] at hclaim
      have hfree : t.slots (t.walk (rows idx) r) = none := hslot ▸ hs
      have hext := extends_claim hs (rows idx)
      have hvalid : (t.claim (slotIdxes idx) (rows idx)).Valid hashKey numKeys := by
        rw [hslot]
        exact h.claim hrow hpassed hfree
      have hfound : (t.claim (slotIdxes idx) (rows idx)).Found slotIdxes rows idx :=
        ⟨rows idx, entryAt_eq_some.mpr ⟨_, update_self _ _ _, by simp [claim]⟩, rfl⟩
      obtain ⟨hv, hgrown, hlen, hmay, hno, hall⟩ := ih _ hvalid hrest
        (fun i hi => hext.atSlot (hatRest i hi)) hclaim
      have hfirst : GrownBy rows (idx :: rest) t (t.claim (slotIdxes idx) (rows idx)) := by
        refine ⟨hext, fun e he => ?_⟩
        rcases mem_append.mp he with he | he
        · exact .inl he
        · exact .inr ⟨idx, mem_cons_self, mem_singleton.mp he⟩
      refine ⟨hv, hfirst.trans hgrown fun i hi => mem_cons_of_mem _ hi, ?_, hlater hmay,
        hlater hno, forall_mem_cons.mpr ⟨.inr (.inr (hgrown.extend.found hfound)), hall⟩⟩
      simp only [claim, length_append, length_cons, length_nil] at hlen ⊢
      omega
    | some slot =>
      rw [hs] at hclaim
      rcases hr : claimSlots rows slotIdxes rest t with ⟨t₁, _, _⟩
      simp only [hr] at hclaim
      obtain ⟨hv, hgrown, hlen, hmay, hno, hall⟩ := ih t h hrest hatRest hr
      obtain ⟨e, he, hfp⟩ := h.slot_entry _ _ hs
      have hentry : t₁.entryAt (slotIdxes idx) = some e :=
        hgrown.extend.entryAt (entryAt_eq_some.mpr ⟨slot, hs, he⟩)
      have hgrown' : GrownBy rows (idx :: rest) t t₁ :=
        ⟨hgrown.extend, fun e he => (hgrown.mem e he).imp_right fun ⟨i, hi, hei⟩ =>
          ⟨i, mem_cons_of_mem _ hi, hei⟩⟩
      split_ifs at hclaim with hne
      · cases hclaim
        refine ⟨hv, hgrown', ?_, ?_, hlater hno, ?_⟩
        · simp only [length_cons] at hlen ⊢
          omega
        · exact forall_mem_cons.mpr ⟨⟨mem_cons_self, e, hentry⟩, hlater hmay⟩
        · exact forall_mem_cons.mpr ⟨.inl mem_cons_self, fun i hi =>
            (hall i hi).imp_left fun hi => mem_cons_of_mem _ hi⟩
      · cases hclaim
        -- different fingerprints come from different hashes, and these from different keys
        have hkey : e.key ≠ (rows idx).key := by
          intro hkey
          apply hne
          rw [hfp, h.hash_eq e (mem_of_getElem? he), hkey, hrow.1]
        refine ⟨hv, hgrown', ?_, hlater hmay, ?_, ?_⟩
        · simp only [length_cons] at hlen ⊢
          omega
        · exact forall_mem_cons.mpr ⟨⟨mem_cons_self, e, hentry, hkey⟩, hlater hno⟩
        · exact forall_mem_cons.mpr ⟨.inr (.inl mem_cons_self), fun i hi =>
            (hall i hi).imp_right fun hi => hi.imp_left fun hi => mem_cons_of_mem _ hi⟩

section Match

variable [DecidableEq V] {colIdxes : List Nat}

theorem mem_matchFTEntries :
    idx ∈ t.matchFTEntries rows slotIdxes colIdxes mayMatch noMatch ↔ idx ∈ noMatch ∨
        idx ∈ mayMatch ∧ ∃ c ∈ colIdxes, t.matchesColumn rows slotIdxes c idx = false := by
  induction colIdxes generalizing mayMatch noMatch with
  | nil => simp [matchFTEntries]
  | cons c _ ih =>
    rw [matchFTEntries, ih]
    simp only [mem_append, mem_filter, mem_cons, exists_eq_or_imp]
    cases hc : t.matchesColumn rows slotIdxes c idx <;> simp

theorem length_matchFTEntries_le :
    (t.matchFTEntries rows slotIdxes colIdxes mayMatch noMatch).length ≤
      mayMatch.length + noMatch.length := by
  induction colIdxes generalizing mayMatch noMatch with
  | nil => simp [matchFTEntries]
  | cons c _ ih =>
    have hsplit : ∀ l : List Nat, (l.filter fun i => t.matchesColumn rows slotIdxes c i).length +
          (l.filter fun i => !t.matchesColumn rows slotIdxes c i).length = l.length := fun l =>
      length_eq_length_filter_add _ |>.symm
    have hlen := hsplit mayMatch
    refine ih.trans ?_
    rw [length_append]
    omega

/-- Rows that agree with their entry in every column have its key. -/
theorem key_eq_of_matches (he : t.entryAt (slotIdxes idx) = some e) (helen : e.key.length = numKeys)
    (hlen : (rows idx).key.length = numKeys)
    (hall : ∀ c ∈ List.range numKeys, t.matchesColumn rows slotIdxes c idx ≠ false) :
    e.key = (rows idx).key := by
  refine ext_getElem? fun c => ?_
  rcases lt_or_ge c numKeys with hc | hc
  · have := hall c (mem_range.mpr hc)
    simpa [matchesColumn, he] using this
  · rw [getElem?_eq_none (by omega), getElem?_eq_none (by omega)]

/-- Every row of a vector gets a slot with an entry of its key; the table grows by the
entries of rows whose keys were missing. -/
theorem findHashSlotsLoop_spec (fuel : Nat) (pending : List Nat) (slotIdxes : Nat → Nat)
    (t : HashTable V B) (r : Nat) (h : t.Valid hashKey numKeys)
    (hrows : ∀ idx ∈ pending, RowOk hashKey numKeys (rows idx))
    (hat : ∀ idx ∈ pending, t.AtSlot slotIdxes rows r idx)
    (hfree : t.entries.length + pending.length < t.maxNumHashSlots)
    (hfuel : t.maxNumHashSlots ≤ fuel + r) :
    ∃ t' slotIdxes', findHashSlotsLoop numKeys rows fuel pending slotIdxes t =
        some (t', slotIdxes') ∧
      t'.Valid hashKey numKeys ∧ GrownBy rows pending t t' ∧
      t'.entries.length ≤ t.entries.length + pending.length ∧
      (∀ idx ∉ pending, slotIdxes' idx = slotIdxes idx) ∧
      ∀ idx ∈ pending, t'.Found slotIdxes' rows idx := by
  induction fuel generalizing pending slotIdxes t r with
  | zero =>
    cases pending with
    | nil =>
      exact ⟨t, slotIdxes, rfl, h, .refl _ _ _, by simp, fun _ _ => rfl, by simp⟩
    | cons idx =>
      have hlt := h.passed_lt (by omega) (hat idx mem_cons_self).2
      omega
  | succ _ ih =>
    cases pending with
    | nil =>
      exact ⟨t, slotIdxes, rfl, h, .refl _ _ _, by simp, fun _ _ => rfl, by simp⟩
    | cons idx rest =>
      rcases hclaim : claimSlots rows slotIdxes (idx :: rest) t with ⟨t₁, mayMatch, noMatch⟩
      obtain ⟨hv, hgrown, hlen, hmay, hno, hall⟩ := claimSlots_spec _ t h hrows hat hclaim
      set left := t₁.matchFTEntries rows slotIdxes (range numKeys) mayMatch noMatch
      set next : Nat → Nat := fun i =>
        if i ∈ left then (slotIdxes i + 1) % t.maxNumHashSlots else slotIdxes i with hnext
      have hcap := hgrown.extend.maxNumHashSlots_eq
      have hleftLen : left.length ≤ mayMatch.length + noMatch.length := length_matchFTEntries_le
      have hsub : ∀ i ∈ left, i ∈ idx :: rest := fun i hi => by
        rcases mem_matchFTEntries.mp hi with hi | ⟨hi, -⟩
        · exact (hno i hi).1
        · exact (hmay i hi).1
      -- a row that is left has met another key in this round
      have hmet : ∀ i ∈ left, ∃ e, t₁.entryAt (slotIdxes i) = some e ∧ e.key ≠ (rows i).key := by
        intro i hi
        rcases mem_matchFTEntries.mp hi with hi | ⟨hi, _, -, hc⟩
        · exact (hno i hi).2
        · obtain ⟨e, he⟩ := (hmay i hi).2
          refine ⟨e, he, fun hkey => ?_⟩
          simp [matchesColumn, he, hkey] at hc
      have hfound : ∀ i ∈ idx :: rest, i ∉ left → t₁.Found slotIdxes rows i := by
        intro i hi hnot
        rcases hall i hi with hi' | hi' | hi'
        · obtain ⟨e, he⟩ := (hmay i hi').2
          refine ⟨e, he, key_eq_of_matches he ?_ (hrows i hi).2 fun c hc hfalse => ?_⟩
          · obtain ⟨_, -, hget⟩ := entryAt_eq_some.mp he
            exact hv.key_length e (mem_of_getElem? hget)
          · exact hnot (mem_matchFTEntries.mpr (.inr ⟨hi', c, hc, hfalse⟩))
        · exact absurd (mem_matchFTEntries.mpr (.inl hi')) hnot
        · exact hi'
      have hat' : ∀ i ∈ left, t₁.AtSlot next rows (r + 1) i := by
        intro i hi
        obtain ⟨hslot, hpassed⟩ := hgrown.extend.atSlot (hat i (hsub i hi))
        have hni : next i = t₁.walk (rows i) (r + 1) := by
          simp only [hnext, if_pos hi, hslot, ← hcap]
          exact probe_succ _ _ _
        refine ⟨hni, fun j hj => ?_⟩
        rcases Nat.lt_succ_iff_lt_or_eq.mp hj with hj | rfl
        · exact hpassed j hj
        · rw [← hslot]
          exact hmet i hi
      obtain ⟨t', slotIdxes', hloop, hv', hgrown', hlen', hsame, hfound'⟩ :=
        ih left next t₁ (r + 1) hv (fun i hi => hrows i (hsub i hi)) hat'
          (by rw [hcap]; simp only [length_cons] at hlen hfree; omega) (by omega)
      refine ⟨t', slotIdxes', ?_, hv', hgrown.trans hgrown' hsub,
        ?_, fun i hi => ?_, fun i hi => ?_⟩
      · rw [findHashSlotsLoop, hclaim]
        exact hloop
      · simp only [length_cons] at hlen ⊢
        omega
      · have hnot : i ∉ left := fun hil => hi (hsub i hil)
        rw [hsame i hnot]
        exact if_neg hnot
      · by_cases hil : i ∈ left
        · exact hfound' i hil
        · obtain ⟨e, he, hkey⟩ := hgrown'.extend.found (hfound i hi hil)
          refine ⟨e, ?_, hkey⟩
          rw [hsame i hil, hnext]
          simpa only [if_neg hil] using he

variable (h : t.Valid hashKey numKeys)

include h

theorem findHashSlots_spec {positions : List Nat}
    (hrows : ∀ idx ∈ positions, RowOk hashKey numKeys (rows idx))
    (hfree : t.entries.length + positions.length < t.maxNumHashSlots) :
    ∃ t' slotIdxes, t.findHashSlots numKeys rows positions = some (t', slotIdxes) ∧
      t'.Valid hashKey numKeys ∧ GrownBy rows positions t t' ∧
      t'.entries.length ≤ t.entries.length + positions.length ∧
      ∀ idx ∈ positions, t'.Found slotIdxes rows idx := by
  have hpos : 0 < t.maxNumHashSlots := by omega
  obtain ⟨t', slotIdxes, hloop, hv, hgrown, hlen, -, hfound⟩ :=
    findHashSlotsLoop_spec t.maxNumHashSlots positions
      (fun idx => t.getSlotIdxForHash (rows idx).hash) t 0 h hrows
      (fun idx _ => ⟨(probe_zero (Nat.mod_lt _ hpos)).symm, fun j hj => absurd hj (by omega)⟩)
      hfree (by omega)
  exact ⟨t', slotIdxes, hloop, hv, hgrown, hlen, hfound⟩

variable (hfree : t.entries.length < t.maxNumHashSlots)

include hfree

/-- The walk to an entry, from any step before it. -/
theorem findEntryLoop_spec (hi : t.entries[i]? = some row) (fuel r : Nat) (hpassed : t.Passed row r)
    (hfuel : t.maxNumHashSlots ≤ fuel + r) :
    t.findEntryLoop row.key row.hash fuel (t.walk row r) = some i := by
  have hmem := mem_of_getElem? hi
  have hrow : RowOk hashKey numKeys row := ⟨h.hash_eq row hmem, h.key_length row hmem⟩
  induction fuel generalizing r with
  | zero =>
    have hlt := h.passed_lt hfree hpassed
    omega
  | succ _ ih =>
    rw [findEntryLoop]
    cases hs : t.slots (t.walk row r) with
    | none =>
      exact absurd (mem_map.mpr ⟨row, hmem, rfl⟩) (h.key_not_mem hrow hpassed hs)
    | some slot =>
      obtain ⟨e, he, hfp⟩ := h.slot_entry _ _ hs
      have hat : t.entryAt (t.walk row r) = some e := entryAt_eq_some.mpr ⟨slot, hs, he⟩
      dsimp only
      by_cases hkey : e.key = row.key
      · have hhash : e.hash = row.hash := by
          rw [h.hash_eq e (mem_of_getElem? he), hkey, hrow.1]
        rw [if_pos ⟨by rw [hfp, hhash], by rw [he, map_some, hkey]⟩]
        -- the entries have different keys, so this is the one looked for
        have hkeys : (t.entries.map (·.key))[slot.entry]? = (t.entries.map (·.key))[i]? := by
          rw [List.getElem?_map, List.getElem?_map, he, hi, map_some, map_some, hkey]
        have hlt : slot.entry < (t.entries.map (·.key)).length := by
          rw [length_map]
          exact (List.getElem?_eq_some_iff.mp he).1
        exact congrArg some ((getElem?_inj hlt h.keys_nodup).mp hkeys)
      · rw [if_neg (by rw [he]; exact fun hand => hkey (some.inj hand.2)),
          walk, probe_succ]
        refine ih (r + 1) (fun j hj => ?_) (by omega)
        rcases Nat.lt_succ_iff_lt_or_eq.mp hj with hj | rfl
        · exact hpassed j hj
        · exact ⟨e, hat, hkey⟩

theorem findEntry_spec (hi : t.entries[i]? = some e) :
    t.findEntry e.key (hashKey e.key) = some i := by
  have hloop := findEntryLoop_spec h hfree hi t.maxNumHashSlots 0
    (fun j hj => absurd hj (by omega)) (by omega)
  rw [h.hash_eq e (mem_of_getElem? hi)] at hloop
  have hzero : t.walk e 0 = t.getSlotIdxForHash (hashKey e.key) := by
    rw [walk, h.hash_eq e (mem_of_getElem? hi)]
    exact probe_zero (Nat.mod_lt _ (by omega))
  rw [hzero] at hloop
  exact hloop

end Match

/-! ## Growing -/

/-- An entry with a new key is put into the first free slot of its walk. -/
theorem fillHashSlot_spec (h : t.Valid hashKey numKeys)
    (hfree : t.entries.length < t.maxNumHashSlots) (hkey : row.key ∉ t.entries.map (·.key))
    (fuel r : Nat) (hpassed : t.Passed row r) (hfuel : t.maxNumHashSlots ≤ fuel + r) :
    ∃ d, t.Passed row d ∧ t.slots (t.walk row d) = none ∧
      fillHashSlot t.maxNumHashSlots row.hash t.entries.length fuel (t.walk row r) t.slots =
        some (t.claim (t.walk row d) row).slots := by
  induction fuel generalizing r with
  | zero =>
    have hlt := h.passed_lt hfree hpassed
    omega
  | succ _ ih =>
    rw [fillHashSlot]
    cases hs : t.slots (t.walk row r) with
    | none => exact ⟨r, hpassed, hs, rfl⟩
    | some slot =>
      obtain ⟨e, he, -⟩ := h.slot_entry _ _ hs
      rw [walk, probe_succ]
      refine ih (r + 1) (fun j hj => ?_) (by omega)
      rcases Nat.lt_succ_iff_lt_or_eq.mp hj with hj | rfl
      · exact hpassed j hj
      · refine ⟨e, entryAt_eq_some.mpr ⟨slot, hs, he⟩, fun hek => hkey ?_⟩
        exact hek ▸ mem_map.mpr ⟨e, mem_of_getElem? he, rfl⟩

/-- The entries of a valid table, one after the other, fill a larger table. -/
theorem fillHashSlots_spec (rest : List (Entry V B)) (t : HashTable V B)
    (hcap : t.maxNumHashSlots = n) (h : t.Valid hashKey numKeys)
    (hrows : ∀ e ∈ rest, RowOk hashKey numKeys e) (hkeys : ((t.entries ++ rest).map (·.key)).Nodup)
    (hfree : t.entries.length + rest.length < n) :
    ∃ slots, fillHashSlots n rest t.entries.length t.slots = some slots ∧
      (⟨n, slots, t.entries ++ rest⟩ : HashTable V B).Valid hashKey numKeys := by
  subst hcap
  induction rest generalizing t with
  | nil =>
    refine ⟨t.slots, rfl, ?_⟩
    rw [append_nil]
    exact h
  | cons e _ ih =>
    have hpos : 0 < t.maxNumHashSlots := by omega
    have hkey : e.key ∉ t.entries.map (·.key) := by
      rw [map_append, nodup_append] at hkeys
      exact fun hmem => hkeys.2.2 _ hmem _ mem_cons_self rfl
    obtain ⟨d, hpassed, hnone, hfill⟩ := fillHashSlot_spec h
      (by simp only [length_cons] at hfree; omega) hkey t.maxNumHashSlots 0
      (fun j hj => absurd hj (by omega)) (by omega)
    have hzero : t.walk e 0 = e.hash % t.maxNumHashSlots := probe_zero (Nat.mod_lt _ hpos)
    rw [hzero] at hfill
    obtain ⟨slots, hslots, hvalid⟩ := ih (t.claim (t.walk e d) e)
      (h.claim (hrows e mem_cons_self) hpassed hnone)
      (fun e' he' => hrows e' (mem_cons_of_mem _ he'))
      (by simpa [claim] using hkeys)
      (by simp only [claim, length_append, length_cons, length_nil] at hfree ⊢; omega)
    refine ⟨slots, ?_, by simpa [claim] using hvalid⟩
    rw [fillHashSlots, hfill]
    simpa [claim] using hslots

theorem valid_empty (n : Nat) : (⟨n, fun _ => none, []⟩ : HashTable V B).Valid hashKey numKeys where
  keys_nodup := nodup_nil
  hash_eq := by simp
  key_length := by simp
  slot_entry := by simp
  entry_slot := by simp
  slot_injective := by simp
  probed := nofun

theorem resize_spec (h : t.Valid hashKey numKeys) (newSize : Nat)
    (hfree : t.entries.length < newSize) :
    ∃ t', t.resize newSize = some t' ∧ t'.Valid hashKey numKeys ∧ t'.entries = t.entries ∧
      t'.maxNumHashSlots = newSize := by
  obtain ⟨slots, hslots, hvalid⟩ := fillHashSlots_spec t.entries ⟨newSize, fun _ => none, []⟩ rfl
    (valid_empty newSize) (fun e he => ⟨h.hash_eq e he, h.key_length e he⟩)
    (by simpa using h.keys_nodup) (by simpa using hfree)
  refine ⟨⟨newSize, slots, t.entries⟩, ?_, by simpa using hvalid, rfl, rfl⟩
  have hslots' : fillHashSlots newSize t.entries 0 (fun _ => none) = some slots := hslots
  rw [resize, hslots']
  rfl

/-- After a resize, if it was necessary, there is room for the new rows. -/
theorem resizeHashTableIfNecessary_spec (h : t.Valid hashKey numKeys)
    (hcap : 2 ≤ t.maxNumHashSlots) :
    ∃ t', t.resizeHashTableIfNecessary n = some t' ∧ t'.Valid hashKey numKeys ∧
      t'.entries = t.entries ∧ t'.entries.length + n < t'.maxNumHashSlots ∧
      2 ≤ t'.maxNumHashSlots := by
  unfold resizeHashTableIfNecessary
  split_ifs with hspace
  · have hroom : t.entries.length + n <
        3 * max (t.entries.length + n) t.maxNumHashSlots / 2 := by omega
    obtain ⟨t', hresize, hv, hentries, hnew⟩ := resize_spec h
      (3 * max (t.entries.length + n) t.maxNumHashSlots / 2) (by omega)
    exact ⟨t', hresize, hv, hentries, by rw [hentries, hnew]; exact hroom, by omega⟩
  · simp only [outOfSpace, decide_eq_true_eq] at hspace
    exact ⟨t, rfl, h, rfl, by omega, hcap⟩

end HashTable

end Lbug.Processor
