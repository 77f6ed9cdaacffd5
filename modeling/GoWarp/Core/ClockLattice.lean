import GoWarp.Core.MergeOrder
import Mathlib.Order.Bounds.Basic
import Mathlib.Order.Lattice

/-!
# The lattice of vector clocks

A vector clock is read through its counters, and an absent region counts as
zero.  Read so, `Compare` decides the pointwise order of two clocks and `Merge`
takes their pointwise maximum.  Both loop over maps, but what they find depends
on the counters alone, and thus not on the order of the entries.
-/

namespace GoWarp.Core

namespace VectorClock

variable {a b : VectorClock}

theorem not_exists_lt_iff : (¬∃ region, a.counter region < b.counter region) ↔
      b.counter ≤ a.counter := by
  rw [Pi.le_def, not_exists]
  simp only [Nat.not_lt]

theorem exists_lt_iff : (∃ region, a.counter region < b.counter region) ↔
      ¬b.counter ≤ a.counter := by
  rw [← not_exists_lt_iff, not_not]

theorem compare_eq_zero_iff : a.compare b = 0 ↔ a.counter = b.counter := by
  rw [(compare_cases a b).2.2.1, not_exists_lt_iff, not_exists_lt_iff]
  exact le_antisymm_iff.symm

theorem compare_eq_one_iff_lt : a.compare b = 1 ↔ b.counter < a.counter := by
  rw [(compare_cases a b).1, exists_lt_iff, not_exists_lt_iff, and_comm]
  exact lt_iff_le_not_ge.symm

theorem compare_eq_neg_one_iff_lt : a.compare b = -1 ↔ a.counter < b.counter := by
  rw [(compare_cases a b).2.1, exists_lt_iff, not_exists_lt_iff, and_comm]
  exact lt_iff_le_not_ge.symm

theorem compare_eq_neg_two_iff :
    a.compare b = -2 ↔ ¬a.counter ≤ b.counter ∧ ¬b.counter ≤ a.counter := by
  rw [(compare_cases a b).2.2.2, exists_lt_iff, exists_lt_iff]

theorem compare_congr {a' b' : VectorClock} (ha : a'.counter = a.counter)
    (hb : b'.counter = b.counter) : a'.compare b' = a.compare b := by
  by_cases hle : a.counter ≤ b.counter
  · by_cases hge : b.counter ≤ a.counter
    · have heq := le_antisymm hle hge
      rw [compare_eq_zero_iff.mpr heq, compare_eq_zero_iff, ha, hb, heq]
    · have hlt := lt_iff_le_not_ge.mpr ⟨hle, hge⟩
      rw [compare_eq_neg_one_iff_lt.mpr hlt, compare_eq_neg_one_iff_lt, ha, hb]
      exact hlt
  · by_cases hge : b.counter ≤ a.counter
    · have hlt := lt_iff_le_not_ge.mpr ⟨hge, hle⟩
      rw [compare_eq_one_iff_lt.mpr hlt, compare_eq_one_iff_lt, ha, hb]
      exact hlt
    · rw [compare_eq_neg_two_iff.mpr ⟨hle, hge⟩, compare_eq_neg_two_iff, ha, hb]
      exact ⟨hle, hge⟩

/-! ## Merging -/

theorem counter_insert_self (vc : VectorClock) (region : String) (n : ℕ) :
    counter (vc.insert region n) region = n := by
  rw [counter, AList.lookup_insert, Option.getD_some]

theorem counter_insert_of_ne (vc : VectorClock) {region other : String}
    (h : other ≠ region) (n : ℕ) :
    counter (vc.insert region n) other = vc.counter other := by
  rw [counter, AList.lookup_insert_ne h, counter]

theorem counter_raise (vc : VectorClock) (e : Sigma fun _ : String => ℕ) (region : String) :
    counter (if vc.counter e.1 < e.2 then vc.insert e.1 e.2 else vc) region =
      if region = e.1 then max (vc.counter region) e.2
      else vc.counter region := by
  by_cases hregion : region = e.1
  · subst hregion
    rw [if_pos rfl]
    split
    · rename_i hlt
      rw [counter_insert_self, max_eq_right hlt.le]
    · rename_i hle
      rw [max_eq_left (Nat.not_lt.mp hle)]
  · rw [if_neg hregion]
    split
    · exact counter_insert_of_ne vc hregion e.2
    · rfl

theorem counter_foldl_raise (entries : List (Sigma fun _ : String => ℕ))
    (hnodup : entries.NodupKeys) (vc : VectorClock) (region : String) :
    counter (entries.foldl (fun acc e => if acc.counter e.1 < e.2 then acc.insert e.1 e.2 else acc)
      vc) region =
      max (vc.counter region) ((entries.dlookup region).getD 0) := by
  induction entries generalizing vc with
  | nil => exact (Nat.max_zero _).symm
  | cons e entries ih =>
    rw [List.nodupKeys_cons] at hnodup
    rw [List.foldl_cons, ih hnodup.2, counter_raise]
    by_cases hregion : region = e.1
    · subst hregion
      rw [if_pos rfl, List.dlookup_eq_none.mpr hnodup.1, Option.getD_none,
        Nat.max_zero, List.dlookup_cons_eq, Option.getD_some]
    · rw [if_neg hregion, List.dlookup_cons_ne _ _ hregion]

theorem counter_merge (a b : VectorClock) : (a.merge b).counter = a.counter ⊔ b.counter := by
  funext region
  exact counter_foldl_raise b.entries b.nodupKeys a region

theorem counter_eq_of_perm {a' : VectorClock}
    (h : a'.entries.Perm a.entries) : a'.counter = a.counter := by
  funext region
  rw [counter, counter, AList.perm_lookup h]

end VectorClock

/-- The counters of a value; a nil vector clock has none. -/
def Value.clock {T : Type} (v : Value T) : String → ℕ := (v.vector.getD ∅).counter

theorem Engine.vector_merge {T : Type} {merges : Engine T} {k : Key}
    {old new v : Value T} (hcustom : merges.hasCustom k = true)
    (hmerge : merges.merge k old new = some v) :
    v.vector = some ((old.vector.getD ∅).merge (new.vector.getD ∅)) := by
  obtain ⟨fn, hfn⟩ := Option.isSome_iff_exists.mp hcustom
  rw [merge, hfn] at hmerge
  obtain ⟨data, -, rfl⟩ := Option.map_eq_some_iff.mp hmerge
  rfl

namespace VectorClock

/-- `Compare` decides the pointwise order, whatever the order in which the maps
are listed; `Merge` takes the pointwise maximum, and is thus commutative,
associative and idempotent as far as the counters go; and the vector clock of a
value merged by a function of its key is the least upper bound of both. -/
theorem pointwise_lattice (a b : VectorClock) :
    (a.compare b = 0 ↔ ∀ region, a.counter region = b.counter region) ∧
    (a.compare b = 1 ↔ (∀ region, b.counter region ≤ a.counter region) ∧
      ∃ region, a.counter region ≠ b.counter region) ∧
    (a.compare b = -1 ↔ (∀ region, a.counter region ≤ b.counter region) ∧
      ∃ region, a.counter region ≠ b.counter region) ∧
    (a.compare b = -2 ↔ (¬∀ region, b.counter region ≤ a.counter region) ∧
      ¬∀ region, a.counter region ≤ b.counter region) ∧
    (∀ a' b' : VectorClock, a'.entries.Perm a.entries → b'.entries.Perm b.entries →
      a'.compare b' = a.compare b ∧ (a'.merge b').counter = (a.merge b).counter) ∧
    (∀ region, (a.merge b).counter region = max (a.counter region) (b.counter region)) ∧
    (a.merge b).counter = (b.merge a).counter ∧
    (∀ c : VectorClock, ((a.merge b).merge c).counter = (a.merge (b.merge c)).counter) ∧
    (a.merge a).counter = a.counter ∧
    (∀ (T : Type) (merges : Engine T) (k : Key) (old new v : Value T),
      merges.hasCustom k = true → merges.merge k old new = some v →
      ∃ vc, v.vector = some vc ∧ IsLUB {old.clock, new.clock} vc.counter) := by
  refine ⟨?_, ?_, ?_, ?_, ?_, ?_, ?_, ?_, ?_, ?_⟩
  · rw [compare_eq_zero_iff, funext_iff]
  · rw [compare_eq_one_iff_lt, lt_iff_le_and_ne, Pi.le_def, ne_comm, Function.ne_iff]
  · rw [compare_eq_neg_one_iff_lt, lt_iff_le_and_ne, Pi.le_def, Function.ne_iff]
  · rw [compare_eq_neg_two_iff, and_comm, Pi.le_def, Pi.le_def]
  · intro a' b' ha hb
    constructor
    · exact compare_congr (counter_eq_of_perm ha) (counter_eq_of_perm hb)
    · rw [counter_merge, counter_merge, counter_eq_of_perm ha, counter_eq_of_perm hb]
  · intro region
    rw [counter_merge]
    rfl
  · rw [counter_merge, counter_merge, sup_comm]
  · intro c
    rw [counter_merge, counter_merge, counter_merge, counter_merge, sup_assoc]
  · rw [counter_merge, sup_idem]
  · intro T merges k old new v hcustom hmerge
    refine ⟨_, Engine.vector_merge hcustom hmerge, ?_⟩
    rw [counter_merge]
    exact isLUB_pair

end VectorClock

end GoWarp.Core
