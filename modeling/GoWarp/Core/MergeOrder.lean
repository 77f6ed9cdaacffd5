import GoWarp.Core.Merge
import GoWarp.Support.Selection
import Mathlib.Algebra.Order.Ring.Int

/-!
# Merging in any order

Last-write-wins compares vector clocks where it can and timestamps where it
cannot.  Dominance is a partial order and the timestamps are compared only
between values it does not relate, so that three values may each supersede the
next one in a circle; and of two values that neither comparison separates the
old one stays, whichever that is.

Replicas that merge the same values in different orders agree exactly if one
of the values supersedes all the others.
-/

namespace GoWarp.Core

open Support

namespace VectorClock

variable {a b : VectorClock}

/-- No counter of `b` is ahead of `a`, and some counter of `a` is ahead of
`b`. -/
def Dominates (a b : VectorClock) : Prop :=
  (∀ region, b.counter region ≤ a.counter region) ∧ ∃ region, b.counter region < a.counter region

theorem counter_of_mem {vc : VectorClock} {e : Sigma fun _ : String => ℕ}
    (he : e ∈ vc.entries) : vc.counter e.1 = e.2 := by
  rw [counter, AList.mem_lookup_iff.mpr he, Option.getD_some]

theorem mem_of_counter_pos {vc : VectorClock} {region : String} (hpos : 0 < vc.counter region) :
    ⟨region, vc.counter region⟩ ∈ vc.entries := by
  apply AList.mem_lookup_iff.mp
  rcases hlookup : vc.lookup region with _ | n
  · simp [counter, hlookup] at hpos
  · simp [counter, hlookup]

theorem any_greater_iff : (a.entries.any fun e => decide (b.counter e.1 < e.2)) = true ↔
      ∃ region, b.counter region < a.counter region := by
  simp only [List.any_eq_true, decide_eq_true_iff]
  constructor
  · rintro ⟨e, he, hlt⟩
    rw [← counter_of_mem he] at hlt
    exact ⟨e.1, hlt⟩
  · rintro ⟨region, hlt⟩
    exact ⟨_, mem_of_counter_pos (Nat.zero_lt_of_lt hlt), hlt⟩

theorem any_smaller_iff : ((a.entries.any fun e => decide (e.2 < b.counter e.1)) ||
      b.entries.any fun e => decide (a.lookup e.1 = none ∧ 0 < e.2)) = true ↔
      ∃ region, a.counter region < b.counter region := by
  simp only [Bool.or_eq_true, List.any_eq_true, decide_eq_true_iff]
  constructor
  · rintro (⟨e, he, hlt⟩ | ⟨e, he, hnone, hpos⟩)
    · rw [← counter_of_mem he] at hlt
      exact ⟨e.1, hlt⟩
    · refine ⟨e.1, ?_⟩
      rw [counter_of_mem he, counter, hnone]
      exact hpos
  · rintro ⟨region, hlt⟩
    rcases hlookup : a.lookup region with _ | n
    · right
      have hpos := Nat.zero_lt_of_lt hlt
      exact ⟨_, mem_of_counter_pos hpos, hlookup, hpos⟩
    · left
      have hn : a.counter region = n := by simp [counter, hlookup]
      refine ⟨⟨region, n⟩, AList.mem_lookup_iff.mp hlookup, ?_⟩
      rwa [hn] at hlt

theorem dominates_iff_not_exists : a.Dominates b ↔ (∃ region, b.counter region < a.counter region) ∧
      ¬∃ region, a.counter region < b.counter region := by
  rw [Dominates, not_exists, and_comm]
  simp only [Nat.not_lt]

theorem verdict_iff (greater smaller : Bool) (verdict : ℤ)
    (h : (if greater && smaller then -2 else if greater then 1
      else if smaller then -1 else 0) = verdict) :
    (verdict = 1 ↔ greater = true ∧ ¬smaller = true) ∧
    (verdict = -1 ↔ smaller = true ∧ ¬greater = true) ∧
    (verdict = 0 ↔ ¬greater = true ∧ ¬smaller = true) ∧
    (verdict = -2 ↔ greater = true ∧ smaller = true) := by
  subst h
  revert greater smaller
  decide

theorem compare_cases (a b : VectorClock) :
    (a.compare b = 1 ↔ (∃ region, b.counter region < a.counter region) ∧
      ¬∃ region, a.counter region < b.counter region) ∧
    (a.compare b = -1 ↔ (∃ region, a.counter region < b.counter region) ∧
      ¬∃ region, b.counter region < a.counter region) ∧
    (a.compare b = 0 ↔ (¬∃ region, b.counter region < a.counter region) ∧
      ¬∃ region, a.counter region < b.counter region) ∧
    (a.compare b = -2 ↔ (∃ region, b.counter region < a.counter region) ∧
      ∃ region, a.counter region < b.counter region) := by
  rw [← any_greater_iff, ← any_smaller_iff]
  exact verdict_iff _ _ _ rfl

theorem compare_eq_one_iff : a.compare b = 1 ↔ a.Dominates b := by
  rw [dominates_iff_not_exists]
  exact (compare_cases a b).1

theorem compare_eq_neg_one_iff : a.compare b = -1 ↔ b.Dominates a := by
  rw [dominates_iff_not_exists]
  exact (compare_cases a b).2.1

end VectorClock

/-! ## Values -/

namespace Value

variable {T : Type}

/-- `m` has the dominating vector clock; or vector clocks do not decide, and
`m` is later. -/
def Supersedes (m x : Value T) : Prop :=
  match m.vector, x.vector with
  | some a, some b =>
    a.Dominates b ∨ ¬b.Dominates a ∧ x.timestamp < m.timestamp
  | _, _ => x.timestamp < m.timestamp

theorem prevails_byTimestamp_iff {m x : Value T} (hne : x ≠ m) :
    ((if m.timestamp < x.timestamp then x else m) = m ∧
      (if x.timestamp < m.timestamp then m else x) = m) ↔
      x.timestamp < m.timestamp := by
  constructor
  · rintro ⟨-, h⟩
    by_contra hlt
    rw [if_neg hlt] at h
    exact hne h
  · intro hlt
    rw [if_neg (Int.not_lt.mpr (Int.le_of_lt hlt)), if_pos hlt]
    exact ⟨rfl, rfl⟩

theorem selective_lastWriteWins : Selective (lastWriteWins : Value T → Value T → Value T) := by
  intro old new
  rw [lastWriteWins]
  split
  · split
    · exact .inr rfl
    · exact .inl rfl
    · split
      · exact .inr rfl
      · exact .inl rfl
  · split
    · exact .inr rfl
    · exact .inl rfl

theorem lastWriteWins_of_vectors {old new : Value T} {a b : VectorClock}
    (hold : old.vector = some a) (hnew : new.vector = some b) :
    (b.Dominates a → old.lastWriteWins new = new) ∧ (a.Dominates b → old.lastWriteWins new = old) ∧
      (¬b.Dominates a → ¬a.Dominates b → old.lastWriteWins new =
        if old.timestamp < new.timestamp then new else old) := by
  rw [lastWriteWins, hold, hnew]
  dsimp only
  refine ⟨fun h => ?_, fun h => ?_, fun hnot hnot' => ?_⟩
  · rw [VectorClock.compare_eq_one_iff.mpr h]
    rfl
  · rw [VectorClock.compare_eq_neg_one_iff.mpr h]
    rfl
  · split
    · rename_i h
      exact absurd (VectorClock.compare_eq_one_iff.mp h) hnot
    · rename_i h
      exact absurd (VectorClock.compare_eq_neg_one_iff.mp h) hnot'
    · rfl

theorem prevails_iff_supersedes {m x : Value T} (hne : x ≠ m) :
    Prevails lastWriteWins m x ↔ m.Supersedes x := by
  rw [Prevails, Supersedes]
  split
  · rename_i a b ha hb
    obtain ⟨hnew, hold, hneither⟩ := lastWriteWins_of_vectors ha hb
    obtain ⟨hnew', hold', hneither'⟩ := lastWriteWins_of_vectors hb ha
    by_cases hab : a.Dominates b
    · simp [hold hab, hnew' hab, hab]
    · by_cases hba : b.Dominates a
      · simp [hnew hba, hab, hba, hne]
      · rw [hneither hba hab, hneither' hab hba, prevails_byTimestamp_iff hne]
        simp [hab, hba]
  · rename_i hnil
    have hbyTimestamp : ∀ old new : Value T,
        (∀ a b, old.vector = some a → new.vector = some b → False) →
        old.lastWriteWins new =
          if old.timestamp < new.timestamp then new else old := by
      intro old new hnil
      rw [lastWriteWins]
      split
      · rename_i a b ha hb
        exact (hnil a b ha hb).elim
      · rfl
    rw [hbyTimestamp m x hnil, hbyTimestamp x m fun a b ha hb => hnil b a hb ha,
      prevails_byTimestamp_iff hne]

variable [DecidableEq T]

/-- Merging the values of a set pairwise has the same result in any order and
any grouping exactly if one of them supersedes all the others.  It is then the
result of merging them any number of times. -/
theorem merges_agree_iff (values : Finset (Value T)) :
    ((∀ t t' : Grouping (Value T), t.Uses values → t'.Uses values →
      t.result lastWriteWins = t'.result lastWriteWins) ↔
      values = ∅ ∨ ∃ m ∈ values, ∀ x ∈ values, x ≠ m → m.Supersedes x) ∧
    ∀ m ∈ values, (∀ x ∈ values, x ≠ m → m.Supersedes x) →
      ∀ t : Grouping (Value T), t.leaves.toFinset = values → t.result lastWriteWins = m := by
  have hprevails : ∀ m, (∀ x ∈ values, x ≠ m → m.Supersedes x) ↔
      ∀ x ∈ values, x ≠ m → Prevails lastWriteWins m x := by
    intro m
    refine forall_congr' fun x => forall_congr' fun _ => ?_
    exact forall_congr' fun hne => (prevails_iff_supersedes hne).symm
  constructor
  · rw [Grouping.results_agree_iff selective_lastWriteWins]
    simp only [hprevails]
  · intro m hm hall t ht
    rw [hprevails] at hall
    apply Grouping.result_of_prevails selective_lastWriteWins
    · rwa [← List.mem_toFinset, ht]
    · intro x hx
      rw [← List.mem_toFinset, ht] at hx
      exact hall x hx

/-! ## Examples -/

/-- A value of a region with the given counters. -/
def stamped (data : ℕ) (timestamp : Instant) (east west : ℕ) : Value ℕ :=
  ⟨data, timestamp, some ((∅ : VectorClock).insert "east" east |>.insert "west" west), ""⟩

/-- The second value has seen the first one, the third is concurrent with both
and earlier. -/
def ordered : Finset (Value ℕ) := {stamped 1 10 1 0, stamped 2 30 2 0, stamped 3 20 0 1}

theorem supersedes_ordered :
    ∀ x ∈ ordered, x ≠ stamped 2 30 2 0 → (stamped 2 30 2 0).Supersedes x := by
  intro x hx hne
  apply (prevails_iff_supersedes hne).mp
  simp only [ordered, Finset.mem_insert, Finset.mem_singleton] at hx
  rcases hx with rfl | rfl | rfl
  · exact ⟨rfl, rfl⟩
  · exact absurd rfl hne
  · exact ⟨rfl, rfl⟩

theorem merges_agree_ordered : stamped 2 30 2 0 ∈ ordered ∧
      ∀ t : Grouping (Value ℕ), t.leaves.toFinset = ordered →
        t.result lastWriteWins = stamped 2 30 2 0 := by
  have hmem : stamped 2 30 2 0 ∈ ordered := by simp [ordered]
  exact ⟨hmem, (merges_agree_iff ordered).2 _ hmem supersedes_ordered⟩

/-- The first value dominates the second, the second is later than the third,
and the third is later than the first. -/
def circle : Finset (Value ℕ) := {stamped 1 10 2 0, stamped 2 30 1 0, stamped 3 20 0 1}

/-- Two replicas that merge the same three values disagree, although all of
them have vector clocks and no two have the same timestamp. -/
theorem merges_disagree_circle : ∃ t t' : Grouping (Value ℕ), t.Uses circle ∧ t'.Uses circle ∧
      (t.result lastWriteWins).data = 1 ∧
      (t'.result lastWriteWins).data = 3 := by
  refine ⟨.combine (.combine (.value (stamped 2 30 1 0))
      (.value (stamped 3 20 0 1))) (.value (stamped 1 10 2 0)),
    .combine (.combine (.value (stamped 1 10 2 0))
      (.value (stamped 2 30 1 0))) (.value (stamped 3 20 0 1)), ?_, ?_, ?_, ?_⟩
  · constructor
    · decide
    · ext x
      simp only [Grouping.leaves, circle, List.mem_toFinset, List.mem_append,
        List.mem_singleton, Finset.mem_insert, Finset.mem_singleton]
      tauto
  · constructor
    · decide
    · ext x
      simp only [Grouping.leaves, circle, List.mem_toFinset, List.mem_append,
        List.mem_singleton, Finset.mem_insert, Finset.mem_singleton]
      tauto
  · decide
  · decide

end Value

end GoWarp.Core
