import Mathlib.Data.Finset.Basic

/-!
# Combining by selection

An operation that returns one of its two arguments combines the values of a
finite set two by two, in any order and any grouping.  The result is the same
for all of them exactly if one value of the set prevails over every other one,
on either side.
-/

namespace GoWarp.Support

variable {α : Type}

/-- The operation returns one of its arguments. -/
def Selective (op : α → α → α) : Prop := ∀ a b, op a b = a ∨ op a b = b

/-- `m` is selected from `m` and `x`, on either side. -/
def Prevails (op : α → α → α) (m x : α) : Prop := op m x = m ∧ op x m = m

/-- A way of combining values two by two. -/
inductive Grouping (α : Type) where
  | value (a : α)
  | combine (left right : Grouping α)

namespace Grouping

/-- The values that are combined, from left to right. -/
def leaves : Grouping α → List α
  | value a => [a]
  | combine left right => left.leaves ++ right.leaves

def result (op : α → α → α) : Grouping α → α
  | value a => a
  | combine left right => op (left.result op) (right.result op)

/-- Every value of the set is combined, and none twice. -/
def Uses [DecidableEq α] (t : Grouping α) (values : Finset α) : Prop :=
  t.leaves.Nodup ∧ t.leaves.toFinset = values

/-- Combine with further values, one after the other. -/
def extend (t : Grouping α) : List α → Grouping α
  | [] => t
  | a :: rest => (combine t (value a)).extend rest

theorem leaves_extend (t : Grouping α) (rest : List α) :
    (t.extend rest).leaves = t.leaves ++ rest := by
  induction rest generalizing t with
  | nil => simp [extend]
  | cons a rest ih => simp [extend, ih, leaves]

variable {op : α → α → α}

theorem result_mem (hop : Selective op) (t : Grouping α) : t.result op ∈ t.leaves := by
  induction t with
  | value a => simp [leaves, result]
  | combine left right ihl ihr =>
    rw [leaves, result, List.mem_append]
    rcases hop (left.result op) (right.result op) with h | h
    · rw [h]
      exact .inl ihl
    · rw [h]
      exact .inr ihr

theorem result_extend_mem (hop : Selective op) (t : Grouping α)
    (rest : List α) : (t.extend rest).result op ∈ t.result op :: rest := by
  induction rest generalizing t with
  | nil => simp [extend]
  | cons a rest ih =>
    rcases List.mem_cons.mp (ih (combine t (value a))) with h | h
    · rw [extend, h, result, result]
      rcases hop (t.result op) a with h' | h'
      · rw [h']
        exact List.mem_cons_self
      · rw [h']
        exact List.mem_cons_of_mem _ List.mem_cons_self
    · exact List.mem_cons_of_mem _ (List.mem_cons_of_mem _ h)

theorem result_of_prevails (hop : Selective op) {t : Grouping α} {m : α}
    (hm : m ∈ t.leaves) (hall : ∀ x ∈ t.leaves, x ≠ m → Prevails op m x) :
    t.result op = m := by
  have hself : op m m = m := by simpa using hop m m
  have hprevails : ∀ x ∈ t.leaves, Prevails op m x := by
    intro x hx
    by_cases hxm : x = m
    · rw [hxm]
      exact ⟨hself, hself⟩
    · exact hall x hx hxm
  clear hall
  induction t with
  | value a =>
    rw [leaves, List.mem_singleton] at hm
    exact hm.symm
  | combine left right ihl ihr =>
    rw [leaves] at hm hprevails
    have hleft : ∀ x ∈ left.leaves, Prevails op m x := fun x hx =>
      hprevails x (List.mem_append_left _ hx)
    have hright : ∀ x ∈ right.leaves, Prevails op m x := fun x hx =>
      hprevails x (List.mem_append_right _ hx)
    rw [result]
    rcases List.mem_append.mp hm with hm | hm
    · rw [ihl hm hleft]
      exact (hright _ (result_mem hop right)).1
    · rw [ihr hm hright]
      exact (hleft _ (result_mem hop left)).2

section Sets

variable [DecidableEq α] {values : Finset α}

theorem uses_extend (values : Finset α) {t : Grouping α} (hnodup : t.leaves.Nodup)
    (hsub : ∀ x ∈ t.leaves, x ∈ values) :
    (t.extend (values.filter (· ∉ t.leaves)).toList).Uses values := by
  rw [Uses, leaves_extend]
  constructor
  · apply List.Nodup.append hnodup (Finset.nodup_toList _)
    intro x hx hrest
    rw [Finset.mem_toList, Finset.mem_filter] at hrest
    exact hrest.2 hx
  · ext x
    simp only [List.mem_toFinset, List.mem_append, Finset.mem_toList, Finset.mem_filter]
    constructor
    · rintro (hx | hx)
      · exact hsub x hx
      · exact hx.1
    · intro hx
      by_cases hleaf : x ∈ t.leaves
      · exact .inl hleaf
      · exact .inr ⟨hx, hleaf⟩

theorem eq_of_forall_result (hop : Selective op) {m a b : α}
    (hall : ∀ t : Grouping α, t.Uses values → t.result op = m)
    (ha : a ∈ values) (hb : b ∈ values) (hab : a ≠ b) (hm : m = a ∨ m = b) : op a b = m := by
  have huses := uses_extend values (t := combine (value a) (value b)) (by simp [leaves, hab])
    (by simp [leaves, ha, hb])
  have hmem := result_extend_mem hop (combine (value a) (value b))
    (values.filter (· ∉ (combine (value a) (value b)).leaves)).toList
  rw [hall _ huses] at hmem
  rcases List.mem_cons.mp hmem with h | h
  · exact h.symm
  · rw [Finset.mem_toList, Finset.mem_filter] at h
    exact absurd (by rcases hm with rfl | rfl <;> simp [leaves]) h.2

theorem results_agree_iff (hop : Selective op) (values : Finset α) :
    (∀ t t' : Grouping α, t.Uses values → t'.Uses values → t.result op = t'.result op) ↔
      values = ∅ ∨ ∃ m ∈ values, ∀ x ∈ values, x ≠ m → Prevails op m x := by
  constructor
  · intro hagree
    rcases values.eq_empty_or_nonempty with hempty | ⟨a, ha⟩
    · exact .inl hempty
    · right
      have huses := uses_extend values (t := value a) (by simp [leaves]) (by simp [leaves, ha])
      have hall : ∀ t : Grouping α, t.Uses values → t.result op = _ :=
        fun t ht => hagree t _ ht huses
      have hmem := result_mem hop ((value a).extend
        (values.filter (· ∉ (value a).leaves)).toList)
      rw [← List.mem_toFinset, huses.2] at hmem
      refine ⟨_, hmem, fun x hx hne => ?_⟩
      constructor
      · exact eq_of_forall_result hop hall hmem hx (.symm hne) (.inl rfl)
      · exact eq_of_forall_result hop hall hx hmem hne (.inr rfl)
  · rintro (rfl | ⟨m, hm, hall⟩) t t' ht ht'
    · have hmem := result_mem hop t
      rw [← List.mem_toFinset, ht.2] at hmem
      simp at hmem
    · have hresult : ∀ t : Grouping α, t.Uses values → t.result op = m := by
        rintro t ⟨-, ht⟩
        rw [← ht] at hm hall
        apply result_of_prevails hop (List.mem_toFinset.mp hm)
        exact fun x hx => hall x (List.mem_toFinset.mpr hx)
      rw [hresult t ht, hresult t' ht']

end Sets

end Grouping

end GoWarp.Support
