import Mathlib.Data.List.Basic
import Mathlib.Logic.Function.Basic

/-!
# Entries of a table

A table whose entries are replaced one at a time: a function, or a list that
grows at its end.  For a list, what the replacement of an entry does to a
selection of the entries and to their number.
-/

namespace GoWarp.Support

open Function (update update_of_ne update_self)

namespace Entries

section Functions

variable {ι α β : Type} [DecidableEq ι] {i : ι} {f : ι → α} {j : ι} {a : α}

theorem of_update {a c : α} (h : update f i a j = c) : j = i ∧ a = c ∨ j ≠ i ∧ f j = c := by
  by_cases hj : j = i
  · subst hj
    exact .inl ⟨rfl, (update_self ..).symm.trans h⟩
  · exact .inr ⟨hj, (update_of_ne hj ..).symm.trans h⟩

theorem apply_update_cases (g : α → Option β) {b c : β}
    (ha : g a = some b) (h : g (update f i a j) = some c) :
    j = i ∧ c = b ∨ j ≠ i ∧ g (f j) = some c := by
  by_cases hj : j = i
  · subst hj
    rw [update_self] at h
    exact .inl ⟨rfl, Option.mem_unique h ha⟩
  · rw [update_of_ne hj] at h
    exact .inr ⟨hj, h⟩

theorem update_cases {f : ι → Option α} {a c : α} (h : update f i (some a) j = some c) :
    j = i ∧ c = a ∨ j ≠ i ∧ f j = some c :=
  apply_update_cases id rfl h

theorem forall_update_iff {P : ι → α → Prop} {f : ι → Option α} :
    (∀ j c, update f i (some a) j = some c → P j c) ↔
      P i a ∧ ∀ j c, j ≠ i → f j = some c → P j c := by
  constructor
  · refine fun h => ⟨h i a (update_self ..), fun j c hj hc => ?_⟩
    exact h j c ((update_of_ne hj ..).trans hc)
  · rintro ⟨hi, hother⟩ j c hc
    rcases update_cases hc with ⟨rfl, rfl⟩ | ⟨hj, hc⟩
    · exact hi
    · exact hother j c hj hc

theorem apply_update (g : α → β) (h : g a = g (f i)) (j : ι) : g (update f i a j) = g (f j) := by
  by_cases hj : j = i
  · rw [hj, update_self, h]
  · rw [update_of_ne hj]

end Functions

/-! ## Lists -/

variable {α β : Type} {l : List α} {i : ℕ} {a b : α}

theorem getElem?_set_cases {j : ℕ} {c : α} (h : (l.set i b)[j]? = some c) :
    j = i ∧ c = b ∨ j ≠ i ∧ l[j]? = some c := by
  rw [List.getElem?_set] at h
  split at h
  next hij =>
    split at h
    next => exact .inl ⟨hij.symm, (Option.some.inj h).symm⟩
    next => cases h
  next hij => exact .inr ⟨fun hji => hij hji.symm, h⟩

theorem getElem?_set_of_getElem? (h : l[i]? = some a) (b : α) : (l.set i b)[i]? = some b :=
  List.getElem?_set_self (List.getElem?_eq_some_iff.mp h).1

theorem filterMap_set_of_eq (f : α → Option β) (h : l[i]? = some a)
    (hf : f b = f a) : (l.set i b).filterMap f = l.filterMap f := by
  induction l generalizing i with
  | nil => rfl
  | cons x rest ih =>
    rcases i with _ | i
    · cases h
      simp only [List.set_cons_zero, List.filterMap_cons, hf]
    · simp only [List.set_cons_succ, List.filterMap_cons, ih h]

theorem filterMap_set_perm (f : α → Option β) {x : β} (h : l[i]? = some a)
    (hnone : f a = none) (hsome : f b = some x) :
    ((l.set i b).filterMap f).Perm (x :: l.filterMap f) := by
  induction l generalizing i with
  | nil => cases h
  | cons y rest ih =>
    rcases i with _ | i
    · cases h
      simp only [List.set_cons_zero, List.filterMap_cons, hnone, hsome]
      exact .refl _
    · rw [List.set_cons_succ]
      rcases hy : f y with _ | z
      · rw [List.filterMap_cons_none hy, List.filterMap_cons_none hy]
        exact ih h
      · rw [List.filterMap_cons_some hy, List.filterMap_cons_some hy]
        exact ((ih h).cons z).trans (.swap x z _)

theorem countP_set_add (p : α → Bool) (h : l[i]? = some a) (b : α) :
    (l.set i b).countP p + (if p a then 1 else 0) = l.countP p + if p b then 1 else 0 := by
  obtain ⟨hi, rfl⟩ := List.getElem?_eq_some_iff.mp h
  have hpos : p l[i] → 0 < l.countP p := fun hp =>
    List.countP_pos_iff.mpr ⟨l[i], List.getElem_mem hi, hp⟩
  rw [List.countP_set hi]
  by_cases hp : p l[i] = true
  · have hcount := hpos hp
    rw [if_pos hp]
    omega
  · rw [if_neg hp]
    omega

end Entries

end GoWarp.Support
