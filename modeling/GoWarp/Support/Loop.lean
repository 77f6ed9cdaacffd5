import Mathlib.Data.List.Nodup

/-!
# Loops over distinct keys

A loop that visits each key at most once, and whose visit of a key does not
concern any other key, does to a key what its one visit does.
-/

namespace GoWarp.Support

variable {σ α κ : Type} {R : σ → σ → Prop} {f : σ → α → σ} {key : α → κ}

theorem foldl_of_notMem (hrefl : ∀ s, R s s)
    (htrans : ∀ {s t u}, R s t → R t u → R s u) {k : κ} {l : List α}
    (hf : ∀ a ∈ l, key a ≠ k → ∀ s, R s (f s a)) (hk : k ∉ l.map key)
    (s : σ) : R s (l.foldl f s) := by
  induction l generalizing s with
  | nil => exact hrefl s
  | cons a rest ih =>
    rw [List.map_cons, List.mem_cons, not_or] at hk
    obtain ⟨ha, hrest⟩ := List.forall_mem_cons.mp hf
    exact htrans (ha (.symm hk.1) s) (ih hrest hk.2 (f s a))

theorem foldl_of_mem (hrefl : ∀ s, R s s)
    (htrans : ∀ {s t u}, R s t → R t u → R s u) {a : α} {l : List α}
    (hf : ∀ b ∈ l, key b ≠ key a → ∀ s, R s (f s b))
    (hnodup : (l.map key).Nodup) (ha : a ∈ l) (s : σ) :
    ∃ t, R s t ∧ R (f t a) (l.foldl f s) := by
  obtain ⟨before, after, rfl⟩ := List.append_of_mem ha
  rw [List.map_append, List.map_cons, List.nodup_middle, List.nodup_cons,
    List.mem_append, not_or] at hnodup
  rw [List.forall_mem_append, List.forall_mem_cons] at hf
  refine ⟨before.foldl f s, ?_, ?_⟩
  · exact foldl_of_notMem hrefl htrans hf.1 hnodup.1.1 s
  · rw [List.foldl_append, List.foldl_cons]
    exact foldl_of_notMem hrefl htrans hf.2.2 hnodup.1.2 _

end GoWarp.Support
