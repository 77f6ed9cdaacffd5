import GoWarp.Support.Transition
import Mathlib.Data.List.Nodup

/-!
# Cells that are owned through tokens

Parties mint tokens, each token once, and put them into cells.  A party may put
a token of its own into a cell that is empty, and may empty a cell that holds a
token of its own; a cell may also become empty by itself.

Whoever follows these rules never takes away what another party has put into a
cell, and what a cell holds tells whose it is.
-/

namespace GoWarp.Support

open Function (update update_of_ne update_self)

/-- A machine that may also stay where it is. -/
def Machine.orIdle {σ α : Type} (m : Machine σ α) : Machine σ (Option α)
  | s, none => some s
  | s, some a => m s a

/-- What the cells hold, and who has minted which tokens. -/
structure Ownership (κ ι τ : Type) where
  stored : κ → Option τ
  minted : List (ι × τ)

namespace Ownership

variable {κ ι τ : Type}

inductive Event (κ ι τ : Type) where
  | mint (i : ι) (t : τ)
  | install (i : ι) (k : κ) (t : τ)
  | remove (i : ι) (k : κ) (t : τ)
  | expire (k : κ)

def Event.party : Event κ ι τ → Option ι
  | .mint i _ => some i
  | .install i _ _ => some i
  | .remove i _ _ => some i
  | .expire _ => none

/-- Every token has been minted once, and only minted tokens are stored. -/
structure Sound (o : Ownership κ ι τ) : Prop where
  nodup : (o.minted.map Prod.snd).Nodup
  stored : ∀ k t, o.stored k = some t → ∃ i, (i, t) ∈ o.minted

variable {o o' : Ownership κ ι τ}

theorem sound_empty : Sound (⟨fun _ => none, []⟩ : Ownership κ ι τ) where
  nodup := List.nodup_nil
  stored _ _ h := by cases h

theorem Sound.existsUnique (h : o.Sound) {k : κ} {t : τ}
    (hk : o.stored k = some t) : ∃! i, (i, t) ∈ o.minted := by
  obtain ⟨i, hi⟩ := h.stored k t hk
  refine ⟨i, hi, fun j hj => ?_⟩
  have heq := List.inj_on_of_nodup_map h.nodup hj hi rfl
  exact (Prod.mk.inj heq).1

theorem Sound.setStored [DecidableEq κ] (h : o.Sound) {k : κ} {v : Option τ}
    (hv : ∀ t, v = some t → ∃ i, (i, t) ∈ o.minted) :
    Sound { o with stored := update o.stored k v } where
  nodup := h.nodup
  stored k' t hk' := by
    dsimp only at hk'
    by_cases hk : k' = k
    · rw [hk, update_self] at hk'
      exact hv t hk'
    · rw [update_of_ne hk] at hk'
      exact h.stored k' t hk'

variable [DecidableEq κ] [DecidableEq ι] [DecidableEq τ]

def step : Machine (Ownership κ ι τ) (Event κ ι τ)
  | o, .mint i t =>
    if t ∈ o.minted.map Prod.snd then none
    else some { o with minted := (i, t) :: o.minted }
  | o, .install i k t =>
    if o.stored k = none ∧ (i, t) ∈ o.minted then
      some { o with stored := update o.stored k (some t) }
    else
      none
  | o, .remove i k t =>
    if o.stored k = some t ∧ (i, t) ∈ o.minted then
      some { o with stored := update o.stored k none }
    else
      none
  | o, .expire k => some { o with stored := update o.stored k none }

theorem Sound.step (h : o.Sound) {e : Event κ ι τ}
    (hstep : Ownership.step o e = some o') : o'.Sound := by
  cases e with
  | mint i t =>
    obtain ⟨hnew, hs⟩ := Option.ite_none_left_eq_some.mp hstep
    cases hs
    refine ⟨List.nodup_cons.mpr ⟨hnew, h.nodup⟩, fun k t' hk => ?_⟩
    obtain ⟨j, hj⟩ := h.stored k t' hk
    exact ⟨j, List.mem_cons_of_mem _ hj⟩
  | install i k t =>
    obtain ⟨⟨-, hmint⟩, hs⟩ := Option.ite_none_right_eq_some.mp hstep
    cases hs
    refine h.setStored fun t' ht' => ⟨i, ?_⟩
    cases ht'
    exact hmint
  | remove i k t =>
    obtain ⟨-, hs⟩ := Option.ite_none_right_eq_some.mp hstep
    cases hs
    exact h.setStored fun _ ht' => by cases ht'
  | expire k =>
    cases hstep
    exact h.setStored fun _ ht' => by cases ht'

theorem changed_by_owner {e : Event κ ι τ} (hstep : Ownership.step o e = some o')
    {k : κ} {t : τ} (hk : o.stored k = some t) (hk' : o'.stored k ≠ some t) :
    e = .expire k ∨ ∃ i, e = .remove i k t ∧ (i, t) ∈ o.minted := by
  have hcell : ∀ k' v, o'.stored = update o.stored k' v → k' = k := by
    intro k' v heq
    by_contra hne
    rw [heq, update_of_ne (.symm hne)] at hk'
    exact hk' hk
  cases e with
  | mint i t' =>
    obtain ⟨-, hs⟩ := Option.ite_none_left_eq_some.mp hstep
    cases hs
    exact absurd hk hk'
  | install i k' t' =>
    obtain ⟨⟨hfree, -⟩, hs⟩ := Option.ite_none_right_eq_some.mp hstep
    cases hs
    obtain rfl := hcell k' _ rfl
    rw [hk] at hfree
    cases hfree
  | remove i k' t' =>
    obtain ⟨⟨hheld, hmint⟩, hs⟩ := Option.ite_none_right_eq_some.mp hstep
    cases hs
    obtain rfl := hcell k' _ rfl
    obtain rfl := Option.mem_unique hk hheld
    exact .inr ⟨i, rfl, hmint⟩
  | expire k' =>
    cases hstep
    obtain rfl := hcell k' _ rfl
    exact .inl rfl

end Ownership

end GoWarp.Support
