import Mathlib.Data.List.Sigma
import Mathlib.Logic.Function.Basic

/-!
# Bulk writes to a table

A table is a function from keys to optional values.  A list of entries is
written, or a list of keys removed, one after the other; what a key holds
afterwards is read off the list.
-/

namespace GoWarp.Support

variable {κ α : Type} [DecidableEq κ]

def putAll (table : κ → Option α) (entries : List (Sigma fun _ : κ => α)) : κ → Option α :=
  entries.foldl (fun t e => Function.update t e.1 (some e.2)) table

def dropAll (table : κ → Option α) (keys : List κ) : κ → Option α :=
  keys.foldl (fun t k => Function.update t k none) table

theorem putAll_append (table : κ → Option α) (entries more : List (Sigma fun _ : κ => α)) :
    putAll table (entries ++ more) = putAll (putAll table entries) more :=
  List.foldl_append

theorem putAll_apply {entries : List (Sigma fun _ : κ => α)}
    (hnodup : entries.NodupKeys) (table : κ → Option α) (k : κ) :
    putAll table entries k = (entries.dlookup k).or (table k) := by
  induction entries generalizing table with
  | nil => rfl
  | cons e entries ih =>
    rw [List.nodupKeys_cons] at hnodup
    rw [putAll, List.foldl_cons, ← putAll, ih hnodup.2]
    by_cases hk : k = e.1
    · subst hk
      rw [List.dlookup_eq_none.mpr hnodup.1, List.dlookup_cons_eq, Function.update_self]
      rfl
    · rw [List.dlookup_cons_ne _ _ hk, Function.update_of_ne hk]

theorem dropAll_apply (table : κ → Option α) (keys : List κ) (k : κ) :
    dropAll table keys k = if k ∈ keys then none else table k := by
  induction keys generalizing table with
  | nil => rfl
  | cons k' keys ih =>
    rw [dropAll, List.foldl_cons, ← dropAll, ih]
    by_cases hk : k = k'
    · simp [hk]
    · simp [hk]

end GoWarp.Support
