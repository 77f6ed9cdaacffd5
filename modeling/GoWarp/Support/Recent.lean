import Mathlib.Data.List.DropRight

/-!
# The recent part of a history

Facts about the last elements of a list, `List.rtake`: what is left when older
elements are given up one at a time, and what a bound on an increasing key
selects.
-/

namespace GoWarp.Support

variable {α : Type}

theorem length_rtake (l : List α) (n : ℕ) : (l.rtake n).length = min n l.length := by
  rw [List.rtake, List.length_drop]
  omega

theorem rtake_of_length_le {l : List α} {n : ℕ} (h : l.length ≤ n) : l.rtake n = l := by
  rw [List.rtake, Nat.sub_eq_zero_of_le h, List.drop_zero]

theorem take_append_rtake (l : List α) (n : ℕ) : l.take (l.length - n) ++ l.rtake n = l :=
  List.take_append_drop _ _

theorem rtake_sublist (l : List α) (n : ℕ) : (l.rtake n).Sublist l := List.drop_sublist _ _

theorem rtake_rtake (l : List α) (m n : ℕ) : (l.rtake m).rtake n = l.rtake (min n m) := by
  simp only [List.rtake_eq_reverse_take_reverse, List.reverse_reverse, List.take_take]

theorem rtake_rtake_concat (l : List α) (n : ℕ) (a : α) :
    (l.rtake n ++ [a]).rtake n = (l ++ [a]).rtake n := by
  rcases n with _ | n
  · rw [List.rtake_zero, List.rtake_zero]
  · have hle : min n (n + 1) = n := by omega
    rw [List.rtake_concat_succ, List.rtake_concat_succ, rtake_rtake, hle]

theorem rtake_cons_concat {n : ℕ} {first : α} {rest : List α}
    (hlen : (first :: rest).length = n) (a : α) :
    (first :: rest ++ [a]).rtake n = rest ++ [a] := by
  have hone : (first :: rest ++ [a]).length - n = 1 := by
    rw [List.length_append, hlen, List.length_singleton]
    omega
  rw [List.rtake, hone, List.cons_append, List.drop_one, List.tail_cons]

theorem filter_rtake_of_head {key : α → ℕ} {l : List α}
    (hsorted : l.Pairwise fun a b => key a < key b) {n bound : ℕ} {first : α}
    {rest : List α} (hkept : l.rtake n = first :: rest) (hle : key first ≤ bound) :
    (l.rtake n).filter (fun a => bound < key a) = l.filter fun a => bound < key a := by
  have hnil : (l.take (l.length - n)).filter (fun a => bound < key a) = [] := by
    rw [List.filter_eq_nil_iff]
    intro a ha
    have hsplit := hsorted
    rw [← take_append_rtake l n, List.pairwise_append] at hsplit
    have hlt := hsplit.2.2 a ha first (hkept ▸ List.mem_cons_self)
    simp only [decide_eq_true_eq]
    omega
  nth_rewrite 2 [← take_append_rtake l n]
  rw [List.filter_append, hnil, List.nil_append]

end GoWarp.Support
