import Mathlib.Data.List.Nodup
import Mathlib.Data.Nat.Notation

/-!
# Linked lists

A doubly linked list hands out a handle for each element, by which the element
is moved or removed in place.  Handles are never used twice.
-/

namespace GoWarp.Support

variable {α : Type}

/-- The elements with their handles, from front to back. -/
structure LinkedList (α : Type) where
  elems : List (ℕ × α)
  next : ℕ
  fresh : ∀ x ∈ elems, x.1 < next
  nodup : (elems.map Prod.fst).Nodup

namespace LinkedList

def new : LinkedList α := ⟨[], 0, by simp, by simp⟩

def clear (l : LinkedList α) : LinkedList α := ⟨[], l.next, by simp, by simp⟩

/-- Put an element at the front; its handle is `l.next`. -/
def pushFront (l : LinkedList α) (a : α) : LinkedList α where
  elems := (l.next, a) :: l.elems
  next := l.next + 1
  fresh := by
    intro x hx
    rcases List.mem_cons.mp hx with rfl | hx
    · exact Nat.lt_succ_self _
    · exact Nat.lt_succ_of_lt (l.fresh x hx)
  nodup := by
    rw [List.map_cons, List.nodup_cons]
    refine ⟨fun hmem => ?_, l.nodup⟩
    obtain ⟨x, hx, heq⟩ := List.mem_map.mp hmem
    exact Nat.lt_irrefl _ (heq ▸ l.fresh x hx)

/-- Remove the element with a handle, if there is one. -/
def remove (l : LinkedList α) (e : ℕ) : LinkedList α where
  elems := l.elems.filter fun x => x.1 ≠ e
  next := l.next
  fresh x hx := l.fresh x (List.mem_of_mem_filter hx)
  nodup := l.nodup.sublist (List.filter_sublist.map Prod.fst)

/-- Move the element with a handle to the front, if there is one. -/
def moveToFront (l : LinkedList α) (e : ℕ) : LinkedList α where
  elems := (l.elems.filter fun x => x.1 = e) ++ l.elems.filter fun x => x.1 ≠ e
  next := l.next
  fresh x hx := by
    rcases List.mem_append.mp hx with hx | hx <;>
      exact l.fresh x (List.mem_of_mem_filter hx)
  nodup := by
    refine (List.Perm.nodup_iff (List.Perm.map Prod.fst ?_)).mpr l.nodup
    simpa using List.filter_append_perm (fun x : ℕ × α => x.1 = e) l.elems

def back (l : LinkedList α) : Option (ℕ × α) := l.elems.getLast?

def values (l : LinkedList α) : List α := l.elems.map Prod.snd

variable {l : LinkedList α} {e : ℕ} {a b : α}

theorem mem_remove_iff {x : ℕ × α} : x ∈ (l.remove e).elems ↔ x ∈ l.elems ∧ x.1 ≠ e := by
  simp [remove]

theorem eq_of_mem (ha : (e, a) ∈ l.elems) (hb : (e, b) ∈ l.elems) : a = b := by
  have hinj := List.inj_on_of_nodup_map l.nodup ha hb rfl
  exact (Prod.mk.inj hinj).2

theorem filter_handle (ha : (e, a) ∈ l.elems) : (l.elems.filter fun x => x.1 = e) = [(e, a)] := by
  obtain ⟨before, after, h⟩ := List.append_of_mem ha
  have hnodup := l.nodup
  rw [h, List.map_append, List.nodup_append, List.map_cons, List.nodup_cons] at hnodup
  obtain ⟨-, ⟨hafter, -⟩, hbefore⟩ := hnodup
  rw [h, List.filter_append, List.filter_cons_of_pos (by simp),
    List.filter_eq_nil_iff.mpr, List.filter_eq_nil_iff.mpr, List.nil_append]
  · intro x hx heq
    exact hafter (List.mem_map.mpr ⟨x, hx, of_decide_eq_true heq⟩)
  · intro x hx heq
    exact hbefore x.1 (List.mem_map_of_mem hx) e (by simp) (of_decide_eq_true heq)

theorem elems_moveToFront (ha : (e, a) ∈ l.elems) : (l.moveToFront e).elems =
      (e, a) :: l.elems.filter fun x => x.1 ≠ e :=
  congrArg (· ++ l.elems.filter fun x => x.1 ≠ e) (filter_handle ha)

theorem mem_moveToFront {x : ℕ × α} : x ∈ (l.moveToFront e).elems ↔ x ∈ l.elems := by
  by_cases hx : x.1 = e
  · simp [moveToFront, hx]
  · simp [moveToFront, hx]

theorem elems_remove_of_append {init : List (ℕ × α)}
    (h : l.elems = init ++ [(e, a)]) : (l.remove e).elems = init := by
  have hnodup := l.nodup
  rw [h, List.map_append, List.nodup_append] at hnodup
  change (l.elems.filter fun x => x.1 ≠ e) = init
  rw [h, List.filter_append, List.filter_eq_self.mpr]
  · simp
  · intro x hx
    have hne := hnodup.2.2 x.1 (List.mem_map_of_mem hx) e (by simp)
    simpa using hne

end LinkedList

end GoWarp.Support
