import Mathlib.Data.List.Basic
import Mathlib.Data.Nat.ModEq

/-!
# Windows of a circular buffer

The cells of a circular buffer are a list; the cell at index `i` is the one at
`i` modulo the number of cells.  A window is a run of consecutive cells.  The
lemmas say what writing one cell does to a window that ends there, and to a
full window that begins there.
-/

namespace GoWarp.Support.Ring

variable {α : Type}

/-- The cell at an index, which wraps around. -/
def slot (cells : List α) (zero : α) (i : ℕ) : α := cells.getD (i % cells.length) zero

/-- Write the cell at an index, which wraps around. -/
def write (cells : List α) (i : ℕ) (a : α) : List α := cells.set (i % cells.length) a

/-- The `n` cells from `start` on. -/
def window (cells : List α) (zero : α) (start n : ℕ) : List α :=
  (List.range n).map fun i => slot cells zero (start + i)

theorem length_replicate_pos (zero : α) {capacity : ℕ} (hpos : 0 < capacity) :
    0 < (List.replicate capacity zero).length := by
  rwa [List.length_replicate]

section Window

variable (cells : List α) (zero : α)

@[simp] theorem length_write (i : ℕ) (a : α) : (write cells i a).length = cells.length := by
  simp [write]

@[simp] theorem length_window (start n : ℕ) : (window cells zero start n).length = n := by
  simp [window]

@[simp] theorem window_zero (start : ℕ) : window cells zero start 0 = [] := rfl

theorem window_succ (start n : ℕ) : window cells zero start (n + 1) =
      window cells zero start n ++ [slot cells zero (start + n)] := by
  simp [window, List.range_succ]

theorem window_add (start m n : ℕ) : window cells zero start (m + n) =
      window cells zero start m ++ window cells zero (start + m) n := by
  induction n with
  | zero => simp
  | succ n ih =>
    rw [← Nat.add_assoc, window_succ, ih, window_succ, List.append_assoc, Nat.add_assoc]

theorem window_cons (start n : ℕ) : window cells zero start (n + 1) =
      slot cells zero start :: window cells zero (start + 1) n := by
  have hone : window cells zero start 1 = [slot cells zero start] := rfl
  rw [Nat.add_comm, window_add, hone, List.singleton_append]

variable {cells} {i j : ℕ}

theorem slot_congr (h : i % cells.length = j % cells.length) :
    slot cells zero i = slot cells zero j := by
  rw [slot, slot, h]

theorem window_congr (h : i % cells.length = j % cells.length)
    (n : ℕ) : window cells zero i n = window cells zero j n := by
  apply List.map_congr_left
  intro m _
  have hadd : (i + m) % cells.length = (j + m) % cells.length := by
    rw [Nat.add_mod, h, ← Nat.add_mod]
  exact slot_congr zero hadd

theorem write_congr (h : i % cells.length = j % cells.length)
    (a : α) : write cells i a = write cells j a := by
  rw [write, write, h]

theorem slot_write_self (hpos : 0 < cells.length) (i : ℕ) (a : α) :
    slot (write cells i a) zero i = a := by
  have hlt : i % cells.length < cells.length := Nat.mod_lt i hpos
  rw [slot, length_write, write, List.getD_eq_getElem?_getD,
    List.getElem?_set_self hlt, Option.getD_some]

theorem slot_write_of_ne (hne : i % cells.length ≠ j % cells.length) (a : α) :
    slot (write cells i a) zero j = slot cells zero j := by
  rw [slot, length_write, write, List.getD_eq_getElem?_getD,
    List.getElem?_set_ne hne, slot, List.getD_eq_getElem?_getD]

theorem mod_ne_of_lt {n i j : ℕ} (hij : i < j) (hturn : j < i + n) : i % n ≠ j % n := by
  intro h
  have hdvd : n ∣ j - i := (Nat.modEq_iff_dvd' hij.le).mp h
  have hle : n ≤ j - i := Nat.le_of_dvd (Nat.sub_pos_of_lt hij) hdvd
  omega

theorem window_write_of_le {start n i : ℕ} (hle : start + n ≤ i)
    (hturn : i < start + cells.length) (a : α) :
    window (write cells i a) zero start n = window cells zero start n := by
  apply List.map_congr_left
  intro m hm
  have hmn : m < n := List.mem_range.mp hm
  have hne : (start + m) % cells.length ≠ i % cells.length := mod_ne_of_lt (by omega) (by omega)
  exact slot_write_of_ne zero (.symm hne) a

theorem window_write_end {start n : ℕ} (hlt : n < cells.length) (a : α) :
    window (write cells (start + n) a) zero start (n + 1) = window cells zero start n ++ [a] := by
  have hpos : 0 < cells.length := Nat.lt_of_le_of_lt (Nat.zero_le n) hlt
  rw [window_succ, slot_write_self zero hpos, window_write_of_le zero (Nat.le_refl _) (by omega)]

theorem window_write_full (hpos : 0 < cells.length) (start : ℕ) (a : α) :
    window (write cells start a) zero (start + 1) cells.length =
      (window cells zero start cells.length).tail ++ [a] := by
  obtain ⟨n, hn⟩ := Nat.exists_eq_succ_of_ne_zero hpos.ne'
  have hturn : write cells start a = write cells (start + 1 + n) a := by
    apply write_congr
    have hsum : start + 1 + n = start + cells.length := by omega
    rw [hsum, Nat.add_mod_right]
  rw [hn, window_cons cells, List.tail_cons, hturn]
  exact window_write_end zero (by omega) a

end Window

end GoWarp.Support.Ring
