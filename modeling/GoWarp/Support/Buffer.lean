import Mathlib.Data.List.Basic
import Mathlib.Tactic.Ring

/-!
# Byte buffers

Slices of a buffer are taken with a check of their bounds, and data are copied
into a slice in place.  A buffer that is filled from the front is what has
been written followed by what has not been reached yet.

The second part is about big-endian integers of a fixed width.
-/

namespace GoWarp.Support

variable {τ : Type}

/-- The elements from `lo` up to `hi`; `none` when they are not all there. -/
def slice (b : List τ) (lo hi : ℕ) : Option (List τ) :=
  if lo ≤ hi ∧ hi ≤ b.length then some ((b.take hi).drop lo) else none

/-- Copy as much as fits. -/
def copyInto (dst src : List τ) : List τ := src.take dst.length ++ dst.drop src.length

/-- Copy data into the slice from `lo` to `hi`. -/
def overwrite (b : List τ) (lo hi : ℕ) (data : List τ) : Option (List τ) :=
  (slice b lo hi).map fun part => b.take lo ++ copyInto part data ++ b.drop hi

theorem length_copyInto (dst src : List τ) : (copyInto dst src).length = dst.length := by
  rw [copyInto, List.length_append, List.length_take, List.length_drop]
  omega

theorem copyInto_of_le {dst src : List τ} (h : src.length ≤ dst.length) :
    copyInto dst src = src ++ dst.drop src.length := by
  rw [copyInto, List.take_of_length_le h]

theorem slice_of_le {b : List τ} {lo hi : ℕ} (hlo : lo ≤ hi)
    (hhi : hi ≤ b.length) : slice b lo hi = some ((b.take hi).drop lo) :=
  if_pos ⟨hlo, hhi⟩

theorem slice_append (pre mid post : List τ) (lo hi : ℕ)
    (hlo : lo = pre.length) (hhi : hi = pre.length + mid.length) :
    slice (pre ++ (mid ++ post)) lo hi = some mid := by
  subst hlo hhi
  rw [slice_of_le (Nat.le_add_right _ _) (by simp), List.take_length_add_append,
    List.drop_left, List.take_left]

theorem slice_eq_some {b part : List τ} {lo hi : ℕ} (h : slice b lo hi = some part) :
    part.length = hi - lo ∧ b.drop lo = part ++ b.drop hi := by
  rw [slice, Option.ite_none_right_eq_some] at h
  obtain ⟨⟨hlo, hhi⟩, hpart⟩ := h
  cases hpart
  have hdrop : b.drop hi = (b.drop lo).drop (hi - lo) := by
    rw [List.drop_drop, Nat.add_sub_cancel' hlo]
  refine ⟨?_, ?_⟩
  · rw [List.length_drop, List.length_take, Nat.min_eq_left hhi]
  · rw [hdrop, List.drop_take, List.take_append_drop]

theorem copyInto_of_eq {dst src : List τ} (h : src.length = dst.length) :
    copyInto dst src = src := by
  rw [copyInto_of_le h.le, h, List.drop_length, List.append_nil]

theorem overwrite_append (done rest data : List τ) (lo hi : ℕ)
    (hlo : lo = done.length) (hdata : lo + data.length ≤ hi)
    (hhi : hi ≤ done.length + rest.length) :
    overwrite (done ++ rest) lo hi data = some (done ++ data ++ rest.drop data.length) := by
  subst hlo
  have hslice : slice (done ++ rest) done.length hi = some (rest.take (hi - done.length)) := by
    rw [slice_of_le (by omega) (by simpa using hhi)]
    rw [List.take_append, List.take_of_length_le (by omega), List.drop_left]
  have hpart : data.length ≤ (rest.take (hi - done.length)).length := by
    rw [List.length_take]
    omega
  have hrest : (rest.take (hi - done.length)).drop data.length ++
      rest.drop (hi - done.length) = rest.drop data.length := by
    have hdrop : rest.drop (hi - done.length) =
        (rest.drop data.length).drop (hi - done.length - data.length) := by
      rw [List.drop_drop]
      congr 1
      omega
    rw [List.drop_take, hdrop, List.take_append_drop]
  rw [overwrite, hslice, Option.map_some, copyInto_of_le hpart, List.take_left, List.drop_append,
    List.drop_of_length_le (show done.length ≤ hi by omega), List.nil_append]
  simp only [List.append_assoc, hrest]

/-! ## Big-endian integers -/

/-- An integer in `width` bytes, the most significant one first. -/
def putBigEndian : ℕ → ℕ → List UInt8
  | 0, _ => []
  | width + 1, n => putBigEndian width (n / 256) ++ [UInt8.ofNat (n % 256)]

def bigEndian (bytes : List UInt8) : ℕ := bytes.foldl (fun n byte => n * 256 + byte.toNat) 0

@[simp] theorem length_putBigEndian (width n : ℕ) : (putBigEndian width n).length = width := by
  induction width generalizing n with
  | zero => rfl
  | succ width ih => rw [putBigEndian, List.length_append, ih]; rfl

theorem bigEndian_append (bytes : List UInt8) (byte : UInt8) :
    bigEndian (bytes ++ [byte]) = bigEndian bytes * 256 + byte.toNat := by
  rw [bigEndian, List.foldl_append]
  rfl

theorem bigEndian_putBigEndian {width n : ℕ} (h : n < 256 ^ width) :
    bigEndian (putBigEndian width n) = n := by
  induction width generalizing n with
  | zero =>
    rw [pow_zero, Nat.lt_one_iff] at h
    rw [h]
    rfl
  | succ width ih =>
    have hdiv : n / 256 < 256 ^ width := by
      rw [pow_succ] at h
      exact Nat.div_lt_of_lt_mul (Nat.mul_comm _ _ ▸ h)
    rw [putBigEndian, bigEndian_append, ih hdiv, UInt8.toNat_ofNat']
    omega

theorem putBigEndian_bigEndian {width : ℕ} {bytes : List UInt8} (h : bytes.length = width) :
    putBigEndian width (bigEndian bytes) = bytes ∧ bigEndian bytes < 256 ^ width := by
  induction width generalizing bytes with
  | zero =>
    obtain rfl := List.length_eq_zero_iff.mp h
    exact ⟨rfl, Nat.one_pos⟩
  | succ width ih =>
    rcases List.eq_nil_or_concat bytes with rfl | ⟨init, byte, rfl⟩
    · cases h
    · rw [List.concat_eq_append, List.length_append] at h
      obtain ⟨hinit, hlt⟩ := ih (Nat.succ.inj h)
      have hbyte : byte.toNat < 256 := byte.toNat_lt
      rw [List.concat_eq_append, bigEndian_append]
      constructor
      · have hdiv : (bigEndian init * 256 + byte.toNat) / 256 =
            bigEndian init := by omega
        have hmod : (bigEndian init * 256 + byte.toNat) % 256 =
            byte.toNat := by omega
        rw [putBigEndian, hdiv, hmod, hinit, UInt8.ofNat_toNat]
      · rw [pow_succ]
        omega

end GoWarp.Support
