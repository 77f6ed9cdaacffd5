import GoWarp.Support.ByteStream
import GoWarp.Support.Decoder
import Mathlib.Tactic.Ring

/-!
# Variable-length integers

The base-128 encoding of unsigned 64-bit numbers and the zig-zag encoding of
signed ones, as the standard library of Go defines them.  Values are natural
numbers and integers; the bounds `2 ^ 64` and `2 ^ 63` of the machine types
appear as hypotheses where they are needed.
-/

namespace GoWarp.Support

open Decoder

/-- Longest encoding of a 64-bit number, in bytes. -/
def maxVarintLen64 : ℕ := 10

/-- `binary.PutUvarint`: seven bits a byte, least significant group first, the
high bit set on every byte but the last. -/
def putUvarint (n : ℕ) : List UInt8 :=
  if n < 128 then
    [UInt8.ofNat n]
  else
    UInt8.ofNat (n % 128 + 128) :: putUvarint (n / 128)
termination_by n

/-- The loop of `binary.ReadUvarint` with `fuel` iterations left, `x` the bits
read so far and `s` their number.  The last byte allowed contributes one bit
only. -/
def readUvarintLoop {ε : Type} (e : ε) : ℕ → ℕ → ℕ → Decoder UInt8 ε ℕ
  | 0, _, _ => fun _ => .error e
  | fuel + 1, x, s => do
      let b ← next e
      if b.toNat < 128 then
        require (¬ (fuel = 0 ∧ 1 < b.toNat)) e
        pure (x + b.toNat * 2 ^ s)
      else
        readUvarintLoop e fuel (x + (b.toNat % 128) * 2 ^ s) (s + 7)

/-- `binary.ReadUvarint`, with one error for an input that ends early and for
a value that does not fit in 64 bits. -/
def readUvarint {ε : Type} (e : ε) : Decoder UInt8 ε ℕ := readUvarintLoop e maxVarintLen64 0 0

variable {n : ℕ}

theorem putUvarint_of_lt (h : n < 128) : putUvarint n = [UInt8.ofNat n] := by
  rw [putUvarint, if_pos h]

theorem putUvarint_of_le (h : 128 ≤ n) :
    putUvarint n = UInt8.ofNat (n % 128 + 128) :: putUvarint (n / 128) := by
  rw [putUvarint, if_neg (Nat.not_lt.mpr h)]

theorem putUvarint_ne_nil (n : ℕ) : putUvarint n ≠ [] := by
  rw [putUvarint]
  split
  · exact List.cons_ne_nil _ _
  · exact List.cons_ne_nil _ _

theorem length_putUvarint_le {k n : ℕ} (hk : 0 < k) (hn : n < 128 ^ k) :
    (putUvarint n).length ≤ k := by
  induction k generalizing n with
  | zero => omega
  | succ k ih =>
    by_cases hlt : n < 128
    · rw [putUvarint_of_lt hlt, List.length_singleton]
      omega
    · have hquot : n / 128 < 128 ^ k := by
        rw [pow_succ] at hn
        omega
      have hpos : 0 < k := by
        by_contra hzero
        obtain rfl : k = 0 := by omega
        rw [pow_zero] at hquot
        omega
      rw [putUvarint_of_le (Nat.le_of_not_lt hlt), List.length_cons]
      exact Nat.succ_le_succ (ih hpos hquot)

theorem length_putUvarint_le_ten (hn : n < 2 ^ 64) : (putUvarint n).length ≤ 10 :=
  length_putUvarint_le (by decide) (Nat.lt_of_lt_of_le hn (by decide : 2 ^ 64 ≤ 128 ^ 10))

private theorem toNat_ofNat_of_lt (h : n < 256) : (UInt8.ofNat n).toNat = n := by
  rw [UInt8.toNat_ofNat']
  exact Nat.mod_eq_of_lt h

variable {ε : Type}

theorem readUvarintLoop_reads (e : ε) : ∀ (fuel n x s : ℕ), n < 2 * 128 ^ fuel →
      Reads (readUvarintLoop e (fuel + 1) x s) (putUvarint n) (x + n * 2 ^ s) := by
  intro fuel
  induction fuel with
  | zero =>
    intro n x s hn rest
    have hlt : n < 128 := by omega
    have hbyte : (UInt8.ofNat n).toNat = n := toNat_ofNat_of_lt (by omega)
    have hone : ¬ 1 < n := by omega
    rw [putUvarint_of_lt hlt]
    simp only [readUvarintLoop]
    refine bind_eq_ok_iff.mpr ⟨_, rest, rfl, ?_⟩
    rw [hbyte, if_pos hlt]
    refine bind_eq_ok_iff.mpr ⟨(), rest, ?_, rfl⟩
    simp [require, hone]
  | succ fuel ih =>
    intro n x s hn rest
    by_cases hlt : n < 128
    · have hbyte : (UInt8.ofNat n).toNat = n := toNat_ofNat_of_lt (by omega)
      rw [putUvarint_of_lt hlt]
      simp only [readUvarintLoop]
      refine bind_eq_ok_iff.mpr ⟨_, rest, rfl, ?_⟩
      rw [hbyte, if_pos hlt]
      refine bind_eq_ok_iff.mpr ⟨(), rest, ?_, rfl⟩
      simp [require]
    · have hle : 128 ≤ n := Nat.le_of_not_lt hlt
      have hbyte : (UInt8.ofNat (n % 128 + 128)).toNat = n % 128 + 128 :=
        toNat_ofNat_of_lt (by omega)
      have hquot : n / 128 < 2 * 128 ^ fuel := by
        rw [pow_succ] at hn
        omega
      have hbits : (n % 128 + 128) % 128 = n % 128 := by omega
      have hvalue : x + n % 128 * 2 ^ s + n / 128 * 2 ^ (s + 7) = x + n * 2 ^ s := by
        calc x + n % 128 * 2 ^ s + n / 128 * 2 ^ (s + 7) =
              x + (128 * (n / 128) + n % 128) * 2 ^ s := by ring
          _ = x + n * 2 ^ s := by rw [Nat.div_add_mod]
      rw [putUvarint_of_le hle, readUvarintLoop]
      refine bind_eq_ok_iff.mpr ⟨_, _, rfl, ?_⟩
      rw [hbyte, if_neg (by omega), hbits, ← hvalue]
      exact ih (n / 128) _ _ hquot rest

theorem readUvarint_reads (e : ε) (hn : n < 2 ^ 64) : Reads (readUvarint e) (putUvarint n) n := by
  have h := readUvarintLoop_reads e 9 n 0 0 (by norm_num; omega)
  simpa [readUvarint, maxVarintLen64] using h

theorem readUvarintLoop_stable (e : ε) : ∀ fuel x s : ℕ, Stable (readUvarintLoop e fuel x s) := by
  intro fuel
  induction fuel with
  | zero =>
    intro x s input a rest h
    cases h
  | succ fuel ih =>
    intro x s
    refine .bind (.next e) ?_
    intro b
    by_cases hb : b.toNat < 128
    · simp only [if_pos hb]
      exact .bind (.require _ e) fun _ => .pure _
    · simp only [if_neg hb]
      exact ih _ _

theorem readUvarint_stable (e : ε) : Stable (readUvarint e) := readUvarintLoop_stable e _ _ _

theorem readUvarintLoop_ensures (e : ε) : ∀ fuel x s : ℕ, x < 2 ^ s →
      Ensures (readUvarintLoop e (fuel + 1) x s) fun n => n < 2 ^ (s + 7 * fuel + 1) := by
  intro fuel
  induction fuel with
  | zero =>
    intro x s hx
    refine .bind (.trivial _) ?_
    intro b _
    by_cases hb : b.toNat < 128
    · simp only [if_pos hb]
      refine .bind (.require _ e) ?_
      intro _ hlast
      apply Ensures.pure
      have hone : b.toNat ≤ 1 := by omega
      have hmul : b.toNat * 2 ^ s ≤ 1 * 2 ^ s := Nat.mul_le_mul_right _ hone
      rw [Nat.mul_zero, Nat.add_zero, pow_succ]
      omega
    · simp only [if_neg hb]
      intro input a rest h
      cases h
  | succ fuel ih =>
    intro x s hx
    refine .bind (.trivial _) ?_
    intro b _
    have hgroup : ∀ g, g < 128 → x + g * 2 ^ s < 2 ^ (s + 7) := by
      intro g hg
      have hmul : g * 2 ^ s ≤ 127 * 2 ^ s := Nat.mul_le_mul_right _ (by omega)
      rw [pow_add]
      omega
    by_cases hb : b.toNat < 128
    · simp only [if_pos hb]
      refine .bind (.trivial _) ?_
      intro _ _
      apply Ensures.pure
      exact lt_of_lt_of_le (hgroup _ hb) (Nat.pow_le_pow_right (by omega) (by omega))
    · simp only [if_neg hb]
      intro input a rest h
      have hnext := ih _ (s + 7) (hgroup _ (Nat.mod_lt _ (by omega))) input a rest h
      have hexp : s + 7 + 7 * fuel + 1 = s + 7 * (fuel + 1) + 1 := by ring
      rwa [hexp] at hnext

theorem readUvarint_ensures (e : ε) : Ensures (readUvarint e) fun n => n < 2 ^ 64 :=
  readUvarintLoop_ensures e 9 0 0 (by norm_num)

/-! ## Reading from a stream -/

/-- How `binary.ReadUvarint` fails on a stream. -/
inductive UvarintFault where
  | read (fault : ReadFault)
  | overflow
deriving DecidableEq

namespace BufReader

/-- The loop of `binary.ReadUvarint` on a stream, as `readUvarintLoop` with the
errors apart.  The end of the stream is expected before the first byte only. -/
def readUvarintLoop : ℕ → ℕ → ℕ → BufReader UInt8 → Except UvarintFault (ℕ × BufReader UInt8)
  | 0, _, _, _ => .error .overflow
  | fuel + 1, x, s, r =>
    match r.readByte with
    | none => .error (.read (if s = 0 then .eof else .unexpectedEOF))
    | some (b, r') =>
      if b.toNat < 128 then
        if fuel = 0 ∧ 1 < b.toNat then .error .overflow
        else .ok (x + b.toNat * 2 ^ s, r')
      else
        readUvarintLoop fuel (x + (b.toNat % 128) * 2 ^ s) (s + 7) r'

/-- `binary.ReadUvarint`. -/
def readUvarint (r : BufReader UInt8) : Except UvarintFault (ℕ × BufReader UInt8) :=
  readUvarintLoop maxVarintLen64 0 0 r

theorem readUvarint_of_nil {r : BufReader UInt8} (h : r.tokens = []) :
    r.readUvarint = .error (.read .eof) := by
  rw [readUvarint, maxVarintLen64, readUvarintLoop]
  rcases hread : r.readByte with _ | ⟨b, r'⟩
  · rfl
  · rw [readByte_eq_some hread] at h
    cases h

theorem readUvarintLoop_eq_ok_iff (e : ε) (fuel x s n : ℕ)
    (rest : List UInt8) (r : BufReader UInt8) :
    (∃ r', readUvarintLoop fuel x s r = .ok (n, r') ∧ r'.tokens = rest) ↔
      Support.readUvarintLoop e fuel x s r.tokens = .ok (n, rest) := by
  induction fuel generalizing x s r with
  | zero =>
    constructor
    · rintro ⟨r', hrun, _⟩
      cases hrun
    · intro hrun
      cases hrun
  | succ fuel ih =>
    rw [readUvarintLoop, Support.readUvarintLoop, bind_eq_ok_iff]
    rcases hread : r.readByte with _ | ⟨b, r₁⟩
    · rw [readByte_eq_none hread]
      constructor
      · rintro ⟨r', hrun, _⟩
        cases hrun
      · rintro ⟨b, mid, hnext, _⟩
        cases hnext
    · rw [readByte_eq_some hread]
      have hnext : ∀ P : UInt8 → List UInt8 → Prop,
          (∃ b' mid, next e (b :: r₁.tokens) = .ok (b', mid) ∧ P b' mid) ↔
            P b r₁.tokens := by
        intro P
        constructor
        · rintro ⟨b', mid, hok, hP⟩
          cases hok
          exact hP
        · exact fun hP => ⟨b, r₁.tokens, rfl, hP⟩
      rw [hnext]
      dsimp only
      by_cases hlast : b.toNat < 128
      · rw [if_pos hlast, if_pos hlast, bind_eq_ok_iff, require]
        by_cases hbig : fuel = 0 ∧ 1 < b.toNat
        · rw [if_pos hbig, if_neg (not_not.mpr hbig)]
          constructor
          · rintro ⟨r', hrun, _⟩
            cases hrun
          · rintro ⟨_, mid, hok, _⟩
            cases hok
        · rw [if_neg hbig, if_pos hbig]
          constructor
          · rintro ⟨r', hrun, rfl⟩
            cases hrun
            exact ⟨(), r₁.tokens, rfl, rfl⟩
          · rintro ⟨_, mid, hok, hpure⟩
            cases hok
            cases hpure
            exact ⟨r₁, rfl, rfl⟩
      · rw [if_neg hlast, if_neg hlast]
        exact ih _ _ r₁

theorem readUvarint_eq_ok_iff (e : ε) {n : ℕ} {rest : List UInt8} {r : BufReader UInt8} :
    (∃ r', r.readUvarint = .ok (n, r') ∧ r'.tokens = rest) ↔
      Support.readUvarint e r.tokens = .ok (n, rest) :=
  readUvarintLoop_eq_ok_iff e _ _ _ _ _ _

end BufReader

/-! ## Signed numbers -/

/-- The unsigned number `binary.PutVarint` writes: on 64-bit values this is
`uint64(x) << 1`, complemented when `x` is negative. -/
def zigzag (x : ℤ) : ℕ := if x < 0 then (-2 * x - 1).toNat else (2 * x).toNat

/-- The signed number `binary.ReadVarint` returns: `int64(ux >> 1)`,
complemented when the low bit is set. -/
def unzigzag (ux : ℕ) : ℤ := if ux % 2 = 0 then (ux / 2 : ℕ) else -((ux / 2 : ℕ) : ℤ) - 1

theorem unzigzag_zigzag (x : ℤ) : unzigzag (zigzag x) = x := by
  unfold unzigzag zigzag
  split <;> split <;> omega

theorem zigzag_lt {x : ℤ} (hlo : -2 ^ 63 ≤ x) (hhi : x < 2 ^ 63) : zigzag x < 2 ^ 64 := by
  unfold zigzag
  split <;> omega

theorem unzigzag_bounds {ux : ℕ} (h : ux < 2 ^ 64) :
    -2 ^ 63 ≤ unzigzag ux ∧ unzigzag ux < 2 ^ 63 := by
  unfold unzigzag
  split <;> omega

/-- `binary.PutVarint`. -/
def putVarint (x : ℤ) : List UInt8 := putUvarint (zigzag x)

/-- `binary.ReadVarint`. -/
def readVarint {ε : Type} (e : ε) : Decoder UInt8 ε ℤ := do
  let ux ← readUvarint e
  pure (unzigzag ux)

theorem readVarint_reads (e : ε) {x : ℤ} (hlo : -2 ^ 63 ≤ x) (hhi : x < 2 ^ 63) :
    Reads (readVarint e) (putVarint x) x := by
  have hread : Reads (readVarint e) (putVarint x ++ []) (unzigzag (zigzag x)) :=
    Reads.bind (readUvarint_reads e (zigzag_lt hlo hhi)) (.pure _)
  rwa [List.append_nil, unzigzag_zigzag] at hread

theorem readVarint_stable (e : ε) : Stable (readVarint e) :=
  Stable.bind (readUvarint_stable e) fun _ => .pure _

theorem readVarint_ensures (e : ε) : Ensures (readVarint e) fun x => -2 ^ 63 ≤ x ∧ x < 2 ^ 63 :=
  Ensures.bind (readUvarint_ensures e) fun _ h => .pure (unzigzag_bounds h)

end GoWarp.Support
