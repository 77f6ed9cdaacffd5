import Mathlib.Data.List.Basic

/-!
# Decoders over a list of tokens

A decoder consumes a prefix of its input and returns a value together with
the tokens it left over, or fails.  This module contains the three notions
with which a chain of decoders is verified, each with its rule for
sequencing:

* `Reads d enc a`: on any input that starts with `enc`, the decoder consumes
  exactly `enc` and returns `a`;
* `Stable d`: appending tokens to an accepted input changes neither the value
  nor what is consumed;
* `Ensures d P`: every value the decoder returns satisfies `P`.
-/

namespace GoWarp.Support

/-- A decoder over tokens `τ` with errors `ε`. -/
abbrev Decoder (τ ε : Type) := StateT (List τ) (Except ε)

namespace Decoder

variable {τ ε α β : Type}

/-- The next token, or `e` at the end of the input. -/
def next (e : ε) : Decoder τ ε τ
  | [] => .error e
  | t :: rest => .ok (t, rest)

/-- Fail with `e` unless `p` holds. -/
def require (p : Prop) [Decidable p] (e : ε) : Decoder τ ε Unit :=
  fun input => if p then .ok ((), input) else .error e

/-- The next `n` tokens, or `e` when fewer are left. -/
def takeN (n : ℕ) (e : ε) : Decoder τ ε (List τ) := fun input =>
  if n ≤ input.length then .ok (input.take n, input.drop n) else .error e

variable {d : Decoder τ ε α} {f : α → Decoder τ ε β} {b : β} {a : α}

theorem bind_eq_ok_iff {input rest : List τ} : (d >>= f) input = .ok (b, rest) ↔
      ∃ a mid, d input = .ok (a, mid) ∧ f a mid = .ok (b, rest) := by
  change (d input >>= fun p => f p.1 p.2) = _ ↔ _
  cases h : d input with
  | error e =>
    constructor
    · intro hbind
      cases hbind
    · rintro ⟨a, mid, hd, -⟩
      cases hd
  | ok p =>
    constructor
    · intro hbind
      exact ⟨p.1, p.2, rfl, hbind⟩
    · rintro ⟨a, mid, hd, hf⟩
      cases hd
      exact hf

/-! ## Reading an encoding -/

/-- `d` consumes exactly `enc`, whatever follows it, and returns `a`. -/
def Reads (d : Decoder τ ε α) (enc : List τ) (a : α) : Prop :=
  ∀ rest, d (enc ++ rest) = .ok (a, rest)

theorem Reads.pure (a : α) : Reads (Pure.pure a : Decoder τ ε α) [] a := by
  intro rest
  rfl

theorem Reads.bind {enc enc' : List τ} (hd : Reads d enc a) (hf : Reads (f a) enc' b) :
    Reads (d >>= f) (enc ++ enc') b := by
  intro rest
  rw [List.append_assoc]
  exact bind_eq_ok_iff.mpr ⟨a, enc' ++ rest, hd _, hf rest⟩

theorem Reads.next (e : ε) (t : τ) : Reads (next e) [t] t := by
  intro rest
  rfl

theorem Reads.require {p : Prop} [Decidable p] (e : ε) (hp : p) :
    Reads (require p e : Decoder τ ε Unit) [] () := by
  intro rest
  simp [Decoder.require, hp]

theorem Reads.require_bind {p : Prop} [Decidable p] {e : ε}
    {f : Unit → Decoder τ ε β} {enc : List τ} (hp : p) (hf : Reads (f ()) enc b) :
    Reads (Decoder.require p e >>= f) enc b :=
  Reads.bind (.require e hp) hf

theorem Reads.takeN (e : ε) (enc : List τ) : Reads (takeN enc.length e) enc enc := by
  intro rest
  simp [Decoder.takeN]

theorem Reads.run {enc : List τ} (h : Reads d enc a) : d enc = .ok (a, []) := by simpa using h []

/-! ## Stability under longer inputs -/

/-- Tokens appended to an accepted input are left over. -/
def Stable (d : Decoder τ ε α) : Prop :=
  ∀ input a rest, d input = .ok (a, rest) → ∀ more, d (input ++ more) = .ok (a, rest ++ more)

theorem Stable.pure (a : α) : Stable (Pure.pure a : Decoder τ ε α) := by
  intro input a' rest h more
  cases h
  rfl

theorem Stable.bind (hd : Stable d) (hf : ∀ a, Stable (f a)) : Stable (d >>= f) := by
  intro input b rest h more
  obtain ⟨a, mid, hda, hfa⟩ := bind_eq_ok_iff.mp h
  exact bind_eq_ok_iff.mpr ⟨a, mid ++ more, hd input a mid hda more, hf a mid b rest hfa more⟩

theorem Stable.next (e : ε) : Stable (next e : Decoder τ ε τ) := by
  intro input t rest h more
  cases input with
  | nil => cases h
  | cons x xs =>
    cases h
    rfl

theorem Stable.require (p : Prop) [Decidable p] (e : ε) :
    Stable (require p e : Decoder τ ε Unit) := by
  intro input u rest h more
  by_cases hp : p
  · simp only [Decoder.require, if_pos hp] at h ⊢
    cases h
    rfl
  · simp [Decoder.require, hp] at h

theorem Stable.takeN (n : ℕ) (e : ε) : Stable (takeN n e : Decoder τ ε (List τ)) := by
  intro input a rest h more
  by_cases hn : n ≤ input.length
  · simp only [Decoder.takeN, if_pos hn] at h
    cases h
    have hmore : n ≤ (input ++ more).length := by
      rw [List.length_append]
      omega
    simp only [Decoder.takeN, if_pos hmore]
    rw [List.take_append_of_le_length hn, List.drop_append_of_le_length hn]
  · simp [Decoder.takeN, hn] at h

/-! ## Postconditions -/

/-- Every value `d` returns satisfies `P`. -/
def Ensures (d : Decoder τ ε α) (P : α → Prop) : Prop :=
  ∀ input a rest, d input = .ok (a, rest) → P a

theorem Ensures.pure {P : α → Prop} (h : P a) : Ensures (Pure.pure a : Decoder τ ε α) P := by
  intro input a' rest hrun
  cases hrun
  exact h

theorem Ensures.bind {P : α → Prop} {Q : β → Prop}
    (hd : Ensures d P) (hf : ∀ a, P a → Ensures (f a) Q) :
    Ensures (d >>= f) Q := by
  intro input b rest h
  obtain ⟨a, mid, hda, hfa⟩ := bind_eq_ok_iff.mp h
  exact hf a (hd input a mid hda) mid b rest hfa

theorem Ensures.trivial (d : Decoder τ ε α) : Ensures d fun _ => True := by
  intro input a rest _
  exact .intro

theorem Ensures.require (p : Prop) [Decidable p] (e : ε) :
    Ensures (require p e : Decoder τ ε Unit) fun _ => p := by
  intro input u rest h
  by_contra hp
  simp [Decoder.require, hp] at h

theorem Ensures.takeN (n : ℕ) (e : ε) :
    Ensures (takeN n e : Decoder τ ε (List τ)) fun l => l.length = n := by
  intro input a rest h
  by_cases hn : n ≤ input.length
  · simp only [Decoder.takeN, if_pos hn] at h
    cases h
    rw [List.length_take]
    exact Nat.min_eq_left hn
  · simp [Decoder.takeN, hn] at h

end Decoder

end GoWarp.Support
