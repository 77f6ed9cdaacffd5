import Mathlib.Data.List.Basic

/-!
# Decoding UTF-8

`runes` is what iterating over a Go string yields: the code points of the text,
and the replacement character, one byte wide, where the bytes are not UTF-8.
On the encodings of texts it is the inverse of the encoding, so that one
encoding is an initial part of another one exactly if the same holds of their
runes.
-/

namespace GoWarp.Support.Utf8

/-- `utf8.RuneError`. -/
def runeError : ℕ := 0xFFFD

/-- The number of bytes of an encoding that starts with the given byte, and the
range of its second byte. -/
def accept (s0 : ℕ) : Option (ℕ × ℕ × ℕ) :=
  if s0 < 0xC2 then none
  else if s0 ≤ 0xDF then some (2, 0x80, 0xBF)
  else if s0 = 0xE0 then some (3, 0xA0, 0xBF)
  else if s0 = 0xED then some (3, 0x80, 0x9F)
  else if s0 ≤ 0xEF then some (3, 0x80, 0xBF)
  else if s0 = 0xF0 then some (4, 0x90, 0xBF)
  else if s0 ≤ 0xF3 then some (4, 0x80, 0xBF)
  else if s0 = 0xF4 then some (4, 0x80, 0x8F)
  else none

/-- The byte is in a range. -/
def inRange (lo hi : ℕ) (b : UInt8) : Bool := lo ≤ b.toNat ∧ b.toNat ≤ hi

/-- The low bits of a byte. -/
def low (modulus : ℕ) (b : UInt8) : ℕ := b.toNat % modulus

/-- The rune of several bytes that starts with a byte, when the bytes after it
are as they should be. -/
def decodeLong (s0 : UInt8) : Option (ℕ × ℕ × ℕ) → List UInt8 → ℕ × ℕ
  | some (2, lo, hi), s1 :: _ =>
    if inRange lo hi s1 then (low 0x20 s0 * 0x40 + low 0x40 s1, 2)
    else (runeError, 1)
  | some (3, lo, hi), s1 :: s2 :: _ =>
    if inRange lo hi s1 ∧ inRange 0x80 0xBF s2 then
      (low 0x10 s0 * 0x1000 + low 0x40 s1 * 0x40 + low 0x40 s2, 3)
    else
      (runeError, 1)
  | some (4, lo, hi), s1 :: s2 :: s3 :: _ =>
    if inRange lo hi s1 ∧ inRange 0x80 0xBF s2 ∧ inRange 0x80 0xBF s3 then
      (low 0x08 s0 * 0x40000 + low 0x40 s1 * 0x1000 + low 0x40 s2 * 0x40 + low 0x40 s3, 4)
    else
      (runeError, 1)
  | _, _ => (runeError, 1)

/-- `utf8.DecodeRuneInString`: the first rune of a string, and the number of
bytes it takes. -/
def decodeRune : List UInt8 → ℕ × ℕ
  | [] => (runeError, 0)
  | s0 :: rest =>
    if s0.toNat < 0x80 then (s0.toNat, 1)
    else decodeLong s0 (accept s0.toNat) rest

/-- The first `n` runes of a string. -/
def runesUpTo : ℕ → List UInt8 → List ℕ
  | 0, _ => []
  | _ + 1, [] => []
  | n + 1, s0 :: rest =>
    (decodeRune (s0 :: rest)).1 :: runesUpTo n ((s0 :: rest).drop (decodeRune (s0 :: rest)).2)

/-- The runes that iterating over a string yields. -/
def runes (s : List UInt8) : List ℕ := runesUpTo s.length s

/-! ## One rune -/

theorem decodeRune_two {s0 s1 : UInt8} (rest : List UInt8) (h0 : 0xC2 ≤ s0.toNat ∧ s0.toNat ≤ 0xDF)
    (h1 : 0x80 ≤ s1.toNat ∧ s1.toNat ≤ 0xBF) :
    decodeRune (s0 :: s1 :: rest) = (low 0x20 s0 * 0x40 + low 0x40 s1, 2) := by
  have haccept : accept s0.toNat = some (2, 0x80, 0xBF) := by
    rw [accept, if_neg (by omega), if_pos (by omega)]
  rw [decodeRune, if_neg (by omega), haccept, decodeLong]
  exact if_pos (decide_eq_true h1)

theorem decodeRune_three {s0 s1 s2 : UInt8} (rest : List UInt8)
    (h0 : 0xE0 ≤ s0.toNat ∧ s0.toNat ≤ 0xEF) (h1 : 0x80 ≤ s1.toNat ∧ s1.toNat ≤ 0xBF)
    (hfirst : s0.toNat = 0xE0 → 0xA0 ≤ s1.toNat) (hsurrogate : s0.toNat = 0xED → s1.toNat ≤ 0x9F)
    (h2 : 0x80 ≤ s2.toNat ∧ s2.toNat ≤ 0xBF) :
    decodeRune (s0 :: s1 :: s2 :: rest) =
      (low 0x10 s0 * 0x1000 + low 0x40 s1 * 0x40 + low 0x40 s2, 3) := by
  obtain ⟨lo, hi, haccept, hlo, hhi⟩ : ∃ lo hi,
      accept s0.toNat = some (3, lo, hi) ∧ lo ≤ s1.toNat ∧ s1.toNat ≤ hi := by
    rw [accept, if_neg (by omega), if_neg (by omega)]
    split_ifs with hE0 hED hle
    · exact ⟨_, _, rfl, hfirst hE0, h1.2⟩
    · exact ⟨_, _, rfl, h1.1, hsurrogate hED⟩
    · exact ⟨_, _, rfl, h1.1, h1.2⟩
    all_goals omega
  rw [decodeRune, if_neg (by omega), haccept, decodeLong]
  exact if_pos ⟨decide_eq_true ⟨hlo, hhi⟩, decide_eq_true h2⟩

theorem decodeRune_four {s0 s1 s2 s3 : UInt8} (rest : List UInt8)
    (h0 : 0xF0 ≤ s0.toNat ∧ s0.toNat ≤ 0xF4) (h1 : 0x80 ≤ s1.toNat ∧ s1.toNat ≤ 0xBF)
    (hfirst : s0.toNat = 0xF0 → 0x90 ≤ s1.toNat) (hlast : s0.toNat = 0xF4 → s1.toNat ≤ 0x8F)
    (h2 : 0x80 ≤ s2.toNat ∧ s2.toNat ≤ 0xBF) (h3 : 0x80 ≤ s3.toNat ∧ s3.toNat ≤ 0xBF) :
    decodeRune (s0 :: s1 :: s2 :: s3 :: rest) =
      (low 0x08 s0 * 0x40000 + low 0x40 s1 * 0x1000 + low 0x40 s2 * 0x40 + low 0x40 s3, 4) := by
  obtain ⟨lo, hi, haccept, hlo, hhi⟩ : ∃ lo hi,
      accept s0.toNat = some (4, lo, hi) ∧ lo ≤ s1.toNat ∧ s1.toNat ≤ hi := by
    rw [accept, if_neg (by omega), if_neg (by omega), if_neg (by omega),
      if_neg (by omega), if_neg (by omega)]
    split_ifs with hF0 hle hF4
    · exact ⟨_, _, rfl, hfirst hF0, h1.2⟩
    · exact ⟨_, _, rfl, h1.1, h1.2⟩
    · exact ⟨_, _, rfl, h1.1, hlast hF4⟩
    · omega
  rw [decodeRune, if_neg (by omega), haccept, decodeLong]
  exact if_pos ⟨decide_eq_true ⟨hlo, hhi⟩, decide_eq_true h2,
    decide_eq_true h3⟩

theorem toNat_ofNat_of_lt {n : ℕ} (h : n < 256) : (UInt8.ofNat n).toNat = n := Nat.mod_eq_of_lt h

theorem toNat_continuation (n : ℕ) : (UInt8.ofNat (n % 64 + 0x80)).toNat = n % 64 + 0x80 :=
  toNat_ofNat_of_lt (by omega)

theorem decodeRune_encodeChar (c : Char) (rest : List UInt8) :
    decodeRune (String.utf8EncodeChar c ++ rest) = (c.toNat, (String.utf8EncodeChar c).length) := by
  have hvalid : c.toNat < 0xD800 ∨ 0xDFFF < c.toNat ∧ c.toNat < 0x110000 := c.valid
  have hval : c.val.toNat = c.toNat := rfl
  simp only [String.utf8EncodeChar, hval]
  split_ifs with hone htwo hthree
  · rw [List.singleton_append, decodeRune, toNat_ofNat_of_lt (by omega),
      if_pos (by omega)]
    rfl
  · have hlead : (UInt8.ofNat (c.toNat / 64 % 32 + 0xC0)).toNat =
        c.toNat / 64 % 32 + 0xC0 := toNat_ofNat_of_lt (by omega)
    rw [List.cons_append, List.singleton_append, decodeRune_two]
    · simp only [low, hlead, toNat_continuation, List.length_cons,
        List.length_nil, Prod.mk.injEq, and_true]
      omega
    all_goals
      simp only [hlead, toNat_continuation]
      omega
  · have hlead : (UInt8.ofNat (c.toNat / 4096 % 16 + 0xE0)).toNat =
        c.toNat / 4096 % 16 + 0xE0 := toNat_ofNat_of_lt (by omega)
    rw [List.cons_append, List.cons_append, List.singleton_append, decodeRune_three]
    · simp only [low, hlead, toNat_continuation, List.length_cons,
        List.length_nil, Prod.mk.injEq, and_true]
      omega
    all_goals
      simp only [hlead, toNat_continuation]
      omega
  · have hlead : (UInt8.ofNat (c.toNat / 262144 % 8 + 0xF0)).toNat =
        c.toNat / 262144 % 8 + 0xF0 := toNat_ofNat_of_lt (by omega)
    rw [List.cons_append, List.cons_append, List.cons_append,
      List.singleton_append, decodeRune_four]
    · simp only [low, hlead, toNat_continuation, List.length_cons,
        List.length_nil, Prod.mk.injEq, and_true]
      omega
    all_goals
      simp only [hlead, toNat_continuation]
      omega

/-! ## All runes -/

theorem decodeRune_width_pos (s0 : UInt8) (rest : List UInt8) :
    0 < (decodeRune (s0 :: rest)).2 := by
  rw [decodeRune]
  split
  next => exact Nat.one_pos
  next =>
    unfold decodeLong
    repeat' split
    all_goals exact Nat.succ_pos _

theorem runesUpTo_eq_runes {n : ℕ} {s : List UInt8} (h : s.length ≤ n) :
    runesUpTo n s = runes s := by
  suffices hmore : ∀ m n (s : List UInt8), s.length ≤ m → s.length ≤ n →
      runesUpTo m s = runesUpTo n s from
    hmore n s.length s h (Nat.le_refl _)
  intro m
  induction m with
  | zero =>
    intro n s hm _
    obtain rfl := List.length_eq_zero_iff.mp (Nat.le_zero.mp hm)
    rcases n with _ | n
    · rfl
    · rfl
  | succ m ih =>
    intro n s hm hn
    rcases s with _ | ⟨s0, rest⟩
    · rcases n with _ | n
      · rfl
      · rfl
    · rcases n with _ | n
      · cases hn
      · have hpos := decodeRune_width_pos s0 rest
        rw [runesUpTo, runesUpTo]
        congr 1
        apply ih
        · rw [List.length_drop]
          omega
        · rw [List.length_drop]
          omega

theorem runes_cons (s0 : UInt8) (rest : List UInt8) :
    runes (s0 :: rest) = (decodeRune (s0 :: rest)).1 ::
      runes ((s0 :: rest).drop (decodeRune (s0 :: rest)).2) := by
  have hpos := decodeRune_width_pos s0 rest
  rw [runes, List.length_cons, runesUpTo]
  congr 1
  apply runesUpTo_eq_runes
  rw [List.length_drop, List.length_cons]
  omega

/-! ## Encoded texts -/

def encode (text : List Char) : List UInt8 := text.flatMap String.utf8EncodeChar

/-- The bytes are the encoding of a text. -/
def Valid (s : List UInt8) : Prop := ∃ text, encode text = s

@[simp] theorem encode_nil : encode [] = [] := rfl

@[simp] theorem encode_cons (c : Char) (text : List Char) :
    encode (c :: text) = String.utf8EncodeChar c ++ encode text :=
  List.flatMap_cons

theorem exists_encodeChar_eq_cons (c : Char) : ∃ s0 rest, String.utf8EncodeChar c = s0 :: rest := by
  apply List.exists_cons_of_ne_nil
  exact String.utf8EncodeChar_ne_nil

theorem runes_encode (text : List Char) : runes (encode text) = text.map Char.toNat := by
  induction text with
  | nil => rfl
  | cons c text ih =>
    obtain ⟨s0, rest, hc⟩ := exists_encodeChar_eq_cons c
    have hdecode := decodeRune_encodeChar c (encode text)
    rw [encode_cons, List.map_cons]
    rw [hc, List.cons_append] at hdecode ⊢
    rw [runes_cons, hdecode, ← List.cons_append, List.drop_left, ih]

theorem toNat_injective : Function.Injective Char.toNat := by
  intro c d h
  exact Char.ext (UInt32.toNat_inj.mp h)

theorem encode_prefix_iff {text other : List Char} :
    encode text <+: encode other ↔ text <+: other := by
  constructor
  · intro h
    induction text generalizing other with
    | nil => exact List.nil_prefix
    | cons c text ih =>
      obtain ⟨after, hafter⟩ := h
      rw [encode_cons, List.append_assoc] at hafter
      rcases other with _ | ⟨d, other⟩
      · obtain ⟨s0, rest, hc⟩ := exists_encodeChar_eq_cons c
        rw [hc] at hafter
        cases hafter
      · rw [encode_cons] at hafter
        have hdecode := decodeRune_encodeChar c (encode text ++ after)
        rw [hafter, decodeRune_encodeChar, Prod.mk.injEq] at hdecode
        obtain rfl := toNat_injective hdecode.1
        rw [List.append_cancel_left_eq] at hafter
        exact (List.prefix_cons_inj d).mpr (ih ⟨after, hafter⟩)
  · rintro ⟨after, rfl⟩
    exact ⟨encode after, List.flatMap_append.symm⟩

theorem prefix_iff_runes {s t : List UInt8} (hs : Valid s) (ht : Valid t) :
    s <+: t ↔ runes s <+: runes t := by
  obtain ⟨text, rfl⟩ := hs
  obtain ⟨other, rfl⟩ := ht
  rw [encode_prefix_iff, runes_encode, runes_encode]
  exact (List.prefix_map_iff_of_injective toNat_injective).symm

theorem runes_eq_nil_iff {s : List UInt8} : runes s = [] ↔ s = [] := by
  constructor
  · intro h
    rcases s with _ | ⟨s0, rest⟩
    · rfl
    · rw [runes_cons] at h
      cases h
  · rintro rfl
    rfl

end GoWarp.Support.Utf8
