import Mathlib.Data.List.Basic

/-!
# Writers and buffered readers

A writer may take fewer tokens than it is given, and a source may answer a
read with fewer tokens than it was asked for.  The loops of `writeAll` and
`readFull` hide both.  A buffered reader behaves like the list of the tokens
still to come: how the source splits them into reads makes no difference.
-/

namespace GoWarp.Support

variable {τ ε σ : Type}

theorem append_eq_cases {a b c d : List τ} (h : a ++ b = c ++ d) :
    (∃ rest, a = c ++ rest ∧ rest ++ b = d) ∨
      ∃ left, left ≠ [] ∧ a ++ left = c ∧ b = left ++ d := by
  rcases List.append_eq_append_iff.mp h with ⟨left, hc, hb⟩ | ⟨rest, ha, hd⟩
  · by_cases hleft : left = []
    · subst hleft
      exact .inl ⟨[], by simp [hc], by simpa using hb⟩
    · exact .inr ⟨left, hleft, hc.symm, hb⟩
  · exact .inl ⟨rest, ha, hd.symm⟩

/-! ## Writers -/

/-- An `io.Writer` with states `σ`.  A call of `write` takes some of the tokens
it is given, from the front, and may report an error. -/
structure Writer (τ ε σ : Type) where
  write : σ → List τ → (ℕ × Option ε) × σ
  /-- everything taken so far -/
  output : σ → List τ
  count_le : ∀ s data, (write s data).1.1 ≤ data.length
  output_write : ∀ s data, output (write s data).2 = output s ++ data.take (write s data).1.1

/-- Why `writeAll` gives up. -/
inductive WriteFault (ε : Type) where
  | failed (e : ε)
  | shortWrite
deriving DecidableEq

namespace Writer

theorem length_drop_lt {data : List τ} (hdata : data ≠ []) (n : ℕ) :
    (data.drop (n + 1)).length < data.length := by
  have hpos := List.length_pos_iff.mpr hdata
  rw [List.length_drop]
  omega

variable (W : Writer τ ε σ)

/-- Call `write` until all tokens are taken, up to the first error and as long
as every call takes some. -/
def writeAll (data : List τ) (s : σ) : Option (WriteFault ε) × σ :=
  if hdata : data = [] then
    (none, s)
  else
    match W.write s data with
    | ((_, some e), s') => (some (.failed e), s')
    | ((0, none), s') => (some .shortWrite, s')
    | ((n + 1, none), s') =>
      have := length_drop_lt hdata n
      writeAll (data.drop (n + 1)) s'
termination_by data.length

/-- The writer takes at least one token of what it is given, without error. -/
def Accepting : Prop := ∀ s data, data ≠ [] → (W.write s data).1.2 = none ∧ 0 < (W.write s data).1.1

variable {W}

theorem Accepting.writeAll (hW : W.Accepting) (data : List τ) (s : σ) :
    ∃ s', W.writeAll data s = (none, s') ∧ W.output s' = W.output s ++ data := by
  induction hlen : data.length using Nat.strongRecOn generalizing data s with
  | ind len ih =>
    rw [Writer.writeAll]
    by_cases hdata : data = []
    · rw [dif_pos hdata, hdata, List.append_nil]
      exact ⟨s, rfl, rfl⟩
    · obtain ⟨hnone, hpos⟩ := hW s data hdata
      have hout := W.output_write s data
      rcases hwrite : W.write s data with ⟨⟨n, e⟩, s'⟩
      rw [hwrite] at hnone hpos hout
      cases hnone
      obtain ⟨n, rfl⟩ := Nat.exists_eq_succ_of_ne_zero (Nat.ne_of_gt hpos)
      have hshort : (data.drop (n + 1)).length < len := hlen ▸ length_drop_lt hdata n
      obtain ⟨s'', hrun, hs''⟩ := ih _ hshort (data.drop (n + 1)) s' rfl
      rw [dif_neg hdata]
      refine ⟨s'', hrun, ?_⟩
      rw [hs'', hout, List.append_assoc, Nat.succ_eq_add_one, List.take_append_drop]

end Writer

/-! ## Buffered readers -/

/-- What a source is going to answer to reads: the tokens it has ready, piece
by piece, and the end of the stream after the last piece. -/
structure Source (τ : Type) where
  chunks : List (List τ)
  chunks_ne : ∀ chunk ∈ chunks, chunk ≠ []

namespace Source

/-- The tokens of all pieces. -/
def tokens (src : Source τ) : List τ := src.chunks.flatten

/-- `Read` into a slice of length `n`: some of the first piece, `none` at the
end of the stream. -/
def read (src : Source τ) (n : ℕ) : Option (List τ × Source τ) :=
  match hchunks : src.chunks with
  | [] => none
  | chunk :: rest =>
    if hle : chunk.length ≤ n then
      some (chunk, ⟨rest, fun c hc => src.chunks_ne c (by simp [hchunks, hc])⟩)
    else
      some (chunk.take n, ⟨chunk.drop n :: rest, by
        intro c hc
        rcases List.mem_cons.mp hc with rfl | hc
        · rw [Ne, List.drop_eq_nil_iff]
          exact hle
        · exact src.chunks_ne c (by simp [hchunks, hc])⟩)

theorem read_eq_none {src : Source τ} {n : ℕ} (h : src.read n = none) : src.tokens = [] := by
  rw [read] at h
  split at h
  next hchunks => rw [tokens, hchunks, List.flatten_nil]
  next => split at h <;> cases h

theorem read_eq_some {src src' : Source τ} {n : ℕ} {part : List τ}
    (hn : 0 < n) (h : src.read n = some (part, src')) :
    part ≠ [] ∧ part.length ≤ n ∧ src.tokens = part ++ src'.tokens := by
  rw [read] at h
  split at h
  next => cases h
  next chunk rest hchunks =>
    have hne : chunk ≠ [] := src.chunks_ne chunk (by simp [hchunks])
    have htokens : src.tokens = chunk ++ rest.flatten := by rw [tokens, hchunks, List.flatten_cons]
    split at h
    next hle =>
      cases h
      exact ⟨hne, hle, htokens⟩
    next hle =>
      cases h
      refine ⟨?_, List.length_take_le _ _, ?_⟩
      · rw [Ne, List.take_eq_nil_iff, not_or]
        exact ⟨Nat.ne_of_gt hn, hne⟩
      · rw [htokens]
        change _ = chunk.take n ++ (chunk.drop n ++ rest.flatten)
        rw [← List.append_assoc, List.take_append_drop]

end Source

inductive ReadFault where
  | eof
  | unexpectedEOF
deriving DecidableEq

/-- `bufio.Reader`: a source, and the tokens read from it in advance. -/
structure BufReader (τ : Type) where
  size : ℕ
  buffered : List τ
  source : Source τ
  size_pos : 0 < size

namespace BufReader

/-- Nothing has been read yet. -/
def new (size : ℕ) (hpos : 0 < size) (source : Source τ) : BufReader τ := ⟨size, [], source, hpos⟩

/-- The tokens still to come. -/
def tokens (r : BufReader τ) : List τ := r.buffered ++ r.source.tokens

@[simp] theorem tokens_new (size : ℕ) (hpos : 0 < size) (source : Source τ) :
    (new size hpos source).tokens = source.tokens := rfl

/-- Refill an empty buffer by one read of the source. -/
def fill (r : BufReader τ) : Option (BufReader τ) :=
  match r.buffered with
  | _ :: _ => some r
  | [] => (r.source.read r.size).map fun p => { r with buffered := p.1, source := p.2 }

def readByte (r : BufReader τ) : Option (τ × BufReader τ) :=
  r.fill.bind fun r =>
    match r.buffered with
    | [] => none
    | b :: rest => some (b, { r with buffered := rest })

/-- `Read` into a slice of length `n`: from the buffer, which is refilled first
if it is empty; a slice longer than the buffer is read into directly. -/
def read (r : BufReader τ) (n : ℕ) : Option (List τ × BufReader τ) :=
  if r.buffered = [] ∧ r.size ≤ n then
    (r.source.read n).map fun p => (p.1, { r with source := p.2 })
  else
    r.fill.map fun r => (r.buffered.take n, { r with buffered := r.buffered.drop n })

variable {r : BufReader τ}

theorem fill_eq_none (h : r.fill = none) : r.tokens = [] := by
  rw [fill] at h
  split at h
  next => cases h
  next hbuffered =>
    rw [Option.map_eq_none_iff] at h
    rw [tokens, hbuffered, Source.read_eq_none h]
    rfl

variable {r' : BufReader τ} {n : ℕ}

theorem fill_eq_some (h : r.fill = some r') : r'.buffered ≠ [] ∧ r'.tokens = r.tokens := by
  rw [fill] at h
  split at h
  next hbuffered =>
    cases h
    rw [hbuffered]
    exact ⟨List.cons_ne_nil _ _, rfl⟩
  next hbuffered =>
    obtain ⟨⟨part, src⟩, hread, heq⟩ := Option.map_eq_some_iff.mp h
    cases heq
    obtain ⟨hne, _, htokens⟩ := Source.read_eq_some r.size_pos hread
    refine ⟨hne, ?_⟩
    rw [tokens, tokens, hbuffered, htokens]
    rfl

theorem readByte_eq_none (h : r.readByte = none) : r.tokens = [] := by
  rw [readByte] at h
  rcases hfill : r.fill with _ | r'
  · exact fill_eq_none hfill
  · obtain ⟨hne, _⟩ := fill_eq_some hfill
    rw [hfill] at h
    rcases hbuffered : r'.buffered with _ | ⟨b, rest⟩
    · exact absurd hbuffered hne
    · simp [hbuffered] at h

theorem readByte_eq_some {b : τ} (h : r.readByte = some (b, r')) : r.tokens = b :: r'.tokens := by
  rw [readByte] at h
  obtain ⟨r₁, hfill, h⟩ := Option.bind_eq_some_iff.mp h
  rw [← (fill_eq_some hfill).2]
  split at h
  next => cases h
  next hbuffered =>
    cases h
    rw [tokens, hbuffered]
    rfl

theorem read_eq_none (h : r.read n = none) : r.tokens = [] := by
  rw [read] at h
  split at h
  next hdirect =>
    rw [Option.map_eq_none_iff] at h
    rw [tokens, hdirect.1, Source.read_eq_none h]
    rfl
  next => exact fill_eq_none (Option.map_eq_none_iff.mp h)

theorem read_eq_some {part : List τ} (hn : 0 < n) (h : r.read n = some (part, r')) :
    part ≠ [] ∧ part.length ≤ n ∧ r.tokens = part ++ r'.tokens := by
  rw [read] at h
  split at h
  next hdirect =>
    obtain ⟨⟨part', src⟩, hread, heq⟩ := Option.map_eq_some_iff.mp h
    cases heq
    obtain ⟨hne, hle, htokens⟩ := Source.read_eq_some hn hread
    refine ⟨hne, hle, ?_⟩
    rw [tokens, tokens, hdirect.1, htokens]
    rfl
  next =>
    obtain ⟨r₁, hfill, heq⟩ := Option.map_eq_some_iff.mp h
    cases heq
    obtain ⟨hne, htokens⟩ := fill_eq_some hfill
    refine ⟨?_, List.length_take_le _ _, ?_⟩
    · rw [Ne, List.take_eq_nil_iff, not_or]
      exact ⟨Nat.ne_of_gt hn, hne⟩
    · rw [← htokens, tokens, tokens, ← List.append_assoc, List.take_append_drop]

/-! ## Reading a fixed number of tokens -/

theorem sub_length_lt {part : List τ} (hn : n ≠ 0) (h : r.read n = some (part, r')) :
    n - part.length < n := by
  have hne := (read_eq_some (Nat.pos_of_ne_zero hn) h).1
  have hpos := List.length_pos_iff.mpr hne
  omega

/-- The loop of `io.ReadFull`: `n` more tokens after those in `acc`. -/
def readFullLoop (n : ℕ) (acc : List τ) (r : BufReader τ) :
    Except ReadFault (List τ × BufReader τ) :=
  if hn : n = 0 then
    .ok (acc, r)
  else
    match hread : r.read n with
    | none => .error (if acc = [] then .eof else .unexpectedEOF)
    | some (part, r') =>
      have := sub_length_lt hn hread
      readFullLoop (n - part.length) (acc ++ part) r'
termination_by n

/-- `io.ReadFull` into a slice of length `n`.  The error is `eof` only if no
token was read. -/
def readFull (n : ℕ) (r : BufReader τ) : Except ReadFault (List τ × BufReader τ) :=
  readFullLoop n [] r

theorem readFullLoop_of_le (n : ℕ) (acc : List τ) (r : BufReader τ) (hle : n ≤ r.tokens.length) :
    ∃ r', readFullLoop n acc r = .ok (acc ++ r.tokens.take n, r') ∧
      r'.tokens = r.tokens.drop n := by
  induction n using Nat.strongRecOn generalizing acc r with
  | ind n ih =>
    rw [readFullLoop]
    by_cases hn : n = 0
    · rw [dif_pos hn, hn, List.take_zero, List.append_nil, List.drop_zero]
      exact ⟨r, rfl, rfl⟩
    · have hpos := Nat.pos_of_ne_zero hn
      rw [dif_neg hn]
      split
      next hread =>
        rw [read_eq_none hread, List.length_nil] at hle
        omega
      next part r₁ hread =>
        obtain ⟨hne, hlen, htokens⟩ := read_eq_some hpos hread
        have hpart := List.length_pos_iff.mpr hne
        have hle' : n - part.length ≤ r₁.tokens.length := by
          rw [htokens, List.length_append] at hle
          omega
        obtain ⟨r', hrun, hr'⟩ := ih (n - part.length) (by omega) (acc ++ part) r₁ hle'
        refine ⟨r', ?_, ?_⟩
        · rw [hrun, htokens, List.take_append, List.take_of_length_le hlen, List.append_assoc]
        · rw [hr', htokens, List.drop_append, List.drop_of_length_le hlen, List.nil_append]

theorem readFullLoop_of_lt (n : ℕ) (acc : List τ) (r : BufReader τ) (hlt : r.tokens.length < n) :
    ∃ e, readFullLoop n acc r = .error e := by
  induction n using Nat.strongRecOn generalizing acc r with
  | ind n ih =>
    have hpos : 0 < n := by omega
    rw [readFullLoop, dif_neg (Nat.ne_of_gt hpos)]
    split
    next => exact ⟨_, rfl⟩
    next part r₁ hread =>
      obtain ⟨hne, hlen, htokens⟩ := read_eq_some hpos hread
      have hpart := List.length_pos_iff.mpr hne
      apply ih (n - part.length) (by omega)
      rw [htokens, List.length_append] at hlt
      omega

theorem readFull_of_le (hle : n ≤ r.tokens.length) :
    ∃ r', r.readFull n = .ok (r.tokens.take n, r') ∧ r'.tokens = r.tokens.drop n :=
  readFullLoop_of_le n [] r hle

theorem readFull_of_lt (hlt : r.tokens.length < n) : ∃ e, r.readFull n = .error e :=
  readFullLoop_of_lt n [] r hlt

end BufReader

end GoWarp.Support
