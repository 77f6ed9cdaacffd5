import GoWarp.WatchBus.InMemory

/-!
# Prefix matching on the watch bus

Who should get a message is said by a roster of the channels that watch a key
and of those that are subscribed to a prefix, with prefixes of strings.  The
bus keeps to the roster as long as prefixes of the bytes of its strings are
prefixes of the runes, as in valid UTF-8.  It then matches prefixes of strings,
except for the empty prefix: the root of the trie is skipped by `Publish` and
has no watchers for `PublishPrefix`.
-/

namespace GoWarp.WatchBus

open Support SyncBus

/-- Among the strings the prefixes of bytes are the prefixes of runes. -/
def Readable (S : Set GoString) : Prop := ∀ s ∈ S, ∀ t ∈ S, s <+: t ↔ Utf8.runes s <+: Utf8.runes t

theorem readable_of_valid {S : Set GoString} (h : ∀ s ∈ S, Utf8.Valid s) : Readable S :=
  fun s hs t ht => Utf8.prefix_iff_runes (h s hs) (h t ht)

theorem Readable.eq_of_runes_eq {S : Set GoString} (h : Readable S) {s t : GoString} (hs : s ∈ S)
    (ht : t ∈ S) (heq : Utf8.runes s = Utf8.runes t) : s = t := by
  have hst : s <+: t := (h s hs t ht).mpr (heq ▸ List.prefix_rfl)
  have hts : t <+: s := (h t ht s hs).mpr (heq ▸ List.prefix_rfl)
  exact hst.eq_of_length (hst.length_le.antisymm hts.length_le)

/-- A channel watches a key, or is subscribed to a prefix. -/
inductive Kind where
  | key
  | pre
deriving DecidableEq

/-- The channels in use, with what they are for. -/
structure Roster where
  entries : Finset (Kind × GoString × ℕ)
  next : ℕ

namespace Roster

def new : Roster := ⟨∅, 0⟩

def add (r : Roster) (kind : Kind) (s : GoString) : Roster :=
  ⟨insert (kind, s, r.next) r.entries, r.next + 1⟩

/-- A channel is no longer used for a string. -/
def remove (r : Roster) (s : GoString) (ch : ℕ) : Roster :=
  { r with entries := (r.entries.erase (.key, s, ch)).erase (.pre, s, ch) }

def step (r : Roster) : Op → Roster
  | .watch false key => r.add .key key
  | .subscribePrefix false p => r.add .pre p
  | .unwatch false key ch => r.remove key ch
  | .watch true _ | .subscribePrefix true _ | .unwatch true _ _ => r

def Watches (r : Roster) (key : GoString) (ch : ℕ) : Prop := (.key, key, ch) ∈ r.entries

def Subscribes (r : Roster) (p : GoString) (ch : ℕ) : Prop := (.pre, p, ch) ∈ r.entries

/-- The channel watches the key, or is subscribed to a prefix of it. -/
def Matches (r : Roster) (key : GoString) (ch : ℕ) : Prop :=
  r.Watches key ch ∨ ∃ p, r.Subscribes p ch ∧ p <+: key

/-- A channel is used for one thing, with one of the strings. -/
structure Sound (S : Set GoString) (r : Roster) : Prop where
  lt : ∀ kind s ch, (kind, s, ch) ∈ r.entries → ch < r.next
  unique : ∀ kind s kind' s' ch, (kind, s, ch) ∈ r.entries →
    (kind', s', ch) ∈ r.entries → kind = kind' ∧ s = s'
  among : ∀ kind s ch, (kind, s, ch) ∈ r.entries → s ∈ S

variable {S : Set GoString} {r : Roster}

theorem mem_add_iff {kind kind' : Kind} {s s' : GoString} {ch : ℕ} :
    (kind', s', ch) ∈ (r.add kind s).entries ↔
      (kind' = kind ∧ s' = s ∧ ch = r.next) ∨ (kind', s', ch) ∈ r.entries := by
  rw [add, Finset.mem_insert, Prod.mk.injEq, Prod.mk.injEq]

variable {kind : Kind}

theorem mem_remove_iff {s s' : GoString} {ch ch' : ℕ} : (kind, s', ch') ∈ (r.remove s ch).entries ↔
      (s', ch') ≠ (s, ch) ∧ (kind, s', ch') ∈ r.entries := by
  rw [remove, Finset.mem_erase, Finset.mem_erase, ← and_assoc]
  apply and_congr_left'
  rcases kind with _ | _
  · simp
  · simp

theorem exists_mem_add_iff {s : GoString} {ch : ℕ} {Q : GoString → Prop} :
    (∃ t, (kind, t, ch) ∈ (r.add kind s).entries ∧ Q t) ↔
      (ch = r.next ∧ Q s) ∨ ∃ t, (kind, t, ch) ∈ r.entries ∧ Q t := by
  simp only [mem_add_iff, true_and, or_and_right, exists_or, and_assoc, exists_eq_left]

theorem exists_mem_remove_iff {s : GoString} {ch c : ℕ} {Q : GoString → Prop}
    (honly : ∀ t, (kind, t, ch) ∈ r.entries → Q t → t = s) :
    (∃ t, (kind, t, c) ∈ (r.remove s ch).entries ∧ Q t) ↔
      c ≠ ch ∧ ∃ t, (kind, t, c) ∈ r.entries ∧ Q t := by
  constructor
  · rintro ⟨t, ht, hQ⟩
    obtain ⟨hne, hold⟩ := mem_remove_iff.mp ht
    refine ⟨?_, t, hold, hQ⟩
    rintro rfl
    exact hne (by rw [honly t hold hQ])
  · rintro ⟨hne, t, ht, hQ⟩
    refine ⟨t, mem_remove_iff.mpr ⟨fun heq => ?_, ht⟩, hQ⟩
    exact hne (Prod.mk.inj heq).2

namespace Sound

theorem new : Roster.new.Sound S where
  lt _ _ _ h := absurd h (Finset.notMem_empty _)
  unique _ _ _ _ _ h := absurd h (Finset.notMem_empty _)
  among _ _ _ h := absurd h (Finset.notMem_empty _)

theorem next_notMem (h : r.Sound S) (kind : Kind) (s : GoString) :
    (kind, s, r.next) ∉ r.entries := fun hmem =>
  Nat.lt_irrefl _ (h.lt kind s _ hmem)

theorem add (h : r.Sound S) (kind : Kind) {s : GoString} (hs : s ∈ S) : (r.add kind s).Sound S where
  lt k t ch hmem := by
    rcases mem_add_iff.mp hmem with ⟨-, -, rfl⟩ | hmem
    · exact Nat.lt_succ_self _
    · exact Nat.lt_succ_of_lt (h.lt k t ch hmem)
  unique k t k' t' ch hmem hmem' := by
    rcases mem_add_iff.mp hmem with ⟨rfl, rfl, rfl⟩ | hold
    · rcases mem_add_iff.mp hmem' with ⟨rfl, rfl, -⟩ | hold'
      · exact ⟨rfl, rfl⟩
      · exact absurd hold' (h.next_notMem k' t')
    · rcases mem_add_iff.mp hmem' with ⟨rfl, rfl, rfl⟩ | hold'
      · exact absurd hold (h.next_notMem k t)
      · exact h.unique k t k' t' ch hold hold'
  among k t ch hmem := by
    rcases mem_add_iff.mp hmem with ⟨-, rfl, -⟩ | hmem
    · exact hs
    · exact h.among k t ch hmem

theorem remove (h : r.Sound S) (s : GoString) (ch : ℕ) : (r.remove s ch).Sound S where
  lt k t c hmem := h.lt k t c (mem_remove_iff.mp hmem).2
  unique k t k' t' c hmem hmem' := h.unique k t k' t' c
    (mem_remove_iff.mp hmem).2 (mem_remove_iff.mp hmem').2
  among k t c hmem := h.among k t c (mem_remove_iff.mp hmem).2

end Sound

end Roster

/-! ## The bus keeps to the roster -/

namespace InMemoryWatchBus

/-- The list holds the channels of which `P` holds, each once. -/
def Lists (subs : List ℕ) (P : ℕ → Prop) : Prop := subs.Nodup ∧ ∀ ch, ch ∈ subs ↔ P ch

namespace Lists

variable {subs : List ℕ} {P Q : ℕ → Prop}

theorem congr (h : Lists subs P) (hP : ∀ ch, Q ch ↔ P ch) : Lists subs Q :=
  ⟨h.1, fun ch => (h.2 ch).trans (hP ch).symm⟩

theorem nil (hP : ∀ ch, ¬P ch) : Lists [] P :=
  ⟨List.nodup_nil, fun ch => iff_of_false List.not_mem_nil (hP ch)⟩

theorem append (h : Lists subs P) {ch : ℕ} (hch : ¬P ch) :
    Lists (subs ++ [ch]) fun c => c = ch ∨ P c := by
  refine ⟨.append h.1 (List.nodup_singleton _) ?_, fun c => ?_⟩
  · rintro c hc hc'
    exact hch ((h.2 ch).mp (List.mem_singleton.mp hc' ▸ hc))
  · rw [List.mem_append, List.mem_singleton, h.2, or_comm]

theorem removeFrom (h : Lists subs P) (ch : ℕ) :
    Lists (removeFrom subs ch) fun c => c ≠ ch ∧ P c := by
  rw [InMemoryWatchBus.removeFrom]
  split
  next hmem =>
    refine ⟨(removeChan_perm hmem).nodup_iff.mpr (h.1.erase ch), fun c => ?_⟩
    rw [mem_removeChan_iff h.1 hmem, h.2]
  next hmem =>
    refine h.congr fun c => and_iff_right_of_imp ?_
    rintro hc rfl
    exact hmem ((h.2 c).mpr hc)

end Lists

/-- The lists and the trie hold the channels of the roster. -/
structure Refines (S : Set GoString) (b : InMemoryWatchBus) (r : Roster) : Prop where
  sound : r.Sound S
  next : b.nextChan = r.next
  subs : ∀ key, Lists (b.subs key) (r.Watches key)
  watchers : ∀ path ch, ch ∈ (b.root.get PrefixNode.new path).watchers ↔
      path ≠ [] ∧ ∃ key, r.Watches key ch ∧ path <+: Utf8.runes key
  nodeSubs : ∀ path, Lists (b.root.get PrefixNode.new path).subs fun ch =>
    ∃ p, r.Subscribes p ch ∧ Utf8.runes p = path

namespace Refines

variable {S : Set GoString} {b : InMemoryWatchBus} {r : Roster}

theorem new : InMemoryWatchBus.new.Refines S Roster.new := by
  have hnone : ∀ kind s ch, (kind, s, ch) ∉ Roster.new.entries := fun _ _ _ => Finset.notMem_empty _
  refine ⟨.new, rfl, fun _ => .nil (hnone _ _), ?_, ?_⟩
  · intro path ch
    rw [InMemoryWatchBus.new, Trie.get_leaf]
    refine iff_of_false (Finset.notMem_empty _) ?_
    rintro ⟨-, key, hkey, -⟩
    exact hnone _ _ _ hkey
  · intro path
    rw [InMemoryWatchBus.new, Trie.get_leaf]
    refine .nil ?_
    rintro ch ⟨p, hp, -⟩
    exact hnone _ _ _ hp

variable (h : b.Refines S r)
include h

variable {key : GoString}

theorem watch (hkey : key ∈ S) : (b.watch false key).2.Refines S (r.add .key key) := by
  refine ⟨h.sound.add .key hkey, congrArg (· + 1) h.next, ?_, ?_, ?_⟩
  · refine (Function.forall_update_iff b.subs fun k subs =>
      Lists subs ((r.add .key key).Watches k)).mpr ⟨?_, fun k hk => ?_⟩
    · rw [h.next]
      refine ((h.subs key).append (h.sound.next_notMem _ _)).congr fun ch => ?_
      simp [Roster.Watches, Roster.mem_add_iff]
    · refine (h.subs k).congr fun ch => ?_
      simp [Roster.Watches, Roster.mem_add_iff, hk]
  · intro path ch
    change ch ∈ ((b.root.modifyAlong _ _ _).get _ path).watchers ↔ _
    rw [Trie.get_modifyAlong, apply_ite PrefixNode.watchers]
    have hadd : (∃ k, (r.add .key key).Watches k ch ∧
        path <+: Utf8.runes k) ↔ _ := Roster.exists_mem_add_iff
    rw [hadd]
    split_ifs with hpath
    · rw [Finset.mem_insert, h.watchers, h.next]
      simp [hpath.1, hpath.2, Roster.Watches]
    · rw [h.watchers]
      refine and_congr_right fun hne => ?_
      rw [or_iff_right]
      · rfl
      · rintro ⟨-, hpre⟩
        exact hpath ⟨hne, hpre⟩
  · intro path
    change Lists ((b.root.modifyAlong _ _ _).get _ path).subs _
    rw [Trie.get_modifyAlong, apply_ite PrefixNode.subs, ite_self]
    refine (h.nodeSubs path).congr fun ch => ?_
    simp [Roster.Subscribes, Roster.mem_add_iff]

theorem subscribePrefix {p : GoString} (hp : p ∈ S) :
    (b.subscribePrefix false p).2.Refines S (r.add .pre p) := by
  refine ⟨h.sound.add .pre hp, congrArg (· + 1) h.next, ?_, ?_, ?_⟩
  · intro k
    refine (h.subs k).congr fun ch => ?_
    simp [Roster.Watches, Roster.mem_add_iff]
  · intro path ch
    change ch ∈ ((b.root.modify _ _ _).get _ path).watchers ↔ _
    rw [Trie.get_modify, apply_ite PrefixNode.watchers, ite_self, h.watchers]
    simp [Roster.Watches, Roster.mem_add_iff]
  · intro path
    change Lists ((b.root.modify _ _ _).get _ path).subs _
    rw [Trie.get_modify, apply_ite PrefixNode.subs]
    split_ifs with hpath
    · rw [h.next]
      refine ((h.nodeSubs path).append ?_).congr fun ch => ?_
      · rintro ⟨q, hq, -⟩
        exact h.sound.next_notMem _ _ hq
      · exact Roster.exists_mem_add_iff.trans (by simp [hpath]; rfl)
    · refine (h.nodeSubs path).congr fun ch => ?_
      refine Roster.exists_mem_add_iff.trans (or_iff_right ?_)
      rintro ⟨-, heq⟩
      exact hpath heq.symm

theorem unwatchKey {ch : ℕ} (hmem : ch ∈ b.subs key) :
    (b.unwatch false key ch).Refines S (r.remove key ch) := by
  have hwatches : r.Watches key ch := ((h.subs key).2 ch).mp hmem
  -- the channel is used for this key and for nothing else
  have honly : ∀ kind s, (kind, s, ch) ∈ r.entries → kind = .key ∧ s = key :=
    fun kind s hs => h.sound.unique kind s .key key ch hs hwatches
  rw [InMemoryWatchBus.unwatch, if_neg Bool.false_ne_true, if_pos hmem]
  refine ⟨h.sound.remove key ch, h.next, ?_, ?_, ?_⟩
  · refine (Function.forall_update_iff b.subs fun k subs =>
      Lists subs ((r.remove key ch).Watches k)).mpr ⟨?_, fun k hk => ?_⟩
    · refine ((h.subs key).removeFrom ch).congr fun c => ?_
      simp [Roster.Watches, Roster.mem_remove_iff]
    · refine (h.subs k).congr fun c => ?_
      simp [Roster.Watches, Roster.mem_remove_iff, hk]
  · intro path c
    change c ∈ ((b.root.adjustAlong _ _).get _ path).watchers ↔ _
    rw [Trie.get_adjustAlong (by simp [PrefixNode.new]), Trie.get_modifyAlong,
      apply_ite PrefixNode.watchers]
    have hremove : (∃ k, (r.remove key ch).Watches k c ∧ path <+: Utf8.runes k) ↔ _ :=
      Roster.exists_mem_remove_iff fun k hk _ => (honly _ k hk).2
    rw [hremove]
    split_ifs with hpath
    · rw [Finset.mem_erase, h.watchers]
      simp only [ne_eq, hpath.1, not_false_eq_true, true_and, Roster.Watches]
    · rw [h.watchers]
      refine and_congr_right fun hne => (and_iff_right_of_imp ?_).symm
      rintro ⟨k, hk, hpre⟩ rfl
      exact hpath ⟨hne, (honly _ k hk).2 ▸ hpre⟩
  · intro path
    change Lists ((b.root.adjustAlong _ _).get _ path).subs _
    rw [Trie.get_adjustAlong (by simp [PrefixNode.new]), Trie.get_modifyAlong,
      apply_ite PrefixNode.subs, ite_self]
    refine (h.nodeSubs path).congr fun c => ?_
    refine exists_congr fun p => and_congr_left fun _ => ?_
    refine Roster.mem_remove_iff.trans (and_iff_right_of_imp fun hp heq => ?_)
    obtain ⟨rfl, rfl⟩ := Prod.mk.inj heq
    cases (honly _ _ hp).1

theorem unwatchPrefix (hS : Readable S) (hkey : key ∈ S) {ch : ℕ} (hmem : ch ∉ b.subs key) :
    (b.unwatch false key ch).Refines S (r.remove key ch) := by
  have hwatches : ∀ k c, (r.remove key ch).Watches k c ↔ r.Watches k c := by
    intro k c
    refine Roster.mem_remove_iff.trans (and_iff_right_of_imp fun hk heq => ?_)
    obtain ⟨rfl, rfl⟩ := Prod.mk.inj heq
    exact hmem (((h.subs k).2 c).mpr hk)
  have hkeeps : { PrefixNode.new with subs := removeFrom PrefixNode.new.subs ch }
      = PrefixNode.new := by simp [PrefixNode.new, removeFrom]
  rw [InMemoryWatchBus.unwatch, if_neg Bool.false_ne_true, if_neg hmem]
  refine ⟨h.sound.remove key ch, h.next, ?_, ?_, ?_⟩
  · exact fun k => (h.subs k).congr (hwatches k)
  · intro path c
    change c ∈ ((b.root.adjust _ _).get _ path).watchers ↔ _
    rw [Trie.get_adjust hkeeps, Trie.get_modify, apply_ite PrefixNode.watchers,
      ite_self, h.watchers]
    simp only [hwatches]
  · intro path
    change Lists ((b.root.adjust _ _).get _ path).subs _
    rw [Trie.get_adjust hkeeps, Trie.get_modify, apply_ite PrefixNode.subs]
    split_ifs with hpath
    · refine ((h.nodeSubs path).removeFrom ch).congr fun c => ?_
      refine Roster.exists_mem_remove_iff fun p hp heq => ?_
      -- strings with the same runes are equal
      exact hS.eq_of_runes_eq (h.sound.among _ _ _ hp) hkey (heq.trans hpath)
    · refine (h.nodeSubs path).congr fun c => ?_
      refine exists_congr fun p => and_congr_left fun heq => ?_
      refine Roster.mem_remove_iff.trans (and_iff_right_of_imp fun _ h' => ?_)
      exact hpath (by rw [← heq, (Prod.mk.inj h').1])

theorem step (hS : Readable S) {op : Op} (hop : op.string ∈ S) :
    (b.step op).Refines S (r.step op) := by
  rcases op with ⟨_ | _, key⟩ | ⟨_ | _, p⟩ | ⟨_ | _, key, ch⟩
  · exact h.watch hop
  · exact h
  · exact h.subscribePrefix hop
  · exact h
  · by_cases hmem : ch ∈ b.subs key
    · exact h.unwatchKey hmem
    · exact h.unwatchPrefix hS hop hmem
  · exact h

theorem run (hS : Readable S) {ops : List Op} (hops : ∀ op ∈ ops, op.string ∈ S) :
    (ops.foldl InMemoryWatchBus.step b).Refines S (ops.foldl Roster.step r) := by
  induction ops generalizing b r with
  | nil => exact h
  | cons op ops ih =>
    obtain ⟨hop, hrest⟩ := List.forall_mem_cons.mp hops
    exact ih (h.step hS hop) hrest

theorem publishTargets_iff (hS : Readable S) (hkey : key ∈ S) :
    (∀ ch, ch ∈ b.publishTargets key ↔ r.Matches key ch) ↔ ∀ ch, ¬r.Subscribes [] ch := by
  -- the targets are the matching channels without those of the empty prefix
  have htargets : ∀ ch, ch ∈ b.publishTargets key ↔
      r.Watches key ch ∨ ∃ p, r.Subscribes p ch ∧ p ≠ [] ∧ p <+: key := by
    intro ch
    rw [mem_publishTargets_iff, (h.subs key).2]
    apply or_congr Iff.rfl
    constructor
    · rintro ⟨path, hne, hpre, hch⟩
      obtain ⟨p, hp, rfl⟩ := ((h.nodeSubs path).2 ch).mp hch
      have hamong := h.sound.among _ _ _ hp
      refine ⟨p, hp, fun hnil => hne (Utf8.runes_eq_nil_iff.mpr hnil), ?_⟩
      exact (hS p hamong key hkey).mpr hpre
    · rintro ⟨p, hp, hne, hpre⟩
      have hamong := h.sound.among _ _ _ hp
      refine ⟨Utf8.runes p, fun hnil => hne (Utf8.runes_eq_nil_iff.mp hnil),
        (hS p hamong key hkey).mp hpre, ?_⟩
      exact ((h.nodeSubs _).2 ch).mpr ⟨p, hp, rfl⟩
  constructor
  · intro hall ch hempty
    have hmem := (hall ch).mpr (.inr ⟨[], hempty, List.nil_prefix⟩)
    rcases (htargets ch).mp hmem with hwatches | ⟨p, hp, hne, -⟩
    · cases (h.sound.unique _ _ _ _ ch hempty hwatches).1
    · exact hne (h.sound.unique _ _ _ _ ch hp hempty).2
  · intro hnone ch
    rw [htargets]
    apply or_congr Iff.rfl
    refine exists_congr fun p => and_congr_right fun hp => ?_
    rw [and_iff_right]
    rintro rfl
    exact hnone ch hp

theorem publishPrefixTargets_iff (hS : Readable S) {p : GoString} (hp : p ∈ S) :
    (∀ key ch, r.Watches key ch → (ch ∈ b.publishPrefixTargets p ↔ p <+: key)) ↔
      p ≠ [] ∨ ∀ key ch, ¬r.Watches key ch := by
  have htargets : ∀ key ch, r.Watches key ch →
      (ch ∈ b.publishPrefixTargets p ↔ p ≠ [] ∧ p <+: key) := by
    intro key ch hwatches
    have hamong := h.sound.among _ _ _ hwatches
    rw [mem_publishPrefixTargets_iff, h.watchers, (h.nodeSubs _).2,
      or_iff_left, Ne, Utf8.runes_eq_nil_iff]
    · refine and_congr_right fun _ => ?_
      rw [hS p hp key hamong]
      constructor
      · rintro ⟨k, hk, hpre⟩
        rwa [← (h.sound.unique _ _ _ _ ch hk hwatches).2]
      · intro hpre
        exact ⟨key, hwatches, hpre⟩
    · rintro ⟨q, hq, -⟩
      cases (h.sound.unique _ _ _ _ ch hq hwatches).1
  constructor
  · intro hall
    by_contra hnot
    rw [not_or, Ne, not_not] at hnot
    obtain ⟨rfl, hsome⟩ := hnot
    apply hsome
    intro key ch hwatches
    have hmem := (hall key ch hwatches).mpr List.nil_prefix
    exact ((htargets key ch hwatches).mp hmem).1 rfl
  · rintro (hne | hnone) key ch hwatches
    · rw [htargets key ch hwatches]
      exact and_iff_right hne
    · exact absurd hwatches (hnone key ch)

end Refines

/-- After any calls, if prefixes of bytes are prefixes of runes for the strings
in use, `Publish` sends to exactly the channels that watch the key or are
subscribed to a prefix of it, unless a channel is subscribed to the empty
prefix, and `PublishPrefix` sends, among the channels that watch, to exactly
those whose key has the prefix, unless the prefix is empty and somebody
watches. -/
theorem matching_iff {ops : List Op} {k p : GoString}
    (hreadable : Readable {s | s ∈ k :: p :: ops.map Op.string}) :
    ((∀ ch, ch ∈ (ops.foldl step new).publishTargets k ↔
        (ops.foldl Roster.step Roster.new).Matches k ch) ↔
      ∀ ch, ¬(ops.foldl Roster.step Roster.new).Subscribes [] ch) ∧
    ((∀ key ch, (ops.foldl Roster.step Roster.new).Watches key ch →
        (ch ∈ (ops.foldl step new).publishPrefixTargets p ↔ p <+: key)) ↔
      p ≠ [] ∨ ∀ key ch, ¬(ops.foldl Roster.step Roster.new).Watches key ch) := by
  have hrefines := Refines.new.run hreadable fun op hop =>
    List.mem_cons_of_mem _ (List.mem_cons_of_mem _ (List.mem_map_of_mem hop))
  exact ⟨hrefines.publishTargets_iff hreadable List.mem_cons_self,
    hrefines.publishPrefixTargets_iff hreadable (List.mem_cons_of_mem _ List.mem_cons_self)⟩

/-! ## Examples -/

/-- The strings `"a"` and `"é"`. -/
def letterA : GoString := [0x61]
def letterE : GoString := [0xC3, 0xA9]

def letterOps : List Op :=
  [.watch false letterE, .subscribePrefix false letterA, .watch false (letterA ++ letterE)]

theorem matching_letterOps :
    (letterOps.foldl Roster.step Roster.new).Matches (letterA ++ letterE) 1 ∧
      ∀ ch, ch ∈ (letterOps.foldl step new).publishTargets (letterA ++ letterE) ↔
        (letterOps.foldl Roster.step Roster.new).Matches (letterA ++ letterE) ch := by
  have hE : Utf8.Valid letterE := ⟨['é'], rfl⟩
  have hA : Utf8.Valid letterA := ⟨['a'], rfl⟩
  have hAE : Utf8.Valid (letterA ++ letterE) := ⟨['a', 'é'], rfl⟩
  constructor
  · exact .inr ⟨letterA, by simp [Roster.Subscribes, letterOps, Roster.step,
      Roster.add, Roster.new], List.prefix_append _ _⟩
  · refine (matching_iff (p := letterA) (readable_of_valid ?_)).1.mpr ?_
    · simp [letterOps, Op.string, hE, hA, hAE]
    · intro ch hch
      simp [Roster.Subscribes, letterOps, Roster.step, Roster.add, Roster.new,
        letterA] at hch

/-- A channel subscribed to the empty prefix gets nothing that is published, and
the empty prefix reaches nobody who watches.  A subscriber of the first byte of
`"é"` does not get what is published for `"é"`, and a prefix that is not UTF-8
reaches the watchers of another string that is not UTF-8. -/
theorem mismatches : ((Roster.new.step (.subscribePrefix false [])).Matches letterA 0 ∧
      0 ∉ (new.step (.subscribePrefix false [])).publishTargets letterA) ∧
    ((Roster.new.step (.watch false letterA)).Watches letterA 0 ∧
      0 ∉ (new.step (.watch false letterA)).publishPrefixTargets []) ∧
    ((Roster.new.step (.subscribePrefix false [0xC3])).Matches letterE 0 ∧
      0 ∉ (new.step (.subscribePrefix false [0xC3])).publishTargets letterE) ∧
    ((Roster.new.step (.watch false [0xFF])).Watches [0xFF] 0 ∧ ¬([0xFE] : GoString) <+: [0xFF] ∧
      0 ∈ (new.step (.watch false [0xFF])).publishPrefixTargets [0xFE]) := by
  refine ⟨⟨.inr ⟨[], ?_, List.nil_prefix⟩, ?_⟩, ⟨?_, ?_⟩, ⟨.inr ⟨[0xC3], ?_, ?_⟩, ?_⟩, ⟨?_, ?_, ?_⟩⟩
  · exact Finset.mem_singleton_self _
  · decide
  · exact Finset.mem_singleton_self _
  · decide
  · exact Finset.mem_singleton_self _
  · decide
  · decide
  · exact Finset.mem_singleton_self _
  · decide
  · decide

end InMemoryWatchBus

end GoWarp.WatchBus
