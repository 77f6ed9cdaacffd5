import GoWarp.Support.Trie
import GoWarp.Support.Utf8
import GoWarp.SyncBus.Channels

/-!
# The in-memory watch bus

Watchers are kept by key in a map, and once more in a trie at every node on the
way to their key; subscribers of a prefix are kept at the node of the prefix.
The edges of the trie are the runes that iterating over a string yields.
Channels have numbers, in the order in which they are made.
-/

namespace GoWarp.WatchBus

open Support SyncBus

/-- A Go string: any bytes. -/
abbrev GoString := List UInt8

/-- What a `prefixNode` holds beside its children. -/
structure PrefixNode where
  subs : List ℕ
  watchers : Finset ℕ

/-- `newPrefixNode`. -/
def PrefixNode.new : PrefixNode := ⟨[], ∅⟩

/-- `InMemoryWatchBus`; a key without an entry has the list of no channels. -/
structure InMemoryWatchBus where
  subs : GoString → List ℕ
  root : Trie ℕ PrefixNode
  nextChan : ℕ

namespace InMemoryWatchBus

/-- `NewInMemory`. -/
def new : InMemoryWatchBus where
  subs := fun _ => []
  root := Trie.leaf PrefixNode.new
  nextChan := 0

/-- The channels that `Publish` sends to. -/
def publishTargets (b : InMemoryWatchBus) (key : GoString) : Finset ℕ :=
  (b.root.along (Utf8.runes key)).foldl
    (fun targets node => targets ∪ node.subs.toFinset) (b.subs key).toFinset

/-- The channels that `PublishPrefix` sends to. -/
def publishPrefixTargets (b : InMemoryWatchBus) (p : GoString) : Finset ℕ :=
  match b.root.find? (Utf8.runes p) with
  | none => ∅
  | some node => node.watchers ∪ node.subs.toFinset

/-- `Watch`: the new channel, or no channel if the context is done. -/
def watch (b : InMemoryWatchBus) (ctxDone : Bool) (key : GoString) : Option ℕ × InMemoryWatchBus :=
  if ctxDone then
    (none, b)
  else
    let ch := b.nextChan
    (some ch,
      { subs := Function.update b.subs key (b.subs key ++ [ch])
        root := b.root.modifyAlong PrefixNode.new
          (fun node => { node with watchers := insert ch node.watchers })
          (Utf8.runes key)
        nextChan := b.nextChan + 1 })

/-- `SubscribePrefix`: the new channel, or no channel if the context is
done. -/
def subscribePrefix (b : InMemoryWatchBus) (ctxDone : Bool) (p : GoString) :
    Option ℕ × InMemoryWatchBus :=
  if ctxDone then
    (none, b)
  else
    let ch := b.nextChan
    (some ch, { b with
        root := b.root.modify PrefixNode.new
          (fun node => { node with subs := node.subs ++ [ch] }) (Utf8.runes p)
        nextChan := b.nextChan + 1 })

def removeFrom (subs : List ℕ) (ch : ℕ) : List ℕ := if ch ∈ subs then removeChan subs ch else subs

def unwatch (b : InMemoryWatchBus) (ctxDone : Bool) (key : GoString) (ch : ℕ) : InMemoryWatchBus :=
  if ctxDone then
    b
  else if ch ∈ b.subs key then
    { b with
      subs := Function.update b.subs key (removeFrom (b.subs key) ch)
      root := b.root.adjustAlong (fun node => { node with watchers := node.watchers.erase ch })
        (Utf8.runes key) }
  else
    { b with
      root := b.root.adjust (fun node => { node with subs := removeFrom node.subs ch })
        (Utf8.runes key) }

end InMemoryWatchBus

/-- A call that changes who watches.  When the context of a `Watch` or
`SubscribePrefix` ends later, its goroutine calls `Unwatch`. -/
inductive Op where
  | watch (ctxDone : Bool) (key : GoString)
  | subscribePrefix (ctxDone : Bool) (p : GoString)
  | unwatch (ctxDone : Bool) (key : GoString) (ch : ℕ)

/-- The string that a call is about. -/
def Op.string : Op → GoString
  | .watch _ key => key
  | .subscribePrefix _ p => p
  | .unwatch _ key _ => key

def InMemoryWatchBus.step (b : InMemoryWatchBus) : Op → InMemoryWatchBus
  | .watch ctxDone key => (b.watch ctxDone key).2
  | .subscribePrefix ctxDone p => (b.subscribePrefix ctxDone p).2
  | .unwatch ctxDone key ch => b.unwatch ctxDone key ch

/-! ## What the targets are -/

namespace InMemoryWatchBus

theorem mem_foldl_union {nodes : List PrefixNode} {targets : Finset ℕ} {ch : ℕ} :
    ch ∈ nodes.foldl (fun targets node => targets ∪ node.subs.toFinset)
      targets ↔ ch ∈ targets ∨ ∃ node ∈ nodes, ch ∈ node.subs := by
  induction nodes generalizing targets with
  | nil => simp
  | cons node nodes ih =>
    rw [List.foldl_cons, ih, Finset.mem_union, List.mem_toFinset]
    simp only [List.mem_cons, exists_eq_or_imp, or_assoc]

theorem mem_publishTargets_iff {b : InMemoryWatchBus} {key : GoString} {ch : ℕ} :
    ch ∈ b.publishTargets key ↔ ch ∈ b.subs key ∨ ∃ path, path ≠ [] ∧ path <+: Utf8.runes key ∧
        ch ∈ (b.root.get PrefixNode.new path).subs := by
  rw [publishTargets, mem_foldl_union, List.mem_toFinset]
  apply or_congr Iff.rfl
  constructor
  · rintro ⟨node, hnode, hch⟩
    obtain ⟨path, hne, hpre, hfind⟩ := Trie.mem_along_iff.mp hnode
    refine ⟨path, hne, hpre, ?_⟩
    rw [Trie.get, hfind]
    exact hch
  · rintro ⟨path, hne, hpre, hch⟩
    rcases hfind : b.root.find? path with _ | node
    · rw [Trie.get, hfind] at hch
      cases hch
    · rw [Trie.get, hfind] at hch
      exact ⟨node, Trie.mem_along_iff.mpr ⟨path, hne, hpre, hfind⟩, hch⟩

theorem mem_publishPrefixTargets_iff {b : InMemoryWatchBus} {p : GoString} {ch : ℕ} :
    ch ∈ b.publishPrefixTargets p ↔ ch ∈ (b.root.get PrefixNode.new (Utf8.runes p)).watchers ∨
        ch ∈ (b.root.get PrefixNode.new (Utf8.runes p)).subs := by
  rw [publishPrefixTargets, Trie.get]
  rcases b.root.find? (Utf8.runes p) with _ | node
  · simp [PrefixNode.new]
  · simp

end InMemoryWatchBus

end GoWarp.WatchBus
