import GoWarp.Core.Operations

/-!
# Transactions

A transaction queues sets, deletes and compare-and-swaps.  `Commit` goes over
the queued sets and deletes in the iteration order of two maps.  Keys in
`ModeStrongDistributed` wait for a quorum and are applied after both loops;
all other keys are applied as the loops reach them.  Writes to a store that
supports batches are collected and committed last.
-/

namespace GoWarp.Core

open Support Support.Program

variable {T : Type}

/-- `Txn`: the queued sets, deletes and expected values.  No key is both set
and deleted, and an expected value belongs to a set. -/
structure Txn (T : Type) where
  sets : AList fun _ : Key => T
  deletes : AList fun _ : Key => Unit
  cas : AList fun _ : Key => T
  disjoint : ∀ k ∈ sets, k ∉ deletes
  casQueued : ∀ k ∈ cas, k ∈ sets

namespace Txn

/-- `Warp.Txn`: an empty transaction. -/
def empty : Txn T where
  sets := ∅
  deletes := ∅
  cas := ∅
  disjoint := by simp
  casQueued := by simp

def set (txn : Txn T) (k : Key) (value : T) : Txn T where
  sets := txn.sets.insert k value
  deletes := txn.deletes.erase k
  cas := txn.cas.erase k
  disjoint := by
    intro k' hset hdel
    rw [AList.mem_erase] at hdel
    rw [AList.mem_insert] at hset
    exact txn.disjoint k' (hset.resolve_left hdel.1) hdel.2
  casQueued := by
    intro k' hcas
    rw [AList.mem_erase] at hcas
    exact (AList.mem_insert _).mpr (Or.inr (txn.casQueued k' hcas.2))

def delete (txn : Txn T) (k : Key) : Txn T where
  sets := txn.sets.erase k
  deletes := txn.deletes.insert k ()
  cas := txn.cas.erase k
  disjoint := by
    intro k' hset hdel
    rw [AList.mem_erase] at hset
    rw [AList.mem_insert] at hdel
    exact txn.disjoint k' hset.2 (hdel.resolve_left hset.1)
  casQueued := by
    intro k' hcas
    rw [AList.mem_erase] at hcas
    exact AList.mem_erase.mpr ⟨hcas.1, txn.casQueued k' hcas.2⟩

def compareAndSwap (txn : Txn T) (k : Key) (old new : T) : Txn T where
  sets := txn.sets.insert k new
  deletes := txn.deletes.erase k
  cas := txn.cas.insert k old
  disjoint := by
    intro k' hset hdel
    rw [AList.mem_erase] at hdel
    rw [AList.mem_insert] at hset
    exact txn.disjoint k' (hset.resolve_left hdel.1) hdel.2
  casQueued := by
    intro k' hcas
    rw [AList.mem_insert] at hcas
    exact (AList.mem_insert _).mpr (hcas.imp id (txn.casQueued k'))

/-- The keys of a transaction. -/
def HasKey (txn : Txn T) (k : Key) : Prop := k ∈ txn.sets ∨ k ∈ txn.deletes

/-- An iteration order of the two maps. -/
structure Order (txn : Txn T) where
  sets : List (Sigma fun _ : Key => T)
  deletes : List Key
  sets_perm : sets.Perm txn.sets.entries
  deletes_perm : deletes.Perm txn.deletes.keys

end Txn

/-! ## Batches -/

/-- The writes collected by a batch of the store. -/
structure Batch (T : Type) where
  sets : Key → Option T
  deletes : List Key

namespace Batch

def empty : Batch T := ⟨fun _ => none, []⟩

def set (b : Batch T) (k : Key) (data : T) : Batch T :=
  { b with sets := Function.update b.sets k (some data) }

def delete (b : Batch T) (k : Key) : Batch T := { b with deletes := b.deletes ++ [k] }

/-- `Batch.Commit`: the deletes and then the sets. -/
def commit (b : Batch T) (store : Key → Option T) : Key → Option T := fun k =>
  match b.sets k with
  | some data => some data
  | none => if k ∈ b.deletes then none else store k

end Batch

/-! ## Committing -/

/-- The state of a running commit: the Warp, and the batch if there is one. -/
structure CommitState (T : Type) where
  warp : Warp T
  batch : Option (Batch T)

namespace CommitState

def onWarp (f : Warp T → Warp T) (s : CommitState T) : CommitState T := { s with warp := f s.warp }

def onBatch (f : Batch T → Batch T) (s : CommitState T) : CommitState T :=
  { s with batch := s.batch.map f }

/-- The effect of `batch.Commit`. -/
def commitBatch (s : CommitState T) : CommitState T :=
  match s.batch with
  | none => s
  | some b => { s with warp := { s.warp with store := b.commit s.warp.store } }

end CommitState

/-- What a queued set is about to write: the merged value, the TTL passed to
the cache and the time of the write. -/
structure PendingSet (T : Type) where
  key : Key
  value : Value T
  ttl : Duration
  now : Instant

namespace Txn

/-- `applyLocal` of a set. -/
def applySet (env : Env) (p : PendingSet T) : Program (CommitState T) Err Unit := do
  let s ← MonadState.get
  perform (s.warp.cacheFault env (.cacheSet p.key))
    (CommitState.onWarp fun w => w.cacheSet env p.key p.value p.ttl)
  if s.batch.isSome then
    perform (env.fails (.batchSet p.key)) (CommitState.onBatch fun b => b.set p.key p.value.data)
  else if s.warp.storeKind ≠ .absent then
    perform (env.fails (.storeSet p.key))
      (CommitState.onWarp fun w => w.storeSet p.key p.value.data)
  modify (CommitState.onWarp fun w => w.touch p.key p.ttl p.now)

/-- `applyLocal` of a delete.  Without a batch the store is not touched. -/
def applyDelete (env : Env) (k : Key) : Program (CommitState T) Err Unit := do
  let s ← MonadState.get
  perform (s.warp.cacheFault env (.cacheInvalidate k))
    (CommitState.onWarp fun w => w.cacheInvalidate env k)
  if s.batch.isSome then
    perform (env.fails (.batchDelete k)) (CommitState.onBatch fun b => b.delete k)

/-- The error of a compare-and-swap whose key is cached as `old`. -/
def casFault [DecidableEq T] (txn : Txn T) (k : Key) (old : Option (Value T)) : Option Err :=
  match txn.cas.lookup k, old with
  | none, _ => none
  | some expected, some v =>
    if v.data = expected then none else some .casMismatch
  | some _, none => some .casMismatch

/-- What the set of a key with registration `reg` and cached value `old` is
about to write. -/
def pendingSet (w : Warp T) (env : Env) (k : Key) (value : T)
    (reg : Registration) (old : Option (Value T)) : PendingSet T :=
  { key := k
    value := w.merges.mergeOver k old (Value.written value (env.clock (.operation k)))
    ttl := env.effectiveTTL k reg
    now := env.clock (.operation k) }

def publishFault (w : Warp T) (env : Env) (k : Key) : Option Err :=
  if w.hasBus then env.fails (.publish k) else none

/-- The error of a strong write without a bus. -/
def busFault (w : Warp T) : Option Err := if w.hasBus then none else some .busRequired

/-- The first loop of `Commit` at one key.  A strong set is returned, to be
applied after the loops. -/
def commitSet [DecidableEq T] (env : Env) (txn : Txn T) (k : Key)
    (value : T) : Program (CommitState T) Err (Option (PendingSet T)) := do
  let s ← MonadState.get
  match s.warp.regs k with
  | none => throw .unregistered
  | some reg =>
    let old ← MonadExcept.ofExcept (s.warp.cacheGet env k)
    failOn (txn.casFault k old)
    let p := pendingSet s.warp env k value reg old
    match reg.mode with
    | .eventualDistributed =>
      applySet env p
      failOn (publishFault s.warp env k)
      pure none
    | .strongDistributed =>
      failOn (busFault s.warp)
      failOn (env.fails (.publishAndAwait k reg.quorumSize))
      pure (some p)
    | .strongLocal =>
      applySet env p
      pure none

/-- The second loop of `Commit` at one key. -/
def commitDelete (env : Env) (k : Key) : Program (CommitState T) Err (Option Key) := do
  let s ← MonadState.get
  match s.warp.regs k with
  | none => throw .unregistered
  | some reg =>
    match reg.mode with
    | .eventualDistributed =>
      applyDelete env k
      failOn (publishFault s.warp env k)
      pure none
    | .strongDistributed =>
      failOn (busFault s.warp)
      failOn (env.fails (.publishAndAwait k reg.quorumSize))
      pure (some k)
    | .strongLocal =>
      applyDelete env k
      pure none

/-- Open a batch if the store supports them. -/
def openBatch (env : Env) : Program (CommitState T) Err Unit := do
  let s ← MonadState.get
  if s.warp.storeKind = .batcher then
    perform (env.fails .batchOpen) fun s => { s with batch := some Batch.empty }

def closeBatch (env : Env) : Program (CommitState T) Err Unit := do
  let s ← MonadState.get
  if s.batch.isSome then
    perform (env.fails .batchCommit) CommitState.commitBatch

/-- `Txn.Commit` as a program. -/
def commitProgram [DecidableEq T] (env : Env) (txn : Txn T)
    (order : txn.Order) : Program (CommitState T) Err Unit := do
  openBatch env
  let strongSets ← collect (fun e => commitSet env txn e.1 e.2) order.sets
  let strongDeletes ← collect (commitDelete env) order.deletes
  forEach (applySet env) strongSets
  forEach (applyDelete env) strongDeletes
  closeBatch env

/-- `Txn.Commit`: the error it returns, if any, and the Warp it leaves. -/
def commit [DecidableEq T] (w : Warp T) (env : Env) (txn : Txn T)
    (order : txn.Order) : Option Err × Warp T :=
  match exec (commitProgram env txn order) ⟨w, none⟩ with
  | (.ok _, s) => (none, s.warp)
  | (.error e, s) => (some e, s.warp)

end Txn

end GoWarp.Core
