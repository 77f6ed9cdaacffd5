import GoWarp.Core.AnyCache

/-!
# Runs of a Warp over any cache

`Commit` of a transaction for a Warp over any cache, and the machine that runs
the operations of such a Warp one after the other, with what they return.
-/

namespace GoWarp.Core

open Support Support.Program

variable {ω σ T : Type}

/-- The state of a running commit: the Warp, and the batch if there is one. -/
structure CommitOver (σ T : Type) where
  warp : WarpOver σ T
  batch : Option (Batch T)

namespace CommitOver

def onWarp {α : Type} (p : Program (WarpOver σ T) Err α) : Program (CommitOver σ T) Err α :=
  zoom CommitOver.warp (fun warp s => { s with warp := warp }) p

def onBatch (f : Batch T → Batch T) (s : CommitOver σ T) : CommitOver σ T :=
  { s with batch := s.batch.map f }

/-- The effect of `batch.Commit`. -/
def commitBatch (s : CommitOver σ T) : CommitOver σ T :=
  match s.batch with
  | none => s
  | some b => { s with warp := { s.warp with store := b.commit s.warp.store } }

section Commit

variable (c : CacheOps ω (Value T) σ) (world : World ω)

/-- `applyLocal` of a set. -/
def applySet (p : PendingSet T) : Program (CommitOver σ T) Err Unit := do
  let s ← MonadState.get
  onWarp (WarpOver.cacheSet c world p.key p.value p.ttl)
  if s.batch.isSome then
    perform (world.fails (.batchSet p.key)) (onBatch fun b => b.set p.key p.value.data)
  else if s.warp.storeKind ≠ .absent then
    onWarp (perform (world.fails (.storeSet p.key)) fun w => w.storeSet p.key p.value.data)
  onWarp (modify fun w => w.touch p.key p.ttl p.now)

/-- `applyLocal` of a delete.  Without a batch the store is not touched. -/
def applyDelete (k : Key) : Program (CommitOver σ T) Err Unit := do
  let s ← MonadState.get
  onWarp (WarpOver.cacheInvalidate c world k)
  if s.batch.isSome then
    perform (world.fails (.batchDelete k)) (onBatch fun b => b.delete k)

/-- What the set of a key with registration `reg` and cached value `old` is
about to write. -/
def pendingSet (w : WarpOver σ T) (env : Env) (k : Key) (value : T)
    (reg : Registration) (old : Option (Value T)) : PendingSet T :=
  { key := k
    value := w.merges.mergeOver k old (Value.written value (env.clock (.operation k)))
    ttl := env.effectiveTTL k reg
    now := env.clock (.operation k) }

def publishFault (w : WarpOver σ T) (env : Env) (k : Key) : Option Err :=
  if w.hasBus then env.fails (.publish k) else none

/-- The error of a strong write without a bus. -/
def busFault (w : WarpOver σ T) : Option Err := if w.hasBus then none else some .busRequired

/-- The first loop of `Commit` at one key.  A strong set is returned, to be
applied after the loops. -/
def commitSet [DecidableEq T] (txn : Txn T) (k : Key) (value : T) :
    Program (CommitOver σ T) Err (Option (PendingSet T)) := do
  let s ← MonadState.get
  match s.warp.regs k with
  | none => throw .unregistered
  | some reg =>
    let old ← onWarp (WarpOver.cacheGet c world k)
    failOn (txn.casFault k old)
    let p := pendingSet s.warp world.toEnv k value reg old
    match reg.mode with
    | .eventualDistributed =>
      applySet c world p
      failOn (publishFault s.warp world.toEnv k)
      pure none
    | .strongDistributed =>
      failOn (busFault s.warp)
      failOn (world.fails (.publishAndAwait k reg.quorumSize))
      pure (some p)
    | .strongLocal =>
      applySet c world p
      pure none

/-- The second loop of `Commit` at one key. -/
def commitDelete (k : Key) : Program (CommitOver σ T) Err (Option Key) := do
  let s ← MonadState.get
  match s.warp.regs k with
  | none => throw .unregistered
  | some reg =>
    match reg.mode with
    | .eventualDistributed =>
      applyDelete c world k
      failOn (publishFault s.warp world.toEnv k)
      pure none
    | .strongDistributed =>
      failOn (busFault s.warp)
      failOn (world.fails (.publishAndAwait k reg.quorumSize))
      pure (some k)
    | .strongLocal =>
      applyDelete c world k
      pure none

/-- Open a batch if the store supports them. -/
def openBatch (env : Env) : Program (CommitOver σ T) Err Unit := do
  let s ← MonadState.get
  if s.warp.storeKind = .batcher then
    perform (env.fails .batchOpen) fun s => { s with batch := some Batch.empty }

def closeBatch (env : Env) : Program (CommitOver σ T) Err Unit := do
  let s ← MonadState.get
  if s.batch.isSome then
    perform (env.fails .batchCommit) commitBatch

/-- `Txn.Commit` as a program. -/
def commitProgram [DecidableEq T] (txn : Txn T) (order : txn.Order) :
    Program (CommitOver σ T) Err Unit := do
  openBatch world.toEnv
  let strongSets ← collect (fun e => commitSet c world txn e.1 e.2) order.sets
  let strongDeletes ← collect (commitDelete c world) order.deletes
  forEach (applySet c world) strongSets
  forEach (applyDelete c world) strongDeletes
  closeBatch world.toEnv

end Commit

end CommitOver

/-! ## Runs -/

inductive WarpOp (ω T : Type) where
  | register (k : Key) (reg : Registration)
  | set (k : Key) (value : T)
  | get (k : Key)
  | getOrSet (k : Key) (loader : WarpOver.Loader ω T)
  | getAt (k : Key) (t : Instant)
  | invalidate (k : Key)
  | warmup (keys : List Key) (nodup : keys.Nodup)
  | commit (txn : Txn T) (order : txn.Order)
  | task (started : Task) (fetched : Option T)

inductive Answer (T : Type) where
  | registered (free : Bool)
  | reply (r : Warp.Reply T)
  | status (err : Option Err)
  | nothing
deriving DecidableEq

namespace WarpOver

/-- The outcome of a program that returns no value. -/
def ended {σ' : Type} (result : Except Err Unit × σ') : Answer T × σ' :=
  match result with
  | (.ok _, s) => (.status none, s)
  | (.error e, s) => (.status (some e), s)

theorem snd_ended {σ' : Type} (result : Except Err Unit × σ') :
    (ended (T := T) result).2 = result.2 := by
  rcases result with ⟨_ | _, s⟩ <;> rfl

/-- What an operation returns and the Warp it leaves. -/
def perform [DecidableEq T] (c : AnyCache ω (Value T) σ) (w : WarpOver σ T)
    (world : World ω) : WarpOp ω T → Answer T × WarpOver σ T
  | .register k reg => Prod.map .registered id (w.register k reg)
  | .set k value => ended (exec (set c.toCacheOps world k value) w)
  | .get k => Prod.map .reply id (w.get c.toCacheOps world k)
  | .getOrSet k loader =>
    Prod.map .reply id (w.getOrSet c.toCacheOps world k loader)
  | .getAt k t => Prod.map .reply id (w.getAt c world k t)
  | .invalidate k => ended (exec (invalidate c.toCacheOps world k) w)
  | .warmup keys _ => (.nothing, w.warmup c.toCacheOps world keys)
  | .commit txn order =>
    Prod.map id CommitOver.warp (ended (exec (CommitOver.commitProgram c.toCacheOps world txn order)
        ⟨w, none⟩))
  | .task started fetched =>
    (.nothing, (w.takeTask started).runTask c.toCacheOps world fetched started)

/-- A goroutine runs if it has been started and not yet run. -/
def enabled (w : WarpOver σ T) : WarpOp ω T → Bool
  | .task started _ => started ∈ w.spawned
  | _ => true

/-- The machine of the operations. -/
def machine [DecidableEq T] (c : AnyCache ω (Value T) σ) :
    Machine (WarpOver σ T) (World ω × WarpOp ω T) := fun w (world, op) =>
  if w.enabled op then some (w.perform c world op).2 else none

/-- What the operations return. -/
def answer [DecidableEq T] (c : AnyCache ω (Value T) σ) (w : WarpOver σ T)
    (a : World ω × WarpOp ω T) : Option (Answer T) :=
  some (w.perform c a.1 a.2).1

end WarpOver

end GoWarp.Core
