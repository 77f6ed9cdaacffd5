import GoWarp.Core.Atomicity

/-!
# A refused quorum leaves no trace

Keys in `ModeStrongDistributed` are written only after the bus has confirmed
them.  In a transaction over such keys every effect waits behind every
confirmation: the two loops of `Commit` consist of checks alone.
-/

namespace GoWarp.Core

open Support Support.Program Support.Step

variable {T : Type}

inductive Op (T : Type) where
  | set (k : Key) (value : T)
  | invalidate (k : Key)
  | commit (txn : Txn T) (order : txn.Order)

/-- The bus does not confirm a write of the key. -/
def NotConfirmed (w : Warp T) (env : Env) (k : Key) : Prop :=
  ∃ reg, w.regs k = some reg ∧ env.fails (.publishAndAwait k reg.quorumSize) ≠ none

namespace Op

/-- The error of an operation, if any, and the Warp it leaves. -/
def run [DecidableEq T] (w : Warp T) (env : Env) : Op T → Option Err × Warp T
  | .set k value =>
    match exec (Warp.set env k value) w with
    | (.ok _, w') => (none, w')
    | (.error e, w') => (some e, w')
  | .invalidate k =>
    match exec (Warp.invalidate env k) w with
    | (.ok _, w') => (none, w')
    | (.error e, w') => (some e, w')
  | .commit txn order => txn.commit w env order

/-- Every registered key of the operation is strong.  A transaction may name
keys that are not registered. -/
def AllStrong (w : Warp T) : Op T → Prop
  | .set k _ => Strong w k
  | .invalidate k => Strong w k
  | .commit txn _ => ∀ k, txn.HasKey k → w.regs k = none ∨ Strong w k

/-- Some key of the operation is not confirmed by the bus or, in a transaction,
is not registered or fails its compare-and-swap. -/
def Refused [DecidableEq T] (w : Warp T) (env : Env) : Op T → Prop
  | .set k _ => NotConfirmed w env k
  | .invalidate k => NotConfirmed w env k
  | .commit txn _ => ∃ k, txn.HasKey k ∧
      (w.regs k = none ∨ NotConfirmed w env k ∨ txn.casFault k (readValue w env k) ≠ none)

end Op

/-! ## Single writes -/

section Single

variable {w : Warp T} {env : Env} {k : Key}

theorem exec_set_of_notConfirmed (value : T) (hbus : w.hasBus = true)
    (hhealthy : env.busHealthy = true) (hstrong : Strong w k) (hrefused : NotConfirmed w env k) :
    ∃ e, exec (Warp.set env k value) w = (.error e, w) := by
  obtain ⟨reg, hreg, hmode⟩ := hstrong
  obtain ⟨reg', hreg', hfails⟩ := hrefused
  rw [hreg, Option.some.injEq] at hreg'
  subst hreg'
  obtain ⟨e, he⟩ := Option.ne_none_iff_exists'.mp hfails
  rw [Warp.set, exec_bind_ok (exec_get w), hreg]
  rcases hbase : w.mergeBase env k with e' | old
  · exact ⟨e', by rw [exec_bind, exec_ofExcept]⟩
  · refine ⟨e, ?_⟩
    rw [exec_bind_ok (exec_ofExcept _ w), hmode, hbus, hhealthy, he]
    rfl

theorem exec_invalidate_of_notConfirmed (hbus : w.hasBus = true)
    (hhealthy : env.busHealthy = true) (hstrong : Strong w k) (hrefused : NotConfirmed w env k) :
    ∃ e, exec (Warp.invalidate env k) w = (.error e, w) := by
  obtain ⟨reg, hreg, hmode⟩ := hstrong
  obtain ⟨reg', hreg', hfails⟩ := hrefused
  rw [hreg, Option.some.injEq] at hreg'
  subst hreg'
  obtain ⟨e, he⟩ := Option.ne_none_iff_exists'.mp hfails
  refine ⟨e, ?_⟩
  rw [Warp.invalidate, exec_bind_ok (exec_get w), hreg]
  dsimp only
  rw [hmode, hbus, hhealthy, he]
  rfl

end Single

/-! ## Transactions -/

namespace Txn

variable {w : Warp T} {env : Env} {t : Instant} {txn : Txn T} {k : Key}

theorem faulty_deleteSteps (hstrong : w.regs k = none ∨ Strong w k)
    (hrefused : w.regs k = none ∨ NotConfirmed w env k) :
    ∃ step ∈ deleteSteps w env k, step.fault ≠ none := by
  rw [deleteSteps]
  rcases hstrong with hnone | ⟨reg, hreg, hmode⟩
  · rw [hnone]
    exact ⟨_, List.mem_singleton_self _, Option.some_ne_none _⟩
  · rw [hreg] at hrefused ⊢
    dsimp only
    rw [hmode]
    rcases hrefused with hnone | ⟨reg', hreg', hfails⟩
    · cases hnone
    · rw [hreg, Option.some.injEq] at hreg'
      subst hreg'
      exact ⟨check _, by simp [quorumSteps], hfails⟩

variable [DecidableEq T]

/-- The steps of a commit up to the end of its two loops. -/
def loopSteps (w : Warp T) (env : Env) (t : Instant) (txn : Txn T)
    (order : txn.Order) : List (CommitStep T) :=
  openStep w env ::
    (order.sets.flatMap (fun e => setSteps w env t txn e.1 e.2) ++
      order.deletes.flatMap (deleteSteps w env))

theorem plan_eq_loopSteps_append (w : Warp T) (env : Env) (t : Instant) (order : txn.Order) :
    ∃ rest, plan w env t txn order = loopSteps w env t txn order ++ rest := by
  refine ⟨(order.sets.filterMap fun e => deferredSet w env e.1 e.2).flatMap
      (applySetSteps w env t) ++
    ((order.deletes.filterMap (deferredDelete w)).flatMap
      (applyDeleteSteps w env) ++ [commitStep w env]), ?_⟩
  rw [plan, writePlan, loopSteps]
  simp only [List.cons_append, List.append_assoc]

theorem loopSteps_warp {order : txn.Order}
    (hstrong : ∀ k, txn.HasKey k → w.regs k = none ∨ Strong w k) :
    ∀ step ∈ loopSteps w env t txn order, ∀ s : CommitState T,
      s.warp = w → (step.effect s).warp = w := by
  have hmode : ∀ k reg, txn.HasKey k → w.regs k = some reg → reg.mode = .strongDistributed := by
    intro k reg hk hreg
    rcases hstrong k hk with hnone | hk
    · rw [hnone] at hreg
      cases hreg
    · by_contra hne
      exact not_strong hreg hne hk
  intro step hmem s hs
  simp only [loopSteps, List.mem_cons, List.mem_append, List.mem_flatMap] at hmem
  rcases hmem with rfl | ⟨e, he, hstep⟩ | ⟨k, hk, hstep⟩
  · rw [openStep]
    split
    · exact hs
    · exact hs
  · rcases mem_setSteps hstep with ⟨fault, rfl⟩ | ⟨reg, hreg, hne, _⟩
    · exact hs
    · have hkey : txn.HasKey e.1 :=
        Or.inl (order.mem_sets.mp (List.mem_map_of_mem he))
      exact absurd (hmode e.1 reg hkey hreg) hne
  · rcases mem_deleteSteps hstep with ⟨fault, rfl⟩ | ⟨reg, hreg, hne, _⟩
    · exact hs
    · exact absurd (hmode k reg (.inr (order.mem_deletes.mp hk)) hreg) hne

theorem mem_sets_of_casFault {old : Option (Value T)}
    (h : txn.casFault k old ≠ none) : k ∈ txn.sets := by
  apply txn.casQueued
  by_contra hnot
  exact h (by simp [casFault, AList.lookup_eq_none.mpr hnot])

theorem faulty_setSteps (value : T) (hstrong : w.regs k = none ∨ Strong w k)
    (hrefused : w.regs k = none ∨ NotConfirmed w env k ∨
      txn.casFault k (readValue w env k) ≠ none) :
    ∃ step ∈ setSteps w env t txn k value, step.fault ≠ none := by
  rw [setSteps]
  rcases hstrong with hnone | ⟨reg, hreg, hmode⟩
  · rw [hnone]
    exact ⟨_, List.mem_singleton_self _, Option.some_ne_none _⟩
  · rw [hreg] at hrefused ⊢
    dsimp only
    rw [hmode]
    rcases hrefused with hnone | ⟨reg', hreg', hfails⟩ | hcas
    · cases hnone
    · rw [hreg, Option.some.injEq] at hreg'
      subst hreg'
      exact ⟨check _, by simp [quorumSteps], hfails⟩
    · exact ⟨check (txn.casFault k (readValue w env k)), by simp, hcas⟩

theorem faulty_loopSteps (order : txn.Order) (hstrong : (Op.commit txn order).AllStrong w)
    (hrefused : (Op.commit txn order).Refused w env) :
    ∃ step ∈ loopSteps w env t txn order, step.fault ≠ none := by
  obtain ⟨k, hkey, hrefused⟩ := hrefused
  have hk := hstrong k hkey
  by_cases hset : k ∈ txn.sets
  · obtain ⟨e, he, rfl⟩ := List.mem_map.mp (order.mem_sets.mpr hset)
    obtain ⟨step, hmem, hfault⟩ := faulty_setSteps (t := t) e.2 hk hrefused
    refine ⟨step, ?_, hfault⟩
    rw [loopSteps]
    exact List.mem_cons_of_mem _ (List.mem_append_left _ (List.mem_flatMap.mpr ⟨e, he, hmem⟩))
  · have hdel := order.mem_deletes.mpr (hkey.resolve_left hset)
    have hrefused' : w.regs k = none ∨ NotConfirmed w env k := by
      rcases hrefused with h | h | h
      · exact .inl h
      · exact .inr h
      · exact absurd (mem_sets_of_casFault h) hset
    obtain ⟨step, hmem, hfault⟩ := faulty_deleteSteps hk hrefused'
    refine ⟨step, ?_, hfault⟩
    rw [loopSteps]
    exact List.mem_cons_of_mem _ (List.mem_append_right _ (List.mem_flatMap.mpr ⟨k, hdel, hmem⟩))

theorem commit_of_refused (order : txn.Order) (hstrong : (Op.commit txn order).AllStrong w)
    (hrefused : (Op.commit txn order).Refused w env) :
    (commit w env txn order).1 ≠ none ∧ (commit w env txn order).2 = w := by
  obtain ⟨rest, hplan⟩ := plan_eq_loopSteps_append w env 0 order
  obtain ⟨step, hmem, hfault⟩ := faulty_loopSteps (t := 0) order hstrong hrefused
  obtain ⟨herr, hstate⟩ := runSteps_append_of_fault hmem hfault rest ⟨w, none⟩
  rw [commit_eq order w env 0, hplan]
  refine ⟨herr, ?_⟩
  rw [hstate]
  exact runSteps_preserves (loopSteps_warp hstrong) rfl

end Txn

/-! ## The theorem -/

/-- With a healthy bus, a strong operation that is refused returns an error and
leaves the cache, the store and all registrations as they were. -/
theorem Op.run_of_refused [DecidableEq T] (w : Warp T) (env : Env) (op : Op T)
    (hbus : w.hasBus = true) (hhealthy : env.busHealthy = true)
    (hstrong : op.AllStrong w) (hrefused : op.Refused w env) :
    (op.run w env).1 ≠ none ∧ ∀ k, (op.run w env).2.cache k = w.cache k ∧
        (op.run w env).2.store k = w.store k ∧
        (op.run w env).2.regs k = w.regs k := by
  have hsame : (op.run w env).1 ≠ none ∧ (op.run w env).2 = w := by
    cases op with
    | set k value =>
      obtain ⟨e, he⟩ := exec_set_of_notConfirmed value hbus hhealthy hstrong hrefused
      rw [Op.run, he]
      exact ⟨Option.some_ne_none e, rfl⟩
    | invalidate k =>
      obtain ⟨e, he⟩ := exec_invalidate_of_notConfirmed hbus hhealthy hstrong hrefused
      rw [Op.run, he]
      exact ⟨Option.some_ne_none e, rfl⟩
    | commit txn order => exact Txn.commit_of_refused order hstrong hrefused
  obtain ⟨herr, hwarp⟩ := hsame
  rw [hwarp]
  exact ⟨herr, fun k => ⟨rfl, rfl, rfl⟩⟩

/-- A Warp with a bus and a store, all of whose keys are strong. -/
def strongWarp : Warp ℕ :=
  { Warp.uniform (Registration.new .strongDistributed 0 TTLOptions.zero) with
    cache := fun k => if k = "b" then some ⟨Value.written 7 0, none⟩ else none
    store := fun _ => some 7
    storeKind := .batcher
    hasBus := true }

/-- A world in which the bus does not confirm the key `b`. -/
def refusingEnv : Env :=
  { Env.still 0 with
    fails := fun c => if c = .publishAndAwait "b" 1 then some (.component 0) else none }

/-- A transaction that sets `a` and deletes `b`. -/
def strongTxn : Txn ℕ := (Txn.empty.set "a" 1).delete "b"

def strongOrder : strongTxn.Order where
  sets := [⟨"a", 1⟩]
  deletes := ["b"]
  sets_perm := by decide
  deletes_perm := by decide

theorem Op.run_of_refused_strongTxn :
    (strongTxn.commit strongWarp refusingEnv strongOrder).1 ≠ none ∧
      (strongTxn.commit strongWarp refusingEnv strongOrder).2.cache "b" =
        some ⟨Value.written 7 0, none⟩ := by
  have hstrong : ∀ k, Strong strongWarp k := fun k =>
    ⟨.new .strongDistributed 0 TTLOptions.zero, rfl, rfl⟩
  have hrefused : NotConfirmed strongWarp refusingEnv "b" :=
    ⟨.new .strongDistributed 0 TTLOptions.zero, rfl, by decide⟩
  obtain ⟨herr, hsame⟩ := Op.run_of_refused strongWarp refusingEnv
    (.commit strongTxn strongOrder) rfl rfl (fun k _ => .inr (hstrong k))
    ⟨"b", .inr (by decide), .inr (.inl hrefused)⟩
  exact ⟨herr, (hsame "b").1⟩

end GoWarp.Core
