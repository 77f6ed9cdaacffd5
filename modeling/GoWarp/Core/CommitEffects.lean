import GoWarp.Core.CommitPlan

/-!
# What survives a commit

Whatever fails, a commit reaches the Warp only through writes and
invalidations of the cache at its keys, updates of their registrations, and
changes of the store at its keys.  A property that survives these survives
the commit.
-/

namespace GoWarp.Core

open Support Support.Program Support.Step

variable {T : Type}

/-- A property that survives every effect of a commit that starts from `w`. -/
structure CommitStable (w : Warp T) (env : Env) (txn : Txn T)
    (P : Warp T → Prop) : Prop where
  cacheSet : ∀ w' k v reg, k ∈ txn.sets → w.regs k = some reg → P w' →
    P (w'.cacheSet env k v (env.effectiveTTL k reg))
  cacheInvalidate : ∀ w' k, k ∈ txn.deletes → P w' → P (w'.cacheInvalidate env k)
  store : ∀ w' store, (∀ k, ¬txn.HasKey k → store k = w'.store k) → P w' →
    P { w' with store := store }
  touch : ∀ w' k reg now, k ∈ txn.sets → w.regs k = some reg → P w' →
    P (w'.touch k (env.effectiveTTL k reg) now)

/-- The batch of a running commit writes keys of the transaction only. -/
def Batch.Within (b : Batch T) (txn : Txn T) : Prop :=
  (∀ k data, b.sets k = some data → txn.HasKey k) ∧ ∀ k ∈ b.deletes, txn.HasKey k

/-- The property holds of the Warp of a running commit, whose batch is within
the transaction. -/
def CommitState.Holds (txn : Txn T) (P : Warp T → Prop) (s : CommitState T) : Prop :=
  P s.warp ∧ ∀ b, s.batch = some b → b.Within txn

/-- A set that a commit may come to apply. -/
structure Planned (w : Warp T) (env : Env) (txn : Txn T) (p : PendingSet T) : Prop where
  mem : p.key ∈ txn.sets
  ttl : ∃ reg, w.regs p.key = some reg ∧ p.ttl = env.effectiveTTL p.key reg

namespace CommitStable

variable {w : Warp T} {env : Env} {txn : Txn T} {P : Warp T → Prop}
  {t : Instant} {s : CommitState T}

theorem applySetSteps (h : CommitStable w env txn P) {p : PendingSet T} (hp : Planned w env txn p) :
    ∀ step ∈ applySetSteps w env t p, ∀ s, s.Holds txn P → (step.effect s).Holds txn P := by
  obtain ⟨hmem, reg, hreg, httl⟩ := hp
  rintro step hstep s ⟨hs, hbatch⟩
  rcases mem_applySetSteps hstep with rfl | rfl | rfl | rfl
  · refine ⟨?_, hbatch⟩
    change P (s.warp.cacheSet env p.key p.value p.ttl)
    rw [httl]
    exact h.cacheSet _ _ _ reg hmem hreg hs
  · refine ⟨hs, ?_⟩
    intro b hb
    obtain ⟨b', hb', rfl⟩ := Option.map_eq_some_iff.mp hb
    refine ⟨?_, (hbatch b' hb').2⟩
    intro k data hk
    by_cases heq : k = p.key
    · rw [heq]
      exact .inl hmem
    · change Function.update b'.sets p.key _ k = some data at hk
      rw [Function.update_of_ne heq] at hk
      exact (hbatch b' hb').1 k data hk
  · refine ⟨?_, hbatch⟩
    refine h.store s.warp _ ?_ hs
    intro k hk
    have hne : k ≠ p.key := by
      rintro rfl
      exact hk (.inl hmem)
    exact Function.update_of_ne hne _ _
  · refine ⟨?_, hbatch⟩
    change P (s.warp.touch p.key p.ttl p.now)
    rw [httl]
    exact h.touch _ _ reg _ hmem hreg hs

theorem applyDeleteSteps (h : CommitStable w env txn P) {k : Key} (hk : k ∈ txn.deletes) :
    ∀ step ∈ applyDeleteSteps w env k, ∀ s, s.Holds txn P → (step.effect s).Holds txn P := by
  rintro step hstep s ⟨hs, hbatch⟩
  rcases mem_applyDeleteSteps hstep with rfl | rfl
  · exact ⟨h.cacheInvalidate _ _ hk hs, hbatch⟩
  · refine ⟨hs, ?_⟩
    intro b hb
    obtain ⟨b', hb', rfl⟩ := Option.map_eq_some_iff.mp hb
    refine ⟨(hbatch b' hb').1, ?_⟩
    intro k' hk'
    rcases List.mem_append.mp hk' with hk' | hk'
    · exact (hbatch b' hb').2 k' hk'
    · rw [List.mem_singleton.mp hk']
      exact .inr hk

theorem commitStep (h : CommitStable w env txn P) (hs : s.Holds txn P) :
    ((commitStep w env).effect s).Holds txn P := by
  rw [Core.commitStep]
  split
  · change (s.commitBatch).Holds txn P
    rw [CommitState.commitBatch]
    split
    · exact hs
    · rename_i b hb
      refine ⟨?_, hs.2⟩
      refine h.store s.warp _ ?_ hs.1
      intro k hk
      have hset : b.sets k = none := by
        by_contra hne
        obtain ⟨data, hdata⟩ := Option.ne_none_iff_exists'.mp hne
        exact hk ((hs.2 b hb).1 k data hdata)
      have hdelete : k ∉ b.deletes := fun hmem => hk ((hs.2 b hb).2 k hmem)
      rw [Batch.commit, hset]
      exact if_neg hdelete
  · exact hs

theorem planned_of_mem [DecidableEq T] {order : txn.Order}
    {e : Sigma fun _ : Key => T} (he : e ∈ order.sets) {reg : Registration}
    (hreg : w.regs e.1 = some reg) :
    Planned w env txn (plannedSet w env e.1 e.2 reg) :=
  ⟨order.mem_sets.mp (List.mem_map_of_mem he), reg, hreg, rfl⟩

theorem commit [DecidableEq T] (h : CommitStable w env txn P) (hw : P w)
    (order : txn.Order) : P (Txn.commit w env txn order).2 := by
  rw [Txn.commit_eq order w env 0]
  have hstart : CommitState.Holds txn P ⟨w, none⟩ :=
    ⟨hw, fun b hb => absurd hb.symm (Option.some_ne_none b)⟩
  refine (runSteps_preserves (P := CommitState.Holds txn P) ?_ hstart).1
  intro step hstep s hs
  rw [Txn.plan, Txn.writePlan] at hstep
  simp only [List.cons_append, List.mem_cons, List.mem_append,
    List.mem_flatMap, List.mem_filterMap, List.not_mem_nil, or_false] at hstep
  rcases hstep with rfl | (⟨e, he, hstep⟩ | ⟨k, hk, hstep⟩ |
    ⟨p, ⟨e, he, hp⟩, hstep⟩ | ⟨k, ⟨k', hk', hd⟩, hstep⟩) | rfl
  · rw [openStep]
    split
    · refine ⟨hs.1, ?_⟩
      intro b hb
      cases hb
      exact ⟨fun _ _ h => absurd h.symm (Option.some_ne_none _),
        fun _ h => absurd h List.not_mem_nil⟩
    · exact hs
  · rcases mem_setSteps hstep with ⟨fault, rfl⟩ | ⟨reg, hreg, _, happly⟩
    · exact hs
    · exact h.applySetSteps (planned_of_mem he hreg) step happly s hs
  · rcases mem_deleteSteps hstep with ⟨fault, rfl⟩ | ⟨reg, _, _, happly⟩
    · exact hs
    · exact h.applyDeleteSteps (order.mem_deletes.mp hk) step happly s hs
  · rw [deferredSet] at hp
    split at hp
    · cases hp
    · rename_i reg hreg
      split at hp
      · cases hp
        exact h.applySetSteps (planned_of_mem he hreg) step hstep s hs
      · cases hp
  · rw [deferredDelete] at hd
    split at hd
    · cases hd
    · split at hd
      · cases hd
        exact h.applyDeleteSteps (order.mem_deletes.mp hk') step hstep s hs
      · cases hd
  · exact h.commitStep hs

end CommitStable

end GoWarp.Core
