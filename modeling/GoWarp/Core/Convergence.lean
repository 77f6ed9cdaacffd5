import GoWarp.Core.Node

/-!
# Nodes with a store each

The presets for eventual consistency give every node a cache and a store of
its own.  A `Set` writes both on its node and publishes, and the event makes
every other node drop what it has cached.  No value travels: a node that has
dropped its value reads its own store.

So when everything has been delivered, `Get` returns on each node what the
last `Set` on that node has stored, and the nodes agree exactly if these
values do.
-/

namespace GoWarp.Core

open Support
open Function (update update_of_ne update_self forall_update_iff)

variable {N T : Type}

/-- The nodes, the last reading of the clock on any of them, the goroutines of
`Set` calls that have not published yet, and the events that are on their way
to a node. -/
structure Mesh (N T : Type) where
  clock : Instant
  nodes : N → System T
  unpublished : N → ℕ
  inbox : N → ℕ

/-- A step: of a call on a node, of the publish of one of its `Set` calls,
which the bus may also send back to the node itself, or of a listener. -/
inductive MeshAction (N T : Type) where
  | work (n : N) (a : Action T)
  | publish (n : N) (echo : Bool)
  | deliver (n : N)

namespace Mesh

section Steps

variable [DecidableEq N] (k : Key) (s : Mesh N T)

/-- A step of a call, at a reading of the clock that is later than all those
before.  The last step of a `Set` starts the goroutine that publishes. -/
def work (n : N) (a : Action T) : Option (Mesh N T) :=
  if ∀ t ∈ a.reading, s.clock < t then
    (System.machine k (s.nodes n) a).map fun node =>
      { s with
        clock := a.reading.getD s.clock
        nodes := update s.nodes n node
        unpublished :=
          match a with
          | .touch _ => update s.unpublished n (s.unpublished n + 1)
          | _ => s.unpublished }
  else
    none

/-- The event of a `Set` is on its way to every other node. -/
def publish (n : N) (echo : Bool) : Option (Mesh N T) :=
  if 0 < s.unpublished n then
    some { s with
      unpublished := update s.unpublished n (s.unpublished n - 1)
      inbox := fun m =>
        if m = n ∧ echo = false then s.inbox m else s.inbox m + 1 }
  else
    none

/-- The listener of a node handles an event. -/
def deliver (n : N) : Option (Mesh N T) :=
  if 0 < s.inbox n then
    some { s with
      nodes := update s.nodes n ((s.nodes n).hear k)
      inbox := update s.inbox n (s.inbox n - 1) }
  else
    none

end Steps

variable [DecidableEq N] (k : Key)

def step : Machine (Mesh N T) (MeshAction N T)
  | s, .work n a => s.work k n a
  | s, .publish n echo => s.publish n echo
  | s, .deliver n => s.deliver k n

/-! ## What a node has stored -/

/-- The value that a step stores on node `n`. -/
def storing (n : N) (s : Mesh N T) : MeshAction N T → Option T
  | .work m a => if m = n then (s.nodes m).storeWrite a else none
  | _ => none

/-- The last value that a run stores on node `n`. -/
def lastStored (s : Mesh N T) (steps : List (MeshAction N T)) (n : N) :
    Option T :=
  (Machine.emitted (step k) (storing n) s steps).getLast?

/-- The condition on the steps of the calls: on each node they keep cache and
store coherent. -/
def Orderly (s : Mesh N T) : MeshAction N T → Prop
  | .work n a => System.Orderly k (s.nodes n) a
  | _ => True

/-- A node as the presets make it: an empty cache, an empty store, no merge
function, and the key in `ModeEventualDistributed`. -/
structure Start (s : Mesh N T) : Prop where
  registered : ∀ n, ∃ reg, (s.nodes n).warp.regs k = some reg ∧ reg.mode = .eventualDistributed
  hasStore : ∀ n, (s.nodes n).warp.storeKind ≠ .absent
  lastWriteWins : ∀ n, (s.nodes n).warp.merges k = none
  uncached : ∀ n, (s.nodes n).warp.cache k = none
  unstored : ∀ n, (s.nodes n).warp.store k = none
  idle : ∀ n i, (s.nodes n).threads i = .idle
  flight : ∀ n, (s.nodes n).flight = none
  clock : ∀ n, (s.nodes n).clock ≤ s.clock
  unpublished : ∀ n, s.unpublished n = 0
  inbox : ∀ n, s.inbox n = 0

/-- No call is in progress, and all events have been delivered. -/
structure Settled (s : Mesh N T) : Prop where
  returned : ∀ n i, ((s.nodes n).threads i).inCall = false
  unpublished : ∀ n, s.unpublished n = 0
  inbox : ∀ n, s.inbox n = 0

/-! ## The invariant -/

end Mesh

namespace System

/-- Cache and store of a node agree, as far as a clock that reads `clock` can
tell. -/
structure Sound (k : Key) (clock : Instant) (s : System T) : Prop where
  registered : (s.warp.regs k).isSome
  hasStore : s.warp.storeKind ≠ .absent
  coherent : s.Coherent k
  clock : s.clock ≤ clock

variable {k : Key} {clock : Instant} {s s' : System T}

variable (h : s.Sound k clock)
include h

theorem Sound.hear : (s.hear k).Sound k clock where
  registered := h.registered
  hasStore := h.hasStore
  coherent := by
    intro v hv
    rw [System.hear, System.onWarp, Cache.get_invalidate_self] at hv
    cases hv
  clock := h.clock

theorem Sound.step {a : Action T} (horderly : Orderly k s a) (hstep : machine k s a = some s') :
    s'.Sound k (a.reading.getD clock) ∧ s'.warp.store k = (s.storeWrite a <|> s.warp.store k) := by
  obtain ⟨hkind, hcoherent⟩ := coherent_step ⟨h.hasStore, h.coherent⟩ horderly hstep
  obtain ⟨reg, hreg⟩ := Option.isSome_iff_exists.mp h.registered
  rw [machine, hreg] at hstep
  obtain ⟨-, hstep⟩ := Option.ite_none_right_eq_some.mp hstep
  have hstepped := stepped_of_stepWith hstep
  refine ⟨⟨?_, hkind, hcoherent, ?_⟩, hstepped.effect.store⟩
  · rw [hstepped.effect.registered]
    exact h.registered
  · rw [hstepped.clock]
    cases a.reading with
    | none => exact h.clock
    | some t => exact Int.le_refl t

theorem Sound.mono {clock' : Instant} (hle : clock ≤ clock') : s.Sound k clock' :=
  { h with clock := Int.le_trans h.clock hle }

theorem Sound.get (hreturned : ∀ i, (s.threads i).inCall = false) {env : Env}
    (hworking : ∀ c, env.fails c = none) (hlater : clock ≤ env.clock (.call (.cacheGet k))) :
    (s.warp.get env k).1 = Warp.Reply.ofStored (s.warp.store k) := by
  obtain ⟨reg, hreg⟩ := Option.isSome_iff_exists.mp h.registered
  refine Warp.get_of_coherent hreg h.hasStore hworking fun v hv => ?_
  have hnow := Cache.get_of_le (Int.le_trans h.clock hlater) hv
  rcases h.coherent v hnow with hstored | ⟨i, newVal, now, ttl, -, hi, -⟩
  · exact hstored
  · have hcall := hreturned i
    rw [hi] at hcall
    cases hcall

end System

namespace Mesh

variable [DecidableEq N] {k : Key} {s s' : Mesh N T}

/-- Every node is sound, and node `n` has stored the last value of the
history. -/
structure Sound (k : Key) (n : N) (s : Mesh N T) (h : List T) : Prop where
  nodes : ∀ m, (s.nodes m).Sound k s.clock
  stored : (s.nodes n).warp.store k = h.getLast?

namespace Sound

variable {n : N} {h : List T}

theorem work (hs : Sound k n s h) {m : N} {a : Action T} (horderly : System.Orderly k (s.nodes m) a)
    (hstep : s.work k m a = some s') :
    Sound k n s' (h ++ (storing n s (.work m a)).toList) := by
  obtain ⟨hclock, hwork⟩ := Option.ite_none_right_eq_some.mp hstep
  obtain ⟨node, hnode, rfl⟩ := Option.map_eq_some_iff.mp hwork
  obtain ⟨hsound, hstore⟩ := (hs.nodes m).step horderly hnode
  have hle : s.clock ≤ a.reading.getD s.clock := by
    cases hreading : a.reading with
    | none => exact Int.le_refl s.clock
    | some t => exact Int.le_of_lt (hclock t hreading)
  constructor
  · refine (forall_update_iff s.nodes fun _ node =>
      node.Sound k (a.reading.getD s.clock)).mpr ⟨hsound, fun m' _ => ?_⟩
    exact (hs.nodes m').mono hle
  · change (update s.nodes m node n).warp.store k = _
    rw [storing]
    by_cases hm : m = n
    · subst hm
      rw [update_self, if_pos rfl, hstore]
      cases (s.nodes m).storeWrite a with
      | none =>
        rw [Option.toList_none, List.append_nil]
        exact hs.stored
      | some data =>
        rw [Option.toList_some, List.getLast?_concat]
        rfl
    · rw [update_of_ne (.symm hm), if_neg hm, Option.toList_none, List.append_nil]
      exact hs.stored

theorem deliver (hs : Sound k n s h) {m : N}
    (hstep : s.deliver k m = some s') : Sound k n s' (h ++ []) := by
  obtain ⟨-, hs'⟩ := Option.ite_none_right_eq_some.mp hstep
  cases hs'
  constructor
  · exact (forall_update_iff s.nodes fun _ node =>
      node.Sound k s.clock).mpr ⟨(hs.nodes m).hear, fun m' _ => hs.nodes m'⟩
  · change (update s.nodes m ((s.nodes m).hear k) n).warp.store k = _
    rw [List.append_nil, ← hs.stored]
    by_cases hm : n = m
    · subst hm
      rw [update_self]
      rfl
    · rw [update_of_ne hm]

theorem step (hs : Sound k n s h) {a : MeshAction N T}
    (horderly : Orderly k s a) (hstep : Mesh.step k s a = some s') :
    Sound k n s' (h ++ (storing n s a).toList) := by
  cases a with
  | work m a => exact hs.work horderly hstep
  | publish m echo =>
    obtain ⟨-, hs'⟩ := Option.ite_none_right_eq_some.mp hstep
    cases hs'
    refine ⟨hs.nodes, ?_⟩
    exact hs.stored.trans (congrArg List.getLast? (List.append_nil h).symm)
  | deliver m => exact hs.deliver hstep

end Sound

theorem sound_of_run {s₀ : Mesh N T} (hstart : s₀.Start k) {steps : List (MeshAction N T)}
    (hrun : Machine.run (step k) s₀ steps = some s)
    (horderly : Machine.AllSteps (step k) (Orderly k) s₀ steps) (n : N) :
    Sound k n s (Machine.emitted (step k) (storing n) s₀ steps) := by
  have hempty : Sound k n s₀ [] := by
    refine ⟨fun m => ?_, hstart.unstored n⟩
    obtain ⟨reg, hreg, -⟩ := hstart.registered m
    refine ⟨hreg ▸ rfl, hstart.hasStore m, fun v hv => ?_, hstart.clock m⟩
    rw [Cache.get, hstart.uncached m] at hv
    cases hv
  exact Machine.run_history_of_allSteps (step k) (storing n)
    (I := Sound k n) (fun _ _ _ _ hs ha hstep => hs.step ha hstep) hrun
    horderly hempty

theorem ofStored_injective :
    Function.Injective (Warp.Reply.ofStored : Option T → Warp.Reply T) := by
  rintro (_ | x) (_ | y) hxy
  · rfl
  · cases congrArg Warp.Reply.value hxy
  · cases congrArg Warp.Reply.value hxy
  · exact congrArg Warp.Reply.value hxy

/-- In every run of orderly steps, when no call is in progress and all events
have been delivered, `Get` returns the same on every node exactly if the last
value stored on each node is the same. -/
theorem gets_agree_iff (k : Key) (s₀ s : Mesh N T) (hstart : s₀.Start k)
    (steps : List (MeshAction N T))
    (hrun : Machine.run (step k) s₀ steps = some s)
    (horderly : Machine.AllSteps (step k) (Orderly k) s₀ steps)
    (hsettled : s.Settled) (env : N → Env)
    (hworking : ∀ n c, (env n).fails c = none)
    (hlater : ∀ n, s.clock ≤ (env n).clock (.call (.cacheGet k))) :
    (∀ n m, ((s.nodes n).warp.get (env n) k).1 = ((s.nodes m).warp.get (env m) k).1) ↔
      ∀ n m, lastStored k s₀ steps n = lastStored k s₀ steps m := by
  refine forall₂_congr fun n m => ?_
  have hn := sound_of_run hstart hrun horderly n
  have hm := sound_of_run hstart hrun horderly m
  rw [(hn.nodes n).get (hsettled.returned n) (hworking n) (hlater n),
    (hn.nodes m).get (hsettled.returned m) (hworking m) (hlater m),
    hn.stored, hm.stored]
  exact ofStored_injective.eq_iff

/-- A Warp as the presets make it. -/
def presetWarp : Warp ℕ :=
  { Warp.uniform (Registration.new .eventualDistributed 60 TTLOptions.zero) with
    storeKind := .batcher
    hasBus := true }

def twoNodes : Mesh (Fin 2) ℕ where
  clock := 0
  nodes := fun _ => ⟨presetWarp, 0, none, fun _ => .idle⟩
  unpublished := fun _ => 0
  inbox := fun _ => 0

theorem start_twoNodes : twoNodes.Start "k" where
  registered := fun _ => ⟨_, rfl, rfl⟩
  hasStore := by decide
  lastWriteWins := fun _ => rfl
  uncached := fun _ => rfl
  unstored := fun _ => rfl
  idle := fun _ _ => rfl
  flight := fun _ => rfl
  clock := fun _ => Int.le_refl 0
  unpublished := fun _ => rfl
  inbox := fun _ => rfl

/-- A `Set` on a node, with readings of the clock from `t` on, and its
publish. -/
def setOn (n : Fin 2) (value : ℕ) (t : Instant) : List (MeshAction (Fin 2) ℕ) :=
  [.work n (.call 0 (.set value)), .work n (.readClock 0 t),
    .work n (.cacheGet 0 (t + 1)), .work n (.cacheSet 0 (t + 2) 0),
    .work n (.storeSet 0), .work n (.touch 0), .publish n false]

/-- A world in which no call fails, after the runs below. -/
def laterEnv : Env := { Warp.workingEnv with clock := fun _ => 10 }

/-- After one `Set` and the delivery of its event the nodes differ. -/
theorem differ_setOn : ∃ s, Machine.run (step "k") twoNodes (setOn 0 1 1 ++ [.deliver 1]) =
        some s ∧ s.Settled ∧
      ((s.nodes 0).warp.get laterEnv "k").1 = .found 1 ∧
      ((s.nodes 1).warp.get laterEnv "k").1 = .failed .notFound := by
  refine ⟨_, rfl, ⟨?_, by decide, by decide⟩, by decide, by decide⟩
  refine Fin.forall_fin_two.mpr ⟨?_, ?_⟩
  · rintro (_ | i) <;> rfl
  · exact fun _ => rfl

/-- The same value is set on both nodes. -/
def setOnBoth : List (MeshAction (Fin 2) ℕ) :=
  setOn 0 7 1 ++ setOn 1 7 4 ++ [.deliver 0, .deliver 1]

theorem orderly_setOnBoth : Machine.AllSteps (step "k") (Orderly "k") twoNodes setOnBoth := by
  iterate 4 refine .cons trivial rfl ?_
  refine .cons (fun v hv => ?_) rfl ?_
  · exact .inl (congrArg Value.data (Option.some.inj hv))
  iterate 6 refine .cons trivial rfl ?_
  refine .cons (fun v hv => ?_) rfl ?_
  · exact .inl (congrArg Value.data (Option.some.inj hv))
  iterate 4 refine .cons trivial rfl ?_
  trivial

theorem gets_agree_setOnBoth : ∃ s, Machine.run (step "k") twoNodes setOnBoth = some s ∧
      ∀ n m, ((s.nodes n).warp.get laterEnv "k").1 = ((s.nodes m).warp.get laterEnv "k").1 := by
  refine ⟨_, rfl, ?_⟩
  refine (gets_agree_iff "k" twoNodes _ start_twoNodes setOnBoth rfl
    orderly_setOnBoth ⟨?_, by decide, by decide⟩ (fun _ => laterEnv)
    (fun _ _ => rfl) (fun _ => by decide)).mpr (by decide)
  refine Fin.forall_fin_two.mpr ⟨?_, ?_⟩
  · rintro (_ | i) <;> rfl
  · rintro (_ | i) <;> rfl

end Mesh

end GoWarp.Core
