import GoWarp.Core.KeyOps

/-!
# Tracing and metrics

A Warp with tracing or metrics never takes the short hit path of `Get`.  The
condition of the short path looks at most options of a key but not at its
frequency threshold, so that a key with a dynamic TTL and no other option
adapts its TTL only while it is observed.
-/

namespace GoWarp.Core

open Support Support.Program

variable {T : Type}

namespace Warp

/-- The Warp with tracing and metrics turned on or off. -/
def withFlags (w : Warp T) (trace hist : Bool) : Warp T :=
  { w with traceEnabled := trace, hasLatencyHist := hist }

variable {w : Warp T} {env : Env} {k : Key} {reg : Registration} (trace hist : Bool)

/-! ## Operations do not look at the flags -/

theorem withFlags_cacheSet (w : Warp T) (v : Value T) (ttl : Duration) :
    (w.withFlags trace hist).cacheSet env k v ttl =
      (w.cacheSet env k v ttl).withFlags trace hist := by
  rw [cacheSet, cacheSet]
  split
  · rfl
  · rfl

theorem withFlags_cacheInvalidate (w : Warp T) : (w.withFlags trace hist).cacheInvalidate env k =
      (w.cacheInvalidate env k).withFlags trace hist := by
  rw [cacheInvalidate, cacheInvalidate]
  split
  · rfl
  · rfl

/-- The program does the same whatever the flags are. -/
abbrev Blind {α : Type} (p : Program (Warp T) Err α) : Prop :=
  ∀ w, Maps (fun w : Warp T => w.withFlags trace hist) p p w

theorem blind_applySet (v : Value T) : Blind trace hist (applySet env k reg v) := by
  have htouch : Blind trace hist (modify fun w : Warp T =>
      w.touch k (env.ttl k reg) (env.clock (.operation k))) := fun _ => rfl
  exact fun w => .get_bind_self rfl
    (.bind (.perform _ (withFlags_cacheSet trace hist w _ _)) fun _ w' =>
      .ite (.bind (.perform _ rfl) fun _ => htouch) (htouch w'))

theorem blind_publish (c : Prop) [Decidable c] : Blind trace hist
      (if c then modify fun w : Warp T => w.spawn (.publish k) else pure ()) :=
  fun _ => .ite rfl rfl

theorem blind_set (value : T) : Blind trace hist (set env k value) := by
  refine fun w => .get_bind_self rfl ?_
  dsimp only
  split
  · rfl
  · refine .bind (.ofExcept _) fun old w' => ?_
    split
    · exact .bind (blind_applySet trace hist _ w') fun _ => blind_publish trace hist _
    · exact .failOn_bind _ (.ite (.failOn_bind _ (blind_applySet trace hist _ w'))
        (blind_applySet trace hist _ w'))
    · exact blind_applySet trace hist _ w'

theorem blind_invalidate : Blind trace hist (invalidate env k : Program (Warp T) Err Unit) := by
  refine fun w => .get_bind_self rfl ?_
  dsimp only
  have happly : Blind trace hist
      (perform (w.cacheFault env (.cacheInvalidate k)) fun w : Warp T => w.cacheInvalidate env k) :=
    fun w => .perform _ (withFlags_cacheInvalidate trace hist w)
  split
  · rfl
  · split
    · exact .bind (happly w) fun _ => blind_publish trace hist _
    · exact .failOn_bind _ (.ite (.failOn_bind _ (happly w)) (happly w))
    · exact happly w

/-! ## The full hit path -/

def fullHit (w : Warp T) (env : Env) (k : Key) (reg : Registration)
    (v : Value T) : Reply T × Warp T :=
  let now := env.clock (.operation k)
  if isStale reg v now ∧ w.storeKind ≠ .absent then
    w.getStale env k reg v
  else
    (Reply.found v.data, (w.slide env k reg v now).eager k v now)

theorem withFlags_fill (w : Warp T) (data : T) (ttl : Duration) :
    (w.withFlags trace hist).fill env k data ttl reg =
      (w.fill env k data ttl reg).withFlags trace hist :=
  withFlags_cacheSet trace hist (w.touch k ttl (env.clock (.fetch k))) _ _

theorem withFlags_getStale (w : Warp T) (v : Value T) :
    (w.withFlags trace hist).getStale env k reg v =
      (w.getStale env k reg v).map id (withFlags · trace hist) := by
  have hget : (w.withFlags trace hist).storeGet env k = w.storeGet env k := rfl
  rw [getStale, getStale, hget]
  refine ite_eq_apply rfl ?_
  rcases w.storeGet env k with e | _ | data
  · cases e <;> rfl
  · rfl
  · exact congrArg (Prod.mk _) (withFlags_fill trace hist w data _)

theorem withFlags_slide (w : Warp T) (v : Value T) (now : Instant) :
    (w.withFlags trace hist).slide env k reg v now =
      (w.slide env k reg v now).withFlags trace hist :=
  ite_eq_apply (g := (withFlags · trace hist))
    (withFlags_cacheSet trace hist (w.touch k _ now) _ _) rfl

theorem withFlags_eager (w : Warp T) (v : Value T) (now : Instant) :
    (w.withFlags trace hist).eager k v now = (w.eager k v now).withFlags trace hist := by
  have hregs : (w.withFlags trace hist).regs k = w.regs k := rfl
  rw [eager, eager, hregs]
  rcases w.regs k with _ | reg
  · rfl
  · exact ite_eq_apply (g := (withFlags · trace hist)) rfl rfl

theorem withFlags_fullHit (w : Warp T) (v : Value T) :
    (w.withFlags trace hist).fullHit env k reg v =
      (w.fullHit env k reg v).map id (withFlags · trace hist) := by
  refine ite_eq_apply (withFlags_getStale trace hist w v) ?_
  rw [withFlags_slide, withFlags_eager]
  rfl

theorem withFlags_getMiss (w : Warp T) : (w.withFlags trace hist).getMiss env k reg =
      (w.getMiss env k reg).map id (withFlags · trace hist) := by
  have hget : (w.withFlags trace hist).storeGet env k = w.storeGet env k := rfl
  rw [getMiss, getMiss, hget]
  refine ite_eq_apply rfl ?_
  rcases w.storeGet env k with e | _ | data
  · rfl
  · rfl
  · exact congrArg (Prod.mk _) (withFlags_fill trace hist w data _)

end Warp

/-! ## When the short path leaves nothing out -/

/-- The short hit path is closed to the key, or there is nothing to adapt on a
hit. -/
def Registration.ShortHitComplete (reg : Registration) : Prop :=
  reg.ttlOpts.sliding = true ∨ reg.ttlOpts.eagerRefresh ≠ none ∨
    reg.ttlOpts.failSafeGracePeriod ≠ 0 ∨ reg.hasStrategy = true ∨
    reg.ttlOpts.freqThreshold ≤ 0

namespace Warp

variable {w : Warp T} {env : Env} {k : Key} {reg : Registration}

theorem plainHit_eq_true_iff : w.plainHit reg = true ↔
      reg.ttlOpts.sliding = false ∧ reg.ttlOpts.eagerRefresh = none ∧
        reg.ttlOpts.failSafeGracePeriod = 0 ∧ reg.hasStrategy = false ∧
        w.traceEnabled = false ∧ w.hasLatencyHist = false := by
  simp [plainHit, and_assoc]

theorem isStale_of_plainHit (hplain : w.plainHit reg = true) (v : Value T)
    (now : Instant) : isStale reg v now = false := by
  obtain ⟨_, _, hgrace, _⟩ := plainHit_eq_true_iff.mp hplain
  rw [isStale, hgrace]
  exact decide_eq_false fun h => absurd h.1 (Int.lt_irrefl 0)

theorem not_slides_of_plainHit (hplain : w.plainHit reg = true)
    (hfreq : reg.ttlOpts.freqThreshold ≤ 0) :
    ¬(reg.ttlOpts.sliding = true ∨ 0 < reg.ttlOpts.freqThreshold) := by
  obtain ⟨hsliding, _⟩ := plainHit_eq_true_iff.mp hplain
  rw [hsliding]
  rintro (h | h)
  · cases h
  · exact absurd h (Int.not_lt.mpr hfreq)

theorem freqThreshold_of_plainHit (hshort : reg.ShortHitComplete)
    (hplain : w.plainHit reg = true) : reg.ttlOpts.freqThreshold ≤ 0 := by
  obtain ⟨hsliding, heager, hgrace, hstrategy, _⟩ := plainHit_eq_true_iff.mp hplain
  rcases hshort with h | h | h | h | hfreq
  · rw [hsliding] at h
    cases h
  · exact absurd heager h
  · exact absurd hgrace h
  · rw [hstrategy] at h
    cases h
  · exact hfreq

theorem getHit_eq_fullHit (hshort : reg.ShortHitComplete)
    (hreg : w.regs k = some reg) (v : Value T) :
    w.getHit env k reg v = w.fullHit env k reg v := by
  rw [getHit]
  split
  · rename_i hplain
    have hfreq := freqThreshold_of_plainHit hshort hplain
    have hdue : ∀ now, w.refreshDue reg v now = false := by
      intro now
      rw [refreshDue, (plainHit_eq_true_iff.mp hplain).2.1]
    rw [fullHit, isStale_of_plainHit hplain,
      if_neg (fun h => Bool.false_ne_true h.1), slide,
      if_neg (not_slides_of_plainHit hplain hfreq), eager, hreg]
    dsimp only
    rw [hdue, if_neg Bool.false_ne_true]
  · rfl

/-- The call of `cache.Set` on the full hit path. -/
def fullHitWrite (w : Warp T) (env : Env) (k : Key) (reg : Registration)
    (v : Value T) : Option (CacheWrite T) :=
  let now := env.clock (.operation k)
  if isStale reg v now ∧ w.storeKind ≠ .absent then
    w.staleWrite env k reg
  else if reg.ttlOpts.sliding ∨ 0 < reg.ttlOpts.freqThreshold then
    some ⟨v, wrap64 (slidTTL reg (env.strategyTTL k) now + reg.ttlOpts.failSafeGracePeriod)⟩
  else
    none

variable (hshort : reg.ShortHitComplete)
include hshort

theorem hitWrite_eq_fullHitWrite
    (v : Value T) : w.hitWrite env k reg v = w.fullHitWrite env k reg v := by
  rw [hitWrite]
  split
  · rename_i hplain
    have hfreq := freqThreshold_of_plainHit hshort hplain
    rw [fullHitWrite, isStale_of_plainHit hplain,
      if_neg (fun h => Bool.false_ne_true h.1),
      if_neg (not_slides_of_plainHit hplain hfreq)]
  · rfl

theorem withFlags_getWrite (hreg : w.regs k = some reg) (trace hist : Bool) :
    (w.withFlags trace hist).getWrite env k = w.getWrite env k := by
  have hregs : (w.withFlags trace hist).regs k = some reg := hreg
  have hget : (w.withFlags trace hist).cacheGet env k = w.cacheGet env k := rfl
  rw [getWrite, getWrite, hregs, hreg, hget]
  dsimp only
  rcases w.cacheGet env k with e | _ | v
  · rfl
  · rfl
  · dsimp only
    rw [hitWrite_eq_fullHitWrite hshort, hitWrite_eq_fullHitWrite hshort]
    rfl

theorem withFlags_get (hreg : w.regs k = some reg) (trace hist : Bool) :
    (w.withFlags trace hist).get env k = (w.get env k).map id (Warp.withFlags · trace hist) := by
  have hregs : (w.withFlags trace hist).regs k = some reg := hreg
  have hget : (w.withFlags trace hist).cacheGet env k = w.cacheGet env k := rfl
  rw [get, get, hregs, hreg, hget]
  dsimp only
  rcases w.cacheGet env k with e | _ | v
  · exact withFlags_getMiss trace hist w
  · exact withFlags_getMiss trace hist w
  · dsimp only
    rw [getHit_eq_fullHit hshort hregs, getHit_eq_fullHit hshort hreg]
    exact withFlags_fullHit trace hist w v

end Warp

namespace KeyOp

variable {w : Warp T} {env : Env} {k : Key} {reg : Registration}

theorem written_withFlags {p : Program (Warp T) Err Unit} {trace hist : Bool}
    (hp : Warp.Blind trace hist p) (w : Warp T) :
    written (exec p (w.withFlags trace hist)) =
      (written (exec p w)).map id (Warp.withFlags · trace hist) := by
  rw [hp w]
  rcases exec p w with ⟨_ | _, w'⟩
  · rfl
  · rfl

theorem run_withFlags (hshort : reg.ShortHitComplete)
    (hreg : w.regs k = some reg) (trace hist : Bool) (op : KeyOp T) :
    op.run (w.withFlags trace hist) env k =
      (op.run w env k).map id (Warp.withFlags · trace hist) := by
  cases op with
  | get => exact Warp.withFlags_get hshort hreg trace hist
  | set value =>
    exact written_withFlags (Warp.blind_set trace hist value) w
  | invalidate => exact written_withFlags (Warp.blind_invalidate trace hist) w

theorem write_withFlags (hshort : reg.ShortHitComplete)
    (hreg : w.regs k = some reg) (trace hist : Bool) (op : KeyOp T) :
    op.write (w.withFlags trace hist) env k = op.write w env k := by
  cases op with
  | get => exact Warp.withFlags_getWrite hshort hreg trace hist
  | set value => rfl
  | invalidate => rfl

/-- The key is registered with the given options. -/
def Terms (k : Key) (reg : Registration) (w : Warp T) : Prop :=
  ∃ reg', w.regs k = some reg' ∧ reg'.ttlOpts = reg.ttlOpts ∧ reg'.hasStrategy = reg.hasStrategy

theorem stable_terms (env : Env) (k : Key) (reg : Registration) :
    Stable env k (Terms (T := T) k reg) where
  cacheSet := by
    intro w v ttl h
    rwa [Terms, Warp.regs_cacheSet]
  cacheInvalidate := by
    intro w h
    rwa [Terms, Warp.regs_cacheInvalidate]
  storeSet := fun _ _ h => h
  touch := by
    rintro w _ _ ttl now ⟨reg', hreg', hterms⟩ _ _ _
    exact ⟨reg'.touch ttl now, Warp.regs_touch_self w k hreg' ttl now, hterms⟩
  spawn := fun _ _ _ _ h _ _ _ => h

/-- A run of operations on one key: the replies, each with the TTL passed to
`cache.Set` if it was called, and the Warp at the end. -/
def runAll (w : Warp T) (k : Key) :
    List (Env × KeyOp T) → List (Warp.Reply T × Option Duration) × Warp T
  | [] => ([], w)
  | (env, op) :: rest =>
    let (reply, w') := op.run w env k
    let (log, w'') := runAll w' k rest
    ((reply, (op.write w env k).map CacheWrite.ttl) :: log, w'')

theorem runAll_withFlags (hshort : reg.ShortHitComplete)
    (hw : Terms k reg w) (trace hist : Bool) (steps : List (Env × KeyOp T)) :
    runAll (w.withFlags trace hist) k steps =
      (runAll w k steps).map id (Warp.withFlags · trace hist) := by
  induction steps generalizing w with
  | nil => rfl
  | cons step rest ih =>
    obtain ⟨env, op⟩ := step
    obtain ⟨reg', hreg', hopts, hstrategy⟩ := hw
    have hshort' : reg'.ShortHitComplete := by
      rw [Registration.ShortHitComplete, hopts, hstrategy]
      exact hshort
    have hnext := (stable_terms env k reg).keyOp ⟨reg', hreg', hopts, hstrategy⟩ op
    simp only [runAll, run_withFlags hshort' hreg', write_withFlags hshort' hreg', Prod.map,
      id, ih hnext]

end KeyOp

/-- A run shows the same replies and TTLs, and leaves the same cache and the
same registration, with tracing or metrics as without. -/
def Unobserved (w : Warp T) (k : Key) (steps : List (Env × KeyOp T)) (trace hist : Bool) : Prop :=
  let plain := KeyOp.runAll (w.withFlags false false) k steps
  let observed := KeyOp.runAll (w.withFlags trace hist) k steps
  observed.1 = plain.1 ∧ observed.2.cache = plain.2.cache ∧
    (observed.2.regs k).map Registration.currentTTL = (plain.2.regs k).map Registration.currentTTL ∧
    (observed.2.regs k).map Registration.lastAccess = (plain.2.regs k).map Registration.lastAccess

/-- A Warp without a store that caches a value under every key. -/
def cachedWarp [Inhabited T] (reg : Registration) : Warp T :=
  { Warp.uniform reg with cache := fun _ => some ⟨Value.written default 0, none⟩ }

theorem lastAccess_get_observed [Inhabited T] {reg : Registration} {k : Key}
    (hfreq : 0 < reg.ttlOpts.freqThreshold) (now : Instant) :
    ((((cachedWarp reg : Warp T).withFlags true false).get
      (Env.still now) k).2.regs k).map Registration.lastAccess = some now := by
  have hplain : ((cachedWarp reg : Warp T).withFlags true false).plainHit reg = false := by
    rw [← Bool.not_eq_true, Warp.plainHit_eq_true_iff]
    rintro ⟨_, _, _, _, h, _⟩
    cases h
  have hget : ((cachedWarp reg : Warp T).withFlags true false).get (Env.still now) k =
      ((cachedWarp reg : Warp T).withFlags true false).getHit (Env.still now) k
        reg (.written default 0) := rfl
  rw [hget, Warp.getHit, hplain, if_neg Bool.false_ne_true]
  dsimp only
  rw [if_neg (fun h => h.2 rfl), Warp.slide, if_pos (.inr hfreq),
    Warp.regs_eager, Warp.regs_cacheSet, Warp.regs_touch_self _ _ rfl]
  rfl

/-- Tracing and metrics change nothing for a key, in any run of operations on
it, exactly if the short hit path is closed to it or it has no frequency
threshold. -/
theorem unobserved_iff [Inhabited T] (k : Key) (reg : Registration) :
    (∀ w : Warp T, w.regs k = some reg → ∀ (steps : List (Env × KeyOp T)) (trace hist : Bool),
        Unobserved w k steps trace hist) ↔
      reg.ShortHitComplete := by
  constructor
  · intro h
    by_contra hshort
    simp only [Registration.ShortHitComplete, not_or, not_not, not_le, Bool.not_eq_true] at hshort
    obtain ⟨hsliding, heager, hgrace, hstrategy, hfreq⟩ := hshort
    have hplain : (cachedWarp reg : Warp T).plainHit reg = true :=
      Warp.plainHit_eq_true_iff.mpr ⟨hsliding, heager, hgrace, hstrategy, rfl, rfl⟩
    -- one hit, at another time than the last access
    have hsame := (h (cachedWarp reg) rfl [(Env.still (reg.lastAccess + 1), .get)] true false).2.2.2
    have hunobserved : (((cachedWarp reg : Warp T).get
        (Env.still (reg.lastAccess + 1)) k).2.regs k).map
          Registration.lastAccess = some reg.lastAccess := by
      change (((cachedWarp reg : Warp T).getHit _ k reg (.written default 0)).2.regs k).map _ = _
      rw [Warp.getHit, if_pos hplain]
      rfl
    have hne := (lastAccess_get_observed (T := T) (k := k) hfreq
      (reg.lastAccess + 1)).symm.trans (hsame.trans hunobserved)
    rw [Option.some.injEq] at hne
    exact absurd hne (by simp)
  · intro hshort w hreg steps trace hist
    have hrun := fun trace hist => KeyOp.runAll_withFlags hshort (w := w)
      ⟨reg, hreg, rfl, rfl⟩ trace hist steps
    rw [Unobserved, hrun trace hist, hrun false false]
    exact ⟨rfl, rfl, rfl, rfl⟩

/-- A key whose TTL of 60 grows by 10 when it is read again within 100. -/
def dynamicReg : Registration :=
  ⟨60, false, { TTLOptions.zero with freqThreshold := 100, increment := 10 },
    .strongLocal, 60, 0, 1⟩

/-- A hit extends the TTL of the key when metrics are on, and does nothing when
they are off. -/
theorem observed_dynamicReg :
    (((KeyOp.runAll ((cachedWarp dynamicReg : Warp ℕ).withFlags false false)
        "k" [(Env.still 50, .get)]).2.regs "k").map Registration.currentTTL = some 60) ∧
      (((KeyOp.runAll ((cachedWarp dynamicReg : Warp ℕ).withFlags false true)
        "k" [(Env.still 50, .get)]).2.regs "k").map Registration.currentTTL = some 70) ∧
      ¬Unobserved (cachedWarp dynamicReg : Warp ℕ) "k" [(Env.still 50, .get)]
        false true := by
  refine ⟨by decide, by decide, ?_⟩
  intro h
  exact absurd h.2.2.1 (by decide)

end GoWarp.Core
