import GoWarp.Core.AnyCommit
import GoWarp.Core.Versioned

/-!
# Cache resiliency

`WithCacheResiliency` wraps the cache of a Warp.  The wrapper passes on the
calls of `cache.Cache`, and for a cache that never returns an error it changes
none of them.  But it does not have the `GetAt` of a versioned cache, so that
`Warp.GetAt`, which looks for that call on the cache it has been given, finds
nothing.

A run without such a `GetAt` is the same with and without the wrapper.
-/

namespace GoWarp.Core

open Support Support.Program

variable {ω σ T : Type}

namespace WarpOver

variable [DecidableEq T]

/-- The operation does not ask a versioned cache for the past value of a
registered key. -/
def AsksNoVersion (c : AnyCache ω (Value T) σ) (w : WarpOver σ T) : WarpOp ω T → Prop
  | .getAt k _ => c.getAt = none ∨ w.regs k = none
  | _ => True

theorem perform_resilient {c : AnyCache ω (Value T) σ}
    (hfaultless : c.Faultless) {w : WarpOver σ T} {op : WarpOp ω T}
    (hop : w.AsksNoVersion c op) (world : World ω) :
    w.perform c.resilient world op = w.perform c world op := by
  have hops : c.resilient.toCacheOps = c.toCacheOps := hfaultless.resilient_eq
  cases op with
  | getAt k t =>
    rw [perform, perform, getAt, getAt]
    rcases hop with hnone | hreg
    · rw [hnone]
      rfl
    · rw [hreg]
  | register k reg => rfl
  | set k value | get k | getOrSet k loader | invalidate k
  | warmup keys nodup | commit txn order | task started fetched => rw [perform, hops, perform]

/-- For every cache that never returns an error, a run in which no `GetAt` asks
a versioned cache about a registered key ends in the same state and returns the
same answers with the resilient wrapper as without it. -/
theorem resilient_transparent {c : AnyCache ω (Value T) σ}
    (hfaultless : c.Faultless) {w : WarpOver σ T}
    {as : List (World ω × WarpOp ω T)}
    (hops : (machine c).AllSteps (fun w a => w.AsksNoVersion c a.2) w as) :
    (machine c.resilient).run w as = (machine c).run w as ∧
      (machine c.resilient).emitted (answer c.resilient) w as =
        (machine c).emitted (answer c) w as := by
  refine (machine c).run_congr (answer c) (machine c.resilient)
    (answer c.resilient) (P := fun w a => w.AsksNoVersion c a.2) ?_ hops
  rintro w ⟨world, op⟩ hop
  have heq := perform_resilient hfaultless hop world
  constructor
  · rw [machine, machine, heq]
  · rw [answer, answer, heq]

/-! ## Examples -/

def threeVersions : AnyCache (BaseWorld Unit) (Value ℕ)
    (VersionedCache (Key → Option (VersionedValue ℕ))) :=
  VersionedCache.cache keepingOps 3 0

theorem faultless_threeVersions : threeVersions.Faultless :=
  VersionedCache.faultless_cache faultless_keepingOps 3 0

/-- A key is registered and set, and then read. -/
def setAndGet : List (World (BaseWorld Unit) × WarpOp (BaseWorld Unit) ℕ) :=
  [(calm 1, .register "k" (Registration.new .strongLocal 0 TTLOptions.zero)),
    (calm 2, .set "k" 7), (calm 3, .get "k")]

theorem resilient_transparent_setAndGet :
    (machine threeVersions.resilient).emitted (answer threeVersions.resilient) bare setAndGet =
      [.registered true, .status none, .reply (Warp.Reply.found 7)] := by
  have hops : (machine threeVersions).AllSteps
      (fun w a => w.AsksNoVersion threeVersions a.2) bare setAndGet :=
    ⟨trivial, fun _ _ => ⟨trivial, fun _ _ => ⟨trivial, fun _ _ => trivial⟩⟩⟩
  rw [(resilient_transparent faultless_threeVersions hops).2]
  rfl

/-- A key is registered and set, and then read at the time of the `Set`. -/
def setAndGetAt : List (World (BaseWorld Unit) × WarpOp (BaseWorld Unit) ℕ) :=
  [(calm 1, .register "k" (Registration.new .strongLocal 0 TTLOptions.zero)),
    (calm 2, .set "k" 7), (calm 3, .getAt "k" 2)]

/-- Without the wrapper the value is found, with it not. -/
theorem resilient_hides_versions : threeVersions.Faultless ∧
      (machine threeVersions).emitted (answer threeVersions) bare
        setAndGetAt =
        [.registered true, .status none, .reply (Warp.Reply.found 7)] ∧
      (machine threeVersions.resilient).emitted (answer threeVersions.resilient) bare setAndGetAt =
        [.registered true, .status none, .reply (Warp.Reply.failed .notFound)] :=
  ⟨faultless_threeVersions, rfl, rfl⟩

end WarpOver

end GoWarp.Core
