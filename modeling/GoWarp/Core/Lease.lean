import GoWarp.Core.Warp
import GoWarp.Support.Transition

/-!
# Leases over a cluster

A node keeps a table of leases, each with the keys attached to it.  A key may
be attached to a lease that was granted on another node: the node then makes a
placeholder for it.  Leases and placeholders are subscribed to revocations on
the bus.

`revoke` looks the lease up in the table of its own node first, and returns
when there is none, before it publishes anything.  A `RevokeLease` therefore
reaches the cluster only from a node that has a lease or a placeholder; issued
elsewhere it changes nothing.
-/

namespace GoWarp.Core

open Support
open Function (update update_of_ne update_self update_apply)

variable {T : Type}

/-- `lease`.  `sub` says whether it is subscribed to revocations. -/
structure Lease where
  keys : List Key
  sub : Bool
deriving DecidableEq

/-- The leases of a node and the cache their keys are in. -/
@[ext] structure LeaseNode (T : Type) where
  leases : String → Option Lease
  cache : Cache T

namespace LeaseNode

/-- Write an entry of the table. -/
def put (node : LeaseNode T) (id : String) (l : Lease) : LeaseNode T :=
  { node with leases := update node.leases id (some l) }

/-- What `Grant` puts into the table; `ok` says whether `SubscribeLease`
succeeded. -/
def grant (node : LeaseNode T) (id : String) (ok : Bool) : LeaseNode T := node.put id ⟨[], ok⟩

def attach (node : LeaseNode T) (id : String) (key : Key) (ok : Bool) :
    LeaseNode T :=
  let l := (node.leases id).getD ⟨[], ok⟩
  node.put id { l with keys := key :: l.keys }

/-- `revoke` up to the publication, with a context that is not done. -/
def revoke (node : LeaseNode T) (id : String) : LeaseNode T :=
  match node.leases id with
  | none => node
  | some l =>
    { leases := update node.leases id none
      cache := l.keys.foldl Cache.invalidate node.cache }

theorem leases_put (node : LeaseNode T) (id : String) (l : Lease) (id' : String) :
    (node.put id l).leases id' =
      if id' = id then some l else node.leases id' :=
  update_apply ..

variable {node : LeaseNode T} {id : String}

theorem revoke_of_none (h : node.leases id = none) : node.revoke id = node := by rw [revoke, h]

theorem revoke_of_some {l : Lease} (h : node.leases id = some l) :
    node.revoke id = ⟨update node.leases id none, l.keys.foldl Cache.invalidate node.cache⟩ := by
  rw [revoke, h]

theorem leases_revoke_self (node : LeaseNode T) (id : String) :
    (node.revoke id).leases id = none := by
  cases h : node.leases id with
  | none => rw [revoke_of_none h, h]
  | some l =>
    rw [revoke_of_some h]
    exact update_self ..

theorem revoke_revoke (node : LeaseNode T) (id : String) :
    (node.revoke id).revoke id = node.revoke id :=
  revoke_of_none (node.leases_revoke_self id)

theorem foldl_invalidate (keys : List Key) (c : Cache T) (k : Key)
    (h : k ∈ keys ∨ c k = none) : keys.foldl Cache.invalidate c k = none := by
  induction keys generalizing c with
  | nil => exact h.resolve_left List.not_mem_nil
  | cons key rest ih =>
    refine ih (c.invalidate key) ?_
    rw [Cache.invalidate]
    by_cases hk : k = key
    · exact .inr (hk ▸ update_self ..)
    · rw [update_of_ne hk]
      exact h.imp_left fun h => (List.mem_cons.mp h).resolve_left hk

theorem cache_revoke {l : Lease} {k : Key} (h : node.leases id = some l) (hk : k ∈ l.keys) :
    (node.revoke id).cache k = none := by
  rw [revoke_of_some h]
  exact foldl_invalidate l.keys node.cache k (.inl hk)

end LeaseNode

/-! ## The cluster -/

/-- The nodes, the nodes that are subscribed to each lease, the revocation
events that have not been delivered, and the lease ids in use. -/
structure LeaseCluster (T : Type) where
  nodes : ℕ → LeaseNode T
  subs : String → List ℕ
  pending : List (ℕ × String)
  used : List String

/-- A call of `GrantLease` that draws the given id, of `AttachKey` or of
`RevokeLease` on a node, or the delivery of an event to a node. -/
inductive LeaseAction where
  | grant (n : ℕ) (id : String) (ttl : Duration) (ok : Bool)
  | attach (n : ℕ) (id : String) (key : Key) (ok : Bool)
  | revoke (n : ℕ) (id : String)
  | deliver (n : ℕ) (id : String)
deriving DecidableEq

namespace LeaseAction

/-- The calls that add to the tables. -/
def isUse : LeaseAction → Bool
  | .grant .. | .attach .. => true
  | .revoke .. | .deliver .. => false

def isDelivery : LeaseAction → Bool
  | .deliver .. => true
  | .grant .. | .attach .. | .revoke .. => false

end LeaseAction

namespace LeaseCluster

/-- No leases; the caches hold anything. -/
def new (caches : ℕ → Cache T) : LeaseCluster T where
  nodes := fun n => ⟨fun _ => none, caches n⟩
  subs := fun _ => []
  pending := []
  used := []

/-- The subscriptions after `SubscribeLease`; `ok` says whether it
succeeded. -/
def subscribed (s : LeaseCluster T) (n : ℕ) (id : String) (ok : Bool) : String → List ℕ :=
  if ok then update s.subs id (s.subs id ++ [n]) else s.subs

/-- `Grant` with an id that nobody has used. -/
def grant (s : LeaseCluster T) (n : ℕ) (id : String) (ttl : Duration)
    (ok : Bool) : Option (LeaseCluster T) :=
  if ttl ≤ 0 then
    some s
  else if id ∈ s.used then
    none
  else
    some { s with
      nodes := update s.nodes n ((s.nodes n).grant id ok)
      subs := s.subscribed n id ok
      used := id :: s.used }

/-- `Attach`: only a placeholder is subscribed. -/
def attach (s : LeaseCluster T) (n : ℕ) (id : String) (key : Key) (ok : Bool) : LeaseCluster T :=
  { s with
    nodes := update s.nodes n ((s.nodes n).attach id key ok)
    subs := match (s.nodes n).leases id with
      | none => s.subscribed n id ok
      | some _ => s.subs
    used := id :: s.used }

/-- `revoke`.  Nothing is published for a lease that is not in the table. -/
def revoke (s : LeaseCluster T) (n : ℕ) (id : String) (publish : Bool) :
    LeaseCluster T :=
  match (s.nodes n).leases id with
  | none => s
  | some l =>
    let rest := if l.sub then (s.subs id).erase n else s.subs id
    { s with
      nodes := update s.nodes n ((s.nodes n).revoke id)
      subs := update s.subs id rest
      pending := if publish then s.pending ++ rest.map fun m => (m, id)
        else s.pending }

def step (s : LeaseCluster T) : LeaseAction → Option (LeaseCluster T)
  | .grant n id ttl ok => s.grant n id ttl ok
  | .attach n id key ok => some (s.attach n id key ok)
  | .revoke n id => some (s.revoke n id true)
  | .deliver n id =>
    if (n, id) ∈ s.pending then
      some ({ s with pending := s.pending.erase (n, id) }.revoke n id false)
    else
      none

def machine (T : Type) : Machine (LeaseCluster T) LeaseAction := step

theorem nodes_revoke (s : LeaseCluster T) (n : ℕ) (id : String) (publish : Bool) (m : ℕ) :
    (s.revoke n id publish).nodes m =
      if m = n then (s.nodes n).revoke id else s.nodes m := by
  rw [revoke]
  cases h : (s.nodes n).leases id with
  | none =>
    by_cases hm : m = n
    · rw [if_pos hm, hm, LeaseNode.revoke_of_none h]
    · rw [if_neg hm]
  | some l => exact update_apply ..

theorem pending_revoke_false (s : LeaseCluster T) (n : ℕ) (id : String) :
    (s.revoke n id false).pending = s.pending := by
  rw [revoke]
  split <;> rfl

/-! ## What the calls leave -/

/-- The tables after a list of calls of `GrantLease` and `AttachKey`: the
subscribers of a lease are the nodes with a subscribed entry, and a key that
was attached is in the entry of its node. -/
structure Known (s : LeaseCluster T) (past : List LeaseAction) : Prop where
  mem_subs : ∀ m id, m ∈ s.subs id ↔ ∃ l, (s.nodes m).leases id = some l ∧ l.sub = true
  mem_keys : ∀ m id key ok, LeaseAction.attach m id key ok ∈ past →
    ∃ l, (s.nodes m).leases id = some l ∧ key ∈ l.keys
  mem_used : ∀ m id l, (s.nodes m).leases id = some l → id ∈ s.used
  pending_eq : s.pending = []

theorem known_new (caches : ℕ → Cache T) : (new caches).Known [] where
  mem_subs := fun _ _ => ⟨fun h => absurd h List.not_mem_nil,
    fun ⟨_, h, _⟩ => absurd h.symm (Option.some_ne_none _)⟩
  mem_keys := fun _ _ _ _ h => absurd h List.not_mem_nil
  mem_used := fun _ _ _ h => absurd h.symm (Option.some_ne_none _)
  pending_eq := rfl

variable {s s' : LeaseCluster T} {past : List LeaseAction} {id : String}

variable {n : ℕ} {start : LeaseCluster T}

theorem Known.put {a : LeaseAction} {l : Lease} (h : s.Known past)
    (hleases : ∀ m id', (s'.nodes m).leases id' =
      if m = n ∧ id' = id then some l else (s.nodes m).leases id')
    (hsubs : ∀ m id', m ∈ s'.subs id' ↔ m ∈ s.subs id' ∨ (m = n ∧ id' = id) ∧ l.sub = true)
    (hold : ∀ old, (s.nodes n).leases id = some old →
      (old.sub = true → l.sub = true) ∧ old.keys ⊆ l.keys)
    (ha : ∀ m id' key ok, a = .attach m id' key ok → (m = n ∧ id' = id) ∧ key ∈ l.keys)
    (hused : s'.used = id :: s.used) (hpending : s'.pending = s.pending) :
    s'.Known (a :: past) where
  mem_subs := by
    intro m id'
    rw [hsubs, h.mem_subs, hleases]
    by_cases hat : m = n ∧ id' = id
    · obtain ⟨rfl, rfl⟩ := hat
      rw [if_pos ⟨rfl, rfl⟩]
      constructor
      · rintro (⟨old, hentry, hsub⟩ | ⟨-, hsub⟩)
        · exact ⟨l, rfl, (hold old hentry).1 hsub⟩
        · exact ⟨l, rfl, hsub⟩
      · rintro ⟨_, ⟨⟩, hsub⟩
        exact .inr ⟨⟨rfl, rfl⟩, hsub⟩
    · rw [if_neg hat]
      exact or_iff_left fun hnew => hat hnew.1
  mem_keys := by
    intro m id' key ok hmem
    rw [hleases]
    rcases List.mem_cons.mp hmem with hnew | hpast
    · obtain ⟨hat, hkey⟩ := ha m id' key ok hnew.symm
      exact ⟨l, if_pos hat, hkey⟩
    · obtain ⟨old, hentry, hkey⟩ := h.mem_keys m id' key ok hpast
      by_cases hat : m = n ∧ id' = id
      · obtain ⟨rfl, rfl⟩ := hat
        exact ⟨l, if_pos ⟨rfl, rfl⟩, (hold old hentry).2 hkey⟩
      · exact ⟨old, (if_neg hat).trans hentry, hkey⟩
  mem_used := by
    intro m id' l' hentry
    rw [hused]
    rw [hleases] at hentry
    by_cases hat : m = n ∧ id' = id
    · exact hat.2 ▸ List.mem_cons_self
    · rw [if_neg hat] at hentry
      exact List.mem_cons_of_mem id (h.mem_used m id' l' hentry)
  pending_eq := hpending.trans h.pending_eq

theorem mem_subscribed (s : LeaseCluster T) (n : ℕ) (id : String)
    (ok : Bool) (m : ℕ) (id' : String) :
    m ∈ s.subscribed n id ok id' ↔ m ∈ s.subs id' ∨ (m = n ∧ id' = id) ∧ ok = true := by
  rw [subscribed]
  cases ok with
  | false => exact (or_iff_left fun h => Bool.false_ne_true h.2).symm
  | true =>
    rw [if_pos rfl]
    by_cases hid : id' = id
    · subst hid
      simp
    · simp [hid]

theorem leases_update_put (nodes : ℕ → LeaseNode T) (n : ℕ) (id : String)
    (l : Lease) (m : ℕ) (id' : String) :
    (update nodes n ((nodes n).put id l) m).leases id' =
      if m = n ∧ id' = id then some l else (nodes m).leases id' := by
  by_cases hm : m = n
  · subst hm
    simp [LeaseNode.leases_put]
  · simp [hm]

theorem Known.grant {ttl : Duration} {ok : Bool} (h : s.Known past)
    (hs' : s.grant n id ttl ok = some s') :
    s'.Known (.grant n id ttl ok :: past) := by
  rw [LeaseCluster.grant] at hs'
  split at hs'
  · cases hs'
    refine ⟨h.mem_subs, fun m id' key ok' hmem => ?_, h.mem_used, h.pending_eq⟩
    exact h.mem_keys m id' key ok' ((List.mem_cons.mp hmem).resolve_left (by rintro ⟨⟩))
  · split at hs'
    · cases hs'
    next hid =>
      cases hs'
      refine h.put (l := ⟨[], ok⟩) (leases_update_put s.nodes n id _)
        (s.mem_subscribed n id ok) ?_ ?_ rfl rfl
      · intro old hentry
        exact absurd (h.mem_used n id old hentry) hid
      · rintro _ _ _ _ ⟨⟩

theorem Known.attach (h : s.Known past) (n : ℕ) (id : String) (key : Key) (ok : Bool) :
    (s.attach n id key ok).Known (.attach n id key ok :: past) := by
  refine h.put (leases_update_put s.nodes n id _) ?_ ?_ ?_ rfl rfl
  · intro m id'
    rw [LeaseCluster.attach]
    cases hentry : (s.nodes n).leases id with
    | none => exact s.mem_subscribed n id ok m id'
    | some l =>
      -- the node is subscribed already if the lease is
      refine (or_iff_left_of_imp fun hnew => ?_).symm
      obtain ⟨⟨rfl, rfl⟩, hsub⟩ := hnew
      exact (h.mem_subs m id').mpr ⟨l, hentry, hsub⟩
  · intro old hentry
    rw [hentry]
    exact ⟨fun hsub => hsub, List.subset_cons_self key old.keys⟩
  · rintro _ _ _ _ ⟨⟩
    exact ⟨⟨rfl, rfl⟩, List.mem_cons_self⟩

theorem known_of_run {caches : ℕ → Cache T} {as : List LeaseAction}
    (huses : ∀ a ∈ as, a.isUse = true) (hrun : (machine T).run (new caches) as = some s) :
    s.Known as.reverse := by
  have h := (machine T).run_foldl (fun past a => a :: past)
    (R := fun s past => (∀ a ∈ past, a.isUse = true) → s.Known past) ?_ hrun
    fun _ => known_new caches
  · rw [List.foldl_flip_cons_eq_append', List.append_nil] at h
    exact h fun a ha => huses a (List.mem_reverse.mp ha)
  · intro s past a s' hs hstep hall
    obtain ⟨ha, hpast⟩ := List.forall_mem_cons.mp hall
    cases a with
    | grant n id ttl ok => exact (hs hpast).grant hstep
    | attach n id key ok =>
      cases hstep
      exact (hs hpast).attach n id key ok
    | revoke n id => cases ha
    | deliver n id => cases ha

/-! ## Delivery -/

/-- How the deliveries of one revocation change a state: the nodes whose event
has been delivered have revoked the lease, the others are as they were. -/
def Spread (start : LeaseCluster T) (id : String) (s : LeaseCluster T) :
    Prop :=
  s.pending ⊆ start.pending ∧ ∀ m,
    ((m, id) ∈ start.pending ∧ s.nodes m = (start.nodes m).revoke id) ∨ s.nodes m = start.nodes m ∧
        ((m, id) ∈ start.pending → (m, id) ∈ s.pending)

theorem Spread.deliver (hstart : ∀ e ∈ start.pending, e.2 = id) (h : Spread start id s)
    {id' : String} (hs' : s.step (.deliver n id') = some s') :
    Spread start id s' := by
  rw [step] at hs'
  split at hs'
  next hmem =>
    cases hs'
    obtain rfl : id' = id := hstart _ (h.1 hmem)
    refine ⟨?_, fun m => ?_⟩
    · rw [pending_revoke_false]
      exact fun e he => h.1 (List.mem_of_mem_erase he)
    · rw [nodes_revoke, pending_revoke_false]
      by_cases hm : m = n
      · subst hm
        rw [if_pos rfl]
        refine .inl ⟨h.1 hmem, ?_⟩
        rcases h.2 m with ⟨-, hrevoked⟩ | ⟨hsame, -⟩
        · exact hrevoked.symm ▸ LeaseNode.revoke_revoke ..
        · exact hsame.symm ▸ rfl
      · rw [if_neg hm]
        refine (h.2 m).imp_right fun ⟨hsame, hpending⟩ => ⟨hsame, fun hm' => ?_⟩
        exact (List.mem_erase_of_ne fun he => hm (Prod.mk.inj he).1).mpr (hpending hm')
  · cases hs'

theorem nodes_of_deliveries {ds : List LeaseAction} (hstart : ∀ e ∈ start.pending, e.2 = id)
    (hds : ∀ a ∈ ds, a.isDelivery = true)
    (hrun : (machine T).run start ds = some s') (hdone : s'.pending = []) (m : ℕ) :
    s'.nodes m = if (m, id) ∈ start.pending then (start.nodes m).revoke id
      else start.nodes m := by
  have h : Spread start id s' := by
    refine (machine T).run_invariant_of_allSteps (P := fun _ a => a.isDelivery = true) ?_ hrun
      ((machine T).allSteps_of_forall hds start)
      ⟨.refl _, fun m => .inr ⟨rfl, fun hm => hm⟩⟩
    intro s a s' hs ha hstep
    cases a with
    | deliver n id' => exact hs.deliver hstart hstep
    | grant n id' ttl ok => cases ha
    | attach n id' key ok => cases ha
    | revoke n id' => cases ha
  rcases h.2 m with ⟨hmem, hrevoked⟩ | ⟨hsame, hpending⟩
  · rw [if_pos hmem, hrevoked]
  · rw [if_neg fun hm => List.not_mem_nil (hdone ▸ hpending hm), hsame]

/-! ## Revocation -/

/-- The lease is in no table, and what was attached to it is in no cache. -/
def Revoked (s : LeaseCluster T) (past : List LeaseAction) (id : String) :
    Prop :=
  (∀ m, (s.nodes m).leases id = none) ∧ ∀ m key ok,
    LeaseAction.attach m id key ok ∈ past → (s.nodes m).cache key = none

/-- A `RevokeLease` reaches every entry: either there is none, or the issuing
node has one and the other nodes that have one are subscribed. -/
def Reaches (s : LeaseCluster T) (n : ℕ) (id : String) : Prop :=
  (∀ m, (s.nodes m).leases id = none) ∨ (s.nodes n).leases id ≠ none ∧ ∀ m l, m ≠ n →
      (s.nodes m).leases id = some l → l.sub = true

theorem mem_pending_revoke {l : Lease} (hpending : s.pending = [])
    (hentry : (s.nodes n).leases id = some l) (e : ℕ × String) :
    e ∈ (s.revoke n id true).pending ↔
      e.2 = id ∧ e.1 ∈ if l.sub then (s.subs id).erase n else s.subs id := by
  rw [revoke, hentry, hpending]
  refine List.mem_map.trans ⟨?_, fun ⟨hid, hmem⟩ => ⟨e.1, hmem, ?_⟩⟩
  · rintro ⟨m, hmem, rfl⟩
    exact ⟨rfl, hmem⟩
  · rw [← hid]

theorem mem_rest_of_ne {subs : List ℕ} {m n : ℕ} (hm : m ≠ n) (sub : Bool) :
    m ∈ (if sub then subs.erase n else subs) ↔ m ∈ subs := by
  split
  · exact List.mem_erase_of_ne hm
  · exact .rfl

theorem nodes_of_revocation (h : s.Known past) {ds : List LeaseAction}
    (hds : ∀ a ∈ ds, a.isDelivery = true) (hrun : (machine T).run s (.revoke n id :: ds) = some s')
    (hdone : s'.pending = []) (m : ℕ) :
    s'.nodes m =
      if (s.nodes n).leases id ≠ none ∧ (m = n ∨ m ∈ s.subs id) then
        (s.nodes m).revoke id
      else s.nodes m := by
  obtain ⟨start, hstart, hrest⟩ := (machine T).run_cons.mp hrun
  obtain rfl : s.revoke n id true = start := Option.some.inj hstart
  cases hentry : (s.nodes n).leases id with
  | none =>
    rw [revoke, hentry] at hrest
    rw [if_neg fun hcond => hcond.1 rfl]
    have hempty : ∀ e, e ∉ s.pending := by
      rw [h.pending_eq]
      exact fun e => List.not_mem_nil
    rw [nodes_of_deliveries (fun e he => absurd he (hempty e)) hds hrest hdone,
      if_neg (hempty (m, id))]
  | some l =>
    have hids : ∀ e ∈ (s.revoke n id true).pending, e.2 = id :=
      fun e he => ((mem_pending_revoke h.pending_eq hentry e).mp he).1
    rw [nodes_of_deliveries hids hds hrest hdone, nodes_revoke]
    by_cases hm : m = n
    · subst hm
      rw [if_pos rfl, LeaseNode.revoke_revoke, ite_self,
        if_pos ⟨Option.some_ne_none l, .inl rfl⟩]
    · rw [if_neg hm]
      refine if_congr ?_ rfl rfl
      rw [mem_pending_revoke h.pending_eq hentry, mem_rest_of_ne hm]
      simp [hm]

/-- Once all events have been delivered, a revocation has removed every entry
and every attached key exactly if it reached every entry. -/
theorem revoked_iff_reaches (caches : ℕ → Cache T) {as ds : List LeaseAction}
    {s s' : LeaseCluster T} {n : ℕ} {id : String}
    (huses : ∀ a ∈ as, a.isUse = true)
    (hds : ∀ a ∈ ds, a.isDelivery = true)
    (hrun : (machine T).run (new caches) as = some s)
    (hrun' : (machine T).run s (.revoke n id :: ds) = some s')
    (hdone : s'.pending = []) :
    s'.Revoked as id ↔ s.Reaches n id := by
  have hknown := known_of_run huses hrun
  have hnodes := nodes_of_revocation hknown hds hrun' hdone
  constructor
  · intro h
    by_cases hentry : (s.nodes n).leases id = none
    · refine .inl fun m => ?_
      have hm := h.1 m
      rwa [hnodes, if_neg fun hcond => hcond.1 hentry] at hm
    · refine .inr ⟨hentry, fun m l hm hl => ?_⟩
      by_contra hsub
      have hout : m ∉ s.subs id := fun hmem => by
        obtain ⟨l', hl', hsub'⟩ := (hknown.mem_subs m id).mp hmem
        obtain rfl := Option.mem_unique hl hl'
        exact hsub hsub'
      have hnone := h.1 m
      rw [hnodes, if_neg fun hcond => hcond.2.elim hm hout, hl] at hnone
      cases hnone
  · intro h
    have hrevoked : ∀ m, s'.nodes m = (s.nodes m).revoke id := by
      intro m
      rw [hnodes]
      split
      · rfl
      · rename_i hcond
        refine (LeaseNode.revoke_of_none ?_).symm
        rcases h with hnone | ⟨hentry, hsub⟩
        · exact hnone m
        · by_contra hm
          obtain ⟨l, hl⟩ := Option.ne_none_iff_exists'.mp hm
          refine hcond ⟨hentry, or_iff_not_imp_left.mpr fun hne => ?_⟩
          exact (hknown.mem_subs m id).mpr ⟨l, hl, hsub m l hne hl⟩
    refine ⟨fun m => ?_, fun m key ok hmem => ?_⟩
    · rw [hrevoked, LeaseNode.leases_revoke_self]
    · obtain ⟨l, hl, hkey⟩ :=
        hknown.mem_keys m id key ok (List.mem_reverse.mpr hmem)
      rw [hrevoked, LeaseNode.cache_revoke hl hkey]

/-- Node 0 grants a lease and attaches a key to it, which is in its cache. -/
def grantSteps : List LeaseAction := [.grant 0 "lease" 60 true, .attach 0 "lease" "key" true]

def oneKey : ℕ → Cache ℕ := fun _ => Cache.set (fun _ => none) 0 "key" ⟨7, 0, none, ""⟩ 0

/-- A `RevokeLease` on a node that has no entry of the lease publishes nothing,
and the node that granted it keeps the lease and its key. -/
theorem revoke_elsewhere_keeps : ∃ s s' : LeaseCluster ℕ,
    (machine ℕ).run (new oneKey) grantSteps = some s ∧
      (machine ℕ).run s [.revoke 1 "lease"] = some s' ∧ s'.pending = [] ∧
      (s'.nodes 0).leases "lease" = some ⟨["key"], true⟩ ∧
      (s'.nodes 0).cache "key" ≠ none ∧ ¬ s'.Revoked grantSteps "lease" := by
  refine ⟨_, _, rfl, rfl, rfl, rfl, by decide, fun h => ?_⟩
  exact absurd (h.1 0) (by decide)

/-- Issued on the node that granted the lease, it reaches the placeholder of
another node. -/
theorem revoked_iff_reaches_placeholder : ∃ s s' : LeaseCluster ℕ, (machine ℕ).run (new oneKey)
        (grantSteps ++ [.attach 1 "lease" "key" true]) = some s ∧
      (machine ℕ).run s [.revoke 0 "lease", .deliver 1 "lease"] = some s' ∧
      (s'.Revoked (grantSteps ++ [.attach 1 "lease" "key" true]) "lease" ↔ s.Reaches 0 "lease") :=
  have hds : ∀ a ∈ [LeaseAction.deliver 1 "lease"], a.isDelivery = true := by decide
  ⟨_, _, rfl, rfl, revoked_iff_reaches oneKey (by decide) hds rfl rfl rfl⟩

end LeaseCluster

end GoWarp.Core
