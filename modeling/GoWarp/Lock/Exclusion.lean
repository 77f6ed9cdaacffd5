import GoWarp.Lock.Cluster

/-!
# Mutual exclusion of the lockers on one bus

An instance knows of the lock of another one from its lock event only.  So two
instances hold the lock if the second one looks at its table before the event
of the first one has reached it, or subscribes when it is too late.

The lock is exclusive as long as an instance takes it only after it has
subscribed and while no event of the key is on its way, subscribes only while
no instance has taken the lock and no event is on its way, and the publish of
a lock event is not cancelled.
-/

namespace GoWarp.Lock

open Support
open SyncBus (Bus Call Channel System)
open Function (update update_of_ne update_self forall_update_iff)

variable (key : Key)

/-! ## Events of the key -/

/-- A lock event is on its way to the listener of an instance. -/
def Coming (net : System) (node : Node) : Prop :=
  ∃ ch, node.lockCh = some ch ∧ (node.lockHand = true ∨ net.OnWay (lockTopic key) ch)

/-- No event of a topic is on its way. -/
def QuietTopic (net : System) (nodes : ℕ → Node) (topic : String)
    (channel : Node → Option ℕ) (hand : Node → Bool) : Prop :=
  (∀ c call, net.calls c = some call → call.key = topic → call.phase.Done) ∧
    ∀ n, hand (nodes n) = false ∧ ∀ ch, channel (nodes n) = some ch →
      (net.bus.chans ch).buffer = none

def QuietLock (net : System) (nodes : ℕ → Node) : Prop :=
  QuietTopic net nodes (lockTopic key) Node.lockCh Node.lockHand

def QuietUnlock (net : System) (nodes : ℕ → Node) : Prop :=
  QuietTopic net nodes (unlockTopic key) Node.unlockCh Node.unlockHand

variable {key}

theorem QuietLock.not_coming {net : System} {nodes : ℕ → Node}
    (h : QuietLock key net nodes) (n : ℕ) : ¬Coming key net (nodes n) := by
  rintro ⟨ch, hch, hhand | hbuffer | ⟨c, call, hcall, hkey, hreach⟩⟩
  · rw [(h.2 n).1] at hhand
    cases hhand
  · rw [(h.2 n).2 ch hch] at hbuffer
    cases hbuffer
  · exact hreach.not_done (h.1 c call hcall hkey)

/-! ## The invariant -/

variable (key)

/-- The calls of the bus and the channels of the listeners. -/
structure Wired (net : System) (nodes : ℕ → Node) : Prop where
  sound : net.Sound
  marked : net.Marked
  /-- at most one publish of a lock event is under way -/
  alone : ∀ c c' call call', net.calls c = some call →
    net.calls c' = some call' → call.key = lockTopic key →
    call'.key = lockTopic key → ¬call.phase.Done → ¬call'.phase.Done → c = c'
  lockCh : ∀ n ch, (nodes n).lockCh = some ch → ch ∈ net.bus.subs (lockTopic key)
  distinct : ∀ n m ch, (nodes n).lockCh = some ch → (nodes m).lockCh = some ch → n = m
  unlockCh : ∀ n ch, (nodes n).unlockCh = some ch →
    ch < net.bus.nextChan ∧ (net.bus.chans ch).topic = unlockTopic key

/-- What the instances know.  An instance that waits for its own lock event
has one coming.  While an instance has taken the lock no other one has, every
other instance that has subscribed holds it for taken or will, and no unlock
event is on its way. -/
structure Safe (net : System) (nodes : ℕ → Node) : Prop where
  wired : Wired key net nodes
  small : ∀ n, (nodes n).locker.pending (lockTopic key) ≤ 1
  echo : ∀ n, 0 < (nodes n).locker.pending (lockTopic key) → Coming key net (nodes n)
  exclusive : ∀ n m, (nodes n).taken ≠ none → (nodes m).taken ≠ none → n = m
  knows : ∀ n m, (nodes n).taken ≠ none → m ≠ n → (nodes m).lockCh ≠ none →
    (nodes m).locker.pending (lockTopic key) = 0 ∧
      ((nodes m).locker.locks key ≠ none ∨ Coming key net (nodes m))
  quiet : ∀ n, (nodes n).taken ≠ none → QuietUnlock key net nodes

variable {key} {net net' : System} {nodes : ℕ → Node}

/-! ## Steps of the bus -/

structure Carries (key : Key) (net net' : System) (nodes : ℕ → Node) : Prop where
  wired : Wired key net' nodes
  coming : ∀ n, Coming key net (nodes n) → Coming key net' (nodes n)
  quiet : ∀ n, (nodes n).taken ≠ none → QuietUnlock key net nodes → QuietUnlock key net' nodes

theorem Safe.carries (h : Safe key net nodes)
    (hnet : Carries key net net' nodes) : Safe key net' nodes where
  wired := hnet.wired
  small := h.small
  echo n hn := hnet.coming n (h.echo n hn)
  exclusive := h.exclusive
  knows n m hn hm hch := by
    obtain ⟨hpending, hknows⟩ := h.knows n m hn hm hch
    exact ⟨hpending, hknows.imp_right (hnet.coming m)⟩
  quiet n hn := hnet.quiet n hn (h.quiet n hn)

theorem Coming.mono {node : Node} (hc : Coming key net node)
    (honWay : ∀ ch, node.lockCh = some ch → net.OnWay (lockTopic key) ch →
      net'.OnWay (lockTopic key) ch) : Coming key net' node := by
  obtain ⟨ch, hch, hway⟩ := hc
  exact ⟨ch, hch, hway.imp_right (honWay ch hch)⟩

namespace Wired

section

variable (h : Wired key net nodes)
include h

theorem put {c : ℕ} {call : Call} {r : Bus × Call} (hcall : net.calls c = some call)
    (hsound : (net.put c r).Sound) (hmarked : (net.put c r).Marked)
    (hframe : SyncBus.Frame net.bus c call r) (hdone : call.phase.Done → r.2.phase.Done) :
    Wired key (net.put c r) nodes where
  sound := hsound
  marked := hmarked
  alone := by
    -- a call that is under way was under way before
    have hbefore : ∀ d other, (net.put c r).calls d = some other →
        other.key = lockTopic key → ¬other.phase.Done →
        ∃ old, net.calls d = some old ∧ old.key = lockTopic key ∧ ¬old.phase.Done := by
      intro d other hother hkey hunder
      rcases Entries.update_cases hother with ⟨rfl, rfl⟩ | ⟨-, hother⟩
      · exact ⟨call, hcall, hframe.key.symm.trans hkey, fun h => hunder (hdone h)⟩
      · exact ⟨other, hother, hkey, hunder⟩
    intro d d' other other' hother hother' hkey hkey' hunder hunder'
    obtain ⟨old, hold, hk, hu⟩ := hbefore d other hother hkey hunder
    obtain ⟨old', hold', hk', hu'⟩ := hbefore d' other' hother' hkey' hunder'
    exact h.alone d d' old old' hold hold' hk hk' hu hu'
  lockCh n ch hch := by
    rw [System.bus_put, hframe.subs]
    exact h.lockCh n ch hch
  distinct := h.distinct
  unlockCh n ch hch := by
    rw [System.bus_put, hframe.nextChan, hframe.topic]
    exact h.unlockCh n ch hch

theorem turn {c : ℕ} {call : Call} {r : Bus × Call} (hcall : net.calls c = some call)
    (hturn : SyncBus.Turn net.bus c call r) :
    Carries key net (net.put c r) nodes where
  wired := h.put hcall (h.sound.turn hcall hturn) (h.marked.turn hcall hturn)
    hturn.frame fun hdone => absurd hdone hturn.not_done
  coming n hc := by
    refine hc.mono fun ch _ hway => ?_
    refine hway.turn h.sound hcall hturn fun hkey hphase => ?_
    refine h.marked.pending_eq_none hcall hphase ?_
    intro d other hother hk hunder
    exact h.alone d c other call hother hcall (hk.trans hkey) hkey hunder hturn.not_done
  quiet _ _ hquiet := by
    -- the call that moves is not the publish of an unlock event
    have hkey : call.key ≠ unlockTopic key := fun hk => hturn.not_done (hquiet.1 c call hcall hk)
    constructor
    · refine System.forall_calls_put_iff.mpr ⟨?_, ?_⟩
      · exact fun hk => absurd (hturn.frame.key.symm.trans hk) hkey
      · exact fun d other _ hother hk => hquiet.1 d other hother hk
    · intro n
      refine ⟨(hquiet.2 n).1, fun ch hch => ?_⟩
      rw [System.bus_put, hturn.buffer_of_topic_ne h.sound.bus (h.sound.sends c call hcall)]
      · exact (hquiet.2 n).2 ch hch
      · rw [(h.unlockCh n ch hch).2]
        exact hkey.symm

theorem cancel {c : ℕ} {call : Call} (hcall : net.calls c = some call)
    (hkept : call.key = lockTopic key → call.phase.Done) :
    Carries key net (net.put c (net.bus, { call with canceled := true }))
      nodes := by
  have hstep : System.step net (.cancel c) =
      some (net.put c (net.bus, { call with canceled := true })) := by
    rw [System.step, hcall]
    rfl
  constructor
  · exact h.put hcall (h.sound.step hstep) (h.marked.step hstep) (.of_phase rfl rfl rfl rfl) id
  · intro n hc
    refine hc.mono fun ch _ hway => hway.put rfl id ?_
    intro call' hcall' hkey hreach
    obtain rfl := Option.mem_unique hcall hcall'
    exact absurd (hkept hkey) hreach.not_done
  · intro _ _ hquiet
    refine ⟨System.forall_calls_put_iff.mpr ⟨?_, ?_⟩, hquiet.2⟩
    · exact hquiet.1 c call hcall
    · exact fun d other _ hother hk => hquiet.1 d other hother hk

theorem call {c : ℕ} (hfresh : net.calls c = none) (topic : String) (hdone : topic = lockTopic key →
      ∀ d other, net.calls d = some other → other.key = lockTopic key → other.phase.Done) :
    Wired key (net.put c (net.bus, Call.new net.bus .publish topic []))
      nodes := by
  have hstep : System.step net (.call c .publish topic []) = some (net.put c (net.bus,
        Call.new net.bus .publish topic [])) := by
    rw [System.step, if_pos hfresh]
  constructor
  · exact h.sound.step hstep
  · exact h.marked.step hstep
  · intro d d' call call' hcall hcall' hkey hkey' hunder hunder'
    -- two publishes of lock events under way: both old, or both the new one
    rcases Entries.update_cases hcall with ⟨rfl, rfl⟩ | ⟨-, hold⟩
    · rcases Entries.update_cases hcall' with ⟨rfl, -⟩ | ⟨-, hold'⟩
      · rfl
      · exact absurd (hdone hkey d' call' hold' hkey') hunder'
    · rcases Entries.update_cases hcall' with ⟨rfl, rfl⟩ | ⟨-, hold'⟩
      · exact absurd (hdone hkey' d call hold hkey) hunder
      · exact h.alone d d' call call' hold hold' hkey hkey' hunder hunder'
  · exact h.lockCh
  · exact h.distinct
  · exact h.unlockCh

end

theorem coming_call (c : ℕ) (hfresh : net.calls c = none) (topic : String)
    {node : Node} (hc : Coming key net node) :
    Coming key (net.put c (net.bus, Call.new net.bus .publish topic []))
      node := by
  refine hc.mono fun ch _ hway => hway.put rfl id ?_
  intro call hcall
  exact absurd (hfresh.symm.trans hcall).symm (Option.some_ne_none call)

variable (h : Wired key net nodes)
include h

theorem of_bus {b' : Bus} (hsound : ({ net with bus := b' } : System).Sound)
    (hpending : b'.pending = net.bus.pending)
    (hsubs : ∀ ch ∈ net.bus.subs (lockTopic key), ch ∈ b'.subs (lockTopic key))
    (hold : ∀ ch < net.bus.nextChan, ch < b'.nextChan ∧
      (b'.chans ch).topic = (net.bus.chans ch).topic) :
    Wired key { net with bus := b' } nodes where
  sound := hsound
  marked := h.marked.of_bus hpending
  alone := h.alone
  lockCh n ch hch := hsubs ch (h.lockCh n ch hch)
  distinct := h.distinct
  unlockCh n ch hch := by
    obtain ⟨hlt, htopic⟩ := h.unlockCh n ch hch
    exact ⟨(hold ch hlt).1, (hold ch hlt).2.trans htopic⟩

theorem lockCh_topic {n ch : ℕ} (hch : (nodes n).lockCh = some ch) :
    ch < net.bus.nextChan ∧ (net.bus.chans ch).topic = lockTopic key := by
  obtain ⟨hlt, -, htopic⟩ := h.sound.bus.opened _ ch (h.lockCh n ch hch)
  exact ⟨hlt, htopic⟩

theorem subscribe (hfree : net.bus.readers = []) (topic : String) :
    Carries key net { net with bus := net.bus.subscribe topic } nodes where
  wired := by
    refine h.of_bus (h.sound.of_free hfree (h.sound.bus.subscribe topic)) rfl ?_ ?_
    · intro ch hch
      by_cases hk : lockTopic key = topic
      · simp [Bus.subscribe, hk ▸ hch, hk]
      · simpa [Bus.subscribe, hk] using hch
    · intro ch hlt
      refine ⟨Nat.lt_succ_of_lt hlt, ?_⟩
      simp [Bus.subscribe, Nat.ne_of_lt hlt]
  coming n hc := hc.mono fun ch hch hway =>
    hway.subscribe (Nat.ne_of_lt (h.lockCh_topic hch).1) topic
  quiet _ _ hquiet := by
    refine ⟨hquiet.1, fun n => ⟨(hquiet.2 n).1, fun ch hch => ?_⟩⟩
    have hne := Nat.ne_of_lt (h.unlockCh n ch hch).1
    simpa [Bus.subscribe, hne] using (hquiet.2 n).2 ch hch

theorem unsubscribe (hfree : net.bus.readers = []) (c : ℕ) :
    Carries key net { net with bus := net.bus.unsubscribe (unlockTopic key) c } nodes := by
  constructor
  · refine h.of_bus (h.sound.of_free hfree (h.sound.bus.unsubscribe _ c))
      (net.bus.pending_unsubscribe _ c) ?_ ?_
    · intro ch hch
      refine (h.sound.bus.mem_unsubscribe_iff _ c _ ch).mpr ⟨?_, hch⟩
      exact fun heq => lockTopic_ne_unlockTopic key key (Prod.mk.inj heq).1
    · intro ch hlt
      rw [Bus.nextChan_unsubscribe, Bus.topic_unsubscribe]
      exact ⟨hlt, rfl⟩
  · intro n hc
    exact hc.mono fun ch _ hway => hway.unsubscribe h.sound (lockTopic_ne_unlockTopic key key) c
  · intro _ _ hquiet
    refine ⟨hquiet.1, fun n => ⟨(hquiet.2 n).1, fun ch hch => ?_⟩⟩
    rw [Bus.buffer_unsubscribe]
    exact (hquiet.2 n).2 ch hch

theorem receive {c : ℕ} {q : SyncBus.Event × Bus} (hq : net.bus.receive c = some q)
    (hhand : ∀ n, (nodes n).lockCh = some c → (nodes n).lockHand = true) :
    Carries key net { net with bus := q.2 } nodes := by
  have hstep : System.step net (.receive c) = some { net with bus := q.2 } := by
    rw [System.step, hq]
    rfl
  have hsound := h.sound.step hstep
  constructor
  · obtain ⟨event, -, rfl⟩ := Option.map_eq_some_iff.mp hq
    refine h.of_bus hsound rfl (fun _ hch => hch) fun ch hlt => ⟨hlt, ?_⟩
    by_cases hc : ch = c <;> simp [hc]
  · rintro n ⟨ch, hch, hway⟩
    by_cases hc : ch = c
    · subst hc
      exact ⟨ch, hch, .inl (hhand n hch)⟩
    · exact ⟨ch, hch, hway.imp_right fun hw => hw.receive hc hq⟩
  · intro _ _ hquiet
    refine ⟨hquiet.1, fun n => ⟨(hquiet.2 n).1, fun ch hch => ?_⟩⟩
    obtain ⟨event, -, rfl⟩ := Option.map_eq_some_iff.mp hq
    have hempty := (hquiet.2 n).2 ch hch
    by_cases hc : ch = c
    · simp [hc]
    · simpa [hc] using hempty

end Wired

/-! ## Steps of an instance -/

theorem Wired.setNode (h : Wired key net nodes) {n : ℕ} {node : Node}
    (hlockCh : node.lockCh = (nodes n).lockCh) (hunlockCh : ∀ ch, node.unlockCh = some ch →
      ch < net.bus.nextChan ∧ (net.bus.chans ch).topic = unlockTopic key) :
    Wired key net (update nodes n node) := by
  have hlock := Entries.apply_update Node.lockCh hlockCh
  constructor
  · exact h.sound
  · exact h.marked
  · exact h.alone
  · intro m ch hch
    exact h.lockCh m ch (hlock m ▸ hch)
  · intro m m' ch hch hch'
    exact h.distinct m m' ch (hlock m ▸ hch) (hlock m' ▸ hch')
  · exact (forall_update_iff nodes fun _ node' => ∀ ch,
      node'.unlockCh = some ch → ch < net.bus.nextChan ∧
        (net.bus.chans ch).topic = unlockTopic key).mpr ⟨hunlockCh, fun m _ => h.unlockCh m⟩

theorem Wired.setLockCh (h : Wired key net nodes) (n : ℕ) {ch : ℕ}
    (hmem : ch ∈ net.bus.subs (lockTopic key)) (hnew : ∀ m, (nodes m).lockCh ≠ some ch) :
    Wired key net (update nodes n { nodes n with lockCh := some ch }) := by
  have hcases : ∀ m c, (update nodes n { nodes n with lockCh := some ch } m).lockCh = some c →
      m = n ∧ c = ch ∨ m ≠ n ∧ (nodes m).lockCh = some c :=
    fun _ _ => Entries.apply_update_cases Node.lockCh rfl
  constructor
  · exact h.sound
  · exact h.marked
  · exact h.alone
  · intro m c hm
    rcases hcases m c hm with ⟨-, rfl⟩ | ⟨-, hold⟩
    · exact hmem
    · exact h.lockCh m c hold
  · intro m m' c hm hm'
    rcases hcases m c hm with ⟨rfl, rfl⟩ | ⟨-, hold⟩
    · rcases hcases m' _ hm' with ⟨rfl, -⟩ | ⟨-, hold'⟩
      · rfl
      · exact absurd hold' (hnew m')
    · rcases hcases m' c hm' with ⟨-, rfl⟩ | ⟨-, hold'⟩
      · exact absurd hold (hnew m)
      · exact h.distinct m m' c hold hold'
  · exact (forall_update_iff nodes fun _ node' => ∀ c,
      node'.unlockCh = some c → c < net.bus.nextChan ∧
        (net.bus.chans c).topic = unlockTopic key).mpr ⟨h.unlockCh n, fun m _ => h.unlockCh m⟩

namespace Safe

variable {n : ℕ}

section

variable (h : Safe key net nodes)
include h

theorem setNode {node : Node} (hlockCh : node.lockCh = (nodes n).lockCh)
    (hunlockCh : ∀ ch, node.unlockCh = some ch →
      ch < net.bus.nextChan ∧ (net.bus.chans ch).topic = unlockTopic key)
    (htaken : node.taken = (nodes n).taken) (hsmall : node.locker.pending (lockTopic key) ≤ 1)
    (hecho : 0 < node.locker.pending (lockTopic key) → Coming key net node)
    (hknows : ∀ m, (nodes m).taken ≠ none → n ≠ m → node.lockCh ≠ none →
      node.locker.pending (lockTopic key) = 0 ∧
        (node.locker.locks key ≠ none ∨ Coming key net node))
    (hquiet : ∀ m, (nodes m).taken ≠ none → node.unlockHand = false ∧
      ∀ ch, node.unlockCh = some ch → (net.bus.chans ch).buffer = none) :
    Safe key net (update nodes n node) := by
  have hsame := Entries.apply_update Node.taken htaken
  constructor
  · exact h.wired.setNode hlockCh hunlockCh
  · exact (forall_update_iff nodes fun _ node' =>
      node'.locker.pending (lockTopic key) ≤ 1).mpr ⟨hsmall, fun m _ => h.small m⟩
  · exact (forall_update_iff nodes fun _ node' =>
      0 < node'.locker.pending (lockTopic key) → Coming key net node').mpr
        ⟨hecho, fun m _ => h.echo m⟩
  · intro m m' hm hm'
    exact h.exclusive m m' (hsame m ▸ hm) (hsame m' ▸ hm')
  · intro m m' hm hm' hch
    rw [hsame] at hm
    by_cases hn : m' = n
    · subst hn
      rw [update_self] at hch ⊢
      exact hknows m hm hm' hch
    · rw [update_of_ne hn] at hch ⊢
      exact h.knows m m' hm hm' hch
  · intro m hm
    rw [hsame] at hm
    refine ⟨(h.quiet m hm).1, ?_⟩
    exact (forall_update_iff nodes fun _ node' =>
      node'.unlockHand = false ∧ ∀ ch, node'.unlockCh = some ch →
        (net.bus.chans ch).buffer = none).mpr ⟨hquiet m hm, fun m' _ => (h.quiet m hm).2 m'⟩

theorem setLocker {l : InMemory} (hlocks : l.locks = (nodes n).locker.locks)
    (hpending : l.pending = (nodes n).locker.pending) :
    Safe key net (update nodes n { nodes n with locker := l }) := by
  refine h.setNode rfl (h.wired.unlockCh n) rfl ?_ ?_ ?_ ?_
  · rw [hpending]
    exact h.small n
  · intro hpos
    rw [hpending] at hpos
    exact h.echo n hpos
  · intro m hm hnm hch
    rw [hpending, hlocks]
    exact h.knows m n hm hnm hch
  · exact fun m hm => (h.quiet m hm).2 n

theorem lockHand {ch : ℕ} (hch : (nodes n).lockCh = some ch) : Safe key net
      (update nodes n { nodes n with lockHand := true }) := by
  have hcoming : Coming key net { nodes n with lockHand := true } := ⟨ch, hch, .inl rfl⟩
  refine h.setNode rfl (h.wired.unlockCh n) rfl (h.small n)
    (fun _ => hcoming) ?_ fun m hm => (h.quiet m hm).2 n
  exact fun m hm hnm hne => ⟨(h.knows m n hm hnm hne).1, .inr hcoming⟩

theorem onLock (n : ℕ) : Safe key net (update nodes n { nodes n with
      locker := (nodes n).locker.onLock key
      lockHand := false }) := by
  have hsmall := h.small n
  have hpending : ((nodes n).locker.onLock key).pending (lockTopic key) =
      0 := by
    rw [InMemory.onLock]
    split
    · simp only [update_self]
      omega
    · rename_i hzero
      have hnone : (nodes n).locker.pending (lockTopic key) = 0 := by omega
      split
      · exact hnone
      · exact hnone
  have hlocks : (nodes n).locker.pending (lockTopic key) = 0 →
      ((nodes n).locker.onLock key).locks key ≠ none := by
    intro hzero
    rw [InMemory.onLock, if_neg (by omega)]
    split
    · rename_i st hst
      rw [hst]
      exact Option.some_ne_none st
    · simp
  refine h.setNode rfl (h.wired.unlockCh n) rfl ?_ ?_ ?_ ?_
  · rw [hpending]
    exact Nat.zero_le 1
  · intro hpos
    rw [hpending] at hpos
    cases hpos
  · intro m hm hnm hch
    exact ⟨hpending, .inl (hlocks (h.knows m n hm hnm hch).1)⟩
  · exact fun m hm => (h.quiet m hm).2 n

theorem not_taken_of_unlockHand (hhand : (nodes n).unlockHand = true) (m : ℕ) :
    (nodes m).taken = none := by
  by_contra hm
  rw [((h.quiet m hm).2 n).1] at hhand
  cases hhand

theorem onUnlock (hhand : (nodes n).unlockHand = true) : Safe key net (update nodes n { nodes n with
      locker := (nodes n).locker.onUnlock key
      unlockHand := false }) := by
  have hnone := h.not_taken_of_unlockHand hhand
  have hpending : ((nodes n).locker.onUnlock key).pending (lockTopic key) =
      (nodes n).locker.pending (lockTopic key) := by
    rw [InMemory.onUnlock]
    split
    · simp [lockTopic_ne_unlockTopic]
    · rfl
  refine h.setNode rfl (h.wired.unlockCh n) rfl ?_ ?_ ?_ ?_
  · rw [hpending]
    exact h.small n
  · intro hpos
    rw [hpending] at hpos
    exact h.echo n hpos
  · exact fun m hm => absurd (hnone m) hm
  · exact fun m hm => absurd (hnone m) hm

theorem unlockHand {ch : ℕ} (hch : (nodes n).unlockCh = some ch)
    (hbuffer : (net.bus.chans ch).buffer ≠ none) :
    Safe key net (update nodes n { nodes n with unlockHand := true }) := by
  have hnone : ∀ m, (nodes m).taken = none := by
    intro m
    by_contra hm
    exact hbuffer (((h.quiet m hm).2 n).2 ch hch)
  refine h.setNode rfl (h.wired.unlockCh n) rfl (h.small n) (h.echo n) ?_ ?_
  · exact fun m hm => absurd (hnone m) hm
  · exact fun m hm => absurd (hnone m) hm

end

theorem of_not_taken (hwired : Wired key net nodes)
    (hsmall : ∀ n, (nodes n).locker.pending (lockTopic key) ≤ 1)
    (hecho : ∀ n, 0 < (nodes n).locker.pending (lockTopic key) → Coming key net (nodes n))
    (hnone : ∀ n, (nodes n).taken = none) : Safe key net nodes where
  wired := hwired
  small := hsmall
  echo := hecho
  exclusive n _ hn := absurd (hnone n) hn
  knows n _ hn := absurd (hnone n) hn
  quiet n hn := absurd (hnone n) hn

variable (h : Safe key net nodes)
include h

theorem released {l : InMemory} {node : Node} (hn : (nodes n).taken ≠ none)
    (hpending : l.pending (lockTopic key) = (nodes n).locker.pending (lockTopic key))
    (hnode : node = { nodes n with locker := l, taken := none }) :
    Safe key net (update nodes n node) ∧ ∀ m, (update nodes n node m).taken = none := by
  subst hnode
  have hnone : ∀ m, (update nodes n
      { nodes n with locker := l, taken := none } m).taken = none := by
    intro m
    by_cases hm : m = n
    · rw [hm, update_self]
    · rw [update_of_ne hm]
      by_contra hm'
      exact hm (h.exclusive m n hm' hn)
  refine ⟨of_not_taken ?_ ?_ ?_ hnone, hnone⟩
  · exact h.wired.setNode rfl (h.wired.unlockCh n)
  · refine (forall_update_iff nodes fun _ node' =>
      node'.locker.pending (lockTopic key) ≤ 1).mpr ⟨?_, fun m _ => h.small m⟩
    exact hpending ▸ h.small n
  · refine (forall_update_iff nodes fun _ node' =>
      0 < node'.locker.pending (lockTopic key) → Coming key net node').mpr ⟨?_, fun m _ => h.echo m⟩
    exact fun hpos => h.echo n (hpending ▸ hpos)

theorem callUnlock (hnone : ∀ m, (nodes m).taken = none) {c : ℕ} (hfresh : net.calls c = none) :
    Safe key (net.put c (net.bus, Call.new net.bus .publish (unlockTopic key) [])) nodes := by
  refine h.carries ⟨h.wired.call hfresh _ ?_, ?_, ?_⟩
  · exact fun heq => absurd heq.symm (lockTopic_ne_unlockTopic key key)
  · exact fun n hc => Wired.coming_call c hfresh _ hc
  · exact fun m hm => absurd (hnone m) hm

theorem pending_eq_zero (hquiet : QuietLock key net nodes) (n : ℕ) :
    (nodes n).locker.pending (lockTopic key) = 0 := by
  by_contra hne
  exact hquiet.not_coming n (h.echo n (Nat.pos_of_ne_zero hne))

theorem subscribeLock (hnone : ∀ m, (nodes m).taken = none) (hquiet : QuietLock key net nodes)
    (hfree : net.bus.readers = []) (n : ℕ) :
    Safe key { net with bus := net.bus.subscribe (lockTopic key) } (update nodes n
        { nodes n with lockCh := some net.bus.nextChan }) := by
  have hnet := h.wired.subscribe hfree (lockTopic key)
  have htaken : ∀ m, (update nodes n
      { nodes n with lockCh := some net.bus.nextChan } m).taken = none :=
    (forall_update_iff nodes fun _ node' => node'.taken = none).mpr ⟨hnone n, fun m _ => hnone m⟩
  have hzero : ∀ m, (update nodes n
      { nodes n with lockCh := some net.bus.nextChan } m).locker.pending (lockTopic key) = 0 :=
    (forall_update_iff nodes fun _ node' =>
      node'.locker.pending (lockTopic key) = 0).mpr
        ⟨h.pending_eq_zero hquiet n, fun m _ => h.pending_eq_zero hquiet m⟩
  refine of_not_taken ?_ ?_ ?_ htaken
  · refine hnet.wired.setLockCh n ?_ fun m hm => ?_
    · simp [Bus.subscribe]
    · exact Nat.lt_irrefl _ (h.wired.lockCh_topic hm).1
  · exact fun m => (hzero m).le.trans (Nat.zero_le 1)
  · exact fun m hm => absurd (hzero m) (Nat.pos_iff_ne_zero.mp hm)

theorem subscribeUnlock (hfree : net.bus.readers = []) (n : ℕ) :
    Safe key { net with bus := net.bus.subscribe (unlockTopic key) } (update nodes n
        { nodes n with unlockCh := some net.bus.nextChan }) := by
  have hnet := h.carries (h.wired.subscribe hfree (unlockTopic key))
  refine hnet.setNode rfl ?_ rfl (hnet.small n) (hnet.echo n)
    (fun m hm hnm hch => hnet.knows m n hm hnm hch) ?_
  · intro ch hch
    cases hch
    simp [Bus.subscribe, Channel.new]
  · intro m hm
    refine ⟨((hnet.quiet m hm).2 n).1, fun ch hch => ?_⟩
    cases hch
    simp [Bus.subscribe, Channel.new]

theorem take {c : ℕ} {l : InMemory} (htry : (nodes n).locker.tryLock key none = some l)
    (hfresh : net.calls c = none) (hch : (nodes n).lockCh ≠ none)
    (hquiet : QuietLock key net nodes) (hunlock : QuietUnlock key net nodes) :
    Safe key (net.put c (net.bus, Call.new net.bus .publish (lockTopic key) []))
      (update nodes n { nodes n with locker := l, taken := some c }) := by
  obtain ⟨hfreeLock, rfl⟩ := InMemory.tryLock_eq_some htry
  -- nobody else has taken it, or the table would say so
  have hnone : ∀ m, m ≠ n → (nodes m).taken = none := by
    intro m hm
    by_contra htaken
    rcases (h.knows m n htaken hm.symm hch).2 with hheld | hcoming
    · exact hheld hfreeLock
    · exact hquiet.not_coming n hcoming
  have hzero := h.pending_eq_zero hquiet
  -- the new event is on its way to every listener
  have hcoming : ∀ node : Node, ∀ ch, node.lockCh = some ch → ch ∈ net.bus.subs (lockTopic key) →
      Coming key (net.put c (net.bus, Call.new net.bus .publish (lockTopic key) [])) node :=
    fun node ch hnode hmem => ⟨ch, hnode, .inr (System.onWay_call c [] hmem)⟩
  have honly : ∀ node : Node, ∀ m, (update nodes n node m).taken ≠ none → m = n := by
    intro node m hm
    by_contra hmn
    rw [update_of_ne hmn] at hm
    exact hm (hnone m hmn)
  have hwired := h.wired.call hfresh (lockTopic key) fun _ => hquiet.1
  constructor
  · exact hwired.setNode rfl (hwired.unlockCh n)
  · refine (forall_update_iff nodes fun _ node' =>
      node'.locker.pending (lockTopic key) ≤ 1).mpr ⟨?_, fun m _ => h.small m⟩
    simp [hzero n]
  · refine (forall_update_iff nodes fun _ node' =>
      0 < node'.locker.pending (lockTopic key) → Coming key _ node').mpr
        ⟨fun _ => ?_, fun m _ hpos => ?_⟩
    · obtain ⟨ch, hn⟩ := Option.ne_none_iff_exists'.mp hch
      exact hcoming _ ch hn (h.wired.lockCh n ch hn)
    · exact absurd (hzero m) (Nat.pos_iff_ne_zero.mp hpos)
  · intro m m' hm hm'
    rw [honly _ m hm, honly _ m' hm']
  · intro m m' hm hm' hch'
    obtain rfl := honly _ m hm
    rw [update_of_ne hm'] at hch' ⊢
    obtain ⟨ch, hn⟩ := Option.ne_none_iff_exists'.mp hch'
    exact ⟨hzero m', .inr (hcoming _ ch hn (h.wired.lockCh m' ch hn))⟩
  · intro m _
    constructor
    · refine System.forall_calls_put_iff.mpr ⟨?_, ?_⟩
      · exact fun heq => absurd heq (lockTopic_ne_unlockTopic key key)
      · exact fun d other _ hother hk => hunlock.1 d other hother hk
    · exact (forall_update_iff nodes fun _ node' =>
        node'.unlockHand = false ∧ ∀ ch, node'.unlockCh = some ch →
          (net.bus.chans ch).buffer = none).mpr ⟨hunlock.2 n, fun m' _ => hunlock.2 m'⟩

end Safe

/-! ## Runs -/

namespace Cluster

variable (key)

/-- The condition on a step: an instance takes the lock only after it has
subscribed and while no event is on its way, subscribes to lock events only
while no instance has taken the lock and no lock event is on its way, and the
publish of a lock event is not cancelled. -/
def Orderly (s : Cluster) : ClusterAction → Prop
  | .advance t _ => ∀ thread, s.threads t = some thread →
      (thread.place = .look → (s.nodes thread.node).locker.locks key = none →
          (s.nodes thread.node).lockCh ≠ none ∧
            QuietLock key s.net s.nodes ∧ QuietUnlock key s.net s.nodes) ∧
      (thread.place = .subscribeLock →
        (∀ m, (s.nodes m).taken = none) ∧ QuietLock key s.net s.nodes)
  | .cancelCall c => ∀ call, s.net.calls c = some call →
      call.key = lockTopic key → call.phase.Done
  | _ => True

/-- The subscriptions of the goroutines are to unlock events. -/
def Subscribed (net : System) (threads : ℕ → Option Thread) : Prop :=
  ∀ t thread, threads t = some thread → ∀ ch, thread.channel = some ch →
    ch < net.bus.nextChan ∧ (net.bus.chans ch).topic = unlockTopic key

structure Ordered (s : Cluster) : Prop where
  safe : Safe key s.net s.nodes
  subscribed : Subscribed key s.net s.threads

variable {key} {s s' : Cluster} {threads : ℕ → Option Thread}

theorem Subscribed.setThread (h : Subscribed key net threads) (t : ℕ) {thread : Thread}
    (hch : ∀ ch, thread.channel = some ch →
      ch < net.bus.nextChan ∧ (net.bus.chans ch).topic = unlockTopic key) :
    Subscribed key net (update threads t (some thread)) := by
  exact Entries.forall_update_iff.mpr ⟨hch, fun u thread' _ hu => h u thread' hu⟩

theorem Subscribed.step (h : Subscribed key net threads) {a : SyncBus.Action}
    (hstep : System.step net a = some net') :
    Subscribed key net' threads := by
  intro t thread ht ch hch
  obtain ⟨hlt, htopic⟩ := h t thread ht ch hch
  obtain ⟨hlt', htopic'⟩ := System.topic_of_step hstep hlt
  exact ⟨hlt', htopic'.trans htopic⟩

theorem Ordered.goto (h : s.Ordered key) {t : ℕ} {thread : Thread}
    (ht : s.threads t = some thread) (place : Place) :
    (s.goto t thread place).Ordered key :=
  ⟨h.safe, h.subscribed.setThread t (h.subscribed t thread ht)⟩

theorem taken_of_holds {n : ℕ} (h : s.Holds n) : (s.nodes n).taken ≠ none := by
  intro hnone
  rw [Holds, hnone] at h
  exact h

section

variable (h : s.Ordered key)
include h

theorem Ordered.onNet {a : SyncBus.Action} (hcarries : Carries key s.net net s.nodes)
    (hnet : System.step s.net a = some net) :
    ({ s with net := net } : Cluster).Ordered key :=
  ⟨h.safe.carries hcarries, h.subscribed.step hnet⟩

theorem Ordered.unsubscribe {ch : ℕ} (hnet : System.step s.net (.unsubscribe (unlockTopic key) ch) =
      some net) : ({ s with net := net } : Cluster).Ordered key := by
  refine h.onNet ?_ hnet
  cases System.moves_of_step hnet with
  | unsubscribe _ _ hfree => exact h.safe.wired.unsubscribe hfree ch

theorem Ordered.receive {ch : ℕ} (htopic : (s.net.bus.chans ch).topic = unlockTopic key)
    (hnet : System.step s.net (.receive ch) = some net) :
    ({ s with net := net } : Cluster).Ordered key := by
  refine h.onNet ?_ hnet
  cases System.moves_of_step hnet with
  | receive _ q hq =>
    refine h.safe.wired.receive hq fun n hn => ?_
    rw [(h.safe.wired.lockCh_topic hn).2] at htopic
    exact absurd htopic (lockTopic_ne_unlockTopic key key)

theorem Ordered.release {t n c : ℕ} {l : InMemory}
    (hholds : s.Holds n) (hl : (s.nodes n).locker.release key = some l)
    (hnet : System.step s.net (.call c .publish (unlockTopic key) []) = some net) :
    ((({ s with net := net } : Cluster).setNode n
      { s.nodes n with locker := l, taken := none }).setThread t
        ⟨n, false, none, .releasing c⟩).Ordered key := by
  have hpending : l.pending (lockTopic key) = (s.nodes n).locker.pending (lockTopic key) := by
    obtain ⟨-, rfl⟩ := InMemory.release_eq_some hl
    simp [lockTopic_ne_unlockTopic]
  obtain ⟨hsafe, hnone⟩ := h.safe.released (taken_of_holds hholds) hpending rfl
  constructor
  · cases System.moves_of_step hnet with
    | call _ _ _ _ hfresh => exact hsafe.callUnlock hnone hfresh
  · exact (h.subscribed.step hnet).setThread t fun _ hch => by cases hch

theorem Ordered.receiveLock {n ch : ℕ} (hch : (s.nodes n).lockCh = some ch)
    (hnet : System.step s.net (.receive ch) = some net) :
    (({ s with net := net } : Cluster).setNode n
      { s.nodes n with lockHand := true }).Ordered key := by
  refine ⟨?_, h.subscribed.step hnet⟩
  -- the event is in the hand of the listener when it leaves the channel
  have hhand := h.safe.lockHand hch
  cases System.moves_of_step hnet with
  | receive _ q hq =>
    refine hhand.carries (hhand.wired.receive hq fun m hm => ?_)
    have hmn : m = n := by
      by_contra hmn
      rw [update_of_ne hmn] at hm
      exact hmn (h.safe.wired.distinct m n ch hm hch)
    rw [hmn, update_self]

theorem Ordered.receiveUnlock {n ch : ℕ} (hch : (s.nodes n).unlockCh = some ch)
    (hnet : System.step s.net (.receive ch) = some net) :
    (({ s with net := net } : Cluster).setNode n
      { s.nodes n with unlockHand := true }).Ordered key := by
  have hbuffer : (s.net.bus.chans ch).buffer ≠ none := by
    cases System.moves_of_step hnet with
    | receive _ q hq =>
      intro hnone
      rw [Bus.receive, hnone] at hq
      cases hq
  have hhand : (s.setNode n { s.nodes n with unlockHand := true }).Ordered
      key := ⟨h.safe.unlockHand hch hbuffer, h.subscribed⟩
  exact hhand.receive (h.safe.wired.unlockCh n ch hch).2 hnet

theorem Ordered.step {a : ClusterAction} (ha : s.Orderly key a) (hstep : step key s a = some s') :
    s'.Ordered key := by
  cases moves_of_step hstep with
  | tryLock t n | acquire t n =>
    exact ⟨h.safe, h.subscribed.setThread t fun _ hch => by cases hch⟩
  | release t n c l net hholds hl hnet => exact h.release hholds hl hnet
  | releaseNothing t n c hholds =>
    refine ⟨(h.safe.released (taken_of_holds hholds) rfl rfl).1, ?_⟩
    exact h.subscribed.setThread t fun _ hch => by cases hch
  | subscribe t c thread net ht hplace hnet =>
    have hsub := h.subscribed.step hnet
    cases System.moves_of_step hnet with
    | subscribe _ hfree =>
      refine ⟨h.safe.carries (h.safe.wired.subscribe hfree _), hsub.setThread t fun ch hch => ?_⟩
      cases hch
      simp [Bus.subscribe, Channel.new]
  | reserve t c thread l ht hplace hl =>
    obtain ⟨-, hl⟩ := Option.ite_none_left_eq_some.mp hl
    cases hl
    exact ⟨h.safe.setLocker rfl rfl, h.subscribed.setThread t (h.subscribed t thread ht)⟩
  | ensured t c thread ht hplace | refuse t c thread ht hplace hl
  | published t c c' thread ht hplace | closed t c ch thread ht hplace hch
  | released t c c' thread ht hplace | giveUp t thread place ht =>
    exact h.goto ht _
  | subscribeLock t c thread net ht hplace hnet =>
    obtain ⟨hnone, hquiet⟩ := (ha thread ht).2 hplace
    have hsub := h.subscribed.step hnet
    refine ⟨?_, hsub.setThread t (hsub t thread ht)⟩
    cases System.moves_of_step hnet with
    | subscribe _ hfree => exact h.safe.subscribeLock hnone hquiet hfree _
  | subscribeUnlock t c thread net ht hplace hnet =>
    have hsub := h.subscribed.step hnet
    refine ⟨?_, hsub.setThread t (hsub t thread ht)⟩
    cases System.moves_of_step hnet with
    | subscribe _ hfree => exact h.safe.subscribeUnlock hfree _
  | lock t c thread l net ht hplace hl hnet =>
    obtain ⟨hch, hlock, hunlock⟩ := (ha thread ht).1 hplace (InMemory.tryLock_eq_some hl).1
    have hsub := h.subscribed.step hnet
    refine ⟨?_, hsub.setThread t (hsub t thread ht)⟩
    cases System.moves_of_step hnet with
    | call _ _ _ _ hfresh => exact h.safe.take hl hfresh hch hlock hunlock
  | receive t c ch thread net ht hplace hch hnet =>
    have htopic := (h.subscribed t thread ht ch hch).2
    exact (h.receive htopic hnet).goto ht _
  | leave t c ch thread next place net ht hplace hch hnext hnet =>
    exact (h.unsubscribe hnet).goto ht _
  | unsubscribe t ch thread net ht hch hnet => exact h.unsubscribe hnet
  | advanceCall c net hnet =>
    refine h.onNet ?_ hnet
    cases System.moves_of_step hnet with
    | advance _ call r hcall hturn => exact h.safe.wired.turn hcall hturn
  | abortCall c net hnet =>
    refine h.onNet ?_ hnet
    cases System.moves_of_step hnet with
    | abort _ call rest hcall hphase hcanceled =>
      exact h.safe.wired.turn hcall (.stopped rest hphase hcanceled)
  | cancelCall c net hnet =>
    refine h.onNet ?_ hnet
    cases System.moves_of_step hnet with
    | cancel _ call hcall => exact h.safe.wired.cancel hcall (ha call hcall)
  | receiveLock n ch net hch hnet => exact h.receiveLock hch hnet
  | onLock n => exact ⟨h.safe.onLock n, h.subscribed⟩
  | receiveUnlock n ch net hch hnet => exact h.receiveUnlock hch hnet
  | onUnlock n hhand => exact ⟨h.safe.onUnlock hhand, h.subscribed⟩

end

theorem ordered_new : new.Ordered key := by
  refine ⟨.of_not_taken ⟨System.sound_new, ?_, ?_, ?_, ?_, ?_⟩ ?_ ?_ fun _ => rfl, ?_⟩
  · rintro _ _ ⟨⟩
  · rintro _ _ _ _ ⟨⟩
  · rintro _ _ ⟨⟩
  · rintro _ _ _ ⟨⟩
  · rintro _ _ ⟨⟩
  · exact fun _ => Nat.zero_le 1
  · exact fun _ h => absurd h (Nat.lt_irrefl 0)
  · rintro _ _ ⟨⟩

theorem orderly_of_place {t c : ℕ} {thread : Thread}
    (ht : s.threads t = some thread) (hlook : thread.place ≠ .look)
    (hsubscribe : thread.place ≠ .subscribeLock) :
    s.Orderly key (.advance t c) := by
  intro thread' ht'
  obtain rfl := Option.mem_unique ht ht'
  exact ⟨fun h => absurd h hlook, fun h => absurd h hsubscribe⟩

theorem orderly_subscribeLock {t c n : ℕ} {acquiring : Bool} {channel : Option ℕ}
    (ht : s.threads t = some ⟨n, acquiring, channel, .subscribeLock⟩)
    (htaken : ∀ m, (s.nodes m).taken = none) (hquiet : QuietLock key s.net s.nodes) :
    s.Orderly key (.advance t c) := by
  intro thread ht'
  obtain rfl := Option.mem_unique ht ht'
  exact ⟨by rintro ⟨⟩, fun _ => ⟨htaken, hquiet⟩⟩

theorem orderly_look {t c n : ℕ} {acquiring : Bool} {channel : Option ℕ}
    (ht : s.threads t = some ⟨n, acquiring, channel, .look⟩) (hch : (s.nodes n).lockCh ≠ none)
    (hlock : QuietLock key s.net s.nodes) (hunlock : QuietUnlock key s.net s.nodes) :
    s.Orderly key (.advance t c) := by
  intro thread ht'
  obtain rfl := Option.mem_unique ht ht'
  exact ⟨fun _ _ => ⟨hch, hlock, hunlock⟩, by rintro ⟨⟩⟩

/-- In every run of orderly steps at most one instance holds the lock. -/
theorem exclusive_of_orderly (key : Key) (steps : List ClusterAction)
    (s : Cluster) (hrun : Machine.run (Cluster.step key) new steps = some s)
    (horderly : Machine.AllSteps (Cluster.step key) (Orderly key) new steps)
    (n m : ℕ) (hn : s.Holds n) (hm : m ≠ n) : ¬s.Holds m := by
  have hordered : s.Ordered key :=
    Machine.run_invariant_of_allSteps (Cluster.step key)
      (fun _ _ _ h ha hstep => .step h ha hstep) hrun horderly
      ordered_new
  intro hholds
  exact hm (hordered.safe.exclusive m n (taken_of_holds hholds) (taken_of_holds hn))

/-- The first instance takes the lock, and the second one subscribes and takes
it afterwards. -/
def firstContact : List ClusterAction :=
  [.tryLock 0 0, .advance 0 0, .advance 0 0, .advance 0 0, .advance 0 0,
    .advanceCall 0, .advanceCall 0, .advanceCall 0, .advanceCall 0,
    .advanceCall 0, .advanceCall 0, .advance 0 0, .receiveLock 0, .onLock 0,
    .tryLock 1 1, .advance 1 1, .advance 1 1, .advance 1 1, .advance 1 1,
    .advanceCall 1, .advanceCall 1, .advanceCall 1, .advanceCall 1,
    .advanceCall 1, .advanceCall 1, .advanceCall 1, .advance 1 1]

/-- Both calls of `TryLock` have returned true, one after the other, and both
instances hold the lock. -/
theorem both_hold_firstContact : (Machine.run (Cluster.step "k") new firstContact).map (fun s =>
      ((s.threads 0).map Thread.place, (s.threads 1).map Thread.place)) =
        some (some (.returned .locked), some (.returned .locked)) ∧
      (Machine.run (Cluster.step "k") new firstContact).map (fun s =>
        (decide (s.Holds 0), decide (s.Holds 1))) = some (true, true) := by
  decide

/-- Both instances have subscribed when the first one takes the lock. -/
def bothSubscribed : List ClusterAction :=
  [.tryLock 0 0, .advance 0 0, .advance 0 0, .advance 0 0,
    .tryLock 1 1, .advance 1 1, .advance 1 1, .advance 1 1, .advance 0 0,
    .advanceCall 0, .advanceCall 0, .advanceCall 0, .advanceCall 0,
    .advanceCall 0, .advanceCall 0, .advanceCall 0, .receiveLock 1, .onLock 1,
    .advance 1 1]

theorem orderly_bothSubscribed :
    Machine.AllSteps (Cluster.step "k") (Orderly "k") new bothSubscribed := by
  refine ⟨trivial, ?_⟩
  rintro s ⟨⟩
  refine ⟨orderly_of_place rfl (by decide) (by decide), ?_⟩
  rintro s ⟨⟩
  refine ⟨orderly_subscribeLock rfl ?_ ⟨by rintro _ _ ⟨⟩, ?_⟩, ?_⟩
  · rintro (_ | n) <;> rfl
  · rintro (_ | n) <;> exact ⟨rfl, by rintro _ ⟨⟩⟩
  rintro s ⟨⟩
  refine ⟨orderly_of_place rfl (by decide) (by decide), ?_⟩
  rintro s ⟨⟩
  refine ⟨trivial, ?_⟩
  rintro s ⟨⟩
  refine ⟨orderly_of_place rfl (by decide) (by decide), ?_⟩
  rintro s ⟨⟩
  refine ⟨orderly_subscribeLock rfl ?_ ⟨by rintro _ _ ⟨⟩, ?_⟩, ?_⟩
  · rintro (_ | _ | n) <;> rfl
  · rintro (_ | _ | n) <;> exact ⟨rfl, by rintro _ ⟨⟩ <;> rfl⟩
  rintro s ⟨⟩
  refine ⟨orderly_of_place rfl (by decide) (by decide), ?_⟩
  rintro s ⟨⟩
  -- the first instance takes the lock: nothing has been published yet
  refine ⟨orderly_look rfl (by decide) ⟨by rintro _ _ ⟨⟩, ?_⟩ ⟨by rintro _ _ ⟨⟩, ?_⟩, ?_⟩
  · rintro (_ | _ | n) <;> exact ⟨rfl, by rintro _ ⟨⟩ <;> rfl⟩
  · rintro (_ | _ | n) <;> exact ⟨rfl, by rintro _ ⟨⟩ <;> rfl⟩
  rintro s ⟨⟩
  iterate 9
    refine ⟨trivial, ?_⟩
    rintro s ⟨⟩
  -- the second instance has the lock in its table
  refine ⟨?_, by rintro s ⟨⟩; trivial⟩
  rintro thread ⟨⟩
  exact ⟨fun _ hfree => absurd hfree (by decide), by rintro ⟨⟩⟩

theorem exclusive_of_orderly_bothSubscribed :
    ∃ s, Machine.run (Cluster.step "k") new bothSubscribed = some s ∧ s.Holds 0 ∧ ¬s.Holds 1 := by
  have hrun : (Machine.run (Cluster.step "k") new bothSubscribed).isSome := by decide
  obtain ⟨s, hs⟩ := Option.isSome_iff_exists.mp hrun
  have hholds : (Machine.run (Cluster.step "k") new bothSubscribed).map
      (fun s => decide (s.Holds 0)) = some true := by decide
  rw [hs, Option.map_some] at hholds
  have hzero : s.Holds 0 := of_decide_eq_true (Option.some.inj hholds)
  exact ⟨s, hs, hzero, exclusive_of_orderly "k" bothSubscribed s hs
    orderly_bothSubscribed 0 1 hzero (by decide)⟩

end Cluster

end GoWarp.Lock
