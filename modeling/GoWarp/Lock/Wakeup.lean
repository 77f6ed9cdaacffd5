import GoWarp.Lock.Exclusion

/-!
# Waking up the waiters of a lock

`Acquire` subscribes to unlock events before it looks at the table, so that no
release between the two can be missed.  The table, however, is emptied by the
unlock listener of the instance, which receives the same event in its own time.
An `Acquire` that is woken by a release, subscribes again and finds the entry
that the listener has yet to remove waits for an event that has been published
already.

Where no context ends, an `Acquire` does not sleep through a release if it
finds the lock taken only while no unlock event is on its way to the listener
of its instance, or while one is on its way to the `Acquire` itself as well.
-/

namespace GoWarp.Lock

open Support
open SyncBus (Bus Call Channel System)

variable (key : Key)

/-- An unlock event is on its way to the listener of an instance. -/
def Alerted (net : System) (node : Node) : Prop :=
  node.unlockHand = true ∨ ∃ ch, node.unlockCh = some ch ∧ net.OnWay (unlockTopic key) ch

/-! ## Channels -/

namespace Cluster

/-- Whose channels are whose: a listener keeps its subscription, and no two
goroutines and no goroutine and listener share a channel. -/
structure Linked (s : Cluster) : Prop where
  sound : s.net.Sound
  marked : s.net.Marked
  subscribed : Subscribed key s.net s.threads
  unlockCh : ∀ n ch, (s.nodes n).unlockCh = some ch → ch ∈ s.net.bus.subs (unlockTopic key)
  lockCh : ∀ n ch, (s.nodes n).lockCh = some ch →
    ch < s.net.bus.nextChan ∧ (s.net.bus.chans ch).topic = lockTopic key
  apart : ∀ t thread ch, s.threads t = some thread →
    thread.channel = some ch → ∀ n, (s.nodes n).unlockCh ≠ some ch
  distinct : ∀ t u thread thread' ch, s.threads t = some thread →
    s.threads u = some thread' → thread.channel = some ch →
    thread'.channel = some ch → t = u

variable {key} {s s' : Cluster}

theorem linked_new : new.Linked key where
  sound := System.sound_new
  marked := by rintro _ _ ⟨⟩
  subscribed := by rintro _ _ ⟨⟩
  unlockCh := by rintro _ _ ⟨⟩
  lockCh := by rintro _ _ ⟨⟩
  apart := by rintro _ _ _ ⟨⟩
  distinct := by rintro _ _ _ _ _ ⟨⟩

theorem Linked.net (h : s.Linked key) {a : SyncBus.Action}
    {net : System} (hstep : System.step s.net a = some net)
    (ha : ∀ n ch, (s.nodes n).unlockCh = some ch → a ≠ .unsubscribe (unlockTopic key) ch) :
    ({ s with net := net } : Cluster).Linked key where
  sound := h.sound.step hstep
  marked := h.marked.step hstep
  subscribed := h.subscribed.step hstep
  unlockCh n ch hch := System.mem_subs_of_step h.sound hstep (h.unlockCh n ch hch) (ha n ch hch)
  lockCh n ch hch := by
    obtain ⟨hlt, htopic⟩ := h.lockCh n ch hch
    obtain ⟨hlt', htopic'⟩ := System.topic_of_step hstep hlt
    exact ⟨hlt', htopic'.trans htopic⟩
  apart := h.apart
  distinct := h.distinct

variable {thread : Thread}

theorem Linked.setThread (h : s.Linked key) (t : ℕ) (hch : ∀ ch, thread.channel = some ch →
      (ch < s.net.bus.nextChan ∧ (s.net.bus.chans ch).topic = unlockTopic key) ∧
      (∀ n, (s.nodes n).unlockCh ≠ some ch) ∧
      ∀ u thread', s.threads u = some thread' → thread'.channel = some ch → u = t) :
    (s.setThread t thread).Linked key := by
  refine ⟨h.sound, h.marked, ?_, h.unlockCh, h.lockCh, ?_, ?_⟩
  · exact h.subscribed.setThread t fun ch hc => (hch ch hc).1
  · intro u thread' ch hu hc
    rcases Entries.update_cases hu with ⟨-, rfl⟩ | ⟨-, hu⟩
    · exact (hch ch hc).2.1
    · exact h.apart u thread' ch hu hc
  · intro u v thread' thread'' ch hu hv hc hc'
    rcases Entries.update_cases hu with ⟨rfl, rfl⟩ | ⟨-, hu'⟩
    · rcases Entries.update_cases hv with ⟨rfl, -⟩ | ⟨-, hv'⟩
      · rfl
      · exact ((hch ch hc).2.2 v thread'' hv' hc').symm
    · rcases Entries.update_cases hv with ⟨rfl, rfl⟩ | ⟨-, hv'⟩
      · exact (hch ch hc').2.2 u thread' hu' hc
      · exact h.distinct u v thread' thread'' ch hu' hv' hc hc'

variable {t : ℕ}

theorem Linked.goto (h : s.Linked key) (ht : s.threads t = some thread) (place : Place) :
    (s.goto t thread place).Linked key :=
  h.setThread t fun ch hch => ⟨h.subscribed t thread ht ch hch, h.apart t thread ch ht hch,
    fun u thread' hu hc => h.distinct u t thread' thread ch hu ht hc hch⟩

variable {ch : ℕ}

section

variable (h : s.Linked key)
include h

theorem Linked.eq_of_goto {u : ℕ} {thread' : Thread} {place : Place}
    (ht : s.threads t = some thread) (hch : thread.channel = some ch)
    (hu : (s.goto t thread place).threads u = some thread') (hch' : thread'.channel = some ch) :
    thread' = { thread with place := place } := by
  rcases Entries.update_cases hu with ⟨-, rfl⟩ | ⟨hut, hu⟩
  · rfl
  · exact absurd (h.distinct u t thread' thread ch hu ht hch' hch) hut

theorem Linked.setChannels {n : ℕ} {node : Node}
    (hlock : ∀ ch, node.lockCh = some ch → ch < s.net.bus.nextChan ∧
      (s.net.bus.chans ch).topic = lockTopic key)
    (hunlock : ∀ ch, node.unlockCh = some ch → ch ∈ s.net.bus.subs (unlockTopic key) ∧
        ∀ t thread, s.threads t = some thread → thread.channel ≠ some ch) :
    (s.setNode n node).Linked key := by
  have hnodes : ∀ m ch, ((s.setNode n node).nodes m).unlockCh = some ch →
      ch ∈ s.net.bus.subs (unlockTopic key) ∧
        ∀ t thread, s.threads t = some thread → thread.channel ≠ some ch := by
    intro m ch hch
    by_cases hm : m = n
    · rw [hm, nodes_setNode_self] at hch
      exact hunlock ch hch
    · rw [nodes_setNode_of_ne s hm] at hch
      exact ⟨h.unlockCh m ch hch, fun t thread ht hc => h.apart t thread ch ht hc m hch⟩
  refine ⟨h.sound, h.marked, h.subscribed, ?_, ?_, ?_, h.distinct⟩
  · exact fun m ch hch => (hnodes m ch hch).1
  · exact (Function.forall_update_iff s.nodes fun _ node' => ∀ ch,
      node'.lockCh = some ch → ch < s.net.bus.nextChan ∧
        (s.net.bus.chans ch).topic = lockTopic key).mpr ⟨hlock, fun m _ => h.lockCh m⟩
  · exact fun t thread ch ht hc m hch => (hnodes m ch hch).2 t thread ht hc

theorem Linked.setNode {n : ℕ} {node : Node} (hlockCh : node.lockCh = (s.nodes n).lockCh)
    (hunlockCh : node.unlockCh = (s.nodes n).unlockCh) :
    (s.setNode n node).Linked key := by
  refine h.setChannels (fun ch hch => ?_) fun ch hch => ?_
  · exact h.lockCh n ch (hlockCh ▸ hch)
  · rw [hunlockCh] at hch
    exact ⟨h.unlockCh n ch hch, fun t thread ht hc => h.apart t thread ch ht hc n hch⟩

theorem Linked.nextChan_new : (∀ t thread, s.threads t = some thread →
      thread.channel ≠ some s.net.bus.nextChan) ∧
    ∀ n, (s.nodes n).unlockCh ≠ some s.net.bus.nextChan := by
  constructor
  · intro t thread ht hch
    exact Nat.lt_irrefl _ (h.subscribed t thread ht _ hch).1
  · intro n hch
    exact h.sound.bus.nextChan_notMem _ (h.unlockCh n _ hch)

theorem Linked.unsubscribe (ht : s.threads t = some thread) (hch : thread.channel = some ch)
    {net : System} (hnet : System.step s.net (.unsubscribe (unlockTopic key) ch) = some net) :
    ({ s with net := net } : Cluster).Linked key := by
  refine h.net hnet fun n c hc heq => ?_
  obtain rfl := (SyncBus.Action.unsubscribe.inj heq).2
  exact h.apart t thread ch ht hch n hc

theorem Linked.onNet {a : SyncBus.Action} {net : System} (hnet : System.step s.net a = some net)
    (ha : ∀ k c, a ≠ .unsubscribe k c) :
    ({ s with net := net } : Cluster).Linked key :=
  h.net hnet fun _ _ _ => ha _ _

theorem Linked.step {a : ClusterAction} (hstep : step key s a = some s') : s'.Linked key := by
  obtain ⟨hthreads, hnodes⟩ := h.nextChan_new
  cases moves_of_step hstep with
  | tryLock t n | acquire t n => exact h.setThread t fun _ hch => by cases hch
  | release t n c l net hholds hl hnet =>
    refine .setThread ?_ t fun _ hch => by cases hch
    exact (h.onNet hnet (by simp)).setNode rfl rfl
  | releaseNothing t n c hholds =>
    refine .setThread ?_ t fun _ hch => by cases hch
    exact h.setNode rfl rfl
  | subscribe t c thread net ht hplace hnet =>
    have hs := h.onNet hnet (by simp)
    cases System.moves_of_step hnet
    refine hs.setThread t fun ch hch => ?_
    cases hch
    refine ⟨?_, hnodes, fun u thread' hu hc => ?_⟩
    · simp [Bus.subscribe, Channel.new]
    · exact absurd hc (hthreads u thread' hu)
  | reserve t c thread l ht hplace hl =>
    exact .goto (h.setNode (by rfl) (by rfl)) ht _
  | ensured t c thread ht hplace | refuse t c thread ht hplace hl
  | published t c c' thread ht hplace | closed t c ch thread ht hplace hch
  | released t c c' thread ht hplace | giveUp t thread place ht =>
    exact h.goto ht _
  | subscribeLock t c thread net ht hplace hnet =>
    have hs := h.onNet hnet (by simp)
    cases System.moves_of_step hnet
    refine .goto (hs.setChannels (fun ch hch => ?_) ?_) ht _
    · cases hch
      simp [Bus.subscribe, Channel.new]
    · exact fun ch hch => ⟨hs.unlockCh _ ch hch,
        fun u thread' hu hc => h.apart u thread' ch hu hc _ hch⟩
  | subscribeUnlock t c thread net ht hplace hnet =>
    have hs := h.onNet hnet (by simp)
    cases System.moves_of_step hnet
    refine .goto (.setChannels hs ?_ fun ch hch => ?_) ht _
    · exact hs.lockCh thread.node
    · cases hch
      exact ⟨by simp [Bus.subscribe], hthreads⟩
  | lock t c thread l net ht hplace hl hnet =>
    have hs := h.onNet hnet (by simp)
    exact .goto (hs.setNode (by rfl) (by rfl)) ht _
  | receive t c ch thread net ht hplace hch hnet =>
    exact (h.onNet hnet (by simp)).goto ht _
  | leave t c ch thread next place net ht hplace hch hnext hnet =>
    exact (h.unsubscribe ht hch hnet).goto ht _
  | unsubscribe t ch thread net ht hch hnet =>
    exact h.unsubscribe ht hch hnet
  | advanceCall c net hnet | abortCall c net hnet | cancelCall c net hnet =>
    exact h.onNet hnet (by simp)
  | receiveLock n ch net hch hnet | receiveUnlock n ch net hch hnet =>
    exact (h.onNet hnet (by simp)).setNode rfl rfl
  | onLock n | onUnlock n hhand => exact h.setNode rfl rfl

end

theorem linked_of_run {steps : List ClusterAction}
    (hrun : Machine.run (Cluster.step key) new steps = some s) :
    s.Linked key :=
  Machine.run_invariant (Cluster.step key) (fun _ _ _ h => h.step) hrun linked_new

/-! ## What is asked of a run -/

variable (key)

/-- All published events have been handled, and no publish is in progress. -/
def Settled (s : Cluster) : Prop :=
  (∀ c call, s.net.calls c = some call → call.phase.Done) ∧
    ∀ n, (s.nodes n).lockHand = false ∧ (s.nodes n).unlockHand = false ∧
      (∀ ch, (s.nodes n).lockCh = some ch → (s.net.bus.chans ch).buffer = none) ∧
      ∀ ch, (s.nodes n).unlockCh = some ch → (s.net.bus.chans ch).buffer = none

/-- An `Acquire` is parked on an open channel without an event, while the
table of its instance has no entry and nothing is left to be handled. -/
def Asleep (s : Cluster) (t : ℕ) : Prop :=
  s.Settled ∧ ∃ thread ch, s.threads t = some thread ∧
    thread.place = .waiting ∧ thread.channel = some ch ∧
    (s.net.bus.chans ch).closed = false ∧
    (s.net.bus.chans ch).buffer = none ∧
    (s.nodes thread.node).locker.locks key = none

/-- Instance `a` holds the lock, both instances have subscribed, and all is
settled. -/
structure Ready (s : Cluster) (a b : ℕ) : Prop where
  other : b ≠ a
  holds : s.Holds a
  subs : ∀ n, n = a ∨ n = b → (s.nodes n).locker.subs key = true ∧
    (s.nodes n).lockCh ≠ none ∧ (s.nodes n).unlockCh ≠ none
  settled : s.Settled
  returned : ∀ t thread, s.threads t = some thread → ∃ result, thread.place = .returned result

/-- Instance `a` calls `Release`, and instance `b` calls `Acquire`. -/
def Scripted (a b : ℕ) : ClusterAction → Prop
  | .tryLock _ _ => False
  | .acquire _ n => n = b
  | .release _ n _ => n = a
  | _ => True

instance (a b : ℕ) (act : ClusterAction) : Decidable (Scripted a b act) := by
  cases act <;> unfold Scripted <;> infer_instance

/-- No context ends, and an `Acquire` that finds the lock taken does so while
no unlock event is on its way to the listener of its instance, or while one is
on its way to the channel of the `Acquire`. -/
def Heedful (s : Cluster) : ClusterAction → Prop
  | .advance t _ => ∀ thread ch, s.threads t = some thread →
      thread.place = .look → thread.channel = some ch →
      (s.nodes thread.node).locker.locks key ≠ none →
      s.net.OnWay (unlockTopic key) ch ∨ ¬Alerted key s.net (s.nodes thread.node)
  | .giveUp _ => False
  | .unsubscribe _ => False
  | .abortCall _ => False
  | .cancelCall _ => False
  | _ => True

/-! ## The invariant -/

/-- A release will be heard through the channel: an unlock event is on its way
to it, or the lock is taken and none is on its way to the listener. -/
def Heard (net : System) (node : Node) (ch : ℕ) : Prop :=
  net.OnWay (unlockTopic key) ch ∨ node.locker.locks key ≠ none ∧ ¬Alerted key net node

/-- The goroutine has a subscription. -/
def Attached : Place → Bool
  | .ensure => true
  | .look => true
  | .publishing _ => true
  | .waiting => true
  | .leaving _ => true
  | _ => false

/-- Goroutines are in `Acquire` of instance `b`, or about to return from
`Release`. -/
def Placed (b : ℕ) (subs : List ℕ) (thread : Thread) : Prop :=
  match thread.place with
  | .returned _ => True
  | .releasing _ => True
  | .subscribeLock => False
  | .subscribeUnlock => False
  | .subscribe => thread.node = b ∧ thread.acquiring = true
  | _ => thread.node = b ∧ thread.acquiring = true ∧
      ∃ ch, thread.channel = some ch ∧ ch ∈ subs

/-- What is known while `a` releases the lock and `b` acquires it: the publish
of the unlock event is alone and not cancelled, and begins when `a` gives up
the lock; a release is heard by every `Acquire` that waits. -/
structure Attentive (a b : ℕ) (s : Cluster) : Prop where
  plain : s.net.Plain (unlockTopic key)
  alone : ∀ c d call other, s.net.calls c = some call →
    s.net.calls d = some other → call.key = unlockTopic key →
    other.key = unlockTopic key → ¬call.phase.Done → ¬other.phase.Done → c = d
  held : (s.nodes a).taken ≠ none → ∀ c call, s.net.calls c = some call →
    call.key = unlockTopic key → call.phase.Done
  subs : (s.nodes b).locker.subs key = true
  placed : ∀ t thread, s.threads t = some thread →
    Placed b (s.net.bus.subs (unlockTopic key)) thread
  heard : ∀ t thread ch, s.threads t = some thread →
    thread.place = .waiting → thread.channel = some ch →
    Heard key s.net (s.nodes b) ch

variable {key} {a b : ℕ}

theorem Placed.attached {subs : List ℕ}
    (h : Placed b subs thread) (hplace : Attached thread.place = true) :
    thread.node = b ∧ thread.acquiring = true ∧ ∃ ch, thread.channel = some ch ∧ ch ∈ subs := by
  rw [Placed] at h
  cases hp : thread.place <;> rw [hp] at h hplace <;>
    first | exact h | cases hplace

theorem Placed.of_attached {subs : List ℕ}
    (hnode : thread.node = b) (hacquiring : thread.acquiring = true)
    (hch : thread.channel = some ch) (hmem : ch ∈ subs)
    (hplace : Attached thread.place = true) : Placed b subs thread := by
  rw [Placed]
  cases hp : thread.place <;> rw [hp] at hplace <;>
    first | exact ⟨hnode, hacquiring, ch, hch, hmem⟩ | cases hplace

theorem Placed.mono {subs subs' : List ℕ} (h : Placed b subs thread)
    (hsubs : ∀ ch, Attached thread.place = true →
      thread.channel = some ch → ch ∈ subs → ch ∈ subs') :
    Placed b subs' thread := by
  by_cases hplace : Attached thread.place = true
  · obtain ⟨hnode, hacquiring, ch, hch, hmem⟩ := h.attached hplace
    exact .of_attached hnode hacquiring hch (hsubs ch hplace hch hmem) hplace
  · rw [Placed] at h ⊢
    cases hp : thread.place <;> rw [hp] at h hplace <;>
      first | exact h | exact absurd rfl hplace

theorem Ready.attentive (h : s.Ready key a b) : s.Attentive key a b where
  plain c call hcall _ hunder := absurd (h.settled.1 c call hcall) hunder
  alone c _ call _ hcall _ _ _ hunder := absurd (h.settled.1 c call hcall) hunder
  held _ c call hcall _ := h.settled.1 c call hcall
  subs := (h.subs b (.inr rfl)).1
  placed t thread ht := by
    obtain ⟨result, hplace⟩ := h.returned t thread ht
    rw [Placed, hplace]
    trivial
  heard t thread ch ht hwaiting := by
    obtain ⟨result, hplace⟩ := h.returned t thread ht
    rw [hwaiting] at hplace
    cases hplace

/-! ## Steps of the bus -/

theorem alerted_of_step {net : System} {node : Node}
    (hs : s.net.Sound) (hplain : s.net.Plain (unlockTopic key))
    (hch : ∀ ch, node.unlockCh = some ch →
      ch ∈ s.net.bus.subs (unlockTopic key)) {act : SyncBus.Action}
    (hact : act.Leaves (unlockTopic key)) (hstep : System.step s.net act = some net)
    (h : Alerted key net node) : Alerted key s.net node := by
  rcases h with hhand | ⟨ch, hnode, hway⟩
  · exact .inl hhand
  · exact .inr ⟨ch, hnode, hway.of_step hs hplain (hch ch hnode) hact hstep⟩

theorem calls_of_step {net net' : System} {topic : String}
    {act : SyncBus.Action} (hact : act.Leaves topic)
    (hstep : System.step net act = some net') {c : ℕ}
    {call : Call} (hcall : net'.calls c = some call) (hkey : call.key = topic) :
    ∃ old, net.calls c = some old ∧ old.key = topic ∧
      old.method = call.method ∧ old.canceled = call.canceled ∧
      (old.phase.Done → call.phase.Done) := by
  have hsame : ∀ old : Call, net.calls c = some old → old = call →
      ∃ old, net.calls c = some old ∧ old.key = topic ∧
        old.method = call.method ∧ old.canceled = call.canceled ∧
        (old.phase.Done → call.phase.Done) := by
    rintro old hold rfl
    exact ⟨old, hold, hkey, rfl, rfl, id⟩
  cases System.moves_of_step hstep with
  | call i method k opts hfresh =>
    rcases Entries.update_cases hcall with ⟨rfl, rfl⟩ | ⟨-, hcall⟩
    · exact absurd hkey hact
    · exact hsame call hcall rfl
  | cancel | abort => exact hact.elim
  | advance i old r hold hturn =>
    rcases Entries.update_cases hcall with ⟨rfl, rfl⟩ | ⟨-, hcall⟩
    · exact ⟨old, hold, hturn.frame.key.symm.trans hkey,
        hturn.frame.method.symm, hturn.canceled.symm,
        fun hdone => absurd hdone hturn.not_done⟩
    · exact hsame call hcall rfl
  | subscribe | unsubscribe | receive => exact hsame call hcall rfl

section

variable (h : s.Attentive key a b)
include h

theorem Attentive.net (hl : s.Linked key) {act : SyncBus.Action} {net : System}
    (hstep : System.step s.net act = some net) (hact : act.Leaves (unlockTopic key))
    (hthreads : ∀ t thread ch, s.threads t = some thread →
      Attached thread.place = true → thread.channel = some ch →
      act ≠ .unsubscribe (unlockTopic key) ch ∧ (thread.place = .waiting → act ≠ .receive ch)) :
    ({ s with net := net } : Cluster).Attentive key a b where
  plain c call hcall hkey hunder := by
    obtain ⟨old, hold, hk, hmethod, hcanceled, hdone⟩ := calls_of_step hact hstep hcall hkey
    rw [← hmethod, ← hcanceled]
    exact h.plain c old hold hk fun hd => hunder (hdone hd)
  alone c d call other hcall hother hkey hkey' hunder hunder' := by
    obtain ⟨old, hold, hk, -, -, hdone⟩ := calls_of_step hact hstep hcall hkey
    obtain ⟨old', hold', hk', -, -, hdone'⟩ := calls_of_step hact hstep hother hkey'
    exact h.alone c d old old' hold hold' hk hk' (fun hd => hunder (hdone hd))
      fun hd => hunder' (hdone' hd)
  held htaken c call hcall hkey := by
    obtain ⟨old, hold, hk, -, -, hdone⟩ := calls_of_step hact hstep hcall hkey
    exact hdone (h.held htaken c old hold hk)
  subs := h.subs
  placed t thread ht := by
    refine (h.placed t thread ht).mono fun ch hplace hch hmem => ?_
    exact System.mem_subs_of_step hl.sound hstep hmem (hthreads t thread ch ht hplace hch).1
  heard t thread ch ht hwaiting hch := by
    have hattached : Attached thread.place = true := by rw [hwaiting]; rfl
    obtain ⟨-, -, ch', hch', hmem⟩ := (h.placed t thread ht).attached hattached
    obtain rfl := Option.mem_unique hch hch'
    obtain ⟨hunsubscribe, hreceive⟩ := hthreads t thread ch ht hattached hch
    rcases h.heard t thread ch ht hwaiting hch with hway | ⟨htaken, hquiet⟩
    · exact .inl (hway.step hl.sound hl.marked h.alone hmem hact
        (hreceive hwaiting) hunsubscribe hstep)
    · refine .inr ⟨htaken, fun halerted => hquiet ?_⟩
      exact alerted_of_step hl.sound h.plain (hl.unlockCh b) hact hstep halerted

/-! ## Steps of goroutines and listeners -/

theorem Attentive.setThread (t : ℕ) (hplaced : Placed b (s.net.bus.subs (unlockTopic key)) thread)
    (hheard : ∀ ch, thread.place = .waiting → thread.channel = some ch →
      Heard key s.net (s.nodes b) ch) :
    (s.setThread t thread).Attentive key a b where
  plain := h.plain
  alone := h.alone
  held := h.held
  subs := h.subs
  placed := Entries.forall_update_iff.mpr ⟨hplaced, fun u thread' _ hu => h.placed u thread' hu⟩
  heard u thread' ch hu hwaiting hch := by
    rcases Entries.update_cases hu with ⟨rfl, rfl⟩ | ⟨-, hu⟩
    · exact hheard ch hwaiting hch
    · exact h.heard u thread' ch hu hwaiting hch

theorem Attentive.goto (ht : s.threads t = some thread) (hbefore : Attached thread.place = true)
    {place : Place} (hafter : Attached place = true) (hwaiting : place ≠ .waiting) :
    (s.goto t thread place).Attentive key a b := by
  obtain ⟨hnode, hacquiring, ch, hch, hmem⟩ := (h.placed t thread ht).attached hbefore
  refine h.setThread t ?_ fun _ hw => absurd hw hwaiting
  exact .of_attached hnode hacquiring hch hmem hafter

theorem Attentive.setNode {n : ℕ} {node : Node}
    (htaken : n = a → node.taken ≠ none → (s.nodes a).taken ≠ none)
    (hsubs : node.locker.subs key = (s.nodes n).locker.subs key)
    (hheard : n = b → ∀ t thread ch, s.threads t = some thread →
      thread.place = .waiting → thread.channel = some ch → Heard key s.net node ch) :
    (s.setNode n node).Attentive key a b where
  plain := h.plain
  alone := h.alone
  held := by
    intro hne
    refine h.held ?_
    by_cases ha : a = n
    · subst ha
      rw [nodes_setNode_self] at hne
      exact htaken rfl hne
    · rwa [nodes_setNode_of_ne s ha] at hne
  subs := by
    rw [apply_nodes_setNode (fun node => node.locker.subs key) hsubs]
    exact h.subs
  placed := h.placed
  heard t thread ch ht hwaiting hch := by
    by_cases hb : b = n
    · subst hb
      rw [nodes_setNode_self]
      exact hheard rfl t thread ch ht hwaiting hch
    · rw [nodes_setNode_of_ne s hb]
      exact h.heard t thread ch ht hwaiting hch

theorem Attentive.callUnlock (htaken : (s.nodes a).taken = none)
    (hdone : ∀ c call, s.net.calls c = some call →
      call.key = unlockTopic key → call.phase.Done) (c : ℕ) :
    ({ s with net := s.net.put c (s.net.bus, Call.new s.net.bus .publish (unlockTopic key) []) } :
      Cluster).Attentive key a b where
  plain := System.forall_calls_put_iff.mpr ⟨fun _ _ => ⟨rfl, rfl⟩,
    fun d call _ hcall => h.plain d call hcall⟩
  alone := by
    -- the only call under way is the new one
    have hnew : ∀ d call, (s.net.put c (s.net.bus, Call.new s.net.bus
        .publish (unlockTopic key) [])).calls d = some call →
        call.key = unlockTopic key → ¬call.phase.Done → d = c := by
      intro d call hcall hkey hunder
      by_contra hd
      rw [System.calls_put_of_ne s.net hd] at hcall
      exact hunder (hdone d call hcall hkey)
    intro d d' call call' hcall hcall' hkey hkey' hunder hunder'
    rw [hnew d call hcall hkey hunder, hnew d' call' hcall' hkey' hunder']
  held hne := absurd htaken hne
  subs := h.subs
  placed := h.placed
  heard t thread ch ht hwaiting hch := by
    obtain ⟨-, -, ch', hch', hmem⟩ := (h.placed t thread ht).attached (by rw [hwaiting]; rfl)
    obtain rfl := Option.mem_unique hch hch'
    exact .inl (System.onWay_call c [] hmem)

theorem Attentive.setReleased (hab : b ≠ a) {l : InMemory} (hl : l.subs = (s.nodes a).locker.subs) :
    (s.setNode a { s.nodes a with locker := l, taken := none }).Attentive
      key a b := by
  refine h.setNode (fun _ hne => absurd rfl hne) (congrFun hl key) ?_
  exact fun heq => absurd heq.symm hab

theorem Attentive.release (hab : b ≠ a) {c : ℕ} {l : InMemory} {net : System} (hholds : s.Holds a)
    (hl : (s.nodes a).locker.release key = some l)
    (hnet : System.step s.net (.call c .publish (unlockTopic key) []) = some net) :
    ((({ s with net := net } : Cluster).setNode a
      { s.nodes a with locker := l, taken := none }).setThread t
        ⟨a, false, none, .releasing c⟩).Attentive key a b := by
  have hdone := h.held (taken_of_holds hholds)
  have hsubs : l.subs = (s.nodes a).locker.subs := by
    obtain ⟨-, rfl⟩ := InMemory.release_eq_some hl
    rfl
  cases System.moves_of_step hnet
  have hcall := (h.setReleased hab hsubs).callUnlock
    (congrArg Node.taken (nodes_setNode_self s a _)) hdone c
  refine hcall.setThread t ?_ fun ch hw => by cases hw
  trivial

theorem Attentive.lock (hl : s.Linked key) (hab : b ≠ a) {c : ℕ} {l : InMemory}
    {net : System} (ht : s.threads t = some thread) (hplace : thread.place = .look)
    (htry : (s.nodes thread.node).locker.tryLock key none = some l)
    (hnet : System.step s.net (.call c .publish (lockTopic key) []) = some net) :
    ((({ s with net := net } : Cluster).setNode thread.node
      { s.nodes thread.node with locker := l, taken := some c }).goto t
        thread (.publishing c)).Attentive key a b := by
  have hattached : Attached thread.place = true := by rw [hplace]; rfl
  obtain ⟨hnode, -⟩ := (h.placed t thread ht).attached hattached
  rw [hnode] at htry ⊢
  have hentry : l.locks key ≠ none ∧ l.subs = (s.nodes b).locker.subs := by
    obtain ⟨-, rfl⟩ := InMemory.tryLock_eq_some htry
    exact ⟨by simp, rfl⟩
  have hnet' := h.net hl hnet (lockTopic_ne_unlockTopic key key)
    fun _ _ _ _ _ _ => ⟨by simp, fun _ => by simp⟩
  -- the table has an entry now
  have hheld : (({ s with net := net } : Cluster).setNode b
      { s.nodes b with locker := l, taken := some c }).Attentive key a b := by
    refine hnet'.setNode (fun heq => absurd heq hab)
      (congrFun hentry.2 key) fun _ u thread' ch' hu hw hch' => ?_
    refine (hnet'.heard u thread' ch' hu hw hch').imp_right ?_
    exact fun hquiet => ⟨hentry.1, hquiet.2⟩
  exact hheld.goto ht hattached rfl (by simp)

theorem Attentive.refuse {c : ℕ} (ht : s.threads t = some thread) (hplace : thread.place = .look)
    (htry : (s.nodes thread.node).locker.tryLock key none = none)
    (hheed : s.Heedful key (.advance t c)) :
    (s.goto t thread (if thread.acquiring then .waiting
      else .returned .refused)).Attentive key a b := by
  obtain ⟨hnode, hacquiring, ch, hch, hmem⟩ := (h.placed t thread ht).attached (by rw [hplace]; rfl)
  have htaken : (s.nodes thread.node).locker.locks key ≠ none := by
    intro hfree
    rw [InMemory.tryLock, hfree] at htry
    cases htry
  have hlook := hheed thread ch ht hplace hch htaken
  rw [hnode] at htaken hlook
  rw [if_pos hacquiring]
  refine h.setThread t ?_ fun ch' _ hch' => ?_
  · exact .of_attached hnode hacquiring hch hmem rfl
  · obtain rfl := Option.mem_unique hch hch'
    exact hlook.imp_right fun hquiet => ⟨htaken, hquiet⟩

theorem Attentive.wake (ht : s.threads t = some thread) (hplace : thread.place = .waiting) :
    (s.goto t thread (.leaving none)).Attentive key a b :=
  h.goto ht (by rw [hplace]; rfl) rfl (by simp)

theorem Attentive.receive (hl : s.Linked key) {net : System}
    (ht : s.threads t = some thread) (hplace : thread.place = .waiting)
    (hch : thread.channel = some ch) (hnet : System.step s.net (.receive ch) = some net) :
    (({ s with net := net } : Cluster).goto t thread (.leaving none)).Attentive key a b := by
  refine (h.wake ht hplace).net (hl.goto ht _) hnet trivial ?_
  intro u thread' ch' hu _ hch'
  refine ⟨by simp, fun hw heq => ?_⟩
  obtain rfl := SyncBus.Action.receive.inj heq
  obtain rfl := hl.eq_of_goto ht hch hu hch'
  cases hw

theorem Attentive.leave (hl : s.Linked key) (ht : s.threads t = some thread)
    (hattached : Attached thread.place = true) (hch : thread.channel = some ch) {place : Place}
    (hplace : place = .subscribe ∨ ∃ result, place = .returned result)
    {net : System} (hnet : System.step s.net (.unsubscribe (unlockTopic key) ch) = some net) :
    ({ s.goto t thread place with net := net } : Cluster).Attentive key a b := by
  obtain ⟨hnode, hacquiring, -⟩ := (h.placed t thread ht).attached hattached
  have hdetached : Attached place = false := by rcases hplace with rfl | ⟨result, rfl⟩ <;> rfl
  have hgoto : (s.goto t thread place).Attentive key a b := by
    refine h.setThread t ?_ fun _ hw => ?_
    · rcases hplace with rfl | ⟨result, rfl⟩
      · exact ⟨hnode, hacquiring⟩
      · trivial
    · rw [show place = .waiting from hw] at hdetached
      cases hdetached
  refine hgoto.net (hl.goto ht place) hnet trivial ?_
  intro u thread' ch' hu hattached' hch'
  refine ⟨fun heq => ?_, fun _ => by simp⟩
  obtain ⟨-, rfl⟩ := SyncBus.Action.unsubscribe.inj heq
  obtain rfl := hl.eq_of_goto ht hch hu hch'
  exact absurd (hattached'.symm.trans hdetached) (by simp)

end

theorem locks_onLock {l : InMemory} (h : l.locks key ≠ none) : (l.onLock key).locks key ≠ none := by
  obtain ⟨st, hst⟩ := Option.ne_none_iff_exists'.mp h
  rw [InMemory.onLock]
  split
  · exact h
  · rw [hst]
    exact h

theorem subs_onLock (l : InMemory) : (l.onLock key).subs = l.subs := by
  rw [InMemory.onLock]
  split
  · rfl
  · cases l.locks key <;> rfl

theorem subs_onUnlock (l : InMemory) : (l.onUnlock key).subs = l.subs := by
  rw [InMemory.onUnlock]
  split <;> rfl

section

variable (h : s.Attentive key a b)
include h

variable {n : ℕ}

theorem Attentive.receiveLock (hl : s.Linked key)
    {net : System} (hch : (s.nodes n).lockCh = some ch)
    (hnet : System.step s.net (.receive ch) = some net) :
    (({ s with net := net } : Cluster).setNode n
      { s.nodes n with lockHand := true }).Attentive key a b := by
  have hnet' := h.net hl hnet trivial fun t thread c ht _ hc => by
    refine ⟨by simp, fun _ heq => ?_⟩
    -- the channel of a goroutine is not one of a lock listener
    obtain rfl := SyncBus.Action.receive.inj heq
    have htopic := (hl.lockCh n ch hch).2
    rw [(hl.subscribed t thread ht ch hc).2] at htopic
    exact lockTopic_ne_unlockTopic key key htopic.symm
  refine hnet'.setNode (fun heq hne => ?_) rfl fun heq => ?_
  · subst heq
    exact hne
  · subst heq
    exact hnet'.heard

theorem Attentive.onLock {hand : Bool} : (s.setNode n { s.nodes n with
      locker := (s.nodes n).locker.onLock key
      lockHand := hand }).Attentive key a b := by
  refine h.setNode (fun heq hne => ?_) (congrFun (subs_onLock _) key)
    fun heq t thread ch ht hw hch => ?_
  · subst heq
    exact hne
  · subst heq
    refine (h.heard t thread ch ht hw hch).imp_right ?_
    rintro ⟨htaken, hquiet⟩
    exact ⟨locks_onLock htaken, hquiet⟩

theorem Attentive.setAlerted {node : Node} (halerted : Alerted key s.net (s.nodes n))
    (htaken : node.taken = (s.nodes n).taken) (hsubs : node.locker.subs = (s.nodes n).locker.subs) :
    (s.setNode n node).Attentive key a b := by
  refine h.setNode (fun heq hne => ?_) (congrFun hsubs key) fun heq t thread ch ht hw hch => ?_
  · subst heq
    rwa [htaken] at hne
  · subst heq
    rcases h.heard t thread ch ht hw hch with hway | ⟨-, hquiet⟩
    · exact .inl hway
    · exact absurd halerted hquiet

theorem Attentive.receiveUnlock (hl : s.Linked key)
    {net : System} (hch : (s.nodes n).unlockCh = some ch)
    (hnet : System.step s.net (.receive ch) = some net) :
    (({ s with net := net } : Cluster).setNode n
      { s.nodes n with unlockHand := true }).Attentive key a b := by
  have hbuffer : (s.net.bus.chans ch).buffer.isSome := by
    cases System.moves_of_step hnet with
    | receive _ q hq =>
      obtain ⟨event, hevent, -⟩ := Option.map_eq_some_iff.mp hq
      rw [hevent]
      rfl
  -- the event is in the hand of the listener when it leaves the channel
  have hhand : (s.setNode n { s.nodes n with unlockHand := true }).Attentive
      key a b :=
    h.setAlerted (.inr ⟨ch, hch, .inl hbuffer⟩) (by rfl) (by rfl)
  refine hhand.net (hl.setNode rfl rfl) hnet trivial ?_
  intro t thread c ht _ hc
  refine ⟨by simp, fun _ heq => ?_⟩
  obtain rfl := SyncBus.Action.receive.inj heq
  exact hl.apart t thread ch ht hc n hch

theorem Attentive.step (hl : s.Linked key)
    (hab : b ≠ a) {act : ClusterAction} (hscript : Scripted a b act)
    (hheed : s.Heedful key act) (hstep : step key s act = some s') :
    s'.Attentive key a b := by
  cases moves_of_step hstep with
  | tryLock t n => exact hscript.elim
  | giveUp t thread place ht | unsubscribe t ch thread net ht hch hnet
  | abortCall c net hnet | cancelCall c net hnet => exact hheed.elim
  | acquire t n => exact h.setThread t ⟨hscript, rfl⟩ fun _ hw => by cases hw
  | release t n c l net hholds hrelease hnet =>
    obtain rfl : n = a := hscript
    exact h.release hab hholds hrelease hnet
  | releaseNothing t n c hholds =>
    obtain rfl : n = a := hscript
    refine (h.setReleased hab rfl).setThread t ?_ fun ch hw => by cases hw
    trivial
  | subscribe t c thread net ht hplace hnet =>
    have hplaced := h.placed t thread ht
    rw [Placed, hplace] at hplaced
    have hnet' := h.net hl hnet trivial fun _ _ _ _ _ _ => ⟨by simp, fun _ => by simp⟩
    cases System.moves_of_step hnet
    refine hnet'.setThread t ?_ fun _ hw => by cases hw
    refine .of_attached hplaced.1 hplaced.2 rfl ?_ rfl
    simp [Bus.subscribe]
  | reserve t c thread l ht hplace hreserve =>
    -- the instance has subscribed
    obtain ⟨hnode, -⟩ := (h.placed t thread ht).attached (by rw [hplace]; rfl)
    rw [hnode, InMemory.reserve, if_pos h.subs] at hreserve
    cases hreserve
  | ensured t c thread ht hplace =>
    exact h.goto ht (by rw [hplace]; rfl) rfl (by simp)
  | subscribeLock t c thread net ht hplace hnet
  | subscribeUnlock t c thread net ht hplace hnet =>
    have hplaced := h.placed t thread ht
    rw [Placed, hplace] at hplaced
    exact hplaced.elim
  | lock t c thread l net ht hplace htry hnet =>
    exact h.lock hl hab ht hplace htry hnet
  | refuse t c thread ht hplace htry => exact h.refuse ht hplace htry hheed
  | published t c c' thread ht hplace =>
    have hattached : Attached thread.place = true := by rw [hplace]; rfl
    obtain ⟨-, hacquiring, -⟩ := (h.placed t thread ht).attached hattached
    rw [if_pos hacquiring]
    exact h.goto ht hattached rfl (by simp)
  | closed t c ch thread ht hplace hch => exact h.wake ht hplace
  | receive t c ch thread net ht hplace hch hnet =>
    exact h.receive hl ht hplace hch hnet
  | leave t c ch thread next place net ht hplace hch hnext hnet =>
    exact h.leave hl ht (by rw [hplace]; rfl) hch hnext hnet
  | released t c c' thread ht hplace =>
    exact h.setThread t trivial fun _ hw => by cases hw
  | advanceCall c net hnet =>
    exact h.net hl hnet trivial fun _ _ _ _ _ _ => ⟨by simp, fun _ => by simp⟩
  | receiveLock n ch net hch hnet => exact h.receiveLock hl hch hnet
  | onLock n => exact h.onLock
  | receiveUnlock n ch net hch hnet => exact h.receiveUnlock hl hch hnet
  | onUnlock n hhand => exact h.setAlerted (.inl hhand) rfl (subs_onUnlock _)

/-! ## Runs -/

theorem Attentive.not_asleep (t : ℕ) : ¬s.Asleep key t := by
  rintro ⟨hsettled, thread, ch, ht, hwaiting, hch, -, hempty, hfree⟩
  obtain ⟨hnode, -⟩ := (h.placed t thread ht).attached (by rw [hwaiting]; rfl)
  rw [hnode] at hfree
  rcases h.heard t thread ch ht hwaiting hch with hway | ⟨htaken, -⟩
  · rcases hway with hbuffered | ⟨c, call, hcall, -, hreach⟩
    · rw [hempty] at hbuffered
      cases hbuffered
    · exact hreach.not_done (hsettled.1 c call hcall)
  · exact htaken hfree

end

/-- In every run in which `a`, which holds the lock, releases it while `b`
acquires it, no `Acquire` sleeps through the release, if no context ends and
every `Acquire` that finds the lock taken is heedful. -/
theorem not_asleep_of_heedful {pre steps : List ClusterAction} {s₀ s : Cluster}
    (hpre : Machine.run (Cluster.step key) new pre = some s₀)
    (hready : s₀.Ready key a b)
    (hrun : Machine.run (Cluster.step key) s₀ steps = some s)
    (hscript : ∀ act ∈ steps, Scripted a b act)
    (hheed : Machine.AllSteps (Cluster.step key) (Heedful key) s₀ steps)
    (t : ℕ) : ¬s.Asleep key t := by
  have hsteps := Machine.AllSteps.and ((Cluster.step key).allSteps_of_forall hscript s₀) hheed
  have h : s.Linked key ∧ s.Attentive key a b := by
    refine Machine.run_invariant_of_allSteps (Cluster.step key)
      (I := fun s => s.Linked key ∧ s.Attentive key a b) ?_ hrun hsteps
      ⟨linked_of_run hpre, hready.attentive⟩
    rintro s act s' ⟨hl, h⟩ ⟨hscript, hheed⟩ hstep
    exact ⟨hl.step hstep, h.step hl hready.other hscript hheed hstep⟩
  exact h.2.not_asleep t

/-- Both instances have subscribed, and the first one holds the lock. -/
def taking : List ClusterAction := bothSubscribed ++ [.advance 0 0, .receiveLock 0, .onLock 0]

/-- The second instance waits, is woken by the release of the first one, and
looks at its table before its listener does. -/
def overtaking : List ClusterAction :=
  [.acquire 2 1, .advance 2 0, .advance 2 0, .advance 2 0, .release 3 0 1,
    .advanceCall 1, .advanceCall 1, .advanceCall 1, .advanceCall 1,
    .advanceCall 1, .advanceCall 1, .advanceCall 1, .advanceCall 1,
    .advance 3 0, .advance 2 0, .advance 2 0, .advance 2 0, .advance 2 0,
    .advance 2 0, .receiveUnlock 1, .onUnlock 1, .receiveUnlock 0, .onUnlock 0]

variable {s₀ : Cluster}

theorem ready_taking (hs₀ : Machine.run (Cluster.step "k") new taking = some s₀) :
    s₀.Ready "k" 0 1 := by
  cases hs₀
  refine ⟨by decide, ?_, ?_, ⟨?_, ?_⟩, ?_⟩
  · decide
  · rintro n (rfl | rfl) <;> exact ⟨rfl, by decide, by decide⟩
  · rintro (_ | c) call hcall
    · cases hcall
      trivial
    · cases hcall
  · rintro (_ | _ | n)
    · refine ⟨rfl, rfl, ?_, ?_⟩ <;> rintro ch ⟨⟩ <;> rfl
    · refine ⟨rfl, rfl, ?_, ?_⟩ <;> rintro ch ⟨⟩ <;> rfl
    · refine ⟨rfl, rfl, ?_, ?_⟩ <;> rintro ch ⟨⟩
  · rintro (_ | _ | t) thread hthread
    · cases hthread
      exact ⟨_, rfl⟩
    · cases hthread
      exact ⟨_, rfl⟩
    · cases hthread

theorem asleep_overtaking (hs₀ : Machine.run (Cluster.step "k") new taking = some s₀)
    (hs : Machine.run (Cluster.step "k") s₀ overtaking = some s) :
    s.Asleep "k" 2 := by
  cases hs₀
  cases hs
  refine ⟨⟨?_, ?_⟩, _, _, rfl, rfl, rfl, rfl, rfl, rfl⟩
  · rintro (_ | _ | c) call hcall
    · cases hcall
      trivial
    · cases hcall
      trivial
    · cases hcall
  · rintro (_ | _ | n)
    · refine ⟨rfl, rfl, ?_, ?_⟩ <;> rintro ch ⟨⟩ <;> rfl
    · refine ⟨rfl, rfl, ?_, ?_⟩ <;> rintro ch ⟨⟩ <;> rfl
    · refine ⟨rfl, rfl, ?_, ?_⟩ <;> rintro ch ⟨⟩

/-- The `Acquire` sleeps through the release. -/
theorem sleeps_through_release : ∃ s₀ s, Machine.run (Cluster.step "k") new taking = some s₀ ∧
      s₀.Ready "k" 0 1 ∧
      Machine.run (Cluster.step "k") s₀ overtaking = some s ∧
      (∀ act ∈ overtaking, Scripted 0 1 act) ∧ s.Asleep "k" 2 :=
  ⟨_, _, rfl, ready_taking rfl, rfl, by decide, asleep_overtaking rfl rfl⟩

/-- The listener of the second instance handles the release before the
`Acquire` looks at the table. -/
def waking : List ClusterAction :=
  [.acquire 2 1, .advance 2 0, .advance 2 0, .advance 2 0, .release 3 0 1,
    .advanceCall 1, .advanceCall 1, .advanceCall 1, .advanceCall 1,
    .advanceCall 1, .advanceCall 1, .advanceCall 1, .advanceCall 1,
    .receiveUnlock 1, .onUnlock 1, .advance 2 0, .advance 2 0, .advance 2 0,
    .advance 2 0, .advance 2 2]

theorem heedful_of_place {key : Key} {c : ℕ}
    (ht : s.threads t = some thread) (hplace : thread.place ≠ .look) :
    s.Heedful key (.advance t c) := by
  intro thread' ch ht' hlook
  obtain rfl := Option.mem_unique ht ht'
  exact absurd hlook hplace

theorem heedful_waking (hs₀ : Machine.run (Cluster.step "k") new taking = some s₀) :
    Machine.AllSteps (Cluster.step "k") (Heedful "k") s₀ waking := by
  cases hs₀
  refine ⟨trivial, ?_⟩
  rintro s ⟨⟩
  iterate 2
    refine ⟨heedful_of_place rfl (by decide), ?_⟩
    rintro s ⟨⟩
  -- the lock is taken, and no unlock event has been published
  refine ⟨?_, ?_⟩
  · rintro thread ch ⟨⟩ - ⟨⟩ -
    refine .inr ?_
    rintro (hhand | ⟨ch, hch, hbuffer | ⟨c, call, hcall, hkey, -⟩⟩)
    · cases hhand
    · cases hch
      cases hbuffer
    · rcases c with _ | c
      · cases hcall
        exact absurd hkey (by decide)
      · cases hcall
  rintro s ⟨⟩
  iterate 11
    refine ⟨trivial, ?_⟩
    rintro s ⟨⟩
  iterate 4
    refine ⟨heedful_of_place rfl (by decide), ?_⟩
    rintro s ⟨⟩
  -- the listener has removed the entry
  refine ⟨?_, fun _ _ => trivial⟩
  rintro thread ch ⟨⟩ - ⟨⟩ hheld
  exact absurd rfl hheld

theorem not_asleep_waking : ∃ s₀ s, Machine.run (Cluster.step "k") new taking = some s₀ ∧
      s₀.Ready "k" 0 1 ∧ Machine.run (Cluster.step "k") s₀ waking = some s ∧
      ¬s.Asleep "k" 2 := by
  have hrun : ((Machine.run (Cluster.step "k") new taking).bind fun s₀ =>
      Machine.run (Cluster.step "k") s₀ waking).isSome := by decide
  obtain ⟨s, hs⟩ := Option.isSome_iff_exists.mp hrun
  obtain ⟨s₀, hs₀, hs⟩ := Option.bind_eq_some_iff.mp hs
  have hready := ready_taking hs₀
  exact ⟨s₀, s, hs₀, hready, hs, not_asleep_of_heedful hs₀ hready hs
    (by decide) (heedful_waking hs₀) 2⟩

end Cluster

end GoWarp.Lock
