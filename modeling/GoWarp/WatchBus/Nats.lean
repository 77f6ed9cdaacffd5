import GoWarp.WatchBus.InMemory

/-!
# The NATS watch bus

`Watch` and `SubscribePrefix` make a channel and subscribe with a handler that
sends to it; `Unwatch` removes the channel from its map, closes it, and then
unsubscribes.  Until `Unsubscribe` has returned, the client may run the handler
for messages it has received.  A handler that runs after the channel has been
closed sends on a closed channel, and the process panics.

A channel and its subscription have one number.  The step from one lock
operation, channel operation or call of the client to the next one is atomic.
The goroutine that waits for the context of a watch calls `Unwatch`, as any other
goroutine may do, at any time and with any arguments.  `Publish` and
`PublishPrefix` only hand messages to the client, and are left out: the handler
of a subscription may run with any message.
-/

namespace GoWarp.WatchBus

open Support
open Option (ite_none_right_eq_some mem_unique)
open Function (update update_of_ne update_self update_apply)

/-- A channel of capacity one. -/
structure DataChan where
  buffer : List GoString
  closed : Bool
deriving DecidableEq

inductive Table where
  | watches
  | prefixWatches
deriving DecidableEq

/-- Where a goroutine is: in `Watch` or `SubscribePrefix` after `Subscribe`, in
`Unwatch` before the channel is closed, in `Unwatch` before `Unsubscribe` has
returned, or back from its call. -/
inductive Place where
  | idle
  | subscribed (table : Table) (key : GoString) (ch : ℕ)
  | closing (ch : ℕ)
  | unsubscribing (ch : ℕ)
  | returned
deriving DecidableEq

inductive Fault where
  | sendOnClosed (ch : ℕ)
  | closeOfClosed (ch : ℕ)
deriving DecidableEq

/-- `NATSWatchBus`, with its channels, the subscriptions of the client and the
goroutines.  After a fault the process is gone. -/
structure NATSWatchBus where
  entries : Table → GoString → Finset ℕ
  chans : ℕ → DataChan
  subscribed : ℕ → Bool
  nextChan : ℕ
  threads : ℕ → Place
  fault : Option Fault

inductive NATSWatchBus.Action where
  /-- `Watch` until `Subscribe` has returned, with or without an error. -/
  | watch (t : ℕ) (key : GoString) (ctxDone fails : Bool)
  /-- `SubscribePrefix` until `Subscribe` has returned. -/
  | subscribePrefix (t : ℕ) (key : GoString) (ctxDone fails : Bool)
  /-- The channel is put into its map. -/
  | register (t : ℕ)
  /-- `Unwatch` under the lock. -/
  | unwatch (t : ℕ) (key : GoString) (ch : ℕ) (ctxDone : Bool)
  /-- `close(ch)`. -/
  | close (t : ℕ)
  /-- `Unsubscribe` returns. -/
  | unsubscribe (t : ℕ)
  /-- The client runs the handler of a subscription. -/
  | handle (ch : ℕ) (data : GoString)
  /-- A reader takes from a channel. -/
  | receive (ch : ℕ)
deriving DecidableEq

namespace NATSWatchBus

/-- `NewNATSWatchBus`. -/
def new : NATSWatchBus where
  entries := fun _ _ => ∅
  chans := fun _ => ⟨[], false⟩
  subscribed := fun _ => false
  nextChan := 0
  threads := fun _ => .idle
  fault := none

def goto (s : NATSWatchBus) (t : ℕ) (place : Place) : NATSWatchBus :=
  { s with threads := update s.threads t place }

@[simp] theorem threads_goto (s : NATSWatchBus) (t : ℕ) (place : Place) :
    (s.goto t place).threads = update s.threads t place := rfl

/-- Change the channels that are in a map under a key. -/
def setEntries (s : NATSWatchBus) (table : Table) (key : GoString)
    (chans : Finset ℕ) : NATSWatchBus :=
  { s with
    entries := update s.entries table (update (s.entries table) key chans) }

def setChan (s : NATSWatchBus) (ch : ℕ) (c : DataChan) : NATSWatchBus :=
  { s with chans := update s.chans ch c }

/-- The first part of `Watch` and `SubscribePrefix`, which differ in the subject
they subscribe to and in the map. -/
def subscribe (table : Table) (s : NATSWatchBus) (t : ℕ) (key : GoString)
    (ctxDone fails : Bool) : NATSWatchBus :=
  if ctxDone then s.goto t .returned
  else if fails then { s with nextChan := s.nextChan + 1 }.goto t .returned
  else
    { s with
      subscribed := update s.subscribed s.nextChan true
      nextChan := s.nextChan + 1 }.goto t (.subscribed table key s.nextChan)

/-- `Watch` until `Subscribe` has returned. -/
def watch : NATSWatchBus → ℕ → GoString → Bool → Bool → NATSWatchBus := subscribe .watches

/-- `SubscribePrefix` until `Subscribe` has returned. -/
def subscribePrefix : NATSWatchBus → ℕ → GoString → Bool → Bool → NATSWatchBus :=
  subscribe .prefixWatches

/-- `Unwatch` under the lock. -/
def unwatch (s : NATSWatchBus) (t : ℕ) (key : GoString) (ch : ℕ) (ctxDone : Bool) : NATSWatchBus :=
  if ctxDone then s.goto t .returned
  else if ch ∈ s.entries .watches key then
    (s.setEntries .watches key ((s.entries .watches key).erase ch)).goto t (.closing ch)
  else if ch ∈ s.entries .prefixWatches key then
    (s.setEntries .prefixWatches key ((s.entries .prefixWatches key).erase ch)).goto t (.closing ch)
  else s.goto t .returned

/-- `close(ch)`. -/
def close (s : NATSWatchBus) (t ch : ℕ) : NATSWatchBus :=
  if (s.chans ch).closed then { s with fault := some (.closeOfClosed ch) }
  else
    (s.setChan ch { s.chans ch with closed := true }).goto t (.unsubscribing ch)

/-- The handler: a message for which there is no room is dropped. -/
def handle (s : NATSWatchBus) (ch : ℕ) (data : GoString) : NATSWatchBus :=
  if (s.chans ch).closed then { s with fault := some (.sendOnClosed ch) }
  else if (s.chans ch).buffer = [] then
    s.setChan ch { s.chans ch with buffer := [data] }
  else s

def act (s : NATSWatchBus) : Action → Option NATSWatchBus
  | .watch t key ctxDone fails =>
    if s.threads t = .idle then some (s.watch t key ctxDone fails) else none
  | .subscribePrefix t key ctxDone fails =>
    if s.threads t = .idle then some (s.subscribePrefix t key ctxDone fails)
    else none
  | .register t =>
    match s.threads t with
    | .subscribed table key ch =>
      some ((s.setEntries table key (insert ch (s.entries table key))).goto t .returned)
    | _ => none
  | .unwatch t key ch ctxDone =>
    if s.threads t = .idle then some (s.unwatch t key ch ctxDone) else none
  | .close t =>
    match s.threads t with
    | .closing ch => some (s.close t ch)
    | _ => none
  | .unsubscribe t =>
    match s.threads t with
    | .unsubscribing ch =>
      some ({ s with
        subscribed := update s.subscribed ch false }.goto t .returned)
    | _ => none
  | .handle ch data =>
    if s.subscribed ch then some (s.handle ch data) else none
  | .receive ch =>
    some (s.setChan ch { s.chans ch with
      buffer := (s.chans ch).buffer.tail })

def step : Machine NATSWatchBus Action := fun s a => if s.fault = none then s.act a else none

end NATSWatchBus

/-! ## The life of a channel -/

/-- What has become of a channel, and which goroutine has it in its hands. -/
inductive Stage where
  | unused
  | subscribed (t : ℕ)
  | watched (table : Table) (key : GoString)
  | closing (t : ℕ)
  | unsubscribing (t : ℕ)
  | ended
deriving DecidableEq

namespace Stage

def isClosed : Stage → Bool
  | .unsubscribing _ => true
  | .ended => true
  | _ => false

/-- The handler of the channel may run in this stage. -/
def isSubscribed : Stage → Bool
  | .unused => false
  | .ended => false
  | _ => true

/-- The goroutine that has the channel. -/
def thread : Stage → Option ℕ
  | .subscribed t => some t
  | .closing t => some t
  | .unsubscribing t => some t
  | _ => none

end Stage

/-- The channel that a goroutine has, and its stage. -/
def Place.held (t : ℕ) : Place → Option (ℕ × Stage)
  | .subscribed _ _ ch => some (ch, .subscribed t)
  | .closing ch => some (ch, .closing t)
  | .unsubscribing ch => some (ch, .unsubscribing t)
  | _ => none

theorem Place.thread_of_held {t ch : ℕ} {st : Stage} {place : Place}
    (h : place.held t = some (ch, st)) : st.thread = some t := by
  cases place <;> cases h <;> rfl

namespace NATSWatchBus

/-- Every channel is in the stage that the maps, the goroutines, the channels and
the subscriptions say. -/
structure Follows (s : NATSWatchBus) (stage : ℕ → Stage) : Prop where
  alive : s.fault = none
  held : ∀ t ch st, (s.threads t).held t = some (ch, st) → stage ch = st
  entries : ∀ table key ch, ch ∈ s.entries table key → stage ch = .watched table key
  unsubscribing : ∀ ch t, stage ch = .unsubscribing t → s.threads t = .unsubscribing ch
  closed : ∀ ch, (s.chans ch).closed = (stage ch).isClosed
  subscribed : ∀ ch, s.subscribed ch = (stage ch).isSubscribed
  fresh : ∀ ch, s.nextChan ≤ ch → stage ch = .unused

theorem follows_new : new.Follows fun _ => .unused where
  alive := rfl
  held _ _ _ h := by cases h
  entries _ _ _ h := absurd h (Finset.notMem_empty _)
  unsubscribing _ _ h := by cases h
  closed _ := rfl
  subscribed _ := rfl
  fresh _ _ := rfl

variable {s s' : NATSWatchBus} {stage : ℕ → Stage} {t ch : ℕ}

section

variable (h : s.Follows stage)
include h

variable {st : Stage}

theorem Follows.move {place : Place} (hmine : ∀ u, (stage ch).thread = some u → u = t)
    (hbefore : ∀ c st₀, (s.threads t).held t = some (c, st₀) → c = ch)
    (hthreads : s'.threads = update s.threads t place)
    (hplace : place.held t = some (ch, st) ∨ place.held t = none ∧ st.thread = none)
    (hentries : ∀ table key c, c ∈ s'.entries table key →
      c ≠ ch ∧ c ∈ s.entries table key ∨ c = ch ∧ st = .watched table key)
    (hclosed : ∀ c, (s'.chans c).closed = if c = ch then st.isClosed else (s.chans c).closed)
    (hsubscribed : ∀ c, s'.subscribed c = if c = ch then st.isSubscribed else s.subscribed c)
    (hnext : s.nextChan ≤ s'.nextChan ∧ ch < s'.nextChan) (hfault : s'.fault = s.fault) :
    s'.Follows (update stage ch st) where
  alive := hfault.trans h.alive
  held u c st₀ hu := by
    rw [hthreads] at hu
    by_cases hut : u = t
    · subst hut
      rw [update_self] at hu
      rcases hplace with hheld | ⟨hheld, -⟩
      · obtain ⟨rfl, rfl⟩ := Prod.mk.inj (mem_unique hheld hu)
        exact update_self _ _ _
      · cases hheld.symm.trans hu
    · rw [update_of_ne hut] at hu
      have hstage := h.held u c st₀ hu
      rw [update_of_ne, hstage]
      rintro rfl
      apply hut
      apply hmine
      rw [hstage]
      exact Place.thread_of_held hu
  entries table key c hc := by
    rcases hentries table key c hc with ⟨hne, hold⟩ | ⟨rfl, rfl⟩
    · rw [update_of_ne hne]
      exact h.entries table key c hold
    · exact update_self _ _ _
  unsubscribing c u hu := by
    rw [hthreads]
    by_cases hc : c = ch
    · subst hc
      rw [update_self] at hu
      subst hu
      rcases hplace with hheld | ⟨-, hnone⟩
      · obtain rfl := Option.some.inj (Place.thread_of_held hheld)
        rw [update_self]
        cases place <;> cases hheld
        rfl
      · cases hnone
    · rw [update_of_ne hc] at hu
      have hplaceu := h.unsubscribing c u hu
      have hut : u ≠ t := by
        rintro rfl
        exact hc (hbefore c _ (by rw [hplaceu]; rfl))
      rw [update_of_ne hut, hplaceu]
  closed c := by
    rw [hclosed]
    split
    next hc => rw [hc, update_self]
    next hc =>
      rw [update_of_ne hc]
      exact h.closed c
  subscribed c := by
    rw [hsubscribed]
    split
    next hc => rw [hc, update_self]
    next hc =>
      rw [update_of_ne hc]
      exact h.subscribed c
  fresh c hc := by
    rw [update_of_ne (by omega)]
    exact h.fresh c (hnext.1.trans hc)

theorem Follows.of_same (hheld : ∀ u, (s'.threads u).held u = (s.threads u).held u)
    (hentries : s'.entries = s.entries) (hclosed : ∀ c, (s'.chans c).closed = (s.chans c).closed)
    (hsubscribed : s'.subscribed = s.subscribed)
    (hnext : s.nextChan ≤ s'.nextChan) (hfault : s'.fault = s.fault) :
    s'.Follows stage where
  alive := hfault.trans h.alive
  held u c st hu := h.held u c st ((hheld u).symm.trans hu)
  entries := by
    rw [hentries]
    exact h.entries
  unsubscribing c u hu := by
    have hplace := hheld u
    rw [h.unsubscribing c u hu] at hplace
    cases hthread : s'.threads u <;> rw [hthread] at hplace <;> cases hplace
    rfl
  closed c := (hclosed c).trans (h.closed c)
  subscribed := by
    rw [hsubscribed]
    exact h.subscribed
  fresh c hc := h.fresh c (hnext.trans hc)

theorem Follows.leave (ht : s.threads t = .idle) : (s.goto t .returned).Follows stage := by
  refine h.of_same (fun u => ?_) rfl (fun _ => rfl) rfl le_rfl rfl
  by_cases hu : u = t
  · subst hu
    rw [threads_goto, update_self, ht]
    rfl
  · rw [threads_goto, update_of_ne hu]

/-! ## Steps of the calls -/

theorem Follows.lt_nextChan (hstage : stage ch ≠ .unused) : ch < s.nextChan := by
  by_contra hge
  exact hstage (h.fresh ch (Nat.not_lt.mp hge))

theorem Follows.closed_same (hst : (stage ch).isClosed = st.isClosed) (c : ℕ) :
    (s.chans c).closed = if c = ch then st.isClosed else (s.chans c).closed := by
  split
  · rename_i hc
    rw [hc, h.closed ch, hst]
  · rfl

theorem Follows.subscribed_same (hst : (stage ch).isSubscribed = st.isSubscribed) (c : ℕ) :
    s.subscribed c = if c = ch then st.isSubscribed else s.subscribed c := by
  split
  · rename_i hc
    rw [hc, h.subscribed ch, hst]
  · rfl

theorem Follows.entries_same (hst : ∀ table key, stage ch ≠ .watched table key) {table : Table}
    {key : GoString} {c : ℕ} (hc : c ∈ s.entries table key) : c ≠ ch := by
  rintro rfl
  exact hst table key (h.entries table key c hc)

end

theorem held_idle (ht : s.threads t = .idle) (c : ℕ) (st : Stage)
    (h : (s.threads t).held t = some (c, st)) : c = ch := by
  rw [ht] at h
  cases h

theorem Follows.mine (h : s.Follows stage) {st : Stage}
    (ht : (s.threads t).held t = some (ch, st)) (u : ℕ)
    (hu : (stage ch).thread = some u) : u = t := by
  rw [h.held t ch st ht, Place.thread_of_held ht] at hu
  exact (Option.some.inj hu).symm

theorem held_inj {st : Stage} (ht : (s.threads t).held t = some (ch, st))
    (c : ℕ) (st₀ : Stage) (hc : (s.threads t).held t = some (c, st₀)) :
    c = ch :=
  (Prod.mk.inj (mem_unique hc ht)).1

theorem mem_setEntries {table table' : Table} {key key' : GoString} {chans : Finset ℕ} {c : ℕ} :
    c ∈ (s.setEntries table key chans).entries table' key' ↔
      if table' = table ∧ key' = key then c ∈ chans
      else c ∈ s.entries table' key' := by
  rw [setEntries]
  dsimp only
  by_cases htable : table' = table
  · subst htable
    rw [update_self]
    by_cases hkey : key' = key
    · subst hkey
      simp
    · simp [hkey]
  · rw [update_of_ne htable, if_neg fun h => htable h.1]

section

variable (h : s.Follows stage)
include h

theorem Follows.subscribe (ht : s.threads t = .idle)
    (table : Table) (key : GoString) (ctxDone fails : Bool) :
    ∃ stage', (subscribe table s t key ctxDone fails).Follows stage' := by
  have hunused : stage s.nextChan = .unused := h.fresh _ le_rfl
  rw [NATSWatchBus.subscribe]
  split
  · exact ⟨stage, h.leave ht⟩
  · split
    · have hgrown : { s with nextChan := s.nextChan + 1 }.Follows stage :=
        h.of_same (fun _ => rfl) rfl (fun _ => rfl) rfl (Nat.le_succ _) rfl
      exact ⟨stage, hgrown.leave ht⟩
    · have hopen : (stage s.nextChan).isClosed = (Stage.subscribed t).isClosed := by
        rw [hunused]
        rfl
      have hclosed := h.closed_same hopen
      refine ⟨_, h.move ?_ (held_idle ht) rfl (.inl rfl) ?_ hclosed ?_
        ⟨Nat.le_succ _, Nat.lt_succ_self _⟩ rfl⟩
      · intro u hu
        rw [hunused] at hu
        cases hu
      · intro table' key' c hc
        refine .inl ⟨h.entries_same (fun _ _ => ?_) hc, hc⟩
        rw [hunused]
        exact Stage.noConfusion
      · exact fun c => update_apply _ _ _ _

theorem Follows.register {table : Table} {key : GoString}
    (ht : s.threads t = .subscribed table key ch) :
    ((s.setEntries table key (insert ch (s.entries table key))).goto t
      .returned).Follows (update stage ch (.watched table key)) := by
  have hheld : (s.threads t).held t = some (ch, .subscribed t) := by
    rw [ht]
    rfl
  have hstage := h.held t ch _ hheld
  refine h.move (h.mine hheld) (held_inj hheld) rfl (.inr ⟨rfl, rfl⟩) ?_
    (h.closed_same (by rw [hstage]; rfl))
    (h.subscribed_same (by rw [hstage]; rfl))
    ⟨le_rfl, h.lt_nextChan (by rw [hstage]; exact Stage.noConfusion)⟩ rfl
  intro table' key' c hc
  have hold : c ∈ s.entries table' key' → c ≠ ch :=
    h.entries_same fun _ _ => by
      rw [hstage]
      exact Stage.noConfusion
  have hcases := mem_setEntries.mp hc
  split at hcases
  · rename_i hsame
    obtain ⟨rfl, rfl⟩ := hsame
    rcases Finset.mem_insert.mp hcases with rfl | hmem
    · exact .inr ⟨rfl, rfl⟩
    · exact .inl ⟨hold hmem, hmem⟩
  · exact .inl ⟨hold hcases, hcases⟩

theorem Follows.take (ht : s.threads t = .idle)
    {table : Table} {key : GoString} (hch : ch ∈ s.entries table key) :
    ((s.setEntries table key ((s.entries table key).erase ch)).goto t
      (.closing ch)).Follows (update stage ch (.closing t)) := by
  have hstage := h.entries table key ch hch
  refine h.move ?_ (held_idle ht) rfl (.inl rfl) ?_ (h.closed_same (by rw [hstage]; rfl))
    (h.subscribed_same (by rw [hstage]; rfl))
    ⟨le_rfl, h.lt_nextChan (by rw [hstage]; exact Stage.noConfusion)⟩ rfl
  · intro u hu
    rw [hstage] at hu
    cases hu
  · intro table' key' c hc
    have hcases := mem_setEntries.mp hc
    split at hcases
    · rename_i hsame
      obtain ⟨rfl, rfl⟩ := hsame
      obtain ⟨hne, hmem⟩ := Finset.mem_erase.mp hcases
      exact .inl ⟨hne, hmem⟩
    · rename_i hother
      refine .inl ⟨?_, hcases⟩
      rintro rfl
      apply hother
      have heq := hstage.symm.trans (h.entries table' key' c hcases)
      exact ⟨(Stage.watched.inj heq).1.symm, (Stage.watched.inj heq).2.symm⟩

theorem Follows.unwatch (ht : s.threads t = .idle) (key : GoString) (ch : ℕ) (ctxDone : Bool) :
    ∃ stage', (s.unwatch t key ch ctxDone).Follows stage' := by
  rw [NATSWatchBus.unwatch]
  split
  · exact ⟨stage, h.leave ht⟩
  · split
    · rename_i hch
      exact ⟨_, h.take ht hch⟩
    · split
      · rename_i hch
        exact ⟨_, h.take ht hch⟩
      · exact ⟨stage, h.leave ht⟩

theorem Follows.close_eq (ht : s.threads t = .closing ch) :
    s.close t ch = (s.setChan ch { s.chans ch with closed := true }).goto t
      (.unsubscribing ch) := by
  have hstage := h.held t ch (.closing t) (by rw [ht]; rfl)
  have hopen : ¬(s.chans ch).closed = true := by
    rw [h.closed ch, hstage]
    exact Bool.false_ne_true
  exact if_neg hopen

theorem Follows.close (ht : s.threads t = .closing ch) :
    (s.close t ch).Follows (update stage ch (.unsubscribing t)) := by
  have hheld : (s.threads t).held t = some (ch, .closing t) := by
    rw [ht]
    rfl
  have hstage := h.held t ch _ hheld
  rw [h.close_eq ht]
  refine h.move (h.mine hheld) (held_inj hheld) rfl (.inl rfl) ?_ ?_
    (h.subscribed_same (by rw [hstage]; rfl))
    ⟨le_rfl, h.lt_nextChan (by rw [hstage]; exact Stage.noConfusion)⟩ rfl
  · intro table' key' c hc
    refine .inl ⟨h.entries_same (fun _ _ => ?_) hc, hc⟩
    rw [hstage]
    exact Stage.noConfusion
  · intro c
    change (update s.chans ch _ c).closed = _
    split
    next hc =>
      rw [hc, update_self]
      rfl
    next hc => rw [update_of_ne hc]

theorem Follows.unsubscribe (ht : s.threads t = .unsubscribing ch) :
    ({ s with subscribed := update s.subscribed ch false }.goto t
      .returned).Follows (update stage ch .ended) := by
  have hheld : (s.threads t).held t = some (ch, .unsubscribing t) := by
    rw [ht]
    rfl
  have hstage := h.held t ch _ hheld
  refine h.move (h.mine hheld) (held_inj hheld) rfl (.inr ⟨rfl, rfl⟩) ?_
    (h.closed_same (by rw [hstage]; rfl))
    (fun c => update_apply _ _ _ _)
    ⟨le_rfl, h.lt_nextChan (by rw [hstage]; exact Stage.noConfusion)⟩ rfl
  intro table' key' c hc
  refine .inl ⟨h.entries_same (fun _ _ => ?_) hc, hc⟩
  rw [hstage]
  exact Stage.noConfusion

/-! ## Handlers and readers -/

theorem Follows.setBuffer (ch : ℕ) (buffer : List GoString) :
    (s.setChan ch { s.chans ch with buffer := buffer }).Follows stage := by
  refine h.of_same (fun _ => rfl) rfl (fun c => ?_) rfl le_rfl rfl
  change (update s.chans ch _ c).closed = _
  by_cases hc : c = ch
  · rw [hc, update_self]
  · rw [update_of_ne hc]

theorem Follows.closed_iff (hsubscribed : s.subscribed ch = true) :
    (s.chans ch).closed = true ↔ ∃ t, s.threads t = .unsubscribing ch := by
  rw [h.closed ch]
  rw [h.subscribed ch] at hsubscribed
  constructor
  · intro hclosed
    cases hstage : stage ch <;> rw [hstage] at hclosed hsubscribed
    case unsubscribing t => exact ⟨t, h.unsubscribing ch t hstage⟩
    case ended => cases hsubscribed
    all_goals cases hclosed
  · rintro ⟨t, ht⟩
    rw [h.held t ch (.unsubscribing t) (by rw [ht]; rfl)]
    rfl

theorem Follows.handle (hopen : (s.chans ch).closed = false) (data : GoString) :
    (s.handle ch data).Follows stage := by
  rw [NATSWatchBus.handle, hopen, if_neg Bool.false_ne_true]
  split
  · exact h.setBuffer ch [data]
  · exact h

end

/-! ## Runs -/

/-- No `Unwatch` is between the close of the channel and the return of
`Unsubscribe` when a handler of the channel runs. -/
def Apart (s : NATSWatchBus) : Action → Prop
  | .handle ch _ => ∀ t, s.threads t ≠ .unsubscribing ch
  | _ => True

theorem Follows.step (h : s.Follows stage) {a : Action} (hapart : s.Apart a)
    (hstep : step s a = some s') : ∃ stage', s'.Follows stage' := by
  obtain ⟨-, hact⟩ := ite_none_right_eq_some.mp hstep
  cases a with
  | watch t key ctxDone fails =>
    obtain ⟨ht, heq⟩ := ite_none_right_eq_some.mp hact
    cases heq
    exact h.subscribe ht .watches key ctxDone fails
  | subscribePrefix t key ctxDone fails =>
    obtain ⟨ht, heq⟩ := ite_none_right_eq_some.mp hact
    cases heq
    exact h.subscribe ht .prefixWatches key ctxDone fails
  | register t =>
    cases ht : s.threads t <;> rw [act, ht] at hact <;> cases hact
    exact ⟨_, h.register ht⟩
  | unwatch t key ch ctxDone =>
    obtain ⟨ht, heq⟩ := ite_none_right_eq_some.mp hact
    cases heq
    exact h.unwatch ht key ch ctxDone
  | close t =>
    cases ht : s.threads t <;> rw [act, ht] at hact <;> cases hact
    exact ⟨_, h.close ht⟩
  | unsubscribe t =>
    cases ht : s.threads t <;> rw [act, ht] at hact <;> cases hact
    exact ⟨_, h.unsubscribe ht⟩
  | handle ch data =>
    obtain ⟨hsubscribed, heq⟩ := ite_none_right_eq_some.mp hact
    cases heq
    refine ⟨stage, h.handle ?_ data⟩
    rw [← Bool.not_eq_true, h.closed_iff hsubscribed]
    exact not_exists.mpr hapart
  | receive ch =>
    cases hact
    exact ⟨stage, h.setBuffer ch _⟩

theorem Follows.fault_of_late (h : s.Follows stage) {a : Action}
    (hlate : ¬s.Apart a) (hstep : NATSWatchBus.step s a = some s') :
    ∃ ch, s'.fault = some (.sendOnClosed ch) := by
  obtain ⟨-, hact⟩ := ite_none_right_eq_some.mp hstep
  cases a with
  | handle ch data =>
    obtain ⟨hsubscribed, heq⟩ := ite_none_right_eq_some.mp hact
    cases heq
    have hclosed : (s.chans ch).closed = true := by
      rw [h.closed_iff hsubscribed]
      by_contra hnone
      exact hlate (not_exists.mp hnone)
    rw [NATSWatchBus.handle, if_pos hclosed]
    exact ⟨ch, rfl⟩
  | _ => exact absurd trivial hlate

theorem run_of_fault {as : List Action} (hfault : s.fault ≠ none)
    (hrun : NATSWatchBus.step.run s as = some s') : s' = s := by
  cases as with
  | nil => exact (Option.some.inj hrun).symm
  | cons a rest =>
    obtain ⟨u, hu, -⟩ := NATSWatchBus.step.run_cons.mp hrun
    exact absurd (ite_none_right_eq_some.mp hu).1 hfault

theorem Follows.run (h : s.Follows stage) {as : List Action}
    (hrun : NATSWatchBus.step.run s as = some s') :
    (∀ ch, s'.fault ≠ some (.closeOfClosed ch)) ∧
      (s'.fault = none ↔ NATSWatchBus.step.AllSteps Apart s as) := by
  induction as generalizing s stage with
  | nil =>
    cases hrun
    refine ⟨fun ch hch => ?_, fun _ => trivial, fun _ => h.alive⟩
    rw [h.alive] at hch
    cases hch
  | cons a rest ih =>
    obtain ⟨u, hu, hrest⟩ := NATSWatchBus.step.run_cons.mp hrun
    rw [NATSWatchBus.step.allSteps_cons hu]
    by_cases hapart : s.Apart a
    · obtain ⟨stage', h'⟩ := h.step hapart hu
      obtain ⟨hclose, hiff⟩ := ih h' hrest
      exact ⟨hclose, hiff.trans (and_iff_right hapart).symm⟩
    · obtain ⟨ch, hfault⟩ := h.fault_of_late hapart hu
      have hlast : s' = u := run_of_fault (by rw [hfault]; nofun) hrest
      rw [hlast, hfault]
      exact ⟨nofun, nofun, fun hsteps => absurd hsteps.1 hapart⟩

/-- In every run of `Watch`, `SubscribePrefix` and `Unwatch` calls and of
handlers, no channel is closed twice; and no handler sends on a closed channel
exactly if no handler of a channel runs while an `Unwatch` has closed the channel
and not yet returned from `Unsubscribe`. -/
theorem no_fault_iff_apart {as : List Action} (hrun : NATSWatchBus.step.run new as = some s) :
    (∀ ch, s.fault ≠ some (.closeOfClosed ch)) ∧
      (s.fault = none ↔ NATSWatchBus.step.AllSteps Apart new as) :=
  follows_new.run hrun

/-- A message is handled, the channel is unwatched twice, and the subscription
ends. -/
def quietEnd : List Action :=
  [.watch 0 [0x6b] false false, .register 0, .handle 0 [1],
    .unwatch 1 [0x6b] 0 false, .unwatch 2 [0x6b] 0 false, .close 1,
    .unsubscribe 1]

theorem no_fault_quietEnd : ∃ s, NATSWatchBus.step.run new quietEnd = some s ∧ s.fault = none ∧
      (s.chans 0).closed = true := by
  obtain ⟨s, hrun, hclosed⟩ : ∃ s, NATSWatchBus.step.run new quietEnd = some s ∧
        (s.chans 0).closed = true := ⟨_, rfl, rfl⟩
  refine ⟨s, hrun, (no_fault_iff_apart hrun).2.mpr ?_, hclosed⟩
  refine .cons trivial rfl ?_
  refine .cons trivial rfl ?_
  refine ⟨?_, fun _ _ => Machine.allSteps_of_states _ ?_ _⟩
  · intro t ht
    by_cases h0 : t = 0
    · subst h0
      cases ht
    · rw [threads_goto, update_of_ne h0] at ht
      change update _ 0 _ t = _ at ht
      rw [update_of_ne h0] at ht
      cases ht
  · simp [Apart]

/-- A message that was received before is handled between `close` and the return
of `Unsubscribe`. -/
theorem sends_on_closed : (NATSWatchBus.step.run new [.watch 0 [0x6b] false false, .register 0,
      .unwatch 1 [0x6b] 0 false, .close 1, .handle 0 [1]]).map fault =
        some (some (.sendOnClosed 0)) := by
  rfl

end NATSWatchBus

end GoWarp.WatchBus
