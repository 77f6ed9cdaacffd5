import GoWarp.Mesh.Codec
import GoWarp.Support.Transition
import Mathlib.Logic.Function.Basic

/-!
# The batcher of the mesh bus

`Publish` marks its key as pending and puts it on a channel.  The batcher
takes the keys from there, and flushes its batch when it has enough keys or
when the ticker fires: it marshals the batch into a pooled buffer, hands the
packet to `broadcast`, and removes the marks.

If the batch does not fit into the buffer, nothing is handed to `broadcast`,
and the marks are removed all the same.  As long as every batch fits, every key
that is marked is on its way or in a packet.
-/

namespace GoWarp.Mesh

open Support
open Function (update update_of_ne update_self)

/-- `cap(publishCh)`. -/
def publishCap : ℕ := 1000

/-- The length of the buffers in `bufferPool`. -/
def pooledLength : ℕ := 2048

/-- The packet of a flush. -/
def batchPacket (id : NodeID) (keys : List Bytes) : Packet :=
  ⟨magicByte, typeBatch, id, 0, 0, [], keys⟩

/-- A call to `Publish`: it has marked its key and waits for the channel, or
it has returned, with or without the error of its context. -/
inductive Call where
  | idle
  | sending (key : Bytes)
  | returned (key : Bytes) (failed : Bool)
deriving DecidableEq

/-- Where `runBatcher` is: at its `select`, in `flush` before the buffer is
filled, or in `flush` before the marks are removed. -/
inductive Place where
  | select
  | flush
  | cleanup
deriving DecidableEq

/-- What `Publish` and `runBatcher` work on: `batch` is the variable of the
latter, and `packets` are the payloads that have been handed to `broadcast`. -/
structure Batcher where
  nodeID : NodeID
  batchSize : ℕ
  pending : Bytes → Bool
  publishCh : List Bytes
  batch : List Bytes
  place : Place
  packets : List Bytes
  calls : ℕ → Call

inductive Batcher.Action where
  /-- `Publish` up to its `select`. -/
  | publish (c : ℕ) (key : Bytes)
  /-- The key of the call goes to the channel. -/
  | send (c : ℕ)
  /-- The context of the call is done. -/
  | cancel (c : ℕ)
  /-- The batcher takes a key. -/
  | receive
  /-- The ticker fires. -/
  | tick
  /-- The batch is marshaled into a buffer of the pool. -/
  | broadcast (buf : Bytes)
  /-- The marks are removed. -/
  | cleanup
deriving DecidableEq

namespace Batcher

def new (nodeID : NodeID) (batchSize : ℕ) : Batcher :=
  ⟨nodeID, batchSize, fun _ => false, [], [], .select, [], fun _ => .idle⟩

def publish (s : Batcher) (c : ℕ) (key : Bytes) : Batcher :=
  if s.pending key then
    { s with calls := update s.calls c (.returned key false) }
  else
    { s with
      pending := update s.pending key true
      calls := update s.calls c (.sending key) }

def send (s : Batcher) (c : ℕ) (key : Bytes) : Batcher :=
  { s with
    publishCh := s.publishCh ++ [key]
    calls := update s.calls c (.returned key false) }

def cancel (s : Batcher) (c : ℕ) (key : Bytes) : Batcher :=
  { s with
    pending := update s.pending key false
    calls := update s.calls c (.returned key true) }

def receive (s : Batcher) (key : Bytes) (rest : List Bytes) : Batcher :=
  { s with
    publishCh := rest
    batch := s.batch ++ [key]
    place := if s.batchSize ≤ (s.batch ++ [key]).length then .flush
      else .select }

/-- The `flush` of the ticker, which returns at once if there is no key. -/
def tick (s : Batcher) : Batcher := { s with place := if s.batch = [] then .select else .flush }

/-- The first part of `flush`. -/
def broadcast (s : Batcher) (m : Packet.Marshaled) : Batcher :=
  { s with
    packets := if m.err = none then s.packets ++ [m.buf.take m.n]
      else s.packets
    place := .cleanup }

/-- The second part of `flush`. -/
def cleanup (s : Batcher) : Batcher :=
  { s with
    pending := fun k => s.pending k && !decide (k ∈ s.batch)
    batch := []
    place := .select }

def step : Machine Batcher Action
  | s, .publish c key =>
    match s.calls c with
    | .idle => some (s.publish c key)
    | _ => none
  | s, .send c =>
    match s.calls c with
    | .sending key =>
      if s.publishCh.length < publishCap then some (s.send c key) else none
    | _ => none
  | s, .cancel c =>
    match s.calls c with
    | .sending key => some (s.cancel c key)
    | _ => none
  | s, .receive =>
    match s.place, s.publishCh with
    | .select, key :: rest => some (s.receive key rest)
    | _, _ => none
  | s, .tick => if s.place = .select then some s.tick else none
  | s, .broadcast buf =>
    if s.place = .flush ∧ buf.length = pooledLength then
      ((batchPacket s.nodeID s.batch).marshal buf).map s.broadcast
    else none
  | s, .cleanup => if s.place = .cleanup then some s.cleanup else none

inductive Steps (s : Batcher) : Action → Batcher → Prop where
  | publish {c : ℕ} {key : Bytes} (hc : s.calls c = .idle) :
      Steps s (.publish c key) (s.publish c key)
  | send {c : ℕ} {key : Bytes} (hc : s.calls c = .sending key) :
      Steps s (.send c) (s.send c key)
  | cancel {c : ℕ} {key : Bytes} (hc : s.calls c = .sending key) :
      Steps s (.cancel c) (s.cancel c key)
  | receive {key : Bytes} {rest : List Bytes}
      (hch : s.publishCh = key :: rest) : Steps s .receive (s.receive key rest)
  | tick : Steps s .tick s.tick
  | broadcast {buf : Bytes} {m : Packet.Marshaled}
      (hbuf : buf.length = pooledLength)
      (hm : (batchPacket s.nodeID s.batch).marshal buf = some m) :
      Steps s (.broadcast buf) (s.broadcast m)
  | cleanup (hplace : s.place = .cleanup) : Steps s .cleanup s.cleanup

variable {s : Batcher} {s' : Batcher} {a : Action} {key : Bytes} {c : ℕ}

theorem steps_of_step (hstep : step s a = some s') : Steps s a s' := by
  cases a with
  | publish c key =>
    cases hc : s.calls c <;> rw [step, hc] at hstep <;> cases hstep
    exact .publish hc
  | send c =>
    cases hc : s.calls c <;> rw [step, hc] at hstep
    case sending key =>
      obtain ⟨-, heq⟩ := Option.ite_none_right_eq_some.mp hstep
      cases heq
      exact .send hc
    all_goals cases hstep
  | cancel c =>
    cases hc : s.calls c <;> rw [step, hc] at hstep <;> cases hstep
    exact .cancel hc
  | receive =>
    cases hplace : s.place <;> cases hch : s.publishCh <;>
      rw [step, hplace, hch] at hstep <;> cases hstep
    exact .receive hch
  | tick =>
    obtain ⟨-, heq⟩ := Option.ite_none_right_eq_some.mp hstep
    cases heq
    exact .tick
  | broadcast buf =>
    obtain ⟨⟨-, hbuf⟩, hmap⟩ := Option.ite_none_right_eq_some.mp hstep
    obtain ⟨m, hm, rfl⟩ := Option.map_eq_some_iff.mp hmap
    exact .broadcast hbuf hm
  | cleanup =>
    obtain ⟨hplace, heq⟩ := Option.ite_none_right_eq_some.mp hstep
    cases heq
    exact .cleanup hplace

/-! ## What is asked of a run -/

/-- A call to `Publish` has returned `nil` for the key. -/
def Accepted (s : Batcher) (key : Bytes) : Prop := ∃ c, s.calls c = .returned key false

/-- A packet with the key has been handed to `broadcast`. -/
def Contains (s : Batcher) (key : Bytes) : Prop :=
  ∃ payload ∈ s.packets, ∃ q, Packet.zero.unmarshal payload = some (.ok q) ∧ key ∈ q.keys

/-- A call to `Publish` has marked the key and not yet sent it. -/
def Sending (s : Batcher) (key : Bytes) : Prop := ∃ c, s.calls c = .sending key

/-- The number of bytes of a batch. -/
def encodedSize (keys : List Bytes) : ℕ := 20 + (keys.map fun k => 2 + k.length).sum

/-- No context is cancelled, and a batch that is flushed fits into the
buffer. -/
def FlushFits (s : Batcher) : Action → Prop
  | .cancel _ => False
  | .broadcast _ => encodedSize s.batch ≤ pooledLength
  | _ => True

/-- A call that finds its key pending does not find it with a call that has
yet to send it. -/
def NotOvertaking (s : Batcher) : Action → Prop
  | .publish _ key => s.pending key → ¬s.Sending key
  | _ => True

/-! ## Packets of a batch -/

theorem length_wire_batchPacket (id : NodeID) (keys : List Bytes) :
    (batchPacket id keys).wire.length = encodedSize keys := by
  have hkeys : (Packet.wireKeys keys).length = (keys.map fun k => 2 + k.length).sum := by
    induction keys with
    | nil => rfl
    | cons k keys ih => rw [Packet.length_wireKeys_cons, ih, List.map_cons, List.sum_cons]
  rw [Packet.length_wire, Packet.body_of_batch rfl, List.length_append,
    length_putBigEndian, encodedSize]
  change 18 + (2 + (Packet.wireKeys keys).length) = _
  rw [hkeys]
  omega

theorem whole_batchPacket (id : NodeID) (keys : List Bytes) : (batchPacket id keys).Whole := by
  intro h
  exact absurd h (Packet.not_hasKey_of_batch rfl)

theorem carried_batchPacket (id : NodeID) (keys : List Bytes) :
    (batchPacket id keys).carried = batchPacket id keys := by
  rw [Packet.carried, if_neg (Packet.not_hasKey_of_batch rfl)]
  exact if_pos rfl

theorem exists_marshal (id : NodeID) (keys : List Bytes) (buf : Bytes) :
    ∃ m, (batchPacket id keys).marshal buf = some m := by
  by_cases h : (batchPacket id keys).wire.length ≤ buf.length
  · exact ⟨_, Packet.marshal_of_le (whole_batchPacket id keys) h⟩
  · obtain ⟨m, hm, -⟩ := Packet.marshal_of_lt (Nat.not_le.mp h)
    exact ⟨m, hm⟩

theorem marshal_batchPacket (id : NodeID) {keys : List Bytes} {buf : Bytes}
    (hbuf : buf.length = pooledLength) (hfits : encodedSize keys ≤ pooledLength) :
    ∃ m, (batchPacket id keys).marshal buf = some m ∧ m.err = none ∧
      Packet.zero.unmarshal (m.buf.take m.n) = some (.ok (batchPacket id keys)) := by
  have hmarshal := Packet.marshal_of_le (whole_batchPacket id keys)
    (b := buf) (by rw [length_wire_batchPacket, hbuf]; exact hfits)
  obtain ⟨-, -, -, hread⟩ := Packet.unmarshal_marshaled rfl
    (whole_batchPacket id keys) hbuf.le hmarshal
  rw [carried_batchPacket] at hread
  exact ⟨_, hmarshal, rfl, hread⟩

/-! ## The invariant -/

/-- The key has been taken over by the batcher: it is in the channel, in the
batch or in a packet. -/
def Taken (s : Batcher) (key : Bytes) : Prop := key ∈ s.publishCh ∨ key ∈ s.batch ∨ s.Contains key

/-- Marked keys are taken over or with the call that sends them; before the
marks of a batch are removed, its keys are in packets. -/
structure Carried (s : Batcher) : Prop where
  pending : ∀ key, s.pending key = true → s.Taken key ∨ s.Sending key
  accepted : ∀ key, s.Accepted key → s.Taken key ∨ s.Sending key
  cleanup : s.place = .cleanup → ∀ key ∈ s.batch, s.Contains key

/-- Accepted keys are taken over. -/
def Settled (s : Batcher) : Prop := ∀ key, s.Accepted key → s.Taken key

theorem carried_new (id : NodeID) (size : ℕ) : Carried (new id size) where
  pending key h := absurd h Bool.false_ne_true
  accepted key h := by
    obtain ⟨c, hc⟩ := h
    cases hc
  cleanup h := by cases h

theorem settled_new (id : NodeID) (size : ℕ) : Settled (new id size) := by
  rintro key ⟨c, hc⟩
  cases hc

/-- What a step does to the keys: none that has been taken over is lost, and
none is accepted that was not marked before or has been taken over. -/
structure Moves (s : Batcher) (a : Action) (s' : Batcher) : Prop where
  contains : ∀ key, s.Contains key → s'.Contains key
  taken : ∀ key, s.Taken key → s'.Taken key
  sending : ∀ key, s.Sending key → s'.Taken key ∨ s'.Sending key
  pending : ∀ key, s'.pending key = true → s.pending key = true ∨ s'.Sending key
  accepted : ∀ key, s'.Accepted key → s.Accepted key ∨ s'.Taken key ∨
    s.pending key = true ∧ (s.NotOvertaking a → ¬s.Sending key)
  cleanup : s'.place = .cleanup → ∀ key ∈ s'.batch, s'.Contains key

theorem contains_mono (h : ∀ payload ∈ s.packets, payload ∈ s'.packets)
    (hkey : s.Contains key) : s'.Contains key := by
  obtain ⟨payload, hpayload, hread⟩ := hkey
  exact ⟨payload, h payload hpayload, hread⟩

theorem exists_of_update {calls : ℕ → Call} {v x : Call} (h : ∃ d, update calls c v d = x) :
    v = x ∨ ∃ d, calls d = x := by
  obtain ⟨d, hd⟩ := h
  by_cases hdc : d = c
  · rw [hdc, update_self] at hd
    exact .inl hd
  · rw [update_of_ne hdc] at hd
    exact .inr ⟨d, hd⟩

theorem exists_update {calls : ℕ → Call} {v x : Call} (hc : calls c ≠ x) (h : ∃ d, calls d = x) :
    ∃ d, update calls c v d = x := by
  obtain ⟨d, hd⟩ := h
  have hdc : d ≠ c := by
    rintro rfl
    exact hc hd
  exact ⟨d, by rw [update_of_ne hdc, hd]⟩

theorem exists_update_self (calls : ℕ → Call) (c : ℕ) (v : Call) : ∃ d, update calls c v d = v :=
  ⟨c, update_self c v calls⟩

theorem moves_publish_of_pending (h : Carried s)
    (hc : s.calls c = .idle) (hkey : s.pending key = true) :
    Moves s (.publish c key) (s.publish c key) := by
  rw [publish, if_pos hkey]
  refine ⟨fun _ h => h, fun _ h => h, fun k hk => ?_, fun _ h => .inl h, fun k hk => ?_, h.cleanup⟩
  · refine .inr (exists_update ?_ hk)
    rw [hc]
    exact Call.noConfusion
  · rcases exists_of_update hk with heq | hk
    · cases heq
      exact .inr (.inr ⟨hkey, fun hnot => hnot hkey⟩)
    · exact .inl hk

theorem moves_publish_of_not_pending (h : Carried s)
    (hc : s.calls c = .idle) (hkey : ¬s.pending key = true) :
    Moves s (.publish c key) (s.publish c key) := by
  rw [publish, if_neg hkey]
  refine ⟨fun _ h => h, fun _ h => h, fun k hk => ?_, fun k hk => ?_, fun k hk => ?_, h.cleanup⟩
  · refine .inr (exists_update ?_ hk)
    rw [hc]
    exact Call.noConfusion
  · by_cases hkk : k = key
    · subst hkk
      exact .inr (exists_update_self s.calls c _)
    · exact .inl ((update_of_ne hkk true s.pending).symm.trans hk)
  · rcases exists_of_update hk with heq | hk
    · cases heq
    · exact .inl hk

theorem moves_send (h : Carried s)
    (hc : s.calls c = .sending key) : Moves s (.send c) (s.send c key) := by
  have hkey : (s.send c key).Taken key :=
    Or.inl (List.mem_append_right _ (List.mem_singleton_self key))
  refine ⟨fun _ h => h, fun k hk => ?_, fun k hk => ?_, fun _ h => .inl h,
    fun k hk => ?_, h.cleanup⟩
  · exact hk.imp_left (List.mem_append_left _)
  · by_cases hkk : key = k
    · exact .inl (hkk ▸ hkey)
    · refine .inr (exists_update ?_ hk)
      rw [hc]
      intro heq
      exact hkk (Call.sending.inj heq)
  · rcases exists_of_update hk with heq | hk
    · cases heq
      exact .inr (.inl hkey)
    · exact .inl hk

theorem moves_receive {rest : List Bytes} (hch : s.publishCh = key :: rest) :
    Moves s .receive (s.receive key rest) := by
  refine ⟨fun _ h => h, fun k hk => ?_, fun _ h => .inr h,
    fun _ h => .inl h, fun _ h => .inl h, fun hplace => ?_⟩
  · rcases hk with hk | hk | hk
    · rw [hch] at hk
      rcases List.mem_cons.mp hk with rfl | hk
      · exact .inr (.inl (List.mem_append_right _ (List.mem_singleton_self k)))
      · exact .inl hk
    · exact .inr (.inl (List.mem_append_left _ hk))
    · exact .inr (.inr hk)
  · dsimp only [receive] at hplace
    split at hplace <;> cases hplace

theorem moves_tick (s : Batcher) : Moves s .tick s.tick := by
  refine ⟨fun _ h => h, fun _ h => h, fun _ h => .inr h,
    fun _ h => .inl h, fun _ h => .inl h, fun hplace => ?_⟩
  dsimp only [tick] at hplace
  split at hplace <;> cases hplace

theorem moves_broadcast {buf : Bytes} {m : Packet.Marshaled} (hbuf : buf.length = pooledLength)
    (hfits : encodedSize s.batch ≤ pooledLength)
    (hm : (batchPacket s.nodeID s.batch).marshal buf = some m) :
    Moves s (.broadcast buf) (s.broadcast m) := by
  obtain ⟨m', hm', herr, hread⟩ := marshal_batchPacket s.nodeID hbuf hfits
  obtain rfl := Option.mem_unique hm hm'
  have hpackets : (s.broadcast m).packets = s.packets ++ [m.buf.take m.n] := if_pos herr
  have hcontains : ∀ k, s.Contains k → (s.broadcast m).Contains k := by
    intro k hk
    refine contains_mono (fun payload hpayload => ?_) hk
    rw [hpackets]
    exact List.mem_append_left _ hpayload
  refine ⟨hcontains, fun k hk => ?_, fun _ h => .inr h,
    fun _ h => .inl h, fun _ h => .inl h, fun _ k hk => ?_⟩
  · exact hk.imp_right (.imp_right (hcontains k))
  · refine ⟨m.buf.take m.n, ?_, batchPacket s.nodeID s.batch, hread, hk⟩
    rw [hpackets]
    exact List.mem_append_right _ (List.mem_singleton_self _)

theorem moves_cleanup (h : Carried s)
    (hplace : s.place = .cleanup) : Moves s .cleanup s.cleanup := by
  refine ⟨fun _ h => h, fun k hk => ?_, fun _ h => .inr h, fun k hk => ?_,
    fun _ h => .inl h, fun h => by cases h⟩
  · rcases hk with hk | hk | hk
    · exact .inl hk
    · exact .inr (.inr (h.cleanup hplace k hk))
    · exact .inr (.inr hk)
  · exact .inl (Bool.and_eq_true_iff.mp hk).1

theorem moves_step (h : Carried s)
    (hfits : s.FlushFits a) (hstep : step s a = some s') : Moves s a s' := by
  cases steps_of_step hstep with
  | @publish c key hc =>
    by_cases hkey : s.pending key = true
    · exact moves_publish_of_pending h hc hkey
    · exact moves_publish_of_not_pending h hc hkey
  | send hc => exact moves_send h hc
  | cancel hc => exact hfits.elim
  | receive hch => exact moves_receive hch
  | tick => exact moves_tick s
  | broadcast hbuf hm => exact moves_broadcast hbuf hfits hm
  | cleanup hplace => exact moves_cleanup h hplace

theorem Moves.carried (hmoves : Moves s a s') (h : Carried s) : Carried s' := by
  have hway : ∀ key, s.Taken key ∨ s.Sending key → s'.Taken key ∨ s'.Sending key := by
    rintro key (hkey | hkey)
    · exact .inl (hmoves.taken key hkey)
    · exact hmoves.sending key hkey
  refine ⟨fun key hkey => ?_, fun key hkey => ?_, hmoves.cleanup⟩
  · rcases hmoves.pending key hkey with hkey | hkey
    · exact hway key (h.pending key hkey)
    · exact .inr hkey
  · rcases hmoves.accepted key hkey with hkey | hkey | ⟨hkey, -⟩
    · exact hway key (h.accepted key hkey)
    · exact .inl hkey
    · exact hway key (h.pending key hkey)

theorem Moves.settled (hmoves : Moves s a s')
    (h : Carried s) (hsettled : Settled s) (hnot : s.NotOvertaking a) :
    Settled s' := by
  intro key hkey
  rcases hmoves.accepted key hkey with hkey | hkey | ⟨hkey, hfree⟩
  · exact hmoves.taken key (hsettled key hkey)
  · exact hkey
  · exact hmoves.taken key ((h.pending key hkey).resolve_right (hfree hnot))

/-! ## Accepted keys -/

/-- In a run in which every batch fits and no call is accepted while another
one still sends its key, every accepted key is in a packet when channel and
batch are empty. -/
theorem accepted_contained {id : NodeID} {size : ℕ} {as : List Action}
    {s : Batcher} (hrun : step.run (new id size) as = some s)
    (hsteps : step.AllSteps (fun s a => s.FlushFits a ∧ s.NotOvertaking a) (new id size) as)
    (hch : s.publishCh = []) (hbatch : s.batch = []) {key : Bytes}
    (hkey : s.Accepted key) : s.Contains key := by
  have h : Carried s ∧ Settled s := by
    refine step.run_invariant_of_allSteps (I := fun s => Carried s ∧ Settled s)
      ?_ hrun hsteps ⟨carried_new id size, settled_new id size⟩
    rintro s a s' ⟨h, hsettled⟩ ⟨hfits, hnot⟩ hstep
    have hmoves := moves_step h hfits hstep
    exact ⟨hmoves.carried h, hmoves.settled h hsettled hnot⟩
  rcases h.2 key hkey with hmem | hmem | hkey
  · rw [hch] at hmem
    cases hmem
  · rw [hbatch] at hmem
    cases hmem
  · exact hkey

/-- A `flush` hands over the buffer it has filled. -/
theorem run_flush (hplace : s.place = .flush) : ∃ m, (batchPacket s.nodeID s.batch).marshal
        (List.replicate pooledLength 0) = some m ∧
      step.run s [.broadcast (List.replicate pooledLength 0), .cleanup] =
        some (s.broadcast m).cleanup := by
  obtain ⟨m, hm⟩ := exists_marshal s.nodeID s.batch (List.replicate pooledLength 0)
  have hstep : step s (.broadcast (List.replicate pooledLength 0)) = some (s.broadcast m) := by
    rw [step, if_pos ⟨hplace, List.length_replicate⟩, hm, Option.map_some]
  exact ⟨m, hm, step.run_cons_of_step hstep [.cleanup]⟩

/-- `Publish` of two keys, which make a batch. -/
def twoPublishes : List Action :=
  [.publish 0 [0x61], .send 0, .publish 1 [0x62], .send 1, .receive, .receive,
    .broadcast (List.replicate pooledLength 0), .cleanup]

/-- The batcher before the buffer is filled. -/
def twoReceived : Batcher :=
  let marked := (((new NodeID.zero 2).publish 0 [0x61]).send 0 [0x61]).publish 1 [0x62]
  ((marked.send 1 [0x62]).receive [0x61] [[0x62]]).receive [0x62] []

theorem accepted_contained_twoPublishes : ∃ s, step.run (new NodeID.zero 2) twoPublishes = some s ∧
      (s.Accepted [0x61] ∧ s.Contains [0x61]) ∧ s.Accepted [0x62] ∧ s.Contains [0x62] := by
  obtain ⟨m, -, hflush⟩ := run_flush (s := twoReceived) rfl
  have hrun : step.run (new NodeID.zero 2) twoPublishes =
      some (twoReceived.broadcast m).cleanup := by
    rw [twoPublishes]
    iterate 6 rw [step.run_cons_of_step rfl]
    exact hflush
  have hsteps : step.AllSteps (fun s a => s.FlushFits a ∧ s.NotOvertaking a) (new NodeID.zero 2)
      twoPublishes := by
    refine .cons ⟨trivial, fun h => absurd h Bool.false_ne_true⟩ rfl ?_
    refine .cons ⟨trivial, trivial⟩ rfl ?_
    refine .cons ⟨trivial, fun h => absurd h (by decide)⟩ rfl ?_
    iterate 3 refine .cons ⟨trivial, trivial⟩ rfl ?_
    have hfits : encodedSize [[0x61], [0x62]] ≤ pooledLength := by decide
    exact ⟨⟨hfits, trivial⟩, fun s _ => ⟨⟨trivial, trivial⟩, fun _ _ => trivial⟩⟩
  exact ⟨_, hrun, ⟨⟨0, rfl⟩, accepted_contained hrun hsteps rfl rfl ⟨0, rfl⟩⟩,
    ⟨1, rfl⟩, accepted_contained hrun hsteps rfl rfl ⟨1, rfl⟩⟩

/-- `Publish` of one key, which makes a batch. -/
def onePublish (key : Bytes) : List Action :=
  [.publish 0 key, .send 0, .receive, .broadcast (List.replicate pooledLength 0), .cleanup]

/-- The batcher before the buffer is filled. -/
def oneReceived (key : Bytes) : Batcher :=
  (((new NodeID.zero 1).publish 0 key).send 0 key).receive key []

def longKey : Bytes := List.replicate 2027 0x61

/-- A key that is too long for the buffer is accepted and dropped. -/
theorem drops_longKey : ∃ s, step.run (new NodeID.zero 1) (onePublish longKey) = some s ∧
      s.publishCh = [] ∧ s.batch = [] ∧ s.place = .select ∧
      s.Accepted longKey ∧ s.pending longKey = false ∧
      ¬s.Contains longKey := by
  obtain ⟨m, hm, hflush⟩ := run_flush (s := oneReceived longKey) rfl
  have hshort : (List.replicate pooledLength (0 : UInt8)).length <
      (batchPacket NodeID.zero [longKey]).wire.length := by
    have hlength : longKey.length = 2027 := List.length_replicate
    rw [length_wire_batchPacket, List.length_replicate, encodedSize,
      List.map_singleton, List.sum_singleton, hlength]
    decide
  obtain ⟨m', hm', herr⟩ := Packet.marshal_of_lt hshort
  obtain rfl := Option.mem_unique hm hm'
  have hpackets : ((oneReceived longKey).broadcast m).packets = [] :=
    if_neg (by rw [herr]; exact Option.some_ne_none _)
  have hmem : longKey ∈ ((oneReceived longKey).broadcast m).batch := List.mem_singleton_self longKey
  refine ⟨((oneReceived longKey).broadcast m).cleanup, ?_, rfl, rfl, rfl, ⟨0, rfl⟩, ?_, ?_⟩
  · rw [onePublish]
    iterate 3 rw [step.run_cons_of_step rfl]
    exact hflush
  · dsimp only [cleanup]
    rw [decide_eq_true hmem]
    exact Bool.and_false _
  · rintro ⟨payload, hpayload, -⟩
    exact absurd (hpackets ▸ hpayload) List.not_mem_nil

end Batcher

end GoWarp.Mesh
