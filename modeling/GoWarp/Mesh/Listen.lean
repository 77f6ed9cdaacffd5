import GoWarp.Mesh.Batcher

/-!
# The listen loop of the mesh bus

The loop reads a datagram into a buffer of 1500 bytes, which cuts off what is
longer, and unmarshals what is there.  Packets of the node itself are ignored;
a heartbeat makes a peer known; the keys of the other packets go to
`handleInvalidate`, which offers an event to every subscriber of the key.

A batch may fill a pooled buffer of 2048 bytes.  It is received if its packet
has at most 1500 bytes, and lost as a whole otherwise.
-/

namespace GoWarp.Mesh

open Support

/-- The length of the buffer of `listen`. -/
def receiveLength : ℕ := 1500

def subscriberCap : ℕ := 32

/-- What `listen` works on; the events in the channel of a subscriber are
their keys, and `handled` are the keys `handleInvalidate` has been called
for. -/
structure Listener (Instant Addr : Type) where
  nodeID : NodeID
  received : UInt64
  knownPeers : Bytes → Option Instant
  resolvedAddr : Bytes → Option Addr
  subs : Bytes → List (List Bytes)
  handled : List Bytes

namespace Listener

variable {Instant Addr : Type}

/-- A send that does not wait. -/
def offer (key : Bytes) (ch : List Bytes) : List Bytes :=
  if ch.length < subscriberCap then ch ++ [key] else ch

def handleInvalidate (l : Listener Instant Addr) (key : Bytes) :
    Listener Instant Addr :=
  { l with
    subs := Function.update l.subs key ((l.subs key).map (offer key))
    handled := l.handled ++ [key] }

/-- The part of the loop for a heartbeat; an address is resolved once. -/
def heartbeat (resolve : Bytes → Option Addr) (l : Listener Instant Addr)
    (now : Instant) (addr : Bytes) : Listener Instant Addr :=
  { l with
    knownPeers := Function.update l.knownPeers addr (some now)
    resolvedAddr := Function.update l.resolvedAddr addr
      ((l.resolvedAddr addr).orElse fun _ => resolve addr) }

/-- A packet of another node. -/
def handle (resolve : Bytes → Option Addr) (l : Listener Instant Addr)
    (now : Instant) (p : Packet) : Listener Instant Addr :=
  let l := { l with received := l.received + 1 }
  if p.kind = typeHeartbeat then l.heartbeat resolve now p.key
  else
    let l := if p.kind = typeInvalidate then l.handleInvalidate p.key else l
    if p.kind = typeBatch then p.keys.foldl handleInvalidate l else l

/-- A turn of the loop with a datagram that has been read without an error;
`none` is a panic. -/
def listen (resolve : Bytes → Option Addr) (l : Listener Instant Addr)
    (now : Instant) (datagram : Bytes) : Option (Listener Instant Addr) :=
  (Packet.zero.unmarshal (datagram.take receiveLength)).map fun
    | .error _ => l
    | .ok p => if p.nodeID = l.nodeID then l else l.handle resolve now p

/-! ## Datagrams -/

theorem handled_foldl (keys : List Bytes) (l : Listener Instant Addr) :
    (keys.foldl handleInvalidate l).handled = l.handled ++ keys := by
  induction keys generalizing l with
  | nil => exact (List.append_nil _).symm
  | cons k keys ih =>
    rw [List.foldl_cons, ih, handleInvalidate, List.append_assoc]
    rfl

theorem handled_handle_batch (resolve : Bytes → Option Addr)
    (l : Listener Instant Addr) (now : Instant) (id : NodeID) (keys : List Bytes) :
    (l.handle resolve now (batchPacket id keys)).handled = l.handled ++ keys :=
  handled_foldl keys _

end Listener

namespace Packet

theorem wire_carried (p : Packet) : p.carried.wire = p.wire := by
  rw [carried]
  by_cases hkey : p.HasKey
  · have hbody : ∀ q : Packet, q.HasKey → q.head = p.head →
        q.keyHash = p.keyHash → q.keyLen = p.keyLen → q.key = p.key →
        q.wire = p.wire := by
      intro q hq hhead hhash hlen hqkey
      rw [wire, wire, hhead, body_of_hasKey hq, body_of_hasKey hkey, hhash, hlen, hqkey]
    rw [if_pos hkey]
    exact hbody _ hkey rfl rfl rfl rfl
  · rw [if_neg hkey]
    by_cases hbatch : p.kind = typeBatch
    · have hbody : ∀ q : Packet, q.kind = typeBatch → q.head = p.head →
          q.keys = p.keys → q.wire = p.wire := by
        intro q hq hhead hkeys
        rw [wire, wire, hhead, body_of_batch hq, body_of_batch hbatch, hkeys]
      rw [if_pos hbatch]
      exact hbody _ hbatch rfl rfl
    · have hopened : ¬p.opened.HasKey := hkey
      rw [if_neg hbatch, wire, wire, body_of_other hopened hbatch, body_of_other hkey hbatch]
      rfl

theorem not_unmarshal_of_lt {p : Packet} (hmagic : p.magic = magicByte)
    (hwhole : p.Whole) (hsmall : p.Small) {n : ℕ} (hn : n < p.wire.length)
    (q : Packet) : zero.unmarshal (p.wire.take n) ≠ some (.ok q) := by
  intro hread
  obtain ⟨r, hr, hspec⟩ := unmarshal_spec (p.wire.take n)
  have hq := hspec q (Option.mem_unique hr hread)
  -- the bytes of `q` are the first ones of `p`, so that `p` is read as `q`
  obtain ⟨rest, hrest⟩ := hq.wire.trans (List.take_prefix n p.wire)
  have hpq : p.carried = q := by
    have hp := unmarshal_wire hmagic hwhole hsmall []
    have hq' := unmarshal_wire hq.magic hq.whole hq.small rest
    rw [List.append_nil, ← hrest, hq', hq.carried] at hp
    exact (Except.ok.inj (Option.some.inj hp)).symm
  have hlength : q.wire.length ≤ n := hq.wire.length_le.trans (List.length_take_le n _)
  rw [← hpq, wire_carried] at hlength
  omega

end Packet

/-! ## From the batcher to a peer -/

namespace Batcher

theorem payload_of_broadcast {s s' : Batcher} {buf payload : Bytes}
    (hstep : step s (.broadcast buf) = some s') (hsent : s'.packets = s.packets ++ [payload]) :
    encodedSize s.batch ≤ pooledLength ∧ payload = (batchPacket s.nodeID s.batch).wire := by
  obtain ⟨⟨-, hbuf⟩, hmap⟩ := Option.ite_none_right_eq_some.mp hstep
  obtain ⟨m, hm, rfl⟩ := Option.map_eq_some_iff.mp hmap
  dsimp only [broadcast] at hsent
  split at hsent
  next herr =>
    obtain ⟨n, err, b⟩ := m
    obtain rfl : err = none := herr
    obtain ⟨hroom, rfl, rfl⟩ :=
      (Packet.marshal_eq_ok_iff (whole_batchPacket s.nodeID s.batch)).mp hm
    rw [length_wire_batchPacket, hbuf] at hroom
    have hpayload := List.append_cancel_left hsent
    rw [List.take_left] at hpayload
    exact ⟨hroom, (List.singleton_inj.mp hpayload).symm⟩
  · have hlength := congrArg List.length hsent
    rw [List.length_append, List.length_singleton] at hlength
    omega

end Batcher

namespace Listener

variable {Instant Addr : Type}

/-- The peer accepts the datagram and calls `handleInvalidate` for the keys in
order. -/
def Receives (resolve : Bytes → Option Addr) (l : Listener Instant Addr)
    (now : Instant) (datagram : Bytes) (keys : List Bytes) : Prop :=
  (∃ q, Packet.zero.unmarshal (datagram.take receiveLength) = some (.ok q)) ∧
    ∃ l', l.listen resolve now datagram = some l' ∧ l'.handled = l.handled ++ keys

/-- What a flush hands to `broadcast` is received by a peer exactly if it has
at most 1500 bytes. -/
theorem receives_batch_iff (resolve : Bytes → Option Addr)
    (l : Listener Instant Addr) (now : Instant) {s s' : Batcher}
    {buf payload : Bytes} (hstep : Batcher.step s (.broadcast buf) = some s')
    (hsent : s'.packets = s.packets ++ [payload])
    (hpeer : l.nodeID ≠ s.nodeID) :
    l.Receives resolve now payload s.batch ↔ Batcher.encodedSize s.batch ≤ receiveLength := by
  obtain ⟨hfits, rfl⟩ := Batcher.payload_of_broadcast hstep hsent
  have hlength := Batcher.length_wire_batchPacket s.nodeID s.batch
  have hwhole := Batcher.whole_batchPacket s.nodeID s.batch
  have hsmall : (batchPacket s.nodeID s.batch).Small :=
    Packet.small_of_length_wire (hlength ▸ hfits)
  constructor
  · rintro ⟨⟨q, hq⟩, -⟩
    by_contra hlong
    refine Packet.not_unmarshal_of_lt rfl hwhole hsmall ?_ q hq
    rw [hlength]
    exact Nat.not_le.mp hlong
  · intro hshort
    have hread := Packet.unmarshal_wire rfl hwhole hsmall []
    rw [List.append_nil, Batcher.carried_batchPacket] at hread
    have htake : (batchPacket s.nodeID s.batch).wire.take receiveLength =
        (batchPacket s.nodeID s.batch).wire :=
      List.take_of_length_le (hlength ▸ hshort)
    refine ⟨⟨_, by rw [htake, hread]⟩, l.handle resolve now (batchPacket s.nodeID s.batch), ?_,
      handled_handle_batch resolve l now s.nodeID s.batch⟩
    rw [listen, htake, hread, Option.map_some]
    exact congrArg some (if_neg hpeer.symm)

def full (keys : List Bytes) : Batcher :=
  { Batcher.new NodeID.zero 20 with batch := keys, place := .flush }

/-- A peer that has not heard of anything. -/
def peer : Listener ℕ ℕ :=
  ⟨⟨List.replicate 16 1, rfl⟩, 0, fun _ => none, fun _ => none, fun _ => [], []⟩

theorem broadcast_full (keys : List Bytes) (hfits : Batcher.encodedSize keys ≤ pooledLength) :
    ∃ s' payload, Batcher.step (full keys) (.broadcast (List.replicate pooledLength 0)) = some s' ∧
      s'.packets = (full keys).packets ++ [payload] := by
  obtain ⟨m, hm, herr, -⟩ := Batcher.marshal_batchPacket NodeID.zero
    (List.length_replicate (a := (0 : UInt8))) hfits
  refine ⟨(full keys).broadcast m, m.buf.take m.n, ?_, if_pos herr⟩
  rw [Batcher.step, if_pos ⟨rfl, List.length_replicate⟩]
  exact congrArg (Option.map (full keys).broadcast) hm

theorem receives_batch_two_keys : ∃ s' payload, Batcher.step (full [[0x61], [0x62]])
        (.broadcast (List.replicate pooledLength 0)) = some s' ∧
      s'.packets = [payload] ∧
      peer.Receives (fun _ => none) 0 payload [[0x61], [0x62]] := by
  obtain ⟨s', payload, hstep, hsent⟩ := broadcast_full [[0x61], [0x62]] (by decide)
  refine ⟨s', payload, hstep, hsent, ?_⟩
  exact (receives_batch_iff (fun _ => none) peer 0 hstep hsent (by decide)).mpr (by decide)

def wideKey : Bytes := List.replicate 1479 0x61

/-- A batch of 1501 bytes is sent and not received. -/
theorem loses_wideKey : ∃ s' payload, Batcher.step (full [wideKey])
        (.broadcast (List.replicate pooledLength 0)) = some s' ∧
      s'.packets = [payload] ∧ payload.length = 1501 ∧
      peer.listen (fun _ => none) 0 payload = some peer := by
  have hsize : Batcher.encodedSize [wideKey] = 1501 := by
    have hlength : wideKey.length = 1479 := List.length_replicate
    rw [Batcher.encodedSize, List.map_singleton, List.sum_singleton, hlength]
  obtain ⟨s', payload, hstep, hsent⟩ := broadcast_full [wideKey] (by rw [hsize]; decide)
  refine ⟨s', payload, hstep, hsent, ?_⟩
  obtain ⟨hfits, rfl⟩ := Batcher.payload_of_broadcast hstep hsent
  have hlength := (Batcher.length_wire_batchPacket NodeID.zero [wideKey]).trans hsize
  refine ⟨hlength, ?_⟩
  obtain ⟨r, hr, -⟩ := Packet.unmarshal_spec
    ((batchPacket NodeID.zero [wideKey]).wire.take receiveLength)
  have herror : ∀ q, r ≠ .ok q := by
    rintro q rfl
    refine Packet.not_unmarshal_of_lt rfl (Batcher.whole_batchPacket NodeID.zero [wideKey])
      (Packet.small_of_length_wire (by rw [hlength]; decide)) ?_ q hr
    rw [hlength]
    decide
  rw [listen]
  change Option.map _ (Packet.zero.unmarshal
    ((batchPacket NodeID.zero [wideKey]).wire.take receiveLength)) = _
  rw [hr, Option.map_some]
  cases r with
  | error e => rfl
  | ok q => exact absurd rfl (herror q)

end Listener

end GoWarp.Mesh
