import GoWarp.StreamBus.Framing
import GoWarp.StreamBus.Journal

/-!
# Frames on their way to a peer

The pump of a WebTransport session puts every frame its subscription receives
into a data message, and sends that as a datagram or on a reliable stream.
The bus, the encoder, the decoder and the stream reader each have limits of
their own.  A peer gets the frame back exactly when it is within all of them.
-/

namespace GoWarp.StreamBus

open Support Support.Decoder

/-- The size limit of datagrams of `Handler`. -/
structure Handler where
  maxDatagramBytes : ℤ
deriving DecidableEq

def defaultMaxDatagramBytes : ℤ := 1200

namespace Handler

def maximumDatagram (h : Handler) : ℤ :=
  if h.maxDatagramBytes ≤ 0 then defaultMaxDatagramBytes
  else h.maxDatagramBytes

end Handler

/-- What the pump learns about the session: whether each side supports
datagrams, and whether `SendDatagram` takes the bytes. -/
structure Link where
  localDatagrams : Bool
  remoteDatagrams : Bool
  sends : Bytes → Bool

/-- How a data message leaves: as a datagram, or on the reliable stream of the
subscription. -/
inductive Delivery where
  | datagram (data : Bytes)
  | stream (data : Bytes)
deriving DecidableEq

/-- The data message the pump builds from a frame. -/
def dataMessage (id : ℕ) (frame : Frame) : Message :=
  { kind := messageData
    id := 0
    subscriptionID := id
    ack := 0
    frame := frame
    options :=
      { topic := [], isPrefix := false, buffer := 0, overflow := block,
        replay := 0, since := 0 }
    error := [] }

namespace Handler

/-- Whether an encoded frame leaves as a datagram. -/
def SentAsDatagram (h : Handler) (link : Link) (frame : Frame) (data : Bytes) : Prop :=
  frame.reliability = unreliable ∧ data.length ≤ h.maximumDatagram ∧
    link.localDatagrams ∧ link.remoteDatagrams ∧ link.sends data

instance (h : Handler) (link : Link) (frame : Frame) (data : Bytes) :
    Decidable (h.SentAsDatagram link frame data) :=
  inferInstanceAs (Decidable (_ ∧ _))

/-- One round of `pump`.  A frame that is not sent as a datagram is written to
the stream with its length in front. -/
def transmit (h : Handler) (link : Link) (id : ℕ) (frame : Frame) :
    Except WireError Delivery :=
  match encodeMessage (dataMessage id frame) with
  | .error e => .error e
  | .ok data =>
    if h.SentAsDatagram link frame data then .ok (.datagram data)
    else .ok (.stream (putBytes data))

end Handler

/-! ## Receiving -/

/-- A peer gets a message: by `DecodeMessage` from a datagram, or by
`ReadMessage` of any reader with the default maximum that has come to the
message on the stream. -/
def Delivery.ReceivedAs : Delivery → Message → Prop
  | .datagram data, m => decodeMessage data = .ok m
  | .stream data, m =>
    ∀ (r : Reader) (rest : Bytes), r.max = defaultMaximum → r.tokens = data ++ rest →
      ∃ r', r.readMessage = .ok (m, r') ∧ r'.tokens = rest ∧ r'.max = r.max

/-- Two frames agree in everything but the location of the timestamp and nil
against empty payloads. -/
structure Frame.SameContent (f g : Frame) : Prop where
  topic : f.topic = g.topic
  payload : f.payload.getD [] = g.payload.getD []
  sequence : f.sequence = g.sequence
  timestamp : f.timestamp.nanos = g.timestamp.nanos
  reliability : f.reliability = g.reliability
  priority : f.priority = g.priority

/-- The pump sends the frame, and the peer gets it back. -/
def Handler.Carries (h : Handler) (link : Link) (id : ℕ) (frame : Frame) :
    Prop :=
  ∃ delivery m, h.transmit link id frame = .ok delivery ∧
    delivery.ReceivedAs m ∧ m.frame.SameContent frame

/-! ## What the wire can carry -/

/-- The frames the wire format can carry. -/
structure Frame.Carriable (f : Frame) : Prop where
  topic : f.topic.length ≤ maxTextBytes
  payload : f.payloadLength ≤ maxWirePayloadBytes
  reliability : f.reliability ≤ unreliable
  priority : f.priority ≤ priorityCritical
  timestamp : f.timestamp.IsZero ∨ (f.timestamp.nanos ≠ 0 ∧
      -2 ^ 63 ≤ f.timestamp.nanos ∧ f.timestamp.nanos < 2 ^ 63)

/-- The encoded frame is sent as a datagram or is within the default maximum of
a reader. -/
def Handler.Fits (h : Handler) (link : Link) (id : ℕ) (f : Frame) : Prop :=
  h.SentAsDatagram link f (messageBytes (dataMessage id f)) ∨
    (messageBytes (dataMessage id f)).length ≤ defaultMaximum

theorem wireTopic_dataMessage (id : ℕ) (f : Frame) : wireTopic (dataMessage id f) = f.topic :=
  if_neg fun h => absurd h.1 (by decide : messageData ≠ messageSubscribe)

variable {id : ℕ} {f : Frame} {data : Bytes}

theorem encodeMessage_dataMessage_iff :
    encodeMessage (dataMessage id f) = .ok data ↔ f.topic.length ≤ maxTextBytes ∧
        f.payloadLength ≤ maxWirePayloadBytes ∧
        messageBytes (dataMessage id f) = data := by
  rw [encodeMessage_eq_ok_iff, wireTopic_dataMessage]
  constructor
  · rintro ⟨htopic, hpayload, _, hdata⟩
    exact ⟨htopic, hpayload, hdata⟩
  · rintro ⟨htopic, hpayload, hdata⟩
    exact ⟨htopic, hpayload, Nat.zero_le _, hdata⟩

theorem Frame.Carriable.wireValid (hf : f.Carriable)
    (hid : id < 2 ^ 64) (hsequence : f.sequence < 2 ^ 64) :
    (dataMessage id f).WireValid where
  kind := by
    change messageData ≤ messageData ∧ messageData ≤ messagePong
    decide
  id := Nat.two_pow_pos 64
  subscriptionID := hid
  ack := Nat.two_pow_pos 64
  sequence := hsequence
  timestamp := hf.timestamp
  reliability := hf.reliability
  priority := hf.priority
  buffer := ⟨Int.le_refl 0, (by decide : (0 : ℤ) < 2 ^ 63)⟩
  overflow := (by decide : block ≤ latestOnly)
  replay := ⟨Int.le_refl 0, (by decide : (0 : ℤ) < 2 ^ 63)⟩
  since := Nat.two_pow_pos 64

theorem sameContent_normalized (id : ℕ) (f : Frame) :
    (dataMessage id f).normalized.frame.SameContent f where
  topic := wireTopic_dataMessage id f
  payload := by
    change (if f.payloadLength = 0 then none else f.payload).getD [] = _
    split
    · rename_i hzero
      exact (List.length_eq_zero_iff.mp hzero).symm
    · rfl
  sequence := rfl
  timestamp := rfl
  reliability := rfl
  priority := rfl

theorem carriable_of_sameContent {m : Message}
    (hdecode : decodeMessage data = .ok m) (hsame : m.frame.SameContent f)
    (htopic : f.topic.length ≤ maxTextBytes)
    (hpayload : f.payloadLength ≤ maxWirePayloadBytes) : f.Carriable := by
  obtain ⟨hvalid, _⟩ := decodeFields_ensures data m [] (decodeMessage_eq_ok_iff.mp hdecode)
  refine ⟨htopic, hpayload, ?_, ?_, ?_⟩
  · rw [← hsame.reliability]
    exact hvalid.reliability
  · rw [← hsame.priority]
    exact hvalid.priority
  · rw [Time.IsZero, ← hsame.timestamp]
    exact hvalid.timestamp

theorem decodeMessage_of_receivedAs {m : Message} (hfit : data.length < 2 ^ 64)
    (h : (Delivery.stream (putBytes data)).ReceivedAs m) :
    data.length ≤ defaultMaximum ∧ decodeMessage data = .ok m := by
  have hne : putBytes data ≠ [] := by
    rw [putBytes, ne_eq, List.append_eq_nil_iff, not_and]
    exact fun hnil => absurd hnil (putUvarint_ne_nil _)
  let source : Source UInt8 := ⟨[putBytes data], fun _ h => List.mem_singleton.mp h ▸ hne⟩
  have htokens : (newReader source 0).tokens = putBytes data ++ [] := by
    change [] ++ [putBytes data].flatten = _
    simp
  obtain ⟨_, hread, _⟩ := h (newReader source 0) [] rfl htokens
  obtain ⟨_, _, hread'⟩ := Reader.readMessage_putBytes hfit htokens
  rw [hread'] at hread
  split at hread
  · cases hread
  · rename_i hle
    refine ⟨Nat.le_of_not_lt hle, ?_⟩
    split at hread
    · cases hread
    · rename_i message hdecode
      rw [Except.ok.injEq, Prod.mk.injEq] at hread
      rw [hdecode, hread.1]

theorem Handler.carries_iff (h : Handler) (link : Link)
    (hid : id < 2 ^ 64) (hsequence : f.sequence < 2 ^ 64) :
    h.Carries link id f ↔ f.Carriable ∧ h.Fits link id f := by
  constructor
  · rintro ⟨delivery, m, hsend, hreceive, hsame⟩
    rw [transmit] at hsend
    rcases hencode : encodeMessage (dataMessage id f) with e | data
    · rw [hencode] at hsend
      cases hsend
    · obtain ⟨htopic, hpayload, rfl⟩ :=
        encodeMessage_dataMessage_iff.mp hencode
      simp only [hencode] at hsend
      split at hsend
      · rename_i hdatagram
        obtain rfl := Except.ok.inj hsend
        exact ⟨carriable_of_sameContent hreceive hsame htopic hpayload, .inl hdatagram⟩
      · obtain rfl := Except.ok.inj hsend
        have hlength : (messageBytes (dataMessage id f)).length < 2 ^ 64 := by
          refine length_messageBytes_lt (Nat.two_pow_pos 64) hid
            (Nat.two_pow_pos 64) hsequence (Nat.two_pow_pos 64) ?_ hpayload
            (Nat.zero_le _)
          rw [wireTopic_dataMessage]
          exact htopic
        obtain ⟨hle, hdecode⟩ := decodeMessage_of_receivedAs hlength hreceive
        exact ⟨carriable_of_sameContent hdecode hsame htopic hpayload, .inr hle⟩
  · rintro ⟨hf, hfits⟩
    have hencode : encodeMessage (dataMessage id f) = .ok (messageBytes (dataMessage id f)) :=
      encodeMessage_dataMessage_iff.mpr ⟨hf.topic, hf.payload, rfl⟩
    have hvalid := hf.wireValid hid hsequence
    obtain ⟨htopic, hpayload, herror, -⟩ := encodeMessage_eq_ok_iff.mp hencode
    by_cases hdatagram : h.SentAsDatagram link f (messageBytes (dataMessage id f))
    · refine ⟨.datagram _, _, ?_, decodeMessage_messageBytes hvalid htopic hpayload herror,
        sameContent_normalized id f⟩
      simp only [transmit, hencode, if_pos hdatagram]
    · refine ⟨.stream (frameBytes (dataMessage id f)), _, ?_, ?_, sameContent_normalized id f⟩
      · simp only [transmit, hencode, if_neg hdatagram]
        rfl
      · intro r rest hmax htokens
        refine Reader.readMessage_frame ⟨hvalid, hencode, ?_⟩ htokens
        rw [hmax]
        exact hfits.resolve_left hdatagram

/-! ## What a subscription delivers -/

namespace InMemory

def Holds (b : InMemory) (f : Frame) : Prop := ∃ id sub, b.subs id = some sub ∧ sub.Has f

variable {b : InMemory} {f : Frame}

theorem holds_setSub {sub : Subscription} (h : (b.setSub sub).Holds f) : sub.Has f ∨ b.Holds f := by
  obtain ⟨id, sub', hsub', hf⟩ := h
  rw [subs_setSub] at hsub'
  split at hsub'
  · cases hsub'
    exact .inl hf
  · exact .inr ⟨id, sub', hsub', hf⟩

variable {b' : InMemory} {frame : Frame} {id : ℕ}

theorem Holds.congr (h : b'.Holds f) (hsubs : b'.subs = b.subs) : b.Holds f := by
  rwa [Holds, hsubs] at h

theorem holds_enqueueTo (h : (b.enqueueTo frame id).2.Holds f) : b.Holds f ∨ f = frame := by
  rw [enqueueTo] at h
  split at h
  · exact .inl h
  · rename_i sub hsub
    split at h
    · exact .inl h
    · rename_i sub' haccepted
      rcases holds_setSub h with hf | hf
      · rcases Subscription.has_of_enqueue haccepted hf with hf | hf
        · exact .inl ⟨id, sub, hsub, hf⟩
        · exact .inr hf
      · exact .inl hf
    · exact .inl h

theorem holds_fanOut {order : List ℕ}
    (h : (b.fanOut frame order).2.Holds f) : b.Holds f ∨ f = frame := by
  induction order generalizing b with
  | nil => exact .inl h
  | cons id rest ih =>
    rw [fanOut] at h
    rcases hres : b.enqueueTo frame id with ⟨_ | e, b'⟩
    · rw [hres] at h
      rcases ih h with hf | hf
      · exact holds_enqueueTo (by rw [hres]; exact hf)
      · exact .inr hf
    · rw [hres] at h
      exact holds_enqueueTo (by rw [hres]; exact h)

theorem holds_closeSub (h : (b.closeSub id).Holds f) : b.Holds f := by
  rw [closeSub] at h
  split at h
  · exact h
  · rename_i sub hsub
    split at h
    · exact h
    · rcases holds_setSub (h.congr (subs_remove _ _ _).1) with hf | hf
      · exact ⟨id, sub, hsub, hf⟩
      · exact hf

theorem holds_close {order : List ℕ} (h : (b.close order).Holds f) : b.Holds f := by
  rw [close] at h
  split at h
  · exact h
  · have hfold : ∀ (ids : List ℕ) (b' : InMemory),
        (ids.foldl closeSub b').Holds f → b'.Holds f := by
      intro ids
      induction ids with
      | nil => exact fun _ hf => hf
      | cons id rest ih => exact fun b' hf => holds_closeSub (ih _ hf)
    exact (hfold _ _ h).congr rfl

theorem holds_subscribe {ctxDone : Bool} {o : SubscribeOptions}
    (h : (b.subscribe ctxDone o).2.Holds f) :
    b.Holds f ∨ ∃ topic, f ∈ b.retained topic := by
  rcases b.subscribe_cases ctxDone o with
    ⟨e, heq⟩ | ⟨e, options, heq⟩ | ⟨options, frames, _, _, hreplay, heq⟩
  · rw [heq] at h
    exact .inl h
  · rw [heq] at h
    exact .inl ((h.congr (subs_remove _ _ _).1).congr rfl)
  · rw [heq] at h
    rcases holds_setSub (h.congr (subs_register _ _).1) with hf | hf
    · rcases Subscription.has_of_preload hf with ⟨p, hp⟩ | hf
      · exact absurd hp List.not_mem_nil
      · exact .inr ⟨_, mem_retained_of_replayFor hreplay hf⟩
    · exact .inl (hf.congr rfl)

theorem mem_retained_addToJournal {topic : Bytes} (h : f ∈ (b.addToJournal frame).retained topic) :
    f ∈ b.retained topic ∨ f = frame := by
  rw [addToJournal] at h
  split at h
  · rename_i hpos
    change f ∈ ((Function.update b.replay frame.topic
      (some ((b.journalOf hpos frame.topic).add frame)) topic).map
        ReplayBuffer.contents).getD [] at h
    by_cases htopic : topic = frame.topic
    · subst htopic
      rw [Function.update_self, Option.map_some, Option.getD_some, ReplayBuffer.contents_add] at h
      rcases List.mem_append.mp (List.mem_of_mem_drop h) with hf | hf
      · rw [journalOf] at hf
        rw [retained]
        rcases hjournal : b.replay frame.topic with _ | journal
        · rw [hjournal] at hf
          exact absurd hf List.not_mem_nil
        · rw [hjournal] at hf
          exact .inl hf
      · exact .inr (List.mem_singleton.mp hf)
    · rw [Function.update_of_ne htopic] at h
      exact .inl h
  · exact .inl h

/-- Everything in a buffer or a journal has been published, and the counter of
the bus is not behind. -/
structure Sourced (b : InMemory) (history : List Frame) : Prop where
  held : ∀ f, b.Holds f → f ∈ history
  retained : ∀ topic f, f ∈ b.retained topic → f ∈ history
  le_seq : ∀ f ∈ history, f.sequence ≤ b.seq

theorem sourced_new (config : Config) : (new config).Sourced [] where
  held := by
    rintro f ⟨id, sub, hsub, _⟩
    cases hsub
  retained := fun _ _ h => absurd h List.not_mem_nil
  le_seq := fun _ h => absurd h List.not_mem_nil

theorem holds_of_step {op : Op} (hstep : step b op = some b') (h : b'.Holds f) :
    b.Holds f ∨ (∃ topic, f ∈ b.retained topic) ∨ b.publishedBy op = some f := by
  cases op with
  | publish ctxDone now frame order =>
    rw [step] at hstep
    split at hstep
    · cases hstep
      rcases b.publish_cases ctxDone now frame order with
        ⟨_, heq | heq⟩ | ⟨hsome, _, _, heq, _⟩
      · rw [heq] at h
        exact .inl h
      · rw [heq] at h
        exact .inl (h.congr rfl)
      · rw [heq] at h
        rcases holds_fanOut h with hf | rfl
        · exact .inl ((hf.congr (addToJournal_fields _ _).1).congr rfl)
        · exact .inr (.inr hsome)
    · cases hstep
  | subscribe ctxDone o =>
    cases hstep
    exact (holds_subscribe h).imp_right Or.inl
  | closeSub id =>
    cases hstep
    exact .inl (holds_closeSub h)
  | close order =>
    rw [step] at hstep
    split at hstep
    · cases hstep
      exact .inl (holds_close h)
    · cases hstep
  | pump id =>
    obtain ⟨sub', hpump, rfl⟩ := Option.map_eq_some_iff.mp hstep
    obtain ⟨sub, hsub, hsub'⟩ := Option.bind_eq_some_iff.mp hpump
    rcases holds_setSub h with hf | hf
    · exact .inl ⟨id, sub, hsub, Subscription.has_of_pump hsub' hf⟩
    · exact .inl hf
  | receive id =>
    obtain ⟨⟨frame, sub'⟩, hreceive, rfl⟩ := Option.map_eq_some_iff.mp hstep
    obtain ⟨sub, hsub, hsub'⟩ := Option.bind_eq_some_iff.mp hreceive
    rcases holds_setSub h with hf | hf
    · exact .inl ⟨id, sub, hsub, (Subscription.has_of_receive hsub').2 f hf⟩
    · exact .inl hf

theorem Sourced.step {history : List Frame} {op : Op}
    (h : b.Sourced history) (hstep : InMemory.step b op = some b') :
    b'.Sourced (history ++ (b.publishedBy op).toList) := by
  refine ⟨?_, ?_, ?_⟩
  · intro f hf
    rcases holds_of_step hstep hf with hf | ⟨topic, hf⟩ | hf
    · exact List.mem_append_left _ (h.held f hf)
    · exact List.mem_append_left _ (h.retained topic f hf)
    · rw [hf]
      exact List.mem_append_right _ (List.mem_singleton_self f)
  · intro topic f hf
    rcases step_journals hstep with
      ⟨_, _, hreplay, _⟩ | ⟨frame, hsome, _, _, _, hreplay⟩
    · rw [InMemory.retained, hreplay] at hf
      exact List.mem_append_left _ (h.retained topic f hf)
    · rw [InMemory.retained, hreplay] at hf
      rw [hsome]
      rcases mem_retained_addToJournal hf with hf | rfl
      · exact List.mem_append_left _ (h.retained topic f hf)
      · exact List.mem_append_right _ (List.mem_singleton_self f)
  · intro f hf
    rcases step_journals hstep with
      ⟨hnone, _, _, hseq⟩ | ⟨frame, hsome, hnumber, hseq, _, _⟩
    · rw [hnone, Option.toList_none, List.append_nil] at hf
      exact (h.le_seq f hf).trans hseq
    · rw [hsome, Option.toList_some] at hf
      rcases List.mem_append.mp hf with hf | hf
      · exact (h.le_seq f hf).trans (by omega)
      · rw [List.mem_singleton.mp hf, hnumber, hseq]

theorem received_published {config : Config} {ops : List Op}
    (hrun : step.run (new config) ops = some b)
    {sub sub' : Subscription} (hsub : b.subs id = some sub)
    (hreceive : sub.receive = some (f, sub')) :
    f ∈ (new config).published ops ∧ f.sequence ≤ b.seq := by
  have hend := step.run_history publishedBy
    (fun _ _ _ _ h hstep => .step h hstep) hrun (sourced_new config)
  rw [List.nil_append] at hend
  have hmem := hend.held f ⟨id, sub, hsub, (Subscription.has_of_receive hreceive).1⟩
  exact ⟨hmem, hend.le_seq f hmem⟩

/-- What a subscription of a bus delivers was published, and a peer gets it
back if it is within the limits of the wire. -/
theorem carries_received {config : Config} {ops : List Op} {b : InMemory}
    (hrun : step.run (new config) ops = some b) (hseq : b.seq < 2 ^ 64)
    {n : ℕ} {sub sub' : Subscription} {f : Frame}
    (hsub : b.subs n = some sub) (hreceive : sub.receive = some (f, sub'))
    (h : Handler) (link : Link) {id : ℕ} (hid : id < 2 ^ 64)
    (hf : f.Carriable) (hfits : h.Fits link id f) :
    f ∈ (new config).published ops ∧ h.Carries link id f := by
  obtain ⟨hmem, hle⟩ := received_published hrun hsub hreceive
  refine ⟨hmem, ?_⟩
  exact (h.carries_iff link hid (Nat.lt_of_le_of_lt hle hseq)).mpr ⟨hf, hfits⟩

/-- A bus that takes payloads of up to 128 MiB. -/
def largeConfig : Config := ⟨0, 0, 0, 2 ^ 27, false⟩

def payloadFrame (payload : Bytes) : Frame :=
  ⟨0, ⟨1, true⟩, [1], some payload, unreliable, priorityNormal⟩

/-- The options of a subscription to one topic with room for one frame. -/
def sampleOptions : SubscribeOptions := ⟨[1], false, 1, block, 0, 0⟩

/-- Subscribe to a topic, publish a frame there and have it ready to be
received. -/
def deliverOps (payload : Bytes) : List Op :=
  [.subscribe false sampleOptions, .publish false Time.zero (payloadFrame payload) [1], .pump 1]

theorem receive_deliverOps (payload : Bytes) (h : payload.length ≤ 2 ^ 27) :
    ∃ b sub sub', step.run (new largeConfig) (deliverOps payload) = some b ∧
      b.seq = 1 ∧ b.subs 1 = some sub ∧
      sub.receive = some ({ payloadFrame payload with sequence := 1 }, sub') := by
  let opened := ((new largeConfig).subscribe false sampleOptions).2
  have herror : opened.publishError false (payloadFrame payload) = none := by
    have hpayload : ¬(2 : ℤ) ^ 27 < (payload.length : ℤ) := by omega
    exact if_neg hpayload
  have hpublish : step opened (.publish false Time.zero (payloadFrame payload) [1]) =
        some (opened.takeNumber.fanOut (opened.stamp Time.zero (payloadFrame payload)) [1]).2 := by
    simp only [step, publish, herror]
    rfl
  exact ⟨_, _, _, step.run_cons.mpr ⟨opened, rfl,
    step.run_cons.mpr ⟨_, hpublish, rfl⟩⟩, rfl, rfl, rfl⟩

theorem carries_received_deliverOps :
    ∃ b sub sub' f, step.run (new largeConfig) (deliverOps [7]) = some b ∧
      b.subs 1 = some sub ∧ sub.receive = some (f, sub') ∧
      f ∈ (new largeConfig).published (deliverOps [7]) ∧
      Handler.Carries ⟨0⟩ ⟨true, true, fun _ => true⟩ 9 f := by
  obtain ⟨b, sub, sub', hrun, hseq, hsub, hreceive⟩ := receive_deliverOps [7] (by decide)
  refine ⟨b, sub, sub', _, hrun, hsub, hreceive, ?_⟩
  have hf : Frame.Carriable { payloadFrame [7] with sequence := 1 } := by constructor <;> decide
  have hfits : Handler.Fits ⟨0⟩ ⟨true, true, fun _ => true⟩ 9
      { payloadFrame [7] with sequence := 1 } := by
    right
    simp [messageBytes, dataMessage, payloadFrame, putUvarint, putVarint,
      putBytes, zigzag, wireTimestamp, wireTopic, uint64OfInt, Time.IsZero,
      Time.unixNano, Time.zero, messageData, messageSubscribe, defaultMaximum]
  exact carries_received hrun (by rw [hseq]; decide) hsub hreceive ⟨0⟩
    ⟨true, true, fun _ => true⟩ (by decide) hf hfits

/-- A payload of one byte more than the encoder takes is accepted and delivered
by the bus, and no session carries it. -/
theorem not_carries_longPayload : ∃ ops b sub sub' f, step.run (new largeConfig) ops = some b ∧
      f ∈ (new largeConfig).published ops ∧
      b.subs 1 = some sub ∧ sub.receive = some (f, sub') ∧
      ∀ (h : Handler) (link : Link) (id : ℕ), id < 2 ^ 64 → ¬h.Carries link id f := by
  have hlength : (List.replicate (2 ^ 26 + 1) (0 : UInt8)).length =
      2 ^ 26 + 1 := List.length_replicate
  obtain ⟨b, sub, sub', hrun, _, hsub, hreceive⟩ :=
    receive_deliverOps (List.replicate (2 ^ 26 + 1) 0) (by rw [hlength]; decide)
  refine ⟨_, b, sub, sub', _, hrun, (received_published hrun hsub hreceive).1, hsub, hreceive, ?_⟩
  intro h link id hid hcarries
  have hlong := ((h.carries_iff link hid (by change 1 < 2 ^ 64; decide)).mp
    hcarries).1.payload
  change (List.replicate (2 ^ 26 + 1) (0 : UInt8)).length ≤ 2 ^ 26 at hlong
  rw [hlength] at hlong
  exact absurd hlong (by decide)

end InMemory

end GoWarp.StreamBus
