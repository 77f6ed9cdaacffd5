import GoWarp.Support.Varint
import GoWarp.StreamBus.Types
import Mathlib.Algebra.Order.BigOperators.Group.List

/-!
# The StreamBus wire format

`EncodeMessage` packs the sixteen fields of a message into bytes and
`DecodeMessage` reads them back with bounds of its own.  The decoder is a
chain of field readers, so each of its properties is proved for the readers
and carried along the chain by the rules of `GoWarp.Support.Decoder`.
-/

namespace GoWarp.StreamBus

open Support Support.Decoder

inductive WireError where
  | invalidWireVersion
  | invalidWireMessage
deriving DecidableEq

def wireVersion : UInt8 := 1

/-- `MessageKind`, a byte with nine declared values. -/
def messageData : UInt8 := 1
def messagePublish : UInt8 := 2
def messageSubscribe : UInt8 := 3
def messageUnsubscribe : UInt8 := 4
def messageAck : UInt8 := 5
def messagePing : UInt8 := 8
def messagePong : UInt8 := 9

/-- `Message`, the envelope of control and data messages. -/
structure Message where
  kind : UInt8
  id : ℕ
  subscriptionID : ℕ
  ack : ℕ
  frame : Frame
  options : SubscribeOptions
  error : Bytes
deriving DecidableEq

/-- Longest topic and error text on the wire, `1 << 20`. -/
def maxTextBytes : ℕ := 2 ^ 20

/-- Longest payload on the wire, `64 << 20`. -/
def maxWirePayloadBytes : ℕ := 64 * 2 ^ 20

/-- The largest `int`. -/
def maxInt : ℕ := 2 ^ 63 - 1

/-- The conversion `uint64(i)` of an `int`. -/
def uint64OfInt (i : ℤ) : ℕ := (i % 2 ^ 64).toNat

theorem uint64OfInt_of_nonneg {i : ℤ} (hlo : 0 ≤ i) (hhi : i < 2 ^ 63) :
    uint64OfInt i = i.toNat := by
  rw [uint64OfInt, Int.emod_eq_of_lt hlo (by omega)]

/-! ## Encoding -/

/-- `putBytes`: a length and the bytes. -/
def putBytes (data : Bytes) : Bytes := putUvarint data.length ++ data

/-- The topic `EncodeMessage` writes: a subscribe message without a frame
topic carries the topic of its options. -/
def wireTopic (message : Message) : Bytes :=
  if message.kind = messageSubscribe ∧ message.frame.topic = [] then
    message.options.topic
  else
    message.frame.topic

/-- The timestamp `EncodeMessage` writes, zero for the zero time. -/
def wireTimestamp (t : Time) : ℤ := if t.IsZero then 0 else t.unixNano

/-- The bytes `EncodeMessage` writes, field by field. -/
def messageBytes (message : Message) : Bytes :=
  List.flatten [ [wireVersion], [message.kind], putUvarint message.id,
      putUvarint message.subscriptionID,
      putUvarint message.ack,
      putUvarint message.frame.sequence,
      putVarint (wireTimestamp message.frame.timestamp),
      [message.frame.reliability],
      [message.frame.priority],
      putBytes (wireTopic message),
      putBytes (message.frame.payload.getD []),
      [if message.options.isPrefix then 1 else 0],
      putUvarint (uint64OfInt message.options.buffer),
      [message.options.overflow],
      putUvarint (uint64OfInt message.options.replay),
      putUvarint message.options.since,
      putBytes message.error ]

def encodeMessage (message : Message) : Except WireError Bytes :=
  if maxTextBytes < (wireTopic message).length ∨ maxWirePayloadBytes < message.frame.payloadLength ∨
      maxTextBytes < message.error.length then
    .error .invalidWireMessage
  else
    .ok (messageBytes message)

/-! ## Decoding -/

abbrev WireReader := Decoder UInt8 WireError

def readByte : WireReader UInt8 := next .invalidWireMessage

def readNumber : WireReader ℕ := readUvarint .invalidWireMessage

/-- `readBytes`: a length within the limit and within the bytes left, and that
many bytes; nil when the length is zero. -/
def readBytes (maximum : ℕ) : WireReader (Option Bytes) := do
  let size ← readNumber
  require (size ≤ maximum) .invalidWireMessage
  let data ← takeN size .invalidWireMessage
  pure (if size = 0 then none else some data)

/-- The time `DecodeMessage` builds from a timestamp. -/
def timeOfTimestamp (timestamp : ℤ) : Time := if timestamp = 0 then Time.zero else ⟨timestamp, true⟩

/-- The field readers of `DecodeMessage`, in order. -/
def decodeFields : WireReader Message := do
  let version ← readByte
  require (version = wireVersion) .invalidWireVersion
  let kind ← readByte
  require (messageData ≤ kind ∧ kind ≤ messagePong) .invalidWireMessage
  let id ← readNumber
  let subscriptionID ← readNumber
  let ack ← readNumber
  let sequence ← readNumber
  let timestamp ← readVarint .invalidWireMessage
  let reliability ← readByte
  require (reliability ≤ unreliable) .invalidWireMessage
  let priority ← readByte
  require (priority ≤ priorityCritical) .invalidWireMessage
  let topic ← readBytes maxTextBytes
  let payload ← readBytes maxWirePayloadBytes
  let prefixByte ← readByte
  let buffer ← readNumber
  require (buffer ≤ maxInt) .invalidWireMessage
  let overflow ← readByte
  require (overflow ≤ latestOnly) .invalidWireMessage
  let replay ← readNumber
  require (replay ≤ maxInt) .invalidWireMessage
  let since ← readNumber
  let errorText ← readBytes maxTextBytes
  pure
    { kind := kind
      id := id
      subscriptionID := subscriptionID
      ack := ack
      frame :=
        { sequence := sequence
          timestamp := timeOfTimestamp timestamp
          topic := topic.getD []
          payload := payload
          reliability := reliability
          priority := priority }
      options :=
        { topic := if kind = messageSubscribe then topic.getD [] else []
          isPrefix := decide (prefixByte = 1)
          buffer := buffer
          overflow := overflow
          replay := replay
          since := since }
      error := errorText.getD [] }

/-- `DecodeMessage`: the fields, and nothing after them. -/
def decodeMessage (data : Bytes) : Except WireError Message :=
  match decodeFields data with
  | .error e => .error e
  | .ok (message, rest) => if rest.length ≠ 0 then .error .invalidWireMessage else .ok message

/-! ## What the decoder accepts -/

theorem readNumber_reads {n : ℕ} (hn : n < 2 ^ 64) : Reads readNumber (putUvarint n) n :=
  readUvarint_reads _ hn

variable {data : Bytes}

theorem readBytes_reads {maximum : ℕ} (hmax : data.length ≤ maximum) (hfit : maximum < 2 ^ 64) :
    Reads (readBytes maximum) (putBytes data) (if data.length = 0 then none else some data) := by
  have hread : Reads (readBytes maximum) (putUvarint data.length ++ (data ++ []))
      (if data.length = 0 then none else some data) :=
    Reads.bind (readNumber_reads (lt_of_le_of_lt hmax hfit)) <|
    Reads.require_bind hmax <|
    Reads.bind (.takeN _ data) <|
    Reads.pure _
  simpa [putBytes] using hread

theorem readBytes_stable (maximum : ℕ) : Stable (readBytes maximum) :=
  Stable.bind (readUvarint_stable _) fun _ =>
  Stable.bind (.require _ _) fun _ =>
  Stable.bind (.takeN _ _) fun _ =>
  Stable.pure _

theorem readBytes_ensures (maximum : ℕ) : Ensures (readBytes maximum) fun data =>
      (data.getD []).length ≤ maximum ∧ data ≠ some [] := by
  refine .bind (.trivial _) ?_
  intro size _
  refine .bind (.require _ _) ?_
  intro _ hmax
  refine .bind (.takeN _ _) ?_
  intro data hlen
  apply Ensures.pure
  by_cases hzero : size = 0
  · simp [hzero]
  · simp only [if_neg hzero, Option.getD_some, ne_eq, Option.some.injEq]
    refine ⟨hlen.trans_le hmax, ?_⟩
    rintro rfl
    exact hzero hlen.symm

/-- The messages that survive a round trip: declared kinds and enumeration
values, non-negative sizes, and a timestamp that is zero or whose non-zero
`UnixNano` is representable.  The bounds are those of the Go types. -/
structure Message.WireValid (m : Message) : Prop where
  kind : messageData ≤ m.kind ∧ m.kind ≤ messagePong
  id : m.id < 2 ^ 64
  subscriptionID : m.subscriptionID < 2 ^ 64
  ack : m.ack < 2 ^ 64
  sequence : m.frame.sequence < 2 ^ 64
  timestamp : m.frame.timestamp.IsZero ∨ (m.frame.timestamp.nanos ≠ 0 ∧
      -2 ^ 63 ≤ m.frame.timestamp.nanos ∧ m.frame.timestamp.nanos < 2 ^ 63)
  reliability : m.frame.reliability ≤ unreliable
  priority : m.frame.priority ≤ priorityCritical
  buffer : 0 ≤ m.options.buffer ∧ m.options.buffer < 2 ^ 63
  overflow : m.options.overflow ≤ latestOnly
  replay : 0 ≤ m.options.replay ∧ m.options.replay < 2 ^ 63
  since : m.options.since < 2 ^ 64

/-- The form in which a message comes back: its timestamp in UTC, an empty
payload as nil, both topics of a subscribe message equal to its frame topic or,
where that is empty, to the topic of its options, and no topic in the options
of other messages. -/
def Message.normalized (m : Message) : Message :=
  { m with
    frame :=
      { m.frame with
        timestamp := m.frame.timestamp.toUTC
        topic := if m.kind = messageSubscribe ∧ m.frame.topic = [] then m.options.topic
          else m.frame.topic
        payload := if m.frame.payloadLength = 0 then none else m.frame.payload }
    options :=
      { m.options with
        topic := if m.kind ≠ messageSubscribe then []
          else if m.frame.topic = [] then m.options.topic
          else m.frame.topic } }

/-! ## Round trips -/

theorem timeOfTimestamp_wireTimestamp {t : Time}
    (ht : t.IsZero ∨ (t.nanos ≠ 0 ∧ -2 ^ 63 ≤ t.nanos ∧ t.nanos < 2 ^ 63)) :
    timeOfTimestamp (wireTimestamp t) = t.toUTC := by
  by_cases hzero : t.IsZero
  · have hnanos : t.nanos = Time.zero.nanos := hzero
    rw [wireTimestamp, if_pos hzero, timeOfTimestamp, if_pos rfl, Time.toUTC, hnanos]
    rfl
  · obtain ⟨hne, hlo, hhi⟩ := ht.resolve_left hzero
    rw [wireTimestamp, if_neg hzero, Time.unixNano_of_range hlo hhi,
      timeOfTimestamp, if_neg hne, Time.toUTC]

theorem wireTimestamp_range (t : Time) : -2 ^ 63 ≤ wireTimestamp t ∧ wireTimestamp t < 2 ^ 63 := by
  rw [wireTimestamp]
  split
  · omega
  · have hlo := Int.le_bmod (x := t.nanos) (m := 2 ^ 64) (by norm_num)
    have hhi := Int.bmod_lt (x := t.nanos) (m := 2 ^ 64) (by norm_num)
    rw [Time.unixNano]
    omega

variable {m : Message}

theorem length_messageBytes_lt (hid : m.id < 2 ^ 64)
    (hsub : m.subscriptionID < 2 ^ 64) (hack : m.ack < 2 ^ 64)
    (hsequence : m.frame.sequence < 2 ^ 64) (hsince : m.options.since < 2 ^ 64)
    (htopic : (wireTopic m).length ≤ maxTextBytes)
    (hpayload : m.frame.payloadLength ≤ maxWirePayloadBytes)
    (herror : m.error.length ≤ maxTextBytes) :
    (messageBytes m).length < 2 ^ 64 := by
  have hnumber : ∀ {n : ℕ}, n < 2 ^ 64 → (putUvarint n).length ≤ 2 ^ 27 := by
    intro n hn
    exact (length_putUvarint_le_ten hn).trans (by decide)
  have hint : ∀ i : ℤ, uint64OfInt i < 2 ^ 64 := by
    intro i
    rw [uint64OfInt]
    omega
  have hbytes : ∀ {data : Bytes} {k : ℕ}, data.length ≤ k → k ≤ 2 ^ 26 →
      (putBytes data).length ≤ 2 ^ 27 := by
    intro data k hle hk
    have hlength := length_putUvarint_le_ten (n := data.length) (by omega)
    rw [putBytes, List.length_append]
    omega
  have hbyte : ∀ b : UInt8, [b].length ≤ 2 ^ 27 := fun _ => Nat.one_le_two_pow
  obtain ⟨hlo, hhi⟩ := wireTimestamp_range m.frame.timestamp
  have hparts : (messageBytes m).length ≤ 17 * 2 ^ 27 := by
    rw [messageBytes, List.length_flatten]
    refine List.sum_le_card_nsmul _ _ ?_
    simp only [List.map_cons, List.map_nil, List.forall_mem_cons]
    exact ⟨hbyte _, hbyte _, hnumber hid, hnumber hsub, hnumber hack,
      hnumber hsequence, hnumber (zigzag_lt hlo hhi), hbyte _, hbyte _,
      hbytes htopic (by decide), hbytes hpayload (by decide), hbyte _,
      hnumber (hint _), hbyte _, hnumber (hint _), hnumber hsince,
      hbytes herror (by decide), fun _ hmem => absurd hmem (by simp)⟩
  exact Nat.lt_of_le_of_lt hparts (by decide)

private theorem getD_nil_of_length (data : Bytes) :
    (if data.length = 0 then none else some data).getD [] = data := by
  split
  next hlen =>
    rw [List.length_eq_zero_iff.mp hlen]
    rfl
  · rfl

private theorem payload_of_length (payload : Option Bytes) :
    (if (payload.getD []).length = 0 then none else some (payload.getD [])) =
      if (payload.getD []).length = 0 then none else payload := by
  cases payload with
  | none => rfl
  | some data => rfl

/-- The encoder writes the topic of the normal form. -/
theorem topics_normalized (m : Message) : m.normalized.frame.topic = wireTopic m ∧
    m.normalized.options.topic = if m.kind = messageSubscribe then wireTopic m else [] := by
  refine ⟨rfl, ?_⟩
  rw [wireTopic, Message.normalized]
  by_cases hsub : m.kind = messageSubscribe <;> simp [hsub]

theorem decodeFields_reads (hm : m.WireValid) (htopic : (wireTopic m).length ≤ maxTextBytes)
    (hpayload : m.frame.payloadLength ≤ maxWirePayloadBytes)
    (herror : m.error.length ≤ maxTextBytes) :
    Reads decodeFields (messageBytes m) m.normalized := by
  have hbuffer := uint64OfInt_of_nonneg hm.buffer.1 hm.buffer.2
  have hreplay := uint64OfInt_of_nonneg hm.replay.1 hm.replay.2
  obtain ⟨htsLo, htsHi⟩ := wireTimestamp_range m.frame.timestamp
  have hmaxInt : ∀ i : ℤ, i < 2 ^ 63 → i.toNat ≤ maxInt := by
    intro i hi
    rw [maxInt]
    omega
  rw [messageBytes, hbuffer, hreplay]
  simp only [List.flatten_cons, List.flatten_nil]
  refine .bind (.next _ _) ?_
  refine .require_bind rfl ?_
  refine .bind (.next _ _) ?_
  refine .require_bind hm.kind ?_
  refine .bind (readNumber_reads hm.id) ?_
  refine .bind (readNumber_reads hm.subscriptionID) ?_
  refine .bind (readNumber_reads hm.ack) ?_
  refine .bind (readNumber_reads hm.sequence) ?_
  refine .bind (readVarint_reads _ htsLo htsHi) ?_
  refine .bind (.next _ _) ?_
  refine .require_bind hm.reliability ?_
  refine .bind (.next _ _) ?_
  refine .require_bind hm.priority ?_
  refine .bind (readBytes_reads htopic (by decide)) ?_
  refine .bind (readBytes_reads hpayload (by decide)) ?_
  refine .bind (.next _ _) ?_
  refine .bind (readNumber_reads (by have := hm.buffer; omega)) ?_
  refine .require_bind (hmaxInt _ hm.buffer.2) ?_
  refine .bind (.next _ _) ?_
  refine .require_bind hm.overflow ?_
  refine .bind (readNumber_reads (by have := hm.replay; omega)) ?_
  refine .require_bind (hmaxInt _ hm.replay.2) ?_
  refine .bind (readNumber_reads hm.since) ?_
  refine .bind (readBytes_reads herror (by decide)) ?_
  have hprefix :
      decide ((if m.options.isPrefix then (1 : UInt8) else 0) = 1) =
        m.options.isPrefix := by
    cases m.options.isPrefix <;> rfl
  rw [timeOfTimestamp_wireTimestamp hm.timestamp, getD_nil_of_length,
    getD_nil_of_length, payload_of_length, hprefix,
    Int.toNat_of_nonneg hm.buffer.1, Int.toNat_of_nonneg hm.replay.1,
    ← (topics_normalized m).2]
  exact .pure m.normalized

theorem encodeMessage_eq_ok_iff : encodeMessage m = .ok data ↔
      (wireTopic m).length ≤ maxTextBytes ∧ m.frame.payloadLength ≤ maxWirePayloadBytes ∧
        m.error.length ≤ maxTextBytes ∧ messageBytes m = data := by
  rw [encodeMessage]
  split
  next hlong =>
    constructor
    · intro h
      cases h
    · rintro ⟨htopic, hpayload, herror, -⟩
      omega
  next hshort =>
    simp only [not_or, not_lt] at hshort
    constructor
    · intro h
      cases h
      exact ⟨hshort.1, hshort.2.1, hshort.2.2, rfl⟩
    · rintro ⟨-, -, -, rfl⟩
      rfl

theorem decodeMessage_eq_ok_iff : decodeMessage data = .ok m ↔ decodeFields data = .ok (m, []) := by
  rw [decodeMessage]
  split
  next e h => simp [h]
  next message rest h =>
    rw [h]
    by_cases hrest : rest = []
    · simp [hrest]
    · simp [hrest]

theorem decodeMessage_messageBytes (hm : m.WireValid) (htopic : (wireTopic m).length ≤ maxTextBytes)
    (hpayload : m.frame.payloadLength ≤ maxWirePayloadBytes)
    (herror : m.error.length ≤ maxTextBytes) :
    decodeMessage (messageBytes m) = .ok m.normalized :=
  decodeMessage_eq_ok_iff.mpr (decodeFields_reads hm htopic hpayload herror).run

/-- Decoding an encoded message returns it in normal form. -/
theorem decodeMessage_encodeMessage {m : Message} {data : Bytes}
    (hm : m.WireValid) (h : encodeMessage m = .ok data) :
    decodeMessage data = .ok m.normalized := by
  obtain ⟨htopic, hpayload, herror, rfl⟩ := encodeMessage_eq_ok_iff.mp h
  exact decodeMessage_messageBytes hm htopic hpayload herror

/-- A subscribe message on topic `t` for frames after number 300, with a
buffer of 64 frames. -/
def sampleSubscribe : Message :=
  { kind := messageSubscribe
    id := 7
    subscriptionID := 0
    ack := 0
    frame := { Frame.zero with payload := some [] }
    options :=
      { topic := [116], isPrefix := false, buffer := 64, overflow := dropOldest,
        replay := 0, since := 300 }
    error := [] }

theorem sampleSubscribe_wireValid : sampleSubscribe.WireValid := by constructor <;> decide

/-- The message comes back with its topic in the frame as well, and without a
payload. -/
def receivedSubscribe : Message :=
  { sampleSubscribe with frame := ⟨0, Time.zero, [116], none, reliable, priorityBulk⟩ }

theorem decodeMessage_sampleSubscribe : ∃ data, encodeMessage sampleSubscribe = .ok data ∧
      decodeMessage data = .ok receivedSubscribe := by
  have hencode : encodeMessage sampleSubscribe = .ok (messageBytes sampleSubscribe) := rfl
  exact ⟨_, hencode, decodeMessage_encodeMessage sampleSubscribe_wireValid hencode⟩

/-! ## Decoding hostile bytes -/

private theorem natCast_range {n : ℕ} (h : n ≤ maxInt) : 0 ≤ (n : ℤ) ∧ (n : ℤ) < 2 ^ 63 := by
  rw [maxInt] at h
  omega

theorem timeOfTimestamp_valid {timestamp : ℤ} (h : -2 ^ 63 ≤ timestamp ∧ timestamp < 2 ^ 63) :
    (timeOfTimestamp timestamp).IsZero ∨ ((timeOfTimestamp timestamp).nanos ≠ 0 ∧
        -2 ^ 63 ≤ (timeOfTimestamp timestamp).nanos ∧
        (timeOfTimestamp timestamp).nanos < 2 ^ 63) := by
  rw [timeOfTimestamp]
  split
  next => exact .inl rfl
  next hne => exact .inr ⟨hne, h⟩

theorem timeOfTimestamp_utc (timestamp : ℤ) : (timeOfTimestamp timestamp).utc = true := by
  rw [timeOfTimestamp]
  split <;> rfl

theorem wireTopic_eq_topic (htopic : m.options.topic =
      if m.kind = messageSubscribe then m.frame.topic else []) :
    wireTopic m = m.frame.topic := by
  rw [wireTopic]
  split
  next hsub => rw [htopic, if_pos hsub.1]
  next => rfl

theorem normalized_eq_self (htopic : m.options.topic =
      if m.kind = messageSubscribe then m.frame.topic else []) (hutc : m.frame.timestamp.utc = true)
    (hpayload : m.frame.payload ≠ some []) :
    m.normalized = m := by
  have htime : m.frame.timestamp.toUTC = m.frame.timestamp := by rw [Time.toUTC, ← hutc]
  have hnil : (if m.frame.payloadLength = 0 then none else m.frame.payload) =
      m.frame.payload := by
    split
    next hzero =>
      cases hp : m.frame.payload with
      | none => rfl
      | some data =>
        rw [Frame.payloadLength, hp] at hzero
        have hempty : data = [] := List.length_eq_zero_iff.mp hzero
        exact absurd (by rw [hp, hempty]) hpayload
    next => rfl
  obtain ⟨hframe, hoptions⟩ := topics_normalized m
  rw [wireTopic_eq_topic htopic] at hframe hoptions
  rw [← htopic] at hoptions
  rw [Message.normalized] at hframe hoptions ⊢
  dsimp only at hframe hoptions
  rw [hframe, hoptions, htime, hnil]

theorem decodeFields_ensures : Ensures decodeFields fun m =>
      m.WireValid ∧ m.normalized = m ∧ (wireTopic m).length ≤ maxTextBytes ∧
        m.frame.payloadLength ≤ maxWirePayloadBytes ∧
        m.error.length ≤ maxTextBytes := by
  refine .bind (.trivial _) fun version _ => ?_
  refine .bind (.trivial _) fun _ _ => ?_
  refine .bind (.trivial _) fun kind _ => ?_
  refine .bind (.require _ _) fun _ hkind => ?_
  refine .bind (readUvarint_ensures _) fun id hid => ?_
  refine .bind (readUvarint_ensures _) fun subscriptionID hsub => ?_
  refine .bind (readUvarint_ensures _) fun ack hack => ?_
  refine .bind (readUvarint_ensures _) fun sequence hsequence => ?_
  refine .bind (readVarint_ensures _) fun timestamp htimestamp => ?_
  refine .bind (.trivial _) fun reliability _ => ?_
  refine .bind (.require _ _) fun _ hreliability => ?_
  refine .bind (.trivial _) fun priority _ => ?_
  refine .bind (.require _ _) fun _ hpriority => ?_
  refine .bind (readBytes_ensures _) fun topic htopic => ?_
  refine .bind (readBytes_ensures _) fun payload hpayload => ?_
  refine .bind (.trivial _) fun prefixByte _ => ?_
  refine .bind (readUvarint_ensures _) fun buffer _ => ?_
  refine .bind (.require _ _) fun _ hbuffer => ?_
  refine .bind (.trivial _) fun overflow _ => ?_
  refine .bind (.require _ _) fun _ hoverflow => ?_
  refine .bind (readUvarint_ensures _) fun replay _ => ?_
  refine .bind (.require _ _) fun _ hreplay => ?_
  refine .bind (readUvarint_ensures _) fun since hsince => ?_
  refine .bind (readBytes_ensures _) fun errorText herror => ?_
  apply Ensures.pure
  refine ⟨?_, ?_, ?_, hpayload.1, herror.1⟩
  · exact
      { kind := hkind
        id := hid
        subscriptionID := hsub
        ack := hack
        sequence := hsequence
        timestamp := timeOfTimestamp_valid htimestamp
        reliability := hreliability
        priority := hpriority
        buffer := natCast_range hbuffer
        overflow := hoverflow
        replay := natCast_range hreplay
        since := hsince }
  · exact normalized_eq_self rfl (timeOfTimestamp_utc _) hpayload.2
  · rw [wireTopic_eq_topic rfl]
    exact htopic.1

/-- Re-encoding a decoded message succeeds, and decoding the result returns
the same message. -/
theorem decodeMessage_reencode {b : Bytes} {m : Message} (h : decodeMessage b = .ok m) :
    ∃ data, encodeMessage m = .ok data ∧ decodeMessage data = .ok m := by
  obtain ⟨hm, hnormal, htopic, hpayload, herror⟩ :=
    decodeFields_ensures b m [] (decodeMessage_eq_ok_iff.mp h)
  refine ⟨messageBytes m, encodeMessage_eq_ok_iff.mpr ⟨htopic, hpayload, herror, rfl⟩, ?_⟩
  have hread := decodeFields_reads hm htopic hpayload herror
  rw [hnormal] at hread
  exact decodeMessage_eq_ok_iff.mpr hread.run

/-- A ping whose number 5 is written in two bytes and whose prefix byte is
neither 0 nor 1. -/
def looseBytes : Bytes := [1, 8, 0x85, 0, 0, 0, 0, 0, 0, 0, 0, 0, 7, 0, 0, 0, 0, 0]

theorem decodeMessage_reencode_looseBytes : ∃ m data, decodeMessage looseBytes = .ok m ∧
      encodeMessage m = .ok data ∧ data ≠ looseBytes ∧
      decodeMessage data = .ok m := by
  have hdecode : decodeMessage looseBytes =
      .ok { kind := messagePing, id := 5, subscriptionID := 0, ack := 0,
            frame := .zero,
            options := ⟨[], false, 0, block, 0, 0⟩, error := [] } := rfl
  obtain ⟨data, hencode, hagain⟩ := decodeMessage_reencode hdecode
  refine ⟨_, data, hdecode, hencode, ?_, hagain⟩
  rintro rfl
  have hbytes := (encodeMessage_eq_ok_iff.mp hencode).2.2.2
  simp [messageBytes, looseBytes, putUvarint, putVarint, putBytes, zigzag,
    wireTimestamp, wireTopic, uint64OfInt, Frame.zero, Time.IsZero,
    messagePing, wireVersion] at hbytes

/-! ## Truncated and over-long messages -/

theorem decodeFields_stable : Stable decodeFields := by
  refine .bind (.next _) fun _ => ?_
  refine .bind (.require _ _) fun _ => ?_
  refine .bind (.next _) fun _ => ?_
  refine .bind (.require _ _) fun _ => ?_
  refine .bind (readUvarint_stable _) fun _ => ?_
  refine .bind (readUvarint_stable _) fun _ => ?_
  refine .bind (readUvarint_stable _) fun _ => ?_
  refine .bind (readUvarint_stable _) fun _ => ?_
  refine .bind (readVarint_stable _) fun _ => ?_
  refine .bind (.next _) fun _ => ?_
  refine .bind (.require _ _) fun _ => ?_
  refine .bind (.next _) fun _ => ?_
  refine .bind (.require _ _) fun _ => ?_
  refine .bind (readBytes_stable _) fun _ => ?_
  refine .bind (readBytes_stable _) fun _ => ?_
  refine .bind (.next _) fun _ => ?_
  refine .bind (readUvarint_stable _) fun _ => ?_
  refine .bind (.require _ _) fun _ => ?_
  refine .bind (.next _) fun _ => ?_
  refine .bind (.require _ _) fun _ => ?_
  refine .bind (readUvarint_stable _) fun _ => ?_
  refine .bind (.require _ _) fun _ => ?_
  refine .bind (readUvarint_stable _) fun _ => ?_
  refine .bind (readBytes_stable _) fun _ => ?_
  exact .pure _

theorem decodeMessage_append {b c : Bytes} (hc : c ≠ []) (h : decodeMessage b = .ok m) :
    decodeMessage (b ++ c) = .error .invalidWireMessage := by
  have hfields := decodeFields_stable b m [] (decodeMessage_eq_ok_iff.mp h) c
  simp [decodeMessage, hfields, hc]

/-- Accepted messages are prefix-free: an accepted input extended by some
bytes is rejected, and so is every strict prefix of an accepted input. -/
theorem decodeMessage_prefixFree {b c : Bytes} (hc : c ≠ []) : (∀ m, decodeMessage b = .ok m →
      decodeMessage (b ++ c) = .error .invalidWireMessage) ∧
    (∀ m, decodeMessage (b ++ c) = .ok m → ∃ e, decodeMessage b = .error e) := by
  refine ⟨fun m h => decodeMessage_append hc h, ?_⟩
  intro m hlong
  cases hshort : decodeMessage b with
  | error e => exact ⟨e, rfl⟩
  | ok m' =>
    rw [decodeMessage_append hc hshort] at hlong
    cases hlong

theorem decodeMessage_prefixFree_looseBytes :
    decodeMessage (looseBytes ++ [0]) = .error .invalidWireMessage := by
  have hfree := decodeMessage_prefixFree (b := looseBytes) (c := [0]) (List.cons_ne_nil _ _)
  exact hfree.1 _ rfl

end GoWarp.StreamBus
