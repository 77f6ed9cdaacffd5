import GoWarp.StreamBus.Wire

/-!
# Messages on a reliable stream

`WriteMessage` puts the length of an encoded message before it, and
`ReadMessage` reads a length and then as many bytes.  Whatever number of bytes
the writer takes at a time and whatever pieces they arrive in, a reader gets
back the messages that were written.
-/

namespace GoWarp.StreamBus

open Support Support.Decoder

variable {ε σ : Type}

inductive WriteError (ε : Type) where
  | wire (e : WireError)
  | io (fault : WriteFault ε)
deriving DecidableEq

/-- `WriteMessage`: its error, if any, and the writer it leaves. -/
def writeMessage (W : Writer UInt8 ε σ) (message : Message) (s : σ) : Option (WriteError ε) × σ :=
  match encodeMessage message with
  | .error e => (some (.wire e), s)
  | .ok data =>
    match W.writeAll (putUvarint data.length) s with
    | (some fault, s') => (some (.io fault), s')
    | (none, s') =>
      match W.writeAll data s' with
      | (some fault, s'') => (some (.io fault), s'')
      | (none, s'') => (none, s'')

/-- Write messages one after the other, up to the first error. -/
def writeMessages (W : Writer UInt8 ε σ) : List Message → σ → Option (WriteError ε) × σ
  | [], s => (none, s)
  | message :: rest, s =>
    match writeMessage W message s with
    | (some e, s') => (some e, s')
    | (none, s') => writeMessages W rest s'

/-! ## Reading -/

inductive StreamError where
  | eof
  | unexpectedEOF
  | overflow
  | frameTooLong (size maximum : ℕ)
  | wire (e : WireError)
deriving DecidableEq

namespace StreamError

def ofRead : ReadFault → StreamError
  | .eof => .eof
  | .unexpectedEOF => .unexpectedEOF

def ofUvarint : UvarintFault → StreamError
  | .read fault => ofRead fault
  | .overflow => .overflow

end StreamError

structure Reader where
  reader : BufReader UInt8
  max : ℕ

/-- The buffer size of `bufio.NewReader`. -/
def defaultBufSize : ℕ := 4096

/-- The maximum that `NewReader` puts in the place of a non-positive one. -/
def defaultMaximum : ℕ := 64 * 2 ^ 20

def newReader (source : Source UInt8) (maximum : ℤ) : Reader where
  reader := BufReader.new defaultBufSize (by decide) source
  max := if maximum ≤ 0 then defaultMaximum else maximum.toNat

namespace Reader

/-- The bytes still to come. -/
def tokens (r : Reader) : Bytes := r.reader.tokens

/-- `Reader.ReadMessage`: the message and the reader it leaves. -/
def readMessage (r : Reader) : Except StreamError (Message × Reader) :=
  match r.reader.readUvarint with
  | .error fault => .error (StreamError.ofUvarint fault)
  | .ok (size, reader) =>
    if r.max < size then
      .error (.frameTooLong size r.max)
    else
      match reader.readFull size with
      | .error fault => .error (StreamError.ofRead fault)
      | .ok (data, reader') =>
        match decodeMessage data with
        | .error e => .error (.wire e)
        | .ok message => .ok (message, { r with reader := reader' })

/-- Read at most `n` messages: those before the first error, and the error. -/
def readMessages : ℕ → Reader → List Message × Option StreamError
  | 0, _ => ([], none)
  | n + 1, r =>
    match r.readMessage with
    | .error e => ([], some e)
    | .ok (message, r') =>
      let (messages, e) := readMessages n r'
      (message :: messages, e)

end Reader

/-! ## The bytes of a stream -/

/-- A message as it stands on a stream. -/
def frameBytes (message : Message) : Bytes := putBytes (messageBytes message)

def streamBytes (messages : List Message) : Bytes := messages.flatMap frameBytes

@[simp] theorem streamBytes_nil : streamBytes [] = [] := rfl

@[simp] theorem streamBytes_cons (m : Message) (ms : List Message) :
    streamBytes (m :: ms) = frameBytes m ++ streamBytes ms := rfl

/-- A message that can be written and that a reader with the given maximum
accepts. -/
structure Message.Framable (m : Message) (maximum : ℕ) : Prop where
  valid : m.WireValid
  encodes : encodeMessage m = .ok (messageBytes m)
  fits : (messageBytes m).length ≤ maximum

variable {m : Message} {W : Writer UInt8 ε σ}

theorem framable_of_encodeMessage {data : Bytes} {maximum : ℕ}
    (hvalid : m.WireValid) (h : encodeMessage m = .ok data)
    (hlen : data.length ≤ maximum) : m.Framable maximum := by
  obtain rfl := (encodeMessage_eq_ok_iff.mp h).2.2.2
  exact ⟨hvalid, h, hlen⟩

theorem Message.Framable.length_lt {maximum : ℕ}
    (hm : m.Framable maximum) : (messageBytes m).length < 2 ^ 64 := by
  obtain ⟨htopic, hpayload, herror, _⟩ := encodeMessage_eq_ok_iff.mp hm.encodes
  exact length_messageBytes_lt hm.valid.id hm.valid.subscriptionID
    hm.valid.ack hm.valid.sequence hm.valid.since htopic hpayload herror

theorem writeMessage_accepting (hW : W.Accepting)
    (h : encodeMessage m = .ok (messageBytes m)) (s : σ) :
    ∃ s', writeMessage W m s = (none, s') ∧ W.output s' = W.output s ++ frameBytes m := by
  obtain ⟨s₁, hlength, hout₁⟩ := hW.writeAll (putUvarint (messageBytes m).length) s
  obtain ⟨s₂, hdata, hout₂⟩ := hW.writeAll (messageBytes m) s₁
  refine ⟨s₂, ?_, ?_⟩
  · simp only [writeMessage, h, hlength, hdata]
  · rw [hout₂, hout₁, List.append_assoc, frameBytes, putBytes]

theorem writeMessages_accepting (hW : W.Accepting) {ms : List Message}
    (h : ∀ m ∈ ms, encodeMessage m = .ok (messageBytes m)) (s : σ) :
    ∃ s', writeMessages W ms s = (none, s') ∧ W.output s' = W.output s ++ streamBytes ms := by
  induction ms generalizing s with
  | nil => exact ⟨s, rfl, by simp⟩
  | cons m ms ih =>
    obtain ⟨hm, hms⟩ := List.forall_mem_cons.mp h
    obtain ⟨s₁, hwrite, hout₁⟩ := writeMessage_accepting hW hm s
    obtain ⟨s₂, hrest, hout₂⟩ := ih hms s₁
    refine ⟨s₂, ?_, ?_⟩
    · rw [writeMessages, hwrite]
      exact hrest
    · rw [hout₂, hout₁, List.append_assoc, streamBytes_cons]

/-! ## Reading a message back -/

namespace Reader

variable {r : Reader} {m : Message}

theorem readMessage_of_nil (h : r.tokens = []) : r.readMessage = .error .eof := by
  rw [readMessage, BufReader.readUvarint_of_nil h]
  rfl

theorem readMessage_putBytes {data rest : Bytes} (hfit : data.length < 2 ^ 64)
    (h : r.tokens = putBytes data ++ rest) :
    ∃ reader, reader.tokens = rest ∧ r.readMessage =
        if r.max < data.length then .error (.frameTooLong data.length r.max)
        else
          match decodeMessage data with
          | .error e => .error (.wire e)
          | .ok message => .ok (message, { r with reader := reader }) := by
  obtain ⟨reader, hsize, htokens⟩ : ∃ reader, r.reader.readUvarint = .ok (data.length, reader) ∧
        reader.tokens = data ++ rest := by
    apply (BufReader.readUvarint_eq_ok_iff ()).mpr
    change readUvarint () r.tokens = _
    rw [h, putBytes, List.append_assoc]
    exact readUvarint_reads () hfit _
  have hle : data.length ≤ reader.tokens.length := by
    rw [htokens, List.length_append]
    exact Nat.le_add_right _ _
  obtain ⟨reader', hfull, htokens'⟩ := BufReader.readFull_of_le hle
  rw [htokens, List.take_left] at hfull
  rw [htokens, List.drop_left] at htokens'
  refine ⟨reader', htokens', ?_⟩
  simp only [readMessage, hsize, hfull]

theorem readMessage_frame (hm : m.Framable r.max) {rest : Bytes}
    (h : r.tokens = frameBytes m ++ rest) :
    ∃ r', r.readMessage = .ok (m.normalized, r') ∧ r'.tokens = rest ∧ r'.max = r.max := by
  obtain ⟨reader, htokens, hread⟩ := readMessage_putBytes hm.length_lt h
  obtain ⟨htopic, hpayload, herror, _⟩ := encodeMessage_eq_ok_iff.mp hm.encodes
  have hdecode := decodeMessage_messageBytes hm.valid htopic hpayload herror
  refine ⟨{ r with reader := reader }, ?_, htokens, rfl⟩
  rw [hread, if_neg (Nat.not_lt.mpr hm.fits), hdecode]

theorem readMessage_cut {maximum : ℕ} (hm : m.Framable maximum) {more : Bytes} (hmore : more ≠ [])
    (h : r.tokens ++ more = frameBytes m) :
    ∃ e, r.readMessage = .error e := by
  rw [readMessage]
  rcases hsize : r.reader.readUvarint with fault | ⟨size, reader⟩
  · exact ⟨_, rfl⟩
  · -- the length was read from the bytes that are there, so it is the one sent
    have hdecode := (BufReader.readUvarint_eq_ok_iff ()).mp ⟨reader, hsize, rfl⟩
    have hstable := readUvarint_stable () _ _ _ hdecode more
    change readUvarint () (r.tokens ++ more) = _ at hstable
    rw [h, frameBytes, putBytes, readUvarint_reads () hm.length_lt,
      Except.ok.injEq, Prod.mk.injEq] at hstable
    have hshort : reader.tokens.length < size := by
      have hpos := List.length_pos_iff.mpr hmore
      rw [← hstable.1, hstable.2, List.length_append]
      omega
    obtain ⟨fault, hfault⟩ := BufReader.readFull_of_lt hshort
    dsimp only
    rw [hfault]
    split
    · exact ⟨_, rfl⟩
    · exact ⟨_, rfl⟩

/-! ## Reading a stream back -/

/-- The number of messages that are complete in the beginning `cut` of a
stream. -/
def IsComplete (ms : List Message) (cut : Bytes) (n : ℕ) : Prop :=
  n ≤ ms.length ∧ streamBytes (ms.take n) <+: cut ∧
    (n < ms.length → ¬ streamBytes (ms.take (n + 1)) <+: cut)

theorem IsComplete.cons {ms : List Message} {cut : Bytes} {n : ℕ}
    (h : IsComplete ms cut n) (m : Message) :
    IsComplete (m :: ms) (frameBytes m ++ cut) (n + 1) := by
  obtain ⟨hle, hcomplete, hnext⟩ := h
  refine ⟨Nat.succ_le_succ hle, ?_, ?_⟩
  · rw [List.take_succ_cons, streamBytes_cons, List.prefix_append_right_inj]
    exact hcomplete
  · intro hlt
    rw [List.take_succ_cons, streamBytes_cons, List.prefix_append_right_inj]
    exact hnext (Nat.lt_of_succ_lt_succ hlt)

theorem isComplete_zero {cut left : Bytes} (hleft : left ≠ [])
    (h : cut ++ left = frameBytes m) (ms : List Message) :
    IsComplete (m :: ms) cut 0 := by
  refine ⟨Nat.zero_le _, ?_, fun _ hall => ?_⟩
  · rw [List.take_zero, streamBytes_nil]
    exact List.nil_prefix
  · have hlen := hall.length_le
    have hpos := List.length_pos_iff.mpr hleft
    rw [List.take_succ_cons, List.take_zero, streamBytes_cons,
      streamBytes_nil, List.append_nil, ← h, List.length_append] at hlen
    omega

theorem readMessages_cut {maximum : ℕ} {ms : List Message} (hms : ∀ m ∈ ms, m.Framable maximum)
    (hr : r.max = maximum) {more : Bytes} (h : r.tokens ++ more = streamBytes ms) :
    ∃ n e, IsComplete ms r.tokens n ∧ (∀ k, n < k → readMessages k r =
        ((ms.take n).map Message.normalized, some e)) ∧
      (more = [] → n = ms.length ∧ e = .eof) := by
  induction ms generalizing r with
  | nil =>
    have hnil : r.tokens = [] := (List.append_eq_nil_iff.mp h).1
    refine ⟨0, .eof, ⟨Nat.le_refl _, ?_, fun hlt => absurd hlt (by simp)⟩, ?_, fun _ => ⟨rfl, rfl⟩⟩
    · rw [List.take_nil, streamBytes_nil]
      exact List.nil_prefix
    · intro k hk
      obtain ⟨k, rfl⟩ := Nat.exists_eq_succ_of_ne_zero hk.ne'
      simp only [readMessages, readMessage_of_nil hnil, List.take_nil, List.map_nil]
  | cons m ms ih =>
    obtain ⟨hm, hms⟩ := List.forall_mem_cons.mp hms
    rw [streamBytes_cons] at h
    rcases append_eq_cases h with
      ⟨rest, htokens, hrest⟩ | ⟨left, hleft, hframe, hmore⟩
    · obtain ⟨r', hread, hr', hmax'⟩ :=
        readMessage_frame (hr ▸ hm) htokens
      obtain ⟨n, e, hn, hrun, hend⟩ := ih hms (hmax'.trans hr) (by rw [hr', hrest])
      refine ⟨n + 1, e, ?_, ?_, ?_⟩
      · rw [htokens, ← hr']
        exact hn.cons m
      · intro k hk
        obtain ⟨k, rfl⟩ := Nat.exists_eq_succ_of_ne_zero (by omega : k ≠ 0)
        simp only [readMessages, hread, hrun k (by omega), List.take_succ_cons, List.map_cons]
      · intro hnil
        obtain ⟨hlen, he⟩ := hend hnil
        exact ⟨by rw [hlen, List.length_cons], he⟩
    · -- the stream ends inside this message
      obtain ⟨e, he⟩ := readMessage_cut hm hleft hframe
      refine ⟨0, e, isComplete_zero hleft hframe ms, ?_, ?_⟩
      · intro k hk
        obtain ⟨k, rfl⟩ := Nat.exists_eq_succ_of_ne_zero hk.ne'
        simp only [readMessages, he, List.take_zero, List.map_nil]
      · rintro rfl
        exact absurd (List.append_eq_nil_iff.mp hmore.symm).1 hleft

end Reader

/-- Messages written one after the other, to a writer that takes any number of
bytes at a time, are read back in normal form and in order, and then the stream
ends.  From the beginning of the stream up to any byte, the messages that are
complete are read back, and then an error. -/
theorem readMessages_writeMessages {W : Writer UInt8 ε σ} (hW : W.Accepting)
    {s : σ} (hs : W.output s = []) {maximum : ℤ} (hpos : 0 < maximum)
    (ms : List Message)
    (hms : ∀ m ∈ ms, m.WireValid ∧ ∃ data, encodeMessage m = .ok data ∧ data.length ≤ maximum) :
    ∃ s', writeMessages W ms s = (none, s') ∧
      (∀ source : Source UInt8, source.tokens = W.output s' → ∀ k, ms.length < k →
          (newReader source maximum).readMessages k = (ms.map Message.normalized, some .eof)) ∧
      (∀ cut more, cut ++ more = W.output s' → ∀ source : Source UInt8, source.tokens = cut →
          ∃ n e, Reader.IsComplete ms cut n ∧
            ∀ k, n < k → (newReader source maximum).readMessages k =
              ((ms.take n).map Message.normalized, some e)) := by
  have hframable : ∀ m ∈ ms, m.Framable maximum.toNat := by
    intro m hm
    obtain ⟨hvalid, data, hencode, hlen⟩ := hms m hm
    exact framable_of_encodeMessage hvalid hencode (by omega)
  have hmax : ∀ source, (newReader source maximum).max = maximum.toNat :=
    fun source => if_neg (Int.not_le.mpr hpos)
  obtain ⟨s', hwrite, hout⟩ := writeMessages_accepting hW (fun m hm => (hframable m hm).encodes) s
  rw [hs, List.nil_append] at hout
  refine ⟨s', hwrite, ?_, ?_⟩
  · intro source hsource k hk
    have hstream : (newReader source maximum).tokens ++ [] = streamBytes ms := by
      rw [List.append_nil, ← hout]
      exact hsource
    obtain ⟨n, e, _, hrun, hend⟩ := Reader.readMessages_cut
      (r := newReader source maximum) hframable (hmax source) hstream
    obtain ⟨rfl, rfl⟩ := hend rfl
    rw [hrun k hk, List.take_length]
  · intro cut more hcut source hsource
    have hstream : (newReader source maximum).tokens ++ more = streamBytes ms := by
      rw [← hout, ← hcut, ← hsource]
      rfl
    obtain ⟨n, e, hn, hrun, _⟩ := Reader.readMessages_cut
      (r := newReader source maximum) hframable (hmax source) hstream
    refine ⟨n, e, ?_, hrun⟩
    rw [← hsource]
    exact hn

/-- A writer that takes at most two bytes at a time. -/
def twoByteWriter : Writer UInt8 Empty Bytes where
  write := fun s data => ((min 2 data.length, none), s ++ data.take 2)
  output := id
  count_le := fun _ _ => Nat.min_le_right _ _
  output_write := fun s data => by
    rw [← List.take_eq_take_min]
    rfl

theorem twoByteWriter_accepting : twoByteWriter.Accepting := by
  intro s data hdata
  refine ⟨rfl, ?_⟩
  have hpos := List.length_pos_iff.mpr hdata
  change 0 < min 2 data.length
  omega

theorem readMessages_sampleSubscribe :
    ∃ s', writeMessages twoByteWriter [sampleSubscribe, sampleSubscribe] [] = (none, s') ∧
      ∀ source : Source UInt8, source.tokens = s' → (newReader source 1024).readMessages 3 =
          ([receivedSubscribe, receivedSubscribe], some .eof) := by
  have hms : ∀ m ∈ [sampleSubscribe, sampleSubscribe], m.WireValid ∧
      ∃ data, encodeMessage m = .ok data ∧ data.length ≤ (1024 : ℤ) := by
    intro m hm
    obtain rfl : m = sampleSubscribe := by simpa using hm
    refine ⟨sampleSubscribe_wireValid, messageBytes sampleSubscribe, rfl, ?_⟩
    simp [messageBytes, sampleSubscribe, putUvarint, putVarint, putBytes,
      zigzag, wireTimestamp, wireTopic, uint64OfInt, Frame.zero, Time.IsZero,
      messageSubscribe]
  obtain ⟨s', hwrite, hread, _⟩ := readMessages_writeMessages
    twoByteWriter_accepting rfl (by decide) _ hms
  exact ⟨s', hwrite, fun source hsource => hread source hsource 3 (by decide)⟩

end GoWarp.StreamBus
