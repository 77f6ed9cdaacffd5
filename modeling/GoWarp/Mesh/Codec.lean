import GoWarp.Mesh.Packet

/-!
# The codec of the mesh bus

The wire format of a packet is a function of the fields that its type carries.
`marshal` succeeds exactly if the buffer has room for it, and `unmarshal`
accepts exactly the byte strings that begin with the wire format of a packet
and returns that packet.  The two directions of the round trip follow.

A batch carries neither hash nor key, and the other packets carry no list of
keys: these fields come back empty.
-/

namespace GoWarp.Mesh

open Support
open Option (bind_eq_bind bind_some)
open List (append_assoc append_nil drop_drop length_append length_cons length_drop
  length_replicate replicate)

namespace Packet

def wireKeys (keys : List Bytes) : Bytes :=
  keys.flatMap fun k => putBigEndian 2 (UInt16.ofNat k.length).toNat ++ k

/-- What all packets begin with. -/
def head (p : Packet) : Bytes := [p.magic] ++ [p.kind] ++ p.nodeID.bytes

def body (p : Packet) : Bytes :=
  if p.HasKey then
    putBigEndian 8 p.keyHash.toNat ++ putBigEndian 2 p.keyLen.toNat ++ p.key
  else if p.kind = typeBatch then
    putBigEndian 2 (UInt16.ofNat p.keys.length).toNat ++ wireKeys p.keys
  else
    []

def wire (p : Packet) : Bytes := p.head ++ p.body

@[simp] theorem length_head (p : Packet) : p.head.length = 18 := by
  simp [head, p.nodeID.length_bytes]

theorem length_wire (p : Packet) : p.wire.length = 18 + p.body.length := by
  rw [wire, length_append, length_head]

theorem wireKeys_cons (k : Bytes) (keys : List Bytes) : wireKeys (k :: keys) =
      putBigEndian 2 (UInt16.ofNat k.length).toNat ++ (k ++ wireKeys keys) := by
  rw [wireKeys, List.flatMap_cons, append_assoc]
  rfl

theorem length_wireKeys_cons (k : Bytes) (keys : List Bytes) :
    (wireKeys (k :: keys)).length = 2 + k.length + (wireKeys keys).length := by
  rw [wireKeys_cons, length_append, length_append, length_putBigEndian, Nat.add_assoc]

/-! ## Writing -/

theorem marshalKeys_cons (k : Bytes) (keys : List Bytes) (done rest : Bytes)
    (hroom : 2 + k.length ≤ rest.length) :
    marshalKeys (done ++ rest) done.length (k :: keys) =
      marshalKeys (done ++ putBigEndian 2 (UInt16.ofNat k.length).toNat ++ k ++
          rest.drop (2 + k.length))
        (done ++ putBigEndian 2 (UInt16.ofNat k.length).toNat ++ k).length
        keys := by
  have hlength := overwrite_append done rest
    (putBigEndian 2 (UInt16.ofNat k.length).toNat) done.length
    (done.length + 2) rfl (by simp) (by omega)
  have hkey := overwrite_append
    (done ++ putBigEndian 2 (UInt16.ofNat k.length).toNat) (rest.drop 2) k
    (done.length + 2) (done ++ rest).length (by simp)
    (by rw [length_append]; omega)
    (by simp only [length_append, length_putBigEndian,
          length_drop]; omega)
  rw [length_putBigEndian] at hlength
  have hsame : (done ++ putBigEndian 2 (UInt16.ofNat k.length).toNat ++
      rest.drop 2).length = (done ++ rest).length := by
    simp only [length_append, length_putBigEndian, length_drop]
    omega
  rw [marshalKeys, if_neg (by rw [length_append]; omega), hlength]
  simp only [bind_eq_bind, bind_some]
  rw [hsame, hkey, bind_some, drop_drop]
  congr 1
  simp only [length_append, length_putBigEndian]

theorem marshalKeys_of_le (keys : List Bytes) (done rest : Bytes)
    (h : (wireKeys keys).length ≤ rest.length) :
    marshalKeys (done ++ rest) done.length keys = some ⟨done.length + (wireKeys keys).length, none,
        done ++ wireKeys keys ++ rest.drop (wireKeys keys).length⟩ := by
  induction keys generalizing done rest with
  | nil => simp [wireKeys, marshalKeys]
  | cons k keys ih =>
    rw [length_wireKeys_cons] at h
    rw [marshalKeys_cons k keys done rest (by omega), ih _ _ (by
      rw [length_drop]; omega), length_wireKeys_cons, wireKeys_cons]
    simp only [length_append, length_putBigEndian, drop_drop, append_assoc, Nat.add_assoc]

theorem marshalKeys_of_lt (keys : List Bytes) (done rest : Bytes)
    (h : rest.length < (wireKeys keys).length) :
    ∃ m, marshalKeys (done ++ rest) done.length keys = some m ∧ m.err = some .shortBuffer := by
  induction keys generalizing done rest with
  | nil => cases h
  | cons k keys ih =>
    rw [length_wireKeys_cons] at h
    by_cases hroom : 2 + k.length ≤ rest.length
    · rw [marshalKeys_cons k keys done rest hroom]
      exact ih _ _ (by rw [length_drop]; omega)
    · rw [marshalKeys, if_pos (by rw [length_append]; omega)]
      exact ⟨_, rfl, rfl⟩

theorem marshal_of_length (p : Packet) (b : Bytes) (h : 18 ≤ b.length) :
    p.marshal b = p.marshalBody (p.head ++ b.drop 18) := by
  have hmagic := overwrite_append [] b [p.magic] 0 1 rfl (by simp) (by simp; omega)
  have hkind := overwrite_append [p.magic] (b.drop 1) [p.kind] 1 2 rfl (by simp) (by simp; omega)
  have hid := overwrite_append ([p.magic] ++ [p.kind]) (b.drop (1 + 1))
    p.nodeID.bytes 2 18 rfl (by simp [p.nodeID.length_bytes])
    (by simp; omega)
  simp only [List.nil_append, List.length_singleton, drop_drop,
    p.nodeID.length_bytes] at hmagic hkind hid
  rw [marshal, if_neg (by omega), hmagic]
  simp only [bind_eq_bind, bind_some]
  rw [hkind]
  simp only [bind_some]
  rw [hid, head]
  rfl

/-- The length of a key is the one that the packet says. -/
def Whole (p : Packet) : Prop := p.HasKey → p.keyLen.toNat = p.key.length

variable {p : Packet}

theorem body_of_hasKey (h : p.HasKey) : p.body = putBigEndian 8 p.keyHash.toNat ++
      putBigEndian 2 p.keyLen.toNat ++ p.key :=
  if_pos h

theorem not_hasKey_of_batch (h : p.kind = typeBatch) : ¬p.HasKey := by
  rw [HasKey, h]
  decide

theorem body_of_batch (h : p.kind = typeBatch) :
    p.body = putBigEndian 2 (UInt16.ofNat p.keys.length).toNat ++
      wireKeys p.keys := by
  rw [body, if_neg (not_hasKey_of_batch h), if_pos h]

theorem body_of_other (hkey : ¬p.HasKey) (hbatch : p.kind ≠ typeBatch) : p.body = [] := by
  rw [body, if_neg hkey, if_neg hbatch]

theorem marshalBody_of_hasKey (hkey : p.HasKey)
    (hwhole : p.Whole) (rest : Bytes) (h : 10 + p.key.length ≤ rest.length) :
    p.marshalBody (p.head ++ rest) =
      some ⟨p.wire.length, none, p.wire ++ rest.drop p.body.length⟩ := by
  have hhash := overwrite_append p.head rest (putBigEndian 8 p.keyHash.toNat)
    18 26 (by simp) (by simp) (by simp; omega)
  have hlen := overwrite_append (p.head ++ putBigEndian 8 p.keyHash.toNat)
    (rest.drop 8) (putBigEndian 2 p.keyLen.toNat) 26 28 (by simp) (by simp)
    (by simp; omega)
  have hwrite := overwrite_append
    (p.head ++ putBigEndian 8 p.keyHash.toNat ++ putBigEndian 2 p.keyLen.toNat)
    (rest.drop (8 + 2)) p.key 28 (18 + rest.length) (by simp) (by omega)
    (by simp; omega)
  simp only [length_putBigEndian, drop_drop] at hhash hlen hwrite
  have hlength : (p.head ++ putBigEndian 8 p.keyHash.toNat ++
      putBigEndian 2 p.keyLen.toNat ++ rest.drop (8 + 2)).length = 18 + rest.length := by
    simp only [length_append, length_head, length_putBigEndian, length_drop]
    omega
  rw [marshalBody, if_pos hkey, if_neg (by simp; omega), hhash]
  simp only [bind_eq_bind, bind_some]
  rw [hlen]
  simp only [bind_some]
  rw [hlength, hwrite]
  simp only [bind_some, wire, body_of_hasKey hkey, hwhole hkey,
    length_append, length_head, length_putBigEndian, append_assoc,
    ← Nat.add_assoc]

theorem marshalBody_of_batch (hbatch : p.kind = typeBatch)
    (rest : Bytes) (h : 2 + (wireKeys p.keys).length ≤ rest.length) :
    p.marshalBody (p.head ++ rest) =
      some ⟨p.wire.length, none, p.wire ++ rest.drop p.body.length⟩ := by
  have hcount := overwrite_append p.head rest
    (putBigEndian 2 (UInt16.ofNat p.keys.length).toNat) 18 20 (by simp)
    (by simp) (by simp; omega)
  have hkeys := marshalKeys_of_le p.keys
    (p.head ++ putBigEndian 2 (UInt16.ofNat p.keys.length).toNat)
    (rest.drop 2) (by rw [length_drop]; omega)
  have htwenty : (p.head ++ putBigEndian 2
      (UInt16.ofNat p.keys.length).toNat).length = 20 := by simp
  rw [length_putBigEndian] at hcount
  rw [htwenty] at hkeys
  rw [marshalBody, if_neg (not_hasKey_of_batch hbatch), if_pos hbatch,
    if_neg (by simp; omega), hcount]
  simp only [bind_eq_bind, bind_some]
  rw [hkeys]
  simp only [wire, body_of_batch hbatch, length_append, length_head,
    length_putBigEndian, append_assoc, drop_drop, ← Nat.add_assoc]

theorem marshal_of_le (hwhole : p.Whole) {b : Bytes} (h : p.wire.length ≤ b.length) :
    p.marshal b = some ⟨p.wire.length, none, p.wire ++ b.drop p.wire.length⟩ := by
  have hbody := length_wire p
  have hdrop : b.drop p.wire.length = (b.drop 18).drop p.body.length := by rw [drop_drop, hbody]
  rw [marshal_of_length p b (by omega), hdrop]
  by_cases hkey : p.HasKey
  · refine marshalBody_of_hasKey hkey hwhole _ ?_
    rw [body_of_hasKey hkey] at hbody
    simp only [length_append, length_putBigEndian] at hbody
    rw [length_drop]
    omega
  · by_cases hbatch : p.kind = typeBatch
    · refine marshalBody_of_batch hbatch _ ?_
      rw [body_of_batch hbatch, length_append, length_putBigEndian] at hbody
      rw [length_drop]
      omega
    · rw [marshalBody, if_neg hkey, if_neg hbatch, wire, body_of_other hkey hbatch]
      simp

theorem marshal_of_lt {b : Bytes} (h : b.length < p.wire.length) :
    ∃ m, p.marshal b = some m ∧ m.err = some .shortBuffer := by
  rw [length_wire] at h
  by_cases hhead : b.length < 18
  · rw [marshal, if_pos hhead]
    exact ⟨_, rfl, rfl⟩
  · rw [marshal_of_length p b (by omega), marshalBody]
    by_cases hkey : p.HasKey
    · rw [body_of_hasKey hkey] at h
      simp only [length_append, length_putBigEndian] at h
      rw [if_pos hkey, if_pos (by simp; omega)]
      exact ⟨_, rfl, rfl⟩
    · by_cases hbatch : p.kind = typeBatch
      · rw [body_of_batch hbatch, length_append, length_putBigEndian] at h
        rw [if_neg hkey, if_pos hbatch]
        by_cases hcount : b.length < 20
        · rw [if_pos (by simp; omega)]
          exact ⟨_, rfl, rfl⟩
        · have hwrite := overwrite_append p.head (b.drop 18)
            (putBigEndian 2 (UInt16.ofNat p.keys.length).toNat) 18 20 (by simp)
            (by simp) (by simp; omega)
          have hkeys := marshalKeys_of_lt p.keys
            (p.head ++ putBigEndian 2 (UInt16.ofNat p.keys.length).toNat)
            ((b.drop 18).drop 2) (by simp only [length_drop]; omega)
          rw [length_putBigEndian] at hwrite
          rw [if_neg (by simp; omega), hwrite]
          simpa using hkeys
      · rw [body_of_other hkey hbatch] at h
        exact absurd h hhead

theorem marshal_eq_ok_iff (hwhole : p.Whole) {b buf : Bytes} {n : ℕ} :
    p.marshal b = some ⟨n, none, buf⟩ ↔ p.wire.length ≤ b.length ∧
      n = p.wire.length ∧ buf = p.wire ++ b.drop p.wire.length := by
  constructor
  · intro hmarshal
    by_cases hroom : p.wire.length ≤ b.length
    · rw [marshal_of_le hwhole hroom] at hmarshal
      cases hmarshal
      exact ⟨hroom, rfl, rfl⟩
    · obtain ⟨m, hm, herr⟩ := marshal_of_lt (Nat.not_le.mp hroom)
      rw [hmarshal] at hm
      cases hm
      cases herr
  · rintro ⟨hroom, rfl, rfl⟩
    exact marshal_of_le hwhole hroom

/-! ## Reading -/

theorem bigEndian_length {n : ℕ} (h : n < 65536) :
    bigEndian (putBigEndian 2 (UInt16.ofNat n).toNat) = n := by
  rw [UInt16.toNat_ofNat_of_lt' h]
  exact bigEndian_putBigEndian h

theorem putBigEndian_length (part : Bytes) (h : part.length = 2) :
    putBigEndian 2 (UInt16.ofNat (bigEndian part)).toNat = part ∧ bigEndian part < 65536 := by
  obtain ⟨hput, hlt⟩ := putBigEndian_bigEndian h
  refine ⟨?_, hlt⟩
  rw [UInt16.toNat_ofNat_of_lt' hlt, hput]

theorem unmarshalKeys_wire (keys : List Bytes)
    (hsmall : ∀ k ∈ keys, k.length < 65536) (pre rest : Bytes) (read : List Bytes) :
    unmarshalKeys (pre ++ (wireKeys keys ++ rest)) keys.length pre.length
      read = some (.ok (read ++ keys)) := by
  induction keys generalizing pre read with
  | nil => rw [append_nil]; rfl
  | cons k keys ih =>
    obtain ⟨hk, hkeys⟩ := List.forall_mem_cons.mp hsmall
    have hnext := ih hkeys (pre ++ putBigEndian 2 (UInt16.ofNat k.length).toNat ++ k) (read ++ [k])
    generalize hput : putBigEndian 2 (UInt16.ofNat k.length).toNat = len at hnext
    have hlen : len.length = 2 := by rw [← hput, length_putBigEndian]
    have hbig : bigEndian len = k.length := by rw [← hput, bigEndian_length hk]
    have hb : pre ++ (wireKeys (k :: keys) ++ rest) =
        pre ++ len ++ k ++ (wireKeys keys ++ rest) := by
      rw [wireKeys_cons, hput]
      simp only [append_assoc]
    have hslice := slice_append pre len (k ++ (wireKeys keys ++ rest))
      pre.length (pre.length + 2) rfl (by rw [hlen])
    have hslice' := slice_append (pre ++ len) k (wireKeys keys ++ rest)
      (pre.length + 2) (pre.length + 2 + k.length)
      (by rw [length_append, hlen])
      (by rw [length_append, hlen])
    simp only [← append_assoc] at hslice hslice' hb hnext
    simp only [length_append, hlen] at hnext
    rw [← append_assoc, hb, length_cons, unmarshalKeys,
      if_neg (by simp only [length_append, hlen]; omega), hslice]
    simp only [bind_eq_bind, bind_some]
    rw [hbig, if_neg (by simp only [length_append, hlen]; omega), hslice']
    simp only [bind_some]
    rw [hnext]
    simp

theorem unmarshalKeys_spec (b : Bytes) (count curr : ℕ) (read : List Bytes)
    (hcurr : curr ≤ b.length) :
    ∃ r, unmarshalKeys b count curr read = some r ∧
      ∀ keys, r = .ok keys → ∃ new, keys = read ++ new ∧
        new.length = count ∧ (∀ k ∈ new, k.length < 65536) ∧
        wireKeys new <+: b.drop curr := by
  induction count generalizing curr read with
  | zero =>
    refine ⟨_, rfl, fun keys hkeys => ?_⟩
    cases hkeys
    exact ⟨[], by simp, rfl, by simp, List.nil_prefix⟩
  | succ count ih =>
    rw [unmarshalKeys]
    split
    · exact ⟨_, rfl, fun keys hkeys => by cases hkeys⟩
    · have hlen := slice_of_le (b := b) (Nat.le_add_right curr 2) (by omega)
      generalize (b.take (curr + 2)).drop curr = len at hlen
      obtain ⟨hlen2, hdrop⟩ := slice_eq_some hlen
      obtain ⟨hput, hlt⟩ := putBigEndian_length len (by omega)
      rw [hlen]
      simp only [bind_eq_bind, bind_some]
      split
      · exact ⟨_, rfl, fun keys hkeys => by cases hkeys⟩
      · have hk := slice_of_le (b := b) (Nat.le_add_right (curr + 2) (bigEndian len)) (by omega)
        generalize (b.take (curr + 2 + bigEndian len)).drop (curr + 2) = k at hk
        obtain ⟨hklen, hkdrop⟩ := slice_eq_some hk
        rw [hk]
        simp only [bind_some]
        obtain ⟨r, hr, hspec⟩ := ih (curr + 2 + bigEndian len) (read ++ [k]) (by omega)
        refine ⟨r, hr, fun keys hkeys => ?_⟩
        obtain ⟨new, rfl, hcount, hsmall, hprefix⟩ := hspec keys hkeys
        have hkbig : k.length = bigEndian len := by omega
        refine ⟨k :: new, by simp, by simp [hcount], ?_, ?_⟩
        · exact List.forall_mem_cons.mpr ⟨by omega, hsmall⟩
        · rw [wireKeys_cons, hkbig, hput, hdrop, hkdrop]
          exact (List.prefix_append_right_inj _).mpr ((List.prefix_append_right_inj _).mpr hprefix)

/-- What `unmarshal` knows of a packet after its head. -/
def opened (p : Packet) : Packet :=
  { zero with magic := p.magic, kind := p.kind, nodeID := p.nodeID }

theorem unmarshal_head (hmagic : p.magic = magicByte) (rest : Bytes) :
    zero.unmarshal (p.head ++ rest) =
      if p.HasKey then p.opened.unmarshalKey (p.head ++ rest)
      else if p.kind = typeBatch then p.opened.unmarshalBatch (p.head ++ rest)
      else some (.ok p.opened) := by
  have hid : slice (p.head ++ rest) 2 18 = some p.nodeID.bytes := by
    rw [head, append_assoc]
    exact slice_append _ _ _ 2 18 rfl (by simp [p.nodeID.length_bytes])
  have hcopy : NodeID.zero.copyFrom p.nodeID.bytes = p.nodeID := by
    have hbytes : copyInto NodeID.zero.bytes p.nodeID.bytes =
        p.nodeID.bytes :=
      copyInto_of_eq (p.nodeID.length_bytes.trans NodeID.zero.length_bytes.symm)
    rw [NodeID.copyFrom]
    cases hp : p.nodeID with
    | mk bytes hlength =>
      rw [hp] at hbytes
      congr
  have hfirst : (p.head ++ rest)[0]? = some p.magic := rfl
  have hsecond : (p.head ++ rest)[1]? = some p.kind := rfl
  rw [unmarshal, if_neg (by simp), hfirst]
  simp only [bind_eq_bind, bind_some]
  rw [if_neg (by simp [hmagic]), hsecond]
  simp only [bind_some]
  rw [hid]
  simp only [bind_some]
  change (if _ then _ else _) = _
  rw [show zero.nodeID = NodeID.zero from rfl, hcopy]
  rfl

theorem exists_head (b : Bytes) (h : 18 ≤ b.length) :
    ∃ (p : Packet) (rest : Bytes), b = p.head ++ rest := by
  match b, h with
  | magic :: kind :: rest, h =>
    have hid : (rest.take 16).length = 16 := by
      rw [List.length_take]
      simp only [length_cons] at h
      omega
    refine ⟨⟨magic, kind, ⟨rest.take 16, hid⟩, 0, 0, [], []⟩, rest.drop 16, ?_⟩
    simp [head]

/-- The fields that the type carries; the others are empty. -/
def carried (p : Packet) : Packet :=
  if p.HasKey then { p with keys := [] }
  else if p.kind = typeBatch then
    { p with keyHash := 0, keyLen := 0, key := [] }
  else
    p.opened

/-- Lengths and counts have 16 bits. -/
def Small (p : Packet) : Prop :=
  p.kind = typeBatch → p.keys.length < 65536 ∧ ∀ k ∈ p.keys, k.length < 65536

theorem unmarshalKey_wire (hkey : p.HasKey) (hwhole : p.Whole) (rest : Bytes) :
    p.opened.unmarshalKey (p.head ++ (p.body ++ rest)) = some (.ok { p with keys := [] }) := by
  have hlen := hwhole hkey
  rw [body_of_hasKey hkey]
  generalize hh : putBigEndian 8 p.keyHash.toNat = hash
  generalize hl : putBigEndian 2 p.keyLen.toNat = len
  have hhash : hash.length = 8 := by rw [← hh, length_putBigEndian]
  have hlen2 : len.length = 2 := by rw [← hl, length_putBigEndian]
  have hbig : UInt64.ofNat (bigEndian hash) = p.keyHash := by
    rw [← hh, bigEndian_putBigEndian p.keyHash.toNat_lt, UInt64.ofNat_toNat]
  have hbig2 : UInt16.ofNat (bigEndian len) = p.keyLen := by
    rw [← hl, bigEndian_putBigEndian p.keyLen.toNat_lt, UInt16.ofNat_toNat]
  have h1 := slice_append p.head hash (len ++ (p.key ++ rest)) 18 26 (by simp) (by simp [hhash])
  have h2 := slice_append (p.head ++ hash) len (p.key ++ rest) 26 28
    (by simp [hhash]) (by simp [hhash, hlen2])
  have h3 := slice_append (p.head ++ hash ++ len) p.key rest 28
    (28 + p.key.length) (by simp [hhash, hlen2]) (by simp [hhash, hlen2])
  simp only [append_assoc] at h1 h2 h3 ⊢
  rw [unmarshalKey, if_neg (by simp [hhash, hlen2]; omega), h1]
  simp only [bind_eq_bind, bind_some]
  rw [h2]
  simp only [bind_some, hbig, hbig2]
  rw [if_neg (by simp [hhash, hlen2]; omega), hlen]
  by_cases hzero : 0 < p.keyLen
  · rw [if_pos hzero, h3]
    rfl
  · have hnil : p.key = [] := by
      refine List.length_eq_zero_iff.mp ?_
      rw [← hlen]
      exact Nat.eq_zero_of_not_pos fun h => hzero (UInt16.lt_iff_toNat_lt.mpr h)
    rw [if_neg hzero, hnil]
    rfl

theorem unmarshalBatch_wire (hbatch : p.kind = typeBatch) (hsmall : p.Small) (rest : Bytes) :
    p.opened.unmarshalBatch (p.head ++ (p.body ++ rest)) =
      some (.ok { p with keyHash := 0, keyLen := 0, key := [] }) := by
  obtain ⟨hcount, hkeys⟩ := hsmall hbatch
  rw [body_of_batch hbatch]
  have hbig := bigEndian_length hcount
  generalize hc : putBigEndian 2 (UInt16.ofNat p.keys.length).toNat = count at hbig
  have hcount2 : count.length = 2 := by rw [← hc, length_putBigEndian]
  have h1 := slice_append p.head count (wireKeys p.keys ++ rest) 18 20 (by simp) (by simp [hcount2])
  have h2 := unmarshalKeys_wire p.keys hkeys (p.head ++ count) rest []
  rw [length_append, length_head, hcount2] at h2
  simp only [append_assoc] at h1 h2 ⊢
  rw [unmarshalBatch, if_neg (by simp [hcount2]; omega), h1]
  simp only [bind_eq_bind, bind_some]
  rw [hbig, h2]
  rfl

theorem unmarshal_wire (hmagic : p.magic = magicByte)
    (hwhole : p.Whole) (hsmall : p.Small) (rest : Bytes) :
    zero.unmarshal (p.wire ++ rest) = some (.ok p.carried) := by
  rw [wire, append_assoc, unmarshal_head hmagic, carried]
  by_cases hkey : p.HasKey
  · rw [if_pos hkey, if_pos hkey, unmarshalKey_wire hkey hwhole]
  · rw [if_neg hkey, if_neg hkey]
    by_cases hbatch : p.kind = typeBatch
    · rw [if_pos hbatch, if_pos hbatch, unmarshalBatch_wire hbatch hsmall]
    · rw [if_neg hbatch, if_neg hbatch]

/-- A packet that has been read: it is one that can be sent, its other fields
are empty, and the datagram begins with it. -/
structure ReadFrom (b : Bytes) (q : Packet) : Prop where
  magic : q.magic = magicByte
  whole : q.Whole
  small : q.Small
  carried : q.carried = q
  wire : q.wire <+: b

theorem unmarshalKey_spec (hmagic : p.magic = magicByte) (hkey : p.HasKey) (rest : Bytes) :
    ∃ r, p.opened.unmarshalKey (p.head ++ rest) = some r ∧
      ∀ q, r = .ok q → ReadFrom (p.head ++ rest) q := by
  rw [unmarshalKey]
  split
  · exact ⟨_, rfl, fun q hq => by cases hq⟩
  · have hslice := slice_of_le (b := p.head ++ rest) (show 18 ≤ 26 by decide) (by omega)
    have hslice' := slice_of_le (b := p.head ++ rest) (show 26 ≤ 28 by decide) (by omega)
    generalize ((p.head ++ rest).take 26).drop 18 = hash at hslice
    generalize ((p.head ++ rest).take 28).drop 26 = len at hslice'
    obtain ⟨hhash, hdrop⟩ := slice_eq_some hslice
    obtain ⟨hlen, hdrop'⟩ := slice_eq_some hslice'
    obtain ⟨hputHash, hltHash⟩ := putBigEndian_bigEndian hhash
    obtain ⟨hputLen, hltLen⟩ := putBigEndian_length len (by omega)
    rw [hslice]
    simp only [bind_eq_bind, bind_some]
    rw [hslice']
    simp only [bind_some]
    -- the key, which is empty if its length is zero
    have hread : ∀ key : Bytes, slice (p.head ++ rest) 28
        (28 + (UInt16.ofNat (bigEndian len)).toNat) = some key →
        ReadFrom (p.head ++ rest) { p.opened with
          keyHash := UInt64.ofNat (bigEndian hash)
          keyLen := UInt16.ofNat (bigEndian len)
          key := key } := by
      intro key hslice''
      obtain ⟨hkeyLen, hdrop''⟩ := slice_eq_some hslice''
      refine ⟨hmagic, fun _ => ?_, fun hbatch => ?_, if_pos hkey, ?_⟩
      · dsimp only
        omega
      · exact absurd hkey (not_hasKey_of_batch hbatch)
      · have hrest : rest = hash ++ (len ++ (key ++ (p.head ++ rest).drop
            (28 + (UInt16.ofNat (bigEndian len)).toNat))) := by
          rw [← hdrop'', ← hdrop', ← hdrop, ← length_head p, List.drop_left]
        have hbody : ∀ q : Packet, q.HasKey → q.keyHash = UInt64.ofNat (bigEndian hash) →
            q.keyLen = UInt16.ofNat (bigEndian len) → q.key = key →
            q.body <+: rest := by
          intro q hq hqHash hqLen hqKey
          rw [body_of_hasKey hq, hqHash, hqLen, hqKey, hputLen,
            UInt64.toNat_ofNat_of_lt' hltHash, hputHash, hrest,
            ← append_assoc, ← append_assoc]
          exact List.prefix_append _ _
        refine (List.prefix_append_right_inj p.head).mpr ?_
        exact hbody _ hkey rfl rfl rfl
    split
    · exact ⟨_, rfl, fun q hq => by cases hq⟩
    · have hkeySlice := slice_of_le (b := p.head ++ rest)
        (Nat.le_add_right 28 (UInt16.ofNat (bigEndian len)).toNat) (by omega)
      split
      · rw [hkeySlice]
        refine ⟨_, rfl, fun q hq => ?_⟩
        obtain rfl := Except.ok.inj hq
        exact hread _ hkeySlice
      next hzero =>
        refine ⟨_, rfl, fun q hq => ?_⟩
        obtain rfl := Except.ok.inj hq
        have hlenZero : (UInt16.ofNat (bigEndian len)).toNat = 0 :=
          Nat.eq_zero_of_not_pos fun h => hzero (UInt16.lt_iff_toNat_lt.mpr h)
        refine hread [] ?_
        rw [hkeySlice, hlenZero, Nat.add_zero, List.drop_of_length_le]
        exact List.length_take_le 28 _

theorem unmarshalBatch_spec (hmagic : p.magic = magicByte)
    (hbatch : p.kind = typeBatch) (rest : Bytes) :
    ∃ r, p.opened.unmarshalBatch (p.head ++ rest) = some r ∧
      ∀ q, r = .ok q → ReadFrom (p.head ++ rest) q := by
  rw [unmarshalBatch]
  split
  · exact ⟨_, rfl, fun q hq => by cases hq⟩
  · have hslice := slice_of_le (b := p.head ++ rest) (show 18 ≤ 20 by decide) (by omega)
    generalize ((p.head ++ rest).take 20).drop 18 = count at hslice
    obtain ⟨hcount2, hdrop⟩ := slice_eq_some hslice
    obtain ⟨hput, hlt⟩ := putBigEndian_length count (by omega)
    rw [hslice]
    simp only [bind_eq_bind, bind_some]
    obtain ⟨r, hr, hspec⟩ := unmarshalKeys_spec (p.head ++ rest) (bigEndian count) 20 [] (by omega)
    rw [hr]
    refine ⟨_, rfl, fun q hq => ?_⟩
    cases r with
    | error e => cases hq
    | ok keys =>
      obtain ⟨new, rfl, hnew, hsmall, hprefix⟩ := hspec keys rfl
      obtain rfl := Except.ok.inj hq
      have hnokey : ¬({ p.opened with keys := keys } : Packet).HasKey := not_hasKey_of_batch hbatch
      refine ⟨hmagic, fun h => absurd h hnokey, fun _ => ⟨?_, hsmall⟩, ?_, ?_⟩
      · exact hnew ▸ hlt
      · rw [carried, if_neg hnokey]
        exact if_pos hbatch
      · have hrest : rest = count ++ (p.head ++ rest).drop 20 := by
          rw [← hdrop, ← length_head p, List.drop_left]
        have hbody : ∀ q : Packet, q.kind = typeBatch → q.keys = keys → q.body <+: rest := by
          intro q hq hqKeys
          rw [body_of_batch hq, hqKeys, hnew, hput, hrest]
          exact (List.prefix_append_right_inj _).mpr hprefix
        refine (List.prefix_append_right_inj p.head).mpr ?_
        exact hbody _ hbatch rfl

theorem unmarshal_spec (b : Bytes) :
    ∃ r, zero.unmarshal b = some r ∧ ∀ q, r = .ok q → ReadFrom b q := by
  by_cases hshort : b.length < 18
  · rw [unmarshal, if_pos hshort]
    exact ⟨_, rfl, fun q hq => by cases hq⟩
  · obtain ⟨p, rest, rfl⟩ := exists_head b (by omega)
    by_cases hmagic : p.magic = magicByte
    · rw [unmarshal_head hmagic]
      split
      next hkey => exact unmarshalKey_spec hmagic hkey rest
      next hkey =>
        split
        next hbatch => exact unmarshalBatch_spec hmagic hbatch rest
        next hbatch =>
          refine ⟨_, rfl, fun q hq => ?_⟩
          obtain rfl := Except.ok.inj hq
          have hnokey : ¬p.opened.HasKey := hkey
          have hnobatch : p.opened.kind ≠ typeBatch := hbatch
          refine ⟨hmagic, fun h => absurd h hnokey, fun h => absurd h hnobatch, ?_, ?_⟩
          · rw [carried, if_neg hnokey, if_neg hnobatch]
            rfl
          · rw [wire, body_of_other hnokey hnobatch, append_nil]
            exact List.prefix_append p.head rest
    · have hfirst : (p.head ++ rest)[0]? = some p.magic := rfl
      rw [unmarshal, if_neg hshort, hfirst]
      simp only [bind_eq_bind, bind_some]
      rw [if_pos hmagic]
      exact ⟨_, rfl, fun q hq => by cases hq⟩

/-! ## The round trips -/

theorem length_wireKeys_of_mem {k : Bytes} {keys : List Bytes} (h : k ∈ keys) :
    2 + k.length ≤ (wireKeys keys).length := by
  induction keys with
  | nil => cases h
  | cons k' keys ih =>
    rw [length_wireKeys_cons]
    rcases List.mem_cons.mp h with rfl | h
    · omega
    · have hle := ih h
      omega

theorem two_mul_length_le (keys : List Bytes) : 2 * keys.length ≤ (wireKeys keys).length := by
  induction keys with
  | nil => exact Nat.le_refl 0
  | cons k keys ih =>
    rw [length_wireKeys_cons, length_cons]
    omega

theorem small_of_length_wire (h : p.wire.length ≤ 2048) : p.Small := by
  intro hbatch
  rw [length_wire, body_of_batch hbatch, length_append] at h
  have hcount := two_mul_length_le p.keys
  refine ⟨by omega, fun k hk => ?_⟩
  have hlen := length_wireKeys_of_mem hk
  omega

theorem unmarshal_marshaled (hmagic : p.magic = magicByte)
    (hwhole : p.Whole) {b buf : Bytes} (hb : b.length ≤ 2048) {n : ℕ}
    (hmarshal : p.marshal b = some ⟨n, none, buf⟩) :
    n = p.wire.length ∧ buf.take n = p.wire ∧ p.wire.length ≤ b.length ∧
      zero.unmarshal (buf.take n) = some (.ok p.carried) := by
  obtain ⟨hroom, rfl, rfl⟩ := (marshal_eq_ok_iff hwhole).mp hmarshal
  have hread := unmarshal_wire hmagic hwhole (small_of_length_wire (hroom.trans hb)) []
  rw [append_nil] at hread
  rw [List.take_left]
  exact ⟨rfl, rfl, hroom, hread⟩

/-- What has been marshaled into a pooled buffer is unmarshaled to a packet
with the same type, node id and fields that the type carries.  Conversely,
`unmarshal` stays inside every datagram, and what it returns is marshaled to
the beginning of the datagram. -/
theorem codec_round_trips : (∀ (p : Packet) (b buf : Bytes) (n : ℕ), b.length = 2048 →
      p.magic = magicByte →
      p.HasKey ∧ p.keyLen.toNat = p.key.length ∨ p.kind = typeBatch →
      p.marshal b = some ⟨n, none, buf⟩ →
      n ≤ 2048 ∧ ∃ q, zero.unmarshal (buf.take n) = some (.ok q) ∧
        q.kind = p.kind ∧ q.nodeID = p.nodeID ∧
        (p.HasKey → q.keyHash = p.keyHash ∧ q.key = p.key ∧ q.keys = []) ∧
        (p.kind = typeBatch → q.keys = p.keys ∧ q.keyHash = 0 ∧ q.key = [])) ∧
    ∀ b : Bytes, zero.unmarshal b ≠ none ∧ ∀ q, zero.unmarshal b = some (.ok q) →
        ∀ buf : Bytes, buf.length = b.length → ∃ n ≤ b.length, q.marshal buf =
            some ⟨n, none, b.take n ++ buf.drop n⟩ := by
  refine ⟨fun p b buf n hb hmagic hform hmarshal => ?_, fun b => ?_⟩
  · have hwhole : p.Whole := by
      intro hkey
      rcases hform with hform | hbatch
      · exact hform.2
      · exact absurd hkey (not_hasKey_of_batch hbatch)
    obtain ⟨rfl, -, hroom, hread⟩ := unmarshal_marshaled hmagic hwhole hb.le hmarshal
    refine ⟨hb ▸ hroom, p.carried, hread, ?_⟩
    rw [carried]
    by_cases hkey : p.HasKey
    · rw [if_pos hkey]
      refine ⟨rfl, rfl, fun _ => ⟨rfl, rfl, rfl⟩, fun hbatch => ?_⟩
      exact absurd hkey (not_hasKey_of_batch hbatch)
    · have hbatch : p.kind = typeBatch :=
        hform.resolve_left fun h => hkey h.1
      rw [if_neg hkey, if_pos hbatch]
      exact ⟨rfl, rfl, fun h => absurd h hkey, fun _ => ⟨rfl, rfl, rfl⟩⟩
  · obtain ⟨r, hr, hspec⟩ := unmarshal_spec b
    rw [hr]
    refine ⟨Option.some_ne_none r, fun q hq buf hbuf => ?_⟩
    have hread := hspec q (Option.some.inj hq)
    have hlength := hread.wire.length_le
    refine ⟨q.wire.length, hlength, ?_⟩
    rw [← List.prefix_iff_eq_take.mp hread.wire]
    exact marshal_of_le hread.whole (hbuf ▸ hlength)

/-- A batch with one key, and with a hash that it does not carry. -/
def hashedBatch : Packet := ⟨magicByte, typeBatch, NodeID.zero, 1, 0, [], [[0x61]]⟩

/-- The hash of a batch is lost. -/
theorem lost_keyHash : ∃ n buf q, hashedBatch.marshal (replicate 2048 0) = some ⟨n, none, buf⟩ ∧
      zero.unmarshal (buf.take n) = some (.ok q) ∧
      hashedBatch.keyHash = 1 ∧ q.keyHash = 0 := by
  have hwhole : hashedBatch.Whole := fun h => absurd h (by decide)
  have hmarshal := marshal_of_le hwhole (b := replicate 2048 0) (by rw [length_replicate]; decide)
  obtain ⟨-, -, -, hread⟩ := unmarshal_marshaled rfl hwhole (by rw [length_replicate]) hmarshal
  exact ⟨_, _, _, hmarshal, hread, rfl, rfl⟩

def heartbeat : Packet := ⟨magicByte, typeHeartbeat, NodeID.zero, 0, 2, [0x3a, 0x31], []⟩

theorem codec_round_trips_heartbeat : ∃ n buf q, heartbeat.marshal (replicate 2048 0) =
        some ⟨n, none, buf⟩ ∧ n ≤ 2048 ∧
      zero.unmarshal (buf.take n) = some (.ok q) ∧ q.key = [0x3a, 0x31] := by
  have hmarshal := marshal_of_le (p := heartbeat) (fun _ => rfl)
    (b := replicate 2048 0) (by rw [length_replicate]; decide)
  obtain ⟨hn, q, hq, -, -, hkey, -⟩ := codec_round_trips.1 heartbeat _ _ _
    length_replicate rfl (.inl ⟨by decide, rfl⟩) hmarshal
  exact ⟨_, _, q, hmarshal, hn, hq, (hkey (by decide)).2.1⟩

end Packet

end GoWarp.Mesh
