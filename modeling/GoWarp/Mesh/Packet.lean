import GoWarp.Support.Buffer

/-!
# Packets of the mesh bus

A packet starts with a magic byte, a type and the id of the node that sent it.
An invalidation and a heartbeat go on with a hash and a key, a batch with a
list of keys; lengths and counts have 16 bits.  `marshal` writes a packet into
a buffer, `unmarshal` reads one from a datagram.

Every access to a buffer is checked here: the result `none` is a panic.  What
`marshal` writes is the wire format of the packet, and `unmarshal` accepts
exactly the byte strings that begin with one.
-/

namespace GoWarp.Mesh

open Support

abbrev Bytes := List UInt8

/-! ## The code -/

def magicByte : UInt8 := 0x57

def typeInvalidate : UInt8 := 0x01

def typeHeartbeat : UInt8 := 0x02

def typeBatch : UInt8 := 0x03

/-- `errInvalidMagic` and `errShortBuffer`. -/
inductive Err where
  | invalidMagic
  | shortBuffer
deriving DecidableEq

/-- `[16]byte`. -/
structure NodeID where
  bytes : Bytes
  length_bytes : bytes.length = 16
deriving DecidableEq

def NodeID.zero : NodeID := ⟨List.replicate 16 0, rfl⟩

/-- `copy(id[:], data)`. -/
def NodeID.copyFrom (id : NodeID) (data : Bytes) : NodeID :=
  ⟨copyInto id.bytes data, (length_copyInto _ _).trans id.length_bytes⟩

/-- `packet`.  The type is called `kind`, and a string is its bytes. -/
structure Packet where
  magic : UInt8
  kind : UInt8
  nodeID : NodeID
  keyHash : UInt64
  keyLen : UInt16
  key : Bytes
  keys : List Bytes
deriving DecidableEq

namespace Packet

def zero : Packet := ⟨0, 0, NodeID.zero, 0, 0, [], []⟩

/-- The packet is one with a hash and a key. -/
def HasKey (p : Packet) : Prop := p.kind = typeInvalidate ∨ p.kind = typeHeartbeat

instance (p : Packet) : Decidable p.HasKey := inferInstanceAs (Decidable (_ ∨ _))

/-- What `marshal` returns, and the buffer after it. -/
structure Marshaled where
  n : ℕ
  err : Option Err
  buf : Bytes
deriving DecidableEq

/-- The loop over the keys of a batch. -/
def marshalKeys (b : Bytes) (curr : ℕ) : List Bytes → Option Marshaled
  | [] => some ⟨curr, none, b⟩
  | k :: rest =>
    if b.length < curr + 2 + k.length then
      some ⟨curr, some .shortBuffer, b⟩
    else do
      let b ← overwrite b curr (curr + 2) (putBigEndian 2 (UInt16.ofNat k.length).toNat)
      let b ← overwrite b (curr + 2) b.length k
      marshalKeys b (curr + 2 + k.length) rest

/-- The part of `marshal` that depends on the type. -/
def marshalBody (p : Packet) (b : Bytes) : Option Marshaled :=
  if p.HasKey then
    if b.length < 28 + p.key.length then some ⟨0, some .shortBuffer, b⟩
    else do
      let b ← overwrite b 18 26 (putBigEndian 8 p.keyHash.toNat)
      let b ← overwrite b 26 28 (putBigEndian 2 p.keyLen.toNat)
      let b ← overwrite b 28 b.length p.key
      some ⟨28 + p.keyLen.toNat, none, b⟩
  else if p.kind = typeBatch then
    if b.length < 20 then some ⟨0, some .shortBuffer, b⟩
    else do
      let b ← overwrite b 18 20 (putBigEndian 2 (UInt16.ofNat p.keys.length).toNat)
      marshalKeys b 20 p.keys
  else
    some ⟨18, none, b⟩

def marshal (p : Packet) (b : Bytes) : Option Marshaled :=
  if b.length < 18 then some ⟨0, some .shortBuffer, b⟩
  else do
    let b ← overwrite b 0 1 [p.magic]
    let b ← overwrite b 1 2 [p.kind]
    let b ← overwrite b 2 18 p.nodeID.bytes
    p.marshalBody b

/-- The loop over the keys of a batch, with the keys read so far. -/
def unmarshalKeys (b : Bytes) : ℕ → ℕ → List Bytes → Option (Except Err (List Bytes))
  | 0, _, keys => some (.ok keys)
  | count + 1, curr, keys =>
    if b.length < curr + 2 then some (.error .shortBuffer)
    else do
      let kLen ← slice b curr (curr + 2)
      if b.length < curr + 2 + bigEndian kLen then
        some (.error .shortBuffer)
      else do
        let k ← slice b (curr + 2) (curr + 2 + bigEndian kLen)
        unmarshalKeys b count (curr + 2 + bigEndian kLen) (keys ++ [k])

/-- The part of `unmarshal` for a key. -/
def unmarshalKey (p : Packet) (b : Bytes) : Option (Except Err Packet) :=
  if b.length < 28 then some (.error .shortBuffer)
  else do
    let hash ← slice b 18 26
    let len ← slice b 26 28
    let p := { p with
      keyHash := UInt64.ofNat (bigEndian hash)
      keyLen := UInt16.ofNat (bigEndian len) }
    if b.length < 28 + p.keyLen.toNat then some (.error .shortBuffer)
    else if 0 < p.keyLen then do
      let key ← slice b 28 (28 + p.keyLen.toNat)
      some (.ok { p with key := key })
    else
      some (.ok p)

/-- The part of `unmarshal` for a batch. -/
def unmarshalBatch (p : Packet) (b : Bytes) : Option (Except Err Packet) :=
  if b.length < 20 then some (.error .shortBuffer)
  else do
    let count ← slice b 18 20
    let keys ← unmarshalKeys b (bigEndian count) 20 []
    some (keys.map fun keys => { p with keys := keys })

/-- `unmarshal`.  On an error the packet is not used. -/
def unmarshal (p : Packet) (b : Bytes) : Option (Except Err Packet) :=
  if b.length < 18 then some (.error .shortBuffer)
  else do
    let magic ← b[0]?
    if magic ≠ magicByte then some (.error .invalidMagic)
    else do
      let kind ← b[1]?
      let id ← slice b 2 18
      let p := { p with
        magic := magic
        kind := kind
        nodeID := p.nodeID.copyFrom id }
      if p.HasKey then p.unmarshalKey b
      else if p.kind = typeBatch then p.unmarshalBatch b
      else some (.ok p)

end Packet

end GoWarp.Mesh
