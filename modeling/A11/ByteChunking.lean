import A11.ByteOrder
import A11.DataTypes

/-! Packets of the binary channels and their reassembly.
A message that fits one packet travels as a complete packet; a longer one is cut
into numbered chunks, the first of which declares how many there are. The metadata
stands behind the payload, so that a packet is opened from its end. -/
namespace A11.ByteChunking

/-- `size_t` and `std::uint64_t` arithmetic wraps at this value. -/
def sizeRange : ℕ := 2^64

def addSize (a b : ℕ) : ℕ := (a+b)%sizeRange

def kCompleteMetadataSize : ℕ := 9
def kChunkMetadataSize : ℕ := 13
def kFirstChunkMetadataSize : ℕ := 17
def kMinimumBytePacketSize : ℕ := 18

inductive BytePacketType
  | completeBytes | byteChunk | lengthSuffixedByteChunk
  deriving DecidableEq

def BytePacketType.byte : BytePacketType → UInt8
  | .completeBytes => 0
  | .byteChunk => 1
  | .lengthSuffixedByteChunk => 2

def BytePacketType.ofByte (b : UInt8) : Option BytePacketType :=
  if b = 0 then some .completeBytes
  else if b = 1 then some .byteChunk
  else if b = 2 then some .lengthSuffixedByteChunk
  else none

def BytePacketType.metadataSize : BytePacketType → ℕ
  | .completeBytes => kCompleteMetadataSize
  | .byteChunk => kChunkMetadataSize
  | .lengthSuffixedByteChunk => kFirstChunkMetadataSize

structure BytePacket where
  type : BytePacketType
  payload : Bytes
  transientId : UInt64
  sequence : ℕ
  packetCount : ℕ
  deriving DecidableEq

def serializeComplete (payload : Bytes) (transientId : UInt64) : Bytes :=
  payload++littleEndian 8 transientId.toNat++[BytePacketType.completeBytes.byte]

def serializeChunk (payload : Bytes) (transientId : UInt64) (sequence : ℕ)
    (packetCount : Option ℕ) : Bytes :=
  match packetCount with
  | some count => payload++littleEndian 4 count++littleEndian 4 sequence++
      littleEndian 8 transientId.toNat++[BytePacketType.lengthSuffixedByteChunk.byte]
  | none => payload++littleEndian 4 sequence++littleEndian 8 transientId.toNat++
      [BytePacketType.byteChunk.byte]

/-! ### Options -/

structure ByteChunkingOptions where
  packetSize : ℕ := 64*1024
  maxMessageSize : ℕ := 32*1024*1024
  maxPendingMessages : ℕ := 64
  maxPendingBytes : ℕ := 64*1024*1024
  /-- All four are `size_t`. -/
  isSize : ∀ n ∈ [packetSize,maxMessageSize,maxPendingMessages,maxPendingBytes], n < sizeRange := by
    decide

def ByteChunkingOptions.validate (o : ByteChunkingOptions) : StatusOr Unit :=
  if o.packetSize < kMinimumBytePacketSize then
    .error (.invalidArgument "byte packet_size must be at least 18")
  else if o.maxMessageSize = 0 ∨ o.maxPendingMessages = 0 ∨ o.maxPendingBytes = 0 then
    .error (.invalidArgument "byte chunking limits must all be positive")
  else if addSize o.maxMessageSize kCompleteMetadataSize < o.packetSize then
    .error (.invalidArgument "byte packet_size must not exceed max_message_size plus metadata")
  else .ok ()

/-! ### Splitting -/

/-- The loop over the bytes behind the first chunk. Every round takes at least one
byte, so as many rounds as there are bytes are enough. -/
def laterPackets (transientId : UInt64) (laterPayloadSize : ℕ) : ℕ → ℕ → Bytes → List Bytes
  | 0, _, _ => []
  | fuel+1, sequence, rest =>
    if rest = [] then []
    else serializeChunk (rest.take laterPayloadSize) transientId sequence none::
      laterPackets transientId laterPayloadSize fuel (sequence+1) (rest.drop laterPayloadSize)

def splitBytesIntoPackets (bytes : Bytes) (transientId : UInt64) (packetSize : ℕ) :
    StatusOr (List Bytes) :=
  if packetSize < kMinimumBytePacketSize then
    .error (.invalidArgument "byte packet_size must be at least 18")
  else if bytes.length ≤ packetSize-kCompleteMetadataSize then
    .ok [serializeComplete bytes transientId]
  else
    let firstPayloadSize := packetSize-kFirstChunkMetadataSize
    let laterPayloadSize := packetSize-kChunkMetadataSize
    let remaining := bytes.length-firstPayloadSize
    let laterCount := addSize remaining (laterPayloadSize-1)/laterPayloadSize
    if maxSeq ≤ laterCount then .error (.outOfRange "byte message requires too many packets")
    else .ok (serializeChunk (bytes.take firstPayloadSize) transientId 0 (some (laterCount+1))::
      laterPackets transientId laterPayloadSize bytes.length 1 (bytes.drop firstPayloadSize))

def splitOwnedBytesIntoPackets (bytes : Bytes) (transientId : UInt64) (packetSize : ℕ) :
    StatusOr (List Bytes) :=
  if packetSize < kMinimumBytePacketSize then
    .error (.invalidArgument "byte packet_size must be at least 18")
  else if packetSize-kCompleteMetadataSize < bytes.length then
    splitBytesIntoPackets bytes transientId packetSize
  else .ok [bytes++littleEndian 8 transientId.toNat++[BytePacketType.completeBytes.byte]]

/-! ### Parsing -/

def readLittleEndian (width : ℕ) (input : Bytes) (offset : ℕ) : ℕ :=
  ofLittleEndian ((input.drop offset).take width)

/-- The packet without its payload, and the size of its metadata. -/
def parseBytePacketMetadata (packet : Bytes) : StatusOr (BytePacket × ℕ) :=
  if packet.length < kCompleteMetadataSize then
    .error (.invalidArgument "byte packet is shorter than complete-packet metadata")
  else match packet.getLast?.bind BytePacketType.ofByte with
    | none => .error (.invalidArgument "byte packet has an unknown type")
    | some type =>
      if packet.length < type.metadataSize then
        .error (.invalidArgument "byte packet is shorter than its declared metadata")
      else
        let transientOffset := packet.length-kCompleteMetadataSize
        let sequenceOffset := transientOffset-4
        let countOffset := sequenceOffset-4
        let transientId := UInt64.ofNat (readLittleEndian 8 packet transientOffset)
        match type with
        | .completeBytes => .ok (⟨type,[],transientId,0,0⟩,type.metadataSize)
        | .byteChunk =>
          .ok (⟨type,[],transientId,readLittleEndian 4 packet sequenceOffset,0⟩,type.metadataSize)
        | .lengthSuffixedByteChunk =>
          let sequence := readLittleEndian 4 packet sequenceOffset
          let count := readLittleEndian 4 packet countOffset
          if sequence ≠ 0 ∨ count = 0 then
            .error (.invalidArgument
              "first byte chunk must have sequence zero and a positive count")
          else .ok (⟨type,[],transientId,sequence,count⟩,type.metadataSize)

def parseOwnedBytePacket (packet : Bytes) : StatusOr BytePacket := do
  let (parsed,metadataSize) ← parseBytePacketMetadata packet
  return { parsed with payload := packet.take (packet.length-metadataSize) }

/-! ### Reassembly -/

structure Pending where
  packetCount : Option ℕ := none
  chunks : Table ℕ Bytes := ∅
  byteCount : ℕ := 0

structure ByteReassembler where
  pending : Table UInt64 Pending := ∅
  pendingBytes : ℕ := 0

/-- The result of `Feed` and the state it leaves behind, also when it fails. -/
abbrev Fed := StatusOr (Option Bytes) × ByteReassembler

def assemble (count : ℕ) (chunks : Table ℕ Bytes) : Bytes :=
  (List.range count).flatMap fun sequence => (chunks.lookup sequence).getD []

/-- Hands out the message once every chunk it declares is there. -/
def finish (r : ByteReassembler) (transientId : UInt64) (pending : Pending) : Fed :=
  let kept : ByteReassembler := { r with pending := r.pending.set transientId pending }
  match pending.packetCount with
  | none => (.ok none,kept)
  | some count =>
    if pending.chunks.size ≠ count then (.ok none,kept)
    else if ∃ sequence ∈ List.range count, sequence ∉ pending.chunks then (.ok none,kept)
    else (.ok (some (assemble count pending.chunks)),
      ⟨r.pending.erase transientId,r.pendingBytes-pending.byteCount⟩)

def addChunk (o : ByteChunkingOptions) (r : ByteReassembler) (packet : BytePacket)
    (pending : Pending) : Fed :=
  let kept : ByteReassembler := { r with pending := r.pending.set packet.transientId pending }
  if pending.packetCount.any (· ≤ packet.sequence) then
    (.error (.outOfRange "byte chunk sequence exceeds the declared packet count"),kept)
  else if packet.sequence ∈ pending.chunks then
    (.error (.alreadyExists "duplicate byte chunk sequence"),kept)
  else if o.maxMessageSize < addSize pending.byteCount packet.payload.length then
    (.error (.outOfRange "reassembled byte message exceeds max_message_size"),kept)
  else
    finish { r with pendingBytes := addSize r.pendingBytes packet.payload.length }
      packet.transientId
      { pending with
        byteCount := addSize pending.byteCount packet.payload.length
        chunks := pending.chunks.emplace packet.sequence packet.payload }

/-- The first chunk declares the count; every later one finds it or not. -/
def noteCount (o : ByteChunkingOptions) (r : ByteReassembler) (packet : BytePacket)
    (pending : Pending) : Fed :=
  if packet.type = .lengthSuffixedByteChunk then
    if pending.packetCount.any (· ≠ packet.packetCount) then
      (.error (.invalidArgument "byte message has conflicting packet counts"),r)
    else if ∃ sequence ∈ pending.chunks.keys, packet.packetCount ≤ sequence then
      (.error (.outOfRange "byte chunk sequence exceeds the declared packet count"),
        ⟨r.pending.erase packet.transientId,r.pendingBytes-pending.byteCount⟩)
    else addChunk o r packet { pending with packetCount := some packet.packetCount }
  else addChunk o r packet pending

def feedChunk (o : ByteChunkingOptions) (r : ByteReassembler) (packet : BytePacket) : Fed :=
  if o.maxMessageSize < packet.sequence then
    (.error (.outOfRange "byte chunk sequence exceeds the configured message bound"),r)
  else if packet.type = .lengthSuffixedByteChunk ∧
      addSize o.maxMessageSize 1 < packet.packetCount then
    (.error (.outOfRange "byte message declares an unreasonable packet count"),r)
  else if o.maxPendingBytes < addSize r.pendingBytes packet.payload.length then
    (.error (.resourceExhausted "pending byte chunks exceed max_pending_bytes"),r)
  else match r.pending.lookup packet.transientId with
    | some pending => noteCount o r packet pending
    | none =>
      if o.maxPendingMessages ≤ r.pending.size then
        (.error (.resourceExhausted "too many byte messages are pending reassembly"),r)
      else noteCount o { r with pending := r.pending.set packet.transientId {} } packet {}

def feed (o : ByteChunkingOptions) (r : ByteReassembler) (serialized : Bytes) : Fed :=
  if o.packetSize < serialized.length then
    (.error (.outOfRange "incoming byte packet exceeds packet_size"),r)
  else match parseOwnedBytePacket serialized with
    | .error status => (.error status,r)
    | .ok packet =>
      if o.maxMessageSize < packet.payload.length then
        (.error (.outOfRange "incoming byte message exceeds its limit"),r)
      else if packet.type = .completeBytes then
        if packet.transientId ∈ r.pending then
          (.error (.alreadyExists "complete byte packet collides with pending chunks"),r)
        else (.ok (some packet.payload),r)
      else feedChunk o r packet

end A11.ByteChunking
