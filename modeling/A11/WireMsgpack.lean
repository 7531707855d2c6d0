import A11.JsonPacking

/-! Wire messages as MessagePack: every record packs its fields in a fixed order and
stands in the record around it as binary data. -/
namespace A11

open Msgpack

/-! ### Fields -/

def jsonUnsigned (value : Json) (field : String) : StatusOr ℕ :=
  match value with
  | .unsigned n => .ok n
  | .integer i => if 0 ≤ i then .ok i.toNat
    else .error (.invalidArgument (field ++ " must be a non-negative integer"))
  | _ => .error (.invalidArgument (field ++ " must be a non-negative integer"))

def jsonString (value : Json) (field : String) : StatusOr Bytes :=
  match value with
  | .string s => .ok s
  | _ => .error (.invalidArgument (field ++ " must be a string"))

@[simp] theorem jsonUnsigned_unsigned (n : ℕ) (field : String) :
    jsonUnsigned (.unsigned n) field = .ok n := rfl

@[simp] theorem jsonString_string (value : Bytes) (field : String) :
    jsonString (.string value) field = .ok value := rfl

def readField (field : String) (bytes : Bytes) : StatusOr (Json × Bytes) :=
  match read bytes with
  | .ok result => .ok result
  | .error status =>
    .error (.invalidArgument ("Failed to read " ++ field ++ ": " ++ status.message))

def packByteMap (values : ByteMap) : Bytes :=
  packMapHeader values.entries.length++
    values.entries.flatMap fun e => packString e.1++packBinary e.2

def decodeByteEntries (field : String) : List (Bytes × Json) → ByteMap → StatusOr ByteMap
  | [], result => .ok result
  | (key,value)::entries, result => match validateName key with
    | .error status =>
      .error (.invalidArgument ("Invalid key in " ++ field ++ ": " ++ status.message))
    | .ok () => do
      let bytes ← getBinary value field
      decodeByteEntries field entries (result.emplace key bytes)

def decodeByteMap (value : Json) (field : String) : StatusOr ByteMap :=
  match value with
  | .object entries => decodeByteEntries field entries .empty
  | _ => .error (.invalidArgument (field ++ " must be a map"))

/-- An optional field is null when it has no value. -/
def packOptional {α : Type} (pack : α → Bytes) : Option α → Bytes
  | some value => pack value
  | none => packNil

def readOptional {α : Type} (decode : Json → StatusOr α) (value : Json) : StatusOr (Option α) :=
  if value.isNull then .ok none
  else do
    let result ← decode value
    return some result

/-! ### Chunks -/

/-- Whole microseconds, within 64 bits. A tick is a quarter of a nanosecond. -/
def toUnixMicros (time : ℤ) : ℤ := max (-2^63) (min (2^63-1) (time/4000))

def fromUnixMicros (micros : ℤ) : ℤ := 4000*micros

namespace ChunkMetadata

def toMsgpackInto (m : ChunkMetadata) : Bytes :=
  packString m.mimetype++packOptional (fun t => packInt (toUnixMicros t)) m.timestamp++
    packByteMap m.attributes

def timestampOf (value : Json) : StatusOr ℤ :=
  match value with
  | .unsigned n => .ok (fromUnixMicros (signed 8 n))
  | .integer i => .ok (fromUnixMicros i)
  | _ => .error (.invalidArgument "ChunkMetadata.timestamp must be integer microseconds or null")

def fromMsgpack (bytes : Bytes) : StatusOr ChunkMetadata := do
  let (mimetypeValue,bytes) ← readField "ChunkMetadata.mimetype" bytes
  let mimetype ← jsonString mimetypeValue "ChunkMetadata.mimetype"
  let (timestampValue,bytes) ← readField "ChunkMetadata.timestamp" bytes
  let timestamp ← readOptional timestampOf timestampValue
  let (attributesValue,bytes) ← readField "ChunkMetadata.attributes" bytes
  let attributes ← decodeByteMap attributesValue "ChunkMetadata.attributes"
  ensureFullyConsumed bytes
  let result : ChunkMetadata := ⟨mimetype,timestamp,attributes⟩
  result.validate
  return result

end ChunkMetadata

namespace Chunk

def toMsgpackInto (c : Chunk) : Bytes :=
  packOptional (fun m => packBinary m.toMsgpackInto) c.metadata++packString c.ref++
    packBinary c.data

def metadataOf (value : Json) : StatusOr ChunkMetadata := do
  let encoded ← getBinary value "Chunk.metadata"
  ChunkMetadata.fromMsgpack encoded

def fromMsgpack (bytes : Bytes) : StatusOr Chunk := do
  let (metadataValue,bytes) ← readField "Chunk.metadata" bytes
  let metadata ← readOptional metadataOf metadataValue
  let (refValue,bytes) ← readField "Chunk.ref" bytes
  let ref ← jsonString refValue "Chunk.ref"
  let (data,bytes) ← readBinaryView bytes
  ensureFullyConsumed bytes
  let result : Chunk := { metadata, ref, data }
  result.validate
  return result

end Chunk

/-! ### References and fragments -/

namespace NodeRef

def packStorage (packer : JsonPacker) : Option StorageIdentity → StatusOr Bytes
  | some storage => do
    let value ← storageIdentityToJsonValue storage
    packer.pack value
  | none => .ok packNil

def toMsgpackInto (packer : JsonPacker) (r : NodeRef) : StatusOr Bytes := do
  let storage ← packStorage packer r.storage
  return packString r.id++packUint r.offset.toNat++
    packOptional (fun n : UInt64 => packUint n.toNat) r.length++storage

def fromMsgpack (bytes : Bytes) : StatusOr NodeRef := do
  let (idValue,bytes) ← readField "NodeRef.id" bytes
  let id ← jsonString idValue "NodeRef.id"
  let (offsetValue,bytes) ← readField "NodeRef.offset" bytes
  let offset ← jsonUnsigned offsetValue "NodeRef.offset"
  if maxSeq < offset then .error (.outOfRange "NodeRef.offset exceeds uint32") else .ok ()
  let (lengthValue,bytes) ← readField "NodeRef.length" bytes
  let length ← readOptional (fun value => jsonUnsigned value "NodeRef.length") lengthValue
  let (storageValue,bytes) ← readField "NodeRef.storage" bytes
  let storage ← readOptional storageIdentityFromJsonValue storageValue
  ensureFullyConsumed bytes
  let result : NodeRef := ⟨id,UInt32.ofNat offset,length.map UInt64.ofNat,storage⟩
  result.validate
  return result

end NodeRef

namespace NodeFragment

def unionIndex : Payload → ℕ
  | .chunk _ => 0
  | .nodeRef _ => 1

def payloadRecord (packer : JsonPacker) : Payload → StatusOr Bytes
  | .chunk c => .ok c.toMsgpackInto
  | .nodeRef r => r.toMsgpackInto packer

def toMsgpackInto (packer : JsonPacker) (f : NodeFragment) : StatusOr Bytes := do
  let record ← payloadRecord packer f.data
  return packString f.id++packUint (unionIndex f.data)++packBinary record++
    packOptional (fun n : UInt32 => packUint n.toNat) f.seq++packBool f.continued

def seqOf (value : Json) : StatusOr UInt32 := do
  let parsed ← jsonUnsigned value "NodeFragment.seq"
  if maxSeq < parsed then .error (.outOfRange "NodeFragment.seq exceeds uint32")
  else .ok (UInt32.ofNat parsed)

def continuedOf (value : Json) : StatusOr Bool :=
  match value with
  | .bool continued => .ok continued
  | _ => .error (.invalidArgument "NodeFragment.continued must be bool")

def payloadOf (index : ℕ) (encoded : Bytes) : StatusOr Payload :=
  if index = 0 then do
    let chunk ← Chunk.fromMsgpack encoded
    return .chunk chunk
  else do
    let nodeRef ← NodeRef.fromMsgpack encoded
    return .nodeRef nodeRef

def fromMsgpack (bytes : Bytes) : StatusOr NodeFragment := do
  let (idValue,bytes) ← readField "NodeFragment.id" bytes
  let id ← jsonString idValue "NodeFragment.id"
  let (unionValue,bytes) ← readField "NodeFragment.data index" bytes
  let index ← jsonUnsigned unionValue "NodeFragment.data index"
  if 1 < index then
    .error (.failedPrecondition "Invalid union index; expected 0 for Chunk or 1 for NodeRef")
  else .ok ()
  let (encoded,bytes) ← readBinaryView bytes
  let data ← payloadOf index encoded
  let (seqValue,bytes) ← readField "NodeFragment.seq" bytes
  let seq ← readOptional seqOf seqValue
  let (continuedValue,bytes) ← readField "NodeFragment.continued" bytes
  let continued ← continuedOf continuedValue
  ensureFullyConsumed bytes
  let result : NodeFragment := ⟨id,data,seq,continued⟩
  result.validate
  return result

end NodeFragment

/-! ### Actions and messages -/

namespace Port

def toMsgpackInto (p : Port) : Bytes := packString p.name++packString p.id

def fromMsgpack (bytes : Bytes) : StatusOr Port := do
  let (nameValue,bytes) ← readField "Port.name" bytes
  let name ← jsonString nameValue "Port.name"
  let (idValue,bytes) ← readField "Port.id" bytes
  let id ← jsonString idValue "Port.id"
  ensureFullyConsumed bytes
  let result : Port := ⟨name,id⟩
  result.validate
  return result

end Port

namespace ActionMessage

def packPorts (ports : List Port) : Bytes :=
  packArrayHeader ports.length++ports.flatMap fun port => packBinary port.toMsgpackInto

def toMsgpackInto (a : ActionMessage) : Bytes :=
  packString a.id++packString a.name++packPorts a.inputs++packPorts a.outputs++
    packByteMap a.headers

def portOf (field : String) (value : Json) : StatusOr Port := do
  let encoded ← getBinary value field
  Port.fromMsgpack encoded

def decodePorts (field : String) (bytes : Bytes) : StatusOr (List Port × Bytes) := do
  let (values,bytes) ← readField field bytes
  match values with
  | .array items => do
    let ports ← decodeAll (portOf field) items
    return (ports,bytes)
  | _ => .error (.invalidArgument (field ++ " must be a list"))

def fromMsgpack (bytes : Bytes) : StatusOr ActionMessage := do
  let (idValue,bytes) ← readField "ActionMessage.id" bytes
  let id ← jsonString idValue "ActionMessage.id"
  let (nameValue,bytes) ← readField "ActionMessage.name" bytes
  let name ← jsonString nameValue "ActionMessage.name"
  let (inputs,bytes) ← decodePorts "ActionMessage.inputs" bytes
  let (outputs,bytes) ← decodePorts "ActionMessage.outputs" bytes
  let (headersValue,bytes) ← readField "ActionMessage.headers" bytes
  let headers ← decodeByteMap headersValue "ActionMessage.headers"
  ensureFullyConsumed bytes
  let result : ActionMessage := ⟨id,name,inputs,outputs,headers⟩
  result.validate
  return result

end ActionMessage

/-- Records one after another, each as binary data. -/
def packRecords {α : Type} (encode : α → StatusOr Bytes) : List α → StatusOr Bytes
  | [] => .ok []
  | x::xs => do
    let record ← encode x
    let rest ← packRecords encode xs
    return packBinary record++rest

def readRecords {α : Type} (decodeOne : Bytes → StatusOr α) :
    ℕ → Bytes → StatusOr (List α × Bytes)
  | 0, bytes => .ok ([],bytes)
  | n+1, bytes => do
    let (encoded,bytes) ← readBinaryView bytes
    let value ← decodeOne encoded
    let (values,bytes) ← readRecords decodeOne n bytes
    return (value::values,bytes)

def decodeBinaryList {α : Type} (field : String) (decodeOne : Bytes → StatusOr α)
    (bytes : Bytes) : StatusOr (List α × Bytes) :=
  match readArrayLength bytes with
  | .error _ => .error (.invalidArgument (field ++ " must be a list"))
  | .ok (count,bytes) => readRecords decodeOne count bytes

namespace WireMessage

def version : ℕ := 1

def toMsgpackInto (packer : JsonPacker) (m : WireMessage) : StatusOr Bytes := do
  let fragments ← packRecords (NodeFragment.toMsgpackInto packer) m.nodeFragments
  let actions ← packRecords (fun a : ActionMessage => .ok a.toMsgpackInto) m.actions
  return packUint version++packArrayHeader m.nodeFragments.length++fragments++
    packArrayHeader m.actions.length++actions++packByteMap m.headers

def toMsgpack (packer : JsonPacker) (m : WireMessage) : StatusOr Bytes := do
  m.validate
  m.toMsgpackInto packer

def fromMsgpack (bytes : Bytes) : StatusOr WireMessage := do
  let (versionValue,bytes) ← readField "WireMessage.version" bytes
  let serialized ← jsonUnsigned versionValue "WireMessage.version"
  if serialized ≠ version then
    .error (.invalidArgument s!"Invalid serialized WireMessage version: {serialized}")
  else .ok ()
  let (fragments,bytes) ←
    decodeBinaryList "WireMessage.node_fragments" NodeFragment.fromMsgpack bytes
  let (actions,bytes) ← decodeBinaryList "WireMessage.actions" ActionMessage.fromMsgpack bytes
  let (headersValue,bytes) ← readField "WireMessage.headers" bytes
  let headers ← decodeByteMap headersValue "WireMessage.headers"
  ensureFullyConsumed bytes
  let result : WireMessage := ⟨fragments,actions,headers⟩
  result.validate
  return result

end WireMessage

end A11
