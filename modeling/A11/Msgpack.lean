import A11.ByteOrder
import A11.Json

/-! MessagePack values: the writer, the scanner that finds where a value ends and the
decoder of a single value. -/
namespace A11.Msgpack

/-! ### Writing -/

def packNil : Bytes := [0xc0]

def packBool (value : Bool) : Bytes := [if value then 0xc3 else 0xc2]

def packUint (value : ℕ) : Bytes :=
  if value < 128 then [UInt8.ofNat value]
  else if value ≤ 0xff then 0xcc::bigEndian 1 value
  else if value ≤ 0xffff then 0xcd::bigEndian 2 value
  else if value ≤ 0xffffffff then 0xce::bigEndian 4 value
  else 0xcf::bigEndian 8 value

/-- The low bytes of a negative number. -/
def wrap (width : ℕ) (value : ℤ) : ℕ := (value%256^width).toNat

def packInt (value : ℤ) : Bytes :=
  if 0 ≤ value then packUint value.toNat
  else if -32 ≤ value then [UInt8.ofNat (wrap 1 value)]
  else if -128 ≤ value then 0xd0::bigEndian 1 (wrap 1 value)
  else if -32768 ≤ value then 0xd1::bigEndian 2 (wrap 2 value)
  else if -2147483648 ≤ value then 0xd2::bigEndian 4 (wrap 4 value)
  else 0xd3::bigEndian 8 (wrap 8 value)

def stringHeader (size : ℕ) : Bytes :=
  if size < 32 then [0xa0 ||| UInt8.ofNat size]
  else if size ≤ 0xff then 0xd9::bigEndian 1 size
  else if size ≤ 0xffff then 0xda::bigEndian 2 size
  else 0xdb::bigEndian 4 size

def packString (value : Bytes) : Bytes := stringHeader value.length++value

def binaryHeader (size : ℕ) : Bytes :=
  if size ≤ 0xff then 0xc4::bigEndian 1 size
  else if size ≤ 0xffff then 0xc5::bigEndian 2 size
  else 0xc6::bigEndian 4 size

def packBinary (value : Bytes) : Bytes := binaryHeader value.length++value

def packArrayHeader (length : ℕ) : Bytes :=
  if length < 16 then [0x90 ||| UInt8.ofNat length]
  else if length ≤ 0xffff then 0xdc::bigEndian 2 length
  else 0xdd::bigEndian 4 length

def packMapHeader (length : ℕ) : Bytes :=
  if length < 16 then [0x80 ||| UInt8.ofNat length]
  else if length ≤ 0xffff then 0xde::bigEndian 2 length
  else 0xdf::bigEndian 4 length

/-- The header of binary data with a type byte. -/
def extensionHeader (size : ℕ) : Bytes :=
  match size with
  | 1 => [0xd4]
  | 2 => [0xd5]
  | 4 => [0xd6]
  | 8 => [0xd7]
  | 16 => [0xd8]
  | _ =>
    if size ≤ 0xff then 0xc7::bigEndian 1 size
    else if size ≤ 0xffff then 0xc8::bigEndian 2 size
    else 0xc9::bigEndian 4 size

mutual

/-- The shortest form of each value, as the JSON library packs it. -/
def packJson : Json → Bytes
  | .null => packNil
  | .bool value => packBool value
  | .integer value => packInt value
  | .unsigned value => packUint value
  | .real width bits => (if width = 4 then 0xca else 0xcb)::bigEndian width bits
  | .string value => packString value
  | .binary none value => packBinary value
  | .binary (some subtype) value =>
    extensionHeader value.length++UInt8.ofNat subtype::value
  | .array items => packArrayHeader items.length++packItems items
  | .object entries => packMapHeader entries.length++packEntries entries

def packItems : List Json → Bytes
  | [] => []
  | item::items => packJson item++packItems items

def packEntries : List (Bytes × Json) → Bytes
  | [] => []
  | (key,value)::entries => packString key++packJson value++packEntries entries

end

/-! ### Scanning -/

def truncated : Status := .invalidArgument "Truncated MessagePack data"

def tooDeep : Status := .resourceExhausted "MessagePack nesting is too deep"

def readUnsigned (width : ℕ) (bytes : Bytes) : StatusOr (ℕ × Bytes) :=
  if bytes.length < width then .error truncated
  else .ok (ofBigEndian (bytes.take width),bytes.drop width)

def skip (count : ℕ) (bytes : Bytes) : StatusOr Bytes :=
  if bytes.length < count then .error truncated else .ok (bytes.drop count)

def skipMany (item : Bytes → StatusOr Bytes) : ℕ → Bytes → StatusOr Bytes
  | 0, bytes => .ok bytes
  | n+1, bytes => do
    let bytes ← item bytes
    skipMany item n bytes

/-- The bytes behind a marker whose number does not depend on them. -/
def fixedWidth (marker : UInt8) : ℕ :=
  match marker with
  | 0xc4 | 0xd9 => 1
  | 0xc5 | 0xda => 2
  | 0xc6 | 0xdb => 4
  | 0xca => 4
  | 0xcb => 8
  | 0xcc | 0xd0 => 1
  | 0xcd | 0xd1 => 2
  | 0xce | 0xd2 => 4
  | 0xcf | 0xd3 => 8
  | 0xd4 => 2
  | 0xd5 => 3
  | 0xd6 => 5
  | 0xd7 => 9
  | 0xd8 => 17
  | _ => 0

def isMap (marker : UInt8) : Bool := marker &&& 0xf0 == 0x80 || marker == 0xde || marker == 0xdf

def isArray (marker : UInt8) : Bool := marker &&& 0xf0 == 0x90 || marker == 0xdc || marker == 0xdd

/-- The number of values in an array or a map. -/
def itemCount (marker : UInt8) (bytes : Bytes) : StatusOr (ℕ × Bytes) := do
  let (count,bytes) ←
    if marker &&& 0xf0 == 0x90 || marker &&& 0xf0 == 0x80 then
      .ok ((marker &&& 0x0f).toNat,bytes)
    else readUnsigned (if marker == 0xdc || marker == 0xde then 2 else 4) bytes
  return (if isMap marker then 2*count else count,bytes)

/-- Skips one value with so many levels of nesting left. A length in front of a string
or of binary data is taken for all of it here, so those go through `scanValue`. -/
def skipValue : ℕ → Bytes → StatusOr Bytes
  | 0, _ => .error tooDeep
  | _+1, [] => .error truncated
  | fuel+1, marker::bytes =>
    if marker ≤ 0x7f ∨ 0xe0 ≤ marker ∨ marker = 0xc0 ∨ marker = 0xc2 ∨ marker = 0xc3 then
      .ok bytes
    else if marker &&& 0xe0 = 0xa0 then skip (marker &&& 0x1f).toNat bytes
    else if fixedWidth marker ≠ 0 then skip (fixedWidth marker) bytes
    else if isArray marker ∨ isMap marker then do
      let (count,bytes) ← itemCount marker bytes
      skipMany (skipValue fuel) count bytes
    else if marker = 0xc7 ∨ marker = 0xc8 ∨ marker = 0xc9 then do
      let (length,bytes) ←
        readUnsigned (if marker = 0xc7 then 1 else if marker = 0xc8 then 2 else 4) bytes
      skip (length+1) bytes
    else .error (.invalidArgument s!"Unsupported MessagePack marker: {marker.toNat}")

/-- Markers followed by the length of a string or of binary data. -/
def isSized (marker : UInt8) : Bool :=
  marker == 0xc4 || marker == 0xc5 || marker == 0xc6 || marker == 0xd9 || marker == 0xda ||
    marker == 0xdb

def lengthWidth (marker : UInt8) : ℕ :=
  if marker = 0xc4 ∨ marker = 0xd9 then 1 else if marker = 0xc5 ∨ marker = 0xda then 2 else 4

/-- Scans one value; `items` scans a value one level down, if there is one. -/
def scanMarker (items : Option (Bytes → StatusOr Bytes)) (fuel : ℕ) (bytes : Bytes) :
    StatusOr Bytes :=
  match bytes with
  | [] => .error truncated
  | marker::rest =>
    if isSized marker then do
      let (length,rest) ← readUnsigned (lengthWidth marker) rest
      skip length rest
    else if isArray marker || isMap marker then
      match items with
      | none => .error tooDeep
      | some items => do
        let (count,rest) ← itemCount marker rest
        skipMany items count rest
    else skipValue fuel bytes

def scanValue : ℕ → Bytes → StatusOr Bytes
  | 0 => scanMarker none 0
  | fuel+1 => scanMarker (some (scanValue fuel)) (fuel+1)

/-! ### Decoding -/

def cutShort : Status := .invalidArgument "truncated"

def readBigEndian (width : ℕ) (bytes : Bytes) : StatusOr (ℕ × Bytes) :=
  if bytes.length < width then .error cutShort
  else .ok (ofBigEndian (bytes.take width),bytes.drop width)

def readPayload (length : ℕ) (bytes : Bytes) : StatusOr (Bytes × Bytes) :=
  if bytes.length < length then .error cutShort else .ok (bytes.take length,bytes.drop length)

def hexDigit (n : ℕ) : Char := if n < 10 then Char.ofNat (48+n) else Char.ofNat (87+n)

def hexByte (marker : UInt8) : String :=
  String.ofList [hexDigit (marker.toNat/16),hexDigit (marker.toNat%16)]

def readStringLength (marker : UInt8) (bytes : Bytes) : StatusOr (ℕ × Bytes) :=
  if marker &&& 0xe0 = 0xa0 then .ok ((marker &&& 0x1f).toNat,bytes)
  else match marker with
    | 0xd9 => readBigEndian 1 bytes
    | 0xda => readBigEndian 2 bytes
    | 0xdb => readBigEndian 4 bytes
    | _ => .error (.invalidArgument ("expected a string, found marker 0x" ++ hexByte marker))

def decodeString (marker : UInt8) (bytes : Bytes) : StatusOr (Bytes × Bytes) := do
  let (length,bytes) ← readStringLength marker bytes
  readPayload length bytes

/-- The length of binary data and, for extensions, that a type byte comes before it. -/
def readBinaryLength (marker : UInt8) (bytes : Bytes) : StatusOr ((ℕ × Bool) × Bytes) :=
  let sized (width : ℕ) (hasSubtype : Bool) : StatusOr ((ℕ × Bool) × Bytes) := do
    let (length,bytes) ← readBigEndian width bytes
    return ((length,hasSubtype),bytes)
  match marker with
  | 0xc4 => sized 1 false
  | 0xc5 => sized 2 false
  | 0xc6 => sized 4 false
  | 0xc7 => sized 1 true
  | 0xc8 => sized 2 true
  | 0xc9 => sized 4 true
  | 0xd4 => .ok ((1,true),bytes)
  | 0xd5 => .ok ((2,true),bytes)
  | 0xd6 => .ok ((4,true),bytes)
  | 0xd7 => .ok ((8,true),bytes)
  | 0xd8 => .ok ((16,true),bytes)
  | _ => .error ⟨.internal,"Unreachable MessagePack binary marker"⟩

def decodeBinary (marker : UInt8) (bytes : Bytes) : StatusOr (Json × Bytes) := do
  let ((length,hasSubtype),bytes) ← readBinaryLength marker bytes
  if hasSubtype then
    let (subtype,bytes) ← readBigEndian 1 bytes
    let (payload,bytes) ← readPayload length bytes
    return (.binary (some subtype) payload,bytes)
  else
    let (payload,bytes) ← readPayload length bytes
    return (.binary none payload,bytes)

def decodeItems (item : Bytes → StatusOr (Json × Bytes)) :
    ℕ → Bytes → StatusOr (List Json × Bytes)
  | 0, bytes => .ok ([],bytes)
  | n+1, bytes => do
    let (value,bytes) ← item bytes
    let (values,bytes) ← decodeItems item n bytes
    return (value::values,bytes)

def decodeArray (item : Bytes → StatusOr (Json × Bytes)) (count : ℕ) (bytes : Bytes) :
    StatusOr (Json × Bytes) := do
  let (values,bytes) ← decodeItems item count bytes
  return (.array values,bytes)

/-- The last value of a repeated key stays. -/
def decodeEntries (item : Bytes → StatusOr (Json × Bytes)) :
    ℕ → List (Bytes × Json) → Bytes → StatusOr (List (Bytes × Json) × Bytes)
  | 0, entries, bytes => .ok (entries,bytes)
  | _+1, _, [] => .error cutShort
  | n+1, entries, marker::bytes => do
    let (key,bytes) ← decodeString marker bytes
    let (value,bytes) ← item bytes
    decodeEntries item n (Entries.put key value entries) bytes

def decodeObject (item : Bytes → StatusOr (Json × Bytes)) (count : ℕ) (bytes : Bytes) :
    StatusOr (Json × Bytes) := do
  let (entries,bytes) ← decodeEntries item count [] bytes
  return (.object entries,bytes)

/-- A number in two's complement. -/
def signed (width n : ℕ) : ℤ := if n < 256^width/2 then n else n-256^width

/-- The markers that stand for one kind of value each. -/
def decodeMarker (item : Bytes → StatusOr (Json × Bytes)) (marker : UInt8) (bytes : Bytes) :
    StatusOr (Json × Bytes) :=
  let number (width : ℕ) (value : ℕ → Json) : StatusOr (Json × Bytes) := do
    let (n,bytes) ← readBigEndian width bytes
    return (value n,bytes)
  let text : StatusOr (Json × Bytes) := do
    let (value,bytes) ← decodeString marker bytes
    return (.string value,bytes)
  let items (width : ℕ) : StatusOr (Json × Bytes) := do
    let (count,bytes) ← readBigEndian width bytes
    decodeArray item count bytes
  let entries (width : ℕ) : StatusOr (Json × Bytes) := do
    let (count,bytes) ← readBigEndian width bytes
    decodeObject item count bytes
  match marker with
  | 0xc0 => .ok (.null,bytes)
  | 0xc2 => .ok (.bool false,bytes)
  | 0xc3 => .ok (.bool true,bytes)
  | 0xc4 | 0xc5 | 0xc6 | 0xc7 | 0xc8 | 0xc9 | 0xd4 | 0xd5 | 0xd6 | 0xd7 | 0xd8 =>
    decodeBinary marker bytes
  | 0xca => number 4 (.real 4)
  | 0xcb => number 8 (.real 8)
  | 0xcc => number 1 .unsigned
  | 0xcd => number 2 .unsigned
  | 0xce => number 4 .unsigned
  | 0xcf => number 8 .unsigned
  | 0xd0 => number 1 fun n => .integer (signed 1 n)
  | 0xd1 => number 2 fun n => .integer (signed 2 n)
  | 0xd2 => number 4 fun n => .integer (signed 4 n)
  | 0xd3 => number 8 fun n => .integer (signed 8 n)
  | 0xd9 | 0xda | 0xdb => text
  | 0xdc => items 2
  | 0xdd => items 4
  | 0xde => entries 2
  | 0xdf => entries 4
  | _ => .error (.invalidArgument ("unsupported marker 0x" ++ hexByte marker))

/-- Decodes one value with so many levels of nesting left. -/
def decode : ℕ → Bytes → StatusOr (Json × Bytes)
  | 0, _ => .error (.resourceExhausted "nesting is too deep")
  | _+1, [] => .error cutShort
  | fuel+1, marker::bytes =>
    if marker ≤ 0x7f then .ok (.unsigned marker.toNat,bytes)
    else if 0xe0 ≤ marker then .ok (.integer (signed 1 marker.toNat),bytes)
    else if marker &&& 0xe0 = 0xa0 then do
      let (value,bytes) ← decodeString marker bytes
      return (.string value,bytes)
    else if marker &&& 0xf0 = 0x90 then decodeArray (decode fuel) (marker &&& 0x0f).toNat bytes
    else if marker &&& 0xf0 = 0x80 then decodeObject (decode fuel) (marker &&& 0x0f).toNat bytes
    else decodeMarker (decode fuel) marker bytes

/-- The levels a value may have: nesting up to 256 below the outermost. -/
def levels : ℕ := 257

def unpackMsgpack (encoded : Bytes) (what : String) : StatusOr Json :=
  match decode levels encoded with
  | .error status =>
    .error ⟨status.code,"Invalid " ++ what ++ " MessagePack data: " ++ status.message⟩
  | .ok (value,rest) =>
    if rest = [] then .ok value
    else .error (.invalidArgument ("Invalid " ++ what ++ " MessagePack data: " ++
      toString rest.length ++ " trailing bytes"))

/-! ### Reading -/

/-- Reads one value: the scanner says where it ends and the decoder what it is. -/
def read (bytes : Bytes) : StatusOr (Json × Bytes) := do
  let rest ← scanValue levels bytes
  let value ← unpackMsgpack (bytes.take (bytes.length-rest.length)) "a value"
  return (value,rest)

def readBinaryView (bytes : Bytes) : StatusOr (Bytes × Bytes) :=
  match bytes with
  | [] => .error truncated
  | marker::rest =>
    if marker ≠ 0xc4 ∧ marker ≠ 0xc5 ∧ marker ≠ 0xc6 then
      .error (.invalidArgument "Expected MessagePack binary data at this field")
    else do
      let (length,rest) ←
        readUnsigned (if marker = 0xc4 then 1 else if marker = 0xc5 then 2 else 4) rest
      if rest.length < length then .error truncated
      else .ok (rest.take length,rest.drop length)

def readArrayLength (bytes : Bytes) : StatusOr (ℕ × Bytes) :=
  match bytes with
  | [] => .error truncated
  | marker::rest =>
    if marker &&& 0xf0 = 0x90 then .ok ((marker &&& 0x0f).toNat,rest)
    else if marker ≠ 0xdc ∧ marker ≠ 0xdd then
      .error (.invalidArgument "Expected a MessagePack array at this field")
    else readUnsigned (if marker = 0xdc then 2 else 4) rest

def ensureFullyConsumed (bytes : Bytes) : StatusOr Unit :=
  if bytes = [] then .ok () else .error (.invalidArgument "Extra data after deserialization")

def getBinary (value : Json) (fieldName : String) : StatusOr Bytes :=
  match value with
  | .binary _ bytes => .ok bytes
  | _ => .error (.invalidArgument (fieldName ++ " must be MessagePack binary data"))

end A11.Msgpack
