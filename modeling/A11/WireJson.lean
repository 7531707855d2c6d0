import A11.StorageJson
import A11.WireMsgpack

/-! Wire messages as JSON values, and back. -/
namespace A11
open Json

/-- The text forms of bytes and of times. -/
structure TextForms where
  base64Escape : Bytes → Bytes
  base64Unescape : Bytes → Option Bytes
  formatTime : ℤ → Bytes
  parseTime : Bytes → Except String ℤ

namespace TextForms

variable (text : TextForms)

/-- The bytes are in the range on which the forms of bytes are inverses. -/
def ReadsBytes (bytes : Bytes) : Prop := text.base64Unescape (text.base64Escape bytes) = some bytes

def ReadsMap (m : ByteMap) : Prop := ∀ e ∈ m.entries, text.ReadsBytes e.2

/-- The time is in the range on which the forms of times are inverses. -/
def ReadsTime (t : ℤ) : Prop := text.parseTime (text.formatTime t) = .ok t

def ReadsMetadata (m : ChunkMetadata) : Prop :=
  text.ReadsMap m.attributes ∧ ∀ t ∈ m.timestamp, text.ReadsTime t

def ReadsPayload : Payload → Prop
  | .chunk c => text.ReadsBytes c.data ∧ ∀ m ∈ c.metadata, text.ReadsMetadata m
  | .nodeRef _ => True

/-- All bytes and times of the message are in these ranges. -/
structure Reads (m : WireMessage) : Prop where
  fragments : ∀ f ∈ m.nodeFragments, text.ReadsPayload f.data
  actions : ∀ a ∈ m.actions, text.ReadsMap a.headers
  headers : text.ReadsMap m.headers

end TextForms

namespace WireJson

open Json (fields getOptional_fields getString_of_some key)

/-! ### Fields -/

def getRequired (object : Json) (name context : String) : StatusOr Json :=
  if object.isObject then
    match object.getOptional name with
    | some value => .ok value
    | none => .error (.invalidArgument (context ++ " is missing field " ++ name))
  else .error (.invalidArgument (context ++ " must be a JSON object"))

/-- A number within `maximum`. An unsigned number is first looked at as a signed one. -/
def getUnsigned (object : Json) (name : String) (default maximum : ℕ) (context : String) :
    StatusOr ℕ :=
  let bounded (i : ℤ) (n : ℕ) : StatusOr ℕ :=
    if i < 0 then .error (.outOfRange (context ++ "." ++ name ++ " must not be negative"))
    else if maximum < n then
      .error (.outOfRange (context ++ "." ++ name ++ " exceeds its supported range"))
    else .ok n
  match object.getOptional name with
  | none => .ok default
  | some (.unsigned n) => bounded (Msgpack.signed 8 n) n
  | some (.integer i) => bounded i i.toNat
  | some _ => .error (.invalidArgument (context ++ "." ++ name ++ " must be an unsigned integer"))

/-- A field that may be missing or null. -/
def getNullable {α : Type} (object : Json) (name : String) (decode : Json → StatusOr α) :
    StatusOr (Option α) :=
  match object.getOptional name with
  | none => .ok none
  | some .null => .ok none
  | some value => do
    let decoded ← decode value
    return some decoded

/-- The items of a field that may be missing. -/
def getItems {α : Type} (object : Json) (name context : String) (decode : Json → StatusOr α) :
    StatusOr (List α) :=
  match object.getOptional name with
  | none => .ok []
  | some (.array items) => decodeAll decode items
  | some _ => .error (.invalidArgument (context ++ " must be an array"))

/-- A string that is left out when it is empty. -/
def unlessEmpty (value : Bytes) : Option Json := if value = [] then none else some (.string value)

/-- An array that is left out when it has no items. -/
def itemsUnlessEmpty {α : Type} (encode : α → Json) (items : List α) : Option Json :=
  if items = [] then none else some (.array (items.map encode))

section Codec

variable (text : TextForms)

def encodeBytes (bytes : Bytes) : Json := .string (text.base64Escape bytes)

def decodeBytes (value : Json) (field : String) : StatusOr Bytes :=
  match value with
  | .string encoded =>
    match text.base64Unescape encoded with
    | some bytes => .ok bytes
    | none => .error (.invalidArgument (field ++ " is not valid base64"))
  | _ => .error (.invalidArgument (field ++ " must be a base64 string"))

def encodeByteMap (m : ByteMap) : Json :=
  .ofEntries (m.entries.map fun e => (e.1,encodeBytes text e.2))

def byteMapUnlessEmpty (m : ByteMap) : Option Json :=
  if m.entries = [] then none else some (encodeByteMap text m)

def decodeByteEntries (context : String) : List (Bytes × Json) → ByteMap → StatusOr ByteMap
  | [], result => .ok result
  | (key,value)::entries, result => do
    validateName key
    let decoded ← decodeBytes text value (context ++ "." ++ asciiText key)
    decodeByteEntries context entries (result.emplace key decoded)

def decodeByteMap (value : Option Json) (context : String) : StatusOr ByteMap :=
  match value with
  | none => .ok .empty
  | some (.object entries) => decodeByteEntries text context entries .empty
  | some _ => .error (.invalidArgument (context ++ " must be an object"))

/-! ### Chunks and references -/

def encodeMetadata (m : ChunkMetadata) : Json :=
  .fields [("mimetype",some (.string m.mimetype)),
    ("timestamp",m.timestamp.map fun t => .string (text.formatTime t)),
    ("attributes",byteMapUnlessEmpty text m.attributes)]

def decodeTimestamp (value : Json) : StatusOr ℤ :=
  match value with
  | .string formatted =>
    match text.parseTime formatted with
    | .ok parsed => .ok parsed
    | .error error => .error (.invalidArgument ("Invalid ChunkMetadata.timestamp: " ++ error))
  | _ => .error (.invalidArgument "ChunkMetadata.timestamp must be an RFC 3339 string or null")

def decodeMetadata (value : Json) : StatusOr ChunkMetadata := do
  let mimetype ← value.getString "mimetype" "ChunkMetadata"
  let timestamp ← getNullable value "timestamp" (decodeTimestamp text)
  let attributes ← decodeByteMap text (value.getOptional "attributes") "ChunkMetadata.attributes"
  let result : ChunkMetadata := ⟨mimetype,timestamp,attributes⟩
  result.validate
  return result

/-- The data is there even when it is empty, which tells a chunk from a reference. -/
def encodeChunk (c : Chunk) : Json :=
  .fields [("metadata",c.metadata.map (encodeMetadata text)),("ref",unlessEmpty c.ref),
    ("data",some (encodeBytes text c.data))]

def decodeData (value : Json) : StatusOr Bytes :=
  match value.getOptional "data" with
  | none => .ok []
  | some data => decodeBytes text data "Chunk.data"

def decodeChunk (value : Json) : StatusOr Chunk :=
  if value.isObject then do
    let metadata ← getNullable value "metadata" (decodeMetadata text)
    let ref ← value.getString "ref" "Chunk"
    let data ← decodeData text value
    let result : Chunk := { metadata, ref, data }
    result.validate
    return result
  else .error (.invalidArgument "Chunk must be a JSON object")

def encodeNodeRef (r : NodeRef) : Json :=
  .fields [("id",some (.string r.id)),
    ("offset",if r.offset = 0 then none else some (.unsigned r.offset.toNat)),
    ("length",r.length.map fun n => .unsigned n.toNat),
    ("storage",r.storage.map StorageIdentity.jsonValue)]

def decodeNodeRef (value : Json) : StatusOr NodeRef := do
  let id ← value.getString "id" "NodeRef"
  let offset ← getUnsigned value "offset" 0 maxSeq "NodeRef"
  let length ← getNullable value "length"
    fun _ => getUnsigned value "length" 0 (maxSeq+1) "NodeRef"
  let storage ← getNullable value "storage" storageIdentityFromJsonValue
  let result : NodeRef := ⟨id,UInt32.ofNat offset,length.map UInt64.ofNat,storage⟩
  result.validate
  return result

/-! ### Fragments, actions and messages -/

def encodePayload : Payload → Json
  | .chunk c => encodeChunk text c
  | .nodeRef r => encodeNodeRef r

def encodeFragment (f : NodeFragment) : Json :=
  .fields [("id",unlessEmpty f.id),("data",some (encodePayload text f.data)),
    ("seq",f.seq.map fun n => .unsigned n.toNat),
    ("continued",if f.continued then some (.bool true) else none)]

/-- A reference has an id and none of the fields of a chunk. -/
def isNodeRef (value : Json) : Bool :=
  (value.getOptional "id").isSome && (value.getOptional "data").isNone &&
    (value.getOptional "ref").isNone && (value.getOptional "metadata").isNone

def decodePayload (value : Json) : StatusOr Payload :=
  if isNodeRef value then do
    let decoded ← decodeNodeRef value
    return .nodeRef decoded
  else do
    let decoded ← decodeChunk text value
    return .chunk decoded

def decodeContinued (value : Json) : StatusOr Bool :=
  match value.getOptional "continued" with
  | none => .ok false
  | some (.bool continued) => .ok continued
  | some _ => .error (.invalidArgument "NodeFragment.continued must be a boolean")

def decodeFragment (value : Json) : StatusOr NodeFragment := do
  let id ← value.getString "id" "NodeFragment"
  let dataValue ← getRequired value "data" "NodeFragment"
  if dataValue.isObject then .ok ()
  else .error (.invalidArgument "NodeFragment.data must be a JSON object")
  let data ← decodePayload text dataValue
  let seq ← getNullable value "seq" fun _ => getUnsigned value "seq" 0 maxSeq "NodeFragment"
  let continued ← decodeContinued value
  let result : NodeFragment := ⟨id,data,seq.map UInt32.ofNat,continued⟩
  result.validate
  return result

def encodePort (p : Port) : Json := .fields [("name",unlessEmpty p.name),("id",unlessEmpty p.id)]

def decodePort (value : Json) : StatusOr Port := do
  let name ← value.getString "name" "Port"
  let id ← value.getString "id" "Port"
  let result : Port := ⟨name,id⟩
  result.validate
  return result

def encodeAction (a : ActionMessage) : Json :=
  .fields [("id",some (.string a.id)),("name",some (.string a.name)),
    ("inputs",itemsUnlessEmpty encodePort a.inputs),
    ("outputs",itemsUnlessEmpty encodePort a.outputs),
    ("headers",byteMapUnlessEmpty text a.headers)]

def decodeAction (value : Json) : StatusOr ActionMessage := do
  let id ← value.getString "id" "ActionMessage"
  let name ← value.getString "name" "ActionMessage"
  let inputs ← getItems value "inputs" "ActionMessage.inputs" decodePort
  let outputs ← getItems value "outputs" "ActionMessage.outputs" decodePort
  let headers ← decodeByteMap text (value.getOptional "headers") "ActionMessage.headers"
  let result : ActionMessage := ⟨id,name,inputs,outputs,headers⟩
  result.validate
  return result

def encodeWireMessage (m : WireMessage) : Json :=
  .fields [("node_fragments",itemsUnlessEmpty (encodeFragment text) m.nodeFragments),
    ("actions",itemsUnlessEmpty (encodeAction text) m.actions),
    ("headers",byteMapUnlessEmpty text m.headers)]

def wireMessageToJsonValue (m : WireMessage) : StatusOr Json := do
  m.validate
  return encodeWireMessage text m

def wireMessageFromJsonValue (value : Json) : StatusOr WireMessage :=
  if value.isObject then do
    let fragments ←
      getItems value "node_fragments" "WireMessage.node_fragments" (decodeFragment text)
    let actions ← getItems value "actions" "WireMessage.actions" (decodeAction text)
    let headers ← decodeByteMap text (value.getOptional "headers") "WireMessage.headers"
    let result : WireMessage := ⟨fragments,actions,headers⟩
    result.validate
    return result
  else .error (.invalidArgument "A WireMessage JSON value must be an object")

end Codec

/-! ### Reading back single fields -/

section Fields

variable {object : Json} {name context : String}

theorem getString_unlessEmpty {value : Bytes} (h : object.getOptional name = unlessEmpty value) :
    object.getString name context = .ok value := by
  by_cases hemp : value = []
  · subst hemp
    rw [getString,h]
    rfl
  · rw [unlessEmpty,if_neg hemp] at h
    exact getString_of_some context h

/-- A field that is there exactly when the option has a value. -/
theorem getNullable_map {α β : Type} {encode : α → Json} {decode : Json → StatusOr β} {f : α → β}
    {x : Option α} (h : object.getOptional name = x.map encode)
    (hnull : ∀ a ∈ x, (encode a).isNull = false) (hdec : ∀ a ∈ x, decode (encode a) = .ok (f a)) :
    getNullable object name decode = .ok (x.map f) := by
  cases x with
  | none =>
    rw [getNullable,h]
    rfl
  | some a =>
    have hne := hnull a rfl
    have hread := hdec a rfl
    rw [getNullable,h,Option.map_some]
    generalize encode a = value at hne hread ⊢
    cases value with
    | null => simp [isNull] at hne
    | _ => simp [hread]

theorem getUnsigned_of_some {n default maximum : ℕ} (hmaximum : maximum < 2^63)
    (h : object.getOptional name = some (.unsigned n)) (hn : n ≤ maximum) :
    getUnsigned object name default maximum context = .ok n := by
  have hsigned : ¬ Msgpack.signed 8 n < 0 := by
    rw [Msgpack.signed]
    omega
  rw [getUnsigned,h]
  simp [if_neg hsigned,if_neg (not_lt.mpr hn)]

theorem getNullable_unsigned {α : Type} {f : α → ℕ} {x : Option α} (maximum : ℕ)
    (hmaximum : maximum < 2^63) (h : object.getOptional name = x.map fun n => .unsigned (f n))
    (hx : ∀ n ∈ x, f n ≤ maximum) :
    getNullable object name (fun _ => getUnsigned object name 0 maximum context) =
      .ok (x.map f) := by
  refine getNullable_map h (fun _ _ => rfl) fun n hn => ?_
  rw [Option.mem_def.mp hn] at h
  exact getUnsigned_of_some hmaximum h (hx n hn)

theorem getItems_itemsUnlessEmpty {α : Type} {encode : α → Json} {decode : Json → StatusOr α}
    {items : List α} (h : object.getOptional name = itemsUnlessEmpty encode items)
    (hdec : ∀ x ∈ items, decode (encode x) = .ok x) (context : String) :
    getItems object name context decode = .ok items := by
  by_cases hemp : items = []
  · subst hemp
    rw [getItems,h]
    rfl
  · rw [itemsUnlessEmpty,if_neg hemp] at h
    rw [getItems,h]
    exact decodeAll_map hdec

variable {text : TextForms}

theorem decodeBytes_encodeBytes {bytes : Bytes} (h : text.ReadsBytes bytes) (field : String) :
    decodeBytes text (encodeBytes text bytes) field = .ok bytes := by
  rw [encodeBytes,decodeBytes,h]

theorem decodeByteEntries_map {entries : List (Bytes × Bytes)}
    (h : ∀ e ∈ entries, validateName e.1 = .ok ())
    (hreads : ∀ e ∈ entries, text.ReadsBytes e.2) (result : ByteMap) :
    decodeByteEntries text context (entries.map fun e => (e.1,encodeBytes text e.2)) result =
      .ok (entries.foldl (fun all e => all.emplace e.1 e.2) result) := by
  induction entries generalizing result with
  | nil => rfl
  | cons e entries ih =>
    rw [List.forall_mem_cons] at h hreads
    rw [List.map_cons,decodeByteEntries,h.1,decodeBytes_encodeBytes hreads.1]
    exact ih h.2 hreads.2 _

theorem decodeByteMap_unlessEmpty {m : ByteMap}
    (h : checkAll (fun e => validateName e.1) m.entries = .ok ()) (hreads : text.ReadsMap m) :
    decodeByteMap text (byteMapUnlessEmpty text m) context = .ok m := by
  by_cases hemp : m.entries = []
  · rw [byteMapUnlessEmpty,if_pos hemp]
    exact congrArg Except.ok (ByteMap.ext hemp.symm)
  · rw [byteMapUnlessEmpty,if_neg hemp,encodeByteMap,ofEntries_sorted (m.sorted_map _),
      decodeByteMap,decodeByteEntries_map (checkAll_eq_ok.mp h) hreads]
    exact congrArg Except.ok (ByteMap.ext (ByteMap.foldl_emplace m.sorted_entries))

end Fields

/-! ### Round trip -/

section RoundTrip

variable {text : TextForms}

theorem decodeMetadata_encodeMetadata {m : ChunkMetadata} (hvalid : m.validate = .ok ())
    (hreads : text.ReadsMetadata m) :
    decodeMetadata text (encodeMetadata text m) = .ok m := by
  generalize hobj : encodeMetadata text m = object
  obtain ⟨hmimetype,htimestamp,hattributes,-⟩ := getOptional_fields hobj (by simp +decide)
  have htime : getNullable object "timestamp" (decodeTimestamp text) =
      .ok (m.timestamp.map id) := by
    refine getNullable_map htimestamp (fun _ _ => rfl) fun t ht => ?_
    rw [decodeTimestamp,hreads.2 t ht]
    rfl
  simp [decodeMetadata,getString_of_some _ hmimetype,htime,hattributes,
    decodeByteMap_unlessEmpty hvalid hreads.1,hvalid]

theorem isNull_fields (all : List (String × Option Json)) : (fields all).isNull = false := by
  have hobj : (fields all).isObject = true := isObject_fields
  cases hval : fields all with
  | object entries => rfl
  | _ => simp [hval,isObject] at hobj

theorem decodeChunk_encodeChunk {c : Chunk} (hvalid : c.validate = .ok ())
    (hobject : c.object = none) (hreads : text.ReadsPayload (.chunk c)) :
    decodeChunk text (encodeChunk text c) = .ok c := by
  have hisobj : (encodeChunk text c).isObject := isObject_fields
  generalize hobj : encodeChunk text c = object at hisobj
  obtain ⟨hmetadata,href,hdata,-⟩ := getOptional_fields hobj (by simp +decide)
  have hdecoded : getNullable object "metadata" (decodeMetadata text) =
      .ok (c.metadata.map id) :=
    getNullable_map hmetadata (fun _ _ => isNull_fields _) fun m hm =>
      decodeMetadata_encodeMetadata (Chunk.validate_metadata hvalid m hm) (hreads.2 m hm)
  have hread : decodeData text object = .ok c.data := by
    rw [decodeData,hdata]
    exact decodeBytes_encodeBytes hreads.1 "Chunk.data"
  have hresult : ({ metadata := c.metadata, ref := c.ref, data := c.data } : Chunk) = c := by
    rw [← hobject]
  simp [decodeChunk,hisobj,hdecoded,getString_unlessEmpty href,hread,hresult,hvalid]

theorem decodeNodeRef_encodeNodeRef {r : NodeRef} (hvalid : r.validate = .ok ()) :
    decodeNodeRef (encodeNodeRef r) = .ok r := by
  have hchecked := NodeRef.validate_eq_ok hvalid
  generalize hobj : encodeNodeRef r = object
  obtain ⟨hid,hoffset,hlength,hstorage,-⟩ := getOptional_fields hobj (by simp +decide)
  have hreadOffset : getUnsigned object "offset" 0 maxSeq "NodeRef" = .ok r.offset.toNat := by
    by_cases hzero : r.offset = 0
    · rw [getUnsigned,hoffset,hzero]
      rfl
    · rw [if_neg hzero] at hoffset
      have hlt := r.offset.toNat_lt
      exact getUnsigned_of_some (by decide) hoffset (by unfold maxSeq; omega)
  have hreadStorage : getNullable object "storage" storageIdentityFromJsonValue =
      .ok (r.storage.map id) :=
    getNullable_map hstorage (fun s _ => s.jsonValue_isNull) fun s hs =>
      storageIdentity_jsonValue (hchecked.storage s hs)
  have hback : (r.length.map UInt64.toNat).map UInt64.ofNat = r.length := by
    cases r.length <;> simp
  simp [decodeNodeRef,getString_of_some _ hid,hreadOffset,hreadStorage,hback,hvalid,
    getNullable_unsigned (maxSeq+1) (by decide) hlength hchecked.length]

theorem isNodeRef_encodeChunk (c : Chunk) : isNodeRef (encodeChunk text c) = false := by
  generalize hobj : encodeChunk text c = object
  obtain ⟨-,-,hdata,-⟩ := getOptional_fields hobj (by simp +decide)
  simp [isNodeRef,hdata]

theorem isNodeRef_encodeNodeRef (r : NodeRef) : isNodeRef (encodeNodeRef r) = true := by
  have hid := (getOptional_fields (rfl : _ = encodeNodeRef r) (by simp +decide)).1
  have habsent : ∀ name, key name ∉ ["id","offset","length","storage"].map key →
      (encodeNodeRef r).getOptional name = none :=
    fun name hname => getOptional_fields_of_notMem hname rfl
  simp [isNodeRef,hid,habsent "data" (by decide),habsent "ref" (by decide),
    habsent "metadata" (by decide)]

theorem decodePayload_encodePayload {data : Payload} (hval : data.validate = .ok ())
    (hobj : data.ObjectFree) (hreads : text.ReadsPayload data) :
    decodePayload text (encodePayload text data) = .ok data := by
  cases data with
  | chunk c =>
    simp [decodePayload,encodePayload,isNodeRef_encodeChunk,
      decodeChunk_encodeChunk hval hobj hreads]
  | nodeRef r =>
    simp [decodePayload,encodePayload,isNodeRef_encodeNodeRef,decodeNodeRef_encodeNodeRef hval]

theorem isObject_encodePayload (data : Payload) : (encodePayload text data).isObject = true := by
  cases data with
  | chunk c | nodeRef r => exact isObject_fields

theorem decodeFragment_encodeFragment {f : NodeFragment} (hvalid : f.validate = .ok ())
    (hobject : f.data.ObjectFree) (hreads : text.ReadsPayload f.data) :
    decodeFragment text (encodeFragment text f) = .ok f := by
  have hisobj : (encodeFragment text f).isObject := isObject_fields
  generalize hobj : encodeFragment text f = object at hisobj
  obtain ⟨hid,hdata,hseq,hcontinued,-⟩ := getOptional_fields hobj (by simp +decide)
  have hreadData : getRequired object "data" "NodeFragment" = .ok (encodePayload text f.data) := by
    rw [getRequired,if_pos hisobj,hdata]
  have hreadContinued : decodeContinued object = .ok f.continued := by
    rw [decodeContinued,hcontinued]
    cases f.continued <;> rfl
  have hback : (f.seq.map UInt32.toNat).map UInt32.ofNat = f.seq := by
    cases f.seq <;> simp
  have hle : ∀ n ∈ f.seq, n.toNat ≤ maxSeq := fun n _ => Nat.le_of_lt_succ n.toNat_lt
  simp [decodeFragment,getString_unlessEmpty hid,hreadData,isObject_encodePayload,
    decodePayload_encodePayload (NodeFragment.validate_eq_ok hvalid) hobject hreads,
    getNullable_unsigned maxSeq (by decide) hseq hle,hreadContinued,hback,hvalid]

theorem decodePort_encodePort {p : Port} (hvalid : p.validate = .ok ()) :
    decodePort (encodePort p) = .ok p := by
  generalize hobj : encodePort p = object
  obtain ⟨hname,hid,-⟩ := getOptional_fields hobj (by simp +decide)
  simp [decodePort,getString_unlessEmpty hname,getString_unlessEmpty hid,hvalid]

theorem decodeAction_encodeAction {a : ActionMessage} (hvalid : a.validate = .ok ())
    (hreads : text.ReadsMap a.headers) : decodeAction text (encodeAction text a) = .ok a := by
  have hchecked := ActionMessage.validate_eq_ok hvalid
  generalize hobj : encodeAction text a = object
  obtain ⟨hid,hname,hinputs,houtputs,hheaders,-⟩ := getOptional_fields hobj (by simp +decide)
  have hreadInputs := getItems_itemsUnlessEmpty hinputs
    fun p hp => decodePort_encodePort (checkAll_eq_ok.mp hchecked.inputs p hp)
  have hreadOutputs := getItems_itemsUnlessEmpty houtputs
    fun p hp => decodePort_encodePort (checkAll_eq_ok.mp hchecked.outputs p hp)
  simp [decodeAction,getString_of_some _ hid,getString_of_some _ hname,hreadInputs,hreadOutputs,
    hheaders,decodeByteMap_unlessEmpty hchecked.headers hreads,hvalid]

/-- A valid message without in-process values comes back from its JSON value. -/
theorem wireMessageFromJsonValue_toJsonValue (text : TextForms) (m : WireMessage)
    (hvalid : m.validate = .ok ()) (hobject : m.ObjectFree)
    (hreads : text.Reads m) :
    ∃ value, wireMessageToJsonValue text m = .ok value ∧
      wireMessageFromJsonValue text value = .ok m := by
  have hchecked := WireMessage.validate_eq_ok hvalid
  have hisobj : (encodeWireMessage text m).isObject := isObject_fields
  obtain ⟨hfragments,hactions,hheaders,-⟩ :=
    getOptional_fields (rfl : _ = encodeWireMessage text m) (by simp +decide)
  have hreadFragments := getItems_itemsUnlessEmpty hfragments fun f hf =>
    decodeFragment_encodeFragment (hchecked.fragments f hf) (hobject f hf)
      (hreads.fragments f hf)
  have hreadActions := getItems_itemsUnlessEmpty hactions
    fun a ha => decodeAction_encodeAction (hchecked.actions a ha) (hreads.actions a ha)
  refine ⟨encodeWireMessage text m,?_,?_⟩
  · rw [wireMessageToJsonValue,hvalid]
    rfl
  · simp [wireMessageFromJsonValue,hisobj,hreadFragments,hreadActions,hheaders,
      decodeByteMap_unlessEmpty hchecked.headers hreads.headers,hvalid]

end RoundTrip

/-! ### Base64 and RFC 3339 -/

def base64Digit (n : ℕ) : UInt8 :=
  .ofNat (if n < 26 then 65+n else if n < 52 then 71+n else if n < 62 then n-4
    else if n = 62 then 43 else 47)

def base64Value (c : UInt8) : Option ℕ := (List.range 64).find? (base64Digit · = c)

def base64 : Bytes → Bytes
  | [] => []
  | [a] => [base64Digit (a.toNat/4),base64Digit (a.toNat%4*16),61,61]
  | [a,b] => [base64Digit (a.toNat/4),base64Digit (a.toNat%4*16+b.toNat/16),
    base64Digit (b.toNat%16*4),61]
  | a::b::c::rest => base64Digit (a.toNat/4)::base64Digit (a.toNat%4*16+b.toNat/16)::
    base64Digit (b.toNat%16*4+c.toNat/64)::base64Digit (c.toNat%64)::base64 rest

def unbase64 : Bytes → Option Bytes
  | [] => some []
  | w::x::y::z::rest => do
    let w ← base64Value w
    let x ← base64Value x
    let first := UInt8.ofNat (w*4+x/16)
    if y = 61 then return [first]
    let y ← base64Value y
    let second := UInt8.ofNat (x*16+y/4)
    if z = 61 then return [first,second]
    let z ← base64Value z
    let rest ← unbase64 rest
    return first::second::UInt8.ofNat (y*64+z)::rest
  | _ => none

def decimal : (width n : ℕ) → Bytes
  | 0, _ => []
  | width+1, n => decimal width (n/10)++[UInt8.ofNat (48+n%10)]

def number (digits : Bytes) : ℕ := digits.foldl (fun n c => n*10+(c.toNat-48)) 0

/-- Year, month and day of a day after 1970-01-01. Years begin in March, so that a leap day ends
one. -/
def civil (day : ℤ) : ℕ × ℕ × ℕ :=
  let z := day+719468
  let ofEra := (z%146097).toNat
  let year := (ofEra-ofEra/1460+ofEra/36524-ofEra/146096)/365
  let ofYear := ofEra-(365*year+year/4-year/100)
  let month := (5*ofYear+2)/153
  ((z/146097*400).toNat+year+month/10,if month < 10 then month+3 else month-9,
    ofYear-(153*month+2)/5+1)

def dayOf (year month day : ℕ) : ℤ :=
  let year := if month ≤ 2 then year-1 else year
  let ofYear := (153*((month+9)%12)+2)/5+day-1
  year/400*146097+(year%400*365+year%400/4-year%400/100+ofYear : ℕ)-719468

/-- A time in UTC, with the digits of its fraction up to the last that is not zero. -/
def rfc3339 (t : ℤ) : Bytes :=
  let seconds := t/4000000000
  let (year,month,day) := civil (seconds/86400)
  let ofDay := (seconds%86400).toNat
  let fraction := (decimal 12 (t%4000000000*250).toNat).rdropWhile (· = 48)
  decimal 4 year++45::decimal 2 month++45::decimal 2 day++84::decimal 2 (ofDay/3600)++
    58::decimal 2 (ofDay/60%60)++58::decimal 2 (ofDay%60)++
    (if fraction = [] then [] else 46::fraction)++key "+00:00"

def unrfc3339 (text : Bytes) : Except String ℤ :=
  let field (start width : ℕ) := number ((text.drop start).take width)
  let fraction := (((text.drop 19).takeWhile (· ≠ 43)).drop 1).rightpad 12 48
  let minutes := (dayOf (field 0 4) (field 5 2) (field 8 2)*24+field 11 2)*60+field 14 2
  .ok ((minutes*60+field 17 2)*4000000000+(number fraction/250 : ℕ))

def standardForms : TextForms := ⟨base64,unbase64,rfc3339,unrfc3339⟩

/-- One chunk with a time and an attribute, one reference and one action with an input. -/
def sample : WireMessage where
  nodeFragments := [
    { data := .chunk
        { metadata := some ⟨[116],some (fromUnixMicros 1709210096250000),
            ByteMap.empty.emplace [97] [255]⟩,
          data := [104,105,33,0,10] },
      seq := some 0 },
    { id := [98], data := .nodeRef { id := [97], length := some 4294967296 } }]
  actions := [{ name := [100], inputs := [⟨[],[97]⟩] }]

example : rfc3339 (fromUnixMicros 1709210096250000) = key "2024-02-29T12:34:56.25+00:00" ∧
    base64 [104,105,33,0,10] = key "aGkhAAo=" := by decide

theorem wireMessageFromJsonValue_sample : ∃ value,
    wireMessageToJsonValue standardForms sample = .ok value ∧
      wireMessageFromJsonValue standardForms value = .ok sample := by
  refine wireMessageFromJsonValue_toJsonValue standardForms sample (by decide) ?_ ⟨?_,?_,?_⟩
  · simp [WireMessage.ObjectFree,sample,Payload.ObjectFree]
  · simp only [sample,List.forall_mem_cons,List.not_mem_nil,false_imp_iff,implies_true,and_true]
    refine ⟨⟨rfl,?_⟩,trivial⟩
    rintro _ ⟨⟩
    refine ⟨fun e he => ?_,?_⟩
    · obtain rfl := List.mem_singleton.mp he
      rfl
    · rintro _ ⟨⟩
      exact congrArg Except.ok (by decide +kernel)
  · simp [sample,TextForms.ReadsMap,ByteMap.empty]
  · simp [sample,TextForms.ReadsMap,ByteMap.empty]

end WireJson

end A11
