import A11.WireMsgpack

/-! Decoding an encoded wire message gives the message back, as long as every record in
it is short enough for the length in front of it. -/
namespace A11

open Msgpack List

/-! ### Sizes -/

structure ChunkMetadata.Within (m : ChunkMetadata) : Prop where
  mimetype : m.mimetype.length < lengthLimit
  attributes : m.attributes.Within

structure Chunk.Within (c : Chunk) : Prop where
  metadata : ∀ m ∈ c.metadata, m.Within
  ref : c.ref.length < lengthLimit
  data : c.data.length < lengthLimit

structure NodeRef.Within (r : NodeRef) : Prop where
  id : r.id.length < lengthLimit
  storage : ∀ s ∈ r.storage, s.Within

def Payload.Within : Payload → Prop
  | .chunk c => c.Within
  | .nodeRef r => r.Within

structure NodeFragment.Within (f : NodeFragment) : Prop where
  id : f.id.length < lengthLimit
  data : f.data.Within

structure Port.Within (p : Port) : Prop where
  name : p.name.length < lengthLimit
  id : p.id.length < lengthLimit

structure ActionMessage.Within (a : ActionMessage) : Prop where
  id : a.id.length < lengthLimit
  name : a.name.length < lengthLimit
  inputs : a.inputs.length < lengthLimit ∧ ∀ p ∈ a.inputs, p.Within
  outputs : a.outputs.length < lengthLimit ∧ ∀ p ∈ a.outputs, p.Within
  headers : a.headers.Within

/-- Every string and every container of the message is shorter than `2 ^ 32`. -/
structure WireMessage.Within (m : WireMessage) : Prop where
  fragments : m.nodeFragments.length < lengthLimit
  fragment : ∀ f ∈ m.nodeFragments, f.Within
  actions : m.actions.length < lengthLimit
  action : ∀ a ∈ m.actions, a.Within
  headers : m.headers.Within

/-- The timestamp is a whole number of microseconds that fits 64 bits. -/
def ChunkMetadata.WholeMicros (m : ChunkMetadata) : Prop :=
  ∀ t ∈ m.timestamp, ∃ micros : ℤ, -2^63 ≤ micros ∧ micros < 2^63 ∧ t = fromUnixMicros micros

def Payload.WholeMicros : Payload → Prop
  | .chunk c => ∀ m ∈ c.metadata, m.WholeMicros
  | .nodeRef _ => True

/-! ### Fields -/

theorem readField_spells {depth : ℕ} {bytes : Bytes} {value : Json} (h : Spells depth bytes value)
    (hdep : depth < levels) (field : String) (rest : Bytes) :
    readField field (bytes++rest) = .ok (value,rest) := by
  rw [readField,h.read hdep]

theorem levels_pos : 0 < levels := by decide

theorem read_optional {α : Type} {pack : α → Bytes} {decode : Json → StatusOr α} {x : Option α}
    {depth : ℕ} (hdep : depth < levels)
    (h : ∀ a ∈ x, ∃ value, Spells depth (pack a) value ∧ value.isNull = false ∧
      decode value = .ok a) :
    ∃ value, (∀ field rest, readField field (packOptional pack x++rest) = .ok (value,rest)) ∧
      readOptional decode value = .ok x := by
  cases x with
  | none => exact ⟨.null,fun field rest => readField_spells spells_nil levels_pos field rest,rfl⟩
  | some a =>
    obtain ⟨value,hspell,hnull,hdec⟩ := h a rfl
    refine ⟨value,fun field rest => readField_spells hspell hdep field rest,?_⟩
    simp [readOptional,hnull,hdec]

theorem spells_byteMap {m : ByteMap} (h : m.Within) :
    Spells 1 (packByteMap m) (.object (m.entries.map fun e => (e.1,.binary none e.2))) :=
  spells_object h.1 (fun e he => (h.2 e he).1) (m.sorted_map _)
    fun e he => spells_binary (h.2 e he).2

theorem decodeByteEntries_map {field : String} {entries : List (Bytes × Bytes)}
    (h : ∀ e ∈ entries, validateName e.1 = .ok ()) (result : ByteMap) :
    decodeByteEntries field (entries.map fun e => (e.1,.binary none e.2)) result =
      .ok (entries.foldl (fun all e => all.emplace e.1 e.2) result) := by
  induction entries generalizing result with
  | nil => rfl
  | cons e entries ih =>
    rw [map_cons,decodeByteEntries,h e (by simp)]
    exact ih (fun e he => h e (by simp [he])) _

theorem decodeByteMap_entries {m : ByteMap}
    (h : checkAll (fun e => validateName e.1) m.entries = .ok ()) (field : String) :
    decodeByteMap (.object (m.entries.map fun e => (e.1,.binary none e.2))) field = .ok m := by
  rw [decodeByteMap,decodeByteEntries_map (checkAll_eq_ok.mp h)]
  exact congrArg Except.ok (ByteMap.ext (ByteMap.foldl_emplace m.sorted_entries))

/-! ### Chunks -/

theorem toUnixMicros_fromUnixMicros {micros : ℤ} (hlow : -2^63 ≤ micros) (hhigh : micros < 2^63) :
    toUnixMicros (fromUnixMicros micros) = micros := by
  rw [toUnixMicros,fromUnixMicros]
  omega

theorem timestampOf_number {micros : ℤ} (hhigh : micros < 2^63) :
    ChunkMetadata.timestampOf (number micros) = .ok (fromUnixMicros micros) := by
  unfold number
  split_ifs with hnn
  · have hsigned : signed 8 micros.toNat = micros := by
      rw [signed]
      omega
    rw [ChunkMetadata.timestampOf,hsigned]
  · rfl

theorem ChunkMetadata.fromMsgpack_toMsgpackInto {m : ChunkMetadata} (hvalid : m.validate = .ok ())
    (hwithin : m.Within) (hmicros : m.WholeMicros) : fromMsgpack m.toMsgpackInto = .ok m := by
  obtain ⟨_,timestamp,_⟩ := m
  obtain ⟨value,hread,htime⟩ : ∃ value, (∀ field rest,
      readField field (packOptional (fun t => packInt (toUnixMicros t)) timestamp++rest) =
        .ok (value,rest)) ∧ readOptional timestampOf value = .ok timestamp := by
    apply read_optional levels_pos
    intro t ht
    obtain ⟨micros,hlow,hhigh,rfl⟩ := hmicros t ht
    refine ⟨number micros,?_,?_,timestampOf_number hhigh⟩
    · rw [toUnixMicros_fromUnixMicros hlow hhigh]
      exact spells_int hlow hhigh
    · unfold number
      split_ifs <;> rfl
  have hmimetype := readField_spells (spells_string hwithin.mimetype) levels_pos
  have hattributes := readField_spells (spells_byteMap hwithin.attributes) (by decide)
    "ChunkMetadata.attributes" []
  rw [append_nil] at hattributes
  have hdecoded := decodeByteMap_entries hvalid "ChunkMetadata.attributes"
  simp [fromMsgpack,toMsgpackInto,hmimetype,hread,htime,hattributes,hdecoded,jsonString_string,
    ensureFullyConsumed,hvalid]

theorem length_packBinary (value : Bytes) : value.length ≤ (packBinary value).length := by
  simp [packBinary]

theorem Chunk.fromMsgpack_toMsgpackInto {c : Chunk} (hval : c.validate = .ok ())
    (hobj : c.object = none) (hin : c.Within)
    (hmic : ∀ m ∈ c.metadata, m.WholeMicros ∧ m.toMsgpackInto.length < lengthLimit) :
    fromMsgpack c.toMsgpackInto = .ok c := by
  obtain ⟨metadata,_,_,object⟩ := c
  obtain rfl : object = none := hobj
  have hmeta : ∀ m ∈ metadata, m.validate = .ok () := validate_metadata hval
  obtain ⟨value,hread,hdec⟩ : ∃ value, (∀ field rest,
      readField field (packOptional (fun m => packBinary m.toMsgpackInto) metadata++rest) =
        .ok (value,rest)) ∧ readOptional metadataOf value = .ok metadata := by
    apply read_optional levels_pos
    intro m hm
    obtain rfl : metadata = some m := hm
    obtain ⟨hmicros,hrec⟩ := hmic m rfl
    refine ⟨.binary none m.toMsgpackInto,spells_binary hrec,rfl,?_⟩
    exact ChunkMetadata.fromMsgpack_toMsgpackInto (hmeta m rfl) (hin.metadata m rfl) hmicros
  have href := readField_spells (spells_string hin.ref) levels_pos
  have hdata := readBinaryView_append hin.data []
  rw [append_nil] at hdata
  simp [fromMsgpack,toMsgpackInto,hread,hdec,href,hdata,jsonString_string,ensureFullyConsumed,hval]

/-! ### References and fragments -/

variable (packer : JsonPacker)

/-- The bytes of a valid storage identity. -/
def StorageIdentity.packed (s : StorageIdentity) : Bytes :=
  match packer.pack s.jsonValue with
  | .ok bytes => bytes
  | .error _ => []

/-- The record of a reference whose storage identity is valid. -/
def NodeRef.record (r : NodeRef) : Bytes :=
  packString r.id++packUint r.offset.toNat++
    packOptional (fun n : UInt64 => packUint n.toNat) r.length++
    packOptional (StorageIdentity.packed packer) r.storage

variable {packer}

theorem StorageIdentity.pack_eq {s : StorageIdentity} (h : s.validate = .ok ()) :
    packer.pack s.jsonValue = .ok (s.packed packer) := by
  obtain ⟨bytes,hpack⟩ := packer.packs h
  rw [packed,hpack]

theorem NodeRef.toMsgpackInto_eq {r : NodeRef} (h : r.validate = .ok ()) :
    r.toMsgpackInto packer = .ok (r.record packer) := by
  have hstor := (NodeRef.validate_eq_ok h).storage
  unfold toMsgpackInto record
  cases hs : r.storage with
  | none => rfl
  | some s =>
    simp only [packStorage,storageIdentityToJsonValue,hstor s hs,ok_bind,pure_bind,
      StorageIdentity.pack_eq (hstor s hs)]
    rfl

theorem NodeRef.fromMsgpack_record {r : NodeRef} (hvalid : r.validate = .ok ())
    (hwithin : r.Within) : fromMsgpack (r.record packer) = .ok r := by
  have hstorage := (NodeRef.validate_eq_ok hvalid).storage
  obtain ⟨_,offset,length,storage⟩ := r
  obtain ⟨_,hreadLength,hlength⟩ : ∃ value, (∀ field rest,
      readField field (packOptional (fun n : UInt64 => packUint n.toNat) length++rest) =
        .ok (value,rest)) ∧
      readOptional (fun value => jsonUnsigned value "NodeRef.length") value =
        .ok (length.map UInt64.toNat) := by
    have hpack : packOptional (fun n : UInt64 => packUint n.toNat) length =
        packOptional packUint (length.map UInt64.toNat) := by cases length <;> rfl
    rw [hpack]
    apply read_optional levels_pos
    intro n hn
    obtain ⟨m,-,rfl⟩ := Option.mem_map.mp hn
    exact ⟨.unsigned m.toNat,spells_uint m.toNat_lt,rfl,rfl⟩
  obtain ⟨_,hreadStorage,hdecoded⟩ : ∃ value, (∀ field rest,
      readField field (packOptional (StorageIdentity.packed packer) storage++rest) =
        .ok (value,rest)) ∧ readOptional storageIdentityFromJsonValue value = .ok storage := by
    apply read_optional (by decide : 5 < levels)
    intro s hs
    exact ⟨s.jsonValue,packer.spells (StorageIdentity.packable (hwithin.storage s hs))
      (StorageIdentity.pack_eq (hstorage s hs)),s.jsonValue_isNull,
      storageIdentity_jsonValue (hstorage s hs)⟩
  have hid := readField_spells (spells_string hwithin.id) levels_pos
  have hoffset := readField_spells (spells_uint (n := offset.toNat) (by
    have := offset.toNat_lt
    omega)) levels_pos
  have hlast := hreadStorage "NodeRef.storage" []
  rw [append_nil] at hlast
  have hfits : ¬ maxSeq < offset.toNat := by
    have := offset.toNat_lt
    unfold maxSeq
    omega
  have hsame : (length.map UInt64.toNat).map UInt64.ofNat = length := by
    cases length <;> simp
  simp [fromMsgpack,record,hid,hoffset,hreadLength,hlast,hlength,hdecoded,jsonString_string,
    jsonUnsigned_unsigned,ensureFullyConsumed,if_neg hfits,hsame,hvalid]

namespace NodeFragment

/-- The record of a valid payload. -/
def payloadBytes (packer : JsonPacker) : Payload → Bytes
  | .chunk c => c.toMsgpackInto
  | .nodeRef r => r.record packer

def record (packer : JsonPacker) (f : NodeFragment) : Bytes :=
  packString f.id++packUint (unionIndex f.data)++packBinary (payloadBytes packer f.data)++
    packOptional (fun n : UInt32 => packUint n.toNat) f.seq++packBool f.continued

theorem toMsgpackInto_eq {f : NodeFragment} (h : f.validate = .ok ()) :
    f.toMsgpackInto packer = .ok (f.record packer) := by
  have hdata := validate_eq_ok h
  unfold toMsgpackInto record
  cases hpay : f.data with
  | chunk c => rfl
  | nodeRef r =>
    rw [hpay] at hdata
    simp only [payloadRecord,NodeRef.toMsgpackInto_eq hdata]
    rfl

theorem payloadOf_payloadBytes {data : Payload} (hval : data.validate = .ok ())
    (hobj : data.ObjectFree) (hin : data.Within) (hmic : data.WholeMicros)
    (hlen : (payloadBytes packer data).length < lengthLimit) :
    payloadOf (unionIndex data) (payloadBytes packer data) = .ok data := by
  cases data with
  | chunk c =>
    have hmeta : ∀ m ∈ c.metadata, m.WholeMicros ∧ m.toMsgpackInto.length < lengthLimit := by
      refine fun m hm => ⟨hmic m hm,?_⟩
      obtain hm : c.metadata = some m := hm
      have hle := length_packBinary m.toMsgpackInto
      simp only [payloadBytes,Chunk.toMsgpackInto,packOptional,length_append,hm] at hlen
      omega
    simp [payloadOf,unionIndex,payloadBytes,Chunk.fromMsgpack_toMsgpackInto hval hobj hin hmeta]
  | nodeRef r => simp [payloadOf,unionIndex,payloadBytes,NodeRef.fromMsgpack_record hval hin]

theorem fromMsgpack_record {f : NodeFragment} (hvalid : f.validate = .ok ())
    (hobject : f.data.ObjectFree) (hwithin : f.Within) (hmicros : f.data.WholeMicros)
    (hlength : (f.record packer).length < lengthLimit) : fromMsgpack (f.record packer) = .ok f := by
  have hdata := validate_eq_ok hvalid
  obtain ⟨_,data,seq,continued⟩ := f
  have hpayload : (payloadBytes packer data).length < lengthLimit := by
    have hle := length_packBinary (payloadBytes packer data)
    simp only [record,length_append] at hlength
    omega
  obtain ⟨_,hreadSeq,hseq⟩ : ∃ value, (∀ field rest,
      readField field (packOptional (fun n : UInt32 => packUint n.toNat) seq++rest) =
        .ok (value,rest)) ∧ readOptional seqOf value = .ok seq := by
    apply read_optional levels_pos
    intro n hn
    have hlt := n.toNat_lt
    have hfits : ¬ maxSeq < n.toNat := by
      unfold maxSeq
      omega
    refine ⟨.unsigned n.toNat,spells_uint (by omega),rfl,?_⟩
    simp only [seqOf,jsonUnsigned_unsigned,ok_bind,if_neg hfits,UInt32.ofNat_toNat]
  have hid := readField_spells (spells_string hwithin.id) levels_pos
  have hindex : unionIndex data ≤ 1 := by cases data <;> simp [unionIndex]
  have hunion := readField_spells (spells_uint (n := unionIndex data) (by omega)) levels_pos
  have hrecord := readBinaryView_append hpayload
  have hcontinued := readField_spells (spells_bool continued) levels_pos "NodeFragment.continued" []
  rw [append_nil] at hcontinued
  simp [fromMsgpack,record,hid,hunion,hrecord,hreadSeq,hcontinued,hseq,jsonString_string,
    jsonUnsigned_unsigned,if_neg (not_lt.mpr hindex),
    payloadOf_payloadBytes hdata hobject hwithin.data hmicros hpayload,continuedOf,
    ensureFullyConsumed,hvalid]

end NodeFragment

/-! ### Actions and messages -/

theorem Port.fromMsgpack_toMsgpackInto {p : Port} (hvalid : p.validate = .ok ())
    (hwithin : p.Within) : fromMsgpack p.toMsgpackInto = .ok p := by
  obtain ⟨_,_⟩ := p
  have hname := readField_spells (spells_string hwithin.name) levels_pos
  have hid := readField_spells (spells_string hwithin.id) levels_pos "Port.id" []
  rw [append_nil] at hid
  simp [fromMsgpack,toMsgpackInto,hname,hid,jsonString_string,ensureFullyConsumed,hvalid]

namespace ActionMessage

theorem decodePorts_packPorts {ports : List Port} (hval : checkAll Port.validate ports = .ok ())
    (hin : ports.length < lengthLimit ∧ ∀ p ∈ ports, p.Within)
    (hlen : (packPorts ports).length < lengthLimit) (field : String) (rest : Bytes) :
    decodePorts field (packPorts ports++rest) = .ok (ports,rest) := by
  have hrec : ∀ p ∈ ports, p.toMsgpackInto.length < lengthLimit := by
    intro p hp
    have hle := length_packBinary p.toMsgpackInto
    have hall := length_le_flatMap (f := fun port : Port => packBinary port.toMsgpackInto) hp
    simp only [packPorts,length_append] at hlen
    omega
  have hspell : Spells 1 (packPorts ports)
      (.array (ports.map fun p => .binary none p.toMsgpackInto)) :=
    spells_array hin.1 fun p hp => spells_binary (hrec p hp)
  have hdec : decodeAll (portOf field) (ports.map fun p => .binary none p.toMsgpackInto) =
      .ok ports :=
    decodeAll_map fun p hp => Port.fromMsgpack_toMsgpackInto (checkAll_eq_ok.mp hval p hp)
      (hin.2 p hp)
  simp [decodePorts,readField_spells hspell (by decide),hdec]

theorem fromMsgpack_toMsgpackInto {a : ActionMessage} (hvalid : a.validate = .ok ())
    (hwithin : a.Within) (hlength : a.toMsgpackInto.length < lengthLimit) :
    fromMsgpack a.toMsgpackInto = .ok a := by
  have hchecked := validate_eq_ok hvalid
  obtain ⟨_,_,_,_,_⟩ := a
  simp only [toMsgpackInto,length_append] at hlength
  have hid := readField_spells (spells_string hwithin.id) levels_pos
  have hname := readField_spells (spells_string hwithin.name) levels_pos
  have hinputs := decodePorts_packPorts hchecked.inputs hwithin.inputs (by simp only; omega)
  have houtputs := decodePorts_packPorts hchecked.outputs hwithin.outputs (by simp only; omega)
  have hheaders := readField_spells (spells_byteMap hwithin.headers) (by decide)
    "ActionMessage.headers" []
  rw [append_nil] at hheaders
  have hdecoded := decodeByteMap_entries hchecked.headers "ActionMessage.headers"
  simp [fromMsgpack,toMsgpackInto,hid,hname,hinputs,houtputs,hheaders,hdecoded,jsonString_string,
    ensureFullyConsumed,hvalid]

end ActionMessage

section Records

variable {α : Type} {encode : α → StatusOr Bytes} {record : α → Bytes}
  {decodeOne : Bytes → StatusOr α} {xs : List α}

theorem packRecords_eq (h : ∀ x ∈ xs, encode x = .ok (record x)) :
    packRecords encode xs = .ok (xs.flatMap fun x => packBinary (record x)) := by
  induction xs with
  | nil => rfl
  | cons x xs ih =>
    rw [packRecords,h x (by simp),ih fun y hy => h y (by simp [hy])]
    rfl

theorem readRecords_flatMap (hlen : ∀ x ∈ xs, (record x).length < lengthLimit)
    (h : ∀ x ∈ xs, decodeOne (record x) = .ok x) (rest : Bytes) :
    readRecords decodeOne xs.length ((xs.flatMap fun x => packBinary (record x))++rest) =
      .ok (xs,rest) := by
  induction xs with
  | nil => rfl
  | cons x xs ih =>
    rw [length_cons,readRecords,flatMap_cons,append_assoc,readBinaryView_append (hlen x (by simp))]
    simp [h x (by simp),ih (fun y hy => hlen y (by simp [hy])) fun y hy => h y (by simp [hy])]

theorem decodeBinaryList_records (hcnt : xs.length < lengthLimit)
    (hlen : ∀ x ∈ xs, (record x).length < lengthLimit)
    (h : ∀ x ∈ xs, decodeOne (record x) = .ok x) (field : String) (rest : Bytes) :
    decodeBinaryList field decodeOne (packArrayHeader xs.length++
      ((xs.flatMap fun x => packBinary (record x))++rest)) = .ok (xs,rest) := by
  obtain ⟨_,_,hhdr,-,-,-,hread,-⟩ := arrayHeader_marker hcnt
  rw [hhdr,cons_append,decodeBinaryList,hread]
  exact readRecords_flatMap hlen h rest

end Records

namespace WireMessage

def WholeMicros (m : WireMessage) : Prop := ∀ f ∈ m.nodeFragments, f.data.WholeMicros

/-- The record of every fragment and of every action is short enough for a length of
32 bits. -/
def RecordsFit (packer : JsonPacker) (m : WireMessage) : Prop :=
  (∀ f ∈ m.nodeFragments, ∀ record, f.toMsgpackInto packer = .ok record →
    record.length < lengthLimit) ∧ ∀ a ∈ m.actions, a.toMsgpackInto.length < lengthLimit

/-- The encoding of a valid message. -/
def record (packer : JsonPacker) (m : WireMessage) : Bytes :=
  packUint version++packArrayHeader m.nodeFragments.length++
    (m.nodeFragments.flatMap fun f => packBinary (f.record packer))++
    packArrayHeader m.actions.length++
    (m.actions.flatMap fun a => packBinary a.toMsgpackInto)++packByteMap m.headers

theorem toMsgpack_eq {m : WireMessage} (h : m.validate = .ok ()) :
    m.toMsgpack packer = .ok (m.record packer) := by
  have hchk := validate_eq_ok h
  have hfrag : packRecords (NodeFragment.toMsgpackInto packer) m.nodeFragments =
      .ok (m.nodeFragments.flatMap fun f => packBinary (f.record packer)) :=
    packRecords_eq fun f hf => NodeFragment.toMsgpackInto_eq (hchk.fragments f hf)
  have hact : packRecords (fun a : ActionMessage => .ok a.toMsgpackInto) m.actions =
      .ok (m.actions.flatMap fun a => packBinary a.toMsgpackInto) := packRecords_eq fun a _ => rfl
  simp only [toMsgpack,toMsgpackInto,h,hfrag,hact]
  rfl

theorem fromMsgpack_record {m : WireMessage} (hvalid : m.validate = .ok ())
    (hobject : m.ObjectFree) (hmicros : m.WholeMicros) (hwithin : m.Within)
    (hfragmentsFit : ∀ f ∈ m.nodeFragments, (f.record packer).length < lengthLimit)
    (hactionsFit : ∀ a ∈ m.actions, a.toMsgpackInto.length < lengthLimit) :
    fromMsgpack (m.record packer) = .ok m := by
  have hchecked := validate_eq_ok hvalid
  have hversion := readField_spells (spells_uint (n := version) (by decide)) levels_pos
  have hfragments := decodeBinaryList_records hwithin.fragments hfragmentsFit fun f hf =>
    NodeFragment.fromMsgpack_record (hchecked.fragments f hf) (hobject f hf)
      (hwithin.fragment f hf) (hmicros f hf) (hfragmentsFit f hf)
  have hactions := decodeBinaryList_records hwithin.actions hactionsFit fun a ha =>
    ActionMessage.fromMsgpack_toMsgpackInto (hchecked.actions a ha) (hwithin.action a ha)
      (hactionsFit a ha)
  have hheaders := readField_spells (spells_byteMap hwithin.headers) (by decide)
    "WireMessage.headers" []
  rw [append_nil] at hheaders
  have hdecoded := decodeByteMap_entries hchecked.headers "WireMessage.headers"
  simp [fromMsgpack,record,hversion,hfragments,hactions,hheaders,hdecoded,jsonUnsigned_unsigned,
    ensureFullyConsumed,hvalid]

/-- A valid message within the limits of the format is decoded from its own encoding. -/
theorem fromMsgpack_toMsgpack (packer : JsonPacker) (m : WireMessage)
    (hvalid : m.validate = .ok ()) (hobject : m.ObjectFree) (hmicros : m.WholeMicros)
    (hwithin : m.Within) (hrecords : m.RecordsFit packer) :
    ∃ bytes, m.toMsgpack packer = .ok bytes ∧ fromMsgpack bytes = .ok m := by
  have hchk := validate_eq_ok hvalid
  refine ⟨m.record packer,toMsgpack_eq hvalid,fromMsgpack_record hvalid hobject hmicros hwithin ?_
    hrecords.2⟩
  intro f hf
  exact hrecords.1 f hf _ (NodeFragment.toMsgpackInto_eq (hchk.fragments f hf))

/-- One chunk with metadata, one reference into a storage with a service, one action with an
input and one header. -/
def sample : WireMessage where
  nodeFragments := [
    { id := [97], seq := some 0, continued := true,
      data := .chunk { metadata := some ⟨[116],some (fromUnixMicros 1),.empty⟩, data := [1,2] } },
    { id := [98], data := .nodeRef {
        id := [97], offset := 1, storage := some ⟨[115],none,[⟨[114],[101],none⟩]⟩ } }]
  actions := [{ id := [99], name := [100], inputs := [⟨[120],[97]⟩] }]
  headers := ByteMap.empty.emplace [104] [1]

theorem fromMsgpack_toMsgpack_sample :
    ∃ bytes, sample.toMsgpack .shortest = .ok bytes ∧ fromMsgpack bytes = .ok sample := by
  refine fromMsgpack_toMsgpack .shortest sample (by decide) ?_ ?_ ?_ ?_
  · simp [ObjectFree,sample,Payload.ObjectFree]
  · simp only [WholeMicros,sample,forall_mem_cons,not_mem_nil,false_imp_iff,implies_true,
      and_true,Payload.WholeMicros,Option.mem_some_iff,ChunkMetadata.WholeMicros,forall_eq']
    exact ⟨1,by decide,by decide,rfl⟩
  · have hemp : ByteMap.empty.Within := ⟨by decide,by simp [ByteMap.empty]⟩
    refine ⟨by decide,?_,by decide,?_,by decide,by decide⟩
    · simp only [sample,forall_mem_cons,not_mem_nil,false_imp_iff,implies_true,and_true]
      refine ⟨⟨by decide,⟨?_,by decide,by decide⟩⟩,⟨by decide,⟨by decide,?_⟩⟩⟩
      all_goals simp only [Option.mem_some_iff,forall_eq']
      · exact ⟨by decide,hemp⟩
      · exact ⟨by decide,by simp,by decide,by simpa using ⟨by decide,by decide,by simp⟩⟩
    · simp only [sample,forall_mem_singleton]
      exact ⟨by decide,by decide,⟨by decide,by simpa using ⟨by decide,by decide⟩⟩,
        ⟨by decide,by simp⟩,hemp⟩
  · constructor
    · simp only [sample,forall_mem_cons,not_mem_nil,false_imp_iff,implies_true,and_true]
      constructor <;> rintro - ⟨⟩ <;> decide
    · decide

/-- A message of one fragment whose chunk holds a byte `0` and then the given bytes. -/
def ofData (tail : Bytes) : WireMessage :=
  { nodeFragments := [{ data := .chunk { data := 0::tail } }] }

/-- The first fifteen bytes of the fragment: the length of the chunk record wraps around to
six, and those six bytes announce more data than they hold. -/
def overflowed : Bytes :=
  [0xa0,0x00,0xc6,0x00,0x00,0x00,0x06,0xc0,0xa0,0xc6,0xff,0xff,0xff,0xff,0x00]

theorem fragment_record_ofData {tail : Bytes} (hlen : tail.length = 2^32-2) :
    NodeFragment.record packer { data := .chunk { data := 0::tail } } =
      overflowed++(tail++[0xc0,0xc2]) := by
  have hstr : packString [] = [0xa0] := by decide
  have hdata : packBinary (0::tail) = [0xc6,0xff,0xff,0xff,0xff,0x00]++tail := by
    rw [packBinary,length_cons,hlen]
    rfl
  have hck : Chunk.toMsgpackInto { data := 0::tail } =
      [0xc0,0xa0,0xc6,0xff,0xff,0xff,0xff,0x00]++tail := by
    rw [Chunk.toMsgpackInto,hdata,hstr]
    rfl
  have hrec : packBinary (Chunk.toMsgpackInto { data := 0::tail }) =
      [0xc6,0x00,0x00,0x00,0x06,0xc0,0xa0,0xc6,0xff,0xff,0xff,0xff,0x00]++tail := by
    have hsum : ([0xc0,0xa0,0xc6,0xff,0xff,0xff,0xff,0x00]++tail).length = 2^32+6 := by
      rw [length_append,hlen]
      rfl
    rw [packBinary,hck,hsum]
    rfl
  simp only [NodeFragment.record,NodeFragment.payloadBytes,hrec,append_assoc]
  rfl

/-- The length of the fragment record wraps around to fifteen. -/
theorem record_ofData {tail : Bytes} (hlen : tail.length = 2^32-2) : ∃ rest, (ofData tail).record packer =
      0x01::0x91::(0xc6::bigEndian 4 overflowed.length++overflowed++rest) := by
  have hlen : (overflowed++(tail++[0xc0,0xc2])).length = 2^32+15 := by
    simp only [length_append,hlen]
    rfl
  refine ⟨tail++[0xc0,0xc2]++packArrayHeader 0++packByteMap .empty,?_⟩
  simp only [record,ofData,flatMap_cons,flatMap_nil,fragment_record_ofData ‹_›,packBinary,
    hlen,append_nil,length_singleton]
  rw [show packArrayHeader 1 = [0x91] by decide]
  rfl

theorem fromMsgpack_error {record rest : Bytes} {e : Status} (hlength : record.length < 2^32)
    (h : NodeFragment.fromMsgpack record = .error e) :
    fromMsgpack (0x01::0x91::(0xc6::bigEndian 4 record.length++record++rest)) =
      .error e := by
  have hversion : ∀ bytes, readField "WireMessage.version" (0x01::bytes) =
      .ok (.unsigned version,bytes) := fun bytes =>
    readField_spells (spells_uint (n := 1) (by decide)) levels_pos _ bytes
  have hcount : ∀ bytes, readArrayLength (0x91::bytes) = .ok (1,bytes) := fun _ => rfl
  have hview : readBinaryView (0xc6::bigEndian 4 record.length++record++rest) =
      .ok (record,rest) := readBinaryView_sized (w := 4) (fun _ => rfl) (by omega) rest
  simp only [fromMsgpack,hversion,jsonUnsigned_unsigned,ne_eq,not_true_eq_false,if_false,
    decodeBinaryList,hcount,readRecords,hview,h,bind,Except.bind]

/-- Strings and containers shorter than `2 ^ 32` are not enough. -/
theorem not_fromMsgpack_toMsgpack_of_within :
    ¬ ∀ m : WireMessage, m.validate = .ok () → m.ObjectFree → m.WholeMicros → m.Within →
      ∃ bytes, m.toMsgpack .shortest = .ok bytes ∧ fromMsgpack bytes = .ok m := by
  intro h
  obtain ⟨tail,hlen⟩ : ∃ tail : Bytes, tail.length = 2^32-2 :=
    ⟨List.replicate (2^32-2) 0,length_replicate⟩
  have hval : (ofData tail).validate = .ok () := rfl
  have hdata : (0::tail).length < lengthLimit := by
    rw [length_cons,hlen]
    decide
  have hin : (ofData tail).Within := by
    constructor
    case fragment =>
      intro f hf
      obtain rfl := mem_singleton.mp hf
      exact ⟨Nat.two_pow_pos 32,⟨by simp,Nat.two_pow_pos 32,hdata⟩⟩
    all_goals simp [ofData,lengthLimit,ByteMap.Within,ByteMap.empty]
  obtain ⟨bytes,henc,hdec⟩ := h (ofData tail) hval
    (by simp [ObjectFree,ofData,Payload.ObjectFree]) (by simp [WholeMicros,ofData,Payload.WholeMicros])
    hin
  rw [toMsgpack_eq hval] at henc
  cases henc
  obtain ⟨_,hrec⟩ := record_ofData hlen
  obtain ⟨e,herr⟩ : ∃ e, NodeFragment.fromMsgpack overflowed = .error e := ⟨_,rfl⟩
  rw [hrec,fromMsgpack_error (by decide) herr] at hdec
  cases hdec

end WireMessage

end A11
