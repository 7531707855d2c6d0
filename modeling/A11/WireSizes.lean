import A11.WireMsgpackRoundTrip

/-! What the length of an encoded message says about the message, and what arrives of a
message that is encoded and decoded again: everything but an in-process object, with
timestamps in whole microseconds. -/
namespace A11

open Msgpack List

/-! ### Lengths of parts -/

namespace Msgpack

theorem length_packBinary_pos (value : Bytes) : 0 < (packBinary value).length := by
  unfold packBinary binaryHeader
  split_ifs <;> simp

theorem length_packOptional_some {α : Type} (pack : α → Bytes) {x : Option α} {a : α} (h : a ∈ x) :
    (pack a).length = (packOptional pack x).length := by
  obtain rfl : x = some a := h
  rfl

end Msgpack

/-! ### A short record has short parts -/

theorem ByteMap.within_of_length {m : ByteMap} (h : (packByteMap m).length < lengthLimit) :
    m.Within := by
  rw [packByteMap,length_append] at h
  constructor
  · have := count_le_flatMap (fun e => packString e.1++packBinary e.2) m.entries
      fun e _ => by
        have := length_packBinary_pos e.2
        rw [length_append]
        omega
    omega
  · intro e he
    have hent := length_le_flatMap (f := fun e => packString e.1++packBinary e.2) he
    have hkey := length_packString e.1
    have hval := length_packBinary e.2
    rw [length_append] at hent
    omega

theorem ChunkMetadata.within_of_length {m : ChunkMetadata}
    (h : m.toMsgpackInto.length < lengthLimit) : m.Within := by
  have hmime := length_packString m.mimetype
  rw [toMsgpackInto,length_append,length_append] at h
  exact ⟨by omega,ByteMap.within_of_length (by omega)⟩

theorem Chunk.within_of_length {c : Chunk} (h : c.toMsgpackInto.length < lengthLimit) :
    c.Within := by
  have href := length_packString c.ref
  have hdata := length_packBinary c.data
  rw [toMsgpackInto,length_append,length_append] at h
  refine ⟨?_,by omega,by omega⟩
  intro m hm
  have hpack := length_packOptional_some (fun m => packBinary m.toMsgpackInto) hm
  have hrec := length_packBinary m.toMsgpackInto
  exact ChunkMetadata.within_of_length (by omega)

section

variable {packer : JsonPacker}

theorem NodeRef.within_of_length {r : NodeRef} (hvalid : r.validate = .ok ())
    (h : (r.record packer).length < lengthLimit) : r.Within := by
  have hstorage := (NodeRef.validate_eq_ok hvalid).storage
  have hid := length_packString r.id
  simp only [record,length_append] at h
  refine ⟨by omega,?_⟩
  intro s hs
  have := length_packOptional_some (StorageIdentity.packed packer) hs
  exact packer.within (StorageIdentity.pack_eq (hstorage s hs)) (by omega)

theorem NodeFragment.within_of_length {f : NodeFragment} (hvalid : f.validate = .ok ())
    (h : (f.record packer).length < lengthLimit) : f.Within := by
  have hchecked := validate_eq_ok hvalid
  have hid := length_packString f.id
  have hdata := length_packBinary (payloadBytes packer f.data)
  simp only [record,length_append] at h
  refine ⟨by omega,?_⟩
  cases hpay : f.data with
  | chunk c =>
    rw [hpay] at hdata h
    exact Chunk.within_of_length (c := c) (by simp only [payloadBytes] at hdata h; omega)
  | nodeRef r =>
    rw [hpay] at hdata h hchecked
    simp only [payloadBytes] at hdata h
    have hlen : (r.record packer).length < lengthLimit := by omega
    exact NodeRef.within_of_length hchecked hlen

end

theorem Port.within_of_length {p : Port} (h : p.toMsgpackInto.length < lengthLimit) : p.Within := by
  have hname := length_packString p.name
  have hid := length_packString p.id
  rw [toMsgpackInto,length_append] at h
  exact ⟨by omega,by omega⟩

theorem ActionMessage.ports_within {ports : List Port}
    (h : (packPorts ports).length < lengthLimit) :
    ports.length < lengthLimit ∧ ∀ p ∈ ports, p.Within := by
  rw [packPorts,length_append] at h
  constructor
  · have := count_le_flatMap (fun p : Port => packBinary p.toMsgpackInto) ports
      fun p _ => length_packBinary_pos _
    omega
  · intro p hp
    have hrec := length_le_flatMap (f := fun p : Port => packBinary p.toMsgpackInto) hp
    have := length_packBinary p.toMsgpackInto
    exact Port.within_of_length (by omega)

theorem ActionMessage.within_of_length {a : ActionMessage}
    (h : a.toMsgpackInto.length < lengthLimit) : a.Within := by
  have hid := length_packString a.id
  have hname := length_packString a.name
  simp only [toMsgpackInto,length_append] at h
  exact ⟨by omega,by omega,ports_within (by omega),ports_within (by omega),
    ByteMap.within_of_length (by omega)⟩

namespace WireMessage

variable {packer : JsonPacker} {m : WireMessage}

theorem length_fragment_le {f : NodeFragment} (hf : f ∈ m.nodeFragments) :
    (f.record packer).length ≤ (m.record packer).length := by
  have hle := length_le_flatMap (f := fun f : NodeFragment => packBinary (f.record packer)) hf
  have := length_packBinary (f.record packer)
  simp only [record,length_append]
  omega

theorem length_action_le {a : ActionMessage} (ha : a ∈ m.actions) :
    a.toMsgpackInto.length ≤ (m.record packer).length := by
  have hle := length_le_flatMap (f := fun a : ActionMessage => packBinary a.toMsgpackInto) ha
  have := length_packBinary a.toMsgpackInto
  simp only [record,length_append]
  omega

theorem within_of_length (hvalid : m.validate = .ok ())
    (h : (m.record packer).length < lengthLimit) : m.Within := by
  have hchecked := validate_eq_ok hvalid
  have hfrag := count_le_flatMap (fun f : NodeFragment => packBinary (f.record packer))
    m.nodeFragments fun f _ => length_packBinary_pos _
  have hact := count_le_flatMap (fun a : ActionMessage => packBinary a.toMsgpackInto)
    m.actions fun a _ => length_packBinary_pos _
  have hlen := h
  simp only [record,length_append] at hlen
  refine ⟨by omega,?_,by omega,?_,ByteMap.within_of_length (by omega)⟩
  · intro f hf
    exact NodeFragment.within_of_length (hchecked.fragments f hf) ((length_fragment_le hf).trans_lt h)
  · intro a ha
    exact ActionMessage.within_of_length ((length_action_le ha).trans_lt h)

end WireMessage

/-! ### What the encoding carries -/

def ChunkMetadata.carried (m : ChunkMetadata) : ChunkMetadata :=
  { m with timestamp := m.timestamp.map fun t => fromUnixMicros (toUnixMicros t) }

def Chunk.carried (c : Chunk) : Chunk :=
  { c with metadata := c.metadata.map ChunkMetadata.carried, object := none }

def Payload.carried : Payload → Payload
  | .chunk c => .chunk c.carried
  | .nodeRef r => .nodeRef r

def NodeFragment.carried (f : NodeFragment) : NodeFragment := { f with data := f.data.carried }

/-- The message as its encoding carries it: no in-process object, and timestamps in whole
microseconds. -/
def WireMessage.carried (m : WireMessage) : WireMessage :=
  { m with nodeFragments := m.nodeFragments.map NodeFragment.carried }

theorem toUnixMicros_range (time : ℤ) : -2^63 ≤ toUnixMicros time ∧ toUnixMicros time < 2^63 := by
  unfold toUnixMicros
  omega

theorem ChunkMetadata.toMsgpackInto_carried (m : ChunkMetadata) :
    m.carried.toMsgpackInto = m.toMsgpackInto := by
  obtain ⟨-,timestamp,-⟩ := m
  cases timestamp with
  | none => rfl
  | some t =>
    obtain ⟨hlow,hhigh⟩ := toUnixMicros_range t
    simp [toMsgpackInto,carried,packOptional,toUnixMicros_fromUnixMicros hlow hhigh]

theorem Chunk.toMsgpackInto_carried (c : Chunk) : c.carried.toMsgpackInto = c.toMsgpackInto := by
  obtain ⟨metadata,-,-,-⟩ := c
  cases metadata with
  | none => rfl
  | some m => simp [toMsgpackInto,carried,packOptional, ChunkMetadata.toMsgpackInto_carried]

theorem NodeFragment.record_carried (packer : JsonPacker) (f : NodeFragment) :
    f.carried.record packer = f.record packer := by
  obtain ⟨-,data,-,-⟩ := f
  cases data with
  | chunk c =>
    simp [record,carried,Payload.carried,payloadBytes,unionIndex,Chunk.toMsgpackInto_carried]
  | nodeRef r => rfl

theorem NodeFragment.validate_carried {f : NodeFragment} (h : f.validate = .ok ()) :
    f.carried.validate = .ok () := by
  obtain ⟨_,data,_,_⟩ := f
  cases data with
  | nodeRef r => exact h
  | chunk c =>
    have hck : c.validate = .ok () := validate_eq_ok h
    have hcar : c.carried.validate = .ok () := by
      unfold Chunk.validate at hck ⊢
      split_ifs at hck with hboth hobj
      rw [if_neg (by simpa [Chunk.carried] using hboth)]
      obtain ⟨metadata,_,data,_⟩ := c
      cases metadata <;> exact hck
    unfold validate at h ⊢
    simp only [carried,Payload.carried,Payload.validate,hck,hcar] at h ⊢
    exact h

theorem Payload.objectFree_carried (p : Payload) : p.carried.ObjectFree := by
  cases p with
  | chunk c => rfl
  | nodeRef r => trivial

theorem Payload.wholeMicros_carried (p : Payload) : p.carried.WholeMicros := by
  cases p with
  | nodeRef r => trivial
  | chunk c =>
    intro m hm t ht
    obtain ⟨_,-,rfl⟩ := Option.mem_map.mp hm
    obtain ⟨time,-,rfl⟩ := Option.mem_map.mp ht
    obtain ⟨hlow,hhigh⟩ := toUnixMicros_range time
    exact ⟨toUnixMicros time,hlow,hhigh,rfl⟩

namespace WireMessage

theorem record_carried (packer : JsonPacker) (m : WireMessage) :
    m.carried.record packer = m.record packer := by
  have hfrag : (m.nodeFragments.map NodeFragment.carried).flatMap
      (fun f => packBinary (f.record packer)) =
        m.nodeFragments.flatMap fun f => packBinary (f.record packer) := by
    rw [flatMap_map]
    simp [NodeFragment.record_carried]
  simp [record,carried,hfrag]

theorem validate_carried {m : WireMessage} (h : m.validate = .ok ()) :
    m.carried.validate = .ok () := by
  have hchk := validate_eq_ok h
  refine StatusOr.check_bind_eq_ok.mpr ⟨checkAll_eq_ok.mpr ?_,(StatusOr.check_bind_eq_ok.mp h).2⟩
  intro f hf
  obtain ⟨source,hsrc,rfl⟩ := mem_map.mp hf
  exact NodeFragment.validate_carried (hchk.fragments source hsrc)

/-- The bytes are the message, as some packer encodes it. -/
def Encodes (m : WireMessage) (bytes : Bytes) : Prop :=
  ∃ packer : JsonPacker, m.toMsgpack packer = .ok bytes

/-- What arrives of a message whose encoding is shorter than `2 ^ 32`. -/
theorem Encodes.fromMsgpack {m : WireMessage} {bytes : Bytes} (h : m.Encodes bytes)
    (hval : m.validate = .ok ()) (hlen : bytes.length < lengthLimit) :
    fromMsgpack bytes = .ok m.carried := by
  obtain ⟨packer,henc⟩ := h
  obtain rfl := Except.ok.inj ((toMsgpack_eq hval).symm.trans henc)
  rw [← record_carried] at hlen ⊢
  have hcar := validate_carried hval
  apply fromMsgpack_record hcar ?_ ?_ (within_of_length hcar hlen)
  · intro f hf
    exact (length_fragment_le hf).trans_lt hlen
  · intro a ha
    exact (length_action_le ha).trans_lt hlen
  · intro f hf
    obtain ⟨source,-,rfl⟩ := mem_map.mp hf
    exact Payload.objectFree_carried _
  · intro f hf
    obtain ⟨source,-,rfl⟩ := mem_map.mp hf
    exact Payload.wholeMicros_carried _

end WireMessage

end A11
