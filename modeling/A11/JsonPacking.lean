import A11.MsgpackValues
import A11.StorageJson

/-! Storage identities as MessagePack. The JSON library packs them, and may do so in any way
that the decoder reads back. -/
namespace A11

open Msgpack List

/-! ### Sizes -/

/-- What a length in the format can say. -/
def lengthLimit : ℕ := 2^32

def ByteMap.Within (m : ByteMap) : Prop :=
  m.entries.length < lengthLimit ∧
    ∀ e ∈ m.entries, e.1.length < lengthLimit ∧ e.2.length < lengthLimit

structure StorageCredentials.Within (c : StorageCredentials) : Prop where
  scheme : c.scheme.length < lengthLimit
  fields : c.fields.Within

structure StorageService.Within (s : StorageService) : Prop where
  role : s.role.length < lengthLimit
  endpoint : s.endpoint.length < lengthLimit
  credentials : ∀ c ∈ s.credentials, c.Within

structure StorageIdentity.Within (s : StorageIdentity) : Prop where
  id : s.id.length < lengthLimit
  credentials : ∀ c ∈ s.credentials, c.Within
  services : s.services.length < lengthLimit
  service : ∀ service ∈ s.services, service.Within

/-! ### Values that can be packed -/

/-- An object of at most so many fields that can be packed. -/
structure PackableObject (depth n : ℕ) (value : Json) : Prop where
  packable : Packable (depth+1) value
  fields : ∃ entries, value = .object entries ∧ entries.length ≤ n

theorem packableObject_empty (depth : ℕ) : PackableObject depth 0 (.object []) :=
  ⟨.object (by decide) (by simp) Pairwise.nil (by simp),[],rfl,le_refl 0⟩

theorem PackableObject.set {depth n : ℕ} {value field : Json} (h : PackableObject depth n value)
    (name : String) (hname : (Json.key name).length < 16) (hn : n < 16)
    (hfield : Packable depth field) : PackableObject depth (n+1) (value.set name field) := by
  obtain ⟨hpack,entries,rfl,_⟩ := h
  have hput := Entries.length_put_le (Json.key name) field entries
  cases hpack with
  | object _ hkeys hsorted hfld =>
    refine ⟨.object (by omega) ?_ (Entries.sorted_put hsorted _ _) ?_,_,rfl,by omega⟩
    · intro e he
      rcases Entries.mem_put he with rfl | he
      · exact hname.trans (by decide)
      · exact hkeys e he
    · intro e he
      rcases Entries.mem_put he with rfl | he
      · exact hfield
      · exact hfld e he

theorem PackableObject.setOptional {depth n : ℕ} {value : Json} {field : Option Json}
    (h : PackableObject depth n value) (name : String) (hname : (Json.key name).length < 16)
    (hn : n < 16) (hfield : ∀ f ∈ field, Packable depth f) :
    PackableObject depth (n+1) (value.setOptional name field) := by
  cases field with
  | none =>
    obtain ⟨hpack,entries,hval,_⟩ := h
    exact ⟨hpack,entries,hval,by omega⟩
  | some f => exact h.set name hname hn (hfield f rfl)

theorem StorageCredentials.packable {c : StorageCredentials} (h : c.Within) (depth : ℕ) :
    Packable (depth+2) c.jsonValue := by
  have hfields : Packable (depth+1)
      (.ofEntries (c.fields.entries.map fun e => (e.1,.string e.2))) := by
    rw [Json.ofEntries_sorted (c.fields.sorted_map _)]
    refine .object ?_ ?_ (c.fields.sorted_map _) ?_
    · rw [length_map]
      exact h.fields.1
    · simp only [forall_mem_map]
      exact fun e he => (h.fields.2 e he).1
    · simp only [forall_mem_map]
      exact fun e he => .string depth (h.fields.2 e he).2
  have hscheme := (packableObject_empty (depth+1)).set "scheme" (by decide) (by omega)
    (.string (depth+1) h.scheme)
  exact (hscheme.set "fields" (by decide) (by omega) hfields).packable

theorem StorageService.packable {s : StorageService} (h : s.Within) : Packable 3 s.jsonValue := by
  have hrole := (packableObject_empty 2).set "role" (by decide) (by omega)
    (.string 2 h.role)
  have hendpoint := hrole.set "endpoint" (by decide) (by omega) (.string 2 h.endpoint)
  refine (hendpoint.setOptional "credentials" (by decide) (by omega) ?_).packable
  intro f hf
  obtain ⟨c,hc,rfl⟩ := Option.mem_map.mp hf
  exact StorageCredentials.packable (h.credentials c hc) 0

theorem StorageIdentity.packable {s : StorageIdentity} (h : s.Within) : Packable 5 s.jsonValue := by
  have hid := (packableObject_empty 4).set "id" (by decide) (by omega) (.string 4 h.id)
  have hoptional : ∀ f ∈ s.credentials.map StorageCredentials.jsonValue, Packable 4 f := by
    intro f hf
    obtain ⟨c,hc,rfl⟩ := Option.mem_map.mp hf
    exact StorageCredentials.packable (h.credentials c hc) 2
  have hcredentials := hid.setOptional "credentials" (by decide) (by omega) hoptional
  refine (hcredentials.setOptional "services" (by decide) (by omega) ?_).packable
  intro f hf
  split_ifs at hf
  · simp at hf
  · obtain rfl : Json.array (s.services.map StorageService.jsonValue) = f := by simpa using hf
    refine .array ?_ ?_
    · rw [length_map]
      exact h.services
    · simp only [forall_mem_map]
      exact fun service hservice => StorageService.packable (h.service service hservice)

/-! ### A short packing has short parts -/

namespace Msgpack

theorem length_le_flatMap {α β : Type} {xs : List α} {f : α → List β} {x : α} (hx : x ∈ xs) :
    (f x).length ≤ (xs.flatMap f).length := by
  obtain ⟨-,-,rfl⟩ := append_of_mem hx
  simp only [flatMap_append,flatMap_cons,length_append]
  omega

theorem length_packString (value : Bytes) : value.length ≤ (packString value).length := by
  simp [packString]

theorem count_le_flatMap {α : Type} (f : α → Bytes) (xs : List α) (h : ∀ x ∈ xs, 0 < (f x).length) :
    xs.length ≤ (xs.flatMap f).length := by
  induction xs with
  | nil => simp
  | cons y ys ih =>
    have hy := h y (by simp)
    have hys := ih fun x hx => h x (by simp [hx])
    rw [flatMap_cons,length_append,length_cons]
    omega

theorem length_stringHeader_pos (size : ℕ) : 0 < (stringHeader size).length := by
  unfold stringHeader
  split_ifs <;> simp

theorem length_packJson_of_mem {entries : List (Bytes × Json)} {e : Bytes × Json}
    (h : e ∈ entries) : e.1.length+(packJson e.2).length ≤ (packJson (.object entries)).length := by
  have hent := length_le_flatMap (f := fun e => packString e.1++packJson e.2) h
  have hkey := length_packString e.1
  rw [packJson,packEntries_eq,length_append]
  rw [length_append] at hent
  omega

theorem length_packJson_field {value field : Json} {name : String}
    (h : value.getOptional name = some field) :
    (packJson field).length ≤ (packJson value).length := by
  cases value with
  | object entries =>
    have hmem : ∃ key, (key,field) ∈ entries := by
      change Entries.find (Json.key name) entries = some field at h
      induction entries with
      | nil => simp [Entries.find] at h
      | cons e entries ih =>
        rw [Entries.find] at h
        split_ifs at h with hkey
        · cases h
          exact ⟨e.1,by simp⟩
        · obtain ⟨key,hmem⟩ := ih h
          exact ⟨key,mem_cons_of_mem _ hmem⟩
    obtain ⟨key,hmem⟩ := hmem
    exact le_of_add_le_right (length_packJson_of_mem hmem)
  | _ => simp [Json.getOptional] at h

theorem length_packJson_item {items : List Json} {item : Json} (h : item ∈ items) :
    (packJson item).length ≤ (packJson (.array items)).length := by
  have := length_le_flatMap (f := packJson) h
  rw [packJson,packItems_eq,length_append]
  omega

end Msgpack

theorem StorageCredentials.within_of_length {c : StorageCredentials}
    (h : (packJson c.jsonValue).length < lengthLimit) : c.Within := by
  have hscheme := length_packJson_field c.jsonValue_scheme
  have hfld := length_packJson_field c.jsonValue_fields
  rw [packJson] at hscheme
  have hlen := length_packString c.scheme
  refine ⟨by omega,?_,?_⟩
  · rw [packJson,packEntries_eq,length_append] at hfld
    have := count_le_flatMap (fun e => packString e.1++packJson e.2)
      (c.fields.entries.map fun e => (e.1,Json.string e.2)) fun e _ => by
        have := length_stringHeader_pos e.1.length
        rw [length_append,packString,length_append]
        omega
    rw [length_map] at this
    omega
  · intro e he
    have hent := length_packJson_of_mem
      (mem_map_of_mem (f := fun e : Bytes × Bytes => (e.1,Json.string e.2)) he)
    simp only [packJson] at hent hfld
    have hval := length_packString e.2
    omega

theorem StorageService.within_of_length {s : StorageService}
    (h : (packJson s.jsonValue).length < lengthLimit) : s.Within := by
  have hrole := length_packJson_field s.jsonValue_role
  have hend := length_packJson_field s.jsonValue_endpoint
  rw [packJson] at hrole hend
  have hroleLength := length_packString s.role
  have hendpointLength := length_packString s.endpoint
  refine ⟨by omega,by omega,?_⟩
  intro c hc
  have hcred := s.jsonValue_credentials
  rw [show s.credentials = some c from hc] at hcred
  have := length_packJson_field hcred
  exact StorageCredentials.within_of_length (by omega)

theorem StorageIdentity.within_of_length {s : StorageIdentity}
    (h : (packJson s.jsonValue).length < lengthLimit) : s.Within := by
  have hid := length_packJson_field s.jsonValue_id
  rw [packJson] at hid
  have hidLength := length_packString s.id
  have hservices : ∀ service ∈ s.services,
      (packJson (.array (s.services.map StorageService.jsonValue))).length ≤
        (packJson s.jsonValue).length := by
    intro service hsrv
    have hfield := s.jsonValue_services
    rw [if_neg (ne_nil_of_mem hsrv)] at hfield
    exact length_packJson_field hfield
  refine ⟨by omega,?_,?_,?_⟩
  · intro c hc
    have hcred := s.jsonValue_credentials
    rw [show s.credentials = some c from hc] at hcred
    have := length_packJson_field hcred
    exact StorageCredentials.within_of_length (by omega)
  · cases hs : s.services with
    | nil => decide
    | cons service services =>
      have hle := hservices service (by simp [hs])
      have hcnt := count_le_flatMap packJson
        (s.services.map StorageService.jsonValue) fun value hval => by
          obtain ⟨service,-,rfl⟩ := mem_map.mp hval
          have hrole := length_packJson_field service.jsonValue_role
          have := length_stringHeader_pos service.role.length
          rw [packJson,packString,length_append] at hrole
          omega
      rw [length_map] at hcnt
      rw [packJson,packItems_eq,length_append] at hle
      rw [← hs]
      omega
  · intro service hsrv
    have hle := hservices service hsrv
    have hitem := length_packJson_item (mem_map_of_mem (f := StorageService.jsonValue) hsrv)
    exact StorageService.within_of_length (by omega)

/-! ### The packer -/

/-- How the JSON library packs a value. The packing of a value that the format can hold spells
the value; a valid storage identity is packed, in no fewer bytes than each of its parts has. -/
structure JsonPacker where
  pack : Json → StatusOr Bytes
  packs : ∀ {s : StorageIdentity}, s.validate = .ok () → ∃ bytes, pack s.jsonValue = .ok bytes
  spells : ∀ {depth value bytes}, Packable depth value → pack value = .ok bytes →
    Spells depth bytes value
  within : ∀ {s : StorageIdentity} {bytes}, pack s.jsonValue = .ok bytes →
    bytes.length < lengthLimit → s.Within

/-- Every value in its shortest form. -/
def JsonPacker.shortest : JsonPacker where
  pack value := .ok (packJson value)
  packs _ := ⟨_,rfl⟩
  spells hpackable hpack := by
    cases hpack
    exact spells_packJson hpackable
  within hpack hlength := by
    cases hpack
    exact StorageIdentity.within_of_length hlength

end A11
