import A11.Msgpack

/-! What the writer packs, the scanner skips and the decoder reads back. -/
namespace A11.Msgpack
open List UInt8 Msgpack

/-! ### Reading what stands in front -/

variable {n w : ℕ}

theorem readUnsigned_append (h : n < 256^w) (rest : Bytes) :
    readUnsigned w (bigEndian w n++rest) = .ok (n,rest) := by
  rw [readUnsigned]
  simp [ofBigEndian_of_lt h]

theorem readBigEndian_append (h : n < 256^w) (rest : Bytes) :
    readBigEndian w (bigEndian w n++rest) = .ok (n,rest) := by
  rw [readBigEndian]
  simp [ofBigEndian_of_lt h]

theorem readUnsigned_bind {α : Type} (h : n < 256^w) (rest : Bytes) (f : ℕ × Bytes → StatusOr α) :
    readUnsigned w (bigEndian w n++rest) >>= f = f (n,rest) := by
  rw [readUnsigned_append h]
  rfl

theorem readBigEndian_bind {α : Type} (h : n < 256^w) (rest : Bytes)
    (f : ℕ × Bytes → StatusOr α) : readBigEndian w (bigEndian w n++rest) >>= f = f (n,rest) := by
  rw [readBigEndian_append h]
  rfl

theorem skip_append {xs : Bytes} (h : xs.length = n) (rest : Bytes) :
    skip n (xs++rest) = .ok rest := by
  rw [skip]
  simp [← h]

theorem readPayload_append {xs : Bytes} (h : xs.length = n) (rest : Bytes) :
    readPayload n (xs++rest) = .ok (xs,rest) := by
  rw [readPayload]
  simp [← h]

/-! ### Spelled values -/

/-- These bytes are a spelling of the value, which nests so deep. -/
structure Spells (depth : ℕ) (bytes : Bytes) (value : Json) : Prop where
  scan : ∀ fuel rest, depth < fuel → scanValue fuel (bytes++rest) = .ok rest
  decode : ∀ fuel rest, depth < fuel → decode fuel (bytes++rest) = .ok (value,rest)

variable {bytes : Bytes} {depth : ℕ}

theorem Spells.mono {depth' : ℕ} {value : Json}
    (h : Spells depth bytes value) (hle : depth ≤ depth') : Spells depth' bytes value :=
  ⟨fun fuel rest hfuel => h.scan fuel rest (by omega),
    fun fuel rest hfuel => h.decode fuel rest (by omega)⟩

theorem Spells.nested {value : Json}
    (hscan : ∀ fuel rest, depth ≤ fuel → scanValue (fuel+1) (bytes++rest) = .ok rest)
    (hdec : ∀ fuel rest, depth ≤ fuel →
      Msgpack.decode (fuel+1) (bytes++rest) = .ok (value,rest)) : Spells depth bytes value := by
  constructor
  · intro fuel rest hfuel
    obtain ⟨fuel,rfl⟩ : ∃ n, fuel = n+1 := ⟨fuel-1,by omega⟩
    exact hscan fuel rest (by omega)
  · intro fuel rest hfuel
    obtain ⟨fuel,rfl⟩ : ∃ n, fuel = n+1 := ⟨fuel-1,by omega⟩
    exact hdec fuel rest (by omega)

theorem Spells.flat {value : Json}
    (hscan : ∀ fuel rest, scanValue (fuel+1) (bytes++rest) = .ok rest)
    (hdec : ∀ fuel rest, Msgpack.decode (fuel+1) (bytes++rest) = .ok (value,rest)) :
    Spells 0 bytes value :=
  .nested (fun fuel rest _ => hscan fuel rest) fun fuel rest _ => hdec fuel rest

/-- A value that is read is what its spelling says, up to where it ends. -/
theorem Spells.read {value : Json} (h : Spells depth bytes value)
    (hdep : depth < levels) (rest : Bytes) : read (bytes++rest) = .ok (value,rest) := by
  have hdec := h.decode levels [] hdep
  rw [append_nil] at hdec
  rw [Msgpack.read,h.scan levels rest hdep]
  simp [unpackMsgpack,hdec]

theorem spells_nil : Spells 0 packNil .null := .flat (fun _ _ => rfl) fun _ _ => rfl

theorem spells_bool (value : Bool) : Spells 0 (packBool value) (.bool value) := by
  cases value with
  | false | true => exact .flat (fun _ _ => rfl) fun _ _ => rfl

/-! ### Numbers -/

theorem spells_number (marker : UInt8) (value : ℕ → Json)
    (hscan : ∀ fuel bytes, scanValue (fuel+1) (marker::bytes) = skip w bytes)
    (hdec : ∀ fuel bytes, Msgpack.decode (fuel+1) (marker::bytes) = (do
      let (n,bytes) ← readBigEndian w bytes
      return (value n,bytes))) (h : n < 256^w) :
    Spells 0 (marker::bigEndian w n) (value n) := by
  apply Spells.flat
  · intro fuel rest
    rw [cons_append,hscan]
    exact skip_append (bigEndian_length w n) rest
  · intro fuel rest
    rw [cons_append,hdec,readBigEndian_append h]
    rfl

theorem spells_uint (h : n < 2^64) : Spells 0 (packUint n) (.unsigned n) := by
  unfold packUint
  split_ifs with h1 h2 h3 h4
  · interval_cases n <;> exact .flat (fun _ _ => rfl) fun _ _ => rfl
  · exact spells_number 0xcc .unsigned (fun _ _ => rfl) (fun _ _ => rfl) (by omega)
  · exact spells_number 0xcd .unsigned (fun _ _ => rfl) (fun _ _ => rfl) (by omega)
  · exact spells_number 0xce .unsigned (fun _ _ => rfl) (fun _ _ => rfl) (by omega)
  · exact spells_number 0xcf .unsigned (fun _ _ => rfl) (fun _ _ => rfl) (by omega)

theorem wrap_lt (width : ℕ) (value : ℤ) : wrap width value < 256^width := by
  have hpos : (0 : ℤ) < 256^width := by positivity
  have hlt := Int.emod_lt_of_pos value hpos
  have hnn := Int.emod_nonneg value hpos.ne'
  rw [wrap]
  zify
  rwa [Int.toNat_of_nonneg hnn]

theorem signed_wrap {width : ℕ} {value : ℤ} (hneg : value < 0)
    (hle : -((256^width/2 : ℕ) : ℤ) ≤ value) : signed width (wrap width value) = value := by
  generalize hm : 256^width = m at hle
  have hmod : value%(m : ℤ) = value+m := by
    rw [← Int.add_emod_right,Int.emod_eq_of_lt (by omega) (by omega)]
  have hcast : (256 : ℤ)^width = m := by exact_mod_cast hm
  have hwrap : (wrap width value : ℤ) = value+m := by
    rw [wrap,hcast,hmod,Int.toNat_of_nonneg (by omega)]
  have hhigh : ¬ wrap width value < m/2 := by omega
  rw [signed,hm,hwrap,hcast]
  omega

/-- A number as the decoder presents it. -/
def number (value : ℤ) : Json := if 0 ≤ value then .unsigned value.toNat else .integer value

theorem spells_int {value : ℤ} (hlow : -2^63 ≤ value) (hhigh : value < 2^63) :
    Spells 0 (packInt value) (number value) := by
  unfold packInt number
  by_cases hnn : 0 ≤ value
  · rw [if_pos hnn,if_pos hnn]
    exact spells_uint (by omega)
  rw [if_neg hnn]
  have hneg : value < 0 := by omega
  have hnum : ∀ (marker : UInt8) (w : ℕ), -((256^w/2 : ℕ) : ℤ) ≤ value →
      (∀ fuel bytes, scanValue (fuel+1) (marker::bytes) = skip w bytes) →
      (∀ fuel bytes, decode (fuel+1) (marker::bytes) = (do
        let (n,bytes) ← readBigEndian w bytes
        return (.integer (signed w n),bytes))) →
      Spells 0 (marker::bigEndian w (wrap w value)) (.integer value) := by
    intro marker w hle hscan hdec
    have hspell := spells_number marker (fun n => .integer (signed w n)) hscan hdec
      (wrap_lt w value)
    rwa [signed_wrap hneg hle] at hspell
  split_ifs with h1 h2 h3 h4
  · interval_cases value <;> exact .flat (fun _ _ => rfl) fun _ _ => rfl
  · exact hnum 0xd0 1 (by omega) (fun _ _ => rfl) (fun _ _ => rfl)
  · exact hnum 0xd1 2 (by omega) (fun _ _ => rfl) (fun _ _ => rfl)
  · exact hnum 0xd2 4 (by omega) (fun _ _ => rfl) (fun _ _ => rfl)
  · exact hnum 0xd3 8 (by omega) (fun _ _ => rfl) (fun _ _ => rfl)

/-! ### Strings and binary data -/

variable {value : Bytes}

theorem scan_sized (marker : UInt8) (w : ℕ)
    (hscan : ∀ fuel bytes, scanValue (fuel+1) (marker::bytes) = (do
      let (length,rest) ← readUnsigned w bytes
      skip length rest)) (h : value.length < 256^w) (fuel : ℕ) (rest : Bytes) :
    scanValue (fuel+1) (marker::(bigEndian w value.length++value++rest)) = .ok rest := by
  rw [hscan,append_assoc,readUnsigned_append h]
  exact skip_append rfl rest

/-- A packed string begins with a marker that says how to read the rest of it. -/
theorem packString_marker (h : value.length < 2^32) :
    ∃ marker tail, packString value = marker::tail ∧
      (∀ rest, decodeString marker (tail++rest) = .ok (value,rest)) ∧
      (∀ fuel rest, scanValue (fuel+1) (marker::(tail++rest)) = .ok rest) ∧
      ∀ fuel bytes, decode (fuel+1) (marker::bytes) = (do
        let (value,bytes) ← decodeString marker bytes
        return (.string value,bytes)) := by
  have hsized (marker : UInt8) (w : ℕ) (hlt : value.length < 256^w)
      (hdec : ∀ bytes, decodeString marker bytes = (do
        let (length,bytes) ← readBigEndian w bytes
        readPayload length bytes)) (rest : Bytes) :
      decodeString marker (bigEndian w value.length++value++rest) = .ok (value,rest) := by
    rw [hdec,append_assoc,readBigEndian_append hlt]
    exact readPayload_append rfl rest
  unfold packString stringHeader
  split_ifs with h1 h2 h3
  · obtain ⟨size,hsize⟩ : ∃ n, value.length = n := ⟨_,rfl⟩
    rw [hsize] at h1 ⊢
    interval_cases size <;>
      exact ⟨_,value,rfl,readPayload_append hsize,fun _ => skip_append hsize,fun _ _ => rfl⟩
  · exact ⟨0xd9,_,rfl,hsized 0xd9 1 (by omega) fun _ => rfl,
      scan_sized 0xd9 1 (fun _ _ => rfl) (by omega),fun _ _ => rfl⟩
  · exact ⟨0xda,_,rfl,hsized 0xda 2 (by omega) fun _ => rfl,
      scan_sized 0xda 2 (fun _ _ => rfl) (by omega),fun _ _ => rfl⟩
  · exact ⟨0xdb,_,rfl,hsized 0xdb 4 (by omega) fun _ => rfl,
      scan_sized 0xdb 4 (fun _ _ => rfl) (by omega),fun _ _ => rfl⟩

theorem spells_string (h : value.length < 2^32) : Spells 0 (packString value) (.string value) := by
  obtain ⟨_,_,hpack,hstr,hscan,hdec⟩ := packString_marker h
  rw [hpack]
  apply Spells.flat
  · exact hscan
  · intro fuel rest
    rw [cons_append,hdec,hstr]
    rfl

theorem spells_binary (h : value.length < 2^32) :
    Spells 0 (packBinary value) (.binary none value) := by
  have hsized : ∀ (marker : UInt8) (w : ℕ), value.length < 256^w →
      (∀ bytes, readBinaryLength marker bytes = (do
        let (length,bytes) ← readBigEndian w bytes
        return ((length,false),bytes))) →
      (∀ fuel bytes, scanValue (fuel+1) (marker::bytes) = (do
        let (length,rest) ← readUnsigned w bytes
        skip length rest)) →
      (∀ fuel bytes, decode (fuel+1) (marker::bytes) = decodeBinary marker bytes) →
      Spells 0 (marker::bigEndian w value.length++value) (.binary none value) := by
    intro marker w hlt hlen hscan hdec
    apply Spells.flat
    · intro fuel rest
      exact scan_sized marker w hscan hlt fuel rest
    · intro fuel rest
      rw [cons_append,cons_append,append_assoc,hdec,decodeBinary,hlen,readBigEndian_append hlt]
      simp [readPayload_append rfl rest]
  unfold packBinary binaryHeader
  split_ifs with h1 h2
  · exact hsized 0xc4 1 (by omega) (fun _ => rfl) (fun _ _ => rfl) fun _ _ => rfl
  · exact hsized 0xc5 2 (by omega) (fun _ => rfl) (fun _ _ => rfl) fun _ _ => rfl
  · exact hsized 0xc6 4 (by omega) (fun _ => rfl) (fun _ _ => rfl) fun _ _ => rfl

theorem readBinaryView_sized {marker : UInt8}
    (hview : ∀ bytes, readBinaryView (marker::bytes) = (do
      let (length,rest) ← readUnsigned w bytes
      if rest.length < length then .error truncated
      else .ok (rest.take length,rest.drop length)))
    (hlt : value.length < 256^w) (rest : Bytes) :
    readBinaryView (marker::bigEndian w value.length++value++rest) = .ok (value,rest) := by
  rw [cons_append,cons_append,append_assoc,hview,readUnsigned_append hlt]
  simp

theorem readBinaryView_append (h : value.length < 2^32) (rest : Bytes) :
    readBinaryView (packBinary value++rest) = .ok (value,rest) := by
  unfold packBinary binaryHeader
  split_ifs with h1 h2
  · exact readBinaryView_sized (w := 1) (fun _ => rfl) (by omega) rest
  · exact readBinaryView_sized (w := 2) (fun _ => rfl) (by omega) rest
  · exact readBinaryView_sized (w := 4) (fun _ => rfl) (by omega) rest

/-! ### Arrays and maps -/

section Containers

variable {α : Type} {enc : α → Bytes} {val : α → Json} {xs : List α}

theorem skipMany_flatMap {item : Bytes → StatusOr Bytes}
    (h : ∀ x ∈ xs, ∀ rest, item (enc x++rest) = .ok rest) (rest : Bytes) :
    skipMany item xs.length (xs.flatMap enc++rest) = .ok rest := by
  induction xs with
  | nil => rfl
  | cons x xs ih =>
    rw [length_cons,skipMany,flatMap_cons,append_assoc,h x (by simp)]
    exact ih fun y hy => h y (by simp [hy])

theorem decodeItems_flatMap {item : Bytes → StatusOr (Json × Bytes)}
    (h : ∀ x ∈ xs, ∀ rest, item (enc x++rest) = .ok (val x,rest)) (rest : Bytes) :
    decodeItems item xs.length (xs.flatMap enc++rest) = .ok (xs.map val,rest) := by
  induction xs with
  | nil => rfl
  | cons x xs ih =>
    rw [length_cons,decodeItems,flatMap_cons,append_assoc,h x (by simp)]
    simp [ih fun y hy => h y (by simp [hy])]

/-- The header of an array of so many values. -/
theorem arrayHeader_marker (h : n < 2^32) :
    ∃ marker tail, packArrayHeader n = marker::tail ∧ isSized marker = false ∧
      (isArray marker || isMap marker) = true ∧
      (∀ rest, itemCount marker (tail++rest) = .ok (n,rest)) ∧
      (∀ rest, readArrayLength (marker::(tail++rest)) = .ok (n,rest)) ∧
      ∀ fuel rest, decode (fuel+1) (marker::(tail++rest)) =
        decodeArray (decode fuel) n rest := by
  unfold packArrayHeader
  split_ifs with h1 h2
  · interval_cases n <;> exact ⟨_,[],rfl,rfl,rfl,fun _ => rfl,fun _ => rfl,fun _ _ => rfl⟩
  · exact ⟨0xdc,_,rfl,rfl,rfl,fun rest => readUnsigned_bind (w := 2) (by omega) rest _,
      readUnsigned_append (w := 2) (by omega),
      fun _ rest => readBigEndian_bind (w := 2) (by omega) rest _⟩
  · exact ⟨0xdd,_,rfl,rfl,rfl,fun rest => readUnsigned_bind (w := 4) (by omega) rest _,
      readUnsigned_append (w := 4) (by omega),
      fun _ rest => readBigEndian_bind (w := 4) (by omega) rest _⟩

/-- The header of a map of so many entries. -/
theorem mapHeader_marker (h : n < 2^32) :
    ∃ marker tail, packMapHeader n = marker::tail ∧ isSized marker = false ∧
      (isArray marker || isMap marker) = true ∧
      (∀ rest, itemCount marker (tail++rest) = .ok (2*n,rest)) ∧
      ∀ fuel rest, decode (fuel+1) (marker::(tail++rest)) =
        decodeObject (decode fuel) n rest := by
  unfold packMapHeader
  split_ifs with h1 h2
  · interval_cases n <;> exact ⟨_,[],rfl,rfl,rfl,fun _ => rfl,fun _ _ => rfl⟩
  · exact ⟨0xde,_,rfl,rfl,rfl,fun rest => readUnsigned_bind (w := 2) (by omega) rest _,
      fun _ rest => readBigEndian_bind (w := 2) (by omega) rest _⟩
  · exact ⟨0xdf,_,rfl,rfl,rfl,fun rest => readUnsigned_bind (w := 4) (by omega) rest _,
      fun _ rest => readBigEndian_bind (w := 4) (by omega) rest _⟩

theorem scanValue_container {marker : UInt8} {rest : Bytes} {count fuel : ℕ}
    (hsized : isSized marker = false) (hmany : (isArray marker || isMap marker) = true)
    (hcnt : itemCount marker bytes = .ok (count,rest)) :
    scanValue (fuel+1) (marker::bytes) = skipMany (scanValue fuel) count rest := by
  rw [scanValue,scanMarker]
  simp only [hsized,hmany,Bool.false_eq_true,if_false,if_true,hcnt,ok_bind]

theorem spells_array (hlen : xs.length < 2^32) (h : ∀ x ∈ xs, Spells depth (enc x) (val x)) :
    Spells (depth+1) (packArrayHeader xs.length++xs.flatMap enc) (.array (xs.map val)) := by
  obtain ⟨_,_,hhdr,hsized,hmany,hcnt,-,hdec⟩ := arrayHeader_marker hlen
  rw [hhdr]
  apply Spells.nested
  · intro fuel rest hfuel
    rw [append_assoc,cons_append,scanValue_container hsized hmany (hcnt _)]
    exact skipMany_flatMap (fun x hx rest => (h x hx).scan fuel rest (by omega)) rest
  · intro fuel rest hfuel
    rw [append_assoc,cons_append,hdec,decodeArray,
      decodeItems_flatMap fun x hx rest => (h x hx).decode fuel rest (by omega)]
    rfl

variable {key : α → Bytes}

theorem skipMany_entries {item : Bytes → StatusOr Bytes}
    (hkey : ∀ x ∈ xs, ∀ rest, item (packString (key x)++rest) = .ok rest)
    (h : ∀ x ∈ xs, ∀ rest, item (enc x++rest) = .ok rest) (rest : Bytes) :
    skipMany item (2*xs.length) (xs.flatMap (fun x => packString (key x)++enc x)++rest) =
      .ok rest := by
  have hall := @skipMany_flatMap Bytes id (xs.flatMap fun x => [packString (key x),enc x]) item
    (fun b hb rest => ?_) rest
  · simpa [flatMap_assoc,Nat.mul_comm 2] using hall
  · obtain ⟨x,hx,hb⟩ := mem_flatMap.mp hb
    rcases mem_pair.mp hb with rfl | rfl
    · exact hkey x hx rest
    · exact h x hx rest

theorem decodeEntries_flatMap {item : Bytes → StatusOr (Json × Bytes)}
    (hkey : ∀ x ∈ xs, (key x).length < 2^32)
    (h : ∀ x ∈ xs, ∀ rest, item (enc x++rest) = .ok (val x,rest))
    (before : List (Bytes × Json)) (rest : Bytes) :
    decodeEntries item xs.length before
        (xs.flatMap (fun x => packString (key x)++enc x)++rest) =
      .ok ((xs.map fun x => (key x,val x)).foldl (fun all e => Entries.put e.1 e.2 all) before,
        rest) := by
  induction xs generalizing before with
  | nil => rfl
  | cons x xs ih =>
    obtain ⟨_,_,hpack,hstr,-,-⟩ := packString_marker (hkey x (by simp))
    rw [length_cons,flatMap_cons,append_assoc,append_assoc,hpack,cons_append,decodeEntries,hstr]
    simp only [ok_bind,h x (by simp)]
    exact ih (fun y hy => hkey y (by simp [hy])) (fun y hy => h y (by simp [hy])) _

theorem spells_object (hlen : xs.length < 2^32) (hkey : ∀ x ∈ xs, (key x).length < 2^32)
    (hsorted : Entries.Sorted (xs.map fun x => (key x,val x)))
    (h : ∀ x ∈ xs, Spells depth (enc x) (val x)) :
    Spells (depth+1)
      (packMapHeader xs.length++xs.flatMap fun x => packString (key x)++enc x)
      (.object (xs.map fun x => (key x,val x))) := by
  obtain ⟨_,_,hhdr,hsized,hmany,hcnt,hdec⟩ := mapHeader_marker hlen
  rw [hhdr]
  apply Spells.nested
  · intro fuel rest hfuel
    rw [append_assoc,cons_append,scanValue_container hsized hmany (hcnt _)]
    refine skipMany_entries (fun x hx rest => ?_) (fun x hx rest => ?_) rest
    · exact (spells_string (hkey x hx)).scan fuel rest (by omega)
    · exact (h x hx).scan fuel rest (by omega)
  · intro fuel rest hfuel
    rw [append_assoc,cons_append,hdec,decodeObject,decodeEntries_flatMap hkey
      fun x hx rest => (h x hx).decode fuel rest (by omega)]
    rw [Entries.foldl_put_sorted (by simpa using hsorted)]
    rfl

end Containers

/-! ### JSON values -/

/-- A value within the limits of the format, which nests at most so deep. -/
inductive Packable : ℕ → Json → Prop
  | null (depth : ℕ) : Packable depth .null
  | bool (depth : ℕ) (value : Bool) : Packable depth (.bool value)
  | unsigned (depth : ℕ) {value : ℕ} (h : value < 2^64) : Packable depth (.unsigned value)
  | string (depth : ℕ) {value : Bytes} (h : value.length < 2^32) : Packable depth (.string value)
  | binary (depth : ℕ) {value : Bytes} (h : value.length < 2^32) :
      Packable depth (.binary none value)
  | array {depth : ℕ} {items : List Json} (hlength : items.length < 2^32)
      (h : ∀ item ∈ items, Packable depth item) : Packable (depth+1) (.array items)
  | object {depth : ℕ} {entries : List (Bytes × Json)} (hlength : entries.length < 2^32)
      (hkeys : ∀ e ∈ entries, e.1.length < 2^32) (hsorted : Entries.Sorted entries)
      (h : ∀ e ∈ entries, Packable depth e.2) : Packable (depth+1) (.object entries)

theorem packItems_eq (items : List Json) : packItems items = items.flatMap packJson := by
  induction items with
  | nil => rfl
  | cons item items ih => rw [packItems,ih,flatMap_cons]

theorem packEntries_eq (entries : List (Bytes × Json)) :
    packEntries entries = entries.flatMap fun e => packString e.1++packJson e.2 := by
  induction entries with
  | nil => rfl
  | cons e entries ih =>
    rw [packEntries,ih,flatMap_cons]

theorem spells_packJson {value : Json} (h : Packable depth value) :
    Spells depth (packJson value) value := by
  induction h with
  | null depth => exact spells_nil.mono (Nat.zero_le _)
  | bool depth value => exact (spells_bool value).mono (Nat.zero_le _)
  | unsigned depth h => exact (spells_uint h).mono (Nat.zero_le _)
  | string depth h => exact (spells_string h).mono (Nat.zero_le _)
  | binary depth h => exact (spells_binary h).mono (Nat.zero_le _)
  | array hlen h ih =>
    have hspell := spells_array hlen ih
    rwa [map_id',← packItems_eq] at hspell
  | object hlen hkeys hsorted h ih =>
    have hspell := spells_object hlen hkeys (by simpa using hsorted) ih
    rwa [map_id'',← packEntries_eq] at hspell
    simp

end A11.Msgpack
