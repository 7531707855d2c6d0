import A11.ByteChunking
import A11.Runs

/-! Reassembly returns what was split.
What the reassembler holds is a function of the set of packets it has been fed, so
one packet is one step of that set, and any order of the packets ends in the same
place. -/
namespace A11.ByteChunking
open List

open BytePacketType (byte metadataSize ofByte)

theorem addSize_eq {a b : ℕ} (h : a+b < sizeRange) : addSize a b = a+b := Nat.mod_eq_of_lt h

/-! ### Opening a packet -/

variable {id : UInt64} {size fuel k : ℕ} {p : Bytes} {before after : List Bytes}
  {r : ByteReassembler}

@[simp] theorem ofLittleEndian_id (id : UInt64) :
    ofLittleEndian (littleEndian 8 id.toNat) = id.toNat := ofLittleEndian_of_lt id.toNat_lt

variable (payload : Bytes)

theorem parse_serializeComplete (id : UInt64) :
    parseOwnedBytePacket (serializeComplete payload id) = .ok ⟨.completeBytes,payload,id,0,0⟩ := by
  simp [parseOwnedBytePacket,parseBytePacketMetadata,serializeComplete,readLittleEndian,byte,
    kCompleteMetadataSize,ofByte,metadataSize]

theorem parse_serializeChunk_none (id : UInt64) (hk : k < 256^4) :
    parseOwnedBytePacket (serializeChunk payload id k none) = .ok ⟨.byteChunk,payload,id,k,0⟩ := by
  have hlong : ¬ payload.length+13 < 9 := by omega
  simp [parseOwnedBytePacket,parseBytePacketMetadata,serializeChunk,readLittleEndian,byte,hlong,
    ofLittleEndian_of_lt hk,kCompleteMetadataSize,kChunkMetadataSize,ofByte,metadataSize]

theorem parse_serializeChunk_some (id : UInt64) {count : ℕ} (hpos : 0 < count)
    (hcnt : count < 256^4) : parseOwnedBytePacket (serializeChunk payload id 0 (some count)) =
      .ok ⟨.lengthSuffixedByteChunk,payload,id,0,count⟩ := by
  have hlong : ¬ payload.length+17 < 9 := by omega
  have hzero : ofLittleEndian (littleEndian 4 0) = 0 := by decide
  have hskip (rest : Bytes) :
      (littleEndian 4 count++(littleEndian 4 0++rest)).drop 8 = rest := by
    rw [← append_assoc,drop_left' (by simp)]
  simp [parseOwnedBytePacket,parseBytePacketMetadata,serializeChunk,readLittleEndian,byte,hlong,
    ofLittleEndian_of_lt hcnt,hzero,hskip,hpos.ne',kCompleteMetadataSize,kFirstChunkMetadataSize,
    ofByte,metadataSize]

/-! ### The pieces of a message -/

/-- What the splitting loop takes from the bytes behind the first chunk. -/
def cut (size : ℕ) : ℕ → Bytes → List Bytes
  | 0, _ => []
  | fuel+1, rest => if rest = [] then [] else rest.take size::cut size fuel (rest.drop size)

theorem cut_flatten (hsize : 0 < size) {rest : Bytes}
    (hfuel : rest.length ≤ fuel) : (cut size fuel rest).flatten = rest := by
  induction fuel generalizing rest with
  | zero => simp [length_eq_zero_iff.mp (Nat.le_zero.mp hfuel),cut]
  | succ fuel ih =>
    rw [cut]
    split_ifs with h
    · simp [h]
    · rw [flatten_cons,ih (by rw [length_drop]; omega),take_append_drop]

theorem cut_piece (hsize : 0 < size) {rest piece : Bytes}
    (h : piece ∈ cut size fuel rest) : piece ≠ [] ∧ piece.length ≤ size := by
  induction fuel generalizing rest with
  | zero => simp [cut] at h
  | succ fuel ih =>
    rw [cut] at h
    split_ifs at h with hrest
    · simp at h
    rcases mem_cons.mp h with rfl | h
    · refine ⟨?_,length_take_le _ _⟩
      simp [hrest]
      omega
    · exact ih h

theorem cut_length (hsize : 0 < size) {rest : Bytes}
    (hfuel : rest.length ≤ fuel) : (cut size fuel rest).length = (rest.length+(size-1))/size := by
  induction fuel generalizing rest with
  | zero =>
    have hnil : rest.length = 0 := Nat.le_zero.mp hfuel
    simp [cut,hnil,Nat.div_eq_of_lt (by omega : size-1 < size)]
  | succ fuel ih =>
    rw [cut]
    split_ifs with h
    · simp [h,Nat.div_eq_of_lt (by omega : size-1 < size)]
    have hpos : 0 < rest.length := length_pos_iff.mpr h
    rw [length_cons,ih (by rw [length_drop]; omega),length_drop]
    by_cases hle : rest.length ≤ size
    · rw [Nat.sub_eq_zero_of_le hle,Nat.zero_add,Nat.div_eq_of_lt (by omega : size-1 < size)]
      exact ((Nat.div_eq_iff hsize).mpr (by omega)).symm
    · have hspl : rest.length+(size-1) = (rest.length-size+(size-1))+size := by omega
      rw [hspl,Nat.add_div_right _ hsize]

/-- The packet that carries piece `k`. -/
def chunkAt (id : UInt64) (pieces : List Bytes) (k : ℕ) : Bytes :=
  serializeChunk (pieces.getD k []) id k (if k = 0 then some pieces.length else none)

def numbered (id : UInt64) (pieces : List Bytes) : List Bytes :=
  (List.range pieces.length).map (chunkAt id pieces)

theorem parse_chunkAt {pieces : List Bytes} (hk : k < pieces.length)
    (hlength : pieces.length < 256^4) : parseOwnedBytePacket (chunkAt id pieces k) =
      .ok ⟨if k = 0 then .lengthSuffixedByteChunk else .byteChunk,pieces.getD k [],id,k,
        if k = 0 then pieces.length else 0⟩ := by
  by_cases h : k = 0
  · subst h
    exact parse_serializeChunk_some _ _ hk hlength
  · rw [chunkAt,if_neg h,parse_serializeChunk_none _ _ (hk.trans hlength)]
    simp [h]

theorem laterPackets_eq (id : UInt64) (size fuel sequence : ℕ) (rest : Bytes) :
    laterPackets id size fuel sequence rest =
      (cut size fuel rest).mapIdx fun i piece => serializeChunk piece id (sequence+i) none := by
  induction fuel generalizing sequence rest with
  | zero => rfl
  | succ fuel ih =>
    rw [laterPackets,cut]
    split_ifs with h
    · rfl
    rw [mapIdx_cons,ih]
    congr 2
    funext i piece
    congr 1
    omega

theorem numbered_cons (id : UInt64) (first : Bytes) (later : List Bytes) :
    numbered id (first::later) = serializeChunk first id 0 (some (later.length+1))::
      later.mapIdx fun i piece => serializeChunk piece id (1+i) none := by
  rw [numbered,length_cons,range_succ_eq_map,map_cons]
  congr 1
  apply ext_getElem
  · simp
  · intro i hi hi'
    have hlt : i < later.length := by simpa using hi'
    simp [chunkAt,getD_eq_getElem?_getD,Nat.add_comm,getElem?_eq_getElem hlt]

theorem serializeChunk_length (id : UInt64) (k : ℕ) (count : Option ℕ) :
    (serializeChunk payload id k count).length = payload.length+if count.isSome then 17 else 13 := by
  cases count <;> simp [serializeChunk]

/-- Behind the guards, what a split message looks like. -/
theorem splitBytesIntoPackets_ok {bytes : Bytes} {packets : List Bytes}
    (h : splitBytesIntoPackets bytes id size = .ok packets) :
    18 ≤ size ∧ (bytes.length ≤ size-9 ∧ packets = [serializeComplete bytes id] ∨
      size-9 < bytes.length ∧ addSize (bytes.length-(size-17)) (size-13-1)/(size-13) < maxSeq ∧
        packets = serializeChunk (bytes.take (size-17)) id 0
            (some (addSize (bytes.length-(size-17)) (size-13-1)/(size-13)+1))::
          laterPackets id (size-13) bytes.length 1 (bytes.drop (size-17))) := by
  unfold splitBytesIntoPackets at h
  dsimp only at h
  split_ifs at h with hmin hsmall hmany
  · exact ⟨not_lt.mp hmin,.inl ⟨hsmall,(Except.ok.inj h).symm⟩⟩
  · exact ⟨not_lt.mp hmin,.inr ⟨not_le.mp hsmall,not_le.mp hmany,(Except.ok.inj h).symm⟩⟩

theorem split_length {bytes : Bytes} {packets : List Bytes}
    (h : splitBytesIntoPackets bytes id size = .ok packets) (hp : p ∈ packets) :
    p.length ≤ size := by
  obtain ⟨_,⟨_,rfl⟩ | ⟨-,-,rfl⟩⟩ := splitBytesIntoPackets_ok h
  · rw [mem_singleton.mp hp]
    simp [serializeComplete]
    omega
  rcases mem_cons.mp hp with rfl | hp
  · rw [serializeChunk_length,length_take]
    simp only [Option.isSome_some,if_true]
    omega
  rw [laterPackets_eq,mem_mapIdx] at hp
  obtain ⟨i,hi,rfl⟩ := hp
  have hpiece := (cut_piece (by omega) (getElem_mem hi)).2
  rw [serializeChunk_length]
  simp only [Option.isSome_none,Bool.false_eq_true,if_false]
  omega

/-- What a message is cut into. -/
def pieces (size : ℕ) (bytes : Bytes) : List Bytes :=
  bytes.take (size-kFirstChunkMetadataSize)::
    cut (size-kChunkMetadataSize) bytes.length (bytes.drop (size-kFirstChunkMetadataSize))

structure Chunked (size : ℕ) (bytes : Bytes) : Prop where
  join : (pieces size bytes).flatten = bytes
  two_le : 1 < (pieces size bytes).length
  length_lt : (pieces size bytes).length < 256^4
  nonempty : ∀ piece ∈ pieces size bytes, piece ≠ []

/-- A message travels whole, or as numbered nonempty pieces that join to it. -/
theorem split_cases {bytes : Bytes} {packets : List Bytes} (hbytes : bytes.length+4 ≤ sizeRange)
    (h : splitBytesIntoPackets bytes id size = .ok packets) :
    packets = [serializeComplete bytes id] ∨
      packets = numbered id (pieces size bytes) ∧ Chunked size bytes := by
  obtain ⟨_,⟨-,hpkt⟩ | ⟨_,hcnt,hpkt⟩⟩ := splitBytesIntoPackets_ok h
  · exact .inl hpkt
  right
  have hlat : (cut (size-13) bytes.length (bytes.drop (size-17))).length =
      addSize (bytes.length-(size-17)) (size-13-1)/(size-13) := by
    rw [cut_length (by omega) (by simp),length_drop,addSize_eq (by omega)]
  refine ⟨?_,?_,?_,?_,?_⟩
  · rw [hpkt,pieces,numbered_cons,kChunkMetadataSize,kFirstChunkMetadataSize,hlat,laterPackets_eq]
  · rw [pieces,flatten_cons,cut_flatten _ (by simp),take_append_drop]
    simp only [kChunkMetadataSize]
    omega
  · have hpos : 0 < (bytes.length-(size-17)+(size-13-1))/(size-13) :=
      Nat.div_pos (by omega) (by omega)
    rw [pieces,kChunkMetadataSize,kFirstChunkMetadataSize,length_cons,
      cut_length (by omega) (by simp),length_drop]
    omega
  · rw [pieces,kChunkMetadataSize,kFirstChunkMetadataSize,length_cons]
    simp only [maxSeq] at hcnt
    omega
  · intro piece hpiece
    rw [pieces,kChunkMetadataSize,kFirstChunkMetadataSize] at hpiece
    rcases mem_cons.mp hpiece with rfl | hpiece
    · rw [← length_pos_iff,length_take]
      omega
    · exact (cut_piece (by omega) hpiece).1

theorem splitOwnedBytesIntoPackets_eq (bytes : Bytes) (id : UInt64) (size : ℕ) :
    splitOwnedBytesIntoPackets bytes id size = splitBytesIntoPackets bytes id size := by
  unfold splitOwnedBytesIntoPackets
  split_ifs with hmin hlong
  · rw [splitBytesIntoPackets,if_pos hmin]
  · rfl
  · rw [splitBytesIntoPackets,if_neg hmin,if_pos (not_lt.mp hlong)]
    rfl

/-! ### What has been fed of one message -/

/-- Passing to a predicate that holds of one more element. -/
theorem filter_perm_cons {α : Type} {l : List α} {a : α} {P Q : α → Prop} [DecidablePred P]
    [DecidablePred Q] (hl : l.Nodup) (ha : a ∈ l) (hP : ¬ P a) (hQ : Q a)
    (hoth : ∀ b ∈ l, b ≠ a → (Q b ↔ P b)) : (l.filter Q).Perm (a::l.filter P) := by
  have hcons : (a::l.filter P).Nodup := nodup_cons.mpr ⟨by simp [hP],hl.filter _⟩
  apply (perm_ext_iff_of_nodup (hl.filter _) hcons).mpr
  intro b
  by_cases hb : b = a
  · subst hb
    simp [ha,hQ]
  simp only [mem_filter,decide_eq_true_eq,mem_cons,hb,false_or]
  exact and_congr_right fun hmem => hoth b hmem hb

/-- The payload bytes a packet contributes. -/
def payloadSize (p : Bytes) : ℕ :=
  match parseOwnedBytePacket p with
  | .ok packet => packet.payload.length
  | .error _ => 0

/-- The packets of a message among those fed. -/
def fedOf (packets before : List Bytes) : List Bytes := packets.filter (· ∈ before)

def fedBytes (packets before : List Bytes) : ℕ := ((fedOf packets before).map payloadSize).sum

theorem fedOf_concat {packets : List Bytes} (hnd : packets.Nodup)
    (hp : p ∈ packets) (hnew : p ∉ before) :
    (fedOf packets (before++[p])).Perm (p::fedOf packets before) := by
  apply filter_perm_cons hnd hp hnew (by simp)
  intro b _ hb
  simp [hb]

theorem mem_concat_iff {packets : List Bytes} (hp : p ∉ packets) {q : Bytes} (hq : q ∈ packets) :
    q ∈ before++[p] ↔ q ∈ before := by
  have hne : q ≠ p := fun h => hp (h ▸ hq)
  simp [hne]

theorem fedOf_concat_of_notMem {packets : List Bytes} (hp : p ∉ packets) :
    fedOf packets (before++[p]) = fedOf packets before :=
  filter_congr fun _ hq => decide_eq_decide.mpr (mem_concat_iff hp hq)

theorem fedBytes_concat {packets : List Bytes} (hnd : packets.Nodup)
    (hp : p ∈ packets) (hnew : p ∉ before) :
    fedBytes packets (before++[p]) = fedBytes packets before+payloadSize p := by
  rw [fedBytes,((fedOf_concat hnd hp hnew).map _).sum_eq,map_cons,sum_cons,fedBytes,Nat.add_comm]

section One

variable {id : UInt64} {pieces : List Bytes} (hlength : pieces.length < 256^4)
include hlength

theorem chunkAt_inj {j : ℕ} (hj : j < pieces.length) (hk : k < pieces.length)
    (h : chunkAt id pieces j = chunkAt id pieces k) : j = k := by
  have hpar : parseOwnedBytePacket (chunkAt id pieces j) = _ := parse_chunkAt hj hlength
  rw [h,parse_chunkAt hk hlength] at hpar
  injection hpar with hpkt
  exact (congrArg BytePacket.sequence hpkt).symm

theorem numbered_nodup : (numbered id pieces).Nodup := by
  apply Nodup.map_on _ nodup_range
  intro j hj k hk h
  exact chunkAt_inj hlength (mem_range.mp hj) (mem_range.mp hk) h

theorem payloadSize_chunkAt (hk : k < pieces.length) :
    payloadSize (chunkAt id pieces k) = (pieces.getD k []).length := by
  rw [payloadSize,parse_chunkAt hk hlength]

omit hlength in
theorem range_getD (pieces : List Bytes) :
    (List.range pieces.length).map (fun k => pieces.getD k []) = pieces := by
  apply ext_getElem
  · simp
  · intro i hi hi'
    simp [getD_eq_getElem?_getD,getElem?_eq_getElem hi']

variable (id) in
theorem payloadSize_numbered : ((numbered id pieces).map payloadSize).sum = pieces.flatten.length := by
  rw [numbered,map_map,length_flatten]
  nth_rewrite 3 [← range_getD pieces]
  rw [map_map]
  congr 1
  apply map_congr_left
  intro k hk
  exact payloadSize_chunkAt hlength (mem_range.mp hk)

variable (id) in
theorem fedBytes_le (before : List Bytes) :
    fedBytes (numbered id pieces) before ≤ pieces.flatten.length := by
  rw [← payloadSize_numbered id hlength]
  exact (filter_sublist.map _).sum_le_sum (by simp)

end One

/-- What the reassembler keeps of a message: the pieces whose packets have been fed. -/
structure Holds (id : UInt64) (pieces before : List Bytes) (pending : Pending) : Prop where
  count : pending.packetCount =
    if chunkAt id pieces 0 ∈ before then some pieces.length else none
  lookup : ∀ k, pending.chunks.lookup k =
    if k < pieces.length ∧ chunkAt id pieces k ∈ before then some (pieces.getD k []) else none
  size : pending.chunks.size = (fedOf (numbered id pieces) before).length
  byteCount : pending.byteCount = fedBytes (numbered id pieces) before

theorem Holds.empty {pieces : List Bytes}
    (h : ∀ p ∈ numbered id pieces, p ∉ before) (hpos : 0 < pieces.length) :
    Holds id pieces before {} := by
  have hnone : ∀ k < pieces.length, chunkAt id pieces k ∉ before := fun k hk =>
    h _ (mem_map_of_mem (mem_range.mpr hk))
  have hfed : fedOf (numbered id pieces) before = [] := by simpa [fedOf] using h
  refine ⟨by simp [hnone 0 hpos],?_,by simp [hfed],by simp [fedBytes,hfed]⟩
  intro k
  rw [if_neg fun hk => hnone k hk.1 hk.2]
  rfl

theorem Holds.of_notMem {pieces : List Bytes} {pending : Pending}
    (h : Holds id pieces before pending) (hpos : 0 < pieces.length) (hp : p ∉ numbered id pieces) :
    Holds id pieces (before++[p]) pending := by
  have hmem : ∀ k < pieces.length,
      (chunkAt id pieces k ∈ before++[p] ↔ chunkAt id pieces k ∈ before) := fun k hk =>
    mem_concat_iff hp (mem_map_of_mem (mem_range.mpr hk))
  refine ⟨?_,?_,?_,?_⟩
  · rw [h.count]
    simp [hmem 0 hpos]
  · intro k
    rw [h.lookup]
    by_cases hk : k < pieces.length
    · simp [hk,hmem k hk]
    · simp [hk]
  · rw [h.size,fedOf_concat_of_notMem hp]
  · rw [h.byteCount,fedBytes,fedBytes,fedOf_concat_of_notMem hp]

/-- The parsed form of the packet that carries piece `k`. -/
def parsedAt (id : UInt64) (pieces : List Bytes) (k : ℕ) : BytePacket :=
  ⟨if k = 0 then .lengthSuffixedByteChunk else .byteChunk,pieces.getD k [],id,k,
    if k = 0 then pieces.length else 0⟩

section Step

variable {o : ByteChunkingOptions} {r : ByteReassembler} {id : UInt64} {pieces before : List Bytes}
  {pending : Pending} {k : ℕ} (hlength : pieces.length < 256^4) (hk : k < pieces.length)
  (hnew : chunkAt id pieces k ∉ before) (h : Holds id pieces before pending)
include hlength hk hnew h

/-- The entry after the packet that carries piece `k`. -/
theorem Holds.step :
    Holds id pieces (before++[chunkAt id pieces k])
      ⟨if k = 0 then some pieces.length else pending.packetCount,
        pending.chunks.emplace k (pieces.getD k []),
        pending.byteCount+(pieces.getD k []).length⟩ := by
  have hmem : chunkAt id pieces k ∈ numbered id pieces :=
    mem_map_of_mem (mem_range.mpr hk)
  have hoth : ∀ j < pieces.length, j ≠ k →
      (chunkAt id pieces j ∈ before++[chunkAt id pieces k] ↔ chunkAt id pieces j ∈ before) := by
    intro j hj hjk
    have hne : chunkAt id pieces j ≠ chunkAt id pieces k := fun heq =>
      hjk (chunkAt_inj hlength hj hk heq)
    simp [hne]
  have habs : pending.chunks.lookup k = none := by
    rw [h.lookup,if_neg fun hh => hnew hh.2]
  refine ⟨?_,?_,?_,?_⟩
  · split_ifs with hzero hfed hfed
    · rfl
    · exact absurd (by simp [hzero]) hfed
    · rw [h.count,if_pos ((hoth 0 (by omega) (Ne.symm hzero)).mp hfed)]
    · rw [h.count,if_neg fun hh => hfed ((hoth 0 (by omega) (Ne.symm hzero)).mpr hh)]
  · intro j
    rw [Table.lookup_emplace]
    by_cases hj : j = k
    · subst hj
      simp [habs,hk]
    rw [h.lookup,if_neg hj]
    by_cases hlt : j < pieces.length
    · simp [hlt,hoth j hlt hj]
    · simp [hlt]
  · rw [Table.size_emplace _ _ (Finmap.lookup_eq_none.mp habs),h.size,
      (fedOf_concat (numbered_nodup hlength) hmem hnew).length_eq,length_cons]
  · rw [fedBytes_concat (numbered_nodup hlength) hmem hnew,h.byteCount,
      payloadSize_chunkAt hlength hk]

omit hlength hk hnew in
theorem Holds.mem_chunks {j : ℕ} :
    j ∈ pending.chunks ↔ j < pieces.length ∧ chunkAt id pieces j ∈ before := by
  rw [← Finmap.lookup_isSome,h.lookup]
  split_ifs with hj <;> simp [hj]

omit hlength hk hnew in
theorem Holds.assemble (hall : ∀ p ∈ numbered id pieces, p ∈ before) :
    assemble pieces.length pending.chunks = pieces.flatten := by
  have hmap : (List.range pieces.length).map (fun j => (pending.chunks.lookup j).getD []) =
      (List.range pieces.length).map fun j => pieces.getD j [] := by
    apply map_congr_left
    intro j hj
    have hmem : chunkAt id pieces j ∈ before := hall _ (mem_map_of_mem hj)
    rw [h.lookup,if_pos ⟨mem_range.mp hj,hmem⟩,Option.getD_some]
  rw [ByteChunking.assemble,flatMap_def,hmap,range_getD]

omit hlength hk hnew in
/-- The message is handed out exactly when all its packets have been fed. -/
theorem Holds.finish (hpos : 0 < pieces.length) :
    finish r id pending =
      if ∀ p ∈ numbered id pieces, p ∈ before then
        (.ok (some pieces.flatten),⟨r.pending.erase id,r.pendingBytes-pending.byteCount⟩)
      else (.ok none,{ r with pending := r.pending.set id pending }) := by
  have hfull : (fedOf (numbered id pieces) before).length = pieces.length ↔
      ∀ p ∈ numbered id pieces, p ∈ before := by
    have hnumbered : pieces.length = (numbered id pieces).length := by simp [numbered]
    rw [hnumbered,fedOf,length_filter_eq_length_iff]
    simp
  rw [ByteChunking.finish,h.count]
  by_cases hall : ∀ p ∈ numbered id pieces, p ∈ before
  · have hzero : chunkAt id pieces 0 ∈ before :=
      hall _ (mem_map_of_mem (mem_range.mpr hpos))
    have hpres : ¬ ∃ j ∈ List.range pieces.length, j ∉ pending.chunks := by
      rintro ⟨j,hj,hmiss⟩
      exact hmiss (h.mem_chunks.mpr ⟨mem_range.mp hj,hall _ (mem_map_of_mem hj)⟩)
    rw [if_pos hzero,if_pos hall]
    dsimp only
    rw [h.size,if_neg (not_not.mpr (hfull.mpr hall)),if_neg hpres,h.assemble hall]
  · rw [if_neg hall]
    split_ifs with hzero
    · dsimp only
      rw [h.size,if_pos fun hh => hall (hfull.mp hh)]
    · rfl

theorem noteCount_holds (hsize : pieces.flatten.length ≤ o.maxMessageSize)
    (hrng : r.pendingBytes+(pieces.getD k []).length < sizeRange) :
    ∃ pending', Holds id pieces (before++[chunkAt id pieces k]) pending' ∧
      noteCount o r (parsedAt id pieces k) pending =
        finish ⟨r.pending,r.pendingBytes+(pieces.getD k []).length⟩ id pending' := by
  have hstep := h.step hlength hk hnew
  refine ⟨_,hstep,?_⟩
  have hbytes : pending.byteCount+(pieces.getD k []).length ≤ o.maxMessageSize := by
    have hle := fedBytes_le id hlength (before++[chunkAt id pieces k])
    rw [← hstep.byteCount] at hle
    exact hle.trans hsize
  have hmax : o.maxMessageSize < sizeRange := o.isSize _ (by simp)
  have hadd : addChunk o r (parsedAt id pieces k)
      { pending with packetCount := if k = 0 then some pieces.length else pending.packetCount } =
      finish { r with pendingBytes := r.pendingBytes+(pieces.getD k []).length } id
        ⟨if k = 0 then some pieces.length else pending.packetCount,
          pending.chunks.emplace k (pieces.getD k []),
          pending.byteCount+(pieces.getD k []).length⟩ := by
    have hcnt : ¬ (if k = 0 then some pieces.length else pending.packetCount).any
        (· ≤ (parsedAt id pieces k).sequence) = true := by
      rw [h.count]
      split_ifs <;> simp [parsedAt,hk]
    have habs : k ∉ pending.chunks := fun hh => hnew (h.mem_chunks.mp hh).2
    have hfits : addSize pending.byteCount (pieces.getD k []).length =
        pending.byteCount+(pieces.getD k []).length := addSize_eq (by omega)
    rw [addChunk,if_neg hcnt]
    simp only [parsedAt,habs,if_false,hfits,addSize_eq hrng,if_neg (not_lt.mpr hbytes)]
  have hcounted : noteCount o r (parsedAt id pieces k) pending =
      addChunk o r (parsedAt id pieces k)
        { pending with packetCount := if k = 0 then some pieces.length else pending.packetCount } := by
    rw [noteCount]
    by_cases hzero : k = 0
    · have hsame : ¬ pending.packetCount.any (· ≠ (parsedAt id pieces k).packetCount) = true := by
        rw [h.count]
        split_ifs <;> simp [parsedAt,hzero]
      have hbelow : ¬ ∃ j ∈ pending.chunks.keys, (parsedAt id pieces k).packetCount ≤ j := by
        rintro ⟨j,hj,hle⟩
        have hlt := (h.mem_chunks.mp (Finmap.mem_keys.mp hj)).1
        simp only [parsedAt,hzero,if_true] at hle
        omega
      rw [if_neg hsame,if_neg hbelow]
      simp [parsedAt,hzero]
    · rw [if_neg (by simp [parsedAt,hzero]),if_neg hzero]
  rw [hcounted,hadd]

end Step

/-! ### Many messages -/

structure Message where
  id : UInt64
  bytes : Bytes
  deriving DecidableEq

namespace Message

variable (o : ByteChunkingOptions)

def packets (m : Message) : List Bytes :=
  match splitBytesIntoPackets m.bytes m.id o.packetSize with
  | .ok packets => packets
  | .error _ => []

/-- Some but not all packets have been fed. -/
def IsOpen (before : List Bytes) (m : Message) : Prop :=
  (∃ p ∈ m.packets o, p ∈ before) ∧ ∃ p ∈ m.packets o, p ∉ before

instance (before : List Bytes) (m : Message) : Decidable (m.IsOpen o before) :=
  inferInstanceAs (Decidable (_ ∧ _))

/-- The payload bytes the reassembler has to keep for the message. -/
def heldBytes (before : List Bytes) (m : Message) : ℕ :=
  if m.IsOpen o before then fedBytes (m.packets o) before else 0

end Message

variable (o : ByteChunkingOptions) (messages : List Message)

def openMessages (before : List Bytes) : List Message := messages.filter (Message.IsOpen o before)

def pendingPayload (before : List Bytes) : ℕ := (messages.map (Message.heldBytes o before)).sum

/-- The limits, along one order of the packets: every message is within the size
limit, no initial part of the order has too many messages begun and unfinished, and
the bytes kept for those leave room for the next chunk. -/
structure WithinLimits (fed : List Bytes) : Prop where
  size_le : ∀ m ∈ messages, m.bytes.length ≤ o.maxMessageSize
  open_le : ∀ before after, fed = before++after →
    (openMessages o messages before).length ≤ o.maxPendingMessages
  held_le : ∀ before p after, fed = before++p::after →
    ∀ m ∈ messages, p ∈ m.packets o → 1 < (m.packets o).length →
      pendingPayload o messages before+payloadSize p ≤ o.maxPendingBytes

/-- The reassembler after a list of packets: it keeps exactly the open messages. -/
structure Tracks (before : List Bytes) (r : ByteReassembler) : Prop where
  mem_iff : ∀ m ∈ messages, (m.id ∈ r.pending ↔ m.IsOpen o before)
  kept : ∀ id pending, r.pending.lookup id = some pending → ∃ m ∈ messages, m.id = id ∧
    m.IsOpen o before ∧ Holds id (pieces o.packetSize m.bytes) before pending
  bytes : r.pendingBytes = pendingPayload o messages before

section Run

variable {o messages}

variable {m n : Message} {bytes : Bytes}

theorem packets_of_split {packets : List Bytes}
    (h : splitBytesIntoPackets m.bytes m.id o.packetSize = .ok packets) :
    m.packets o = packets := by
  rw [Message.packets,h]

/-- What is sent: messages of different numbers that can be split and are within the size limit. -/
structure Sendable (o : ByteChunkingOptions) (messages : List Message) : Prop where
  legal : o.validate = .ok ()
  ids : (messages.map Message.id).Nodup
  split : ∀ m ∈ messages, ∃ packets,
    splitBytesIntoPackets m.bytes m.id o.packetSize = .ok packets
  size : ∀ m ∈ messages, m.bytes.length ≤ o.maxMessageSize

variable (hs : Sendable o messages)

theorem validate_ok (hlegal : o.validate = .ok ()) :
    18 ≤ o.packetSize ∧ o.maxMessageSize+9 < sizeRange := by
  have hmax : o.maxMessageSize < sizeRange := o.isSize _ (by simp)
  unfold ByteChunkingOptions.validate at hlegal
  split_ifs at hlegal with hmin hzero hsize
  have hle : 18 ≤ o.packetSize := not_lt.mp hmin
  refine ⟨hle,?_⟩
  have hge : 18 ≤ (o.maxMessageSize+9)%sizeRange := hle.trans (not_lt.mp hsize)
  by_contra hover
  simp only [sizeRange] at *
  omega

include hs in
section

variable (hm : m ∈ messages)

include hm

theorem packets_cases : m.packets o = [serializeComplete m.bytes m.id] ∨
      m.packets o = numbered m.id (pieces o.packetSize m.bytes) ∧ Chunked o.packetSize m.bytes := by
  obtain ⟨_,h⟩ := hs.split m hm
  have hrng := (validate_ok hs.legal).2
  rw [packets_of_split h]
  exact split_cases (by have := hs.size m hm; omega) h

include hs in
theorem parse_packets (hp : p ∈ m.packets o) :
    ∃ packet, parseOwnedBytePacket p = .ok packet ∧ packet.transientId = m.id := by
  rcases packets_cases hs hm with h | ⟨h,hchk⟩
  · rw [h,mem_singleton] at hp
    exact ⟨_,hp ▸ parse_serializeComplete _ _,rfl⟩
  · rw [h] at hp
    obtain ⟨k,hk,rfl⟩ := mem_map.mp hp
    exact ⟨_,parse_chunkAt (mem_range.mp hk) hchk.length_lt,rfl⟩

include hs in
/-- A packet belongs to one message. -/
theorem packets_disjoint (hn : n ∈ messages)
    (hpm : p ∈ m.packets o) (hpn : p ∈ n.packets o) : m = n := by
  obtain ⟨_,hpar,hid⟩ := parse_packets hs hm hpm
  obtain ⟨_,hpar',hid'⟩ := parse_packets hs hn hpn
  rw [hpar] at hpar'
  injection hpar' with heq
  exact inj_on_of_nodup_map hs.ids hm hn (by rw [← hid,← hid',heq])

include hs in
theorem packets_nodup : (m.packets o).Nodup := by
  rcases packets_cases hs hm with h | ⟨h,hchk⟩
  · rw [h]
    exact nodup_singleton _
  · rw [h]
    exact numbered_nodup hchk.length_lt

end

/-- Feeding a packet of one message leaves the others as they were. -/
theorem isOpen_concat_of_notMem
    (hp : p ∉ m.packets o) : m.IsOpen o (before++[p]) ↔ m.IsOpen o before := by
  refine and_congr (exists_congr fun q => and_congr_right fun hq => mem_concat_iff hp hq) ?_
  exact exists_congr fun q => and_congr_right fun hq => not_congr (mem_concat_iff hp hq)

theorem pieces_pos (size : ℕ) (bytes : Bytes) : 0 < (pieces size bytes).length := by simp [pieces]

include hs in
theorem chunked_of_isOpen (hm : m ∈ messages) (hopen : m.IsOpen o before) :
    m.packets o = numbered m.id (pieces o.packetSize m.bytes) ∧ Chunked o.packetSize m.bytes := by
  rcases packets_cases hs hm with h | h
  · obtain ⟨⟨p,hp,hin⟩,q,hq,hout⟩ := hopen
    rw [h,mem_singleton] at hp hq
    exact absurd (hp ▸ hin) (hq ▸ hout)
  · exact h

include hs in
/-- One packet of `m` changes the entry of `m` and nothing else. -/
theorem Tracks.concat {r' : ByteReassembler}
    (ht : Tracks o messages before r) (hm : m ∈ messages) (hp : p ∈ m.packets o)
    (hoth : ∀ id, id ≠ m.id → r'.pending.lookup id = r.pending.lookup id)
    (hent : ∀ pending, r'.pending.lookup m.id = some pending → m.IsOpen o (before++[p]) ∧
      Holds m.id (pieces o.packetSize m.bytes) (before++[p]) pending)
    (hmem : m.id ∈ r'.pending ↔ m.IsOpen o (before++[p]))
    (hbytes : r'.pendingBytes+m.heldBytes o before = r.pendingBytes+m.heldBytes o (before++[p])) :
    Tracks o messages (before++[p]) r' := by
  have hnotMem : ∀ n ∈ messages, n ≠ m → p ∉ n.packets o := fun n hn hne hpn =>
    hne (packets_disjoint hs hn hm hpn hp)
  have hne_id : ∀ n ∈ messages, n ≠ m → n.id ≠ m.id := fun n hn hne heq =>
    hne (inj_on_of_nodup_map hs.ids hn hm heq)
  refine ⟨?_,?_,?_⟩
  · intro n hn
    by_cases hnm : n = m
    · subst hnm
      exact hmem
    · rw [isOpen_concat_of_notMem (hnotMem n hn hnm),← ht.mem_iff n hn,← Finmap.lookup_isSome,
        hoth _ (hne_id n hn hnm),Finmap.lookup_isSome]
  · intro id pending hlook
    by_cases hid : id = m.id
    · subst hid
      exact ⟨m,hm,rfl,hent pending hlook⟩
    rw [hoth id hid] at hlook
    obtain ⟨n,hn,rfl,hopen,hholds⟩ := ht.kept id pending hlook
    have hnm : n ≠ m := fun h => hid (congrArg Message.id h)
    have hpkt := (chunked_of_isOpen hs hn hopen).1
    refine ⟨n,hn,rfl,(isOpen_concat_of_notMem (hnotMem n hn hnm)).mpr hopen,?_⟩
    exact hholds.of_notMem (pieces_pos _ _) (hpkt ▸ hnotMem n hn hnm)
  · have hsum : pendingPayload o messages (before++[p])+m.heldBytes o before =
        pendingPayload o messages before+m.heldBytes o (before++[p]) :=
      sum_map_update (Nodup.of_map _ hs.ids) hm fun n hn hnm => by
        have hp := hnotMem n hn hnm
        simp [Message.heldBytes,isOpen_concat_of_notMem hp,fedBytes,fedOf_concat_of_notMem hp]
    have hprev := ht.bytes
    omega

theorem feed_serializeComplete (hpkt : (serializeComplete bytes id).length ≤ o.packetSize)
    (hbytes : bytes.length ≤ o.maxMessageSize) (hid : id ∉ r.pending) :
    feed o r (serializeComplete bytes id) = (.ok (some bytes),r) := by
  rw [feed,if_neg (not_lt.mpr hpkt),parse_serializeComplete]
  simp [not_lt.mpr hbytes,hid]

/-- A chunk within the limits reaches the entry of its message. -/
theorem feed_chunkAt {pieces : List Bytes} (hlength : pieces.length < 256^4)
    (hk : k < pieces.length) (hpkt : (chunkAt id pieces k).length ≤ o.packetSize)
    (hsize : pieces.flatten.length ≤ o.maxMessageSize) (hlegal : o.maxMessageSize+9 < sizeRange)
    (hnonempty : ∀ piece ∈ pieces, piece ≠ [])
    (hheld : r.pendingBytes+(pieces.getD k []).length ≤ o.maxPendingBytes)
    (hroom : r.pending.lookup id = none → r.pending.size < o.maxPendingMessages) :
    feed o r (chunkAt id pieces k) = match r.pending.lookup id with
      | some pending => noteCount o r (parsedAt id pieces k) pending
      | none => noteCount o { r with pending := r.pending.set id {} } (parsedAt id pieces k) {} := by
  have hcnt : pieces.length ≤ pieces.flatten.length := by
    have hone : ∀ n ∈ pieces.map List.length, 1 ≤ n := by
      intro n hn
      obtain ⟨piece,hpiece,rfl⟩ := mem_map.mp hn
      exact length_pos_iff.mpr (hnonempty piece hpiece)
    simpa using card_nsmul_le_sum _ 1 hone
  have hpiece : (pieces.getD k []).length ≤ o.maxMessageSize := by
    have hmem : pieces.getD k [] ∈ pieces := by
      rw [getD_eq_getElem?_getD,getElem?_eq_getElem hk]
      exact getElem_mem hk
    exact (sublist_flatten_of_mem hmem).length_le.trans hsize
  have hmax : o.maxPendingBytes < sizeRange := o.isSize _ (by simp)
  have hfits : addSize r.pendingBytes (pieces.getD k []).length =
      r.pendingBytes+(pieces.getD k []).length := addSize_eq (by omega)
  have hbound : addSize o.maxMessageSize 1 = o.maxMessageSize+1 := addSize_eq (by omega)
  rw [feed,if_neg (not_lt.mpr hpkt),parse_chunkAt hk hlength]
  change (if o.maxMessageSize < (pieces.getD k []).length then _
    else if (parsedAt id pieces k).type = .completeBytes then _
    else feedChunk o r (parsedAt id pieces k)) = _
  have htype : (parsedAt id pieces k).type ≠ .completeBytes := by
    simp only [parsedAt]
    split_ifs <;> simp
  have hdecl : ¬ ((parsedAt id pieces k).type = .lengthSuffixedByteChunk ∧
      addSize o.maxMessageSize 1 < (parsedAt id pieces k).packetCount) := by
    rintro ⟨-,hlt⟩
    simp only [parsedAt] at hlt
    split_ifs at hlt <;> omega
  rw [if_neg (not_lt.mpr hpiece),if_neg htype,feedChunk,
    if_neg (by simp only [parsedAt]; omega),if_neg hdecl]
  simp only [parsedAt,hfits,if_neg (not_lt.mpr hheld)]
  cases hlook : r.pending.lookup id with
  | some pending => rfl
  | none => simp [if_neg (not_le.mpr (hroom hlook))]

theorem Tracks.size_le (ht : Tracks o messages before r) :
    r.pending.size ≤ (openMessages o messages before).length := by
  have hsub : r.pending.keys ⊆ ((openMessages o messages before).map Message.id).toFinset := by
    intro id hid
    obtain ⟨pending,hpend⟩ := Finmap.mem_iff.mp (Finmap.mem_keys.mp hid)
    obtain ⟨m,hm,rfl,hopen,-⟩ := ht.kept id pending hpend
    rw [mem_toFinset]
    exact mem_map_of_mem (mem_filter.mpr ⟨hm,decide_eq_true hopen⟩)
  calc r.pending.size
    _ ≤ ((openMessages o messages before).map Message.id).toFinset.card := Finset.card_le_card hsub
    _ ≤ ((openMessages o messages before).map Message.id).length := toFinset_card_le _
    _ = (openMessages o messages before).length := length_map _

theorem heldBytes_of_unfed (h : ∃ q ∈ m.packets o, q ∉ before) :
    m.heldBytes o before = fedBytes (m.packets o) before := by
  unfold Message.heldBytes
  split_ifs with hopen
  · rfl
  · have hnone : ∀ q ∈ m.packets o, q ∉ before := fun q hq hin => hopen ⟨⟨q,hq,hin⟩,h⟩
    have hfed : fedOf (m.packets o) before = [] := by simpa [fedOf] using hnone
    simp [fedBytes,hfed]

/-- The first packet of a message with several packets opens it. -/
theorem isOpen_of_first (hlen : 1 < (m.packets o).length) (hnd : (m.packets o).Nodup)
    (hp : p ∈ m.packets o) (hcls : ¬ m.IsOpen o before) (hunfed : ∃ q ∈ m.packets o, q ∉ before) :
    m.IsOpen o (before++[p]) := by
  have hnone : ∀ q ∈ m.packets o, q ∉ before := fun q hq hin => hcls ⟨⟨q,hq,hin⟩,hunfed⟩
  have hrest : 0 < ((m.packets o).erase p).length := by
    rw [length_erase_of_mem hp]
    omega
  obtain ⟨q,hq⟩ := length_pos_iff_exists_mem.mp hrest
  obtain ⟨hqp,hq⟩ := hnd.mem_erase_iff.mp hq
  exact ⟨⟨p,hp,by simp⟩,q,hq,by simp [hnone q hq,hqp]⟩

include hs in
/-- The entry of a chunk's message before the chunk, whether it is there or not. -/
theorem feed_chunk_holds {ps : List Bytes} (hpieces : pieces o.packetSize m.bytes = ps)
    (ht : Tracks o messages before r) (hm : m ∈ messages) (hpkt : m.packets o = numbered m.id ps)
    (hchk : Chunked o.packetSize m.bytes) (hk : k < ps.length) (hnew : chunkAt m.id ps k ∉ before)
    (hpacket : (chunkAt m.id ps k).length ≤ o.packetSize)
    (hheld : r.pendingBytes+(ps.getD k []).length ≤ o.maxPendingBytes)
    (hroom : m.id ∉ r.pending → r.pending.size < o.maxPendingMessages) :
    ∃ t : Table UInt64 Pending, (∀ id, id ≠ m.id → t.lookup id = r.pending.lookup id) ∧
      ∃ pending, Holds m.id ps (before++[chunkAt m.id ps k]) pending ∧
        feed o r (chunkAt m.id ps k) = finish ⟨t,r.pendingBytes+(ps.getD k []).length⟩ m.id pending := by
  subst hpieces
  have hsize : (pieces o.packetSize m.bytes).flatten.length ≤ o.maxMessageSize :=
    hchk.join.symm ▸ hs.size m hm
  have hmax : o.maxPendingBytes < sizeRange := o.isSize _ (by simp)
  have hunfed : ∃ q ∈ m.packets o, q ∉ before :=
    ⟨_,hpkt ▸ mem_map_of_mem (mem_range.mpr hk),hnew⟩
  rw [feed_chunkAt hchk.length_lt hk hpacket hsize (validate_ok hs.legal).2 hchk.nonempty hheld
    fun h => hroom (Finmap.lookup_eq_none.mp h)]
  cases hlook : r.pending.lookup m.id with
  | some pending =>
    obtain ⟨n,hn,hid,-,hholds⟩ := ht.kept m.id pending hlook
    obtain rfl : n = m := inj_on_of_nodup_map hs.ids hn hm hid
    exact ⟨r.pending,fun _ _ => rfl,
      noteCount_holds hchk.length_lt hk hnew hholds hsize (hheld.trans_lt hmax)⟩
  | none =>
    have hcls : ¬ m.IsOpen o before := fun hopen =>
      Finmap.lookup_eq_none.mp hlook ((ht.mem_iff m hm).mpr hopen)
    have hnone : ∀ q ∈ numbered m.id (pieces o.packetSize m.bytes), q ∉ before :=
      fun q hq hin => hcls ⟨⟨q,hpkt ▸ hq,hin⟩,hunfed⟩
    exact ⟨r.pending.set m.id {},fun id hid => by rw [Table.lookup_set,if_neg hid],
      noteCount_holds (r := { r with pending := r.pending.set m.id {} }) hchk.length_lt hk hnew
        (Holds.empty hnone (pieces_pos _ _)) hsize (hheld.trans_lt hmax)⟩

include hs in
/-- Feeding one packet: the message comes out exactly when this was its last missing
packet, and the reassembler goes on tracking what has been fed. -/
theorem feed_step
    (ht : Tracks o messages before r) (hm : m ∈ messages) (hp : p ∈ m.packets o) (hnew : p ∉ before)
    (hopen : (openMessages o messages (before++[p])).length ≤ o.maxPendingMessages)
    (hheld : 1 < (m.packets o).length →
      pendingPayload o messages before+payloadSize p ≤ o.maxPendingBytes) : (feed o r p).1 =
        .ok (if ∀ q ∈ m.packets o, q ∈ before++[p] then some m.bytes else none) ∧
      Tracks o messages (before++[p]) (feed o r p).2 := by
  obtain ⟨packets,hpkt⟩ := hs.split m hm
  have hle : p.length ≤ o.packetSize := split_length hpkt (packets_of_split hpkt ▸ hp)
  rcases packets_cases hs hm with h | ⟨h,hchk⟩
  · have hnever : ∀ before', ¬ m.IsOpen o before' := by
      rintro before' ⟨⟨q,hq,hin⟩,q',hq',hout⟩
      rw [h,mem_singleton] at hq hq'
      exact hout (hq' ▸ hq ▸ hin)
    have hid : m.id ∉ r.pending := fun hmem => hnever before ((ht.mem_iff m hm).mp hmem)
    have hpm := hp
    rw [h,mem_singleton] at hp
    subst hp
    rw [feed_serializeComplete hle (hs.size m hm) hid]
    refine ⟨by simp [h],?_⟩
    apply ht.concat hs hm hpm
    · intro id _
      rfl
    · intro pending hlook
      rw [Finmap.lookup_eq_none.mpr hid] at hlook
      simp at hlook
    · simp [hid,hnever]
    · simp [Message.heldBytes,hnever]
  · have hpm := hp
    rw [h] at hp
    obtain ⟨k,hk,hpk⟩ := mem_map.mp hp
    have hk := mem_range.mp hk
    have hunfed : ∃ q ∈ m.packets o, q ∉ before := ⟨_,hpm,hnew⟩
    have hroom : m.id ∉ r.pending → r.pending.size < o.maxPendingMessages := by
      intro hid
      have hcls : ¬ m.IsOpen o before := fun hopen => hid ((ht.mem_iff m hm).mpr hopen)
      have hopened := isOpen_of_first (by rw [h]; simpa [numbered] using hchk.two_le)
        (packets_nodup hs hm) hpm hcls hunfed
      have hperm : (openMessages o messages (before++[p])).Perm
          (m::openMessages o messages before) := by
        apply filter_perm_cons (Nodup.of_map _ hs.ids) hm hcls hopened
        intro n hn hnm
        exact isOpen_concat_of_notMem fun hpn =>
          hnm (packets_disjoint hs hn hm hpn hpm)
      rw [hperm.length_eq,length_cons] at hopen
      have hle := ht.size_le
      omega
    have hpay : payloadSize (chunkAt m.id _ k) = _ := payloadSize_chunkAt hchk.length_lt hk
    rw [hpk] at hpay
    have hheld := hheld (by rw [h]; simpa [numbered] using hchk.two_le)
    rw [hpay,← ht.bytes] at hheld
    have hfed := fedBytes_concat (packets_nodup hs hm) hpm hnew
    rw [hpay,← heldBytes_of_unfed hunfed] at hfed
    have hleheld : m.heldBytes o before ≤ r.pendingBytes := by
      rw [ht.bytes]
      exact single_le_sum (by simp) _ (mem_map_of_mem hm)
    obtain ⟨t,hoth,pending,hholds,hfeed⟩ := feed_chunk_holds hs rfl ht hm h hchk hk
      (hpk ▸ hnew) (hpk ▸ hle) hheld hroom
    rw [hpk] at hholds hfeed
    have hcnt := hholds.byteCount
    rw [← h] at hcnt
    rw [hfeed,hholds.finish (pieces_pos _ _),hchk.join,← h]
    split_ifs with hall
    · have hcls : ¬ m.IsOpen o (before++[p]) :=
        fun hopen => hopen.2.elim fun q hq => hq.2 (hall q hq.1)
      refine ⟨rfl,ht.concat hs hm hpm ?_ ?_ ?_ ?_⟩
      · intro id hid
        rw [Table.lookup_erase,if_neg hid,hoth id hid]
      · intro pending' hlook
        simp at hlook
      · simp [hcls]
      · have hzero : m.heldBytes o (before++[p]) = 0 := if_neg hcls
        dsimp only
        omega
    · have hunfed' : ∃ q ∈ m.packets o, q ∉ before++[p] := by
        simpa only [not_forall,exists_prop] using hall
      have hopen : m.IsOpen o (before++[p]) := ⟨⟨_,hpm,by simp⟩,hunfed'⟩
      refine ⟨rfl,ht.concat hs hm hpm ?_ ?_ ?_ ?_⟩
      · intro id hid
        rw [Table.lookup_set,if_neg hid,hoth id hid]
      · intro pending' hlook
        rw [Table.lookup_set,if_pos rfl] at hlook
        exact ⟨hopen,Option.some.inj hlook ▸ hholds⟩
      · simp [Table.mem_set,hopen]
      · rw [heldBytes_of_unfed hunfed']
        dsimp only
        omega

/-- The messages that are not complete among the packets fed. -/
def unfinished (o : ByteChunkingOptions) (messages : List Message) (before : List Bytes) :
    List Message :=
  messages.filter fun m => ∃ q ∈ m.packets o, q ∉ before

/-- The message an answer hands out, if it does. -/
def returned : StatusOr (Option Bytes) → Option Bytes
  | .ok message => message
  | .error _ => none

def fedState (o : ByteChunkingOptions) (before : List Bytes) : ByteReassembler :=
  Runs.after (fun r p => (feed o r p).2) {} before

include hs in
theorem packets_ne_nil (hm : m ∈ messages) : m.packets o ≠ [] := by
  rcases packets_cases hs hm with h | ⟨h,hchk⟩
  · simp [h]
  have hpos := hchk.two_le
  rw [h,← length_pos_iff]
  simp only [numbered,length_map,length_range]
  omega

include hs in
theorem flatMap_packets_nodup : (messages.flatMap (Message.packets o)).Nodup := by
  rw [nodup_flatMap]
  refine ⟨fun m hm => packets_nodup hs hm,?_⟩
  apply (Nodup.of_map _ hs.ids).pairwise_of_forall_ne
  intro m hm n hn hne p hpm hpn
  exact hne (packets_disjoint hs hm hn hpm hpn)

theorem pendingPayload_eq_zero
    (h : ∀ m ∈ messages, ¬ m.IsOpen o before) : pendingPayload o messages before = 0 := by
  apply sum_eq_zero
  intro n hn
  obtain ⟨m,hm,rfl⟩ := mem_map.mp hn
  exact if_neg (h m hm)

theorem tracks_nil : Tracks o messages [] {} := by
  have hcls : ∀ m : Message, ¬ m.IsOpen o [] := by
    rintro m ⟨⟨q,-,hq⟩,-⟩
    simp at hq
  refine ⟨?_,?_,?_⟩
  · intro m _
    have hemp : m.id ∉ (∅ : Table UInt64 Pending) := Finmap.notMem_empty
    simp [hcls m,hemp]
  · intro id pending h
    simp at h
  · exact (pendingPayload_eq_zero fun m _ => hcls m).symm

section Order

variable {fed : List Bytes} (hfed : fed.Perm (messages.flatMap (Message.packets o)))
  (hlimits : WithinLimits o messages fed)

include hs hfed hlimits

omit hlimits in
theorem notMem_of_fed (hat : fed = before++p::after) : p ∉ before := by
  have hnd := hfed.nodup_iff.mpr (flatMap_packets_nodup hs)
  rw [hat] at hnd
  intro hin
  exact (nodup_append.mp hnd).2.2 p hin p (by simp) rfl

/-- The step taken at one position of the order. -/
theorem feed_at (hat : fed = before++p::after) (ht : Tracks o messages before r)
    (hm : m ∈ messages) (hp : p ∈ m.packets o) : (feed o r p).1 =
        .ok (if ∀ q ∈ m.packets o, q ∈ before++[p] then some m.bytes else none) ∧
      Tracks o messages (before++[p]) (feed o r p).2 := by
  have hnew : p ∉ before := notMem_of_fed hs hfed hat
  apply feed_step hs ht hm hp hnew
  · exact hlimits.open_le (before++[p]) after (by rw [hat]; simp)
  · exact hlimits.held_le before p after hat m hm hp

omit hs hlimits in
theorem exists_message (hat : fed = before++p::after) : ∃ m ∈ messages, p ∈ m.packets o := by
  have hmem : p ∈ fed := by rw [hat]; simp
  exact mem_flatMap.mp (hfed.mem_iff.mp hmem)

theorem tracks_fedState (hat : fed = before++after) :
    Tracks o messages before (fedState o before) := by
  induction before using List.reverseRecOn generalizing after with
  | nil => exact tracks_nil
  | append_singleton before p ih =>
    have hat' : fed = before++p::after := by rw [hat]; simp
    obtain ⟨m,hm,hp⟩ := exists_message hfed hat'
    have hstep := feed_at hs hfed hlimits hat' (ih hat') hm hp
    rw [fedState,Runs.after_append]
    exact hstep.2

/-- What comes out of the rest of an order: the messages unfinished before it. -/
theorem returned_rest (hat : fed = before++after) :
    ((Runs.answers (feed o) (fedState o before) after).filterMap returned).Perm
      ((unfinished o messages before).map Message.bytes) := by
  induction after generalizing before with
  | nil =>
    have hall : unfinished o messages before = [] := by
      simp only [unfinished,filter_eq_nil_iff,decide_eq_true_eq,not_exists,not_and]
      intro m hm q hq
      have hmem : q ∈ fed := hfed.mem_iff.mpr (mem_flatMap.mpr ⟨m,hm,hq⟩)
      simpa [hat] using hmem
    simp [hall,Runs.answers]
  | cons p after ih =>
    obtain ⟨m,hm,hp⟩ := exists_message hfed hat
    have ht := tracks_fedState hs hfed hlimits hat
    obtain ⟨hans,-⟩ := feed_at hs hfed hlimits hat ht hm hp
    have hnew : p ∉ before := notMem_of_fed hs hfed hat
    have hrest := @ih (before++[p]) (by rw [hat]; simp)
    rw [fedState,Runs.after_append] at hrest
    rw [Runs.answers,hans]
    have hoth : ∀ n ∈ messages, n ≠ m →
        ((∃ q ∈ n.packets o, q ∉ before) ↔ ∃ q ∈ n.packets o, q ∉ before++[p]) := by
      intro n hn hnm
      have hpn : p ∉ n.packets o := fun hpn => hnm (packets_disjoint hs hn hm hpn hp)
      exact exists_congr fun q => and_congr_right fun hq => not_congr (mem_concat_iff hpn hq).symm
    split_ifs with hall
    · have hperm : (unfinished o messages before).Perm
          (m::unfinished o messages (before++[p])) := by
        apply filter_perm_cons (Nodup.of_map _ hs.ids) hm _ ⟨p,hp,hnew⟩ hoth
        rintro ⟨q,hq,hout⟩
        exact hout (hall q hq)
      exact (hrest.cons m.bytes).trans (hperm.map Message.bytes).symm
    · have hsame : unfinished o messages before = unfinished o messages (before++[p]) := by
        apply filter_congr
        intro n hn
        by_cases hnm : n = m
        · subst hnm
          have hunfed : ∃ q ∈ n.packets o, q ∉ before++[p] := by
            simpa only [not_forall,exists_prop] using hall
          simp only [hunfed,decide_true,decide_eq_true_eq]
          exact ⟨p,hp,hnew⟩
        · simp [hoth n hn hnm]
      rw [hsame]
      exact hrest

omit hs hfed hlimits in
/-- Nothing is pending once every packet has been fed. -/
theorem Tracks.eq_empty (ht : Tracks o messages fed r)
    (hall : ∀ m ∈ messages, ∀ q ∈ m.packets o, q ∈ fed) : r = {} := by
  have hcls : ∀ m ∈ messages, ¬ m.IsOpen o fed := fun m hm hopen =>
    hopen.2.elim fun q hq => hq.2 (hall m hm q hq.1)
  have hpend : r.pending = ∅ := by
    apply Finmap.ext_lookup
    intro id
    cases hlook : r.pending.lookup id with
    | none => rfl
    | some pending =>
      obtain ⟨m,hm,-,hopen,-⟩ := ht.kept id pending hlook
      exact absurd hopen (hcls m hm)
  have hbytes : r.pendingBytes = 0 := by rw [ht.bytes,pendingPayload_eq_zero hcls]
  cases r
  simp_all

end Order

include hs in
theorem fedBytes_packets_le (hm : m ∈ messages) (before : List Bytes) :
    fedBytes (m.packets o) before ≤ m.bytes.length := by
  rcases packets_cases hs hm with h | ⟨h,hchk⟩
  · have hpay : payloadSize (serializeComplete m.bytes m.id) = m.bytes.length := by
      rw [payloadSize,parse_serializeComplete]
    rw [h,fedBytes,fedOf,filter_singleton]
    by_cases hin : serializeComplete m.bytes m.id ∈ before <;> simp [hin,hpay]
  · rw [h,← congrArg List.length hchk.join]
    exact fedBytes_le m.id hchk.length_lt before

include hs in
/-- Messages that are within the limits all together are so in every order. -/
theorem withinLimits_of_total {fed : List Bytes}
    (hfed : fed.Perm (messages.flatMap (Message.packets o)))
    (hcnt : messages.length ≤ o.maxPendingMessages)
    (htotal : (messages.map fun m => m.bytes.length).sum ≤ o.maxPendingBytes) :
    WithinLimits o messages fed := by
  refine ⟨hs.size,?_,?_⟩
  · intro before after _
    exact (length_filter_le _ _).trans hcnt
  · intro before p after hat m hm hp _
    have hnew : p ∉ before := notMem_of_fed hs hfed hat
    have hheld : pendingPayload o messages before ≤
        (messages.map fun n => fedBytes (n.packets o) before).sum := by
      apply sum_le_sum
      intro n _
      unfold Message.heldBytes
      split_ifs <;> simp
    have hsum : (messages.map fun n => fedBytes (n.packets o) (before++[p])).sum+
        fedBytes (m.packets o) before =
        (messages.map fun n => fedBytes (n.packets o) before).sum+
          fedBytes (m.packets o) (before++[p]) := by
      apply sum_map_update (Nodup.of_map _ hs.ids) hm
      intro n hn hnm
      have hpn : p ∉ n.packets o := fun hpn =>
        hnm (packets_disjoint hs hn hm hpn hp)
      rw [fedBytes,fedOf_concat_of_notMem hpn,fedBytes]
    have hstep := fedBytes_concat (packets_nodup hs hm) hp hnew
    have hle : (messages.map fun n => fedBytes (n.packets o) (before++[p])).sum ≤
        (messages.map fun n => n.bytes.length).sum := by
      apply sum_le_sum
      intro n hn
      exact fedBytes_packets_le hs hn _
    omega

end Run

def exampleOptions : ByteChunkingOptions where
  packetSize := 18
  maxMessageSize := 16
  maxPendingMessages := 2
  maxPendingBytes := 32

/-- One message of four packets and one that fits a single packet. -/
def exampleMessages : List Message := [⟨7,[1,2,3,4,5,6,7,8,9,10,11,12]⟩,⟨8,[13,14]⟩]

end A11.ByteChunking
