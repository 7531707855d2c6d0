import A11.LocalInvariant
import A11.RedisChunkStore

/-! The keys of the Redis store and the state of the in-memory store that they stand for. -/
namespace A11.RedisChunkStore

open Decimal Finmap LocalChunkStore
open LocalChunkStore (State Consistent)

variable {cfg : Config}

/-- The encoder takes the payload, and what a clear leaves of it. -/
def EncodesPayload (codec : ChunkCodec) : Payload → Prop
  | .chunk c => ∃ b t, codec.chunkToMsgpack c = .ok b ∧ codec.chunkToMsgpack (tombstoneOf c) = .ok t
  | .nodeRef r => ∃ b, codec.nodeRefToMsgpack r = .ok b

/-- What the operation stores can be encoded. -/
def Storable (codec : ChunkCodec) : Op → Prop
  | .putMany fragments => ∀ f ∈ fragments, f.validate = .ok () → EncodesPayload codec f.data
  | .closeWritesWithStatus status _ => ∃ packed, codec.packStatus status = .ok packed
  | _ => True

/-- The decoders give the payload back, and what a clear leaves of it. -/
def ReadsBack (codec : ChunkCodec) : Payload → Prop
  | .chunk c => c.object = none ∧
      (∀ b, codec.chunkToMsgpack c = .ok b → codec.chunkFromMsgpack b = .ok c) ∧
      ∀ t, codec.chunkToMsgpack (tombstoneOf c) = .ok t → codec.chunkFromMsgpack t = .ok c.tombstone
  | .nodeRef r => ∀ b, codec.nodeRefToMsgpack r = .ok b → codec.nodeRefFromMsgpack b = .ok r

def StatusReadsBack (codec : ChunkCodec) (status : Status) : Prop :=
  ∀ b, codec.packStatus status = .ok b → codec.unpackStatus b = .ok status

/-- Everything in the store reads back. -/
structure Decodable (codec : ChunkCodec) (s : State) : Prop where
  chunks : ∀ seq q, s.chunks.lookup seq = some q → ReadsBack codec q
  status : ∀ status, s.status = some status → StatusReadsBack codec status

/-! ### Entries -/

/-- The stream entry stands for the payload. -/
inductive Holds (codec : ChunkCodec) (blobs : Table Text Bytes) (e : ChunkEntry) : Payload → Prop
  | inline (c : Chunk) (b t : Bytes) : e.storage = .inline → e.payload = some b →
      codec.chunkToMsgpack c = .ok b → e.tombstone = some t →
      codec.chunkToMsgpack (tombstoneOf c) = .ok t → Holds codec blobs e (.chunk c)
  | redis (c : Chunk) (b t : Bytes) : e.storage = .redis → e.ref = some e.seq →
      blobs.lookup e.seq = some b → codec.chunkToMsgpack c = .ok b → e.tombstone = some t →
      codec.chunkToMsgpack (tombstoneOf c) = .ok t → Holds codec blobs e (.chunk c)
  | tombstone (c : Chunk) (t : Bytes) : e.storage = .tombstone → e.payload = some t →
      codec.chunkToMsgpack (tombstoneOf c) = .ok t → c.tombstone = c → Holds codec blobs e (.chunk c)
  | nodeRef (r : NodeRef) (b : Bytes) : e.storage = .nodeRef → e.payload = some b →
      codec.nodeRefToMsgpack r = .ok b → Holds codec blobs e (.nodeRef r)

/-- An entry keeps its payload while its own blob is left alone. -/
theorem Holds.of_blobs {codec : ChunkCodec} {blobs blobs' : Table Text Bytes} {e : ChunkEntry}
    {q : Payload} (h : Holds codec blobs e q)
    (hsame : e.storage = .redis → blobs'.lookup e.seq = blobs.lookup e.seq) :
    Holds codec blobs' e q := by
  cases h with
  | inline c b t hs hb hc ht htc => exact .inline c b t hs hb hc ht htc
  | redis c b t hs href hb hc ht htc => exact .redis c b t hs href ((hsame hs).trans hb) hc ht htc
  | tombstone c t hs ht hc htc => exact .tombstone c t hs ht hc htc
  | nodeRef r b hs hb hr => exact .nodeRef r b hs hb hr

/-- The entry indexed under a sequence. -/
structure Indexed (db : Database) (seq : UInt32) (n id : ℕ) (e : ChunkEntry) : Prop where
  sequences : db.sequences.lookup (text seq.toNat) = some id
  stream : db.stream.lookup id = some (.chunk e)
  v : e.v = "1".toList
  seq : e.seq = text seq.toNat
  arrival : e.arrival = text n

theorem indexed_congr {db db' : Database} {seq : UInt32}
    (hseqs : db'.sequences.lookup (text seq.toNat) = db.sequences.lookup (text seq.toNat))
    (hstream : ∀ id (e : ChunkEntry), e.seq = text seq.toNat →
      (db'.stream.lookup id = some (.chunk e) ↔ db.stream.lookup id = some (.chunk e)))
    {n id : ℕ} {e : ChunkEntry} : Indexed db' seq n id e ↔ Indexed db seq n id e :=
  ⟨fun h => { h with
      sequences := hseqs.symm.trans h.sequences, stream := (hstream id e h.seq).mp h.stream },
    fun h => { h with
      sequences := hseqs.trans h.sequences, stream := (hstream id e h.seq).mpr h.stream }⟩

section Append

variable {db : Database} (hids : ∀ id ∈ db.stream, id ≤ db.lastGeneratedId)

include hids

theorem streamIds_fresh : db.lastGeneratedId+1 ∉ db.stream :=
  fun hmem => Nat.not_succ_le_self _ (hids _ hmem)

theorem streamIds_append (e : Entry) :
    ∀ id ∈ db.stream.set (db.lastGeneratedId+1) e, id ≤ db.lastGeneratedId+1 := by
  intro id hmem
  rcases (Table.mem_set _ _ _ _).mp hmem with rfl | hmem
  · exact le_rfl
  · exact (hids id hmem).trans (Nat.le_succ _)

theorem lookup_append_iff {e x : Entry} (hne : e ≠ x) (id : ℕ) :
    (db.stream.set (db.lastGeneratedId+1) e).lookup id = some x ↔ db.stream.lookup id = some x := by
  rw [Table.lookup_set]
  split_ifs with hid
  · subst hid
    exact iff_of_false (by simpa using hne)
      fun hx => streamIds_fresh hids (mem_of_lookup_eq_some hx)
  · rfl

end Append

/-! ### The relation -/

/-- The largest stored sequence. -/
def IsMax (s : State) : Option ℕ → Prop
  | none => ∀ seq, seq ∉ s.chunks
  | some m => (∃ seq ∈ s.chunks, seq.toNat = m) ∧ ∀ seq ∈ s.chunks, seq.toNat ≤ m

def flagText (b : Bool) : Text := if b then "1".toList else "0".toList

def metadataOf (s : State) (revision : ℕ) (maxSeq : Option ℕ) (status : Option Bytes) : Metadata where
  schema := "1".toList
  id := s.nodeId
  closed := flagText s.status.isSome
  size := text s.totalChunksPut
  putCount := text s.totalChunksPut
  nextCursor := text s.totalChunksRead
  revision := text revision
  finalSeq := s.finalSeq.map fun final => text final.toNat
  maxSeq := maxSeq.map text
  status := status

def StatusHeld (codec : ChunkCodec) : Option Status → Option Bytes → Prop
  | none, packed => packed = none
  | some status, packed => ∃ b, packed = some b ∧ codec.packStatus status = .ok b

/-- The metadata hash. The sequences in `cleared` have been cleared once, which bounds
the number of revisions. -/
structure Counted (codec : ChunkCodec) (s : State) (db : Database) (revision : ℕ)
    (maxSeq : Option ℕ) (cleared : Finset UInt32) : Prop where
  isMax : IsMax s maxSeq
  cleared_stored : ∀ seq ∈ cleared, seq ∈ s.chunks
  cleared_once : ∀ seq n id e, Indexed db seq n id e → e.storage ≠ .tombstone → seq ∉ cleared
  revision_le : revision ≤ s.totalChunksPut+cleared.card+(if s.status.isSome then 1 else 0)
  metadata : (db.metadata = none ∧ s.totalChunksPut = 0 ∧ s.status = none ∧
      db.lastGeneratedId = 0 ∧ revision = 0) ∨
    ∃ packed, db.metadata = some (metadataOf s revision maxSeq packed) ∧
      StatusHeld codec s.status packed

/-- The stream and the index hashes. -/
structure Indexes (cfg : Config) (s : State) (db : Database) : Prop where
  nodeId : s.nodeId = cfg.nodeId
  consistent : Consistent s
  entries : ∀ seq q, s.chunks.lookup seq = some q → ∃ n id e, Indexed db seq n id e ∧
    s.seqToArrivalOrder.lookup seq = some n ∧ Holds cfg.codec db.blobs e q
  sequences : ∀ t ∈ db.sequences, ∃ seq ∈ s.chunks, t = text seq.toNat
  arrivals : ∀ n seq, s.arrivalOrderToSeq.lookup n = some seq →
    db.arrivals.lookup (text n) = some (text seq.toNat)
  arrivalKeys : ∀ t ∈ db.arrivals, ∃ n < s.totalChunksPut, t = text n
  blobs : ∀ t ∈ db.blobs, t ∈ db.sequences
  sequencesSize : db.sequences.size = s.totalChunksPut
  arrivalsSize : db.arrivals.size = s.totalChunksPut
  streamSize : db.stream.size = s.totalChunksPut+(if s.status.isSome then 1 else 0)
  streamIds : ∀ id ∈ db.stream, id ≤ db.lastGeneratedId

structure Refines (cfg : Config) (s : State) (db : Database) : Prop extends Indexes cfg s db where
  counted : ∃ revision maxSeq cleared, Counted cfg.codec s db revision maxSeq cleared

theorem refines_empty (cfg : Config) : Refines cfg (State.empty cfg.nodeId) {} := by
  have hcnt : Counted cfg.codec (State.empty cfg.nodeId) {} 0 none ∅ := by
    constructor <;> simp [IsMax,State.empty,notMem_empty]
  refine ⟨⟨rfl,consistent_empty _,?_,?_,?_,?_,?_,?_,?_,?_,?_⟩,0,none,∅,hcnt⟩ <;>
    simp [State.empty,notMem_empty]

theorem flagText_valid (b : Bool) : ¬(flagText b ≠ "0".toList ∧ flagText b ≠ "1".toList) := by
  cases b <;> decide

variable {maxSeq : Option ℕ} {revision : ℕ} {cleared : Finset UInt32}

theorem Counted.card_le {s : State} {db : Database} (hs : Consistent s)
    (h : Counted cfg.codec s db revision maxSeq cleared) : cleared.card ≤ s.totalChunksPut := by
  rw [← hs.size]
  exact Finset.card_le_card fun seq hseq => mem_keys.mpr (h.cleared_stored seq hseq)

theorem IsMax.le {s : State} (hmax : IsMax s maxSeq) (m : ℕ) (hm : maxSeq = some m) :
    m ≤ A11.maxSeq := by
  subst hm
  obtain ⟨⟨seq,-,rfl⟩,-⟩ := hmax
  exact PutBatch.toNat_le_maxSeq seq

theorem text_ne {a b : UInt32} (h : a ≠ b) : text a.toNat ≠ text b.toNat :=
  fun heq => h (UInt32.toNat_inj.mp (text_injective heq))

theorem parseUint32_text (seq : UInt32) (field : String) :
    parseUint32 (text seq.toNat) field = .ok seq := by
  have hany : ((text seq.toNat).any fun c => !c.isDigit) = false := by
    simpa using fun c hc => isDigit_of_mem_text hc
  have hle := Nat.not_lt.mpr (PutBatch.toNat_le_maxSeq seq)
  rw [parseUint32,if_neg (text_ne_nil _),if_neg (by simpa [hany] using hle),parse_text,
    UInt32.ofNat_toNat]

namespace Indexes

variable {s : State} {db : Database} (h : Indexes cfg s db)

include h

theorem sequences_iff (seq : UInt32) : text seq.toNat ∈ db.sequences ↔ seq ∈ s.chunks := by
  constructor
  · intro hmem
    obtain ⟨_,_,htext⟩ := h.sequences _ hmem
    rwa [UInt32.toNat_inj.mp (text_injective htext)]
  · intro hmem
    obtain ⟨q,hq⟩ := mem_iff.mp hmem
    obtain ⟨n,_,e,hidx,-⟩ := h.entries seq q hq
    exact mem_of_lookup_eq_some hidx.sequences

variable {seq : UInt32}

theorem arrival_lt {n : ℕ} (hn : s.seqToArrivalOrder.lookup seq = some n) :
    n < s.totalChunksPut ∧ s.arrivalOrderToSeq.lookup n = some seq := by
  have harr := (h.consistent.inverse n seq).mpr hn
  exact ⟨(h.consistent.arrivals n).mp (mem_of_lookup_eq_some harr),harr⟩

theorem arrival_free {n : ℕ} (hn : s.totalChunksPut ≤ n) : text n ∉ db.arrivals := by
  intro hmem
  obtain ⟨m,_,htext⟩ := h.arrivalKeys _ hmem
  have hnm := text_injective htext
  omega

end Indexes

namespace Refines

variable {s : State} {db : Database} (h : Refines cfg s db)

include h

theorem chunks_of_empty (hemp : s.totalChunksPut = 0) (seq : UInt32) : seq ∉ s.chunks := by
  rw [← h.consistent.size,Table.size,Finset.card_eq_zero] at hemp
  simp [← mem_keys,hemp]

theorem untouched (hemp : s.totalChunksPut = 0) : s.totalChunksRead = 0 ∧ s.finalSeq = none := by
  have hle := totalChunksRead_le h.consistent
  refine ⟨by omega,?_⟩
  cases hfin : s.finalSeq with
  | none => rfl
  | some final => exact absurd (h.consistent.final final hfin).1 (h.chunks_of_empty hemp final)

theorem revision_le
    (hc : Counted cfg.codec s db revision maxSeq cleared) : revision ≤ maxRevision := by
  have hcard := hc.card_le h.consistent
  have hput := totalChunksPut_le h.consistent
  have hrev := hc.revision_le
  simp only [uint32Range,maxRevision] at *
  split_ifs at hrev <;> omega

theorem final_max (hmax : IsMax s maxSeq) {final : UInt32}
    (hfin : s.finalSeq = some final) : maxSeq = some final.toNat := by
  obtain ⟨hmem,hle⟩ := h.consistent.final final hfin
  cases maxSeq with
  | none => exact absurd hmem (hmax final)
  | some m =>
    obtain ⟨⟨seq,hseq,rfl⟩,hupper⟩ := hmax
    have hlow := hupper final hmem
    have hhigh := UInt32.le_iff_toNat_le.mp (hle seq hseq)
    rw [Option.some.injEq]
    omega

theorem max_eq_none (hmax : IsMax s maxSeq) : maxSeq = none ↔ s.totalChunksPut = 0 := by
  constructor
  · rintro rfl
    rw [← h.consistent.size,Table.size,Finset.card_eq_zero]
    exact Finset.eq_empty_of_forall_notMem fun seq hseq => hmax seq (mem_keys.mp hseq)
  · intro hemp
    cases maxSeq with
    | none => rfl
    | some m =>
      obtain ⟨⟨seq,hseq,-⟩,-⟩ := hmax
      exact absurd hseq (h.chunks_of_empty hemp seq)

theorem parse_eq (hc : Counted cfg.codec s db revision maxSeq cleared) (packed : Option Bytes) :
    parseMetadata (metadataOf s revision maxSeq packed) = some ⟨s.status.isSome,s.totalChunksPut,
      s.totalChunksPut,s.totalChunksRead,revision,s.finalSeq.map UInt32.toNat,maxSeq⟩ := by
  have hput : s.totalChunksPut ≤ maxCount := totalChunksPut_le h.consistent
  have hread := (totalChunksRead_le h.consistent).trans hput
  have hcount : ∀ n ≤ maxCount, canonicalUint (text n) maxCount maxCountText = some n :=
    fun n hn => canonicalUint_text hn
  have hrevision : canonicalUint (text revision) maxRevision maxRevisionText = some revision :=
    canonicalUint_text (h.revision_le hc)
  have hfinal : optionalUint (s.finalSeq.map fun final => text final.toNat) A11.maxSeq maxSeqText =
      some (s.finalSeq.map UInt32.toNat) := by
    cases s.finalSeq with
    | none => rfl
    | some final =>
      simp [optionalUint,maxSeqText_eq,canonicalUint_text (PutBatch.toNat_le_maxSeq final)]
  have hmax : optionalUint (maxSeq.map text) A11.maxSeq maxSeqText = some maxSeq := by
    cases hk : maxSeq with
    | none => rfl
    | some k => simp [optionalUint,maxSeqText_eq,canonicalUint_text (hc.isMax.le k hk)]
  have hclosed : (flagText s.status.isSome == "1".toList) = s.status.isSome := by
    cases s.status <;> rfl
  simp only [parseMetadata,metadataOf,hcount _ hput,hcount _ hread,hrevision,hfinal,hmax,
    Option.bind_eq_bind,Option.bind_some,ne_eq,not_true_eq_false,false_or,
    if_neg (flagText_valid _),hclosed]

/-- Every operation finds the keys in order. -/
theorem load_eq (hc : Counted cfg.codec s db revision maxSeq cleared) :
    loadMetadata cfg.nodeId db = .ok ⟨s.status.isSome,s.totalChunksPut,s.totalChunksPut,
      s.totalChunksRead,revision,s.finalSeq.map UInt32.toNat,maxSeq⟩ := by
  have hread := totalChunksRead_le h.consistent
  have hblobs := Table.size_le_of_mem h.blobs
  rw [h.sequencesSize] at hblobs
  obtain ⟨hmeta,hemp,hstat,hid,hrev⟩ | ⟨packed,hmeta,hheld⟩ := hc.metadata
  · have hmax := (h.max_eq_none hc.isMax).mpr hemp
    have hfin := (h.untouched hemp).2
    have hdata : noData db := by
      simp [noData,hid,h.sequencesSize,h.arrivalsSize,hemp]
      omega
    simp only [loadMetadata,hmeta,hdata,if_true,hemp,hstat,hrev,hmax,hfin]
    congr 2
    omega
  · have hid : (metadataOf s revision maxSeq packed).id = cfg.nodeId := h.nodeId
    have hcheck : checkCounters db (metadataOf s revision maxSeq packed) ⟨s.status.isSome,
        s.totalChunksPut,s.totalChunksPut,s.totalChunksRead,revision,
        s.finalSeq.map UInt32.toNat,maxSeq⟩ = .ok () := by
      have hmax := h.max_eq_none hc.isMax
      have hfin : s.finalSeq.map UInt32.toNat ≠ none → s.finalSeq.map UInt32.toNat = maxSeq := by
        cases hfin : s.finalSeq with
        | none => simp
        | some final => simp [h.final_max hc.isMax hfin]
      have hstat : packed.isSome = s.status.isSome := by
        cases hs : s.status with
        | none =>
          rw [hs] at hheld
          simp [show packed = none from hheld]
        | some status =>
          rw [hs] at hheld
          obtain ⟨b,rfl,-⟩ := hheld
          rfl
      have hpack : (metadataOf s revision maxSeq packed).status = packed := rfl
      rw [checkCounters,hpack,if_neg,if_neg,if_neg,if_neg,if_neg,if_neg]
      · simp [h.streamSize]
      · simpa using hblobs
      · simp [h.sequencesSize,h.arrivalsSize]
      · rintro (⟨hzero,hne⟩ | ⟨hpos,hnone⟩ | ⟨hsome,hne⟩)
        · exact hne (hmax.mpr hzero)
        · exact hpos.ne' (hmax.mp hnone)
        · exact hne (hfin hsome)
      · simpa using hread
      · simp [hstat]
      · rintro ⟨hcls,rfl⟩
        simp only at hcls
        simp [hcls] at hstat
    simp only [loadMetadata,hmeta,h.parse_eq hc packed,hid]
    simp [hcheck]

/-! ### Reading -/

theorem loadChunk_missing (hseq : seq ∉ s.chunks) : loadChunk db seq.toNat = .missing := by
  have hnone := lookup_eq_none.mpr (mt (h.sequences_iff seq).mp hseq)
  rw [loadChunk,hnone]

/-- The entry of a stored sequence is found, and its payload decodes to what is stored if that
reads back. -/
theorem loadChunk_item {q : Payload} (hq : s.chunks.lookup seq = some q) :
    ∃ n id e payload, Indexed db seq n id e ∧ s.seqToArrivalOrder.lookup seq = some n ∧
      Holds cfg.codec db.blobs e q ∧ loadChunk db seq.toNat = .item payload id (text n) e.storage ∧
      (ReadsBack cfg.codec q → ∀ t final,
        decodePayload cfg ⟨t,e.storage,payload,final⟩ = .ok q) := by
  obtain ⟨n,id,e,hidx,hn,hholds⟩ := h.entries seq q hq
  obtain ⟨_,harr⟩ := h.arrival_lt hn
  have hput := totalChunksPut_le h.consistent
  have hcan : canonicalUint e.arrival maxSeq maxSeqText = some n := by
    rw [hidx.arrival]
    exact canonicalUint_text (by simp only [uint32Range,maxSeq] at *; omega)
  have hlook : db.arrivals.lookup e.arrival = some (text seq.toNat) := by
    rw [hidx.arrival]
    exact h.arrivals n seq harr
  have hload : loadChunk db seq.toNat = loadPayload db (text seq.toNat) id e := by
    simp [loadChunk,hidx.sequences,hidx.stream,hidx.v,hidx.seq,hcan,hlook]
  rw [hload,loadPayload,hidx.arrival]
  have hfound := hholds
  cases hholds with
  | inline c b t hs hb hc =>
    refine ⟨n,id,e,b,hidx,hn,hfound,by simp [hs,hb],fun hq _ _ => ?_⟩
    simp [decodePayload,decodeChunkItem,hs,hq.2.1 b hc,Except.map]
  | redis c b t hs href hb hc =>
    rw [hidx.seq] at href hb
    refine ⟨n,id,e,b,hidx,hn,hfound,by simp [hs,href,hb],fun hq _ _ => ?_⟩
    simp [decodePayload,decodeChunkItem,hs,hq.2.1 b hc,Except.map]
  | tombstone c t hs ht hc htc =>
    refine ⟨n,id,e,t,hidx,hn,hfound,by simp [hs,ht],fun hq _ _ => ?_⟩
    have hfree : c.ref = tombstoneReference ∧ c.data = [] := by
      rw [← htc]
      exact ⟨rfl,rfl⟩
    have hback := hq.2.2 t hc
    rw [htc] at hback
    simp [decodePayload,decodeChunkItem,hs,hback,hfree,Except.map]
  | nodeRef r b hs hb hr =>
    refine ⟨n,id,e,b,hidx,hn,hfound,by simp [hs,hb],fun hq _ _ => ?_⟩
    simp [decodePayload,hs,hq b hr,Except.map]

theorem finalSeqText_eq :
    finalSeqText db = (s.finalSeq.map fun final => text final.toNat).getD [] := by
  obtain ⟨_,_,_,hc⟩ := h.counted
  obtain ⟨hmeta,hemp,-⟩ | ⟨_,hmeta,-⟩ := hc.metadata
  · simp [finalSeqText,hmeta,(h.untouched hemp).2]
  · simp [finalSeqText,hmeta,metadataOf]

theorem missingResult_open (hopen : s.status = none) : missingResult db = .wait := by
  obtain ⟨_,_,_,hc⟩ := h.counted
  obtain ⟨hmeta,-⟩ | ⟨_,hmeta,-⟩ := hc.metadata
  · rw [missingResult,hmeta]
  simp [missingResult,hmeta,metadataOf,hopen,flagText]

theorem missingResult_closed {status : Status} (hcls : s.status = some status) :
    ∃ b, missingResult db = .closed b ∧
      (StatusReadsBack cfg.codec status → decodeStoredStatus cfg b = .ok status) := by
  obtain ⟨_,_,_,hc⟩ := h.counted
  obtain ⟨-,-,hopen,-⟩ | ⟨_,hmeta,hheld⟩ := hc.metadata
  · simp [hopen] at hcls
  rw [hcls] at hheld
  obtain ⟨b,rfl,hpack⟩ := hheld
  exact ⟨b,by simp [missingResult,hmeta,metadataOf,hcls,flagText],
    fun hback => by simp [decodeStoredStatus,hback b hpack]⟩

theorem decodeItemFields_eq {q : Payload} (hq : s.chunks.lookup seq = some q) {storage : Storage}
    {payload : Bytes} (hpay : ∀ t final, decodePayload cfg ⟨t,storage,payload,final⟩ = .ok q) :
    decodeItemFields cfg ⟨text seq.toNat,storage,payload,finalSeqText db⟩ =
      .ok (fragmentAt s seq q) := by
  have hfin : parseOptionalSequence (finalSeqText db) = .ok s.finalSeq := by
    rw [h.finalSeqText_eq]
    cases s.finalSeq with
    | none => rfl
    | some final => simp [parseOptionalSequence,text_ne_nil,parseUint32_text,Except.map]
  have hbelow : (s.finalSeq.any fun final => final < seq) = false := by
    cases hf : s.finalSeq with
    | none => rfl
    | some final =>
      have hle := (h.consistent.final final hf).2 seq (mem_of_lookup_eq_some hq)
      simpa using hle
  simp [decodeItemFields,parseUint32_text,hfin,hbelow,hpay,fragmentAt,continued,h.nodeId]

end Refines

end A11.RedisChunkStore
