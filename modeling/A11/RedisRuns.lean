import A11.LocalNext
import A11.RedisNext
import A11.WireMsgpackRoundTrip

/-! Runs of the Redis store next to the in-memory store. -/
namespace A11.RedisChunkStore

open Decimal Finmap Table Option LocalChunkStore
open LocalChunkStore (State Consistent Commits)

variable {cfg : Config}

/-! ### Clears -/

section Clear

variable (db : Database) (t arrival : Text) (storage : Storage) (id : ℕ) (tombstone : Bytes)

def tombstoneEntry : ChunkEntry :=
  { v := "1".toList, seq := t, arrival := arrival, storage := .tombstone,
    payload := some tombstone, tombstone := some tombstone }

theorem clearEntry_stream : (clearEntry db t arrival storage id tombstone).stream =
    erase id (db.stream.set (db.lastGeneratedId+1)
      (.chunk (tombstoneEntry t arrival tombstone))) := rfl

theorem clearEntry_sequences : (clearEntry db t arrival storage id tombstone).sequences =
    db.sequences.set t (db.lastGeneratedId+1) := rfl

theorem clearEntry_blobs : (clearEntry db t arrival storage id tombstone).blobs =
    if storage = .redis then db.blobs.erase t else db.blobs := rfl

end Clear

section Clear

variable {db : Database} {seq : UInt32} {n id : ℕ} {e : ChunkEntry}
  (hindexed : Indexed db seq n id e)
  (hids : ∀ id ∈ db.stream, id ≤ db.lastGeneratedId) (tombstone : Bytes)

include hindexed hids

theorem indexed_clearEntry_self : Indexed
    (clearEntry db (text seq.toNat) (text n) e.storage id tombstone) seq n (db.lastGeneratedId+1)
      (tombstoneEntry (text seq.toNat) (text n) tombstone) := by
  have hid := hids id (mem_of_lookup_eq_some hindexed.stream)
  refine ⟨by rw [clearEntry_sequences,Table.lookup_set,if_pos rfl],?_,rfl,rfl,rfl⟩
  rw [clearEntry_stream,Table.lookup_erase,if_neg (by omega),Table.lookup_set,if_pos rfl]

theorem indexed_clearEntry_of_ne {a : UInt32} (hne : a ≠ seq) {n' id' : ℕ} {e' : ChunkEntry} :
    Indexed (clearEntry db (text seq.toNat) (text n) e.storage id tombstone) a n' id' e' ↔
      Indexed db a n' id' e' := by
  refine indexed_congr ?_ fun id' e' he' => ?_
  · rw [clearEntry_sequences,lookup_set,if_neg (text_ne hne)]
  rw [clearEntry_stream,Table.lookup_erase]
  split_ifs with hold
  · subst hold
    refine iff_of_false (by simp) fun hstr => ?_
    obtain rfl := Entry.chunk.inj (some.inj (hindexed.stream.symm.trans hstr))
    exact text_ne hne (he'.symm.trans hindexed.seq)
  · refine lookup_append_iff hids (fun heq => ?_) id'
    rw [← Entry.chunk.inj heq] at he'
    exact text_ne hne he'.symm

theorem clearEntry_storage {n' id' : ℕ} {e' : ChunkEntry} (h : Indexed
    (clearEntry db (text seq.toNat) (text n) e.storage id tombstone) seq n' id' e') :
    e'.storage = .tombstone := by
  have hself := indexed_clearEntry_self hindexed hids tombstone
  obtain rfl := some.inj (h.sequences.symm.trans hself.sequences)
  obtain rfl := Entry.chunk.inj (some.inj (h.stream.symm.trans hself.stream))
  rfl

end Clear

variable {db : Database} {s : State}

/-- The keys after a clear stand for the store with the chunk's tombstone. -/
theorem Indexes.clearEntry (h : Indexes cfg s db) {seq : UInt32}
    {c : Chunk} (hc : s.chunks.lookup seq = some (.chunk c)) {n id : ℕ} {e : ChunkEntry}
    (hindexed : Indexed db seq n id e) (hn : s.seqToArrivalOrder.lookup seq = some n)
    {tombstone : Bytes} (htomb : cfg.codec.chunkToMsgpack (tombstoneOf c) = .ok tombstone) :
    Indexes cfg { s with chunks := s.chunks.set seq (.chunk c.tombstone) }
      (clearEntry db (text seq.toNat) (text n) e.storage id tombstone) := by
  have hseq : seq ∈ s.chunks := mem_of_lookup_eq_some hc
  have hstor : text seq.toNat ∈ db.sequences := (h.sequences_iff seq).mpr hseq
  have hid : id ∈ db.stream := mem_of_lookup_eq_some hindexed.stream
  have hkeys : ∀ t, t ∈ db.sequences.set (text seq.toNat) (db.lastGeneratedId+1) ↔ t ∈ db.sequences :=
    mem_set_of_mem _ _ hstor
  refine ⟨h.nodeId,consistent_set h.consistent hseq,?_,?_,h.arrivals,h.arrivalKeys,
    ?_,?_,h.arrivalsSize,?_,?_⟩
  · intro a q hq
    rw [lookup_set] at hq
    split_ifs at hq with ha
    · subst ha
      obtain rfl := some.inj hq
      exact ⟨n,_,_,indexed_clearEntry_self hindexed h.streamIds tombstone,hn,
        .tombstone _ tombstone rfl rfl htomb rfl⟩
    obtain ⟨n',id',e',hidx',hn',hholds⟩ := h.entries a q hq
    refine ⟨n',id',e',(indexed_clearEntry_of_ne hindexed h.streamIds tombstone ha).mpr hidx',hn',
      hholds.of_blobs fun _ => ?_⟩
    rw [clearEntry_blobs,hidx'.seq]
    split_ifs
    · rw [Table.lookup_erase,if_neg (text_ne ha)]
    · rfl
  · intro t ht
    rw [clearEntry_sequences,hkeys] at ht
    obtain ⟨a,ha,rfl⟩ := h.sequences t ht
    exact ⟨a,(mem_set_of_mem _ _ hseq a).mpr ha,rfl⟩
  · intro t ht
    rw [clearEntry_sequences,hkeys]
    rw [clearEntry_blobs] at ht
    split_ifs at ht
    · exact h.blobs t (mem_erase.mp ht).2
    · exact h.blobs t ht
  · rw [clearEntry_sequences,size_set_of_mem _ _ hstor,h.sequencesSize]
  · have herase := size_erase_of_mem (db.stream.set (db.lastGeneratedId+1)
      (.chunk (tombstoneEntry (text seq.toNat) (text n) tombstone)))
      ((mem_set _ _ _ _).mpr (.inr hid))
    have hsize := h.streamSize
    rw [size_set_of_notMem _ _ (streamIds_fresh h.streamIds)] at herase
    rw [clearEntry_stream]
    simp only at *
    omega
  · intro id' hmem
    rw [clearEntry_stream,mem_erase] at hmem
    exact streamIds_append h.streamIds _ id' hmem.2

namespace Refines

variable {s : State} {db : Database} (h : Refines cfg s db)

include h

/-- The script's change of a live chunk. -/
theorem clear {seq : UInt32} {c : Chunk} (hc : s.chunks.lookup seq = some (.chunk c)) {n id : ℕ}
    {e : ChunkEntry} (hindexed : Indexed db seq n id e)
    (hn : s.seqToArrivalOrder.lookup seq = some n) (hlive : e.storage ≠ .tombstone)
    {tombstone : Bytes} (htomb : cfg.codec.chunkToMsgpack (tombstoneOf c) = .ok tombstone)
    {revision : ℕ} {maxSeq : Option ℕ} {cleared : Finset UInt32}
    (hcnt : Counted cfg.codec s db revision maxSeq cleared) :
    revision < maxRevision ∧
      Refines cfg { s with chunks := s.chunks.set seq (.chunk c.tombstone) } (publishChange
        (clearEntry db (text seq.toNat) (text n) e.storage id tombstone)) := by
  have hseq : seq ∈ s.chunks := mem_of_lookup_eq_some hc
  have hnew : seq ∉ cleared := hcnt.cleared_once seq n id e hindexed hlive
  have hstor : ∀ a ∈ insert seq cleared, a ∈ s.chunks := by
    intro a ha
    rcases Finset.mem_insert.mp ha with rfl | ha
    · exact hseq
    · exact hcnt.cleared_stored a ha
  have hcard : cleared.card+1 ≤ s.totalChunksPut := by
    rw [← Finset.card_insert_of_notMem hnew,← h.consistent.size]
    exact Finset.card_le_card fun a ha => mem_keys.mpr (hstor a ha)
  have hput := totalChunksPut_le h.consistent
  have hrev := hcnt.revision_le
  have hmem : ∀ a, a ∈ s.chunks.set seq (.chunk c.tombstone) ↔ a ∈ s.chunks :=
    mem_set_of_mem _ _ hseq
  refine ⟨?_,(h.toIndexes.clearEntry hc hindexed hn htomb).withMetadata _,revision+1,maxSeq,
    insert seq cleared,?_,?_,?_,?_,?_⟩
  · simp only [uint32Range,maxRevision] at *
    split_ifs at hrev <;> omega
  · have hmax := hcnt.isMax
    cases maxSeq <;> simpa only [IsMax,hmem] using hmax
  · exact fun a ha => (hmem a).mpr (hstor a ha)
  · intro a n' id' e' hidx' hlive' ha
    rw [publishChange,updateMeta,indexed_metadata] at hidx'
    by_cases hne : a = seq
    · subst hne
      exact hlive' (clearEntry_storage hindexed h.streamIds tombstone hidx')
    · refine hcnt.cleared_once a n' id' e' ?_ hlive' ((Finset.mem_insert.mp ha).resolve_left hne)
      exact (indexed_clearEntry_of_ne hindexed h.streamIds tombstone hne).mp hidx'
  · rw [Finset.card_insert_of_notMem hnew]
    simp only at *
    omega
  · obtain ⟨-,_,-⟩ | ⟨packed,hmeta,hheld⟩ := hcnt.metadata
    · omega
    refine .inr ⟨packed,?_,hheld⟩
    change db.metadata.map _ = _
    rw [hmeta]
    simp [metadataOf,increment_text]

/-- A clear changes both stores alike. -/
theorem clearData (seq : UInt32) :
    Refines cfg (LocalChunkStore.clearData s seq).2 (clearData cfg db seq).2 := by
  obtain ⟨revision,_,_,hcounted⟩ := h.counted
  obtain ⟨l,hload,hl⟩ : ∃ l, loadMetadata cfg.nodeId db = .ok l ∧ l.revision = revision :=
    ⟨_,h.load_eq hcounted,rfl⟩
  have hcanonical : canonicalUint (text seq.toNat) A11.maxSeq maxSeqText = some seq.toNat :=
    canonicalUint_text (PutBatch.toNat_le_maxSeq seq)
  cases hlookup : s.chunks.lookup seq with
  | none =>
    have hmissing := h.loadChunk_missing (lookup_eq_none.mp hlookup)
    simp only [RedisChunkStore.clearData,clearScript,hload,hcanonical,hmissing,
      LocalChunkStore.clearData,hlookup]
    exact h
  | some q =>
    obtain ⟨n,id,e,payload,hindexed,hn,hholds,hchunk,-⟩ := h.loadChunk_item hlookup
    cases hholds with
    | inline c b t hs hb hc ht htc | redis c b t hs href hb hc ht htc =>
      have htombstone : e.storage ≠ .tombstone := by simp [hs]
      have hnodeRef : e.storage ≠ .nodeRef := by simp [hs]
      obtain ⟨hlt,hrefines⟩ := h.clear hlookup hindexed hn htombstone htc hcounted
      have hpublish : canPublishChange l = .ok () := canPublish (hl ▸ hlt)
      simpa only [RedisChunkStore.clearData,clearScript,hload,ok_bind,hcanonical,hchunk,
        if_neg htombstone,if_neg hnodeRef,hindexed.stream,ht,hpublish,LocalChunkStore.clearData,
        hlookup] using hrefines
    | tombstone c t hs ht hc htc =>
      -- nothing is left to clear, and the in-memory store writes the tombstone again
      have hsame : s.chunks.set seq (.chunk c.tombstone) = s.chunks := by
        rw [htc]
        exact set_of_lookup hlookup
      simpa only [RedisChunkStore.clearData,clearScript,hload,ok_bind,hcanonical,hchunk,if_pos hs,
        LocalChunkStore.clearData,hlookup,hsame] using h
    | nodeRef r b hs hb hr =>
      simpa [RedisChunkStore.clearData,clearScript,hload,hcanonical,hchunk,hs,
        LocalChunkStore.clearData,hlookup] using h

end Refines

/-! ### Closing -/

theorem indexed_control (hids : ∀ id ∈ db.stream, id ≤ db.lastGeneratedId)
    (v revision : Text) {seq : UInt32} {n id : ℕ} {e : ChunkEntry} :
    Indexed (appendEntry db (.control v revision)) seq n id e ↔ Indexed db seq n id e :=
  indexed_congr (by rfl) fun id _ _ => lookup_append_iff hids (e := .control v revision) (by simp) id

theorem Indexes.close (h : Indexes cfg s db) (hopen : s.status = none)
    (status : Status) (v revision : Text) :
    Indexes cfg { s with status := some status } (appendEntry db (.control v revision)) := by
  have hs := h.consistent
  refine { h with
      consistent := { hs with }, entries := ?_,
      streamSize := ?_, streamIds := ?_ }
  · intro seq q hq
    obtain ⟨n,id,e,hindexed,hn,hholds⟩ := h.entries seq q hq
    exact ⟨n,id,e,(indexed_control h.streamIds v revision).mpr hindexed,hn,hholds⟩
  · have hsize := h.streamSize
    rw [hopen] at hsize
    change Table.size (db.stream.set _ _) = _
    rw [Table.size_set_of_notMem _ _ (streamIds_fresh h.streamIds),hsize]
    rfl
  · exact streamIds_append h.streamIds _

theorem Refines.closeWritesWithStatus (h : Refines cfg s db) {status : Status} {flag : Bool}
    (hstorable : Storable cfg.codec (.closeWritesWithStatus status flag)) :
    Refines cfg (LocalChunkStore.closeWritesWithStatus s status flag).2
      (closeWritesWithStatus cfg db status flag).2 := by
  obtain ⟨packed,hpack⟩ := hstorable
  obtain ⟨revision,maxSeq,cleared,hc⟩ := h.counted
  have hload := h.load_eq hc
  cases hstatus : s.status with
  | some closed =>
    have hclosed : (LocalChunkStore.closeWritesWithStatus s status flag).2 = s := by
      cases flag <;> simp [LocalChunkStore.closeWritesWithStatus,hstatus]
    rw [hclosed]
    obtain ⟨-,-,hopen,-⟩ | ⟨stored,hmeta,hheld⟩ := hc.metadata
    · simp [hopen] at hstatus
    rw [hstatus] at hheld
    obtain ⟨b,rfl,-⟩ := hheld
    have hfound : (db.metadata.bind fun m => m.status) = some b := by rw [hmeta]; rfl
    cases flag <;>
      simpa [RedisChunkStore.closeWritesWithStatus,hpack,closeScript,hload,hstatus,hfound] using h
  | none =>
    have hrevision := hc.revision_le
    obtain ⟨stored,hmeta,-⟩ := h.ensureMeta_eq hc
    have hpublish : canPublishChange ⟨s.status.isSome,s.totalChunksPut,s.totalChunksPut,
        s.totalChunksRead,revision,s.finalSeq.map UInt32.toNat,maxSeq⟩ = .ok () := by
      have hcard := hc.card_le h.consistent
      have hput := LocalChunkStore.totalChunksPut_le h.consistent
      refine canPublish ?_
      simp only [uint32Range,maxRevision,hstatus,isSome_none,Bool.false_eq_true,if_false] at *
      omega
    have hresult : (RedisChunkStore.closeWritesWithStatus cfg db status flag).2 = publishChange
        (updateMeta (ensureMeta cfg.nodeId
          (appendEntry db (.control "1".toList (text (revision+1))))) fun m =>
            { m with closed := "1".toList, status := some packed }) := by
      rw [hstatus] at hload hpublish
      simp only [RedisChunkStore.closeWritesWithStatus,hpack,closeScript,hload,ok_bind,
        isSome_none] at hpublish ⊢
      simp [hpublish]
    simp only [hresult,LocalChunkStore.closeWritesWithStatus,hstatus]
    refine ⟨(h.toIndexes.close hstatus status _ _).withMetadata _,revision+1,maxSeq,cleared,
      ?_,hc.cleared_stored,?_,?_,.inr ⟨some packed,?_,packed,rfl,hpack⟩⟩
    · cases maxSeq <;> exact hc.isMax
    · intro seq n id e hindexed
      rw [publishChange,updateMeta,updateMeta,ensureMeta,indexed_metadata,indexed_metadata,
        indexed_metadata,indexed_control h.streamIds] at hindexed
      exact hc.cleared_once seq n id e hindexed
    · simp only [hstatus,isSome_none,isSome_some,Bool.false_eq_true,if_false,if_true] at hrevision ⊢
      omega
    · have hold : db.metadata.getD (freshMetadata cfg.nodeId) = metadataOf s revision maxSeq stored :=
        some.inj (congrArg Database.metadata hmeta)
      change some { db.metadata.getD (freshMetadata cfg.nodeId) with
        closed := "1".toList, status := some packed,
        revision := increment (db.metadata.getD (freshMetadata cfg.nodeId)).revision 1 } = _
      rw [hold]
      simp only [metadataOf,increment_text]
      rfl

/-! ### Runs -/

/-- The operation stays within one command of the script. -/
def Fits : Op → Prop
  | .putMany fragments => fragments.length ≤ maxFragments
  | .next limit => limit ≤ maximumLuaNextBatch
  | _ => True

/-- What the operation stores reads back. -/
def Kept (codec : ChunkCodec) : Op → Prop
  | .putMany fragments => ∀ f ∈ fragments, f.validate = .ok () → ReadsBack codec f.data
  | .closeWritesWithStatus status _ => StatusReadsBack codec status
  | _ => True

theorem Decodable.exec {codec : ChunkCodec} (h : Decodable codec s) {op : Op} (hop : Kept codec op) :
    Decodable codec (LocalChunkStore.exec s op).2 := by
  cases op with
  | putMany fragments =>
    obtain ⟨status,herr⟩ | ⟨p,hp,hok⟩ := LocalChunkStore.putMany_cases s fragments
    · simpa only [LocalChunkStore.exec,herr] using h
    simp only [LocalChunkStore.exec,hok]
    refine ⟨fun seq q hq => ?_,h.status⟩
    rcases (hp.lookup_chunks seq q).mp hq with hold | hnew
    · exact h.chunks seq q hold
    obtain ⟨_,hscan,-⟩ := hp.accepts
    obtain ⟨f,hf,rfl⟩ := List.mem_map.mp (List.of_mem_zip hnew).2
    exact hop f hf ((PutBatch.scan_eq_ok.mp hscan).2.1 f hf)
  | clearData seq =>
    simp only [LocalChunkStore.exec,LocalChunkStore.clearData]
    split
    · exact h
    · exact h
    · next c hc =>
      refine ⟨fun a q hq => ?_,h.status⟩
      rw [lookup_set] at hq
      split_ifs at hq with ha
      · obtain rfl := some.inj hq
        obtain ⟨hobj,-,htomb⟩ := h.chunks seq _ hc
        have hsame : c.tombstone = tombstoneOf c := by simp [Chunk.tombstone,tombstoneOf,hobj]
        exact ⟨hobj,by simpa only [hsame] using htomb,htomb⟩
      · exact h.chunks a q hq
  | closeWritesWithStatus status flag =>
    simp only [LocalChunkStore.exec,LocalChunkStore.closeWritesWithStatus]
    split
    · split_ifs <;> exact h
    · exact ⟨h.chunks,by rintro _ ⟨⟩; exact hop⟩
  | get | getByArrivalOrder | getSeqForArrivalOrder | getFinalSeq | size => exact h
  | next limit =>
    obtain ⟨items,-,hstate,-⟩ := LocalChunkStore.collectNext_spec s limit []
    rcases Nat.eq_zero_or_pos limit with rfl | hpos
    · exact h
    · simp only [LocalChunkStore.exec,local_next_eq s hpos.ne',hstate]
      exact ⟨h.chunks,h.status⟩

theorem Refines.exec (h : Refines cfg s db) {op : Op} (hstor : Storable cfg.codec op)
    (hfits : Fits op) (hback : ∀ limit, op = .next limit → Decodable cfg.codec s) :
    Refines cfg (LocalChunkStore.exec s op).2 (exec cfg db op).2 := by
  cases op with
  | putMany fragments =>
    obtain ⟨status,status',hredis,hloc⟩ | ⟨seqs,db',s',hredis,hloc,href⟩ :=
      h.putMany_cases hstor hfits
    · simpa only [RedisChunkStore.exec,LocalChunkStore.exec,hredis,hloc] using h
    · simpa only [RedisChunkStore.exec,LocalChunkStore.exec,hredis,hloc] using href
  | clearData seq => exact h.clearData seq
  | closeWritesWithStatus status flag => exact h.closeWritesWithStatus hstor
  | get | getByArrivalOrder | getSeqForArrivalOrder | getFinalSeq | size => exact h
  | next limit =>
    rcases Nat.eq_zero_or_pos limit with rfl | hpos
    · exact h
    · exact (h.next_agrees (hback limit rfl) hpos hfits).2

def localAfter (nodeId : Bytes) (ops : List Op) : State :=
  Runs.after (fun s op => (LocalChunkStore.exec s op).2) (State.empty nodeId) ops

def redisAfter (cfg : Config) (ops : List Op) : Database :=
  Runs.after (fun db op => (exec cfg db op).2) {} ops

/-- A run in which a call of `Next` only meets what reads back. -/
theorem refines_after {P : State → Prop} {Q : Op → Prop} (ops : List Op) (hstart : P (State.empty cfg.nodeId))
    (hstep : ∀ s op, P s → Q op → P (LocalChunkStore.exec s op).2)
    (hback : ∀ s limit, P s → Q (.next limit) → Decodable cfg.codec s)
    (hops : ∀ op ∈ ops, Storable cfg.codec op ∧ Fits op ∧ Q op) :
    Refines cfg (localAfter cfg.nodeId ops) (redisAfter cfg ops) ∧ P (localAfter cfg.nodeId ops) := by
  have hone : ∀ (s : State) (db : Database) (op : Op), Refines cfg s db ∧ P s →
      Storable cfg.codec op ∧ Fits op ∧ Q op → True ∧
        Refines cfg (LocalChunkStore.exec s op).2 (exec cfg db op).2 ∧
        P (LocalChunkStore.exec s op).2 :=
    fun s db op h hop => ⟨trivial,
      h.1.exec hop.1 hop.2.1 (by rintro limit rfl; exact hback s limit h.2 hop.2.2),
      hstep s op h.2 hop.2.2⟩
  exact (Runs.simulate (V := fun _ _ => True) hone ⟨refines_empty cfg,hstart⟩
    (Runs.along_of_forall hops)).2

/-- The two stores hold the same sequences under the same arrival orders. -/
structure SameContents (cfg : Config) (s : State) (db : Database) : Prop where
  stored : ∀ seq, text seq.toNat ∈ db.sequences ↔ seq ∈ s.chunks
  sequences : ∀ t ∈ db.sequences, ∃ seq : UInt32, t = text seq.toNat
  arrivals : ∀ n seq, db.arrivals.lookup (text n) = some (text seq.toNat) ↔
    s.arrivalOrderToSeq.lookup n = some seq
  finalSeq : getFinalSeq cfg db = .ok s.finalSeq
  size : size cfg db = .ok s.chunks.size

theorem Refines.sameContents (h : Refines cfg s db) :
    SameContents cfg s db := by
  obtain ⟨_,_,_,hc⟩ := h.counted
  have hload := h.load_eq hc
  refine ⟨h.sequences_iff,fun t ht => ?_,fun n seq => ⟨fun hn => ?_,h.arrivals n seq⟩,?_,?_⟩
  · obtain ⟨seq,-,rfl⟩ := h.sequences t ht
    exact ⟨seq,rfl⟩
  · obtain ⟨m,hm,htext⟩ := h.arrivalKeys _ (mem_of_lookup_eq_some hn)
    obtain rfl := text_injective htext
    obtain ⟨q,hq⟩ := mem_iff.mp ((h.consistent.arrivals n).mpr hm)
    have hseq := text_injective (some.inj ((h.arrivals n q hq).symm.trans hn))
    rw [hq,UInt32.toNat_inj.mp hseq]
  · simp only [getFinalSeq,finalScript,hload,h.finalSeqText_eq]
    cases s.finalSeq with
    | none => rfl
    | some final => simp [parseOptionalSequence,text_ne_nil,parseUint32_text,Except.map]
  · rw [h.consistent.size]
    simp only [RedisChunkStore.size,sizeScript,hload]
    obtain ⟨hmeta,hemp,-⟩ | ⟨_,hmeta,-⟩ := hc.metadata
    · rw [hmeta,hemp]
      rfl
    · simp [hmeta,metadataOf,parse_text]

/-- The operation is not a call of `Next`. -/
def Writes (op : Op) : Prop := ∀ limit, op ≠ .next limit

/-- After any run a batch is accepted by both stores, with the same sequences, or rejected
by both, which then stay as they are; either way the contents stay the same. -/
theorem put_agrees (cfg : Config) (ops : List Op)
    (hops : ∀ op ∈ ops, Storable cfg.codec op ∧ Fits op ∧ Writes op) (fragments : List NodeFragment)
    (hstorable : Storable cfg.codec (.putMany fragments)) (hfits : fragments.length ≤ maxFragments) :
    SameContents cfg (localAfter cfg.nodeId ops) (redisAfter cfg ops) ∧
    ((∃ seqs, (putMany cfg (redisAfter cfg ops) fragments).1 = .ok seqs ∧
        (LocalChunkStore.putMany (localAfter cfg.nodeId ops) fragments).1 = .ok seqs) ∨
      ∃ status status', putMany cfg (redisAfter cfg ops) fragments =
          (.error status,redisAfter cfg ops) ∧
        LocalChunkStore.putMany (localAfter cfg.nodeId ops) fragments =
          (.error status',localAfter cfg.nodeId ops)) ∧
    SameContents cfg (LocalChunkStore.putMany (localAfter cfg.nodeId ops) fragments).2
      (putMany cfg (redisAfter cfg ops) fragments).2 := by
  have h := (refines_after (P := fun _ => True) ops trivial (fun _ _ _ _ => trivial)
    (fun _ limit _ hwrites => absurd rfl (hwrites limit)) hops).1
  refine ⟨h.sameContents,?_,?_⟩
  · obtain ⟨status,status',hredis,hloc⟩ | ⟨seqs,_,_,hredis,hloc,-⟩ :=
      h.putMany_cases hstorable hfits
    · exact .inr ⟨status,status',hredis,hloc⟩
    · exact .inl ⟨seqs,by rw [hredis],by rw [hloc]⟩
  · have hput : Refines cfg (LocalChunkStore.exec _ (.putMany fragments)).2
      (exec cfg _ (.putMany fragments)).2 := h.exec hstorable hfits (by simp)
    exact hput.sameContents

/-! ### MessagePack -/

/-- The encodings of the records, with some encoding of statuses. -/
def msgpackCodec (packer : JsonPacker) (packStatus : Status → StatusOr Bytes)
    (unpackStatus : Bytes → StatusOr Status) : ChunkCodec where
  metadataToMsgpack m := do
    m.validate
    return m.toMsgpackInto
  metadataFromMsgpack := ChunkMetadata.fromMsgpack
  nodeRefToMsgpack r := do
    r.validate
    r.toMsgpackInto packer
  nodeRefFromMsgpack := NodeRef.fromMsgpack
  packStatus := packStatus
  unpackStatus := unpackStatus
  chunkToMsgpack c := do
    c.validate
    return c.toMsgpackInto
  chunkFromMsgpack := Chunk.fromMsgpack

section Msgpack

variable {packer : JsonPacker} {packStatus : Status → StatusOr Bytes}
  {unpackStatus : Bytes → StatusOr Status}

theorem tombstoneOf_valid {c : Chunk} (h : c.validate = .ok ()) :
    (tombstoneOf c).validate = .ok () := by
  have hmeta := Chunk.validate_metadata h
  unfold Chunk.validate
  cases hm : c.metadata with
  | none => simp [tombstoneOf,hm]
  | some m => simp [tombstoneOf,hm,hmeta m hm]

/-- What is valid can be encoded. -/
theorem encodesPayload_msgpack {q : Payload} (h : q.validate = .ok ()) :
    EncodesPayload (msgpackCodec packer packStatus unpackStatus) q := by
  cases q with
  | chunk c =>
    have hc : c.validate = .ok () := h
    exact ⟨_,_,by simp only [msgpackCodec,hc]; rfl,
      by simp only [msgpackCodec,tombstoneOf_valid hc]; rfl⟩
  | nodeRef r =>
    have hr : r.validate = .ok () := h
    exact ⟨r.record packer,by simp only [msgpackCodec,hr,NodeRef.toMsgpackInto_eq hr]; rfl⟩

/-- A payload that the format keeps: no in-process object, whole microseconds, and nothing
longer than a length in the format can say. -/
def Portable : Payload → Prop
  | .chunk c => c.object = none ∧ c.Within ∧
      ∀ m ∈ c.metadata, m.WholeMicros ∧ m.toMsgpackInto.length < lengthLimit
  | .nodeRef r => r.Within

theorem readsBack_msgpack {q : Payload} (h : q.validate = .ok ()) (hport : Portable q) :
    ReadsBack (msgpackCodec packer packStatus unpackStatus) q := by
  cases q with
  | chunk c =>
    have hc : c.validate = .ok () := h
    obtain ⟨hobj,hin,hmeta⟩ := hport
    have hin' : (tombstoneOf c).Within :=
      ⟨hin.metadata,by simp [tombstoneOf,tombstoneReference,lengthLimit],
        by simp [tombstoneOf,lengthLimit]⟩
    have hback := Chunk.fromMsgpack_toMsgpackInto hc hobj hin hmeta
    have htomb := Chunk.fromMsgpack_toMsgpackInto (tombstoneOf_valid hc) rfl hin' hmeta
    refine ⟨hobj,fun b hb => ?_,fun t ht => ?_⟩
    · simp only [msgpackCodec,hc] at hb
      obtain rfl := Except.ok.inj hb
      exact hback
    · simp only [msgpackCodec,tombstoneOf_valid hc] at ht
      obtain rfl := Except.ok.inj ht
      have hsame : c.tombstone = tombstoneOf c := by simp [Chunk.tombstone,tombstoneOf,hobj]
      rw [hsame]
      exact htomb
  | nodeRef r =>
    have hr : r.validate = .ok () := h
    intro b hb
    simp only [msgpackCodec,hr,NodeRef.toMsgpackInto_eq hr] at hb
    obtain rfl := Except.ok.inj hb
    exact NodeRef.fromMsgpack_record hr hport

end Msgpack

def exampleConfig : Config :=
  ⟨[110],2,msgpackCodec .shortest (fun _ => .ok []) fun _ => .ok .okStatus⟩

theorem storable_example (op : Op) : Storable exampleConfig.codec op := by
  cases op with
  | putMany fragments =>
    exact fun f _ hf => encodesPayload_msgpack (NodeFragment.validate_eq_ok hf)
  | closeWritesWithStatus => exact ⟨[],rfl⟩
  | _ => trivial

/-- A gap, a clear and then an implicit batch with a final fragment. -/
theorem put_agrees_gap :
    let ops : List Op := [.putMany [
      { data := .chunk { data := [1,2,3] }, seq := some 1, continued := true }],.clearData 1]
    let fragments : List NodeFragment := [{ data := .chunk { data := [4] }, continued := true },
      { data := .chunk { data := [5,6,7] } }]
    SameContents exampleConfig
      (LocalChunkStore.putMany (localAfter exampleConfig.nodeId ops) fragments).2
      (putMany exampleConfig (redisAfter exampleConfig ops) fragments).2 := by
  intro ops fragments
  refine (put_agrees exampleConfig ops (fun op hop => ⟨storable_example op,?_⟩) fragments
    (storable_example _) (by decide)).2.2
  simp only [ops,List.mem_cons,List.not_mem_nil,or_false] at hop
  rcases hop with rfl | rfl <;> simp [Fits,Writes,maxFragments]

/-- One command holds no more than `maxFragments` fragments, and the in-memory store has no
such limit. -/
theorem put_differs_above_maxFragments :
    let fragments : List NodeFragment := List.replicate (maxFragments+1) { continued := true }
    (putMany exampleConfig {} fragments).1 =
        .error (.resourceExhausted "Redis PutMany contains too many fragments") ∧
      (LocalChunkStore.putMany (State.empty exampleConfig.nodeId) fragments).1 =
        .ok ((List.range' 0 (maxFragments+1)).map UInt32.ofNat) := by
  intro fragments
  have hlen : fragments.length = maxFragments+1 := List.length_replicate
  have hmem : ∀ f ∈ fragments, f = { continued := true } := fun f hf => List.eq_of_mem_replicate hf
  have hcommits : Commits (State.empty exampleConfig.nodeId) fragments _ :=
    LocalChunkStore.commits_empty (by rw [← List.length_pos_iff,hlen]; exact Nat.succ_pos _)
      (fun f hf => by rw [hmem f hf]; rfl) (fun f hf => by rw [hmem f hf])
      (fun f hf => by rw [hmem f hf]) (by rw [hlen]; decide)
  refine ⟨by rw [putMany,if_pos (by omega)],?_⟩
  rw [LocalChunkStore.putMany_of_commits hcommits,hlen]

/-! ### The cursor -/

/-- Where the next page starts. -/
def cursorOf (db : Database) : ℕ := (db.metadata.map fun m => parse m.nextCursor).getD 0

theorem Refines.cursorOf_eq (h : Refines cfg s db) :
    cursorOf db = s.totalChunksRead := by
  obtain ⟨_,_,_,hc⟩ := h.counted
  obtain ⟨hmeta,_,-⟩ | ⟨_,hmeta,-⟩ := hc.metadata
  · have hle := totalChunksRead_le h.consistent
    rw [cursorOf,hmeta]
    change 0 = _
    omega
  · simp [cursorOf,hmeta,metadataOf,parse_text]

/-- What the operation stores comes back from its encoding. -/
def Lossless (codec : ChunkCodec) : Op → Prop
  | .putMany fragments => ∀ f ∈ fragments, f.validate = .ok () → Portable f.data
  | .closeWritesWithStatus status _ => ∃ packed,
      codec.packStatus status = .ok packed ∧ codec.unpackStatus packed = .ok status
  | _ => True

theorem Lossless.kept {packer : JsonPacker} {packStatus : Status → StatusOr Bytes}
    {unpackStatus : Bytes → StatusOr Status} {op : Op}
    (h : Lossless (msgpackCodec packer packStatus unpackStatus) op) :
    Storable (msgpackCodec packer packStatus unpackStatus) op ∧
      Kept (msgpackCodec packer packStatus unpackStatus) op := by
  cases op with
  | putMany fragments =>
    exact ⟨fun f _ hf => encodesPayload_msgpack (NodeFragment.validate_eq_ok hf),
      fun f hmem hf => readsBack_msgpack (NodeFragment.validate_eq_ok hf) (h f hmem hf)⟩
  | closeWritesWithStatus status flag =>
    obtain ⟨packed,hpack,hunpack⟩ := h
    refine ⟨⟨packed,hpack⟩,fun b hb => ?_⟩
    rwa [← Except.ok.inj (hpack.symm.trans hb)]
  | _ => exact ⟨trivial,trivial⟩

/-- After any run of operations that the encodings keep, a call within one page answers as the
in-memory store does and leaves the same cursor, except where a cleanly closed store has a gap
right behind a full page. -/
theorem next_agrees_iff (packer : JsonPacker) (packStatus : Status → StatusOr Bytes)
    (unpackStatus : Bytes → StatusOr Status) (nodeId : Bytes) (threshold : ℕ) (ops : List Op)
    (hops : ∀ op ∈ ops, Lossless (msgpackCodec packer packStatus unpackStatus) op ∧ Fits op)
    (limit : ℕ) (hpos : 0 < limit) (hpage : limit ≤ maximumLuaNextBatch) :
    let cfg : Config := ⟨nodeId,threshold,msgpackCodec packer packStatus unpackStatus⟩
    (Reply.Agrees (next cfg (redisAfter cfg ops) limit).1
        (LocalChunkStore.next (localAfter nodeId ops) limit).1 ∧
      cursorOf (next cfg (redisAfter cfg ops) limit).2 =
        (LocalChunkStore.next (localAfter nodeId ops) limit).2.totalChunksRead) ↔
      ¬GapAtLimit (localAfter nodeId ops) limit := by
  intro cfg
  have hstart : Decodable cfg.codec (State.empty cfg.nodeId) :=
    ⟨by simp [State.empty],by simp [State.empty]⟩
  have hlossless : ∀ op ∈ ops, Storable cfg.codec op ∧ Fits op ∧ Kept cfg.codec op :=
    fun op hop => ⟨(hops op hop).1.kept.1,(hops op hop).2,(hops op hop).1.kept.2⟩
  obtain ⟨h,hback⟩ := refines_after ops hstart (fun s op hs hop => hs.exec hop)
    (fun s limit hs _ => hs) hlossless
  obtain ⟨hagr,href⟩ := h.next_agrees hback hpos hpage
  rw [← hagr]
  exact and_iff_left href.cursorOf_eq

/-- Sequences 0 and 2 and a clean close: the page with sequence 0 has no sentinel. -/
theorem next_lacks_sentinel :
    let ops : List Op := [.putMany [{ seq := some 0, continued := true },
      { seq := some 2, continued := true }],.closeWritesWithStatus .okStatus false]
    (next exampleConfig (redisAfter exampleConfig ops) 1).1 =
        .now .fragments (.ok [some ⟨[110],.chunk {},some 0,true⟩]) ∧
      (LocalChunkStore.next (localAfter exampleConfig.nodeId ops) 1).1 =
        .now .fragments (.ok [some ⟨[110],.chunk {},some 0,true⟩,none]) := by
  decide

/-- The same calls on a store without the gap. -/
theorem next_agrees_iff_dense :
    let ops : List Op := [.putMany [{ seq := some 0, continued := true },
      { seq := some 1, continued := true }],.closeWritesWithStatus .okStatus false]
    Reply.Agrees (next exampleConfig (redisAfter exampleConfig ops) 1).1
      (LocalChunkStore.next (localAfter exampleConfig.nodeId ops) 1).1 := by
  intro ops
  refine ((next_agrees_iff .shortest _ _ [110] 2 ops (fun op hop => ?_) 1 (by decide) (by decide)).mpr
    fun hgap => hgap.gap ?_).1
  · simp only [ops,List.mem_cons,List.not_mem_nil,or_false] at hop
    rcases hop with rfl | rfl
    · refine ⟨?_,by simp [Fits,maxFragments]⟩
      have hempty : Portable (.chunk {}) :=
        ⟨rfl,⟨by simp,by simp [lengthLimit],by simp [lengthLimit]⟩,by simp⟩
      simpa [Lossless] using ⟨fun _ => hempty,fun _ => hempty⟩
    · exact ⟨⟨[],rfl,rfl⟩,trivial⟩
  · decide

end A11.RedisChunkStore
