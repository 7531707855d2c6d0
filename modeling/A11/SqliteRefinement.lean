import A11.LocalInvariant
import A11.SqliteChunkStore

/-! The SQLite store refines the in-memory store: executed one after another, the same
operations get the same answers, whatever the threshold between inline payloads and
blob files. -/
namespace A11.SqliteChunkStore
open List Finmap Option LocalChunkStore

open LocalChunkStore (State Consistent)
open LocalChunkStore (collectNext consistent_set continued fragmentAt lookupRead totalChunksPut_le)

variable {cfg : Config}

/-- A row with four such columns stays below SQLite's limit. -/
def Fits (value : Bytes) : Prop := value.length ≤ 250000000

theorem Fits.bound_eq {value : Bytes} (h : Fits value) : bound value = some value := by
  unfold Fits at h
  have hmod : value.length % 4294967296 = value.length := Nat.mod_eq_of_lt (by omega)
  simp only [bound,hmod,take_length]
  exact if_pos (by omega)

variable (cfg) in
/-- The encodings give back what the payload holds, and what a row is to hold fits. -/
def CarriesPayload : Payload → Prop
  | .chunk c => Fits c.ref ∧ (c.data.length ≤ cfg.inlineDataThreshold → Fits c.data) ∧
      ∀ m, c.metadata = some m → ∃ packed, cfg.codec.metadataToMsgpack m = .ok packed ∧
        Fits packed ∧ cfg.codec.metadataFromMsgpack packed = .ok m
  | .nodeRef r => ∃ packed, cfg.codec.nodeRefToMsgpack r = .ok packed ∧ packed ≠ [] ∧
      Fits packed ∧ cfg.codec.nodeRefFromMsgpack packed = .ok r

variable (cfg) in
/-- The operation stores no in-process object, nothing the encodings would change, and nothing too
long for a row. -/
def Storable : Op → Prop
  | .putMany fragments => ∀ f ∈ fragments, f.data.ObjectFree ∧
      (f.validate = .ok () → CarriesPayload cfg f.data)
  | .closeWritesWithStatus status _ => ∃ packed, cfg.codec.packStatus status = .ok packed ∧
      Fits packed ∧ cfg.codec.unpackStatus packed = .ok status
  | _ => True

/-- Binding an unsigned value as a signed column keeps small values apart from all
others. -/
theorem toInt64_eq_iff {n : ℕ} {value : UInt64} (hn : n < 9223372036854775808) :
    (n : ℤ) = value.toInt64.toInt ↔ n = value.toNat := by
  have hcast : value.toInt64.toInt = if 2*value.toNat < 2^64 then (value.toNat : ℤ)
      else (value.toNat : ℤ)-((2^64 : ℕ) : ℤ) := BitVec.toInt_eq_toNat_cond value.toBitVec
  have hlt := value.toNat_lt
  rw [hcast]
  split_ifs <;> omega

/-! ### Stored payloads -/

/-- Where the bytes of a chunk are found. -/
inductive StoredBytes (blobs : Table Bytes Bytes) (row : FragmentRow) : Bytes → Bytes → Prop
  | inline (data : Bytes) : row.storage = .inline → row.data = some data →
      StoredBytes blobs row [] data
  | blob (data : Bytes) : row.storage = .blob → blobs.lookup row.ref = some data →
      StoredBytes blobs row [] data
  | chunkRef (ref : Bytes) : row.storage = .chunkRef → row.ref = ref → StoredBytes blobs row ref []
  | tombstone : row.storage = .tombstone → StoredBytes blobs row tombstoneReference []

/-- The row stands for the payload. -/
inductive Stored (codec : Codec) (blobs : Table Bytes Bytes) (row : FragmentRow) : Payload → Prop
  | chunk (metadata : Option ChunkMetadata) (ref data : Bytes) :
      (∀ m, metadata = some m → ∃ packed, row.metadata = some packed ∧
        codec.metadataFromMsgpack packed = .ok m) →
      (metadata = none → row.metadata = none) → StoredBytes blobs row ref data →
      Stored codec blobs row (.chunk ⟨metadata,ref,data,none⟩)
  | nodeRef (r : NodeRef) (packed : Bytes) : row.storage = .nodeRef → row.data = some packed →
      packed ≠ [] → codec.nodeRefFromMsgpack packed = .ok r →
      Stored codec blobs row (.nodeRef r)

variable {blobs : Table Bytes Bytes} {row : FragmentRow}

theorem StoredBytes.storage_ne {ref data : Bytes}
    (h : StoredBytes blobs row ref data) : row.storage ≠ .nodeRef := by
  cases h with
  | inline _ hs | blob _ hs | chunkRef _ hs | tombstone hs => simp [hs]

variable {q : Payload}

theorem Stored.isNodeRef {codec : Codec} (h : Stored codec blobs row q) :
    row.storage = .nodeRef ↔ ∃ r, q = .nodeRef r := by
  cases h with
  | chunk metadata ref data _ _ hbytes => simp [hbytes.storage_ne]
  | nodeRef r packed hs => simp [hs]

theorem decodePayload_of_stored {db : Database}
    (h : Stored cfg.codec db.blobs row q) : decodePayload cfg db row = .ok q := by
  cases h with
  | chunk metadata ref data hsome hnone hbytes =>
    have hmeta : decodeMetadata cfg row = .ok metadata := by
      cases metadata with
      | none => simp [decodeMetadata,hnone rfl]
      | some m =>
        obtain ⟨packed,hpack,hm⟩ := hsome m rfl
        simp [decodeMetadata,hpack,hm,Except.map]
    have hck : decodeChunk cfg db row = .ok ⟨metadata,ref,data,none⟩ := by
      rw [decodeChunk,hmeta]
      cases hbytes with
      | inline _ hs hdata => simp [hs,hdata]
      | blob _ hs hdata => simp [hs,readBlob,hdata]
      | chunkRef _ hs href => simp [hs,href]
      | tombstone hs => simp [hs]
    simp [decodePayload,hbytes.storage_ne,hck]
  | nodeRef r packed hs hdata hne hr => simp [decodePayload,hs,hdata,hne,hr]

theorem decodeFragment_of_stored {db : Database}
    (h : Stored cfg.codec db.blobs row q) (finalSeq : Option UInt32) :
    decodeFragment cfg db row finalSeq =
      .ok ⟨cfg.nodeId,q,some row.seq,finalSeq.all fun final => row.seq < final⟩ := by
  simp [decodeFragment,decodePayload_of_stored h]

/-- A row keeps its payload while its own file is left alone. -/
theorem Stored.of_blobs {codec : Codec} {blobs' : Table Bytes Bytes} (h : Stored codec blobs row q)
    (hsame : row.storage = .blob → blobs'.lookup row.ref = blobs.lookup row.ref) :
    Stored codec blobs' row q := by
  cases h with
  | chunk metadata ref data hsome hnone hbytes =>
    refine .chunk metadata ref data hsome hnone ?_
    cases hbytes with
    | inline _ hs hdata => exact .inline data hs hdata
    | blob _ hs hdata => exact .blob data hs ((hsame hs).trans hdata)
    | chunkRef _ hs href => exact .chunkRef _ hs href
    | tombstone hs => exact .tombstone hs
  | nodeRef r packed hs hdata hne hr => exact .nodeRef r packed hs hdata hne hr

/-! ### The relation -/

/-- The node row, a missing one read as an untouched one. -/
def nodeRow (sql : Sql) : NodeRow := sql.node.getD {}

structure NodeRefines (codec : Codec) (s : State) (row : NodeRow) : Prop where
  closed : row.closed = s.status.isSome
  isOpen : s.status = none → row.status = none
  status : ∀ status, s.status = some status → ∃ packed, row.status = some packed ∧
    codec.unpackStatus packed = .ok status
  finalSeq : row.finalSeq = s.finalSeq
  cursor : row.nextCursor = s.totalChunksRead
  putCount : row.putCount = s.totalChunksPut
  size : row.size = s.chunks.size
  maxSeq : ∀ final, (row.maxSeq.any fun m => final < m) = decide (∃ seq ∈ s.chunks.keys, final < seq)

def DistinctBlobs (a b : FragmentRow) : Prop :=
  a.storage = .blob → b.storage = .blob → a.ref ≠ b.ref

structure Refines (cfg : Config) (s : State) (db : Database) : Prop where
  nodeId : s.nodeId = cfg.nodeId
  consistent : Consistent s
  node : NodeRefines cfg.codec s (nodeRow db.sql)
  created : db.sql.fragments ≠ [] → db.sql.node.isSome
  length : db.sql.fragments.length = s.totalChunksPut
  arrival : ∀ i row, db.sql.fragments[i]? = some row → row.arrivalOrder = i ∧
    s.arrivalOrderToSeq.lookup i = some row.seq
  stored : ∀ row ∈ db.sql.fragments, ∃ q, s.chunks.lookup row.seq = some q ∧
    Stored cfg.codec db.blobs row q
  named : ∀ row ∈ db.sql.fragments, row.storage = .blob →
    ∃ k < db.blobsNamed, row.ref = cfg.uuid k
  owned : db.sql.fragments.Pairwise DistinctBlobs

theorem refines_empty (nodeId : Bytes) (h : cfg.nodeId = nodeId) :
    Refines cfg (State.empty nodeId) {} := by
  refine ⟨h.symm,consistent_empty nodeId,?_,by simp,rfl,by simp,by simp,by simp,
    by simp⟩
  constructor <;> simp [nodeRow,State.empty]

theorem loadNodeState_nodeRow (sql : Sql) : loadNodeState cfg sql =
    (loadStatus cfg (nodeRow sql)).map fun status =>
      ⟨(nodeRow sql).closed,status,(nodeRow sql).finalSeq,(nodeRow sql).nextCursor,
        (nodeRow sql).putCount,(nodeRow sql).size,(nodeRow sql).dataBytes,(nodeRow sql).maxSeq⟩ := by
  cases hnode : sql.node with
  | none => simp [loadNodeState,nodeRow,hnode,loadStatus,Except.map]
  | some row =>
    simp only [loadNodeState,nodeRow,hnode,getD_some]
    cases loadStatus cfg row <;> rfl

theorem loadNodeState_eq {sql : Sql} {s : State} (h : NodeRefines cfg.codec s (nodeRow sql)) :
    loadNodeState cfg sql = .ok ⟨s.status.isSome,s.status,s.finalSeq,s.totalChunksRead,
      s.totalChunksPut,s.chunks.size,(nodeRow sql).dataBytes,(nodeRow sql).maxSeq⟩ := by
  have hstat : loadStatus cfg (nodeRow sql) = .ok s.status := by
    cases hs : s.status with
    | none => simp [loadStatus,h.isOpen hs,h.closed,hs]
    | some status =>
      obtain ⟨_,hpack,hunpack⟩ := h.status status hs
      simp [loadStatus,hpack,hunpack]
  rw [loadNodeState_nodeRow,hstat,h.closed,h.finalSeq,h.cursor,h.putCount,h.size]
  rfl

namespace Refines

variable {s : State} {db : Database} (h : Refines cfg s db)

include h

variable {seq : UInt32}

theorem selectSeq_none (hseq : seq ∉ s.chunks) : selectSeq db.sql seq = none := by
  refine find?_eq_none.mpr fun row hrow => ?_
  obtain ⟨q,hq,-⟩ := h.stored row hrow
  have hmem := mem_of_lookup_eq_some hq
  simp only [decide_eq_true_eq]
  rintro rfl
  exact hseq hmem

theorem exists_row (hseq : seq ∈ s.chunks) :
    ∃ (i : ℕ) (row : FragmentRow), db.sql.fragments[i]? = some row ∧ row.seq = seq := by
  obtain ⟨n,hn⟩ := mem_iff.mp ((h.consistent.stored seq).mpr hseq)
  have harr := (h.consistent.inverse n seq).mpr hn
  have hlt := (h.consistent.arrivals n).mp (mem_of_lookup_eq_some harr)
  rw [← h.length] at hlt
  refine ⟨n,_,getElem?_eq_getElem hlt,?_⟩
  have hrow := (h.arrival n _ (getElem?_eq_getElem hlt)).2
  exact some.inj (hrow.symm.trans harr)

theorem selectSeq_some (hq : s.chunks.lookup seq = some q) :
    ∃ row ∈ db.sql.fragments, selectSeq db.sql seq = some row ∧ row.seq = seq ∧
      Stored cfg.codec db.blobs row q := by
  obtain ⟨i,row,hrow,hseq⟩ := h.exists_row (mem_of_lookup_eq_some hq)
  have hsome : (selectSeq db.sql seq).isSome := by
    rw [selectSeq,find?_isSome]
    exact ⟨row,mem_of_getElem? hrow,by simpa using hseq⟩
  obtain ⟨found,hfnd⟩ := isSome_iff_exists.mp hsome
  have hmem := mem_of_find?_eq_some hfnd
  have hfoundSeq : found.seq = seq := by simpa using find?_some hfnd
  obtain ⟨_,hq',hstor⟩ := h.stored found hmem
  rw [hfoundSeq] at hq'
  obtain rfl := some.inj (hq.symm.trans hq')
  exact ⟨found,hmem,hfnd,hfoundSeq,hstor⟩

/-- Rows of one sequence are one row. -/
theorem eq_of_seq {row' : FragmentRow} (hrow : row ∈ db.sql.fragments)
    (hrow' : row' ∈ db.sql.fragments) (hseq : row.seq = row'.seq) : row = row' := by
  obtain ⟨i,hi⟩ := mem_iff_getElem?.mp hrow
  obtain ⟨j,hj⟩ := mem_iff_getElem?.mp hrow'
  have harr := (h.consistent.inverse i row.seq).mp (h.arrival i row hi).2
  have harr' := (h.consistent.inverse j row'.seq).mp (h.arrival j row' hj).2
  rw [← hseq] at harr'
  obtain rfl := some.inj (harr.symm.trans harr')
  exact some.inj (hi.symm.trans hj)

theorem nextSource_eq {st : NodeState} (hst : loadNodeState cfg db.sql = .ok st) :
    nextSource cfg db st = LocalChunkStore.nextSource s := by
  rw [loadNodeState_eq h.node] at hst
  obtain rfl := Except.ok.inj hst
  simp only [nextSource,LocalChunkStore.nextSource,NextScan.Source.mk.injEq,and_true]
  funext seq
  cases hq : s.chunks.lookup seq with
  | none => simp [h.selectSeq_none (lookup_eq_none.mp hq)]
  | some q =>
    obtain ⟨_,-,hrow,rfl,hstor⟩ := h.selectSeq_some hq
    simp [hrow,decodeFragment_of_stored hstor,fragmentAt,continued,h.nodeId]

/-- A change of the node row alone. -/
theorem withNode {s' : State} {sql : Sql} (hnodeId : s'.nodeId = s.nodeId)
    (harr : s'.arrivalOrderToSeq = s.arrivalOrderToSeq) (hcks : s'.chunks = s.chunks)
    (hput : s'.totalChunksPut = s.totalChunksPut) (hcons : Consistent s')
    (hnode : NodeRefines cfg.codec s' (nodeRow sql)) (hrows : sql.fragments = db.sql.fragments)
    (hcreated : db.sql.fragments ≠ [] → sql.node.isSome) :
    Refines cfg s' { db with sql := sql } where
  nodeId := hnodeId.trans h.nodeId
  consistent := hcons
  node := hnode
  created := by simpa only [hrows] using hcreated
  length := by simpa only [hrows,hput] using h.length
  arrival := by simpa only [hrows,harr] using h.arrival
  stored := by simpa only [hrows,hcks] using h.stored
  named := by simpa only [hrows] using h.named
  owned := by simpa only [hrows] using h.owned

theorem advance {items : List NodeFragment} (htakes : Takes s items) :
    Refines cfg { s with totalChunksRead := s.totalChunksRead+items.length }
      { db with
        sql := advanceCursor db.sql s.totalChunksRead (s.totalChunksRead+items.length) } := by
  have hcons := consistent_advance h.consistent htakes
  by_cases hnil : items = []
  · subst hnil
    simpa [advanceCursor] using h
  have hpos := length_pos_of_ne_nil hnil
  obtain ⟨i,_,hrow,-⟩ := h.exists_row (htakes.mem hpos)
  have hsome := h.created (ne_nil_of_mem (mem_of_getElem? hrow))
  obtain ⟨_,hnode⟩ := isSome_iff_exists.mp hsome
  have hold := h.node
  simp only [nodeRow,hnode] at hold
  rw [advanceCursor,if_neg (by omega)]
  refine h.withNode rfl rfl rfl rfl hcons ?_ rfl (fun _ => by simp [updateNode,hnode])
  simp only [nodeRow,updateNode,hnode]
  exact { hold with cursor := rfl }

theorem exec_next (limit : ℕ) :
    (SqliteChunkStore.next cfg db limit).1 = (LocalChunkStore.next s limit).1 ∧
      Refines cfg (LocalChunkStore.next s limit).2 (SqliteChunkStore.next cfg db limit).2 := by
  by_cases hlim : limit = 0
  · simpa [SqliteChunkStore.next,LocalChunkStore.next,hlim] using h
  have hload := loadNodeState_eq h.node
  obtain ⟨items,htakes,hst,-⟩ := LocalChunkStore.collectNext_spec s limit []
  have hcur : (collectNext s limit []).1.cursor =
      s.totalChunksRead+items.length := congrArg State.totalChunksRead hst
  have hadv := h.advance htakes
  rw [← hcur] at hadv
  have hpass : (nextSource cfg db ⟨s.status.isSome,s.status,s.finalSeq,s.totalChunksRead,
      s.totalChunksPut,s.chunks.size,(nodeRow db.sql).dataBytes,(nodeRow db.sql).maxSeq⟩).collect
        limit s.totalChunksRead [] = (collectNext s limit []).1 := by
    rw [h.nextSource_eq hload]
    rfl
  simp only [SqliteChunkStore.next,LocalChunkStore.next,hlim,hload,hpass]
  cases hend : (collectNext s limit []).1.ending with
  | done | terminal status | park => exact ⟨rfl,hadv⟩
  | failed status => exact absurd hend (LocalChunkStore.collectNext_ne_failed s limit [] status)

/-! ### Reads -/

/-- Rows stand in arrival order, so an arrival order is a position. -/
theorem selectArrivalOrder_eq (value : UInt64) :
    selectArrivalOrder db.sql value = db.sql.fragments[value.toNat]? := by
  have hmatch : ∀ i row, db.sql.fragments[i]? = some row →
      ((row.arrivalOrder : ℤ) = value.toInt64.toInt ↔ i = value.toNat) := by
    intro i row hrow
    rw [(h.arrival i row hrow).1]
    have hlt := (List.getElem?_eq_some_iff.mp hrow).1
    have hbound := totalChunksPut_le h.consistent
    rw [h.length] at hlt
    exact toInt64_eq_iff (hlt.trans_le (hbound.trans (by simp [uint32Range])))
  cases hget : db.sql.fragments[value.toNat]? with
  | none =>
    refine find?_eq_none.mpr fun row hrow => ?_
    obtain ⟨i,hi⟩ := mem_iff_getElem?.mp hrow
    simp only [decide_eq_true_eq,hmatch i row hi]
    rintro rfl
    simp [hget] at hi
  | some row =>
    have hsome : (selectArrivalOrder db.sql value).isSome := by
      rw [selectArrivalOrder,find?_isSome]
      exact ⟨row,mem_of_getElem? hget,by simpa using (hmatch _ row hget).mpr rfl⟩
    obtain ⟨found,hfnd⟩ := isSome_iff_exists.mp hsome
    obtain ⟨j,hj⟩ := mem_iff_getElem?.mp (mem_of_find?_eq_some hfnd)
    have hidx := (hmatch j found hj).mp (by simpa using find?_some hfnd)
    rw [hfnd,← hj,hidx,hget]

theorem arrival_none {n : ℕ} (hn : db.sql.fragments[n]? = none) :
    s.arrivalOrderToSeq.lookup n = none := by
  refine lookup_eq_none.mpr fun hmem => ?_
  have hlt := (h.consistent.arrivals n).mp hmem
  rw [← h.length] at hlt
  simp [getElem?_eq_getElem hlt] at hn

theorem read_eq (kind : ReadKind) (value : UInt64) :
    SqliteChunkStore.read cfg db kind value = lookupRead s kind value := by
  have hcls : (if s.status.isSome then closedRead (some (s.status.getD .okStatus)) kind value
      else none) = closedRead s.status kind value := by
    cases s.status <;> rfl
  unfold SqliteChunkStore.read lookupRead
  rw [loadNodeState_eq h.node]
  cases kind with
  | sequence =>
    cases hq : s.chunks.lookup value.toUInt32 with
    | none => simpa [h.selectSeq_none (lookup_eq_none.mp hq)] using hcls
    | some q =>
      obtain ⟨row,-,hrow,hseq,hstor⟩ := h.selectSeq_some hq
      simp [hrow,decodeFragment_of_stored hstor,hseq,fragmentAt,continued,h.nodeId]
  | arrivalOrder =>
    simp only [h.selectArrivalOrder_eq value]
    cases hrow : db.sql.fragments[value.toNat]? with
    | none => simpa [h.arrival_none hrow] using hcls
    | some row =>
      obtain ⟨q,hq,hstor⟩ := h.stored row (mem_of_getElem? hrow)
      simp [(h.arrival _ row hrow).2,hq,decodeFragment_of_stored hstor,
        fragmentAt,continued,h.nodeId]

theorem getSeqForArrivalOrder_eq (value : UInt64) :
    SqliteChunkStore.getSeqForArrivalOrder db value =
      LocalChunkStore.getSeqForArrivalOrder s value := by
  have hrow : (if value.toNat ≤ 9223372036854775807 then selectArrivalOrder db.sql value
      else none) = db.sql.fragments[value.toNat]? := by
    split_ifs with hle
    · exact h.selectArrivalOrder_eq value
    · have hbound := totalChunksPut_le h.consistent
      rw [← h.length] at hbound
      rw [getElem?_eq_none (by simp only [uint32Range] at hbound; omega)]
  unfold SqliteChunkStore.getSeqForArrivalOrder LocalChunkStore.getSeqForArrivalOrder
  simp only [hrow]
  cases hget : db.sql.fragments[value.toNat]? with
  | none => simp [h.arrival_none hget]
  | some row => simp [(h.arrival _ row hget).2]

/-! ### Closing -/

theorem exec_close (status : Status) (flag : Bool)
    (hstor : Storable cfg (.closeWritesWithStatus status flag)) :
    (SqliteChunkStore.closeWritesWithStatus cfg db status flag).1 =
        (LocalChunkStore.closeWritesWithStatus s status flag).1 ∧
      Refines cfg (LocalChunkStore.closeWritesWithStatus s status flag).2
        (SqliteChunkStore.closeWritesWithStatus cfg db status flag).2 := by
  have hload := loadNodeState_eq h.node
  cases hstat : s.status with
  | some closed =>
    rw [hstat] at hload
    have hbody : closeBody cfg db.sql status = .ok (closed,true,db.sql) := by
      simp [closeBody,hload]
    cases flag <;>
      simp only [SqliteChunkStore.closeWritesWithStatus,LocalChunkStore.closeWritesWithStatus,
        hbody,hstat] <;> exact ⟨rfl,h⟩
  | none =>
    obtain ⟨packed,hpack,hfits,hunpack⟩ := hstor
    rw [hstat] at hload
    have hbody : closeBody cfg db.sql status = .ok (status,false,
        updateNode (ensureNodeRow db.sql) fun row =>
          { row with closed := true, status := some packed }) := by
      simp [closeBody,hload,hpack,hfits.bound_eq]
    simp only [SqliteChunkStore.closeWritesWithStatus,LocalChunkStore.closeWritesWithStatus,
      hbody,hstat]
    refine ⟨rfl,h.withNode rfl rfl rfl rfl ?_ ?_ rfl (fun _ => rfl)⟩
    · have hs := h.consistent
      exact { hs with }
    · have hold := h.node
      exact { hold with
          closed := rfl, isOpen := (by simp),
          status := (fun st hst => ⟨packed,rfl,some.inj hst ▸ hunpack⟩) }

/-! ### Clearing -/

end Refines

@[simp] theorem removeBlob_sql (db : Database) (name : Bytes) :
    (removeBlob db name).sql = db.sql := by
  unfold removeBlob
  split_ifs <;> rfl

@[simp] theorem removeBlob_blobsNamed (db : Database) (name : Bytes) :
    (removeBlob db name).blobsNamed = db.blobsNamed := by
  unfold removeBlob
  split_ifs <;> rfl

theorem lookup_removeBlob (db : Database) {name other : Bytes} (hne : other ≠ name) :
    (removeBlob db name).blobs.lookup other = db.blobs.lookup other := by
  unfold removeBlob
  split_ifs
  · rfl
  · exact lookup_erase_ne hne

/-- The row after a clear. -/
def clearedRow (seq : UInt32) (row : FragmentRow) : FragmentRow :=
  if row.seq = seq then
    { row with data := none, ref := [], storage := .tombstone, tombstone := true }
  else row

/-- The rows after a clear. -/
def clearedSql (sql : Sql) (seq : UInt32) (bytes : ℕ) : Sql :=
  updateNode { sql with fragments := sql.fragments.map (clearedRow seq) } fun node =>
    { node with dataBytes := node.dataBytes-bytes }

theorem nodeRow_cleared (sql : Sql) (seq : UInt32) (bytes : ℕ) : nodeRow (clearedSql sql seq bytes) =
    { nodeRow sql with dataBytes := (nodeRow sql).dataBytes-bytes } := by
  rw [clearedSql,updateNode,nodeRow,nodeRow]
  cases sql.node with
  | none => simp
  | some node => rfl

theorem clearDataBody_eq {db : Database} {st : NodeState} {f : NodeFragment} {c : Chunk}
    (hst : loadNodeState cfg db.sql = .ok st) (hrow : selectSeq db.sql seq = some row)
    (hkind : row.storage ≠ .nodeRef) (hf : decodeFragment cfg db row st.finalSeq = .ok f)
    (hc : f.data = .chunk c) : clearDataBody cfg db seq =
      .ok (f,clearedSql db.sql seq c.data.length,if row.storage = .blob then row.ref else []) := by
  simp only [clearDataBody,hst,hrow,hkind,hf,hc,ok_bind]
  rfl

theorem clearedRow_seq (seq : UInt32) (row : FragmentRow) : (clearedRow seq row).seq = row.seq := by
  unfold clearedRow
  split_ifs <;> rfl

theorem clearedRow_arrivalOrder (seq : UInt32) (row : FragmentRow) :
    (clearedRow seq row).arrivalOrder = row.arrivalOrder := by
  unfold clearedRow
  split_ifs <;> rfl

theorem clearedRow_of_ne (h : row.seq ≠ seq) : clearedRow seq row = row := if_neg h

theorem clearedRow_of_blob (h : (clearedRow seq row).storage = .blob) : row.seq ≠ seq := by
  rintro rfl
  simp [clearedRow] at h

theorem stored_cleared {codec : Codec} {blobs' : Table Bytes Bytes}
    {c : Chunk} (h : Stored codec blobs row (.chunk c)) :
    Stored codec blobs' (clearedRow row.seq row) (.chunk c.tombstone) := by
  cases h with
  | chunk metadata ref data hsome hnone hbytes =>
    rw [clearedRow,if_pos rfl]
    exact .chunk metadata tombstoneReference [] hsome hnone (.tombstone rfl)

namespace Refines

variable {s : State} {db : Database} (h : Refines cfg s db)

include h

theorem clear {c : Chunk} {db' : Database} (bytes : ℕ)
    (hq : s.chunks.lookup row.seq = some (.chunk c))
    (hstor : Stored cfg.codec db.blobs row (.chunk c)) (hmem : row ∈ db.sql.fragments)
    (hsql : db'.sql = clearedSql db.sql row.seq bytes) (hnamed : db'.blobsNamed = db.blobsNamed)
    (hblobs : ∀ r ∈ db.sql.fragments, r.seq ≠ row.seq → r.storage = .blob →
      db'.blobs.lookup r.ref = db.blobs.lookup r.ref) :
    Refines cfg { s with chunks := s.chunks.set row.seq (.chunk c.tombstone) } db' := by
  have hin := mem_of_lookup_eq_some hq
  have hkeys := Table.keys_set_of_mem s.chunks (.chunk c.tombstone) hin
  have hrows : db'.sql.fragments = db.sql.fragments.map (clearedRow row.seq) := by rw [hsql]; rfl
  have hrow : ∀ r ∈ db'.sql.fragments, ∃ r₀ ∈ db.sql.fragments, r = clearedRow row.seq r₀ := by
    intro r hr
    rw [hrows] at hr
    obtain ⟨r₀,hr₀,rfl⟩ := mem_map.mp hr
    exact ⟨r₀,hr₀,rfl⟩
  refine ⟨h.nodeId,consistent_set h.consistent hin,?_,?_,?_,?_,?_,?_,?_⟩
  · have hold := h.node
    rw [hsql,nodeRow_cleared]
    refine { hold with size := ?_, maxSeq := ?_ }
    · exact hold.size.trans (congrArg Finset.card hkeys).symm
    · simpa only [hkeys] using hold.maxSeq
  · intro hne
    rw [hrows] at hne
    simpa [hsql,clearedSql,updateNode] using h.created (by simpa using hne)
  · simpa [hrows] using h.length
  · intro i r hr
    rw [hrows,getElem?_map] at hr
    obtain ⟨r₀,hr₀,rfl⟩ := map_eq_some_iff.mp hr
    rw [clearedRow_seq,clearedRow_arrivalOrder]
    exact h.arrival i r₀ hr₀
  · intro r hr
    obtain ⟨r₀,hr₀,rfl⟩ := hrow r hr
    rw [clearedRow_seq]
    by_cases hseq : r₀.seq = row.seq
    · obtain rfl := h.eq_of_seq hr₀ hmem hseq
      exact ⟨_,by simp [Table.lookup_set],stored_cleared hstor⟩
    obtain ⟨q,hq₀,hstored₀⟩ := h.stored r₀ hr₀
    refine ⟨q,by simpa [Table.lookup_set,hseq] using hq₀,?_⟩
    rw [clearedRow_of_ne hseq]
    exact hstored₀.of_blobs (hblobs r₀ hr₀ hseq)
  · intro r hr hblob
    obtain ⟨r₀,hr₀,rfl⟩ := hrow r hr
    have hseq := clearedRow_of_blob hblob
    rw [clearedRow_of_ne hseq] at hblob ⊢
    rw [hnamed]
    exact h.named r₀ hr₀ hblob
  · rw [hrows]
    refine pairwise_map.mpr (h.owned.imp fun {a b} hab => ?_)
    intro ha hb
    have hseq := clearedRow_of_blob ha
    have hseq' := clearedRow_of_blob hb
    rw [clearedRow_of_ne hseq] at ha ⊢
    rw [clearedRow_of_ne hseq'] at hb ⊢
    exact hab ha hb

/-- No other row owns the file of a row. -/
theorem ref_ne {r : FragmentRow} (hrow : row ∈ db.sql.fragments) (hr : r ∈ db.sql.fragments)
    (hseq : r.seq ≠ row.seq) (hblob : r.storage = .blob) (hblob' : row.storage = .blob) :
    r.ref ≠ row.ref := by
  have : Std.Symm DistinctBlobs := ⟨fun a b hab hb ha => (hab ha hb).symm⟩
  have hne : r ≠ row := fun heq => hseq (congrArg FragmentRow.seq heq)
  exact h.owned.forall hr hrow hne hblob hblob'

theorem exec_clear (seq : UInt32) :
    Reply.Agrees (.now .fragment (SqliteChunkStore.clearData cfg db seq).1)
        (.now .fragment (LocalChunkStore.clearData s seq).1) ∧
      Refines cfg (LocalChunkStore.clearData s seq).2 (SqliteChunkStore.clearData cfg db seq).2 := by
  have hload := loadNodeState_eq h.node
  cases hq : s.chunks.lookup seq with
  | none =>
    have hbody : clearDataBody cfg db seq =
        .error (.notFound ("No fragment with seq " ++ toString seq ++ " exists")) := by
      simp [clearDataBody,hload,h.selectSeq_none (lookup_eq_none.mp hq)]
    simp only [SqliteChunkStore.clearData,LocalChunkStore.clearData,hbody,hq]
    exact ⟨Reply.Agrees.refl _,h⟩
  | some q =>
    obtain ⟨row,hmem,hselect,rfl,hstored⟩ := h.selectSeq_some hq
    cases q with
    | nodeRef r =>
      have hkind := hstored.isNodeRef.mpr ⟨r,rfl⟩
      have hbody : clearDataBody cfg db row.seq = .error (.unimplemented
          ("Cannot clear the payload of node-reference fragment " ++ toString row.seq)) := by
        simp [clearDataBody,hload,hselect,hkind]
      simp only [SqliteChunkStore.clearData,LocalChunkStore.clearData,hbody,hq]
      exact ⟨⟨rfl,rfl⟩,h⟩
    | chunk c =>
      have hkind : row.storage ≠ .nodeRef := fun hkind => by
        simpa using hstored.isNodeRef.mp hkind
      have hf : decodeFragment cfg db row s.finalSeq =
          .ok (fragmentAt s row.seq (.chunk c)) := by
        rw [decodeFragment_of_stored hstored,fragmentAt,h.nodeId]
        rfl
      have hbody := clearDataBody_eq hload hselect hkind hf rfl
      simp only [SqliteChunkStore.clearData,LocalChunkStore.clearData,hbody,hq]
      refine ⟨Reply.Agrees.refl _,h.clear c.data.length hq hstored hmem (removeBlob_sql ..) ?_ ?_⟩
      · simp
      · intro r hr hseq hblob
        split_ifs with hkind'
        · exact lookup_removeBlob _ (h.ref_ne hmem hr hseq hblob hkind')
        · rfl

end Refines

end A11.SqliteChunkStore
