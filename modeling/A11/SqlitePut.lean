import A11.SqliteRefinement
import A11.Runs

/-! Puts of the SQLite store: what encoding writes beside the database, the rows an
accepted batch inserts, and with them the agreement of whole runs. -/
namespace A11.SqliteChunkStore
open List Reply PutBatch

open LocalChunkStore (State Consistent Commits)

variable {cfg : Config}

/-! ### Encoding -/

/-- Nothing but files under new names was touched. -/
structure Writes (cfg : Config) (db db' : Database) : Prop where
  sql : db'.sql = db.sql
  named : db.blobsNamed ≤ db'.blobsNamed
  blobs : ∀ k < db.blobsNamed, db'.blobs.lookup (cfg.uuid k) = db.blobs.lookup (cfg.uuid k)

theorem Writes.refl (db : Database) : Writes cfg db db := ⟨rfl,le_rfl,fun _ _ => rfl⟩

theorem Writes.trans {a b c : Database} (hab : Writes cfg a b) (hbc : Writes cfg b c) :
    Writes cfg a c := ⟨hbc.sql.trans hab.sql,hab.named.trans hbc.named,
    fun k hk => (hbc.blobs k (hk.trans_le hab.named)).trans (hab.blobs k hk)⟩

/-- The name was drawn between the two states. -/
def NewName (cfg : Config) (db db' : Database) (name : Bytes) : Prop :=
  ∃ k, db.blobsNamed ≤ k ∧ k < db'.blobsNamed ∧ name = cfg.uuid k

theorem NewName.mono {a b c d : Database} {name : Bytes} (h : NewName cfg b c name)
    (hab : a.blobsNamed ≤ b.blobsNamed) (hcd : c.blobsNamed ≤ d.blobsNamed) :
    NewName cfg a d name := by
  obtain ⟨k,hlow,hhigh,rfl⟩ := h
  exact ⟨k,hab.trans hlow,hhigh.trans_le hcd,rfl⟩

variable {db' : Database}

theorem writes_removeBlobs (hinj : Function.Injective cfg.uuid) {db : Database}
    {names : List Bytes} (h : Writes cfg db db') (hnames : ∀ name ∈ names, NewName cfg db db' name) :
    Writes cfg db (removeBlobs db' names) := by
  have hmain : ∀ db'', db''.blobsNamed = db'.blobsNamed → Writes cfg db db'' →
      Writes cfg db (removeBlobs db'' names) := by
    induction names with
    | nil => exact fun _ _ h => h
    | cons name names ih =>
      intro db'' hnamed hwr
      refine ih (fun n hn => hnames n (by simp [hn])) _ (by simpa using hnamed) ?_
      refine ⟨by simpa using hwr.sql,by simpa using hwr.named,fun k hk => ?_⟩
      obtain ⟨j,hj,-,rfl⟩ := hnames name (by simp)
      rw [lookup_removeBlob _ fun heq => (hk.trans_le hj).ne (hinj heq)]
      exact hwr.blobs k hk
  exact hmain db' rfl h

/-- The row an insert makes of the encoding stands for the payload. -/
def Encoded (codec : Codec) (blobs : Table Bytes Bytes) (e : EncodedFragment) (f : NodeFragment) :
    Prop :=
  ∀ seq arrivalOrder, Stored codec blobs (insertedRow seq arrivalOrder e) f.data

/-- What the encoding of one valid fragment gives. -/
structure EncodesOne (cfg : Config) (db db' : Database) (e : EncodedFragment) (f : NodeFragment) :
    Prop where
  writes : Writes cfg db db'
  encoded : Encoded cfg.codec db'.blobs e f
  blob : e.storage = .blob → NewName cfg db db' e.ref
  ownedBlob : e.ownedBlob ≠ [] → NewName cfg db db' e.ownedBlob
  fits : e.storage = .blob ∨ Fits e.ref

variable (cfg) in
/-- A fragment the store can write. -/
def Encodable (f : NodeFragment) : Prop :=
  f.validate = .ok () ∧ f.data.ObjectFree ∧ CarriesPayload cfg f.data

theorem writeBlob_writes (hinj : Function.Injective cfg.uuid) (db : Database) (data : Bytes) :
    Writes cfg db (writeBlob cfg db data).2 := by
  refine ⟨rfl,Nat.le_succ _,fun k hk => ?_⟩
  simp only [writeBlob,Table.lookup_set]
  rw [if_neg fun heq => hk.ne (hinj heq)]

theorem encodeMetadata_of_carries {c : Chunk} (h : CarriesPayload cfg (.chunk c)) :
    ∃ packed, encodeMetadata cfg c = .ok packed ∧ (∀ m, c.metadata = some m → ∃ b,
        packed.bind bound = some b ∧ cfg.codec.metadataFromMsgpack b = .ok m) ∧
      (c.metadata = none → packed.bind bound = none) := by
  cases hm : c.metadata with
  | none => exact ⟨none,by simp [encodeMetadata,hm],by simp,fun _ => rfl⟩
  | some m =>
    obtain ⟨b,hto,hfits,hfrom⟩ := h.2.2 m hm
    refine ⟨some b,by simp [encodeMetadata,hm,hto],?_,by simp⟩
    rintro _ ⟨⟩
    exact ⟨b,hfits.bound_eq,hfrom⟩

variable {f : NodeFragment}

theorem data_nil_of_ref {c : Chunk} (hdata : f.data = .chunk c)
    (hval : f.validate = .ok ()) (href : c.ref ≠ []) : c.data = [] := by
  have hck : f.data.validate = .ok () := by
    rw [NodeFragment.validate] at hval
    split_ifs at hval
    · exact (StatusOr.check_bind_eq_ok.mp hval).2
    · exact hval
  rw [hdata,Payload.validate,Chunk.validate] at hck
  by_contra hne
  simp [href,hne] at hck

theorem encodeFragment_spec (hinj : Function.Injective cfg.uuid) (db : Database)
    (hf : Encodable cfg f) :
    ∃ e db', encodeFragment cfg db f = (.ok e,db') ∧ EncodesOne cfg db db' e f := by
  obtain ⟨hval,hfree,hcar⟩ := hf
  cases hdata : f.data with
  | nodeRef r =>
    rw [hdata] at hcar
    obtain ⟨packed,hto,hne,hfits,hfrom⟩ := hcar
    simp only [encodeFragment,hdata,hto]
    refine ⟨_,db,rfl,Writes.refl db,?_,by simp,by simp,.inr (by simp [Fits])⟩
    intro seq arrivalOrder
    rw [hdata]
    exact .nodeRef r packed rfl hfits.bound_eq hne hfrom
  | chunk c =>
    rw [hdata] at hcar hfree
    obtain ⟨packed,hpack,hsome,hnone⟩ := encodeMetadata_of_carries hcar
    have hck : c = { c with object := none } := by
      cases c
      simpa [Payload.ObjectFree] using hfree
    have hempty : Fits [] := by simp [Fits]
    have hstor : ∀ {e : EncodedFragment} {blobs}, e.metadata = packed →
        (∀ seq arrivalOrder, StoredBytes blobs (insertedRow seq arrivalOrder e) c.ref c.data) →
        Encoded cfg.codec blobs e f := by
      intro e blobs hmeta hbytes seq arrivalOrder
      rw [hdata,hck]
      exact .chunk _ _ _ (by simpa [insertedRow,hmeta] using hsome)
        (by simpa [insertedRow,hmeta] using hnone) (hbytes seq arrivalOrder)
    simp only [encodeFragment,hdata,hpack]
    split_ifs with htomb href hblob
    · have hnil := data_nil_of_ref hdata hval (by rw [htomb]; decide)
      refine ⟨_,db,rfl,Writes.refl db,hstor rfl fun seq arrivalOrder => ?_,by simp,by simp,
        .inr hempty⟩
      rw [htomb,hnil]
      exact .tombstone rfl
    · have hnil := data_nil_of_ref hdata hval href
      refine ⟨_,db,rfl,Writes.refl db,hstor rfl fun seq arrivalOrder => ?_,by simp,by simp,
        .inr hcar.1⟩
      rw [hnil]
      exact .chunkRef _ rfl (by simp [insertedRow,hcar.1.bound_eq])
    · rw [not_not] at href
      have hname : NewName cfg db (writeBlob cfg db c.data).2 (cfg.uuid db.blobsNamed) :=
        ⟨db.blobsNamed,le_rfl,Nat.lt_succ_self _,rfl⟩
      refine ⟨_,_,rfl,writeBlob_writes hinj db c.data,hstor rfl fun seq arrivalOrder => ?_,
        fun _ => hname,fun _ => hname,.inl rfl⟩
      rw [href]
      exact .blob _ rfl (by simp [writeBlob,insertedRow,Table.lookup_set])
    · rw [not_not] at href
      refine ⟨_,db,rfl,Writes.refl db,hstor rfl fun seq arrivalOrder => ?_,by simp,by simp,
        .inr hempty⟩
      rw [href]
      exact .inline _ rfl (hcar.2.1 (not_lt.mp hblob)).bound_eq

/-- Files of earlier names still hold what the row refers to. -/
theorem Encoded.of_writes {db₀ db : Database} {e : EncodedFragment}
    (h : Encoded cfg.codec db.blobs e f) (hblob : e.storage = .blob → NewName cfg db₀ db e.ref)
    (hwr : Writes cfg db db') : Encoded cfg.codec db'.blobs e f := by
  intro seq arrivalOrder
  refine (h seq arrivalOrder).of_blobs fun hstor => ?_
  obtain ⟨k,-,hk,hname⟩ := hblob hstor
  have href : (insertedRow seq arrivalOrder e).ref = cfg.uuid k := (if_pos hstor).trans hname
  rw [href]
  exact hwr.blobs k hk

/-- Two encodings never share a file. -/
def DistinctRefs (e e' : EncodedFragment) : Prop :=
  e.storage = .blob → e'.storage = .blob → e.ref ≠ e'.ref

structure Encodes (cfg : Config) (db db' : Database) (es : List EncodedFragment)
    (owned : List Bytes) (fragments : List NodeFragment) : Prop where
  writes : Writes cfg db db'
  encoded : List.Forall₂ (Encoded cfg.codec db'.blobs) es fragments
  blob : ∀ e ∈ es, e.storage = .blob → NewName cfg db db' e.ref
  distinct : es.Pairwise DistinctRefs
  owned : ∀ name ∈ owned, NewName cfg db db' name
  fits : ∀ e ∈ es, e.storage = .blob ∨ Fits e.ref

variable {fragments : List NodeFragment}

theorem encodeAll_spec (hinj : Function.Injective cfg.uuid) (db : Database)
    (hf : ∀ f ∈ fragments, Encodable cfg f) :
    ∃ es owned db', encodeAll cfg db fragments = (.ok es,owned,db') ∧
      Encodes cfg db db' es owned fragments := by
  induction fragments generalizing db with
  | nil => exact ⟨[],[],db,rfl,Writes.refl db,.nil,by simp,.nil,by simp,by simp⟩
  | cons f fragments ih =>
    obtain ⟨e,db₁,hone,hhead⟩ := encodeFragment_spec hinj db (hf f (by simp))
    obtain ⟨es,owned,db₂,hrest,htail⟩ := ih db₁ fun g hg => hf g (by simp [hg])
    have hlow := hhead.writes.named
    have hhigh := htail.writes.named
    refine ⟨e::es,if e.ownedBlob = [] then owned else e.ownedBlob::owned,db₂,?_,
      hhead.writes.trans htail.writes,?_,?_,?_,?_,forall_mem_cons.mpr ⟨hhead.fits,htail.fits⟩⟩
    · simp [encodeAll,hone,hrest,Except.map]
    · exact .cons (hhead.encoded.of_writes hhead.blob htail.writes) htail.encoded
    · rintro e' (_ | ⟨_,he'⟩) hblob
      · exact (hhead.blob hblob).mono le_rfl hhigh
      · exact (htail.blob e' he' hblob).mono hlow le_rfl
    · refine .cons (fun e' he' hblob hblob' heq => ?_) htail.distinct
      obtain ⟨k,-,_,hname⟩ := hhead.blob hblob
      obtain ⟨_,_,-,hname'⟩ := htail.blob e' he' hblob'
      rw [hname,hname'] at heq
      exact absurd (hinj heq) (by omega)
    · have hold : ∀ name ∈ owned, NewName cfg db db₂ name := fun name hname =>
        (htail.owned name hname).mono hlow le_rfl
      split_ifs with hnil
      · exact hold
      · rintro name (_ | ⟨_,hname⟩)
        · exact (hhead.ownedBlob hnil).mono le_rfl hhigh
        · exact hold name hname

theorem Refines.of_writes {s : State} {db : Database} (h : Refines cfg s db)
    (hwr : Writes cfg db db') : Refines cfg s db' where
  nodeId := h.nodeId
  consistent := h.consistent
  node := by simpa only [hwr.sql] using h.node
  created := by simpa only [hwr.sql] using h.created
  length := by simpa only [hwr.sql] using h.length
  arrival := by simpa only [hwr.sql] using h.arrival
  stored row hrow := by
    rw [hwr.sql] at hrow
    obtain ⟨q,hq,hstor⟩ := h.stored row hrow
    refine ⟨q,hq,hstor.of_blobs fun hblob => ?_⟩
    obtain ⟨k,hk,hname⟩ := h.named row hrow hblob
    rw [hname]
    exact hwr.blobs k hk
  named row hrow hblob := by
    rw [hwr.sql] at hrow
    obtain ⟨k,hk,hname⟩ := h.named row hrow hblob
    exact ⟨k,hk.trans_le hwr.named,hname⟩
  owned := by simpa only [hwr.sql] using h.owned

/-! ### Inserts -/

/-- The rows of a batch, in the order of its fragments. -/
def insertedRows (arrivalOrder : ℕ) (rows : List (UInt32 × EncodedFragment)) : List FragmentRow :=
  rows.mapIdx fun i x => insertedRow x.1 (arrivalOrder+i) x.2

variable {rows : List (UInt32 × EncodedFragment)} {arrivalOrder : ℕ}

theorem insertFragments_eq {sql : Sql} (hnd : (rows.map Prod.fst).Nodup)
    (hfits : ∀ x ∈ rows, x.2.storage = .blob ∨ Fits x.2.ref)
    (hseq : ∀ row ∈ sql.fragments, row.seq ∉ rows.map Prod.fst)
    (harr : ∀ row ∈ sql.fragments, row.arrivalOrder < arrivalOrder) :
    insertFragments sql arrivalOrder rows =
      .ok { sql with fragments := sql.fragments++insertedRows arrivalOrder rows } := by
  induction rows generalizing sql arrivalOrder with
  | nil => simp [insertFragments,insertedRows]
  | cons x rows ih =>
    obtain ⟨hhead,htail⟩ := nodup_cons.mp hnd
    have hone : insertFragment sql x.1 arrivalOrder x.2 =
        .ok { sql with fragments := sql.fragments++[insertedRow x.1 arrivalOrder x.2] } := by
      have hbound : ¬(x.2.storage ≠ .blob ∧ bound x.2.ref = none) := by
        rintro ⟨hne,hnone⟩
        simp [((hfits x (by simp)).resolve_left hne).bound_eq] at hnone
      rw [insertFragment,if_neg hbound,if_neg]
      simp only [any_eq_true,decide_eq_true_eq,not_exists,not_and,not_or]
      intro row hrow
      exact ⟨fun heq => hseq row hrow (by simp [heq]),(harr row hrow).ne⟩
    simp only [insertFragments,hone,ok_bind]
    rw [ih htail fun y hy => hfits y (by simp [hy])]
    · simp [insertedRows,mapIdx_cons,Nat.add_assoc,Nat.add_comm 1]
    · simp only [mem_append,mem_singleton]
      rintro row (hrow | rfl)
      · exact fun hmem => hseq row hrow (by simp [hmem])
      · exact hhead
    · simp only [mem_append,mem_singleton]
      rintro row (hrow | rfl)
      · exact (harr row hrow).trans (Nat.lt_succ_self _)
      · exact Nat.lt_succ_self _

theorem newMax_any (recorded : Option UInt32) (assigned : List UInt32) (final : UInt32) :
    ((newMax recorded assigned).any fun m => final < m) =
      ((recorded.any fun m => final < m) || assigned.any fun seq => final < seq) := by
  induction assigned generalizing recorded with
  | nil => simp [newMax]
  | cons seq assigned ih =>
    have hcons : newMax recorded (seq::assigned) =
        newMax (some (recorded.elim seq fun m => if m < seq then seq else m)) assigned := rfl
    rw [hcons,ih,any_cons,← Bool.or_assoc]
    congr 1
    cases recorded with
    | none => simp
    | some m =>
      rw [Bool.eq_iff_iff]
      simp only [Option.elim_some,Option.any_some,Bool.or_eq_true,decide_eq_true_eq,
        UInt32.lt_iff_toNat_lt]
      split_ifs <;> omega

variable {row : FragmentRow}

theorem getElem?_insertedRows {i : ℕ} (h : (insertedRows arrivalOrder rows)[i]? = some row) :
    ∃ seq e, rows[i]? = some (seq,e) ∧ row = insertedRow seq (arrivalOrder+i) e := by
  rw [insertedRows,getElem?_mapIdx] at h
  obtain ⟨⟨seq,e⟩,hx,rfl⟩ := Option.map_eq_some_iff.mp h
  exact ⟨seq,e,hx,rfl⟩

theorem insertedRows_distinct (h : (rows.map Prod.snd).Pairwise DistinctRefs) :
    (insertedRows arrivalOrder rows).Pairwise DistinctBlobs := by
  rw [pairwise_iff_getElem] at h ⊢
  intro i j hi hj hij
  simp only [insertedRows] at hi hj
  have hdist := h i j (by simpa using hi) (by simpa using hj) hij
  simp only [getElem_map,DistinctRefs] at hdist
  simp only [insertedRows,DistinctBlobs,getElem_mapIdx,insertedRow]
  intro hi hj
  rw [if_pos hi,if_pos hj]
  exact hdist hi hj

/-- The node row after an accepted batch. -/
def publishedNode (s : State) (node : NodeRow) (fragments : List NodeFragment) (p : PutBatch.Plan)
    (es : List EncodedFragment) : NodeRow :=
  { node with
    putCount := s.totalChunksPut+fragments.length
    size := s.chunks.size+fragments.length
    dataBytes := node.dataBytes+(es.map fun e => e.payloadBytes).sum
    maxSeq := newMax node.maxSeq p.assigned
    finalSeq := p.pendingFinal }

namespace Refines

variable {s : State} {db : Database} (h : Refines cfg s db)

include h

theorem batchView_eq {st : NodeState} (hst : loadNodeState cfg db.sql = .ok st) :
    batchView db.sql st = LocalChunkStore.batchView s := by
  rw [loadNodeState_eq h.node] at hst
  obtain rfl := Except.ok.inj hst
  simp only [batchView,LocalChunkStore.batchView,View.mk.injEq,true_and]
  constructor
  · funext seq
    cases hq : s.chunks.lookup seq with
    | none =>
      have hnot := Finmap.lookup_eq_none.mp hq
      simp [h.selectSeq_none hnot,hnot]
    | some q =>
      obtain ⟨_,-,hrow,-,-⟩ := h.selectSeq_some hq
      simp [hrow,Finmap.mem_of_lookup_eq_some hq]
  · funext final
    exact h.node.maxSeq final

theorem rows_arrival (hrow : row ∈ db.sql.fragments) : row.arrivalOrder < s.totalChunksPut := by
  obtain ⟨i,hi⟩ := List.mem_iff_getElem?.mp hrow
  have hlt := (List.getElem?_eq_some_iff.mp hi).1
  rw [(h.arrival i row hi).1,← h.length]
  exact hlt

theorem nodeRefines_publish {p : Plan}
    (hp : Commits s fragments p) (es : List EncodedFragment) :
    NodeRefines cfg.codec (LocalChunkStore.publish s fragments p)
      (publishedNode s (nodeRow db.sql) fragments p es) := by
  have hold := h.node
  refine ⟨hold.closed,hold.isOpen,hold.status,rfl,hold.cursor,rfl,?_,fun final => ?_⟩
  · rw [(hp.consistent_publish h.consistent).size,publishedNode,h.consistent.size]
    rfl
  · rw [publishedNode,newMax_any,hold.maxSeq final,Bool.eq_iff_iff]
    simp only [Bool.or_eq_true,decide_eq_true_eq,any_eq_true,Finmap.mem_keys,hp.mem_chunks]
    constructor
    · rintro (⟨seq,hseq,hlt⟩ | ⟨seq,hseq,hlt⟩)
      · exact ⟨seq,.inl hseq,hlt⟩
      · exact ⟨seq,.inr hseq,hlt⟩
    · rintro ⟨seq,hseq | hseq,hlt⟩
      · exact .inl ⟨seq,hseq,hlt⟩
      · exact .inr ⟨seq,hseq,hlt⟩

section

variable (hinj : Function.Injective cfg.uuid)

include hinj

theorem publish {p : Plan} (hp : Commits s fragments p) {es : List EncodedFragment}
    {owned : List Bytes} (hes : Encodes cfg db db' es owned fragments) {node : NodeRow}
    (hnode : NodeRefines cfg.codec (LocalChunkStore.publish s fragments p) node) :
    Refines cfg (LocalChunkStore.publish s fragments p) { db' with
      sql := ⟨some node,db.sql.fragments++insertedRows s.totalChunksPut (p.assigned.zip es)⟩ } := by
  have hlen := hes.encoded.length_eq
  have hasgn := hp.length_nodup.1
  have hnew : ∀ row ∈ insertedRows s.totalChunksPut (p.assigned.zip es),
      ∃ i seq e f, p.assigned[i]? = some seq ∧ es[i]? = some e ∧ fragments[i]? = some f ∧
        row = insertedRow seq (s.totalChunksPut+i) e := by
    intro row hrow
    obtain ⟨i,hi⟩ := mem_iff_getElem?.mp hrow
    obtain ⟨seq,e,hx,rfl⟩ := getElem?_insertedRows hi
    obtain ⟨hseq,he⟩ := List.getElem?_zip_eq_some.mp hx
    have hi := (List.getElem?_eq_some_iff.mp he).1
    rw [hlen] at hi
    exact ⟨i,seq,e,_,hseq,he,List.getElem?_eq_getElem hi,rfl⟩
  have hsql := hes.writes.sql
  have h' := h.of_writes hes.writes
  refine ⟨h.nodeId,hp.consistent_publish h.consistent,hnode,fun _ => rfl,?_,?_,?_,?_,?_⟩
  · simp [insertedRows,h.length,hasgn,hlen,LocalChunkStore.publish]
  · intro i row hrow
    rw [hp.lookup_arrival h.consistent]
    rcases lt_or_ge i db.sql.fragments.length with hi | hi
    · rw [getElem?_append_left hi] at hrow
      obtain ⟨harr,hlook⟩ := h.arrival i row hrow
      exact ⟨harr,.inl hlook⟩
    rw [getElem?_append_right hi,h.length] at hrow
    rw [h.length] at hi
    obtain ⟨seq,e,hx,rfl⟩ := getElem?_insertedRows hrow
    have hseq := (List.getElem?_zip_eq_some.mp hx).1
    have hlt := (List.getElem?_eq_some_iff.mp hseq).1
    refine ⟨Nat.add_sub_cancel' hi,.inr (List.mem_of_getElem? (i := i-s.totalChunksPut) ?_)⟩
    rw [List.getElem?_zip_eq_some,List.getElem?_range' (by omega)]
    exact ⟨by simp [Nat.add_sub_cancel' hi],hseq⟩
  · intro row hrow
    rcases mem_append.mp hrow with hrow | hrow
    · rw [← hsql] at hrow
      obtain ⟨q,hq,hstor⟩ := h'.stored row hrow
      exact ⟨q,(hp.lookup_chunks _ q).mpr (.inl hq),hstor⟩
    obtain ⟨i,seq,e,f,hseq,he,hf,rfl⟩ := hnew row hrow
    have hencoded := List.Forall₂.get hes.encoded (List.getElem?_eq_some_iff.mp he).1
      (List.getElem?_eq_some_iff.mp hf).1
    refine ⟨f.data,(hp.lookup_chunks _ _).mpr (.inr (List.mem_of_getElem? (i := i) ?_)),?_⟩
    · rw [List.getElem?_zip_eq_some,List.getElem?_map,hf]
      exact ⟨hseq,rfl⟩
    · simp only [List.get_eq_getElem,(List.getElem?_eq_some_iff.mp he).2,
        (List.getElem?_eq_some_iff.mp hf).2] at hencoded
      exact hencoded seq _
  · intro row hrow hblob
    rcases List.mem_append.mp hrow with hrow | hrow
    · rw [← hsql] at hrow
      exact h'.named row hrow hblob
    · obtain ⟨i,seq,e,f,-,he,-,rfl⟩ := hnew row hrow
      obtain ⟨k,-,hk,hname⟩ := hes.blob e (mem_of_getElem? he) hblob
      exact ⟨k,hk,(if_pos hblob).trans hname⟩
  · have hdist : ((p.assigned.zip es).map Prod.snd).Pairwise DistinctRefs := by
      rw [map_snd_zip (by rw [hlen,hasgn])]
      exact hes.distinct
    refine pairwise_append.mpr ⟨h.owned,insertedRows_distinct hdist,?_⟩
    intro row hrow row' hrow' hblob hblob' heq
    obtain ⟨k,hk,hname⟩ := h.named row hrow hblob
    obtain ⟨i,seq,e,f,-,he,-,rfl⟩ := hnew row' hrow'
    obtain ⟨k',_,-,hname'⟩ := hes.blob e (mem_of_getElem? he) hblob'
    have hsame : cfg.uuid k = cfg.uuid k' :=
      hname.symm.trans (heq.trans ((if_pos hblob').trans hname'))
    exact absurd (hinj hsame) (by omega)

theorem exec_put (hstorable : Storable cfg (.putMany fragments)) :
    (SqliteChunkStore.putMany cfg db fragments).1 = (LocalChunkStore.putMany s fragments).1 ∧
      Refines cfg (LocalChunkStore.putMany s fragments).2
        (SqliteChunkStore.putMany cfg db fragments).2 := by
  cases hscan : scan LocalChunkStore.wording fragments with
  | error status =>
    simp only [SqliteChunkStore.putMany,LocalChunkStore.putMany,hscan,true_and]
    exact h
  | ok e =>
    obtain ⟨hne,hvalid,-,-⟩ := scan_eq_ok.mp hscan
    have hempty : fragments.isEmpty = false := by simpa using hne
    have hencodable : ∀ f ∈ fragments, Encodable cfg f := fun f hf =>
      ⟨hvalid f hf,(hstorable f hf).1,(hstorable f hf).2 (hvalid f hf)⟩
    obtain ⟨es,_,_,hencode,hes⟩ := encodeAll_spec hinj db hencodable
    have hrejected := h.of_writes (writes_removeBlobs hinj hes.writes hes.owned)
    have hload := loadNodeState_eq h.node
    have hview := h.batchView_eq hload
    cases hstatus : s.status with
    | some status =>
      have hbody : putManyBody cfg db.sql e fragments es = .error (.failedPrecondition
          ("Chunk store " ++ asciiText s.nodeId ++ " is closed for writes")) := by
        simp [putManyBody,hload,hstatus,h.nodeId]
      simp only [SqliteChunkStore.putMany,LocalChunkStore.putMany,hscan,hencode,hes.writes.sql,
        hbody,hstatus]
      exact ⟨rfl,hrejected⟩
    | none =>
      cases hplan : plan LocalChunkStore.wording (LocalChunkStore.batchView s) e
          fragments with
      | error status =>
        have hbody : putManyBody cfg db.sql e fragments es = .error status := by
          simp only [putManyBody,hload,hview,ok_bind]
          simp [hstatus,hempty,hplan]
        simp only [SqliteChunkStore.putMany,LocalChunkStore.putMany,hscan,hencode,hes.writes.sql,
          hbody,hstatus,hempty,hplan]
        exact ⟨rfl,hrejected⟩
      | ok p =>
        have hp : Commits s fragments p := ⟨hstatus,e,hscan,plan_eq_ok.mp hplan⟩
        have hfst := hp.map_fst_zip_assigned es hes.encoded.length_eq
        have hinsert : insertFragments (ensureNodeRow db.sql) s.totalChunksPut (p.assigned.zip es) =
            .ok ⟨some (nodeRow db.sql),
              db.sql.fragments++insertedRows s.totalChunksPut (p.assigned.zip es)⟩ := by
          refine insertFragments_eq ?_ (fun x hx => hes.fits _ (of_mem_zip hx).2) ?_
            fun row hrow => h.rows_arrival hrow
          · rw [hfst]
            exact hp.length_nodup.2
          · intro row hrow hmem
            rw [hfst] at hmem
            obtain ⟨q,hq,-⟩ := h.stored row hrow
            exact hp.absent hmem (Finmap.mem_of_lookup_eq_some hq)
        have hbody : putManyBody cfg db.sql e fragments es =
            .ok (p.assigned,⟨some (publishedNode s (nodeRow db.sql) fragments p es),
              db.sql.fragments++insertedRows s.totalChunksPut (p.assigned.zip es)⟩) := by
          simp only [putManyBody,hload,hview,bind,Except.bind]
          simp only [hstatus,hempty,hplan,hinsert]
          rfl
        simp only [SqliteChunkStore.putMany,hscan,hencode,hes.writes.sql,hbody,
          LocalChunkStore.putMany_of_commits hp]
        exact ⟨trivial,h.publish hinj hp hes (h.nodeRefines_publish hp es)⟩

theorem exec_agrees {op : Op} (hstor : Storable cfg op) :
    Agrees (SqliteChunkStore.exec cfg db op).1 (LocalChunkStore.exec s op).1 ∧
      Refines cfg (LocalChunkStore.exec s op).2 (SqliteChunkStore.exec cfg db op).2 := by
  have hload := loadNodeState_eq h.node
  cases op with
  | putMany fragments =>
    obtain ⟨hres,href⟩ := h.exec_put hinj hstor
    simp only [SqliteChunkStore.exec,hres]
    exact ⟨Agrees.refl _,href⟩
  | clearData seq => exact h.exec_clear seq
  | closeWritesWithStatus status flag =>
    obtain ⟨hres,href⟩ := h.exec_close status flag hstor
    simp only [SqliteChunkStore.exec,hres]
    exact ⟨Agrees.refl _,href⟩
  | get seq | getByArrivalOrder order =>
    simp only [SqliteChunkStore.exec,h.read_eq]
    exact ⟨Agrees.refl _,h⟩
  | getSeqForArrivalOrder order =>
    simp only [SqliteChunkStore.exec,h.getSeqForArrivalOrder_eq]
    exact ⟨Agrees.refl _,h⟩
  | getFinalSeq | size =>
    simp only [SqliteChunkStore.exec,hload]
    exact ⟨Agrees.refl _,h⟩
  | next limit =>
    obtain ⟨hres,href⟩ := h.exec_next limit
    simp only [SqliteChunkStore.exec,hres]
    exact ⟨Agrees.refl _,href⟩

end

end Refines

/-- Whatever the threshold, the SQLite store answers every run of operations as the
in-memory store does. -/
theorem answers_agree (cfg : Config) (hinj : Function.Injective cfg.uuid) (ops : List Op)
    (hops : ∀ op ∈ ops, Storable cfg op) :
    List.Forall₂ Reply.Agrees (Runs.answers (exec cfg) {} ops)
      (Runs.answers LocalChunkStore.exec (State.empty cfg.nodeId) ops) := by
  have hstep : ∀ (db : Database) (s : State) (op : Op), Refines cfg s db → Storable cfg op →
      Agrees (exec cfg db op).1 (LocalChunkStore.exec s op).1 ∧
        Refines cfg (LocalChunkStore.exec s op).2 (exec cfg db op).2 :=
    fun db s op href hstor => href.exec_agrees hinj hstor
  have hrun := Runs.simulate hstep (refines_empty cfg.nodeId rfl) (Runs.along_of_forall hops)
  exact hrun.1

/-- A payload above the threshold, one below it, a clear, and a close. -/
theorem answers_agree_threshold :
    let unreadable : Status := .dataLoss "unreadable"
    let codec : Codec := ⟨fun _ => .error unreadable,fun _ => .error unreadable,
      fun _ => .error unreadable,fun _ => .error unreadable,fun _ => .ok [],fun _ => .ok .okStatus⟩
    let cfg : Config := ⟨[110],"blobs",2,codec,fun k => List.replicate (k+1) 97⟩
    let ops : List Op := [.putMany [{ data := .chunk { data := [1,2,3] }, continued := true },
        { data := .chunk { data := [4] } }],
      .next 1,.clearData 0,.get 0,.closeWritesWithStatus .okStatus false,.next 5]
    List.Forall₂ Agrees (Runs.answers (exec cfg) {} ops)
      (Runs.answers LocalChunkStore.exec (State.empty cfg.nodeId) ops) := by
  intro unreadable codec cfg ops
  refine answers_agree cfg (fun a b hab => ?_) ops fun op hop => ?_
  · simpa [cfg] using congrArg List.length hab
  · simp only [ops,mem_cons,not_mem_nil,or_false] at hop
    rcases hop with rfl | rfl | rfl | rfl | rfl | rfl
    · intro f hf
      simp only [mem_cons,not_mem_nil,or_false] at hf
      rcases hf with rfl | rfl <;> exact ⟨rfl,fun _ => ⟨by simp [Fits],by simp [Fits],by simp⟩⟩
    · trivial
    · trivial
    · trivial
    · exact ⟨[],rfl,by simp [Fits],rfl⟩
    · trivial

/-- A threshold above what an `int` holds. -/
def wideConfig : Config :=
  let unreadable : Status := .dataLoss "unreadable"
  ⟨[110],"blobs",8589934592,⟨fun _ => .error unreadable,fun _ => .error unreadable,
    fun _ => .error unreadable,fun _ => .error unreadable,fun _ => .ok [],fun _ => .ok .okStatus⟩,
    fun k => List.replicate (k+1) 97⟩

/-- The size of a payload of 2^32+5 bytes is narrowed to five. -/
theorem wide_answers {d : Bytes} (hlen : d.length = 4294967301) :
    Runs.answers (exec wideConfig) {} [.putMany [{ data := .chunk { data := d } }],.get 0] =
      [.now .seqs (.ok [0]),
        .now .fragment (.ok ⟨[110],.chunk { data := d.take 5 },some 0,false⟩)] := by
  let e : EncodedFragment := { finalMarker := true, payloadBytes := d.length, data := d }
  have henc : encodeFragment wideConfig {} { data := .chunk { data := d } } = (.ok e,{}) := by
    simp [encodeFragment,encodeMetadata,wideConfig,hlen,tombstoneReference,e]
  have hrow : insertedRow 0 0 e =
      ⟨0,0,true,false,.inline,some (d.take 5),[],none,none,none,none⟩ := by
    simp [insertedRow,bound,hlen,e]
  have hput : putMany wideConfig {} [{ data := .chunk { data := d } }] =
      (.ok [0],⟨⟨some ⟨false,none,some 0,0,1,1,0+[d.length].sum,some 0⟩,[insertedRow 0 0 e]⟩,
        {},0⟩) := by
    simp only [putMany,encodeAll,henc]
    rfl
  simp only [Runs.answers,exec,hput,hrow]
  rfl

theorem wide_disagree {d : Bytes} (hlen : d.length = 4294967301) :
    ¬List.Forall₂ Agrees
      (Runs.answers (exec wideConfig) {} [.putMany [{ data := .chunk { data := d } }],.get 0])
      (Runs.answers LocalChunkStore.exec (State.empty wideConfig.nodeId)
        [.putMany [{ data := .chunk { data := d } }],.get 0]) := by
  have hlocal : Runs.answers LocalChunkStore.exec (State.empty wideConfig.nodeId)
      [.putMany [{ data := .chunk { data := d } }],.get 0] = [.now .seqs (.ok [0]),
        .now .fragment (.ok ⟨[110],.chunk { data := d },some 0,false⟩)] := rfl
  rw [wide_answers hlen,hlocal]
  intro h
  have hcut : d.take 5 = d := by simpa [Agrees,now,SameResult,Except.map] using h
  have hshort := congrArg length hcut
  simp [hlen] at hshort

theorem wide_disagree_zeros :
    let ops : List Op := [.putMany [{ data := .chunk { data := List.replicate 4294967301 0 } }],
      .get 0]
    ¬List.Forall₂ Agrees (Runs.answers (exec wideConfig) {} ops)
      (Runs.answers LocalChunkStore.exec (State.empty wideConfig.nodeId) ops) :=
  wide_disagree List.length_replicate

end A11.SqliteChunkStore
