import A11.RedisChecks

/-! Puts of the Redis store: what an accepted batch writes stands for its fragments. -/
namespace A11.RedisChunkStore

open Decimal List Table LocalChunkStore PutBatch
open LocalChunkStore (State Consistent Commits)

variable {cfg : Config}

/-- The entry written for a fragment stands for its payload. -/
theorem Encodes.holds {item : PutItem} {f : NodeFragment} (h : Encodes cfg item f)
    (seq arrival : Text) {blobs : Table Text Bytes}
    (hblob : item.storage = .redis → blobs.lookup seq = some item.payload) :
    Holds cfg.codec blobs (putEntry seq arrival item) f.data := by
  cases hdata : f.data with
  | nodeRef r =>
    obtain ⟨hs,hto⟩ := h.nodeRef r hdata
    rw [putEntry,if_neg (by simp [hs])]
    exact .nodeRef r item.payload hs rfl hto
  | chunk c =>
    obtain ⟨hs | hs,hto,htomb⟩ := h.chunk c hdata
    · rw [putEntry,if_neg (by simp [hs])]
      exact .inline c item.payload item.tombstone hs rfl hto rfl htomb
    · rw [putEntry,if_pos hs]
      exact .redis c item.payload item.tombstone rfl rfl (hblob hs) hto rfl htomb

/-! ### Writes -/

section Write

variable (db : Database) (seq arrival : ℕ) (item : PutItem)

theorem putEntry_fields (t n : Text) : (putEntry t n item).v = "1".toList ∧
    (putEntry t n item).seq = t ∧ (putEntry t n item).arrival = n := by
  unfold putEntry
  split_ifs <;> exact ⟨rfl,rfl,rfl⟩

@[simp] theorem writeItem_stream : (writeItem db seq arrival item).stream =
    db.stream.set (db.lastGeneratedId+1) (.chunk (putEntry (text seq) (text arrival) item)) := rfl

@[simp] theorem writeItem_sequences : (writeItem db seq arrival item).sequences =
    db.sequences.set (text seq) (db.lastGeneratedId+1) := rfl

@[simp] theorem writeItem_arrivals : (writeItem db seq arrival item).arrivals =
    db.arrivals.set (text arrival) (text seq) := rfl

@[simp] theorem writeItem_blobs : (writeItem db seq arrival item).blobs =
    if item.storage = .redis then db.blobs.set (text seq) item.payload else db.blobs := rfl

end Write

theorem indexed_writeItem_self (db : Database) (seq : UInt32) (arrival : ℕ) (item : PutItem) :
    Indexed (writeItem db seq.toNat arrival item) seq arrival (db.lastGeneratedId+1)
      (putEntry (text seq.toNat) (text arrival) item) := by
  obtain ⟨hv,hseq,harr⟩ := putEntry_fields item (text seq.toNat) (text arrival)
  exact ⟨by simp [lookup_set],by simp [lookup_set],hv,hseq,harr⟩

variable {db : Database}

/-- A write leaves the entries of the other sequences where they are. -/
theorem indexed_writeItem_of_ne (hids : ∀ id ∈ db.stream, id ≤ db.lastGeneratedId)
    {seq a : UInt32} (hne : a ≠ seq) {arrival n id : ℕ} {item : PutItem} {e : ChunkEntry} :
    Indexed (writeItem db seq.toNat arrival item) a n id e ↔ Indexed db a n id e := by
  refine indexed_congr ?_ fun id e he => ?_
  · rw [writeItem_sequences,lookup_set,if_neg (text_ne hne)]
  refine lookup_append_iff hids (fun heq => ?_) id
  -- the new entry carries its own sequence
  rw [← Entry.chunk.inj heq,(putEntry_fields item _ _).2.1] at he
  exact text_ne hne he.symm

namespace Indexes

variable {s : State} {db : Database} (h : Indexes cfg s db)

include h

/-- One write stands for one published fragment. -/
theorem writeItem {f : NodeFragment} {item : PutItem} {seq : UInt32} {final : Option UInt32}
    (hp : Commits s [f] ⟨[seq],final⟩) (hitem : Encodes cfg item f) :
    Indexes cfg (publish s [f] ⟨[seq],final⟩)
      (writeItem db seq.toNat s.totalChunksPut item) := by
  have hfresh : seq ∉ s.chunks := hp.absent (by simp)
  have hput : (publish s [f] ⟨[seq],final⟩).totalChunksPut =
    s.totalChunksPut+1 := rfl
  have hstat : (publish s [f] ⟨[seq],final⟩).status = s.status := rfl
  have hnew : text seq.toNat ∉ db.sequences := mt (h.sequences_iff seq).mp hfresh
  refine ⟨h.nodeId,hp.consistent_publish h.consistent,?_,?_,?_,?_,?_,?_,?_,?_,?_⟩
  · intro a q hq
    rcases (hp.lookup_chunks a q).mp hq with hold | hmem
    · have hne : a ≠ seq := by
        rintro rfl
        exact hfresh (Finmap.mem_of_lookup_eq_some hold)
      obtain ⟨n,id,e,hidx,hn,hholds⟩ := h.entries a q hold
      refine ⟨n,id,e,(indexed_writeItem_of_ne h.streamIds hne).mpr hidx,
        (hp.lookup_seq h.consistent a n).mpr (.inl hn),hholds.of_blobs fun _ => ?_⟩
      rw [writeItem_blobs,hidx.seq]
      split_ifs
      · rw [lookup_set,if_neg (text_ne hne)]
      · rfl
    · simp only [map_cons,map_nil,zip_cons_cons,zip_nil_right,mem_singleton,Prod.mk.injEq] at hmem
      obtain ⟨rfl,rfl⟩ := hmem
      refine ⟨_,_,_,indexed_writeItem_self db a s.totalChunksPut item,
        (hp.lookup_seq h.consistent a _).mpr (.inr (by simp)),hitem.holds _ _ fun hs => ?_⟩
      rw [writeItem_blobs,if_pos hs,Table.lookup_set,if_pos rfl]
  · intro t ht
    rw [writeItem_sequences,Table.mem_set] at ht
    rcases ht with rfl | ht
    · exact ⟨seq,mem_publish_single.mpr (.inr rfl),rfl⟩
    · obtain ⟨a,ha,rfl⟩ := h.sequences t ht
      exact ⟨a,mem_publish_single.mpr (.inl ha),rfl⟩
  · intro n a hn
    rw [writeItem_arrivals,lookup_set]
    rcases (hp.lookup_arrival h.consistent n a).mp hn with hold | hmem
    · have hlt := (h.consistent.arrivals n).mp (Finmap.mem_of_lookup_eq_some hold)
      rw [if_neg (fun heq => by have hnm := text_injective heq; omega)]
      exact h.arrivals n a hold
    simp only [length_singleton,range'_one,zip_cons_cons,zip_nil_right,
      mem_singleton,Prod.mk.injEq] at hmem
    obtain ⟨rfl,rfl⟩ := hmem
    rw [if_pos rfl]
  · intro t ht
    rw [writeItem_arrivals,Table.mem_set] at ht
    rcases ht with rfl | ht
    · exact ⟨s.totalChunksPut,by omega,rfl⟩
    · obtain ⟨n,hn,rfl⟩ := h.arrivalKeys t ht
      exact ⟨n,by omega,rfl⟩
  · intro t ht
    rw [writeItem_sequences,Table.mem_set]
    rw [writeItem_blobs] at ht
    split_ifs at ht
    · exact ((mem_set _ _ _ _).mp ht).imp_right (h.blobs t)
    · exact .inr (h.blobs t ht)
  · rw [writeItem_sequences,size_set_of_notMem _ _ hnew,h.sequencesSize,hput]
  · rw [writeItem_arrivals,size_set_of_notMem _ _ (h.arrival_free le_rfl),h.arrivalsSize,hput]
  · rw [writeItem_stream,size_set_of_notMem _ _ (streamIds_fresh h.streamIds),h.streamSize,hput,hstat]
    omega
  · exact streamIds_append h.streamIds _

variable {fragments : List NodeFragment} {items : List PutItem}

/-- The writes of a batch stand for the published batch. -/
theorem writeItems {p : Plan}
    (hp : Commits s fragments p) (hitm : List.Forall₂ (Encodes cfg) items fragments) :
    Indexes cfg (publish s fragments p) (writeItems db s.totalChunksPut
      ((p.assigned.map UInt32.toNat).zip items)) := by
  obtain ⟨e,hscan,-⟩ := hp.accepts
  have he := (scan_eq_ok.mp hscan).2.2.2
  clear hscan
  obtain ⟨seqs,pending⟩ := p
  induction hitm generalizing s db seqs with
  | nil =>
    obtain ⟨e',hscan,-⟩ := hp.accepts
    exact absurd rfl (scan_eq_ok.mp hscan).1
  | @cons item f items fragments hitem hitm ih =>
    obtain ⟨seq,seqs,rfl⟩ := exists_cons_of_length_eq_add_one hp.length_nodup.1
    by_cases hnil : fragments = []
    · subst hnil
      obtain rfl := forall₂_nil_right_iff.mp hitm
      obtain rfl : seqs = [] := by simpa using hp.length_nodup.1
      exact h.writeItem hp hitem
    · obtain ⟨final,hone,hmany⟩ := (commits_cons_iff hnil he).mp hp
      rw [publish_cons s f fragments seq seqs final pending]
      exact ih (h.writeItem hone hitem) (fun g hg => he g (by simp [hg])) seqs hmany

end Indexes

theorem writeItems_metadata (db : Database) (arrival : ℕ) (xs : List (ℕ × PutItem)) :
    (writeItems db arrival xs).metadata = db.metadata := by
  induction xs generalizing db arrival with
  | nil => rfl
  | cons x xs ih => exact ih _ _

/-- The writes of a batch add no entry for another sequence. -/
theorem indexed_writeItems (hids : ∀ id ∈ db.stream, id ≤ db.lastGeneratedId)
    {seqs : List UInt32} {a : UInt32} (hne : a ∉ seqs) {arrival n id : ℕ}
    {e : ChunkEntry} (h : Indexed (writeItems db arrival ((seqs.map UInt32.toNat).zip items)) a n id e) :
    Indexed db a n id e := by
  induction seqs generalizing db arrival items with
  | nil => exact h
  | cons seq seqs ih =>
    cases items with
    | nil => exact h
    | cons item items =>
      simp only [mem_cons,not_or] at hne
      exact (indexed_writeItem_of_ne hids hne.1).mp (ih (streamIds_append hids _) hne.2 h)

/-! ### The batch -/

theorem indexed_metadata (m : Option Metadata) {seq : UInt32} {n id : ℕ}
    {e : ChunkEntry} : Indexed { db with metadata := m } seq n id e ↔ Indexed db seq n id e :=
  ⟨fun h => { h with },fun h => { h with }⟩

theorem Indexes.withMetadata {s : State} (h : Indexes cfg s db)
    (m : Option Metadata) : Indexes cfg s { db with metadata := m } := { h with
  entries seq q hq := by
    obtain ⟨n,id,e,hidx,hn,hholds⟩ := h.entries seq q hq
    exact ⟨n,id,e,(indexed_metadata m).mpr hidx,hn,hholds⟩ }

namespace Refines

variable {s : State} {db : Database} (h : Refines cfg s db) {revision : ℕ} {maxSeq : Option ℕ}
  {cleared : Finset UInt32} (hc : Counted cfg.codec s db revision maxSeq cleared)

theorem canPublish {l : Loaded} (hlt : l.revision < maxRevision) : canPublishChange l = .ok () := by
  rw [canPublishChange,if_neg (by omega)]

include h hc

/-- The metadata that a change starts from. -/
theorem ensureMeta_eq : ∃ packed, ensureMeta cfg.nodeId db =
    { db with metadata := some (metadataOf s revision maxSeq packed) } ∧
      StatusHeld cfg.codec s.status packed := by
  obtain ⟨hmeta,hemp,hstat,-,rfl⟩ | ⟨packed,hmeta,hheld⟩ := hc.metadata
  · have hmax := (h.max_eq_none hc.isMax).mpr hemp
    obtain ⟨hread,hfin⟩ := h.untouched hemp
    refine ⟨none,?_,by rw [hstat]; rfl⟩
    have hfresh : freshMetadata cfg.nodeId = metadataOf s 0 maxSeq none := by
      simp only [metadataOf,hmax,hemp,hread,hfin,hstat,h.nodeId]
      rfl
    rw [ensureMeta,hmeta,Option.getD_none,hfresh]
  · exact ⟨packed,by rw [ensureMeta,hmeta,Option.getD_some],hheld⟩

/-- The keys after an accepted batch stand for the published batch. -/
theorem publish {p : Plan}
    (hp : Commits s fragments p) (hitm : List.Forall₂ (Encodes cfg) items fragments)
    {st : PutState} (hasgn : st.assigned = p.assigned.map UInt32.toNat)
    (hmax : IsMax (LocalChunkStore.publish s fragments p) st.pendingMax)
    (hfin : p.pendingFinal.map UInt32.toNat = st.batchFinal.or (s.finalSeq.map UInt32.toNat)) :
    Refines cfg (LocalChunkStore.publish s fragments p) (publishChange (updateMeta
      (writeItems (ensureMeta cfg.nodeId db) s.totalChunksPut (st.assigned.zip items)) fun m =>
        { m with
          size := increment m.size fragments.length
          putCount := increment m.putCount fragments.length
          maxSeq := st.pendingMax.map text
          finalSeq := (st.batchFinal.map text).or m.finalSeq })) := by
  obtain ⟨packed,hmeta,hheld⟩ := h.ensureMeta_eq hc
  have hidx := (h.toIndexes.withMetadata (some (metadataOf s revision maxSeq packed))).writeItems
    hp hitm
  have hmetadata := writeItems_metadata
    { db with metadata := some (metadataOf s revision maxSeq packed) } s.totalChunksPut
    ((p.assigned.map UInt32.toNat).zip items)
  rw [hmeta,hasgn]
  refine ⟨hidx.withMetadata _,revision+1,st.pendingMax,cleared,hmax,?_,?_,?_,.inr ⟨packed,?_,?_⟩⟩
  · exact fun seq hseq => (hp.mem_chunks seq).mpr (.inl (hc.cleared_stored seq hseq))
  · intro seq n id e hindexed hstor hseq
    have hne : seq ∉ p.assigned := fun hmem => hp.absent hmem (hc.cleared_stored seq hseq)
    have hold : Indexed { db with metadata := some (metadataOf s revision maxSeq packed) } seq n id e :=
      indexed_writeItems (by exact h.streamIds) hne ((indexed_metadata _).mp hindexed)
    exact hc.cleared_once seq n id e ((indexed_metadata _).mp hold) hstor hseq
  · have hle := hc.revision_le
    have hlen := hp.length_pos
    change revision+1 ≤ s.totalChunksPut+fragments.length+cleared.card+(if s.status.isSome then 1 else 0)
    omega
  · rw [publishChange,updateMeta,updateMeta,hmetadata]
    have hfin' : (LocalChunkStore.publish s fragments p).finalSeq = p.pendingFinal := rfl
    have hmap : ∀ o : Option UInt32, (o.map fun q => text q.toNat) = (o.map UInt32.toNat).map text :=
      fun o => by simp [Function.comp_def]
    simp only [metadataOf,Option.map_some,increment_text,hmap,hfin',hfin,Option.map_or]
    rfl
  · exact hheld

end Refines

theorem parseSequences_text (seqs : List UInt32) :
    parseSequences (seqs.map fun seq => text seq.toNat) = .ok seqs := by
  induction seqs with
  | nil => rfl
  | cons seq seqs ih => simp [parseSequences,parseUint32_text,ih]

namespace Refines

variable {s : State} {db : Database} (h : Refines cfg s db)

include h

/-- The script accepts the batches that the in-memory store commits, and no others. -/
theorem putScript_cases {e : Bool} (hscan : scan LocalChunkStore.wording fragments = .ok e)
    (hitm : List.Forall₂ (Encodes cfg) items fragments) (hcnt : fragments.length ≤ maxCount) :
    (∃ status, putScript cfg.nodeId db (text fragments.length) items = .error status ∧
      ∀ p, ¬ Commits s fragments p) ∨
    ∃ p db', Commits s fragments p ∧ putScript cfg.nodeId db (text fragments.length) items =
      .ok (p.assigned.map fun seq => text seq.toNat,db') ∧
        Refines cfg (LocalChunkStore.publish s fragments p) db' := by
  obtain ⟨revision,maxSeq,_,hc⟩ := h.counted
  obtain ⟨hne,-,-,he⟩ := scan_eq_ok.mp hscan
  have hload := h.load_eq hc
  have hcountText : canonicalUint (text fragments.length) maxCount maxCountText =
    some fragments.length := canonicalUint_text hcnt
  have hacc : ∀ {p}, Commits s fragments p → Accepts LocalChunkStore.wording
      (LocalChunkStore.batchView s) e fragments p := by
    intro p hp
    obtain ⟨_,hscan',hacc⟩ := hp.accepts
    obtain rfl := Except.ok.inj (hscan.symm.trans hscan')
    exact hacc
  cases hstat : s.status with
  | some status =>
    refine .inl ⟨_,by simp [putScript,hload,hstat]; rfl,fun p hp => ?_⟩
    simp [hp.isOpen] at hstat
  | none =>
    rw [hstat] at hload
    obtain ⟨first,rest,rfl⟩ : ∃ first rest, items = first::rest := by
      cases items with
      | nil => exact absurd (forall₂_nil_left_iff.mp hitm) hne
      | cons first rest => exact ⟨first,rest,rfl⟩
    have hexplicit := Encodes.explicit_eq hitm he
    generalize hl : Loaded.mk none.isSome s.totalChunksPut s.totalChunksPut s.totalChunksRead
      revision (s.finalSeq.map UInt32.toNat) maxSeq = l at hload
    have hrev : canPublishChange l = .ok () := by
      have hle := hc.revision_le
      have hcard := hc.card_le h.consistent
      have hput := LocalChunkStore.totalChunksPut_le h.consistent
      refine canPublish ?_
      rw [hstat] at hle
      simp only [← hl,uint32Range,maxRevision] at *
      simp at hle
      omega
    have hmax : IsMax s l.maxSeq := hl ▸ hc.isMax
    have hfin : l.finalSeq = s.finalSeq.map UInt32.toNat := by rw [← hl]
    have hcls : l.closed = false := by rw [← hl]; rfl
    have hput : l.putCount = s.totalChunksPut := by rw [← hl]
    have hlen : (first::rest).length = fragments.length := hitm.length_eq
    simp only [putScript,hload,bind,Except.bind,hcls,Bool.false_eq_true,if_false,hcountText,
      hlen,ne_eq,not_true_eq_false,hput,hexplicit]
    by_cases hfull : maxCount < s.totalChunksPut+fragments.length
    · refine .inl ⟨_,by rw [if_pos hfull],fun p hp => ?_⟩
      have hle := LocalChunkStore.totalChunksPut_le (hp.consistent_publish h.consistent)
      simp only [LocalChunkStore.publish,uint32Range,maxCount] at *
      omega
    rw [if_neg hfull]
    cases hloop : putLoop db e s.totalChunksPut fragments.length 1
        { candidate := s.totalChunksPut, pendingMax := l.maxSeq } (first::rest) with
    | error status =>
      refine .inl ⟨status,rfl,fun p hp => ?_⟩
      obtain ⟨st,hst,-⟩ := checks_of_accepts h.toIndexes hmax hfin hscan hitm (hacc hp)
      simp [hst] at hloop
    | ok st =>
      cases hcheck : checkPutFinal l st with
      | error status =>
        refine .inl ⟨status,by simp [hcheck],fun p hp => ?_⟩
        obtain ⟨_,hst,hok⟩ := checks_of_accepts h.toIndexes hmax hfin hscan hitm (hacc hp)
        obtain rfl := Except.ok.inj (hloop.symm.trans hst)
        simp [hok] at hcheck
      | ok u =>
        obtain ⟨p,hp,hasgn,hpend,hpendingFinal⟩ :=
          accepts_of_checks h.toIndexes hmax hfin hscan hitm hloop hcheck
        have hcom : Commits s fragments p := ⟨hstat,e,hscan,hp⟩
        refine .inr ⟨p,_,hcom,by simp only [hcheck,hrev]; rw [hasgn,map_map]; rfl,?_⟩
        simpa only [hasgn] using
          h.publish hc hcom hitm hasgn hpend hpendingFinal

/-- A batch is rejected by both stores, which then stay as they are, or it gets the
same sequences in both. -/
theorem putMany_cases
    (hstor : Storable cfg.codec (.putMany fragments)) (hfits : fragments.length ≤ maxFragments) :
    (∃ status status', putMany cfg db fragments = (.error status,db) ∧
      LocalChunkStore.putMany s fragments = (.error status',s)) ∨
    ∃ seqs db' s', putMany cfg db fragments = (.ok seqs,db') ∧
      LocalChunkStore.putMany s fragments = (.ok seqs,s') ∧ Refines cfg s' db' := by
  have hcnt : fragments.length ≤ maxCount := hfits.trans (by decide)
  rw [putMany,if_neg (Nat.not_lt.mpr hfits)]
  cases hscan : scan LocalChunkStore.wording fragments with
  | error status => exact .inl ⟨status,status,by simp,by simp [LocalChunkStore.putMany,hscan]⟩
  | ok e =>
    have hval := (scan_eq_ok.mp hscan).2.1
    obtain ⟨_,henc,hitm⟩ := encodeItems_spec fun f hf => hstor f hf (hval f hf)
    obtain ⟨status,hscr,hrejects⟩ | ⟨p,db',hp,hscr,href⟩ := h.putScript_cases hscan hitm hcnt
    · obtain ⟨status',hloc⟩ | ⟨p,hp,-⟩ := LocalChunkStore.putMany_cases s fragments
      · exact .inl ⟨status,status',by simp [henc,hscr],hloc⟩
      · exact absurd hp (hrejects p)
    · refine .inr ⟨p.assigned,db',_,?_,LocalChunkStore.putMany_of_commits hp,href⟩
      simp [henc,hscr,parseSequences_text]

end Refines

end A11.RedisChunkStore
