import A11.LocalBatch
import A11.RedisRefinement

/-! The checks of a put. The script tests each fragment in one pass, in its own order and
on decimal text, and accepts exactly the batches that the in-memory store accepts. -/
namespace A11.RedisChunkStore

open Decimal List Option PutBatch
open LocalChunkStore (State Consistent Commits)
open LocalChunkStore (batchView publish publish_chunks publish_cons wording)
open PutBatch (assign assignImplicit batchFinal pendingFinal toNat_ofNat_of_le)

variable {cfg : Config}

/-! ### Arguments -/

/-- The arguments of a fragment. -/
structure Encodes (cfg : Config) (item : PutItem) (f : NodeFragment) : Prop where
  seq : item.suppliedSeq = seqArgument f
  final : item.isFinal = finalArgument f
  chunk : ∀ c, f.data = .chunk c → (item.storage = .inline ∨ item.storage = .redis) ∧
    cfg.codec.chunkToMsgpack c = .ok item.payload ∧
    cfg.codec.chunkToMsgpack (tombstoneOf c) = .ok item.tombstone
  nodeRef : ∀ r, f.data = .nodeRef r → item.storage = .nodeRef ∧
    cfg.codec.nodeRefToMsgpack r = .ok item.payload

variable {w : PutBatch.Wording} {f : NodeFragment} {fragments : List NodeFragment} {e : Bool}
  {st : PutState} {s : State} {seq : UInt32} {seqs : List UInt32} {item : PutItem}

theorem encodeItem_spec (h : EncodesPayload cfg.codec f.data) :
    ∃ item, encodeItem cfg f = .ok item ∧ Encodes cfg item f := by
  cases hdata : f.data with
  | nodeRef r =>
    rw [hdata] at h
    obtain ⟨b,hto⟩ := h
    refine ⟨⟨seqArgument f,finalArgument f,.nodeRef,b,[]⟩,?_,rfl,rfl,by simp [hdata],?_⟩
    · simp [encodeItem,hdata,hto]
    · intro r' heq
      obtain rfl := Payload.nodeRef.inj (hdata.symm.trans heq)
      exact ⟨rfl,hto⟩
  | chunk c =>
    rw [hdata] at h
    obtain ⟨b,t,hto,htomb⟩ := h
    refine ⟨⟨seqArgument f,finalArgument f,if cfg.inlineDataThreshold < c.data.length then .redis
      else .inline,b,t⟩,?_,rfl,rfl,?_,by simp [hdata]⟩
    · simp [encodeItem,hdata,hto,htomb]
    · intro c' heq
      obtain rfl := Payload.chunk.inj (hdata.symm.trans heq)
      refine ⟨?_,hto,htomb⟩
      split_ifs <;> simp

theorem encodeItems_spec (h : ∀ f ∈ fragments, EncodesPayload cfg.codec f.data) :
    ∃ items, encodeItems cfg fragments = .ok items ∧ List.Forall₂ (Encodes cfg) items fragments := by
  induction fragments with
  | nil => exact ⟨[],rfl,.nil⟩
  | cons f fragments ih =>
    obtain ⟨item,hitem,hencodes⟩ := encodeItem_spec (h f (by simp))
    obtain ⟨items,hitems,hrest⟩ := ih fun g hg => h g (by simp [hg])
    exact ⟨item::items,by simp [encodeItems,hitem,hitems],.cons hencodes hrest⟩

namespace Encodes

variable {item : PutItem} {f : NodeFragment} (h : Encodes cfg item f)

include h

theorem supplied_iff : item.suppliedSeq ≠ [] ↔ f.seq.isSome := by
  rw [h.seq,seqArgument]
  cases f.seq <;> simp [text_ne_nil]

theorem storage_valid : ¬(item.storage ≠ .inline ∧ item.storage ≠ .redis ∧ item.storage ≠ .nodeRef) := by
  cases hdata : f.data with
  | chunk c => obtain ⟨hs | hs,-⟩ := h.chunk c hdata <;> simp [hs]
  | nodeRef r => simp [(h.nodeRef r hdata).1]

theorem isFinal_valid : ¬(item.isFinal ≠ "0".toList ∧ item.isFinal ≠ "1".toList) := by
  rw [h.final,finalArgument]
  cases f.continued <;> decide

theorem isFinal_iff : item.isFinal = "1".toList ↔ f.continued = false := by
  rw [h.final,finalArgument]
  cases f.continued <;> decide

end Encodes

theorem Encodes.explicit_eq {first : PutItem} {rest : List PutItem}
    (hitems : List.Forall₂ (Encodes cfg) (first::rest) fragments)
    (he : ∀ f ∈ fragments, f.seq.isSome = e) : decide (first.suppliedSeq ≠ []) = e := by
  cases hitems with
  | @cons _ f _ fragments hitem hrest =>
    rw [← he f (by simp),Bool.eq_iff_iff,decide_eq_true_eq]
    exact hitem.supplied_iff

/-! ### Checks -/

/-- What the checks see once the implicit candidates below `candidate` are passed. -/
def viewAt (s : State) (candidate : ℕ) : PutBatch.View :=
  { LocalChunkStore.batchView s with putCount := candidate }

/-- The variables of the loop after a fragment that passed. -/
def advance (e : Bool) (st : PutState) (x : NodeFragment × UInt32) : PutState where
  candidate := if e then st.candidate else x.2.toNat+1
  assigned := st.assigned++[x.2.toNat]
  seen := text x.2.toNat::st.seen
  batchFinal := if x.1.continued then st.batchFinal else some x.2.toNat
  pendingMax := some (st.pendingMax.elim x.2.toNat fun m => if m < x.2.toNat then x.2.toNat else m)

theorem assign_viewAt_cons {c : ℕ} (hf : f.seq.isSome = e) :
    assign w (viewAt s c) e (f::fragments) = .ok (seq::seqs) ↔
      assign w (viewAt s c) e [f] = .ok [seq] ∧
      assign w (viewAt s (if e then c else seq.toNat+1)) e fragments = .ok seqs := by
  cases e with
  | true =>
    obtain ⟨q,hq⟩ := isSome_iff_exists.mp hf
    simp [assign,hq]
  | false =>
    change assignImplicit w (viewAt s c).taken (fragments.length+1) c = _ ↔
      assignImplicit w (viewAt s c).taken 1 c = _ ∧
      assignImplicit w (viewAt s c).taken fragments.length (seq.toNat+1) = _
    rw [assignImplicit_succ_eq_ok,assignImplicit_one]
    constructor
    · rintro ⟨hmax,_,hrest,hcons⟩
      obtain ⟨rfl,rfl⟩ := List.cons.inj hcons
      rw [toNat_ofNat_of_le hmax]
      exact ⟨⟨hmax,rfl⟩,hrest⟩
    · rintro ⟨⟨hmax,rfl⟩,hrest⟩
      rw [toNat_ofNat_of_le hmax] at hrest
      exact ⟨hmax,seqs,hrest,rfl⟩

theorem batchFinal_cons_iff {start final : Option UInt32} {entries : List (NodeFragment × UInt32)}
    (hgo : ¬(e = false ∧ start.isSome)) :
    batchFinal w e start ((f,seq)::entries) = .ok final ↔
      (f.continued = false → start = none ∧ (e = false → entries = [])) ∧
      batchFinal w e (if f.continued then start else some seq) entries = .ok final := by
  rw [batchFinal]
  cases f.continued with
  | true => cases e <;> cases start <;> simp_all
  | false =>
    cases start with
    | none => simp [batchFinal_some_eq_ok]
    | some q => simp

theorem advance_batchFinal {start : Option UInt32} (hst : st.batchFinal = start.map UInt32.toNat)
    (hgo : ¬(e = false ∧ start.isSome))
    (hmark : f.continued = false → start = none ∧ (e = false → fragments = [])) :
    (advance e st (f,seq)).batchFinal = (if f.continued then start else some seq).map UInt32.toNat ∧
      (e = false → (if f.continued then start else some seq).isSome → fragments = []) := by
  cases hcont : f.continued with
  | true =>
    refine ⟨by simp [advance,hcont,hst],fun hfalse hsome => absurd ⟨hfalse,?_⟩ hgo⟩
    simpa using hsome
  | false => exact ⟨by simp [advance,hcont],fun hfalse _ => (hmark hcont).2 hfalse⟩

namespace Indexes

variable {s : State} {db : Database} (h : Indexes cfg s db)

include h

theorem hasSequence_eq (c : ℕ) : hasSequence db = (viewAt s c).taken := by
  funext seq
  simp [hasSequence,viewAt,batchView,h.sequences_iff]

variable (w : PutBatch.Wording)

theorem putSeq_ok_iff (hitem : Encodes cfg item f) (hf : f.seq.isSome = e) {c n c' : ℕ} :
    putSeq db e c item = .ok (n,c') ↔ ∃ seq : UInt32,
      assign w (viewAt s c) e [f] = .ok [seq] ∧ n = seq.toNat ∧
        c' = if e then c else seq.toNat+1 := by
  cases e with
  | true =>
    obtain ⟨q,hq⟩ := isSome_iff_exists.mp hf
    have hsup : canonicalUint item.suppliedSeq maxSeq maxSeqText = some q.toNat := by
      rw [hitem.seq,seqArgument,hq]
      exact canonicalUint_text (toNat_le_maxSeq q)
    simp [putSeq,hsup,assign,hq,eq_comm]
  | false =>
    change _ ↔ ∃ seq, assignImplicit w (viewAt s c).taken 1 c = _ ∧ _
    simp only [assignImplicit_one,putSeq,h.hasSequence_eq c]
    generalize nextFree (viewAt s c).taken c = free
    simp only [Bool.false_eq_true,if_false]
    split_ifs with hmax
    · simp only [false_iff,not_exists]
      rintro seq ⟨⟨hle,-⟩,-⟩
      omega
    have hle := Nat.not_lt.mp hmax
    simp only [Except.ok.injEq,Prod.mk.injEq]
    constructor
    · rintro ⟨rfl,rfl⟩
      exact ⟨_,⟨hle,rfl⟩,(toNat_ofNat_of_le hle).symm,by rw [toNat_ofNat_of_le hle]⟩
    · rintro ⟨seq,⟨-,rfl⟩,rfl,rfl⟩
      rw [toNat_ofNat_of_le hle]
      exact ⟨rfl,rfl⟩

variable {count index : ℕ}

/-- The checks of a fragment that the keys of a healthy store leave. -/
theorem checkItem_ok_iff (hitem : Encodes cfg item f) (hidx : 1 ≤ index) :
    checkItem db e s.totalChunksPut count index seq.toNat st item = .ok () ↔
      text seq.toNat ∉ st.seen ∧ seq ∉ s.chunks ∧
      (f.continued = false → st.batchFinal = none ∧ (e = false → index = count)) := by
  have harr : text (s.totalChunksPut+index-1) ∉ db.arrivals := h.arrival_free (by omega)
  have hblob : text seq.toNat ∉ db.sequences → text seq.toNat ∉ db.blobs := mt (h.blobs _)
  have hstor := h.sequences_iff seq
  rw [← hstor,checkItem]
  by_cases hseen : text seq.toNat ∈ st.seen
  · simp [hseen]
  by_cases hmem : text seq.toNat ∈ db.sequences
  · simp [hseen,hmem]
  rw [if_neg (hblob hmem),if_neg harr,if_neg hitem.storage_valid,if_neg hitem.isFinal_valid]
  simp only [hitem.isFinal_iff]
  cases f.continued <;> cases st.batchFinal <;> cases e <;> simp [hseen,hmem]

theorem putItem_ok_iff (hitem : Encodes cfg item f) (hf : f.seq.isSome = e) (hindex : 1 ≤ index)
    {st' : PutState} : putItem db e s.totalChunksPut count index st item = .ok st' ↔ ∃ seq : UInt32,
      assign w (viewAt s st.candidate) e [f] = .ok [seq] ∧
      (text seq.toNat ∉ st.seen ∧ seq ∉ s.chunks ∧
        (f.continued = false → st.batchFinal = none ∧ (e = false → index = count))) ∧
      st' = advance e st (f,seq) := by
  have hsupplied : ¬((item.suppliedSeq ≠ []) ≠ e) := by
    rw [not_not,hitem.supplied_iff,hf]
  have hadvance : ∀ seq : UInt32, advance e st (f,seq) =
      { candidate := if e then st.candidate else seq.toNat+1
        assigned := st.assigned++[seq.toNat]
        seen := text seq.toNat::st.seen
        batchFinal := if item.isFinal = "1".toList then some seq.toNat else st.batchFinal
        pendingMax := some (st.pendingMax.elim seq.toNat fun m =>
          if m < seq.toNat then seq.toNat else m) } := by
    intro seq
    simp only [advance,hitem.isFinal_iff]
    cases f.continued <;> rfl
  rw [putItem,if_neg hsupplied,StatusOr.bind_eq_ok]
  constructor
  · rintro ⟨⟨n,_⟩,hseq,h'⟩
    obtain ⟨seq,hassign,rfl,rfl⟩ := (h.putSeq_ok_iff w hitem hf).mp hseq
    obtain ⟨hcheck,hst⟩ := StatusOr.check_bind_eq_ok.mp h'
    exact ⟨seq,hassign,(h.checkItem_ok_iff hitem hindex).mp hcheck,
      (hadvance seq ▸ Except.ok.inj hst).symm⟩
  · rintro ⟨seq,hassign,hcheck,rfl⟩
    refine ⟨_,(h.putSeq_ok_iff w hitem hf).mpr ⟨seq,hassign,rfl,rfl⟩,StatusOr.check_bind_eq_ok.mpr
      ⟨(h.checkItem_ok_iff hitem hindex).mpr hcheck,?_⟩⟩
    rw [hadvance]

/-- The loop accepts the batches that the in-memory store assigns new and distinct
sequences and at most one final sequence. -/
theorem putLoop_ok_iff {items : List PutItem} (hitems : List.Forall₂ (Encodes cfg) items fragments)
    (he : ∀ f ∈ fragments, f.seq.isSome = e) (hidx : 1 ≤ index)
    (hcnt : index+fragments.length = count+1) {st' : PutState} (start : Option UInt32)
    (hst : st.batchFinal = start.map UInt32.toNat)
    (hlast : e = false → start.isSome → fragments = []) :
    putLoop db e s.totalChunksPut count index st items = .ok st' ↔ ∃ seqs final,
      assign w (viewAt s st.candidate) e fragments = .ok seqs ∧
      seqs.length = fragments.length ∧ seqs.Nodup ∧
      (∀ seq ∈ seqs, text seq.toNat ∉ st.seen ∧ seq ∉ s.chunks) ∧
      batchFinal w e start (fragments.zip seqs) = .ok final ∧
      st' = (fragments.zip seqs).foldl (advance e) st := by
  induction hitems generalizing index st start with
  | nil =>
    have hasgn : ∀ seqs, assign w (viewAt s st.candidate) e [] = .ok seqs ↔ [] = seqs := by
      cases e <;> simp [assign,assignImplicit]
    simp [putLoop,hasgn,batchFinal,eq_comm]
  | @cons item f items fragments hitem hitems ih =>
    have hf : f.seq.isSome = e := he f (by simp)
    have he' : ∀ g ∈ fragments, g.seq.isSome = e := fun g hg => he g (by simp [hg])
    have hgo : ¬(e = false ∧ start.isSome) := fun hand => by simpa using hlast hand.1 hand.2
    rw [length_cons] at hcnt
    rw [putLoop,StatusOr.bind_eq_ok]
    constructor
    · rintro ⟨_,hone,hrest⟩
      obtain ⟨seq,hasgn,⟨hseen,hnew,hfinal⟩,rfl⟩ := (h.putItem_ok_iff w hitem hf hidx).mp hone
      have hmark : f.continued = false → start = none ∧ (e = false → fragments = []) := by
        intro hcont
        obtain ⟨hnone,hcounted⟩ := hfinal hcont
        refine ⟨by simpa [hst] using hnone,fun hfalse => ?_⟩
        rw [← length_eq_zero_iff]
        have hindexed := hcounted hfalse
        omega
      obtain ⟨hst',hlast'⟩ := advance_batchFinal hst hgo hmark
      obtain ⟨seqs,final,hassigns,hlen,hnd,hall,hbat,rfl⟩ :=
        (ih he' (by omega) (by omega) _ hst' hlast').mp hrest
      refine ⟨seq::seqs,final,(assign_viewAt_cons hf).mpr ⟨hasgn,hassigns⟩,by simp [hlen],?_,
        forall_mem_cons.mpr ⟨⟨hseen,hnew⟩,fun q hq => ?_⟩,
        (batchFinal_cons_iff hgo).mpr ⟨fun hcont => ?_,hbat⟩,rfl⟩
      · exact nodup_cons.mpr ⟨fun hmem => (hall seq hmem).1 (by simp [advance]),hnd⟩
      · exact ⟨fun hmem => (hall q hq).1 (by simp [advance,hmem]),(hall q hq).2⟩
      · exact ⟨(hmark hcont).1,fun hfalse => by simp [(hmark hcont).2 hfalse]⟩
    · rintro ⟨seqs,final,hassigns,hlen,hnd,hall,hbat,rfl⟩
      obtain ⟨seq,seqs,rfl⟩ := exists_cons_of_length_eq_add_one hlen
      obtain ⟨hasgn,hassigns⟩ := (assign_viewAt_cons hf).mp hassigns
      obtain ⟨hnotin,hnd⟩ := nodup_cons.mp hnd
      obtain ⟨hmark,hbat⟩ := (batchFinal_cons_iff hgo).mp hbat
      have hlen' : seqs.length = fragments.length := by simpa using hlen
      have hmark' : f.continued = false → start = none ∧ (e = false → fragments = []) :=
        fun hcont => ⟨(hmark hcont).1,fun hfalse => by
          simpa [← length_eq_zero_iff,hlen'] using (hmark hcont).2 hfalse⟩
      obtain ⟨hst',hlast'⟩ := advance_batchFinal hst hgo hmark'
      refine ⟨advance e st (f,seq),(h.putItem_ok_iff w hitem hf hidx).mpr ⟨seq,hasgn,
        ⟨(hall seq (by simp)).1,(hall seq (by simp)).2,fun hcont => ⟨?_,fun hfalse => ?_⟩⟩,rfl⟩,
        (ih he' (by omega) (by omega) _ hst' hlast').mpr
          ⟨seqs,final,hassigns,hlen',hnd,fun q hq => ⟨?_,?_⟩,hbat,rfl⟩⟩
      · simp [hst,(hmark' hcont).1]
      · simpa [(hmark' hcont).2 hfalse] using hcnt
      · have hne : q ≠ seq := fun heq => hnotin (heq ▸ hq)
        simpa [advance,UInt32.toNat_inj,text_inj,hne] using (hall q (by simp [hq])).1
      · exact (hall q (by simp [hq])).2

end Indexes

/-! ### What the loop leaves -/

theorem foldl_advance_assigned (e : Bool) (st : PutState) (entries : List (NodeFragment × UInt32)) :
    (entries.foldl (advance e) st).assigned =
      st.assigned++(entries.map Prod.snd).map UInt32.toNat := by
  induction entries generalizing st with
  | nil => simp
  | cons x entries ih => simp [ih,advance]

theorem foldl_advance_batchFinal (st : PutState)
    {entries : List (NodeFragment × UInt32)} {start final : Option UInt32}
    (hst : st.batchFinal = start.map UInt32.toNat) (h : batchFinal w e start entries = .ok final) :
    (entries.foldl (advance e) st).batchFinal = final.map UInt32.toNat := by
  induction entries generalizing st start with
  | nil => rw [← Except.ok.inj h,← hst,foldl_nil]
  | cons x entries ih =>
    obtain ⟨f,_⟩ := x
    rw [batchFinal] at h
    cases hf : f.continued with
    | true =>
      split_ifs at h
      exact ih _ (by simp [advance,hf,hst]) h
    | false =>
      simp only [hf,Bool.false_eq_true,if_false] at h
      split_ifs at h
      exact ih _ (by simp [advance,hf]) h

theorem isMax_advance (hmax : IsMax s st.pendingMax)
    (f : NodeFragment) (seq : UInt32) (final : Option UInt32) :
    IsMax (publish s [f] ⟨[seq],final⟩) (advance e st (f,seq)).pendingMax := by
  cases hm : st.pendingMax with
  | none =>
    rw [hm] at hmax
    simp only [IsMax,advance,hm,LocalChunkStore.mem_publish_single]
    refine ⟨⟨seq,.inr rfl,rfl⟩,?_⟩
    rintro q (hq | rfl)
    · exact absurd hq (hmax q)
    · exact le_rfl
  | some m =>
    rw [hm] at hmax
    obtain ⟨⟨q,hq,rfl⟩,hle⟩ := hmax
    simp only [IsMax,advance,hm,elim_some,LocalChunkStore.mem_publish_single]
    split_ifs with hlt
    · refine ⟨⟨seq,.inr rfl,rfl⟩,?_⟩
      rintro q' (hq' | rfl)
      · exact (hle q' hq').trans hlt.le
      · exact le_rfl
    · refine ⟨⟨q,.inl hq,rfl⟩,?_⟩
      rintro q' (hq' | rfl)
      · exact hle q' hq'
      · exact Nat.le_of_not_lt hlt

theorem foldl_advance_max (hlen : seqs.length = fragments.length) (pending : Option UInt32)
    (hmax : IsMax s st.pendingMax) : IsMax (publish s fragments ⟨seqs,pending⟩)
      ((fragments.zip seqs).foldl (advance e) st).pendingMax := by
  induction fragments generalizing s st seqs with
  | nil =>
    simp only [zip_nil_left,foldl_nil]
    cases hm : st.pendingMax <;> rw [hm] at hmax <;> simpa [IsMax,publish_chunks] using hmax
  | cons f fragments ih =>
    obtain ⟨seq,seqs,rfl⟩ := exists_cons_of_length_eq_add_one hlen
    rw [publish_cons s f fragments seq seqs none pending]
    exact ih (by simpa using hlen) (isMax_advance hmax f seq none)

theorem foldl_advance_start (hlen : seqs.length = fragments.length) {final : Option UInt32}
    (hbat : batchFinal w e none (fragments.zip seqs) = .ok final) (c : ℕ) (m : Option ℕ) :
    let last := (fragments.zip seqs).foldl (advance e) { candidate := c, pendingMax := m }
    last.assigned = seqs.map UInt32.toNat ∧ last.batchFinal = final.map UInt32.toNat := by
  refine ⟨?_,foldl_advance_batchFinal _ rfl hbat⟩
  rw [foldl_advance_assigned,map_snd_zip hlen.le,nil_append]

theorem IsMax.hasLater {maxSeq : Option ℕ} (hmax : IsMax s maxSeq) (final : UInt32) :
    (batchView s).hasLater final = maxSeq.any fun m => final.toNat < m := by
  rw [Bool.eq_iff_iff]
  simp only [batchView,decide_eq_true_eq,Finmap.mem_keys]
  cases maxSeq with
  | none => simpa using fun seq hseq => absurd hseq (hmax seq)
  | some m =>
    obtain ⟨⟨seq,hseq,rfl⟩,hle⟩ := hmax
    simp only [any_some,decide_eq_true_eq]
    refine ⟨?_,fun hlt => ⟨seq,hseq,hlt⟩⟩
    rintro ⟨q,hq,hlt⟩
    exact hlt.trans_le (hle q hq)

theorem pendingFinal_or {existing final pending : Option UInt32} :
    pendingFinal w existing final = .ok pending ↔
      ¬(final.isSome ∧ existing.isSome ∧ final ≠ existing) ∧ pending = final.or existing := by
  rw [pendingFinal_eq_ok]
  rcases final with _ | f <;> rcases existing with _ | q
  · simp
  · simp
  · simp
  · simp [and_comm,eq_comm]

/-- The tests of the final sequence are those of the in-memory store. -/
theorem checkPutFinal_ok_iff {l : Loaded} {final : Option UInt32} (hmax : IsMax s l.maxSeq)
    (hl : l.finalSeq = s.finalSeq.map UInt32.toNat) (hst : st.batchFinal = final.map UInt32.toNat)
    (hasgn : st.assigned = seqs.map UInt32.toNat) : checkPutFinal l st = .ok () ↔ ∃ pending,
      pendingFinal w s.finalSeq final = .ok pending ∧ ∀ f, pending = some f →
        (∀ seq ∈ seqs, seq ≤ f) ∧ (batchView s).hasLater f = false := by
  have hinj : Function.Injective (Option.map UInt32.toNat) :=
    Option.map_injective fun a b => UInt32.toNat_inj.mp
  simp only [pendingFinal_or,hmax.hasLater]
  rw [checkPutFinal,hl,hst,hasgn,← Option.map_or]
  simp only [Option.isSome_map,hinj.ne_iff]
  split_ifs with hdiffers
  · simp [hdiffers]
  simp only [hdiffers,not_false_eq_true,true_and,exists_eq_left]
  cases final.or s.finalSeq with
  | none => simp
  | some f =>
    simp only [map_some,some.injEq,forall_eq']
    cases hany : l.maxSeq.any fun m => f.toNat < m with
    | true => simp
    | false => simp [UInt32.le_iff_toNat_le]

section Batch

variable {s : State} {db : Database} {l : Loaded} {e : Bool} {fragments : List NodeFragment}
  {items : List PutItem} (h : Indexes cfg s db) (hmax : IsMax s l.maxSeq)
  (hfinal : l.finalSeq = s.finalSeq.map UInt32.toNat)
  (hscan : PutBatch.scan LocalChunkStore.wording fragments = .ok e)
  (hitems : List.Forall₂ (Encodes cfg) items fragments)

include h hmax hfinal hscan hitems

theorem accepts_of_checks (hloop : putLoop db e s.totalChunksPut fragments.length 1
      { candidate := s.totalChunksPut, pendingMax := l.maxSeq } items = .ok st)
    (hcheck : checkPutFinal l st = .ok ()) :
    ∃ p, Accepts wording (batchView s) e fragments p ∧
      st.assigned = p.assigned.map UInt32.toNat ∧ IsMax (publish s fragments p) st.pendingMax ∧
      p.pendingFinal.map UInt32.toNat = st.batchFinal.or (s.finalSeq.map UInt32.toNat) := by
  have he := (scan_eq_ok.mp hscan).2.2.2
  obtain ⟨seqs,final,hassign,hlen,-,hnew,hbat,rfl⟩ := (h.putLoop_ok_iff wording
    hitems he le_rfl (Nat.add_comm _ _) none rfl (by simp)).mp hloop
  obtain ⟨hasgn,hbatchFinal⟩ := foldl_advance_start hlen hbat s.totalChunksPut l.maxSeq
  obtain ⟨pending,hpend,hbelow⟩ := (checkPutFinal_ok_iff (w := wording) hmax hfinal
    hbatchFinal hasgn).mp hcheck
  refine ⟨⟨seqs,pending⟩,⟨hassign,?_,⟨final,hbat,hpend⟩,hbelow⟩,hasgn,
    foldl_advance_max hlen pending hmax,?_⟩
  · intro seq hseq
    simpa [batchView] using (hnew seq hseq).2
  · rw [hbatchFinal,(pendingFinal_or.mp hpend).2,map_or]

theorem checks_of_accepts {p : Plan}
    (hp : Accepts wording (batchView s) e fragments p) :
    ∃ st, putLoop db e s.totalChunksPut fragments.length 1
      { candidate := s.totalChunksPut, pendingMax := l.maxSeq } items = .ok st ∧
      checkPutFinal l st = .ok () := by
  have he := (scan_eq_ok.mp hscan).2.2.2
  obtain ⟨hlen,hnd⟩ := assign_length_nodup hscan hp.assigned
  obtain ⟨final,hbat,hpend⟩ := hp.final
  obtain ⟨hasgn,hbatchFinal⟩ := foldl_advance_start hlen hbat s.totalChunksPut l.maxSeq
  refine ⟨_,(h.putLoop_ok_iff wording hitems he le_rfl (Nat.add_comm _ _)
    none rfl (by simp)).mpr ⟨p.assigned,final,hp.assigned,hlen,hnd,fun seq hseq =>
      ⟨by simp,?_⟩,hbat,rfl⟩,(checkPutFinal_ok_iff hmax hfinal hbatchFinal hasgn).mpr
        ⟨p.pendingFinal,hpend,hp.below⟩⟩
  simpa [batchView] using hp.absent seq hseq

end Batch

end A11.RedisChunkStore
