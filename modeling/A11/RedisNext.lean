import A11.RedisPut

/-! The cursor of the Redis store. The loop of the script makes its tests in another order
than the in-memory store, so the two part only where a full page ends at a gap. -/
namespace A11.RedisChunkStore

open Decimal List Option LocalChunkStore NextScan Reply
open LocalChunkStore (State nextSource)

variable {cfg : Config}

/-- The answer of the in-memory store to one pass. -/
def passReply (q : NextScan.Pass) : Reply :=
  match q.ending with
  | .done => .now .fragments (.ok q.fragments)
  | .terminal status | .failed status => .now .fragments (.error status)
  | .park => .expired nextExpired q.fragments

variable {limit : ℕ}

theorem local_next_eq (s : State) (hlim : limit ≠ 0) :
    LocalChunkStore.next s limit = (passReply (LocalChunkStore.collectNext s limit []).1,
      (LocalChunkStore.collectNext s limit []).2) := by
  simp only [LocalChunkStore.next,if_neg hlim,passReply]
  cases (LocalChunkStore.collectNext s limit []).1.ending <;> rfl

/-- A store closed cleanly, with exactly `limit` fragments before a gap that lies below
the final sequence. -/
structure GapAtLimit (s : State) (limit : ℕ) : Prop where
  closed : ∃ status, s.status = some status ∧ status.isOk
  stored : ∀ i < limit, UInt32.ofNat (s.totalChunksRead+i) ∈ s.chunks
  inRange : s.totalChunksRead+limit < uint32Range
  gap : UInt32.ofNat (s.totalChunksRead+limit) ∉ s.chunks
  below : (nextSource s).finalWasRead (s.totalChunksRead+limit) = false

/-- The same, where a pass has stopped. -/
def StopsAtGap (s : State) (limit cursor taken : ℕ) : Prop :=
  (∃ status, s.status = some status ∧ status.isOk) ∧ taken = limit ∧ cursor < uint32Range ∧
    UInt32.ofNat cursor ∉ s.chunks ∧ (nextSource s).finalWasRead cursor = false

variable {fs : List NodeFragment} {items : List Item}

theorem decodeItems_append {item : Item} {f : NodeFragment} (hitm : decodeItems cfg items = .ok fs)
    (hitem : decodeItemFields cfg item = .ok f) :
    decodeItems cfg (items++[item]) = .ok (fs++[f]) := by
  induction items generalizing fs with
  | nil =>
    obtain rfl := Except.ok.inj hitm
    simp [decodeItems,hitem]
  | cons x items ih =>
    obtain ⟨g,hg,h'⟩ := StatusOr.bind_eq_ok.mp hitm
    obtain ⟨_,hgs,h'⟩ := StatusOr.bind_eq_ok.mp h'
    obtain rfl := Except.ok.inj h'
    simp [decodeItems,hg,ih hgs]

theorem decodeItems_length (h : decodeItems cfg items = .ok fs) : fs.length = items.length := by
  induction items generalizing fs with
  | nil => rw [← Except.ok.inj h,length_nil,length_nil]
  | cons x items ih =>
    obtain ⟨g,-,h'⟩ := StatusOr.bind_eq_ok.mp h
    obtain ⟨_,hgs,h'⟩ := StatusOr.bind_eq_ok.mp h'
    rw [← Except.ok.inj h',length_cons,length_cons,ih hgs]

theorem failure_of_closed {s : State} {status : Status} (hstat : s.status = some status) :
    (nextSource s).failure = if status.isOk then none else some status := by
  cases hok : status.isOk <;> simp [Source.failure,nextSource,hstat,hok]

theorem any_final (s : State) (cursor : ℕ) : ((s.finalSeq.map UInt32.toNat).any fun f => f < cursor) =
    (nextSource s).finalWasRead cursor := by
  cases hfin : s.finalSeq <;> simp [Source.finalWasRead,nextSource,hfin]

variable {cursor : ℕ}

/-- A full page lacks the sentinel that the in-memory store adds at a gap. -/
theorem nextAnswer_ready {s : State}
    (hdecode : decodeItems cfg items = .ok fs) (hlim : 0 < limit) (hlt : cursor < uint32Range)
    (hread : (nextSource s).finalWasRead cursor = false) (hfull : items.length = limit)
    {q : Pass} (hlook : (nextSource s).look limit cursor (fs.map some) = .inl q) :
    Agrees (nextAnswer cfg ⟨.ready,cursor,items⟩) (passReply q) ↔
      ¬StopsAtGap s limit cursor items.length := by
  have hlen : (fs.map some).length = limit := by rw [length_map,decodeItems_length hdecode,hfull]
  have hans : nextAnswer cfg ⟨.ready,cursor,items⟩ = .now .fragments (.ok (fs.map some)) := by
    simp [nextAnswer,hdecode]
  have hsame : q = ⟨.done,cursor,fs.map some⟩ →
      Agrees (nextAnswer cfg ⟨.ready,cursor,items⟩) (passReply q) := by
    rintro rfl
    rw [hans]
    exact Agrees.refl _
  rw [Source.look,hread,if_neg Bool.false_ne_true] at hlook
  cases hq : s.chunks.lookup (UInt32.ofNat cursor) with
  | some payload =>
    have hstor := Finmap.mem_of_lookup_eq_some hq
    simp only [nextSource,hq,map_some,if_pos hlen,Sum.inl.injEq] at hlook
    exact iff_of_true (hsame hlook.symm) fun hgap => hgap.2.2.2.1 hstor
  | none =>
    have hmiss := Finmap.lookup_eq_none.mp hq
    have hrow : (nextSource s).row (UInt32.ofNat cursor) = none := by simp [nextSource,hq]
    simp only [hrow] at hlook
    cases hstat : s.status with
    | none =>
      simp only [nextSource,hstat,isSome_none,Bool.false_eq_true,if_false,if_pos hlen,
        Sum.inl.injEq] at hlook
      refine iff_of_true (hsame hlook.symm) fun hgap => ?_
      obtain ⟨⟨status,hsome,-⟩,-⟩ := hgap
      simp [hstat] at hsome
    | some status =>
      have hcls : (nextSource s).closed = true := by simp [nextSource,hstat]
      rw [hcls,if_pos rfl,Sum.inl.injEq,Source.finish,failure_of_closed hstat] at hlook
      cases hok : status.isOk with
      | true =>
        simp only [hok] at hlook
        refine iff_of_false ?_ (not_not.mpr ⟨⟨status,hstat,hok⟩,hfull,hlt,hmiss,hread⟩)
        rw [← hlook,hans]
        simp [Agrees,SameResult,passReply,now,Except.map]
      | false =>
        have hne : fs.map some ≠ [] := by
          rw [← length_pos_iff,hlen]
          exact hlim
        simp only [hok,if_neg hne] at hlook
        refine iff_of_true (hsame hlook.symm) fun hgap => ?_
        obtain ⟨⟨_,hsome,hok'⟩,-⟩ := hgap
        obtain rfl := some.inj (hstat.symm.trans hsome)
        simp [hok] at hok'

/-- A pass stops at a gap behind a full page exactly when there is such a gap. -/
theorem stopsAtGap_iff {s : State} {taken : ℕ}
    (htak : ((nextSource s).collect limit s.totalChunksRead []).cursor = s.totalChunksRead+taken) :
    StopsAtGap s limit (s.totalChunksRead+taken) taken ↔ GapAtLimit s limit := by
  obtain ⟨items,hwalk,hcur,hends⟩ := collect_spec (nextSource s) limit s.totalChunksRead []
  obtain rfl : items.length = taken := by omega
  constructor
  · rintro ⟨hcls,rfl,hlt,hmiss,hunr⟩
    refine ⟨hcls,fun i hi => ?_,hlt,hmiss,hunr⟩
    have hrow := hwalk.rows i _ (getElem?_eq_getElem hi)
    simp only [nextSource,map_eq_some_iff] at hrow
    obtain ⟨q,hq,-⟩ := hrow
    exact Finmap.mem_of_lookup_eq_some hq
  · rintro ⟨hcls,hstor,hlt,hmiss,hunr⟩
    have hle := hwalk.length_le (Nat.zero_le _)
    simp only [length_nil,Nat.zero_add] at hle
    rcases Nat.lt_or_eq_of_le hle with hless | heq
    · obtain ⟨q,hq⟩ := Finmap.mem_iff.mp (hstor _ hless)
      have hrow : (nextSource s).row (UInt32.ofNat (s.totalChunksRead+items.length)) =
          some (.ok (fragmentAt s (UInt32.ofNat (s.totalChunksRead+items.length)) q)) := by
        simp only [nextSource,hq,map_some]
      have htake : (nextSource s).look limit (s.totalChunksRead+items.length)
          ([]++items.map some) = .inr _ := look_eq_inr.mpr
        ⟨finalWasRead_of_le (by omega) hunr,hrow,by simpa using hless.ne⟩
      obtain ⟨_,-⟩ | ⟨-,hlook⟩ := hends
      · omega
      · rw [hcur,htake] at hlook
        simp at hlook
    · rw [← heq] at hlt hmiss hunr
      exact ⟨hcls,heq,hlt,hmiss,hunr⟩

namespace Refines

variable {s : State} {db : Database} (h : Refines cfg s db) (hback : Decodable cfg.codec s)
  {items : List Item} {fs : List NodeFragment} (hdecode : decodeItems cfg items = .ok fs)

include h hback hdecode

/-- A page at the end of the stream answers as a pass that finishes. -/
theorem nextAnswer_finish (cursor : ℕ) :
    nextAnswer cfg (match missingResult db with
      | .closed status => ⟨.closed status,cursor,items⟩
      | .wait => ⟨.ended,cursor,items⟩) =
      passReply ((nextSource s).finish cursor (fs.map some)) := by
  cases hstat : s.status with
  | none =>
    have hfail : (nextSource s).failure = none := by
      simp [Source.failure,nextSource,hstat]
    rw [h.missingResult_open hstat]
    simp [nextAnswer,hdecode,passReply,Source.finish,hfail]
  | some status =>
    obtain ⟨b,hmiss,hb⟩ := h.missingResult_closed hstat
    have hfail := failure_of_closed hstat
    rw [hmiss,Source.finish,hfail]
    cases hok : status.isOk with
    | true => simp [nextAnswer,hdecode,hb (hback.status _ hstat),hok,passReply]
    | false =>
      by_cases hnil : fs = [] <;>
        simp [nextAnswer,hdecode,hb (hback.status _ hstat),hok,passReply,hnil]

/-- A turn that takes a fragment takes the same one. -/
theorem nextLoop_take (hlt : cursor < uint32Range) {f : NodeFragment}
    (hlook : (nextSource s).look limit cursor (fs.map some) = .inr f) (fuel : ℕ) :
    ∃ item, nextLoop db (s.finalSeq.map UInt32.toNat) limit (fuel+1) cursor items =
      nextLoop db (s.finalSeq.map UInt32.toNat) limit fuel (cursor+1) (items++[item]) ∧
      decodeItems cfg (items++[item]) = .ok (fs++[f]) := by
  obtain ⟨_,hrow,hroom⟩ := look_eq_inr.mp hlook
  have hcur : (UInt32.ofNat cursor).toNat = cursor :=
    PutBatch.toNat_ofNat_of_le (by simp only [maxSeq,uint32Range] at *; omega)
  have hfin : ((s.finalSeq.map UInt32.toNat).any fun f => f < cursor) = false := by
    rwa [any_final]
  rw [length_map,decodeItems_length hdecode] at hroom
  simp only [nextSource,map_eq_some_iff,Except.ok.injEq] at hrow
  obtain ⟨q,hq,rfl⟩ := hrow
  obtain ⟨n,_,e,payload,-,-,-,hload,hpay⟩ := h.loadChunk_item hq
  have hfld := h.decodeItemFields_eq hq (hpay (hback.chunks _ _ hq))
  rw [hcur] at hload hfld
  refine ⟨⟨text cursor,e.storage,payload,finalSeqText db⟩,?_,decodeItems_append hdecode hfld⟩
  simp [nextLoop,hfin,if_neg hroom,hload]

/-- Where a pass stops, the page stops too, and its answer differs only at a gap
behind a full page. -/
theorem nextLoop_stop (hlim : 0 < limit) (hlt : cursor < uint32Range) {q : Pass}
    (hlook : (nextSource s).look limit cursor (fs.map some) = .inl q) (fuel : ℕ) :
    ∃ d, nextLoop db (s.finalSeq.map UInt32.toNat) limit (fuel+1) cursor items = ⟨d,cursor,items⟩ ∧
      ((∀ m, d ≠ .dataLoss m) ∧ ∀ r, d ≠ .s3 r) ∧
      (Agrees (nextAnswer cfg ⟨d,cursor,items⟩) (passReply q) ↔
        ¬StopsAtGap s limit cursor items.length) := by
  have hcur : (UInt32.ofNat cursor).toNat = cursor :=
    PutBatch.toNat_ofNat_of_le (by simp only [maxSeq,uint32Range] at *; omega)
  have hlen := decodeItems_length hdecode
  have hfin := h.nextAnswer_finish hback hdecode cursor
  cases hread : (nextSource s).finalWasRead cursor with
  | true =>
    rw [look_of_over _ (.inl hread),Sum.inl.injEq] at hlook
    have hno : ¬StopsAtGap s limit cursor items.length := by
      rintro ⟨-,-,-,-,hunr⟩
      simp [hread] at hunr
    have hpage : nextLoop db (s.finalSeq.map UInt32.toNat) limit (fuel+1) cursor items =
        match missingResult db with
        | .closed status => ⟨.closed status,cursor,items⟩
        | .wait => ⟨.ended,cursor,items⟩ := by
      rewrite [nextLoop,any_final,hread,if_pos rfl]
      rfl
    rw [← hlook,← hfin]
    cases hmiss : missingResult db with
    | closed b | wait =>
      rw [hmiss] at hpage
      exact ⟨_,hpage,by simp,iff_of_true (Agrees.refl _) hno⟩
  | false =>
    by_cases hfull : items.length = limit
    · refine ⟨.ready,?_,by simp,nextAnswer_ready hdecode hlim hlt hread hfull hlook⟩
      rw [nextLoop,any_final,hread,if_neg Bool.false_ne_true,if_pos hfull]
    have hno : ¬StopsAtGap s limit cursor items.length := fun hgap => hfull hgap.2.1
    have hlen' : (fs.map some).length ≠ limit := by rwa [length_map,hlen]
    have hstor : UInt32.ofNat cursor ∉ s.chunks := by
      intro hmem
      obtain ⟨payload,hpay⟩ := Finmap.mem_iff.mp hmem
      have htake : (nextSource s).look limit cursor (fs.map some) =
          .inr (fragmentAt s (UInt32.ofNat cursor) payload) :=
        look_eq_inr.mpr ⟨hread,by simp [nextSource,hpay],hlen'⟩
      simp [htake] at hlook
    have hload := h.loadChunk_missing hstor
    have hrow : (nextSource s).row (UInt32.ofNat cursor) = none := by
      simp [nextSource,Finmap.lookup_eq_none.mpr hstor]
    rw [hcur] at hload
    have hpage : nextLoop db (s.finalSeq.map UInt32.toNat) limit (fuel+1) cursor items =
        match missingResult db with
        | .closed status => ⟨.closed status,cursor,items⟩
        | .wait => ⟨.wait,cursor,items⟩ := by
      rewrite [nextLoop,any_final,hread,if_neg Bool.false_ne_true,if_neg hfull,hload]
      rfl
    cases hstat : s.status with
    | none =>
      have hopen : (nextSource s).closed = false := by simp [nextSource,hstat]
      rw [Source.look,hread,hrow] at hlook
      simp only [hopen,Bool.false_eq_true,if_false,if_neg hlen',Sum.inl.injEq] at hlook
      rw [h.missingResult_open hstat] at hpage
      refine ⟨.wait,hpage,by simp,iff_of_true ?_ hno⟩
      rw [← hlook]
      by_cases hnil : fs = [] <;>
        simp [nextAnswer,hdecode,passReply,Agrees,expired,SameResult,hnil,Status.deadlineExceeded]
    | some status =>
      obtain ⟨b,hmiss,-⟩ := h.missingResult_closed hstat
      rw [look_of_over _ (.inr ⟨hrow,by simp [nextSource,hstat]⟩),Sum.inl.injEq] at hlook
      rw [hmiss] at hpage hfin
      rw [← hlook,← hfin]
      exact ⟨.closed b,hpage,by simp,iff_of_true (Agrees.refl _) hno⟩

/-- The page and the pass stop at the same cursor. -/
theorem nextLoop_agrees (hlim : 0 < limit) (fuel cursor : ℕ) (hfuel : uint32Range-cursor = fuel) :
    ∃ d rest, nextLoop db (s.finalSeq.map UInt32.toNat) limit fuel cursor items =
        ⟨d,cursor+rest.length,items++rest⟩ ∧
      ((nextSource s).collect limit cursor (fs.map some)).cursor = cursor+rest.length ∧
      ((∀ m, d ≠ .dataLoss m) ∧ ∀ r, d ≠ .s3 r) ∧
      (Agrees (nextAnswer cfg ⟨d,cursor+rest.length,items++rest⟩)
          (passReply ((nextSource s).collect limit cursor (fs.map some))) ↔
        ¬StopsAtGap s limit (cursor+rest.length) (items.length+rest.length)) := by
  induction fuel generalizing cursor items fs with
  | zero =>
    have hge : uint32Range ≤ cursor := by omega
    refine ⟨.ended,[],by simp [nextLoop],by simp [collect_of_ge hge],by simp,iff_of_true ?_ ?_⟩
    · rw [collect_of_ge hge]
      simp [nextAnswer,hdecode,passReply,Agrees.refl]
    · rintro ⟨-,-,hlt,-⟩
      omega
  | succ fuel ih =>
    have hlt : cursor < uint32Range := by omega
    rw [collect_of_lt hlt]
    cases hlook : (nextSource s).look limit cursor (fs.map some) with
    | inl q =>
      obtain ⟨d,hpage,hd,hagr⟩ := h.nextLoop_stop hback hdecode hlim hlt hlook fuel
      exact ⟨d,[],by simpa using hpage,look_inl_cursor hlook,hd,by simpa using hagr⟩
    | inr f =>
      obtain ⟨item,hpage,hdec'⟩ := h.nextLoop_take hback hdecode hlt hlook fuel
      obtain ⟨d,rest,hrest,hcur,hd,hagr⟩ := ih hdec' (cursor+1) (by omega)
      have hshift : cursor+1+rest.length = cursor+(item::rest).length := by
        simp only [length_cons]
        omega
      have htak : (items++[item]).length+rest.length = items.length+(item::rest).length := by
        simp only [length_append,length_cons,length_nil]
        omega
      rw [hshift,append_assoc] at hrest hagr
      rw [hshift] at hcur
      rw [htak] at hagr
      simp only [map_append] at hcur hagr
      exact ⟨d,item::rest,hpage.trans hrest,hcur,hd,hagr⟩

omit hback hdecode in
/-- Before anything was written a page is the one the loop would give. -/
theorem nextLoop_unwritten (hlim : 0 < limit) (hmeta : db.metadata = none) :
    s.totalChunksRead = 0 ∧ nextLoop db (s.finalSeq.map UInt32.toNat) limit
      (uint32Range-s.totalChunksRead) s.totalChunksRead [] = ⟨.wait,0,[]⟩ := by
  obtain ⟨_,_,_,hc⟩ := h.counted
  obtain ⟨-,hemp,hstat,-⟩ | ⟨_,hsome,-⟩ := hc.metadata
  · obtain ⟨hread,hfin⟩ := h.untouched hemp
    have hload : loadChunk db 0 = .missing := h.loadChunk_missing (h.chunks_of_empty hemp 0)
    refine ⟨hread,?_⟩
    rw [hread,hfin]
    change nextLoop db none limit (4294967295+1) 0 [] = _
    simp [nextLoop,hload,h.missingResult_open hstat,hlim.ne]
  · simp [hmeta] at hsome

omit hback hdecode in
theorem advance {items : List NodeFragment} (htakes : Takes s items)
    {m : Metadata → Metadata} (hm : ∀ m', m m' =
      { m' with nextCursor := text (s.totalChunksRead+items.length) })
    (hmeta : db.metadata ≠ none) :
    Refines cfg { s with totalChunksRead := s.totalChunksRead+items.length } (updateMeta db m) := by
  obtain ⟨revision,maxSeq,cleared,hc⟩ := h.counted
  obtain ⟨hnone,-⟩ | ⟨packed,hsome,hheld⟩ := hc.metadata
  · exact absurd hnone hmeta
  have hidx := h.toIndexes.withMetadata (db.metadata.map m)
  refine ⟨{ hidx with
      nodeId := h.nodeId,
      consistent := consistent_advance h.consistent htakes },revision,maxSeq,cleared,?_,
    hc.cleared_stored,?_,hc.revision_le,.inr ⟨packed,?_,hheld⟩⟩
  · cases maxSeq <;> exact hc.isMax
  · exact fun seq n id e hindexed => hc.cleared_once seq n id e ((indexed_metadata _).mp hindexed)
  · rw [updateMeta,hsome,map_some,hm]
    rfl

omit hdecode in
/-- A call with a limit within one page moves the cursor as the in-memory store does, and
gives its answer except at a gap behind a full page. -/
theorem next_agrees (hlimit : 0 < limit) (hpage : limit ≤ maximumLuaNextBatch) :
    (Agrees (next cfg db limit).1 (LocalChunkStore.next s limit).1 ↔ ¬GapAtLimit s limit) ∧
      Refines cfg (LocalChunkStore.next s limit).2 (next cfg db limit).2 := by
  obtain ⟨_,_,_,hc⟩ := h.counted
  obtain ⟨items,htakes,hstate,-⟩ := LocalChunkStore.collectNext_spec s limit []
  have hnil : decodeItems cfg [] = .ok [] := rfl
  obtain ⟨d,rest,hloop,hcursor,hd,hagrees⟩ := h.nextLoop_agrees hback hnil hlimit _ s.totalChunksRead rfl
  simp only [map_nil,length_nil,Nat.zero_add] at hloop hcursor hagrees
  have hlength : items.length = rest.length := by
    have hread := congrArg State.totalChunksRead hstate
    simp only [LocalChunkStore.collectNext] at hread
    omega
  have hscript : nextScript cfg.nodeId db (text (min limit maximumLuaNextBatch)) =
      .ok (⟨d,s.totalChunksRead+rest.length,rest⟩,
        storeCursor db ⟨d,s.totalChunksRead+rest.length,rest⟩) := by
    have hlimitText : canonicalUint (text limit) 1024 "1024".toList = some limit :=
      canonicalUint_text hpage
    obtain ⟨n,rfl⟩ : ∃ n, limit = n+1 := ⟨limit-1,by omega⟩
    rw [nextScript,h.load_eq hc,Nat.min_eq_left hpage]
    simp only [ok_bind,hlimitText,hloop]
    split_ifs with hmeta
    · obtain ⟨hread,hwait⟩ := h.nextLoop_unwritten hlimit hmeta
      obtain ⟨rfl,-,rfl⟩ := Page.mk.inj (hloop.symm.trans hwait)
      simp [hread,storeCursor]
    · rfl
  have hnext : next cfg db limit = (nextAnswer cfg ⟨d,s.totalChunksRead+rest.length,rest⟩,
      storeCursor db ⟨d,s.totalChunksRead+rest.length,rest⟩) := by
    rw [next,if_neg hlimit.ne',hscript]
  rw [hnext,local_next_eq s hlimit.ne',hstate,← stopsAtGap_iff hcursor]
  refine ⟨hagrees,?_⟩
  have hstore : storeCursor db ⟨d,s.totalChunksRead+rest.length,rest⟩ = if rest = [] then db else
      updateMeta db fun m => { m with nextCursor := text (s.totalChunksRead+rest.length) } := by
    cases d with
    | dataLoss m => exact absurd rfl (hd.1 m)
    | s3 r => exact absurd rfl (hd.2 r)
    | ready | wait | ended | closed => rfl
  simp only [hstore]
  split_ifs with hnil
  · rw [hnil] at hlength
    rw [hlength]
    exact h
  · rw [← hlength] at *
    refine h.advance htakes (fun _ => rfl) fun hmeta => hnil ?_
    exact (Page.mk.inj (hloop.symm.trans (h.nextLoop_unwritten hlimit hmeta).2)).2.2

end Refines

end A11.RedisChunkStore
