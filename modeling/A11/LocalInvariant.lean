import A11.LocalChunkStore

/-! The invariant of the in-memory store and what its critical sections may change.
A `Next` call is a sequence of `collectNext` sections that hands its accumulator from
one to the next, so allowing any accumulator covers every interleaving of calls. -/
namespace A11.LocalChunkStore
open List Table PutBatch Payload

/-- One critical section that may change the store. -/
inductive Action
  | putMany (fragments : List NodeFragment)
  | clearData (seq : UInt32)
  | closeWritesWithStatus (status : Status) (returnStatusIfAlreadyClosed : Bool)
  | collectNext (limit : ℕ) (fragments : List (Option NodeFragment))

def act (s : State) : Action → State
  | .putMany fragments => (putMany s fragments).2
  | .clearData seq => (clearData s seq).2
  | .closeWritesWithStatus status flag => (closeWritesWithStatus s status flag).2
  | .collectNext limit fragments => (collectNext s limit fragments).2

/-! ### What a section can do -/

/-- The store is open and the batch passes every check. -/
structure Commits (s : State) (fragments : List NodeFragment) (p : PutBatch.Plan) : Prop where
  isOpen : s.status = none
  accepts : ∃ e, PutBatch.scan wording fragments = .ok e ∧
    PutBatch.Accepts wording (batchView s) e fragments p

variable {s : State}

theorem putMany_of_commits {fragments : List NodeFragment} {p : Plan}
    (h : Commits s fragments p) : putMany s fragments = (.ok p.assigned,publish s fragments p) := by
  obtain ⟨hopen,e,hscan,hacc⟩ := h
  have hne : fragments.isEmpty = false := by simpa using (scan_eq_ok.mp hscan).1
  simp [putMany,hscan,hopen,hne,plan_eq_ok.mpr hacc]

theorem putMany_cases (s : State) (fragments : List NodeFragment) :
    (∃ status, putMany s fragments = (.error status,s)) ∨ ∃ p, Commits s fragments p ∧
      putMany s fragments = (.ok p.assigned,publish s fragments p) := by
  cases hscan : scan wording fragments with
  | error status => exact .inl ⟨status,by simp [putMany,hscan]⟩
  | ok e =>
    have hne : fragments.isEmpty = false := by simpa using (scan_eq_ok.mp hscan).1
    cases hstat : s.status with
    | some status => exact .inl ⟨_,by simp [putMany,hscan,hstat]; rfl⟩
    | none =>
      cases hplan : plan wording (batchView s) e fragments with
      | error status => exact .inl ⟨status,by simp [putMany,hscan,hstat,hne,hplan]⟩
      | ok p =>
        have h : Commits s fragments p := ⟨hstat,e,hscan,plan_eq_ok.mp hplan⟩
        exact .inr ⟨p,h,putMany_of_commits h⟩

theorem putMany_ok_iff {fragments : List NodeFragment} {assigned : List UInt32}
    {s' : State} : putMany s fragments = (.ok assigned,s') ↔
      ∃ p, Commits s fragments p ∧ assigned = p.assigned ∧ s' = publish s fragments p := by
  constructor
  · intro h
    obtain ⟨_,herr⟩ | ⟨p,hp,hok⟩ := putMany_cases s fragments
    · simp [herr] at h
    · rw [hok,Prod.mk.injEq,Except.ok.injEq] at h
      exact ⟨p,hp,h.1.symm,h.2.symm⟩
  · rintro ⟨p,hp,rfl,rfl⟩
    exact putMany_of_commits hp

theorem clearData_cases (s : State) (seq : UInt32) :
    (∃ status, clearData s seq = (.error status,s)) ∨
      ∃ c, s.chunks.lookup seq = some (.chunk c) ∧ clearData s seq =
        (.ok (fragmentAt s seq (.chunk c)),
          { s with chunks := s.chunks.set seq (.chunk c.tombstone) }) := by
  unfold clearData
  rcases hlook : s.chunks.lookup seq with _ | (c | r)
  · exact .inl ⟨_,rfl⟩
  · exact .inr ⟨c,rfl,rfl⟩
  · exact .inl ⟨_,rfl⟩

theorem closeWritesWithStatus_cases (s : State) (status : Status) (flag : Bool) :
    (closeWritesWithStatus s status flag).2 = s ∨
      s.status = none ∧
        closeWritesWithStatus s status flag = (.ok status,{ s with status := some status }) := by
  unfold closeWritesWithStatus
  cases hstat : s.status with
  | none => exact .inr ⟨rfl,rfl⟩
  | some closed => cases flag <;> exact .inl rfl

namespace Commits

variable {s : State} {fragments : List NodeFragment} {p : PutBatch.Plan}
  (h : Commits s fragments p)

include h

theorem length_nodup : p.assigned.length = fragments.length ∧ p.assigned.Nodup := by
  obtain ⟨e,hscan,hacc⟩ := h.accepts
  exact assign_length_nodup hscan hacc.assigned

theorem length_pos : 0 < fragments.length := by
  obtain ⟨e,hscan,-⟩ := h.accepts
  exact length_pos_iff.mpr (scan_eq_ok.mp hscan).1

theorem absent {seq : UInt32} (hseq : seq ∈ p.assigned) : seq ∉ s.chunks := by
  obtain ⟨e,-,hacc⟩ := h.accepts
  simpa [batchView] using hacc.absent seq hseq

theorem below {final : UInt32} (hfin : p.pendingFinal = some final) :
    (∀ seq ∈ p.assigned, seq ≤ final) ∧ ∀ seq ∈ s.chunks, seq ≤ final := by
  obtain ⟨e,-,hacc⟩ := h.accepts
  obtain ⟨hasgn,hlat⟩ := hacc.below final hfin
  exact ⟨hasgn,by simpa [batchView,Finmap.mem_keys] using hlat⟩

/-- The final sequence comes from the store or from the batch. -/
theorem final_origin {final : UInt32} (hfin : p.pendingFinal = some final) :
    s.finalSeq = some final ∨ final ∈ p.assigned := by
  obtain ⟨e,-,hacc⟩ := h.accepts
  obtain ⟨b,hbat,hpend⟩ := hacc.final
  rw [pendingFinal_eq_ok,hfin] at hpend
  obtain ⟨rfl,hpend⟩ | ⟨hpend,-⟩ := hpend
  · exact .inl hpend.symm
  rw [← hpend] at hbat
  have hmem := batchFinal_mem hbat
  obtain ⟨⟨f,q⟩,hx,rfl⟩ := mem_map.mp hmem
  exact .inr (of_mem_zip hx).2

theorem final_kept {final : UInt32} (hfin : s.finalSeq = some final) :
    p.pendingFinal = some final := by
  obtain ⟨e,-,hacc⟩ := h.accepts
  obtain ⟨b,-,hpend⟩ := hacc.final
  have hview : (batchView s).finalSeq = some final := hfin
  rw [pendingFinal_eq_ok,hview] at hpend
  obtain ⟨-,hpend⟩ | ⟨hpend,f,rfl,hf⟩ := hpend
  · exact hpend
  · simp only [reduceCtorEq,false_or] at hf
    rw [hpend,hf]

theorem map_fst_zip_assigned {α : Type} (xs : List α) (hxs : xs.length = fragments.length) :
    (p.assigned.zip xs).map Prod.fst = p.assigned := by
  rw [map_fst_zip]
  rw [h.length_nodup.1,hxs]

theorem lookup_chunks (seq : UInt32) (q : Payload) :
    (publish s fragments p).chunks.lookup seq = some q ↔
      s.chunks.lookup seq = some q ∨ (seq,q) ∈ p.assigned.zip (fragments.map fun f => f.data) := by
  have hfst := h.map_fst_zip_assigned (fragments.map fun f => f.data) (by simp)
  rw [publish_chunks,lookup_emplaceAll_of_fresh]
  · rw [hfst]; exact h.length_nodup.2
  · rw [hfst]; exact fun k hk => h.absent hk

theorem mem_chunks (seq : UInt32) :
    seq ∈ (publish s fragments p).chunks ↔ seq ∈ s.chunks ∨ seq ∈ p.assigned := by
  rw [publish_chunks,mem_emplaceAll,h.map_fst_zip_assigned _ (by simp)]

end Commits

/-! ### The invariant -/

/-- The two arrival maps are inverse bijections between the first `totalChunksPut`
numbers and the stored sequences, and the final sequence and the cursor fit them. -/
structure Consistent (s : State) : Prop where
  inverse : ∀ n seq,
    s.arrivalOrderToSeq.lookup n = some seq ↔ s.seqToArrivalOrder.lookup seq = some n
  arrivals : ∀ n, n ∈ s.arrivalOrderToSeq ↔ n < s.totalChunksPut
  stored : ∀ seq, seq ∈ s.seqToArrivalOrder ↔ seq ∈ s.chunks
  size : s.chunks.size = s.totalChunksPut
  final : ∀ final, s.finalSeq = some final → final ∈ s.chunks ∧ ∀ seq ∈ s.chunks, seq ≤ final
  cursor : ∀ n < s.totalChunksRead, n ≤ maxSeq ∧ UInt32.ofNat n ∈ s.chunks

/-- What is left of a payload after any number of clears. -/
def Payload.Erased : Payload → Payload → Prop
  | .chunk c, q => q = .chunk c ∨ q = .chunk c.tombstone
  | .nodeRef r, q => q = .nodeRef r

/-- What no critical section ever takes back. -/
structure Grows (s t : State) : Prop where
  payload : ∀ seq q, s.chunks.lookup seq = some q →
    ∃ q', t.chunks.lookup seq = some q' ∧ Payload.Erased q q'
  arrival : ∀ n seq, s.arrivalOrderToSeq.lookup n = some seq →
    t.arrivalOrderToSeq.lookup n = some seq
  final : ∀ final, s.finalSeq = some final → t.finalSeq = some final
  cursor : s.totalChunksRead ≤ t.totalChunksRead
  closed : ∀ status, s.status = some status → t.status = some status ∧ t.chunks.keys = s.chunks.keys

theorem consistent_empty (nodeId : Bytes) : Consistent (State.empty nodeId) := by
  constructor <;> simp [State.empty,Finmap.notMem_empty]

theorem Payload.Erased.refl (q : Payload) : Erased q q := by
  cases q <;> simp [Erased]

theorem Payload.Erased.trans {p q r : Payload} (hpq : Erased p q)
    (hqr : Erased q r) : Erased p r := by
  cases p with
  | chunk c =>
    rcases hpq with rfl | rfl
    · exact hqr
    · exact .inr (by rcases hqr with rfl | rfl <;> simp)
  | nodeRef n =>
    obtain rfl := hpq
    exact hqr

theorem Grows.refl (s : State) : Grows s s :=
  ⟨fun seq q hq => ⟨q,hq,Payload.Erased.refl q⟩,by simp,by simp,le_rfl,by simp⟩

theorem Grows.trans {s t u : State} (hst : Grows s t) (htu : Grows t u) : Grows s u where
  payload seq q hq := by
    obtain ⟨q',hq',herased⟩ := hst.payload seq q hq
    obtain ⟨q'',hq'',herased'⟩ := htu.payload seq q' hq'
    exact ⟨q'',hq'',herased.trans herased'⟩
  arrival n seq h := htu.arrival n seq (hst.arrival n seq h)
  final f h := htu.final f (hst.final f h)
  cursor := hst.cursor.trans htu.cursor
  closed status h := by
    obtain ⟨hstat,hkeys⟩ := hst.closed status h
    obtain ⟨hstat',hkeys'⟩ := htu.closed status hstat
    exact ⟨hstat',hkeys'.trans hkeys⟩

/-- A store holds at most one chunk for each sequence. -/
theorem totalChunksPut_le (hs : Consistent s) : s.totalChunksPut ≤ uint32Range := by
  have hinjective : Function.Injective UInt32.toNat := fun a b => UInt32.toNat_inj.mp
  rw [← hs.size,size,← Finset.card_image_of_injective _ hinjective]
  refine (Finset.card_le_card (t := Finset.range uint32Range) fun n hn => ?_).trans_eq
    (Finset.card_range _)
  obtain ⟨seq,-,rfl⟩ := Finset.mem_image.mp hn
  simpa [uint32Range] using seq.toNat_lt

/-- The cursor never passes more sequences than are stored. -/
theorem totalChunksRead_le (hs : Consistent s) :
    s.totalChunksRead ≤ s.totalChunksPut := by
  rw [← hs.size,← Finset.card_range s.totalChunksRead]
  refine Finset.card_le_card_of_injOn UInt32.ofNat (fun n hn => ?_) fun m hm n hn heq => ?_
  · exact Finmap.mem_keys.mpr (hs.cursor n (by simpa using hn)).2
  · have hm' := toNat_ofNat_of_le (hs.cursor m (by simpa using hm)).1
    have hn' := toNat_ofNat_of_le (hs.cursor n (by simpa using hn)).1
    rw [← hm',← hn',heq]

/-! ### Puts -/

namespace Commits

variable {s : State} {fragments : List NodeFragment} {p : PutBatch.Plan}
  (h : Commits s fragments p)

include h

section

variable (hs : Consistent s)

include hs

theorem lookup_arrival (n : ℕ) (seq : UInt32) :
    (publish s fragments p).arrivalOrderToSeq.lookup n = some seq ↔
      s.arrivalOrderToSeq.lookup n = some seq ∨
      (n,seq) ∈ (List.range' s.totalChunksPut fragments.length).zip p.assigned := by
  have hfst : ((List.range' s.totalChunksPut fragments.length).zip p.assigned).map Prod.fst =
      List.range' s.totalChunksPut fragments.length := by
    rw [map_fst_zip]
    simp [h.length_nodup.1]
  rw [publish_arrivalOrderToSeq,lookup_emplaceAll_of_fresh]
  · rw [hfst]; exact nodup_range'
  · rw [hfst]
    intro k hk
    rw [hs.arrivals]
    simp only [mem_range'_1] at hk
    omega

theorem lookup_seq (seq : UInt32) (n : ℕ) :
    (publish s fragments p).seqToArrivalOrder.lookup seq = some n ↔
      s.seqToArrivalOrder.lookup seq = some n ∨
      (seq,n) ∈ p.assigned.zip (List.range' s.totalChunksPut fragments.length) := by
  have hfst := h.map_fst_zip_assigned (List.range' s.totalChunksPut fragments.length) (by simp)
  rw [publish_seqToArrivalOrder,lookup_emplaceAll_of_fresh]
  · rw [hfst]; exact h.length_nodup.2
  · rw [hfst]
    intro k hk
    rw [hs.stored]
    exact h.absent hk

theorem consistent_publish : Consistent (publish s fragments p) where
  inverse n seq := by
    rw [h.lookup_arrival hs,h.lookup_seq hs,hs.inverse,mem_zip_swap]
  arrivals n := by
    rw [publish_arrivalOrderToSeq,mem_emplaceAll,hs.arrivals,map_fst_zip]
    · simp only [publish,mem_range'_1]
      omega
    · simp [h.length_nodup.1]
  stored seq := by
    rw [publish_seqToArrivalOrder,mem_emplaceAll,hs.stored,h.map_fst_zip_assigned _ (by simp),
      h.mem_chunks]
  size := by
    have hfst := h.map_fst_zip_assigned (fragments.map fun f => f.data) (by simp)
    rw [publish_chunks,size_emplaceAll,hs.size]
    · simp [publish,h.length_nodup.1]
    · rw [hfst]; exact h.length_nodup.2
    · rw [hfst]; exact fun k hk => h.absent hk
  final f hf := by
    obtain ⟨hasgn,hstor⟩ := h.below hf
    refine ⟨(h.mem_chunks f).mpr ?_,fun seq hseq => ?_⟩
    · exact (h.final_origin hf).imp_left fun hold => (hs.final f hold).1
    · exact ((h.mem_chunks seq).mp hseq).elim (hstor seq) (hasgn seq)
  cursor n hn := by
    obtain ⟨hmax,hmem⟩ := hs.cursor n hn
    exact ⟨hmax,(h.mem_chunks _).mpr (.inl hmem)⟩

theorem grows_publish : Grows s (publish s fragments p) where
  payload seq q hq := ⟨q,(h.lookup_chunks seq q).mpr (.inl hq),Payload.Erased.refl q⟩
  arrival n seq hn := (h.lookup_arrival hs n seq).mpr (.inl hn)
  final f hf := h.final_kept hf
  cursor := le_rfl
  closed status hstatus := by simp [h.isOpen] at hstatus

end

end Commits

/-! ### Clears and the cursor -/

theorem consistent_set {seq : UInt32} {q : Payload} (hs : Consistent s)
    (hseq : seq ∈ s.chunks) : Consistent { s with chunks := s.chunks.set seq q } where
  inverse := hs.inverse
  arrivals := hs.arrivals
  stored a := by rw [hs.stored,mem_set_of_mem _ q hseq]
  size := by
    rw [← hs.size]
    exact congrArg Finset.card (keys_set_of_mem _ q hseq)
  final f hf := by
    obtain ⟨hmem,hmax⟩ := hs.final f hf
    exact ⟨(mem_set_of_mem _ q hseq f).mpr hmem,
      fun a ha => hmax a ((mem_set_of_mem _ q hseq a).mp ha)⟩
  cursor n hn := by
    obtain ⟨hmax,hmem⟩ := hs.cursor n hn
    exact ⟨hmax,(mem_set_of_mem _ q hseq _).mpr hmem⟩

theorem grows_set {seq : UInt32} {c : Chunk} (hseq : s.chunks.lookup seq = some (.chunk c)) :
    Grows s { s with chunks := s.chunks.set seq (.chunk c.tombstone) } where
  payload a q hq := by
    rw [lookup_set]
    split_ifs with ha
    · subst ha
      obtain rfl : Payload.chunk c = q := Option.some.inj (hseq.symm.trans hq)
      exact ⟨_,rfl,.inr rfl⟩
    · exact ⟨q,hq,Payload.Erased.refl q⟩
  arrival n a hn := hn
  final f hf := hf
  cursor := le_rfl
  closed status hstatus := ⟨hstatus,keys_set_of_mem _ _ (Finmap.mem_of_lookup_eq_some hseq)⟩

/-- The fragments one section takes: consecutive from the cursor on, each as stored. -/
structure Takes (s : State) (items : List NodeFragment) : Prop where
  rows : ∀ i f, items[i]? = some f → ∃ q, s.chunks.lookup (UInt32.ofNat (s.totalChunksRead+i)) =
    some q ∧ f = fragmentAt s (UInt32.ofNat (s.totalChunksRead+i)) q
  inRange : items ≠ [] → s.totalChunksRead+items.length ≤ uint32Range

theorem collectNext_spec (s : State) (limit : ℕ) (fragments : List (Option NodeFragment)) :
    ∃ items, Takes s items ∧
      (collectNext s limit fragments).2 =
        { s with totalChunksRead := s.totalChunksRead+items.length } ∧
      NextScan.Ends (nextSource s) limit (fragments++items.map some)
        (collectNext s limit fragments).1 := by
  obtain ⟨items,hwalk,hcur,hends⟩ :=
    NextScan.collect_spec (nextSource s) limit s.totalChunksRead fragments
  refine ⟨items,⟨fun i f hf => ?_,hwalk.inRange⟩,?_,hends⟩
  · have hrow := hwalk.rows i f hf
    simp only [nextSource,Option.map_eq_some_iff,Except.ok.injEq] at hrow
    obtain ⟨q,hq,rfl⟩ := hrow
    exact ⟨q,hq,rfl⟩
  · simp [collectNext,hcur]

/-- Rows of the in-memory store need no decoding, so no pass ends in a failed row. -/
theorem collectNext_ne_failed (s : State) (limit : ℕ) (fragments : List (Option NodeFragment))
    (status : Status) : (collectNext s limit fragments).1.ending ≠ .failed status := by
  obtain ⟨_,-,-,⟨-,hend,-⟩ | ⟨-,hlook⟩⟩ := collectNext_spec s limit fragments
  · simp [hend]
  intro hfail
  obtain ⟨hp,-⟩ | ⟨hp,-⟩ | ⟨hp,-⟩ | ⟨e,-,-,hrow,-⟩ := NextScan.look_inl_cases hlook
  · rw [hp] at hfail
    exact NextScan.finish_ne_failed _ _ _ _ hfail
  · rw [hp] at hfail
    simp at hfail
  · rw [hp] at hfail
    simp at hfail
  · simp [nextSource] at hrow

theorem Takes.mem {items : List NodeFragment} (h : Takes s items) {i : ℕ}
    (hi : i < items.length) : UInt32.ofNat (s.totalChunksRead+i) ∈ s.chunks := by
  obtain ⟨q,hq,-⟩ := h.rows i items[i] (getElem?_eq_getElem hi)
  exact Finmap.mem_of_lookup_eq_some hq

theorem consistent_advance {items : List NodeFragment} (hs : Consistent s) (h : Takes s items) :
    Consistent { s with totalChunksRead := s.totalChunksRead+items.length } := { hs with
  cursor n hn := by
    change n < s.totalChunksRead+items.length at hn
    by_cases hold : n < s.totalChunksRead
    · exact hs.cursor n hold
    obtain ⟨i,rfl⟩ := Nat.exists_eq_add_of_le (Nat.le_of_not_lt hold)
    have hi : i < items.length := by omega
    have hrng := h.inRange (ne_nil_of_length_pos (by omega))
    exact ⟨by simp only [maxSeq,uint32Range] at *; omega,h.mem hi⟩ }

theorem grows_advance (n : ℕ) :
    Grows s { s with totalChunksRead := s.totalChunksRead+n } where
  payload _ q hq := ⟨q,hq,Payload.Erased.refl q⟩
  arrival _ _ hn := hn
  final _ hf := hf
  cursor := Nat.le_add_right _ _
  closed _ hstatus := ⟨hstatus,rfl⟩

/-! ### Runs -/

theorem act_spec (s : State) (a : Action) (hs : Consistent s) :
    Consistent (act s a) ∧ Grows s (act s a) := by
  cases a with
  | putMany fragments =>
    obtain ⟨status,herr⟩ | ⟨p,hp,hok⟩ := putMany_cases s fragments
    · simp only [act,herr]
      exact ⟨hs,Grows.refl s⟩
    · simp only [act,hok]
      exact ⟨hp.consistent_publish hs,hp.grows_publish hs⟩
  | clearData seq =>
    obtain ⟨status,herr⟩ | ⟨c,hc,hok⟩ := clearData_cases s seq
    · simp only [act,herr]
      exact ⟨hs,Grows.refl s⟩
    · simp only [act,hok]
      exact ⟨consistent_set hs (Finmap.mem_of_lookup_eq_some hc),grows_set hc⟩
  | closeWritesWithStatus status flag =>
    obtain hsame | ⟨hopen,hcl⟩ := closeWritesWithStatus_cases s status flag
    · simp only [act,hsame]
      exact ⟨hs,Grows.refl s⟩
    simp only [act,hcl]
    refine ⟨{ hs with },?_⟩
    exact ⟨fun seq q hq => ⟨q,hq,Payload.Erased.refl q⟩,fun _ _ h => h,fun _ h => h,le_rfl,
      by simp [hopen]⟩
  | collectNext limit fragments =>
    obtain ⟨_,htakes,hst,-⟩ := collectNext_spec s limit fragments
    simp only [act,hst]
    exact ⟨consistent_advance hs htakes,grows_advance _⟩

theorem consistent_after (nodeId : Bytes) (as : List Action) :
    Consistent (Runs.after act (State.empty nodeId) as) :=
  Runs.after_invariant (fun s a hs => (act_spec s a hs).1) (consistent_empty nodeId) as

/-- Every reachable state is consistent, and whatever follows only extends it. -/
theorem run_consistent_grows (nodeId : Bytes) (as bs : List Action) :
    Consistent (Runs.after act (State.empty nodeId) as) ∧
      Grows (Runs.after act (State.empty nodeId) as)
        (Runs.after act (State.empty nodeId) (as++bs)) := by
  have hcons := consistent_after nodeId as
  rw [Runs.after_append]
  exact ⟨hcons,Runs.after_grows Grows.refl Grows.trans (fun s a hs => (act_spec s a hs).1)
    (fun s a hs => (act_spec s a hs).2) hcons bs⟩

end A11.LocalChunkStore
