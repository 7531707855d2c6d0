import A11.LocalInvariant
import A11.SharedCursor

/-! Concurrent `Next` calls on the in-memory store. The store is shared by writers and
by any number of calls; a call runs one `collectNext` section when it starts and one
after each wake-up, and a wait may also end by deadline or cancellation. -/
namespace A11.LocalChunkStore
open List NextScan

structure Call where
  limit : ℕ
  fragments : List (Option NodeFragment) := []
  /-- What the call returned; none while it waits. -/
  outcome : Option (StatusOr (List (Option NodeFragment))) := none

/-- The sequences a call has taken. -/
def Call.seqs (c : Call) : List ℕ :=
  c.fragments.filterMap fun f => f.bind fun f => f.seq.map UInt32.toNat

structure World where
  store : State
  calls : List Call := []

inductive Event
  | putMany (fragments : List NodeFragment)
  | closeWritesWithStatus (status : Status) (returnStatusIfAlreadyClosed : Bool)
  | start (limit : ℕ)
  | wake (call : ℕ)
  | waitFails (call : ℕ) (status : Status)

/-- The result of a section, when the call has its answer. -/
def settle (pass : NextScan.Pass) : Option (StatusOr (List (Option NodeFragment))) :=
  match pass.ending with
  | .done => some (.ok pass.fragments)
  | .terminal status | .failed status => some (.error status)
  | .park => none

theorem settle_of_done {pass : Pass} (h : pass.ending = .done) :
    settle pass = some (.ok pass.fragments) := by
  simp [settle,h]

/-- One section of a waiting call. -/
def runSection (w : World) (i : ℕ) : World :=
  match w.calls[i]? with
  | none => w
  | some c =>
    if c.outcome.isSome then w
    else
      let (pass,store) := collectNext w.store c.limit c.fragments
      ⟨store,w.calls.set i ⟨c.limit,pass.fragments,settle pass⟩⟩

def react (w : World) : Event → World
  | .putMany fragments => { w with store := (putMany w.store fragments).2 }
  | .closeWritesWithStatus status flag =>
    { w with store := (closeWritesWithStatus w.store status flag).2 }
  | .start limit =>
    if limit = 0 then
      { w with calls := w.calls++
        [⟨limit,[],some (.error (.invalidArgument "limit must be positive"))⟩] }
    else runSection { w with calls := w.calls++[⟨limit,[],none⟩] } w.calls.length
  | .wake i => runSection w i
  | .waitFails i status =>
    match w.calls[i]? with
    | none => w
    | some c =>
      if c.outcome.isSome then w
      else { w with calls := w.calls.set i { c with
        outcome := some (if c.fragments = [] then .error status else .ok c.fragments) } }

/-! ### What the calls have in hand -/

/-- The stream has ended for every later call: its final fragment was handed out, it
was closed cleanly in front of a missing sequence, or no sequence is left. -/
def Ended (s : State) : Prop :=
  (∃ final, s.finalSeq = some final ∧ final.toNat < s.totalChunksRead) ∨
  (∃ status, s.status = some status ∧ status.isOk ∧ UInt32.ofNat s.totalChunksRead ∉ s.chunks) ∨
  uint32Range ≤ s.totalChunksRead

structure CallOk (s : State) (c : Call) : Prop where
  payload : ∀ f, some f ∈ c.fragments → ∃ seq, f.seq = some seq ∧ f.id = s.nodeId ∧
    s.chunks.lookup seq = some f.data
  waiting : c.outcome = none → ∃ items : List NodeFragment, c.fragments = items.map some
  sentinel : none ∈ c.fragments → Ended s ∧
    ∃ items : List NodeFragment, c.fragments = items.map some++[none]
  returned : ∀ fragments, c.outcome = some (.ok fragments) → fragments = c.fragments
  failed : ∀ status, c.outcome = some (.error status) → c.fragments = []

structure Served (w : World) : Prop where
  consistent : Consistent w.store
  shares : SharedCursor.Shares (w.calls.map Call.seqs) w.store.totalChunksRead
  calls : ∀ c ∈ w.calls, CallOk w.store c

/-- What a call relies on stays as the store moves on. -/
structure Keeps (s t : State) : Prop where
  nodeId : t.nodeId = s.nodeId
  payload : ∀ seq q, s.chunks.lookup seq = some q → t.chunks.lookup seq = some q
  ended : Ended s → Ended t

variable {c : Call} {s : State}

theorem CallOk.keeps {t : State} (h : CallOk s c) (hst : Keeps s t) : CallOk t c := { h with
  payload f hf := by
    obtain ⟨seq,hseq,hid,hq⟩ := h.payload f hf
    exact ⟨seq,hseq,hid.trans hst.nodeId.symm,hst.payload seq _ hq⟩
  sentinel hnone := (h.sentinel hnone).imp_left hst.ended }

theorem keeps_refl (s : State) : Keeps s s := ⟨rfl,fun _ _ h => h,id⟩

theorem keeps_putMany (s : State) (fragments : List NodeFragment) :
    Keeps s (putMany s fragments).2 := by
  obtain ⟨status,herr⟩ | ⟨p,hp,hok⟩ := putMany_cases s fragments
  · rw [herr]
    exact keeps_refl s
  rw [hok]
  refine ⟨rfl,fun seq q hq => (hp.lookup_chunks seq q).mpr (.inl hq),?_⟩
  rintro (⟨final,hfin,hlt⟩ | ⟨status,hstat,-⟩ | hrng)
  · exact .inl ⟨final,hp.final_kept hfin,hlt⟩
  · simp [hp.isOpen] at hstat
  · exact .inr (.inr hrng)

theorem keeps_closeWritesWithStatus (s : State) (status : Status) (flag : Bool) :
    Keeps s (closeWritesWithStatus s status flag).2 := by
  obtain hsame | ⟨hopen,hcl⟩ := closeWritesWithStatus_cases s status flag
  · rw [hsame]
    exact keeps_refl s
  rw [hcl]
  refine ⟨rfl,fun _ _ h => h,?_⟩
  rintro (hfin | ⟨_,hold,-⟩ | hrng)
  · exact .inl hfin
  · simp [hopen] at hold
  · exact .inr (.inr hrng)

variable {items : List NodeFragment}

theorem keeps_advance (h : Takes s items) :
    Keeps s { s with totalChunksRead := s.totalChunksRead+items.length } := by
  refine ⟨rfl,fun _ _ h => h,?_⟩
  rintro (⟨final,hfin,hlt⟩ | ⟨status,hstat,hok,hmiss⟩ | hrng)
  · exact .inl ⟨final,hfin,Nat.lt_of_lt_of_le hlt (Nat.le_add_right _ _)⟩
  · have hnil : items = [] := by
      by_contra hne
      exact hmiss (h.mem (length_pos_of_ne_nil hne))
    exact .inr (.inl ⟨status,hstat,hok,by simpa [hnil] using hmiss⟩)
  · exact .inr (.inr (Nat.le_trans hrng (Nat.le_add_right _ _)))

/-! ### One section -/

theorem ended_of_finish (hend : (nextSource s).finalWasRead s.totalChunksRead ∨
      (nextSource s).row (UInt32.ofNat s.totalChunksRead) = none ∧ (nextSource s).closed)
    (hfail : (nextSource s).failure = none) : Ended s := by
  rcases hend with hread | ⟨hrow,hcls⟩
  · simp only [Source.finalWasRead,Option.any_eq_true,decide_eq_true_eq] at hread
    exact .inl hread
  obtain ⟨status,hstat⟩ := Option.isSome_iff_exists.mp hcls
  simp only [Source.failure,nextSource,hstat,Option.filter_eq_none_iff,
    Option.some.injEq,forall_eq',Bool.not_eq_true,Bool.not_eq_false'] at hfail
  simp only [nextSource,Option.map_eq_none_iff,Finmap.lookup_eq_none] at hrow
  exact .inr (.inl ⟨status,hstat,hfail,hrow⟩)

/-- What a section leaves in the hands of a call that had collected `acc`. -/
inductive Advance (s : State) (acc : List (Option NodeFragment)) (items : List NodeFragment)
    (p : NextScan.Pass) : Prop
  | waits : p.fragments = acc++items.map some → settle p = none → Advance s acc items p
  | returns : p.fragments = acc++items.map some → settle p = some (.ok p.fragments) →
      Advance s acc items p
  | fails (status : Status) : p.fragments = acc++items.map some → p.fragments = [] →
      settle p = some (.error status) → Advance s acc items p
  | ends : p.fragments = acc++items.map some++[none] → settle p = some (.ok p.fragments) →
      Ended { s with totalChunksRead := s.totalChunksRead+items.length } → Advance s acc items p

theorem finish_advance {acc : List (Option NodeFragment)}
    {t : State} (ht : t = { s with totalChunksRead := s.totalChunksRead+items.length })
    (hend : (nextSource t).finalWasRead t.totalChunksRead ∨
      (nextSource t).row (UInt32.ofNat t.totalChunksRead) = none ∧ (nextSource t).closed) :
    Advance s acc items
      ((nextSource t).finish t.totalChunksRead (acc++items.map some)) := by
  unfold Source.finish
  cases hfail : (nextSource t).failure with
  | none => exact .ends rfl rfl (ht ▸ ended_of_finish hend hfail)
  | some status =>
    split_ifs with hnil
    · exact .fails status rfl hnil rfl
    · exact .returns rfl rfl

theorem collectNext_advance (s : State) (limit : ℕ) (acc : List (Option NodeFragment)) :
    ∃ items, Takes s items ∧
      (collectNext s limit acc).2 = { s with totalChunksRead := s.totalChunksRead+items.length } ∧
      Advance s acc items (collectNext s limit acc).1 := by
  obtain ⟨items,htakes,hst,hends⟩ := collectNext_spec s limit acc
  refine ⟨items,htakes,hst,?_⟩
  have hcur : (collectNext s limit acc).1.cursor = s.totalChunksRead+items.length :=
    congrArg State.totalChunksRead hst
  obtain ⟨hge,hending,hfrag⟩ | ⟨-,hlook⟩ := hends
  · exact .ends hfrag (settle_of_done hending) (.inr (.inr (hcur ▸ hge)))
  rw [hcur] at hlook
  obtain ⟨hp,hend⟩ | ⟨hp,-⟩ | ⟨hp,-⟩ | ⟨_,hp,-,hrow,-⟩ := look_inl_cases hlook
  · rw [hp]
    exact finish_advance rfl hend
  · rw [hp]
    exact .returns rfl rfl
  · rw [hp]
    exact .waits rfl rfl
  · simp [nextSource] at hrow

theorem Takes.seqs (h : Takes s items) :
    (items.map some).filterMap (fun f => f.bind fun f => f.seq.map UInt32.toNat) =
      List.range' s.totalChunksRead items.length := by
  have hitem : ∀ i (hi : i < items.length),
      items[i].seq.map UInt32.toNat = some (s.totalChunksRead+i) := by
    intro i hi
    obtain ⟨q,-,hf⟩ := h.rows i items[i] (getElem?_eq_getElem hi)
    have hrng := h.inRange (ne_nil_of_length_pos (by omega))
    have hmax : s.totalChunksRead+i ≤ maxSeq := by
      simp only [maxSeq,uint32Range] at *
      omega
    rw [hf]
    exact congrArg some (PutBatch.toNat_ofNat_of_le hmax)
  have hmap : items.map (fun f => f.seq.map UInt32.toNat) =
      (List.range' s.totalChunksRead items.length).map some := by
    apply ext_getElem
    · simp
    · intro i h₁ h₂
      simp only [getElem_map,getElem_range',Nat.one_mul]
      exact hitem i (by simpa using h₁)
  calc (items.map some).filterMap (fun f => f.bind fun f => f.seq.map UInt32.toNat)
      = (items.map fun f => f.seq.map UInt32.toNat).filterMap id := by
        simp
    _ = List.range' s.totalChunksRead items.length := by rw [hmap]; simp

theorem Takes.payload (h : Takes s items)
    {f : NodeFragment} (hf : f ∈ items) : ∃ seq, f.seq = some seq ∧ f.id = s.nodeId ∧
      s.chunks.lookup seq = some f.data := by
  obtain ⟨i,hi,rfl⟩ := getElem_of_mem hf
  obtain ⟨q,hq,hrow⟩ := h.rows i items[i] (getElem?_eq_getElem hi)
  rw [hrow]
  exact ⟨_,rfl,rfl,hq⟩

/-- A waiting call stays well behaved across its own section. -/
theorem callOk_section {p : Pass} (hc : CallOk s c) (hwait : c.outcome = none)
    (htakes : Takes s items) (hadv : Advance s c.fragments items p) :
    CallOk { s with totalChunksRead := s.totalChunksRead+items.length }
      ⟨c.limit,p.fragments,settle p⟩ := by
  obtain ⟨held,hheld⟩ := hc.waiting hwait
  have hpay : ∀ f, some f ∈ c.fragments++items.map some → ∃ seq, f.seq = some seq ∧
      f.id = s.nodeId ∧ s.chunks.lookup seq = some f.data := by
    intro f hf
    rcases mem_append.mp hf with hf | hf
    · exact hc.payload f hf
    · exact htakes.payload (by simpa using hf)
  have hall : c.fragments++items.map some = (held++items).map some := by simp [hheld]
  cases hadv with
  | waits hp hset =>
    refine ⟨by simpa [hp] using hpay,fun _ => ⟨held++items,hp.trans hall⟩,fun h => ?_,
      by simp [hset],by simp [hset]⟩
    simp [hp,hall] at h
  | returns hp hset =>
    refine ⟨by simpa [hp] using hpay,by simp [hset],fun h => ?_,by simp [hset],by simp [hset]⟩
    simp [hp,hall] at h
  | fails status hp hnil hset =>
    exact ⟨by simp [hnil],by simp [hset],by simp [hnil],by simp [hset],fun _ _ => hnil⟩
  | ends hp hset hend =>
    exact ⟨by simpa [hp] using hpay,by simp [hset],
      fun _ => ⟨hend,held++items,by rw [hp,hall]⟩,by simp [hset],by simp [hset]⟩

/-- A call takes exactly the sequences its section moved the cursor over. -/
theorem seqs_section {p : Pass}
    (htakes : Takes s items) (hadv : Advance s c.fragments items p) :
    Call.seqs ⟨c.limit,p.fragments,settle p⟩ =
      c.seqs++List.range' s.totalChunksRead items.length := by
  rw [← htakes.seqs]
  cases hadv with
  | waits hp | returns hp | fails _ hp => simp [Call.seqs,hp]
  | ends hp => simp [Call.seqs,hp]

/-! ### Runs -/

variable {w : World}

section

variable (hw : Served w)

include hw

theorem served_runSection (i : ℕ) : Served (runSection w i) := by
  unfold runSection
  split
  · exact hw
  next c hc =>
    split_ifs with hout
    · exact hw
    have hmem := mem_of_getElem? hc
    have hwait : c.outcome = none := by simpa using hout
    obtain ⟨_,htakes,hst,hadv⟩ := collectNext_advance w.store c.limit c.fragments
    simp only [hst]
    refine ⟨consistent_advance hw.consistent htakes,?_,fun d hd => ?_⟩
    · rw [map_set,seqs_section htakes hadv]
      exact hw.shares.take (by simp [hc])
    · rcases mem_or_eq_of_mem_set hd with hd | rfl
      · exact (hw.calls d hd).keeps (keeps_advance htakes)
      · exact callOk_section (hw.calls c hmem) hwait htakes hadv

theorem served_store {store : State} (hcons : Consistent store)
    (hkeeps : Keeps w.store store) (hcur : store.totalChunksRead = w.store.totalChunksRead) :
    Served { w with store := store } :=
  ⟨hcons,hcur ▸ hw.shares,fun c hc => (hw.calls c hc).keeps hkeeps⟩

/-- A new call that has collected nothing yet. -/
theorem served_newCall (limit : ℕ) (outcome : Option (StatusOr (List (Option NodeFragment))))
    (hout : ∀ fragments, outcome = some (.ok fragments) → fragments = []) :
    Served { w with calls := w.calls++[⟨limit,[],outcome⟩] } := by
  refine ⟨hw.consistent,?_,fun c hc => ?_⟩
  · rw [map_append]
    exact hw.shares.newHolder
  · rcases mem_append.mp hc with hc | hc
    · exact hw.calls c hc
    · rw [mem_singleton.mp hc]
      exact ⟨by simp,by simp,by simp,hout,fun _ _ => rfl⟩

theorem served_waitFails {i : ℕ} (hc : w.calls[i]? = some c)
    (status : Status) (hwait : c.outcome = none) :
    Served { w with calls := w.calls.set i { c with
      outcome := some (if c.fragments = [] then .error status else .ok c.fragments) } } := by
  have hcall := hw.calls c (mem_of_getElem? hc)
  obtain ⟨_,hheld⟩ := hcall.waiting hwait
  refine ⟨hw.consistent,?_,fun d hd => ?_⟩
  · rw [map_set]
    have hsame : (w.calls.map Call.seqs)[i]? = some c.seqs := by simp [hc]
    have htake := hw.shares.take (n := 0) hsame
    simp only [range'_zero,append_nil] at htake
    exact htake
  · rcases mem_or_eq_of_mem_set hd with hd | rfl
    · exact hw.calls d hd
    · refine ⟨hcall.payload,by simp,fun h => by simp [hheld] at h,?_,?_⟩
      · by_cases hnil : c.fragments = [] <;> simp [hnil]
      · by_cases hnil : c.fragments = [] <;> simp [hnil]

theorem served_react (e : Event) : Served (react w e) := by
  cases e with
  | putMany fragments =>
    refine served_store hw (act_spec w.store (.putMany fragments) hw.consistent).1
      (keeps_putMany w.store fragments) ?_
    obtain ⟨status,herr⟩ | ⟨p,-,hok⟩ := putMany_cases w.store fragments
    · rw [herr]
    · rw [hok]
      rfl
  | closeWritesWithStatus status flag =>
    refine served_store hw (act_spec w.store (.closeWritesWithStatus status flag) hw.consistent).1
      (keeps_closeWritesWithStatus w.store status flag) ?_
    obtain hsame | ⟨-,hcl⟩ := closeWritesWithStatus_cases w.store status flag
    · rw [hsame]
    · rw [hcl]
  | start limit =>
    simp only [react]
    split_ifs
    · exact served_newCall hw limit _ (by simp)
    · exact served_runSection (served_newCall hw limit none (by simp)) _
  | wake i => exact served_runSection hw i
  | waitFails i status =>
    simp only [react]
    split
    · exact hw
    next c hc =>
      split
      · exact hw
      · next hout => exact served_waitFails hw hc status (by simpa using hout)

end

/-- The world after any interleaving of events on an empty store. -/
def worldAfter (nodeId : Bytes) (es : List Event) : World :=
  Runs.after react ⟨State.empty nodeId,[]⟩ es

theorem served_after (nodeId : Bytes) (es : List Event) : Served (worldAfter nodeId es) := by
  refine Runs.after_invariant (I := Served) (fun w e hw => served_react hw e) ?_ es
  exact ⟨consistent_empty nodeId,SharedCursor.Shares.empty,by simp⟩

/-- However the sections of writers and of concurrent calls interleave, the calls share
out an initial segment of the sequences, each sequence to one call and in order. A
sentinel stands last, after the stream has ended, and a failure is returned only by a
call that collected nothing. -/
theorem next_exactly_once (nodeId : Bytes) (es : List Event) :
    (∀ (i j : ℕ) (c d : Call) (seq : ℕ), (worldAfter nodeId es).calls[i]? = some c →
      (worldAfter nodeId es).calls[j]? = some d → seq ∈ c.seqs → seq ∈ d.seqs → i = j) ∧
    (∀ seq, (∃ c ∈ (worldAfter nodeId es).calls, seq ∈ c.seqs) ↔
      seq < (worldAfter nodeId es).store.totalChunksRead) ∧
    ∀ c ∈ (worldAfter nodeId es).calls,
      (c.seqs.Pairwise fun a b => a < b) ∧ CallOk (worldAfter nodeId es).store c := by
  have hsrv := served_after nodeId es
  refine ⟨fun i j c d seq hc hd hcseq hdseq => ?_,fun seq => ?_,fun c hc => ?_⟩
  · exact hsrv.shares.unique (by simp [hc]) (by simp [hd]) hcseq hdseq
  · rw [← hsrv.shares.mem_iff]
    simp
  · exact ⟨hsrv.shares.sorted _ (mem_map_of_mem hc),hsrv.calls c hc⟩

/-! ### The end of the sequence space -/

/-- A fresh store accepts any batch of valid implicit fragments that fits the sequence
space and marks no end. -/
theorem commits_empty {nodeId : Bytes} {fragments : List NodeFragment} (hne : fragments ≠ [])
    (hval : ∀ f ∈ fragments, f.validate = .ok ()) (hseq : ∀ f ∈ fragments, f.seq = none)
    (hcont : ∀ f ∈ fragments, f.continued) (hlen : fragments.length ≤ uint32Range) :
    Commits (State.empty nodeId) fragments
      ⟨(List.range' 0 fragments.length).map UInt32.ofNat,none⟩ := by
  have hnone : (fragments.filterMap fun f => f.seq) = [] := filterMap_eq_nil_iff.mpr hseq
  refine ⟨rfl,false,PutBatch.scan_eq_ok.mpr ⟨hne,hval,?_,fun f hf => by simp [hseq f hf]⟩,?_⟩
  · rw [hnone]
    exact nodup_nil
  · refine ⟨PutBatch.assignImplicit_of_free ?_ (by simpa [batchView,State.empty] using hlen),?_,
      ⟨none,PutBatch.batchFinal_of_continued fun x hx => ?_,rfl⟩,by simp⟩
    · simp [batchView,State.empty,Finmap.notMem_empty]
    · simp [batchView,State.empty,Finmap.notMem_empty]
    · exact hcont x.1 (of_mem_zip hx).1

/-- On an open store that holds every sequence and has no final one, a call with a
large enough limit runs to the end of the sequence space. -/
theorem collectNext_exhausts (hfin : s.finalSeq = none)
    (hstor : ∀ seq, seq ∈ s.chunks) (hread : s.totalChunksRead = 0) :
    (collectNext s (uint32Range+1) []).1.ending = .done ∧
      none ∈ (collectNext s (uint32Range+1) []).1.fragments := by
  obtain ⟨items,-,hst,hends⟩ := collectNext_spec s (uint32Range+1) []
  have hcur : (collectNext s (uint32Range+1) []).1.cursor = items.length := by
    exact (congrArg State.totalChunksRead hst).trans (by simp [hread])
  obtain ⟨-,hend,hfrag⟩ | ⟨_,hlook⟩ := hends
  · exact ⟨hend,by simp [hfrag]⟩
  have hunr : ∀ cursor, (nextSource s).finalWasRead cursor = false := by
    simp [Source.finalWasRead,nextSource,hfin]
  have hrow : ∀ seq, ∃ f, (nextSource s).row seq = some (.ok f) := by
    intro seq
    obtain ⟨q,hq⟩ := Finmap.mem_iff.mp (hstor seq)
    exact ⟨fragmentAt s seq q,by simp [nextSource,hq]⟩
  obtain ⟨f,hf⟩ := hrow (UInt32.ofNat (collectNext s (uint32Range+1) []).1.cursor)
  obtain ⟨-,hread' | ⟨hnone,-⟩⟩ | ⟨-,-,hlen⟩ | ⟨-,-,hnone,-⟩ | ⟨_,-,-,herr,-⟩ :=
    look_inl_cases hlook
  · simp [hunr] at hread'
  · simp [hf] at hnone
  · simp only [nil_append,length_map] at hlen
    omega
  · simp [hf] at hnone
  · simp [hf] at herr

theorem worldAfter_exhausted {nodeId : Bytes} {fragments : List NodeFragment}
    (hval : ∀ f ∈ fragments, f.validate = .ok ()) (hseq : ∀ f ∈ fragments, f.seq = none)
    (hcont : ∀ f ∈ fragments, f.continued) (hlen : fragments.length = uint32Range)
    (hw : w = worldAfter nodeId [.putMany fragments,.start (uint32Range+1)]) :
    (∃ c ∈ w.calls, c.outcome = some (.ok c.fragments) ∧ none ∈ c.fragments) ∧
      w.store.finalSeq = none ∧ w.store.status = none := by
  have hne : fragments ≠ [] := by
    rintro rfl
    simp [uint32Range] at hlen
  have hcom : Commits (State.empty nodeId) fragments _ := commits_empty hne hval hseq hcont hlen.le
  generalize hp : (⟨(List.range' 0 fragments.length).map UInt32.ofNat,none⟩ : PutBatch.Plan) = p
    at hcom
  have hstor : ∀ seq, seq ∈ (publish (State.empty nodeId) fragments p).chunks := by
    intro seq
    rw [hcom.mem_chunks,← hp]
    refine .inr (mem_map.mpr ⟨seq.toNat,?_,UInt32.ofNat_toNat⟩)
    rw [mem_range'_1,hlen]
    exact ⟨Nat.zero_le _,by simpa [uint32Range] using seq.toNat_lt⟩
  have hfin : (publish (State.empty nodeId) fragments p).finalSeq = none := by
    rw [← hp]
    rfl
  obtain ⟨hend,hnone⟩ := collectNext_exhausts hfin hstor rfl
  have hworld : w = runSection ⟨publish (State.empty nodeId) fragments p,
      [⟨uint32Range+1,[],none⟩]⟩ 0 := by
    rw [hw]
    simp [worldAfter,Runs.after,react,putMany_of_commits hcom]
  subst hworld
  exact ⟨⟨_,mem_cons_self,settle_of_done hend,hnone⟩,hfin,rfl⟩

/-- A stream of all `2^32` sequences, still open and without a final fragment, ends a
call with the sentinel. -/
theorem sentinel_without_final_or_close :
    ∃ w, w = worldAfter [97]
        [.putMany (List.replicate uint32Range { continued := true }),.start (uint32Range+1)] ∧
      (∃ c ∈ w.calls, c.outcome = some (.ok c.fragments) ∧ none ∈ c.fragments) ∧
      w.store.finalSeq = none ∧ w.store.status = none := by
  refine ⟨_,rfl,worldAfter_exhausted ?_ ?_ ?_ length_replicate rfl⟩
  · intro f hf
    rw [eq_of_mem_replicate hf]
    rfl
  · intro f hf
    rw [eq_of_mem_replicate hf]
  · intro f hf
    rw [eq_of_mem_replicate hf]

end A11.LocalChunkStore
