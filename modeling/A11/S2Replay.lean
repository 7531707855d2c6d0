import A11.S2ChunkStore

/-! Replaying a stream: what a synchronisation does to a replica, whatever the pages it
reads the records in. -/
namespace A11.S2ChunkStore
open List Task

variable {cfg : Config}

/-! ### Requests -/

section Run

variable {σ : Type} (handle : (r : Request) → σ → Response r × σ) (s : Replica) (w : σ)

theorem run_ask (r : Request) :
    run handle (ask r) s w = (((handle r w).1,s),(handle r w).2) := by
  simp [ask,run_bind]

@[simp] theorem run_backend_ensure (state : Bool) : run handle (Backend.ensure state) s w =
    (((handle (.ensure state) w).1,s),(handle (.ensure state) w).2) := run_ask _ _ _ _

@[simp] theorem run_backend_tail (state : Bool) : run handle (Backend.tail state) s w =
    (((handle (.tail state) w).1,s),(handle (.tail state) w).2) := run_ask _ _ _ _

@[simp] theorem run_backend_read (start count : ℕ) (state : Bool) :
    run handle (Backend.read start count state) s w =
      (((handle (.read start count state) w).1,s),(handle (.read start count state) w).2) :=
  run_ask _ _ _ _

@[simp] theorem run_raise {α : Type} (x : StatusOr α) :
    run handle (raise x) s w = ((x.mapError .status,s),w) := rfl

@[simp] theorem run_changeReplica {α : Type} (f : Replica → StatusOr α × Replica) :
    run handle (changeReplica f) s w = (((f s).1.mapError .status,(f s).2),w) := rfl

end Run

/-! ### Headers -/

theorem repeatedHeader_eq_none (seen hs : List Header) :
    repeatedHeader seen hs = none ↔ hs.Nodup ∧ ∀ h ∈ hs, h ∉ seen := by
  induction hs generalizing seen with
  | nil => simp [repeatedHeader]
  | cons h hs ih =>
    rw [repeatedHeader]
    split_ifs with hmem
    · simp [hmem]
    rw [ih,nodup_cons]
    constructor
    · rintro ⟨hnd,hall⟩
      refine ⟨⟨fun hin => hall h hin (by simp),hnd⟩,fun a ha hseen => ?_⟩
      rcases mem_cons.mp ha with rfl | ha
      · exact hmem hseen
      · exact hall a ha (by simp [hseen])
    · rintro ⟨⟨hnot,hnd⟩,hall⟩
      refine ⟨hnd,fun a ha hseen => ?_⟩
      rcases mem_cons.mp hseen with rfl | hseen
      · exact hnot ha
      · exact hall a (by simp [ha]) hseen

variable {physical : ℕ} {record : Record}

theorem checkHeaders_eq_ok :
    checkHeaders record physical = .ok () ↔ (record.headers.map Prod.fst).Nodup := by
  have h := repeatedHeader_eq_none [] (record.headers.map Prod.fst)
  rw [checkHeaders]
  cases hrep : repeatedHeader [] (record.headers.map Prod.fst) with
  | none | some a => simpa [hrep] using h

/-! ### Whole logs -/

variable (cfg) in
/-- Apply consecutive records, up to the first that fails. -/
def replay (state : Bool) : ℕ → List Record → Replica → Change Replica
  | _, [], r => (.ok (),r)
  | physical, record::rest, r =>
    match applyRecord cfg record physical state r with
    | (.error status,r') => (.error status,r')
    | (.ok _,r') => replay state (physical+1) rest r'

variable {r' : Replica} {state : Bool} {r : Replica}

theorem replay_cons_of_ok {rest : List Record}
    (h : applyRecord cfg record physical state r = (.ok (),r')) :
    replay cfg state physical (record::rest) r = replay cfg state (physical+1) rest r' := by
  rw [replay,h]

theorem replay_cons_eq_ok {rest : List Record} :
    replay cfg state physical (record::rest) r = (.ok (),r') ↔
      ∃ t, applyRecord cfg record physical state r = (.ok (),t) ∧
        replay cfg state (physical+1) rest t = (.ok (),r') := by
  rw [replay]
  rcases applyRecord cfg record physical state r with ⟨_ | _,t⟩ <;> simp

variable (cfg) in
theorem replay_append (state : Bool) (physical : ℕ) (xs ys : List Record) (r : Replica) :
    replay cfg state physical (xs++ys) r = match replay cfg state physical xs r with
      | (.ok _,r') => replay cfg state (physical+xs.length) ys r'
      | (.error status,r') => (.error status,r') := by
  induction xs generalizing physical r with
  | nil => rfl
  | cons record xs ih =>
    rw [cons_append,replay,replay]
    rcases applyRecord cfg record physical state r with ⟨_ | _,r'⟩
    · rfl
    · simp only [ih,length_cons]
      rw [Nat.add_assoc,Nat.add_comm 1]

theorem replay_eq_ok_append {xs ys : List Record} :
    replay cfg state physical (xs++ys) r = (.ok (),r') ↔
      ∃ t, replay cfg state physical xs r = (.ok (),t) ∧
        replay cfg state (physical+xs.length) ys t = (.ok (),r') := by
  rw [replay_append]
  rcases replay cfg state physical xs r with ⟨_ | _,t⟩ <;> simp

theorem placed_cons (start : ℕ) (record : Record) (records : List Record) :
    placed start (record::records) = (start,record)::placed (start+1) records := by
  simp [placed,range'_succ]

theorem applyPage_placed (state : Bool) (start : ℕ) (records : List Record) (r : Replica) :
    applyPage cfg state (placed start records) start r =
      ((replay cfg state start records r).1.map fun _ => start+records.length,
        (replay cfg state start records r).2) := by
  induction records generalizing start r with
  | nil => rfl
  | cons record records ih =>
    rw [placed_cons,applyPage,replay,if_neg (by simp)]
    rcases applyRecord cfg record start state r with ⟨_ | _,-⟩
    · rfl
    · simp only [ih,length_cons]
      rw [Nat.add_assoc,Nat.add_comm 1]

theorem page_isEmpty {log : List Record} {start count : ℕ} :
    (page log start count).isEmpty ↔ log.length ≤ start ∨ count = 0 := by
  rw [page,placed,List.isEmpty_iff,← List.length_eq_zero_iff,List.length_zip,List.length_range',List.length_take,List.length_drop]
  omega

/-! ### What a record leaves behind -/

/-- A replica that has applied more records. -/
structure Later (r r' : Replica) : Prop where
  chunks : ∀ seq ∈ r.chunks, seq ∈ r'.chunks
  closed : r.closedStatus.isSome → r'.closedStatus.isSome
  cleared : r.cleared ⊆ r'.cleared
  cursor : r.cursor ≤ r'.cursor
  transactions : r.transactions ⊆ r'.transactions

theorem Later.refl (r : Replica) : Later r r := ⟨by simp,by simp,by simp,le_rfl,by simp⟩

theorem Later.insert (r : Replica) (transaction : Bytes) :
    Later r { r with transactions := insert transaction r.transactions } :=
  ⟨by simp,by simp,by simp,le_rfl,by simp⟩

theorem Later.trans {r s t : Replica} (hrs : Later r s) (hst : Later s t) : Later r t where
  chunks seq hseq := hst.chunks seq (hrs.chunks seq hseq)
  closed h := hst.closed (hrs.closed h)
  cleared := hrs.cleared.trans hst.cleared
  cursor := hrs.cursor.trans hst.cursor
  transactions := hrs.transactions.trans hst.transactions

theorem addChunk_grows (v : DataView) (physical : ℕ) (duplicate : String) (seq : UInt32)
    (data : Payload) (continued : Bool) :
    let v' := (addChunk v physical duplicate seq data continued).2
    (∀ a ∈ v.chunks, a ∈ v'.chunks) ∧ v'.closedStatus = v.closedStatus := by
  have hset : ∀ a ∈ v.chunks, a ∈ v.chunks.set seq data := fun a ha => by
    rw [Table.mem_set]
    exact .inr ha
  simp only [addChunk]
  split_ifs
  · simp
  · exact ⟨hset,rfl⟩
  · exact ⟨hset,rfl⟩
  · exact ⟨hset,rfl⟩

theorem addChunk_ok_mem {v v' : DataView} {duplicate : String} {seq : UInt32}
    {data : Payload} {continued : Bool}
    (h : addChunk v physical duplicate seq data continued = (.ok (),v')) : seq ∈ v'.chunks := by
  simp only [addChunk] at h
  split_ifs at h
  · simp at h
  · obtain rfl := (Prod.mk.inj h).2
    simp [Table.mem_set]
  · simp at h
  · obtain rfl := (Prod.mk.inj h).2
    simp [Table.mem_set]

variable (cfg) in
theorem applyData_grows (v : DataView) (record : Record) (physical : ℕ) :
    let v' := (applyData cfg v record physical).2
    (∀ a ∈ v.chunks, a ∈ v'.chunks) ∧ (v.closedStatus.isSome → v'.closedStatus.isSome) := by
  simp only [applyData]
  split_ifs
  · rcases decodeChunk cfg record physical with - | f | f
    · simp
    · simp
    · have h := addChunk_grows v physical "duplicate sequence" (f.seq.getD 0) f.data f.continued
      exact ⟨h.1,fun hclosed => by simpa [h.2] using hclosed⟩
  · rw [applyClose]
    split_ifs
    · simp
    · cases cfg.codec.unpackStatus record.body <;> simp
  · simp

theorem headerInt_ok {h : Header} {n : ℤ} (heq : headerInt cfg record h physical = .ok (some n)) :
    (record.get h).bind cfg.codec.parseInt = some n := by
  rw [headerInt] at heq
  cases hget : record.get h with
  | none => simp [hget] at heq
  | some value =>
    cases hpar : cfg.codec.parseInt value with
    | none => simp [hget,hpar] at heq
    | some m => simpa [hget,hpar] using heq

variable {v v' : StateView}

theorem applyAdvance_ok
    (h : applyAdvance cfg v record physical = (.ok (),v')) : ∃ previous cursor : ℕ,
      headerInt cfg record .previous physical = .ok (some (previous : ℤ)) ∧
      headerInt cfg record .cursor physical = .ok (some (cursor : ℤ)) ∧
      previous = v.cursor ∧ previous ≤ cursor ∧ v' = { v with cursor := cursor } := by
  rw [applyAdvance] at h
  rcases hprev : headerInt cfg record .previous physical with _ | _ | previous <;>
    rcases hcur : headerInt cfg record .cursor physical with _ | _ | cursor <;>
    simp only [hprev,hcur] at h
  all_goals try simp at h
  split_ifs at h with hbad
  · simp at h
  simp only [not_or,Decidable.not_not] at hbad
  obtain ⟨rfl,_⟩ := hbad
  refine ⟨v.cursor,cursor.toNat,rfl,?_,rfl,by omega,(Prod.mk.inj h).2.symm⟩
  rw [Int.toNat_of_nonneg (by omega)]

theorem applyClear_ok (h : applyClear cfg v record physical = (.ok (),v')) : ∃ seq : UInt32,
      headerInt cfg record .sequence physical = .ok (some (seq.toNat : ℤ)) ∧
      v' = { v with cleared := insert seq v.cleared } := by
  rw [applyClear] at h
  rcases hseq : headerInt cfg record .sequence physical with _ | _ | seq <;>
    simp only [hseq] at h
  · simp at h
  · simp at h
  · split_ifs at h with hbad
    · simp at h
    · simp only [not_or,not_lt] at hbad
      refine ⟨UInt32.ofNat seq.toNat,?_,(Prod.mk.inj h).2.symm⟩
      rw [PutBatch.toNat_ofNat_of_le hbad.2,Int.toNat_of_nonneg hbad.1]

/-- What an accepted state record says. -/
theorem applyState_ok (h : applyState cfg v record physical = (.ok (),v')) :
    (record.get .format = some clearFormat ∧ ∃ seq : UInt32,
      headerInt cfg record .sequence physical = .ok (some (seq.toNat : ℤ)) ∧
      v' = { v with cleared := insert seq v.cleared }) ∨
    (record.get .format = some advanceFormat ∧ ∃ previous cursor : ℕ,
      headerInt cfg record .previous physical = .ok (some (previous : ℤ)) ∧
      headerInt cfg record .cursor physical = .ok (some (cursor : ℤ)) ∧
      previous = v.cursor ∧ previous ≤ cursor ∧ v' = { v with cursor := cursor }) := by
  rw [applyState] at h
  split_ifs at h with hclr hadv
  · exact .inl ⟨hclr,applyClear_ok h⟩
  · exact .inr ⟨hadv,applyAdvance_ok h⟩
  · simp at h

theorem applyView_data_ok {r t : Replica} (h : applyView cfg r record physical false = (.ok (),t)) :
    ∃ v, applyData cfg r.toDataView record physical = (.ok (),v) ∧ t = { r with toDataView := v } := by
  obtain ⟨hok,ht⟩ := Prod.mk.inj h
  exact ⟨_,Prod.ext hok rfl,ht.symm⟩

theorem applyView_state_ok {r t : Replica} (h : applyView cfg r record physical true = (.ok (),t)) :
    ∃ v, applyState cfg r.toStateView record physical = (.ok (),v) ∧ t = { r with toStateView := v } := by
  obtain ⟨hok,ht⟩ := Prod.mk.inj h
  exact ⟨_,Prod.ext hok rfl,ht.symm⟩

theorem applyView_later {t : Replica} (h : applyView cfg r record physical state = (.ok (),t)) :
    Later r t := by
  cases state with
  | true =>
    obtain ⟨v,hv,rfl⟩ := applyView_state_ok h
    obtain ⟨-,-,-,rfl⟩ | ⟨-,_,_,-,-,hprev,hle,rfl⟩ := applyState_ok hv
    · exact ⟨by simp,by simp,by simp,le_rfl,by simp⟩
    · exact ⟨by simp,by simp,by simp,hprev ▸ hle,by simp⟩
  | false =>
    obtain ⟨v,hv,rfl⟩ := applyView_data_ok h
    have hgrows := applyData_grows cfg r.toDataView record physical
    rw [hv] at hgrows
    exact ⟨hgrows.1,hgrows.2,by simp,le_rfl,by simp⟩

theorem noteTransaction_later (record : Record) (r : Replica) : Later r (noteTransaction record r) := by
  rw [noteTransaction]
  cases record.transaction with
  | none => exact Later.refl r
  | some t => exact Later.insert r t

variable (cfg) in
theorem applyLegacyFragments_grows (physical : ℕ) (v : DataView) (encoded : List Bytes) :
    let v' := (applyLegacyFragments cfg physical v encoded).2
    (∀ a ∈ v.chunks, a ∈ v'.chunks) ∧ v'.closedStatus = v.closedStatus := by
  induction encoded generalizing v with
  | nil => simp [applyLegacyFragments]
  | cons b rest ih =>
    have hstep : (∀ a ∈ v.chunks, a ∈ (applyLegacyFragment cfg v b physical).2.chunks) ∧
        (applyLegacyFragment cfg v b physical).2.closedStatus = v.closedStatus := by
      rw [applyLegacyFragment]
      rcases cfg.codec.fragmentFromMsgpack b with - | f
      · simp
      dsimp only
      cases f.seq with
      | none => simp
      | some seq => exact addChunk_grows _ _ _ _ _ _
    rw [applyLegacyFragments]
    rcases hfragment : applyLegacyFragment cfg v b physical with ⟨_ | _,v'⟩
    · simpa [hfragment] using hstep
    · rw [hfragment] at hstep
      exact ⟨fun a ha => (ih v').1 a (hstep.1 a ha),(ih v').2.trans hstep.2⟩

variable (cfg) in
theorem applyLegacyOperation_later (r : Replica) (operation : LegacyOperation) (physical : ℕ) :
    Later r (applyLegacyOperation cfg r operation physical).2 := by
  cases operation with
  | put fragments =>
    have h := applyLegacyFragments_grows cfg physical r.toDataView fragments
    exact ⟨h.1,fun hcls => by simpa [applyLegacyOperation,h.2] using hcls,by
      simp [applyLegacyOperation],le_rfl,by simp [applyLegacyOperation]⟩
  | clear seq | close status =>
    rw [applyLegacyOperation]
    split_ifs
    · exact Later.refl r
    · exact ⟨by simp,by simp,by simp,le_rfl,by simp⟩
  | advance previous cursor =>
    rw [applyLegacyOperation]
    split_ifs with h
    · exact Later.refl r
    · exact ⟨by simp,by simp,by simp,by dsimp only; omega,by simp⟩
  | unknown operation => exact Later.refl r

theorem applyLegacy_ok {body : Bytes}
    (h : applyLegacy cfg r body physical = (.ok (),r')) : ∃ event transaction t,
      cfg.codec.unpackLegacy body = .ok (some event) ∧ event.transaction = some transaction ∧
      transaction ∉ r.transactions ∧
      applyLegacyOperation cfg r event.operation physical = (.ok (),t) ∧
      r' = { t with transactions := insert transaction t.transactions } := by
  rw [applyLegacy] at h
  rcases hev : cfg.codec.unpackLegacy body with _ | _ | event
  · simp [hev] at h
  · simp [hev] at h
  · simp only [hev] at h
    cases htxn : event.transaction with
    | none => simp [htxn] at h
    | some transaction =>
      simp only [htxn] at h
      split_ifs at h with hmem
      · simp at h
      rcases hop : applyLegacyOperation cfg r event.operation physical with ⟨_ | _,t⟩
      · simp [hop] at h
      · simp only [hop,Prod.mk.injEq,true_and] at h
        exact ⟨event,transaction,t,rfl,htxn,hmem,hop,h.symm⟩

/-- Everything a record of the current format can do. -/
theorem applyRecord_of_format {f : Bytes}
    (hnodup : (record.headers.map Prod.fst).Nodup) (hformat : record.get .format = some f) :
    applyRecord cfg record physical state r =
      if badTransaction r record then
        (.error (.dataLoss (recordText physical ++ " has an invalid transaction id.")),r)
      else match applyView cfg r record physical state with
        | (.error status,r') => (.error status,r')
        | (.ok _,r') => (.ok (),noteTransaction record r') := by
  rewrite [applyRecord,checkHeaders_eq_ok.mpr hnodup,hformat]
  rfl

theorem applyRecord_ok (h : applyRecord cfg record physical state r = (.ok (),r')) :
    (record.headers.map Prod.fst).Nodup ∧ ((record.get .format = none ∧ state = false ∧
          applyLegacy cfg r record.body physical = (.ok (),r')) ∨
        ∃ f t, record.get .format = some f ∧ badTransaction r record = false ∧
          applyView cfg r record physical state = (.ok (),t) ∧ r' = noteTransaction record t) := by
  cases hhdr : checkHeaders record physical with
  | error status => simp [applyRecord,hhdr] at h
  | ok _ =>
    have hnd := checkHeaders_eq_ok.mp hhdr
    refine ⟨hnd,?_⟩
    cases hfmt : record.get .format with
    | none =>
      simp only [applyRecord,hhdr,hfmt] at h
      split_ifs at h with hst
      · simp at h
      · exact .inl ⟨rfl,by simpa using hst,h⟩
    | some f =>
      rw [applyRecord_of_format hnd hfmt] at h
      split_ifs at h with hbad
      · simp at h
      rcases hview : applyView cfg r record physical state with ⟨_ | _,t⟩
      · simp [hview] at h
      · simp only [hview,Prod.mk.injEq,true_and] at h
        exact .inr ⟨f,t,rfl,by simpa using hbad,rfl,h.symm⟩

theorem applyRecord_later
    (h : applyRecord cfg record physical state r = (.ok (),r')) : Later r r' := by
  obtain ⟨-,⟨-,-,h⟩ | ⟨f,t,-,-,hview,rfl⟩⟩ := applyRecord_ok h
  · obtain ⟨event,transaction,t,-,-,-,hop,rfl⟩ := applyLegacy_ok h
    have hlat := applyLegacyOperation_later cfg r event.operation physical
    rw [hop] at hlat
    exact hlat.trans (Later.insert t transaction)
  · exact (applyView_later hview).trans (noteTransaction_later record t)

theorem replay_later {records : List Record}
    (h : replay cfg state physical records r = (.ok (),r')) : Later r r' := by
  induction records generalizing physical r with
  | nil =>
    obtain rfl := (Prod.mk.inj h).2
    exact Later.refl _
  | cons record records ih =>
    obtain ⟨t,happly,h⟩ := replay_cons_eq_ok.mp h
    exact (applyRecord_later happly).trans (ih h)

/-! ### Marks -/

/-- A change that neither reads nor moves the marks. -/
def Unmarked (f : Replica → Change Replica) : Prop :=
  ∀ r m, f { r with toMarks := m } = ((f r).1,{ (f r).2 with toMarks := m })

theorem applyLegacyOperation_marks (operation : LegacyOperation) (physical : ℕ) :
    Unmarked fun r => applyLegacyOperation cfg r operation physical := by
  intro r m
  cases operation with
  | put fragments => rfl
  | clear seq | advance previous cursor | close status =>
    simp only [applyLegacyOperation]; split_ifs <;> rfl
  | unknown operation => rfl

theorem applyLegacy_marks (body : Bytes) (physical : ℕ) :
    Unmarked fun r => applyLegacy cfg r body physical := by
  intro r m
  simp only [applyLegacy]
  rcases cfg.codec.unpackLegacy body with - | _ | event
  · rfl
  · rfl
  · dsimp only
    cases event.transaction with
    | none => rfl
    | some transaction =>
      dsimp only
      split_ifs
      · rfl
      · have hop := @applyLegacyOperation_marks cfg event.operation physical r m
        beta_reduce at hop
        rw [hop]
        rcases applyLegacyOperation cfg r event.operation physical with ⟨_ | _,t⟩ <;> rfl

theorem applyRecord_marks (record : Record) (physical : ℕ) (state : Bool) :
    Unmarked (applyRecord cfg record physical state) := by
  intro r m
  simp only [applyRecord]
  rcases checkHeaders record physical with - | _
  · rfl
  cases record.get .format with
  | none =>
    dsimp only
    split_ifs
    · rfl
    · exact applyLegacy_marks record.body physical r m
  | some f =>
    have hbad : badTransaction { r with toMarks := m } record = badTransaction r record := rfl
    have hview : applyView cfg { r with toMarks := m } record physical state =
        ((applyView cfg r record physical state).1,
          { (applyView cfg r record physical state).2 with toMarks := m }) := by
      cases state <;> rfl
    dsimp only
    rw [hbad,hview]
    split_ifs
    · rfl
    rcases applyView cfg r record physical state with ⟨_ | _,t⟩
    · rfl
    · simp only [noteTransaction]
      cases record.transaction <;> rfl

variable (cfg) in
theorem replay_marks (state : Bool) (physical : ℕ) (records : List Record) :
    Unmarked (replay cfg state physical records) := by
  intro r m
  induction records generalizing physical r with
  | nil => rfl
  | cons record records ih =>
    rw [replay,replay,applyRecord_marks]
    rcases applyRecord cfg record physical state r with ⟨_ | _,t⟩
    · rfl
    · exact ih (physical+1) t

theorem replay_toMarks {records : List Record} {result : StatusOr Unit}
    (h : replay cfg state physical records r = (result,r')) : r'.toMarks = r.toMarks := by
  have hmarks := replay_marks cfg state physical records r r.toMarks
  rw [h] at hmarks
  exact congrArg (fun x : Change Replica => x.2.toMarks) hmarks

/-! ### A backend that does not fail -/

/-- What the rest of a stream does to a replica. -/
def catchUp (cfg : Config) (w : Logs) (state : Bool) (r : Replica) : Change Replica :=
  let r := r.setEnsured state
  if (w.log state).length < r.tail state then
    (.error (.dataLoss "The S2 chunk-store stream was trimmed or replaced."),r)
  else
    let result := replay cfg state (r.tail state) ((w.log state).drop (r.tail state)) r
    (result.1,match result.1 with
      | .ok _ => result.2.setTail state (w.log state).length
      | .error _ => result.2)

@[simp] theorem setEnsured_tail (r : Replica) (state state' : Bool) :
    (r.setEnsured state).tail state' = r.tail state' := by
  cases state <;> rfl

theorem setEnsured_of_ensured (h : r.ensured state) : r.setEnsured state = r := by
  cases state with
  | false =>
    have h : r.dataEnsured = true := h
    change { r with dataEnsured := true } = r
    rw [← h]
  | true =>
    have h : r.stateEnsured = true := h
    change { r with stateEnsured := true } = r
    rw [← h]

/-- Nothing is left to read. -/
theorem catchUp_done {w : Logs} (hens : r.ensured state)
    (htail : r.tail state = (w.log state).length) : catchUp cfg w state r = (.ok (),r) := by
  have hset : r.setTail state (w.log state).length = r := by
    rw [← htail]
    cases state <;> rfl
  simp [catchUp,setEnsured_of_ensured hens,htail,replay,hset]

theorem catchUp_ok {w : Logs} (h : catchUp cfg w state r = (.ok (),r')) :
    r.tail state ≤ (w.log state).length ∧ ∃ t, replay cfg state (r.tail state)
      ((w.log state).drop (r.tail state)) (r.setEnsured state) = (.ok (),t) ∧
      r' = t.setTail state (w.log state).length := by
  simp only [catchUp,setEnsured_tail] at h
  split_ifs at h with hlt
  · simp at h
  refine ⟨by omega,?_⟩
  rcases hrep : replay cfg state (r.tail state) ((w.log state).drop (r.tail state))
    (r.setEnsured state) with ⟨_ | _,t⟩
  · simp [hrep] at h
  · simp only [hrep,Prod.mk.injEq,true_and] at h
    exact ⟨t,rfl,h.symm⟩

theorem catchUp_tail {w : Logs} (h : catchUp cfg w state r = (.ok (),r')) :
    r'.ensured state ∧ r'.tail state = (w.log state).length := by
  obtain ⟨-,t,hrep,rfl⟩ := catchUp_ok h
  have hmarks := replay_toMarks hrep
  cases state with
  | false => exact ⟨congrArg Marks.dataEnsured hmarks,rfl⟩
  | true => exact ⟨congrArg Marks.stateEnsured hmarks,rfl⟩

section Healthy

variable {count : ℕ}

theorem run_ensure_healthy (state : Bool) (r : Replica) (w : Logs) :
    run (healthy count) (ensure state) r w = ((.ok (),r.setEnsured state),w) := by
  simp only [ensure,run_bind,run_own]
  split_ifs with h
  · rw [setEnsured_of_ensured h]
    rfl
  · simp [run_bind,healthy,respond]

variable (cfg) in
theorem run_readLoop_healthy (hcnt : 0 < count) (state : Bool) (w : Logs) (fuel current : ℕ)
    (r : Replica) (hcur : current ≤ (w.log state).length)
    (hfuel : (w.log state).length ≤ current+fuel) :
    run (healthy count) (readLoop cfg state (w.log state).length fuel current) r w =
      (((replay cfg state current ((w.log state).drop current) r).1.mapError Exn.status |>.map
        fun _ => (w.log state).length,
        (replay cfg state current ((w.log state).drop current) r).2),w) := by
  induction fuel generalizing current r with
  | zero =>
    have heq : (w.log state).length = current := by omega
    rw [drop_of_length_le (by omega),heq]
    rfl
  | succ fuel ih =>
    rw [readLoop]
    split_ifs with hdone
    · have heq : (w.log state).length = current := by omega
      rw [drop_of_length_le (by omega),heq]
      rfl
    obtain ⟨n,hn⟩ : ∃ n, min (min 1000 ((w.log state).length-current)) count = n := ⟨_,rfl⟩
    have hemp : ¬(page (w.log state) current n).isEmpty := by
      rw [page_isEmpty]
      omega
    have hlen : (((w.log state).drop current).take n).length = n := by
      rw [length_take,length_drop]
      omega
    have hrep := replay_append cfg state current (((w.log state).drop current).take n)
      ((w.log state).drop (current+n)) r
    rw [← drop_drop,take_append_drop,hlen] at hrep
    simp only [run_bind,run_backend_read,healthy,respond,hn]
    rw [if_neg hemp]
    simp only [run_bind,run_changeReplica,page,applyPage_placed,hlen]
    rw [hrep,drop_drop]
    rcases replay cfg state current (((w.log state).drop current).take n) r with ⟨_ | _,r'⟩
    · rfl
    · exact ih (current+n) r' (by omega) (by omega)

theorem run_syncStream_healthy (hcnt : 0 < count) (state : Bool) (r : Replica) (w : Logs) :
    run (healthy count) (syncStream cfg state) r w =
      (((catchUp cfg w state r).1.mapError .status,(catchUp cfg w state r).2),w) := by
  rw [syncStream,run_bind,run_ensure_healthy]
  simp only [run_bind,run_own,run_backend_tail,healthy,respond,catchUp]
  split_ifs with h
  · rfl
  have hloop := run_readLoop_healthy cfg hcnt state w
    ((w.log state).length-(r.setEnsured state).tail state) ((r.setEnsured state).tail state)
    (r.setEnsured state) (by omega) (by omega)
  rw [run_bind,hloop]
  rcases replay cfg state ((r.setEnsured state).tail state) _ _ with ⟨_ | _,-⟩
  · rfl
  · rfl

/-- Both streams, the data stream first. -/
def catchUpBoth (cfg : Config) (w : Logs) (r : Replica) : Change Replica :=
  match catchUp cfg w false r with
  | (.error status,r') => (.error status,r')
  | (.ok _,r') => catchUp cfg w true r'

theorem catchUpBoth_eq_ok {w : Logs} : catchUpBoth cfg w r = (.ok (),r') ↔
      ∃ t, catchUp cfg w false r = (.ok (),t) ∧ catchUp cfg w true t = (.ok (),r') := by
  rw [catchUpBoth]
  rcases catchUp cfg w false r with ⟨_ | _,t⟩ <;> simp

theorem run_sync_healthy (hcnt : 0 < count) (r : Replica) (w : Logs) :
    run (healthy count) (sync cfg) r w =
      (((catchUpBoth cfg w r).1.mapError .status,(catchUpBoth cfg w r).2),w) := by
  rw [sync,run_bind,run_syncStream_healthy hcnt,catchUpBoth]
  rcases catchUp cfg w false r with ⟨_ | _,t⟩
  · rfl
  · exact run_syncStream_healthy hcnt true t w

end Healthy

/-- How many records a read returns does not matter. -/
theorem sync_pages (cfg : Config) (count count' : ℕ+) (r : Replica) (w : Logs) :
    run (healthy count) (sync cfg) r w = run (healthy count') (sync cfg) r w := by
  rw [run_sync_healthy count.pos,run_sync_healthy count'.pos]

end A11.S2ChunkStore
