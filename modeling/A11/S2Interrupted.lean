import A11.S2Replay

/-! Synchronisations that are interrupted. A record counts as read only once its whole
stream has been read, so a later synchronisation applies again what an interrupted one
had applied. -/
namespace A11.S2ChunkStore
open List Task

variable {cfg : Config}

/-! ### Applying a record twice -/

variable {r' : Replica} {record : Record}

variable {t : Replica}

theorem badTransaction_of_noted
    (hlat : Later (noteTransaction record t) r') (hsome : record.transaction.isSome) :
    badTransaction r' record := by
  obtain ⟨b,hb⟩ := Option.isSome_iff_exists.mp hsome
  have hmem : b ∈ r'.transactions := hlat.transactions (by simp [noteTransaction,hb])
  simp [badTransaction,hb,hmem]

variable {physical : ℕ}

theorem applyData_again {v v' u : DataView} (h : applyData cfg v record physical = (.ok (),v'))
    (hcks : ∀ a ∈ v'.chunks, a ∈ u.chunks) (hcls : v'.closedStatus.isSome → u.closedStatus.isSome) :
    ∃ status, applyData cfg u record physical = (.error status,u) := by
  simp only [applyData] at h ⊢
  split_ifs at h ⊢ with hck hcl
  · rcases hdec : decodeChunk cfg record physical with status | f | f
    · simp [hdec] at h
    · simp only [decodeChunk,hck] at hdec
      simp [StatusOr.bind_eq_ok] at hdec
    · simp only [hdec] at h
      simp [addChunk,hcks _ (addChunk_ok_mem h)]
  · simp only [applyClose] at h ⊢
    split_ifs at h with hopen
    · simp at h
    cases hstat : cfg.codec.unpackStatus record.body with
    | error status => simp [hstat] at h
    | ok status =>
      simp only [hstat,Prod.mk.injEq,true_and] at h
      subst h
      simp [hcls rfl]
  · simp at h

variable {r u : Replica}

/-- A record of the data stream is never accepted again. -/
theorem applyRecord_again_data
    (h : applyRecord cfg record physical false r = (.ok (),r')) (hlat : Later r' u) :
    ∃ status, applyRecord cfg record physical false u = (.error status,u) := by
  obtain ⟨hnd,⟨hfmt,-,hlegacy⟩ | ⟨f,t,hfmt,-,hview,rfl⟩⟩ := applyRecord_ok h
  · obtain ⟨_,transaction,t,hev,htxn,-,-,rfl⟩ := applyLegacy_ok hlegacy
    have hmem : transaction ∈ u.transactions := hlat.transactions (by simp)
    rw [applyRecord,checkHeaders_eq_ok.mpr hnd]
    simp [hfmt,applyLegacy,hev,htxn,hmem]
  rw [applyRecord_of_format hnd hfmt]
  split_ifs with hbad
  · exact ⟨_,rfl⟩
  have hlat' := (noteTransaction_later record t).trans hlat
  obtain ⟨v,hv,rfl⟩ := applyView_data_ok hview
  obtain ⟨status,hstat⟩ := applyData_again (u := u.toDataView) hv hlat'.chunks hlat'.closed
  exact ⟨status,by simp [applyView,hstat]⟩

variable (cfg) in
/-- A state record that starts no transaction and leaves the cursor where it is. -/
def Traceless (record : Record) : Prop :=
  record.get .transaction = none ∧ (record.get .format = some clearFormat ∨
    (record.get .previous).bind cfg.codec.parseInt = (record.get .cursor).bind cfg.codec.parseInt)

section

variable (h : applyRecord cfg record physical true r = (.ok (),r'))

include h

/-- A state record that is accepted again left no trace. -/
theorem applyRecord_again_state {u' : Replica} (hlat : Later r' u)
    (hagain : applyRecord cfg record physical true u = (.ok (),u')) : Traceless cfg record := by
  obtain ⟨-,⟨-,hst,-⟩ | ⟨f,t,hfmt,-,hview,rfl⟩⟩ := applyRecord_ok h
  · simp at hst
  obtain ⟨-,⟨hnone,-,-⟩ | ⟨-,_,-,hbad,hview',-⟩⟩ := applyRecord_ok hagain
  · simp [hfmt] at hnone
  have htxn : record.get .transaction = none := by
    by_contra hsome
    have hbad' := badTransaction_of_noted hlat
      (by rwa [Record.transaction,Option.isSome_map,Option.isSome_iff_ne_none])
    simp [hbad] at hbad'
  refine ⟨htxn,?_⟩
  have hcursor : t.cursor ≤ u.cursor := ((noteTransaction_later record t).trans hlat).cursor
  obtain ⟨v,hv,rfl⟩ := applyView_state_ok hview
  obtain ⟨_,hv',-⟩ := applyView_state_ok hview'
  obtain ⟨hclr,-⟩ | ⟨-,previous,cursor,hprevious,hcur,-,_,rfl⟩ := applyState_ok hv
  · exact .inl hclr
  obtain ⟨hclr,-⟩ | ⟨-,previous',-,hprevious',-,hprev',-,-⟩ := applyState_ok hv'
  · exact .inl hclr
  right
  rw [hprevious] at hprevious'
  have heq : previous = previous' := by simpa using hprevious'
  have hsame : previous = cursor := by
    dsimp only at hcursor hprev'
    omega
  rw [headerInt_ok hprevious,headerInt_ok hcur,hsame]

/-- A record that left no trace is accepted again and changes nothing. -/
theorem applyRecord_traceless (htraceless : Traceless cfg record) :
    r'.cursor = r.cursor ∧ ∀ u, Later r' u → u.cursor = r'.cursor →
      applyRecord cfg record physical true u = (.ok (),u) := by
  obtain ⟨hnd,⟨-,hst,-⟩ | ⟨f,t,hfmt,-,hview,rfl⟩⟩ := applyRecord_ok h
  · simp at hst
  obtain ⟨hnone,hkind⟩ := htraceless
  have htxn : record.transaction = none := by simp [Record.transaction,hnone]
  have hnote : ∀ r : Replica, noteTransaction record r = r := fun r => by
    simp [noteTransaction,htxn]
  have hagain : ∀ u : Replica, applyState cfg u.toStateView record physical =
      (.ok (),u.toStateView) → applyRecord cfg record physical true u = (.ok (),u) := fun u hu => by
    rw [applyRecord_of_format hnd hfmt,if_neg (by simp [badTransaction,htxn])]
    simp [applyView,hu,hnote]
  rw [hnote]
  obtain ⟨v,hv,rfl⟩ := applyView_state_ok hview
  obtain ⟨hclr,seq,hseq,rfl⟩ | ⟨hadv,previous,cursor,hprevious,hcur,hprev,hle,rfl⟩ :=
    applyState_ok hv
  · refine ⟨rfl,fun u hlat _ => hagain u ?_⟩
    have hmem : seq ∈ u.cleared := hlat.cleared (by simp)
    have hle := PutBatch.toNat_le_maxSeq seq
    have hrng : ¬((seq.toNat : ℤ) < 0 ∨ maxSeq < seq.toNat) := by omega
    rw [applyState,if_pos hclr]
    simp only [applyClear,hseq,if_neg hrng,Int.toNat_natCast,UInt32.ofNat_toNat,
      Finset.insert_eq_of_mem hmem]
  · have hsame : previous = cursor := by
      rcases hkind with hclr | hkind
      · rw [hadv] at hclr
        exact absurd hclr (by decide)
      · rw [headerInt_ok hprevious,headerInt_ok hcur] at hkind
        simpa using hkind
    refine ⟨hsame.symm.trans hprev,fun u _ hu => hagain u ?_⟩
    have hu : cursor = u.cursor := hu.symm
    rw [applyState,hadv,if_neg (by decide)]
    simp [applyAdvance,hprevious,hcur,hsame,hu]

/-! ### Applying a prefix of a stream twice -/

end

theorem replay_again_traceless {records : List Record}
    (h : replay cfg true physical records r = (.ok (),r'))
    (htraceless : ∀ record ∈ records, Traceless cfg record) :
    r'.cursor = r.cursor ∧ ∀ u, Later r' u → u.cursor = r'.cursor →
      replay cfg true physical records u = (.ok (),u) := by
  induction records generalizing physical r with
  | nil =>
    obtain rfl := (Prod.mk.inj h).2
    exact ⟨rfl,fun u _ _ => rfl⟩
  | cons record records ih =>
    obtain ⟨t,happly,h⟩ := replay_cons_eq_ok.mp h
    obtain ⟨hcur,hrest⟩ := ih h fun a ha => htraceless a (by simp [ha])
    obtain ⟨hcur',hrec⟩ := applyRecord_traceless happly (htraceless record (by simp))
    refine ⟨hcur.trans hcur',fun u hlat hu => ?_⟩
    rw [replay_cons_of_ok (hrec u ((replay_later h).trans hlat) (hu.trans hcur))]
    exact hrest u hlat hu

theorem traceless_of_replay_again {records : List Record} {u' : Replica}
    (h : replay cfg true physical records r = (.ok (),r')) (hlat : Later r' u)
    (hagain : replay cfg true physical records u = (.ok (),u')) :
    ∀ record ∈ records, Traceless cfg record := by
  induction records generalizing physical r u with
  | nil => simp
  | cons record records ih =>
    obtain ⟨t,happly,hrest⟩ := replay_cons_eq_ok.mp h
    obtain ⟨_,happly',hagain'⟩ := replay_cons_eq_ok.mp hagain
    intro a ha
    rcases mem_cons.mp ha with rfl | ha
    · exact applyRecord_again_state happly ((replay_later hrest).trans hlat) happly'
    · exact ih hrest (hlat.trans (applyRecord_later happly')) hagain' a ha

variable {state : Bool}

theorem traceless_of_replay_append {xs ys : List Record}
    (hxs : replay cfg state physical xs r = (.ok (),t))
    (hagain : replay cfg state physical (xs++ys) t = (.ok (),u)) :
    ∀ record ∈ xs, state = true ∧ Traceless cfg record := by
  obtain ⟨v,hagain,-⟩ := replay_eq_ok_append.mp hagain
  intro record hrec
  cases state with
  | true => exact ⟨rfl,traceless_of_replay_again hxs (Later.refl t) hagain record hrec⟩
  | false =>
    obtain ⟨x,xs,rfl⟩ := exists_cons_of_ne_nil (ne_nil_of_mem hrec)
    obtain ⟨s,happly,hxs⟩ := replay_cons_eq_ok.mp hxs
    obtain ⟨_,hstat⟩ := applyRecord_again_data happly (replay_later hxs)
    simp [replay_cons_eq_ok,hstat] at hagain

theorem replay_append_again {xs ys : List Record}
    (hxs : replay cfg state physical xs r = (.ok (),t))
    (hall : replay cfg state physical (xs++ys) r = (.ok (),r'))
    (htraceless : ∀ record ∈ xs, state = true ∧ Traceless cfg record) :
    replay cfg state physical (xs++ys) t = (.ok (),r') := by
  obtain ⟨_,hxs',hys⟩ := replay_eq_ok_append.mp hall
  obtain rfl := (Prod.mk.inj (hxs.symm.trans hxs')).2
  rw [replay_eq_ok_append]
  cases xs with
  | nil => exact ⟨t,rfl,hys⟩
  | cons x xs =>
    obtain ⟨rfl,-⟩ := htraceless x (by simp)
    have hagain := (replay_again_traceless hxs fun a ha => (htraceless a ha).2).2
    exact ⟨t,hagain t (Later.refl t) rfl,hys⟩

/-! ### Interrupted synchronisations -/

/-- The call went on from `r` into the stream, and `applied` follows the tail it recorded. -/
structure HalfRead (cfg : Config) (w : Logs) (state : Bool) (applied : List Record)
    (r r₁ : Replica) : Prop where
  following : applied <+: (w.log state).drop (r.tail state)
  replayed : replay cfg state (r.tail state) applied r = (.ok (),r₁) ∨
    replay cfg state (r.tail state) applied (r.setEnsured state) = (.ok (),r₁)

section Scripted

variable {w : Logs} {state : Bool}

variable (w state) in
theorem run_ensure_scripted (r : Replica) (script : List Choice) :
    (∃ script', run scripted (ensure state) r (w,script) =
        ((.ok (),r.setEnsured state),(w,script'))) ∨
      ∃ e script', run scripted (ensure state) r (w,script) = ((.error e,r),(w,script')) := by
  simp only [ensure,run_bind,run_own]
  split_ifs with h
  · rw [setEnsured_of_ensured h]
    exact .inl ⟨script,rfl⟩
  rw [run_bind]
  rcases script with _ | ⟨n | ⟨e,effect⟩,script⟩
  · exact .inr ⟨.cancelled,[],rfl⟩
  · exact .inl ⟨script,rfl⟩
  · exact .inr ⟨e,script,by cases effect <;> rfl⟩

variable (w state) in
/-- A read gives some of the following records or fails. -/
theorem scripted_read (start count : ℕ) (script : List Choice) :
    (∃ n ≤ count, ∃ script', scripted (.read start count state) (w,script) =
        (.ok (page (w.log state) start n),(w,script'))) ∨
      ∃ e script', scripted (.read start count state) (w,script) = (.error e,(w,script')) := by
  rcases script with _ | ⟨n | ⟨e,effect⟩,script⟩
  · exact .inr ⟨.cancelled,[],rfl⟩
  · exact .inl ⟨min count n,Nat.min_le_left ..,script,rfl⟩
  · exact .inr ⟨e,script,by cases effect <;> rfl⟩

theorem run_readLoop_scripted (fuel current : ℕ) (r t : Replica) (script : List Choice)
    (hcur : current ≤ (w.log state).length) (hfuel : (w.log state).length ≤ current+fuel)
    (hall : replay cfg state current ((w.log state).drop current) r = (.ok (),t)) :
    (∃ script', run scripted (readLoop cfg state (w.log state).length fuel current) r
        (w,script) = ((.ok (w.log state).length,t),(w,script'))) ∨
      ∃ e r₁ applied script', run scripted
          (readLoop cfg state (w.log state).length fuel current) r (w,script) =
            ((.error e,r₁),(w,script')) ∧ applied <+: (w.log state).drop current ∧
        replay cfg state current applied r = (.ok (),r₁) := by
  induction fuel generalizing current r script with
  | zero =>
    have heq : (w.log state).length = current := by omega
    rw [drop_of_length_le (by omega)] at hall
    obtain rfl := (Prod.mk.inj hall).2
    rw [heq]
    exact .inl ⟨script,rfl⟩
  | succ fuel ih =>
    rw [readLoop]
    split_ifs with hdone
    · have heq : (w.log state).length = current := by omega
      rw [drop_of_length_le (by omega)] at hall
      obtain rfl := (Prod.mk.inj hall).2
      rw [heq]
      exact .inl ⟨script,rfl⟩
    · rw [run_bind,run_backend_read]
      obtain ⟨n,_,script',hread⟩ | ⟨e,script',hread⟩ := scripted_read w state current
        (min 1000 ((w.log state).length-current)) script
      · rw [hread]
        dsimp only
        split_ifs with hemp
        · exact .inr ⟨_,r,[],script',rfl, nil_prefix,rfl⟩
        rw [page_isEmpty] at hemp
        have hlen : (((w.log state).drop current).take n).length = n := by
          rw [length_take,length_drop]
          omega
        have hspl : ((w.log state).drop current).take n++(w.log state).drop (current+n) =
            (w.log state).drop current := by
          rw [← drop_drop,take_append_drop]
        rw [← hspl] at hall
        obtain ⟨s,hpage,hrest⟩ := replay_eq_ok_append.mp hall
        rw [hlen] at hrest
        simp only [run_bind,run_changeReplica,page,applyPage_placed,hlen,hpage]
        obtain ⟨script'',hrun⟩ | ⟨e,r₁,applied,script'',hrun,hfol,hrep⟩ :=
          ih (current+n) s script' (by omega) (by omega) hrest
        · exact .inl ⟨script'',hrun⟩
        refine .inr ⟨e,r₁,_,script'',hrun,?_,replay_eq_ok_append.mpr
          ⟨s,hpage,by rw [hlen]; exact hrep⟩⟩
        have hfol' := (prefix_append_right_inj
          (((w.log state).drop current).take n)).mpr hfol
        rwa [hspl] at hfol'
      · rw [hread]
        exact .inr ⟨e,r,[],script',rfl, nil_prefix,rfl⟩

theorem run_syncStream_scripted (h : catchUp cfg w state r = (.ok (),r')) (script : List Choice) :
    (∃ script', run scripted (syncStream cfg state) r (w,script) = ((.ok (),r'),(w,script'))) ∨
      ∃ e r₁ applied script', run scripted (syncStream cfg state) r (w,script) =
          ((.error e,r₁),(w,script')) ∧ HalfRead cfg w state applied r r₁ := by
  obtain ⟨hle,t,hrep,rfl⟩ := catchUp_ok h
  rw [syncStream,run_bind]
  obtain ⟨script',hensure⟩ | ⟨e,script',hensure⟩ := run_ensure_scripted w state r script
  · rw [hensure]
    simp only [run_bind,run_own,run_backend_tail,setEnsured_tail]
    have hnone : HalfRead cfg w state [] r (r.setEnsured state) := ⟨ nil_prefix,.inr rfl⟩
    rcases script' with _ | ⟨n | ⟨e,effect⟩,script'⟩
    · exact .inr ⟨.cancelled,_,[],[],rfl,hnone⟩
    · simp only [scripted,respond]
      rw [if_neg (by omega),run_bind]
      obtain ⟨script'',hrun⟩ | ⟨e,r₁,applied,script'',hrun,hfol,happ⟩ :=
        run_readLoop_scripted ((w.log state).length-r.tail state) (r.tail state) (r.setEnsured state) t
          script' hle (by omega) hrep
      · rw [hrun]
        exact .inl ⟨script'',rfl⟩
      · rw [hrun]
        exact .inr ⟨e,r₁,applied,script'',rfl,hfol,.inr happ⟩
    · cases effect <;> exact .inr ⟨e,_,[],script',rfl,hnone⟩
  · rw [hensure]
    exact .inr ⟨e,r,[],script',rfl, nil_prefix,.inl rfl⟩

end Scripted

/-! ### The next synchronisation -/

variable {applied : List Record} {r₁ : Replica}

theorem HalfRead.setEnsured {w : Logs} (h : HalfRead cfg w state applied r r₁) :
    replay cfg state (r.tail state) applied (r.setEnsured state) = (.ok (),r₁.setEnsured state) ∧
      r₁.tail state = r.tail state := by
  have hset : ∀ (s : Replica), (s.setEnsured state) = { s with toMarks := (s.setEnsured state).toMarks } :=
    fun s => by cases state <;> rfl
  rcases h.replayed with hrep | hrep
  · have hmarks := replay_toMarks hrep
    have heq : (r.setEnsured state).toMarks = (r₁.setEnsured state).toMarks := by
      cases state <;> simp [Replica.setEnsured,hmarks]
    refine ⟨?_,by cases state <;> simp [Replica.tail,hmarks]⟩
    rw [hset r,replay_marks cfg state _ applied r,hrep,hset r₁,heq]
  · have hmarks := replay_toMarks hrep
    have hens : r₁.ensured state := by
      cases state <;> simp [Replica.ensured,hmarks,Replica.setEnsured]
    rw [setEnsured_of_ensured hens]
    refine ⟨hrep,?_⟩
    cases state <;> simp [Replica.tail,hmarks,Replica.setEnsured]

/-- The stream is read to its end from where the interrupted call left it, exactly when
that call left no trace of it. -/
theorem HalfRead.catchUp_iff {w : Logs}
    (h : HalfRead cfg w state applied r r₁) (hwhole : catchUp cfg w state r = (.ok (),r')) :
    ((∃ u, catchUp cfg w state r₁ = (.ok (),u)) →
        ∀ record ∈ applied, state = true ∧ Traceless cfg record) ∧
      ((∀ record ∈ applied, state = true ∧ Traceless cfg record) →
        catchUp cfg w state r₁ = (.ok (),r')) := by
  obtain ⟨happ,htail⟩ := h.setEnsured
  obtain ⟨hle,t,hrep,rfl⟩ := catchUp_ok hwhole
  obtain ⟨_,hrest⟩ := h.following
  rw [← hrest] at hrep
  constructor
  · rintro ⟨u,hu⟩
    obtain ⟨-,s,hs,-⟩ := catchUp_ok hu
    rw [htail,← hrest] at hs
    exact traceless_of_replay_append happ hs
  · intro htraceless
    have hagain := replay_append_again happ hrep htraceless
    simp [catchUp,setEnsured_tail,htail,if_neg (Nat.not_lt.mpr hle),← hrest,hagain]

theorem HalfRead.other_marks {w : Logs}
    (h : HalfRead cfg w true applied r r₁) (hens : r.ensured false)
    (htail : r.tail false = w.data.length) : catchUp cfg w false r₁ = (.ok (),r₁) := by
  have hmarks := replay_toMarks h.setEnsured.1
  have hdata : (r₁.setEnsured true).dataEnsured = (r.setEnsured true).dataEnsured :=
    congrArg Marks.dataEnsured hmarks
  have hlog : (r₁.setEnsured true).logTail = (r.setEnsured true).logTail :=
    congrArg Marks.logTail hmarks
  exact catchUp_done (hdata.trans hens) (hlog.trans htail)

/-- The replica that replaying both streams from the beginning gives. -/
def rebuilt (cfg : Config) (w : Logs) : Replica := (catchUpBoth cfg w {}).2

/-- A synchronisation that would have brought the replica up to the replayed state fails
half-way. The next one brings it there exactly when the records applied so far, past the
tail that was recorded, left no trace; otherwise they are applied twice. -/
theorem interrupted_sync_iff (cfg : Config) (w : Logs) (count : ℕ) (hcount : 0 < count) (r : Replica)
    (hwhole : (Task.run (healthy count) (sync cfg) r w).1 = (.ok (),rebuilt cfg w))
    (script : List Choice) (e : Exn) (r₁ : Replica)
    (hrun : (Task.run scripted (sync cfg) r (w,script)).1 = (.error e,r₁)) :
    ∃ state applied,
      HalfRead cfg w state applied (if state then (catchUp cfg w false r).2 else r) r₁ ∧
      ((Task.run (healthy count) (sync cfg) r₁ w).1 = (.ok (),rebuilt cfg w) ↔
        ∀ record ∈ applied, state = true ∧ Traceless cfg record) := by
  have hok : ∀ s t, (run (healthy count) (sync cfg) s w).1 = (.ok (),t) ↔
      catchUpBoth cfg w s = (.ok (),t) := fun s t => by
    rw [run_sync_healthy hcount]
    rcases catchUpBoth cfg w s with ⟨_ | _,-⟩ <;> simp [Except.mapError]
  simp only [hok,catchUpBoth_eq_ok] at hwhole ⊢
  obtain ⟨t,hdata,hst⟩ := hwhole
  rw [sync,run_bind] at hrun
  obtain ⟨script',hfst⟩ | ⟨e',r',applied,script',hfst,hhalf⟩ :=
    run_syncStream_scripted hdata script
  · obtain ⟨script'',hsec⟩ | ⟨e',r',applied,script'',hsec,hhalf⟩ :=
      run_syncStream_scripted hst script'
    · simp [hfst,hsec] at hrun
    simp only [hfst,hsec,Prod.mk.injEq] at hrun
    obtain ⟨-,rfl⟩ := hrun
    refine ⟨true,applied,by simpa [hdata] using hhalf,?_⟩
    obtain ⟨hens,htail⟩ := catchUp_tail hdata
    have hdone := hhalf.other_marks hens htail
    obtain ⟨hfwd,hback⟩ := hhalf.catchUp_iff hst
    constructor
    · rintro ⟨u,hu,hu'⟩
      obtain rfl := (Prod.mk.inj (hdone.symm.trans hu)).2
      exact hfwd ⟨_,hu'⟩
    · exact fun htraceless => ⟨r',hdone,hback htraceless⟩
  · simp only [hfst] at hrun
    obtain ⟨-,rfl⟩ := hrun
    refine ⟨false,applied,by simpa using hhalf,?_⟩
    obtain ⟨hfwd,hback⟩ := hhalf.catchUp_iff hdata
    constructor
    · rintro ⟨u,hu,-⟩
      exact hfwd ⟨u,hu⟩
    · exact fun htraceless => ⟨t,hback htraceless,hst⟩

/-- The second of two reads fails, and from then on the first record is refused. -/
theorem interrupted_sync_fails :
    let script : List Choice := [.serve 1000,.serve 1000,.serve 1,
      .fail (.status (.unavailable "S2 operation failed")) false]
    let interrupted := (run scripted (sync exampleConfig) {} (exampleLogs,script)).1
    interrupted.1 = .error (.status (.unavailable "S2 operation failed")) ∧
      (run (healthy 1000) (sync exampleConfig) {} exampleLogs).1.1 = .ok () ∧
      (run (healthy 1000) (sync exampleConfig) interrupted.2 exampleLogs).1.1 =
        .error (.status (.dataLoss "S2 record 0 has an invalid transaction id.")) := by
  decide

theorem interrupted_sync_iff_second_read :
    let script : List Choice := [.serve 1000,.serve 1000,.serve 1,.fail .cancelled false]
    let r₁ := (run scripted (sync exampleConfig) {} (exampleLogs,script)).1.2
    ∃ state applied, HalfRead exampleConfig exampleLogs state applied
        (if state then (catchUp exampleConfig exampleLogs false {}).2 else {}) r₁ ∧
      ((run (healthy 1000) (sync exampleConfig) r₁ exampleLogs).1 =
          (.ok (),rebuilt exampleConfig exampleLogs) ↔
        ∀ record ∈ applied, state = true ∧ Traceless exampleConfig record) := by
  intro script r₁
  refine interrupted_sync_iff exampleConfig exampleLogs 1000 (by decide) {} ?_ script .cancelled r₁ ?_
  · exact Prod.ext (by decide) rfl
  · exact Prod.ext (by decide) rfl

end A11.S2ChunkStore
