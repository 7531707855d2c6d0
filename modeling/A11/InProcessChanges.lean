import A11.InProcessLanes

/-! Every critical section of one endpoint keeps the two directions it takes part in. -/
namespace A11.InProcess

open WireStream List Endpoint

/-! ### Changes of one endpoint -/

/-- What holds of an endpoint by itself: messages in the hands of calls and of the sender can
be encoded. -/
structure Local (e : Endpoint) : Prop where
  options : e.options.validate = .ok ()
  marked : e.implementationAborted = true → e.localEnd = .abort
  admitting : ∀ i message ending, e.calls i = .prepared message ending → Sound { message, ending }
  delivering : ∀ o payload, e.sender = .deliver o payload ∨ e.sender = .blocked o payload →
    o.message.Encodes payload
  dormant : e.started = false → e.sender = .absent ∧ e.receiver = .absent
  vacant : e.gone = true → e.receiver = .absent ∨ e.receiver = .returned

/-- A change keeps the direction that leaves the endpoint. -/
def Sends (e e' : Endpoint) : Prop :=
  ∀ h, Claims e h → ∃ h', Claims e' h' ∧
    (e'.localEnd ≠ .abort → ∀ r, Flow (lane e r h) → Flow (lane e' r h'))

/-- A change keeps the direction that arrives at the endpoint. -/
def Hears (e e' : Endpoint) : Prop := ∀ s h, Flow (lane s e h) → Flow (lane s e' h)

structure Keeps (e e' : Endpoint) : Prop where
  stays : e.localEnd = .abort → e'.localEnd = .abort
  own : Local e'
  sends : Sends e e'
  hears : Hears e e'

theorem Sends.refl (e : Endpoint) : Sends e e := fun h hclm => ⟨h,hclm,fun _ _ hflow => hflow⟩

theorem Hears.refl (e : Endpoint) : Hears e e := fun _ _ hflow => hflow

variable {e : Endpoint}

theorem Keeps.refl (h : Local e) : Keeps e e := ⟨id,h,.refl e,.refl e⟩

variable {e' : Endpoint}

theorem Keeps.trans {e'' : Endpoint} (h : Keeps e e') (h' : Keeps e' e'') : Keeps e e'' where
  stays := fun hend => h'.stays (h.stays hend)
  own := h'.own
  sends := by
    intro holder hclm
    obtain ⟨holder',hclm',hflow⟩ := h.sends holder hclm
    obtain ⟨holder'',hclm'',hflow'⟩ := h'.sends holder' hclm'
    refine ⟨holder'',hclm'',fun hend r hlane => hflow' hend r (hflow ?_ r hlane)⟩
    exact fun habt => hend (h'.stays habt)
  hears := fun s holder hlane => h'.hears s holder (h.hears s holder hlane)

/-- Nothing the direction depends on has changed at its sending end. -/
theorem Sends.of_same (hsend : e'.sending = e.sending)
    (hholds : e'.sender.holds = e.sender.holds) (hcalls : ∀ i, (e'.calls i).holds = (e.calls i).holds)
    (hlane : ∀ r h, lane e' r h = lane e r h) : Sends e e' :=
  fun h hclm => ⟨h,hclm.congr hsend hholds hcalls,fun _ r hflow => hlane r h ▸ hflow⟩

theorem Hears.of_same (hlane : ∀ s h, lane s e' h = lane s e h) : Hears e e' :=
  fun s h hflow => hlane s h ▸ hflow

variable {c : Call}

theorem Call.flight_of_not_holds (h : c.holds = false) : c.flight = [] := by
  cases c <;> simp_all [Call.holds,Call.flight]

theorem Sender.flight_of_not_holds {s : Sender} (h : s.holds = false) : s.flight = [] := by
  cases s <;> simp_all [Sender.holds,Sender.flight]

theorem setCall_calls (e : Endpoint) (i j : ℕ) (c : Call) :
    (e.setCall i c).calls j = if j = i then c else e.calls j := by
  by_cases h : j = i
  · rw [if_pos h,h]
    exact Function.update_self ..
  · rw [if_neg h]
    exact Function.update_of_ne h ..

variable {i : ℕ}

/-- A call that has no message in hand moves on. -/
theorem sends_setCall (hold : (e.calls i).holds = false)
    (hnew : c.holds = false) : Sends e (e.setCall i c) := by
  have hcall : ∀ j, ((e.setCall i c).calls j).holds = (e.calls j).holds ∧
      ((e.setCall i c).calls j).flight = (e.calls j).flight := by
    intro j
    rw [setCall_calls]
    split_ifs with h
    · rw [h,hold,hnew,Call.flight_of_not_holds hold,Call.flight_of_not_holds hnew]
      exact ⟨rfl,rfl⟩
    · exact ⟨rfl,rfl⟩
  refine .of_same rfl rfl (fun j => (hcall j).1) fun r h => ?_
  cases h with
  | call j => simp only [lane,flight,(hcall j).2]; rfl
  | _ => rfl

theorem Local.setCall (h : Local e) (i : ℕ)
    (hc : ∀ message ending, c = .prepared message ending → Sound { message, ending }) :
    Local (e.setCall i c) := by
  refine { h with admitting := ?_ }
  intro j message ending hcall
  rw [setCall_calls] at hcall
  split_ifs at hcall
  · exact hc message ending hcall
  · exact h.admitting j message ending hcall

theorem keeps_setCall (h : Local e) (hold : (e.calls i).holds = false) (hnew : c.holds = false)
    (hc : ∀ message ending, c = .prepared message ending → Sound { message, ending }) :
    Keeps e (e.setCall i c) :=
  ⟨id,h.setCall i hc,sends_setCall hold hnew,.of_same fun _ _ => rfl⟩

theorem Local.woken (h : Local e) : Local { e with sender := e.sender.woken } := by
  refine { h with delivering := ?_, dormant := ?_ }
  · intro o payload hsnd
    apply h.delivering
    cases hs : e.sender <;> simp_all [Sender.woken]
  · intro hstart
    obtain ⟨hsnd,hrcv⟩ := h.dormant hstart
    exact ⟨by rw [hsnd]; rfl,hrcv⟩

theorem Local.unblocked (h : Local e) : Local (e.setSender e.sender.unblocked) := by
  refine { h with delivering := ?_, dormant := ?_ }
  · intro o payload hsnd
    apply h.delivering
    cases hs : e.sender <;> simp_all [Sender.unblocked]
  · intro hstart
    obtain ⟨hsnd,hrcv⟩ := h.dormant hstart
    exact ⟨by rw [hsnd]; rfl,hrcv⟩

theorem keeps_unblocked (h : Local e) : Keeps e (e.setSender e.sender.unblocked) :=
  ⟨id,h.unblocked,.of_same rfl (by simp) (fun _ => rfl) fun _ h => by
    cases h <;> simp [lane,flight,setSender],.of_same fun _ _ => rfl⟩

variable (cfg : Config)

/-- An abort is recorded, or nothing happens. -/
theorem forceAbort_cases (e : Endpoint) (status : Status) :
    e.forceAbort cfg status = e ∨
      ∃ recorded encoded, packAbort cfg status = some (recorded,encoded) ∧
        e.transportFinished = false ∧ e.remoteAborted = false ∧ e.localEnd ≠ .abort ∧
        e.forceAbort cfg status = { e with
          status := recorded
          trailers := none
          localEnd := .abort
          implementationAborted := true
          outbound := if e.localEndSent = .none
            then [{ message := abortMessage encoded, ending := .abort }] else e.outbound
          sender := e.sender.woken } := by
  unfold forceAbort
  cases hpack : packAbort cfg status with
  | none => exact .inl rfl
  | some packed =>
    obtain ⟨recorded,encoded⟩ := packed
    dsimp only
    by_cases hover : e.transportFinished = true ∨ e.remoteAborted = true ∨ e.localEnd = .abort
    · exact .inl (if_pos hover)
    · rw [if_neg hover]
      simp only [not_or,Bool.not_eq_true] at hover
      exact .inr ⟨recorded,encoded,rfl,hover.1,hover.2.1,hover.2.2,rfl⟩

theorem keeps_forceAbort (h : Local e) (status : Status) :
    Keeps e (e.forceAbort cfg status) := by
  rcases forceAbort_cases cfg e status with heq | ⟨_,_,-,-,-,-,heq⟩
  · rw [heq]
    exact .refl h
  rw [heq]
  refine ⟨fun _ => rfl,⟨h.options,fun _ => rfl,h.admitting,h.woken.delivering,h.woken.dormant,h.vacant⟩,?_,
    .of_same fun _ _ => rfl⟩
  intro holder hclm
  exact ⟨holder,hclm.congr rfl (by simp) fun _ => rfl,fun hend => absurd rfl hend⟩

/-! ### Admission -/

variable {o : Outbound}

theorem OnTheWay.enqueue {l l' : Lane} {rest : List (Option WireMessage)} {buffered : List Outbound}
    {lost : List (Option WireMessage)} (h : OnTheWay l rest buffered lost)
    (hfinished : l.finished = false) (ho : Sound o) (hfail : l'.failing = l.failing)
    (hbuf : l'.buffer = l.buffer) (hback : l'.flight++l'.queue = l.flight++l.queue++[o]) :
    OnTheWay l' (rest++[item o]) buffered [] := by
  have hque : buffered++l'.flight++l'.queue = buffered++l.flight++l.queue++[o] := by
    simp only [append_assoc] at hback ⊢
    rw [hback]
  refine ⟨hfail.trans h.failing,?_,hbuf ▸ h.buffer,?_,fun _ => rfl⟩
  · intro p hp
    rw [hque] at hp
    rcases mem_append.mp hp with hp | hp
    · exact h.sound p hp
    · obtain rfl := mem_singleton.mp hp
      exact ho
  · rw [h.rest,h.lost hfinished,hque]
    simp

variable {h : Holder}

theorem Claims.nobody (hclm : Claims e h) (hsend : e.sending = false) : h = .nobody := by
  by_contra hne
  have := hclm.sending.mpr hne
  rw [hsend] at this
  cases this

variable {message : WireMessage}

section

variable (hend : e.localEnd = .none) (hfinished : e.transportFinished = false)

include hend hfinished

/-- A message is admitted and queued. -/
theorem sends_enqueue (hsound : Sound { message }) :
    Sends e ((e.noteSend message .none).enqueue { message }) := by
  intro h hclm
  refine ⟨h,hclm.congr rfl (by simp [enqueue,noteSend]) fun _ => rfl,?_⟩
  intro _ r hflow
  refine hflow.admission message ?_ ?_ rfl rfl ?_
  · simp [lane,hend]
  · simp [lane,enqueue,noteSend]
  · intro hlis
    refine ⟨hlis,fun rest buffered lost hon => ⟨buffered,[],?_⟩⟩
    refine hon.enqueue hfinished hsound (by simp [lane,enqueue,noteSend]) rfl ?_
    cases h <;> simp [lane,flight,enqueue,noteSend]

/-- A message is admitted and claimed by the call that sends it. -/
theorem sends_claim (hsound : Sound { message })
    (hemp : e.outbound = []) (hsend : e.sending = false) :
    Sends e ({ e.noteSend message .none with sending := true }.setCall i (.deliver message)) := by
  intro h hclm
  obtain rfl := hclm.nobody hsend
  refine ⟨.call i,⟨by simp [setCall],?_,?_⟩,?_⟩
  · simpa [setCall,noteSend] using hclm.fiber
  · intro j
    rw [setCall_calls]
    split_ifs with hj
    · simp [hj,Call.holds]
    · have hidle : (e.calls j).holds ≠ true := fun hholds => nomatch (hclm.call j).mp hholds
      exact ⟨fun hholds => absurd hholds hidle,fun heq => absurd (Holder.call.inj heq).symm hj⟩
  · intro _ r hflow
    refine hflow.admission message ?_ ?_ rfl rfl ?_
    · simp [lane,hend]
    · simp [lane,setCall,noteSend]
    · intro hlis
      refine ⟨hlis,fun rest buffered lost hon => ⟨buffered,[],?_⟩⟩
      refine hon.enqueue hfinished hsound rfl rfl ?_
      simp [lane,flight,Call.flight,setCall,noteSend,hemp]

/-- The half-close is queued. -/
theorem sends_halfClose (ho : o.ending = .halfClose) (hsound : Sound o)
    (hadm : e'.admitted = e.admitted) (hend' : e'.localEnd = .halfClose)
    (hout : e'.outbound = e.outbound) (hsend : e'.sending = e.sending)
    (hsnd : e'.sender = e.sender) (hcalls : e'.calls = e.calls) : Sends e (e'.enqueue o) := by
  intro h hclm
  refine ⟨h,hclm.congr hsend (by simp [enqueue,hsnd]) fun _ => by
    simp [enqueue,hcalls],?_⟩
  intro _ r hflow
  refine hflow.close ?_ ?_ rfl hadm ?_
  · simp [lane,hend]
  · simp [lane,enqueue,hend']
  · intro hlis
    refine ⟨hlis,fun rest buffered lost hon => ⟨buffered,[],?_⟩⟩
    have hitem : item o = none := by simp [item,ho]
    rw [← hitem]
    refine hon.enqueue hfinished hsound (by simp [lane,enqueue,hsnd]) rfl ?_
    cases h <;> simp [lane,flight,enqueue,hcalls,hout,hsnd]

end

/-- An abort is queued; nothing is said of the direction any more. -/
theorem sends_abort (o : Outbound) (hend : e'.localEnd = .abort) (hsend : e'.sending = e.sending)
    (hsnd : e'.sender = e.sender) (hcalls : e'.calls = e.calls) : Sends e (e'.enqueue o) := by
  intro h hclm
  refine ⟨h,hclm.congr hsend (by simp [enqueue,hsnd]) fun _ => by
    simp [enqueue,hcalls],?_⟩
  exact fun hne => absurd hend hne

theorem Local.enqueue (h : Local e) (o : Outbound) : Local (e.enqueue o) :=
  { h with delivering := h.woken.delivering, dormant := h.woken.dormant }

theorem Local.noteSend (h : Local e) (hend : e.localEnd = .none)
    (message : WireMessage) (ending : End) : Local (e.noteSend message ending) := by
  refine { h with marked := ?_ }
  intro hmark
  cases hend.symm.trans (h.marked hmark)

theorem keeps_admission (h : Local e) {ending : End}
    (hcall : e.calls i = .prepared message ending) (expired : Bool) :
    Keeps e (admission e i message ending expired) := by
  have hsound := h.admitting i message ending hcall
  have hold : (e.calls i).holds = false := by rw [hcall]; rfl
  unfold admission
  split
  · exact keeps_setCall h hold rfl (by simp)
  next hrefused =>
  simp only [not_or,Bool.not_eq_true,not_not] at hrefused
  obtain ⟨-,hend,hfinished⟩ := hrefused
  have hstays : e.localEnd = .abort → ending = .abort := fun habt => nomatch hend.symm.trans habt
  have hnoted := h.noteSend hend message ending
  split_ifs with _ hclaim
  · exact keeps_setCall h hold rfl (by simp)
  · obtain ⟨rfl,hemp,hsend⟩ := hclaim
    have hloc := hnoted.setCall i (c := .deliver message) (by simp)
    exact ⟨hstays,{ hloc with },sends_claim hend hfinished hsound hemp (by simpa using hsend),
      .of_same fun _ _ => rfl⟩
  · have hloc := hnoted.enqueue { message, ending }
    have hsends : Sends e ((e.noteSend message ending).enqueue { message, ending }) := by
      cases ending with
      | none => exact sends_enqueue hend hfinished hsound
      | halfClose => exact sends_halfClose hend hfinished rfl hsound rfl rfl rfl rfl rfl rfl
      | abort => exact sends_abort _ rfl rfl rfl rfl
    exact Keeps.trans ⟨hstays,hloc,hsends,.of_same fun _ _ => rfl⟩
      (keeps_setCall hloc hold rfl (by simp))

theorem normalizeEntries_names {entries : List (Bytes × Bytes)} {acc headers : ByteMap}
    (h : normalizeEntries entries acc = .ok headers)
    (hacc : ∀ e ∈ acc.entries, validateName e.1 = .ok ()) :
    ∀ e ∈ headers.entries, validateName e.1 = .ok () := by
  induction entries generalizing acc with
  | nil =>
    cases h
    exact hacc
  | cons entry entries ih =>
    obtain ⟨hname,hrest⟩ := StatusOr.check_bind_eq_ok.mp h
    apply ih hrest
    intro e he
    rcases Entries.mem_put he with rfl | he
    · exact hname
    · exact hacc e he

theorem normalizeWireHeaders_names {headers normalized : ByteMap}
    (h : normalizeWireHeaders headers = .ok normalized) :
    checkAll (fun e => validateName e.1) normalized.entries = .ok () :=
  checkAll_eq_ok.mpr (normalizeEntries_names h (by simp [ByteMap.empty]))

theorem prepare_sound {m : WireMessage} {ending : End}
    (h : prepare m = .ok (message,ending)) : Sound { message, ending } := by
  obtain ⟨hval,hrest⟩ := StatusOr.check_bind_eq_ok.mp h
  by_cases hhalf : isHalfCloseMessage m = true
  · rw [if_pos hhalf] at hrest
    obtain ⟨headers,hnorm,hres⟩ := StatusOr.bind_eq_ok.mp hrest
    cases hres
    have hchk := WireMessage.validate_eq_ok hval
    refine ⟨?_,?_⟩
    · refine StatusOr.check_bind_eq_ok.mpr ⟨checkAll_eq_ok.mpr hchk.fragments,
        StatusOr.check_bind_eq_ok.mpr ⟨checkAll_eq_ok.mpr hchk.actions,
          normalizeWireHeaders_names hnorm⟩⟩
    · have hsame : isHalfCloseMessage { m with headers } = true := hhalf
      simp only [hsame]
      split_ifs <;> simp
  · rw [if_neg hhalf] at hrest
    cases hrest
    exact ⟨hval,by simpa using hhalf⟩

theorem makeHalfCloseMessage_sound {trailers normalized : ByteMap}
    (h : normalizeWireHeaders trailers = .ok normalized) :
    Sound { message := makeHalfCloseMessage normalized, ending := .halfClose } :=
  ⟨normalizeWireHeaders_names h,by simp [isHalfCloseMessage,makeHalfCloseMessage]⟩

/-! ### The other calls -/

theorem Call.not_holds_of_isIdle (h : isIdle c = true) : c.holds = false := by
  cases c <;> simp_all [isIdle,Call.holds]

theorem keeps_overdue (h : Local e) (hidle : isIdle (e.calls i) = true) :
    Keeps e (e.setCall i (.forceAbort deadlineExceeded)) :=
  keeps_setCall h (Call.not_holds_of_isIdle hidle) rfl (by simp)

theorem keeps_halfClose (h : Local e) (i : ℕ) (trailers : ByteMap) (expired : Bool) :
    Keeps e (halfClose e i trailers expired) := by
  unfold halfClose
  split
  · exact .refl h
  next hidle =>
  cases hnorm : normalizeWireHeaders trailers with
  | error status => exact .refl h
  | ok normalized =>
    split_ifs with _ hrefused
    · exact keeps_overdue h (by simpa using hidle)
    · exact .refl h
    simp only [not_or,Bool.not_eq_true,not_not] at hrefused
    obtain ⟨hend,-,hfinished⟩ := hrefused
    have hopen : e.localEnd ≠ .abort := by simp [hend]
    refine ⟨fun habt => absurd habt hopen,?_,sends_halfClose hend hfinished rfl
      (makeHalfCloseMessage_sound hnorm) rfl rfl rfl rfl rfl rfl,.of_same fun _ _ => rfl⟩
    exact ⟨h.options,fun hmark => absurd (h.marked hmark) hopen,h.admitting,
      h.woken.delivering,h.woken.dormant,h.vacant⟩

theorem keeps_abort (h : Local e) (i : ℕ) (status : Status)
    (expired : Bool) : Keeps e (abort cfg e i status expired) := by
  unfold abort
  split
  · exact .refl h
  next hstop =>
  have hidle : isIdle (e.calls i) = true := by
    simp only [Bool.or_eq_true,not_or,Bool.not_eq_true,Bool.not_eq_false'] at hstop
    exact hstop.2
  cases hpack : cfg.packStatus status with
  | error failure => exact .refl h
  | ok encoded =>
    split_ifs
    · exact keeps_overdue h hidle
    · exact .refl h
    exact ⟨fun _ => rfl,⟨h.options,fun _ => rfl,h.admitting,h.woken.delivering,h.woken.dormant,h.vacant⟩,
      sends_abort _ rfl rfl rfl rfl,.of_same fun _ _ => rfl⟩

theorem OnTheWay.congr {l l' : Lane} {rest : List (Option WireMessage)} {buffered : List Outbound}
    {lost : List (Option WireMessage)} (h : OnTheWay l rest buffered lost)
    (hfail : l'.failing = false) (hbuf : l'.buffer = l.buffer)
    (hback : l'.flight++l'.queue = l.flight++l.queue) (hfinished : l'.finished = l.finished) :
    OnTheWay l' rest buffered lost := by
  have hque : buffered++l'.flight++l'.queue = buffered++l.flight++l.queue := by
    rw [append_assoc,hback,append_assoc]
  exact ⟨hfail,by rw [hque]; exact h.sound,hbuf ▸ h.buffer,
    by rw [hque]; exact h.rest,by rw [hfinished]; exact h.lost⟩

theorem Claims.of_call (hclm : Claims e h)
    (hholds : (e.calls i).holds = true) : h = .call i := (hclm.call i).mp hholds

theorem releaseClaim_sender (e : Endpoint) (message : WireMessage) (delivered : Bool) :
    (releaseClaim e message delivered).sender = e.sender ∧
        (releaseClaim e message delivered).outbound = [] ∨
      (releaseClaim e message delivered).sender = e.sender.woken := by
  unfold releaseClaim
  by_cases hnil : (if delivered then e.outbound else { message }::e.outbound) = []
  · exact .inl ⟨if_pos hnil,hnil⟩
  · exact .inr (if_neg hnil)

/-- The call that holds the claim gives it back. -/
theorem keeps_releaseClaim (h : Local e)
    {delivered : Bool} (hcall : e.calls i = .release message delivered) :
    Keeps e ((releaseClaim e message delivered).setCall i .idle) := by
  have hsnd := (releaseClaim_sender e message delivered).imp_left And.left
  have hloc : Local (e.setSender (releaseClaim e message delivered).sender) := by
    rcases hsnd with hs | hs <;> rw [hs]
    · exact { h with }
    · exact h.woken
  have hnext : Local (releaseClaim e message delivered) := { hloc with }
  refine ⟨id,hnext.setCall i (by simp),?_,.of_same fun _ _ => rfl⟩
  intro holder hclm
  obtain rfl := hclm.of_call (i := i) (by rw [hcall]; rfl)
  obtain ⟨hholds,hfail⟩ : (releaseClaim e message delivered).sender.holds = e.sender.holds ∧
      (releaseClaim e message delivered).sender.failing = e.sender.failing := by
    rcases hsnd with hs | hs <;> simp [hs]
  refine ⟨.nobody,⟨by simp [setCall,releaseClaim],?_,?_⟩,?_⟩
  · have := hclm.fiber
    simp only [reduceCtorEq,iff_false] at this ⊢
    exact fun hheld => this (hholds.symm.trans hheld)
  · intro j
    rw [setCall_calls]
    simp only [reduceCtorEq,iff_false]
    split_ifs with hj
    · simp [Call.holds]
    · intro hheld
      exact hj (Holder.call.inj ((hclm.call j).mp hheld)).symm
  · intro _ r hflow
    refine hflow.pass ⟨rfl,rfl,rfl⟩ fun hlis => ⟨hlis,fun rest buffered lost hon =>
      ⟨buffered,lost,hon.congr (hfail.trans hon.failing) rfl ?_ rfl⟩⟩
    simp only [lane,flight,hcall,setCall,releaseClaim]
    cases delivered <;> simp [Call.flight]

/-! ### The start, the timer and the release of an endpoint -/

theorem keeps_watchTiming (h : Local e) (overdue : Option Overdue) :
    Keeps e (watchTiming cfg e overdue) := by
  have htiming : ∀ {e' : Endpoint}, Local e' → ∀ timing, Keeps e' { e' with timing } := by
    intro e' h' timing
    exact ⟨id,{ h' with },
      .of_same rfl rfl (fun _ => rfl) fun _ _ => rfl,.of_same fun _ _ => rfl⟩
  unfold watchTiming
  cases htime : e.timing with
  | absent | returned => exact .refl h
  | watching =>
    split_ifs
    · exact htiming h _
    · cases overdue with
      | none => exact .refl h
      | some overdue => exact htiming h _
  | forceAbort status =>
    have habt := keeps_forceAbort cfg h status
    exact habt.trans (htiming habt.own _)

theorem keeps_release (h : Local e) : Keeps e (release e) := by
  have hgone : e.receiver = .absent ∨ e.receiver = .returned → Keeps e { e with gone := true } := by
    intro hvacant
    refine ⟨id,{ h with vacant := fun _ => hvacant },
      .of_same rfl rfl (fun _ => rfl) fun _ _ => rfl,?_⟩
    intro s holder hflow
    exact hflow.deaf rfl rfl rfl (.inl rfl) rfl
  unfold release
  split
  · next hrcv _ => exact hgone (.inl hrcv)
  · next hrcv _ => exact hgone (.inr hrcv)
  · exact .refl h

theorem keeps_start (h : Local e) (i : ℕ) (expired : Bool) : Keeps e (start e i expired) := by
  unfold start
  split
  · exact .refl h
  next hstop =>
  simp only [Bool.or_eq_true,not_or,Bool.not_eq_true,Bool.not_eq_false'] at hstop
  obtain ⟨⟨hstart,hgone⟩,hidle⟩ := hstop
  obtain ⟨hsnd,hrcv⟩ := h.dormant hstart
  have hloc : Local e.launch := 
    ⟨h.options,h.marked,h.admitting,by simp [launch],by simp [launch],
      by simp [launch,hgone]⟩
  have hkeeps : Keeps e e.launch := by
    refine ⟨id,hloc,.of_same rfl (by rw [hsnd]; rfl) (fun _ => rfl) fun _ h => ?_,
      .of_same fun _ _ => ?_⟩
    · cases h <;> simp only [lane,flight,hsnd] <;> rfl
    · simp only [lane,hrcv]
      rfl
  split_ifs
  · exact hkeeps.trans (keeps_overdue hloc hidle)
  · exact hkeeps

/-! ### The sender -/

theorem Claims.of_fiber (hclm : Claims e h)
    (hholds : e.sender.holds = true) : h = .fiber := hclm.fiber.mp hholds

/-- The sender goes on without a message in hand. -/
theorem keeps_sender (h : Local e) (hloc : e' = { e with
      sender := e'.sender, localEndSent := e'.localEndSent, status := e'.status })
    (hholds : e.sender.holds = true) (hholds' : e'.sender.holds = true)
    (hfl : e.sender.flight = []) (hfl' : e'.sender.flight = [])
    (hfail : e.sender.failing = e'.sender.failing) : Keeps e e' := by
  have hsnd : ∀ o payload, e'.sender = .deliver o payload ∨ e'.sender = .blocked o payload →
      o.message.Encodes payload := by
    rintro o payload (hs | hs) <;> rw [hs] at hfl' <;> cases hfl'
  have hrun : e.started = false → e'.sender = .absent ∧ e.receiver = .absent := by
    intro hstart
    rw [(h.dormant hstart).1] at hholds
    cases hholds
  rw [hloc]
  exact ⟨id,{ h with delivering := hsnd, dormant := hrun },
    .of_same rfl (hholds'.trans hholds.symm) (fun _ => rfl) fun _ h => by
      cases h <;> simp [lane,flight,hfl,hfl',hfail],.of_same fun _ _ => rfl⟩

/-- The sender gives the claim back. -/
theorem keeps_release_claim (h : Local e) {leave : Bool} (hsnd : e.sender = .release leave) :
    Keeps e { e with sending := false, sender := if leave then .returned else .idle } := by
  have hnew : (if leave then Sender.returned else .idle).holds = false ∧
      (if leave then Sender.returned else .idle).flight = [] ∧
      (if leave then Sender.returned else .idle).failing = false := by cases leave <;> decide
  refine ⟨id,{ h with delivering := ?_, dormant := ?_ },?_,.of_same fun _ _ => rfl⟩
  · intro o payload hs
    cases leave <;> simp at hs
  · intro hstart
    cases hsnd.symm.trans (h.dormant hstart).1
  · intro holder hclm
    obtain rfl := hclm.of_fiber (by rw [hsnd]; rfl)
    refine ⟨.nobody,⟨by simp,by simp [hnew.1],fun i => ?_⟩,?_⟩
    · simpa using hclm.call i
    · intro _ r hflow
      refine hflow.pass ⟨rfl,rfl,rfl⟩ fun hlis => ⟨hlis,fun rest buffered lost hon =>
        ⟨buffered,lost,hon.congr hnew.2.2 rfl ?_ rfl⟩⟩
      simp [lane,flight,hsnd,Sender.flight]

theorem keeps_sender_forceAbort (h : Local e) {status : Status}
    {leave : Bool} (hsnd : e.sender = .forceAbort status leave) :
    Keeps e ((e.forceAbort cfg status).setSender (.release leave)) := by
  have habt := keeps_forceAbort cfg h status
  have hrun : (e.forceAbort cfg status).started = false → Sender.release leave = .absent ∧
      (e.forceAbort cfg status).receiver = .absent := by
    intro hstart
    have habs := (habt.own.dormant hstart).1
    rcases forceAbort_cases cfg e status with heq | ⟨recorded,encoded,-,-,-,-,heq⟩ <;>
      rw [heq] at habs <;> simp [hsnd,Sender.woken] at habs
  refine ⟨habt.stays,{ habt.own with delivering := by simp, dormant := hrun },?_,
    fun s holder hflow => habt.hears s holder hflow⟩
  intro holder hclm
  obtain rfl := hclm.of_fiber (by rw [hsnd]; rfl)
  rcases forceAbort_cases cfg e status with heq | ⟨recorded,encoded,-,-,-,-,heq⟩ <;> rw [heq] <;>
    refine ⟨.fiber,⟨hclm.sending,by simp [Sender.holds],hclm.call⟩,?_⟩
  · intro _ r hflow
    refine hflow.pass ⟨rfl,rfl,rfl⟩ fun hlis => ⟨hlis,fun rest buffered lost hon => ?_⟩
    have hfail := hon.failing
    simp [lane,hsnd,Sender.failing] at hfail
  · exact fun hend => absurd rfl hend

/-- The sender stops, for now or for good. -/
theorem keeps_stop (h : Local e) (hsnd : e.sender = .idle) (stopped : Sender)
    (hholds : stopped.holds = false) (hfail : stopped.failing = false) :
    Keeps e (e.setSender stopped) := by
  have hfl := Sender.flight_of_not_holds hholds
  refine ⟨id,{ h with delivering := ?_, dormant := ?_ },.of_same rfl ?_ (fun _ => rfl) fun _ h => ?_,
    .of_same fun _ _ => rfl⟩
  · rintro o _ (hs | hs) <;> rw [show stopped = _ from hs] at hholds <;> cases hholds
  · intro hstart
    cases hsnd.symm.trans (h.dormant hstart).1
  · rw [hsnd,setSender_sender,hholds]; rfl
  · cases h <;> simp only [lane,flight,setSender,hsnd,hfl,hfail] <;> rfl

/-- The sender takes the front of the queue, with what can be folded in, and the claim. -/
theorem sends_take {front : Outbound} {rest : List Outbound}
    (hout : e.outbound = front::rest) (hsend : e.sending = false)
    (hfinished : e.transportFinished = false) {taken : Sender}
    (htak : ∀ payload, (takeOutbound cfg.estimate front rest).1.message.toMsgpack cfg.packer = .ok payload →
      taken = .deliver (takeOutbound cfg.estimate front rest).1 payload)
    (hholds : taken.holds = true) :
    Sends e { e with
      outbound := (takeOutbound cfg.estimate front rest).2
      sending := true
      sender := taken } := by
  intro holder hclm
  obtain rfl := hclm.nobody hsend
  refine ⟨.fiber,⟨by simp,by simp [hholds],fun i => ?_⟩,?_⟩
  · simpa using hclm.call i
  · intro _ r hflow
    refine hflow.fold rfl rfl rfl rfl fun hlis => ⟨hlis,fun items buffered lost hon => ?_⟩
    have hsound : ∀ o ∈ front::rest, Sound o := by
      intro o ho
      apply hon.sound
      simp only [lane,hout,mem_append]
      exact .inr ho
    obtain ⟨htook,hrest,-,hfold⟩ := takeOutbound_spec cfg.estimate hsound
    have hdel := htak _ (WireMessage.toMsgpack_eq htook.valid)
    refine ⟨buffered.map item,(front::rest).map item,_,buffered,[],?_,hfold,?_⟩
    · rw [hon.rest,hon.lost hfinished]
      simp [lane,flight,hout]
    · refine ⟨by simp [lane,hdel,Sender.failing],?_,hon.buffer,?_,fun _ => rfl⟩
      · intro o ho
        simp only [lane,flight,hdel,Sender.flight,mem_append,mem_singleton] at ho
        rcases ho with (ho | rfl) | ho
        · exact hon.sound o (by simp [ho])
        · exact htook
        · exact hrest o ho
      · simp [lane,flight,hdel,Sender.flight]

theorem keeps_takeNext (h : Local e) (hsnd : e.sender = .idle) :
    Keeps e (takeNext cfg e) := by
  unfold takeNext
  split
  · exact keeps_stop h hsnd .returned rfl rfl
  next hfinished =>
  split
  · exact keeps_stop h hsnd .asleep rfl rfl
  next front rest hout =>
  split_ifs with hsend hskip
  · exact keeps_stop h hsnd .asleep rfl rfl
  · refine ⟨id,{ h with },?_,.of_same fun _ _ => rfl⟩
    intro holder hclm
    exact ⟨holder,hclm.congr rfl rfl fun _ => rfl,fun hend => absurd (h.marked hskip.1) hend⟩
  · dsimp only
    refine ⟨id,{ h with delivering := ?_, dormant := ?_ },sends_take cfg hout
      (by simpa using hsend) (by simpa using hfinished) ?_ (by split <;> rfl),
      .of_same fun _ _ => rfl⟩
    · intro o payload hs
      split at hs
      · next henc =>
        rcases hs with hs | hs <;> cases hs
        exact ⟨_,henc⟩
      · rcases hs with hs | hs <;> cases hs
    · intro hstart
      cases hsnd.symm.trans (h.dormant hstart).1
    · intro payload hpay
      rw [hpay]

/-! ### Finishing -/

/-- The rest of the queue is dropped. -/
theorem sends_finished (hadm : e'.admitted = e.admitted)
    (hend : e'.localEnd = e.localEnd) (hfinished : e'.transportFinished = true)
    (hout : e'.outbound = []) (hsend : e'.sending = e.sending)
    (hholds : e'.sender.holds = e.sender.holds) (hflight : e'.sender.flight = e.sender.flight)
    (hfail : e'.sender.failing = e.sender.failing) (hcalls : e'.calls = e.calls) : Sends e e' := by
  intro h hclm
  refine ⟨h,hclm.congr hsend hholds fun i => by rw [hcalls],?_⟩
  intro _ r hflow
  have hfl : flight e' h = flight e h := by
    cases h with
    | nobody => rfl
    | call i => simp [flight,hcalls]
    | fiber => exact hflight
  refine hflow.pass ⟨hadm,by simp [lane,hend],rfl⟩ fun hlis =>
    ⟨hlis,fun rest buffered lost hon => ⟨buffered,e.outbound.map item++lost,?_⟩⟩
  refine ⟨hfail.trans hon.failing,?_,hon.buffer,?_,?_⟩
  · intro o ho
    apply hon.sound
    simp only [lane,hout,hfl,append_nil] at ho
    exact mem_append_left _ ho
  · rw [hon.rest]
    simp [lane,hout,hfl]
  · intro hopen
    exact absurd (hfinished.symm.trans hopen) (by simp)

theorem hears_finished (hfinished : e'.transportFinished = true) (hhanded : e'.handed = e.handed)
    (hhand : e'.receiver.hand = e.receiver.hand ∨ e'.receiver.hand = []) : Hears e e' := by
  intro s h hflow
  refine hflow.deaf rfl rfl hhanded hhand ?_
  simp [lane,hfinished]

/-- The sender finishes the stream. -/
theorem keeps_finished_sender (h : Local e) (hsnd : e.sender = .finish) (callback : Bool) :
    Keeps e (e.finished.setSender (if callback then .done else .release true)) := by
  refine ⟨id,⟨h.options,h.marked,h.admitting,?_,?_,?_⟩,
    sends_finished rfl rfl rfl rfl rfl ?_ ?_ ?_ rfl,
    hears_finished rfl rfl (.inl (by simp [finished]))⟩
  · intro o payload hs
    cases callback <;> simp at hs
  · intro hstart
    cases hsnd.symm.trans (h.dormant hstart).1
  · intro hgone
    rcases h.vacant hgone with hr | hr
    · exact .inl (by simp [finished,hr,Receiver.woken])
    · exact .inr (by simp [finished,hr,Receiver.woken])
  all_goals
    rw [hsnd]
    cases callback <;> rfl

/-- The receiver finishes the stream. -/
theorem keeps_finished_receiver (h : Local e) (hrcv : e.receiver = .finish) (callback : Bool) :
    Keeps e (e.finished.setReceiver (if callback then .done else .returned)) := by
  refine ⟨id,⟨h.options,h.marked,h.admitting,h.woken.delivering,?_,?_⟩,
    sends_finished rfl rfl rfl rfl rfl (by simp [finished]) (by simp [finished])
      (by simp [finished]) rfl,
    hears_finished rfl rfl (.inr (by cases callback <;> rfl))⟩
  · intro hstart
    cases hrcv.symm.trans (h.dormant hstart).2
  · intro hgone
    rcases h.vacant hgone with hr | hr <;> cases hrcv.symm.trans hr

/-! ### The receiver -/

/-- The receiver moves on; the endpoint sends as before. -/
theorem keeps_receiver (h : Local e) (hsame : e' = { e with
      incoming := e'.incoming, incomingBytes := e'.incomingBytes, receiver := e'.receiver,
      handed := e'.handed, remoteHalfClosed := e'.remoteHalfClosed,
      remoteAborted := e'.remoteAborted, trailers := e'.trailers, status := e'.status })
    (hrun : e.receiver ≠ .absent ∧ e.receiver ≠ .returned) (hhears : Hears e e') :
    Keeps e e' := by
  refine ⟨?_,?_,?_,hhears⟩
  · rw [hsame]
    exact id
  · rw [hsame]
    refine { h with dormant := ?_, vacant := ?_ }
    · intro hstart
      exact absurd (h.dormant hstart).2 hrun.1
    · intro hgone
      exact ((h.vacant hgone).elim hrun.1 hrun.2).elim
  · rw [hsame]
    exact .of_same rfl rfl (fun _ => rfl) fun _ _ => rfl

theorem isHalfCloseMessage_carried (m : WireMessage) :
    isHalfCloseMessage m.carried = isHalfCloseMessage m := by
  simp [isHalfCloseMessage,WireMessage.carried]

/-- What the receiver makes of an encoded message: it gives up, or it takes what was sent in
hand. -/
theorem classify_encoded {limit : ℕ} {payload : Bytes} (hlim : limit ≤ maxSingleMessageSizeLimit)
    (ho : Sound o) (henc : o.message.Encodes payload) : let r := classify cfg limit payload
    (r.listening = false ∧ r.hand = []) ∨ (r.listening = true ∧ r.hand = [item o]) := by
  unfold classify
  split_ifs with hlong
  · exact .inl ⟨rfl,rfl⟩
  have hlen : payload.length < lengthLimit :=
    (not_lt.mp hlong).trans_lt (hlim.trans_lt (by decide))
  rw [henc.fromMsgpack ho.valid hlen]
  dsimp only
  rw [isHalfCloseMessage_carried]
  by_cases hhalf : isHalfCloseMessage o.message = true
  · rw [if_neg (by simp [hhalf])]
    have hitem : item o = none := by
      rw [item,if_neg]
      intro hnone
      cases hhalf.symm.trans (ho.ending.mp hnone)
    cases normalizeWireHeaders o.message.carried.headers with
    | error status => exact .inl ⟨rfl,rfl⟩
    | ok headers =>
      dsimp only
      cases headers.find abortStatusHeader with
      | some encoded => exact .inl ⟨rfl,rfl⟩
      | none =>
        rw [hitem]
        exact .inr ⟨rfl,rfl⟩
  · rw [if_pos (by simpa using hhalf)]
    have hitem : item o = some o.message.carried := if_pos (ho.ending.mpr (by simpa using hhalf))
    rw [hitem]
    exact .inr ⟨rfl,rfl⟩

theorem hears_pick (h : Local e) (hrcv : e.receiver = .idle)
    (hopen : e.transportFinished = false) {payload : Bytes} {rest : List Bytes}
    (hinc : e.incoming = payload::rest) (hinc' : e'.incoming = rest)
    (hrcv' : e'.receiver = classify cfg e.options.maxSingleMessageSize payload)
    (hhanded : e'.handed = e.handed) : Hears e e' := by
  rintro s holder ⟨all,hord,hway⟩
  have hpres : e.gone = false := by
    by_contra hgone
    rcases h.vacant (by simpa using hgone) with hr | hr <;> cases hrcv.symm.trans hr
  have hhand : (lane s e holder).hand = [] := by simp [lane,hrcv,Receiver.hand]
  obtain ⟨buffered,lost,hon⟩ := hway (by simp [lane,hrcv,hpres,hopen,Receiver.listening])
  have hbuf := hon.buffer
  cases buffered with
  | nil => simp [lane,hinc] at hbuf
  | cons o buffered =>
    simp only [lane,hinc,forall₂_cons] at hbuf
    have hcs := classify_encoded cfg (Options.validate_size h.options) (hon.sound o (by simp)) hbuf.1
    rw [← hrcv'] at hcs
    rcases hcs with ⟨hdeaf,hnothing⟩ | ⟨-,hgiven⟩
    · exact Flow.deaf ⟨all,hord,hway⟩ rfl rfl hhanded (.inr hnothing) (by simp [lane,hdeaf])
    have hall := hon.rest
    rw [hall] at hord
    refine ⟨_,hord.pick hhand hgiven rfl rfl hhanded,fun _ => ⟨buffered,lost,?_⟩⟩
    refine ⟨hon.failing,?_,by simpa only [lane,hinc'] using hbuf.2,rfl,hon.lost⟩
    intro p hp
    have htail : p ∈ buffered++(lane s e holder).flight++(lane s e holder).queue := hp
    exact hon.sound p (mem_cons_of_mem o htail)

theorem keeps_check (h : Local e) (hrcv : e.receiver = .check message) :
    Keeps e { e with receiver := .calling, handed := e.handed++[some message] } := by
  refine keeps_receiver h rfl (by simp [hrcv]) ?_
  intro s holder hflow
  refine hflow.pass ⟨rfl,rfl,by simp [lane,hrcv,Receiver.hand]⟩ fun hlis => ⟨?_,?_⟩
  · simpa [lane,hrcv,Receiver.listening] using hlis
  · exact fun rest buffered lost hon => ⟨buffered,lost,hon.congr hon.failing rfl rfl rfl⟩

theorem keeps_receiver_halfClose (h : Local e) {trailers : ByteMap}
    (hrcv : e.receiver = .halfClose trailers) :
    Keeps e { e with
      remoteHalfClosed := true
      trailers := some trailers
      handed := e.handed++[none]
      receiver := .callingEnd } := by
  refine keeps_receiver h rfl (by simp [hrcv]) ?_
  intro s holder hflow
  refine hflow.pass ⟨rfl,rfl,by simp [lane,hrcv,Receiver.hand]⟩ fun hlis => ?_
  simp [lane,Receiver.listening] at hlis

/-- The receiver goes on without a message in hand, or gives up. -/
theorem keeps_receiver_next (h : Local e) (hsame : e' = { e with
      receiver := e'.receiver, remoteAborted := e'.remoteAborted, trailers := e'.trailers,
      status := e'.status })
    (hrun : e.receiver ≠ .absent ∧ e.receiver ≠ .returned) (hhand : e'.receiver.hand = [])
    (hnext : e'.receiver.listening = false ∨
      (e.receiver.hand = [] ∧ e'.receiver.listening = e.receiver.listening)) : Keeps e e' := by
  have hhears : Hears e e' := by
    rcases hnext with hdeaf | ⟨hemp,hlis⟩
    · intro s holder hflow
      refine hflow.deaf rfl rfl ?_ (.inr hhand) (by simp [lane,hdeaf])
      rw [hsame]
      rfl
    · rw [hsame]
      exact .of_same fun _ _ => by simp [lane,hhand,hemp,hlis]
  rw [hsame] at hhears ⊢
  exact keeps_receiver h rfl hrun hhears

end A11.InProcess
