import A11.ChannelMoves

/-! Invariants of a channel stream that every move keeps: where its fibers are, that somebody
finishes it once it has to end, and that no wake-up is lost. -/
namespace A11.ChannelStream

open WireStream Endpoint Sender

/-! ### Where the fibers are -/

def Call.holds : Call → Bool
  | .deliver _ => true
  | .unclaim _ => true
  | _ => false

def Call.starting : Call → Bool
  | .configure => true
  | .schedule => true
  | _ => false

def Sender.holds : Sender → Bool
  | .absent => false
  | .take => false
  | .asleep => false
  | .returned => false
  | _ => true

/-- The sender fiber will not look at the queue again. -/
def Sender.over : Sender → Bool
  | .release leave => leave
  | .returned => true
  | _ => false

theorem Call.not_holds_of_plain {c : Call} (h : c.plain = true) : c.holds = false := by
  cases c <;> simp_all [plain,holds]

theorem Call.not_starting_of_plain {c : Call} (h : c.plain = true) : c.starting = false := by
  cases c <;> simp_all [plain,starting]

@[simp] theorem Sender.holds_woken (s : Sender) : s.woken.holds = s.holds := by cases s <;> rfl

@[simp] theorem Sender.over_woken (s : Sender) : s.woken.over = s.over := by cases s <;> rfl

@[simp] theorem Sender.carries_woken (s : Sender) : s.woken.carries = s.carries := by
  cases s <;> rfl

theorem Sender.woken_absent {s : Sender} (h : s = .absent) : s.woken = .absent := by rw [h]; rfl

/-- One start at a time, before there are fibers; the claim is in somebody's hands; the sender
fiber is through once it has published the end. -/
structure Sane (e : Endpoint) : Prop where
  unstarted : e.started = false →
    e.sender.place = .absent ∧ ∀ i, (e.calls i).place.starting = false
  single : ∀ i j, (e.calls i).place.starting = true → (e.calls j).place.starting = true → i = j
  fresh : ∀ i, (e.calls i).place.starting = true → e.sender.place = .absent
  sent : e.localEndSent ≠ .none → e.sender.place.over = true
  claims : e.sending = true →
    e.sender.place.holds = true ∨ ∃ i, (e.calls i).place.holds = true

variable {e e' : Endpoint}

/-- Nothing that matters here changes, apart from a wake-up. -/
theorem Sane.keep (h : Sane e) (hstarted : e'.started = e.started)
    (hsent : e'.localEndSent = e.localEndSent) (hsend : e'.sending = true → e.sending = true)
    (hsnd : e'.sender.place = e.sender.place ∨ e'.sender.place = e.sender.place.woken)
    (hstart : ∀ i, (e'.calls i).place.starting = (e.calls i).place.starting)
    (hholds : ∀ i, (e.calls i).place.holds = true → (e'.calls i).place.holds = true) : Sane e' := by
  have habs : e.sender.place = .absent → e'.sender.place = .absent := by
    intro habs
    rcases hsnd with heq | heq
    · exact heq.trans habs
    · exact heq.trans (woken_absent habs)
  have hover : e'.sender.place.over = e.sender.place.over := by
    rcases hsnd with heq | heq <;> simp [heq]
  have hhold : e'.sender.place.holds = e.sender.place.holds := by
    rcases hsnd with heq | heq <;> simp [heq]
  refine ⟨?_,?_,?_,?_,?_⟩
  · intro hunst
    obtain ⟨hnone,hcalls⟩ := h.unstarted (hstarted.symm.trans hunst)
    exact ⟨habs hnone,fun i => (hstart i).trans (hcalls i)⟩
  · simpa only [hstart] using h.single
  · exact fun i hi => habs (h.fresh i ((hstart i).symm.trans hi))
  · rw [hsent,hover]
    exact h.sent
  · intro hs
    rw [hhold]
    exact (h.claims (hsend hs)).imp_right fun ⟨i,hi⟩ => ⟨i,hholds i hi⟩

theorem holds_setCall {i : ℕ} {fiber : Fiber Call}
    (hholds : (e.calls i).place.holds = true → fiber.place.holds = true) :
    (∃ j, (e.calls j).place.holds = true) →
      ∃ j, ((e.setCall i fiber).calls j).place.holds = true := by
  rintro ⟨j,hj⟩
  refine ⟨j,?_⟩
  rw [setCall_calls]
  split_ifs with heq
  · exact hholds (heq ▸ hj)
  · exact hj

/-- A call goes on. -/
theorem Sane.call (h : Sane e) (i : ℕ) {fiber : Fiber Call}
    (hstart : fiber.place.starting = true → (e.calls i).place.starting = true)
    (hholds : (e.calls i).place.holds = true → fiber.place.holds = true ∨ e.sending = false) :
    Sane (e.setCall i fiber) := by
  have hback : ∀ j, ((e.setCall i fiber).calls j).place.starting = true →
      (e.calls j).place.starting = true := by
    intro j hj
    rw [setCall_calls] at hj
    split_ifs at hj with heq
    · rw [heq]
      exact hstart hj
    · exact hj
  refine ⟨?_,?_,fun j hj => h.fresh j (hback j hj),h.sent,?_⟩
  · intro hunst
    obtain ⟨habs,hcalls⟩ := h.unstarted hunst
    refine ⟨habs,fun j => ?_⟩
    by_contra hj
    exact absurd (hback j (by simpa using hj)) (by simp [hcalls j])
  · exact fun j k hj hk => h.single j k (hback j hj) (hback k hk)
  · intro hsend
    refine (h.claims hsend).imp_right (holds_setCall fun hi => (hholds hi).resolve_right ?_)
    rw [show e.sending = true from hsend]
    simp

theorem Sane.plainCall (h : Sane e) (i : ℕ) {fiber : Fiber Call}
    (hold : (e.calls i).place.plain = true) (hnew : fiber.place.plain = true) :
    Sane (e.setCall i fiber) :=
  h.call i (by simp [Call.not_starting_of_plain hnew]) (by simp [Call.not_holds_of_plain hold])

/-- The sender fiber goes on. -/
theorem Sane.sender (h : Sane e) {fiber : Fiber Sender}
    (hpl : e.sender.place ≠ .absent) (hover : e.sender.place.over = true → fiber.place.over = true)
    (hholds : e.sender.place.holds = true → fiber.place.holds = true ∨ e.sending = false) :
    Sane (e.setSender fiber) := by
  refine ⟨?_,h.single,?_,?_,?_⟩
  · exact fun hunst => absurd (h.unstarted hunst).1 hpl
  · exact fun i hi => absurd (h.fresh i hi) hpl
  · exact fun hsent => hover (h.sent hsent)
  · intro hsend
    rcases h.claims hsend with hheld | hcall
    · refine .inl ((hholds hheld).resolve_right ?_)
      rw [show e.sending = true from hsend]
      simp
    · exact .inr hcall

section

variable (cfg : Config) (e : Endpoint) (status : Status) (canCommunicate : Bool)

/-- A failure is not recorded, is left to the sender fiber, or finishes the stream at once. -/
theorem forceAbort_cases :
    e.forceAbort cfg status canCommunicate = (e,[]) ∨
      e.finished = false ∧ e.remoteAborted = false ∧ e.localEnd ≠ .abort ∧
        ((∃ message, e.informs cfg status canCommunicate = true ∧
            e.forceAbort cfg status canCommunicate =
              ((e.fail (abortStatus status)).queue message .abort,[.notify])) ∨
          e.forceAbort cfg status canCommunicate =
            (e.fail (abortStatus status),[.notify,.finish none])) := by
  unfold forceAbort
  split
  · exact .inl rfl
  next hover =>
  simp only [not_or,Bool.not_eq_true] at hover
  refine .inr ⟨hover.1,hover.2.1,hover.2.2,?_⟩
  split
  · next message hnotice =>
    split_ifs with hopen
    · refine .inl ⟨message,?_,rfl⟩
      simp [informs,hnotice,hopen.1,hopen.2,hover.1,hover.2.1,hover.2.2]
    · exact .inr rfl
  · exact .inr rfl

theorem forceAbort_same :
    ∃ recorded trailers localEnd outgoing nextOutgoingMessageId,
      (e.forceAbort cfg status canCommunicate).1 = { e with
        status := recorded, trailers, localEnd, outgoing, nextOutgoingMessageId } := by
  rcases forceAbort_cases cfg e status canCommunicate with heq | ⟨-,-,-,⟨_,-,heq⟩ | heq⟩ <;>
    rw [heq]
  · exact ⟨e.status,e.trailers,e.localEnd,e.outgoing,e.nextOutgoingMessageId,rfl⟩
  · exact ⟨_,_,_,_,_,rfl⟩
  · exact ⟨_,_,_,_,_,rfl⟩

theorem forceAbort_ended :
    (e.forceAbort cfg status canCommunicate).1.ended = e.ended ∧
      (e.forceAbort cfg status canCommunicate).1.finished = e.finished ∧
      (e.forceAbort cfg status canCommunicate).1.duties = e.duties := by
  obtain ⟨_,_,_,_,_,heq⟩ := forceAbort_same cfg e status canCommunicate
  rw [heq]
  exact ⟨rfl,rfl,rfl⟩

theorem duties_forced (rest : List Duty) (t : Thread) :
    ((e.forceAbort cfg status canCommunicate).1.setDuties ((e.forceAbort cfg status canCommunicate).2++rest) t).duties =
      Function.update e.duties t ((e.forceAbort cfg status canCommunicate).2++rest) := by
  rw [duties_setDuties,(forceAbort_ended cfg e status canCommunicate).2.2]

end

theorem doneReturned_same (e : Endpoint) (result : Status) :
    ∃ status, e.doneReturned result = { e with status } := by
  unfold doneReturned
  split_ifs
  · exact ⟨result,rfl⟩
  · exact ⟨e.status,rfl⟩

theorem Sane.setDuties (h : Sane e) (duties : List Duty) (t : Thread) :
    Sane (e.setDuties duties t) := h.keep rfl rfl id (.inl (by simp)) (by simp) (by simp)

variable {l r s : Prop} {cfg : Config}

theorem sane_move (hmove : Move cfg l s r e e') (h : Sane e) : Sane e' := by
  cases hmove with
  | aside | receive | remoteAbort | remoteHalfClose | answer | refuse | watch => exact { h with }
  | call i fiber _ hold hnew _ => exact h.plainCall i hold hnew
  | claim i id o _ hold hend =>
    have hnext : Sane (e.setCall i { place := .deliver o }) :=
      h.call i (fun hstart => nomatch hstart) (by simp [Call.not_holds_of_plain hold])
    exact { hnext with claims := fun _ => .inr ⟨i,by simp [setCall_calls,Call.holds]⟩ }
  | queue i message ending _ hold =>
    exact Sane.plainCall (e := (e.noteSend ending).queue message ending) { h with } i hold rfl
  | handOver i o failure _ hpl => exact h.call i (fun hstart => nomatch hstart) fun _ => .inl rfl
  | unclaim i failure _ hpl =>
    have hnext : Sane { e with sending := false } := { h with claims := fun hsend => nomatch hsend }
    exact hnext.call i (fun hstart => nomatch hstart) fun _ => .inr rfl
  | start i _ hold hstarted =>
    obtain ⟨habs,hcalls⟩ := h.unstarted hstarted
    have hnone : ∀ j, ((setCall { e with started := true } i
        { place := .configure }).calls j).place.starting = true → j = i := by
      intro j hj
      rw [setCall_calls] at hj
      split_ifs at hj with heq
      · exact heq
      · exact absurd hj (by simp [hcalls j])
    refine ⟨(fun hunst => nomatch hunst),?_,fun _ _ => habs,h.sent,?_⟩
    · exact fun j k hj hk => (hnone j hj).trans (hnone k hk).symm
    · exact fun hsend =>
        (h.claims hsend).imp_right (holds_setCall (by simp [Call.not_holds_of_plain hold]))
  | configured i _ hpl => exact h.call i (fun _ => by rw [hpl]; rfl) (by simp [hpl,Call.holds])
  | unconfigured i status _ hpl =>
    exact h.call i (fun hstart => nomatch hstart) (by simp [hpl,Call.holds])
  | launch i _ hpl =>
    have hi : (e.calls i).place.starting = true := by rw [hpl]; rfl
    have habs := h.fresh i hi
    have hnext : Sane (e.setCall i { place := .checkOpen }) :=
      h.call i (fun hstart => nomatch hstart) (by simp [hpl,Call.holds])
    refine { hnext with unstarted := ?_, fresh := fun j hj => ?_, sent := ?_, claims := ?_ }
    · intro hunst
      rw [(h.unstarted hunst).2 i] at hi
      cases hi
    · rw [setCall_calls] at hj
      split_ifs at hj with heq
      · cases hj
      · exact absurd (h.single j i hj hi) heq
    · intro hsent
      have hover := h.sent hsent
      rw [habs] at hover
      cases hover
    · refine fun hsend => (hnext.claims hsend).imp_left fun hheld => ?_
      rw [show (e.setCall i _).sender.place = .absent from habs] at hheld
      cases hheld
  | opened i isOpen fiber _ hold hnew =>
    exact Sane.plainCall (e := { e with isOpen }) { h with } i hold hnew
  | closed i duty _ hold =>
    exact Sane.plainCall (e := { e with channelClosed := true }) { h with } i hold rfl
  | sleep _ hpl | leave _ hpl =>
    exact h.sender (by simp [hpl]) (by simp [hpl,Sender.over]) (by simp [hpl,Sender.holds])
  | take front rest _ hpl =>
    have hnext : Sane (e.setSender { place := .write (takeOutbound cfg.estimate front rest).1 }) :=
      h.sender (by simp [hpl]) (by simp [hpl,Sender.over]) fun _ => .inl rfl
    exact { hnext with claims := fun _ => .inl rfl }
  | wrote o _ hpl =>
    refine h.sender (by simp [hpl]) (by simp [hpl,Sender.over]) fun _ => .inl ?_
    split_ifs <;> rfl
  | stop status _ hpl =>
    refine h.sender ?_ (fun _ => rfl) fun _ => .inl rfl
    rcases hpl with ⟨o,heq⟩ | ⟨ending,notified,heq⟩ <;> simp [heq]
  | stopped ending _ hpl => exact h.sender (by simp [hpl]) (fun _ => rfl) fun _ => .inl rfl
  | wait ending next _ hpl hnext =>
    have hover : e.sender.place.over = false ∧ e.sender.place ≠ .absent := by
      rcases hpl with heq | ⟨notified,heq⟩ <;> simp [heq,Sender.over]
    refine h.sender hover.2 (by simp [hover.1]) fun _ => .inl ?_
    rcases hnext with rfl | rfl | rfl | rfl <;> rfl
  | publish ending _ hpl =>
    have hnext : Sane (e.setSender { duties := [.maybeFinish], place := .release true }) :=
      h.sender (by simp [hpl]) (fun _ => rfl) fun _ => .inl rfl
    exact { hnext with sent := fun _ => rfl }
  | release leave _ hpl =>
    have hnext : Sane { e with sending := false } := { h with claims := fun hsend => nomatch hsend }
    refine hnext.sender (by simp [hpl]) ?_ fun _ => .inr rfl
    intro hover
    have hleave : leave = true := by simpa [hpl,Sender.over] using hover
    simp [hleave,Sender.over]
  | notify t rest =>
    apply Sane.setDuties
    exact h.keep rfl rfl id (.inr rfl) (fun _ => rfl) fun _ => id
  | force t status canCommunicate rest =>
    obtain ⟨_,_,_,_,_,heq⟩ := forceAbort_same cfg e status canCommunicate
    rw [heq]
    refine Sane.setDuties ?_ _ t
    exact { h with }
  | settle t rest | finished t terminal rest => exact h.setDuties _ t
  | finish t terminal rest =>
    refine Sane.setDuties ?_ _ t
    exact { h with }
  | done t result rest =>
    obtain ⟨status,hsame⟩ := doneReturned_same e result
    rw [hsame]
    refine Sane.setDuties ?_ _ t
    exact { h with }

/-! ### On the way to the end -/

/-- The stream is finished, or somebody is about to finish it. -/
def Closing (e : Endpoint) : Prop :=
  e.finished = true ∨ (∃ terminal, Owes e (.finish terminal)) ∨
    e.ended = true ∧ Owes e .maybeFinish

/-- What has come of a duty that is not owed any more. -/
def Met (e e' : Endpoint) : Duty → Prop
  | .notify => e'.sender.place ≠ .asleep
  | .maybeFinish => e.ended = true → Owes e' (.finish none)
  | .finish _ => e'.finished = true
  | _ => True

/-- What a move does to the duties: the done callback is owed only by who finishes the stream. -/
structure Duly (e e' : Endpoint) : Prop where
  kept : ∀ d, Owes e d → Owes e' d ∨ Met e e' d
  done : Owes e' .done → Owes e .done ∨ e'.finished = true

/-- A fiber without duties has a critical section. -/
theorem Duly.of_update {t : Thread} {duties : List Duty}
    (hdut : e'.duties = Function.update e.duties t duties) (hold : e.duties t = [])
    (hdone : .done ∉ duties) : Duly e e' := by
  have howes := owes_update hdut hold
  exact ⟨fun d h => .inl ((howes d).mpr (.inl h)),fun h => .inl (((howes _).mp h).resolve_right hdone)⟩

/-- A fiber carries out a duty. -/
theorem Duly.of_performed {t : Thread} {duty : Duty} {l rest : List Duty}
    (hdut : e'.duties = Function.update e.duties t (l++rest)) (hold : e.duties t = duty::rest)
    (hmet : Met e e' duty) (hdone : .done ∈ l → e'.finished = true) : Duly e e' := by
  have howes := owes_performed hdut hold
  refine ⟨fun d h => ?_,fun h => ((howes _).2.2 h).imp_right hdone⟩
  by_cases hd : d = duty
  · exact .inr (hd ▸ hmet)
  · exact .inl ((howes d).1 h hd)

theorem duly_move (hmove : Move cfg l s r e e') : Duly e e' := by
  cases hmove with
  | aside => exact ⟨fun _ => .inl,.inl⟩
  | call i fiber hdut _ _ hdone | opened i isOpen fiber hdut _ _ hdone =>
    exact .of_update (duties_setCall ..) hdut hdone
  | claim i id o hdut | queue i message ending hdut | handOver i o failure hdut | start i hdut
  | configured i hdut | unconfigured i status hdut =>
    exact .of_update (duties_setCall ..) hdut (by simp)
  | launch i hdut => exact .of_update (by rw [duties_setCall,duties_launch]) hdut (by simp)
  | unclaim i failure hdut =>
    refine .of_update (duties_setCall ..) hdut ?_
    split_ifs <;> simp
  | closed i duty hdut _ hduty =>
    refine .of_update (duties_setCall ..) hdut ?_
    rcases hduty with ⟨terminal,rfl⟩ | ⟨rfl,-⟩ <;> simp
  | sleep hdut | leave hdut | take front rest hdut | wrote o hdut | stop status hdut
  | stopped ending hdut | wait ending next hdut | publish ending hdut =>
    exact .of_update (duties_setSender ..) hdut (by simp)
  | release leave hdut =>
    refine .of_update (duties_setSender ..) hdut ?_
    split_ifs <;> simp
  | receive fiber hdut _ hdone => exact .of_update (duties_setReceiver ..) hdut hdone
  | remoteAbort recorded hdut | remoteHalfClose trailers hdut | answer hdut
  | refuse _ status hdut => exact .of_update (duties_setReceiver ..) hdut (by simp)
  | watch fiber hdut hdone => exact .of_update (duties_setTiming ..) hdut hdone
  | notify t rest hdut =>
    refine .of_performed (l := []) (by simp) hdut ?_ (by simp)
    rw [Met]
    cases hpl : e.sender.place <;> simp [notify,woken,hpl]
  | force t status canCommunicate rest hdut =>
    refine .of_performed (duties_forced cfg e status canCommunicate rest t) hdut trivial ?_
    rcases forceAbort_cases cfg e status canCommunicate with heq | ⟨-,-,-,⟨message,-,heq⟩ | heq⟩ <;>
      simp [heq]
  | settle t rest hdut =>
    refine .of_performed (duties_setDuties ..) hdut (fun hend => ⟨t,?_⟩) (by split_ifs <;> simp)
    simp [hend]
  | finish t terminal rest hdut => exact .of_performed (duties_setDuties ..) hdut rfl fun _ => rfl
  | finished t terminal rest hdut hfin =>
    exact .of_performed (l := []) (duties_setDuties ..) hdut hfin (by simp)
  | done t result rest hdut =>
    obtain ⟨status,hsame⟩ := doneReturned_same e result
    rw [hsame]
    exact .of_performed (l := []) (duties_setDuties ..) hdut trivial (by simp)

theorem closing_move (hmove : Move cfg l s r e e')
    (hsane : Sane e) (h : Closing e) : Closing e' := by
  have hkept : (e.finished = true → e'.finished = true) ∧ (e.ended = true → e'.ended = true) := by
    cases hmove with
    | publish ending hdut hpl =>
      refine ⟨id,fun hend => ?_⟩
      -- nothing was published before
      have hunsent : e.localEndSent = .none := by
        by_contra hsent
        have hover := hsane.sent hsent
        rw [hpl] at hover
        cases hover
      have hrem : e.remoteAborted = true := by simpa [ended,hunsent] using hend
      simp [ended,setSender,hrem]
    | remoteAbort => exact ⟨id,fun _ => by simp [ended,setReceiver]⟩
    | remoteHalfClose =>
      refine ⟨id,fun hend => ?_⟩
      simp only [ended,setReceiver,Bool.and_true,Bool.or_eq_true,Bool.and_eq_true]
        at hend ⊢
      exact hend.imp_right And.left
    | force t status canCommunicate rest =>
      obtain ⟨hend,hfin,-⟩ := forceAbort_ended cfg e status canCommunicate
      exact ⟨hfin.trans,hend.trans⟩
    | finish => exact ⟨fun _ => rfl,id⟩
    | done t result rest =>
      obtain ⟨status,hsame⟩ := doneReturned_same e result
      rw [hsame]
      exact ⟨id,id⟩
    | _ => exact ⟨id,id⟩
  have hduly := duly_move hmove
  rcases h with hfin | ⟨terminal,howes⟩ | ⟨hend,howes⟩
  · exact .inl (hkept.1 hfin)
  · exact (hduly.kept _ howes).elim (fun h => .inr (.inl ⟨terminal,h⟩)) .inl
  · exact (hduly.kept _ howes).elim (fun h => .inr (.inr ⟨hkept.2 hend,h⟩))
      fun h => .inr (.inl ⟨none,h hend⟩)

/-! ### What holds in every run -/

/-- The peer's abort and the end of the channel finish the stream. -/
def Ends (e : Endpoint) : Prop := e.remoteAborted = true ∨ e.channelClosed = true → Closing e

theorem ends_move (hmove : Move cfg l s r e e') (hsane : Sane e) (h : Ends e) : Ends e' := by
  have hkeep : (e'.remoteAborted = true ∨ e'.channelClosed = true →
      e.remoteAborted = true ∨ e.channelClosed = true) → Ends e' :=
    fun hback hflag => closing_move hmove hsane (h (hback hflag))
  cases hmove with
  | remoteAbort recorded hdut =>
    refine fun _ => .inr (.inl ⟨none,(owes_update (duties_setReceiver ..) hdut _).mpr (.inr ?_)⟩)
    simp
  | closed i duty hdut _ hduty =>
    intro _
    have howes : ∀ d ∈ [duty,Duty.notify], Owes (setCall { e with channelClosed := true } i
        { duties := [duty,.notify], place := .idle }) d :=
      fun d hd => (owes_update (duties_setCall ..) hdut d).mpr (.inr hd)
    rcases hduty with ⟨terminal,rfl⟩ | ⟨rfl,hfin | hend⟩
    · exact .inr (.inl ⟨terminal,howes _ (by simp)⟩)
    · exact .inl hfin
    · exact .inr (.inr ⟨hend,howes _ (by simp)⟩)
  | force t status canCommunicate rest hdut =>
    apply hkeep
    obtain ⟨_,_,_,_,_,heq⟩ := forceAbort_same cfg e status canCommunicate
    rw [heq]
    exact id
  | done t result rest =>
    apply hkeep
    obtain ⟨status,hsame⟩ := doneReturned_same e result
    rw [hsame]
    exact id
  | _ => exact hkeep id

/-- A started stream without a sender fiber is being started or is about to finish. -/
def Comes (e : Endpoint) : Prop := e.started = true → e.sender.place = .absent →
  Closing e ∨ ∃ i, (e.calls i).place.starting = true

theorem comes_move (hmove : Move cfg l s r e e') (hsane : Sane e) (h : Comes e) : Comes e' := by
  have hkeep : e'.started = e.started → (e'.sender.place = .absent → e.sender.place = .absent) →
      (∀ i, (e.calls i).place.starting = true → (e'.calls i).place.starting = true) → Comes e' := by
    intro hstart hsnd hcalls hs habs
    refine (h (hstart.symm.trans hs) (hsnd habs)).imp (closing_move hmove hsane) ?_
    rintro ⟨i,hi⟩
    exact ⟨i,hcalls i hi⟩
  have hplain : ∀ (f : Endpoint) (i : ℕ) (fiber : Fiber Call), f.calls = e.calls →
      (e.calls i).place.starting = false → ∀ j, (e.calls j).place.starting = true →
      ((f.setCall i fiber).calls j).place.starting = true := by
    intro f i fiber hcalls hold j hj
    rw [setCall_calls,hcalls]
    split_ifs with heq
    · rw [heq,hold] at hj
      cases hj
    · exact hj
  have hpres : e'.sender.place ≠ .absent → Comes e' := fun hne _ habs => absurd habs hne
  cases hmove with
  | aside | receive | remoteAbort | remoteHalfClose | answer | refuse | watch =>
    exact hkeep rfl id fun _ => id
  | call i _ _ hold | claim i _ _ _ hold | queue i _ _ _ hold | opened i _ _ _ hold
  | closed i _ _ hold =>
    exact hkeep rfl id (hplain _ i _ rfl (Call.not_starting_of_plain hold))
  | handOver i o failure _ hpl | unclaim i failure _ hpl =>
    exact hkeep rfl id (hplain _ i _ rfl (by rw [hpl]; rfl))
  | start i | configured i => exact fun _ _ => .inr ⟨i,by simp [setCall_calls,Call.starting]⟩
  | unconfigured i status hdut =>
    intro _ _
    refine .inl (.inr (.inl ⟨some status,(owes_update (duties_setCall ..) hdut _).mpr (.inr ?_)⟩))
    simp
  | launch i | sleep | leave | take | stop | stopped | publish =>
    exact hpres fun habs => by cases habs
  | wrote o | release leave =>
    apply hpres
    simp only [setSender]
    split_ifs <;> simp
  | wait ending next _ _ hnext =>
    apply hpres
    rcases hnext with rfl | rfl | rfl | rfl <;> exact fun habs => by cases habs
  | notify t rest =>
    refine hkeep rfl ?_ (by simp [notify])
    cases hsnd : e.sender.place <;> simp_all [notify,woken]
  | force t status canCommunicate rest =>
    obtain ⟨_,_,_,_,_,heq⟩ := forceAbort_same cfg e status canCommunicate
    rw [heq] at hkeep ⊢
    exact hkeep rfl (by simp) (by simp)
  | settle t rest | finished t terminal rest => exact hkeep rfl (by simp) (by simp)
  | finish t terminal rest => exact fun _ _ => .inl (.inl rfl)
  | done t result rest =>
    obtain ⟨status,hsame⟩ := doneReturned_same e result
    rw [hsame] at hkeep ⊢
    exact hkeep rfl (by simp) (by simp)

/-- No wake-up of the sender fiber is lost. -/
def Wakes (e : Endpoint) : Prop := e.sender.place = .asleep → e.started = true → e.isOpen = true →
  e.outgoing ≠ [] → e.sending = false → Owes e .notify

theorem wakes_move (hmove : Move cfg l s r e e') (hsane : Sane e) (h : Wakes e) : Wakes e' := by
  have hawake : e'.sender.place ≠ .asleep → Wakes e' := fun hne hslp => absurd hslp hne
  have hnext : Owes e' .notify → Wakes e' := fun howes _ _ _ _ _ => howes
  have hkeep : e'.sender.place = e.sender.place → e'.started = e.started → e'.isOpen = e.isOpen →
      e'.outgoing = e.outgoing → e'.sending = e.sending → Wakes e' := by
    intro hpl hstart hopen hque hsend
    by_cases hslp : e'.sender.place = .asleep
    · unfold Wakes
      rw [hpl,hstart,hopen,hque,hsend]
      exact fun ha hs ho hq hn => ((duly_move hmove).kept _ (h ha hs ho hq hn)).resolve_right (absurd hslp)
    · exact hawake hslp
  cases hmove with
  | claim => exact fun _ _ _ _ hsend => by cases hsend
  | queue i message ending hdut =>
    exact hnext ((owes_update (duties_setCall ..) hdut _).mpr (.inr (by simp)))
  | unclaim i failure hdut =>
    intro _ _ _ hque _
    refine (owes_update (duties_setCall ..) hdut _).mpr (.inr ?_)
    rw [if_neg (show ¬e.outgoing = [] from hque)]
    simp
  | start i _ _ hstart =>
    apply hawake
    show e.sender.place ≠ .asleep
    rw [(hsane.unstarted hstart).1]
    simp
  | launch | leave | take | stop | stopped | publish => exact hawake fun hslp => by cases hslp
  | opened i isOpen fiber hdut _ _ _ hnotify =>
    rcases hnotify with hsame | ⟨-,hmem⟩
    · exact hkeep rfl rfl hsame rfl rfl
    · exact hnext ((owes_update (duties_setCall ..) hdut _).mpr (.inr hmem))
  | sleep _ _ hwork => exact fun _ hstart hopen hque hsend => absurd ⟨hstart,hopen,hque,hsend⟩ hwork
  | wrote o | release leave =>
    apply hawake
    simp only [setSender]
    split_ifs <;> simp
  | wait ending next _ _ hnext' =>
    apply hawake
    rcases hnext' with rfl | rfl | rfl | rfl <;> exact fun hslp => by cases hslp
  | notify t rest =>
    apply hawake
    cases hpl : e.sender.place <;> simp [notify,woken,hpl]
  | force t status canCommunicate rest hdut =>
    have howes := owes_performed (duties_forced cfg e status canCommunicate rest t) hdut
    rcases forceAbort_cases cfg e status canCommunicate with heq | ⟨-,-,-,⟨message,-,heq⟩ | heq⟩
    · refine hkeep ?_ ?_ ?_ ?_ ?_ <;> rw [heq] <;> first | exact setDuties_sender .. | rfl
    · exact hnext ((howes _).2.1 (by rw [heq]; simp))
    · exact hnext ((howes _).2.1 (by rw [heq]; simp))
  | settle | finished => exact hkeep (setDuties_sender ..) rfl rfl rfl rfl
  | finish t terminal rest hdut =>
    exact hnext ((owes_performed (e := e) (duties_setDuties ..) hdut _).2.1 (by simp))
  | done t result rest =>
    obtain ⟨status,hsame⟩ := doneReturned_same e result
    rw [hsame] at hkeep ⊢
    exact hkeep (setDuties_sender ..) rfl rfl rfl rfl
  | _ => exact hkeep rfl rfl rfl rfl rfl

/-- The done callback is called once, and a recorded failure has a cause. -/
structure Counted (e : Endpoint) : Prop where
  counted : e.doneRuns = if e.doneCalled then 1 else 0
  done : Owes e .done → e.finished = true
  failed : e.status.isOk = false → e.localEnd = .abort ∨ e.remoteAborted = true ∨ e.finished = true

theorem counted_move (hmove : Move cfg l s r e e') (h : Counted e) : Counted e' := by
  have hkeep : e'.doneRuns = e.doneRuns → e'.doneCalled = e.doneCalled → e'.finished = e.finished →
      (e'.status.isOk = false → e'.localEnd = .abort ∨ e'.remoteAborted = true ∨
        e'.finished = true) → Counted e' := by
    intro hruns hcal hfin hfail
    refine ⟨by rw [hruns,hcal]; exact h.counted,fun hd => ?_,hfail⟩
    exact ((duly_move hmove).done hd).elim (fun hd => hfin.trans (h.done hd)) id
  cases hmove with
  | claim i id' o hdut _ hend =>
    refine hkeep rfl rfl rfl fun hfail => ?_
    have hstat : e.status.isOk = false := by
      simpa [noteSend,setCall] using hfail
    refine (h.failed hstat).imp_left fun habt => ?_
    rw [hend] at habt
    cases habt
  | queue i message ending hdut _ hend =>
    refine hkeep rfl rfl rfl fun hfail => ?_
    by_cases habt : ending = .abort
    · exact .inl habt
    have hstat : e.status.isOk = false := by
      simpa [noteSend,queue,setCall,habt] using hfail
    refine .inr ((h.failed hstat).resolve_left ?_)
    rw [hend]
    simp
  | remoteAbort => exact hkeep rfl rfl rfl fun _ => .inr (.inl rfl)
  | force t status canCommunicate rest =>
    rcases forceAbort_cases cfg e status canCommunicate with heq | ⟨-,-,-,⟨message,-,heq⟩ | heq⟩ <;>
      rw [heq] at hkeep ⊢
    · exact hkeep rfl rfl rfl h.failed
    · exact hkeep rfl rfl rfl fun _ => .inl rfl
    · exact hkeep rfl rfl rfl fun _ => .inl rfl
  | finish t terminal rest hdut =>
    refine ⟨?_,fun _ => rfl,fun _ => .inr (.inr rfl)⟩
    simp only [setDuties,finish,h.counted]
    rcases Bool.eq_false_or_eq_true e.doneCalled with hcal | hcal <;>
      rcases Bool.eq_false_or_eq_true e.started with hstart | hstart <;>
      simp [hcal,hstart]
  | done t result rest hdut =>
    have hfin := h.done ⟨t,by rw [hdut]; simp⟩
    obtain ⟨status,hsame⟩ := doneReturned_same e result
    rw [hsame] at hkeep ⊢
    exact hkeep rfl rfl rfl fun _ => .inr (.inr hfin)
  | _ => exact hkeep rfl rfl rfl h.failed

end A11.ChannelStream
