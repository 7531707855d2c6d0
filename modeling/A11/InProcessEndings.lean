import A11.InProcessMoves

/-! What becomes of an in-process stream that has failed: invariants kept by every move, and
the state in which nothing is left to do. -/
namespace A11.InProcess

open WireStream List Endpoint Sender

/-! ### What holds in every run -/

/-- The done callback is called once, on finishing; a failed endpoint has ended its direction,
heard of its peer's abort or is finished; no wake-up is lost. -/
structure Counted (e : Endpoint) : Prop where
  dormant : e.started = false → e.sender = .absent ∧ e.receiver = .absent
  present : e.started = true → e.sender ≠ .absent
  counted : e.doneRuns = if e.doneCalled then 1 else 0
  called : e.transportFinished = true → e.doneCalled = true
  done : e.sender = .done ∨ e.receiver = .done → e.transportFinished = true
  failed : e.status.isOk = false → e.localEnd = .abort ∨ e.remoteAborted = true ∨
    e.transportFinished = true
  remote : e.remoteAborted = true → e.transportFinished = true ∨ e.receiver = .finish
  wakes : e.sender = .asleep → e.outbound = [] ∨ e.sending = true
  valid : ∀ o ∈ e.outbound, o.ending = .abort → o.message.validate = .ok ()

section

variable (estimate : ChunkObject → ℕ)

theorem mem_foldQueued (approximate : ℕ) (message : WireMessage)
    (rest : List Outbound) : ∀ o ∈ (foldQueued estimate approximate message rest).2, o ∈ rest := by
  induction rest generalizing approximate message with
  | nil => exact fun o ho => ho
  | cons next rest ih =>
    rw [foldQueued]
    dsimp only
    split
    · exact fun o ho => ho
    · split
      · exact fun o ho => ho
      · exact fun o ho => mem_cons_of_mem _ (ih _ _ o ho)

/-- Only data is folded in. -/
theorem foldQueued_leaves (approximate : ℕ) (message : WireMessage)
    (rest : List Outbound) {o : Outbound} (ho : o ∈ rest) (hend : o.ending ≠ .none) :
    o ∈ (foldQueued estimate approximate message rest).2 := by
  induction rest generalizing approximate message with
  | nil => cases ho
  | cons next rest ih =>
    rw [foldQueued]
    dsimp only
    split
    · exact ho
    next hfold =>
    split
    · exact ho
    · rcases mem_cons.mp ho with rfl | ho
      · exact absurd (.inl hend) hfold
      · exact ih _ _ ho

variable (front : Outbound) (rest : List Outbound)

theorem takeOutbound_ending :
    (takeOutbound estimate front rest).1.ending = front.ending := by
  unfold takeOutbound
  dsimp only
  split <;> rfl

theorem mem_takeOutbound :
    ∀ o ∈ (takeOutbound estimate front rest).2, o ∈ rest := by
  unfold takeOutbound
  dsimp only
  split
  · exact mem_foldQueued estimate _ _ rest
  · exact fun o ho => ho

theorem takeOutbound_leaves {rest : List Outbound}
    {o : Outbound} (ho : o ∈ rest) (hend : o.ending ≠ .none) :
    o ∈ (takeOutbound estimate front rest).2 := by
  unfold takeOutbound
  dsimp only
  split
  · exact foldQueued_leaves estimate _ _ rest ho hend
  · exact ho

theorem takeOutbound_terminal {front : Outbound} (h : front.ending ≠ .none) :
    takeOutbound estimate front rest = (front,rest) := by
  exact if_neg fun hfold => h hfold.1

end

theorem Sender.woken_ne_asleep (s : Sender) : s.woken ≠ .asleep := by cases s <;> simp [woken]

variable {s : Sender}

theorem Sender.woken_absent (h : s = .absent) : s.woken = .absent := by rw [h]; rfl

theorem Sender.woken_ne_absent (h : s ≠ .absent) : s.woken ≠ .absent := by
  cases s <;> simp_all [woken]

theorem Sender.of_woken_done (h : s.woken = .done) : s = .done := by
  cases s <;> simp_all [woken]

variable {r : Receiver}

theorem Receiver.woken_absent (h : r = .absent) : r.woken = .absent := by rw [h]; rfl

theorem Receiver.of_woken_done (h : r.woken = .done) : r = .done := by
  cases r <;> simp_all [woken]

variable {e : Endpoint}

theorem Counted.sender (h : Counted e) (hpres : e.sender ≠ .absent)
    (hs : s ≠ .absent) (hdone : s = .done → e.transportFinished = true)
    (hwake : s = .asleep → e.outbound = [] ∨ e.sending = true) : Counted (e.setSender s) := { h with
  dormant := fun hstart => absurd (h.dormant hstart).1 hpres
  present := fun _ => hs
  done := fun hfib => hfib.elim hdone fun hrcv => h.done (.inr hrcv)
  wakes := hwake }

theorem Counted.receiver (h : Counted e)
    (hpres : e.receiver ≠ .absent) (hdone : r = .done → e.transportFinished = true)
    (hleft : e.receiver = .finish → e.transportFinished = true) : Counted (e.setReceiver r) := { h with
  dormant := fun hstart => absurd (h.dormant hstart).2 hpres
  done := fun hfib => hfib.elim (fun hsnd => h.done (.inl hsnd)) hdone
  remote := fun hrem => .inl ((h.remote hrem).elim id hleft) }

theorem Counted.doneReturned (h : Counted e) (result : Status)
    (hfinished : e.transportFinished = true) : Counted (e.doneReturned result) := by
  unfold Endpoint.doneReturned
  split
  · exact { h with failed := fun _ => .inr (.inr hfinished) }
  · exact h

theorem Counted.woken (h : Counted e) : Counted (e.setSender e.sender.woken) := { h with
  dormant := fun hstart => ⟨woken_absent (h.dormant hstart).1,(h.dormant hstart).2⟩
  present := fun hstart => woken_ne_absent (h.present hstart)
  done := fun hfib => h.done (hfib.imp_left of_woken_done)
  wakes := fun hslp => absurd hslp (woken_ne_asleep _) }

theorem Counted.forceAbort (cfg : Config) (h : Counted e) (status : Status) :
    Counted (e.forceAbort cfg status) := by
  rcases forceAbort_cases cfg e status with heq | ⟨_,encoded,-,-,-,-,heq⟩
  · rw [heq]
    exact h
  rw [heq]
  have hwoken := h.woken
  refine { hwoken with failed := fun _ => .inl rfl, wakes := ?_, valid := ?_ }
  · exact fun hslp => absurd hslp (woken_ne_asleep _)
  · intro o ho hend
    split at ho
    · cases mem_singleton.mp ho
      exact validate_abortMessage encoded
    · exact h.valid o ho hend

theorem Counted.finished (h : Counted e) (hstart : e.started = true) : Counted e.finished where
  dormant := fun hdorm => absurd (hstart.symm.trans hdorm) (by simp)
  present := fun _ => woken_ne_absent (h.present hstart)
  counted := by
    have hcnt := h.counted
    simp only [Endpoint.finished,hstart]
    cases hcal : e.doneCalled <;> simp_all
  called := fun _ => by simp [Endpoint.finished,hstart]
  done := fun _ => rfl
  failed := fun _ => .inr (.inr rfl)
  remote := fun _ => .inl rfl
  wakes := fun hslp => absurd hslp (woken_ne_asleep _)
  valid := fun o ho => absurd ho (not_mem_nil (a := o))

variable {cfg : Config} {e' : Endpoint}

theorem counted_move {d r : Prop} (hmove : Move cfg d r e e') (h : Counted e) : Counted e' := by
  have hstart : e.sender ≠ .absent ∨ e.receiver ≠ .absent → e.started = true := by
    intro hfib
    by_contra hstart
    obtain ⟨hsnd,hrcv⟩ := h.dormant (by simpa using hstart)
    exact hfib.elim (absurd hsnd) (absurd hrcv)
  cases hmove with
  | aside => exact { h with }
  | accept payload =>
    refine { h with dormant := ?_, done := ?_, remote := ?_ }
    · exact fun hdorm => ⟨(h.dormant hdorm).1,Receiver.woken_absent (h.dormant hdorm).2⟩
    · exact fun hfib => h.done (hfib.imp_right Receiver.of_woken_done)
    · intro hrem
      refine (h.remote hrem).imp_right fun hrcv => ?_
      show e.receiver.woken = .finish
      rw [hrcv]
      rfl
  | launch hdorm hsnd hrcv =>
    refine ⟨(fun hstart => nomatch hstart),fun _ => by simp [launch],h.counted,h.called,?_,h.failed,?_,?_,
      h.valid⟩
    · rintro (hs | hr)
      · cases hs
      · cases hr
    · exact fun hrem => .inl ((h.remote hrem).elim id fun hr => by rw [hrcv] at hr; cases hr)
    · exact fun hslp => by cases hslp
  | claim message hend =>
    refine { h with failed := ?_, wakes := fun _ => .inr rfl }
    intro hfail
    have hstat : e.status.isOk = false := by simpa [noteSend] using hfail
    exact (h.failed hstat).imp_left fun habt => by rw [hend] at habt; cases habt
  | queue o status requested admitted hend hopen hval hstat =>
    have hwoken := h.woken
    refine { hwoken with failed := ?_, wakes := ?_, valid := ?_ }
    · intro hfail
      by_cases habt : o.ending = .abort
      · exact .inl habt
      have hsame : status = e.status := hstat habt
      refine .inr ((h.failed (hsame ▸ hfail)).resolve_left ?_)
      rw [hend]
      simp
    · exact fun hslp => absurd hslp (woken_ne_asleep _)
    · intro o' ho' hend'
      rcases mem_append.mp ho' with hold | hnew
      · exact h.valid o' hold hend'
      · cases mem_singleton.mp hnew
        exact hval hend'
  | unclaim message delivered =>
    have hwoken := releaseClaim_sender e message delivered
    have hnext : Counted (e.setSender (releaseClaim e message delivered).sender) := by
      rcases hwoken with ⟨hs,-⟩ | hs <;> rw [hs]
      · exact { h with }
      · exact h.woken
    refine { hnext with wakes := ?_, valid := ?_ }
    · intro hslp
      rcases hwoken with ⟨-,hnil⟩ | hs
      · exact .inl hnil
      · exact absurd (hs.symm.trans hslp) (woken_ne_asleep _)
    · intro o ho hend
      cases delivered with
      | true => exact h.valid o ho hend
      | false =>
        rcases mem_cons.mp ho with rfl | ho
        · cases hend
        · exact h.valid o ho hend
  | force status => exact h.forceAbort cfg status
  | sleep hsnd hque => exact h.sender (by simp [hsnd]) (by simp) (by simp) fun _ => hque
  | leave hsnd | wait o payload hsnd | unblock o payload hsnd
  | lose _ o payload status hsnd | forced status leave hsnd =>
    exact h.sender (by simp [hsnd]) (by simp) (by simp) (by simp)
  | drop front rest hque =>
    refine { h with wakes := ?_, valid := ?_ }
    · exact fun hslp => (h.wakes hslp).imp_left fun hnil => by rw [hque] at hnil; cases hnil
    · exact fun o ho => h.valid o (by rw [hque]; exact mem_cons_of_mem _ ho)
  | take front rest hsnd hque =>
    refine ⟨?_,?_,h.counted,h.called,?_,h.failed,h.remote,fun _ => .inr rfl,?_⟩
    · exact fun hdorm => absurd (h.dormant hdorm).1 (by simp [hsnd])
    · split <;> simp
    · intro hfib
      refine h.done (hfib.imp_left fun hs => ?_)
      split at hs <;> cases hs
    · intro o ho
      exact h.valid o (by rw [hque]; exact mem_cons_of_mem _ (mem_takeOutbound _ _ _ o ho))
  | pass o payload hsnd | settleSender hsnd => apply h.sender (by simp [hsnd]) <;> split <;> simp
  | publish ending hsnd =>
    have hnext : Counted (e.setSender .maybeFinish) := h.sender (by simp [hsnd]) (by simp) (by simp) (by simp)
    exact { hnext with }
  | finish hopen hfib =>
    apply h.finished
    exact hstart (hfib.imp (fun hs => by simp [hs]) fun hr => by simp [hr])
  | finishSender s hsnd hfinished hnext =>
    refine h.sender (by simp [hsnd]) ?_ (fun _ => hfinished) ?_ <;>
      rcases hnext with rfl | rfl <;> simp
  | doneSender result hsnd =>
    have hdone := h.doneReturned result (h.done (.inl hsnd))
    refine hdone.sender ?_ (by simp) (by simp) (by simp)
    unfold doneReturned
    split <;> simp [hsnd]
  | release leave hsnd =>
    have hnext : Counted (e.setSender (if leave then .returned else .idle)) := by
      apply h.sender (by simp [hsnd]) <;> split <;> simp
    refine { hnext with wakes := fun hslp => ?_ }
    split at hslp <;> cases hslp
  | receive r incoming incomingBytes handed hrcv hr =>
    have hnext : Counted (e.setReceiver r) := by
      apply h.receiver _ (fun hdone => absurd hdone hr)
      · intro hfin
        rw [hfin] at hrcv
        cases hrcv
      · intro habs
        rw [habs] at hrcv
        cases hrcv
    exact { hnext with }
  | remoteAbort recorded hrcv =>
    have hnext : Counted (e.setReceiver .finish) :=
      h.receiver (by simp [hrcv]) (by simp) (by simp [hrcv])
    exact { hnext with failed := fun _ => .inr (.inl rfl), remote := fun _ => .inr rfl }
  | remoteHalfClose trailers hrcv =>
    have hnext : Counted (e.setReceiver .callingEnd) :=
      h.receiver (by simp [hrcv]) (by simp) (by simp [hrcv])
    exact { hnext with }
  | answer hrcv | refuse _ result hrcv =>
    exact h.receiver (by simp [hrcv]) (by simp) (by simp [hrcv])
  | settleReceiver hrcv =>
    apply h.receiver (by simp [hrcv])
    · split <;> simp
    · simp [hrcv]
  | finishReceiver r hrcv hfinished hnext =>
    exact h.receiver (by simp [hrcv]) (fun _ => hfinished) fun _ => hfinished
  | doneReceiver result hrcv =>
    have hfinished := h.done (.inr hrcv)
    have hdone := h.doneReturned result hfinished
    refine hdone.receiver ?_ (by simp) fun _ => ?_ <;> unfold doneReturned <;> split <;>
      simp [hrcv,hfinished]

/-! ### Both half-closes -/

def Sender.closing : Sender → Bool
  | .maybeFinish => true
  | .finish => true
  | _ => false

def Receiver.closing : Receiver → Bool
  | .callingEnd => true
  | .maybeFinish => true
  | .finish => true
  | _ => false

/-- Once both half-closes have been exchanged, one of the fibers finishes the stream. -/
def Meets (e : Endpoint) : Prop :=
  e.localEndSent = .halfClose → e.remoteHalfClosed = true →
    e.transportFinished = true ∨ e.sender.closing = true ∨ e.receiver.closing = true

theorem Meets.keep (h : Meets e) (hsent : e'.localEndSent = e.localEndSent)
    (hrem : e'.remoteHalfClosed = e.remoteHalfClosed)
    (hfinished : e'.transportFinished = e.transportFinished)
    (hsnd : e.sender.closing = true → e'.sender.closing = true ∨ e'.transportFinished = true)
    (hrcv : e.receiver.closing = true → e'.receiver.closing = true ∨
      e'.transportFinished = true) : Meets e' := by
  intro hhalf hcls
  rw [hsent] at hhalf
  rw [hrem] at hcls
  rcases h hhalf hcls with hdone | hs | hr
  · exact .inl (hfinished.trans hdone)
  · exact (hsnd hs).elim (fun hs => .inr (.inl hs)) .inl
  · exact (hrcv hr).elim (fun hr => .inr (.inr hr)) .inl

@[simp] theorem Sender.closing_woken (s : Sender) : s.woken.closing = s.closing := by
  cases s <;> rfl

@[simp] theorem Receiver.closing_woken (r : Receiver) : r.woken.closing = r.closing := by
  cases r <;> rfl

theorem Receiver.closing_of_early (h : r.early = true) : r.closing = false := by
  cases r <;> simp_all [early,closing]

theorem meets_move {d : Prop} (hmove : Move cfg d False e e') (h : Meets e) : Meets e' := by
  have hsnd : ∀ s : Sender, e.sender.closing = false → Meets (e.setSender s) := by
    intro s hclo
    exact h.keep rfl rfl rfl (fun hs => by rw [hclo] at hs; cases hs) .inl
  have hrcv : ∀ r : Receiver, e.receiver.closing = false → Meets (e.setReceiver r) := by
    intro r hclo
    exact h.keep rfl rfl rfl .inl (fun hr => by rw [hclo] at hr; cases hr)
  have hended (hsent : e.localEndSent = .halfClose) (hrem : e.remoteHalfClosed = true) :
      e.ended = true := by simp [ended,hsent,hrem]
  cases hmove with
  | aside => exact h
  | accept payload => exact h.keep rfl rfl rfl .inl fun hr => .inl (by simpa [accept] using hr)
  | launch _ hs hr =>
    refine h.keep rfl rfl rfl ?_ ?_
    · rw [hs]
      exact fun hclo => by cases hclo
    · rw [hr]
      exact fun hclo => by cases hclo
  | claim message hend => exact h
  | queue o status requested admitted =>
    exact h.keep rfl rfl rfl (fun hs => .inl (by simpa [enqueue] using hs)) .inl
  | unclaim message delivered =>
    refine h.keep rfl rfl rfl (fun hs => .inl ?_) .inl
    rcases releaseClaim_sender e message delivered with ⟨heq,-⟩ | heq <;> rw [heq]
    · exact hs
    · simpa using hs
  | force status =>
    rcases forceAbort_cases cfg e status with heq | ⟨recorded,_,-,-,-,-,heq⟩ <;> rw [heq]
    · exact h
    · exact h.keep rfl rfl rfl (fun hs => .inl (by simpa using hs)) .inl
  | sleep hs | leave hs | wait o payload hs | unblock o payload hs | pass o payload hs
  | lose _ o payload status hs | forced status leave hs => exact hsnd _ (by rw [hs]; rfl)
  | drop => exact h
  | take front rest hs | release leave hs =>
    exact h.keep rfl rfl rfl (fun hclo => by rw [hs] at hclo; cases hclo) .inl
  | publish ending hs => exact fun _ _ => .inr (.inl rfl)
  | settleSender hs =>
    intro hhalf hcls
    rw [if_pos (hended hhalf hcls)]
    exact .inr (.inl rfl)
  | finish => exact fun _ _ => .inl rfl
  | finishSender s hs hfinished | finishReceiver r hr hfinished => exact fun _ _ => .inl hfinished
  | doneSender result hs =>
    unfold doneReturned
    split <;> exact hsnd _ (by rw [hs]; rfl)
  | receive r incoming incomingBytes handed hr =>
    refine h.keep rfl rfl rfl .inl fun hclo => ?_
    rw [Receiver.closing_of_early hr] at hclo
    cases hclo
  | remoteAbort recorded hr | answer hr => exact h.keep rfl rfl rfl .inl fun _ => .inl rfl
  | remoteHalfClose trailers hr => exact fun _ _ => .inr (.inr rfl)
  | refuse hrefused => exact hrefused.elim
  | settleReceiver hr =>
    intro hhalf hcls
    rw [if_pos (hended hhalf hcls)]
    exact .inr (.inr rfl)
  | doneReceiver result hr =>
    unfold doneReturned
    split <;> exact hrcv _ (by rw [hr]; rfl)

/-! ### A failure that is recorded in time -/

/-- The abort message is queued behind a sender fiber that will look at it, or is on its way. -/
structure Tidy (e : Endpoint) : Prop where
  halfClose : e.Took .halfClose → e.localEnd = .halfClose
  abort : e.Took .abort → e.localEnd = .abort
  terminal : e.sender ≠ .sent .none
  queued : ∀ o ∈ e.outbound, o.ending ≠ .none → o.ending = e.localEnd
  live : e.sender.live = true ∨ e.transportFinished = true ∨ e.Took .halfClose ∨ e.Took .abort
  pending : e.localEnd = .abort → e.transportFinished = true ∨ e.remoteAborted = true ∨
    (∃ o ∈ e.outbound, o.ending = .abort) ∨ e.Took .abort
  sent : e.localEndSent = .abort → e.transportFinished = true ∨ e.sender.closing = true

@[simp] theorem Sender.live_woken (s : Sender) : s.woken.live = s.live := by cases s <;> rfl

@[simp] theorem Sender.carries_woken (s : Sender) : s.woken.carries = s.carries := by
  cases s <;> rfl

theorem Sender.closing_of_live (h : s.live = true) : s.closing = false := by
  cases s <;> simp_all [live,closing]

theorem Sender.carries_of_live (h : s.live = true) : s.carries = .none := by
  cases s <;> simp_all [live,carries]

theorem Sender.woken_ne_sent {ending : End} (h : s ≠ .sent ending) : s.woken ≠ .sent ending := by
  cases s <;> simp_all [woken]

/-- Two points of the sender fiber between which nothing happens that matters here. -/
structure Sender.Resembles (s s' : Sender) : Prop where
  live : s'.live = s.live
  carries : s'.carries = s.carries
  closing : s'.closing = s.closing
  terminal : s' ≠ .sent .none

theorem Sender.resembles_woken (h : s ≠ .sent .none) : s.Resembles s.woken :=
  ⟨live_woken s,carries_woken s,closing_woken s,woken_ne_sent h⟩

theorem Sender.resembles_of_live {s' : Sender} (h : s.live = true) (h' : s'.live = true) :
    s.Resembles s' := by
  refine ⟨h'.trans h.symm,?_,?_,?_⟩
  · rw [carries_of_live h,carries_of_live h']
  · rw [closing_of_live h,closing_of_live h']
  · intro heq
    rw [heq] at h'
    cases h'

section

variable (h : Tidy e) (hend : e'.localEnd = e.localEnd) (hsent : e'.localEndSent = e.localEndSent)
  (hfinished : e'.transportFinished = e.transportFinished)

include h hend hsent hfinished

theorem Tidy.carry
    (hrem : e.remoteAborted = true → e'.remoteAborted = true) (hque : e'.outbound = e.outbound)
    (hlive : e'.sender.live = e.sender.live) (hcar : e'.sender.carries = e.sender.carries)
    (hclo : e.localEndSent = .abort → e.sender.closing = true → e'.sender.closing = true)
    (hterm : e'.sender ≠ .sent .none) : Tidy e' := by
  have htook : ∀ ending, e'.Took ending ↔ e.Took ending := by
    simp [Took,hsent,hcar]
  refine ⟨?_,?_,hterm,?_,?_,?_,?_⟩
  · simpa only [htook,hend] using h.halfClose
  · simpa only [htook,hend] using h.abort
  · simpa only [hque,hend] using h.queued
  · simpa only [hlive,hfinished,htook] using h.live
  · rw [hend,hfinished,hque,htook]
    exact fun habt => (h.pending habt).imp_right fun hp => hp.imp_left hrem
  · rw [hsent,hfinished]
    exact fun habt => (h.sent habt).imp_right (hclo habt)

theorem Tidy.keep (hrem : e.remoteAborted = true → e'.remoteAborted = true)
    (hque : e'.outbound = e.outbound) (hsnd : e.sender.Resembles e'.sender) : Tidy e' :=
  h.carry hend hsent hfinished hrem hque hsnd.live hsnd.carries
    (fun _ => hsnd.closing.trans) hsnd.terminal

/-- Nothing that matters here has happened outside the receiver. -/
theorem Tidy.same
    (hrem : e.remoteAborted = true → e'.remoteAborted = true) (hque : e'.outbound = e.outbound)
    (hsnd : e'.sender = e.sender) : Tidy e' := h.keep hend hsent hfinished hrem hque
    ⟨by rw [hsnd],by rw [hsnd],by rw [hsnd],by rw [hsnd]; exact h.terminal⟩

end

theorem Tidy.sender (h : Tidy e) (hs : e.sender.Resembles s) :
    Tidy (e.setSender s) := h.keep rfl rfl rfl id rfl hs

/-- The queue has changed, and an abort message in it has not been lost. -/
theorem Tidy.requeue (h : Tidy e) {outbound : List Outbound} (sending : Bool)
    (hsub : ∀ o ∈ outbound, o.ending ≠ .none → o ∈ e.outbound)
    (hleft : ∀ o ∈ e.outbound, o.ending = .abort → o ∈ outbound) :
    Tidy { e with outbound, sending } := { h with
  queued := fun o ho hne => h.queued o (hsub o ho hne) hne
  pending := fun habt => (h.pending habt).imp_right fun hp => hp.imp_right fun hp =>
    hp.imp_left fun ⟨o,ho,hend⟩ => ⟨o,hleft o ho hend,hend⟩ }

/-- Once the stream is finished the sender fiber only has to return. -/
theorem Tidy.of_finished (h : Tidy e) (hend : e'.localEnd = e.localEnd)
    (hque : ∀ o ∈ e'.outbound, o ∈ e.outbound) (hfinished : e'.transportFinished = true)
    (htook : ∀ ending, ending ≠ .none → e'.Took ending → e.Took ending)
    (hterm : e'.sender ≠ .sent .none) : Tidy e' :=
  ⟨fun ht => hend ▸ h.halfClose (htook _ (by simp) ht),
    fun ht => hend ▸ h.abort (htook _ (by simp) ht),hterm,
    fun o ho => hend ▸ h.queued o (hque o ho),.inr (.inl hfinished),fun _ => .inl hfinished,
    fun _ => .inl hfinished⟩

theorem Tidy.after (h : Tidy e) (hfinished : e.transportFinished = true)
    (hcar : s.carries = .none) (hterm : s ≠ .sent .none) : Tidy (e.setSender s) := by
  refine h.of_finished rfl (fun _ => id) hfinished ?_ hterm
  rintro _ hne (hsent | hc)
  · exact .inl hsent
  · exact absurd (hc.symm.trans hcar) hne

theorem Tidy.finished (h : Tidy e) : Tidy e.finished := by
  refine h.of_finished rfl (by simp [Endpoint.finished]) rfl ?_ (woken_ne_sent h.terminal)
  simp [Endpoint.Took,Endpoint.finished]

/-- The terminal message has reached the peer. -/
theorem Tidy.publish (h : Tidy e) {ending : End} (hsnd : e.sender = .sent ending) :
    Tidy { e with localEndSent := ending, sender := .maybeFinish } := by
  have hcar : e.sender.carries = ending := by rw [hsnd]; rfl
  have hne : ending ≠ .none := fun heq => h.terminal (heq ▸ hsnd)
  have htook : ∀ ending', Took
      { e with localEndSent := ending, sender := .maybeFinish } ending' → ending' ≠ .none →
      e.Took ending' := by
    rintro ending' (hs | hc) hne'
    · exact .inr (hcar.trans hs)
    · exact absurd hc.symm hne'
  refine ⟨fun ht => h.halfClose (htook _ ht (by simp)),fun ht => h.abort (htook _ ht (by simp)),by simp,
    h.queued,?_,?_,fun _ => .inr rfl⟩
  · cases ending with
    | none => exact absurd rfl hne
    | halfClose => exact .inr (.inr (.inl (.inl rfl)))
    | abort => exact .inr (.inr (.inr (.inl rfl)))
  · intro habt
    cases ending with
    | none => exact absurd rfl hne
    | halfClose => cases (h.halfClose (.inr hcar)).symm.trans habt
    | abort => exact .inr (.inr (.inr (.inl rfl)))

/-- Nothing was taken, so the sender fiber looks at the queue again. -/
theorem Tidy.live_of_untaken (h : Tidy e) (hopen : e.transportFinished = false)
    (hhalf : ¬e.Took .halfClose) (habt : e.localEnd ≠ .abort) : e.sender.live = true := by
  rcases h.live with hlive | hfinished | htook | htook
  · exact hlive
  · rw [hopen] at hfinished
    cases hfinished
  · exact absurd htook hhalf
  · exact absurd (h.abort htook) habt

theorem Tidy.untaken (h : Tidy e) (hhalf : ¬e.Took .halfClose)
    (habt : e.localEnd ≠ .abort) : e.localEndSent = .none := by
  cases hsent : e.localEndSent with
  | none => rfl
  | halfClose => exact absurd (.inl hsent) hhalf
  | abort => exact absurd (h.abort (.inl hsent)) habt

/-- A message is queued that ends the stream as `localEnd` now says. -/
theorem tidy_queue (o : Outbound) (hlive : e.sender.live = true)
    (hsent : e.localEndSent = .none) (hend : e'.localEnd = o.ending)
    (hsent' : e'.localEndSent = e.localEndSent) (hsnd : e'.sender = e.sender.woken)
    (hque : ∀ p ∈ e'.outbound, p = o ∨ p.ending = .none) (hmem : o ∈ e'.outbound) : Tidy e' := by
  have hlive' : e'.sender.live = true := by rw [hsnd,live_woken,hlive]
  have htook : ∀ ending, ending ≠ .none → ¬e'.Took ending := by
    rintro ending hne (hs | hc)
    · exact hne (hs.symm.trans (hsent'.trans hsent))
    · exact hne (hc.symm.trans (carries_of_live hlive'))
  refine ⟨fun ht => absurd ht (htook _ (by simp)),fun ht => absurd ht (htook _ (by simp)),?_,?_,
    .inl hlive',?_,?_⟩
  · intro heq
    rw [heq] at hlive'
    cases hlive'
  · intro p hp hne
    rcases hque p hp with rfl | hdata
    · exact hend.symm
    · exact absurd hdata hne
  · exact fun habt => .inr (.inr (.inl ⟨o,hmem,hend.symm.trans habt⟩))
  · intro hs
    cases hs.symm.trans (hsent'.trans hsent)

theorem Tidy.forceAbort (cfg : Config) (h : Tidy e) {status : Status}
    (htimely : e.records cfg status = true → ¬e.Took .halfClose) :
    Tidy (e.forceAbort cfg status) := by
  rcases forceAbort_cases cfg e status with heq | ⟨_,encoded,hpack,hopen,hrem,hend,heq⟩
  · rw [heq]
    exact h
  have hhalf : ¬e.Took .halfClose := htimely (by simp [records,hpack,hopen,hrem,hend])
  have hsent := h.untaken hhalf hend
  rw [heq,hsent]
  refine tidy_queue { message := abortMessage encoded, ending := .abort }
    (h.live_of_untaken hopen hhalf hend) hsent rfl hsent.symm rfl ?_ ?_
  · intro p hp
    exact .inl (mem_singleton.mp hp)
  · exact mem_singleton.mpr rfl

theorem Tidy.take (cfg : Config) (h : Tidy e) (hcnt : Counted e) {front : Outbound}
    {rest : List Outbound} (hsnd : e.sender = .idle) (hque : e.outbound = front::rest) :
    Tidy { e with
      outbound := (takeOutbound cfg.estimate front rest).2
      sending := true
      sender := match (takeOutbound cfg.estimate front rest).1.message.toMsgpack cfg.packer with
        | .ok payload => .deliver (takeOutbound cfg.estimate front rest).1 payload
        | .error status => .forceAbort status false } := by
  have hidle : e.sender.live = true := by rw [hsnd]; rfl
  have hsub : ∀ o ∈ (takeOutbound cfg.estimate front rest).2, o.ending ≠ .none →
      o ∈ e.outbound := by
    intro o ho _
    rw [hque]
    exact mem_cons_of_mem _ (mem_takeOutbound _ _ _ o ho)
  by_cases hdata : front.ending = .none
  · have hlive : (match (takeOutbound cfg.estimate front rest).1.message.toMsgpack cfg.packer with
        | .ok payload => Sender.deliver (takeOutbound cfg.estimate front rest).1 payload
        | .error status => .forceAbort status false).live = true := by
      split
      · simp [Sender.live,takeOutbound_ending,hdata]
      · rfl
    refine (h.sender (Sender.resembles_of_live hidle hlive)).requeue true hsub ?_
    intro o ho hend
    have hold : o ∈ front::rest := hque ▸ ho
    rcases mem_cons.mp hold with rfl | hrest
    · cases hdata.symm.trans hend
    · exact takeOutbound_leaves _ _ hrest (by simp [hend])
  · have hend : front.ending = e.localEnd := h.queued front (by simp [hque]) hdata
    rw [takeOutbound_terminal _ _ hdata] at hsub ⊢
    cases henc : front.message.toMsgpack cfg.packer with
    | error status =>
      refine (h.sender (s := .forceAbort status false) (Sender.resembles_of_live hidle rfl)).requeue
        true hsub ?_
      intro o ho habt
      -- an abort message can always be encoded
      have hlast : o.ending = e.localEnd := h.queued o ho (by simp [habt])
      have hval := hcnt.valid front (by simp [hque]) (hend.trans (hlast.symm.trans habt))
      rw [WireMessage.toMsgpack_eq hval] at henc
      cases henc
    | ok payload =>
      have hsent : e.localEndSent = e.localEnd ∨ e.localEndSent = .none := by
        cases hs : e.localEndSent with
        | none => exact .inr rfl
        | halfClose => exact .inl (h.halfClose (.inl hs)).symm
        | abort => exact .inl (h.abort (.inl hs)).symm
      have htook : ∀ ending, ending ≠ .none → front.ending = ending ∨ e.localEndSent = ending →
          e.localEnd = ending := by
        rintro ending hne (hcarry | hs)
        · exact hend.symm.trans hcarry
        · rcases hsent with heq | heq
          · exact heq.symm.trans hs
          · exact absurd (heq.symm.trans hs).symm hne
      refine ⟨fun ht => htook _ (by simp) ht.symm,fun ht => htook _ (by simp) ht.symm,by simp,
        fun o ho hne => h.queued o (hsub o ho hne) hne,?_,?_,?_⟩
      · cases hfront : front.ending with
        | none => exact absurd hfront hdata
        | halfClose => exact .inr (.inr (.inl (.inr hfront)))
        | abort => exact .inr (.inr (.inr (.inr hfront)))
      · exact fun habt => .inr (.inr (.inr (.inr (hend.trans habt))))
      · intro hs
        refine (h.sent hs).imp_right fun hclo => ?_
        rw [Sender.closing_of_live hidle] at hclo
        cases hclo

theorem tidy_move {r : Prop} (hmove : Move cfg False r e e')
    (hcnt : Counted e) (h : Tidy e) : Tidy e' := by
  cases hmove with
  | aside | accept payload | receive r incoming incomingBytes handed hr
  | remoteHalfClose trailers hr | answer hr | refuse _ result hr | settleReceiver hr
  | finishReceiver r hr => exact h.same rfl rfl rfl id rfl rfl
  | launch _ hs _ =>
    exact h.keep rfl rfl rfl id rfl (resembles_of_live (by rw [hs]; rfl) rfl)
  | claim message hend => exact h.same hend.symm rfl rfl id rfl rfl
  | queue o status requested admitted hend hopen =>
    have hhalf : ¬e.Took .halfClose := fun ht => by
      have := h.halfClose ht
      rw [hend] at this
      cases this
    have habt : e.localEnd ≠ .abort := by rw [hend]; simp
    refine tidy_queue o (h.live_of_untaken hopen hhalf habt) (h.untaken hhalf habt) rfl rfl rfl ?_
      (by simp [enqueue])
    intro p hp
    rcases mem_append.mp hp with hold | hnew
    · refine .inr (by_contra fun hne => hne ?_)
      exact (h.queued p hold hne).trans hend
    · exact .inl (mem_singleton.mp hnew)
  | unclaim message delivered =>
    have hnext : Tidy { releaseClaim e message delivered with outbound := e.outbound } := by
      rcases releaseClaim_sender e message delivered with ⟨hs,-⟩ | hs
      · exact h.same rfl rfl rfl id rfl hs
      · exact h.keep rfl rfl rfl id rfl (hs ▸ resembles_woken h.terminal)
    refine hnext.requeue _ (fun o ho hne => ?_) fun o ho _ => ?_
    · cases delivered with
      | true => exact ho
      | false => exact (mem_cons.mp ho).resolve_left fun heq => hne (by rw [heq])
    · cases delivered with
      | true => exact ho
      | false => exact mem_cons_of_mem _ ho
  | force status htimely => exact h.forceAbort cfg (htimely.resolve_left id)
  | sleep hs => exact h.sender (resembles_of_live (by rw [hs]; rfl) rfl)
  | leave hs hfinished => exact h.after hfinished rfl (by simp)
  | drop front rest hque hend =>
    refine h.requeue e.sending (fun o ho _ => by simp [hque,ho]) fun o ho habt => ?_
    rw [hque] at ho
    exact (mem_cons.mp ho).resolve_left fun heq => hend (heq ▸ habt)
  | take front rest hs hque => exact h.take cfg hcnt hs hque
  | wait o payload hs | unblock o payload hs | forced status leave hs =>
    exact h.sender (hs ▸ ⟨rfl,rfl,rfl,by simp⟩)
  | pass o payload hs =>
    apply h.sender
    rw [hs]
    split_ifs with hdata
    · exact resembles_of_live (by simp [live,hdata]) rfl
    · exact ⟨by simp [live,hdata],rfl,rfl,by simpa using hdata⟩
  | lose hlost => exact hlost.elim
  | publish ending hs => exact h.publish hs
  | settleSender hs =>
    split_ifs with hended
    · exact h.sender (hs ▸ ⟨rfl,rfl,rfl,by simp⟩)
    · have hunsent : e.localEndSent ≠ .abort := fun hsent => hended (by simp [ended,hsent])
      refine h.carry rfl rfl rfl id rfl ?_ ?_ (fun hsent => absurd hsent hunsent) (by simp) <;>
        rw [hs] <;> rfl
  | finish hopen hfib => exact h.finished
  | finishSender s hs hfinished hnext =>
    rcases hnext with rfl | rfl
    · exact h.after hfinished rfl (by simp)
    · exact h.after hfinished rfl (by simp)
  | doneSender result hs =>
    have hdone : Tidy (e.doneReturned result) := by
      unfold doneReturned
      split
      · exact h.same rfl rfl rfl id rfl rfl
      · exact h
    refine hdone.after ?_ rfl (by simp)
    unfold doneReturned
    split <;> exact hcnt.done (.inl hs)
  | release leave hs =>
    refine h.keep rfl rfl rfl id rfl ?_
    rw [hs]
    cases leave <;> exact ⟨rfl,rfl,rfl,by simp⟩
  | remoteAbort recorded hr => exact h.same rfl rfl rfl (fun _ => rfl) rfl rfl
  | doneReceiver result hr =>
    unfold doneReturned
    split <;> exact h.same rfl rfl rfl id rfl rfl

/-! ### Runs -/

variable {x : Side}

theorem Moves.keeps {d r : Side → Prop} {I : Endpoint → Prop}
    (hmove : ∀ {e e'}, Move cfg (d x) (r x) e e' → I e → I e')
    (h : Moves cfg d r x e e') (he : I e) : I e' := by
  induction h with
  | refl => exact he
  | tail _ hlast ih => exact hmove hlast ih

variable {w : World}

theorem counted_step (hw : Delivers w) (hcnt : ∀ x, Counted (w x))
    (a : Action) (x : Side) : Counted (step cfg w a x) := by
  have hadv : Advance cfg (fun _ => True) (fun _ => True) w (step cfg w a) :=
    advance_step hw a (fun _ => .inl trivial) (fun _ => .inl trivial)
  exact Moves.keeps counted_move (hadv x) (hcnt x)

theorem meets_step (hw : Delivers w) {a : Action} (hacc : Accepts x w a) (h : Meets (w x)) :
    Meets (step cfg w a x) := by
  have hadv : Advance cfg (fun _ => True) (fun y => y ≠ x) w (step cfg w a) := by
    refine advance_step hw a (fun _ => .inl trivial) fun y => ?_
    by_cases hy : y = x
    · exact .inr (hy ▸ hacc)
    · exact .inl hy
  refine Moves.keeps (I := Meets) (fun hmove hm => ?_) (hadv x) h
  have hnever : (x ≠ x) = False := by simp
  rw [hnever] at hmove
  exact meets_move hmove hm

theorem tidy_step (hw : Delivers w) (hcnt : ∀ x, Counted (w x))
    {a : Action} (hundist : Undisturbed cfg x w a) (h : Tidy (w x)) : Tidy (step cfg w a x) := by
  have hadv : Advance cfg (fun y => y ≠ x) (fun _ => True) w (step cfg w a) := by
    refine advance_step hw a (fun y => ?_) fun _ => .inl trivial
    by_cases hy : y = x
    · exact .inr (hy ▸ hundist)
    · exact .inl hy
  have hboth : Counted (step cfg w a x) ∧ Tidy (step cfg w a x) := by
    refine Moves.keeps (I := fun e => Counted e ∧ Tidy e) (fun hmove hm => ?_) (hadv x)
      ⟨hcnt x,h⟩
    have hnever : (x ≠ x) = False := by simp
    rw [hnever] at hmove
    exact ⟨counted_move hmove hm.1,tidy_move hmove hm.1 hm.2⟩
  exact hboth.2

variable {first second : Options}

/-- What holds of a pair at first. -/
theorem endpoint_createPair
    (h : createPair first second = .ok w) (x : Side) : ∃ o : Options, w x = { options := o } := by
  obtain ⟨-,hrest⟩ := StatusOr.check_bind_eq_ok.mp h
  obtain ⟨-,hworld⟩ := StatusOr.check_bind_eq_ok.mp hrest
  cases hworld
  cases x
  · exact ⟨first,rfl⟩
  · exact ⟨second,rfl⟩

theorem counted_initial (o : Options) : Counted { options := o } :=
  ⟨fun _ => ⟨rfl,rfl⟩,by simp,rfl,by simp,by simp,by simp [Status.okStatus,Status.isOk],by simp,by simp,by simp⟩

theorem tidy_initial (o : Options) : Tidy { options := o } :=
  ⟨by simp [Took,carries],by simp [Took,carries],by simp,by simp,.inl rfl,
    by simp,by simp⟩

theorem meets_initial (o : Options) : Meets { options := o } := fun h => nomatch h

/-- Reachable states of a pair. -/
def Reaches (w : World) : Prop := Delivers w ∧ ∀ x, Counted (w x)

theorem reaches_step (cfg : Config) (w : World) (a : Action) (h : Reaches w) :
    Reaches (step cfg w a) := ⟨delivers_step cfg w a h.1,counted_step h.1 h.2 a⟩

theorem reaches_createPair (h : createPair first second = .ok w) : Reaches w := by
  refine ⟨delivers_createPair h,fun x => ?_⟩
  obtain ⟨o,ho⟩ := endpoint_createPair h x
  rw [ho]
  exact counted_initial o

theorem run_keeps {I : Endpoint → Prop} {P : World → Action → Prop}
    (hstep : ∀ {w a}, Reaches w → P w a → I (w x) → I (step cfg w a x)) (hw : Reaches w)
    (h : I (w x)) {actions : List Action} (halong : Runs.Along (step cfg) P w actions) :
    I (run cfg w actions x) := by
  have hboth : Reaches (run cfg w actions) ∧ I (run cfg w actions x) :=
    Runs.after_along (I := fun w => Reaches w ∧ I (w x))
      (fun w a hi ha => ⟨reaches_step cfg w a hi.1,hstep hi.1 ha hi.2⟩) ⟨hw,h⟩ halong
  exact hboth.2

/-! ### A settled endpoint -/

def Sender.resting : Sender → Bool
  | .absent => true
  | .asleep => true
  | .blocked _ _ => true
  | .returned => true
  | _ => false

def Sender.heldUp : Sender → Bool
  | .blocked _ _ => true
  | _ => false

def Receiver.resting : Receiver → Bool
  | .absent => true
  | .asleep => true
  | .returned => true
  | _ => false

/-- No call is in progress, and each fiber has returned or waits for somebody else. -/
structure Settled (e : Endpoint) : Prop where
  calls : ∀ i, isIdle (e.calls i) = true
  sender : e.sender.resting = true
  receiver : e.receiver.resting = true

theorem Counted.of_remoteAborted (h : Counted e) (hset : Settled e)
    (hrem : e.remoteAborted = true) : e.transportFinished = true := by
  refine (h.remote hrem).resolve_right fun hrcv => ?_
  have hrst := hset.receiver
  rw [hrcv] at hrst
  cases hrst

theorem Meets.of_settled (h : Meets e) (hset : Settled e)
    (hsent : e.localEndSent = .halfClose) (hrem : e.remoteHalfClosed = true) :
    e.transportFinished = true := by
  rcases h hsent hrem with hfinished | hclo | hclo
  · exact hfinished
  · have hrst := hset.sender
    cases hsnd : e.sender <;> rw [hsnd] at hrst hclo <;> simp_all [resting,closing]
  · have hrst := hset.receiver
    cases hrcv : e.receiver <;> rw [hrcv] at hrst hclo <;>
      simp_all [Receiver.resting,Receiver.closing]

/-- A sleeping sender fiber of a settled endpoint has nothing to send. -/
theorem Counted.nothing_queued (h : Counted e) {holder : Holder}
    (hclm : Claims e holder) (hset : Settled e) (hslp : e.sender = .asleep) : e.outbound = [] := by
  refine (h.wakes hslp).resolve_right fun hsend => ?_
  have hholder := hclm.sending.mp hsend
  cases holder with
  | nobody => exact hholder rfl
  | fiber =>
    have hholds := hclm.fiber.mpr rfl
    rw [hslp] at hholds
    cases hholds
  | call i =>
    have hholds := (hclm.call i).mpr rfl
    rw [Call.not_holds_of_isIdle (hset.calls i)] at hholds
    cases hholds

theorem Tidy.of_settled (h : Tidy e) (hcnt : Counted e) {holder : Holder}
    (hclm : Claims e holder) (hset : Settled e) (hstart : e.started = true)
    (hheld : e.sender.heldUp = false) (habt : e.localEnd = .abort) : e.transportFinished = true := by
  have hrst := hset.sender
  have hcarries : e.sender.carries = .none := by
    cases hsnd : e.sender <;> rw [hsnd] at hrst hheld <;>
      simp_all [Sender.resting,Sender.heldUp,Sender.carries]
  have hclo : e.sender.closing = false := by
    cases hsnd : e.sender <;> rw [hsnd] at hrst <;>
      simp_all [Sender.resting,Sender.closing]
  have hsent : e.Took .abort → e.transportFinished = true := by
    rintro (hsent | hcar)
    · exact (h.sent hsent).resolve_right (by simp [hclo])
    · rw [hcarries] at hcar
      cases hcar
  rcases h.pending habt with hfinished | hrem | ⟨o,ho,-⟩ | htook
  · exact hfinished
  · exact hcnt.of_remoteAborted hset hrem
  · rcases h.live with hlive | hfinished | hhalf | htook
    · have hslp : e.sender = .asleep := by
        have hpres := hcnt.present hstart
        cases hsnd : e.sender <;> rw [hsnd] at hrst hlive hheld hpres <;>
          simp_all [Sender.resting,Sender.live,Sender.heldUp]
      rw [hcnt.nothing_queued hclm hset hslp] at ho
      cases ho
    · exact hfinished
    · cases (h.halfClose hhalf).symm.trans habt
    · exact hsent htook
  · exact hsent htook

/-- A failed endpoint of a pair that has nothing left to do is finished, and its done callback
was called once: if no failure was recorded after the sender fiber had taken the half-close,
the sender fiber did not find the peer closed and does not wait for room at the peer; or if the
peer's own end has arrived. -/
theorem finished_of_failed (cfg : Config)
    (hcre : createPair first second = .ok w) (actions : List Action) (x : Side)
    (hstarted : (run cfg w actions x).started = true)
    (hfail : (run cfg w actions x).localEnd = .abort ∨ (run cfg w actions x).status.isOk = false)
    (hset : Settled (run cfg w actions x))
    (hcond : Runs.Along (step cfg) (Undisturbed cfg x) w actions ∧
        (run cfg w actions x).sender.heldUp = false ∨ (run cfg w actions x).remoteAborted = true ∨
      Runs.Along (step cfg) (Accepts x) w actions ∧
        (run cfg w actions x).localEndSent = .halfClose ∧
        (run cfg w actions x).remoteHalfClosed = true) :
    (run cfg w actions x).transportFinished = true ∧ (run cfg w actions x).doneRuns = 1 := by
  have hst := reaches_createPair hcre
  obtain ⟨o,ho⟩ := endpoint_createPair hcre x
  obtain ⟨hdelivers,hcnt⟩ : Reaches (run cfg w actions) :=
    Runs.after_invariant (reaches_step cfg) hst actions
  obtain ⟨_,hclm,-⟩ := hdelivers.flow x
  have hfinished : (run cfg w actions x).transportFinished = true := by
    rcases hcond with ⟨halong,hheld⟩ | hrem | ⟨halong,hsent,hrem⟩
    · have habt : (run cfg w actions x).localEnd = .abort ∨
          (run cfg w actions x).remoteAborted = true ∨
          (run cfg w actions x).transportFinished = true :=
        hfail.elim .inl (hcnt x).failed
      rcases habt with habt | hrem | hfinished
      · have htidy : Tidy _ :=
          run_keeps (fun hw => tidy_step hw.1 hw.2) hst (ho ▸ tidy_initial o) halong
        exact htidy.of_settled (hcnt x) hclm hset hstarted hheld habt
      · exact (hcnt x).of_remoteAborted hset hrem
      · exact hfinished
    · exact (hcnt x).of_remoteAborted hset hrem
    · have hmeets : Meets _ :=
        run_keeps (fun hw => meets_step hw.1) hst (ho ▸ meets_initial o) halong
      exact hmeets.of_settled hset hsent hrem
  refine ⟨hfinished,?_⟩
  rw [(hcnt x).counted,(hcnt x).called hfinished]
  rfl

end A11.InProcess
