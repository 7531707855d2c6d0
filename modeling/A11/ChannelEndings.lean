import A11.ChannelInvariant
import A11.InProcessEndings

/-! What becomes of a channel stream that has failed, and the state in which nothing is left to
do. -/
namespace A11.ChannelStream

open WireStream Endpoint Sender

/-! ### Started before finished -/

/-- A stream that was started before it finished has had its done callback called. -/
def Called (e : Endpoint) : Prop := e.finished = true → e.started = true → e.doneCalled = true

variable {l r : Prop} {cfg : Config} {e e' : Endpoint}

theorem called_move (hmove : Move cfg l False r e e') (h : Called e) : Called e' := by
  cases hmove with
  | start i _ _ _ hopen =>
    intro hfin
    rw [show e.finished = true from hfin] at hopen
    simp at hopen
  | force t status canCommunicate rest hdut =>
    obtain ⟨_,_,_,_,_,heq⟩ := forceAbort_same cfg e status canCommunicate
    rw [heq]
    exact h
  | finish t terminal rest =>
    intro _ hstart
    have : e.started = true := hstart
    simp [setDuties,finish,this]
  | done t result rest =>
    obtain ⟨status,hsame⟩ := doneReturned_same e result
    rw [hsame]
    exact h
  | _ => exact h

/-! ### Both half-closes -/

/-- Once both half-closes have been exchanged, somebody finishes the stream. -/
def Meets (e : Endpoint) : Prop := e.localEndSent = .halfClose → e.remoteHalfClosed = true →
  Closing e ∨ e.receiver.place = .callingEnd

variable {s : Prop}

theorem meets_move (hmove : Move cfg l s False e e') (hsane : Sane e) (h : Meets e) : Meets e' := by
  have hkeep : e'.localEndSent = e.localEndSent → e'.remoteHalfClosed = e.remoteHalfClosed →
      (e.receiver.place = .callingEnd → e'.receiver.place = .callingEnd) → Meets e' := by
    intro hsent hrem hpl
    unfold Meets
    rw [hsent,hrem]
    exact fun hhalf hcls => (h hhalf hcls).imp (closing_move hmove hsane) hpl
  cases hmove with
  | launch i _ hpl =>
    intro hhalf
    have hover := hsane.sent (show e.localEndSent ≠ .none by rw [show e.localEndSent = .halfClose from hhalf]; simp)
    rw [hsane.fresh i (by rw [hpl]; rfl)] at hover
    cases hover
  | publish ending hdut =>
    intro hhalf hcls
    refine .inl (.inr (.inr ⟨?_,(owes_update (duties_setSender ..) hdut _).mpr (.inr (by simp))⟩))
    have hsent : ending = .halfClose := hhalf
    have hrem : e.remoteHalfClosed = true := hcls
    simp [ended,setSender,hsent,hrem]
  | receive fiber hdut hpl | remoteAbort recorded hdut hpl =>
    refine hkeep rfl rfl fun hcal => ?_
    rw [hcal] at hpl
    cases hpl
  | remoteHalfClose => exact fun _ _ => .inr rfl
  | answer hdut =>
    intro hhalf hcls
    refine .inl (.inr (.inr ⟨?_,(owes_update (duties_setReceiver ..) hdut _).mpr (.inr (by simp))⟩))
    have hsent : e.localEndSent = .halfClose := hhalf
    have hrem : e.remoteHalfClosed = true := hcls
    simp [ended,setReceiver,hsent,hrem]
  | refuse hrefused => exact hrefused.elim
  | notify t rest =>
    refine hkeep rfl rfl fun hcal => ?_
    simp [notify,hcal,Receiver.woken]
  | force t status canCommunicate rest hdut =>
    obtain ⟨_,_,_,_,_,heq⟩ := forceAbort_same cfg e status canCommunicate
    rw [heq] at hkeep ⊢
    exact hkeep rfl rfl (by simp)
  | settle t rest | finished t terminal rest => exact hkeep rfl rfl (by simp)
  | finish t terminal rest => exact fun _ _ => .inl (.inl rfl)
  | done t result rest =>
    obtain ⟨status,hsame⟩ := doneReturned_same e result
    rw [hsame] at hkeep ⊢
    exact hkeep rfl rfl (by simp)
  | _ => exact hkeep rfl rfl id

/-! ### A failure that is recorded in time -/

def Sender.live : Sender → Bool
  | .absent => true
  | .take => true
  | .asleep => true
  | .write o => o.ending == .none
  | .release leave => !leave
  | _ => false

/-- The sender has sent a message that ends the stream. -/
def Sender.ending : Sender → Option End
  | .drain ending => some ending
  | .measure ending _ => some ending
  | .draining ending => some ending
  | .publish ending => some ending
  | _ => none

/-- The abort message is queued behind a sender fiber that will look at it, or is on its way,
or the stream is about to finish. -/
structure Tidy (e : Endpoint) : Prop where
  halfClose : e.Took .halfClose → e.localEnd = .halfClose ∨ e.localEnd = .abort ∧ Closing e
  abort : e.Took .abort → e.localEnd = .abort
  terminal : e.sender.place.ending ≠ some .none
  queued : ∀ o ∈ e.outgoing, o.ending ≠ .none → o.ending = e.localEnd
  live : e.sender.place.live = true ∨ Closing e ∨ e.Took .halfClose ∨ e.Took .abort
  pending : e.localEnd = .abort → Closing e ∨ (∃ o ∈ e.outgoing, o.ending = .abort) ∨ e.Took .abort
  sent : e.localEndSent = .abort → Closing e

@[simp] theorem Sender.live_woken (s : Sender) : s.woken.live = s.live := by cases s <;> rfl

@[simp] theorem Sender.ending_woken (s : Sender) : s.woken.ending = s.ending := by cases s <;> rfl

theorem Sender.carries_of_live {s : Sender} (h : s.live = true) : s.carries = .none := by
  cases s <;> simp_all [live,carries]

theorem Sender.ending_of_live {s : Sender} (h : s.live = true) : s.ending = none := by
  cases s <;> simp_all [live,ending]

/-- Two points of the sender fiber between which nothing happens that matters here. -/
structure Sender.Resembles (s s' : Sender) : Prop where
  live : s'.live = s.live
  carries : s'.carries = s.carries
  terminal : s'.ending ≠ some .none

theorem Sender.resembles_of_live {s s' : Sender} (h : s.live = true) (h' : s'.live = true) :
    s.Resembles s' :=
  ⟨h'.trans h.symm,by rw [carries_of_live h,carries_of_live h'],by rw [ending_of_live h']; simp⟩

section

variable (h : Tidy e) (hclosing : Closing e → Closing e') (hend : e'.localEnd = e.localEnd)
  (hsent : e'.localEndSent = e.localEndSent)

include h hclosing hend hsent

theorem Tidy.keep
    (hque : e'.outgoing = e.outgoing) (hsnd : e.sender.place.Resembles e'.sender.place) :
    Tidy e' := by
  have htook : ∀ ending, e'.Took ending ↔ e.Took ending := by
    simp [Took,hsent,hsnd.carries]
  refine ⟨?_,?_,hsnd.terminal,?_,?_,?_,?_⟩
  · rw [htook,hend]
    exact fun ht => (h.halfClose ht).imp_right fun ⟨hab,hc⟩ => ⟨hab,hclosing hc⟩
  · rw [htook,hend]
    exact h.abort
  · rw [hque,hend]
    exact h.queued
  · rw [hsnd.live,htook,htook]
    exact h.live.imp_right fun hl => hl.imp_left hclosing
  · rw [hend,hque,htook]
    exact fun habort => (h.pending habort).imp_left hclosing
  · rw [hsent]
    exact fun hs => hclosing (h.sent hs)

theorem Tidy.same
    (hque : e'.outgoing = e.outgoing) (hsnd : e'.sender.place = e.sender.place) : Tidy e' :=
  h.keep hclosing hend hsent hque ⟨by rw [hsnd],by rw [hsnd],by rw [hsnd]; exact h.terminal⟩

end

/-- The stream is about to finish and no terminal message is in the sender's hands. -/
theorem Tidy.over (h : Tidy e) (hclosing : Closing e') (hend : e'.localEnd = e.localEnd)
    (hsent : e'.localEndSent = e.localEndSent) (hque : e'.outgoing = e.outgoing)
    (hcar : e'.sender.place.carries = .none) (hterm : e'.sender.place.ending = none) : Tidy e' := by
  refine ⟨?_,?_,by rw [hterm]; simp,?_,.inr (.inl hclosing),
    fun _ => .inl hclosing,fun _ => hclosing⟩
  · rintro (hs | hc)
    · rw [hend]
      exact (h.halfClose (.inl (hsent.symm.trans hs))).imp_right fun ⟨hab,_⟩ => ⟨hab,hclosing⟩
    · rw [hcar] at hc
      cases hc
  · rintro (hs | hc)
    · rw [hend]
      exact h.abort (.inl (hsent.symm.trans hs))
    · rw [hcar] at hc
      cases hc
  · rw [hque,hend]
    exact h.queued

section

variable (h : Tidy e) (hhalf : ¬e.Took .halfClose) (habort : e.localEnd ≠ .abort)

include h hhalf habort

/-- Nothing was taken, so the sender fiber looks at the queue again. -/
theorem Tidy.live_of_untaken : e.sender.place.live = true ∨ Closing e := by
  rcases h.live with hlive | hclosing | htook | htook
  · exact .inl hlive
  · exact .inr hclosing
  · exact absurd htook hhalf
  · exact absurd (h.abort htook) habort

theorem Tidy.untaken : ¬e.Took .halfClose ∧ ¬e.Took .abort := ⟨hhalf,fun ht => habort (h.abort ht)⟩

end

/-- A message is queued that ends the stream as `localEnd` now says. -/
theorem tidy_queue (h : Tidy e) (o : Outbound) (hhalf : ¬e.Took .halfClose)
    (habort : e.localEnd ≠ .abort) (hclosing : Closing e → Closing e') (hend : e'.localEnd = o.ending)
    (hsent : e'.localEndSent = e.localEndSent) (hsnd : e'.sender.place = e.sender.place)
    (hque : ∀ p ∈ e'.outgoing, p = o ∨ p.ending = .none) (hmem : o ∈ e'.outgoing) : Tidy e' := by
  have htook : ∀ ending, e'.Took ending ↔ e.Took ending := by
    simp [Took,hsent,hsnd]
  obtain ⟨hnohalf,hnoabort⟩ := h.untaken hhalf habort
  refine ⟨?_,?_,by rw [hsnd]; exact h.terminal,?_,?_,?_,?_⟩
  · exact fun ht => absurd ((htook _).mp ht) hnohalf
  · exact fun ht => absurd ((htook _).mp ht) hnoabort
  · intro p hp hne
    rcases hque p hp with rfl | hdata
    · exact hend.symm
    · exact absurd hdata hne
  · rw [hsnd]
    exact (h.live_of_untaken hhalf habort).imp_right fun hc => .inl (hclosing hc)
  · exact fun hab => .inr (.inl ⟨o,hmem,hend.symm.trans hab⟩)
  · exact fun hs => absurd ((htook _).mp (.inl hs)) hnoabort

theorem Sender.resembles_woken {s : Sender} (h : s.ending ≠ some .none) : s.Resembles s.woken :=
  ⟨live_woken s,carries_woken s,by rw [ending_woken]; exact h⟩

theorem Tidy.forceAbort (cfg : Config) (h : Tidy e) {status : Status}
    {canCommunicate : Bool} {t : Thread} {rest : List Duty}
    (hdut : e.duties t = .forceAbort status canCommunicate::rest)
    (htimely : e.informs cfg status canCommunicate = true → ¬e.Took .halfClose)
    (hclosing : Closing e → Closing ((e.forceAbort cfg status canCommunicate).1.setDuties
      ((e.forceAbort cfg status canCommunicate).2++rest) t)) :
    Tidy ((e.forceAbort cfg status canCommunicate).1.setDuties
      ((e.forceAbort cfg status canCommunicate).2++rest) t) := by
  have howes := owes_performed (duties_forced cfg e status canCommunicate rest t) hdut
  rcases forceAbort_cases cfg e status canCommunicate with heq | ⟨-,-,hend,⟨message,hinforms,heq⟩ | heq⟩ <;>
    rw [heq] at howes hclosing ⊢
  · exact h.same hclosing rfl rfl rfl (by simp)
  · refine tidy_queue h { message, ending := .abort, messageId := e.nextOutgoingMessageId }
      (htimely hinforms) hend hclosing rfl rfl (by rw [setDuties_sender]; rfl) ?_ ?_
    · exact fun p hp => .inl (by simpa [setDuties,queue,fail] using hp)
    · simp [setDuties,queue,fail]
  · have hnow : Closing ((e.fail (abortStatus status)).setDuties
        ([.notify,.finish none]++rest) t) := .inr (.inl ⟨none,(howes _).2.1 (by simp)⟩)
    refine ⟨fun _ => .inr ⟨rfl,hnow⟩,fun _ => rfl,?_,?_,.inr (.inl hnow),fun _ => .inl hnow,fun _ => hnow⟩
    · rw [setDuties_sender]
      exact h.terminal
    · exact fun o ho => absurd ho (List.not_mem_nil (a := o))

theorem Tidy.take (cfg : Config) (h : Tidy e) {front : Outbound}
    {rest : List Outbound} {e' : Endpoint} (he' : e' = setSender
      { e with outgoing := (takeOutbound cfg.estimate front rest).2, sending := true }
      { place := .write (takeOutbound cfg.estimate front rest).1 })
    (hpl : e.sender.place = .take) (hque : e.outgoing = front::rest)
    (hclosing : Closing e → Closing e') : Tidy e' := by
  have hending := InProcess.takeOutbound_ending cfg.estimate front rest
  have hidle : e.sender.place.live = true := by rw [hpl]; rfl
  have hqd : ∀ o ∈ (takeOutbound cfg.estimate front rest).2, o.ending ≠ .none →
      o.ending = e.localEnd := by
    intro o ho
    apply h.queued
    rw [hque]
    exact List.mem_cons_of_mem _ (InProcess.mem_takeOutbound _ _ _ o ho)
  by_cases hdata : front.ending = .none
  · have hlive : (Sender.write (takeOutbound cfg.estimate front rest).1).live = true := by
      simp [Sender.live,hending,hdata]
    have hresembles := Sender.resembles_of_live hidle hlive
    have htook : ∀ ending, e'.Took ending ↔ e.Took ending := by
      intro ending
      rw [he']
      unfold Took
      rw [← hresembles.carries]
      exact Iff.rfl
    subst he'
    refine ⟨?_,?_,hresembles.terminal,hqd,.inl hlive,?_,fun hs => hclosing (h.sent hs)⟩
    · intro ht
      exact (h.halfClose ((htook _).mp ht)).imp_right fun ⟨hab,hc⟩ => ⟨hab,hclosing hc⟩
    · exact fun ht => h.abort ((htook _).mp ht)
    · intro habort
      refine (h.pending habort).imp hclosing fun hp => hp.imp ?_ (htook _).mpr
      rintro ⟨o,ho,hend⟩
      have hold : o ∈ front::rest := hque ▸ ho
      rcases List.mem_cons.mp hold with rfl | hrest
      · rw [hdata] at hend
        cases hend
      · exact ⟨o,InProcess.takeOutbound_leaves _ _ hrest (by simp [hend]),hend⟩
  · have hend : front.ending = e.localEnd := h.queued front (by simp [hque]) hdata
    rw [InProcess.takeOutbound_terminal _ _ hdata] at hqd he'
    subst he'
    refine ⟨?_,?_,by simp [setSender,Sender.ending],hqd,?_,?_,fun hs => hclosing (h.sent hs)⟩
    · rintro (hs | hc)
      · exact (h.halfClose (.inl hs)).imp_right fun ⟨hab,hc⟩ => ⟨hab,hclosing hc⟩
      · exact .inl (hend.symm.trans hc)
    · rintro (hs | hc)
      · exact h.abort (.inl hs)
      · exact hend.symm.trans hc
    · cases hfront : front.ending with
      | none => exact absurd hfront hdata
      | halfClose => exact .inr (.inr (.inl (.inr hfront)))
      | abort => exact .inr (.inr (.inr (.inr hfront)))
    · exact fun habort => .inr (.inr (.inr (hend.trans habort)))

theorem Tidy.publish (h : Tidy e) {ending : End} {e' : Endpoint}
    (he' : e' = setSender { e with localEndSent := ending }
      { duties := [.maybeFinish], place := .release true })
    (hdut : e.duties .sender = []) (hpl : e.sender.place = .publish ending)
    (hclosing : Closing e → Closing e') : Tidy e' := by
  have hcar : e.sender.place.carries = ending := by rw [hpl]; rfl
  have hne : ending ≠ .none := by
    rintro rfl
    exact h.terminal (by rw [hpl]; rfl)
  have hnow : ending = .abort → Closing e' := by
    intro habort
    rw [he']
    refine .inr (.inr ⟨?_,(owes_update (duties_setSender ..) hdut _).mpr (.inr (by simp))⟩)
    simp [ended,setSender,habort]
  have htook : ∀ ending', ending' ≠ .none → e'.Took ending' → e.Took ending' := by
    rw [he']
    rintro ending' hne' (hs | hc)
    · exact .inr (hcar.trans hs)
    · exact absurd hc.symm hne'
  subst he'
  refine ⟨?_,fun ht => h.abort (htook _ (by simp) ht),by simp [setSender,Sender.ending],h.queued,
    ?_,?_,fun hs => hnow hs⟩
  · intro ht
    exact (h.halfClose (htook _ (by simp) ht)).imp_right (And.imp_right hclosing)
  · cases ending with
    | none => exact absurd rfl hne
    | halfClose => exact .inr (.inr (.inl (.inl rfl)))
    | abort => exact .inr (.inr (.inr (.inl rfl)))
  · intro habort
    cases ending with
    | none => exact absurd rfl hne
    | halfClose =>
      rcases h.halfClose (.inr hcar) with hhalf | ⟨-,hc⟩
      · cases (show e.localEnd = .abort from habort).symm.trans hhalf
      · exact .inl (hclosing hc)
    | abort => exact .inl (hnow rfl)

theorem tidy_move (hmove : Move cfg False s r e e') (hsane : Sane e) (h : Tidy e) : Tidy e' := by
  have hclosing : Closing e → Closing e' := closing_move hmove hsane
  cases hmove with
  | aside | call | handOver | unclaim | start | configured | unconfigured | opened | closed
  | receive | remoteAbort | remoteHalfClose | answer | refuse | watch =>
    exact h.same hclosing rfl rfl rfl rfl
  | claim i id o _ _ hend => exact h.same hclosing hend.symm rfl rfl rfl
  | queue i message ending _ _ hend =>
    have hhalf : ¬e.Took .halfClose := by
      intro ht
      rcases h.halfClose ht with heq | ⟨heq,-⟩ <;> cases hend.symm.trans heq
    refine tidy_queue h { message, ending, messageId := e.nextOutgoingMessageId } hhalf
      (by rw [hend]; simp) hclosing rfl rfl rfl ?_ ?_
    · intro p hp
      rcases List.mem_append.mp hp with hold | hnew
      · refine .inr (by_contra fun hne => hne ?_)
        exact (h.queued p hold hne).trans hend
      · exact .inl (List.mem_singleton.mp hnew)
    · exact List.mem_append_right _ (List.mem_singleton.mpr rfl)
  | launch i _ hpl =>
    have habs := hsane.fresh i (by rw [hpl]; rfl)
    exact h.keep hclosing rfl rfl rfl (resembles_of_live (by rw [habs]; rfl) rfl)
  | sleep _ hpl =>
    exact h.keep hclosing rfl rfl rfl (resembles_of_live (by rw [hpl]; rfl) rfl)
  | leave _ _ hfin | stopped ending _ _ hfin => exact h.over (.inl hfin) rfl rfl rfl rfl rfl
  | take front rest _ hpl hque => exact h.take cfg rfl hpl hque hclosing
  | wrote o _ hpl =>
    refine h.keep hclosing rfl rfl rfl ?_
    rw [hpl]
    simp only [setSender]
    split_ifs with hdata
    · exact resembles_of_live (by simp [live,hdata]) rfl
    · exact ⟨by simp [live,hdata],rfl,by simpa [ending] using hdata⟩
  | stop status hdut =>
    refine h.over (.inr (.inl ⟨some status,?_⟩)) rfl rfl rfl rfl rfl
    exact (owes_update (duties_setSender ..) hdut _).mpr (.inr (by simp))
  | wait ending next _ hpl hnext =>
    have hterm : ending ≠ .none := by
      rintro rfl
      apply h.terminal
      rcases hpl with heq | ⟨notified,heq⟩ <;> rw [heq] <;> rfl
    have hold : e.sender.place.live = false ∧ e.sender.place.carries = ending := by
      rcases hpl with heq | ⟨notified,heq⟩ <;> rw [heq] <;> exact ⟨rfl,rfl⟩
    refine h.keep hclosing rfl rfl rfl ?_
    have hnew : next.live = false ∧ next.carries = ending ∧ next.ending = some ending := by
      rcases hnext with rfl | rfl | rfl | rfl <;> exact ⟨rfl,rfl,rfl⟩
    exact ⟨hnew.1.trans hold.1.symm,hnew.2.1.trans hold.2.symm,
      by simpa [setSender,hnew.2.2] using hterm⟩
  | publish ending hdut hpl => exact h.publish rfl hdut hpl hclosing
  | release leave _ hpl =>
    refine h.keep hclosing rfl rfl rfl ?_
    rw [hpl]
    cases leave <;> exact ⟨rfl,rfl,by simp [setSender,ending]⟩
  | notify t rest =>
    refine h.keep hclosing rfl rfl rfl ?_
    rw [setDuties_sender]
    exact resembles_woken h.terminal
  | force t status canCommunicate rest hdut htimely =>
    exact h.forceAbort cfg hdut (htimely.resolve_left id) hclosing
  | settle t rest | finished t terminal rest => exact h.same hclosing rfl rfl rfl (by simp)
  | finish t terminal rest => exact h.same hclosing rfl rfl rfl (by simp [finish])
  | done t result rest =>
    obtain ⟨status,hsame⟩ := doneReturned_same e result
    rw [hsame] at hclosing ⊢
    exact h.same hclosing rfl rfl rfl (by simp)

/-! ### Runs -/

/-- What holds in every state of every run. -/
structure Reached (e : Endpoint) : Prop where
  sane : Sane e
  ends : Ends e
  comes : Comes e
  wakes : Wakes e
  counted : Counted e

theorem reached_move (hmove : Move cfg l s r e e') (h : Reached e) : Reached e' :=
  ⟨sane_move hmove h.sane,ends_move hmove h.sane h.ends,comes_move hmove h.sane h.comes,
    wakes_move hmove h.sane h.wakes,counted_move hmove h.counted⟩

theorem Moves.keeps {I : Endpoint → Prop}
    (hmove : ∀ {e e'}, Move cfg l s r e e' → Reached e → I e → I e')
    (h : Moves cfg l s r e e') (hreach : Reached e) (he : I e) : Reached e' ∧ I e' := by
  induction h with
  | refl => exact ⟨hreach,he⟩
  | tail _ hlast ih => exact ⟨reached_move hlast ih.1,hmove hlast ih.1 ih.2⟩

theorem reached_step (cfg : Config) (e : Endpoint) (a : Action) (h : Reached e) :
    Reached (step cfg e a) := by
  have hmov : Moves cfg True True True e (step cfg e a) :=
    moves_step e a (.inl trivial) (.inl trivial) (.inl trivial)
  exact (Moves.keeps (I := fun _ => True) (fun _ _ _ => trivial) hmov h trivial).1

/-- An invariant that only the steps of one kind keep. -/
theorem run_keeps {I : Endpoint → Prop} {P : Endpoint → Action → Prop}
    (hstep : ∀ e a, Reached e → P e a → I e → I (step cfg e a)) (hreach : Reached e)
    (he : I e) {actions : List Action} (halong : Runs.Along (step cfg) P e actions) :
    I (run cfg e actions) := by
  have hboth : Reached (run cfg e actions) ∧ I (run cfg e actions) := by
    refine Runs.after_along (I := fun e => Reached e ∧ I e) ?_ ⟨hreach,he⟩ halong
    exact fun e a h hP => ⟨reached_step cfg e a h.1,hstep e a h.1 hP h.2⟩
  exact hboth.2

theorem called_step (e : Endpoint) (a : Action) (hreach : Reached e)
    (hopens : StartsOpen e a) (h : Called e) : Called (step cfg e a) := by
  have hmov : Moves cfg True False True e (step cfg e a) :=
    moves_step e a (.inl trivial) (.inr hopens) (.inl trivial)
  exact (Moves.keeps (fun hmove _ => called_move hmove) hmov hreach h).2

theorem meets_step (e : Endpoint) (a : Action) (hreach : Reached e)
    (hacc : Accepts e a) (h : Meets e) : Meets (step cfg e a) := by
  have hmov : Moves cfg True True False e (step cfg e a) :=
    moves_step e a (.inl trivial) (.inl trivial) (.inr hacc)
  exact (Moves.keeps (fun hmove hr => meets_move hmove hr.sane) hmov hreach h).2

theorem tidy_step (e : Endpoint) (a : Action) (hreach : Reached e)
    (htimely : Timely cfg e a) (h : Tidy e) : Tidy (step cfg e a) := by
  have hmov : Moves cfg False True True e (step cfg e a) :=
    moves_step e a (.inr htimely) (.inl trivial) (.inl trivial)
  exact (Moves.keeps (fun hmove hr => tidy_move hmove hr.sane) hmov hreach h).2

/-- A new endpoint. -/
theorem makeState_eq {role : Role} {options : Options} {framing : Framing}
    (h : makeState role options framing = .ok e) :
    ∃ chunking, e = { role, options, framing, chunking } := by
  unfold makeState at h
  split at h
  · cases h
  · obtain ⟨-,hrest⟩ := StatusOr.check_bind_eq_ok.mp h
    obtain ⟨-,hst⟩ := StatusOr.check_bind_eq_ok.mp hrest
    cases hst
    exact ⟨_,rfl⟩

theorem not_owes (h : ∀ t, e.duties t = []) (d : Duty) : ¬Owes e d := by
  rintro ⟨t,ht⟩
  rw [h t] at ht
  cases ht

section Initial

variable (role : Role) (options : Options) (framing : Framing)
  (chunking : ByteChunking.ByteChunkingOptions)

theorem reached_initial : Reached { role, options, framing, chunking } where
  sane := ⟨fun _ => ⟨rfl,fun _ => rfl⟩,(fun _ _ h => nomatch h),fun _ _ => rfl,(fun h => absurd rfl h),
    (fun h => nomatch h)⟩
  ends := fun h => by simp at h
  comes := fun h => nomatch h
  wakes := fun h => nomatch h
  counted := ⟨rfl,fun h => absurd h (not_owes (fun t => by cases t <;> rfl) _),
    by simp [Status.okStatus,Status.isOk]⟩

theorem called_initial : Called { role, options, framing, chunking } := fun h => nomatch h

theorem meets_initial : Meets { role, options, framing, chunking } := fun h => nomatch h

theorem tidy_initial : Tidy { role, options, framing, chunking } :=
  ⟨by simp [Took,carries],by simp [Took,carries],
    by simp [ending],by simp,.inl rfl,by simp,by simp⟩

end Initial

/-! ### A settled endpoint -/

def Sender.resting : Sender → Bool
  | .absent => true
  | .asleep => true
  | .draining _ => true
  | .returned => true
  | _ => false

def Receiver.resting : Receiver → Bool
  | .absent => true
  | .asleep => true
  | .returned => true
  | _ => false

/-- No call and no callback is in progress, and each fiber has returned or waits for somebody
else. -/
structure Settled (e : Endpoint) : Prop where
  duties : ∀ t, e.duties t = []
  calls : ∀ i, (e.calls i).place = .idle
  sender : e.sender.place.resting = true
  receiver : e.receiver.place.resting = true

/-- The sender fiber waits for the channel to drain or to open. -/
def HeldUp (e : Endpoint) : Prop :=
  (∃ ending, e.sender.place = .draining ending) ∨ e.isOpen = false ∧ e.outgoing ≠ []

theorem Closing.of_settled (h : Closing e) (hset : Settled e) : e.finished = true := by
  rcases h with hfin | ⟨_,howes⟩ | ⟨-,howes⟩
  · exact hfin
  · exact absurd howes (not_owes hset.duties _)
  · exact absurd howes (not_owes hset.duties _)

theorem Tidy.of_settled (h : Tidy e) (hreach : Reached e) (hset : Settled e)
    (hstart : e.started = true) (hheld : ¬HeldUp e) (habort : e.localEnd = .abort) :
    e.finished = true := by
  have hrst := hset.sender
  have hcar : e.sender.place.carries = .none := by
    cases hpl : e.sender.place with
    | draining ending => exact absurd (.inl ⟨ending,hpl⟩) hheld
    | _ => rw [hpl] at hrst; first | rfl | cases hrst
  have htook : e.Took .abort → e.finished = true := by
    rintro (hsent | hc)
    · exact (h.sent hsent).of_settled hset
    · rw [hcar] at hc
      cases hc
  rcases h.pending habort with hclosing | ⟨o,ho,-⟩ | ht
  · exact hclosing.of_settled hset
  · rcases h.live with hlive | hclosing | hhalf | ht
    · have hque : e.outgoing ≠ [] := List.ne_nil_of_mem ho
      cases hpl : e.sender.place with
      | absent =>
        rcases hreach.comes hstart hpl with hclosing | ⟨i,hi⟩
        · exact hclosing.of_settled hset
        · rw [hset.calls i] at hi
          cases hi
      | asleep =>
        have hopen : e.isOpen = true := by
          by_contra hshut
          exact hheld (.inr ⟨by simpa using hshut,hque⟩)
        have hidle : e.sending = false := by
          by_contra hsend
          rcases hreach.sane.claims (by simpa using hsend) with hholds | ⟨i,hi⟩
          · rw [hpl] at hholds
            cases hholds
          · rw [hset.calls i] at hi
            cases hi
        exact absurd (hreach.wakes hpl hstart hopen hque hidle) (not_owes hset.duties _)
      | draining ending => exact absurd (.inl ⟨ending,hpl⟩) hheld
      | returned => rw [hpl] at hlive; cases hlive
      | _ => rw [hpl] at hrst; cases hrst
    · exact hclosing.of_settled hset
    · rcases h.halfClose hhalf with heq | ⟨-,hclosing⟩
      · cases habort.symm.trans heq
      · exact hclosing.of_settled hset
    · exact htook ht
  · exact htook ht

/-- A failed endpoint with nothing left to do is finished, and its done callback was called
once: if it was not started after its end, and either no abort message was left to a sender
fiber that had taken the half-close and the sender fiber does not wait for the channel, or the
peer's own end or the end of the channel has arrived. -/
theorem finished_of_failed (cfg : Config) {role : Role} {options : Options} {framing : Framing}
    (hmake : makeState role options framing = .ok e) (actions : List Action)
    (hstart : (run cfg e actions).started = true)
    (hfail : (run cfg e actions).localEnd = .abort ∨ (run cfg e actions).status.isOk = false)
    (hset : Settled (run cfg e actions)) (hopens : Runs.Along (step cfg) StartsOpen e actions)
    (hcond : Runs.Along (step cfg) (Timely cfg) e actions ∧ ¬HeldUp (run cfg e actions) ∨
      (run cfg e actions).remoteAborted = true ∨ (run cfg e actions).channelClosed = true ∨
      Runs.Along (step cfg) Accepts e actions ∧ (run cfg e actions).localEndSent = .halfClose ∧
        (run cfg e actions).remoteHalfClosed = true) :
    (run cfg e actions).finished = true ∧ (run cfg e actions).doneRuns = 1 := by
  obtain ⟨chunking,heq⟩ := makeState_eq hmake
  have hinit : Reached e := heq ▸ reached_initial role options framing chunking
  have hreach : Reached (run cfg e actions) := Runs.after_invariant (reached_step cfg) hinit actions
  have hcal : Called (run cfg e actions) :=
    run_keeps called_step hinit (heq ▸ called_initial role options framing chunking) hopens
  have hfin : (run cfg e actions).finished = true := by
    rcases hcond with ⟨htimely,hheld⟩ | hrem | hcls | ⟨hacc,hsent,hrem⟩
    · have hcause := hfail.elim .inl hreach.counted.failed
      rcases hcause with habort | hrem | hfin
      · have htidy : Tidy (run cfg e actions) :=
          run_keeps tidy_step hinit (heq ▸ tidy_initial role options framing chunking) htimely
        exact htidy.of_settled hreach hset hstart hheld habort
      · exact (hreach.ends (.inl hrem)).of_settled hset
      · exact hfin
    · exact (hreach.ends (.inl hrem)).of_settled hset
    · exact (hreach.ends (.inr hcls)).of_settled hset
    · have hmeets : Meets (run cfg e actions) :=
        run_keeps meets_step hinit (heq ▸ meets_initial role options framing chunking) hacc
      rcases hmeets hsent hrem with hclosing | hcalling
      · exact hclosing.of_settled hset
      · have hrst := hset.receiver
        rw [hcalling] at hrst
        cases hrst
  refine ⟨hfin,?_⟩
  rw [hreach.counted.counted,hcal hfin hstart]
  rfl

end A11.ChannelStream
