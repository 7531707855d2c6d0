import A11.InProcessDelivery

/-! Every critical section of an in-process pair is a sequence of small moves of its endpoints.
Moves that come of a late failure, of a lost peer or of a refused half-close are marked. -/
namespace A11.InProcess

open WireStream

/-! ### Failures and where they come too late -/

/-- How the message in the sender's hands ends the stream. -/
def Sender.carries : Sender → End
  | .deliver o _ => o.ending
  | .blocked o _ => o.ending
  | .sent ending => ending
  | _ => .none

/-- The sender fiber still looks at the queue again. -/
def Sender.live : Sender → Bool
  | .absent => true
  | .idle => true
  | .asleep => true
  | .deliver o _ => o.ending == .none
  | .blocked o _ => o.ending == .none
  | .forceAbort _ leave => !leave
  | .release leave => !leave
  | _ => false

/-- The receiver fiber is not done with the messages before the peer's end. -/
def Receiver.early : Receiver → Bool
  | .idle => true
  | .check _ => true
  | .calling => true
  | .forceAbort _ => true
  | _ => false

/-- The sender fiber has taken the terminal message off the queue. -/
def Endpoint.Took (e : Endpoint) (ending : End) : Prop :=
  e.localEndSent = ending ∨ e.sender.carries = ending

/-- `ForceAbort` would record this failure. -/
def Endpoint.records (cfg : Config) (e : Endpoint) (status : Status) : Bool :=
  (packAbort cfg status).isSome && !e.transportFinished && !e.remoteAborted &&
    e.localEnd != .abort

/-- The failure a step is about to report at an endpoint. -/
def reported (w : World) (x : Side) : Action → Option Status
  | .call y i _ => match (w y).calls i with
    | .forceAbort status => if y = x then some status else none
    | _ => none
  | .sender y _ => match (w y).sender with
    | .forceAbort status _ => if y = x then some status else none
    | _ => none
  | .receiver y _ => match (w y).receiver with
    | .forceAbort status => if y = x then some status else none
    | _ => none
  | .watch y _ => match (w y).timing with
    | .forceAbort status => if y = x then some status else none
    | _ => none
  | _ => none

/-- The step records no failure after the sender fiber has taken the half-close, and the
sender fiber does not find its peer closed or gone. -/
structure Undisturbed (cfg : Config) (x : Side) (w : World) (a : Action) : Prop where
  timely : ∀ status, reported w x a = some status → (w x).records cfg status = true →
    ¬(w x).Took .halfClose
  peer : ∀ result o payload, a = .sender x result → (w x).sender = .deliver o payload →
    (w x.peer).gone = false ∧ (w x.peer).transportFinished = false

/-- The message callback does not fail for the peer's half-close. -/
def Accepts (x : Side) (w : World) (a : Action) : Prop :=
  ∀ result, a = .receiver x result → (w x).receiver = .callingEnd → result.isOk = true

/-! ### Moves of one endpoint -/

section Moves

variable (cfg : Config) (disturbed refused : Prop)

/-- What a critical section can do to an endpoint. -/
inductive Move (e : Endpoint) : Endpoint → Prop
  | aside (calls : ℕ → Call) (timing : Timing) (gone : Bool) : Move e { e with calls, timing, gone }
  | accept (payload : Bytes) : Move e (e.accept payload)
  | launch (hstarted : e.started = false) (hsender : e.sender = .absent)
      (hreceiver : e.receiver = .absent) : Move e e.launch
  | claim (message : WireMessage) (hend : e.localEnd = .none) :
      Move e { e.noteSend message .none with sending := true }
  | queue (o : Outbound) (status : Status) (requested : Bool) (admitted : List WireMessage)
      (hend : e.localEnd = .none) (hopen : e.transportFinished = false)
      (hvalid : o.ending = .abort → o.message.validate = .ok ())
      (hstatus : o.ending ≠ .abort → status = e.status) :
      Move e (Endpoint.enqueue { e with
        localEnd := o.ending, status, halfCloseRequested := requested, admitted } o)
  | unclaim (message : WireMessage) (delivered : Bool) : Move e (releaseClaim e message delivered)
  | force (status : Status)
      (htimely : disturbed ∨ (e.records cfg status = true → ¬e.Took .halfClose)) :
      Move e (e.forceAbort cfg status)
  | sleep (hsender : e.sender = .idle) (hqueue : e.outbound = [] ∨ e.sending = true) :
      Move e (e.setSender .asleep)
  | leave (hsender : e.sender = .idle) (hfinished : e.transportFinished = true) :
      Move e (e.setSender .returned)
  | drop (front : Outbound) (rest : List Outbound) (hqueue : e.outbound = front::rest)
      (hend : front.ending ≠ .abort) : Move e { e with outbound := rest }
  | take (front : Outbound) (rest : List Outbound) (hsender : e.sender = .idle)
      (hqueue : e.outbound = front::rest) :
      Move e { e with
        outbound := (takeOutbound cfg.estimate front rest).2
        sending := true
        sender := match (takeOutbound cfg.estimate front rest).1.message.toMsgpack cfg.packer with
          | .ok payload => .deliver (takeOutbound cfg.estimate front rest).1 payload
          | .error status => .forceAbort status false }
  | wait (o : Outbound) (payload : Bytes) (hsender : e.sender = .deliver o payload) :
      Move e (e.setSender (.blocked o payload))
  | unblock (o : Outbound) (payload : Bytes) (hsender : e.sender = .blocked o payload) :
      Move e (e.setSender (.deliver o payload))
  | pass (o : Outbound) (payload : Bytes) (hsender : e.sender = .deliver o payload) :
      Move e (e.setSender (if o.ending = .none then .release false else .sent o.ending))
  | lose (hlost : disturbed) (o : Outbound) (payload : Bytes) (status : Status)
      (hsender : e.sender = .deliver o payload) : Move e (e.setSender (.forceAbort status true))
  | forced (status : Status) (leave : Bool) (hsender : e.sender = .forceAbort status leave) :
      Move e (e.setSender (.release leave))
  | publish (ending : End) (hsender : e.sender = .sent ending) :
      Move e { e with localEndSent := ending, sender := .maybeFinish }
  | settleSender (hsender : e.sender = .maybeFinish) :
      Move e (e.setSender (if e.ended then .finish else .release true))
  | finish (hopen : e.transportFinished = false) (hfiber : e.sender = .finish ∨ e.receiver = .finish) :
      Move e e.finished
  | finishSender (s : Sender) (hsender : e.sender = .finish) (hfinished : e.transportFinished = true)
      (hnext : s = .done ∨ s = .release true) : Move e (e.setSender s)
  | doneSender (result : Status) (hsender : e.sender = .done) :
      Move e ((e.doneReturned result).setSender (.release true))
  | release (leave : Bool) (hsender : e.sender = .release leave) :
      Move e { e with sending := false, sender := if leave then .returned else .idle }
  | receive (r : Receiver) (incoming : List Bytes) (incomingBytes : ℕ)
      (handed : List (Option WireMessage)) (hreceiver : e.receiver.early = true) (hr : r ≠ .done) :
      Move e { e with incoming, incomingBytes, handed, receiver := r }
  | remoteAbort (recorded : Status) (hreceiver : e.receiver = .remoteAbort recorded) :
      Move e { e with
        remoteAborted := true
        trailers := none
        status := if e.status.isOk then recorded else e.status
        receiver := .finish }
  | remoteHalfClose (trailers : ByteMap) (hreceiver : e.receiver = .halfClose trailers) :
      Move e { e with
        remoteHalfClosed := true
        trailers := some trailers
        handed := e.handed++[none]
        receiver := .callingEnd }
  | answer (hreceiver : e.receiver = .callingEnd) : Move e (e.setReceiver .maybeFinish)
  | refuse (hrefused : refused) (result : Status) (hreceiver : e.receiver = .callingEnd) :
      Move e (e.setReceiver (.forceAbort result))
  | settleReceiver (hreceiver : e.receiver = .maybeFinish) :
      Move e (e.setReceiver (if e.ended then .finish else .returned))
  | finishReceiver (r : Receiver) (hreceiver : e.receiver = .finish)
      (hfinished : e.transportFinished = true) (hnext : r = .done ∨ r = .returned) :
      Move e (e.setReceiver r)
  | doneReceiver (result : Status) (hreceiver : e.receiver = .done) :
      Move e ((e.doneReturned result).setReceiver .returned)

end Moves

/-! ### Every step is a sequence of moves -/

section Steps

variable (cfg : Config) (d r : Side → Prop)

abbrev Moves (x : Side) : Endpoint → Endpoint → Prop :=
  Relation.ReflTransGen (Move cfg (d x) (r x))

def Advance (w w' : World) : Prop := ∀ x, Moves cfg d r x (w x) (w' x)

variable {cfg d r} {w : World} {x : Side}

theorem Advance.refl (w : World) : Advance cfg d r w w := fun _ => .refl

variable {e : Endpoint}

theorem Advance.both {e' : Endpoint} (h : Moves cfg d r x (w x) e)
    (h' : Moves cfg d r x.peer (w x.peer) e') : Advance cfg d r w ((w.put x e).put x.peer e') := by
  intro y
  rcases x.eq_or_eq_peer y with rfl | rfl
  · simpa using h
  · simpa using h'

theorem Advance.put (h : Moves cfg d r x (w x) e) : Advance cfg d r w (w.put x e) := by
  rw [← put_peer_same]
  exact Advance.both h .refl

theorem moves_setCall (e : Endpoint) (i : ℕ) (c : Call) : Moves cfg d r x e (e.setCall i c) :=
  .single (.aside (Function.update e.calls i c) e.timing e.gone)

theorem moves_unblocked (e : Endpoint) : Moves cfg d r x e (e.setSender e.sender.unblocked) := by
  by_cases h : ∃ o payload, e.sender = .blocked o payload
  · obtain ⟨o,payload,hsnd⟩ := h
    rw [hsnd]
    exact .single (.unblock o payload hsnd)
  have hsame : e.sender.unblocked = e.sender := by
    cases hsnd : e.sender <;> first | rfl | exact absurd ⟨_,_,hsnd⟩ h
  rw [hsame]
  exact .refl

theorem moves_admission (h : Local e) {i : ℕ} {message : WireMessage} {ending : End}
    (hcall : e.calls i = .prepared message ending) (expired : Bool) :
    Moves cfg d r x e (admission e i message ending expired) := by
  unfold admission
  split
  · exact moves_setCall e i .idle
  next hover =>
  simp only [not_or,Bool.not_eq_true,not_not] at hover
  obtain ⟨-,hend,hopen⟩ := hover
  cases expired with
  | true => exact moves_setCall e i _
  | false =>
    rw [if_neg (by simp)]
    split_ifs with hdirect
    · rw [hdirect.1]
      exact .tail (.single (.claim message hend)) (.aside _ _ _)
    · refine .tail (.single (.queue { message, ending } _ _ _ hend hopen ?_ ?_)) (.aside _ _ _)
      · exact fun _ => (h.admitting i message ending hcall).valid
      · exact fun hne => if_neg hne

theorem advance_deliverClaimed {i : ℕ} {message : WireMessage} :
    Advance cfg d r w (deliverClaimed cfg w x i message) := by
  unfold deliverClaimed
  cases message.toMsgpack cfg.packer with
  | error status => exact .put (moves_setCall (w x) i _)
  | ok payload =>
    dsimp only
    split_ifs
    · exact .both (moves_setCall (w x) i _) (.single (.accept payload))
    · exact .put (moves_setCall (w x) i _)

theorem advance_callStep (hw : Delivers w) (i : ℕ) (expired : Bool)
    (htimely : d x ∨ Undisturbed cfg x w (.call x i expired)) :
    Advance cfg d r w (callStep cfg w x i expired) := by
  unfold callStep
  dsimp only
  cases hcall : (w x).calls i with
  | idle => exact .refl w
  | prepared message ending => exact .put (moves_admission (hw.own x) hcall expired)
  | deliver message => exact advance_deliverClaimed
  | release message delivered => exact .put (.tail (.single (.unclaim message delivered)) (.aside _ _ _))
  | forceAbort status =>
    refine .put (.tail (.single (.force status (htimely.imp_right fun hu => ?_))) (.aside _ _ _))
    exact hu.timely status (by simp [reported,hcall])

theorem advance_deliver {o : Outbound} {payload : Bytes} {result : Status}
    (hsnd : (w x).sender = .deliver o payload)
    (hfnd : d x ∨ Undisturbed cfg x w (.sender x result)) :
    Advance cfg d r w (deliver w x o payload) := by
  unfold deliver
  dsimp only
  split
  · next hgone =>
    refine .put (.single (.lose (hfnd.resolve_right fun hu => ?_) o payload _ hsnd))
    rw [(hu.peer result o payload rfl hsnd).1] at hgone
    cases hgone
  split
  · next hfin =>
    refine .put (.single (.lose (hfnd.resolve_right fun hu => ?_) o payload _ hsnd))
    rw [(hu.peer result o payload rfl hsnd).2] at hfin
    cases hfin
  split
  · exact .both (.single (.pass o payload hsnd)) (.single (.accept payload))
  · exact .put (.single (.wait o payload hsnd))

theorem moves_takeNext (hsnd : e.sender = .idle) : Moves cfg d r x e (takeNext cfg e) := by
  unfold takeNext
  split
  · next hfin => exact .single (.leave hsnd hfin)
  split
  · next hnil => exact .single (.sleep hsnd (.inl hnil))
  next front rest hque =>
  split_ifs with hsend hdrop
  · exact .single (.sleep hsnd (.inr hsend))
  · exact .single (.drop front rest hque hdrop.2)
  · exact .single (.take front rest hsnd hque)

theorem advance_finish {resume : Bool → Endpoint → Endpoint}
    (hfib : (w x).sender = .finish ∨ (w x).receiver = .finish)
    (hres : ∀ callback e, e.transportFinished = true → (e.sender = (w x).sender.woken ∨
      e.sender = (w x).sender) → (e.receiver = (w x).receiver.woken ∨ e.receiver = (w x).receiver) →
      Moves cfg d r x e (resume callback e)) : Advance cfg d r w (finish w x resume) := by
  unfold finish
  dsimp only
  split_ifs with hfin
  · exact .put (hres false (w x) hfin (.inr rfl) (.inr rfl))
  · refine .both ?_ (moves_unblocked _)
    refine .trans (.single (.finish (by simpa using hfin) hfib)) ?_
    exact hres _ (w x).finished rfl (.inl rfl) (.inl rfl)

theorem advance_senderStep (result : Status)
    (hundist : d x ∨ Undisturbed cfg x w (.sender x result)) :
    Advance cfg d r w (senderStep cfg w x result) := by
  unfold senderStep
  dsimp only
  cases hsnd : (w x).sender with
  | absent | asleep | blocked o payload | returned => exact .refl w
  | idle => exact .put (moves_takeNext hsnd)
  | deliver o payload => exact advance_deliver hsnd hundist
  | forceAbort status leave =>
    have htimely : d x ∨ ((w x).records cfg status = true → ¬(w x).Took .halfClose) :=
      hundist.imp_right fun hu => hu.timely status (by simp [reported,hsnd])
    refine .put (.tail (.single (.force status htimely)) (.forced status leave ?_))
    rcases forceAbort_cases cfg (w x) status with heq | ⟨_,_,-,-,-,-,heq⟩ <;> rw [heq]
    · exact hsnd
    · simp [hsnd,Sender.woken]
  | sent ending => exact .put (.single (.publish ending hsnd))
  | maybeFinish => exact .put (.single (.settleSender hsnd))
  | finish =>
    apply advance_finish (.inl hsnd)
    intro callback e hfin hs _
    have hfinish : e.sender = .finish := by rcases hs with hs | hs <;> rw [hs,hsnd]; rfl
    refine .single (.finishSender _ hfinish hfin ?_)
    cases callback <;> simp
  | done => exact .put (.single (.doneSender result hsnd))
  | release leave => exact .put (.single (.release leave hsnd))

theorem classify_ne_done (cfg : Config) (limit : ℕ) (payload : Bytes) :
    classify cfg limit payload ≠ .done := by
  unfold classify
  split_ifs
  · simp
  split
  · simp
  split_ifs
  · simp
  · split
    · simp
    · split <;> simp

theorem advance_receiverStep (result : Status)
    (hundist : d x ∨ Undisturbed cfg x w (.receiver x result))
    (hacc : r x ∨ Accepts x w (.receiver x result)) :
    Advance cfg d r w (receiverStep cfg w x result) := by
  unfold receiverStep
  dsimp only
  cases hrcv : (w x).receiver with
  | absent | asleep | returned => exact .refl w
  | idle =>
    unfold receiveNext
    dsimp only
    have hearly : (w x).receiver.early = true := by rw [hrcv]; rfl
    split_ifs
    · exact .put (.single (.receive .returned _ _ _ hearly (by simp)))
    split
    · exact .put (.single (.receive .asleep _ _ _ hearly (by simp)))
    · next payload rest hinc =>
      exact .both (.single (.receive _ rest _ _ hearly (classify_ne_done cfg _ payload)))
        (moves_unblocked _)
  | check message =>
    have hearly : (w x).receiver.early = true := by rw [hrcv]; rfl
    split_ifs <;> exact .put (.single (.receive _ _ _ _ hearly (by simp)))
  | calling =>
    have hearly : (w x).receiver.early = true := by rw [hrcv]; rfl
    refine .put (.single (.receive _ _ _ _ hearly ?_))
    split_ifs <;> simp
  | forceAbort status =>
    have htimely : d x ∨ ((w x).records cfg status = true → ¬(w x).Took .halfClose) :=
      hundist.imp_right fun hu => hu.timely status (by simp [reported,hrcv])
    refine .put (.tail (.single (.force status htimely)) (.receive .returned _ _ _ ?_ (by simp)))
    rcases forceAbort_cases cfg (w x) status with heq | ⟨_,_,-,-,-,-,heq⟩ <;> rw [heq] <;>
      simp [hrcv,Receiver.early]
  | remoteAbort recorded => exact .put (.single (.remoteAbort recorded hrcv))
  | halfClose trailers => exact .put (.single (.remoteHalfClose trailers hrcv))
  | callingEnd =>
    apply Advance.put
    split_ifs with hok
    · exact .single (.answer hrcv)
    · refine .single (.refuse (hacc.resolve_right fun ha => ?_) result hrcv)
      exact hok (ha result rfl hrcv)
  | maybeFinish => exact .put (.single (.settleReceiver hrcv))
  | finish =>
    apply advance_finish (.inr hrcv)
    intro callback e hfin _ hr
    have hfinish : e.receiver = .finish := by rcases hr with hr | hr <;> rw [hr,hrcv]; rfl
    refine .single (.finishReceiver _ hfinish hfin ?_)
    cases callback <;> simp
  | done => exact .put (.single (.doneReceiver result hrcv))

theorem advance_send (i : ℕ) (message : WireMessage) : Advance cfg d r w (send w x i message) := by
  unfold send
  dsimp only
  split
  · exact .refl w
  split
  · exact .refl w
  · split_ifs
    · exact .refl w
    · exact .put (moves_setCall (w x) i _)

theorem moves_start (h : Local e) (i : ℕ) (expired : Bool) :
    Moves cfg d r x e (start e i expired) := by
  unfold start
  split
  · exact .refl
  next hstart =>
  have hdorm : e.started = false := by
    cases hs : e.started with
    | false => rfl
    | true => exact absurd (by simp [hs]) hstart
  have hlaunch : Moves cfg d r x e e.launch :=
    .single (.launch hdorm (h.dormant hdorm).1 (h.dormant hdorm).2)
  cases expired with
  | true => exact .tail hlaunch (.aside _ _ _)
  | false => exact hlaunch

theorem moves_overdue (e : Endpoint) (i : ℕ) :
    Moves cfg d r x e (e.setCall i (.forceAbort deadlineExceeded)) := moves_setCall e i _

theorem moves_halfClose (e : Endpoint) (i : ℕ) (trailers : ByteMap) (expired : Bool) :
    Moves cfg d r x e (halfClose e i trailers expired) := by
  unfold halfClose
  split
  · exact .refl
  split
  · exact .refl
  next normalized hnorm =>
  split_ifs with hexp hover
  · exact moves_overdue e i
  · exact .refl
  · simp only [not_or,Bool.not_eq_true,not_not] at hover
    exact .single (.queue _ e.status true e.admitted hover.1 hover.2.2 (fun habt => nomatch habt)
      fun _ => rfl)

theorem validate_abortMessage (encoded : Bytes) : (abortMessage encoded).validate = .ok () := rfl

theorem moves_abort (e : Endpoint) (i : ℕ) (status : Status) (expired : Bool) :
    Moves cfg d r x e (abort cfg e i status expired) := by
  unfold abort
  split
  · exact .refl
  split
  · exact .refl
  next encoded hpack =>
  split_ifs with hexp hover
  · exact moves_overdue e i
  · exact .refl
  · simp only [not_or,Bool.not_eq_true,not_not] at hover
    exact .single (.queue _ _ e.halfCloseRequested e.admitted hover.1 hover.2.2
      (fun _ => validate_abortMessage encoded) fun hne => absurd rfl hne)

theorem moves_watchTiming (overdue : Option Overdue)
    (htimely : ∀ status, e.timing = .forceAbort status →
      d x ∨ (e.records cfg status = true → ¬e.Took .halfClose)) :
    Moves cfg d r x e (watchTiming cfg e overdue) := by
  unfold watchTiming
  split
  · exact .refl
  · exact .refl
  · split_ifs
    · exact .single (.aside e.calls .returned e.gone)
    · cases overdue with
      | none => exact .refl
      | some overdue => exact .single (.aside e.calls (.forceAbort overdue.status) e.gone)
  · next status htiming =>
    exact .tail (.single (.force status (htimely status htiming))) (.aside _ .returned _)

theorem advance_step (hw : Delivers w) (a : Action)
    (hundist : ∀ x, d x ∨ Undisturbed cfg x w a) (hacc : ∀ x, r x ∨ Accepts x w a) :
    Advance cfg d r w (step cfg w a) := by
  cases a with
  | start x i expired => exact .put (moves_start (hw.own x) i expired)
  | send x i message => exact advance_send i message
  | call x i expired => exact advance_callStep hw i expired (hundist x)
  | halfClose x i trailers expired => exact .put (moves_halfClose _ i trailers expired)
  | abort x i status expired => exact .put (moves_abort _ i status expired)
  | setDeadline x i =>
    apply Advance.put
    unfold setDeadline
    split_ifs
    · exact moves_overdue _ i
    · exact .refl
  | sender x result => exact advance_senderStep result (hundist x)
  | receiver x result => exact advance_receiverStep result (hundist x) (hacc x)
  | watch x overdue =>
    refine .put (moves_watchTiming overdue fun status htiming => (hundist x).imp_right fun hu => ?_)
    exact hu.timely status (by simp [reported,htiming])
  | release x =>
    apply Advance.put
    unfold release
    split
    · exact .single (.aside _ _ true)
    · exact .single (.aside _ _ true)
    · exact .refl

end Steps

end A11.InProcess
