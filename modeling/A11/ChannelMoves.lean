import A11.ChannelStream

/-! What a critical section of a channel stream can do to its endpoint. Moves that come of a
late failure, of a start after the end or of a refused half-close are marked. -/
namespace A11.ChannelStream

open WireStream Endpoint
open Function (update update_of_ne update_self exists_update_iff)

/-! ### Duties -/

def Owes (e : Endpoint) (d : Duty) : Prop := ∃ t, d ∈ e.duties t

section

variable (e : Endpoint)

@[simp] theorem duties_setCall (i : ℕ) (fiber : Fiber Call) :
    (e.setCall i fiber).duties = update e.duties (.call i) fiber.duties := by
  funext t
  cases t with
  | call j =>
    by_cases hj : j = i
    · subst hj
      simp [duties,setCall]
    · simp [duties,setCall,hj]
  | _ => simp [duties,setCall]

@[simp] theorem duties_setSender (fiber : Fiber Sender) :
    (e.setSender fiber).duties = update e.duties .sender fiber.duties := by
  funext t
  cases t <;> simp [duties,setSender]

@[simp] theorem duties_setReceiver (fiber : Fiber Receiver) :
    (e.setReceiver fiber).duties = update e.duties .receiver fiber.duties := by
  funext t
  cases t <;> simp [duties,setReceiver]

@[simp] theorem duties_setTiming (fiber : Fiber Timing) :
    (e.setTiming fiber).duties = update e.duties .timing fiber.duties := by
  funext t
  cases t <;> simp [duties,setTiming]

variable (duties : List Duty) (t : Thread)

@[simp] theorem duties_setDuties :
    (e.setDuties duties t).duties = update e.duties t duties := by
  funext t'
  by_cases h : t' = t
  · subst h
    cases t' <;> simp [Endpoint.setDuties,Endpoint.duties]
  · rw [update_of_ne h]
    cases t' <;> simp [Endpoint.setDuties,Endpoint.duties,Ne.symm h]

@[simp] theorem setDuties_calls (i : ℕ) :
    ((e.setDuties duties t).calls i).place = (e.calls i).place := by
  simp only [setDuties]
  split <;> rfl

@[simp] theorem setDuties_sender :
    (e.setDuties duties t).sender.place = e.sender.place := by
  simp only [setDuties]
  split <;> rfl

@[simp] theorem setDuties_receiver :
    (e.setDuties duties t).receiver.place = e.receiver.place := by
  simp only [setDuties]
  split <;> rfl

theorem setCall_calls (i j : ℕ) (fiber : Fiber Call) :
    (e.setCall i fiber).calls j = if j = i then fiber else e.calls j := by
  by_cases h : j = i
  · rw [if_pos h,h]
    exact update_self ..
  · rw [if_neg h]
    exact update_of_ne h ..

@[simp] theorem duties_notify : e.notify.duties = e.duties := by
  funext t
  cases t <;> rfl

@[simp] theorem duties_launch : e.launch.duties = e.duties := by
  funext t
  cases t <;> rfl

end

section

variable {e f : Endpoint} {t : Thread} {l rest : List Duty}

theorem owes_iff (hdut : f.duties = update e.duties t l) (d : Duty) :
    Owes f d ↔ d ∈ l ∨ ∃ t', t' ≠ t ∧ d ∈ e.duties t' := by
  rw [Owes,hdut]
  exact exists_update_iff _ fun _ l => d ∈ l

/-- A fiber without duties takes on new ones. -/
theorem owes_update (hdut : f.duties = update e.duties t l) (hold : e.duties t = []) (d : Duty) :
    Owes f d ↔ Owes e d ∨ d ∈ l := by
  rw [owes_iff hdut,or_comm]
  refine or_congr_left ⟨fun ⟨t',_,ht'⟩ => ⟨t',ht'⟩,fun ⟨t',ht'⟩ => ⟨t',?_,ht'⟩⟩
  rintro rfl
  simp [hold] at ht'

/-- A fiber has carried out a duty. -/
theorem owes_performed {duty : Duty} (hdut : f.duties = update e.duties t (l++rest))
    (hold : e.duties t = duty::rest) (d : Duty) :
    (Owes e d → d ≠ duty → Owes f d) ∧ (d ∈ l → Owes f d) ∧ (Owes f d → Owes e d ∨ d ∈ l) := by
  rw [owes_iff hdut]
  refine ⟨?_,fun hnew => .inl (List.mem_append_left _ hnew),?_⟩
  · rintro ⟨t',ht'⟩ hne
    by_cases heq : t' = t
    · subst heq
      rw [hold] at ht'
      exact .inl (List.mem_append_right _ ((List.mem_cons.mp ht').resolve_left hne))
    · exact .inr ⟨t',heq,ht'⟩
  · rintro (hnew | ⟨t',-,ht'⟩)
    · exact (List.mem_append.mp hnew).symm.imp_left fun hrest => ⟨t,by simp [hold,hrest]⟩
    · exact .inl ⟨t',ht'⟩

end

/-! ### Failures and where they come too late -/

/-- How the message in the sender's hands ends the stream. -/
def Sender.carries : Sender → End
  | .write o => o.ending
  | .drain ending => ending
  | .measure ending _ => ending
  | .draining ending => ending
  | .publish ending => ending
  | _ => .none

/-- The sender fiber has taken the terminal message off the queue. -/
def Endpoint.Took (e : Endpoint) (ending : End) : Prop :=
  e.localEndSent = ending ∨ e.sender.place.carries = ending

/-- `ForceAbort` would record the failure and queue an abort message for the sender fiber. -/
def Endpoint.informs (cfg : Config) (e : Endpoint) (status : Status) (canCommunicate : Bool) : Bool :=
  (abortNotice cfg status).isSome && canCommunicate && e.isOpen && !e.finished &&
    !e.remoteAborted && e.localEnd != .abort

/-- The step leaves no abort message to the sender fiber after that has taken the half-close. -/
def Timely (cfg : Config) (e : Endpoint) : Action → Prop
  | .advance t _ => ∀ status canCommunicate rest,
    e.duties t = .forceAbort status canCommunicate::rest →
      e.informs cfg status canCommunicate = true → ¬e.Took .halfClose
  | _ => True

/-- The stream is not started after it has finished. -/
def StartsOpen (e : Endpoint) : Action → Prop
  | .advance (.call i) _ => ∀ accept, e.duties (.call i) = [] → (e.calls i).place = .start accept →
    mayStart e accept = true → e.finished = false
  | _ => True

/-- The message callback does not fail for the peer's half-close. -/
def Accepts (e : Endpoint) : Action → Prop
  | .advance .receiver reply => e.duties .receiver = [] → e.receiver.place = .callingEnd →
    reply.status.isOk = true
  | _ => True

/-! ### Moves -/

/-- The call takes no part in sending or starting. -/
def Call.plain : Call → Bool
  | .deliver _ => false
  | .unclaim _ => false
  | .configure => false
  | .schedule => false
  | _ => true

/-- The receiver fiber is not done with the messages before the peer's end. -/
def Receiver.early : Receiver → Bool
  | .receive => true
  | .check _ => true
  | .calling => true
  | _ => false

section Moves

variable (cfg : Config) (late restarted refused : Prop)

inductive Move (e : Endpoint) : Endpoint → Prop
  | aside (reassembler : ByteChunking.ByteReassembler) (incoming : List Bytes) (incomingBytes : ℕ)
      (connected : Bool) (written : List (ℕ × Bytes)) (handed : List (Option WireMessage)) :
      Move e { e with reassembler, incoming, incomingBytes, connected, written, handed }
  | call (i : ℕ) (fiber : Fiber Call) (hduties : e.duties (.call i) = [])
      (hold : (e.calls i).place.plain = true) (hnew : fiber.place.plain = true)
      (hdone : .done ∉ fiber.duties) : Move e (e.setCall i fiber)
  | claim (i id : ℕ) (o : Outbound) (hduties : e.duties (.call i) = [])
      (hold : (e.calls i).place.plain = true) (hend : e.localEnd = .none) :
      Move e (Endpoint.setCall
        { e.noteSend .none with sending := true, nextOutgoingMessageId := id } i
        { place := .deliver o })
  | queue (i : ℕ) (message : WireMessage) (ending : End) (hduties : e.duties (.call i) = [])
      (hold : (e.calls i).place.plain = true) (hend : e.localEnd = .none)
      (hopen : e.finished = false) :
      Move e (((e.noteSend ending).queue message ending).setCall i
        { duties := [.notify], place := .idle })
  | handOver (i : ℕ) (o : Outbound) (failure : Status) (hduties : e.duties (.call i) = [])
      (hplace : (e.calls i).place = .deliver o) : Move e (e.setCall i { place := .unclaim failure })
  | unclaim (i : ℕ) (failure : Status) (hduties : e.duties (.call i) = [])
      (hplace : (e.calls i).place = .unclaim failure) :
      Move e (Endpoint.setCall { e with sending := false } i
        { duties := (if e.outgoing = [] then [] else [.notify])++
            (if failure.isOk then [] else [.finish (some failure)])
          place := .idle })
  | start (i : ℕ) (hduties : e.duties (.call i) = []) (hold : (e.calls i).place.plain = true)
      (hstarted : e.started = false) (hopen : restarted ∨ e.finished = false) :
      Move e (Endpoint.setCall { e with started := true } i { place := .configure })
  | configured (i : ℕ) (hduties : e.duties (.call i) = []) (hplace : (e.calls i).place = .configure) :
      Move e (e.setCall i { place := .schedule })
  | unconfigured (i : ℕ) (status : Status) (hduties : e.duties (.call i) = [])
      (hplace : (e.calls i).place = .configure) :
      Move e (e.setCall i { duties := [.finish (some status)], place := .idle })
  | launch (i : ℕ) (hduties : e.duties (.call i) = []) (hplace : (e.calls i).place = .schedule) :
      Move e (e.launch.setCall i { place := .checkOpen })
  | opened (i : ℕ) (isOpen : Bool) (fiber : Fiber Call) (hduties : e.duties (.call i) = [])
      (hold : (e.calls i).place.plain = true) (hnew : fiber.place.plain = true)
      (hdone : .done ∉ fiber.duties)
      (hnotify : isOpen = e.isOpen ∨ (isOpen = true ∧ .notify ∈ fiber.duties)) :
      Move e (Endpoint.setCall { e with isOpen } i fiber)
  | closed (i : ℕ) (duty : Duty) (hduties : e.duties (.call i) = [])
      (hold : (e.calls i).place.plain = true)
      (hduty : (∃ terminal, duty = .finish terminal) ∨
        duty = .maybeFinish ∧ (e.finished = true ∨ e.ended = true)) :
      Move e (Endpoint.setCall { e with channelClosed := true } i
        { duties := [duty,.notify], place := .idle })
  | sleep (hduties : e.duties .sender = []) (hplace : e.sender.place = .take)
      (hwork : ¬(e.started = true ∧ e.isOpen = true ∧ e.outgoing ≠ [] ∧ e.sending = false)) :
      Move e (e.setSender { place := .asleep })
  | leave (hduties : e.duties .sender = []) (hplace : e.sender.place = .take)
      (hfinished : e.finished = true) : Move e (e.setSender { place := .returned })
  | take (front : Outbound) (rest : List Outbound) (hduties : e.duties .sender = [])
      (hplace : e.sender.place = .take) (hqueue : e.outgoing = front::rest) :
      Move e (Endpoint.setSender
        { e with outgoing := (takeOutbound cfg.estimate front rest).2, sending := true }
        { place := .write (takeOutbound cfg.estimate front rest).1 })
  | wrote (o : Outbound) (hduties : e.duties .sender = []) (hplace : e.sender.place = .write o) :
      Move e (e.setSender
        { place := if o.ending = .none then .release false else .drain o.ending })
  | stop (status : Status) (hduties : e.duties .sender = [])
      (hplace : (∃ o, e.sender.place = .write o) ∨
        ∃ ending notified, e.sender.place = .measure ending notified) :
      Move e (e.setSender { duties := [.finish (some status)], place := .release true })
  | stopped (ending : End) (hduties : e.duties .sender = [])
      (hplace : e.sender.place = .drain ending) (hfinished : e.finished = true) :
      Move e (e.setSender { place := .release true })
  | wait (ending : End) (s : Sender) (hduties : e.duties .sender = [])
      (hplace : e.sender.place = .drain ending ∨ ∃ n, e.sender.place = .measure ending n)
      (hnext : s = .drain ending ∨ s = .draining ending ∨ s = .measure ending false ∨
        s = .publish ending) : Move e (e.setSender { place := s })
  | publish (ending : End) (hduties : e.duties .sender = [])
      (hplace : e.sender.place = .publish ending) :
      Move e (Endpoint.setSender { e with localEndSent := ending }
        { duties := [.maybeFinish], place := .release true })
  | release (leave : Bool) (hduties : e.duties .sender = [])
      (hplace : e.sender.place = .release leave) :
      Move e (Endpoint.setSender { e with sending := false }
        { duties := if e.outgoing = [] then [] else [.notify]
          place := if leave then .returned else .take })
  | receive (fiber : Fiber Receiver) (hduties : e.duties .receiver = [])
      (hplace : e.receiver.place.early = true) (hdone : .done ∉ fiber.duties) :
      Move e (e.setReceiver fiber)
  | remoteAbort (recorded : Status) (hduties : e.duties .receiver = [])
      (hplace : e.receiver.place = .remoteAbort recorded) :
      Move e (Endpoint.setReceiver
        { e with
          remoteAborted := true
          trailers := none
          status := if e.status.isOk then recorded else e.status }
        { duties := [.finish none], place := .returned })
  | remoteHalfClose (trailers : ByteMap) (hduties : e.duties .receiver = [])
      (hplace : e.receiver.place = .halfClose trailers) :
      Move e (Endpoint.setReceiver
        { e with
          remoteHalfClosed := true
          trailers := some trailers
          handed := e.handed++[none] }
        { place := .callingEnd })
  | answer (hduties : e.duties .receiver = []) (hplace : e.receiver.place = .callingEnd) :
      Move e (e.setReceiver { duties := [.maybeFinish], place := .returned })
  | refuse (hrefused : refused) (status : Status) (hduties : e.duties .receiver = [])
      (hplace : e.receiver.place = .callingEnd) :
      Move e (e.setReceiver { duties := [.forceAbort status true], place := .returned })
  | watch (fiber : Fiber Timing) (hduties : e.duties .timing = []) (hdone : .done ∉ fiber.duties) :
      Move e (e.setTiming fiber)
  | notify (t : Thread) (rest : List Duty) (hduties : e.duties t = .notify::rest) :
      Move e (e.notify.setDuties rest t)
  | force (t : Thread) (status : Status) (canCommunicate : Bool) (rest : List Duty)
      (hduties : e.duties t = .forceAbort status canCommunicate::rest)
      (htimely : late ∨ (e.informs cfg status canCommunicate = true → ¬e.Took .halfClose)) :
      Move e ((e.forceAbort cfg status canCommunicate).1.setDuties
        ((e.forceAbort cfg status canCommunicate).2++rest) t)
  | settle (t : Thread) (rest : List Duty) (hduties : e.duties t = .maybeFinish::rest) :
      Move e (e.setDuties ((if e.ended then [.finish none] else [])++rest) t)
  | finish (t : Thread) (terminal : Option Status) (rest : List Duty)
      (hduties : e.duties t = .finish terminal::rest) (hopen : e.finished = false) :
      Move e ((e.finish terminal).setDuties
        ((.notify::if !e.doneCalled && e.started then [.done] else [])++rest) t)
  | finished (t : Thread) (terminal : Option Status) (rest : List Duty)
      (hduties : e.duties t = .finish terminal::rest) (hfinished : e.finished = true) :
      Move e (e.setDuties rest t)
  | done (t : Thread) (result : Status) (rest : List Duty) (hduties : e.duties t = .done::rest) :
      Move e ((e.doneReturned result).setDuties rest t)

end Moves

/-! ### Every step is a sequence of moves -/

section Steps

variable (cfg : Config) (late restarted refused : Prop)

abbrev Moves : Endpoint → Endpoint → Prop :=
  Relation.ReflTransGen (Move cfg late restarted refused)

variable {cfg late restarted refused} {e : Endpoint}

theorem write_written (cfg : Config) (e : Endpoint) (o : Outbound) (sent : Status) :
    ∃ written failure, write cfg e o sent = ({ e with written },failure) := by
  unfold write
  split
  · exact ⟨e.written,_,rfl⟩
  · split
    · exact ⟨e.written,_,rfl⟩
    · exact ⟨_,_,rfl⟩

theorem moves_written (e : Endpoint) (written : List (ℕ × Bytes)) :
    Moves cfg late restarted refused e { e with written } :=
  .single (.aside e.reassembler e.incoming e.incomingBytes e.connected written e.handed)

theorem entering_plain (message : WireMessage) :
    (entering message).place.plain = true ∧ .done ∉ (entering message).duties := by
  unfold entering
  split <;> simp [Call.plain]

theorem moves_enter {i : ℕ} {message : WireMessage} {ending : End} (expired : Bool)
    (hdut : e.duties (.call i) = []) (hpl : (e.calls i).place = .enter message ending) :
    Moves cfg late restarted refused e
      ((enter e message ending expired).1.setCall i (enter e message ending expired).2) := by
  have hold : (e.calls i).place.plain = true := by rw [hpl]; rfl
  unfold enter
  split
  · exact .single (.call i _ hdut hold rfl (by simp))
  next hover =>
  simp only [not_or,Bool.not_eq_true,not_not] at hover
  obtain ⟨-,hend,hopen⟩ := hover
  cases expired with
  | true => exact .single (.call i _ hdut hold rfl (by simp))
  | false =>
    rw [if_neg (by simp)]
    split_ifs with hdirect
    · rw [hdirect.1]
      exact .single (.claim i _ _ hdut hold hend)
    · exact .single (.queue i message ending hdut hold hend hopen)

theorem receivePacket_moves (e : Endpoint) (bytes : Bytes) :
    ∃ reassembler incoming incomingBytes duties, .done ∉ duties ∧
      receivePacket e bytes = ({ e with reassembler, incoming, incomingBytes },duties) := by
  unfold receivePacket
  split_ifs
  · exact ⟨e.reassembler,e.incoming,e.incomingBytes,[],by simp,rfl⟩
  dsimp only
  split
  · exact ⟨_,e.incoming,e.incomingBytes,_,by simp,rfl⟩
  · exact ⟨_,e.incoming,e.incomingBytes,_,by simp,rfl⟩
  · split_ifs
    · exact ⟨_,e.incoming,e.incomingBytes,_,by simp,rfl⟩
    · exact ⟨_,e.incoming,e.incomingBytes,_,by simp,rfl⟩
    · exact ⟨_,_,_,_,by simp,rfl⟩

theorem moves_callStep (i : ℕ) (reply : Reply) (hdut : e.duties (.call i) = [])
    (hopen : restarted ∨ StartsOpen e (.advance (.call i) reply)) :
    Moves cfg late restarted refused e ((callStep cfg e reply (e.calls i).place).1.setCall i
      (callStep cfg e reply (e.calls i).place).2) := by
  have hcall : ∀ (place : Call) (fiber : Fiber Call), (e.calls i).place = place →
      place.plain = true → fiber.place.plain = true → .done ∉ fiber.duties →
      Moves cfg late restarted refused e (e.setCall i fiber) :=
    fun _ fiber hpl hold hnew hdone => .single (.call i fiber hdut (hpl ▸ hold) hnew hdone)
  cases hpl : (e.calls i).place with
  | idle => exact hcall _ _ hpl rfl rfl List.not_mem_nil
  | enter message ending => exact moves_enter reply.expired hdut hpl
  | deliver o =>
    obtain ⟨written,failure,hwrite⟩ := write_written cfg e o reply.status
    simp only [callStep,hwrite]
    exact .tail (moves_written e written) (.handOver i o failure hdut hpl)
  | unclaim failure => exact .single (.unclaim i failure hdut hpl)
  | halfClose trailers =>
    simp only [callStep]
    split_ifs
    · exact hcall _ _ hpl rfl rfl (by simp)
    · split
      · exact hcall _ _ hpl rfl rfl (by simp)
      · exact hcall _ _ hpl rfl (entering_plain _).1 (entering_plain _).2
  | abort status =>
    simp only [callStep]
    split_ifs
    · exact hcall _ _ hpl rfl rfl (by simp)
    · exact hcall _ _ hpl rfl rfl (by simp)
    · split
      · exact hcall _ _ hpl rfl rfl (by simp)
      · exact hcall _ _ hpl rfl (entering_plain _).1 (entering_plain _).2
  | setDeadline | getStatus =>
    refine hcall _ _ hpl rfl rfl ?_
    simp only [callStep]
    split_ifs <;> simp
  | start accept =>
    simp only [callStep]
    split_ifs with hmay
    · refine .single (.start i hdut (by rw [hpl]; rfl) ?_ (hopen.imp_right fun h => h accept hdut hpl hmay))
      cases hst : e.started with
      | false => rfl
      | true => simp [mayStart,hst] at hmay
    · exact hcall _ _ hpl rfl rfl (by simp)
  | configure =>
    simp only [callStep]
    split_ifs
    · refine .tail (.single (.aside e.reassembler e.incoming e.incomingBytes true e.written e.handed)) ?_
      exact .configured i hdut hpl
    · exact .single (.unconfigured i reply.status hdut hpl)
  | schedule => exact .single (.launch i hdut hpl)
  | checkOpen =>
    simp only [callStep]
    split
    · exact hcall _ _ hpl rfl rfl (by simp)
    · exact hcall _ _ hpl rfl rfl (by simp)
  | check alreadyOpen =>
    simp only [callStep]
    refine .single (.opened i _ _ hdut (by rw [hpl]; rfl) ?_ ?_ ?_)
    · split_ifs <;> rfl
    · split_ifs <;> simp
    · cases alreadyOpen with
      | true => exact .inr ⟨by simp,by simp⟩
      | false => exact .inl (by simp)
  | openOperation | openChannel =>
    simp only [callStep]
    split_ifs <;> exact hcall _ _ hpl rfl rfl (by simp)
  | opened =>
    simp only [callStep]
    exact .single (.opened i true _ hdut (by rw [hpl]; rfl) rfl (by simp)
      (.inr ⟨rfl,by simp⟩))
  | packet bytes =>
    obtain ⟨reassembler,incoming,incomingBytes,duties,hdone,hreceive⟩ := receivePacket_moves e bytes
    simp only [callStep,hreceive]
    refine .tail (.single (.aside reassembler incoming incomingBytes e.connected e.written e.handed)) ?_
    exact .call i { duties, place := .idle } hdut (by simp [hpl,Call.plain]) rfl hdone
  | closed =>
    refine .single (.closed i _ hdut (by rw [hpl]; rfl) ?_)
    split_ifs with hexp
    · exact .inr ⟨rfl,by simpa using hexp⟩
    · exact .inl ⟨_,rfl⟩

theorem moves_takeNext (hdut : e.duties .sender = []) (hpl : e.sender.place = .take) :
    Moves cfg late restarted refused e ((takeNext cfg e).1.setSender (takeNext cfg e).2) := by
  unfold takeNext
  split
  · next hfin => exact .single (.leave hdut hpl hfin)
  split
  · next hnil => exact .single (.sleep hdut hpl (by simp [hnil]))
  next front rest hque =>
  split_ifs with hrdy
  · exact .single (.take front rest hdut hpl hque)
  refine .single (.sleep hdut hpl ?_)
  rintro ⟨hst,hopen,-,hsend⟩
  exact hrdy ⟨hst,hopen,by simp [hsend]⟩

theorem moves_senderStep (reply : Reply) (hdut : e.duties .sender = []) :
    Moves cfg late restarted refused e ((senderStep cfg e reply e.sender.place).1.setSender
      (senderStep cfg e reply e.sender.place).2) := by
  have hsame : ∀ s : Sender, e.sender.place = s →
      Moves cfg late restarted refused e (e.setSender { place := s }) := by
    rintro _ rfl
    have hfib : e.sender = { place := e.sender.place } := congrArg (Fiber.mk · e.sender.place) hdut
    rw [setSender,← hfib]
  cases hpl : e.sender.place with
  | absent | asleep | draining ending | returned => exact hsame _ hpl
  | take => exact moves_takeNext hdut hpl
  | write o =>
    obtain ⟨written,failure,hwrite⟩ := write_written cfg e o reply.status
    simp only [senderStep,hwrite]
    split
    · exact .tail (moves_written e written) (.wrote o hdut hpl)
    · exact .tail (moves_written e written) (.stop failure hdut (.inl ⟨o,hpl⟩))
  | drain ending =>
    simp only [senderStep]
    split_ifs with hfin
    · exact .single (.stopped ending hdut hpl hfin)
    · exact .single (.wait ending _ hdut (.inl hpl) (by simp))
  | measure ending notified =>
    simp only [senderStep]
    split
    · exact .single (.stop _ hdut (.inr ⟨ending,notified,hpl⟩))
    · exact .single (.wait ending _ hdut (.inr ⟨notified,hpl⟩) (by simp))
    · refine .single (.wait ending _ hdut (.inr ⟨notified,hpl⟩) ?_)
      cases notified <;> simp
  | publish ending => exact .single (.publish ending hdut hpl)
  | release leave => exact .single (.release leave hdut hpl)

theorem classify_done (bytes : Bytes) : .done ∉ (classify cfg bytes).duties := by
  unfold classify
  split
  · simp
  split_ifs
  · simp
  · split
    · simp
    · split <;> simp

theorem moves_receiverStep (reply : Reply) (hdut : e.duties .receiver = [])
    (hacc : refused ∨ Accepts e (.advance .receiver reply)) :
    Moves cfg late restarted refused e ((receiverStep cfg e reply e.receiver.place).1.setReceiver
      (receiverStep cfg e reply e.receiver.place).2) := by
  have hsame : ∀ r : Receiver, e.receiver.place = r →
      Moves cfg late restarted refused e (e.setReceiver { place := r }) := by
    rintro _ rfl
    have hfib : e.receiver = { place := e.receiver.place } := congrArg (Fiber.mk · e.receiver.place) hdut
    rw [setReceiver,← hfib]
  cases hpl : e.receiver.place with
  | absent | asleep | returned => exact hsame _ hpl
  | receive =>
    have hearly : e.receiver.place.early = true := by rw [hpl]; rfl
    simp only [receiverStep]
    split_ifs
    · exact .single (.receive _ hdut hearly (by simp))
    split
    · exact .single (.receive _ hdut hearly (by simp))
    next bytes rest hinc =>
    refine .tail (.single (.aside e.reassembler rest (e.incomingBytes-bytes.length) e.connected
      e.written e.handed)) ?_
    exact .receive (classify cfg bytes) hdut hearly (classify_done bytes)
  | check message =>
    have hearly : e.receiver.place.early = true := by rw [hpl]; rfl
    simp only [receiverStep]
    split_ifs
    · exact .single (.receive _ hdut hearly (by simp))
    · refine .tail (.single (.aside e.reassembler e.incoming e.incomingBytes e.connected e.written
        (e.handed++[some message]))) ?_
      exact .receive { place := .calling } hdut hearly (by simp)
  | calling =>
    refine .single (.receive _ hdut (by rw [hpl]; rfl) ?_)
    simp only [receiverStep]
    split_ifs <;> simp
  | remoteAbort recorded => exact .single (.remoteAbort recorded hdut hpl)
  | halfClose trailers => exact .single (.remoteHalfClose trailers hdut hpl)
  | callingEnd =>
    simp only [receiverStep]
    split_ifs with hok
    · exact .single (.answer hdut hpl)
    · refine .single (.refuse (hacc.resolve_right fun h => ?_) reply.status hdut hpl)
      exact hok (h hdut hpl)

theorem timingStep_done (e : Endpoint) (reply : Reply) (place : Timing) :
    .done ∉ (timingStep e reply place).duties := by
  unfold timingStep
  split
  · simp
  · simp
  · split_ifs
    · simp
    · split <;> simp

theorem moves_perform (t : Thread) (reply : Reply) {duty : Duty} {rest : List Duty}
    (hdut : e.duties t = duty::rest) (htimely : late ∨ Timely cfg e (.advance t reply)) :
    Moves cfg late restarted refused e ((duty.perform cfg e reply).1.setDuties
      ((duty.perform cfg e reply).2++rest) t) := by
  cases duty with
  | notify => exact .single (.notify t rest hdut)
  | forceAbort status canCommunicate =>
    refine .single (.force t status canCommunicate rest hdut (htimely.imp_right fun h => ?_))
    exact h status canCommunicate rest hdut
  | maybeFinish => exact .single (.settle t rest hdut)
  | finish terminal =>
    simp only [Duty.perform]
    split
    · next hfin => exact .single (.finished t terminal rest hdut hfin)
    · next hfin => exact .single (.finish t terminal rest hdut (by simpa using hfin))
  | done => exact .single (.done t reply.status rest hdut)

theorem entry_plain (entry : Entry) :
    entry.fiber.place.plain = true ∧ .done ∉ entry.fiber.duties := by
  cases entry with
  | send message => exact entering_plain message
  | abort status =>
    simp only [Entry.fiber]
    split_ifs <;> simp [Call.plain]
  | _ => simp [Entry.fiber,Call.plain]

theorem moves_step (e : Endpoint) (a : Action) (htimely : late ∨ Timely cfg e a)
    (hopen : restarted ∨ StartsOpen e a) (hacc : refused ∨ Accepts e a) :
    Moves cfg late restarted refused e (step cfg e a) := by
  cases a with
  | disconnect => exact .single (.aside e.reassembler e.incoming e.incomingBytes false e.written e.handed)
  | begin i entry =>
    simp only [step,begin]
    split_ifs with hskip
    · exact .refl
    simp only [Bool.or_eq_true,not_or] at hskip
    have hvacant : (e.calls i).duties = [] ∧ (e.calls i).place = .idle := by
      have hfree := hskip.2
      unfold Fiber.vacant at hfree
      split at hfree
      · next hdut hpl => exact ⟨hdut,hpl⟩
      · simp at hfree
    refine .single (.call i _ hvacant.1 ?_ (entry_plain entry).1 (entry_plain entry).2)
    rw [hvacant.2]
    rfl
  | advance t reply =>
    simp only [step,advance]
    split
    · next hdut =>
      cases t with
      | call i => exact moves_callStep i reply hdut hopen
      | sender => exact moves_senderStep reply hdut
      | receiver => exact moves_receiverStep reply hdut hacc
      | timing => exact .single (.watch _ hdut (timingStep_done e reply _))
    · next duty rest hdut => exact moves_perform t reply hdut htimely

end Steps

end A11.ChannelStream
