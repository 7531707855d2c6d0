import A11.InProcessChanges

/-! What the in-process stream delivers: as long as nobody aborts, the peer is given a
beginning of what was admitted, and the half-close only behind all of it. -/
namespace A11.InProcess

open WireStream Endpoint

/-! ### Both endpoints -/

def NoAbort (w : World) : Prop := ∀ x, (w x).localEnd ≠ .abort

structure Delivers (w : World) : Prop where
  own : ∀ x, Local (w x)
  flow : ∀ x, ∃ h, Claims (w x) h ∧ (NoAbort w → Flow (lane (w x) (w x.peer) h))

variable {e : Endpoint} {w : World} {x : Side}

/-- A step of one endpoint that also touches the other. -/
theorem Delivers.update (hw : Delivers w) {r : Endpoint} (he : Local e)
    (hr : Local r) (hstays : (w x).localEnd = .abort → e.localEnd = .abort)
    (hstays' : (w x.peer).localEnd = .abort → r.localEnd = .abort)
    (hthere : ∀ h, Claims (w x) h → ∃ h', Claims e h' ∧
      (e.localEnd ≠ .abort → Flow (lane (w x) (w x.peer) h) → Flow (lane e r h')))
    (hback : ∀ h, Claims (w x.peer) h → ∃ h', Claims r h' ∧
      (r.localEnd ≠ .abort → Flow (lane (w x.peer) (w x) h) → Flow (lane r e h'))) :
    Delivers ((w.put x e).put x.peer r) := by
  have hself : ((w.put x e).put x.peer r) x = e := by simp
  have hpeer : ((w.put x e).put x.peer r) x.peer = r := by simp
  have hbef : NoAbort ((w.put x e).put x.peer r) → NoAbort w := by
    intro hno y
    rcases x.eq_or_eq_peer y with rfl | rfl
    · exact fun habt => hno y (by rw [hself]; exact hstays habt)
    · exact fun habt => hno x.peer (by rw [hpeer]; exact hstays' habt)
  constructor
  · intro y
    rcases x.eq_or_eq_peer y with rfl | rfl
    · rwa [hself]
    · rwa [hpeer]
  · intro y
    obtain ⟨h,hclm,hflow⟩ := hw.flow y
    rcases x.eq_or_eq_peer y with rfl | rfl
    · obtain ⟨h',hclm',hflow'⟩ := hthere h hclm
      refine ⟨h',by rwa [hself],fun hno => ?_⟩
      rw [hself,hpeer]
      exact hflow' (by have := hno y; rwa [hself] at this) (hflow (hbef hno))
    obtain ⟨h',hclm',hflow'⟩ := hback h hclm
    rw [Side.peer_peer] at hflow ⊢
    refine ⟨h',by rwa [hpeer],fun hno => ?_⟩
    rw [hself,hpeer]
    exact hflow' (by have := hno x.peer; rwa [hpeer] at this) (hflow (hbef hno))

theorem Delivers.both (hw : Delivers w) {r : Endpoint}
    (he : Keeps (w x) e) (hr : Keeps (w x.peer) r) : Delivers ((w.put x e).put x.peer r) := by
  apply hw.update he.own hr.own he.stays hr.stays
  · intro h hclm
    obtain ⟨h',hclm',hflow⟩ := he.sends h hclm
    exact ⟨h',hclm',fun hend hlane => hr.hears _ _ (hflow hend _ hlane)⟩
  · intro h hclm
    obtain ⟨h',hclm',hflow⟩ := hr.sends h hclm
    exact ⟨h',hclm',fun hend hlane => he.hears _ _ (hflow hend _ hlane)⟩

theorem put_peer_same (w : World) (x : Side) (e : Endpoint) :
    (w.put x e).put x.peer (w x.peer) = w.put x e := by
  funext y
  rcases x.eq_or_eq_peer y with rfl | rfl
  · simp
  · simp

theorem Delivers.put (hw : Delivers w) (he : Keeps (w x) e) : Delivers (w.put x e) := by
  rw [← put_peer_same]
  exact hw.both he (.refl (hw.own x.peer))

theorem Local.accept (h : Local e) (payload : Bytes) : Local (e.accept payload) := by
  refine { h with dormant := ?_, vacant := ?_ }
  · intro hstart
    obtain ⟨hsnd,hrcv⟩ := h.dormant hstart
    exact ⟨hsnd,by simp [Endpoint.accept,hrcv,Receiver.woken]⟩
  · intro hgone
    rcases h.vacant hgone with hr | hr
    · exact .inl (by simp [Endpoint.accept,hr,Receiver.woken])
    · exact .inr (by simp [Endpoint.accept,hr,Receiver.woken])

/-- The message in flight arrives in the peer's buffer. -/
theorem Flow.transmit {s s' r : Endpoint} {h : Holder} {o : Outbound} {payload : Bytes}
    (hflow : Flow (lane s r h)) (hfl : flight s h = [o]) (hfl' : flight s' h = [])
    (henc : o.message.Encodes payload) (hadm : s'.admitted = s.admitted)
    (hend : s'.localEnd = s.localEnd) (hfin : s'.transportFinished = s.transportFinished)
    (hout : s'.outbound = s.outbound) (hfail : s'.sender.failing = s.sender.failing) :
    Flow (lane s' (r.accept payload) h) := by
  refine hflow.pass ⟨hadm,by simp [lane,hend],by simp [lane,accept]⟩
    fun hlis => ⟨by simpa [lane,accept] using hlis,fun rest buffered lost hon =>
      ⟨buffered++[o],lost,?_⟩⟩
  have hsame : buffered++[o]++(lane s' (r.accept payload) h).flight++
      (lane s' (r.accept payload) h).queue =
        buffered++(lane s r h).flight++(lane s r h).queue := by
    simp [lane,hfl,hfl',hout]
  refine ⟨hfail.trans hon.failing,by rw [hsame]; exact hon.sound,?_,by rw [hsame]; exact hon.rest,
    ?_⟩
  · exact List.rel_append hon.buffer (.cons henc .nil)
  · intro hopen
    exact hon.lost (hfin.symm.trans hopen)

theorem delivers_deliverClaimed (cfg : Config) (hw : Delivers w) {i : ℕ}
    {message : WireMessage} (hcall : (w x).calls i = .deliver message) :
    Delivers (deliverClaimed cfg w x i message) := by
  have hclaim : ∀ (delivered : Bool) h, Claims (w x) h →
      h = .call i ∧ Claims ((w x).setCall i (.release message delivered)) h := by
    intro delivered h hclm
    obtain rfl := hclm.of_call (i := i) (by rw [hcall]; rfl)
    refine ⟨rfl,hclm.congr rfl rfl fun j => ?_⟩
    rw [setCall_calls]
    split_ifs with hj
    · rw [hj,hcall]
      rfl
    · rfl
  have hback : Delivers (w.put x ((w x).setCall i (.release message false))) := by
    refine hw.put ⟨id,(hw.own x).setCall i (by simp),?_,.of_same fun _ _ => rfl⟩
    intro h hclm
    obtain ⟨rfl,hclm'⟩ := hclaim false h hclm
    refine ⟨.call i,hclm',fun _ r hflow => ?_⟩
    have hlane : lane ((w x).setCall i (.release message false)) r (.call i) =
        lane (w x) r (.call i) := by
      simp [lane,flight,setCall,hcall,Call.flight]
    rwa [hlane]
  unfold deliverClaimed
  cases henc : message.toMsgpack cfg.packer with
  | error status => exact hback
  | ok payload =>
    dsimp only
    split_ifs with hroom
    · apply hw.update ((hw.own x).setCall i (by simp)) ((hw.own x.peer).accept payload) id id
      · intro h hclm
        obtain ⟨rfl,hclm'⟩ := hclaim true h hclm
        refine ⟨.call i,hclm',fun _ hflow => hflow.transmit (o := { message }) ?_ ?_ ⟨_,henc⟩
          rfl rfl rfl rfl rfl⟩
        · simp [flight,hcall,Call.flight]
        · simp [flight,setCall,Call.flight]
      · intro h hclm
        exact ⟨h,hclm.congr rfl rfl fun _ => rfl,fun _ hflow => hflow⟩
    · exact hback

/-- The sender moves on with the claim in hand. -/
theorem Local.sender (h : Local e) (hholds : e.sender.holds = true)
    {next : Sender} (hnext : ∀ o payload, next = .deliver o payload ∨ next = .blocked o payload →
      o.message.Encodes payload) : Local (e.setSender next) := by
  refine { h with delivering := hnext, dormant := ?_ }
  intro hstart
  rw [(h.dormant hstart).1] at hholds
  cases hholds

theorem delivers_deliver (hw : Delivers w) {o : Outbound} {payload : Bytes}
    (hsnd : (w x).sender = .deliver o payload) : Delivers (deliver w x o payload) := by
  have hholds : (w x).sender.holds = true := by rw [hsnd]; rfl
  have henc := (hw.own x).delivering o payload (.inl hsnd)
  have hclaim : ∀ next : Sender, next.holds = true → ∀ h, Claims (w x) h →
      h = .fiber ∧ Claims ((w x).setSender next) h := by
    intro next hnext h hclm
    exact ⟨hclm.of_fiber hholds,hclm.congr rfl (hnext.trans hholds.symm) fun _ => rfl⟩
  -- the peer can no longer hear: nothing is promised about the message
  have hfail : ∀ status, (lane (w x) (w x.peer) .fiber).listening = false →
      Delivers (w.put x ((w x).setSender (.forceAbort status true))) := by
    intro status hdeaf
    rw [← put_peer_same]
    have hloc : Local ((w x).setSender (.forceAbort status true)) :=
      (hw.own x).sender hholds (by simp)
    apply hw.update hloc (hw.own x.peer) (fun h => h) id
    · intro h hclm
      obtain ⟨rfl,hclm'⟩ := hclaim (.forceAbort status true) rfl h hclm
      exact ⟨.fiber,hclm',fun _ hflow => hflow.deaf rfl rfl rfl (.inl rfl) hdeaf⟩
    · exact fun h hclm => ⟨h,hclm,fun _ hflow => hflow⟩
  unfold deliver
  dsimp only
  generalize hwait : (if o.ending = .none then Sender.release false else .sent o.ending) = next
  split_ifs with hgone hfin hroom
  · exact hfail _ (by simp [lane,hgone])
  · exact hfail _ (by simp [lane,hfin])
  · have hnext : next.holds = true ∧ next.flight = [] ∧ next.failing = false := by
      rw [← hwait]
      split_ifs <;> exact ⟨rfl,rfl,rfl⟩
    have hloc : Local ((w x).setSender next) := by
      apply (hw.own x).sender hholds
      rintro o' payload' (hs | hs) <;> rw [hs] at hnext <;> cases hnext.2.1
    apply hw.update hloc ((hw.own x.peer).accept payload) (fun h => h) id
    · intro h hclm
      obtain ⟨rfl,hclm'⟩ := hclaim _ hnext.1 h hclm
      refine ⟨.fiber,hclm',fun _ hflow => hflow.transmit (o := o) ?_ ?_ henc rfl rfl rfl rfl ?_⟩
      · simp [flight,hsnd,Sender.flight]
      · exact hnext.2.1
      · rw [hsnd]
        exact hnext.2.2
    · intro h hclm
      exact ⟨h,hclm.congr rfl rfl fun _ => rfl,fun _ hflow => hflow⟩
  · refine hw.put ⟨id,(hw.own x).sender hholds ?_,?_,.of_same fun _ _ => rfl⟩
    · rintro o' payload' (hs | hs)
      · cases hs
      · cases hs
        exact henc
    · refine .of_same rfl (by rw [hsnd]; rfl) (fun _ => rfl) fun _ h => ?_
      cases h <;> simp only [lane,flight,hsnd] <;> rfl

theorem delivers_finish (hw : Delivers w)
    {resume : Bool → Endpoint → Endpoint} (hres : Keeps (w x) (resume false (w x)))
    (hfin : ∀ callback, Keeps (w x) (resume callback (w x).finished)) :
    Delivers (finish w x resume) := by
  unfold finish
  dsimp only
  split_ifs
  · exact hw.put hres
  · exact hw.both (hfin _) (keeps_unblocked (hw.own x.peer))

theorem doneReturned_eq (e : Endpoint) (result : Status) :
    e.doneReturned result = { e with status := (e.doneReturned result).status } := by
  unfold doneReturned
  split_ifs <;> rfl

variable (cfg : Config)

theorem delivers_senderStep (hw : Delivers w) (x : Side)
    (result : Status) : Delivers (senderStep cfg w x result) := by
  have hloc := hw.own x
  unfold senderStep
  dsimp only
  cases hsnd : (w x).sender with
  | absent | asleep | blocked o payload | returned => exact hw
  | idle => exact hw.put (keeps_takeNext cfg hloc hsnd)
  | deliver o payload => exact delivers_deliver hw hsnd
  | forceAbort status leave => exact hw.put (keeps_sender_forceAbort cfg hloc hsnd)
  | sent ending =>
    apply hw.put
    apply keeps_sender hloc rfl <;> simp [hsnd,Sender.holds,Sender.flight,Sender.failing]
  | maybeFinish =>
    apply hw.put
    split_ifs <;> apply keeps_sender hloc rfl <;>
      simp [hsnd,Sender.holds,Sender.flight,Sender.failing]
  | finish =>
    apply delivers_finish hw
    · apply keeps_sender hloc rfl <;> simp [hsnd,Sender.holds,Sender.flight,Sender.failing]
    · exact keeps_finished_sender hloc hsnd
  | done =>
    apply hw.put
    rw [doneReturned_eq]
    apply keeps_sender hloc rfl <;> simp [hsnd,Sender.holds,Sender.flight,Sender.failing]
  | release leave => exact hw.put (keeps_release_claim hloc hsnd)

theorem delivers_receiverStep (hw : Delivers w) (x : Side)
    (result : Status) : Delivers (receiverStep cfg w x result) := by
  have hloc := hw.own x
  unfold receiverStep
  dsimp only
  cases hrcv : (w x).receiver with
  | absent | asleep | returned => exact hw
  | idle =>
    unfold receiveNext
    dsimp only
    split_ifs with hfin
    · apply hw.put
      apply keeps_receiver_next hloc rfl (by simp [hrcv]) rfl (.inl rfl)
    split
    · apply hw.put
      apply keeps_receiver_next hloc rfl (by simp [hrcv]) rfl
      exact .inr ⟨by rw [hrcv]; rfl,by rw [hrcv]; rfl⟩
    next payload rest hinc =>
    apply hw.both _ (keeps_unblocked (hw.own x.peer))
    apply keeps_receiver hloc rfl (by simp [hrcv])
    exact hears_pick cfg hloc hrcv (by simpa using hfin) hinc rfl rfl rfl
  | check message =>
    dsimp only
    split_ifs
    · apply hw.put
      exact keeps_receiver_next hloc rfl (by simp [hrcv]) rfl (.inl rfl)
    · exact hw.put (keeps_check hloc hrcv)
  | calling =>
    apply hw.put
    split_ifs
    · apply keeps_receiver_next hloc rfl (by simp [hrcv]) rfl
      exact .inr ⟨by rw [hrcv]; rfl,by rw [hrcv]; rfl⟩
    · exact keeps_receiver_next hloc rfl (by simp [hrcv]) rfl (.inl rfl)
  | forceAbort status =>
    have habt := keeps_forceAbort cfg hloc status
    have hrun : ((w x).forceAbort cfg status).receiver = .forceAbort status := by
      rcases forceAbort_cases cfg (w x) status with heq | ⟨_,_,-,-,-,-,heq⟩ <;> rw [heq] <;>
        exact hrcv
    apply hw.put
    apply habt.trans
    exact keeps_receiver_next habt.own rfl (by simp [hrun]) rfl (.inl rfl)
  | remoteAbort recorded =>
    apply hw.put
    exact keeps_receiver_next hloc rfl (by simp [hrcv]) rfl (.inl rfl)
  | halfClose trailers => exact hw.put (keeps_receiver_halfClose hloc hrcv)
  | callingEnd | maybeFinish =>
    apply hw.put
    split_ifs <;> exact keeps_receiver_next hloc rfl (by simp [hrcv]) rfl (.inl rfl)
  | finish =>
    apply delivers_finish hw
    · exact keeps_receiver_next hloc rfl (by simp [hrcv]) rfl (.inl rfl)
    · exact keeps_finished_receiver hloc hrcv
  | done =>
    apply hw.put
    rw [doneReturned_eq]
    exact keeps_receiver_next hloc rfl (by simp [hrcv]) rfl (.inl rfl)

theorem delivers_callStep (hw : Delivers w) (x : Side) (i : ℕ)
    (expired : Bool) : Delivers (callStep cfg w x i expired) := by
  have hloc := hw.own x
  unfold callStep
  dsimp only
  cases hcall : (w x).calls i with
  | idle => exact hw
  | prepared message ending => exact hw.put (keeps_admission hloc hcall expired)
  | deliver message => exact delivers_deliverClaimed cfg hw hcall
  | release message delivered => exact hw.put (keeps_releaseClaim hloc hcall)
  | forceAbort status =>
    have habt := keeps_forceAbort cfg hloc status
    have hcalls : ((w x).forceAbort cfg status).calls = (w x).calls := by
      rcases forceAbort_cases cfg (w x) status with heq | ⟨_,_,-,-,-,-,heq⟩ <;> rw [heq]
    apply hw.put
    apply habt.trans
    exact keeps_setCall habt.own (by rw [hcalls,hcall]; rfl) rfl (by simp)

theorem delivers_send (hw : Delivers w) (x : Side) (i : ℕ) (message : WireMessage) :
    Delivers (send w x i message) := by
  unfold send
  by_cases hidle : isIdle ((w x).calls i) = true
  · rw [if_neg (by simp [hidle])]
    cases hprepare : prepare message with
    | error status => exact hw
    | ok prepared =>
      split_ifs
      · exact hw
      apply hw.put
      apply keeps_setCall (hw.own x) (Call.not_holds_of_isIdle hidle) rfl
      intro message' ending' heq
      cases heq
      exact prepare_sound hprepare
  · rw [if_pos (by simp [hidle])]
    exact hw

theorem delivers_step (w : World) (action : Action) (hw : Delivers w) :
    Delivers (step cfg w action) := by
  cases action with
  | start x i expired => exact hw.put (keeps_start (hw.own x) i expired)
  | send x i message => exact delivers_send hw x i message
  | call x i expired => exact delivers_callStep cfg hw x i expired
  | halfClose x i trailers expired => exact hw.put (keeps_halfClose (hw.own x) i trailers expired)
  | abort x i status expired => exact hw.put (keeps_abort cfg (hw.own x) i status expired)
  | setDeadline x i =>
    refine hw.put ?_
    unfold setDeadline
    split_ifs with hidle
    · exact keeps_overdue (hw.own x) hidle
    · exact .refl (hw.own x)
  | sender x result => exact delivers_senderStep cfg hw x result
  | receiver x result => exact delivers_receiverStep cfg hw x result
  | watch x overdue => exact hw.put (keeps_watchTiming cfg (hw.own x) overdue)
  | release x => exact hw.put (keeps_release (hw.own x))

theorem delivers_createPair {first second : Options}
    (h : createPair first second = .ok w) : Delivers w := by
  obtain ⟨hfst,hrest⟩ := StatusOr.check_bind_eq_ok.mp h
  obtain ⟨hsec,hworld⟩ := StatusOr.check_bind_eq_ok.mp hrest
  cases hworld
  have hloc : ∀ o : Options, o.validate = .ok () → Local { options := o } := fun o ho =>
    ⟨ho,by simp,by simp,by simp,by simp,by simp⟩
  have hclm : ∀ o : Options, Claims { options := o } .nobody := fun o =>
    ⟨by simp,by simp [Sender.holds],by simp [Call.holds]⟩
  have hflow : ∀ o o' : Options, Flow (lane { options := o } { options := o' } .nobody) := fun o o' =>
    ⟨[],⟨rfl,rfl,rfl⟩,fun _ => ⟨[],[],rfl,by simp [lane,flight],.nil,rfl,fun _ => rfl⟩⟩
  constructor
  · intro x
    cases x
    · exact hloc first hfst
    · exact hloc second hsec
  · intro x
    cases x
    · exact ⟨.nobody,hclm first,fun _ => hflow first second⟩
    · exact ⟨.nobody,hclm second,fun _ => hflow second first⟩

/-- As long as no endpoint has aborted, the fragments and actions handed to an endpoint's
callback are a beginning of those its peer has admitted, each as its encoding carries it, and
the half-close is handed over after all of them. -/
theorem handed_begins (cfg : Config) {first second : Options} {w : World}
    (hcreate : createPair first second = .ok w) (actions : List Action)
    (hno : NoAbort (run cfg w actions)) (x : Side) :
    let sender := run cfg w actions x
    let handed := (run cfg w actions x.peer).handed
    let fragments := (sender.admitted.flatMap WireMessage.nodeFragments).map NodeFragment.carried
    let admittedActions := sender.admitted.flatMap WireMessage.actions
    fragmentsOf handed <+: fragments ∧ actionsOf handed <+: admittedActions ∧
      ∀ before after, handed = before++none::after → after = [] ∧
        sender.localEnd = .halfClose ∧ fragmentsOf before = fragments ∧
        actionsOf before = admittedActions := by
  have hdelivers : Delivers (run cfg w actions) :=
    Runs.after_invariant (delivers_step cfg) (delivers_createPair hcreate) actions
  obtain ⟨h,-,hflow⟩ := hdelivers.flow x
  obtain ⟨rest,hord,-⟩ := hflow hno
  have hterm := hord.terminated
  have hfrag := hord.fragments
  have hact := hord.actions
  rw [List.append_assoc] at hterm hfrag hact
  generalize (lane (run cfg w actions x) (run cfg w actions x.peer) h).hand++rest = behind
    at hterm hfrag hact
  refine ⟨⟨fragmentsOf behind,?_⟩,⟨actionsOf behind,?_⟩,?_⟩
  · rw [← fragmentsOf_append]
    exact hfrag
  · rw [← actionsOf_append]
    exact hact
  · intro before after hhanded
    have hlane : (lane (run cfg w actions x) (run cfg w actions x.peer) h).handed =
        before++none::after := hhanded
    rw [hlane] at hterm hfrag hact
    rw [List.append_assoc] at hterm
    obtain ⟨hnothing,hend⟩ := hterm.after_none
    obtain ⟨rfl,rfl⟩ := List.append_eq_nil_iff.mp hnothing
    refine ⟨rfl,by simpa [lane] using hend,?_,?_⟩
    · simpa [lane] using hfrag
    · simpa [lane] using hact

/-! ### Two runs -/

def plainConfig : Config where
  packer := .shortest
  packStatus _ := .ok []
  unpackStatus _ := .ok .okStatus
  estimate _ := 0

def plainPair : World
  | .first => { options := {} }
  | .second => { options := {} }

def fragmentMessage (id : UInt8) (timestamp : Option ℤ) : WireMessage :=
  { nodeFragments := [{ id := [id], data := .chunk { metadata := some ⟨[],timestamp,.empty⟩ } }] }

/-- One message straight into the peer's buffer, a second one and the half-close through the
queue, all received. -/
def halfClosedRun : List Action := [
  .start .first 0 false,.start .second 0 false,
  .send .first 0 (fragmentMessage 97 none),.call .first 0 false,
  .send .first 1 (fragmentMessage 98 none),.call .first 1 false,
  .halfClose .first 2 .empty false,
  .call .first 0 false,.call .first 0 false,
  .sender .first .okStatus,.sender .first .okStatus,.sender .first .okStatus,
  .sender .first .okStatus,.sender .first .okStatus,
  .receiver .second .okStatus,.receiver .second .okStatus,.receiver .second .okStatus,
  .receiver .second .okStatus,.receiver .second .okStatus,.receiver .second .okStatus,
  .receiver .second .okStatus,.receiver .second .okStatus]

theorem handed_begins_halfClosed :
    createPair {} {} = .ok plainPair ∧
      (run plainConfig plainPair halfClosedRun .second).handed =
        [some (fragmentMessage 97 none),some (fragmentMessage 98 none),none] ∧
      fragmentsOf (run plainConfig plainPair halfClosedRun Side.first.peer).handed <+:
        ((run plainConfig plainPair halfClosedRun .first).admitted.flatMap
          WireMessage.nodeFragments).map NodeFragment.carried := by
  have hcre : createPair {} {} = .ok plainPair := by
    have : plainPair = fun
        | .first => ({ options := {} } : Endpoint)
        | .second => ({ options := {} } : Endpoint) := by
      funext x
      cases x <;> rfl
    rfl
  refine ⟨hcre,by decide,?_⟩
  refine (handed_begins plainConfig hcre halfClosedRun ?_ .first).1
  intro x
  cases x <;> decide

/-- A timestamp of a quarter of a nanosecond. -/
def tickRun : List Action := [
  .start .first 0 false,.start .second 0 false,
  .send .first 0 (fragmentMessage 97 (some 1)),.call .first 0 false,.call .first 0 false,
  .call .first 0 false,
  .receiver .second .okStatus,.receiver .second .okStatus]

theorem tickRun_rounds :
    (∀ x, (run plainConfig plainPair tickRun x).localEnd ≠ .abort) ∧
      fragmentsOf (run plainConfig plainPair tickRun .second).handed ≠ [] ∧
      ¬ fragmentsOf (run plainConfig plainPair tickRun .second).handed <+:
        (run plainConfig plainPair tickRun .first).admitted.flatMap WireMessage.nodeFragments := by
  refine ⟨?_,by decide,by decide⟩
  intro x
  cases x <;> decide

end A11.InProcess
