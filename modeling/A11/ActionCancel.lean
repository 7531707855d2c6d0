import A11.DataTypes
import A11.Runs

/-! Calling a remote action and cancelling it. Every critical section under the action's
mutex and every message handed to the stream is one step of the fiber that runs it. -/
namespace A11.Action
open Function Runs

inductive Mode
  | none | run | call | cancelled
  deriving DecidableEq

def cancelledStatus : Status := .cancelled "Action was cancelled"

/-- What has been handed to the stream: the action itself, and a cancel message with its own
id, naming the action in its header. -/
inductive Sent
  | call (id : Bytes) (headers : ByteMap)
  | cancel (own target : Bytes)
  deriving DecidableEq

/-- Where a fiber stands in `Call` or `Cancel`. -/
inductive Fiber
  | idle
  | begin (headers : ByteMap)
  | startSpan (headers : ByteMap)
  | injectContext (headers : ByteMap)
  | track (headers : ByteMap)
  | send (headers : ByteMap)
  | untrack
  | abandon
  | request
  | notify (mode : Mode)
  | sendRemoteCancel
  | completeCall
  | startFinish
  | markCancelled
  deriving DecidableEq

structure State where
  id : Bytes
  mode : Mode := .none
  cancelRequested : Bool := false
  completionStatus : Option Status := none
  finishing : Bool := false
  tracked : Bool := false
  fibers : ℕ → Fiber := fun _ => .idle
  sent : List Sent := []

def State.setFiber (s : State) (i : ℕ) (f : Fiber) : State :=
  { s with fibers := update s.fibers i f }

/-- What a step meets outside the action. -/
structure Reply where
  spanStatus : Status := .okStatus
  hasSession : Bool := false
  trackStatus : Status := .okStatus
  sendStatus : Status := .okStatus
  cancelId : Bytes := []

/-! ### Call -/

/-- `Begin(Mode::kCall)` -/
def begin (s : State) (i : ℕ) (headers : ByteMap) : State :=
  if s.cancelRequested then s.setFiber i .idle
  else if s.mode ≠ .none then s.setFiber i .idle
  else State.setFiber { s with mode := .call } i (.startSpan headers)

def send (s : State) (i : ℕ) (headers : ByteMap) (reply : Reply) : State :=
  if reply.sendStatus.isOk then
    State.setFiber { s with sent := s.sent++[.call s.id headers] } i .idle
  else s.setFiber i .untrack

/-! ### Cancel -/

def request (s : State) (i : ℕ) : State :=
  if s.completionStatus.isSome || s.finishing || s.cancelRequested then s.setFiber i .idle
  else State.setFiber { s with cancelRequested := true } i (.notify s.mode)

/-- The callbacks and the children have been told. -/
def afterNotify : Mode → Fiber
  | .call => .sendRemoteCancel
  | .run => .startFinish
  | .none => .markCancelled
  | .cancelled => .idle

def sendRemoteCancel (s : State) (i : ℕ) (reply : Reply) : State :=
  if reply.sendStatus.isOk then
    State.setFiber { s with sent := s.sent++[.cancel reply.cancelId s.id] } i .completeCall
  else s.setFiber i .completeCall

/-- A completion status is recorded once. -/
def completeCall (s : State) (status : Status) : State :=
  match s.completionStatus with
  | some _ => s
  | none => { s with completionStatus := some status }

def startFinish (s : State) : State :=
  if s.finishing || s.completionStatus.isSome then s else { s with finishing := true }

def advance (s : State) (i : ℕ) (reply : Reply) : State :=
  match s.fibers i with
  | .idle => s
  | .begin headers => begin s i headers
  | .startSpan headers =>
    if reply.spanStatus.isOk then s.setFiber i (.injectContext headers) else s.setFiber i .abandon
  | .injectContext headers =>
    s.setFiber i (if reply.hasSession then .track headers else .send headers)
  | .track headers =>
    if reply.trackStatus.isOk then State.setFiber { s with tracked := true } i (.send headers)
    else s.setFiber i .abandon
  | .send headers => send s i headers reply
  | .untrack => State.setFiber { s with tracked := false } i .abandon
  | .abandon => State.setFiber { s with mode := .none } i .idle
  | .request => request s i
  | .notify mode => s.setFiber i (afterNotify mode)
  | .sendRemoteCancel => sendRemoteCancel s i reply
  | .completeCall => (completeCall s cancelledStatus).setFiber i .idle
  | .startFinish => (startFinish s).setFiber i .idle
  | .markCancelled =>
    State.setFiber { s with mode := .cancelled, completionStatus := some cancelledStatus } i .idle

inductive Act
  | call (i : ℕ) (headers : ByteMap)
  | cancel (i : ℕ)
  | advance (i : ℕ) (reply : Reply)
  /-- The callee's status has arrived. -/
  | complete (status : Status)

def step (s : State) : Act → State
  | .call i headers => if s.fibers i = .idle then s.setFiber i (.begin headers) else s
  | .cancel i => if s.fibers i = .idle then s.setFiber i .request else s
  | .advance i reply => advance s i reply
  | .complete status => if s.mode = .call then completeCall s status else s

def start (id : Bytes) : State := { id := id }

/-! ### What every run keeps -/

/-- The fiber has begun a call and has not settled it. -/
def Fiber.calling : Fiber → Bool
  | .startSpan _ | .injectContext _ | .track _ | .send _ | .untrack | .abandon => true
  | _ => false

/-- The fiber will still tell the callee. -/
def Fiber.cancelling : Fiber → Bool
  | .notify .call | .sendRemoteCancel => true
  | _ => false

/-- The cancel message stands behind the action's own. -/
def Ordered (s : State) : Prop :=
  ∃ headers own before behind,
    s.sent = before++.cancel own s.id::behind ∧ Sent.call s.id headers ∈ before

def Called (s : State) : Prop := ∃ headers, Sent.call s.id headers ∈ s.sent

/-- Every message the step hands to the stream is accepted, and a cancel message is not handed
over while a call has begun and not handed over its own. -/
def InTurn (s : State) : Act → Prop
  | .advance i reply =>
    ((s.fibers i = .sendRemoteCancel ∨ ∃ headers, s.fibers i = .send headers) →
      reply.sendStatus.isOk = true) ∧
    (s.fibers i = .sendRemoteCancel → ∀ j, (s.fibers j).calling = false)
  | _ => True

structure Inv (s : State) : Prop where
  /-- Only the fiber that began the call may be under way with it. -/
  single : ∀ i j, (s.fibers i).calling = true → (s.fibers j).calling = true → i = j
  calling : ∀ i, (s.fibers i).calling = true → s.mode = .call ∧ ¬Called s
  called : Called s → s.mode = .call
  notified : ∀ i mode, s.fibers i = .notify mode → s.cancelRequested = true ∧
    (mode ≠ .call → ¬Called s ∧ ∀ j, (s.fibers j).calling = false)
  marking : ∀ i, s.fibers i = .markCancelled → s.cancelRequested = true ∧ ¬Called s ∧
    ∀ j, (s.fibers j).calling = false
  told : s.cancelRequested = true → Called s ∨ (∃ j, (s.fibers j).calling = true) →
    (∃ i, (s.fibers i).cancelling = true) ∨ Ordered s

section Steps

variable {s t : State} {i : ℕ} {f : Fiber}

theorem of_update (hfib : t.fibers = update s.fibers i f) {j : ℕ} {g : Fiber}
    (hj : t.fibers j = g) : s.fibers j = g ∧ j ≠ i ∨ j = i ∧ f = g := by
  rw [hfib] at hj
  by_cases heq : j = i
  · exact .inr ⟨heq,by rwa [heq,update_self] at hj⟩
  · exact .inl ⟨by rwa [update_of_ne heq] at hj,heq⟩

theorem of_update_ne (hfib : t.fibers = update s.fibers i f) {j : ℕ} {g : Fiber}
    (hne : f ≠ g) (hj : t.fibers j = g) : s.fibers j = g :=
  (of_update hfib hj).elim And.left fun hf => absurd hf.2 hne

theorem update_eq_of (p : Fiber → Bool) (hfib : t.fibers = update s.fibers i f)
    (hsame : p f = p (s.fibers i)) (j : ℕ) : p (t.fibers j) = p (s.fibers j) := by
  rw [hfib]
  by_cases hj : j = i
  · rw [hj,update_self,hsame]
  · rw [update_of_ne hj]

/-- A step that changes neither what was sent nor the flags the other fibers read. -/
theorem Inv.keep (h : Inv s) (hfib : t.fibers = update s.fibers i f)
    (hsent : t.sent = s.sent) (hid : t.id = s.id) (hmode : t.mode = s.mode)
    (hrequested : t.cancelRequested = s.cancelRequested)
    (hcalling : f.calling = (s.fibers i).calling)
    (hcancelling : f.cancelling = (s.fibers i).cancelling)
    (hnotify : ∀ mode, f = .notify mode → s.fibers i = .notify mode)
    (hmark : f = .markCancelled → s.fibers i = .markCancelled ∨ s.fibers i = .notify .none) :
    Inv t := by
  have hsame := update_eq_of Fiber.calling hfib hcalling
  have hkept := update_eq_of Fiber.cancelling hfib hcancelling
  have hcal : Called t ↔ Called s := by rw [Called,Called,hsent,hid]
  have hord : Ordered t ↔ Ordered s := by rw [Ordered,Ordered,hsent,hid]
  constructor
  · intro j k
    rw [hsame,hsame]
    exact h.single j k
  · intro j
    rw [hsame,hmode,hcal]
    exact h.calling j
  · rw [hcal,hmode]
    exact h.called
  · intro j mode hj
    simp only [hsame,hrequested,hcal]
    rcases of_update hfib hj with ⟨hj,-⟩ | ⟨-,hf⟩
    · exact h.notified j mode hj
    · exact h.notified i mode (hnotify mode hf)
  · intro j hj
    simp only [hsame,hrequested,hcal]
    rcases of_update hfib hj with ⟨hj,-⟩ | ⟨-,hf⟩
    · exact h.marking j hj
    rcases hmark hf with hi | hi
    · exact h.marking i hi
    · obtain ⟨hreq,hquiet⟩ := h.notified i .none hi
      exact ⟨hreq,hquiet (by decide)⟩
  · simp only [hsame,hrequested,hcal,hkept,hord]
    exact h.told

/-- While a call is under way nobody saw the action without one. -/
theorem Inv.underway (h : Inv s) (hcal : (s.fibers i).calling = true) (j : ℕ) :
    s.fibers j ≠ .markCancelled ∧ ∀ mode, s.fibers j = .notify mode → mode = .call := by
  constructor
  · intro hj
    rw [(h.marking j hj).2.2 i] at hcal
    cases hcal
  · intro mode hj
    by_contra hmode
    rw [((h.notified j mode hj).2 hmode).2 i] at hcal
    cases hcal

/-- The fiber that was under way with the call has settled it. -/
theorem Inv.settled (h : Inv s) (hcal : (s.fibers i).calling = true)
    (hfib : t.fibers = update s.fibers i .idle)
    (hrequested : t.cancelRequested = s.cancelRequested) (hcalled : Called t → t.mode = .call)
    (htold : t.cancelRequested = true → Called t →
      (∃ i, (t.fibers i).cancelling = true) ∨ Ordered t) : Inv t := by
  have hnone (j : ℕ) : (t.fibers j).calling ≠ true := by
    intro hj
    rcases of_update hfib rfl with ⟨hsame,hne⟩ | ⟨-,hidle⟩
    · rw [← hsame] at hj
      exact hne (h.single j i hj hcal)
    · rw [← hidle] at hj
      cases hj
  refine ⟨fun j _ hj => absurd hj (hnone j),fun j hj => absurd hj (hnone j),hcalled,?_,?_,?_⟩
  · intro j mode hj
    have hj := of_update_ne hfib (by simp) hj
    rw [hrequested]
    exact ⟨(h.notified j mode hj).1,fun hne => absurd ((h.underway hcal j).2 mode hj) hne⟩
  · exact fun j hj => absurd (of_update_ne hfib (by simp) hj) (h.underway hcal j).1
  · rintro hreq (hcall | ⟨j,hj⟩)
    · exact htold hreq hcall
    · exact absurd hj (hnone j)

/-- Nobody is under way with a call, and none was handed over. -/
theorem Inv.quiet (h : Inv s) (hmode : s.mode ≠ .call) :
    ¬Called s ∧ ∀ j, (s.fibers j).calling = false := by
  refine ⟨fun hcal => hmode (h.called hcal),fun j => ?_⟩
  by_contra hj
  exact hmode (h.calling j (by simpa using hj)).1

theorem Ordered.append (h : Ordered s) (hid : t.id = s.id) (more : List Sent)
    (hsent : t.sent = s.sent++more) : Ordered t := by
  obtain ⟨headers,own,before,behind,heq,_⟩ := h
  exact ⟨headers,own,before,behind++more,by simp [hsent,heq,hid],by rwa [hid]⟩

end Steps

/-! ### The steps that matter -/

section Sections

variable {s : State} {i : ℕ}

theorem inv_start (id : Bytes) : Inv (start id) := by
  constructor <;> simp [start,Fiber.calling,Called]

section

variable (h : Inv s)

include h

theorem inv_begin {headers : ByteMap} (hi : s.fibers i = .begin headers) :
    Inv (begin s i headers) := by
  unfold begin
  split
  · exact h.keep rfl rfl rfl rfl rfl (by rw [hi]; rfl) (by rw [hi]; rfl) (by simp) (by simp)
  rename_i hfree
  split
  · exact h.keep rfl rfl rfl rfl rfl (by rw [hi]; rfl) (by rw [hi]; rfl) (by simp) (by simp)
  rename_i hmode
  rw [not_not] at hmode
  obtain ⟨hcal,hnone⟩ := h.quiet (by rw [hmode]; decide)
  have honly (j : ℕ) (hj : (update s.fibers i (.startSpan headers) j).calling = true) :
      j = i := by
    by_contra hne
    rw [update_of_ne hne,hnone] at hj
    cases hj
  constructor
  · exact fun j k hj hk => (honly j hj).trans (honly k hk).symm
  · exact fun _ _ => ⟨rfl,hcal⟩
  · exact fun _ => rfl
  · exact fun j mode hj => absurd (h.notified j mode (of_update_ne rfl (by simp) hj)).1 hfree
  · exact fun j hj => absurd (h.marking j (of_update_ne rfl (by simp) hj)).1 hfree
  · exact fun hreq => absurd hreq hfree

theorem inv_send {headers : ByteMap} {reply : Reply} (hi : s.fibers i = .send headers)
    (hok : reply.sendStatus.isOk = true) : Inv (send s i headers reply) := by
  rw [send,if_pos hok]
  have hcal : (s.fibers i).calling = true := by rw [hi]; rfl
  refine h.settled hcal rfl rfl (fun _ => (h.calling i hcal).1) fun hreq _ => ?_
  rcases h.told hreq (.inr ⟨i,hcal⟩) with ⟨j,_⟩ | hord
  · refine .inl ⟨j,?_⟩
    rwa [update_eq_of Fiber.cancelling rfl (by rw [hi]; rfl)]
  · exact .inr (hord.append rfl _ rfl)

theorem inv_abandon (hi : s.fibers i = .abandon) :
    Inv (State.setFiber { s with mode := .none } i .idle) := by
  have hcal : (s.fibers i).calling = true := by rw [hi]; rfl
  obtain ⟨-,hcalled⟩ := h.calling i hcal
  exact h.settled hcal rfl rfl (fun h => absurd h hcalled) fun _ h => absurd h hcalled

theorem inv_request (hi : s.fibers i = .request) : Inv (request s i) := by
  unfold request
  split
  · exact h.keep rfl rfl rfl rfl rfl (by rw [hi]; rfl) (by rw [hi]; rfl) (by simp) (by simp)
  rename_i hfst
  simp only [Bool.or_eq_true,not_or,Bool.not_eq_true] at hfst
  have hsame := update_eq_of (t := State.setFiber { s with cancelRequested := true } i
    (.notify s.mode)) Fiber.calling rfl (by rw [hi]; rfl)
  constructor
  · intro j k
    rw [hsame,hsame]
    exact h.single j k
  · intro j
    rw [hsame]
    exact h.calling j
  · exact h.called
  · intro j mode hj
    refine ⟨rfl,fun hne => ?_⟩
    simp only [hsame]
    rcases of_update rfl hj with ⟨hj,-⟩ | ⟨-,hf⟩
    · exact (h.notified j mode hj).2 hne
    · cases hf
      exact h.quiet hne
  · intro j hj
    have hreq := (h.marking j (of_update_ne rfl (by simp) hj)).1
    rw [hfst.2] at hreq
    cases hreq
  · intro _ hcall
    simp only [hsame] at hcall
    have hmode : s.mode = .call := hcall.elim h.called fun ⟨j,hj⟩ => (h.calling j hj).1
    refine .inl ⟨i,?_⟩
    simp [State.setFiber,hmode,Fiber.cancelling]

theorem inv_sendRemoteCancel {reply : Reply} (hi : s.fibers i = .sendRemoteCancel)
    (hok : reply.sendStatus.isOk = true) (hnone : ∀ j, (s.fibers j).calling = false) :
    Inv (sendRemoteCancel s i reply) := by
  rw [sendRemoteCancel,if_pos hok]
  have hsame := update_eq_of (t := State.setFiber { s with
    sent := s.sent++[.cancel reply.cancelId s.id] } i .completeCall) Fiber.calling rfl
    (by rw [hi]; rfl)
  have hcal : Called (State.setFiber { s with
      sent := s.sent++[.cancel reply.cancelId s.id] } i .completeCall) ↔ Called s := by
    simp [Called,State.setFiber]
  constructor
  · intro j k
    rw [hsame,hsame]
    exact h.single j k
  · intro j hj
    rw [hsame,hnone] at hj
    cases hj
  · rw [hcal]
    exact h.called
  · intro j mode hj
    simp only [hsame,hcal]
    exact h.notified j mode (of_update_ne rfl (by simp) hj)
  · intro j hj
    simp only [hsame,hcal]
    exact h.marking j (of_update_ne rfl (by simp) hj)
  · intro _ hcall
    simp only [hsame,hcal,hnone,Bool.false_eq_true,exists_false,or_false] at hcall
    obtain ⟨headers,hmem⟩ := hcall
    exact .inr ⟨headers,reply.cancelId,s.sent,[],rfl,hmem⟩

theorem inv_markCancelled (hi : s.fibers i = .markCancelled) (status : Status) :
    Inv (State.setFiber { s with mode := .cancelled, completionStatus := some status } i .idle) := by
  obtain ⟨-,hcal,hquiet⟩ := h.marking i hi
  have hsame := update_eq_of (t := State.setFiber
    { s with mode := .cancelled, completionStatus := some status } i .idle) Fiber.calling rfl
    (by rw [hi]; rfl)
  have hnone (j : ℕ) := (hsame j).trans (hquiet j)
  constructor
  · intro j k hj
    rw [hnone] at hj
    cases hj
  · intro j hj
    rw [hnone] at hj
    cases hj
  · exact fun h => absurd h hcal
  · intro j mode hj
    simp only [hsame]
    exact h.notified j mode (of_update_ne rfl (by simp) hj)
  · intro j hj
    simp only [hsame]
    exact h.marking j (of_update_ne rfl (by simp) hj)
  · rintro - (h | ⟨j,hj⟩)
    · exact absurd h hcal
    · rw [hnone] at hj
      cases hj

end

end Sections

theorem inv_step (s : State) (a : Act) (h : Inv s) (hturn : InTurn s a) : Inv (step s a) := by
  cases a with
  | call i headers | cancel i =>
    rw [step]
    split
    · rename_i hi
      exact h.keep rfl rfl rfl rfl rfl (by rw [hi]; rfl) (by rw [hi]; rfl) (by simp) (by simp)
    · exact h
  | complete status =>
    rw [step]
    split
    · unfold completeCall
      split
      · exact h
      · exact h.keep (f := s.fibers 0) (i := 0) (by simp) rfl rfl rfl rfl rfl rfl (fun _ h => h) .inl
    · exact h
  | advance i reply =>
    obtain ⟨hok,hnone⟩ := hturn
    rw [step,advance]
    cases hi : s.fibers i with
    | idle => exact h
    | begin headers => exact inv_begin h hi
    | startSpan headers | injectContext headers | track headers =>
      dsimp only
      split <;>
      exact h.keep rfl rfl rfl rfl rfl (by rw [hi]; rfl) (by rw [hi]; rfl) (by simp) (by simp)
    | send headers => exact inv_send h hi (hok (.inr ⟨headers,hi⟩))
    | untrack =>
      exact h.keep rfl rfl rfl rfl rfl (by rw [hi]; rfl) (by rw [hi]; rfl) (by simp) (by simp)
    | abandon => exact inv_abandon h hi
    | request => exact inv_request h hi
    | notify mode =>
      cases mode <;>
      exact h.keep rfl rfl rfl rfl rfl (by rw [hi]; rfl) (by rw [hi]; rfl) (by simp [afterNotify])
        (by simp [afterNotify,hi])
    | sendRemoteCancel => exact inv_sendRemoteCancel h hi (hok (.inl hi)) (hnone hi)
    | completeCall =>
      dsimp only [completeCall]
      split <;>
      exact h.keep rfl rfl rfl rfl rfl (by rw [hi]; rfl) (by rw [hi]; rfl) (by simp) (by simp)
    | startFinish =>
      dsimp only [startFinish]
      split <;>
      exact h.keep rfl rfl rfl rfl rfl (by rw [hi]; rfl) (by rw [hi]; rfl) (by simp) (by simp)
    | markCancelled => exact inv_markCancelled h hi _

/-- Once every `Call` and every `Cancel` has returned, the callee of a cancelled action was
told, behind the action itself. -/
theorem cancel_reaches_callee (id : Bytes) {acts : List Act}
    (hturn : Runs.Along step InTurn (start id) acts)
    (hreturned : ∀ i, (after step (start id) acts).fibers i = .idle)
    (hcalled : Called (after step (start id) acts))
    (hrequested : (after step (start id) acts).cancelRequested = true) :
    Ordered (after step (start id) acts) := by
  have h : Inv (after step (start id) acts) :=
    after_along (fun s a => inv_step s a) (inv_start id) hturn
  rcases h.told hrequested (.inl hcalled) with ⟨i,hi⟩ | hord
  · rw [hreturned i] at hi
    cases hi
  · exact hord

def demo : Bytes := [100]

/-- The action is called, and cancelled once the call has returned. -/
def calledThenCancelled : List Act := [
  .call 0 .empty,.advance 0 {},.advance 0 {},.advance 0 {},.advance 0 {},
  .cancel 1,.advance 1 {},.advance 1 {},.advance 1 {},.advance 1 {}]

theorem cancel_reaches_callee_demo :
    Ordered (after step (start demo) calledThenCancelled) := by
  refine cancel_reaches_callee demo ?_ ?_ ⟨.empty,by decide⟩ rfl
  · refine ⟨trivial,⟨fun _ => rfl,?_⟩,⟨fun _ => rfl,?_⟩,⟨fun _ => rfl,?_⟩,⟨fun _ => rfl,?_⟩,trivial,
      ⟨fun _ => rfl,?_⟩,⟨fun _ => rfl,?_⟩,⟨fun _ => rfl,?_⟩,⟨fun _ => rfl,?_⟩,trivial⟩
    -- Only the third step of `Cancel` hands a cancel message over; nobody is calling then.
    all_goals intro hsend
    case refine_7 => rintro (_ | _ | j) <;> rfl
    all_goals exact absurd hsend (by decide)
  · rintro (_ | _ | i) <;> rfl

/-- `Cancel` runs while `Call` has begun and not yet sent. -/
def cancelledBeforeSend : List Act := [
  .call 0 .empty,.advance 0 {},
  .cancel 1,.advance 1 {},.advance 1 {},.advance 1 {},.advance 1 {},
  .advance 0 {},.advance 0 {},.advance 0 {}]

/-- The callee is told to cancel an action it has not seen, and then gets the action. -/
theorem cancelledBeforeSend_overtakes :
    let s := after step (start demo) cancelledBeforeSend
    s.sent = [.cancel [] demo,.call demo .empty] ∧ s.cancelRequested = true ∧
      (∀ i, s.fibers i = .idle) ∧ ¬Ordered s := by
  have hsent : (after step (start demo) cancelledBeforeSend).sent =
      [.cancel [] demo,.call demo .empty] := by decide
  refine ⟨hsent,rfl,?_,?_⟩
  · rintro (_ | _ | i) <;> rfl
  · rintro ⟨_,_,before,_,heq,hmem⟩
    rw [hsent] at heq
    cases before with
    | nil => simp at hmem
    | cons first before =>
      cases before with
      | nil => simp at heq
      | cons second before => simp at heq

end A11.Action
