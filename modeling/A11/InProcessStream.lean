import A11.Runs
import A11.WireStream

/-! The in-process stream: two endpoints that hand encoded messages to each other. A step is
one critical section of a call or of a fiber; a fiber that waits on a condition variable has
no step until it is signalled. Whether a deadline has passed is an input of the steps that
read the clock. -/
namespace A11.InProcess

open WireStream

inductive Side
  | first | second
  deriving DecidableEq

def Side.peer : Side → Side
  | .first => .second
  | .second => .first

/-! ### Where calls and fibers stand -/

inductive Call
  | idle
  /-- `Send`, before its own critical section. -/
  | prepared (message : WireMessage) (ending : End)
  /-- `DeliverClaimed`, before the peer's critical section. -/
  | deliver (message : WireMessage)
  | release (message : WireMessage) (delivered : Bool)
  | forceAbort (status : Status)

inductive Sender
  | absent
  | idle
  /-- On `outbound_cv`. -/
  | asleep
  | deliver (outbound : Outbound) (payload : Bytes)
  /-- On the peer's `room_cv`. -/
  | blocked (outbound : Outbound) (payload : Bytes)
  | forceAbort (status : Status) (leave : Bool)
  | sent (ending : End)
  | maybeFinish
  | finish
  /-- The done callback runs. -/
  | done
  /-- `~Claim`. -/
  | release (leave : Bool)
  | returned

inductive Receiver
  | absent
  | idle
  /-- On `incoming_cv`. -/
  | asleep
  | check (message : WireMessage)
  /-- The message callback runs. -/
  | calling
  | remoteAbort (status : Status)
  | halfClose (trailers : ByteMap)
  /-- The message callback runs for the half-close. -/
  | callingEnd
  | forceAbort (status : Status)
  | maybeFinish
  | finish
  | done
  | returned

inductive Timing
  | absent
  | watching
  | forceAbort (status : Status)
  | returned

def Sender.woken : Sender → Sender
  | .asleep => .idle
  | s => s

def Sender.unblocked : Sender → Sender
  | .blocked o payload => .deliver o payload
  | s => s

def Receiver.woken : Receiver → Receiver
  | .asleep => .idle
  | r => r

structure Endpoint where
  options : Options
  outbound : List Outbound := []
  incoming : List Bytes := []
  incomingBytes : ℕ := 0
  sending : Bool := false
  started : Bool := false
  transportFinished : Bool := false
  localEnd : End := .none
  localEndSent : End := .none
  halfCloseRequested : Bool := false
  remoteHalfClosed : Bool := false
  remoteAborted : Bool := false
  implementationAborted : Bool := false
  status : Status := .okStatus
  trailers : Option ByteMap := none
  doneCalled : Bool := false
  /-- The state has been released: the peer's `weak_ptr` no longer locks. -/
  gone : Bool := false
  calls : ℕ → Call := fun _ => .idle
  sender : Sender := .absent
  receiver : Receiver := .absent
  timing : Timing := .absent
  /-- What `Send` has admitted, what the message callback was given, and how often the done
  callback was called. -/
  admitted : List WireMessage := []
  handed : List (Option WireMessage) := []
  doneRuns : ℕ := 0

abbrev World := Side → Endpoint

def World.put (w : World) (x : Side) (e : Endpoint) : World := Function.update w x e

variable (x : Side)

@[simp] theorem Side.peer_peer : x.peer.peer = x := by cases x <;> rfl

theorem Side.eq_or_eq_peer (x y : Side) : y = x ∨ y = x.peer := by cases x <;> cases y <;> decide

variable (w : World)

@[simp] theorem World.put_self (e : Endpoint) : w.put x e x = e :=
  Function.update_self ..

theorem World.put_of_ne {x y : Side} (h : y ≠ x) (e : Endpoint) : w.put x e y = w y :=
  Function.update_of_ne h ..

@[simp] theorem World.put_peer (e : Endpoint) :
    w.put x e x.peer = w x.peer := w.put_of_ne (by cases x <;> decide) e

@[simp] theorem World.put_peer_self (e : Endpoint) :
    w.put x.peer e x = w x := w.put_of_ne (by cases x <;> decide) e

/-! ### Shared sections -/

namespace Endpoint

def hasRoom (e : Endpoint) (size : ℕ) : Bool :=
  decide (e.incoming.length < e.options.maxBufferedIncomingMessages) &&
    (e.incomingBytes == 0 ||
      decide (e.incomingBytes+size ≤ e.options.maxBufferedIncomingBytes))

def accept (e : Endpoint) (payload : Bytes) : Endpoint :=
  { e with
    incoming := e.incoming++[payload]
    incomingBytes := e.incomingBytes+payload.length
    receiver := e.receiver.woken }

def enqueue (e : Endpoint) (o : Outbound) : Endpoint :=
  { e with outbound := e.outbound++[o], sender := e.sender.woken }

def setCall (e : Endpoint) (i : ℕ) (c : Call) : Endpoint :=
  { e with calls := Function.update e.calls i c }

def setSender (e : Endpoint) (s : Sender) : Endpoint := { e with sender := s }

def setReceiver (e : Endpoint) (r : Receiver) : Endpoint := { e with receiver := r }

attribute [simps sender receiver] setSender setReceiver

/-- The condition of `MaybeFinish`. -/
def ended (e : Endpoint) : Bool :=
  e.remoteAborted || e.localEndSent == .abort ||
    (e.localEndSent == .halfClose && e.remoteHalfClosed)

/-- The critical section of `Finish`, with the call of the done callback. -/
def finished (e : Endpoint) : Endpoint :=
  { e with
    transportFinished := true
    outbound := []
    sender := e.sender.woken
    receiver := e.receiver.woken
    doneCalled := e.doneCalled || e.started
    doneRuns := if !e.doneCalled && e.started then e.doneRuns+1 else e.doneRuns }

def doneReturned (e : Endpoint) (result : Status) : Endpoint :=
  if !result.isOk && e.status.isOk then { e with status := result } else e

end Endpoint

variable (cfg : Config)

/-- The status an abort is recorded under, and its packed form. -/
def packAbort (status : Status) : Option (Status × Bytes) :=
  let status := if status.isOk then .internal "Invalid OK transport abort" else status
  match cfg.packStatus status with
  | .ok encoded => some (status,encoded)
  | .error failure => match cfg.packStatus failure with
    | .ok encoded => some (failure,encoded)
    | .error _ => none

def Endpoint.forceAbort (e : Endpoint) (status : Status) : Endpoint :=
  match packAbort cfg status with
  | none => e
  | some (status,encoded) =>
    if e.transportFinished ∨ e.remoteAborted ∨ e.localEnd = .abort then e
    else { e with
      status
      trailers := none
      localEnd := .abort
      implementationAborted := true
      outbound := if e.localEndSent = .none then [{ message := abortMessage encoded, ending := .abort }]
        else e.outbound
      sender := e.sender.woken }

def deadlineExceeded : Status := .deadlineExceeded "WireStream deadline exceeded"

/-- `Finish` on a fiber that goes on as `resume` says, with the done callback to await or not. -/
def finish (w : World) (x : Side) (resume : Bool → Endpoint → Endpoint) : World :=
  let e := w x
  if e.transportFinished then w.put x (resume false e)
  else
    let peer := w x.peer
    (w.put x (resume (!e.doneCalled && e.started) e.finished)).put x.peer
      (peer.setSender peer.sender.unblocked)

/-! ### Calls -/

/-- What `Send` notes of a message it admits. -/
def Endpoint.noteSend (e : Endpoint) (message : WireMessage) (ending : End) : Endpoint :=
  { e with
    localEnd := ending
    halfCloseRequested := e.halfCloseRequested || ending == .halfClose
    status := if ending = .abort then .aborted "The stream was aborted by this endpoint"
      else e.status
    admitted := if ending = .none then e.admitted++[message] else e.admitted }

/-- The critical section of `Send`. -/
def admission (e : Endpoint) (i : ℕ) (message : WireMessage) (ending : End) (expired : Bool) :
    Endpoint :=
  if e.remoteAborted ∨ e.localEnd ≠ .none ∨ e.transportFinished then e.setCall i .idle
  else if expired then e.setCall i (.forceAbort deadlineExceeded)
  else if ending = .none ∧ e.outbound = [] ∧ !e.sending then
    { e.noteSend message ending with sending := true }.setCall i (.deliver message)
  else ((e.noteSend message ending).enqueue { message, ending }).setCall i .idle

/-- The peer's critical section of `DeliverClaimed`. -/
def deliverClaimed (w : World) (x : Side) (i : ℕ) (message : WireMessage) : World :=
  let e := w x
  let peer := w x.peer
  match message.toMsgpack cfg.packer with
  | .ok payload =>
    if !peer.gone && !peer.transportFinished && peer.hasRoom payload.length then
      (w.put x (e.setCall i (.release message true))).put x.peer (peer.accept payload)
    else w.put x (e.setCall i (.release message false))
  | .error _ => w.put x (e.setCall i (.release message false))

/-- The last critical section of `DeliverClaimed`. -/
def releaseClaim (e : Endpoint) (message : WireMessage) (delivered : Bool) : Endpoint :=
  let outbound := if delivered then e.outbound else { message }::e.outbound
  { e with
    sending := false
    outbound
    sender := if outbound = [] then e.sender else e.sender.woken }

def callStep (w : World) (x : Side) (i : ℕ) (expired : Bool) : World :=
  let e := w x
  match e.calls i with
  | .idle => w
  | .prepared message ending => w.put x (admission e i message ending expired)
  | .deliver message => deliverClaimed cfg w x i message
  | .release message delivered => w.put x ((releaseClaim e message delivered).setCall i .idle)
  | .forceAbort status => w.put x ((e.forceAbort cfg status).setCall i .idle)

def isIdle : Call → Bool
  | .idle => true
  | _ => false

/-- `Send` up to its own critical section. -/
def send (w : World) (x : Side) (i : ℕ) (message : WireMessage) : World :=
  let e := w x
  let peer := w x.peer
  if !isIdle (e.calls i) then w
  else match prepare message with
    | .error _ => w
    | .ok (message,ending) =>
      if !peer.gone && peer.localEnd == .abort then w
      else w.put x (e.setCall i (.prepared message ending))

/-- The endpoint is marked as started and its fibers are scheduled. -/
def Endpoint.launch (e : Endpoint) : Endpoint :=
  { e with
    started := true
    sender := .idle
    receiver := .idle
    timing := .watching }

def start (e : Endpoint) (i : ℕ) (expired : Bool) : Endpoint :=
  if e.started || e.gone || !isIdle (e.calls i) then e
  else if expired then e.launch.setCall i (.forceAbort deadlineExceeded)
  else e.launch

def halfClose (e : Endpoint) (i : ℕ) (trailers : ByteMap) (expired : Bool) : Endpoint :=
  if !isIdle (e.calls i) then e
  else match normalizeWireHeaders trailers with
    | .error _ => e
    | .ok normalized =>
      if expired then e.setCall i (.forceAbort deadlineExceeded)
      else if e.localEnd ≠ .none ∨ e.remoteAborted ∨ e.transportFinished then e
      else { e with localEnd := .halfClose, halfCloseRequested := true }.enqueue
        { message := makeHalfCloseMessage normalized, ending := .halfClose }

def abort (e : Endpoint) (i : ℕ) (status : Status) (expired : Bool) : Endpoint :=
  if status.isOk || !isIdle (e.calls i) then e
  else match cfg.packStatus status with
    | .error _ => e
    | .ok encoded =>
      if expired then e.setCall i (.forceAbort deadlineExceeded)
      else if e.localEnd ≠ .none ∨ e.remoteAborted ∨ e.transportFinished then e
      else { e with localEnd := .abort, status := .aborted status.message }.enqueue
        { message := abortMessage encoded, ending := .abort }

/-- `SetDeadline` with a deadline that has passed; `GetStatus` and `CreatePair` do the same. -/
def setDeadline (e : Endpoint) (i : ℕ) : Endpoint :=
  if isIdle (e.calls i) then e.setCall i (.forceAbort deadlineExceeded) else e

/-! ### Fibers -/

/-- The critical section at the head of the sender's loop, and the encoding that follows. -/
def takeNext (e : Endpoint) : Endpoint :=
  if e.transportFinished then e.setSender .returned
  else match e.outbound with
    | [] => e.setSender .asleep
    | front::rest =>
      if e.sending then e.setSender .asleep
      else if e.implementationAborted ∧ front.ending ≠ .abort then { e with outbound := rest }
      else
        let (taken,rest) := takeOutbound cfg.estimate front rest
        { e with
          outbound := rest
          sending := true
          sender := match taken.message.toMsgpack cfg.packer with
            | .ok payload => .deliver taken payload
            | .error status => .forceAbort status false }

/-- The peer's critical section of the sender. -/
def deliver (w : World) (x : Side) (o : Outbound) (payload : Bytes) : World :=
  let e := w x
  let peer := w x.peer
  if peer.gone then
    w.put x (e.setSender (.forceAbort (.internal "In-process stream has no peer") true))
  else if peer.transportFinished then
    w.put x (e.setSender (.forceAbort (.unavailable "In-process peer has closed") true))
  else if peer.hasRoom payload.length then
    (w.put x (e.setSender (if o.ending = .none then .release false else .sent o.ending))).put x.peer
      (peer.accept payload)
  else w.put x (e.setSender (.blocked o payload))

def senderStep (w : World) (x : Side) (result : Status) : World :=
  let e := w x
  match e.sender with
  | .absent => w
  | .asleep => w
  | .blocked _ _ => w
  | .returned => w
  | .idle => w.put x (takeNext cfg e)
  | .deliver o payload => deliver w x o payload
  | .forceAbort status leave => w.put x ((e.forceAbort cfg status).setSender (.release leave))
  | .sent ending => w.put x { e with localEndSent := ending, sender := .maybeFinish }
  | .maybeFinish => w.put x (e.setSender (if e.ended then .finish else .release true))
  | .finish => finish w x fun callback e => e.setSender (if callback then .done else .release true)
  | .done => w.put x ((e.doneReturned result).setSender (.release true))
  | .release leave =>
    w.put x { e with sending := false, sender := if leave then .returned else .idle }

/-- What the receiver makes of a payload. -/
def classify (limit : ℕ) (payload : Bytes) : Receiver :=
  if limit < payload.length then
    .forceAbort (.outOfRange "Incoming WireMessage exceeds the size limit")
  else match WireMessage.fromMsgpack payload with
    | .error status => .forceAbort status
    | .ok message =>
      if !isHalfCloseMessage message then .check message
      else match normalizeWireHeaders message.headers with
        | .error status => .forceAbort status
        | .ok headers => match headers.find abortStatusHeader with
          | some encoded => .remoteAbort (remoteStatus cfg encoded)
          | none => .halfClose headers

/-- The critical section at the head of the receiver's loop. -/
def receiveNext (w : World) (x : Side) : World :=
  let e := w x
  if e.transportFinished then w.put x (e.setReceiver .returned)
  else match e.incoming with
    | [] => w.put x (e.setReceiver .asleep)
    | payload::rest =>
      let peer := w x.peer
      (w.put x { e with
        incoming := rest
        incomingBytes := e.incomingBytes-payload.length
        receiver := classify cfg e.options.maxSingleMessageSize payload }).put x.peer
        (peer.setSender peer.sender.unblocked)

def receiverStep (w : World) (x : Side) (result : Status) : World :=
  let e := w x
  match e.receiver with
  | .absent => w
  | .asleep => w
  | .returned => w
  | .idle => receiveNext cfg w x
  | .check message =>
    if e.remoteHalfClosed || e.remoteAborted then
      let status := .failedPrecondition "Peer sent data after a terminal message"
      w.put x (e.setReceiver (.forceAbort status))
    else w.put x { e with receiver := .calling, handed := e.handed++[some message] }
  | .calling => w.put x (e.setReceiver (if result.isOk then .idle else .forceAbort result))
  | .forceAbort status => w.put x ((e.forceAbort cfg status).setReceiver .returned)
  | .remoteAbort recorded =>
    w.put x { e with
      remoteAborted := true
      trailers := none
      status := if e.status.isOk then recorded else e.status
      receiver := .finish }
  | .halfClose trailers =>
    w.put x { e with
      remoteHalfClosed := true
      trailers := some trailers
      handed := e.handed++[none]
      receiver := .callingEnd }
  | .callingEnd => w.put x (e.setReceiver (if result.isOk then .maybeFinish else .forceAbort result))
  | .maybeFinish => w.put x (e.setReceiver (if e.ended then .finish else .returned))
  | .finish => finish w x fun callback e => e.setReceiver (if callback then .done else .returned)
  | .done => w.put x ((e.doneReturned result).setReceiver .returned)

inductive Overdue
  | deadline | inactivity

def Overdue.status : Overdue → Status
  | .deadline => deadlineExceeded
  | .inactivity => .deadlineExceeded "Timed out waiting for WireStream activity"

def watchTiming (e : Endpoint) (overdue : Option Overdue) : Endpoint :=
  match e.timing with
  | .absent => e
  | .returned => e
  | .watching =>
    if e.transportFinished then { e with timing := .returned }
    else match overdue with
      | some overdue => { e with timing := .forceAbort overdue.status }
      | none => e
  | .forceAbort status => { e.forceAbort cfg status with timing := .returned }

/-- The last reference to the state goes away. -/
def release (e : Endpoint) : Endpoint :=
  match e.sender, e.receiver, e.timing with
  | .absent, .absent, .absent => { e with gone := true }
  | .returned, .returned, .returned => { e with gone := true }
  | _, _, _ => e

/-! ### Runs -/

inductive Action
  | start (x : Side) (i : ℕ) (expired : Bool)
  | send (x : Side) (i : ℕ) (message : WireMessage)
  | call (x : Side) (i : ℕ) (expired : Bool)
  | halfClose (x : Side) (i : ℕ) (trailers : ByteMap) (expired : Bool)
  | abort (x : Side) (i : ℕ) (status : Status) (expired : Bool)
  | setDeadline (x : Side) (i : ℕ)
  | sender (x : Side) (result : Status)
  | receiver (x : Side) (result : Status)
  | watch (x : Side) (overdue : Option Overdue)
  | release (x : Side)

def step (w : World) : Action → World
  | .start x i expired => w.put x (start (w x) i expired)
  | .send x i message => send w x i message
  | .call x i expired => callStep cfg w x i expired
  | .halfClose x i trailers expired => w.put x (halfClose (w x) i trailers expired)
  | .abort x i status expired => w.put x (abort cfg (w x) i status expired)
  | .setDeadline x i => w.put x (setDeadline (w x) i)
  | .sender x result => senderStep cfg w x result
  | .receiver x result => receiverStep cfg w x result
  | .watch x overdue => w.put x (watchTiming cfg (w x) overdue)
  | .release x => w.put x (release (w x))

def createPair (first second : Options) : StatusOr World := do
  first.validate
  second.validate
  return fun
    | .first => { options := first }
    | .second => { options := second }

def run (w : World) (actions : List Action) : World := Runs.after (step cfg) w actions

end A11.InProcess
