import A11.ByteChunking
import A11.InProcessStream

/-! The stream over a binary channel. A step is one critical section of a call, of a fiber or
of a channel callback; what the channel, the clock and the application's callbacks answer is an
input of the step. A fiber that waits for `changed` has no step until it is notified. -/
namespace A11.ChannelStream

open WireStream ByteChunking
open InProcess (Overdue deadlineExceeded)

inductive Role
  | client | server | either
  deriving DecidableEq

/-! ### Options -/

structure Framing where
  splitSize : ℕ := 64*1024
  maxPendingMessages : ℕ := 64
  maxPendingBytes : ℕ := 64*1024*1024
  /-- All three are `size_t`. -/
  isSize : ∀ n ∈ [splitSize,maxPendingMessages,maxPendingBytes], n < sizeRange := by decide

def Framing.validate (f : Framing) : StatusOr Unit :=
  if f.splitSize < 18 ∨ 1024*1024 < f.splitSize then
    .error (.invalidArgument "channel split_size must be in [18, 1048576]")
  else if f.maxPendingMessages = 0 ∨ f.maxPendingBytes = 0 then
    .error (.invalidArgument "channel pending reassembly limits must be positive")
  else .ok ()

def chunking (o : Options) (f : Framing) (h : o.validate = .ok ()) : ByteChunkingOptions where
  packetSize := f.splitSize
  maxMessageSize := o.maxSingleMessageSize
  maxPendingMessages := f.maxPendingMessages
  maxPendingBytes := f.maxPendingBytes
  isSize := by
    have hsize := o.validate_size h
    have hlimit : maxSingleMessageSizeLimit < sizeRange := by decide
    have hframing := f.isSize
    simp only [List.mem_cons,List.not_mem_nil,or_false,forall_eq_or_imp,forall_eq] at hframing ⊢
    exact ⟨hframing.1,lt_of_le_of_lt hsize hlimit,hframing.2⟩

/-! ### Where calls and fibers stand -/

/-- What every fiber may have to do before it goes on. -/
inductive Duty
  | notify
  | forceAbort (status : Status) (canCommunicate : Bool)
  | maybeFinish
  | finish (terminal : Option Status)
  /-- The done callback runs. -/
  | done

structure Fiber (α : Type) where
  duties : List Duty := []
  place : α

inductive Call
  | idle
  /-- `Send`, before its critical section. -/
  | enter (message : WireMessage) (ending : End)
  /-- `DeliverClaimed`, before and after the packets are written. -/
  | deliver (o : Outbound)
  | unclaim (failure : Status)
  | halfClose (trailers : ByteMap)
  | abort (status : Status)
  | setDeadline
  | getStatus
  /-- `StartEndpoint` and its parts. -/
  | start (accept : Bool)
  | configure
  | schedule
  | checkOpen
  | check (alreadyOpen : Bool)
  | openOperation
  | openChannel
  /-- Callbacks of the channel. -/
  | opened
  | packet (bytes : Bytes)
  | closed

inductive Sender
  | absent
  | take
  /-- On `changed`, with nothing to send. -/
  | asleep
  | write (o : Outbound)
  | drain (ending : End)
  /-- Before the buffered amount is read; `changed` may have been notified meanwhile. -/
  | measure (ending : End) (notified : Bool)
  /-- On `changed`, until the channel has drained. -/
  | draining (ending : End)
  | publish (ending : End)
  /-- `~Claim`. -/
  | release (leave : Bool)
  | returned

inductive Receiver
  | absent
  | receive
  /-- On `changed`. -/
  | asleep
  | check (message : WireMessage)
  /-- The message callback runs. -/
  | calling
  | remoteAbort (status : Status)
  | halfClose (trailers : ByteMap)
  /-- The message callback runs for the half-close. -/
  | callingEnd
  | returned

inductive Timing
  | absent
  | watching
  | returned

def Sender.woken : Sender → Sender
  | .asleep => .take
  | .measure ending _ => .measure ending true
  | .draining ending => .drain ending
  | s => s

def Receiver.woken : Receiver → Receiver
  | .asleep => .receive
  | r => r

structure Endpoint where
  role : Role
  options : Options
  framing : Framing
  chunking : ByteChunkingOptions
  reassembler : ByteReassembler := {}
  started : Bool := false
  /-- `open`. -/
  isOpen : Bool := false
  sending : Bool := false
  channelClosed : Bool := false
  finished : Bool := false
  doneCalled : Bool := false
  localEnd : End := .none
  localEndSent : End := .none
  remoteHalfClosed : Bool := false
  remoteAborted : Bool := false
  status : Status := .okStatus
  trailers : Option ByteMap := none
  outgoing : List Outbound := []
  incoming : List Bytes := []
  incomingBytes : ℕ := 0
  nextOutgoingMessageId : ℕ := 1
  /-- The channel has the stream's callbacks. -/
  connected : Bool := false
  calls : ℕ → Fiber Call := fun _ => { place := .idle }
  sender : Fiber Sender := { place := .absent }
  receiver : Fiber Receiver := { place := .absent }
  timing : Fiber Timing := { place := .absent }
  /-- What was written to the channel, what the message callback was given, and how often the
  done callback was called. -/
  written : List (ℕ × Bytes) := []
  handed : List (Option WireMessage) := []
  doneRuns : ℕ := 0

def makeState (role : Role) (options : Options) (framing : Framing) : StatusOr Endpoint :=
  match h : options.validate with
  | .error status => .error status
  | .ok () => do
    framing.validate
    (chunking options framing h).validate
    return { role, options, framing, chunking := chunking options framing h }

/-- What the clock, the channel and the application answer in a step. -/
structure Reply where
  expired : Bool := false
  overdue : Option Overdue := none
  status : Status := .okStatus
  isOpen : StatusOr Bool := .ok false
  buffered : StatusOr ℕ := .ok 0

/-! ### Duties -/

namespace Endpoint

/-- The condition of `MaybeFinish`. -/
def ended (e : Endpoint) : Bool :=
  e.remoteAborted || e.localEndSent == .abort ||
    (e.localEndSent == .halfClose && e.remoteHalfClosed)

def notify (e : Endpoint) : Endpoint :=
  { e with
    sender := { e.sender with place := e.sender.place.woken }
    receiver := { e.receiver with place := e.receiver.place.woken } }

/-- The critical section of `ForceAbort`. -/
def fail (e : Endpoint) (status : Status) : Endpoint :=
  { e with status, trailers := none, localEnd := .abort, outgoing := [] }

def queue (e : Endpoint) (message : WireMessage) (ending : End) : Endpoint :=
  { e with
    outgoing := e.outgoing++[{ message, ending, messageId := e.nextOutgoingMessageId }]
    nextOutgoingMessageId := e.nextOutgoingMessageId+1 }

/-- The critical section of `Finish`, with the call of the done callback. -/
def finish (e : Endpoint) (terminal : Option Status) : Endpoint :=
  { e with
    finished := true
    status := if e.status.isOk then terminal.getD e.status else e.status
    incoming := []
    incomingBytes := 0
    doneCalled := e.doneCalled || e.started
    doneRuns := if !e.doneCalled && e.started then e.doneRuns+1 else e.doneRuns }

def doneReturned (e : Endpoint) (result : Status) : Endpoint :=
  if !result.isOk && e.status.isOk then { e with status := result } else e

end Endpoint

variable (cfg : Config)

def abortStatus (status : Status) : Status :=
  if status.isOk then .internal "Invalid OK stream abort" else status

/-- The message with which `ForceAbort` can tell the peer. -/
def abortNotice (status : Status) : Option WireMessage :=
  match cfg.packStatus (abortStatus status) with
  | .error _ => none
  | .ok encoded => match (abortMessage encoded).toMsgpack cfg.packer with
    | .error _ => none
    | .ok _ => some (abortMessage encoded)

def Endpoint.forceAbort (e : Endpoint) (status : Status) (canCommunicate : Bool) :
    Endpoint × List Duty :=
  if e.finished ∨ e.remoteAborted ∨ e.localEnd = .abort then (e,[])
  else match abortNotice cfg status with
    | some message =>
      if canCommunicate ∧ e.isOpen then
        ((e.fail (abortStatus status)).queue message .abort,[.notify])
      else (e.fail (abortStatus status),[.notify,.finish none])
    | none => (e.fail (abortStatus status),[.notify,.finish none])

/-- Carries out a duty; the duties it leads to come first. -/
def Duty.perform (e : Endpoint) (reply : Reply) : Duty → Endpoint × List Duty
  | .notify => (e.notify,[])
  | .forceAbort status canCommunicate => e.forceAbort cfg status canCommunicate
  | .maybeFinish => (e,if e.ended then [.finish none] else [])
  | .finish terminal =>
    if e.finished then (e,[])
    else (e.finish terminal,.notify::if !e.doneCalled && e.started then [.done] else [])
  | .done => (e.doneReturned reply.status,[])

/-! ### Writing -/

/-- Encodes a message, cuts it into packets and writes them. -/
def write (e : Endpoint) (o : Outbound) (sent : Status) : Endpoint × Status :=
  match o.message.toMsgpack cfg.packer with
  | .error status => (e,status)
  | .ok encoded =>
    match splitOwnedBytesIntoPackets encoded (UInt64.ofNat o.messageId) e.framing.splitSize with
    | .error status => (e,status)
    | .ok _ => ({ e with written := e.written++[(o.messageId,encoded)] },sent)

/-! ### Calls -/

/-- What `Send` notes of a message it admits. -/
def Endpoint.noteSend (e : Endpoint) (ending : End) : Endpoint :=
  { e with
    localEnd := ending
    status := if ending = .abort then .aborted "The stream was aborted by this endpoint"
      else e.status }

/-- The critical section of `Send`. -/
def enter (e : Endpoint) (message : WireMessage) (ending : End) (expired : Bool) :
    Endpoint × Fiber Call :=
  if e.remoteAborted ∨ e.localEnd ≠ .none ∨ e.finished then (e,{ place := .idle })
  else if expired then
    (e,{ duties := [.forceAbort deadlineExceeded false], place := .idle })
  else if ending = .none ∧ e.outgoing = [] ∧ !e.sending ∧ e.started ∧ e.isOpen then
    ({ e.noteSend ending with
        sending := true
        nextOutgoingMessageId := e.nextOutgoingMessageId+1 },
      { place := .deliver { message, ending, messageId := e.nextOutgoingMessageId } })
  else ((e.noteSend ending).queue message ending,{ duties := [.notify], place := .idle })

/-- A call of `Send`, up to its critical section. -/
def entering (message : WireMessage) : Fiber Call :=
  match prepare message with
  | .error _ => { place := .idle }
  | .ok (message,ending) => { place := .enter message ending }

def mayStart (e : Endpoint) (accept : Bool) : Bool :=
  !e.started && !(accept && e.role == .client) && !(!accept && e.role == .server)

/-- The fibers are scheduled. -/
def Endpoint.launch (e : Endpoint) : Endpoint :=
  { e with
    sender := { e.sender with place := .take }
    receiver := { e.receiver with place := .receive }
    timing := { e.timing with place := .watching } }

/-- `on_message` of the channel. -/
def receivePacket (e : Endpoint) (bytes : Bytes) : Endpoint × List Duty :=
  if e.finished then (e,[])
  else
    let fed := feed e.chunking e.reassembler bytes
    let e := { e with reassembler := fed.2 }
    match fed.1 with
    | .error status => (e,[.forceAbort status true])
    | .ok none => (e,[])
    | .ok (some complete) =>
      if e.options.maxSingleMessageSize < complete.length then
        (e,[.forceAbort (.outOfRange "Incoming WireMessage exceeds max_single_message_size") true])
      else if e.options.maxBufferedIncomingMessages ≤ e.incoming.length ∨ (e.incoming ≠ [] ∧
          e.options.maxBufferedIncomingBytes < e.incomingBytes+complete.length) then
        (e,[.forceAbort
          (.resourceExhausted "Incoming WireMessage buffer capacity was exceeded") true])
      else ({ e with
          incoming := e.incoming++[complete]
          incomingBytes := e.incomingBytes+complete.length },[.notify])

/-- One critical section of a call that has no duty. -/
def callStep (e : Endpoint) (reply : Reply) : Call → Endpoint × Fiber Call
  | .idle => (e,{ place := .idle })
  | .enter message ending => enter e message ending reply.expired
  | .deliver o =>
    let (e,failure) := write cfg e o reply.status
    (e,{ place := .unclaim failure })
  | .unclaim failure => ({ e with sending := false },
      { duties := (if e.outgoing = [] then [] else [.notify])++
          (if failure.isOk then [] else [.finish (some failure)])
        place := .idle })
  | .halfClose trailers =>
    if e.localEnd ≠ .none ∨ e.finished then (e,{ place := .idle })
    else match normalizeWireHeaders trailers with
      | .error _ => (e,{ place := .idle })
      | .ok normalized => (e,entering (makeHalfCloseMessage normalized))
  | .abort status =>
    if e.finished ∨ e.localEnd = .abort then (e,{ place := .idle })
    else if e.localEnd = .halfClose then
      (e,{ duties := [.forceAbort status false], place := .idle })
    else match cfg.packStatus status with
      | .error _ => (e,{ place := .idle })
      | .ok packed => (e,entering (abortMessage packed))
  | .setDeadline => (e,
      { duties := .notify::
          if reply.expired ∧ !e.finished then [.forceAbort deadlineExceeded true] else []
        place := .idle })
  | .getStatus => (e,
      { duties := if reply.expired ∧ !e.finished then [.forceAbort deadlineExceeded true] else []
        place := .idle })
  | .start accept =>
    if mayStart e accept then ({ e with started := true },{ place := .configure })
    else (e,{ place := .idle })
  | .configure =>
    if reply.status.isOk then ({ e with connected := true },{ place := .schedule })
    else (e,{ duties := [.finish (some reply.status)], place := .idle })
  | .schedule => (e.launch,{ place := .checkOpen })
  | .checkOpen => match reply.isOpen with
    | .error status => (e,{ duties := [.finish (some status)], place := .idle })
    | .ok alreadyOpen => (e,{ place := .check alreadyOpen })
  | .check alreadyOpen =>
    let expired := reply.expired || e.localEnd == .abort
    ({ e with isOpen := e.isOpen || alreadyOpen },
      { duties := (if alreadyOpen then [.notify] else [])++
          (if expired then [.forceAbort deadlineExceeded false,.finish none] else [])
        place := if expired then .idle else .openOperation })
  | .openOperation =>
    if reply.status.isOk then (e,{ place := .openChannel })
    else (e,{ duties := [.finish (some reply.status)], place := .idle })
  | .openChannel =>
    if reply.status.isOk then (e,{ place := .idle })
    else (e,{ duties := [.finish (some reply.status)], place := .idle })
  | .opened => ({ e with isOpen := true },{ duties := [.notify], place := .idle })
  | .packet bytes =>
    let (e,duties) := receivePacket e bytes
    (e,{ duties, place := .idle })
  | .closed => ({ e with channelClosed := true },
      { duties := [if e.finished || e.ended then .maybeFinish
          else .finish (some (.unavailable "Channel closed before A11 termination")),.notify]
        place := .idle })

/-! ### Fibers -/

/-- The critical section at the head of the sender's loop. -/
def takeNext (e : Endpoint) : Endpoint × Fiber Sender :=
  if e.finished then (e,{ place := .returned })
  else match e.outgoing with
    | [] => (e,{ place := .asleep })
    | front::rest =>
      if e.started ∧ e.isOpen ∧ !e.sending then
        let (taken,rest) := takeOutbound cfg.estimate front rest
        ({ e with outgoing := rest, sending := true },{ place := .write taken })
      else (e,{ place := .asleep })

def senderStep (e : Endpoint) (reply : Reply) : Sender → Endpoint × Fiber Sender
  | .absent => (e,{ place := .absent })
  | .asleep => (e,{ place := .asleep })
  | .draining ending => (e,{ place := .draining ending })
  | .returned => (e,{ place := .returned })
  | .take => takeNext cfg e
  | .write o =>
    let (e,failure) := write cfg e o reply.status
    (e,if failure.isOk then { place := if o.ending = .none then .release false else .drain o.ending }
      else { duties := [.finish (some failure)], place := .release true })
  | .drain ending => (e,{ place := if e.finished then .release true else .measure ending false })
  | .measure ending notified => match reply.buffered with
    | .error status => (e,{ duties := [.finish (some status)], place := .release true })
    | .ok 0 => (e,{ place := .publish ending })
    | .ok _ => (e,{ place := if notified then .drain ending else .draining ending })
  | .publish ending => ({ e with localEndSent := ending },
      { duties := [.maybeFinish], place := .release true })
  | .release leave => ({ e with sending := false },
      { duties := if e.outgoing = [] then [] else [.notify]
        place := if leave then .returned else .take })

/-- What the receiver makes of a message. -/
def classify (bytes : Bytes) : Fiber Receiver :=
  match WireMessage.fromMsgpack bytes with
  | .error status => { duties := [.forceAbort status true], place := .receive }
  | .ok message =>
    if !isHalfCloseMessage message then { place := .check message }
    else match normalizeWireHeaders message.headers with
      | .error status => { duties := [.forceAbort status true], place := .receive }
      | .ok headers => match headers.find abortStatusHeader with
        | some encoded => { place := .remoteAbort (remoteStatus cfg encoded) }
        | none => { place := .halfClose headers }

def receiverStep (e : Endpoint) (reply : Reply) : Receiver → Endpoint × Fiber Receiver
  | .absent => (e,{ place := .absent })
  | .asleep => (e,{ place := .asleep })
  | .returned => (e,{ place := .returned })
  | .receive =>
    if e.finished then (e,{ place := .returned })
    else match e.incoming with
      | [] => (e,{ place := .asleep })
      | bytes::rest => ({ e with
          incoming := rest
          incomingBytes := e.incomingBytes-bytes.length },classify cfg bytes)
  | .check message =>
    if e.remoteHalfClosed ∨ e.remoteAborted then
      let status := .failedPrecondition "Peer sent data after a terminal message"
      (e,{ duties := [.forceAbort status true], place := .receive })
    else ({ e with handed := e.handed++[some message] },{ place := .calling })
  | .calling => (e,
      { duties := if reply.status.isOk then [] else [.forceAbort reply.status true]
        place := .receive })
  | .remoteAbort recorded => ({ e with
        remoteAborted := true
        trailers := none
        status := if e.status.isOk then recorded else e.status },
      { duties := [.finish none], place := .returned })
  | .halfClose trailers => ({ e with
        remoteHalfClosed := true
        trailers := some trailers
        handed := e.handed++[none] },{ place := .callingEnd })
  | .callingEnd => (e,
      { duties := [if reply.status.isOk then .maybeFinish else .forceAbort reply.status true]
        place := .returned })

def timingStep (e : Endpoint) (reply : Reply) : Timing → Fiber Timing
  | .absent => { place := .absent }
  | .returned => { place := .returned }
  | .watching =>
    if e.finished then { place := .returned }
    else match reply.overdue with
      | none => { place := .watching }
      | some overdue => { duties := [.forceAbort overdue.status true], place := .returned }

/-! ### Runs -/

inductive Thread
  | call (i : ℕ) | sender | receiver | timing
  deriving DecidableEq

def Endpoint.duties (e : Endpoint) : Thread → List Duty
  | .call i => (e.calls i).duties
  | .sender => e.sender.duties
  | .receiver => e.receiver.duties
  | .timing => e.timing.duties

def Endpoint.setCall (e : Endpoint) (i : ℕ) (fiber : Fiber Call) : Endpoint :=
  { e with calls := Function.update e.calls i fiber }

def Endpoint.setSender (e : Endpoint) (fiber : Fiber Sender) : Endpoint := { e with sender := fiber }

def Endpoint.setReceiver (e : Endpoint) (fiber : Fiber Receiver) : Endpoint :=
  { e with receiver := fiber }

def Endpoint.setTiming (e : Endpoint) (fiber : Fiber Timing) : Endpoint := { e with timing := fiber }

def Endpoint.setDuties (e : Endpoint) (duties : List Duty) (t : Thread) : Endpoint :=
  { e with
    calls := fun i => if t = .call i then { e.calls i with duties } else e.calls i
    sender := if t = .sender then { e.sender with duties } else e.sender
    receiver := if t = .receiver then { e.receiver with duties } else e.receiver
    timing := if t = .timing then { e.timing with duties } else e.timing }

/-- The next critical section of a fiber without duties. -/
def proceed (e : Endpoint) (reply : Reply) : Thread → Endpoint
  | .call i =>
    let (e',fiber) := callStep cfg e reply (e.calls i).place
    e'.setCall i fiber
  | .sender =>
    let (e',fiber) := senderStep cfg e reply e.sender.place
    e'.setSender fiber
  | .receiver =>
    let (e',fiber) := receiverStep cfg e reply e.receiver.place
    e'.setReceiver fiber
  | .timing => e.setTiming (timingStep e reply e.timing.place)

def advance (e : Endpoint) (t : Thread) (reply : Reply) : Endpoint :=
  match e.duties t with
  | [] => proceed cfg e reply t
  | duty::rest =>
    let (e',next) := Duty.perform cfg e reply duty
    e'.setDuties (next++rest) t

/-- What the application or the channel may call. -/
inductive Entry
  | send (message : WireMessage)
  | halfClose (trailers : ByteMap)
  | abort (status : Status)
  | setDeadline
  | getStatus
  | start (accept : Bool)
  | opened
  | packet (bytes : Bytes)
  | errored (status : Status)
  | closed
  | bufferedAmountLow

def Entry.fromChannel : Entry → Bool
  | .opened => true
  | .packet _ => true
  | .errored _ => true
  | .closed => true
  | .bufferedAmountLow => true
  | _ => false

def Entry.fiber : Entry → Fiber Call
  | .send message => entering message
  | .halfClose trailers => { place := .halfClose trailers }
  | .abort status => { place := if status.isOk then .idle else .abort status }
  | .setDeadline => { place := .setDeadline }
  | .getStatus => { place := .getStatus }
  | .start accept => { place := .start accept }
  | .opened => { place := .opened }
  | .packet bytes => { place := .packet bytes }
  | .errored status => { duties := [.finish (some status)], place := .idle }
  | .closed => { place := .closed }
  | .bufferedAmountLow => { duties := [.notify], place := .idle }

def Fiber.vacant (f : Fiber Call) : Bool :=
  match f.duties, f.place with
  | [], .idle => true
  | _, _ => false

def begin (e : Endpoint) (i : ℕ) (entry : Entry) : Endpoint :=
  if (entry.fromChannel && !e.connected) || !(e.calls i).vacant then e
  else e.setCall i entry.fiber

inductive Action
  | begin (i : ℕ) (entry : Entry)
  | advance (t : Thread) (reply : Reply)
  /-- The destructor takes the callbacks away from the channel. -/
  | disconnect

def step (e : Endpoint) : Action → Endpoint
  | .begin i entry => begin e i entry
  | .advance t reply => advance cfg e t reply
  | .disconnect => { e with connected := false }

def run (e : Endpoint) (actions : List Action) : Endpoint := Runs.after (step cfg) e actions

end A11.ChannelStream
