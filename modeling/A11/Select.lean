import A11.IntrusiveList
import A11.Runs

/-! Fibers that select over channels and events. Every section that runs under the mutex of a
channel or of an event is one step; a selector is only ever picked inside such a section or
when its deadline expires. -/
namespace A11.Fibers

open Intrusive

/-- One case of one call of Select. -/
structure CaseId where
  select : ℕ
  index : ℕ
  deriving DecidableEq

/-- What a case is about. -/
inductive Operation (T : Type)
  | read (channel : ℕ)
  | write (channel : ℕ) (item : T)
  | event (event : ℕ)
  | never
  | always
  deriving DecidableEq

/-- The lists on which cases wait. -/
inductive Queue
  | readers (channel : ℕ)
  | writers (channel : ℕ)
  | event (event : ℕ)
  deriving DecidableEq

def Operation.queue {T : Type} : Operation T → Option Queue
  | read channel => some (.readers channel)
  | write channel _ => some (.writers channel)
  | event e => some (.event e)
  | never => none
  | always => none

inductive Phase
  | handling
  | waiting
  | unregistering (next : ℕ)
  | returned (result : Option ℕ)
  deriving DecidableEq

/-- A call of SelectUntil. The cases are handled in a shuffled order. -/
structure Call (T : Type) where
  cases : List (Operation T)
  order : List ℕ
  needToBlock : Bool
  expirable : Bool
  registered : ℕ
  picked : Option ℕ
  phase : Phase
  deriving DecidableEq

def Call.pick {T : Type} (index : ℕ) (call : Call T) : Call T :=
  if call.picked = none then { call with picked := some index } else call

def Call.enter {T : Type} (phase : Phase) (call : Call T) : Call T := { call with phase }

/-- Where a call stands after one more of its cases has been handled. -/
def Call.handled {T : Type} (call : Call T) (ready : Bool) : Call T :=
  let registered := call.registered+1
  let phase :=
    if ready then if call.needToBlock then .unregistering 0 else .returned call.picked
    else if registered < call.order.length then .handling
    else if call.needToBlock then .waiting else .returned none
  { call with registered, phase }

structure Channel (T : Type) where
  capacity : ℕ
  items : List T := []
  closed : Bool := false
  deriving DecidableEq

/-- What becomes of the items of a channel. -/
inductive Transfer (T : Type)
  | accepted (channel : ℕ) (c : CaseId) (item : T)
  | received (channel : ℕ) (c : CaseId) (item : T)
  | reportedClosed (channel : ℕ) (c : CaseId)
  deriving DecidableEq

structure World (T : Type) where
  channel : ℕ → Channel T
  notified : ℕ → Bool
  head : Queue → Option CaseId
  links : Links CaseId
  call : ℕ → Option (Call T)
  /-- Every case that has been put on a list, and those that have been taken off by their own
  call or by the notification of their event. -/
  enqueued : List CaseId
  unregistered : List CaseId
  released : List CaseId
  log : List (Transfer T)

/-- No call yet, and every channel open and empty. -/
def World.initial {T : Type} (capacity : ℕ → ℕ) : World T where
  channel n := { capacity := capacity n }
  notified _ := false
  head _ := none
  links := ⟨id,fun _ => none⟩
  call _ := none
  enqueued := []
  unregistered := []
  released := []
  log := []

namespace World

variable {T : Type}

def operation (w : World T) (c : CaseId) : Option (Operation T) :=
  (w.call c.select).bind fun call => call.cases[c.index]?

/-! ### Selectors -/

def picked (w : World T) (select : ℕ) : Option ℕ := (w.call select).bind Call.picked

/-- Changes the call with the given selector, if there is one. -/
def update (w : World T) (select : ℕ) (f : Call T → Call T) : World T :=
  { w with call := Function.update w.call select ((w.call select).map f) }

/-- Makes the owning selector choose this case, unless it has chosen before. -/
def tryPick (w : World T) (c : CaseId) : World T := w.update c.select (Call.pick c.index)

/-! ### Waiter lists -/

/-- The cases on a list, as a walk over it meets them. -/
def waiters (w : World T) (q : Queue) : List CaseId :=
  match w.head q with
  | none => []
  | some h => walk w.links.next h w.enqueued.length h

def pushBack (w : World T) (q : Queue) (c : CaseId) : World T :=
  let r := Intrusive.pushBack w.links (w.head q) c
  { w with
    links := r.1
    head := Function.update w.head q r.2
    enqueued := w.enqueued++[c] }

def unlinkFromList (w : World T) (q : Queue) (c : CaseId) : World T :=
  let r := Intrusive.unlink w.links (w.head q) c
  { w with links := r.1, head := Function.update w.head q r.2 }

/-- Takes a case off its list, if it is on one, and picks it. -/
def notify (w : World T) (q : Queue) (c : CaseId) : World T :=
  (if (w.links.prev c).isSome then w.unlinkFromList q c else w).tryPick c

/-- Both selectors are waiting, and they are not the same. -/
def bothWaiting (w : World T) (reader writer : CaseId) : Bool :=
  decide (reader.select ≠ writer.select) && (w.picked reader.select).isNone &&
    (w.picked writer.select).isNone

def matchingReader (w : World T) (channel : ℕ) (writer : CaseId) : Option CaseId :=
  (w.waiters (.readers channel)).find? fun reader => w.bothWaiting reader writer

def matchingWriter (w : World T) (channel : ℕ) (reader : CaseId) : Option CaseId :=
  (w.waiters (.writers channel)).find? fun writer => w.bothWaiting reader writer

def waitingWriter (w : World T) (channel : ℕ) : Option CaseId :=
  (w.waiters (.writers channel)).find? fun writer => (w.picked writer.select).isNone

/-- The item a writing case refers to. -/
def item (w : World T) (c : CaseId) : Option T :=
  match w.operation c with
  | some (.write _ item) => some item
  | _ => none

/-! ### Channels -/

def setItems (w : World T) (channel : ℕ) (items : List T) : World T :=
  { w with channel := Function.update w.channel channel { w.channel channel with items } }

def record (w : World T) (events : List (Transfer T)) : World T := { w with log := w.log++events }

/-- A reader takes the first item. -/
def receiveItem (w : World T) (channel : ℕ) (c : CaseId) (item : T) (items : List T) : World T :=
  ((w.setItems channel items).record [.received channel c item]).notify (.readers channel) c

/-- The item of a writer goes into the buffer. -/
def acceptItem (w : World T) (channel : ℕ) (c : CaseId) (item : T) : World T :=
  ((w.setItems channel ((w.channel channel).items++[item])).record
    [.accepted channel c item]).notify (.writers channel) c

/-- A reader learns that the channel is closed. -/
def reportClosed (w : World T) (channel : ℕ) (c : CaseId) : World T :=
  (w.record [.reportedClosed channel c]).notify (.readers channel) c

/-- Lets the first waiting writer put its item into the buffer. -/
def admitWriter (w : World T) (channel : ℕ) : World T :=
  match w.waitingWriter channel with
  | none => w
  | some writer =>
    match w.item writer with
    | none => w
    | some item => w.acceptItem channel writer item

/-- Hands the item of a writer to a reader. -/
def handOver (w : World T) (channel : ℕ) (reader writer : CaseId) : World T :=
  match w.item writer with
  | none => w
  | some item =>
    ((w.record [.accepted channel writer item,.received channel reader item]).notify
      (.readers channel) reader).notify (.writers channel) writer

/-- Whether the case is ready, and the state after it has been handled. -/
def handleRead (w : World T) (channel : ℕ) (c : CaseId) (enqueue : Bool) : World T × Bool :=
  match (w.channel channel).items with
  | item::items =>
    if w.picked c.select = none then
      ((w.receiveItem channel c item items).admitWriter channel,true)
    else (w,true)
  | [] =>
    match w.matchingWriter channel c with
    | some writer => (w.handOver channel c writer,true)
    | none =>
      if w.picked c.select ≠ none then (w,true)
      else if (w.channel channel).closed then (w.reportClosed channel c,true)
      else if enqueue then (w.pushBack (.readers channel) c,false)
      else (w,false)

def handleWrite (w : World T) (channel : ℕ) (item : T) (c : CaseId) (enqueue : Bool) :
    World T × Bool :=
  match w.matchingReader channel c with
  | some reader => (w.handOver channel reader c,true)
  | none =>
    if w.picked c.select ≠ none then (w,true)
    else if (w.channel channel).items.length < (w.channel channel).capacity then
      (w.acceptItem channel c item,true)
    else if enqueue then (w.pushBack (.writers channel) c,false)
    else (w,false)

/-- Picks the case and says whether it has been picked. -/
def pickNow (w : World T) (c : CaseId) : World T × Bool :=
  (w.tryPick c,(w.picked c.select).isNone)

def handleEvent (w : World T) (event : ℕ) (c : CaseId) (enqueue : Bool) : World T × Bool :=
  if w.notified event then w.pickNow c
  else if enqueue then (w.pushBack (.event event) c,false)
  else (w,false)

def handleCase (w : World T) (c : CaseId) (enqueue : Bool) : World T × Bool :=
  match w.operation c with
  | some (.read channel) => w.handleRead channel c enqueue
  | some (.write channel item) => w.handleWrite channel item c enqueue
  | some (.event event) => w.handleEvent event c enqueue
  | some .always => w.pickNow c
  | some .never => (w,false)
  | none => (w,false)

def unregisterCase (w : World T) (c : CaseId) : World T :=
  match (w.operation c).bind Operation.queue with
  | some (.event event) =>
    if w.notified event then w else w.unlinkFromList (.event event) c
  | some q => w.unlinkFromList q c
  | none => w

/-- Takes a case off its list before its call returns. -/
def unregister (w : World T) (c : CaseId) : World T :=
  { w.unregisterCase c with unregistered := w.unregistered++[c] }

/-- The readers that are not picked yet learn that the channel is closed. The next reader is
looked up before this one is taken off the list. -/
def releaseReaders (channel : ℕ) : ℕ → CaseId → World T → World T
  | 0, _, w => w
  | n+1, reader, w =>
    let last := decide (some (w.links.next reader) = w.head (.readers channel))
    let next := w.links.next reader
    let released := if w.picked reader.select = none then w.reportClosed channel reader else w
    if last then released else releaseReaders channel n next released

def markClosed (w : World T) (channel : ℕ) : World T :=
  { w with channel := Function.update w.channel channel { w.channel channel with closed := true } }

def close (w : World T) (channel : ℕ) : World T :=
  match w.head (.readers channel) with
  | none => w.markClosed channel
  | some reader => releaseReaders channel w.enqueued.length reader (w.markClosed channel)

def release (w : World T) (event : ℕ) (c : CaseId) : World T :=
  { (w.tryPick c).unlinkFromList (.event event) c with released := w.released++[c] }

def releaseCases (event : ℕ) : ℕ → World T → World T
  | 0, w => w
  | n+1, w =>
    match w.head (.event event) with
    | none => w
    | some c => releaseCases event n (w.release event c)

def markNotified (w : World T) (event : ℕ) : World T :=
  { w with notified := Function.update w.notified event true }

def notifyEvent (w : World T) (event : ℕ) : World T :=
  releaseCases event w.enqueued.length (w.markNotified event)

/-! ### Calls -/

def enroll (w : World T) (select : ℕ) (call : Call T) : World T :=
  { w with call := Function.update w.call select (some call) }

/-- Starts a call with a selector of its own. -/
def start (w : World T) (select : ℕ) (cases : List (Operation T)) (order : List ℕ)
    (needToBlock expirable : Bool) : World T :=
  if w.call select = none ∧ cases ≠ [] ∧ order.Perm (List.range cases.length) then
    w.enroll select ⟨cases,order,needToBlock,expirable,0,none,.handling⟩
  else w

/-- Calling Write on a closed channel ends the program. -/
def fatal (w : World T) (c : CaseId) : Bool :=
  match w.operation c with
  | some (.write channel _) => (w.channel channel).closed
  | _ => false

/-- The next step of the fiber that made the call. -/
def advance (w : World T) (select : ℕ) : World T :=
  match w.call select with
  | none => w
  | some call =>
    match call.phase with
    | .handling =>
      match call.order[call.registered]? with
      | none => w
      | some index =>
        if w.fatal ⟨select,index⟩ then w
        else
          let r := w.handleCase ⟨select,index⟩ call.needToBlock
          r.1.update select fun call => call.handled r.2
    | .waiting => if call.picked = none then w else w.update select (Call.enter (.unregistering 0))
    | .unregistering next =>
      if next < call.registered then
        match call.order[next]? with
        | none => w
        | some index =>
          let stepped := w.update select (Call.enter (.unregistering (next+1)))
          if call.picked = some index then stepped else stepped.unregister ⟨select,index⟩
      else
        let expired := call.picked = some call.cases.length
        w.update select (Call.enter (.returned (if expired then none else call.picked)))
    | .returned _ => w

/-- The deadline of a waiting call has passed. -/
def expire (w : World T) (select : ℕ) : World T :=
  match w.call select with
  | none => w
  | some call =>
    if call.phase = .waiting ∧ call.expirable ∧ call.picked = none then
      (w.update select (Call.pick call.cases.length)).update select
        (Call.enter (.unregistering 0))
    else w

end World

inductive Action (T : Type)
  | start (select : ℕ) (cases : List (Operation T)) (order : List ℕ) (needToBlock expirable : Bool)
  | advance (select : ℕ)
  | expire (select : ℕ)
  | close (channel : ℕ)
  | notify (event : ℕ)

/-- One locked section. Closing a closed channel, or one with blocked writers, and notifying an
event twice end the program. -/
def step {T : Type} (w : World T) : Action T → World T
  | .start select cases order needToBlock expirable =>
    w.start select cases order needToBlock expirable
  | .advance select => w.advance select
  | .expire select => w.expire select
  | .close channel =>
    if (w.channel channel).closed ∨ w.head (.writers channel) ≠ none then w else w.close channel
  | .notify event => if w.notified event then w else w.notifyEvent event

def run {T : Type} (capacity : ℕ → ℕ) (actions : List (Action T)) : World T :=
  Runs.after step (World.initial capacity) actions

end A11.Fibers
