import A11.DataTypes
import A11.Runs

/-! Subscriptions of one Redis client. The functions of the client run on its event loop, one
at a time; between them the server executes the commands of the connection in order, and its
replies arrive in order. -/
namespace A11.RedisSubscription
open List Function Option Runs

inductive Command
  | subscribe (channel : Bytes)
  | unsubscribe (channel : Bytes)
  deriving DecidableEq

/-- The frames the server sends on the subscriber connection. -/
inductive Frame
  | subscribe (channel : Bytes)
  | unsubscribe (channel : Bytes)
  | message (channel : Bytes)
  deriving DecidableEq

@[simp] def Command.acknowledgement : Command → Frame
  | .subscribe channel => .subscribe channel
  | .unsubscribe channel => .unsubscribe channel

/-- What the server has a connection subscribed to after a command. -/
def Command.execute (subscribed : Bytes → Bool) : Command → Bytes → Bool
  | .subscribe channel => update subscribed channel true
  | .unsubscribe channel => update subscribed channel false

/-! ### Listeners -/

/-- `Subscription::State` -/
structure Listener where
  channel : Bytes
  registered : Bool := false
  readyCompleted : Bool := false
  terminalStatus : Option Status := none
  generation : ℕ := 0
  /-- The object is still owned, so a weak reference to it can be locked. -/
  alive : Bool := true

namespace Listener

def markReady (l : Listener) : Listener :=
  if !l.readyCompleted && l.terminalStatus.isNone then { l with readyCompleted := true } else l

def fail (l : Listener) (status : Status) : Listener :=
  if l.terminalStatus.isSome then l
  else
    let status := if status.isOk then ⟨.unknown,"Redis subscription failed without an error"⟩
      else status
    { l with terminalStatus := some status, readyCompleted := true }

def notify (l : Listener) : Listener :=
  if l.terminalStatus.isSome then l
  else if l.generation = 2^64-1 then
    l.fail (.resourceExhausted "Redis subscription generation overflowed")
  else { l with generation := l.generation+1 }

/-- It was told that it is subscribed, and neither failed nor was released since. -/
def Ready (l : Listener) : Prop := l.readyCompleted = true ∧ l.terminalStatus = none

end Listener

/-! ### The client -/

structure Channel where
  commandSent : Bool := false
  subscribed : Bool := false
  unsubscribeAfterAck : Bool := false
  listeners : List ℕ := []

/-- The client, the two directions of its subscriber connection, and what the server has the
connection subscribed to. -/
structure World where
  listeners : ℕ → Option Listener := fun _ => none
  channels : Bytes → Option Channel := fun _ => none
  subscriberContext : Bool := false
  readyCompleted : Bool := false
  closing : Bool := false
  terminalStatus : Option Status := none
  commands : List Command := []
  subscribed : Bytes → Bool := fun _ => false
  replies : List Frame := []

namespace World

def setChannel (w : World) (name : Bytes) (channel : Option Channel) : World :=
  { w with channels := update w.channels name channel }

/-- A change to every listener that a channel still reaches. -/
def onListeners (w : World) (ids : List ℕ) (f : Listener → Listener) : World :=
  { w with listeners := fun id => (w.listeners id).map fun l =>
      if id ∈ ids ∧ l.alive = true then f l else l }

def expired (w : World) (id : ℕ) : Bool :=
  match w.listeners id with
  | some l => !l.alive
  | none => true

def removeExpiredListeners (w : World) (channel : Channel) : Channel :=
  { channel with listeners := channel.listeners.filter (!w.expired ·) }

/-- The channel of a listener still lists it. -/
def reaches (w : World) (id : ℕ) (l : Listener) : Bool :=
  match w.channels l.channel with
  | some channel => id ∈ channel.listeners && l.alive
  | none => false

def fail (w : World) (status : Status) : World :=
  if w.terminalStatus.isSome then w
  else
    let status := if status.isOk then ⟨.unknown,"Redis client failed without an error"⟩ else status
    { w with
      terminalStatus := some status
      readyCompleted := true
      listeners := fun id => (w.listeners id).map fun l =>
        if w.reaches id l then l.fail status else l
      channels := fun _ => none }

/-- `queued` is what hiredis answers to a command. -/
def ensureSubscribed (w : World) (name : Bytes) (queued : Bool) : World :=
  match w.channels name with
  | none => w
  | some channel =>
    let channel := w.removeExpiredListeners channel
    if channel.listeners = [] ∨ channel.commandSent ∨ channel.subscribed ∨
        w.subscriberContext = false then
      w.setChannel name (some channel)
    else if !queued then w.fail (.unavailable "Could not queue Redis SUBSCRIBE")
    else
      setChannel { w with commands := w.commands++[.subscribe name] } name
        (some { channel with commandSent := true })

def sendUnsubscribe (w : World) (name : Bytes) (channel : Channel) (queued : Bool) : World :=
  if w.subscriberContext = false then w.setChannel name (some channel)
  else if !queued then w.fail (.unavailable "Could not queue Redis UNSUBSCRIBE")
  else
    setChannel { w with commands := w.commands++[.unsubscribe name] } name
      (some { channel with subscribed := false, unsubscribeAfterAck := false })

def registerSubscription (w : World) (id : ℕ) (l : Listener) (queued : Bool) : World :=
  match w.terminalStatus with
  | some status => w.onListeners [id] (·.fail status)
  | none =>
    if w.closing then w.onListeners [id] (·.fail (.cancelled "Redis client is closing"))
    else
      let channel := (w.channels l.channel).getD {}
      let channel := { channel with listeners := channel.listeners++[id] }
      let w := w.setChannel l.channel (some channel)
      if channel.subscribed then w.onListeners [id] Listener.markReady
      else if w.readyCompleted then w.ensureSubscribed l.channel queued
      else w

def removeSubscription (w : World) (name : Bytes) (id : ℕ) (queued : Bool) : World :=
  match w.channels name with
  | none => w
  | some channel =>
    let channel := { channel with
      listeners := channel.listeners.filter fun other => !w.expired other && other ≠ id }
    if channel.listeners ≠ [] then w.setChannel name (some channel)
    else if channel.subscribed then w.sendUnsubscribe name channel queued
    else if channel.commandSent then
      w.setChannel name (some { channel with unsubscribeAfterAck := true })
    else w.setChannel name none

/-- The channel as an acknowledgement leaves it. -/
def settled (w : World) (channel : Channel) (subscribed : Bool) : Channel :=
  { w.removeExpiredListeners channel with commandSent := false, subscribed := subscribed }

def onPubSubReply (w : World) (frame : Frame) (queued : Bool) : World :=
  match frame with
  | .subscribe name =>
    match w.channels name with
    | none => w
    | some channel =>
      let channel := w.settled channel true
      let w := (w.setChannel name (some channel)).onListeners channel.listeners Listener.markReady
      if channel.listeners = [] ∨ channel.unsubscribeAfterAck then
        w.sendUnsubscribe name channel queued
      else w
  | .unsubscribe name =>
    match w.channels name with
    | none => w
    | some channel =>
      let channel := w.settled channel false
      if channel.listeners = [] then w.setChannel name none
      else (w.setChannel name (some channel)).ensureSubscribed name queued
  | .message name =>
    match w.channels name with
    | none => w
    | some channel =>
      let channel := w.removeExpiredListeners channel
      (w.setChannel name (some channel)).onListeners channel.listeners Listener.notify

/-- `MaybeReady`: the channels in the order the hash map lists them. -/
def ready (w : World) (names : List Bytes) (queued : Bool) : World :=
  if w.readyCompleted || w.terminalStatus.isSome || w.closing then w
  else names.foldl (fun w name => w.ensureSubscribed name queued)
    { w with readyCompleted := true, subscriberContext := true }

/-- The server executes a command and acknowledges it. -/
def serve (w : World) (command : Command) (commands : List Command) : World :=
  { w with
    commands := commands
    subscribed := command.execute w.subscribed
    replies := w.replies++[command.acknowledgement] }

end World

inductive Action
  /-- `Subscribe` makes a listener and posts its registration. -/
  | subscribe (id : ℕ) (channel : Bytes)
  | register (id : ℕ) (queued : Bool)
  /-- A listener fails: its owner released it, its deadline passed, or it was cancelled. -/
  | settle (id : ℕ) (status : Status)
  /-- The last owner of a released listener is gone. -/
  | expire (id : ℕ)
  /-- The release of a listener, on the loop. -/
  | remove (id : ℕ) (queued : Bool)
  | ready (names : List Bytes) (queued : Bool)
  | serve
  | publish (channel : Bytes)
  | reply (queued : Bool)
  | fail (status : Status)
  | close

def step (w : World) : Action → World
  | .subscribe id channel =>
    if (w.listeners id).isNone then
      { w with listeners := update w.listeners id (some { channel := channel }) }
    else w
  | .register id queued =>
    match w.listeners id with
    | some l =>
      if l.registered then w
      else
        World.registerSubscription { w with
          listeners := update w.listeners id (some { l with registered := true }) }
          id l queued
    | none => w
  | .settle id status => w.onListeners [id] (·.fail status)
  | .expire id =>
    { w with listeners := fun other => (w.listeners other).map fun l =>
        if other = id ∧ l.registered ∧ l.terminalStatus.isSome then { l with alive := false } else l }
  | .remove id queued =>
    match w.listeners id with
    | some l => if l.terminalStatus.isSome then w.removeSubscription l.channel id queued else w
    | none => w
  | .ready names queued => w.ready names queued
  | .serve =>
    match w.commands with
    | [] => w
    | command::commands => w.serve command commands
  | .publish channel =>
    if w.subscribed channel then { w with replies := w.replies++[.message channel] } else w
  | .reply queued =>
    match w.replies with
    | [] => w
    | frame::replies => World.onPubSubReply { w with replies := replies } frame queued
  | .fail status => w.fail status
  | .close =>
    if w.closing then w
    else World.fail { w with closing := true } (.cancelled "Redis client was closed")

/-! ### Commands under way -/

/-- What a frame answers on a channel: a SUBSCRIBE or an UNSUBSCRIBE. -/
@[simp] def Frame.answers (name : Bytes) : Frame → Option Bool
  | .subscribe channel => if channel = name then some true else none
  | .unsubscribe channel => if channel = name then some false else none
  | .message _ => none

/-- The commands of a channel the client has no answer to, oldest first: `true` is a
SUBSCRIBE. -/
def World.outstanding (w : World) (name : Bytes) : List Bool :=
  w.replies.filterMap (Frame.answers name)++
    (w.commands.map Command.acknowledgement).filterMap (Frame.answers name)

/-- A listener is not registered on a channel that is to be unsubscribed when its SUBSCRIBE is
answered, and an UNSUBSCRIBE is not sent while a SUBSCRIBE of its channel is unanswered. -/
def Orderly (w : World) : Action → Prop
  | .register id _ => ∀ l ∈ w.listeners id, ∀ channel ∈ w.channels l.channel,
      channel.unsubscribeAfterAck = false
  | .remove id _ => ∀ l ∈ w.listeners id, ∀ channel ∈ w.channels l.channel,
      channel.subscribed = true →
      (channel.listeners.filter fun other => !w.expired other && other ≠ id) = [] →
      true ∉ w.outstanding l.channel
  | .reply _ => ∀ name replies, w.replies = .subscribe name::replies →
      ∀ channel ∈ w.channels name,
      ((w.removeExpiredListeners channel).listeners = [] ∨ channel.unsubscribeAfterAck = true) →
      true ∉ World.outstanding { w with replies := replies } name
  | _ => True

structure Inv (w : World) : Prop where
  alive : ∀ id l, w.listeners id = some l → l.terminalStatus = none → l.alive = true
  ready : ∀ id l, w.listeners id = some l → l.Ready → ∃ channel,
    w.channels l.channel = some channel ∧ channel.subscribed = true ∧ id ∈ channel.listeners
  subscribed : ∀ name channel, w.channels name = some channel → channel.subscribed = true →
    w.subscribed name = true ∧ false ∉ w.outstanding name
  served : ∀ name, true ∈ w.replies.filterMap (Frame.answers name) → w.subscribed name = true
  /-- Only the oldest unanswered command of a channel can be an UNSUBSCRIBE. -/
  order : ∀ name, false ∉ (w.outstanding name).tail
  doomed : ∀ name channel, w.channels name = some channel →
    channel.unsubscribeAfterAck = true → channel.listeners = []
  listed : ∀ name channel, w.channels name = some channel → ∀ id ∈ channel.listeners,
    ∃ l, w.listeners id = some l ∧ l.channel = name

section Changes

variable {w : World}

theorem inv_empty : Inv {} := by
  constructor <;> simp [World.outstanding]

@[simp] theorem setChannel_channels_self (w : World) (name : Bytes) (channel : Option Channel) :
    (w.setChannel name channel).channels name = channel := update_self ..

@[simp] theorem onListeners_channels (w : World) (ids : List ℕ) (f : Listener → Listener) :
    (w.onListeners ids f).channels = w.channels := rfl

/-- A change of a listener that neither moves it nor takes back how it ended. -/
structure Listener.Follows (l new : Listener) : Prop where
  channel : new.channel = l.channel
  open_alive : new.terminalStatus = none → l.terminalStatus = none ∧ new.alive = l.alive

theorem Listener.Follows.refl (l : Listener) : l.Follows l := ⟨rfl,fun hnone => ⟨hnone,rfl⟩⟩

/-- A change of listeners that makes ready only what a subscribed channel lists. -/
theorem Inv.mapListeners (h : Inv w) (f : ℕ → Listener → Listener)
    (hf : ∀ id l, w.listeners id = some l → l.Follows (f id l) ∧
      ((f id l).Ready → l.Ready ∨ ∃ channel,
        w.channels l.channel = some channel ∧ channel.subscribed = true ∧
        id ∈ channel.listeners)) :
    Inv { w with listeners := fun id => (w.listeners id).map (f id) } := { h with
  alive id l hl hterminal := by
    obtain ⟨old,hold,rfl⟩ := map_eq_some_iff.mp hl
    obtain ⟨hopen,halive⟩ := (hf id old hold).1.open_alive hterminal
    rw [halive]
    exact h.alive id old hold hopen
  ready id l hl hready := by
    obtain ⟨old,hold,rfl⟩ := map_eq_some_iff.mp hl
    rw [(hf id old hold).1.channel]
    exact ((hf id old hold).2 hready).elim (h.ready id old hold) fun hfnd => hfnd
  listed name channel hch id hid := by
    obtain ⟨old,hold,hname⟩ := h.listed name channel hch id hid
    exact ⟨f id old,by simp [hold],(hf id old hold).1.channel.trans hname⟩ }

variable {name : Bytes}

theorem forall_update_some {α β : Type} [DecidableEq α] {f : α → Option β} {a : α} {v : Option β}
    {P : α → β → Prop} (hnew : ∀ y, v = some y → P a y) (hold : ∀ x y, f x = some y → P x y) :
    ∀ x y, update f a v x = some y → P x y := by
  intro x y hy
  by_cases hx : x = a
  · subst hx
    exact hnew y (by simpa using hy)
  · exact hold x y (by simpa [hx] using hy)

/-- A change of one channel. -/
theorem Inv.setChannel (h : Inv w) {channel : Option Channel}
    (hrdy : ∀ id l, w.listeners id = some l → l.Ready → l.channel = name → ∃ new,
      channel = some new ∧ new.subscribed = true ∧ id ∈ new.listeners)
    (hsubscribed : ∀ new, channel = some new → new.subscribed = true →
      w.subscribed name = true ∧ false ∉ w.outstanding name)
    (hdoomed : ∀ new, channel = some new → new.unsubscribeAfterAck = true → new.listeners = [])
    (hlist : ∀ new, channel = some new → ∀ id ∈ new.listeners,
      ∃ l, w.listeners id = some l ∧ l.channel = name) : Inv (w.setChannel name channel) := { h with
  ready id l hl hr := by
    by_cases hname : l.channel = name
    · simpa [World.setChannel,hname] using hrdy id l hl hr hname
    · simpa [World.setChannel,hname] using h.ready id l hl hr
  subscribed := forall_update_some hsubscribed h.subscribed
  doomed := forall_update_some hdoomed h.doomed
  listed := forall_update_some hlist h.listed }

theorem outstanding_append (w : World) (command : Command) (name : Bytes) :
    World.outstanding { w with commands := w.commands++[command] } name =
      w.outstanding name++(Frame.answers name command.acknowledgement).toList := by
  simp only [World.outstanding,map_append,map_cons,filterMap_append,append_assoc,filterMap_cons]
  cases Frame.answers name command.acknowledgement <;> rfl

theorem answers_acknowledgement {command : Command} {b : Bool} :
    Frame.answers name command.acknowledgement = some b ↔
      command = bif b then .subscribe name else .unsubscribe name := by
  cases command <;> cases b <;> simp

theorem notMem_tail_append {xs ys : List Bool} (hxs : false ∉ xs.tail) (hys : xs = [] ∨ false ∉ ys)
    (hone : ys.length ≤ 1) : false ∉ (xs++ys).tail := by
  cases xs with
  | nil =>
    cases ys with
    | nil => simp
    | cons y ys =>
      cases ys with
      | nil => simp
      | cons z ys => simp at hone
  | cons x xs => simpa using ⟨by simpa using hxs,by simpa using hys⟩

/-- A command that may be sent: an UNSUBSCRIBE only when nothing is unanswered, and then not on
a channel the client takes for subscribed. -/
theorem Inv.sendCommand (h : Inv w) (command : Command)
    (hcmd : ∀ name, command = .unsubscribe name → w.outstanding name = [] ∧
      ∀ channel, w.channels name = some channel → channel.subscribed = false) :
    Inv { w with commands := w.commands++[command] } := { h with
  subscribed name channel hch hsub := by
    obtain ⟨hsrv,hnone⟩ := h.subscribed name channel hch hsub
    rw [outstanding_append,mem_append,not_or]
    refine ⟨hsrv,hnone,fun hmem => ?_⟩
    rw [(hcmd name (answers_acknowledgement.mp (mem_toList.mp hmem))).2 channel hch] at hsub
    cases hsub
  order name := by
    rw [outstanding_append]
    refine notMem_tail_append (h.order name) ?_ (by
      cases Frame.answers name command.acknowledgement <;> simp)
    by_cases hname : command = .unsubscribe name
    · exact .inl (hcmd name hname).1
    · exact .inr fun hmem => hname (answers_acknowledgement.mp (mem_toList.mp hmem)) }

section

variable (l : Listener) (status : Status)

theorem Listener.fail_terminalStatus : (l.fail status).terminalStatus ≠ none := by
  unfold Listener.fail
  split
  · intro hnone
    simp_all
  · simp

theorem Listener.not_ready_fail : ¬(l.fail status).Ready :=
  fun hrdy => l.fail_terminalStatus status hrdy.2

theorem Listener.follows_fail : l.Follows (l.fail status) := by
  refine ⟨?_,fun hnone => absurd hnone (l.fail_terminalStatus status)⟩
  unfold Listener.fail
  split <;> rfl

end

/-- A change to the listeners that a channel reaches. -/
theorem Inv.onListeners (h : Inv w) (ids : List ℕ) (f : Listener → Listener)
    (hf : ∀ l : Listener, l.Follows (f l))
    (hrdy : ∀ id l, id ∈ ids → w.listeners id = some l → (f l).Ready → l.Ready ∨ ∃ channel,
      w.channels l.channel = some channel ∧ channel.subscribed = true ∧ id ∈ channel.listeners) :
    Inv (w.onListeners ids f) := by
  refine h.mapListeners (fun id l => if id ∈ ids ∧ l.alive = true then f l else l) fun id l hl => ?_
  split
  · rename_i hid
    exact ⟨hf l,hrdy id l hid.1 hl⟩
  · exact ⟨.refl l,.inl⟩

theorem Inv.failListeners (h : Inv w) (ids : List ℕ) (status : Status) :
    Inv (w.onListeners ids (·.fail status)) :=
  h.onListeners ids _ (fun l => l.follows_fail status)
    fun _ l _ _ hrdy => absurd hrdy (l.not_ready_fail status)

/-- When the client fails, it fails every listener that was ready. -/
theorem Inv.fail (h : Inv w) (status : Status) : Inv (w.fail status) := by
  unfold World.fail
  split
  · exact h
  generalize (if status.isOk = true then (⟨.unknown,"Redis client failed without an error"⟩ : Status)
    else status) = final
  constructor
  · intro id l hl hnone
    obtain ⟨old,hold,rfl⟩ := map_eq_some_iff.mp hl
    by_cases hreaches : w.reaches id old = true
    · rw [if_pos hreaches] at hnone
      exact absurd hnone (old.fail_terminalStatus final)
    · rw [if_neg hreaches] at hnone ⊢
      exact h.alive id old hold hnone
  · intro id l hl hready
    obtain ⟨old,hold,rfl⟩ := map_eq_some_iff.mp hl
    by_cases hreaches : w.reaches id old = true
    · rw [if_pos hreaches] at hready
      exact absurd hready (old.not_ready_fail final)
    rw [if_neg hreaches] at hready
    obtain ⟨_,hchannel,-,hid⟩ := h.ready id old hold hready
    have halive := h.alive id old hold hready.2
    simp [World.reaches,hchannel,hid,halive] at hreaches
  · simp
  · exact h.served
  · exact h.order
  · simp
  · simp

variable {channel : Channel} {id : ℕ}

theorem mem_removeExpired : id ∈ (w.removeExpiredListeners channel).listeners ↔
      id ∈ channel.listeners ∧ w.expired id = false := by
  simp [World.removeExpiredListeners]

variable {l : Listener}

/-- A listener that is ready is not lost among the expired ones. -/
theorem Inv.not_expired (h : Inv w) (hl : w.listeners id = some l)
    (hrdy : l.Ready) : w.expired id = false := by
  simp [World.expired,hl,h.alive id l hl hrdy.2]

/-- Dropping expired listeners and forgetting a command that is under way loses no listener. -/
theorem Inv.pruned (h : Inv w) {new : Channel} (hch : w.channels name = some channel)
    (hlis : new.listeners = (w.removeExpiredListeners channel).listeners)
    (hrdy : channel.subscribed = true → new.subscribed = true)
    (hsubscribed : new.subscribed = true → w.subscribed name = true ∧ false ∉ w.outstanding name)
    (hdoomed : new.unsubscribeAfterAck = channel.unsubscribeAfterAck) :
    Inv (w.setChannel name (some new)) := by
  refine h.setChannel ?_ ?_ ?_ ?_
  · rintro id l hl hr rfl
    obtain ⟨_,hfnd,hsub,hid⟩ := h.ready id l hl hr
    obtain rfl := some.inj (hch.symm.trans hfnd)
    refine ⟨new,rfl,hrdy hsub,?_⟩
    rw [hlis,mem_removeExpired]
    exact ⟨hid,h.not_expired hl hr⟩
  · rintro _ ⟨rfl⟩
    exact hsubscribed
  · rintro _ ⟨rfl⟩ hafter
    rw [hlis,World.removeExpiredListeners,h.doomed name channel hch (hdoomed.symm.trans hafter)]
    rfl
  · rintro _ ⟨rfl⟩ id hid
    rw [hlis,mem_removeExpired] at hid
    exact h.listed name channel hch id hid.1

/-- A channel that no ready listener is on may be left without listeners. -/
theorem Inv.silent (h : Inv w) {new : Channel}
    (hrdy : ∀ id l, w.listeners id = some l → l.Ready → l.channel ≠ name)
    (hemp : new.listeners = [])
    (hsub : new.subscribed = true → w.subscribed name = true ∧ false ∉ w.outstanding name) :
    Inv (w.setChannel name (some new)) := by
  refine h.setChannel ?_ ?_ ?_ ?_
  · exact fun id l hl hr hname => absurd hname (hrdy id l hl hr)
  · rintro _ ⟨rfl⟩
    exact hsub
  · rintro _ ⟨rfl⟩ -
    exact hemp
  · rintro _ ⟨rfl⟩ id hid
    simp [hemp] at hid

theorem Inv.ensureSubscribed (h : Inv w) (name : Bytes) (queued : Bool) :
    Inv (w.ensureSubscribed name queued) := by
  unfold World.ensureSubscribed
  split
  · exact h
  rename_i channel hch
  dsimp only
  split
  · exact h.pruned hch rfl id (h.subscribed name channel hch) rfl
  split
  · exact h.fail _
  · have hsent : Inv { w with commands := w.commands++[.subscribe name] } :=
      h.sendCommand _ (by simp)
    exact hsent.pruned hch rfl id (hsent.subscribed name channel hch) rfl

/-- An UNSUBSCRIBE may be sent when nobody listens and nothing is unanswered. -/
theorem Inv.sendUnsubscribe (h : Inv w) (queued : Bool)
    (hemp : channel.listeners = []) (hnone : w.outstanding name = [])
    (hrdy : ∀ id l, w.listeners id = some l → l.Ready → l.channel ≠ name)
    (hsrv : channel.subscribed = true → w.subscribed name = true) :
    Inv (w.sendUnsubscribe name channel queued) := by
  unfold World.sendUnsubscribe
  split
  · exact h.silent hrdy hemp fun hsub => ⟨hsrv hsub,by simp [hnone]⟩
  split
  · exact h.fail _
  have hset : Inv (w.setChannel name
      (some { channel with subscribed := false, unsubscribeAfterAck := false })) :=
    h.silent hrdy hemp (by simp)
  refine hset.sendCommand (.unsubscribe name) ?_
  rintro _ ⟨rfl⟩
  refine ⟨hnone,fun found hfnd => ?_⟩
  obtain rfl : { channel with subscribed := false, unsubscribeAfterAck := false } = found := by
    simpa [World.setChannel] using hfnd
  rfl

theorem eq_nil_of_notMem {xs : List Bool} (htrue : true ∉ xs) (hfalse : false ∉ xs) : xs = [] := by
  cases xs with
  | nil => rfl
  | cons x xs => cases x <;> simp at htrue hfalse

/-- A new listener is not ready yet. -/
theorem Inv.subscribe (h : Inv w) (hfresh : w.listeners id = none) (name : Bytes) :
    Inv { w with listeners := update w.listeners id (some { channel := name }) } := { h with
  alive := forall_update_some (by rintro _ ⟨rfl⟩ _; rfl) h.alive
  ready := forall_update_some (by rintro _ ⟨rfl⟩ hready; cases hready.1) h.ready
  listed other channel hch i hi := by
    obtain ⟨l,hl,hname⟩ := h.listed other channel hch i hi
    have hne : i ≠ id := by
      rintro rfl
      rw [hfresh] at hl
      cases hl
    exact ⟨l,by simpa [hne] using hl,hname⟩ }

theorem Listener.follows_markReady (l : Listener) : l.Follows l.markReady := by
  unfold Listener.markReady
  split <;> exact ⟨rfl,fun hnone => ⟨hnone,rfl⟩⟩

theorem Inv.registerSubscription (h : Inv w) (queued : Bool)
    (hl : ∃ found, w.listeners id = some found ∧ found.channel = l.channel)
    (hord : ∀ channel ∈ w.channels l.channel, channel.unsubscribeAfterAck = false) :
    Inv (w.registerSubscription id l queued) := by
  unfold World.registerSubscription
  split
  · exact h.failListeners _ _
  split
  · exact h.failListeners _ _
  dsimp only
  generalize hold : (w.channels l.channel).getD {} = old
  have hlist : Inv (w.setChannel l.channel
      (some { old with listeners := old.listeners++[id] })) := by
    cases hch : w.channels l.channel with
    | none =>
      rw [hch] at hold
      obtain rfl : ({} : _) = old := hold
      refine h.setChannel ?_ (by simp) (by simp) (by simpa using hl)
      intro other m hm hrdy hname
      obtain ⟨found,hfnd,-⟩ := h.ready other m hm hrdy
      rw [hname,hch] at hfnd
      cases hfnd
    | some channel =>
      rw [hch] at hold
      obtain rfl : channel = old := hold
      refine h.setChannel ?_ ?_ ?_ ?_
      · intro other m hm hrdy hname
        obtain ⟨found,hfnd,hsub,hid⟩ := h.ready other m hm hrdy
        rw [hname] at hfnd
        obtain rfl := some.inj (hch.symm.trans hfnd)
        exact ⟨_,rfl,hsub,mem_append_left _ hid⟩
      · rintro _ ⟨rfl⟩ hsub
        exact h.subscribed _ channel hch hsub
      · rintro _ ⟨rfl⟩ hafter
        exact absurd ((hord channel hch).symm.trans hafter) (by simp)
      · rintro _ ⟨rfl⟩ other hoth
        rcases mem_append.mp hoth with hoth | hoth
        · exact h.listed _ channel hch other hoth
        · obtain rfl : other = id := by simpa using hoth
          exact hl
  split
  · rename_i hsub
    refine hlist.onListeners _ _ Listener.follows_markReady ?_
    intro other m hoth hm _
    obtain rfl : other = id := by simpa using hoth
    obtain ⟨found,hfnd,hname⟩ := hl
    obtain rfl : found = m := some.inj (hfnd.symm.trans hm)
    refine .inr ⟨{ old with listeners := old.listeners++[other] },?_,hsub,by simp⟩
    simp [World.setChannel,hname]
  · split
    · exact hlist.ensureSubscribed _ _
    · exact hlist

theorem Inv.removeSubscription (h : Inv w) (queued : Bool)
    (hl : w.listeners id = some l) (hterm : l.terminalStatus ≠ none)
    (hord : ∀ channel ∈ w.channels l.channel, channel.subscribed = true →
      (channel.listeners.filter fun other => !w.expired other && other ≠ id) = [] →
      true ∉ w.outstanding l.channel) : Inv (w.removeSubscription l.channel id queued) := by
  unfold World.removeSubscription
  split
  · exact h
  rename_i channel hch
  dsimp only
  have hkept (other : ℕ) (m : Listener) (hm : w.listeners other = some m) (hrdy : m.Ready)
      (hname : m.channel = l.channel) : channel.subscribed = true ∧
      other ∈ channel.listeners.filter fun other => !w.expired other && other ≠ id := by
    obtain ⟨_,hfnd,hsub,hmem⟩ := h.ready other m hm hrdy
    rw [hname] at hfnd
    obtain rfl := some.inj (hch.symm.trans hfnd)
    have hne : other ≠ id := by
      rintro rfl
      obtain rfl := some.inj (hl.symm.trans hm)
      exact hterm hrdy.2
    exact ⟨hsub,by simp [hmem,h.not_expired hm hrdy,hne]⟩
  split
  · refine h.setChannel ?_ ?_ ?_ ?_
    · exact fun other m hm hrdy hname => ⟨_,rfl,hkept other m hm hrdy hname⟩
    · rintro _ ⟨rfl⟩ hsub
      exact h.subscribed _ channel hch hsub
    · rintro _ ⟨rfl⟩ hafter
      simp [h.doomed _ channel hch hafter]
    · rintro _ ⟨rfl⟩ other hoth
      exact h.listed _ channel hch other (mem_of_mem_filter hoth)
  · rename_i hemp
    rw [not_not] at hemp
    have hnobody (other : ℕ) (m : Listener) (hm : w.listeners other = some m) (hrdy : m.Ready) :
        m.channel ≠ l.channel := by
      intro hname
      have hmem := (hkept other m hm hrdy hname).2
      rw [hemp] at hmem
      simp at hmem
    split
    · rename_i hsub
      obtain ⟨hsrv,hfalse⟩ := h.subscribed _ channel hch hsub
      exact h.sendUnsubscribe queued hemp
        (eq_nil_of_notMem (hord channel hch hsub hemp) hfalse) hnobody fun _ => hsrv
    rename_i hsub
    split
    · exact h.silent hnobody hemp fun hsubscribed => absurd hsubscribed hsub
    · refine h.setChannel ?_ (by simp) (by simp) (by simp)
      exact fun other m hm hrdy hname => absurd hname (hnobody other m hm hrdy)

variable {replies : List Frame}

theorem outstanding_pop {frame : Frame} (hrep : w.replies = frame::replies)
    (name : Bytes) : w.outstanding name =
      (frame.answers name).toList++World.outstanding { w with replies := replies } name := by
  rw [World.outstanding,hrep,filterMap_cons]
  cases frame.answers name <;> rfl

/-- Taking a frame off the connection. -/
theorem Inv.pop (h : Inv w) {frame : Frame}
    (hrep : w.replies = frame::replies) : Inv { w with replies := replies } := { h with
  subscribed name channel hch hsub := by
    obtain ⟨hsrv,hfalse⟩ := h.subscribed name channel hch hsub
    rw [outstanding_pop hrep] at hfalse
    exact ⟨hsrv,fun hmem => hfalse (mem_append_right _ hmem)⟩
  served name htrue := by
    refine h.served name ?_
    rw [hrep,filterMap_cons]
    cases frame.answers name with
    | none => exact htrue
    | some b => exact mem_cons_of_mem _ htrue
  order name := by
    have hord := h.order name
    rw [outstanding_pop hrep] at hord
    cases hanswers : frame.answers name <;> rw [hanswers] at hord
    · exact hord
    · exact fun hmem => hord (mem_of_mem_tail hmem) }

/-- A SUBSCRIBE is answered, and the answer is taken off the connection. -/
theorem Inv.acknowledged (h : Inv w) (queued : Bool) (hsrv : w.subscribed name = true)
    (hfalse : false ∉ w.outstanding name) (hord : ∀ channel ∈ w.channels name,
      ((w.removeExpiredListeners channel).listeners = [] ∨ channel.unsubscribeAfterAck = true) →
      true ∉ w.outstanding name) : Inv (w.onPubSubReply (.subscribe name) queued) := by
  unfold World.onPubSubReply
  dsimp only
  cases hch : w.channels name with
  | none => exact h
  | some channel =>
    dsimp only
    have hset : Inv (w.setChannel name (some (w.settled channel true))) :=
      h.pruned hch rfl (fun _ => rfl) (fun _ => ⟨hsrv,hfalse⟩) rfl
    have hmark := hset.onListeners (w.settled channel true).listeners Listener.markReady
      Listener.follows_markReady (by
        intro id l hid hl _
        obtain ⟨found,hfnd,hname⟩ := h.listed name channel hch id (mem_removeExpired.mp hid).1
        obtain rfl := some.inj (hfnd.symm.trans hl)
        exact .inr ⟨_,by rw [hname,setChannel_channels_self],rfl,hid⟩)
    split
    · rename_i hstop
      have hemp : (w.settled channel true).listeners = [] := by
        rcases hstop with hemp | hdoomed
        · exact hemp
        · simp [World.settled,World.removeExpiredListeners,h.doomed name channel hch hdoomed]
      refine hmark.sendUnsubscribe queued hemp
        (eq_nil_of_notMem (hord channel hch (.inl hemp)) hfalse) ?_ fun _ => hsrv
      rintro id l hl hrdy rfl
      obtain ⟨found,hfnd,-,hid⟩ := hmark.ready id l hl hrdy
      rw [onListeners_channels,setChannel_channels_self] at hfnd
      rw [← some.inj hfnd,hemp] at hid
      simp at hid
    · exact hmark

theorem Inv.unsubscribed (h : Inv w) (queued : Bool)
    (hrep : w.replies = .unsubscribe name::replies) :
    Inv (World.onPubSubReply { w with replies := replies } (.unsubscribe name) queued) := by
  have hpop := h.pop hrep
  have hquiet (channel : Channel) (hch : w.channels name = some channel) :
      channel.subscribed ≠ true := by
    intro hsub
    refine (h.subscribed _ channel hch hsub).2 ?_
    rw [outstanding_pop hrep]
    simp
  unfold World.onPubSubReply
  dsimp only
  cases hch : w.channels name with
  | none => exact hpop
  | some channel =>
    dsimp only
    split
    · refine hpop.setChannel ?_ (by simp) (by simp) (by simp)
      rintro id l hl hrdy rfl
      obtain ⟨found,hfnd,hsub,-⟩ := h.ready id l hl hrdy
      exact absurd hsub (hquiet found hfnd)
    refine Inv.ensureSubscribed (hpop.pruned hch ?_ ?_ ?_ ?_) _ _
    · rfl
    · exact fun hsub => absurd hsub (hquiet channel hch)
    · exact fun hsub => nomatch hsub
    · rfl

theorem Listener.follows_notify (l : Listener) :
    l.Follows l.notify ∧ (l.notify.Ready → l.Ready) := by
  unfold Listener.notify
  split
  · exact ⟨.refl l,id⟩
  split
  · exact ⟨l.follows_fail _,fun hrdy => absurd hrdy (l.not_ready_fail _)⟩
  · exact ⟨⟨rfl,fun hnone => ⟨hnone,rfl⟩⟩,id⟩

theorem Inv.message (h : Inv w) (name : Bytes) (queued : Bool) :
    Inv (w.onPubSubReply (.message name) queued) := by
  unfold World.onPubSubReply
  dsimp only
  cases hch : w.channels name with
  | none => exact h
  | some channel =>
    refine (h.pruned hch rfl id (h.subscribed name channel hch) rfl).onListeners _ _ ?_ ?_
    · exact fun l => l.follows_notify.1
    · exact fun id l _ _ hrdy => .inl (l.follows_notify.2 hrdy)

end Changes

variable {w : World}

/-- The server executes the oldest command. -/
theorem Inv.serve (h : Inv w) : Inv (step w .serve) := by
  rw [step]
  cases hcommands : w.commands with
  | nil => exact h
  | cons command commands =>
    dsimp only
    have hsame (name : Bytes) : (w.serve command commands).outstanding name = w.outstanding name := by
      rw [World.outstanding,World.outstanding,hcommands,map_cons,World.serve,
        filterMap_append,append_assoc,filterMap_cons,filterMap_cons]
      cases Frame.answers name command.acknowledgement <;> rfl
    -- An UNSUBSCRIBE that is executed now is the oldest unanswered command.
    have holdest (name : Bytes) (hcmd : command = .unsubscribe name) :
        w.replies.filterMap (Frame.answers name) = [] ∧ false ∈ w.outstanding name := by
      have hord := h.order name
      rw [World.outstanding,hcommands,hcmd,map_cons] at hord ⊢
      refine ⟨?_,by simp⟩
      cases hrep : w.replies.filterMap (Frame.answers name) with
      | nil => rfl
      | cons b bs =>
        rw [hrep] at hord
        simp at hord
    have hstays (name : Bytes) (hne : command ≠ .unsubscribe name)
        (hsrv : w.subscribed name = true) : command.execute w.subscribed name = true := by
      cases command with
      | subscribe other => by_cases heq : name = other <;> simp [Command.execute,heq,hsrv]
      | unsubscribe other =>
        have heq : name ≠ other := fun heq => hne (by rw [heq])
        simpa [Command.execute,heq] using hsrv
    refine { h with subscribed := ?_, served := ?_, order := ?_ }
    · intro name channel hch hsub
      obtain ⟨hsrv,hfalse⟩ := h.subscribed name channel hch hsub
      rw [hsame]
      exact ⟨hstays name (fun hcmd => hfalse (holdest name hcmd).2) hsrv,hfalse⟩
    · intro name htrue
      rw [World.serve,filterMap_append,mem_append] at htrue
      by_cases hcmd : command = .unsubscribe name
      · rw [(holdest name hcmd).1,hcmd] at htrue
        simp at htrue
      rcases htrue with htrue | hlast
      · exact hstays name hcmd (h.served name htrue)
      · obtain rfl : command = .subscribe name := answers_acknowledgement.mp (by simpa using hlast)
        exact update_self ..
    · simpa only [hsame] using h.order

theorem Inv.publish (h : Inv w) (name : Bytes) : Inv (step w (.publish name)) := by
  rw [step]
  split
  · have hsame (other : Bytes) :
        World.outstanding { w with replies := w.replies++[.message name] } other =
          w.outstanding other := by
      simp [World.outstanding]
    refine { h with subscribed := ?_, served := ?_, order := ?_ }
    · simpa only [hsame] using h.subscribed
    · simpa using h.served
    · simpa only [hsame] using h.order
  · exact h

theorem Inv.readyClient (h : Inv w) (names : List Bytes) (queued : Bool) :
    Inv (w.ready names queued) := by
  unfold World.ready
  split
  · exact h
  have hst : Inv { w with readyCompleted := true, subscriberContext := true } := { h with }
  generalize ({ w with readyCompleted := true, subscriberContext := true } : World) = v at hst
  induction names generalizing v with
  | nil => exact hst
  | cons name names ih => exact ih _ (hst.ensureSubscribed name queued)

theorem inv_step (w : World) (a : Action) (h : Inv w) (hord : Orderly w a) : Inv (step w a) := by
  cases a with
  | subscribe id name =>
    rw [step]
    split
    · rename_i hfresh
      exact h.subscribe (by simpa using hfresh) name
    · exact h
  | register id queued =>
    rw [step]
    cases hl : w.listeners id with
    | none => exact h
    | some l =>
      dsimp only
      split
      · exact h
      refine Inv.registerSubscription ?_ queued ⟨{ l with registered := true },by simp,rfl⟩
        (hord l hl)
      have hupd : update w.listeners id (some { l with registered := true }) =
          fun other => (w.listeners other).map fun m =>
            if other = id then { m with registered := true } else m := by
        funext other
        by_cases heq : other = id
        · simp [heq,hl]
        · simp [heq]
      rw [hupd]
      refine h.mapListeners _ fun other m _ => ?_
      split <;> exact ⟨⟨rfl,fun hnone => ⟨hnone,rfl⟩⟩,.inl⟩
  | settle id status => exact h.failListeners [id] status
  | expire id =>
    refine h.mapListeners _ fun other l hl => ?_
    split
    · rename_i hgone
      refine ⟨⟨rfl,fun hnone => ?_⟩,.inl⟩
      obtain ⟨-,-,hterm⟩ := hgone
      rw [show l.terminalStatus = none from hnone] at hterm
      cases hterm
    · exact ⟨.refl l,.inl⟩
  | remove id queued =>
    rw [step]
    cases hl : w.listeners id with
    | none => exact h
    | some l =>
      dsimp only
      split
      · rename_i hterm
        exact h.removeSubscription queued hl (isSome_iff_ne_none.mp hterm) (hord l hl)
      · exact h
  | ready names queued => exact h.readyClient names queued
  | serve => exact h.serve
  | publish name => exact h.publish name
  | reply queued =>
    rw [step]
    cases hrep : w.replies with
    | nil => exact h
    | cons frame replies =>
      cases frame with
      | subscribe name =>
        refine (h.pop hrep).acknowledged queued (h.served name ?_) ?_ (hord name replies hrep)
        · simp [hrep]
        · have hold := h.order name
          rwa [outstanding_pop hrep,Frame.answers,if_pos rfl] at hold
      | unsubscribe name => exact h.unsubscribed queued hrep
      | message name => exact (h.pop hrep).message name queued
  | fail status => exact h.fail status
  | close =>
    rw [step]
    split
    · exact h
    · have hclo : Inv { w with closing := true } := { h with }
      exact hclo.fail _

/-- A message on the channel of a ready listener reaches it. -/
theorem Inv.notified (h : Inv w) {id : ℕ} {l : Listener} (hl : w.listeners id = some l)
    (hrdy : l.Ready) (queued : Bool) :
    (w.onPubSubReply (.message l.channel) queued).listeners id = some l.notify := by
  obtain ⟨channel,hch,-,hid⟩ := h.ready id l hl hrdy
  have hmem : id ∈ (w.removeExpiredListeners channel).listeners :=
    mem_removeExpired.mpr ⟨hid,h.not_expired hl hrdy⟩
  simp [World.onPubSubReply,hch,World.onListeners,World.setChannel,hl,hmem,h.alive id l hl hrdy.2]

/-- In every run that is orderly, a ready listener's channel is subscribed on the server, so a
message published there is on its way to the client, where it reaches the listener. -/
theorem ready_subscribed {actions : List Action} (horderly : Runs.Along step Orderly {} actions)
    {id : ℕ} {l : Listener} (hl : (after step {} actions).listeners id = some l)
    (hready : l.Ready) :
    let w := after step {} actions
    w.subscribed l.channel = true ∧
      (step w (.publish l.channel)).replies = w.replies++[.message l.channel] ∧
      ∀ queued, (w.onPubSubReply (.message l.channel) queued).listeners id = some l.notify := by
  have h : Inv (after step {} actions) := after_along inv_step inv_empty horderly
  obtain ⟨channel,hch,hsub,-⟩ := h.ready id l hl hready
  obtain ⟨hsrv,-⟩ := h.subscribed _ channel hch hsub
  refine ⟨hsrv,?_,h.notified hl hready⟩
  rw [step,if_pos hsrv]

def news : Bytes := [110]

/-- A listener subscribes, and the server answers. -/
def plainRun : List Action := [
  .ready [] true,.subscribe 0 news,.register 0 true,.serve,.reply true]

theorem ready_subscribed_plain :
    ∃ l, (after step {} plainRun).listeners 0 = some l ∧ l.Ready ∧
      (after step {} plainRun).subscribed l.channel = true := by
  have hord : Runs.Along step Orderly {} plainRun := by
    refine ⟨trivial,trivial,?_,trivial,?_,trivial⟩
    · rintro l ⟨rfl⟩ channel hch
      cases hch
    · rintro _ _ hrep channel hch hstop
      cases hrep
      cases hch
      rcases hstop with hstop | hstop <;> cases hstop
  have hl : (after step {} plainRun).listeners 0 =
      some { channel := news, registered := true, readyCompleted := true } := rfl
  exact ⟨_,hl,⟨rfl,rfl⟩,(ready_subscribed hord hl ⟨rfl,rfl⟩).1⟩

/-- A listener is released before its SUBSCRIBE is answered, and another one registers. -/
def releasedEarly : List Action := [
  .ready [] true,.subscribe 0 news,.register 0 true,
  .settle 0 (.cancelled "Redis subscription was released"),.remove 0 true,
  .subscribe 1 news,.register 1 true,.serve,.reply true,.serve]

/-- The answer to a SUBSCRIBE that was sent twice is taken for the answer to a later one. -/
def answeredTwice : List Action := [
  .ready [] true,.subscribe 0 news,.register 0 true,.serve,.reply true,
  .settle 0 (.cancelled "Redis subscription was released"),.remove 0 true,
  .subscribe 1 news,.register 1 true,.serve,.reply true,.serve,.reply true,
  .settle 1 (.cancelled "Redis subscription was released"),.remove 1 true,
  .subscribe 2 news,.register 2 true,.serve,.reply true,.serve]

/-- In both runs a listener is ready while the connection is not subscribed to its channel. -/
theorem ready_unsubscribed :
    (∃ l, (after step {} releasedEarly).listeners 1 = some l ∧ l.Ready ∧
      (after step {} releasedEarly).subscribed l.channel = false ∧
      (after step {} releasedEarly).terminalStatus = none) ∧
    ∃ l, (after step {} answeredTwice).listeners 2 = some l ∧ l.Ready ∧
      (after step {} answeredTwice).subscribed l.channel = false ∧
      (after step {} answeredTwice).terminalStatus = none :=
  ⟨⟨_,rfl,⟨rfl,rfl⟩,rfl,rfl⟩,⟨_,rfl,⟨rfl,rfl⟩,rfl,rfl⟩⟩

end A11.RedisSubscription
