import A11.DataTypes
import A11.Runs

/-! The buffered writer of a chunk store. Every section under the writer's mutex is one step of
the fiber that runs it; a fiber is the list of what it still has to do, innermost first. Store
calls and stream sends answer whatever the environment says, at any time. -/
namespace A11.ChunkStoreWriter

structure Options where
  offset : UInt32 := 0
  maxChunksToWriteAtOnce : ℕ := 8
  numChunksToBuffer : Option ℕ := none
  stickyMimetype : Bool := false

def Options.validate (o : Options) : StatusOr Unit :=
  if o.maxChunksToWriteAtOnce = 0 then
    .error (.invalidArgument "max_chunks_to_write_at_once must be positive")
  else if uint32Range < o.maxChunksToWriteAtOnce then
    .error (.outOfRange "max_chunks_to_write_at_once exceeds 2^32")
  else match o.numChunksToBuffer with
    | none => .ok ()
    | some n =>
      if n = 0 then .error (.invalidArgument "num_chunks_to_buffer must be positive")
      else if uint32Range < n then .error (.outOfRange "num_chunks_to_buffer exceeds 2^32")
      else .ok ()

/-- What the writer needs to know of its store and of in-process values. -/
structure Config where
  holdsObjects : Bool
  encode : ChunkObject → StatusOr Bytes
  objectMimetype : ChunkObject → Bytes

/-- One accepted write; `id` counts the writes accepted before it. -/
structure Element where
  id : ℕ
  payload : Payload
  seq : Option UInt32
  continued : Bool
  deriving DecidableEq

structure Batch where
  elements : List Element
  streams : List ℕ

inductive Lifecycle
  | none | close | abort | cancel
  deriving DecidableEq

inductive Operation
  | none | write | close
  deriving DecidableEq

/-- What a fiber still has to do. -/
inductive Frame
  | drive
  | once
  | turn
  | redrive
  | wake
  | flush
  | complete (elements : List Element) (sequences : List UInt32) (status : Status)
  | release (waiters : List ℕ) (status : Status)
  | startWrite (generation : ℕ)
  | writeDone (generation : ℕ) (result : StatusOr (List UInt32))
  | finishWrite (generation : ℕ) (result : StatusOr (List UInt32)) (operationStatus : Status)
  | scheduleTee (streams : List ℕ)
  | tee (streams : List ℕ)
  | finishTee (status : Status)
  | startClose (generation : ℕ) (requested : Status)
  | closeDone (generation : ℕ) (requested tee : Status) (result : StatusOr Status)
  deriving DecidableEq

/-- A close the store has not answered. -/
structure Closing where
  generation : ℕ
  requested : Status
  tee : Status

/-- One `PutMany`: the writes it carries and what the store is given for them. -/
structure Put where
  elements : List Element
  fragments : List NodeFragment

structure Core where
  options : Options
  nextOffsetSeq : ℕ
  nextStickySeq : ℕ
  currentMimetype : Bytes := []
  queue : List Element := []
  pendingQueue : List Element := []
  outstanding : ℕ := 0
  status : Option Status := none
  closing : Bool := false
  stopStatus : Option Status := none
  lifecycle : Lifecycle := .none
  lifecycleCompleted : Bool := false
  drainWaiters : List ℕ := []
  attachedStreams : List ℕ := []
  teesInFlight : ℕ := 0
  queued : Bool := false
  depth : ℕ := 0
  again : Bool := false
  operation : Operation := .none
  operationGeneration : ℕ := 0
  inFlightBatch : Option Batch := none
  /-- Store calls without an answer. -/
  pendingWrites : List ℕ := []
  pendingCloses : List Closing := []
  /-- What the callers and the store have seen so far. -/
  accepted : List Element := []
  puts : List Put := []
  resolved : List (Element × StatusOr UInt32) := []
  waiters : ℕ := 0
  released : List (ℕ × Status) := []

def create (o : Options) : StatusOr Core := do
  o.validate
  return { options := o, nextOffsetSeq := o.offset.toNat, nextStickySeq := o.offset.toNat }

/-! ### Chunks on their way to the store -/

def getMimetype (c : Chunk) : Bytes :=
  match c.metadata with
  | some m => m.mimetype
  | none => []

/-- A mimetype that repeats the one before it is left out. -/
def stickyChunk (current : Bytes) (explicitSequenceGap : Bool) (c : Chunk) : Chunk :=
  if explicitSequenceGap || getMimetype c ≠ current then c
  else match c.metadata with
    | none => c
    | some m =>
      let m := { m with mimetype := [] }
      if m.timestamp.isNone && m.attributes.entries.isEmpty then { c with metadata := none }
      else { c with metadata := some m }

def materialize (cfg : Config) (c : Chunk) : StatusOr Chunk :=
  match c.object with
  | none => .ok c
  | some object =>
    if c.data ≠ [] then .ok { c with object := none }
    else do
      let data ← cfg.encode object
      let metadata := match c.metadata with
        | none => some ⟨cfg.objectMimetype object,none,.empty⟩
        | some m =>
          if m.mimetype.isEmpty then some { m with mimetype := cfg.objectMimetype object }
          else some m
      .ok { c with data := data, metadata := metadata, object := none }

/-- The payload as the store gets it. -/
def storePayload (cfg : Config) (payload : Payload) : StatusOr Payload :=
  match payload with
  | .nodeRef r => .ok (.nodeRef r)
  | .chunk c => if cfg.holdsObjects then .ok (.chunk c) else (materialize cfg c).map .chunk

def storeFragment (cfg : Config) (storeId : Bytes) (e : Element) : StatusOr NodeFragment := do
  let payload ← storePayload cfg e.payload
  return ⟨storeId,payload,e.seq,e.continued⟩

/-- The payload as a stream gets it, which needs its bytes in any case. -/
def wirePayload (cfg : Config) (payload : Payload) : StatusOr Payload :=
  match payload with
  | .nodeRef r => .ok (.nodeRef r)
  | .chunk c => (materialize cfg c).map .chunk

/-- The fragments of a batch, or why they cannot be made. -/
def fragments (cfg : Config) (storeId : Bytes) (batch : Batch) : StatusOr (List NodeFragment) := do
  let fragments ← batch.elements.mapM (storeFragment cfg storeId)
  if batch.streams ≠ [] then
    let _ ← fragments.mapM fun f => wirePayload cfg f.data
    return fragments
  else return fragments

/-! ### The sections of the pump -/

/-- A core, what the fiber goes on with, and the fibers it leaves to the scheduler. -/
structure Effect where
  core : Core
  pushed : List Frame := []
  spawned : List (List Frame) := []

/-- Give up everything that is queued. -/
def rejectAll (c : Core) : Core :=
  { c with queue := [], pendingQueue := [], outstanding := c.outstanding-c.queue.length }

/-- A requested stop takes effect. -/
def stop (c : Core) : Core :=
  match c.stopStatus, c.status with
  | some stop, none => { rejectAll c with status := some stop }
  | _, _ => c

def stopStatusOf (c : Core) : Status :=
  match c.stopStatus, c.status with
  | some stop, none => stop
  | _, _ => .okStatus

def rejectedBy (c : Core) : List Element × List Element :=
  match c.stopStatus, c.status with
  | some _, none => (c.queue,c.pendingQueue)
  | _, _ => ([],[])

/-- A graceful close that is pending fails with the writer. -/
def failClose (c : Core) : Core :=
  if c.lifecycle = .close ∧ c.lifecycleCompleted = false then
    { c with lifecycleCompleted := true, closing := false }
  else c

def failCloseOfStatus (c : Core) : Core :=
  match c.status with
  | some status => if status.isOk then c else failClose c
  | none => c

/-- Whoever waits for the buffer to drain may be told. -/
def drained (c : Core) : Bool := c.outstanding == 0 && c.teesInFlight == 0 && !c.closing

def releaseWaiters (c : Core) : Core := if drained c then { c with drainWaiters := [] } else c

def releasedBy (c : Core) : List ℕ := if drained c then c.drainWaiters else []

/-- The elements the next batch takes off the queue. -/
def nextBatch (c : Core) : List Element :=
  (c.queue.take c.options.maxChunksToWriteAtOnce).takeWhile fun e =>
    decide (e.seq.isNone = (c.queue.head?.all fun first => first.seq.isNone))

def startOperation (c : Core) (operation : Operation) : Core :=
  { c with operation := operation, operationGeneration := c.operationGeneration+1 }

/-- The one thing a pass starts or finishes. -/
def beginWork (c : Core) : Core × List Frame :=
  if c.lifecycleCompleted = false ∧ c.lifecycle = .cancel ∧ c.stopStatus.isSome ∧
      c.outstanding = 0 then
    ({ c with lifecycleCompleted := true, closing := false },[])
  else if c.lifecycleCompleted = false ∧ c.lifecycle = .abort ∧ c.stopStatus.isSome ∧
      c.outstanding = 0 ∧ c.teesInFlight = 0 then
    (startOperation c .close,
      [.startClose (c.operationGeneration+1) (c.stopStatus.getD .okStatus)])
  else if c.lifecycleCompleted = false ∧ c.lifecycle = .close ∧ c.status.isNone ∧
      c.outstanding = 0 ∧ c.teesInFlight = 0 then
    (startOperation c .close,[.startClose (c.operationGeneration+1) .okStatus])
  else if c.status.isNone ∧ c.stopStatus.isNone ∧ c.queue ≠ [] then
    let elements := nextBatch c
    ({ startOperation c .write with
        queue := c.queue.drop elements.length
        inFlightBatch := some ⟨elements,c.attachedStreams⟩ },
      [.startWrite (c.operationGeneration+1)])
  else (c,[])

/-- The rest of a pass, once it is no longer queued. -/
def pass (c : Core) : Effect :=
  if c.operation ≠ .none then { core := c }
  else
    let (rejected,pendingRejected) := rejectedBy c
    let status := stopStatusOf c
    let c := failCloseOfStatus (stop c)
    let (core,work) := beginWork (releaseWaiters c)
    { core := core
      pushed := [.complete rejected [] status,.complete pendingRejected [] status,
        .release (releasedBy c) status]++work }

def driveOnce (c : Core) : Effect := pass { c with queued := false }

def maxDepth : ℕ := 4

def drive (c : Core) : Effect :=
  if maxDepth ≤ c.depth then { core := { c with again := true } }
  else { core := { c with depth := c.depth+1 }, pushed := [.once,.turn] }

def turn (c : Core) : Effect :=
  if c.again then { core := { c with again := false }, pushed := [.once,.turn] }
  else { core := { c with depth := c.depth-1 } }

def redrivePump (c : Core) : Effect :=
  if 0 < c.depth then { core := { c with again := true } }
  else { core := c, pushed := [.drive] }

def wake (c : Core) : Effect :=
  if !c.queued && c.operation = .none then
    { core := { c with queued := true }, spawned := [[.drive]] }
  else { core := c }

def flush (c : Core) : Effect :=
  if c.operation ≠ .none ∨ c.queue = [] then { core := c } else { core := c, pushed := [.drive] }

/-! ### Writing -/

/-- What the environment answers to a step. -/
structure Reply where
  storeId : StatusOr Bytes := .ok []
  /-- The answer of the store, when it has one at once. -/
  wrote : Option (StatusOr (List UInt32)) := none
  closed : Option (StatusOr Status) := none
  teeStatus : Status := .okStatus

/-- The answer to a store call runs the continuation at once, or is waited for. -/
def awaitWrite (c : Core) (generation : ℕ) : Option (StatusOr (List UInt32)) → Effect
  | some result => { core := c, pushed := [.writeDone generation result] }
  | none => { core := { c with pendingWrites := c.pendingWrites++[generation] } }

def startWrite (cfg : Config) (c : Core) (generation : ℕ) (reply : Reply) : Effect :=
  match c.inFlightBatch with
  | none => { core := c }
  | some batch =>
    match reply.storeId >>= fun storeId => fragments cfg storeId batch with
    | .error status => awaitWrite c generation (some (.error status))
    | .ok fragments =>
      awaitWrite { c with puts := c.puts++[⟨batch.elements,fragments⟩] } generation reply.wrote

/-- What the writer makes of the store's answer. -/
def writeStatus (elements : List Element) : StatusOr (List UInt32) → Status
  | .error status => status
  | .ok sequences =>
    if sequences.length ≠ elements.length then
      .dataLoss "ChunkStore PutMany returned the wrong number of sequences"
    else if (elements.zip sequences).any fun p => p.1.seq.isSome && p.1.seq ≠ some p.2 then
      .dataLoss "ChunkStore changed an explicit sequence number"
    else .okStatus

def owns (c : Core) (operation : Operation) (generation : ℕ) : Bool :=
  c.operation = operation && c.operationGeneration = generation

def writeDone (c : Core) (generation : ℕ) (result : StatusOr (List UInt32)) : Effect :=
  match c.inFlightBatch with
  | some batch =>
    if owns c .write generation then
      { core := c, pushed := [.finishWrite generation result (writeStatus batch.elements result)] }
    else { core := c }
  | none => { core := c }

def admitPending (c : Core) : Core :=
  let room := match c.options.numChunksToBuffer with
    | none => c.pendingQueue.length
    | some n => n-c.outstanding
  let moved := c.pendingQueue.take room
  { c with
    queue := c.queue++moved
    pendingQueue := c.pendingQueue.drop room
    outstanding := c.outstanding+moved.length }

/-- The batch leaves the writer. -/
def retireBatch (c : Core) (batch : Batch) (teeing : Bool) : Core :=
  { c with
    teesInFlight := if teeing then c.teesInFlight+1 else c.teesInFlight
    inFlightBatch := none
    operation := .none
    outstanding := c.outstanding-batch.elements.length }

/-- The writer fails with a status. -/
def failWriter (c : Core) (status : Status) : Core := { rejectAll c with status := some status }

def finishWrite (c : Core) (generation : ℕ) (result : StatusOr (List UInt32))
    (operationStatus : Status) : Effect :=
  match c.inFlightBatch with
  | none => { core := c }
  | some batch =>
    if owns c .write generation then
      let teeing := operationStatus.isOk && !batch.streams.isEmpty
      let retired := retireBatch c batch teeing
      let status := c.stopStatus.getD operationStatus
      let failed := c.stopStatus.isSome || !operationStatus.isOk
      let settled := if failed then failWriter retired status else admitPending retired
      let told := releaseWaiters settled
      { core := if c.stopStatus.isNone && !operationStatus.isOk then failClose told else told
        pushed := [.complete batch.elements (result.toOption.getD []) status,
          .complete (if failed then retired.queue else []) [] status,
          .complete (if failed then retired.pendingQueue else []) [] status,
          .release (releasedBy settled) status]++
          (if teeing then [.scheduleTee batch.streams] else [])++[.redrive] }
    else { core := c }

def finishTee (c : Core) (status : Status) : Effect :=
  let returned := { c with teesInFlight := c.teesInFlight-1 }
  let failed := !status.isOk
  let failure := if failed then c.status.getD status else status
  let settled := if failed then failClose (failWriter returned failure) else returned
  { core := releaseWaiters settled
    pushed := [.complete (if failed then c.queue else []) [] failure,
      .complete (if failed then c.pendingQueue else []) [] failure,
      .release (releasedBy settled) failure,.redrive] }

/-! ### Closing -/

/-- The closing marker goes to the attached streams of a graceful close only. -/
def teeClose (c : Core) (reply : Reply) : Status :=
  if c.lifecycle ≠ .close ∨ c.attachedStreams = [] then .okStatus else reply.teeStatus

def startClose (c : Core) (generation : ℕ) (requested : Status) (reply : Reply) : Effect :=
  let tee := teeClose c reply
  match reply.closed with
  | some result => { core := c, pushed := [.closeDone generation requested tee result] }
  | none => { core := { c with pendingCloses := c.pendingCloses++[⟨generation,requested,tee⟩] } }

def closeStatus (requested tee : Status) : StatusOr Status → Status
  | .error status => status
  | .ok closed =>
    if closed.code ≠ requested.code then
      .dataLoss "ChunkStore closed with a different status than requested"
    else tee

def closeDone (c : Core) (generation : ℕ) (requested tee : Status) (result : StatusOr Status) :
    Effect :=
  if owns c .close generation then
    let operationStatus := closeStatus requested tee result
    { core := { c with
        operation := .none
        status := if operationStatus.isOk then some requested
          else if c.lifecycle = .close then some operationStatus else c.status
        closing := false
        lifecycleCompleted := true } }
  else { core := c }

/-! ### Completions -/

/-- The result every element of a batch is resolved with. -/
def results (elements : List Element) (sequences : List UInt32) (status : Status) :
    List (Element × StatusOr UInt32) :=
  if !status.isOk then elements.map fun e => (e,.error status)
  else if sequences.length ≠ elements.length then
    elements.map fun e =>
      (e,.error (.internal "Writer completion has the wrong number of sequences"))
  else (elements.zip sequences).map fun p => (p.1,.ok p.2)

def perform (cfg : Config) (c : Core) (frame : Frame) (reply : Reply) : Effect :=
  match frame with
  | .drive => drive c
  | .once => driveOnce c
  | .turn => turn c
  | .redrive => redrivePump c
  | .wake => wake c
  | .flush => flush c
  | .complete elements sequences status =>
    { core := { c with resolved := c.resolved++results elements sequences status } }
  | .release waiters status =>
    { core := { c with released := c.released++waiters.map fun i => (i,status) } }
  | .startWrite generation => startWrite cfg c generation reply
  | .writeDone generation result => writeDone c generation result
  | .finishWrite generation result status => finishWrite c generation result status
  | .scheduleTee streams => { core := c, spawned := [[.tee streams]] }
  | .tee _ => { core := c, pushed := [.finishTee reply.teeStatus] }
  | .finishTee status => finishTee c status
  | .startClose generation requested => startClose c generation requested reply
  | .closeDone generation requested tee result => closeDone c generation requested tee result

/-! ### The calls -/

/-- The sequence a write asks the store for. -/
def requestSeq (c : Core) (seq : Option UInt32) : StatusOr (Option UInt32 × Core) :=
  if seq.isNone ∧ c.options.offset ≠ 0 then
    if maxSeq < c.nextOffsetSeq then
      .error (.resourceExhausted "Maximum writer sequence number exceeded")
    else .ok (some (UInt32.ofNat c.nextOffsetSeq),{ c with nextOffsetSeq := c.nextOffsetSeq+1 })
  else .ok (seq,c)

def explicitSequenceGap (c : Core) (seq : Option UInt32) : Bool :=
  seq.any fun s => s.toNat ≠ c.nextStickySeq

/-- The payload with its mimetype left out where it repeats, and the state of that. -/
def applySticky (c : Core) (payload : Payload) (seq : Option UInt32) : Payload × Core :=
  if c.options.stickyMimetype then
    let next := match seq with
      | some s => s.toNat+1
      | none => c.nextStickySeq+1
    match payload with
    | .chunk chunk =>
      (.chunk (stickyChunk c.currentMimetype (explicitSequenceGap c seq) chunk),
        { c with currentMimetype := getMimetype chunk, nextStickySeq := next })
    | .nodeRef r => (.nodeRef r,{ c with nextStickySeq := next })
  else (payload,c)

def hasRoom (c : Core) : Bool :=
  match c.options.numChunksToBuffer with
  | none => true
  | some n => c.outstanding < n

/-- `EnqueuePayload`: the new state and whether the write was admitted at once. -/
def enqueuePayload (c : Core) (payload : Payload) (seq : Option UInt32) (final : Bool) :
    StatusOr (Core × Bool) := do
  payload.validate
  match c.status with
  | some status =>
    .error (if status.isOk then .failedPrecondition "ChunkStoreWriter is closed" else status)
  | none =>
    if c.closing then
      .error (c.stopStatus.getD (.failedPrecondition "ChunkStoreWriter is closing"))
    else
      let (requested,numbered) ← requestSeq c seq
      let (stored,stuck) := applySticky numbered payload seq
      let element : Element := ⟨c.accepted.length,stored,requested,!final⟩
      let taken := { stuck with accepted := stuck.accepted++[element] }
      if hasRoom c then
        return ({ taken with queue := taken.queue++[element], outstanding := taken.outstanding+1 },
          true)
      else return ({ taken with pendingQueue := taken.pendingQueue++[element] },false)

/-- What an accepted payload changes. -/
theorem enqueuePayload_ok {c d : Core} {payload : Payload} {seq : Option UInt32}
    {final admitted : Bool} (h : enqueuePayload c payload seq final = .ok (d,admitted)) :
    c.status = none ∧ c.closing = false ∧ ∃ n m k e,
      applySticky { c with nextOffsetSeq := n } payload seq =
        (e.payload,{ c with nextOffsetSeq := n, currentMimetype := m, nextStickySeq := k }) ∧
      e.id = c.accepted.length ∧ e.continued = !final ∧
      (hasRoom c = true ∧ d = { c with
          nextOffsetSeq := n, currentMimetype := m, nextStickySeq := k
          accepted := c.accepted++[e], queue := c.queue++[e], outstanding := c.outstanding+1 } ∨
        hasRoom c = false ∧ d = { c with
          nextOffsetSeq := n, currentMimetype := m, nextStickySeq := k
          accepted := c.accepted++[e], pendingQueue := c.pendingQueue++[e] }) := by
  obtain ⟨_,-,h⟩ := StatusOr.bind_eq_ok.mp h
  split at h
  · cases h
  rename_i hstat
  split at h
  · cases h
  rename_i hclo
  obtain ⟨⟨requested,numbered⟩,hseq,h⟩ := StatusOr.bind_eq_ok.mp h
  obtain ⟨n,rfl⟩ : ∃ n, numbered = { c with nextOffsetSeq := n } := by
    unfold requestSeq at hseq
    split_ifs at hseq <;> cases hseq <;> exact ⟨_,rfl⟩
  obtain ⟨stored,m,k,hsticky⟩ : ∃ stored m k, applySticky { c with nextOffsetSeq := n } payload seq =
      (stored,{ c with nextOffsetSeq := n, currentMimetype := m, nextStickySeq := k }) := by
    unfold applySticky
    split
    · cases payload <;> exact ⟨_,_,_,rfl⟩
    · exact ⟨_,_,_,rfl⟩
  refine ⟨hstat,by simpa using hclo,n,m,k,⟨c.accepted.length,stored,requested,!final⟩,
    hsticky,rfl,rfl,?_⟩
  simp only [hsticky] at h
  split_ifs at h with hroom <;> cases h
  · exact .inl ⟨hroom,rfl⟩
  · exact .inr ⟨by simpa using hroom,rfl⟩

/-- Whether a stop may be requested at all. -/
def mayStop (c : Core) : Bool := c.lifecycle = .none && c.status.isNone

def cancel (c : Core) : Option Core :=
  if mayStop c then
    some { c with
      closing := true
      stopStatus := some (.aborted "ChunkStoreWriter was cancelled")
      lifecycle := .cancel }
  else none

def drainAndClose (c : Core) : Option Core :=
  if mayStop c then some { c with closing := true, lifecycle := .close } else none

/-- A graceful close that failed may be followed by an abort. -/
def retryFailedClose (c : Core) : Bool :=
  c.lifecycle = .close && c.lifecycleCompleted && c.status.any fun s => !s.isOk

def abortWithStatus (c : Core) (status : Status) : Option Core :=
  if !status.isOk && (mayStop c || retryFailedClose c) then
    some { c with
      closing := true
      stopStatus := some status
      lifecycle := .abort
      lifecycleCompleted := false }
  else none

def waitForBufferToDrain (c : Core) : Effect :=
  let counted := { c with waiters := c.waiters+1 }
  match c.status.filter fun s => !s.isOk with
  | some status => { core := counted, pushed := [.release [c.waiters] status] }
  | none =>
    if drained c then { core := counted, pushed := [.release [c.waiters] .okStatus] }
    else { core := { counted with drainWaiters := c.drainWaiters++[c.waiters] } }

/-! ### Runs -/

structure World where
  core : Core
  fibers : List (List Frame) := []

inductive Action
  | enqueue (payload : Payload) (seq : Option UInt32) (final ensureStarted : Bool)
  | flush
  | ensureStarted
  | cancel
  | drainAndClose
  | abortWithStatus (status : Status)
  | waitForBufferToDrain
  | attachStream (stream : ℕ)
  | detachStream (stream : ℕ)
  /-- The store answers a write or a close that was waited for. -/
  | wrote (result : StatusOr (List UInt32))
  | closed (result : StatusOr Status)
  | advance (fiber : ℕ) (reply : Reply)

def World.call (w : World) (c : Core) (frames : List Frame) : World :=
  { core := c, fibers := w.fibers++[frames] }

def step (cfg : Config) (w : World) : Action → World
  | .enqueue payload seq final ensureStarted =>
    match enqueuePayload w.core payload seq final with
    | .error _ => w
    | .ok (c,admitted) => w.call c (if admitted && ensureStarted then [.wake] else [])
  | .flush => w.call w.core [.flush]
  | .ensureStarted => w.call w.core [.wake]
  | .cancel =>
    match cancel w.core with
    | some c => w.call c [.wake]
    | none => w
  | .drainAndClose =>
    match drainAndClose w.core with
    | some c => w.call c [.drive]
    | none => w
  | .abortWithStatus status =>
    match abortWithStatus w.core status with
    | some c => w.call c [.wake]
    | none => w
  | .waitForBufferToDrain =>
    w.call (waitForBufferToDrain w.core).core (waitForBufferToDrain w.core).pushed
  | .attachStream stream =>
    if stream ∈ w.core.attachedStreams then w
    else { w with core := { w.core with attachedStreams := w.core.attachedStreams++[stream] } }
  | .detachStream stream =>
    { w with core := { w.core with attachedStreams := w.core.attachedStreams.filter (· ≠ stream) } }
  | .wrote result =>
    match w.core.pendingWrites with
    | [] => w
    | generation::rest =>
      w.call { w.core with pendingWrites := rest } [.writeDone generation result]
  | .closed result =>
    match w.core.pendingCloses with
    | [] => w
    | close::rest => w.call { w.core with pendingCloses := rest }
        [.closeDone close.generation close.requested close.tee result]
  | .advance i reply =>
    match w.fibers[i]? with
    | some (frame::rest) =>
      let effect := perform cfg w.core frame reply
      { core := effect.core, fibers := w.fibers.set i (effect.pushed++rest)++effect.spawned }
    | _ => w

def run (cfg : Config) (c : Core) : List Action → World := Runs.after (step cfg) { core := c }

end A11.ChunkStoreWriter
