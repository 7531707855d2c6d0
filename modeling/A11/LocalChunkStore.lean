import A11.ChunkStore
import A11.NextScan
import A11.PutBatch
import A11.Runs

/-! The in-memory chunk store. Each critical section under the store's mutex is one
function of its guarded state. -/
namespace A11.LocalChunkStore

@[ext] structure State where
  nodeId : Bytes
  seqToArrivalOrder : Table UInt32 ℕ := ∅
  arrivalOrderToSeq : Table ℕ UInt32 := ∅
  chunks : Table UInt32 Payload := ∅
  finalSeq : Option UInt32 := none
  totalChunksPut : ℕ := 0
  totalChunksRead : ℕ := 0
  status : Option Status := none
  deriving DecidableEq

def State.empty (nodeId : Bytes) : State := { nodeId := nodeId }

variable (s : State)

def continued (seq : UInt32) : Bool := s.finalSeq.all fun final => seq < final

def fragmentAt (seq : UInt32) (payload : Payload) : NodeFragment :=
  ⟨s.nodeId,payload,some seq,continued s seq⟩

/-! ### Single reads -/

def lookupRead (kind : ReadKind) (value : UInt64) : Option (StatusOr NodeFragment) :=
  match kind with
  | .sequence =>
    match s.chunks.lookup value.toUInt32 with
    | some payload => some (.ok (fragmentAt s value.toUInt32 payload))
    | none => closedRead s.status kind value
  | .arrivalOrder =>
    match s.arrivalOrderToSeq.lookup value.toNat with
    | none => closedRead s.status kind value
    | some seq =>
      match s.chunks.lookup seq with
      | none => some (.error (.dataLoss "Chunk store index references a missing chunk"))
      | some payload => some (.ok (fragmentAt s seq payload))

def getSeqForArrivalOrder (arrivalOrder : UInt64) : StatusOr UInt32 :=
  match s.arrivalOrderToSeq.lookup arrivalOrder.toNat with
  | none => .error (.notFound ("No fragment has arrival order " ++ toString arrivalOrder))
  | some seq => .ok seq

/-! ### The shared cursor -/

def nextSource : NextScan.Source where
  row seq := (s.chunks.lookup seq).map fun payload => .ok (fragmentAt s seq payload)
  finalSeq := s.finalSeq
  closed := s.status.isSome
  status := s.status

def collectNext (limit : ℕ) (fragments : List (Option NodeFragment)) : NextScan.Pass × State :=
  let pass := (nextSource s).collect limit s.totalChunksRead fragments
  (pass,{ s with totalChunksRead := pass.cursor })

/-- A whole `Next` call that nothing interrupts. -/
def next (limit : ℕ) : Reply × State :=
  if limit = 0 then (.now .fragments (.error (.invalidArgument "limit must be positive")),s)
  else
    let (pass,s') := collectNext s limit []
    match pass.ending with
    | .done => (.now .fragments (.ok pass.fragments),s')
    | .terminal status | .failed status => (.now .fragments (.error status),s')
    | .park => (.expired nextExpired pass.fragments,s')

/-! ### Writes -/

def wording : PutBatch.Wording :=
  ⟨"","An existing fragment exceeds the proposed final sequence"⟩

def batchView : PutBatch.View where
  putCount := s.totalChunksPut
  taken seq := decide (seq ∈ s.chunks)
  finalSeq := s.finalSeq
  hasLater final := decide (∃ seq ∈ s.chunks.keys, final < seq)

/-- Merge the staged tables of an accepted batch. -/
def publish (fragments : List NodeFragment) (p : PutBatch.Plan) : State :=
  let arrivals := List.range' s.totalChunksPut fragments.length
  { s with
    chunks := s.chunks ∪ Table.emplaceAll ∅ (p.assigned.zip (fragments.map fun f => f.data))
    arrivalOrderToSeq := s.arrivalOrderToSeq ∪ Table.emplaceAll ∅ (arrivals.zip p.assigned)
    seqToArrivalOrder := s.seqToArrivalOrder ∪ Table.emplaceAll ∅ (p.assigned.zip arrivals)
    totalChunksPut := s.totalChunksPut+fragments.length
    finalSeq := p.pendingFinal }

section

variable (fragments : List NodeFragment) (p : PutBatch.Plan)

theorem publish_chunks :
    (publish s fragments p).chunks =
      s.chunks.emplaceAll (p.assigned.zip (fragments.map fun f => f.data)) := Table.union_emplaceAll _ _

theorem publish_arrivalOrderToSeq :
    (publish s fragments p).arrivalOrderToSeq = s.arrivalOrderToSeq.emplaceAll
      ((List.range' s.totalChunksPut fragments.length).zip p.assigned) := Table.union_emplaceAll _ _

theorem publish_seqToArrivalOrder :
    (publish s fragments p).seqToArrivalOrder = s.seqToArrivalOrder.emplaceAll
      (p.assigned.zip (List.range' s.totalChunksPut fragments.length)) := Table.union_emplaceAll _ _

end

def putMany (fragments : List NodeFragment) : StatusOr (List UInt32) × State :=
  match PutBatch.scan wording fragments with
  | .error status => (.error status,s)
  | .ok allExplicit =>
    if s.status.isSome then
      (.error (.failedPrecondition
        ("Chunk store " ++ asciiText s.nodeId ++ " is closed for writes")),s)
    else if fragments.isEmpty then (.ok [],s)
    else match PutBatch.plan wording (batchView s) allExplicit fragments with
      | .error status => (.error status,s)
      | .ok p => (.ok p.assigned,publish s fragments p)

def clearData (seq : UInt32) : StatusOr NodeFragment × State :=
  match s.chunks.lookup seq with
  | none => (.error (.notFound ("No fragment with seq " ++ toString seq ++ " exists")),s)
  | some (.nodeRef _) =>
    (.error (.unimplemented "Clearing a reference fragment is unsupported"),s)
  | some (.chunk c) =>
    (.ok (fragmentAt s seq (.chunk c)),
      { s with chunks := s.chunks.set seq (.chunk c.tombstone) })

def closeWritesWithStatus (status : Status) (returnStatusIfAlreadyClosed : Bool) :
    StatusOr Status × State :=
  match s.status with
  | some closed =>
    if returnStatusIfAlreadyClosed then (.ok closed,s)
    else (.error (.failedPrecondition "Chunk store is already closed for writes"),s)
  | none => (.ok status,{ s with status := some status })

def exec : Op → Reply × State
  | .putMany fragments => ((.now .seqs (putMany s fragments).1),(putMany s fragments).2)
  | .clearData seq => ((.now .fragment (clearData s seq).1),(clearData s seq).2)
  | .closeWritesWithStatus status flag =>
    (.now .status (closeWritesWithStatus s status flag).1,(closeWritesWithStatus s status flag).2)
  | .get seq => (readReply (lookupRead s .sequence seq.toUInt64),s)
  | .getByArrivalOrder order => (readReply (lookupRead s .arrivalOrder order),s)
  | .getSeqForArrivalOrder order => (.now .seq (getSeqForArrivalOrder s order),s)
  | .getFinalSeq => (.now .finalSeq (.ok s.finalSeq),s)
  | .size => (.now .size (.ok s.chunks.size),s)
  | .next limit => next s limit

end A11.LocalChunkStore
