import A11.Decimal
import A11.LocalChunkStore

/-! The script of the Redis chunk store. It runs atomically on the server over a metadata
hash, a stream and three index hashes; counters and sequences are held as decimal text. -/
namespace A11

namespace RedisChunkStore

open Decimal

/-! ### Keys -/

inductive Storage
  | inline | redis | nodeRef | tombstone | s3 | unknown
  deriving DecidableEq

structure ChunkEntry where
  v : Text
  seq : Text
  arrival : Text
  storage : Storage
  payload : Option Bytes := none
  ref : Option Text := none
  tombstone : Option Bytes := none
  deriving DecidableEq

inductive Entry
  | chunk (fields : ChunkEntry)
  | control (v revision : Text)
  deriving DecidableEq

structure Metadata where
  schema : Text
  id : Bytes
  closed : Text
  size : Text
  putCount : Text
  nextCursor : Text
  revision : Text
  finalSeq : Option Text := none
  maxSeq : Option Text := none
  status : Option Bytes := none
  deriving DecidableEq

/-- The keys of one node. Stream ids are drawn from an increasing counter. -/
structure Database where
  metadata : Option Metadata := none
  stream : Table ℕ Entry := ∅
  lastGeneratedId : ℕ := 0
  sequences : Table Text ℕ := ∅
  arrivals : Table Text Text := ∅
  blobs : Table Text Bytes := ∅

def maxCount : ℕ := 4294967296
def maxRevision : ℕ := 8589934593
def maxSeqText : Text := "4294967295".toList
def maxCountText : Text := "4294967296".toList
def maxRevisionText : Text := "8589934593".toList
def maxUint64Text : Text := "18446744073709551615".toList

theorem maxSeqText_eq : maxSeqText = text maxSeq := rfl

/-! ### What every operation reads first -/

/-- The metadata as numbers. A store that was never written has none. -/
structure Loaded where
  closed : Bool := false
  size : ℕ := 0
  putCount : ℕ := 0
  nextCursor : ℕ := 0
  revision : ℕ := 0
  finalSeq : Option ℕ := none
  maxSeq : Option ℕ := none
  deriving DecidableEq

def optionalUint (value : Option Text) (maximum : ℕ) (maximumText : Text) : Option (Option ℕ) :=
  match value with
  | none => some none
  | some value => (canonicalUint value maximum maximumText).map some

/-- The counters, unless one of them is missing or not canonical. -/
def parseMetadata (m : Metadata) : Option Loaded := do
  let size ← canonicalUint m.size maxCount maxCountText
  let putCount ← canonicalUint m.putCount maxCount maxCountText
  let nextCursor ← canonicalUint m.nextCursor maxCount maxCountText
  let revision ← canonicalUint m.revision maxRevision maxRevisionText
  let finalSeq ← optionalUint m.finalSeq A11.maxSeq maxSeqText
  let maxSeq ← optionalUint m.maxSeq A11.maxSeq maxSeqText
  if m.schema ≠ "1".toList ∨ (m.closed ≠ "0".toList ∧ m.closed ≠ "1".toList) then none
  else some ⟨m.closed == "1".toList,size,putCount,nextCursor,revision,finalSeq,maxSeq⟩

def checkCounters (db : Database) (m : Metadata) (l : Loaded) : StatusOr Unit :=
  if l.closed ∧ m.status = none then
    .error (.dataLoss "Closed chunk store has no terminal status")
  else if !l.closed ∧ m.status.isSome then
    .error (.dataLoss "Open chunk store has a terminal status")
  else if l.size ≠ l.putCount ∨ l.size < l.nextCursor then
    .error (.dataLoss "Chunk store counters are inconsistent")
  else if (l.size = 0 ∧ l.maxSeq ≠ none) ∨ (0 < l.size ∧ l.maxSeq = none) ∨
      (l.finalSeq ≠ none ∧ l.finalSeq ≠ l.maxSeq) then
    .error (.dataLoss "Chunk store sequence metadata is inconsistent")
  else if db.sequences.size ≠ l.size ∨ db.arrivals.size ≠ l.putCount then
    .error (.dataLoss "Chunk store index cardinality is inconsistent")
  else if l.size < db.blobs.size then
    .error (.dataLoss "Chunk store contains unindexed blobs")
  else if db.stream.size ≠ l.size+(if l.closed then 1 else 0) then
    .error (.dataLoss "Chunk store stream cardinality is inconsistent")
  else .ok ()

/-- Nothing is stored under the keys of the data. -/
def noData (db : Database) : Bool :=
  db.lastGeneratedId == 0 && db.sequences.size == 0 && db.arrivals.size == 0 && db.blobs.size == 0

def loadMetadata (nodeId : Bytes) (db : Database) : StatusOr Loaded :=
  match db.metadata with
  | none =>
    if noData db then .ok {} else .error (.dataLoss "Chunk data exists without store metadata")
  | some m =>
    match parseMetadata m with
    | none => .error (.dataLoss "Chunk store metadata is incomplete or corrupt")
    | some l =>
      if m.id ≠ nodeId then .error (.dataLoss "Chunk store key belongs to a different node")
      else do
        checkCounters db m l
        .ok l

def freshMetadata (nodeId : Bytes) : Metadata where
  schema := "1".toList
  id := nodeId
  closed := "0".toList
  size := "0".toList
  putCount := "0".toList
  nextCursor := "0".toList
  revision := "0".toList

def ensureMeta (nodeId : Bytes) (db : Database) : Database :=
  { db with metadata := some (db.metadata.getD (freshMetadata nodeId)) }

def updateMeta (db : Database) (update : Metadata → Metadata) : Database :=
  { db with metadata := db.metadata.map update }

def publishChange (db : Database) : Database :=
  updateMeta db fun m => { m with revision := increment m.revision 1 }

def canPublishChange (l : Loaded) : StatusOr Unit :=
  if maxRevision ≤ l.revision then
    .error (.resourceExhausted "Chunk store mutation revision exhausted")
  else .ok ()

def appendEntry (db : Database) (e : Entry) : Database :=
  { db with
    stream := db.stream.set (db.lastGeneratedId+1) e
    lastGeneratedId := db.lastGeneratedId+1 }

inductive LoadedChunk
  | missing
  | dataLoss (message : String)
  | s3 (reference : Text)
  | item (payload : Bytes) (streamId : ℕ) (arrival : Text) (storage : Storage)
  deriving DecidableEq

/-- Where an entry keeps its payload. -/
def loadPayload (db : Database) (seqText : Text) (streamId : ℕ) (e : ChunkEntry) : LoadedChunk :=
  match e.storage with
  | .inline | .nodeRef =>
    match e.payload with
    | none => .dataLoss "Inline stream entry has no payload"
    | some payload => .item payload streamId e.arrival e.storage
  | .redis =>
    if e.ref ≠ some seqText then .dataLoss "Redis stream entry has no blob reference"
    else match db.blobs.lookup seqText with
      | none => .dataLoss "Redis stream entry references a missing blob"
      | some payload => .item payload streamId e.arrival e.storage
  | .tombstone =>
    match e.payload with
    | none => .dataLoss "Tombstone stream entry has no payload"
    | some payload => .item payload streamId e.arrival e.storage
  | .s3 => .s3 (e.ref.getD [])
  | .unknown => .dataLoss "Stream entry has an unknown storage kind"

def loadChunk (db : Database) (seq : ℕ) : LoadedChunk :=
  match db.sequences.lookup (text seq) with
  | none => .missing
  | some streamId =>
    match db.stream.lookup streamId with
    | none => .dataLoss "Sequence index references a missing stream entry"
    | some (.control _ _) => .dataLoss "Stream entry metadata is corrupt"
    | some (.chunk e) =>
      if e.v ≠ "1".toList ∨ e.seq ≠ text seq then .dataLoss "Stream entry metadata is corrupt"
      else if canonicalUint e.arrival maxSeq maxSeqText = none ∨
          db.arrivals.lookup e.arrival ≠ some (text seq) then
        .dataLoss "Stream entry arrival index is corrupt"
      else loadPayload db (text seq) streamId e

/-! ### Put -/

/-- The five arguments of a fragment. -/
structure PutItem where
  suppliedSeq : Text
  isFinal : Text
  storage : Storage
  payload : Bytes
  tombstone : Bytes
  deriving DecidableEq

structure PutState where
  candidate : ℕ
  assigned : List ℕ := []
  seen : List Text := []
  batchFinal : Option ℕ := none
  pendingMax : Option ℕ

section Put

variable (db : Database)

def hasSequence (seq : UInt32) : Bool := decide (text seq.toNat ∈ db.sequences)

/-- The sequence of a fragment and the candidate for the next one. -/
def putSeq (explicit : Bool) (candidate : ℕ) (item : PutItem) : StatusOr (ℕ × ℕ) :=
  if explicit then
    match canonicalUint item.suppliedSeq maxSeq maxSeqText with
    | none => .error (.invalidArgument "Invalid explicit sequence number")
    | some seq => .ok (seq,candidate)
  else
    let free := PutBatch.nextFree (hasSequence db) candidate
    if maxSeq < free then
      .error (.resourceExhausted "Maximum implicit sequence number exceeded")
    else .ok (free,free+1)

/-- The checks of one fragment once its sequence is known. -/
def checkItem (explicit : Bool) (putCount count index seq : ℕ) (st : PutState) (item : PutItem) :
    StatusOr Unit :=
  if text seq ∈ st.seen then
    .error (.invalidArgument "A sequence occurs more than once in the batch")
  else if text seq ∈ db.sequences then
    .error (.alreadyExists ("A fragment with seq " ++ toString seq ++ " already exists"))
  else if text seq ∈ db.blobs then
    .error (.dataLoss ("An unindexed blob collides with seq " ++ toString seq))
  else if text (putCount+index-1) ∈ db.arrivals then
    .error (.dataLoss ("Arrival index " ++ toString (putCount+index-1) ++ " already exists"))
  else if item.storage ≠ .inline ∧ item.storage ≠ .redis ∧ item.storage ≠ .nodeRef then
    .error (.invalidArgument "Invalid chunk storage kind")
  else if item.isFinal ≠ "0".toList ∧ item.isFinal ≠ "1".toList then
    .error (.invalidArgument "Invalid final-fragment marker")
  else if item.isFinal = "1".toList ∧ st.batchFinal.isSome then
    .error (.invalidArgument "More than one fragment in the batch is marked final")
  else if item.isFinal = "1".toList ∧ !explicit ∧ index ≠ count then
    .error (.invalidArgument "The final implicit fragment must be last")
  else .ok ()

def putItem (explicit : Bool) (putCount count index : ℕ) (st : PutState) (item : PutItem) :
    StatusOr PutState :=
  if (item.suppliedSeq ≠ []) ≠ explicit then
    .error (.invalidArgument "Sequence numbers must be set on every fragment or none")
  else do
    let (seq,candidate) ← putSeq db explicit st.candidate item
    checkItem db explicit putCount count index seq st item
    .ok
      { candidate := candidate
        assigned := st.assigned++[seq]
        seen := text seq::st.seen
        batchFinal := if item.isFinal = "1".toList then some seq else st.batchFinal
        pendingMax := some (st.pendingMax.elim seq fun m => if m < seq then seq else m) }

def putLoop (explicit : Bool) (putCount count : ℕ) : ℕ → PutState → List PutItem → StatusOr PutState
  | _, st, [] => .ok st
  | index, st, item::items => do
    let st' ← putItem db explicit putCount count index st item
    putLoop explicit putCount count (index+1) st' items

def checkPutFinal (l : Loaded) (st : PutState) : StatusOr Unit :=
  if st.batchFinal.isSome ∧ l.finalSeq.isSome ∧ st.batchFinal ≠ l.finalSeq then
    .error (.failedPrecondition "The chunk store already has a different final sequence")
  else match st.batchFinal.or l.finalSeq with
    | none => .ok ()
    | some final =>
      if l.maxSeq.any fun m => final < m then
        .error (.invalidArgument "An existing fragment exceeds the proposed final sequence")
      else if st.assigned.any fun seq => final < seq then
        .error (.invalidArgument "A fragment sequence exceeds the final sequence")
      else .ok ()

/-- The stream entry of a fragment. -/
def putEntry (seq arrival : Text) (item : PutItem) : ChunkEntry :=
  if item.storage = .redis then
    { v := "1".toList, seq := seq, arrival := arrival, storage := .redis, ref := some seq,
      tombstone := some item.tombstone }
  else
    { v := "1".toList, seq := seq, arrival := arrival, storage := item.storage,
      payload := some item.payload, tombstone := some item.tombstone }

def writeItem (seq arrival : ℕ) (item : PutItem) : Database :=
  let db' := appendEntry db (.chunk (putEntry (text seq) (text arrival) item))
  { db' with
    blobs := if item.storage = .redis then db.blobs.set (text seq) item.payload else db.blobs
    sequences := db.sequences.set (text seq) db'.lastGeneratedId
    arrivals := db.arrivals.set (text arrival) (text seq) }

end Put

def writeItems : Database → ℕ → List (ℕ × PutItem) → Database
  | db, _, [] => db
  | db, arrival, (seq,item)::items => writeItems (writeItem db seq arrival item) (arrival+1) items

/-- The `put` operation: the assigned sequences and the keys after it. -/
def putScript (nodeId : Bytes) (db : Database) (countText : Text) (items : List PutItem) :
    StatusOr (List Text × Database) := do
  let l ← loadMetadata nodeId db
  if l.closed then .error (.failedPrecondition "Chunk store is closed for writes")
  else match canonicalUint countText maxCount maxCountText with
    | none => .error (.invalidArgument "Invalid fragment count")
    | some count =>
      if items.length ≠ count then
        .error (.invalidArgument "Fragment count does not match arguments")
      else match items with
        | [] => .ok ([],db)
        | first::_ =>
          if maxCount < l.putCount+count then
            .error (.resourceExhausted "Maximum chunk-store cardinality exceeded")
          else do
            let st ← putLoop db (first.suppliedSeq ≠ []) l.putCount count 1
              { candidate := l.putCount, pendingMax := l.maxSeq } items
            checkPutFinal l st
            canPublishChange l
            let written := writeItems (ensureMeta nodeId db) l.putCount (st.assigned.zip items)
            .ok (st.assigned.map text,publishChange (updateMeta written fun m => { m with
              size := increment m.size count
              putCount := increment m.putCount count
              maxSeq := st.pendingMax.map text
              finalSeq := (st.batchFinal.map text).or m.finalSeq }))

/-! ### The other operations -/

def finalSeqText (db : Database) : Text := (db.metadata.bind fun m => m.finalSeq).getD []

/-- What a read that finds nothing is told. -/
inductive Missing
  | closed (status : Bytes)
  | wait
  deriving DecidableEq

def missingResult (db : Database) : Missing :=
  match db.metadata with
  | none => .wait
  | some m => if m.closed = "1".toList then .closed (m.status.getD []) else .wait

/-- The fields of a fragment in a reply. -/
structure Item where
  seq : Text
  storage : Storage
  payload : Bytes
  finalSeq : Text
  deriving DecidableEq

inductive LookupReply
  | item (item : Item)
  | missing (missing : Missing)
  deriving DecidableEq

def lookupSequence (db : Database) (seqText : Text) (invalid : Status) : StatusOr LookupReply :=
  match canonicalUint seqText maxSeq maxSeqText with
  | none => .error invalid
  | some seq =>
    match loadChunk db seq with
    | .missing => .ok (.missing (missingResult db))
    | .dataLoss message => .error (.dataLoss message)
    | .s3 reference => .ok (.item ⟨seqText,.s3,reference.map fun c => c.toNat.toUInt8,finalSeqText db⟩)
    | .item payload _ _ storage => .ok (.item ⟨seqText,storage,payload,finalSeqText db⟩)

def lookupScript (nodeId : Bytes) (db : Database) (kind : ReadKind) (value : Text) :
    StatusOr LookupReply := do
  let _ ← loadMetadata nodeId db
  match kind with
  | .sequence => lookupSequence db value (.invalidArgument "Invalid lookup sequence")
  | .arrivalOrder =>
    if !isCanonical value maxUint64Text then
      .error (.invalidArgument "Invalid arrival-order lookup")
    else match db.arrivals.lookup value with
      | none => .ok (.missing (missingResult db))
      | some seqText =>
        lookupSequence db seqText (.dataLoss "Arrival index contains an invalid sequence")

inductive Disposition
  | ready | wait | ended
  | closed (status : Bytes)
  | dataLoss (message : String)
  | s3 (reference : Text)
  deriving DecidableEq

structure Page where
  disposition : Disposition
  cursor : ℕ
  items : List Item
  deriving DecidableEq

/-- The loop of `next`; the fuel is what is left of the sequence space. -/
def nextLoop (db : Database) (final : Option ℕ) (limit : ℕ) : ℕ → ℕ → List Item → Page
  | 0, cursor, items => ⟨.ended,cursor,items⟩
  | fuel+1, cursor, items =>
    if final.any fun f => f < cursor then
      match missingResult db with
      | .closed status => ⟨.closed status,cursor,items⟩
      | .wait => ⟨.ended,cursor,items⟩
    else if items.length = limit then ⟨.ready,cursor,items⟩
    else match loadChunk db cursor with
      | .missing =>
        match missingResult db with
        | .closed status => ⟨.closed status,cursor,items⟩
        | .wait => ⟨.wait,cursor,items⟩
      | .dataLoss message => ⟨.dataLoss message,cursor,items⟩
      | .s3 reference => ⟨.s3 reference,cursor,items⟩
      | .item payload _ _ storage =>
        nextLoop db final limit fuel (cursor+1)
          (items++[⟨text cursor,storage,payload,finalSeqText db⟩])

/-- The cursor is stored unless the page fails. -/
def storeCursor (db : Database) (p : Page) : Database :=
  match p.disposition with
  | .dataLoss _ | .s3 _ => db
  | _ =>
    if p.items = [] then db else updateMeta db fun m => { m with nextCursor := text p.cursor }

def nextScript (nodeId : Bytes) (db : Database) (limitText : Text) : StatusOr (Page × Database) := do
  let l ← loadMetadata nodeId db
  match canonicalUint limitText 1024 "1024".toList with
  | none | some 0 => .error (.invalidArgument "limit must be positive")
  | some limit =>
    if db.metadata = none then .ok (⟨.wait,0,[]⟩,db)
    else
      let p := nextLoop db l.finalSeq limit (uint32Range-l.nextCursor) l.nextCursor []
      .ok (p,storeCursor db p)

/-- The rows after a clear: the tombstone is appended and takes the place of the entry. -/
def clearEntry (db : Database) (seqText arrival : Text) (storage : Storage) (streamId : ℕ)
    (tombstone : Bytes) : Database :=
  let entry : ChunkEntry :=
    { v := "1".toList, seq := seqText, arrival := arrival, storage := .tombstone,
      payload := some tombstone, tombstone := some tombstone }
  let db' := appendEntry db (.chunk entry)
  { db' with
    blobs := if storage = .redis then db.blobs.erase seqText else db.blobs
    stream := db'.stream.erase streamId
    sequences := db.sequences.set seqText db'.lastGeneratedId }

def clearScript (nodeId : Bytes) (db : Database) (seqText : Text) : StatusOr (Item × Database) := do
  let l ← loadMetadata nodeId db
  match canonicalUint seqText maxSeq maxSeqText with
  | none => .error (.invalidArgument "Invalid sequence to clear")
  | some seq =>
    match loadChunk db seq with
    | .missing => .error (.notFound ("No fragment with seq " ++ String.ofList seqText ++ " exists"))
    | .dataLoss message => .error (.dataLoss message)
    | .s3 _ => .error (.unimplemented "Clearing S3-backed chunks is not implemented")
    | .item payload streamId arrival storage =>
      if storage = .tombstone then .ok (⟨seqText,storage,payload,finalSeqText db⟩,db)
      else if storage = .nodeRef then
        .error (.unimplemented "Cannot clear a node-reference fragment")
      else match db.stream.lookup streamId with
        | some (.chunk e) =>
          match e.tombstone with
          | none => .error (.dataLoss "Stream entry has no prepared tombstone payload")
          | some tombstone => do
            canPublishChange l
            .ok (⟨seqText,storage,payload,finalSeqText db⟩,
              publishChange (clearEntry db seqText arrival storage streamId tombstone))
        | _ => .error (.dataLoss "Stream entry has no prepared tombstone payload")

def arrivalSeqScript (nodeId : Bytes) (db : Database) (value : Text) : StatusOr Text := do
  let _ ← loadMetadata nodeId db
  if !isCanonical value maxUint64Text then .error (.invalidArgument "Invalid arrival order")
  else match db.arrivals.lookup value with
    | none => .error (.notFound ("No fragment has arrival order " ++ String.ofList value))
    | some seq =>
      if canonicalUint seq maxSeq maxSeqText = none ∨ seq ∉ db.sequences then
        .error (.dataLoss "Arrival index references an invalid or missing sequence")
      else .ok seq

def finalScript (nodeId : Bytes) (db : Database) : StatusOr Text := do
  let _ ← loadMetadata nodeId db
  .ok (finalSeqText db)

def sizeScript (nodeId : Bytes) (db : Database) : StatusOr Text := do
  let _ ← loadMetadata nodeId db
  .ok ((db.metadata.map fun m => m.size).getD "0".toList)

def closeScript (nodeId : Bytes) (db : Database) (requested : Bytes) (returnExisting : Bool) :
    StatusOr (Bytes × Database) := do
  let l ← loadMetadata nodeId db
  if l.closed then
    if returnExisting then .ok ((db.metadata.bind fun m => m.status).getD [],db)
    else .error (.failedPrecondition "Chunk store is already closed for writes")
  else do
    canPublishChange l
    let appended := appendEntry db (.control "1".toList (text (l.revision+1)))
    .ok (requested,publishChange (updateMeta (ensureMeta nodeId appended) fun m =>
      { m with closed := "1".toList, status := some requested }))

end RedisChunkStore
end A11
