import A11.LocalChunkStore

/-! The SQLite chunk store. The database holds one row for the node and one row for
each fragment; oversized payloads live in blob files beside it. Each operation is the
body of one transaction together with the file operations around it. -/
namespace A11

namespace SqliteChunkStore

/-- What a store is opened with, and the source of blob names. -/
structure Config where
  nodeId : Bytes
  blobsDirectory : String
  inlineDataThreshold : ℕ
  codec : Codec
  uuid : ℕ → Bytes

/-- The `storage` column; no writer produces a code other than the five named ones. -/
inductive StorageKind
  | inline | blob | chunkRef | nodeRef | tombstone
  | other (code : ℤ)
  deriving DecidableEq

structure NodeRow where
  closed : Bool := false
  status : Option Bytes := none
  finalSeq : Option UInt32 := none
  nextCursor : ℕ := 0
  putCount : ℕ := 0
  size : ℕ := 0
  dataBytes : ℕ := 0
  maxSeq : Option UInt32 := none
  deriving DecidableEq

structure FragmentRow where
  seq : UInt32
  arrivalOrder : ℕ
  finalMarker : Bool
  tombstone : Bool := false
  storage : StorageKind
  data : Option Bytes
  ref : Bytes
  metadata : Option Bytes
  nodeRefId : Option Bytes
  nodeRefOffset : Option UInt32
  nodeRefLength : Option UInt64
  deriving DecidableEq

/-- The rows that belong to one node. -/
structure Sql where
  node : Option NodeRow := none
  fragments : List FragmentRow := []
  deriving DecidableEq

structure Database where
  sql : Sql := {}
  blobs : Table Bytes Bytes := ∅
  /-- How many blob names have been drawn. -/
  blobsNamed : ℕ := 0

/-! ### Rows -/

structure NodeState where
  closed : Bool := false
  status : Option Status := none
  finalSeq : Option UInt32 := none
  nextCursor : ℕ := 0
  putCount : ℕ := 0
  size : ℕ := 0
  dataBytes : ℕ := 0
  maxSeq : Option UInt32 := none
  deriving DecidableEq

variable (cfg : Config)

def loadStatus (row : NodeRow) : StatusOr (Option Status) :=
  match row.status with
  | some packed =>
    match cfg.codec.unpackStatus packed with
    | .ok status => .ok (some status)
    | .error status =>
      .error (.dataLoss ("Chunk store terminal status is unreadable: " ++ status.message))
  | none => .ok (if row.closed then some .okStatus else none)

/-- A missing row means no writes yet. -/
def loadNodeState (sql : Sql) : StatusOr NodeState :=
  match sql.node with
  | none => .ok {}
  | some row => do
    let status ← loadStatus cfg row
    .ok ⟨row.closed,status,row.finalSeq,row.nextCursor,row.putCount,row.size,row.dataBytes,
      row.maxSeq⟩

def selectSeq (sql : Sql) (seq : UInt32) : Option FragmentRow :=
  sql.fragments.find? fun row => row.seq = seq

/-- Sequel of binding an unsigned value as a signed column. -/
def selectArrivalOrder (sql : Sql) (value : UInt64) : Option FragmentRow :=
  sql.fragments.find? fun row => (row.arrivalOrder : ℤ) = value.toInt64.toInt

def readBlob (db : Database) (name : Bytes) : StatusOr Bytes :=
  match db.blobs.lookup name with
  | some contents => .ok contents
  | none => .error (.dataLoss ("Chunk store blob " ++ asciiText name ++ " is missing from " ++
      cfg.blobsDirectory ++ "/" ++ asciiText name))

def decodeMetadata (row : FragmentRow) : StatusOr (Option ChunkMetadata) :=
  match row.metadata with
  | some packed => (cfg.codec.metadataFromMsgpack packed).map some
  | none => .ok none

def decodeChunk (db : Database) (row : FragmentRow) : StatusOr Chunk := do
  let metadata ← decodeMetadata cfg row
  match row.storage with
  | .inline => .ok { metadata := metadata, data := row.data.getD [] }
  | .blob => do
    let data ← readBlob cfg db row.ref
    .ok { metadata := metadata, data := data }
  | .chunkRef => .ok { metadata := metadata, ref := row.ref }
  | .tombstone => .ok { metadata := metadata, ref := tombstoneReference }
  | .nodeRef => .error (.dataLoss
      ("Fragment " ++ toString row.seq ++ " has unknown storage kind 3"))
  | .other code => .error (.dataLoss
      ("Fragment " ++ toString row.seq ++ " has unknown storage kind " ++ toString code))

def decodePayload (db : Database) (row : FragmentRow) : StatusOr Payload :=
  if row.storage = .nodeRef then
    if row.data.getD [] ≠ [] then do
      let r ← cfg.codec.nodeRefFromMsgpack (row.data.getD [])
      .ok (.nodeRef r)
    else match row.nodeRefId with
      | none => .error (.dataLoss
          ("Fragment " ++ toString row.seq ++ " claims to be a node reference but has none"))
      | some id => .ok (.nodeRef
          { id := id, offset := row.nodeRefOffset.getD 0, length := row.nodeRefLength })
  else do
    let c ← decodeChunk cfg db row
    .ok (.chunk c)

def decodeFragment (db : Database) (row : FragmentRow) (finalSeq : Option UInt32) :
    StatusOr NodeFragment := do
  let payload ← decodePayload cfg db row
  .ok ⟨cfg.nodeId,payload,some row.seq,finalSeq.all fun final => row.seq < final⟩

/-! ### Encoding -/

/-- The columns of a fragment before its sequence is known. -/
structure EncodedFragment where
  finalMarker : Bool
  storage : StorageKind := .inline
  data : Bytes := []
  ref : Bytes := []
  metadata : Option Bytes := none
  nodeRefId : Option Bytes := none
  nodeRefOffset : UInt32 := 0
  nodeRefLength : Option UInt64 := none
  ownedBlob : Bytes := []
  payloadBytes : ℕ := 0
  deriving DecidableEq

/-- Names are never drawn twice, so writing never replaces a file. -/
def writeBlob (db : Database) (data : Bytes) : Bytes × Database :=
  let name := cfg.uuid db.blobsNamed
  (name,{ db with blobs := db.blobs.set name data, blobsNamed := db.blobsNamed+1 })

def removeBlob (db : Database) (name : Bytes) : Database :=
  if name = [] then db else { db with blobs := db.blobs.erase name }

def encodeMetadata (c : Chunk) : StatusOr (Option Bytes) :=
  match c.metadata with
  | none => .ok none
  | some m => do
    let packed ← cfg.codec.metadataToMsgpack m
    .ok (some packed)

def encodeFragment (db : Database) (f : NodeFragment) : StatusOr EncodedFragment × Database :=
  match f.data with
  | .nodeRef r =>
    match cfg.codec.nodeRefToMsgpack r with
    | .error status => (.error status,db)
    | .ok packed =>
      let encoded : EncodedFragment :=
        { finalMarker := !f.continued, storage := .nodeRef, data := packed,
          nodeRefId := some r.id, nodeRefOffset := r.offset, nodeRefLength := r.length }
      (.ok encoded,db)
  | .chunk c =>
    match encodeMetadata cfg c with
    | .error status => (.error status,db)
    | .ok metadata =>
      let encoded : EncodedFragment :=
        { finalMarker := !f.continued, metadata := metadata, payloadBytes := c.data.length }
      if c.ref = tombstoneReference then (.ok { encoded with storage := .tombstone },db)
      else if c.ref ≠ [] then (.ok { encoded with storage := .chunkRef, ref := c.ref },db)
      else if cfg.inlineDataThreshold < c.data.length then
        let (name,db') := writeBlob cfg db c.data
        (.ok { encoded with storage := .blob, ref := name, ownedBlob := name },db')
      else (.ok { encoded with storage := .inline, data := c.data },db)

/-- Encode a batch up to its first failure. The blobs written so far are listed
whether or not it succeeds. -/
def encodeAll : Database → List NodeFragment →
    StatusOr (List EncodedFragment) × List Bytes × Database
  | db, [] => (.ok [],[],db)
  | db, f::fragments =>
    match encodeFragment cfg db f with
    | (.error status,db') => (.error status,[],db')
    | (.ok encoded,db') =>
      let (rest,owned,db'') := encodeAll db' fragments
      (rest.map fun rows => encoded::rows,
        if encoded.ownedBlob = [] then owned else encoded.ownedBlob::owned,db'')

def removeBlobs (db : Database) (names : List Bytes) : Database := names.foldl removeBlob db

/-! ### Transactions -/

def ensureNodeRow (sql : Sql) : Sql := { sql with node := some (sql.node.getD {}) }

def updateNode (sql : Sql) (update : NodeRow → NodeRow) : Sql :=
  { sql with node := sql.node.map update }

/-- `BindBlob` and `BindText`. The size is narrowed to an `int`; SQLite refuses a value of more
than 10^9 bytes, and the column stays NULL. A negative size, which SQLite leaves undefined,
counts as refused. -/
def bound (value : Bytes) : Option Bytes :=
  let size := value.length % 4294967296
  if size ≤ 1000000000 then some (value.take size) else none

/-- The columns an insert binds. The name of a blob is a UUID, which every bind keeps. -/
def insertedRow (seq : UInt32) (arrivalOrder : ℕ) (e : EncodedFragment) : FragmentRow where
  seq := seq
  arrivalOrder := arrivalOrder
  finalMarker := e.finalMarker
  storage := e.storage
  data := if e.storage = .inline ∨ e.storage = .nodeRef then bound e.data else none
  ref := if e.storage = .blob then e.ref else (bound e.ref).getD []
  metadata := e.metadata.bind bound
  nodeRefId := e.nodeRefId.bind bound
  nodeRefOffset := e.nodeRefId.map fun _ => e.nodeRefOffset
  nodeRefLength := e.nodeRefId.bind fun _ => e.nodeRefLength

/-- An insert fails on a reference that did not bind, and on a sequence or an arrival order that
is already there. -/
def insertFragment (sql : Sql) (seq : UInt32) (arrivalOrder : ℕ) (e : EncodedFragment) :
    StatusOr Sql :=
  if e.storage ≠ .blob ∧ bound e.ref = none then
    .error ⟨.internal,"Cannot insert fragment: NOT NULL constraint failed"⟩
  else if sql.fragments.any fun row => row.seq = seq ∨ row.arrivalOrder = arrivalOrder then
    .error ⟨.internal,"Cannot insert fragment: UNIQUE constraint failed"⟩
  else .ok { sql with fragments := sql.fragments++[insertedRow seq arrivalOrder e] }

def insertFragments : Sql → ℕ → List (UInt32 × EncodedFragment) → StatusOr Sql
  | sql, _, [] => .ok sql
  | sql, arrivalOrder, (seq,e)::rest => do
    let sql' ← insertFragment sql seq arrivalOrder e
    insertFragments sql' (arrivalOrder+1) rest

def batchView (sql : Sql) (st : NodeState) : PutBatch.View where
  putCount := st.putCount
  taken seq := (selectSeq sql seq).isSome
  finalSeq := st.finalSeq
  hasLater final := st.maxSeq.any fun m => final < m

/-- The larger of the recorded maximum and the batch's own. -/
def newMax (recorded : Option UInt32) (assigned : List UInt32) : Option UInt32 :=
  assigned.foldl (fun m seq => some (m.elim seq fun m => if m < seq then seq else m)) recorded

def putManyBody (sql : Sql) (allExplicit : Bool) (fragments : List NodeFragment)
    (encoded : List EncodedFragment) : StatusOr (List UInt32 × Sql) := do
  let st ← loadNodeState cfg sql
  if st.closed then
    .error (.failedPrecondition
      ("Chunk store " ++ asciiText cfg.nodeId ++ " is closed for writes"))
  else if fragments.isEmpty then .ok ([],sql)
  else do
    let p ← PutBatch.plan LocalChunkStore.wording (batchView sql st) allExplicit fragments
    let sql' ← insertFragments (ensureNodeRow sql) st.putCount (p.assigned.zip encoded)
    .ok (p.assigned,updateNode sql' fun row => { row with
      putCount := st.putCount+fragments.length
      size := st.size+fragments.length
      dataBytes := st.dataBytes+(encoded.map fun e => e.payloadBytes).sum
      maxSeq := newMax st.maxSeq p.assigned
      finalSeq := p.pendingFinal })

def putMany (db : Database) (fragments : List NodeFragment) :
    StatusOr (List UInt32) × Database :=
  match PutBatch.scan LocalChunkStore.wording fragments with
  | .error status => (.error status,db)
  | .ok allExplicit =>
    let (encoded,owned,db') := encodeAll cfg db fragments
    match encoded with
    | .error status => (.error status,removeBlobs db' owned)
    | .ok rows =>
      match putManyBody cfg db'.sql allExplicit fragments rows with
      | .error status => (.error status,removeBlobs db' owned)
      | .ok (assigned,sql) => (.ok assigned,{ db' with sql := sql })

/-- The fragment as it was, the rows after the clear, and the blob that is freed. -/
def clearDataBody (db : Database) (seq : UInt32) : StatusOr (NodeFragment × Sql × Bytes) := do
  let st ← loadNodeState cfg db.sql
  match selectSeq db.sql seq with
  | none => .error (.notFound ("No fragment with seq " ++ toString seq ++ " exists"))
  | some row =>
    if row.storage = .nodeRef then
      .error (.unimplemented
        ("Cannot clear the payload of node-reference fragment " ++ toString seq))
    else do
      let original ← decodeFragment cfg db row st.finalSeq
      let clearedBytes := match original.data with
        | .chunk c => c.data.length
        | .nodeRef _ => 0
      let rows := db.sql.fragments.map fun r =>
        if r.seq = seq then
          { r with data := none, ref := [], storage := .tombstone, tombstone := true }
        else r
      .ok (original,
        updateNode { db.sql with fragments := rows } fun row =>
          { row with dataBytes := row.dataBytes-clearedBytes },
        if row.storage = .blob then row.ref else [])

def clearData (db : Database) (seq : UInt32) : StatusOr NodeFragment × Database :=
  match clearDataBody cfg db seq with
  | .error status => (.error status,db)
  | .ok (original,sql,freed) => (.ok original,removeBlob { db with sql := sql } freed)

/-- The status now in force, whether it was there already, and the rows. -/
def closeBody (sql : Sql) (status : Status) : StatusOr (Status × Bool × Sql) := do
  let st ← loadNodeState cfg sql
  if st.closed then .ok (st.status.getD .okStatus,true,sql)
  else do
    let packed ← cfg.codec.packStatus status
    .ok (status,false,updateNode (ensureNodeRow sql) fun row =>
      { row with closed := true, status := bound packed })

def closeWritesWithStatus (db : Database) (status : Status) (returnStatusIfAlreadyClosed : Bool) :
    StatusOr Status × Database :=
  match closeBody cfg db.sql status with
  | .error status => (.error status,db)
  | .ok (published,alreadyClosed,sql) =>
    (if alreadyClosed && !returnStatusIfAlreadyClosed then
        .error (.failedPrecondition "Chunk store is already closed for writes")
      else .ok published,{ db with sql := sql })

/-! ### Reads -/

def read (db : Database) (kind : ReadKind) (value : UInt64) : Option (StatusOr NodeFragment) :=
  match loadNodeState cfg db.sql with
  | .error status => some (.error status)
  | .ok st =>
    let row := match kind with
      | .sequence => selectSeq db.sql value.toUInt32
      | .arrivalOrder => selectArrivalOrder db.sql value
    match row with
    | some row => some (decodeFragment cfg db row st.finalSeq)
    | none => if st.closed then closedRead (some (st.status.getD .okStatus)) kind value else none

def getSeqForArrivalOrder (db : Database) (arrivalOrder : UInt64) : StatusOr UInt32 :=
  let row := if arrivalOrder.toNat ≤ 9223372036854775807 then
    selectArrivalOrder db.sql arrivalOrder else none
  match row with
  | some row => .ok row.seq
  | none => .error (.notFound ("No fragment has arrival order " ++ toString arrivalOrder))

def nextSource (db : Database) (st : NodeState) : NextScan.Source where
  row seq := (selectSeq db.sql seq).map fun row => decodeFragment cfg db row st.finalSeq
  finalSeq := st.finalSeq
  closed := st.closed
  status := st.status

def advanceCursor (sql : Sql) (startedAt cursor : ℕ) : Sql :=
  if cursor = startedAt then sql
  else updateNode sql fun row => { row with nextCursor := cursor }

/-- A whole `Next` call whose only transaction commits at once. -/
def next (db : Database) (limit : ℕ) : Reply × Database :=
  if limit = 0 then (.now .fragments (.error (.invalidArgument "limit must be positive")),db)
  else match loadNodeState cfg db.sql with
    | .error status => (.now .fragments (.error status),db)
    | .ok st =>
      let pass := (nextSource cfg db st).collect limit st.nextCursor []
      let db' := { db with sql := advanceCursor db.sql st.nextCursor pass.cursor }
      match pass.ending with
      | .failed status => (.now .fragments (.error status),db)
      | .terminal status => (.now .fragments (.error status),db')
      | .done => (.now .fragments (.ok pass.fragments),db')
      | .park => (.expired nextExpired pass.fragments,db')

def exec (db : Database) : Op → Reply × Database
  | .putMany fragments => (.now .seqs (putMany cfg db fragments).1,(putMany cfg db fragments).2)
  | .clearData seq => (.now .fragment (clearData cfg db seq).1,(clearData cfg db seq).2)
  | .closeWritesWithStatus status flag =>
    (.now .status (closeWritesWithStatus cfg db status flag).1,
      (closeWritesWithStatus cfg db status flag).2)
  | .get seq => (readReply (read cfg db .sequence seq.toUInt64),db)
  | .getByArrivalOrder order => (readReply (read cfg db .arrivalOrder order),db)
  | .getSeqForArrivalOrder order => (.now .seq (getSeqForArrivalOrder db order),db)
  | .getFinalSeq => (.now .finalSeq ((loadNodeState cfg db.sql).map fun st => st.finalSeq),db)
  | .size => (.now .size ((loadNodeState cfg db.sql).map fun st => st.size),db)
  | .next limit => next cfg db limit

end SqliteChunkStore
end A11
