import A11.RedisScript

/-! The client of the Redis chunk store: it encodes a batch into the arguments of the
script, decodes the replies, and waits on a subscription. -/
namespace A11

/-- The encodings of whole chunks besides those of their parts. -/
structure ChunkCodec extends Codec where
  chunkToMsgpack : Chunk → StatusOr Bytes
  chunkFromMsgpack : Bytes → StatusOr Chunk

namespace RedisChunkStore

open Decimal

structure Config where
  nodeId : Bytes
  inlineDataThreshold : ℕ
  codec : ChunkCodec

def subscriptionExpired : String := "Redis subscription did not change before the deadline"

def protocolError (message : String) : Status :=
  .dataLoss ("Invalid RedisChunkStore reply: " ++ message)

def parseUint32 (t : Text) (field : String) : StatusOr UInt32 :=
  if t = [] then .error (protocolError (field ++ " is empty"))
  else if (t.any fun c => !c.isDigit) ∨ maxSeq < parse t then
    .error (protocolError (field ++ " is not an unsigned integer"))
  else .ok (UInt32.ofNat (parse t))

def parseOptionalSequence (t : Text) : StatusOr (Option UInt32) :=
  if t = [] then .ok none else (parseUint32 t "final sequence").map some

def parseSequences : List Text → StatusOr (List UInt32)
  | [] => .ok []
  | t::ts => do
    let seq ← parseUint32 t "assigned sequence"
    let seqs ← parseSequences ts
    .ok (seq::seqs)

variable (cfg : Config)

def decodeStoredStatus (encoded : Bytes) : StatusOr Status :=
  match cfg.codec.unpackStatus encoded with
  | .ok status => .ok status
  | .error status => .error (.dataLoss
      ("RedisChunkStore contains an invalid terminal status: " ++ status.message))

def decodeChunkItem (storage : Storage) (payload : Bytes) : StatusOr Chunk :=
  match cfg.codec.chunkFromMsgpack payload with
  | .error status => .error (.dataLoss
      ("RedisChunkStore contains an invalid encoded Chunk: " ++ status.message))
  | .ok c =>
    if storage = .tombstone ∧ (c.ref ≠ tombstoneReference ∨ c.data ≠ []) then
      .error (protocolError "tombstone payload is not data-free")
    else .ok c

def decodePayload (item : Item) : StatusOr Payload :=
  match item.storage with
  | .s3 => .error (.unimplemented ("S3-backed chunk access is not implemented (reference: " ++
      asciiText item.payload ++ ")"))
  | .nodeRef => (cfg.codec.nodeRefFromMsgpack item.payload).map .nodeRef
  | .inline | .redis | .tombstone => (decodeChunkItem cfg item.storage item.payload).map .chunk
  | .unknown => .error (protocolError "unknown chunk storage kind")

def decodeItemFields (item : Item) : StatusOr NodeFragment := do
  let seq ← parseUint32 item.seq "chunk sequence"
  let final ← parseOptionalSequence item.finalSeq
  if final.any fun f => f < seq then
    .error (protocolError "a stored chunk exceeds the final sequence")
  else do
    let payload ← decodePayload cfg item
    .ok ⟨cfg.nodeId,payload,some seq,final.all fun f => seq < f⟩

def decodeItems : List Item → StatusOr (List NodeFragment)
  | [] => .ok []
  | item::items => do
    let f ← decodeItemFields cfg item
    let fs ← decodeItems items
    .ok (f::fs)

/-- The largest batch whose arguments fit one command. -/
def maxFragments : ℕ := (2147483647-16)/5

def seqArgument (f : NodeFragment) : Text := (f.seq.map fun seq => text seq.toNat).getD []

def finalArgument (f : NodeFragment) : Text := if f.continued then "0".toList else "1".toList

/-- The tombstone that is sent with a chunk. It has no object. -/
def tombstoneOf (c : Chunk) : Chunk := { metadata := c.metadata, ref := tombstoneReference }

def encodeItem (f : NodeFragment) : StatusOr PutItem :=
  match f.data with
  | .nodeRef r => do
    let encoded ← cfg.codec.nodeRefToMsgpack r
    .ok ⟨seqArgument f,finalArgument f,.nodeRef,encoded,[]⟩
  | .chunk c => do
    let encoded ← cfg.codec.chunkToMsgpack c
    let tombstone ← cfg.codec.chunkToMsgpack (tombstoneOf c)
    .ok ⟨seqArgument f,finalArgument f,
      if cfg.inlineDataThreshold < c.data.length then .redis else .inline,encoded,tombstone⟩

def encodeItems : List NodeFragment → StatusOr (List PutItem)
  | [] => .ok []
  | f::fragments => do
    let item ← encodeItem cfg f
    let items ← encodeItems fragments
    .ok (item::items)

def putMany (db : Database) (fragments : List NodeFragment) :
    StatusOr (List UInt32) × Database :=
  if maxFragments < fragments.length then
    (.error (.resourceExhausted "Redis PutMany contains too many fragments"),db)
  else
    let result := do
      let _ ← PutBatch.scan LocalChunkStore.wording fragments
      let items ← encodeItems cfg fragments
      putScript cfg.nodeId db (text fragments.length) items
    match result with
    | .error status => (.error status,db)
    | .ok (assigned,db') => (parseSequences assigned,db')

def clearData (db : Database) (seq : UInt32) : StatusOr NodeFragment × Database :=
  match clearScript cfg.nodeId db (text seq.toNat) with
  | .error status => (.error status,db)
  | .ok (item,db') => (decodeItemFields cfg item,db')

def closeWritesWithStatus (db : Database) (status : Status) (returnStatusIfAlreadyClosed : Bool) :
    StatusOr Status × Database :=
  let result := do
    let encoded ← cfg.codec.packStatus status
    closeScript cfg.nodeId db encoded returnStatusIfAlreadyClosed
  match result with
  | .error status => (.error status,db)
  | .ok (stored,db') => (decodeStoredStatus cfg stored,db')

/-- A single read; with no answer yet it waits. -/
def read (db : Database) (kind : ReadKind) (value : UInt64) : Option (StatusOr NodeFragment) :=
  match lookupScript cfg.nodeId db kind (text value.toNat) with
  | .error status => some (.error status)
  | .ok (.item item) => some (decodeItemFields cfg item)
  | .ok (.missing .wait) => none
  | .ok (.missing (.closed encoded)) =>
    match decodeStoredStatus cfg encoded with
    | .error status => some (.error status)
    | .ok status => closedRead (some status) kind value

def readAnswer : Option (StatusOr NodeFragment) → Reply
  | some result => .now .fragment result
  | none => .expired subscriptionExpired []

def getSeqForArrivalOrder (db : Database) (arrivalOrder : UInt64) : StatusOr UInt32 := do
  let seq ← arrivalSeqScript cfg.nodeId db (text arrivalOrder.toNat)
  parseUint32 seq "arrival sequence"

def getFinalSeq (db : Database) : StatusOr (Option UInt32) := do
  let final ← finalScript cfg.nodeId db
  parseOptionalSequence final

def size (db : Database) : StatusOr ℕ := do
  let t ← sizeScript cfg.nodeId db
  .ok (parse t)

/-- The answer to the page a call has read. -/
def nextAnswer (p : Page) : Reply :=
  match decodeItems cfg p.items with
  | .error status => .now .fragments (.error status)
  | .ok decoded =>
    let fragments := decoded.map some
    match p.disposition with
    | .ready => .now .fragments (.ok fragments)
    | .wait => .expired subscriptionExpired fragments
    | .ended => .now .fragments (.ok (fragments++[none]))
    | .closed encoded =>
      match decodeStoredStatus cfg encoded with
      | .error status => .now .fragments (.error status)
      | .ok status =>
        if status.isOk then .now .fragments (.ok (fragments++[none]))
        else if fragments ≠ [] then .now .fragments (.ok fragments)
        else .now .fragments (.error status)
    | .dataLoss message => .now .fragments (.error (.dataLoss message))
    | .s3 reference => .now .fragments (.error (.unimplemented
        ("S3-backed chunk access is not implemented (reference: " ++ String.ofList reference ++ ")")))

/-- The most fragments that one page holds. -/
def maximumLuaNextBatch : ℕ := 1024

/-- A `Next` call. When its page says to wait, it subscribes and runs into its deadline. -/
def next (db : Database) (limit : ℕ) : Reply × Database :=
  if limit = 0 then (.now .fragments (.error (.invalidArgument "limit must be positive")),db)
  else match nextScript cfg.nodeId db (text (min limit maximumLuaNextBatch)) with
    | .error status => (.now .fragments (.error status),db)
    | .ok (p,db') => (nextAnswer cfg p,db')

def exec (db : Database) : Op → Reply × Database
  | .putMany fragments => (.now .seqs (putMany cfg db fragments).1,(putMany cfg db fragments).2)
  | .clearData seq => (.now .fragment (clearData cfg db seq).1,(clearData cfg db seq).2)
  | .closeWritesWithStatus status flag =>
    (.now .status (closeWritesWithStatus cfg db status flag).1,
      (closeWritesWithStatus cfg db status flag).2)
  | .get seq => (readAnswer (read cfg db .sequence seq.toUInt64),db)
  | .getByArrivalOrder order => (readAnswer (read cfg db .arrivalOrder order),db)
  | .getSeqForArrivalOrder order => (.now .seq (getSeqForArrivalOrder cfg db order),db)
  | .getFinalSeq => (.now .finalSeq (getFinalSeq cfg db),db)
  | .size => (.now .size (size cfg db),db)
  | .next limit => next cfg db limit

end RedisChunkStore
end A11
