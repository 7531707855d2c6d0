import A11.Decimal
import A11.LocalChunkStore
import A11.RedisChunkStore

/-! The records of the S2 chunk store and the replica that a process keeps of its two
streams. A fragment takes one record of the data stream, and clears and cursor moves go
to the state stream. -/
namespace A11.S2ChunkStore

open Decimal

def ascii (s : String) : Bytes := s.toList.map fun c => c.toNat.toUInt8

/-! ### Records -/

inductive Header
  | format | transaction | sequence | final | chunk | nodeRef | previous | cursor
  | other (name : Bytes)
  deriving DecidableEq

def Header.name : Header → Bytes
  | .format => ascii "a11-format"
  | .transaction => ascii "a11-transaction"
  | .sequence => ascii "a11-sequence"
  | .final => ascii "a11-final"
  | .chunk => ascii "a11-chunk"
  | .nodeRef => ascii "a11-node-ref"
  | .previous => ascii "a11-previous"
  | .cursor => ascii "a11-cursor"
  | .other name => name

structure Record where
  body : Bytes
  headers : List (Header × Bytes) := []
  deriving DecidableEq

def chunkFormat : Bytes := ascii "chunk/v2"
def clearFormat : Bytes := ascii "clear/v2"
def advanceFormat : Bytes := ascii "advance/v2"
def closeFormat : Bytes := ascii "close/v2"

/-- What the first record format stored in a body. -/
inductive LegacyOperation
  | put (fragments : List Bytes)
  | clear (seq : ℤ)
  | advance (previous cursor : ℤ)
  | close (status : Status)
  | unknown (operation : String)

structure LegacyEvent where
  transaction : Option Bytes
  operation : LegacyOperation

/-- The libraries that read and write the parts of a record. -/
structure RecordCodec extends ChunkCodec where
  /-- `int(value.decode("ascii"))`. -/
  parseInt : Bytes → Option ℤ
  fragmentFromMsgpack : Bytes → StatusOr NodeFragment
  unpackLegacy : Bytes → StatusOr (Option LegacyEvent)

structure Config where
  nodeId : Bytes
  codec : RecordCodec

/-! ### The replica -/

/-- What the data stream says. -/
structure DataView where
  chunks : Table UInt32 Payload := ∅
  arrivals : List UInt32 := []
  finalSeq : Option UInt32 := none
  closedStatus : Option Status := none

/-- What the state stream says. -/
structure StateView where
  cleared : Finset UInt32 := ∅
  cursor : ℕ := 0

/-- How far the streams have been read. -/
structure Marks where
  dataEnsured : Bool := false
  stateEnsured : Bool := false
  logTail : ℕ := 0
  stateTail : ℕ := 0

/-- What a process remembers of the streams. -/
structure Replica extends DataView, StateView, Marks where
  transactions : Finset Bytes := ∅

def Replica.tail (r : Replica) (state : Bool) : ℕ := if state then r.stateTail else r.logTail

def Replica.setTail (r : Replica) (state : Bool) (tail : ℕ) : Replica :=
  if state then { r with stateTail := tail } else { r with logTail := tail }

/-! ### Reading a record -/

def recordText (physical : ℕ) : String := "S2 record " ++ toString physical

/-- How Python shows one byte of a `bytes` value. -/
def reprByte (b : UInt8) : List Char :=
  if b = 9 then "\\t".toList
  else if b = 10 then "\\n".toList
  else if b = 13 then "\\r".toList
  else if b = 92 then "\\\\".toList
  else if b < 32 ∨ 127 ≤ b then "\\x".toList++[Nat.digitChar (b.toNat/16),Nat.digitChar (b.toNat%16)]
  else [Char.ofNat b.toNat]

def reprBytes (b : Bytes) : String :=
  if 39 ∈ b ∧ 34 ∉ b then "b\"" ++ String.ofList (b.flatMap reprByte) ++ "\""
  else "b'" ++ String.ofList (b.flatMap fun c => if c = 39 then "\\'".toList else reprByte c) ++ "'"

/-- The first header that occurred before. -/
def repeatedHeader : List Header → List Header → Option Header
  | _, [] => none
  | seen, h::rest => if h ∈ seen then some h else repeatedHeader (h::seen) rest

/-- No header may occur twice. -/
def checkHeaders (record : Record) (physical : ℕ) : StatusOr Unit :=
  match repeatedHeader [] (record.headers.map Prod.fst) with
  | none => .ok ()
  | some h => .error (.dataLoss (recordText physical ++ " repeats header " ++ reprBytes h.name ++ "."))

def Record.get (record : Record) (h : Header) : Option Bytes := record.headers.lookup h

variable (cfg : Config)

def headerInt (record : Record) (h : Header) (physical : ℕ) : StatusOr (Option ℤ) :=
  match record.get h with
  | none => .ok none
  | some value =>
    match cfg.codec.parseInt value with
    | none => .error (.dataLoss (recordText physical ++ " has invalid header " ++ reprBytes h.name ++ "."))
    | some n => .ok (some n)

/-- The logical sequence of a fragment's record. -/
def recordSeq (record : Record) (physical : ℕ) : StatusOr UInt32 := do
  let seq ← headerInt cfg record .sequence physical
  let seq := seq.getD physical
  if seq < 0 ∨ maxSeq < seq.toNat then
    .error (.dataLoss (recordText physical ++ " has an invalid logical sequence."))
  else .ok (UInt32.ofNat seq.toNat)

def invalidMetadata (physical : ℕ) (error : String) : Status :=
  .dataLoss (recordText physical ++ " has invalid chunk metadata: " ++ error)

def recordPayload (record : Record) (physical : ℕ) : StatusOr Payload :=
  match record.get .nodeRef, record.get .chunk with
  | some encoded, other =>
    if record.body ≠ [] ∨ other.isSome then
      .error (invalidMetadata physical "invalid node-reference record")
    else match cfg.codec.nodeRefFromMsgpack encoded with
      | .error status => .error (invalidMetadata physical status.message)
      | .ok r => .ok (.nodeRef r)
  | none, some descriptor =>
    match cfg.codec.chunkFromMsgpack descriptor with
    | .error status => .error (invalidMetadata physical status.message)
    | .ok c =>
      match { c with data := record.body }.validate with
      | .error status => .error (invalidMetadata physical status.message)
      | .ok _ => .ok (.chunk { c with data := record.body })
  | none, none => .ok (.chunk { data := record.body })

/-- The fragment of a record of the data stream, unless the record is of another format. -/
def decodeChunk (record : Record) (physical : ℕ) : StatusOr (Option NodeFragment) := do
  checkHeaders record physical
  if record.get .format ≠ some chunkFormat then .ok none
  else do
    let seq ← recordSeq cfg record physical
    let data ← recordPayload cfg record physical
    let fragment : NodeFragment := ⟨cfg.nodeId,data,some seq,(record.get .final).isNone⟩
    fragment.validate
    .ok (some fragment)

/-! ### Applying a record -/

def invalidState (physical : ℕ) (error : String) : Status :=
  .dataLoss (recordText physical ++ " has invalid chunk-store state: " ++ error)

/-- A change that may fail halfway. -/
abbrev Change (α : Type) := StatusOr Unit × α

def addChunk (v : DataView) (physical : ℕ) (duplicate : String) (seq : UInt32) (data : Payload)
    (continued : Bool) : Change DataView :=
  if seq ∈ v.chunks then (.error (invalidState physical duplicate),v)
  else
    let v' := { v with chunks := v.chunks.set seq data, arrivals := v.arrivals++[seq] }
    if continued then (.ok (),v')
    else if v.finalSeq ≠ none ∧ v.finalSeq ≠ some seq then
      (.error (invalidState physical "conflicting final sequence"),v')
    else (.ok (),{ v' with finalSeq := some seq })

def applyClose (v : DataView) (record : Record) (physical : ℕ) : Change DataView :=
  if v.closedStatus.isSome then (.error (invalidState physical "duplicate write closure"),v)
  else match cfg.codec.unpackStatus record.body with
    | .error status => (.error (invalidState physical status.message),v)
    | .ok status => (.ok (),{ v with closedStatus := some status })

def unexpectedFormat (record : Record) (physical : ℕ) : Status :=
  invalidState physical ("unexpected record format " ++ reprBytes ((record.get .format).getD []))

def applyData (v : DataView) (record : Record) (physical : ℕ) : Change DataView :=
  if record.get .format = some chunkFormat then
    match decodeChunk cfg record physical with
    | .error status => (.error status,v)
    | .ok none => (.ok (),v)
    | .ok (some f) => addChunk v physical "duplicate sequence" (f.seq.getD 0) f.data f.continued
  else if record.get .format = some closeFormat then applyClose cfg v record physical
  else (.error (unexpectedFormat record physical),v)

def applyClear (v : StateView) (record : Record) (physical : ℕ) : Change StateView :=
  match headerInt cfg record .sequence physical with
  | .error status => (.error status,v)
  | .ok none => (.error (invalidState physical "invalid clear sequence"),v)
  | .ok (some seq) =>
    if seq < 0 ∨ maxSeq < seq.toNat then
      (.error (invalidState physical "invalid clear sequence"),v)
    else (.ok (),{ v with cleared := insert (UInt32.ofNat seq.toNat) v.cleared })

def applyAdvance (v : StateView) (record : Record) (physical : ℕ) : Change StateView :=
  match headerInt cfg record .previous physical, headerInt cfg record .cursor physical with
  | .error status, _ | .ok _, .error status => (.error status,v)
  | .ok (some previous), .ok (some cursor) =>
    if previous ≠ v.cursor ∨ cursor < previous then
      (.error (invalidState physical "invalid shared cursor transition"),v)
    else (.ok (),{ v with cursor := cursor.toNat })
  | .ok _, .ok _ => (.error (invalidState physical "invalid shared cursor transition"),v)

def applyState (v : StateView) (record : Record) (physical : ℕ) : Change StateView :=
  if record.get .format = some clearFormat then applyClear cfg v record physical
  else if record.get .format = some advanceFormat then applyAdvance cfg v record physical
  else (.error (unexpectedFormat record physical),v)

/-- A fragment of a record of the first format. -/
def applyLegacyFragment (v : DataView) (encoded : Bytes) (physical : ℕ) : Change DataView :=
  match cfg.codec.fragmentFromMsgpack encoded with
  | .error status => (.error (invalidState physical status.message),v)
  | .ok f =>
    match f.seq with
    | none => (.error (invalidState physical "duplicate or missing sequence"),v)
    | some seq => addChunk v physical "duplicate or missing sequence" seq f.data f.continued

def applyLegacyFragments (physical : ℕ) : DataView → List Bytes → Change DataView
  | v, [] => (.ok (),v)
  | v, encoded::rest =>
    match applyLegacyFragment cfg v encoded physical with
    | (.error status,v') => (.error status,v')
    | (.ok _,v') => applyLegacyFragments physical v' rest

def applyLegacyOperation (r : Replica) (operation : LegacyOperation) (physical : ℕ) :
    Change Replica :=
  match operation with
  | .put fragments =>
    let result := applyLegacyFragments cfg physical r.toDataView fragments
    (result.1,{ r with toDataView := result.2 })
  | .clear seq =>
    if seq < 0 ∨ maxSeq < seq.toNat ∨ UInt32.ofNat seq.toNat ∉ r.chunks then
      (.error (invalidState physical "clear refers to a missing sequence"),r)
    else (.ok (),{ r with cleared := insert (UInt32.ofNat seq.toNat) r.cleared })
  | .advance previous cursor =>
    if previous ≠ r.cursor ∨ cursor < previous then
      (.error (invalidState physical "invalid shared cursor transition"),r)
    else (.ok (),{ r with cursor := cursor.toNat })
  | .close status =>
    if r.closedStatus.isSome then (.error (invalidState physical "duplicate write closure"),r)
    else (.ok (),{ r with closedStatus := some status })
  | .unknown operation =>
    (.error (invalidState physical ("unknown operation '" ++ operation ++ "'")),r)

def applyLegacy (r : Replica) (body : Bytes) (physical : ℕ) : Change Replica :=
  match cfg.codec.unpackLegacy body with
  | .error status =>
    (.error (.dataLoss (recordText physical ++ " is not valid MessagePack: " ++ status.message)),r)
  | .ok none =>
    (.error (.dataLoss (recordText physical ++ " is not an A11 chunk-store event.")),r)
  | .ok (some event) =>
    match event.transaction with
    | none =>
      (.error (.dataLoss (recordText physical ++ " has an invalid transaction id.")),r)
    | some transaction =>
      if transaction ∈ r.transactions then
        (.error (.dataLoss (recordText physical ++ " has an invalid transaction id.")),r)
      else match applyLegacyOperation cfg r event.operation physical with
        | (.error status,r') => (.error status,r')
        | (.ok _,r') => (.ok (),{ r' with transactions := insert transaction r'.transactions })

/-- The id of the transaction a record starts. What is not ASCII counts as empty. -/
def Record.transaction (record : Record) : Option Bytes :=
  (record.get .transaction).map fun t => if t.all fun b => b < 128 then t else []

def badTransaction (r : Replica) (record : Record) : Bool :=
  record.transaction.any fun t => t == [] || decide (t ∈ r.transactions)

/-- The change of one stream's view, with the transaction noted on success. -/
def applyView (r : Replica) (record : Record) (physical : ℕ) (state : Bool) : Change Replica :=
  if state then
    let result := applyState cfg r.toStateView record physical
    (result.1,{ r with toStateView := result.2 })
  else
    let result := applyData cfg r.toDataView record physical
    (result.1,{ r with toDataView := result.2 })

def noteTransaction (record : Record) (r : Replica) : Replica :=
  match record.transaction with
  | none => r
  | some t => { r with transactions := insert t r.transactions }

def applyRecord (record : Record) (physical : ℕ) (state : Bool) (r : Replica) : Change Replica :=
  match checkHeaders record physical with
  | .error status => (.error status,r)
  | .ok _ =>
    match record.get .format with
    | none =>
      if state then
        (.error (.dataLoss ("S2 state record " ++ toString physical ++ " has no format header.")),r)
      else applyLegacy cfg r record.body physical
    | some _ =>
      if badTransaction r record then
        (.error (.dataLoss (recordText physical ++ " has an invalid transaction id.")),r)
      else match applyView cfg r record physical state with
        | (.error status,r') => (.error status,r')
        | (.ok _,r') => (.ok (),noteTransaction record r')

/-! ### A codec -/

/-- Plain chunks only: a descriptor says nothing, and every stored status is OK. -/
def exampleCodec : RecordCodec where
  metadataToMsgpack _ := .error (.dataLoss "unreadable")
  metadataFromMsgpack _ := .error (.dataLoss "unreadable")
  nodeRefToMsgpack r := .ok r.id
  nodeRefFromMsgpack id := .ok { id := id }
  packStatus _ := .ok []
  unpackStatus _ := .ok .okStatus
  chunkToMsgpack _ := .ok []
  chunkFromMsgpack _ := .ok {}
  parseInt b := some (parse (b.map fun c => Char.ofNat c.toNat) : ℤ)
  fragmentFromMsgpack _ := .error (.dataLoss "unreadable")
  unpackLegacy _ := .error (.dataLoss "unreadable")

def exampleConfig : Config := ⟨[110],exampleCodec⟩

end A11.S2ChunkStore
