import A11.Ascii
import A11.WireSizes

/-! What both wire streams share: their options, the terminal messages, the headers of a
message, and how a sender folds queued messages into one. -/
namespace A11

open Ascii

/-! ### Estimates -/

section ApproxBytes

-- what an in-process object says of its own size
variable (estimate : ChunkObject → ℕ)

def ByteMap.approxBytes (m : ByteMap) : ℕ :=
  (m.entries.map fun e => e.1.length+e.2.length).sum

def ChunkMetadata.approxBytes (m : ChunkMetadata) : ℕ :=
  m.mimetype.length+8+1+m.attributes.approxBytes

def Chunk.approxBytes (c : Chunk) : ℕ :=
  c.ref.length+c.data.length+(c.object.map estimate).getD 0+
    (c.metadata.map ChunkMetadata.approxBytes).getD 1+5

def StorageCredentials.approxBytes (c : StorageCredentials) : ℕ :=
  c.scheme.length+c.fields.approxBytes

def StorageService.approxBytes (s : StorageService) : ℕ :=
  s.role.length+s.endpoint.length+(s.credentials.map StorageCredentials.approxBytes).getD 0

def StorageIdentity.approxBytes (s : StorageIdentity) : ℕ :=
  s.id.length+(s.credentials.map StorageCredentials.approxBytes).getD 0+
    (s.services.map StorageService.approxBytes).sum

def NodeRef.approxBytes (r : NodeRef) : ℕ :=
  r.id.length+4+(if r.length.isSome then 4 else 0)+1+
    (r.storage.map StorageIdentity.approxBytes).getD 0

def Payload.approxBytes : Payload → ℕ
  | .chunk c => c.approxBytes estimate
  | .nodeRef r => r.approxBytes

def NodeFragment.approxBytes (f : NodeFragment) : ℕ :=
  f.id.length+f.data.approxBytes estimate+(if f.seq.isSome then 4 else 1)+6

def Port.approxBytes (p : Port) : ℕ := p.name.length+p.id.length+1

def ActionMessage.approxBytes (a : ActionMessage) : ℕ :=
  a.id.length+a.name.length+8+(a.inputs.map Port.approxBytes).sum+
    (a.outputs.map Port.approxBytes).sum+a.headers.approxBytes

def WireMessage.approxBytes (m : WireMessage) : ℕ :=
  8+(m.nodeFragments.map fun f => f.approxBytes estimate).sum+
    (m.actions.map ActionMessage.approxBytes).sum+m.headers.approxBytes

end ApproxBytes

/-! ### Terminal messages -/

def isHalfCloseMessage (m : WireMessage) : Bool := m.actions.isEmpty && m.nodeFragments.isEmpty

def makeHalfCloseMessage (trailers : ByteMap) : WireMessage := { headers := trailers }

/-- The key under which an aborting endpoint reports its status. -/
def abortStatusHeader : Bytes := ofString "x-a11-abort-status"

def ByteMap.insertOrAssign (m : ByteMap) (key value : Bytes) : ByteMap :=
  ⟨Entries.put key value m.entries,Entries.sorted_put m.sorted key value⟩

def ByteMap.find (m : ByteMap) (key : Bytes) : Option Bytes := Entries.find key m.entries

def normalizeEntries : List (Bytes × Bytes) → ByteMap → StatusOr ByteMap
  | [], normalized => .ok normalized
  | (key,value)::entries, normalized => do
    let folded := lower key
    validateName folded
    normalizeEntries entries (normalized.insertOrAssign folded value)

def normalizeWireHeaders (headers : ByteMap) : StatusOr ByteMap :=
  normalizeEntries headers.entries .empty

namespace WireStream

/-- How an endpoint has ended its direction. -/
inductive End
  | none | halfClose | abort
  deriving DecidableEq

/-! ### Options -/

/-- `kMaxSingleMessageSize`. -/
def maxSingleMessageSizeLimit : ℕ := 32*1024*1024

/-- The deadline is left to the steps that read the clock. -/
structure Options where
  maxBufferedIncomingMessages : ℕ := 1000
  maxSingleMessageSize : ℕ := maxSingleMessageSizeLimit
  maxBufferedIncomingBytes : ℕ := 32*1024*1024
  /-- `none` is the infinite duration. -/
  messageTimeout : Option ℤ := none

/-- No JSON is in the empty message, so that every packer gives this size. -/
def emptyWireMessageSize : ℕ :=
  match WireMessage.toMsgpack .shortest {} with
  | .ok encoded => encoded.length
  | .error _ => 0

def Options.validate (o : Options) : StatusOr Unit :=
  if o.maxBufferedIncomingMessages < 1 ∨ 1024 < o.maxBufferedIncomingMessages then
    .error (.invalidArgument "max_buffered_incoming_messages must be in [1, 1024]")
  else if o.maxSingleMessageSize < emptyWireMessageSize ∨
      maxSingleMessageSizeLimit < o.maxSingleMessageSize then
    .error (.invalidArgument "max_single_message_size is outside the supported range")
  else if o.maxBufferedIncomingBytes < emptyWireMessageSize then
    .error (.invalidArgument "max_buffered_incoming_bytes is smaller than an empty message")
  else if o.messageTimeout.any (· < 0) then
    .error (.invalidArgument "message_timeout must be non-negative or infinite")
  else .ok ()

theorem Options.validate_size {o : Options} (h : o.validate = .ok ()) :
    o.maxSingleMessageSize ≤ maxSingleMessageSizeLimit := by
  unfold validate at h
  split_ifs at h
  omega

/-! ### Statuses on the wire -/

/-- What a stream takes from elsewhere: the packing of JSON values and of a status, and what
an in-process object says of its own size. -/
structure Config where
  packer : JsonPacker
  packStatus : Status → StatusOr Bytes
  unpackStatus : Bytes → StatusOr Status
  estimate : ChunkObject → ℕ

def abortMessage (encoded : Bytes) : WireMessage :=
  { headers := ByteMap.empty.emplace abortStatusHeader encoded }

/-- The status of a received abort message. -/
def remoteStatus (cfg : Config) (encoded : Bytes) : Status :=
  let recorded := match cfg.unpackStatus encoded with
    | .ok status => status
    | .error failure => failure
  if recorded.isOk then .aborted recorded.message else recorded

/-- What `Send` makes of a message before it takes the lock: how it ends the stream, with
the headers of a terminal message normalized. -/
def prepare (m : WireMessage) : StatusOr (WireMessage × End) := do
  m.validate
  if isHalfCloseMessage m then do
    let headers ← normalizeWireHeaders m.headers
    return ({ m with headers },
      if (headers.find abortStatusHeader).isSome then .abort else .halfClose)
  else return (m,.none)

/-! ### The outgoing queue -/

/-- A queued message and what it ends; the channel stream also numbers its messages. -/
structure Outbound where
  message : WireMessage
  ending : End := .none
  messageId : ℕ := 0
  deriving DecidableEq

/-- `kMergeCeilingBytes`. -/
def mergeCeilingBytes : ℕ := 64*1024

/-- The second message's fragments and actions behind the first one's. -/
def append (m n : WireMessage) : WireMessage :=
  { m with nodeFragments := m.nodeFragments++n.nodeFragments, actions := m.actions++n.actions }

section Merge

variable (estimate : ChunkObject → ℕ)

/-- Folds in whatever is already waiting behind the message. -/
def foldQueued (approximate : ℕ) (message : WireMessage) :
    List Outbound → WireMessage × List Outbound
  | [] => (message,[])
  | next::rest =>
    if next.ending ≠ .none ∨ next.message.headers ≠ message.headers then (message,next::rest)
    else
      let addition := next.message.approxBytes estimate
      if mergeCeilingBytes < approximate+addition then (message,next::rest)
      else foldQueued (approximate+addition) (append message next.message) rest

/-- What a sender takes off its queue, given the front and the rest. -/
def takeOutbound (front : Outbound) (rest : List Outbound) : Outbound × List Outbound :=
  let approximate := front.message.approxBytes estimate
  if front.ending = .none ∧ approximate < mergeCeilingBytes then
    let (message,rest) := foldQueued estimate approximate front.message rest
    ({ front with message },rest)
  else (front,rest)

end Merge

end WireStream

end A11
