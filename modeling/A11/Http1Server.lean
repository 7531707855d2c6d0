import A11.Http1Codec
import A11.Runs

/-! The server side of an HTTP/1.1 connection: inbound segments collect in one buffer,
a head and a body are taken from it, and the finished response lets the parser go on
with what is already buffered. -/
namespace A11.Http1

open Ascii

structure Options where
  maxRequestBodySize : ℕ := 32*1024*1024
  maxBufferedRequestBytes : ℕ := 4*1024*1024
  /-- Whether the owner wants the body of such a request incrementally. -/
  streamRequestBody : Option (Bytes → Bytes → HttpHeaders → Bool) := none
  secure : Bool := false

/-! ### The body stream of a request that stays open -/

structure BodyStream where
  maxBufferedBytes : ℕ
  chunks : List Bytes := []
  bufferedBytes : ℕ := 0
  pendingRead : Bool := false
  done : Option Status := none

namespace BodyStream

def push (b : BodyStream) (data : Bytes) : StatusOr Unit × BodyStream :=
  match b.done with
  | some status =>
    (.error (if status.isOk then .cancelled "Request body is done" else status),b)
  | none =>
    if b.pendingRead then (.ok (),{ b with pendingRead := false })
    else if b.maxBufferedBytes < b.bufferedBytes+data.length ∧ b.chunks ≠ [] then
      (.error (.resourceExhausted "HTTP request exceeded max_buffered_request_bytes"),b)
    else (.ok (),{ b with
      bufferedBytes := b.bufferedBytes+data.length
      chunks := b.chunks++[data] })

def finish (b : BodyStream) (completion : Status) : BodyStream :=
  if b.done.isSome then b else { b with done := some completion, pendingRead := false }

/-- The handler asks for the next chunk. -/
def read (b : BodyStream) : BodyStream :=
  if b.pendingRead then b
  else match b.chunks with
    | chunk::chunks => { b with chunks, bufferedBytes := b.bufferedBytes-chunk.length }
    | [] => if b.done.isSome then b else { b with pendingRead := true }

end BodyStream

/-! ### The parser -/

inductive ParseState
  | head | body | streamingBody | awaitingResponse | raw | done
  deriving DecidableEq

structure HttpRequest where
  method : Bytes
  protocol : Bytes := []
  scheme : Bytes
  authority : Bytes
  path : Bytes
  headers : HttpHeaders
  body : Bytes := []
  /-- The body comes through a stream. -/
  streamed : Bool := false
  deriving DecidableEq

structure Server where
  inbuf : Bytes := []
  state : ParseState := .head
  head : RequestHead := {}
  plan : BodyPlan := {}
  body : Bytes := []
  decoder : ChunkedDecoder := {}
  remaining : ℕ := 0
  keepAlive : Bool := true
  wsUpgrade : Bool := false
  streaming : Bool := false
  bodyStream : Option BodyStream := none
  /-- What has been handed to the request handler. -/
  dispatched : List HttpRequest := []
  closed : Option Status := none

/-- The status a step returns and the connection it leaves behind. -/
abbrev Parsed := StatusOr Unit × Server

variable (o : Options)

/-- An upgrade is presented as an extended CONNECT; a streamed body leaves `body`
empty. -/
def Server.request (s : Server) : HttpRequest where
  method := if s.wsUpgrade then ofString "CONNECT" else s.head.method
  protocol := if s.wsUpgrade then ofString "websocket" else []
  scheme := if o.secure then ofString "https" else ofString "http"
  authority := (getHttpHeader s.head.headers "host").getD []
  path := s.head.target
  headers := s.head.headers
  body := if s.wsUpgrade || s.streaming then [] else s.body
  streamed := s.wsUpgrade || s.streaming

def dispatchRequest (s : Server) : Server :=
  { s with
    state := .awaitingResponse
    dispatched := s.dispatched++[s.request o]
    body := if s.wsUpgrade || s.streaming then s.body else [] }

/-- Hands bytes to the body stream, if there is one. -/
def pushBody (s : Server) (data : Bytes) : Parsed :=
  match s.bodyStream with
  | none => (.ok (),s)
  | some b => ((b.push data).1,{ s with bodyStream := some (b.push data).2 })

/-- Takes what has arrived of a streamed body: the payload and whether it ended. -/
def decodeStreaming (s : Server) : StatusOr (Bytes × Bool × Server) :=
  if s.plan.framing = .contentLength then
    let taken := min s.remaining s.inbuf.length
    .ok (s.inbuf.take taken,decide (s.remaining-taken = 0),
      { s with inbuf := s.inbuf.drop taken, remaining := s.remaining-taken })
  else do
    let (decoder,out) ← s.decoder.feed s.inbuf
    return (out,decide (decoder.state = .complete),{ s with inbuf := [], decoder })

/-- Passes decoded bytes on and ends the stream with the body. -/
def deliver (s : Server) (data : Bytes) (complete : Bool) : Parsed :=
  match if data = [] then (.ok (),s) else pushBody s data with
  | (.error status,s) => (.error status,s)
  | (.ok (),s) =>
    if complete then
      (.ok (),{ s with
        bodyStream := s.bodyStream.map (·.finish .okStatus), state := .awaitingResponse })
    else (.ok (),s)

def parseStreamingBody (s : Server) : Parsed :=
  if s.inbuf = [] then (.ok (),s)
  else match decodeStreaming s with
    | .error status => (.error status,s)
    | .ok (data,complete,s) => deliver s data complete

def parseRaw (s : Server) : Parsed :=
  if s.inbuf = [] then (.ok (),s)
  else match pushBody s s.inbuf with
    | (.error status,s) => (.error status,s)
    | (.ok (),s) => (.ok (),{ s with inbuf := [] })

def parseBody (s : Server) : Parsed :=
  if s.plan.framing = .contentLength then
    let taken := min s.remaining s.inbuf.length
    let s := { s with
      body := s.body++s.inbuf.take taken
      inbuf := s.inbuf.drop taken
      remaining := s.remaining-taken }
    if 0 < s.remaining then
      if o.maxRequestBodySize < s.body.length then
        (.error (.outOfRange "HTTP/1.1 request body too large"),s)
      else (.ok (),s)
    else (.ok (),dispatchRequest o s)
  else match s.decoder.feed s.inbuf with
    | .error status => (.error status,s)
    | .ok (decoder,out) =>
      -- The whole buffer goes, also what stands behind the end of the body.
      let s := { s with body := s.body++out, decoder, inbuf := [] }
      if o.maxRequestBodySize < s.body.length then
        (.error (.outOfRange "HTTP/1.1 request body too large"),s)
      else if decoder.state = .complete then (.ok (),dispatchRequest o s)
      else (.ok (),s)

/-- A request to switch to the WebSocket protocol. -/
def asksUpgrade (headers : HttpHeaders) : Bool :=
  (getHttpHeader headers "upgrade").any (fun value => lower value = ofString "websocket") &&
    (getHttpHeader headers "sec-websocket-key").isSome

/-- The exchange that a parsed head begins. -/
def Server.exchange (s : Server) (head : RequestHead) : Server :=
  { s with
    head
    keepAlive := !wantsClose head.version head.headers
    body := []
    decoder := {}
    streaming := false
    bodyStream := none
    wsUpgrade := asksUpgrade head.headers }

def wantsStream (head : RequestHead) : Bool :=
  o.streamRequestBody.any fun accepts => accepts head.method head.target head.headers

def beginRequest (s : Server) (head : RequestHead) : Parsed :=
  let s := s.exchange head
  if s.wsUpgrade then
    (.ok (),dispatchRequest o { s with bodyStream := some { maxBufferedBytes :=
      o.maxBufferedRequestBytes } })
  else match planRequestBody head.headers with
    | .error status => (.error status,s)
    | .ok plan =>
      let s := { s with plan }
      if plan.framing = .none then (.ok (),dispatchRequest o s)
      else
        let s := { s with remaining := plan.contentLength, state := .body }
        if wantsStream o head then
          parseStreamingBody { dispatchRequest o { s with
            streaming := true
            bodyStream := some { maxBufferedBytes := o.maxBufferedRequestBytes } } with
            state := .streamingBody }
        else parseBody o s

def serverParse (s : Server) : Parsed :=
  match s.state with
  | .head => match findHeaderBlockEnd s.inbuf with
    | none =>
      if o.maxBufferedRequestBytes < s.inbuf.length then
        (.error (.resourceExhausted "HTTP/1.1 request head too large"),s)
      else (.ok (),s)
    | some headEnd =>
      let rest := { s with inbuf := s.inbuf.drop headEnd }
      match parseRequestHead (s.inbuf.take headEnd) with
      | .error status => (.error status,rest)
      | .ok head => beginRequest o rest head
  | .body => parseBody o s
  | .streamingBody => parseStreamingBody s
  | .raw => parseRaw s
  | .awaitingResponse | .done => (.ok (),s)

/-! ### The events of a connection -/

def closeOnLoop (s : Server) (status : Status) : Server :=
  let status := if status.isOk then .cancelled "HTTP connection closed" else status
  let cleanEof := s.state = .raw ∨ (s.streaming ∧ s.state = .awaitingResponse)
  { s with
    closed := some status
    bodyStream := s.bodyStream.map (·.finish (if cleanEof then .okStatus else status)) }

/-- A failed step closes the connection. -/
def settle (p : Parsed) : Server :=
  match p.1 with
  | .ok () => p.2
  | .error status => closeOnLoop p.2 status

def finishResponseAndAdvance (s : Server) : Server :=
  if !s.keepAlive || s.wsUpgrade || s.streaming || s.state == .raw then
    closeOnLoop s .okStatus
  else settle (serverParse o { s with state := .head })

/-- The handler accepts an upgrade: from here on the bytes are frames. -/
def acceptUpgrade (s : Server) : Server :=
  if s.wsUpgrade then (parseRaw { s with state := .raw }).2 else s

inductive Event
  | segment (data : Bytes)
  | acceptUpgrade
  /-- The response of the dispatched request is finished. -/
  | finish
  | read
  | close (status : Status)

def Server.answering (s : Server) : Bool :=
  s.state == .awaitingResponse || s.state == .streamingBody || s.state == .raw

def step (s : Server) (e : Event) : Server :=
  if s.closed.isSome then s
  else match e with
    | .segment data => settle (serverParse o { s with inbuf := s.inbuf++data })
    | .acceptUpgrade => if s.answering then acceptUpgrade s else s
    | .finish => if s.answering then finishResponseAndAdvance o s else s
    | .read => { s with bodyStream := s.bodyStream.map BodyStream.read }
    | .close status => closeOnLoop s status

def run (events : List Event) : Server := Runs.after (step o) {} events

/-! ### The size of buffered bodies -/

/-- A buffered body is within the limit unless its declared length is not. -/
def Limited (request : HttpRequest) : Prop :=
  request.body.length ≤ o.maxRequestBodySize ↔
    ¬ ∃ n, planRequestBody request.headers = .ok ⟨.contentLength,n⟩ ∧ o.maxRequestBodySize < n

structure BodyInvariant (s : Server) : Prop where
  limited : ∀ request ∈ s.dispatched, request.streamed = false → Limited o request
  assembling : s.state = .body → planRequestBody s.head.headers = .ok s.plan ∧
    (s.plan.framing = .contentLength → s.body.length+s.remaining = s.plan.contentLength)

section Invariant

variable {o} {s : Server}

theorem BodyInvariant.of_same {t : Server} (h : BodyInvariant o s)
    (hdisp : t.dispatched = s.dispatched) (hst : t.state ≠ .body) : BodyInvariant o t :=
  ⟨hdisp ▸ h.limited,fun hbody => absurd hbody hst⟩

theorem limited_of_contentLength {request : HttpRequest} {n : ℕ}
    (hplan : planRequestBody request.headers = .ok ⟨.contentLength,n⟩)
    (hbody : request.body.length = n) : Limited o request := by
  constructor
  · rintro _ ⟨m,hm,_⟩
    rw [hplan] at hm
    injection hm with hm
    injection hm with _ hm
    omega
  · intro hnot
    by_contra hover
    exact hnot ⟨n,hplan,by omega⟩

theorem limited_of_framing {request : HttpRequest} {plan : BodyPlan}
    (hplan : planRequestBody request.headers = .ok plan) (hfrm : plan.framing ≠ .contentLength)
    (hbody : request.body.length ≤ o.maxRequestBodySize) : Limited o request := by
  refine ⟨?_,fun _ => hbody⟩
  rintro - ⟨n,hn,-⟩
  rw [hplan] at hn
  injection hn with hn
  exact hfrm (by rw [hn])

/-- Dispatching adds one request, and no body is being assembled any more. -/
theorem BodyInvariant.dispatch (h : ∀ request ∈ s.dispatched, request.streamed = false →
      Limited o request) (hlimited : (s.request o).streamed = false → Limited o (s.request o)) :
    BodyInvariant o (dispatchRequest o s) := by
  refine ⟨?_,fun hbody => by simp [dispatchRequest] at hbody⟩
  intro request hreq hstrm
  rcases List.mem_append.mp hreq with hmem | hmem
  · exact h request hmem hstrm
  · rw [List.mem_singleton] at hmem
    subst hmem
    exact hlimited hstrm

theorem request_body_of_buffered (hstrm : (s.request o).streamed = false) :
    (s.request o).body = s.body := by
  have hflags : (s.wsUpgrade || s.streaming) = false := hstrm
  simp [Server.request,hflags]

theorem BodyInvariant.parseBody (h : BodyInvariant o s) (hst : s.state = .body) :
    BodyInvariant o (parseBody o s).2 := by
  obtain ⟨hplan,hlen⟩ := h.assembling hst
  unfold Http1.parseBody
  by_cases hfrm : s.plan.framing = .contentLength
  · have hlen := hlen hfrm
    rw [if_pos hfrm]
    have hkept : s.body.length+(s.inbuf.take (min s.remaining s.inbuf.length)).length+
        (s.remaining-min s.remaining s.inbuf.length) = s.plan.contentLength := by
      rw [List.length_take]
      omega
    dsimp only
    split_ifs with hmore hlarge
    · exact ⟨h.limited,fun _ => ⟨hplan,fun _ => by simpa using hkept⟩⟩
    · exact ⟨h.limited,fun _ => ⟨hplan,fun _ => by simpa using hkept⟩⟩
    · apply BodyInvariant.dispatch
      · exact h.limited
      intro hstrm
      apply limited_of_contentLength (n := s.plan.contentLength)
      · change planRequestBody s.head.headers = _
        rw [hplan,← hfrm]
      · rw [request_body_of_buffered hstrm]
        simp only [List.length_append]
        omega
  · rw [if_neg hfrm]
    cases s.decoder.feed s.inbuf with
    | error status => exact h
    | ok fed =>
      obtain ⟨decoder,out⟩ := fed
      dsimp only
      split_ifs with hlarge hcomp
      · exact ⟨h.limited,fun _ => ⟨hplan,fun hh => absurd hh hfrm⟩⟩
      · apply BodyInvariant.dispatch
        · exact h.limited
        intro hstrm
        refine limited_of_framing ?_ hfrm ?_
        · exact hplan
        · rw [request_body_of_buffered hstrm]
          exact not_lt.mp hlarge
      · exact ⟨h.limited,fun _ => ⟨hplan,fun hh => absurd hh hfrm⟩⟩

theorem pushBody_same (s : Server) (data : Bytes) :
    (pushBody s data).2.dispatched = s.dispatched ∧ (pushBody s data).2.state = s.state := by
  unfold pushBody
  cases s.bodyStream <;> exact ⟨rfl,rfl⟩

theorem parseRaw_same (s : Server) :
    (parseRaw s).2.dispatched = s.dispatched ∧ (parseRaw s).2.state = s.state := by
  have hpush := pushBody_same s s.inbuf
  unfold parseRaw
  split_ifs
  · exact ⟨rfl,rfl⟩
  · rcases hpushed : pushBody s s.inbuf with ⟨_ | _,t⟩
    · rwa [hpushed] at hpush
    · rwa [hpushed] at hpush

theorem deliver_same (s : Server) (data : Bytes) (complete : Bool) :
    (deliver s data complete).2.dispatched = s.dispatched ∧
      ((deliver s data complete).2.state = s.state ∨
        (deliver s data complete).2.state = .awaitingResponse) := by
  have hpush : ∀ p : Parsed, (if data = [] then (.ok (),s) else pushBody s data) = p →
      p.2.dispatched = s.dispatched ∧ p.2.state = s.state := by
    rintro p rfl
    split_ifs
    · exact ⟨rfl,rfl⟩
    · exact pushBody_same s data
  unfold deliver
  rcases hpushed : (if data = [] then ((.ok (),s) : Parsed) else pushBody s data) with ⟨_ | _,t⟩
  · exact ⟨(hpush _ hpushed).1,.inl (hpush _ hpushed).2⟩
  split_ifs
  · exact ⟨(hpush _ hpushed).1,.inr rfl⟩
  · exact ⟨(hpush _ hpushed).1,.inl (hpush _ hpushed).2⟩

theorem decodeStreaming_same {s t : Server} {data : Bytes} {complete : Bool}
    (h : decodeStreaming s = .ok (data,complete,t)) :
    t.dispatched = s.dispatched ∧ t.state = s.state := by
  unfold decodeStreaming at h
  split_ifs at h with hfrm
  · injection h with h
    injection h with _ h
    injection h with _ h
    subst h
    exact ⟨rfl,rfl⟩
  · obtain ⟨⟨_,_⟩,-,h⟩ := StatusOr.bind_eq_ok.mp h
    injection h with h
    injection h with _ h
    injection h with _ h
    subst h
    exact ⟨rfl,rfl⟩

theorem parseStreamingBody_same (s : Server) : (parseStreamingBody s).2.dispatched = s.dispatched ∧
      ((parseStreamingBody s).2.state = s.state ∨
        (parseStreamingBody s).2.state = .awaitingResponse) := by
  unfold parseStreamingBody
  split_ifs with hemp
  · exact ⟨rfl,.inl rfl⟩
  cases hdec : decodeStreaming s with
  | error status => exact ⟨rfl,.inl rfl⟩
  | ok decoded =>
    obtain ⟨data,complete,t⟩ := decoded
    obtain ⟨hdisp,hst⟩ := decodeStreaming_same hdec
    have hdel := deliver_same t data complete
    rwa [hdisp,hst] at hdel

theorem BodyInvariant.closeOnLoop (h : BodyInvariant o s) (status : Status) :
    BodyInvariant o (closeOnLoop s status) := { h with }

theorem BodyInvariant.settle {p : Parsed} (h : BodyInvariant o p.2) :
    BodyInvariant o (settle p) := by
  unfold Http1.settle
  cases p.1 with
  | ok _ => exact h
  | error status => exact h.closeOnLoop status

theorem BodyInvariant.beginRequest (h : ∀ request ∈ s.dispatched, request.streamed = false →
      Limited o request) (hst : s.state ≠ .body) (head : RequestHead) :
    BodyInvariant o (beginRequest o s head).2 := by
  unfold Http1.beginRequest
  dsimp only
  split
  · next hws =>
    refine .dispatch h fun hstrm => ?_
    simp [Server.request,hws] at hstrm
  cases hplan : planRequestBody head.headers with
  | error status => exact ⟨h,fun hbody => absurd hbody hst⟩
  | ok plan =>
    dsimp only
    split_ifs with hnone hstr
    · apply BodyInvariant.dispatch
      · exact h
      intro hstrm
      refine limited_of_framing hplan ?_ ?_
      · rw [hnone]
        simp
      · rw [request_body_of_buffered hstrm]
        simp [Server.exchange]
    · obtain ⟨hdisp,hsame⟩ := parseStreamingBody_same
        { dispatchRequest o { s.exchange head with
          plan, remaining := plan.contentLength, state := .body, streaming := true,
          bodyStream := some { maxBufferedBytes := o.maxBufferedRequestBytes } } with
          state := .streamingBody }
      refine ⟨?_,fun hbody => ?_⟩
      · rw [hdisp]
        intro request hreq hstrm
        rcases List.mem_append.mp hreq with hmem | hmem
        · exact h request hmem hstrm
        · rw [List.mem_singleton] at hmem
          simp [hmem,Server.request] at hstrm
      · rcases hsame with hsame | hsame <;> rw [hsame] at hbody <;> simp at hbody
    · apply BodyInvariant.parseBody _ rfl
      refine ⟨h,fun _ => ⟨hplan,fun _ => ?_⟩⟩
      simp [Server.exchange]

theorem BodyInvariant.serverParse (h : BodyInvariant o s) : BodyInvariant o (serverParse o s).2 := by
  unfold Http1.serverParse
  cases hst : s.state with
  | head =>
    dsimp only
    cases findHeaderBlockEnd s.inbuf with
    | none =>
      dsimp only
      split_ifs <;> exact h
    | some headEnd =>
      dsimp only
      cases parseRequestHead (s.inbuf.take headEnd) with
      | error status => exact ⟨h.limited,fun hbody => by simp at hbody⟩
      | ok head =>
        apply BodyInvariant.beginRequest
        · exact h.limited
        · simp
  | body => exact h.parseBody hst
  | streamingBody =>
    obtain ⟨hdisp,hsame⟩ := parseStreamingBody_same s
    apply h.of_same hdisp
    rcases hsame with hsame | hsame <;> simp [hsame,hst]
  | raw =>
    obtain ⟨hdisp,hsame⟩ := parseRaw_same s
    exact h.of_same hdisp (by simp [hsame,hst])
  | awaitingResponse => exact h
  | done => exact h

theorem BodyInvariant.step (h : BodyInvariant o s) (e : Event) : BodyInvariant o (step o s e) := by
  unfold Http1.step
  split
  · exact h
  cases e with
  | segment data =>
    have hsegment : BodyInvariant o { s with inbuf := s.inbuf++data } := { h with }
    exact hsegment.serverParse.settle
  | acceptUpgrade =>
    dsimp only
    split_ifs
    · unfold Http1.acceptUpgrade
      split_ifs
      · obtain ⟨hdisp,hsame⟩ := parseRaw_same { s with state := .raw }
        exact h.of_same hdisp (by simp [hsame])
      · exact h
    · exact h
  | finish =>
    dsimp only
    split_ifs
    · unfold finishResponseAndAdvance
      split_ifs
      · exact h.closeOnLoop _
      · have hhead : BodyInvariant o { s with state := .head } := h.of_same rfl (by simp)
        exact hhead.serverParse.settle
    · exact h
  | read => exact { h with }
  | close status => exact h.closeOnLoop status

end Invariant

/-- Over every run of a connection, a buffered request is dispatched with a body above
the limit exactly when its `Content-Length` is above it: the length is compared only
while bytes are missing, and the decoded size of a chunked body every time. -/
theorem dispatched_body_limited_iff (events : List Event) (request : HttpRequest)
    (hmem : request ∈ (run o events).dispatched) (hbuffered : request.streamed = false) :
    request.body.length ≤ o.maxRequestBodySize ↔
      ¬ ∃ n, planRequestBody request.headers = .ok ⟨.contentLength,n⟩ ∧
        o.maxRequestBodySize < n := by
  have hst : BodyInvariant o {} := ⟨by simp,by simp⟩
  have hinv : BodyInvariant o (run o events) :=
    Runs.after_invariant (fun _ e h => h.step e) hst events
  exact hinv.limited request hmem hbuffered

def exampleLimits : Options := { maxRequestBodySize := 3 }

/-- A body of five bytes in the segment of its head passes a limit of three. -/
theorem oversized_body_dispatched :
    ∃ request ∈ (run exampleLimits [.segment (ofString
        "POST / HTTP/1.1\r\nContent-Length: 5\r\n\r\nhello")]).dispatched,
      request.streamed = false ∧ exampleLimits.maxRequestBodySize < request.body.length := by
  decide

def exampleChunked : HttpRequest where
  method := ofString "POST"
  scheme := ofString "http"
  authority := []
  path := ofString "/"
  headers := [(ofString "transfer-encoding",ofString "chunked")]
  body := ofString "hi"

theorem dispatched_body_limited_iff_chunked :
    exampleChunked.body.length ≤ exampleLimits.maxRequestBodySize := by
  have hmem : exampleChunked ∈ (run exampleLimits [.segment (ofString
      "POST / HTTP/1.1\r\nTransfer-Encoding: chunked\r\n\r\n2\r\nhi\r\n0\r\n\r\n")]).dispatched := by
    decide
  have hplan : planRequestBody exampleChunked.headers = .ok ⟨.chunked,0⟩ := by decide
  apply (dispatched_body_limited_iff exampleLimits _ exampleChunked hmem rfl).mpr
  rintro ⟨n,hn,-⟩
  rw [hplan] at hn
  simp at hn

end A11.Http1
