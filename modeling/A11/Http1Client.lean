import A11.ChunkedDecoding
import A11.Runs

/-! The client side of an HTTP/1.1 connection: one request, and the response to it
parsed from the inbound segments into a stream of body chunks. -/
namespace A11.Http1

open Ascii List ChunkedDecoder

/-! ### The stream of a response -/

structure HttpResponseHead where
  status : ℤ
  headers : HttpHeaders := []
  deriving DecidableEq

structure ResponseStream where
  maxBufferedBytes : ℕ
  bufferedBytes : ℕ := 0
  chunks : List Bytes := []
  pendingRead : Bool := false
  /-- The chunks that readers have been given. -/
  delivered : List Bytes := []
  headers : Option (StatusOr HttpResponseHead) := none
  trailers : HttpHeaders := []
  publishedTrailers : Option (StatusOr HttpHeaders) := none
  readPaused : Bool := false
  done : Option Status := none

namespace ResponseStream

def setHeaders (s : ResponseStream) (head : HttpResponseHead) : ResponseStream :=
  if s.headers.isNone ∧ s.done.isNone then { s with headers := some (.ok head) } else s

def setTrailers (s : ResponseStream) (fields : HttpHeaders) : ResponseStream :=
  if s.done.isNone then { s with trailers := fields } else s

/-- At the high-water mark the socket is paused; the bytes are kept all the same. -/
def push (s : ResponseStream) (data : Bytes) : StatusOr Unit × ResponseStream :=
  match s.done with
  | some status => (.error (if status.isOk then .cancelled "Response is done" else status),s)
  | none =>
    if s.pendingRead then
      (.ok (),{ s with pendingRead := false, delivered := s.delivered++[data] })
    else (.ok (),{ s with
      bufferedBytes := s.bufferedBytes+data.length
      chunks := s.chunks++[data]
      readPaused := s.readPaused || decide (s.maxBufferedBytes ≤ s.bufferedBytes+data.length) })

def finish (s : ResponseStream) (completion : Status) : ResponseStream :=
  if s.done.isSome then s
  else { s with
    done := some completion
    pendingRead := false
    headers := some (s.headers.getD (.error (if completion.isOk then
      .dataLoss "HTTP stream ended before response headers" else completion)))
    trailers := []
    publishedTrailers := some (if completion.isOk then .ok s.trailers else .error completion) }

/-- The application asks for the next chunk. -/
def read (s : ResponseStream) : ResponseStream :=
  if s.pendingRead then s
  else match s.chunks with
    | chunk::chunks => { s with
      chunks
      bufferedBytes := s.bufferedBytes-chunk.length
      delivered := s.delivered++[chunk]
      readPaused := s.readPaused &&
        !decide (s.bufferedBytes-chunk.length ≤ s.maxBufferedBytes/2) }
    | [] => if s.done.isSome then s else { s with pendingRead := true, readPaused := false }

/-- The body so far: what has been read and what is waiting to be read. -/
def received (s : ResponseStream) : Bytes := (s.delivered++s.chunks).flatten

end ResponseStream

/-! ### The parser -/

structure Client where
  inbuf : Bytes := []
  method : Bytes := []
  /-- The accept value of the handshake, when the request asks for an upgrade. -/
  accept : Option Bytes := none
  response : Option ResponseStream := none
  headParsed : Bool := false
  plan : BodyPlan := {}
  remaining : ℕ := 0
  decoder : ChunkedDecoder := {}
  closed : Option Status := none

namespace Client

def respond (c : Client) (f : ResponseStream → ResponseStream) : Client :=
  { c with response := c.response.map f }

def pushResponse (c : Client) (data : Bytes) : StatusOr Unit × Client :=
  match c.response with
  | none => (.ok (),c)
  | some s => ((s.push data).1,{ c with response := some (s.push data).2 })

/-- A connection carries a single request. -/
def submitRequest (c : Client) (maxBufferedBytes : ℕ) (method : Bytes) : StatusOr Unit × Client :=
  if c.closed.isSome then (.error (.unavailable "HTTP/1.1 connection is not connected"),c)
  else if c.response.isSome then
    (.error (.failedPrecondition ("HTTP/1.1 connections carry a single request; open another " ++
      "connection for concurrent requests")),c)
  else (.ok (),{ c with method := upper method, response := some { maxBufferedBytes } })

/-- The handshake, then frames. -/
def parseUpgrade (accept : Bytes) (c : Client) : StatusOr Unit × Client :=
  let frames (c : Client) : StatusOr Unit × Client :=
    if c.inbuf = [] then (.ok (),c)
    else
      let (pushed,d) := c.pushResponse c.inbuf
      (pushed,{ d with inbuf := [] })
  if c.headParsed then frames c
  else match findHeaderBlockEnd c.inbuf with
    | none => (.ok (),c)
    | some headEnd =>
      let rest := { c with inbuf := c.inbuf.drop headEnd }
      match parseResponseHead (c.inbuf.take headEnd) with
      | .error status => (.error status,rest.respond (·.finish status))
      | .ok head =>
        if head.status ≠ 101 then
          let status := .unavailable s!"HTTP/1.1 WebSocket upgrade returned {head.status}"
          (.error status,rest.respond (·.finish status))
        else if getHttpHeader head.headers "sec-websocket-accept" ≠ some accept then
          let status := .unauthenticated "HTTP/1.1 WebSocket Sec-WebSocket-Accept mismatch"
          (.error status,rest.respond (·.finish status))
        else frames ({ rest with headParsed := true }.respond (·.setHeaders { status := 200 }))

def parseSized (c : Client) : StatusOr Unit × Client :=
  let taken := min c.remaining c.inbuf.length
  match c.pushResponse (c.inbuf.take taken) with
  | (.error status,c) => (.error status,c)
  | (.ok (),c) =>
    let c := { c with inbuf := c.inbuf.drop taken, remaining := c.remaining-taken }
    (.ok (),if c.remaining = 0 then c.respond (·.finish .okStatus) else c)

def parseChunked (c : Client) : StatusOr Unit × Client :=
  match c.decoder.feed c.inbuf with
  | .error status => (.error status,c)
  | .ok (decoder,decoded) =>
    let c := { c with inbuf := [], decoder }
    let pushed : StatusOr Unit × Client := if decoded = [] then (.ok (),c) else c.pushResponse decoded
    match pushed with
    | (.error status,c) => (.error status,c)
    | (.ok (),c) =>
      (.ok (),if decoder.state = .complete then
        c.respond fun s => (s.setTrailers decoder.trailers).finish .okStatus else c)

/-- Takes what has arrived of the body. -/
def parseResponseBody (c : Client) : StatusOr Unit × Client :=
  if c.inbuf = [] then (.ok (),c)
  else match c.plan.framing with
    | .contentLength => c.parseSized
    | .chunked => c.parseChunked
    | .untilClose =>
      let (pushed,d) := c.pushResponse c.inbuf
      (pushed,{ d with inbuf := [] })
    | .none => (.ok (),c)

/-- The response that a parsed head begins. -/
def beginResponse (c : Client) (head : ResponseHead) : StatusOr Unit × Client :=
  let c := { c with headParsed := true }.respond (·.setHeaders ⟨head.status,head.headers⟩)
  match planResponseBody c.method head.status head.headers with
  | .error status => (.error status,c)
  | .ok plan =>
    let c := { c with plan, remaining := plan.contentLength, decoder := {} }
    if plan.framing = .none then (.ok (),c.respond (·.finish .okStatus))
    else c.parseResponseBody

/-- Informational responses are skipped; every head takes at least one byte. -/
def parseHeads : ℕ → Client → StatusOr Unit × Client
  | 0, c => (.ok (),c)
  | fuel+1, c => match findHeaderBlockEnd c.inbuf with
    | none => (.ok (),c)
    | some headEnd =>
      let rest := { c with inbuf := c.inbuf.drop headEnd }
      match parseResponseHead (c.inbuf.take headEnd) with
      | .error status => (.error status,rest.respond (·.finish status))
      | .ok head =>
        if 100 ≤ head.status ∧ head.status < 200 then parseHeads fuel rest
        else rest.beginResponse head

def clientParse (c : Client) : StatusOr Unit × Client :=
  if c.response.isNone then (.ok (),c)
  else match c.accept with
    | some accept => c.parseUpgrade accept
    | none => if c.headParsed then c.parseResponseBody else c.parseHeads (c.inbuf.length+1)

/-! ### The events of a connection -/

/-- A body that the end of the connection delimits ends cleanly with it. -/
def closeOnLoop (c : Client) (status : Status) : Client :=
  let status := if status.isOk then .cancelled "HTTP connection closed" else status
  let cleanEof := c.headParsed ∧ c.plan.framing = .untilClose
  { c.respond (·.finish (if cleanEof then .okStatus else status)) with closed := some status }

inductive Event
  | segment (data : Bytes)
  | read
  | close (status : Status)

def settle (p : StatusOr Unit × Client) : Client :=
  match p.1 with
  | .ok () => p.2
  | .error status => p.2.closeOnLoop status

def step (c : Client) (e : Event) : Client :=
  match e with
  | .segment data =>
    if c.closed.isSome then c else settle (clientParse { c with inbuf := c.inbuf++data })
  | .read => c.respond ResponseStream.read
  | .close status => if c.closed.isSome then c else c.closeOnLoop status

/-- A connection on which the request has been submitted and these events followed. -/
def run (maxBufferedBytes : ℕ) (method : Bytes) (events : List Event) : Client :=
  Runs.after step (submitRequest {} maxBufferedBytes method).2 events

end Client

/-! ### Responses on the wire -/

structure WireResponse where
  /-- Informational responses in front. -/
  interim : List ResponseText
  head : ResponseText
  body : BodyText
  deriving DecidableEq

namespace WireResponse

def heads (interim : List ResponseText) : Bytes := interim.flatMap ResponseText.head

def text (r : WireResponse) : Bytes := heads r.interim++(r.head.head++r.body.text)

/-- A well-formed response to such a request that is framed by its length or chunked. -/
structure Ok (method : Bytes) (r : WireResponse) : Prop where
  interim : ∀ h ∈ r.interim, h.Ok ∧ h.status < 200
  head : r.head.Ok
  final : 200 ≤ r.head.status
  hasBody : upper method ≠ ofString "HEAD" ∧ r.head.status ≠ 204 ∧ r.head.status ≠ 304
  framed : r.body ≠ .none
  declared : r.body.Declared r.head.decoded.headers

def responseHead (r : WireResponse) : HttpResponseHead :=
  ⟨r.head.decoded.status,r.head.decoded.headers⟩

def trailers (r : WireResponse) : HttpHeaders :=
  match r.body with
  | .chunked b => b.trailers.map Field.decoded
  | _ => []

end WireResponse

/-- The stream has ended with the whole response in it. -/
structure ResponseStream.Holds (s : ResponseStream) (r : WireResponse) : Prop where
  done : s.done = some .okStatus
  body : s.received = r.body.payload
  headers : s.headers = some (.ok r.responseHead)
  trailers : s.publishedTrailers = some (.ok r.trailers)

/-- The stream is open and holds these bytes. -/
structure ResponseStream.Open (headers : Option (StatusOr HttpResponseHead)) (out : Bytes)
    (s : ResponseStream) : Prop where
  done : s.done = none
  body : s.received = out
  headers : s.headers = headers
  trailers : s.trailers = []
  /-- A reader waits only when there is nothing to read. -/
  reader : s.pendingRead = true → s.chunks = []

namespace ResponseStream

variable {headers : Option (StatusOr HttpResponseHead)} {out : Bytes} {s : ResponseStream}
  {r : WireResponse}

theorem Open.push (h : s.Open headers out) (data : Bytes) :
    ∃ t, s.push data = (.ok (),t) ∧ t.Open headers (out++data) := by
  have hbody : (s.delivered++s.chunks).flatten = out := h.body
  unfold ResponseStream.push
  rw [h.done]
  by_cases hpend : s.pendingRead = true
  · have hcks := h.reader hpend
    rw [if_pos hpend]
    refine ⟨_,rfl,rfl,?_,h.headers,h.trailers,by simp⟩
    simp only [received,hcks,append_nil] at hbody ⊢
    simp [hbody]
  · rw [if_neg hpend]
    refine ⟨_,rfl,rfl,?_,h.headers,h.trailers,fun hreads => absurd hreads hpend⟩
    simp only [received]
    simp [← hbody]

theorem Open.setHeaders (h : s.Open none out) (head : HttpResponseHead) :
    (s.setHeaders head).Open (some (.ok head)) out := by
  rw [ResponseStream.setHeaders,if_pos (by simp [h.headers,h.done])]
  exact { h with headers := rfl }

theorem Open.finish (h : s.Open (some (.ok r.responseHead)) r.body.payload)
    (htrail : r.trailers = []) : (s.finish .okStatus).Holds r := by
  rw [ResponseStream.finish,if_neg (by simp [h.done])]
  exact ⟨rfl,h.body,by simp [h.headers],by rw [h.trailers,htrail]; rfl⟩

theorem Open.finish_trailers (h : s.Open (some (.ok r.responseHead)) r.body.payload) :
    ((s.setTrailers r.trailers).finish .okStatus).Holds r := by
  rw [ResponseStream.setTrailers,if_pos (by simp [h.done]),ResponseStream.finish,
    if_neg (by simp [h.done])]
  exact ⟨rfl,h.body,by simp [h.headers],rfl⟩

theorem read_cases (s : ResponseStream) :
    s.read = s ∨
    (∃ chunk chunks, s.pendingRead = false ∧ s.chunks = chunk::chunks ∧ s.read = { s with
      chunks
      bufferedBytes := s.bufferedBytes-chunk.length
      delivered := s.delivered++[chunk]
      readPaused := s.readPaused &&
        !decide (s.bufferedBytes-chunk.length ≤ s.maxBufferedBytes/2) }) ∨
    (s.chunks = [] ∧ s.read = { s with pendingRead := true, readPaused := false }) := by
  unfold read
  by_cases hpend : s.pendingRead = true
  · exact .inl (if_pos hpend)
  rw [if_neg hpend]
  cases hcks : s.chunks with
  | nil =>
    split_ifs
    · exact .inl rfl
    · exact .inr (.inr ⟨rfl,by simp⟩)
  | cons chunk chunks => exact .inr (.inl ⟨chunk,chunks,by simpa using hpend,rfl,rfl⟩)

theorem received_read (s : ResponseStream) : s.read.received = s.received := by
  rcases s.read_cases with hread | ⟨_,_,-,hcks,hread⟩ | ⟨-,hread⟩
  · rw [hread]
  · simp [hread,received,hcks]
  · rw [hread]
    rfl

theorem Open.read (h : s.Open headers out) : s.read.Open headers out := by
  have hbody := s.received_read.trans h.body
  rcases s.read_cases with hread | ⟨_,_,hpend,hcks,hread⟩ | ⟨hcks,hread⟩ <;>
    rw [hread] at hbody ⊢
  · exact h
  · exact { h with body := hbody, reader := by simp [hpend] }
  · exact { h with body := hbody, reader := fun _ => hcks }

theorem Holds.read (h : s.Holds r) : s.read.Holds r := by
  have hbody := s.received_read.trans h.body
  rcases s.read_cases with hread | ⟨_,_,-,-,hread⟩ | ⟨-,hread⟩ <;>
    rw [hread] at hbody ⊢ <;> exact { h with body := hbody }

end ResponseStream

theorem ResponseText.head_ne_nil (h : ResponseText) : h.head ≠ [] := by
  simp [ResponseText.head,block,crlf]

/-! ### Following the response -/

namespace Client

/-- The client has read the heads and these bytes of the body. -/
structure Receiving (r : WireResponse) (got : Bytes) (c : Client) : Prop where
  closed : c.closed = none
  accept : c.accept = none
  headParsed : c.headParsed = true
  plan : c.plan = r.body.plan
  stream : ∃ s, c.response = some s ∧ ∃ out, s.Open (some (.ok r.responseHead)) out ∧
    match r.body with
    | .none => False
    | .sized body => out = got ∧ c.remaining = body.length-got.length
    | .chunked _ => ChunkedDecoder.consume {} got = .ok (c.decoder,out,[])

/-- The stream has ended with the whole response, on a connection that stays open. -/
structure Completed (r : WireResponse) (c : Client) : Prop where
  closed : c.closed = none
  stream : ∃ s, c.response = some s ∧ s.Holds r

structure Ended (r : WireResponse) (c : Client) : Prop extends Completed r c where
  accept : c.accept = none
  headParsed : c.headParsed = true

section Following

variable {r : WireResponse} {method got more future : Bytes} {c : Client}

theorem Receiving.parse_sized {body : Bytes} (h : Receiving r got c) (hbody : r.body = .sized body)
    (htext : got++c.inbuf++more = body) : ∃ t, c.parseSized = (.ok (),t) ∧ t.inbuf = [] ∧
      (more ≠ [] → Receiving r (got++c.inbuf) t) ∧ (more = [] → Ended r t) := by
  obtain ⟨s,hresp,out,hopen,hprog⟩ := h.stream
  rw [hbody] at hprog
  obtain ⟨rfl,_⟩ := hprog
  have hlen : out.length+c.inbuf.length+more.length = body.length := by
    simpa [Nat.add_assoc] using congrArg List.length htext
  have htak : min c.remaining c.inbuf.length = c.inbuf.length := by omega
  obtain ⟨t,hpush,hopen'⟩ := hopen.push c.inbuf
  unfold parseSized
  dsimp only
  rw [htak,take_length,pushResponse,hresp]
  simp only [hpush,drop_length]
  refine ⟨_,rfl,?_,?_,?_⟩
  · split_ifs <;> rfl
  · intro hmore
    have hpos : 0 < more.length := length_pos_iff.mpr hmore
    rw [if_neg (by omega)]
    refine ⟨h.closed,h.accept,h.headParsed,h.plan,t,rfl,_,hopen',?_⟩
    rw [hbody]
    refine ⟨rfl,?_⟩
    simp only [length_append]
    omega
  · rintro rfl
    rw [length_nil] at hlen
    rw [if_pos (by omega)]
    refine ⟨⟨h.closed,_,rfl,?_⟩,h.accept,h.headParsed⟩
    have hpay : out++c.inbuf = r.body.payload := by
      rw [hbody,← htext]
      simp [BodyText.payload]
    rw [hpay] at hopen'
    exact hopen'.finish (by simp [WireResponse.trailers,hbody])

theorem Receiving.parse_chunked {b : ChunkedText} (h : Receiving r got c)
    (hbody : r.body = .chunked b) (hb : b.Ok) (htext : got++c.inbuf++more = b.text) :
    ∃ t, c.parseChunked = (.ok (),t) ∧ t.inbuf = [] ∧
      (more ≠ [] → Receiving r (got++c.inbuf) t) ∧ (more = [] → Ended r t) := by
  obtain ⟨s,hresp,out,hopen,hprog⟩ := h.stream
  rw [hbody] at hprog
  obtain ⟨d,all,hall,hmid,hend⟩ : ∃ d all, consume {} (got++c.inbuf) =
      .ok (d,all,[]) ∧ (more ≠ [] → d.state ≠ .complete) ∧
      (more = [] → d = { state := .complete, trailers := r.trailers } ∧ all = b.payload) := by
    by_cases hmore : more = []
    · refine ⟨_,_,?_,fun hne => absurd hmore hne,fun _ => ⟨rfl,rfl⟩⟩
      have hcons := consume_text hb []
      rw [hmore] at htext
      rw [← htext] at hcons
      simpa [WireResponse.trailers,hbody] using hcons
    · obtain ⟨d,all,hcons,hst,-⟩ := consume_part hb htext hmore
      exact ⟨d,all,hcons,fun _ => hst,fun hnil => absurd hnil hmore⟩
  obtain ⟨decoded,hfeed,rfl⟩ := feed_of_consume hprog hall
  obtain ⟨t,hpushed,hopen'⟩ : ∃ t,
      (if decoded = [] then ((.ok (),{ c with inbuf := [], decoder := d }) : StatusOr Unit × Client)
        else pushResponse { c with inbuf := [], decoder := d } decoded) =
          (.ok (),{ c with inbuf := [], decoder := d, response := some t }) ∧
        t.Open (some (.ok r.responseHead)) (out++decoded) := by
    by_cases hnil : decoded = []
    · rw [hnil,append_nil,hresp]
      exact ⟨s,rfl,hopen⟩
    obtain ⟨t,hpush,hopen'⟩ := hopen.push decoded
    rw [if_neg hnil,pushResponse]
    simp only [hresp,hpush]
    exact ⟨t,rfl,hopen'⟩
  unfold parseChunked
  rw [hfeed]
  dsimp only
  rw [hpushed]
  refine ⟨_,rfl,?_,?_,?_⟩
  · split_ifs <;> rfl
  · intro hmore
    rw [if_neg (hmid hmore)]
    refine ⟨h.closed,h.accept,h.headParsed,h.plan,t,rfl,_,hopen',?_⟩
    rw [hbody]
    exact hall
  · intro hmore
    obtain ⟨rfl,hpay⟩ := hend hmore
    refine ⟨⟨h.closed,_,rfl,?_⟩,h.accept,h.headParsed⟩
    have hbody' : r.body.payload = b.payload := by rw [hbody]; rfl
    rw [hpay,← hbody'] at hopen'
    exact hopen'.finish_trailers

/-- Where the client stands when these bytes are still to arrive. -/
inductive Phase (method : Bytes) (r : WireResponse) (future : Bytes) (c : Client) : Prop
  | head (interim : List ResponseText) (closed : c.closed = none) (accept : c.accept = none)
      (headParsed : c.headParsed = false) (sent : c.method = upper method)
      (stream : ∃ s, c.response = some s ∧ s.Open none [])
      (skipped : ∀ h ∈ interim, h.Ok ∧ h.status < 200)
      (rest : c.inbuf++future = WireResponse.heads interim++(r.head.head++r.body.text))
      (short : c.inbuf.length < (interim.headD r.head).head.length)
  | body (got : Bytes) (receiving : Receiving r got c) (inbuf : c.inbuf = [])
      (text : got++future = r.body.text) (open_ : future ≠ [] ∨ r.body = .sized [])
  | done (ended : Ended r c) (inbuf : c.inbuf = []) (rest : future = [])
      (body : r.body ≠ .sized [])

/-- The body goes on with what is buffered. Nothing happens while that is nothing, also
when nothing is missing. -/
theorem Receiving.follow (h : Receiving r got c) (hr : r.Ok method)
    (htext : got++(c.inbuf++future) = r.body.text)
    (hopen : c.inbuf++future ≠ [] ∨ r.body = .sized []) :
    Phase method r future (settle c.parseResponseBody) := by
  unfold parseResponseBody
  split_ifs with hbuf
  · rw [hbuf] at htext hopen
    exact .body got h hbuf htext hopen
  have hsized : r.body ≠ .sized [] := by
    intro hbody
    rw [hbody] at htext
    simp [BodyText.text,hbuf] at htext
  obtain ⟨t,hpar,htin,hpart,hend⟩ : ∃ t, (match c.plan.framing with
      | .contentLength => c.parseSized
      | .chunked => c.parseChunked
      | .untilClose =>
        let (pushed,d) := c.pushResponse c.inbuf
        (pushed,{ d with inbuf := [] })
      | .none => (.ok (),c)) = (.ok (),t) ∧ t.inbuf = [] ∧
      (future ≠ [] → Receiving r (got++c.inbuf) t) ∧ (future = [] → Ended r t) := by
    rw [← append_assoc] at htext
    rw [h.plan]
    have hdecl := hr.declared
    cases hbody : r.body with
    | none => exact absurd hbody hr.framed
    | sized body =>
      rw [hbody] at htext
      exact h.parse_sized hbody htext
    | chunked b =>
      rw [hbody] at htext hdecl
      exact h.parse_chunked hbody hdecl.1 htext
  rw [hpar]
  by_cases hfut : future = []
  · exact .done (hend hfut) htin hfut hsized
  · exact .body _ (hpart hfut) htin (by rw [append_assoc,htext]) (.inl hfut)

theorem planResponseBody_declared (hr : r.Ok method) :
    planResponseBody (upper method) r.head.decoded.status r.head.decoded.headers =
      .ok r.body.plan := by
  obtain ⟨hmeth,_,_⟩ := hr.hasBody
  have hfin := hr.final
  rw [planResponseBody,if_neg,planBody_declared true hr.framed hr.declared]
  rw [upper_upper]
  rintro (hhead | hstat)
  · exact hmeth hhead
  · simp only [ResponseText.decoded] at hstat
    omega

theorem heads_cons (h : ResponseText) (interim : List ResponseText) :
    WireResponse.heads (h::interim) = h.head++WireResponse.heads interim := by
  simp [WireResponse.heads]

section

variable (hr : r.Ok method) (hclosed : c.closed = none) (haccept : c.accept = none)

include hr hclosed haccept

/-- A complete final head begins the body. -/
theorem beginResponse_follow (hsent : c.method = upper method)
    (hstr : ∃ s, c.response = some s ∧ s.Open none []) (hrest : c.inbuf++future = r.body.text) :
    Phase method r future (settle (c.beginResponse r.head.decoded)) := by
  obtain ⟨s,hresp,hopen⟩ := hstr
  have hfrm : r.body.plan.framing ≠ .none := by
    cases hb : r.body with
    | none => exact absurd hb hr.framed
    | sized body | chunked body => simp [BodyText.plan]
  unfold beginResponse
  simp only [respond,hresp,hsent,planResponseBody_declared hr,if_neg hfrm]
  have hrecv : Receiving r [] { c with
      headParsed := true
      method := upper method
      response := some (s.setHeaders r.responseHead)
      plan := r.body.plan
      remaining := r.body.plan.contentLength
      decoder := {} } := by
    refine ⟨hclosed,haccept,rfl,rfl,_,rfl,[],hopen.setHeaders _,?_⟩
    cases hb : r.body with
    | none => exact absurd hb hr.framed
    | sized body => exact ⟨rfl,rfl⟩
    | chunked body => rfl
  apply hrecv.follow hr hrest
  rw [hrest]
  cases hb : r.body with
  | none => exact absurd hb hr.framed
  | sized body =>
    cases body with
    | nil => exact .inr rfl
    | cons b body => simp [BodyText.text]
  | chunked body => simp [BodyText.text,ChunkedText.text]

/-- The heads that are complete are taken, one after another. -/
theorem parseHeads_follow {interim : List ResponseText} {fuel : ℕ} (hpar : c.headParsed = false)
    (hsent : c.method = upper method) (hstr : ∃ s, c.response = some s ∧ s.Open none [])
    (hskip : ∀ h ∈ interim, h.Ok ∧ h.status < 200)
    (hrest : c.inbuf++future = WireResponse.heads interim++(r.head.head++r.body.text))
    (hfuel : c.inbuf.length < fuel) : Phase method r future (settle (parseHeads fuel c)) := by
  induction interim generalizing c fuel with
  | nil =>
    obtain ⟨fuel,rfl⟩ : ∃ n, fuel = n+1 := ⟨fuel-1,by omega⟩
    rcases @head_arrives _ r.head.head _ _ _ hrest rfl hr.head.lineOk with
      ⟨t,hbuf,hfut⟩ | ⟨hsh,hnone⟩
    · have hfin : ¬ (100 ≤ r.head.decoded.status ∧ r.head.decoded.status < 200) := by
        have := hr.final
        simp only [ResponseText.decoded]
        omega
      rw [parseHeads]
      simp only [hbuf,hr.head.findHeaderBlockEnd t,take_left,drop_left,
        hr.head.parseResponseHead,if_neg hfin]
      exact beginResponse_follow hr hclosed haccept hsent hstr hfut
    · rw [parseHeads,hnone]
      exact .head [] hclosed haccept hpar hsent hstr hskip hrest hsh
  | cons h interim ih =>
    obtain ⟨fuel,rfl⟩ : ∃ n, fuel = n+1 := ⟨fuel-1,by omega⟩
    obtain ⟨hok,_⟩ := hskip h (by simp)
    have hrest' := hrest
    rw [heads_cons,append_assoc] at hrest'
    rcases head_arrives hrest' rfl hok.lineOk with ⟨t,hbuf,hfut⟩ | ⟨hsh,hnone⟩
    · have hinterim : 100 ≤ h.decoded.status ∧ h.decoded.status < 200 := by
        have := hok.status
        simp only [ResponseText.decoded]
        omega
      have hpos : 0 < h.head.length := length_pos_iff.mpr h.head_ne_nil
      rw [parseHeads]
      simp only [hbuf,hok.findHeaderBlockEnd t,take_left,drop_left,
        hok.parseResponseHead,if_pos hinterim]
      rw [hbuf,length_append] at hfuel
      exact ih (c := { c with inbuf := t }) hclosed haccept hpar hsent hstr
        (fun q hq => hskip q (by simp [hq])) hfut (by change t.length < fuel; omega)
    · rw [parseHeads,hnone]
      exact .head (h::interim) hclosed haccept hpar hsent hstr hskip hrest hsh

end

theorem Phase.segment {data : Bytes} (hr : r.Ok method) (h : Phase method r (data++future) c) :
    Phase method r future (step c (.segment data)) := by
  cases h with
  | head interim hclosed haccept hpar hsent hstr hskip hrest hsh =>
    obtain ⟨s,hresp,hopen⟩ := hstr
    have hstep : step c (.segment data) = settle (parseHeads ((c.inbuf++data).length+1)
        { c with inbuf := c.inbuf++data }) := by
      simp [step,clientParse,hclosed,hresp,haccept,hpar]
    rw [hstep]
    refine parseHeads_follow (c := { c with inbuf := c.inbuf++data }) hr hclosed haccept hpar
      hsent ⟨s,hresp,hopen⟩ hskip ?_ (Nat.lt_succ_self _)
    rw [← hrest,append_assoc]
  | body got hrecv hbuf htext hopen =>
    obtain ⟨s,hresp,hstr⟩ := hrecv.stream
    have hstep : step c (.segment data) = settle (parseResponseBody { c with inbuf := data }) := by
      simp [step,clientParse,hrecv.closed,hresp,hrecv.accept,hrecv.headParsed,hbuf]
    rw [hstep]
    have hnext : Receiving r got { c with inbuf := data } := { hrecv with }
    exact hnext.follow hr htext hopen
  | done hend hbuf hrest hbody =>
    obtain ⟨rfl,rfl⟩ := append_eq_nil_iff.mp hrest
    obtain ⟨s,hresp,-⟩ := hend.stream
    have hstep : step c (.segment []) = c := by
      rw [step,if_neg (by simp [hend.closed]),append_nil]
      change settle (clientParse c) = c
      rw [clientParse,if_neg (by simp [hresp]),hend.accept]
      rw [if_pos hend.headParsed,parseResponseBody,if_pos hbuf]
      rfl
    rw [hstep]
    exact .done hend hbuf rfl hbody

theorem Phase.read (h : Phase method r future c) : Phase method r future (step c .read) := by
  cases h with
  | head interim hclosed haccept hpar hsent hstr hskip hrest hsh =>
    obtain ⟨s,hresp,hopen⟩ := hstr
    exact .head interim hclosed haccept hpar hsent
      ⟨s.read,by simp [step,respond,hresp],hopen.read⟩ hskip hrest hsh
  | body got hrecv hbuf htext hopen =>
    obtain ⟨s,hresp,out,hstr,hprog⟩ := hrecv.stream
    refine .body got ?_ hbuf htext hopen
    exact ⟨hrecv.closed,hrecv.accept,hrecv.headParsed,hrecv.plan,s.read,
      by simp [step,respond,hresp],out,hstr.read,hprog⟩
  | done hend hbuf hrest hbody =>
    obtain ⟨s,hresp,hholds⟩ := hend.stream
    refine .done ⟨⟨hend.closed,s.read,?_,hholds.read⟩,hend.accept,hend.headParsed⟩
      hbuf hrest hbody
    simp [step,respond,hresp]

def Event.data : Event → Bytes
  | .segment data => data
  | _ => []

/-- Bytes arrive, or the application reads. -/
def Event.Expected : Event → Prop
  | .segment _ => True
  | .read => True
  | .close _ => False

theorem Phase.run {events : List Event} (hr : r.Ok method) (hevs : ∀ e ∈ events, e.Expected)
    (h : Phase method r (events.flatMap Event.data) c) :
    Phase method r [] (Runs.after step c events) := by
  induction events generalizing c with
  | nil => exact h
  | cons e events ih =>
    have hrest : ∀ e ∈ events, e.Expected := fun e he => hevs e (by simp [he])
    have hexp := hevs e (by simp)
    cases e with
    | segment data => exact ih hrest (Phase.segment hr h)
    | read => exact ih hrest (Phase.read h)
    | close status => exact hexp.elim

/-- With every byte read, the stream is complete unless there was no body to read. -/
theorem Phase.completed_iff (h : Phase method r [] c) : Completed r c ↔ r.body ≠ .sized [] := by
  cases h with
  | head interim hclosed haccept hpar hsent hstr hskip hrest hsh =>
    rw [append_nil] at hrest
    rw [hrest] at hsh
    cases interim with
    | nil => simp [WireResponse.heads] at hsh
    | cons h interim =>
      rw [heads_cons] at hsh
      simp at hsh
  | body got hrecv hbuf htext hopen =>
    have hbody : r.body = .sized [] := by simpa using hopen
    refine ⟨fun hcomp => ?_,fun hne => absurd hbody hne⟩
    obtain ⟨s,hresp,_,hstr,-⟩ := hrecv.stream
    obtain ⟨t,hresp',hholds⟩ := hcomp.stream
    obtain rfl := Option.some.inj (hresp.symm.trans hresp')
    exact absurd hholds.done (by simp [hstr.done])
  | done hend _ _ hbody => exact ⟨fun _ => hbody,fun _ => hend.toCompleted⟩

/-- The bytes of the response, and no others, have arrived. -/
structure Arrived (r : WireResponse) (events : List Event) : Prop where
  expected : ∀ e ∈ events, e.Expected
  inbound : events.flatMap Event.data = r.text

/-- A response framed by its length or chunked is complete with its last byte, however
its bytes are cut into segments, exactly when it is not one of length zero. -/
theorem response_completed_iff (maxBufferedBytes : ℕ) (method : Bytes) (r : WireResponse)
    (hr : r.Ok method) (events : List Event) (harrived : Arrived r events) :
    Completed r (run maxBufferedBytes method events) ↔ r.body ≠ .sized [] := by
  have hst : Phase method r (events.flatMap Event.data)
      (submitRequest {} maxBufferedBytes method).2 := by
    refine .head r.interim rfl rfl rfl rfl ⟨_,rfl,rfl,rfl,rfl,rfl,by simp⟩ hr.interim ?_ ?_
    · rw [harrived.inbound]
      rfl
    · exact length_pos_iff.mpr (ResponseText.head_ne_nil _)
  exact (hst.run hr harrived.expected).completed_iff

end Following

def exampleEmpty : WireResponse where
  interim := []
  head := {
    version := .v11
    code := ofString "200"
    status := 200
    reason := some (ofString "OK")
    fields := [⟨ofString "Content-Length",[32],ofString "0",[]⟩] }
  body := .sized []

theorem exampleEmpty_ok : exampleEmpty.Ok (ofString "GET") where
  interim := by simp [exampleEmpty]
  head := by
    refine ⟨by decide,by decide,by decide,?_,?_⟩
    · decide
    · simp only [exampleEmpty,mem_singleton,forall_eq]
      exact ⟨by decide,by decide +kernel,by simp [Blank],by simp [Blank],
        by decide,⟨by decide +kernel,by decide +kernel⟩⟩
  final := by decide
  hasBody := by decide
  framed := by simp [exampleEmpty]
  declared := ⟨by decide,ofString "0",by decide,by decide,by decide,by decide⟩

/-- A response with `Content-Length: 0` stays open after its last byte. -/
theorem empty_response_stays_open :
    exampleEmpty.Ok (ofString "GET") ∧ Arrived exampleEmpty [.segment exampleEmpty.text] ∧
      ¬ Completed exampleEmpty (run 1024 (ofString "GET") [.segment exampleEmpty.text]) := by
  refine ⟨exampleEmpty_ok,⟨by simp [Event.Expected],by simp [Event.data]⟩,?_⟩
  rintro ⟨-,s,hresponse,hholds⟩
  have hopen : (run 1024 (ofString "GET") [.segment exampleEmpty.text]).response.bind
      ResponseStream.done = none := by decide
  rw [hresponse,Option.bind_some,hholds.done] at hopen
  simp at hopen

def exampleHello : WireResponse where
  interim := [{
    version := .v11
    code := ofString "100"
    status := 100
    reason := some (ofString "Continue")
    fields := [] }]
  head := {
    version := .v11
    code := ofString "200"
    status := 200
    reason := none
    fields := [⟨ofString "Content-Length",[],ofString "5",[]⟩] }
  body := .sized (ofString "hello")

theorem exampleHello_ok : exampleHello.Ok (ofString "GET") where
  interim := by
    simp only [exampleHello,mem_singleton,forall_eq]
    refine ⟨⟨by decide,by decide,by decide,?_,by simp⟩,by decide⟩
    decide
  head := by
    refine ⟨by decide,by decide,by decide,by simp [exampleHello],?_⟩
    simp only [exampleHello,mem_singleton,forall_eq]
    exact ⟨by decide,by decide +kernel,by simp [Blank],by simp [Blank],
      by decide,⟨by decide +kernel,by decide +kernel⟩⟩
  final := by decide
  hasBody := by decide
  framed := by simp [exampleHello]
  declared := ⟨by decide,ofString "5",by decide,by decide,by decide,by decide⟩

theorem response_completed_iff_hello :
    Completed exampleHello (run 1024 (ofString "GET")
      [.segment (exampleHello.text.take 40),.read,.segment (exampleHello.text.drop 40)]) := by
  apply (response_completed_iff 1024 (ofString "GET") exampleHello exampleHello_ok _ ?_).mpr
  · decide
  · refine ⟨by simp [Event.Expected],?_⟩
    exact take_append_drop 40 _

end Client

end A11.Http1
