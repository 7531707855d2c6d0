import A11.ChunkedDecoding
import A11.Http1Server

/-! Pipelined requests on one connection.
The parser is followed along every way in which the bytes of a list of requests can
arrive, with the responses finished in between at any time. -/
namespace A11.Http1

open Ascii List Server ChunkedDecoder

/-! ### Requests on the wire -/

structure WireRequest where
  head : RequestText
  body : BodyText
  deriving DecidableEq

namespace WireRequest

def text (r : WireRequest) : Bytes := r.head.head++r.body.text

/-- A well-formed keep-alive request within the limits whose body is not streamed. -/
structure Ok (o : Options) (r : WireRequest) : Prop where
  head : r.head.Ok
  declared : r.body.Declared r.head.decoded.headers
  keepAlive : wantsClose r.head.decoded.version r.head.decoded.headers = false
  noUpgrade : asksUpgrade r.head.decoded.headers = false
  buffered : wantsStream o r.head.decoded = false
  head_le : r.head.head.length ≤ o.maxBufferedRequestBytes
  body_le : r.body.payload.length ≤ o.maxRequestBodySize

/-- The request as the handler should see it. -/
def request (o : Options) (r : WireRequest) : HttpRequest where
  method := upper r.head.method
  scheme := if o.secure then ofString "https" else ofString "http"
  authority := (getHttpHeader r.head.decoded.headers "host").getD []
  path := r.head.target
  headers := r.head.decoded.headers
  body := r.body.payload

end WireRequest

/-! ### Following the parser -/

theorem planRequestBody_declared {headers : HttpHeaders} {body : BodyText}
    (h : body.Declared headers) : planRequestBody headers = .ok body.plan := by
  cases body with
  | none =>
    obtain ⟨hencoding,hlen⟩ := h
    rw [planRequestBody,planBody,headerContainsToken_none hencoding,hlen]
    rfl
  | sized body | chunked body => exact planBody_declared false (by simp) h

section Following

variable {o : Options} {r : WireRequest} {s : Server}

/-- The exchange of a request, up to its body. -/
structure Begun (o : Options) (r : WireRequest) (s : Server) : Prop where
  closed : s.closed = none
  head : s.head = r.head.decoded
  keepAlive : s.keepAlive = true
  wsUpgrade : s.wsUpgrade = false
  streaming : s.streaming = false
  plan : s.plan = r.body.plan

/-- The response of a request is awaited, with these requests dispatched and these
bytes buffered. -/
structure Awaiting (dispatched : List HttpRequest) (inbuf : Bytes) (s : Server) : Prop where
  closed : s.closed = none
  state : s.state = .awaitingResponse
  keepAlive : s.keepAlive = true
  wsUpgrade : s.wsUpgrade = false
  streaming : s.streaming = false
  dispatched : s.dispatched = dispatched
  inbuf : s.inbuf = inbuf

theorem Begun.request (h : Begun o r s) (hbody : s.body = r.body.payload) :
    s.request o = r.request o := by
  simp [Server.request,WireRequest.request,h.head,h.wsUpgrade,h.streaming,hbody,RequestText.decoded]

theorem Begun.dispatch (h : Begun o r s) (hbody : s.body = r.body.payload) :
    Awaiting (s.dispatched++[r.request o]) s.inbuf (dispatchRequest o s) :=
  { h with state := rfl, dispatched := by rw [← h.request hbody]; rfl, inbuf := rfl }

/-- A body of which some bytes have been taken. -/
structure Assembling (o : Options) (r : WireRequest) (got : Bytes) (s : Server) : Prop where
  begun : Begun o r s
  state : s.state = .body
  progress : match r.body with
    | .none => False
    | .sized body => s.body = got ∧ s.remaining = body.length-got.length
    | .chunked _ => ChunkedDecoder.consume {} got = .ok (s.decoder,s.body,[])

/-- Bytes before the end of a body are taken into it. -/
theorem Assembling.parse_part {got more : Bytes} (h : Assembling o r got s) (hr : r.Ok o)
    (htext : got++s.inbuf++more = r.body.text) (hmore : more ≠ []) :
    ∃ t, parseBody o s = (.ok (),t) ∧ Assembling o r (got++s.inbuf) t ∧ t.inbuf = [] ∧
      t.dispatched = s.dispatched := by
  obtain ⟨hbegun,hst,hprog⟩ := h
  have hlim := hr.body_le
  have hplan := hbegun.plan
  have hdecl := hr.declared
  have hpos : 0 < more.length := length_pos_iff.mpr hmore
  unfold parseBody
  cases hbody : r.body with
  | none => simp [hbody] at hprog
  | sized body =>
    rw [hbody] at hprog hlim hplan htext
    obtain ⟨hgot,_⟩ := hprog
    have hlen : got.length+s.inbuf.length+more.length = body.length := by
      simpa [BodyText.text,Nat.add_assoc] using congrArg length htext
    have htak : min s.remaining s.inbuf.length = s.inbuf.length := by omega
    simp only [BodyText.payload] at hlim
    rw [if_pos (by rw [hplan]; rfl)]
    dsimp only
    rw [htak,if_pos (by omega),take_length,drop_length,hgot,if_neg]
    · refine ⟨_,rfl,⟨{ hbegun with },hst,?_⟩,rfl,rfl⟩
      rw [hbody]
      refine ⟨rfl,?_⟩
      simp only [length_append]
      omega
    · simp only [length_append]
      omega
  | chunked b =>
    rw [hbody] at hprog hlim hplan htext hdecl
    obtain ⟨d,out,hcons,hopen,_,-,hpay⟩ := consume_part hdecl.1 htext hmore
    obtain ⟨_,hfeed,hout⟩ := feed_of_consume hprog hcons
    rw [if_neg (by rw [hplan]; simp [BodyText.plan]),hfeed]
    dsimp only
    rw [hout,if_neg,if_neg hopen]
    · refine ⟨_,rfl,⟨{ hbegun with },hst,?_⟩,rfl,rfl⟩
      rw [hbody]
      exact hcons
    · have hle : out.length ≤ b.payload.length := by simp [← hpay]
      exact not_lt.mpr (hle.trans hlim)

/-- The last byte of a body dispatches its request. What stands behind a chunked body
is gone. -/
theorem Assembling.parse_end {got missing rest : Bytes} (h : Assembling o r got s) (hr : r.Ok o)
    (htext : got++missing = r.body.text) (hbuf : s.inbuf = missing++rest) :
    ∃ t, parseBody o s = (.ok (),t) ∧
      Awaiting (s.dispatched++[r.request o]) (if r.body.isChunked then [] else rest) t := by
  obtain ⟨hbegun,-,hprog⟩ := h
  have hlim := hr.body_le
  have hplan := hbegun.plan
  have hdecl := hr.declared
  unfold parseBody
  cases hbody : r.body with
  | none => simp [hbody] at hprog
  | sized body =>
    rw [hbody] at hprog hplan htext
    obtain ⟨hgot,_⟩ := hprog
    have hlen : got.length+missing.length = body.length := by
      simpa [BodyText.text] using congrArg length htext
    have htak : min s.remaining s.inbuf.length = missing.length := by
      rw [hbuf,length_append]
      omega
    rw [if_pos (by rw [hplan]; rfl)]
    dsimp only
    rw [htak,if_neg (by omega),hgot,hbuf,take_left,drop_left]
    refine ⟨_,rfl,?_⟩
    have hdone : Begun o r { s with
        body := got++missing, inbuf := rest, remaining := s.remaining-missing.length } :=
      { hbegun with }
    exact hdone.dispatch (by rw [hbody]; exact htext)
  | chunked b =>
    rw [hbody] at hprog hlim hplan htext hdecl
    have hall := consume_text hdecl.1 rest
    rw [← show BodyText.text (.chunked b) = b.text from rfl,← htext,append_assoc] at hall
    obtain ⟨_,hfeed,hout⟩ := feed_of_consume hprog hall
    rw [if_neg (by rw [hplan]; simp [BodyText.plan]),hbuf,hfeed]
    dsimp only
    change b.payload.length ≤ o.maxRequestBodySize at hlim
    rw [hout,if_neg (not_lt.mpr hlim)]
    refine ⟨_,rfl,?_⟩
    have hdone : Begun o r { s with
        body := b.payload
        decoder := { state := .complete, trailers := b.trailers.map Field.decoded }
        inbuf := [] } :=
      { hbegun with }
    exact hdone.dispatch (by rw [hbody]; rfl)

/-- A complete head begins the body, or dispatches a request without one. -/
theorem serverParse_head {rest : Bytes} (hr : r.Ok o) (hcls : s.closed = none)
    (hst : s.state = .head) (hbuf : s.inbuf = r.head.head++rest) :
    (r.body = .none ∧ ∃ t, serverParse o s = (.ok (),t) ∧
      Awaiting (s.dispatched++[r.request o]) rest t) ∨
    (r.body ≠ .none ∧ ∃ t, serverParse o s = parseBody o t ∧ Assembling o r [] t ∧
      t.inbuf = rest ∧ t.dispatched = s.dispatched) := by
  have hpar : serverParse o s = beginRequest o { s with inbuf := rest } r.head.decoded := by
    rw [serverParse]
    simp [hst,hbuf,hr.head.findHeaderBlockEnd rest, hr.head.parseRequestHead]
  rw [hpar,beginRequest]
  have hupgrade : (exchange { s with inbuf := rest } r.head.decoded).wsUpgrade = false :=
    hr.noUpgrade
  rw [if_neg (by simp [hupgrade]),planRequestBody_declared hr.declared]
  dsimp only
  by_cases hbody : r.body = .none
  · left
    refine ⟨hbody,?_⟩
    rw [hbody]
    refine ⟨_,rfl,?_⟩
    have hdone : Begun o r { exchange { s with inbuf := rest } r.head.decoded with
        plan := BodyText.none.plan } :=
      ⟨hcls,rfl,by simp [exchange,hr.keepAlive],hr.noUpgrade,rfl,by rw [hbody]⟩
    exact hdone.dispatch (by rw [hbody]; rfl)
  · right
    have hfrm : r.body.plan.framing ≠ .none := by
      cases hb : r.body with
      | none => exact absurd hb hbody
      | sized body | chunked body => simp [BodyText.plan]
    refine ⟨hbody,?_⟩
    rw [if_neg hfrm,if_neg (by simp [hr.buffered])]
    refine ⟨_,rfl,⟨⟨hcls,rfl,by simp [exchange,hr.keepAlive],hr.noUpgrade,rfl,rfl⟩,
      rfl,?_⟩,rfl,rfl⟩
    cases hb : r.body with
    | none => exact absurd hb hbody
    | sized body => exact ⟨rfl,rfl⟩
    | chunked body => rfl

end Following

/-! ### Every way in which the bytes arrive -/

def wire (requests : List WireRequest) : Bytes := requests.flatMap WireRequest.text

theorem wire_cons (r : WireRequest) (requests : List WireRequest) :
    wire (r::requests) = r.head.head++(r.body.text++wire requests) := by
  simp [wire,WireRequest.text]

theorem RequestText.head_ne_nil (r : RequestText) : r.head ≠ [] := by
  simp [RequestText.head,block,crlf]

/-- Where a connection stands when these requests are still to be dispatched and these
bytes still to arrive. -/
inductive Phase (o : Options) (future : Bytes) : List WireRequest → Server → Prop
  | head {todo : List WireRequest} {s : Server} (state : s.state = .head)
      (rest : s.inbuf++future = wire todo)
      (short : ∀ r ∈ todo.head?, s.inbuf.length < r.head.head.length) : Phase o future todo s
  | body {r : WireRequest} {todo : List WireRequest} {s : Server} {got missing : Bytes}
      (assembling : Assembling o r got s) (text : got++missing = r.body.text)
      (open_ : missing ≠ []) (inbuf : s.inbuf = []) (rest : future = missing++wire todo) :
      Phase o future (r::todo) s
  | awaiting {todo : List WireRequest} {s : Server}
      (waits : Awaiting s.dispatched s.inbuf s) (rest : s.inbuf++future = wire todo) :
      Phase o future todo s

/-- A connection on which these requests are still to come and none of them can be
lost. -/
structure Following (o : Options) (done todo : List WireRequest) (future : Bytes) (s : Server) :
    Prop where
  closed : s.closed = none
  ok : ∀ r ∈ todo, r.Ok o
  kept : ∀ r ∈ todo.dropLast, r.body.isChunked = false
  dispatched : s.dispatched = done.map (·.request o)
  phase : Phase o future todo s

/-- The connection follows these requests, some of them dispatched. -/
def Follows (o : Options) (requests : List WireRequest) (future : Bytes) (s : Server) : Prop :=
  ∃ done todo, done++todo = requests ∧ Following o done todo future s

section Phases

variable {o : Options} {done todo : List WireRequest} {r : WireRequest} {future : Bytes}
  {s : Server}

theorem kept_tail (h : ∀ q ∈ (r::todo).dropLast, q.body.isChunked = false) :
    (∀ q ∈ todo.dropLast, q.body.isChunked = false) ∧ (r.body.isChunked = true → todo = []) := by
  cases todo with
  | nil => simp
  | cons q todo =>
    refine ⟨fun q hq => h q (by simp [hq]),fun hchk => ?_⟩
    rw [h r (by simp)] at hchk
    simp at hchk

/-- One more request has been dispatched. -/
theorem Following.of_awaiting {rest : Bytes} (hok : ∀ q ∈ todo, q.Ok o)
    (hkept : ∀ q ∈ todo.dropLast, q.body.isChunked = false) {dispatched : List HttpRequest}
    (hdisp : dispatched = done.map (·.request o))
    (h : Awaiting (dispatched++[r.request o]) rest s) (hrest : rest++future = wire todo) :
    Following o (done++[r]) todo future s := by
  refine ⟨h.closed,hok,hkept,?_,.awaiting ?_ ?_⟩
  · simp [h.dispatched,hdisp]
  · exact { h with dispatched := rfl, inbuf := rfl }
  · rw [h.inbuf,hrest]

/-- The body goes on with what is buffered. -/
theorem Assembling.follow {got missing : Bytes} (h : Assembling o r got s)
    (hok : ∀ q ∈ r::todo, q.Ok o) (hkept : ∀ q ∈ (r::todo).dropLast, q.body.isChunked = false)
    (hdisp : s.dispatched = done.map (·.request o))
    (htext : got++missing = r.body.text) (hrest : s.inbuf++future = missing++wire todo) :
    Follows o (done++r::todo) future (settle (parseBody o s)) := by
  have hr : r.Ok o := hok r (by simp)
  rcases arrived_cases hrest with ⟨_,hmore,hmiss,hfut⟩ | ⟨rest,hbuf,hfut⟩
  · obtain ⟨t,hpar,hasm,hbuf,hsame⟩ := h.parse_part hr (by rw [append_assoc,hmiss,htext]) hmore
    refine ⟨done,r::todo,rfl,?_⟩
    rw [hpar]
    refine ⟨hasm.begun.closed,hok,hkept,by rw [← hdisp]; exact hsame,?_⟩
    exact .body hasm (by rw [append_assoc,hmiss,htext]) hmore hbuf hfut
  · obtain ⟨hkept',hlast⟩ := kept_tail hkept
    obtain ⟨t,hpar,hawait⟩ := h.parse_end hr htext hbuf
    refine ⟨done++[r],todo,by simp,?_⟩
    rw [hpar]
    refine Following.of_awaiting (fun q hq => hok q (by simp [hq])) hkept' hdisp hawait ?_
    by_cases hchk : r.body.isChunked = true
    · have htodo := hlast hchk
      subst htodo
      have hnil : rest = [] ∧ future = [] := by simpa [wire] using hfut
      rw [if_pos hchk,hnil.2]
      rfl
    · rw [if_neg hchk,hfut]

/-- The parser at the start of a request. -/
theorem Following.parse_head (hcls : s.closed = none) (hst : s.state = .head)
    (hok : ∀ q ∈ todo, q.Ok o) (hkept : ∀ q ∈ todo.dropLast, q.body.isChunked = false)
    (hdisp : s.dispatched = done.map (·.request o)) (hrest : s.inbuf++future = wire todo) :
    Follows o (done++todo) future (settle (serverParse o s)) := by
  have hstays : findHeaderBlockEnd s.inbuf = none →
      s.inbuf.length ≤ o.maxBufferedRequestBytes →
      (∀ r ∈ todo.head?, s.inbuf.length < r.head.head.length) →
      Following o done todo future (settle (serverParse o s)) := by
    intro hnone hle hsh
    have hpar : serverParse o s = (.ok (),s) := by
      rw [serverParse]
      simp [hst,hnone,if_neg (not_lt.mpr hle)]
    rw [hpar]
    exact ⟨hcls,hok,hkept,hdisp,.head hst hrest hsh⟩
  cases todo with
  | nil =>
    have hnil : s.inbuf = [] := (append_eq_nil_iff.mp hrest).1
    refine ⟨done,[],rfl,hstays ?_ ?_ (by simp)⟩
    · rw [hnil]
      rfl
    · simp [hnil]
  | cons r todo =>
    have hr : r.Ok o := hok r (by simp)
    rw [wire_cons] at hrest
    rcases head_arrives hrest rfl hr.head.lineOk with ⟨_,hbuf,hfut⟩ | ⟨hsh,hnone⟩
    · rcases serverParse_head hr hcls hst hbuf with
        ⟨hnone,t,hpar,hawait⟩ | ⟨-,t,hpar,hasm,hbuf,hsame⟩
      · refine ⟨done++[r],todo,by simp,?_⟩
        rw [hpar]
        refine Following.of_awaiting (fun q hq => hok q (by simp [hq])) (kept_tail hkept).1
          hdisp hawait ?_
        rw [hfut,hnone]
        rfl
      · rw [hpar]
        exact hasm.follow hok hkept (by rw [hsame,hdisp]) (nil_append _) (by rw [hbuf,hfut])
    have hle := hr.head_le
    refine ⟨done,r::todo,rfl,hstays hnone (by omega) ?_⟩
    intro q hq
    simp only [head?_cons,Option.mem_some_iff] at hq
    subst hq
    exact hsh

theorem Following.segment {data : Bytes} (h : Following o done todo (data++future) s) :
    Follows o (done++todo) future (step o s (.segment data)) := by
  obtain ⟨hcls,hok,hkept,hdisp,hph⟩ := h
  rw [step,if_neg (by simp [hcls])]
  cases hph with
  | head hst hrest _ => exact Following.parse_head hcls hst hok hkept hdisp (by simpa using hrest)
  | @body r todo _ got missing hasm htext _ hbuf hrest =>
    have hasm' : Assembling o r got { s with inbuf := s.inbuf++data } :=
      ⟨{ hasm.begun with closed := hcls },hasm.state,hasm.progress⟩
    have hpar : serverParse o { s with inbuf := s.inbuf++data } =
        parseBody o { s with inbuf := s.inbuf++data } := by
      rw [serverParse]
      simp [hasm.state]
    rw [hpar]
    exact hasm'.follow hok hkept hdisp htext (by simpa [hbuf] using hrest)
  | awaiting hwaits hrest =>
    have hpar : serverParse o { s with inbuf := s.inbuf++data } =
        (.ok (),{ s with inbuf := s.inbuf++data }) := by
      rw [serverParse]
      simp [hwaits.state]
    rw [hpar]
    refine ⟨done,todo,rfl,hcls,hok,hkept,hdisp,.awaiting ?_ (by simpa [settle] using hrest)⟩
    exact { hwaits with closed := hcls, dispatched := rfl, inbuf := rfl }

theorem finish_awaiting {dispatched : List HttpRequest} {inbuf : Bytes}
    (h : Awaiting dispatched inbuf s) :
    step o s .finish = settle (serverParse o { s with state := .head }) := by
  rw [step,if_neg (by simp [h.closed]),if_pos (by simp [answering,h.state]),
    finishResponseAndAdvance]
  simp [h.keepAlive,h.wsUpgrade,h.streaming,h.state]

theorem finish_idle (h : s.answering = false) : step o s .finish = s := by
  rw [step]
  simp [h]

theorem Following.finish (h : Following o done todo future s) :
    Follows o (done++todo) future (step o s .finish) := by
  obtain ⟨hcls,hok,hkept,hdisp,hph⟩ := h
  cases hph with
  | head hst hrest hsh =>
    rw [finish_idle (by simp [answering,hst])]
    exact ⟨done,todo,rfl,hcls,hok,hkept,hdisp,.head hst hrest hsh⟩
  | body hasm htext hopen hbuf hrest =>
    rw [finish_idle (by simp [answering,hasm.state])]
    exact ⟨done,_,rfl,hcls,hok,hkept,hdisp,.body hasm htext hopen hbuf hrest⟩
  | awaiting hwaits hrest =>
    rw [finish_awaiting hwaits]
    exact Following.parse_head hcls rfl hok hkept hdisp hrest

/-- With every byte read and every response finished, nothing is left. -/
theorem Following.done_of_idle (h : Following o done todo [] s) (hidle : s.answering = false) :
    todo = [] := by
  cases h.phase with
  | head hst hrest hsh =>
    cases todo with
    | nil => rfl
    | cons r todo =>
      have hlt := hsh r (by simp)
      rw [append_nil] at hrest
      rw [hrest,wire_cons] at hlt
      simp only [length_append] at hlt
      omega
  | body _ _ hopen _ hrest => simp [hopen] at hrest
  | awaiting hwaits _ => simp [answering,hwaits.state] at hidle

end Phases

def Event.data : Event → Bytes
  | .segment data => data
  | _ => []

/-- Bytes arrive, or a response is finished. -/
def Event.Expected : Event → Prop
  | .segment _ => True
  | .finish => True
  | _ => False

variable {o : Options}

theorem Following.run {events : List Event} {done todo : List WireRequest} {s : Server}
    (hevs : ∀ e ∈ events, e.Expected) (h : Following o done todo (events.flatMap Event.data) s) :
    Follows o (done++todo) [] (Runs.after (step o) s events) := by
  induction events generalizing done todo s with
  | nil => exact ⟨done,todo,rfl,h⟩
  | cons e events ih =>
    have hstep : Follows o (done++todo) (events.flatMap Event.data) (step o s e) := by
      have hexp := hevs e (by simp)
      cases e with
      | segment data => exact Following.segment h
      | finish => exact Following.finish h
      | acceptUpgrade | read | close status => exact hexp.elim
    obtain ⟨_,_,hsame,hfol⟩ := hstep
    rw [← hsame]
    exact ih (fun e he => hevs e (by simp [he])) hfol

/-! ### One segment for everything -/

/-- The requests up to the first chunked one. -/
def survivors : List WireRequest → List WireRequest
  | [] => []
  | r::requests => r::if r.body.isChunked then [] else survivors requests

theorem survivors_length_eq_iff (requests : List WireRequest) :
    (survivors requests).length = requests.length ↔
      ∀ r ∈ requests.dropLast, r.body.isChunked = false := by
  induction requests with
  | nil => simp [survivors]
  | cons r requests ih =>
    rw [survivors,length_cons,length_cons]
    cases requests with
    | nil => cases r.body.isChunked <;> simp [survivors]
    | cons q requests =>
      rw [dropLast_cons_cons,forall_mem_cons,← ih]
      cases r.body.isChunked <;> simp

theorem after_finish_idle {s : Server} (h : s.answering = false) (n : ℕ) :
    Runs.after (step o) s (replicate n .finish) = s := by
  induction n with
  | zero => rfl
  | succ n ih => rw [replicate_succ,Runs.after,finish_idle h,ih]

theorem after_finish_empty {s : Server} (hst : s.state = .head) (hbuf : s.inbuf = []) (n : ℕ) :
    Runs.after (step o) (settle (serverParse o s)) (replicate n .finish) = s := by
  have hpar : serverParse o s = (.ok (),s) := by
    rw [serverParse]
    simp [hst,hbuf,findHeaderBlockEnd,Ascii.find]
  rw [hpar]
  exact after_finish_idle (by simp [answering,settle,hst]) n

/-- With the whole stream buffered, each response lets the parser take the next request,
up to the first chunked one. -/
theorem after_finish_buffered {requests : List WireRequest} {s : Server}
    (hok : ∀ r ∈ requests, r.Ok o) (hcls : s.closed = none) (hst : s.state = .head)
    (hbuf : s.inbuf = wire requests) : ∃ t, Runs.after (step o) (settle (serverParse o s))
        (replicate requests.length .finish) = t ∧
      t.dispatched = s.dispatched++(survivors requests).map (·.request o) ∧
      t.answering = false := by
  induction requests generalizing s with
  | nil =>
    refine ⟨s,after_finish_empty hst hbuf 0,by simp [survivors],?_⟩
    simp [answering,hst]
  | cons r requests ih =>
    have hr : r.Ok o := hok r (by simp)
    rw [wire_cons] at hbuf
    obtain ⟨t,hpar,hawait⟩ : ∃ t, serverParse o s = (.ok (),t) ∧
        Awaiting (s.dispatched++[r.request o])
          (if r.body.isChunked then [] else wire requests) t := by
      rcases serverParse_head hr hcls hst hbuf with
        ⟨hnone,t,hpar,hawait⟩ | ⟨-,t,hpar,hasm,hbuf,hsame⟩
      · refine ⟨t,hpar,?_⟩
        rw [hnone] at hawait ⊢
        exact hawait
      · obtain ⟨t',hpar',hawait⟩ := hasm.parse_end hr (nil_append _) hbuf
        rw [hsame] at hawait
        exact ⟨t',hpar.trans hpar',hawait⟩
    have hnext : Runs.after (step o) (settle (serverParse o s))
        (replicate (r::requests).length .finish) =
        Runs.after (step o) (settle (serverParse o { t with state := .head }))
          (replicate requests.length .finish) := by
      rw [hpar,length_cons,replicate_succ]
      exact congrArg (Runs.after (step o) · _) (finish_awaiting hawait)
    rw [hnext,survivors]
    by_cases hchk : r.body.isChunked = true
    · rw [if_pos hchk] at hawait ⊢
      exact ⟨_,@after_finish_empty o { t with state := .head } rfl hawait.inbuf _,
        hawait.dispatched,rfl⟩
    rw [if_neg hchk] at hawait ⊢
    have hrest := @ih { t with state := .head } (fun q hq => hok q (by simp [hq]))
      hawait.closed rfl hawait.inbuf
    simpa [hawait.dispatched] using hrest

/-- The bytes of these requests have been read and every response is finished. -/
structure Served (o : Options) (requests : List WireRequest) (events : List Event) : Prop where
  expected : ∀ e ∈ events, e.Expected
  inbound : events.flatMap Event.data = wire requests
  finished : (run o events).answering = false

/-- Well-formed pipelined requests are all dispatched, in order and with their bodies,
however their bytes are cut into segments and whenever the responses finish, exactly
when none but the last of them is chunked. -/
theorem pipelined_dispatched_iff (o : Options) (requests : List WireRequest)
    (hok : ∀ r ∈ requests, r.Ok o) :
    (∀ events, Served o requests events →
      (run o events).dispatched = requests.map (·.request o)) ↔
      ∀ r ∈ requests.dropLast, r.body.isChunked = false := by
  constructor
  · intro hall
    obtain ⟨t,hrun,hdisp,hidle⟩ :=
      @after_finish_buffered o requests { inbuf := wire requests } hok rfl rfl rfl
    have hevs : run o (.segment (wire requests)::replicate requests.length .finish) = t :=
      hrun
    have hsrv : Served o requests
        (.segment (wire requests)::replicate requests.length .finish) := by
      refine ⟨?_,?_,hevs ▸ hidle⟩
      · intro e he
        rcases mem_cons.mp he with rfl | he
        · trivial
        · rw [eq_of_mem_replicate he]
          trivial
      · simp [Event.data]
    have hsame := hall _ hsrv
    rw [hevs,hdisp] at hsame
    rw [← survivors_length_eq_iff]
    simpa using congrArg length hsame
  · intro hkept events hsrv
    have hst : Following o [] requests (events.flatMap Event.data) {} := by
      refine ⟨rfl,hok,hkept,rfl,.head rfl ?_ ?_⟩
      · rw [hsrv.inbound]
        rfl
      · intro r _
        exact length_pos_iff.mpr r.head.head_ne_nil
    obtain ⟨_,_,hsame,hfol⟩ := hst.run hsrv.expected
    have htodo := hfol.done_of_idle hsrv.finished
    subst htodo
    rw [append_nil,nil_append] at hsame
    rw [← hsame]
    exact hfol.dispatched

def examplePost : WireRequest where
  head := {
    method := ofString "POST"
    target := ofString "/"
    version := .v11
    fields := [⟨ofString "Transfer-Encoding",[32],ofString "chunked",[]⟩] }
  body := .chunked {
    chunks := [⟨ofString "2",[],ofString "hi"⟩]
    lastSize := ofString "0"
    lastExtension := []
    trailers := [] }

def exampleGet : WireRequest where
  head := { method := ofString "GET", target := ofString "/", version := .v11, fields := [] }
  body := .none

theorem examplePost_ok : examplePost.Ok {} where
  head := {
    method := ⟨by decide,by decide +kernel⟩
    target := ⟨by decide,by decide +kernel⟩
    fields := by
      simp only [examplePost,mem_singleton,forall_eq]
      exact ⟨by decide,by decide +kernel,by simp [Blank],by simp [Blank],
        by decide,⟨by decide +kernel,by decide +kernel⟩⟩ }
  declared := by
    refine ⟨⟨?_,⟨by decide,by decide,by decide⟩,
      ⟨by simp,[],[],rfl,by simp [Blank],.inl rfl⟩,by simp⟩,ofString "chunked",by decide,
      [],[],_,rfl,.inl rfl,by simp [Blank],by decide⟩
    simp only [mem_singleton,forall_eq]
    exact ⟨⟨by decide,by decide,by decide⟩,⟨by simp,[],[],rfl,by simp [Blank],.inl rfl⟩,by decide⟩
  keepAlive := by decide
  noUpgrade := by decide
  buffered := rfl
  head_le := by decide
  body_le := by decide

theorem exampleGet_ok : exampleGet.Ok {} where
  head := ⟨⟨by decide,by decide +kernel⟩,⟨by decide,by decide +kernel⟩,by simp [exampleGet]⟩
  declared := ⟨by decide,by decide⟩
  keepAlive := by decide
  noUpgrade := by decide
  buffered := rfl
  head_le := by decide
  body_le := by decide

/-- A chunked request and one right behind it in the same segment: the second one is
gone with the buffer. -/
theorem pipelined_get_lost :
    (∀ r ∈ [examplePost,exampleGet], r.Ok {}) ∧
      Served {} [examplePost,exampleGet]
        [.segment (wire [examplePost,exampleGet]),.finish,.finish] ∧
      (run {} [.segment (wire [examplePost,exampleGet]),.finish,.finish]).dispatched ≠
        [examplePost.request {},exampleGet.request {}] := by
  refine ⟨?_,⟨?_,by decide,by decide⟩,by decide⟩
  · exact forall_mem_cons.mpr ⟨examplePost_ok,forall_mem_singleton.mpr exampleGet_ok⟩
  · simp [Event.Expected]

theorem pipelined_dispatched_iff_get_post :
    (run {} [.segment (wire [exampleGet,examplePost]),.finish,.finish]).dispatched =
      [exampleGet.request {},examplePost.request {}] := by
  refine (pipelined_dispatched_iff {} [exampleGet,examplePost] ?_).mpr (by decide) _
    ⟨?_,by decide,by decide⟩
  · exact forall_mem_cons.mpr ⟨exampleGet_ok,forall_mem_singleton.mpr examplePost_ok⟩
  · simp [Event.Expected]

end A11.Http1
