import A11.Ascii
import A11.DataTypes

/-! The HTTP/1.1 codec: heads, body framing and the incremental decoder of chunked
bodies. -/
namespace A11.Http1

open Ascii

abbrev HttpHeaders := List (Bytes × Bytes)

def getHttpHeader (headers : HttpHeaders) (name : String) : Option Bytes :=
  (headers.find? fun header => header.1 = lower (ofString name)).map Prod.snd

structure RequestHead where
  method : Bytes := []
  target : Bytes := []
  version : Bytes := []
  headers : HttpHeaders := []
  deriving DecidableEq

structure ResponseHead where
  status : ℤ := 0
  reason : Bytes := []
  version : Bytes := []
  headers : HttpHeaders := []
  deriving DecidableEq

def crlf : Bytes := [13,10]

/-! ### Heads -/

/-- A trailing carriage return is not part of the line. -/
def chomp (line : Bytes) : Bytes := if line.getLast? = some 13 then line.dropLast else line

def splitLines (headBlock : Bytes) : StatusOr (List Bytes) :=
  let lines := ((headBlock.splitOn 10).map chomp).filter (· ≠ [])
  if lines = [] then .error (.invalidArgument "Empty HTTP/1.1 message head") else .ok lines

def parseHeaderLine (line : Bytes) : StatusOr (Bytes × Bytes) :=
  match cutAt 58 line with
  | none => .error (.invalidArgument ("Malformed HTTP/1.1 header line: " ++ asciiText line))
  | some (name,value) =>
    if name = [] then
      .error (.invalidArgument ("Malformed HTTP/1.1 header line: " ++ asciiText line))
    else if 32 ∈ name ∨ 9 ∈ name then
      .error (.invalidArgument ("Invalid whitespace in HTTP/1.1 header name: " ++ asciiText name))
    else .ok (lower name,strip value)

def parseHeaderLines : List Bytes → StatusOr HttpHeaders
  | [] => .ok []
  | line::lines => do
    let header ← parseHeaderLine line
    let headers ← parseHeaderLines lines
    return header::headers

/-- The index just past the blank line that ends the head. -/
def findHeaderBlockEnd (data : Bytes) : Option ℕ :=
  match find [13,10,13,10] data, find [10,10] data with
  | some i, some j => if j < i then some (j+2) else some (i+4)
  | some i, none => some (i+4)
  | none, some j => some (j+2)
  | none, none => none

def http11 : Bytes := ofString "HTTP/1.1"
def http10 : Bytes := ofString "HTTP/1.0"

/-- The request line: method, target and version. -/
def parseRequestLine (line : Bytes) : StatusOr (Bytes × Bytes × Bytes) :=
  match splitMax 32 2 line with
  | [method,target,version] =>
    if method = [] ∨ target = [] then
      .error (.invalidArgument ("Malformed HTTP/1.1 request line: " ++ asciiText line))
    else if version ≠ http11 ∧ version ≠ http10 then
      .error (.invalidArgument ("Unsupported HTTP version: " ++ asciiText version))
    else .ok (method,target,version)
  | _ => .error (.invalidArgument ("Malformed HTTP/1.1 request line: " ++ asciiText line))

def parseRequestHead (headBlock : Bytes) : StatusOr RequestHead := do
  let lines ← splitLines headBlock
  let (method,target,version) ← parseRequestLine (lines.headD [])
  let headers ← parseHeaderLines lines.tail
  return ⟨upper method,target,version,headers⟩

/-- The status line: version, code and, when there is one, the reason phrase. -/
def parseStatusLine (line : Bytes) : StatusOr (Bytes × ℤ × Bytes) :=
  match splitMax 32 2 line with
  | version::code::reason =>
    if version ≠ http11 ∧ version ≠ http10 then
      .error (.invalidArgument ("Unsupported HTTP version: " ++ asciiText version))
    else match signed32 code with
      | some status =>
        if status < 100 ∨ 599 < status then
          .error (.invalidArgument ("Invalid HTTP/1.1 status code: " ++ asciiText code))
        else .ok (version,status,reason.headD [])
      | none => .error (.invalidArgument ("Invalid HTTP/1.1 status code: " ++ asciiText code))
  | _ => .error (.invalidArgument ("Malformed HTTP/1.1 status line: " ++ asciiText line))

def parseResponseHead (headBlock : Bytes) : StatusOr ResponseHead := do
  let lines ← splitLines headBlock
  let (version,status,reason) ← parseStatusLine (lines.headD [])
  let headers ← parseHeaderLines lines.tail
  return ⟨status,reason,version,headers⟩

/-! ### Framing -/

/-- Whether the comma-separated value of a header has the token, in any case. -/
def headerContainsToken (headers : HttpHeaders) (name token : String) : Bool :=
  match getHttpHeader headers name with
  | none => false
  | some value => (value.splitOn 44).any fun piece => lower (strip piece) = lower (ofString token)

inductive BodyFraming
  | none | contentLength | chunked | untilClose
  deriving DecidableEq

structure BodyPlan where
  framing : BodyFraming := .none
  contentLength : ℕ := 0
  deriving DecidableEq

def planBody (headers : HttpHeaders) (allowUntilClose : Bool) : StatusOr BodyPlan :=
  if headerContainsToken headers "transfer-encoding" "chunked" then .ok ⟨.chunked,0⟩
  else match getHttpHeader headers "content-length" with
    | some value => match unsigned64 10 value with
      | some length => .ok ⟨.contentLength,length⟩
      | none => .error (.invalidArgument ("Invalid Content-Length: " ++ asciiText value))
    | none => if allowUntilClose then .ok ⟨.untilClose,0⟩ else .ok ⟨.none,0⟩

def planRequestBody (headers : HttpHeaders) : StatusOr BodyPlan := planBody headers false

def planResponseBody (requestMethod : Bytes) (status : ℤ) (headers : HttpHeaders) :
    StatusOr BodyPlan :=
  if upper requestMethod = ofString "HEAD" ∨ (100 ≤ status ∧ status < 200) ∨ status = 204 ∨
      status = 304 then .ok ⟨.none,0⟩
  else planBody headers true

/-- `Connection: close`, or HTTP/1.0 without `keep-alive`. -/
def wantsClose (version : Bytes) (headers : HttpHeaders) : Bool :=
  match getHttpHeader headers "connection" with
  | some value =>
    if (find (ofString "close") (lower value)).isSome then true
    else if (find (ofString "keep-alive") (lower value)).isSome then false
    else version == http10
  | none => version == http10

/-! ### Chunked bodies -/

inductive DecoderState
  | size | data | dataCrlf | trailer | complete
  deriving DecidableEq

structure ChunkedDecoder where
  state : DecoderState := .size
  /-- The part of a size line, of a trailer line or of a terminator read so far. -/
  pending : Bytes := []
  remaining : ℕ := 0
  trailers : HttpHeaders := []
  deriving DecidableEq

namespace ChunkedDecoder

/-- A finished line, without its terminator. -/
def lineOf (pending : Bytes) : Bytes :=
  chomp (if pending.getLast? = some 10 then pending.dropLast else pending)

/-- The size line of a chunk: extensions are dropped, and size zero begins the trailer
section. -/
def endSizeLine (d : ChunkedDecoder) (line : Bytes) : StatusOr ChunkedDecoder :=
  let text := strip (((cutAt 59 line).map Prod.fst).getD line)
  if text = [] then .error (.invalidArgument ("Invalid chunk size: " ++ asciiText text))
  else match unsigned64 16 text with
    | none => .error (.invalidArgument ("Invalid chunk size: " ++ asciiText text))
    | some size =>
      if size = 0 then .ok { d with pending := [], state := .trailer }
      else .ok { d with pending := [], remaining := size, state := .data }

/-- A blank line ends the body; a line that is not a field is dropped. -/
def endTrailerLine (d : ChunkedDecoder) (line : Bytes) : ChunkedDecoder :=
  if line = [] then { d with pending := [], state := .complete }
  else match cutAt 58 line with
    | some (name,value) =>
      { d with pending := [], trailers := d.trailers++[(lower name,strip value)] }
    | none => { d with pending := [] }

/-- The loop of `Feed`: the decoder, the payload and the bytes that were not read. Every
round reads at least one byte or moves on to a terminator. -/
def feedLoop : ℕ → ChunkedDecoder → Bytes → Bytes → StatusOr (ChunkedDecoder × Bytes × Bytes)
  | 0, d, data, out => .ok (d,out,data)
  | fuel+1, d, data, out =>
    if data = [] then .ok (d,out,data)
    else match d.state with
      | .complete => .ok (d,out,data)
      | .size => match data.idxOf? 10 with
        | none => .ok ({ d with pending := d.pending++data },out,[])
        | some i => do
          let d ← endSizeLine d (lineOf (d.pending++data.take (i+1)))
          feedLoop fuel d (data.drop (i+1)) out
      | .trailer => match data.idxOf? 10 with
        | none => .ok ({ d with pending := d.pending++data },out,[])
        | some i =>
          feedLoop fuel (endTrailerLine d (lineOf (d.pending++data.take (i+1))))
            (data.drop (i+1)) out
      | .data =>
        let taken := min d.remaining data.length
        feedLoop fuel
          { d with
            remaining := d.remaining-taken
            state := if d.remaining-taken = 0 then .dataCrlf else .data }
          (data.drop taken) (out++data.take taken)
      | .dataCrlf =>
        let character := data.headD 0
        if character = 10 then
          feedLoop fuel { d with pending := [], state := .size } data.tail out
        else if 2 < (d.pending++[character]).length then
          .error (.invalidArgument "Missing CRLF after chunk data")
        else feedLoop fuel { d with pending := d.pending++[character] } data.tail out

/-- The payload decoded from new bytes; bytes behind the end of the body are not read. -/
def feed (d : ChunkedDecoder) (data : Bytes) : StatusOr (ChunkedDecoder × Bytes) := do
  let (d,out,_) ← feedLoop (data.length+1) d data []
  return (d,out)

end ChunkedDecoder
end A11.Http1
