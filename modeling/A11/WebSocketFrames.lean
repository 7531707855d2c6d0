import A11.ByteOrder
import A11.DataTypes

/-! Frames of the WebSocket that runs over an HTTP/2 stream: how an endpoint writes one, and
how it takes the frames out of the bytes it has buffered. -/
namespace A11.WebSocket
open List

inductive Role
  | client | server
  deriving DecidableEq

def Role.opposite : Role → Role
  | .client => .server
  | .server => .client

/-- One endpoint: its role, its limit and the random numbers it draws masking keys from. -/
structure Config where
  role : Role
  maxMessageSize : UInt64
  randomUint64 : ℕ → UInt64

def Config.limit (cfg : Config) : ℕ := cfg.maxMessageSize.toNat

/-- A message of the largest size and the longest header. -/
def Config.bufferBound (cfg : Config) : ℕ := (cfg.maxMessageSize+14).toNat

def kContinuation : UInt8 := 0x0
def kText : UInt8 := 0x1
def kBinary : UInt8 := 0x2
def kClose : UInt8 := 0x8
def kPing : UInt8 := 0x9
def kPong : UInt8 := 0xa

/-! ### Writing -/

structure Mask where
  first : UInt8
  second : UInt8
  third : UInt8
  fourth : UInt8
  deriving DecidableEq

namespace Mask

def ofKey (key : UInt32) : Mask :=
  ⟨(key >>> 24).toUInt8,(key >>> 16).toUInt8,(key >>> 8).toUInt8,key.toUInt8⟩

def bytes (m : Mask) : Bytes := [m.first,m.second,m.third,m.fourth]

def read (bytes : Bytes) : Mask :=
  ⟨bytes.getD 0 0,bytes.getD 1 0,bytes.getD 2 0,bytes.getD 3 0⟩

end Mask

/-- A word of four bytes at a time, and the bytes that are left over. -/
def maskInPlace (m : Mask) : Bytes → Bytes
  | a::b::c::d::rest =>
    (a ^^^ m.first)::(b ^^^ m.second)::(c ^^^ m.third)::(d ^^^ m.fourth)::
      maskInPlace m rest
  | [a,b,c] => [a ^^^ m.first,b ^^^ m.second,c ^^^ m.third]
  | [a,b] => [a ^^^ m.first,b ^^^ m.second]
  | [a] => [a ^^^ m.first]
  | [] => []

def maskFlag (masked : Bool) : UInt8 := if masked then 0x80 else 0

/-- The length of the payload, in the shortest of three forms. -/
def sizeBytes (masked : Bool) (size : ℕ) : Bytes :=
  if size ≤ 125 then [maskFlag masked ||| UInt8.ofNat size]
  else if size ≤ 0xffff then (maskFlag masked ||| 126)::bigEndian 2 size
  else (maskFlag masked ||| 127)::bigEndian 8 size

def frameBytes (masked : Bool) (mask : Mask) (first : UInt8) (payload : Bytes) : Bytes :=
  first::sizeBytes masked payload.length++
    if masked then mask.bytes++maskInPlace mask payload else payload

/-- What an endpoint sends for one message or control frame. -/
def writeFrame (role : Role) (key : UInt64) (opcode : UInt8) (payload : Bytes) : Bytes :=
  frameBytes (role == .client) (Mask.ofKey key.toUInt32) (0x80 ||| opcode) payload

/-! ### Parsing -/

structure Header where
  final : Bool
  opcode : UInt8
  headerSize : ℕ
  payloadSize : ℕ
  deriving DecidableEq

/-- The size of the header and of the payload, once the bytes that say so are there. -/
def declaredSize (rest : Bytes) (short : ℕ) : StatusOr (Option (ℕ × ℕ)) :=
  if short = 126 then
    if rest.length < 4 then .ok none
    else .ok (some (4,ofBigEndian ((rest.drop 2).take 2)))
  else if short = 127 then
    if rest.length < 10 then .ok none
    else if 2^63 ≤ ofBigEndian ((rest.drop 2).take 8) then
      .error (.invalidArgument "WebSocket length is invalid")
    else .ok (some (10,ofBigEndian ((rest.drop 2).take 8)))
  else .ok (some (2,short))

def checkHeader (cfg : Config) (h : Header) : StatusOr (Option Header) :=
  if cfg.limit < h.payloadSize then
    .error (.outOfRange "WebSocket frame exceeds max_message_size")
  else if kClose ≤ h.opcode ∧ (h.final = false ∨ 125 < h.payloadSize) then
    .error (.invalidArgument "WebSocket control frame must be final and at most 125 bytes")
  else .ok (some h)

def parseHeader (cfg : Config) (rest : Bytes) : StatusOr (Option Header) :=
  match rest with
  | first::second::_ =>
    if first &&& 0x70 ≠ 0 then .error (.invalidArgument "WebSocket RSV bits are not zero")
    else if (second &&& 0x80 != 0) ≠ (cfg.role == .server) then
      .error (.invalidArgument (if cfg.role = .server then "WebSocket client frame is not masked"
        else "WebSocket server frame is unexpectedly masked"))
    else do
      match ← declaredSize rest (second &&& 0x7f).toNat with
      | none => .ok none
      | some (headerSize,payloadSize) =>
        checkHeader cfg ⟨first &&& 0x80 != 0,first &&& 0x0f,headerSize,payloadSize⟩
  | _ => .ok none

/-- The message that is being put together from fragments. -/
structure Assembly where
  fragmentOpcode : Option UInt8 := none
  fragmented : Bytes := []
  deriving DecidableEq

inductive Action
  | message (payload : Bytes)
  | pong (payload : Bytes)
  | close (payload : Bytes)
  | nothing
  deriving DecidableEq

structure ParsedActions where
  messages : List Bytes := []
  pongs : List Bytes := []
  close : Option Bytes := none
  deriving DecidableEq

def ParsedActions.push (actions : ParsedActions) : Action → ParsedActions
  | .message payload => { actions with messages := actions.messages++[payload] }
  | .pong payload => { actions with pongs := actions.pongs++[payload] }
  | .close payload => { actions with close := some payload }
  | .nothing => actions

/-- What a whole frame means. -/
def dispatch (cfg : Config) (s : Assembly) (final : Bool) (opcode : UInt8) (payload : Bytes) :
    StatusOr (Assembly × Action) :=
  if opcode = kPing then .ok (s,.pong payload)
  else if opcode = kPong then .ok (s,.nothing)
  else if opcode = kClose then
    if payload.length = 1 then .error (.invalidArgument "WebSocket close code is truncated")
    else .ok (s,.close payload)
  else if opcode = kText then
    .error (.invalidArgument "A11 binary channel received a text WebSocket frame")
  else if opcode = kBinary then
    if s.fragmentOpcode.isSome then
      .error (.invalidArgument "WebSocket data frame interrupted a fragmented message")
    else if final then .ok (s,.message payload)
    else .ok (⟨some opcode,payload⟩,.nothing)
  else if opcode = kContinuation then
    if s.fragmentOpcode.isNone then
      .error (.invalidArgument "WebSocket continuation has no initial frame")
    else if cfg.limit < s.fragmented.length+payload.length then
      .error (.outOfRange "Fragmented WebSocket message exceeds max_message_size")
    else if final then .ok (⟨none,[]⟩,.message (s.fragmented++payload))
    else .ok (⟨s.fragmentOpcode,s.fragmented++payload⟩,.nothing)
  else .error (.invalidArgument "WebSocket opcode is unsupported")

structure Parser where
  input : Bytes
  consumed : ℕ := 0
  assembly : Assembly
  actions : ParsedActions := {}
  deriving DecidableEq

inductive Parsed
  | incomplete
  | frame (p : Parser)
  | closing (p : Parser)
  deriving DecidableEq

/-- The payload of a frame that is there to its end, and the input that is left. A buffer that
holds exactly this frame is taken as a whole. -/
def takePayload (cfg : Config) (p : Parser) (h : Header) : Bytes × Bytes × ℕ :=
  let maskSize := if cfg.role = .server then 4 else 0
  let fullSize := h.headerSize+maskSize+h.payloadSize
  let payloadOffset := p.consumed+h.headerSize+maskSize
  let mask := Mask.read (p.input.drop (p.consumed+h.headerSize))
  let unmask (bytes : Bytes) := if cfg.role = .server then maskInPlace mask bytes else bytes
  if p.consumed = 0 ∧ payloadOffset+h.payloadSize = p.input.length then
    (unmask (p.input.drop payloadOffset),[],0)
  else
    (unmask ((p.input.drop payloadOffset).take h.payloadSize),p.input,p.consumed+fullSize)

/-- One turn of the parsing loop. -/
def parseFrame (cfg : Config) (p : Parser) : StatusOr Parsed := do
  match ← parseHeader cfg (p.input.drop p.consumed) with
  | none => .ok .incomplete
  | some h =>
    if (p.input.drop p.consumed).length <
        h.headerSize+(if cfg.role = .server then 4 else 0)+h.payloadSize then .ok .incomplete
    else do
      let (payload,input,consumed) := takePayload cfg p h
      let (assembly,action) ← dispatch cfg p.assembly h.final h.opcode payload
      let next : Parser := ⟨input,consumed,assembly,p.actions.push action⟩
      return if h.opcode = kClose then .closing next else .frame next

def parseLoop (cfg : Config) : ℕ → Parser → StatusOr Parser
  | 0, p => .ok p
  | turns+1, p => do
    match ← parseFrame cfg p with
    | .incomplete => .ok p
    | .frame p => parseLoop cfg turns p
    | .closing p => .ok p

def parseFrames (cfg : Config) (input : Bytes) (assembly : Assembly) : StatusOr Parser := do
  let p ← parseLoop cfg (input.length+1) { input, assembly }
  return { p with input := p.input.drop p.consumed, consumed := 0 }

/-! ### Masks and sizes -/

@[simp] theorem length_maskInPlace (m : Mask) (bytes : Bytes) :
    (maskInPlace m bytes).length = bytes.length := by
  fun_induction maskInPlace m bytes <;> simp_all

@[simp] theorem maskInPlace_maskInPlace (m : Mask) (bytes : Bytes) :
    maskInPlace m (maskInPlace m bytes) = bytes := by
  fun_induction maskInPlace m bytes <;> simp_all [maskInPlace,UInt8.xor_assoc]

/-- What the second byte of a frame says. -/
theorem second_byte (masked : Bool) : ∀ n < 128,
    ((maskFlag masked ||| UInt8.ofNat n) &&& 0x80 != 0) = masked ∧
      ((maskFlag masked ||| UInt8.ofNat n) &&& 0x7f).toNat = n := by
  cases masked <;> decide

/-! ### Frames of a conforming peer -/

inductive Kind
  | continuation | binary | ping | pong
  deriving DecidableEq

namespace Kind

def opcode : Kind → UInt8
  | continuation => kContinuation
  | binary => kBinary
  | ping => kPing
  | pong => kPong

def isControl : Kind → Bool
  | ping | pong => true
  | _ => false

def firstByte (kind : Kind) (final : Bool) : UInt8 := (if final then 0x80 else 0) ||| kind.opcode

theorem firstByte_bits (kind : Kind) (final : Bool) : kind.firstByte final &&& 0x70 = 0 ∧
    (kind.firstByte final &&& 0x80 != 0) = final ∧ kind.firstByte final &&& 0x0f = kind.opcode := by
  cases kind <;> cases final <;> decide

end Kind

structure Frame where
  kind : Kind
  final : Bool
  mask : Mask
  payload : Bytes
  deriving DecidableEq

namespace Frame

variable {cfg : Config} {f : Frame}

def firstByte (f : Frame) : UInt8 := f.kind.firstByte f.final

/-- The frame as the endpoint opposite to `role` sends it. -/
def bytes (role : Role) (f : Frame) : Bytes :=
  frameBytes (role == .server) f.mask f.firstByte f.payload

def header (role : Role) (f : Frame) : Bytes :=
  f.firstByte::sizeBytes (role == .server) f.payload.length

def body (role : Role) (f : Frame) : Bytes :=
  if role == .server then f.mask.bytes++maskInPlace f.mask f.payload else f.payload

theorem bytes_eq (role : Role) (f : Frame) : f.bytes role = f.header role++f.body role := rfl

/-- What a peer may send: control frames are whole and short, data frames are within the
limit. -/
structure Sendable (cfg : Config) (f : Frame) : Prop where
  control : f.kind.isControl = true → f.final = true ∧ f.payload.length ≤ 125
  data : f.kind.isControl = false → f.payload.length ≤ cfg.limit

/-- The frame passes the checks on its length. -/
def Fits (cfg : Config) (f : Frame) : Prop :=
  f.payload.length ≤ cfg.limit ∧ f.payload.length < 2^63

instance : Decidable (f.Fits cfg) := inferInstanceAs (Decidable (_ ∧ _))

theorem length_lt (h : f.Sendable cfg) : f.payload.length < 2^64 := by
  have hlim : cfg.limit < 2^64 := cfg.maxMessageSize.toNat_lt
  cases hkind : f.kind.isControl with
  | true =>
    have hctl := (h.control hkind).2
    omega
  | false =>
    have hdata := h.data hkind
    omega

/-- The header that the receiver reads. -/
def parsed (role : Role) (f : Frame) : Header :=
  ⟨f.final,f.kind.opcode,(f.header role).length,f.payload.length⟩

theorem checkHeader_parsed (hsend : f.Sendable cfg) (hfits : f.Fits cfg) :
    checkHeader cfg (f.parsed cfg.role) = .ok (some (f.parsed cfg.role)) := by
  have hctl : ¬ (kClose ≤ f.kind.opcode ∧ (f.final = false ∨ 125 < f.payload.length)) := by
    rintro ⟨hkind,hbad⟩
    have hctl : f.kind.isControl = true := by
      cases hk : f.kind <;> rw [hk] at hkind <;> revert hkind <;> decide
    obtain ⟨hfin,_⟩ := hsend.control hctl
    rcases hbad with hbad | hbad
    · simp [hfin] at hbad
    · omega
  exact (if_neg (not_lt.mpr hfits.1)).trans (if_neg hctl)

/-- The first two bytes of a frame pass the checks made of them. -/
theorem parseHeader_second (short : ℕ) (hsh : short < 128) (rest : Bytes) :
    parseHeader cfg (f.firstByte::
        (maskFlag (cfg.role == .server) ||| UInt8.ofNat short)::rest) = (do
      match ← declaredSize (f.firstByte::
          (maskFlag (cfg.role == .server) ||| UInt8.ofNat short)::rest) short with
      | none => .ok none
      | some (headerSize,payloadSize) =>
        checkHeader cfg ⟨f.final,f.kind.opcode,headerSize,payloadSize⟩) := by
  obtain ⟨hreserved,hfin,hopcode⟩ := f.kind.firstByte_bits f.final
  obtain ⟨hmasked,hval⟩ := second_byte (cfg.role == .server) short hsh
  rw [firstByte,parseHeader,if_neg (by simp [hreserved]),if_neg (by simp [hmasked]),hval,hfin,hopcode]

theorem parseHeader_header (h : f.Sendable cfg) (rest : Bytes) :
    parseHeader cfg (f.header cfg.role++rest) =
      if 2^63 ≤ f.payload.length then .error (.invalidArgument "WebSocket length is invalid")
      else checkHeader cfg (f.parsed cfg.role) := by
  have hlt := length_lt h
  unfold parsed header sizeBytes
  by_cases h125 : f.payload.length ≤ 125
  · rw [if_pos h125,if_neg (by omega),cons_append,cons_append,
      parseHeader_second _ (by omega),declaredSize,if_neg (by omega),if_neg (by omega)]
    rfl
  by_cases h16 : f.payload.length ≤ 0xffff
  · rw [if_neg h125,if_pos h16,if_neg (by omega)]
    refine (parseHeader_second 126 (by omega) _).trans ?_
    have hvalue := ofBigEndian_of_lt (w := 2) (n := f.payload.length) (by omega)
    rw [declaredSize,if_pos rfl,if_neg (by simp)]
    simp [hvalue,bigEndian_length]
  · rw [if_neg h125,if_neg h16,cons_append,cons_append]
    refine (parseHeader_second 127 (by omega) _).trans ?_
    have hvalue := ofBigEndian_of_lt (w := 8) (n := f.payload.length) (by omega)
    rw [declaredSize,if_neg (by omega),if_pos rfl,if_neg (by simp)]
    simp only [drop_succ_cons,drop_zero,take_left' (bigEndian_length 8 _),hvalue]
    split_ifs <;> rfl

theorem parseHeader_unfinished {part rest : Bytes} (h : part++rest = f.header cfg.role)
    (hrest : rest ≠ []) : parseHeader cfg part = .ok none := by
  match part with
  | [] => rfl
  | [_] => rfl
  | first::second::tail =>
    have hpos : 0 < rest.length := length_pos_iff.mpr hrest
    have hlong (short width : ℕ) {n : ℕ} (hsh : short < 128)
        (hnone : ∀ bytes : Bytes, bytes.length < 2+width → declaredSize bytes short = .ok none)
        (h : first::second::tail++rest = f.firstByte::
          (maskFlag (cfg.role == .server) ||| UInt8.ofNat short)::bigEndian width n) :
        parseHeader cfg (first::second::tail) = .ok none := by
      simp only [cons_append,List.cons.injEq] at h
      obtain ⟨rfl,rfl,htail⟩ := h
      have hlen := congrArg List.length htail
      rw [length_append,bigEndian_length] at hlen
      rw [parseHeader_second short hsh,hnone _ (by simp only [length_cons]; omega)]
      rfl
    unfold header sizeBytes at h
    split_ifs at h with h125 h16
    · simp only [cons_append,List.cons.injEq,append_eq_nil_iff] at h
      exact absurd h.2.2.2 hrest
    · refine hlong 126 2 (by omega) (fun bytes hbytes => ?_) h
      rw [declaredSize,if_pos rfl,if_pos (by omega)]
    · refine hlong 127 8 (by omega) (fun bytes hbytes => ?_) h
      rw [declaredSize,if_neg (by omega),if_pos rfl,if_pos (by omega)]

/-- The bytes of the mask and of the payload. -/
def bodySize (role : Role) (f : Frame) : ℕ := (if role = .server then 4 else 0)+f.payload.length

@[simp] theorem length_body (role : Role) (f : Frame) : (f.body role).length = f.bodySize role := by
  cases role <;> simp [body,bodySize,Mask.bytes]
  omega

variable {p : Parser}

/-- A frame that is there to its end is taken out of the buffer, whether or not it is all
that the buffer holds. -/
theorem takePayload_eq {tail : Bytes} (h : p.input.drop p.consumed = f.bytes cfg.role++tail) :
    ∃ input consumed, takePayload cfg p (f.parsed cfg.role) = (f.payload,input,consumed) ∧
      input.drop consumed = tail := by
  set maskSize := if cfg.role = .server then 4 else 0 with hmaskSize
  set masked := if cfg.role = .server then maskInPlace f.mask f.payload else f.payload with hmasked
  have hbody : p.input.drop (p.consumed+(f.header cfg.role).length) = f.body cfg.role++tail := by
    rw [← drop_drop,h,bytes_eq,append_assoc,drop_left]
  have hpay : p.input.drop (p.consumed+(f.header cfg.role).length+maskSize) =
      masked++tail := by
    rw [← drop_drop,hbody]
    cases hrole : cfg.role <;> simp [hmaskSize,hmasked,hrole,body,Mask.bytes]
  have hlen : masked.length = f.payload.length := by
    rw [hmasked]
    split_ifs <;> simp
  have hfull : p.input.drop (p.consumed+((f.header cfg.role).length+maskSize+f.payload.length)) =
      tail := by
    rw [← Nat.add_assoc,← Nat.add_assoc,← drop_drop,hpay,← hlen,drop_left]
  have hunmask : (if cfg.role = .server then
      maskInPlace (Mask.read (p.input.drop (p.consumed+(f.header cfg.role).length))) masked
      else masked) = f.payload := by
    rw [hbody]
    cases hrole : cfg.role with
    | client => simp [hmasked,hrole]
    | server =>
      rw [hmasked,if_pos hrole]
      exact maskInPlace_maskInPlace f.mask f.payload
  unfold takePayload
  simp only [parsed,← hmaskSize]
  by_cases htak : p.consumed = 0 ∧
      p.consumed+(f.header cfg.role).length+maskSize+f.payload.length = p.input.length
  · have htail : tail = [] := by
      rw [← hfull,drop_eq_nil_of_le (by omega)]
    refine ⟨[],0,?_,htail.symm⟩
    rw [if_pos htak,hpay,htail,append_nil,hunmask]
  · refine ⟨p.input,_,?_,hfull⟩
    rw [if_neg htak,hpay,take_left' hlen,hunmask]

/-- A whole frame that fits is handed to its handler. -/
theorem parseFrame_of_fits {tail : Bytes} (hsend : f.Sendable cfg) (hfits : f.Fits cfg)
    (h : p.input.drop p.consumed = f.bytes cfg.role++tail) {assembly : Assembly} {action : Action}
    (hdisp : dispatch cfg p.assembly f.final f.kind.opcode f.payload = .ok (assembly,action)) :
    ∃ input consumed, input.drop consumed = tail ∧
      parseFrame cfg p = .ok (.frame ⟨input,consumed,assembly,p.actions.push action⟩) := by
  obtain ⟨input,consumed,htake,htail⟩ := takePayload_eq h
  have hhdr : parseHeader cfg (p.input.drop p.consumed) = .ok (some (f.parsed cfg.role)) := by
    rw [h,bytes_eq,append_assoc,parseHeader_header hsend,if_neg (not_le.mpr hfits.2),
      checkHeader_parsed hsend hfits]
  have henough : ¬ (p.input.drop p.consumed).length < (f.parsed cfg.role).headerSize+
      (if cfg.role = .server then 4 else 0)+(f.parsed cfg.role).payloadSize := by
    rw [h,bytes_eq,length_append,length_append,length_body,bodySize,parsed]
    simp only
    omega
  have hdisp : dispatch cfg p.assembly (f.parsed cfg.role).final (f.parsed cfg.role).opcode
      f.payload = .ok (assembly,action) := hdisp
  have hopcode : (f.parsed cfg.role).opcode ≠ kClose := by
    change f.kind.opcode ≠ _
    cases f.kind <;> decide
  refine ⟨input,consumed,htail,?_⟩
  simp only [parseFrame,hhdr,ok_bind,if_neg henough,htake,hdisp,if_neg hopcode]
  rfl

/-- A frame that does not fit is refused as soon as its header is there. -/
theorem parseFrame_of_not_fits {rest : Bytes} (hsend : f.Sendable cfg)
    (hfits : ¬ f.Fits cfg) (h : p.input.drop p.consumed = f.header cfg.role++rest) :
    ∃ e, parseFrame cfg p = .error e := by
  have hhdr : ∃ e, parseHeader cfg (p.input.drop p.consumed) = .error e := by
    rw [h,parseHeader_header hsend]
    by_cases hbig : 2^63 ≤ f.payload.length
    · exact ⟨_,if_pos hbig⟩
    · rw [if_neg hbig]
      refine ⟨_,if_pos ?_⟩
      by_contra hle
      exact hfits ⟨not_lt.mp hle,not_le.mp hbig⟩
  obtain ⟨e,hhdr⟩ := hhdr
  exact ⟨e,by simp only [parseFrame,hhdr,error_bind]⟩

/-- The beginning of a frame is left in the buffer, unless the frame does not fit. -/
theorem parseFrame_unfinished {rest : Bytes} (hsend : f.Sendable cfg)
    (h : p.input.drop p.consumed++rest = f.bytes cfg.role) (hrest : rest ≠ []) :
    parseFrame cfg p = .ok .incomplete ∨ ¬ f.Fits cfg ∧ ∃ e, parseFrame cfg p = .error e := by
  have hpos : 0 < rest.length := length_pos_iff.mpr hrest
  rw [bytes_eq] at h
  have hlen := congrArg List.length h
  simp only [length_append,length_body] at hlen
  rcases arrived_cases h with ⟨more,hmore,hhdr,-⟩ | ⟨more,hpart,-⟩
  · left
    simp only [parseFrame,parseHeader_unfinished hhdr hmore,ok_bind]
  by_cases hfits : f.Fits cfg
  · left
    have hhdr : parseHeader cfg (p.input.drop p.consumed) = .ok (some (f.parsed cfg.role)) := by
      rw [hpart,parseHeader_header hsend,if_neg (not_le.mpr hfits.2),checkHeader_parsed hsend hfits]
    have hmiss : (p.input.drop p.consumed).length < (f.parsed cfg.role).headerSize+
        (if cfg.role = .server then 4 else 0)+(f.parsed cfg.role).payloadSize := by
      simp only [parsed]
      unfold bodySize at hlen
      omega
    simp only [parseFrame,hhdr,ok_bind,if_pos hmiss]
  · exact .inr ⟨hfits,parseFrame_of_not_fits hsend hfits hpart⟩

end Frame

end A11.WebSocket
