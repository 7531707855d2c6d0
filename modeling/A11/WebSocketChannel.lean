import A11.WebSocketFrames

/-! A WebSocket channel over an HTTP/2 stream: what it delivers and what it answers depends on
the bytes of the stream, as long as no read makes its buffer longer than one frame may be. -/
namespace A11.WebSocket
open List Frame Action

/-! ### The channel -/

structure Channel where
  input : Bytes := []
  assembly : Assembly := {}
  closeSent : Bool := false
  closed : Bool := false
  /-- The error the channel has reported. -/
  status : Option Status := none
  finished : Bool := false
  delivered : List Bytes := []
  written : List Bytes := []
  deriving DecidableEq

namespace Channel

def writeFrame (cfg : Config) (c : Channel) (opcode : UInt8) (payload : Bytes) : Channel :=
  let frame := WebSocket.writeFrame cfg.role (cfg.randomUint64 c.written.length) opcode payload
  { c with written := c.written++[frame] }

def finishClose (cfg : Config) (c : Channel) (payload : Bytes) : Channel :=
  let replied := if c.closeSent then c else c.writeFrame cfg kClose payload
  { replied with closeSent := true, finished := true, closed := true }

def consume (cfg : Config) (c : Channel) (data : Bytes) : StatusOr Channel :=
  if c.closed then .ok c
  else if cfg.bufferBound < c.input.length+data.length then
    .error (.resourceExhausted "Buffered WebSocket frame exceeds max_message_size")
  else do
    let p ← parseFrames cfg (if c.input = [] then data else c.input++data) c.assembly
    let parsed := { c with input := p.input, assembly := p.assembly }
    let answered := p.actions.pongs.foldl (fun c pong => c.writeFrame cfg kPong pong) parsed
    let delivered := { answered with delivered := answered.delivered++p.actions.messages }
    return match p.actions.close with
      | none => delivered
      | some payload => delivered.finishClose cfg payload

def fail (c : Channel) (s : Status) : Channel := { c with closed := true, status := some s }

/-- One turn of the reader. -/
def receive (cfg : Config) (c : Channel) (data : Bytes) : Channel :=
  match c.consume cfg data with
  | .ok next => next
  | .error s => c.fail s

end Channel

def run (cfg : Config) (reads : List Bytes) : Channel := reads.foldl (Channel.receive cfg) {}

/-! ### What a conforming peer sends -/

inductive Control
  | ping (mask : Mask) (payload : Bytes)
  | pong (mask : Mask) (payload : Bytes)
  deriving DecidableEq

namespace Control

def payload : Control → Bytes
  | ping _ payload => payload
  | pong _ payload => payload

def frame : Control → Frame
  | ping mask payload => ⟨.ping,true,mask,payload⟩
  | pong mask payload => ⟨.pong,true,mask,payload⟩

def pings : Control → List Bytes
  | ping _ payload => [payload]
  | pong _ _ => []

end Control

/-- A further part of a message, and the control frames in front of it. -/
structure Fragment where
  controls : List Control
  mask : Mask
  payload : Bytes
  deriving DecidableEq

def continuations : List Fragment → List Frame
  | [] => []
  | g::gs => g.controls.map Control.frame++
      ⟨.continuation,gs.isEmpty,g.mask,g.payload⟩::continuations gs

inductive Sent
  /-- A message that the other endpoint writes with the masking key it has drawn. -/
  | written (key : UInt64) (payload : Bytes)
  | fragmented (mask : Mask) (first : Bytes) (rest : List Fragment)
  | control (c : Control)
  deriving DecidableEq

namespace Sent

def frames : Sent → List Frame
  | written key payload => [⟨.binary,true,Mask.ofKey key.toUInt32,payload⟩]
  | fragmented mask first rest => ⟨.binary,rest.isEmpty,mask,first⟩::continuations rest
  | control c => [c.frame]

/-- The bytes that reach an endpoint of the given role. -/
def bytes (role : Role) : Sent → Bytes
  | written key payload => writeFrame role.opposite key kBinary payload
  | sent => sent.frames.flatMap (Frame.bytes role)

theorem bytes_eq (role : Role) (sent : Sent) :
    sent.bytes role = sent.frames.flatMap (Frame.bytes role) := by
  cases sent with
  | written key payload =>
    rw [frames,flatMap_singleton]
    cases role <;> rfl
  | _ => rfl

def messages : Sent → List Bytes
  | written _ payload => [payload]
  | fragmented _ first rest => [first++rest.flatMap Fragment.payload]
  | control _ => []

def controls : Sent → List Control
  | written _ _ => []
  | fragmented _ _ rest => rest.flatMap Fragment.controls
  | control c => [c]

def pings (sent : Sent) : List Bytes := sent.controls.flatMap Control.pings

/-- Messages are within the limit and control frames are short. -/
structure Valid (cfg : Config) (sent : Sent) : Prop where
  messages : ∀ m ∈ sent.messages, m.length ≤ cfg.limit
  controls : ∀ c ∈ sent.controls, c.payload.length ≤ 125

end Sent

/-! ### The frames one after another -/

def dispatchAll (cfg : Config) : Assembly → List Frame → StatusOr (Assembly × List Action)
  | s, [] => .ok (s,[])
  | s, f::fs => do
    let (s,action) ← dispatch cfg s f.final f.kind.opcode f.payload
    let (s,actions) ← dispatchAll cfg s fs
    return (s,action::actions)

def Action.messages : Action → List Bytes
  | message payload => [payload]
  | _ => []

def Action.pongs : Action → List Bytes
  | pong payload => [payload]
  | _ => []

section Dispatch

variable {cfg : Config} {s middle result : Assembly} {actions : List Action}

theorem dispatchAll_cons {f : Frame} {fs : List Frame} :
    dispatchAll cfg s (f::fs) = .ok (result,actions) ↔ ∃ middle action more,
      dispatch cfg s f.final f.kind.opcode f.payload = .ok (middle,action) ∧
      dispatchAll cfg middle fs = .ok (result,more) ∧ actions = action::more := by
  constructor
  · intro h
    obtain ⟨⟨middle,action⟩,hdisp,h⟩ := StatusOr.bind_eq_ok.mp h
    obtain ⟨⟨_,more⟩,hrest,h⟩ := StatusOr.bind_eq_ok.mp h
    cases h
    exact ⟨middle,action,more,hdisp,hrest,rfl⟩
  · rintro ⟨middle,action,more,hdisp,hrest,rfl⟩
    simp [dispatchAll,hdisp,hrest]

theorem dispatchAll_append {before after : List Frame} :
    dispatchAll cfg s (before++after) = .ok (result,actions) ↔ ∃ middle first second,
      dispatchAll cfg s before = .ok (middle,first) ∧
      dispatchAll cfg middle after = .ok (result,second) ∧ actions = first++second := by
  induction before generalizing s actions with
  | nil =>
    constructor
    · intro h
      exact ⟨s,[],actions,rfl,h,rfl⟩
    · rintro ⟨middle,first,second,hfst,hsec,rfl⟩
      cases hfst
      exact hsec
  | cons f fs ih =>
    rw [cons_append,dispatchAll_cons]
    constructor
    · rintro ⟨next,action,more,hdisp,hrest,rfl⟩
      obtain ⟨middle,first,second,hfst,hsec,rfl⟩ := ih.mp hrest
      exact ⟨middle,action::first,second,dispatchAll_cons.mpr ⟨_,_,_,hdisp,hfst,rfl⟩,hsec,rfl⟩
    · rintro ⟨middle,first,second,hfst,hsec,rfl⟩
      obtain ⟨next,action,more,hdisp,hrest,rfl⟩ := dispatchAll_cons.mp hfst
      exact ⟨next,action,_,hdisp,ih.mpr ⟨_,_,_,hrest,hsec,rfl⟩,rfl⟩

theorem dispatch_ne_close {f : Frame} {payload : Bytes}
    (h : dispatch cfg s f.final f.kind.opcode f.payload = .ok (result,.close payload)) : False := by
  unfold dispatch at h
  cases hkind : f.kind <;> simp [hkind,Kind.opcode,kPing,kPong,kClose,kText,kBinary,
    kContinuation] at h <;> split_ifs at h <;> simp at h

theorem dispatchAll_close {frames : List Frame}
    (h : dispatchAll cfg s frames = .ok (result,actions)) (payload : Bytes) :
    .close payload ∉ actions := by
  induction frames generalizing s actions with
  | nil =>
    cases h
    simp
  | cons f fs ih =>
    obtain ⟨_,_,_,hdisp,hrest,rfl⟩ := dispatchAll_cons.mp h
    rw [mem_cons,not_or]
    refine ⟨?_,ih hrest⟩
    rintro rfl
    exact dispatch_ne_close hdisp

/-- The frames leave `result` behind, with the given messages and pongs. -/
def Handled (cfg : Config) (s : Assembly) (frames : List Frame) (result : Assembly)
    (messages pongs : List Bytes) : Prop :=
  ∃ actions, dispatchAll cfg s frames = .ok (result,actions) ∧
    actions.flatMap Action.messages = messages ∧ actions.flatMap Action.pongs = pongs

theorem Handled.nil (s : Assembly) : Handled cfg s [] s [] [] := ⟨[],rfl,rfl,rfl⟩

theorem Handled.append {before after : List Frame} {messages pongs messages' pongs' : List Bytes}
    (hbef : Handled cfg s before middle messages pongs)
    (hafter : Handled cfg middle after result messages' pongs') :
    Handled cfg s (before++after) result (messages++messages') (pongs++pongs') := by
  obtain ⟨first,hfst,rfl,rfl⟩ := hbef
  obtain ⟨second,hsec,rfl,rfl⟩ := hafter
  exact ⟨first++second,dispatchAll_append.mpr ⟨_,_,_,hfst,hsec,rfl⟩,flatMap_append,
    flatMap_append⟩

theorem Handled.single {f : Frame} (action : Action)
    (h : dispatch cfg s f.final f.kind.opcode f.payload = .ok (result,action)) :
    Handled cfg s [f] result action.messages action.pongs :=
  ⟨[action],dispatchAll_cons.mpr ⟨_,_,_,h,rfl,rfl⟩,by simp,by simp⟩

theorem handled_controls (s : Assembly) (controls : List Control) :
    Handled cfg s (controls.map Control.frame) s [] (controls.flatMap Control.pings) := by
  induction controls with
  | nil => exact .nil s
  | cons c controls ih =>
    have hone : Handled cfg s [c.frame] s [] c.pings := by
      cases c with
      | ping mask payload => exact .single (.pong payload) rfl
      | pong mask payload => exact .single .nothing rfl
    exact hone.append ih

theorem handled_continuations {opcode : UInt8} {gathered : Bytes} {rest : List Fragment}
    (hrest : rest ≠ []) (hlim : (gathered++rest.flatMap Fragment.payload).length ≤ cfg.limit) :
    Handled cfg ⟨some opcode,gathered⟩ (continuations rest) {}
      [gathered++rest.flatMap Fragment.payload]
      ((rest.flatMap Fragment.controls).flatMap Control.pings) := by
  induction rest generalizing gathered with
  | nil => exact absurd rfl hrest
  | cons g gs ih =>
    have hctl : Handled cfg ⟨some opcode,gathered⟩ (g.controls.map Control.frame)
        ⟨some opcode,gathered⟩ [] (g.controls.flatMap Control.pings) := handled_controls _ _
    rw [flatMap_cons,← append_assoc] at hlim
    have hfits : ¬ cfg.limit < gathered.length+g.payload.length := by
      simp only [length_append] at hlim
      omega
    rw [flatMap_cons,flatMap_cons,flatMap_append,← append_assoc]
    cases gs with
    | nil =>
      have hlast : dispatch cfg ⟨some opcode,gathered⟩ true kContinuation g.payload =
          .ok ({},.message (gathered++g.payload)) := by
        simp [dispatch,hfits,kPing,kPong,kClose,kText,kBinary,kContinuation]
      have hone := Handled.single (f := ⟨.continuation,true,g.mask,g.payload⟩) _ hlast
      simpa [continuations,messages,pongs] using hctl.append hone
    | cons g' gs =>
      have hnext : dispatch cfg ⟨some opcode,gathered⟩ false kContinuation g.payload =
          .ok (⟨some opcode,gathered++g.payload⟩,.nothing) := by
        simp [dispatch,hfits,kPing,kPong,kClose,kText,kBinary,kContinuation]
      have hone := Handled.single (f := ⟨.continuation,false,g.mask,g.payload⟩) _ hnext
      exact hctl.append (hone.append (ih (by simp) hlim))

theorem handled_sent {sent : Sent} (h : sent.Valid cfg) :
    Handled cfg {} sent.frames {} sent.messages sent.pings := by
  cases sent with
  | written key payload => exact .single (.message payload) rfl
  | control c => exact handled_controls {} [c]
  | fragmented mask first rest =>
    cases rest with
    | nil =>
      have hone : Handled cfg {} [⟨.binary,true,mask,first⟩] {} [first] [] :=
        .single (.message first) rfl
      simpa [Sent.frames,continuations,Sent.messages,Sent.pings,Sent.controls] using hone
    | cons g gs =>
      have hfst : Handled cfg {} [⟨.binary,false,mask,first⟩] ⟨some kBinary,first⟩ [] [] :=
        .single .nothing rfl
      have hlim := h.messages _ (mem_singleton_self _)
      exact hfst.append (handled_continuations (cons_ne_nil g gs) hlim)

theorem handled_all {sent : List Sent} (h : ∀ s ∈ sent, s.Valid cfg) :
    Handled cfg {} (sent.flatMap Sent.frames) {} (sent.flatMap Sent.messages)
      (sent.flatMap Sent.pings) := by
  induction sent with
  | nil => exact .nil _
  | cons s sent ih =>
    exact (handled_sent (h s (by simp))).append (ih fun s hs => h s (by simp [hs]))

end Dispatch

/-! ### The parsing loop -/

/-- Bytes that end inside the next frame. -/
def Unfinished (role : Role) (part : Bytes) : List Frame → Prop
  | [] => part = []
  | f::_ => ∃ rest, rest ≠ [] ∧ part++rest = f.bytes role

section Parsing

variable {cfg : Config}

theorem Frame.length_bytes_pos (role : Role) (f : Frame) : 0 < (f.bytes role).length := by
  rw [bytes_eq,length_append,header,length_cons]
  omega

/-- What the loop makes of a buffer that holds the beginning of a list of frames: it handles
the whole frames and keeps the rest, or it meets a frame that does not fit. -/
theorem parseLoop_frames {frames : List Frame} (hsend : ∀ f ∈ frames, f.Sendable cfg)
    {p : Parser} {result : Assembly} {actions : List Action}
    (hdisp : dispatchAll cfg p.assembly frames = .ok (result,actions)) {future : Bytes}
    (h : p.input.drop p.consumed++future = frames.flatMap (bytes cfg.role)) {turns : ℕ}
    (hturns : (p.input.drop p.consumed).length < turns) :
    (∃ e, parseLoop cfg turns p = .error e ∧ ∃ f ∈ frames, ¬ f.Fits cfg) ∨
      ∃ done todo next acted, frames = done++todo ∧ (∀ f ∈ done, f.Fits cfg) ∧
        parseLoop cfg turns p = .ok next ∧
        dispatchAll cfg p.assembly done = .ok (next.assembly,acted) ∧
        next.actions = acted.foldl ParsedActions.push p.actions ∧ p.input.drop p.consumed =
          done.flatMap (bytes cfg.role)++next.input.drop next.consumed ∧
        Unfinished cfg.role (next.input.drop next.consumed) todo := by
  obtain ⟨turns,rfl⟩ : ∃ n, turns = n+1 := ⟨turns-1,by omega⟩
  induction frames generalizing p turns actions with
  | nil =>
    have hnil : p.input.drop p.consumed = [] := by
      rw [flatMap_nil,append_eq_nil_iff] at h
      exact h.1
    refine .inr ⟨[],[],p,[],rfl,by simp,?_,rfl,rfl,rfl,hnil⟩
    simp [parseLoop,parseFrame,hnil,parseHeader]
  | cons f fs ih =>
    have hf := hsend f (by simp)
    have hstopped : parseFrame cfg p = .ok .incomplete → parseLoop cfg (turns+1) p = .ok p := by
      intro hstep
      simp only [parseLoop,hstep,ok_bind]
    have hfail : ∀ e, parseFrame cfg p = .error e → parseLoop cfg (turns+1) p = .error e := by
      intro e hstep
      simp only [parseLoop,hstep,error_bind]
    rcases arrived_cases h with ⟨rest,hrest,hpart,-⟩ | ⟨_,hpart,htail⟩
    · rcases parseFrame_unfinished hf hpart hrest with hstep | ⟨hfits,e,hstep⟩
      · exact .inr ⟨[],f::fs,p,[],rfl,by simp,hstopped hstep,rfl,rfl,rfl,rest,hrest,hpart⟩
      · exact .inl ⟨e,hfail e hstep,f,by simp,hfits⟩
    · by_cases hfits : f.Fits cfg
      · obtain ⟨middle,action,_,hone,hmore,rfl⟩ := dispatchAll_cons.mp hdisp
        obtain ⟨input,consumed,hinput,hstep⟩ := parseFrame_of_fits hf hfits hpart hone
        have hlen := congrArg List.length hpart
        have hpos := f.length_bytes_pos cfg.role
        rw [length_append] at hlen
        obtain ⟨turns,rfl⟩ : ∃ n, turns = n+1 := ⟨turns-1,by omega⟩
        have hloop : parseLoop cfg (turns+1+1) p =
            parseLoop cfg (turns+1) ⟨input,consumed,middle,p.actions.push action⟩ := by
          rw [parseLoop]
          simp only [hstep,ok_bind]
        have hrest := ih (fun f hf => hsend f (by simp [hf]))
          (p := ⟨input,consumed,middle,p.actions.push action⟩) hmore (by rw [hinput]; exact htail)
          turns (by simp only [hinput]; omega)
        simp only [hinput] at hrest
        rw [hloop]
        rcases hrest with ⟨e,herr,g,hg,hbad⟩ |
          ⟨done,todo,next,acted,hspl,hdone,hnext,hacted,hact,hbytes,hunf⟩
        · exact .inl ⟨e,herr,g,by simp [hg],hbad⟩
        refine .inr ⟨f::done,todo,next,action::acted,?_,?_,hnext,?_,hact,?_,hunf⟩
        · rw [hspl,cons_append]
        · simpa using ⟨hfits,hdone⟩
        · exact dispatchAll_cons.mpr ⟨_,_,_,hone,hacted,rfl⟩
        · rw [hpart,hbytes,flatMap_cons,append_assoc]
      · rw [bytes_eq,append_assoc] at hpart
        obtain ⟨e,hstep⟩ := parseFrame_of_not_fits hf hfits hpart
        exact .inl ⟨e,hfail e hstep,f,by simp,hfits⟩

end Parsing

/-! ### Reads -/

/-- The bytes that are left of the first `n` when the whole frames are taken out. -/
def pending : List ℕ → ℕ → ℕ
  | [], n => n
  | size::sizes, n => if n < size then n else pending sizes (n-size)

/-- At every read, what is left of the earlier reads and the new bytes are within `bound`. -/
def Guarded (bound : ℕ) (sizes : List ℕ) : ℕ → List Bytes → Prop
  | _, [] => True
  | got, data::reads => pending sizes got+data.length ≤ bound ∧
      Guarded bound sizes (got+data.length) reads

instance (bound : ℕ) (sizes : List ℕ) : ∀ got reads, Decidable (Guarded bound sizes got reads)
  | _, [] => isTrue trivial
  | got, data::reads =>
    have : Decidable (Guarded bound sizes (got+data.length) reads) :=
      instDecidableGuarded bound sizes (got+data.length) reads
    inferInstanceAs (Decidable (_ ∧ _))

/-- The pongs for a list of pings, with the keys drawn from number `n` on. -/
def answers (cfg : Config) : ℕ → List Bytes → List Bytes
  | _, [] => []
  | n, ping::pings =>
    writeFrame cfg.role (cfg.randomUint64 n) kPong ping::answers cfg (n+1) pings

section Reads

variable {cfg : Config}

theorem pending_append (sizes more : List ℕ) (n : ℕ) :
    pending (sizes++more) (sizes.sum+n) = pending more n := by
  induction sizes with
  | nil => simp
  | cons size sizes ih =>
    rw [cons_append,pending,sum_cons,if_neg (by omega),
      show size+sizes.sum+n-size = sizes.sum+n by omega,ih]

theorem guarded_append {bound : ℕ} (sizes more : List ℕ) (n : ℕ) (reads : List Bytes) :
    Guarded bound (sizes++more) (sizes.sum+n) reads ↔ Guarded bound more n reads := by
  induction reads generalizing n with
  | nil => rfl
  | cons data reads ih => rw [Guarded,Guarded,pending_append,Nat.add_assoc,ih]

def sizes (role : Role) (frames : List Frame) : List ℕ := frames.map fun f => (f.bytes role).length

theorem sizes_append (role : Role) (frames more : List Frame) :
    sizes role (frames++more) = sizes role frames++sizes role more := map_append

theorem length_flatMap_bytes (role : Role) (frames : List Frame) :
    (frames.flatMap (bytes role)).length = (sizes role frames).sum := by
  rw [length_flatMap]
  rfl

theorem pending_unfinished {role : Role} {part : Bytes} {todo : List Frame}
    (h : Unfinished role part todo) : pending (sizes role todo) part.length = part.length := by
  cases todo with
  | nil => rfl
  | cons f fs =>
    obtain ⟨rest,hrest,hpart⟩ := h
    have hpos : 0 < rest.length := length_pos_iff.mpr hrest
    rw [sizes,map_cons,pending,if_pos]
    rw [← hpart,length_append]
    omega

theorem answers_append (n : ℕ) (pings more : List Bytes) :
    answers cfg n (pings++more) = answers cfg n pings++answers cfg (n+pings.length) more := by
  induction pings generalizing n with
  | nil => rfl
  | cons ping pings ih =>
    rw [cons_append,answers,answers,ih,length_cons,cons_append,
      show n+1+pings.length = n+(pings.length+1) by omega]

theorem length_answers (n : ℕ) (pings : List Bytes) : (answers cfg n pings).length = pings.length := by
  induction pings generalizing n with
  | nil => rfl
  | cons ping pings ih => rw [answers,length_cons,ih,length_cons]

theorem foldl_writeFrame (c : Channel) (pongs : List Bytes) :
    pongs.foldl (fun c pong => c.writeFrame cfg kPong pong) c =
      { c with written := c.written++answers cfg c.written.length pongs } := by
  induction pongs generalizing c with
  | nil => simp [answers]
  | cons pong pongs ih =>
    rw [foldl_cons,ih]
    simp [Channel.writeFrame,answers]

/-- Pushing actions one after another collects them by kind. -/
theorem foldl_push (actions : List Action) (start : ParsedActions) :
    (actions.foldl ParsedActions.push start).messages =
        start.messages++actions.flatMap messages ∧
      (actions.foldl ParsedActions.push start).pongs = start.pongs++actions.flatMap pongs ∧
      ((∀ payload, .close payload ∉ actions) →
        (actions.foldl ParsedActions.push start).close = start.close) := by
  induction actions generalizing start with
  | nil => simp
  | cons action actions ih =>
    obtain ⟨hmsg,hpongs,hcl⟩ := ih (start.push action)
    rw [foldl_cons,hmsg,hpongs]
    cases action with
    | close payload => refine ⟨rfl,rfl,fun h => absurd (mem_cons_self) (h payload)⟩
    | _ =>
      refine ⟨by simp [ParsedActions.push,messages],
        by simp [ParsedActions.push,pongs],fun h => ?_⟩
      exact hcl fun payload hmem => h payload (mem_cons_of_mem _ hmem)

variable {c : Channel}

theorem foldl_receive_failed {s : Status} (reads : List Bytes) (hcls : c.closed = true)
    (hstat : c.status = some s) : (reads.foldl (Channel.receive cfg) c).status = some s := by
  induction reads with
  | nil => exact hstat
  | cons data reads ih =>
    rw [foldl_cons,Channel.receive,Channel.consume,if_pos hcls]
    exact ih

/-- A read within the bound: the whole frames are handled and the rest is kept, or a frame
does not fit. -/
theorem consume_frames {data future : Bytes} {frames : List Frame}
    (hsend : ∀ f ∈ frames, f.Sendable cfg) {result : Assembly} {actions : List Action}
    (hdisp : dispatchAll cfg c.assembly frames = .ok (result,actions))
    (hopen : c.closed = false) (hbound : c.input.length+data.length ≤ cfg.bufferBound)
    (h : c.input++data++future = frames.flatMap (bytes cfg.role)) :
    (∃ e, c.consume cfg data = .error e ∧ ∃ f ∈ frames, ¬ f.Fits cfg) ∨
      ∃ done todo input assembly acted, frames = done++todo ∧ (∀ f ∈ done, f.Fits cfg) ∧
        dispatchAll cfg c.assembly done = .ok (assembly,acted) ∧
        c.input++data = done.flatMap (bytes cfg.role)++input ∧
        Unfinished cfg.role input todo ∧
        c.consume cfg data = .ok { c with
          input, assembly
          delivered := c.delivered++acted.flatMap messages
          written := c.written++answers cfg c.written.length (acted.flatMap pongs) } := by
  have hinput : (if c.input = [] then data else c.input++data) = c.input++data := by
    split_ifs with hnil
    · rw [hnil,nil_append]
    · rfl
  rw [Channel.consume,if_neg (by simp [hopen]),if_neg (not_lt.mpr hbound),hinput]
  rcases parseLoop_frames hsend (p := { input := c.input++data, assembly := c.assembly })
      hdisp h (Nat.lt_succ_self _) with
    ⟨e,herr,hbad⟩ | ⟨done,todo,next,acted,hspl,hfits,hnext,hacted,hact,hbytes,hunf⟩
  · refine .inl ⟨e,?_,hbad⟩
    simp only [parseFrames,drop_zero] at herr ⊢
    simp only [herr,error_bind]
  obtain ⟨hmsg,hpongs,hcl⟩ := foldl_push acted {}
  rw [← hact] at hmsg hpongs hcl
  have hnone : next.actions.close = none := hcl (dispatchAll_close hacted)
  refine .inr ⟨done,todo,_,_,acted,hspl,hfits,hacted,hbytes,hunf,?_⟩
  simp only [parseFrames,drop_zero] at hnext ⊢
  simp only [hnext,ok_bind,pure_eq_ok,hnone,foldl_writeFrame,hmsg,hpongs,nil_append]

/-- Whatever the reads: no error is reported exactly when every frame fits and every read is
within the bound, and then the frames have been handled one after another. -/
theorem foldl_receive {reads : List Bytes} {frames : List Frame}
    (hsend : ∀ f ∈ frames, f.Sendable cfg) {result : Assembly} {actions : List Action}
    (hdisp : dispatchAll cfg c.assembly frames = .ok (result,actions))
    (hopen : c.closed = false) (hstat : c.status = none) (hunf : Unfinished cfg.role c.input frames)
    (h : c.input++reads.flatten = frames.flatMap (bytes cfg.role)) :
    ((reads.foldl (Channel.receive cfg) c).status = none ↔ (∀ f ∈ frames, f.Fits cfg) ∧
      Guarded cfg.bufferBound (sizes cfg.role frames) c.input.length reads) ∧
    ((reads.foldl (Channel.receive cfg) c).status = none →
      (reads.foldl (Channel.receive cfg) c).delivered =
          c.delivered++actions.flatMap messages ∧
        (reads.foldl (Channel.receive cfg) c).written =
          c.written++answers cfg c.written.length (actions.flatMap pongs)) := by
  induction reads generalizing c frames actions with
  | nil =>
    cases frames with
    | nil =>
      cases hdisp
      simp [Guarded,hstat,answers]
    | cons f fs =>
      obtain ⟨rest,hrest,hpart⟩ := hunf
      have hlen := congrArg List.length h
      have hsh := congrArg List.length hpart
      have hpos : 0 < rest.length := length_pos_iff.mpr hrest
      simp only [flatten_nil,append_nil,flatMap_cons,length_append] at hlen hsh
      omega
  | cons data reads ih =>
    rw [flatten_cons,← append_assoc] at h
    have hfail : ∀ e, c.consume cfg data = .error e →
        ((data::reads).foldl (Channel.receive cfg) c).status = some e := by
      intro e herr
      rw [foldl_cons,Channel.receive,herr]
      exact foldl_receive_failed reads rfl rfl
    have hpend := pending_unfinished hunf
    by_cases hbound : c.input.length+data.length ≤ cfg.bufferBound
    · rcases consume_frames hsend hdisp hopen hbound h with ⟨e,herr,f,hf,hbad⟩ |
        ⟨done,todo,input,assembly,acted,rfl,hfits,hacted,hbytes,hrest,hconsume⟩
      · have hstat := hfail e herr
        simp only [hstat,reduceCtorEq,false_iff,false_imp_iff,and_true]
        exact fun hgood => hbad (hgood.1 f hf)
      obtain ⟨_,_,_,hfst,hsec,rfl⟩ := dispatchAll_append.mp hdisp
      rw [hacted] at hfst
      cases hfst
      have hfut : input++reads.flatten = todo.flatMap (bytes cfg.role) := by
        rw [hbytes,flatMap_append,append_assoc] at h
        exact append_cancel_left h
      have hlen := congrArg List.length hbytes
      rw [length_append,length_append,length_flatMap_bytes] at hlen
      rw [foldl_cons,Channel.receive,hconsume]
      obtain ⟨_,hres⟩ := ih (c := { c with
        input := input
        assembly := assembly
        delivered := c.delivered++acted.flatMap messages
        written := c.written++answers cfg c.written.length (acted.flatMap pongs) })
        (fun f hf => hsend f (by simp [hf])) hsec hopen hstat hrest hfut
      constructor
      · rw [Guarded,hpend,hlen,sizes_append,guarded_append,← hlen]
        simp only [forall_mem_append]
        tauto
      · intro hnone
        obtain ⟨hdel,hwr⟩ := hres hnone
        rw [hdel,hwr]
        simp [answers_append, length_answers]
    · have hstat := hfail _ (by
        rw [Channel.consume,if_neg (by simp [hopen]),if_pos (not_le.mp hbound)])
      simp only [hstat,reduceCtorEq,false_iff,false_imp_iff,and_true]
      rintro ⟨-,hguard,-⟩
      rw [hpend] at hguard
      exact hbound hguard

end Reads

section Delivery

variable {cfg : Config}

theorem Control.sendable {c : Control} (h : c.payload.length ≤ 125) : c.frame.Sendable cfg := by
  cases c with
  | ping mask payload | pong mask payload =>
    exact ⟨fun _ => ⟨rfl,h⟩,fun hdata => by simp [frame,Kind.isControl] at hdata⟩

theorem continuations_sendable {rest : List Fragment}
    (hmsg : (rest.flatMap Fragment.payload).length ≤ cfg.limit)
    (hctl : ∀ c ∈ rest.flatMap Fragment.controls, c.payload.length ≤ 125) :
    ∀ f ∈ continuations rest, f.Sendable cfg := by
  induction rest with
  | nil => simp [continuations]
  | cons g gs ih =>
    rw [flatMap_cons] at hmsg hctl
    rw [length_append] at hmsg
    intro f hf
    rcases mem_append.mp hf with hf | hf
    · obtain ⟨c,hc,rfl⟩ := mem_map.mp hf
      exact Control.sendable (hctl c (mem_append_left _ hc))
    · rcases mem_cons.mp hf with rfl | hf
      · exact ⟨fun hcontrol => by simp [Kind.isControl] at hcontrol,fun _ => by simp only; omega⟩
      · exact ih (by omega) (fun c hc => hctl c (mem_append_right _ hc)) f hf

theorem Sent.sendable {sent : Sent} (h : sent.Valid cfg) : ∀ f ∈ sent.frames, f.Sendable cfg := by
  have hdata : ∀ {final : Bool} {mask : Mask} {payload : Bytes}, payload.length ≤ cfg.limit →
      Sendable cfg ⟨.binary,final,mask,payload⟩ := fun hle =>
    ⟨fun hctl => by simp [Kind.isControl] at hctl,fun _ => hle⟩
  cases sent with
  | written key payload =>
    intro f hf
    obtain rfl := mem_singleton.mp hf
    exact hdata (h.messages payload (mem_singleton_self _))
  | control c =>
    intro f hf
    obtain rfl := mem_singleton.mp hf
    exact Control.sendable (h.controls c (mem_singleton_self _))
  | fragmented mask first rest =>
    have hmsg := h.messages _ (mem_singleton_self _)
    rw [length_append] at hmsg
    intro f hf
    rcases mem_cons.mp hf with rfl | hf
    · exact hdata (by omega)
    · exact continuations_sendable (by omega) h.controls f hf

/-- A list of messages, written whole or in fragments and with control frames in between,
arrives as it was sent and every ping is answered, exactly when every control frame is within
the limit and no read takes the buffer past the bound. -/
theorem delivered_iff (cfg : Config) (sent : List Sent) (reads : List Bytes)
    (hvalid : ∀ s ∈ sent, s.Valid cfg) (hreads : reads.flatten = sent.flatMap (Sent.bytes cfg.role)) :
    ((run cfg reads).delivered = sent.flatMap Sent.messages ∧
      (run cfg reads).written = answers cfg 0 (sent.flatMap Sent.pings) ∧
      (run cfg reads).status = none) ↔
    (∀ f ∈ sent.flatMap Sent.frames, f.Fits cfg) ∧
      Guarded cfg.bufferBound (sizes cfg.role (sent.flatMap Sent.frames)) 0 reads := by
  obtain ⟨_,hdisp,hmsg,hpongs⟩ := handled_all hvalid
  have hsend : ∀ f ∈ sent.flatMap Sent.frames, f.Sendable cfg := by
    intro f hf
    obtain ⟨s,hs,hf⟩ := mem_flatMap.mp hf
    exact Sent.sendable (hvalid s hs) f hf
  have hbytes : reads.flatten = (sent.flatMap Sent.frames).flatMap (bytes cfg.role) := by
    rw [hreads,flatMap_assoc]
    exact flatMap_congr fun s _ => s.bytes_eq cfg.role
  have hunf : Unfinished cfg.role [] (sent.flatMap Sent.frames) := by
    cases hframes : sent.flatMap Sent.frames with
    | nil => rfl
    | cons f fs => exact ⟨f.bytes cfg.role,ne_nil_of_length_pos (f.length_bytes_pos _),rfl⟩
  obtain ⟨hiff,hres⟩ := foldl_receive (c := {}) hsend hdisp rfl rfl hunf hbytes
  rw [hmsg,hpongs] at hres
  refine ⟨fun h => hiff.mp h.2.2,fun h => ?_⟩
  have hstat := hiff.mpr h
  obtain ⟨hdel,hwr⟩ := hres hstat
  exact ⟨hdel,hwr,hstat⟩

end Delivery

/-- A message in two fragments with a ping in between, and a message written whole. -/
def conversation : List Sent :=
  [.fragmented ⟨1,2,3,4⟩ [10,11] [⟨[.ping ⟨5,6,7,8⟩ [12]],⟨9,9,9,9⟩,[13]⟩],.written 7 [14]]

theorem conversation_delivered :
    (run ⟨.server,16,fun _ => 0⟩ [(conversation.flatMap (Sent.bytes .server)).take 11,
        (conversation.flatMap (Sent.bytes .server)).drop 11]).delivered = [[10,11,13],[14]] := by
  have hval : ∀ s ∈ conversation, s.Valid ⟨.server,16,fun _ => 0⟩ := by
    intro s hs
    simp only [conversation,mem_cons,not_mem_nil,or_false] at hs
    rcases hs with rfl | rfl <;> exact ⟨by decide,by decide⟩
  exact ((delivered_iff ⟨.server,16,fun _ => 0⟩ conversation _ hval
    (by simp)).mpr ⟨by decide,by decide⟩).1

/-- A limit of one byte: three masked frames in one read are longer than the bound. -/
def limitOne : Config := ⟨.server,1,fun _ => 0⟩

def threeMessages : List Sent := [.written 0 [1],.written 0 [2],.written 0 [3]]

theorem coalesced_messages_refused :
    (∀ s ∈ threeMessages, s.Valid limitOne) ∧
      (run limitOne [threeMessages.flatMap (Sent.bytes .server)]).status =
        some (.resourceExhausted "Buffered WebSocket frame exceeds max_message_size") ∧
      (run limitOne [threeMessages.flatMap (Sent.bytes .server)]).delivered = [] := by
  refine ⟨?_,by decide,by decide⟩
  intro s hs
  simp only [threeMessages,mem_cons,not_mem_nil,or_false] at hs
  rcases hs with rfl | rfl | rfl <;> exact ⟨by decide,by decide⟩

end A11.WebSocket
