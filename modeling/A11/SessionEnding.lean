import A11.DataTypes
import A11.Runs

/-! How a session ends. A step is one critical section of `Session`; what a call still has to do
behind it is counted. -/
namespace A11.SessionEnding

inductive Phase
  | kOpen | kClosing | kAborted
  deriving DecidableEq

/-- How far `HandleStreamDone` is; it has started when it is not idle. -/
inductive DoneHandler
  | idle | status | callback | returned
  deriving DecidableEq

structure StreamState where
  stream : ℕ
  id : Bytes
  starting : Bool := true
  done : Bool := false
  handler : DoneHandler := .idle

structure Session where
  phase : Phase := .kOpen
  remoteClosed : Bool := false
  destroyed : Bool := false
  states : ℕ → Option StreamState := fun _ => none
  streams : Table Bytes ℕ := ∅
  /-- The state of every stream that is attached. -/
  streamStates : Table ℕ ℕ := ∅
  /-- Calls on their way to `FinishIfPossible`, and those that will resolve the promise. -/
  finishing : ℕ := 0
  resolving : ℕ := 0
  resolved : ℕ := 0

def sessionStreamAbortStatus : Status := .aborted "Session has aborted its streams"

namespace Session

def ended (w : Session) : Bool := w.phase ≠ .kOpen || w.remoteClosed

def update (w : Session) (s : ℕ) (f : StreamState → StreamState) : Session :=
  { w with states := Function.update w.states s ((w.states s).map f) }

/-- A step that the state of a stream has to allow. -/
def when (w : Session) (s : ℕ) (ready : StreamState → Bool) (next : Session) : Session :=
  if (w.states s).any ready then next else w

def addStream (w : Session) (s stream : ℕ) (id : Bytes) : Session :=
  if (w.states s).isSome ∨ w.ended ∨ id ∈ w.streams ∨ stream ∈ w.streamStates then w
  else
    { w with
      states := Function.update w.states s (some { stream, id })
      streams := w.streams.emplace id s
      streamStates := w.streamStates.emplace stream s }

def removeStream (w : Session) (s : ℕ) : Session :=
  match w.states s with
  | none => w
  | some state =>
    if state.done then w
    else
      { w.update s ({ · with done := true }) with
        streamStates := w.streamStates.erase state.stream
        streams := if w.streams.lookup state.id = some s then w.streams.erase state.id else w.streams
        finishing := w.finishing+1 }

def finishIfPossible (w : Session) : Session :=
  if w.ended = false ∨ w.streamStates ≠ ∅ ∨ w.destroyed then w
  else { w with destroyed := true, resolving := w.resolving+1 }

end Session

inductive Action
  | addStream (s stream : ℕ) (id : Bytes)
  | started (s : ℕ)
  /-- The start of a stream failed or was cancelled. -/
  | startFailed (s : ℕ)
  /-- `HandleStreamDone`: called, with the status of the stream, and behind the callback. -/
  | streamDone (s : ℕ)
  | streamStatus (s : ℕ) (status : Status)
  | streamCalled (s : ℕ)
  /-- The trailers of the peer's half-close, with the session's status if they have it. -/
  | trailers (s : ℕ) (sessionStatus : Option Status)
  | halfClose
  | abort (status : Status) (packed : Bool)
  | finishIfPossible
  | resolve

open Session in
def step (w : Session) : Action → Session
  | .addStream s stream id => w.addStream s stream id
  | .started s => w.when s (·.starting) (w.update s ({ · with starting := false }))
  | .startFailed s =>
    w.when s (·.starting) ((w.update s ({ · with starting := false })).removeStream s)
  | .streamDone s =>
    w.when s (fun state => !state.done && state.handler = .idle)
      (w.update s ({ · with handler := .status }))
  | .streamStatus s status =>
    let next := if status = sessionStreamAbortStatus ∧ w.phase ≠ .kAborted then
      { w with remoteClosed := true, phase := .kAborted } else w
    w.when s (·.handler = .status) (next.update s ({ · with handler := .callback }))
  | .streamCalled s =>
    w.when s (·.handler = .callback) ((w.update s ({ · with handler := .returned })).removeStream s)
  | .trailers s sessionStatus =>
    w.when s (fun _ => sessionStatus.any (·.isOk)) { w with remoteClosed := true }
  | .halfClose =>
    if w.phase = .kOpen then { w with phase := .kClosing, finishing := w.finishing+1 } else w
  | .abort status packed =>
    if status.isOk = false ∧ w.phase = .kOpen ∧ packed then
      { w with phase := .kAborted, finishing := w.finishing+1 }
    else w
  | .finishIfPossible =>
    if w.finishing = 0 then w else { w with finishing := w.finishing-1 }.finishIfPossible
  | .resolve =>
    if w.resolving = 0 then w
    else { w with resolving := w.resolving-1, resolved := w.resolved+1 }

/-- The session has ended before, or the stream is still attached. -/
def Session.Timely (w : Session) (s : ℕ) : Prop :=
  w.ended = true ∨ ∀ state ∈ w.states s, state.done = false

/-- The peer's end of the session is recorded in time. -/
def Timely (w : Session) : Action → Prop
  | .streamStatus s status => status = sessionStreamAbortStatus → w.Timely s
  | .trailers s sessionStatus => sessionStatus.any (·.isOk) = true → w.Timely s
  | _ => True

/-- What holds in every run; `c` and `g` are what held before it. -/
structure Inv (l c g : Prop) (w : Session) : Prop where
  closed : c → w.phase ≠ .kOpen
  gone : g → w.destroyed = true
  attached : ∀ s state, w.states s = some state → state.done = false →
    w.streamStates.lookup state.stream = some s
  counted : w.resolved+w.resolving = if w.destroyed then 1 else 0
  empty : w.destroyed = true → w.ended = true ∧ w.streamStates = ∅
  due : l ∨ (w.ended = true → w.streamStates = ∅ → w.destroyed = false → 0 < w.finishing)

variable {l c g : Prop} {w : Session}

theorem Inv.when (h : Inv l c g w) {s : ℕ} {ready : StreamState → Bool} {next : Session}
    (hnext : ∀ state, w.states s = some state → ready state = true → Inv l c g next) :
    Inv l c g (w.when s ready next) := by
  unfold Session.when
  split_ifs with hready
  · obtain ⟨state,hs,hr⟩ := (Option.any_eq_true ..).mp hready
    exact hnext state hs hr
  · exact h

/-- A change of a state that leaves it attached as it was. -/
theorem Inv.update (h : Inv l c g w) (s : ℕ) {f : StreamState → StreamState}
    (hf : ∀ state, (f state).stream = state.stream ∧ (f state).done = state.done) :
    Inv l c g (w.update s f) := by
  refine { h with attached := fun t state ht hdone => ?_ }
  by_cases hts : t = s
  · subst hts
    obtain ⟨old,hold,rfl⟩ : ∃ old, w.states t = some old ∧ f old = state := by
      simpa [Session.update] using ht
    rw [(hf old).1]
    exact h.attached t old hold ((hf old).2.symm.trans hdone)
  · exact h.attached t state (by simpa [Session.update,hts] using ht) hdone

/-- The session ends, and somebody has still to look whether it is finished. -/
theorem Inv.close (h : Inv l c g w) {phase : Phase} {remoteClosed : Bool} {n : ℕ}
    (hclosed : c → phase ≠ .kOpen) (hended : Session.ended { w with phase, remoteClosed } = true)
    (hdue : l ∨ (w.streamStates = ∅ → w.destroyed = false → 0 < n)) :
    Inv l c g { w with phase, remoteClosed, finishing := n } :=
  { h with
    closed := hclosed
    empty := fun hd => ⟨hended,(h.empty hd).2⟩
    due := hdue.imp_right fun hn _ => hn }

theorem Inv.not_empty (h : Inv l c g w) {s : ℕ} {state : StreamState}
    (hs : w.states s = some state) (hdone : state.done = false) : w.streamStates ≠ ∅ := by
  intro hemp
  have hlook := h.attached s state hs hdone
  simp [hemp] at hlook

theorem Inv.addStream (h : Inv l c g w) (s stream : ℕ) (id : Bytes) :
    Inv l c g (w.addStream s stream id) := by
  unfold Session.addStream
  split
  · exact h
  rename_i hfree
  simp only [not_or] at hfree
  obtain ⟨-,hopen,-,hstream⟩ := hfree
  refine { h with attached := ?_, empty := ?_, due := .inr fun hended => absurd hended hopen }
  · intro t state ht hdone
    by_cases hts : t = s
    · subst hts
      obtain rfl : ({ stream, id } : _) = state := by simpa using ht
      rw [Table.lookup_emplace,Finmap.lookup_eq_none.mpr hstream]
      simp
    · have hold := h.attached t state (by simpa [hts] using ht) hdone
      rw [Table.lookup_emplace,hold]
      rfl
  · exact fun hd => absurd (h.empty hd).1 hopen

theorem Inv.removeStream (h : Inv l c g w) (s : ℕ) :
    Inv l c g (w.removeStream s) := by
  unfold Session.removeStream
  split
  · exact h
  rename_i state hs
  split
  · exact h
  rename_i hdone
  have hnot := h.not_empty hs (by simpa using hdone)
  refine { h with
    attached := ?_, empty := fun hd => absurd (h.empty hd).2 hnot, due := .inr fun _ _ _ => by simp }
  intro t other ht hother
  by_cases hts : t = s
  · subst hts
    simp [Session.update,hs] at ht
    simp [← ht] at hother
  · have hold := h.attached t other (by simpa [Session.update,hts] using ht) hother
    have hmine := h.attached s state hs (by simpa using hdone)
    have hne : other.stream ≠ state.stream := by
      intro heq
      rw [heq,hmine] at hold
      exact hts (Option.some.inj hold).symm
    rwa [Table.lookup_erase,if_neg hne]

theorem Inv.finishIfPossible (h : Inv l c g w) :
    Inv l c g { w with finishing := w.finishing-1 }.finishIfPossible := by
  unfold Session.finishIfPossible
  split
  · rename_i hnot
    refine { h with due := .inr fun hended hemp hd => ?_ }
    rcases hnot with hopen | hnot | hdest
    · cases hopen.symm.trans hended
    · exact absurd hemp hnot
    · cases hd.symm.trans hdest
  · rename_i hall
    simp only [not_or,Bool.not_eq_false,not_not] at hall
    have hcnt := h.counted
    rw [if_neg (by simp [hall.2.2])] at hcnt
    refine { h with
      gone := fun _ => rfl, counted := ?_, empty := fun _ => ⟨hall.1,hall.2.1⟩, due := .inr (by simp) }
    change w.resolved+(w.resolving+1) = 1
    omega

theorem Inv.due_of_timely (h : Inv l c g w) {s : ℕ} {state : StreamState}
    (hs : w.states s = some state) (ht : l ∨ w.Timely s) :
    l ∨ (w.streamStates = ∅ → w.destroyed = false → 0 < w.finishing) := by
  rcases ht with hl | hended | hopen
  · exact .inl hl
  · exact h.due.imp_right fun hdue => hdue hended
  · exact .inr fun hemp => absurd hemp (h.not_empty hs (hopen state hs))

theorem inv_step (w : Session) (a : Action) (h : Inv l c g w) (ht : l ∨ Timely w a) :
    Inv l c g (step w a) := by
  cases a with
  | addStream s stream id => exact h.addStream s stream id
  | started s | streamDone s =>
    exact h.when fun _ _ _ => h.update s fun _ => ⟨rfl,rfl⟩
  | startFailed s | streamCalled s =>
    refine h.when fun _ _ _ => Inv.removeStream ?_ s
    exact h.update s fun _ => ⟨rfl,rfl⟩
  | streamStatus s status =>
    refine h.when fun state hs _ => Inv.update ?_ s fun _ => ⟨rfl,rfl⟩
    split
    · rename_i hab
      refine h.close (by simp) rfl ?_
      exact h.due_of_timely hs (ht.imp_right fun ht => ht hab.1)
    · exact h
  | trailers s sessionStatus =>
    refine h.when fun state hs hok => h.close h.closed (by simp [Session.ended]) ?_
    exact h.due_of_timely hs (ht.imp_right fun ht => ht hok)
  | halfClose =>
    rw [step]
    split
    · exact h.close (by simp) rfl (.inr fun _ _ => by simp)
    · exact h
  | abort status packed =>
    rw [step]
    split
    · exact h.close (by simp) rfl (.inr fun _ _ => by simp)
    · exact h
  | finishIfPossible =>
    rw [step]
    split
    · exact h
    · exact h.finishIfPossible
  | resolve =>
    rw [step]
    split
    · exact h
    · have hcnt := h.counted
      exact { h with counted := by dsimp only; omega }

theorem inv_initial : Inv l False False {} := by
  constructor <;> simp [Session.ended]

/-- The promise is resolved at most once, with no stream attached, and none is attached
afterwards; the phase does not return. If the peer's end is recorded in time, it is resolved when
the session has ended, no stream is attached and every call has returned. -/
theorem done_resolved (actions later : List Action) :
    let w := Runs.after step {} actions
    let v := Runs.after step w later
    w.resolved ≤ 1 ∧ (w.phase ≠ .kOpen → v.phase ≠ .kOpen) ∧
    (0 < w.resolved → w.streamStates = ∅ ∧ v.streamStates = ∅ ∧
      ∀ s stream id, step v (.addStream s stream id) = v) ∧
    (Runs.Along step Timely {} actions → w.ended = true → w.streamStates = ∅ → w.finishing = 0 →
      w.resolving = 0 → w.resolved = 1) := by
  intro w v
  have h : Inv True False False w :=
    Runs.after_invariant (fun w a h => inv_step w a h (.inl trivial)) inv_initial actions
  have hlater : Inv True (w.phase ≠ .kOpen) (w.destroyed = true) v :=
    Runs.after_invariant (fun w a h => inv_step w a h (.inl trivial))
      { h with closed := id, gone := id } later
  have hcnt := h.counted
  refine ⟨by split at hcnt <;> omega,hlater.closed,fun hpos => ?_,fun halong hended hemp hfin hres => ?_⟩
  · have hd : w.destroyed = true := by
      by_contra hd
      rw [if_neg hd] at hcnt
      omega
    obtain ⟨hended,hemp⟩ := hlater.empty (hlater.gone hd)
    exact ⟨(h.empty hd).2,hemp,fun s stream id => if_pos (.inr (.inl hended))⟩
  · have ht : Inv False False False w :=
      Runs.after_along (fun w a h ht => inv_step w a h (.inr ht)) inv_initial halong
    have hd : w.destroyed = true := by
      by_contra hd
      have := ht.due.resolve_left id hended hemp (by simpa using hd)
      omega
    rw [if_pos hd] at hcnt
    omega

/-- A stream comes and goes, and the session is half-closed. -/
def plainRun : List Action := [
  .addStream 0 0 [97],.started 0,.halfClose,.finishIfPossible,.streamDone 0,
  .streamStatus 0 .okStatus,.streamCalled 0,.finishIfPossible,.resolve]

theorem done_resolved_plain : (Runs.after step {} plainRun).resolved = 1 := by
  refine (done_resolved plainRun []).2.2.2 ?_ rfl rfl rfl rfl
  refine ⟨trivial,trivial,trivial,trivial,trivial,?_,trivial,trivial,trivial,trivial⟩
  exact fun h => absurd h (by decide)

/-- The peer aborts the session while the stream's start is cancelled. -/
def cancelledStart : List Action := [
  .addStream 0 0 [97],.streamDone 0,.startFailed 0,.finishIfPossible,
  .streamStatus 0 sessionStreamAbortStatus,.streamCalled 0,.halfClose,.abort (.cancelled "") true,
  .finishIfPossible,.resolve]

/-- The session has ended without a stream and every call has returned. -/
theorem done_unresolved :
    let w := Runs.after step {} cancelledStart
    w.phase = .kAborted ∧ w.streamStates = ∅ ∧ w.finishing = 0 ∧ w.resolving = 0 ∧
      w.resolved = 0 := by
  refine ⟨rfl,rfl,rfl,rfl,rfl⟩

end A11.SessionEnding
