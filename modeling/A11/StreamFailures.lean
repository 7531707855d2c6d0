import A11.ChannelEndings

/-! Failed streams, in-process and over a channel. -/
namespace A11

open WireStream Runs

/-- A failed stream with nothing left to do is finished, and its done callback was called once,
if the failure was recorded before the sender fiber took the half-close and the transport does
not keep the sender fiber waiting, or if the peer's own end has arrived. -/
theorem failed_streams_finish (cfg : Config) :
    (∀ first second w, InProcess.createPair first second = .ok w → ∀ actions x,
      let e := InProcess.run cfg w actions x
      e.started = true → e.localEnd = .abort ∨ e.status.isOk = false → InProcess.Settled e →
      Along (InProcess.step cfg) (InProcess.Undisturbed cfg x) w actions ∧
          e.sender.heldUp = false ∨
        e.remoteAborted = true ∨
        Along (InProcess.step cfg) (InProcess.Accepts x) w actions ∧
          e.localEndSent = .halfClose ∧ e.remoteHalfClosed = true →
      e.transportFinished = true ∧ e.doneRuns = 1) ∧
    (∀ role options framing e₀, ChannelStream.makeState role options framing = .ok e₀ → ∀ actions,
      let e := ChannelStream.run cfg e₀ actions
      e.started = true → e.localEnd = .abort ∨ e.status.isOk = false → ChannelStream.Settled e →
      Along (ChannelStream.step cfg) ChannelStream.StartsOpen e₀ actions →
      Along (ChannelStream.step cfg) (ChannelStream.Timely cfg) e₀ actions ∧
          ¬ChannelStream.HeldUp e ∨
        e.remoteAborted = true ∨ e.channelClosed = true ∨
        Along (ChannelStream.step cfg) ChannelStream.Accepts e₀ actions ∧
          e.localEndSent = .halfClose ∧ e.remoteHalfClosed = true →
      e.finished = true ∧ e.doneRuns = 1) := by
  constructor
  · intro first second w hcre actions x e hstart hfail hset hcond
    exact InProcess.finished_of_failed cfg hcre actions x hstart hfail hset hcond
  · intro role options framing e₀ hmake actions e hstart hfail hset hopens hcond
    exact ChannelStream.finished_of_failed cfg hmake actions hstart hfail hset hopens hcond

/-! ### An abort in time -/

namespace InProcess

/-- No failure is reported and the peer is there. -/
def Calm (x : Side) (w : World) (a : Action) : Prop :=
  (reported w x a).isNone = true ∧ (w x.peer).gone = false ∧ (w x.peer).transportFinished = false

instance (x : Side) (w : World) (a : Action) : Decidable (Calm x w a) :=
  inferInstanceAs (Decidable (_ ∧ _ ∧ _))

theorem undisturbed_of_calm (cfg : Config) {x : Side} {w : World} {a : Action} (h : Calm x w a) :
    Undisturbed cfg x w a := by
  refine ⟨fun status hreported => ?_,fun _ _ _ _ _ => h.2⟩
  have hnone := h.1
  rw [hreported] at hnone
  cases hnone

def abortRun : List Action := [
  .start .first 0 false,.start .second 0 false,
  .abort .first 0 (.internal "failed") false,
  .sender .first .okStatus,.sender .first .okStatus,.sender .first .okStatus,
  .sender .first .okStatus,.sender .first .okStatus,.sender .first .okStatus,
  .sender .first .okStatus,.receiver .first .okStatus]

/-- The half-close is sent, and then the deadline passes. -/
def overdueRun : List Action := [
  .start .first 0 false,.start .second 0 false,
  .halfClose .first 0 .empty false,
  .sender .first .okStatus,.sender .first .okStatus,.sender .first .okStatus,
  .sender .first .okStatus,.sender .first .okStatus,.receiver .first .okStatus,
  .watch .first (some .deadline),.watch .first none]

theorem createPair_plain : createPair {} {} = .ok plainPair := by
  refine congrArg (Except.ok : _ → Except Status _) (funext fun x => ?_)
  cases x <;> rfl

end InProcess

namespace ChannelStream

/-- The step reports no failure. -/
def Calm (e : Endpoint) : Action → Bool
  | .advance t _ => match e.duties t with
    | .forceAbort _ _::_ => false
    | _ => true
  | _ => true

theorem timely_of_calm (cfg : Config) (e : Endpoint) (a : Action) (h : Calm e a = true) :
    Timely cfg e a := by
  cases a with
  | advance t reply =>
    intro status canCommunicate rest hdut
    simp [Calm,hdut] at h
  | _ => trivial

/-- No call goes on once the stream is finished. -/
def CallsOpen (e : Endpoint) : Action → Bool
  | .advance (.call _) _ => !e.finished
  | _ => true

theorem startsOpen_of_callsOpen (e : Endpoint) (a : Action) (h : CallsOpen e a = true) :
    StartsOpen e a := by
  cases a with
  | advance t reply =>
    cases t with
    | call i => exact fun _ _ _ _ => by simpa [CallsOpen] using h
    | _ => trivial
  | _ => trivial

def plainEndpoint : Endpoint where
  role := .client
  options := {}
  framing := {}
  chunking := chunking {} {} rfl

/-- The stream is started over a channel that is open. -/
def startRun : List Action := [
  .begin 0 (.start false),
  .advance (.call 0) {},.advance (.call 0) {},.advance (.call 0) {},
  .advance (.call 0) { isOpen := .ok true },.advance (.call 0) {},.advance (.call 0) {},
  .advance (.call 0) {},.advance (.call 0) {}]

def abortRun : List Action := startRun++[
  .begin 0 (.abort (.internal "failed")),
  .advance (.call 0) {},.advance (.call 0) {},.advance (.call 0) {},
  .advance .sender {},.advance .sender {},.advance .sender {},.advance .sender {},
  .advance .sender {},.advance .sender {},.advance .sender {},.advance .sender {},
  .advance .sender {},.advance .sender {},.advance .receiver {}]

def overdueRun : List Action := startRun++[
  .begin 0 (.halfClose .empty),
  .advance (.call 0) {},.advance (.call 0) {},.advance (.call 0) {},
  .advance .sender {},.advance .sender {},.advance .sender {},.advance .sender {},
  .advance .sender {},.advance .sender {},.advance .sender {},
  .advance .timing { overdue := some .deadline },.advance .timing {},.advance .timing {},
  .advance .receiver {}]

end ChannelStream

theorem failed_streams_finish_aborted :
    (InProcess.createPair {} {} = .ok InProcess.plainPair ∧
      (InProcess.run InProcess.plainConfig InProcess.plainPair InProcess.abortRun .first).localEnd =
        .abort ∧
      (InProcess.run InProcess.plainConfig InProcess.plainPair InProcess.abortRun
        .first).transportFinished = true) ∧
    ChannelStream.makeState .client {} {} = .ok ChannelStream.plainEndpoint ∧
      (ChannelStream.run InProcess.plainConfig ChannelStream.plainEndpoint
        ChannelStream.abortRun).localEnd = .abort ∧
      (ChannelStream.run InProcess.plainConfig ChannelStream.plainEndpoint
        ChannelStream.abortRun).finished = true := by
  have hboth := failed_streams_finish InProcess.plainConfig
  constructor
  · refine ⟨InProcess.createPair_plain,by decide,?_⟩
    refine (hboth.1 {} {} InProcess.plainPair InProcess.createPair_plain InProcess.abortRun .first
      (by decide) (.inl (by decide)) ?_ (.inl ⟨?_,by decide⟩)).1
    · exact ⟨fun i => rfl,by decide,by decide⟩
    · refine Along.mono (fun _ _ => InProcess.undisturbed_of_calm _) (?_ :
        Along (InProcess.step InProcess.plainConfig) (InProcess.Calm .first) _ _)
      decide
  · refine ⟨rfl,by decide,?_⟩
    refine (hboth.2 .client {} {} ChannelStream.plainEndpoint rfl ChannelStream.abortRun
      (by decide) (.inl (by decide)) ?_ ?_ (.inl ⟨?_,?_⟩)).1
    · refine ⟨?_,?_,by decide,by decide⟩
      · rintro ((_ | i) | _ | _ | _) <;> rfl
      · rintro (_ | i) <;> rfl
    · refine Along.mono ChannelStream.startsOpen_of_callsOpen (?_ :
        Along (ChannelStream.step InProcess.plainConfig)
          (fun e a => ChannelStream.CallsOpen e a = true) _ _)
      decide
    · refine Along.mono (ChannelStream.timely_of_calm _) (?_ :
        Along (ChannelStream.step InProcess.plainConfig)
          (fun e a => ChannelStream.Calm e a = true) _ _)
      decide
    · rintro (⟨_,hpl⟩ | ⟨hshut,-⟩)
      · cases hpl
      · revert hshut
        decide

/-- A deadline that passes after the half-close was sent is recorded, and neither stream ever
finishes, although nothing is left to do. -/
theorem overdue_streams_unfinished :
    (let e := InProcess.run InProcess.plainConfig InProcess.plainPair InProcess.overdueRun .first;
      e.started = true ∧ e.localEnd = .abort ∧ e.status.isOk = false ∧ InProcess.Settled e ∧
        e.transportFinished = false ∧ e.doneRuns = 0) ∧
    (let e := ChannelStream.run InProcess.plainConfig ChannelStream.plainEndpoint
        ChannelStream.overdueRun;
      e.started = true ∧ e.localEnd = .abort ∧ e.status.isOk = false ∧ ChannelStream.Settled e ∧
        e.finished = false ∧ e.doneRuns = 0) := by
  constructor
  · refine ⟨by decide,by decide,by decide,?_,by decide,
      by decide⟩
    exact ⟨fun i => rfl,by decide,by decide⟩
  · refine ⟨by decide,by decide,by decide,?_,by decide,
      by decide⟩
    refine ⟨?_,?_,by decide,by decide⟩
    · rintro ((_ | i) | _ | _ | _) <;> rfl
    · rintro (_ | i) <;> rfl

/-- In every run at most one call or fiber of an endpoint holds the right to send, a sleeping sender
fiber has nothing to send or is woken by the holder, and the done callback is called at most once,
and once when the stream is finished. -/
theorem InProcess.sending_exclusive (cfg : Config) {first second : Options} {w : World}
    (hcre : createPair first second = .ok w) (actions : List Action) (x : Side) :
    let e := run cfg w actions x
    (∃ holder, Claims e holder) ∧ (e.sender = .asleep → e.outbound = [] ∨ e.sending = true) ∧
      e.doneRuns ≤ 1 ∧ (e.transportFinished = true → e.doneRuns = 1) := by
  intro e
  have hrun : Reaches (run cfg w actions) :=
    after_invariant (reaches_step cfg) (reaches_createPair hcre) actions
  obtain ⟨holder,hclm,-⟩ := hrun.1.flow x
  have hcnt : Counted e := hrun.2 x
  refine ⟨⟨holder,hclm⟩,hcnt.wakes,?_,fun hfin => by simp [hcnt.counted,hcnt.called hfin]⟩
  rw [hcnt.counted]
  split <;> simp

theorem InProcess.sending_exclusive_plain : createPair {} {} = .ok plainPair ∧
    (run plainConfig plainPair abortRun .first).doneRuns ≤ 1 :=
  ⟨createPair_plain,(sending_exclusive plainConfig createPair_plain abortRun .first).2.2.1⟩

end A11
