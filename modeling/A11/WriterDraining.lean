import A11.WriterWaiters

/-! Runs of the chunk store writer in which no waiter for the buffer is forgotten. -/
namespace A11.ChunkStoreWriter
open List

open ChunkStoreWriter.Frame (releasing turns)

variable {cfg : Config} {o : Options} {c d : Core} {fs gs : List Frame}

/-- The section does not end a close or a cancellation behind the back of a waiter: nobody waits
for the buffer, or somebody else is still to run the pump. -/
def Covered (c : Core) (frame : Frame) (others : List Frame) : Prop :=
  match frame with
  | .closeDone _ _ _ _ => c.drainWaiters = [] ∨ Stirring c others
  | .once => c.operation = .none → c.lifecycle = .cancel → c.lifecycleCompleted = false →
      c.teesInFlight = 0 → c.drainWaiters = [] ∨ Stirring c others
  | _ => True

instance decidableOwed (c : Core) (fs : List Frame) : Decidable (Owed c fs) :=
  inferInstanceAs (Decidable (_ ∨ _))

instance decidableStirring (c : Core) (fs : List Frame) : Decidable (Stirring c fs) :=
  inferInstanceAs (Decidable (_ ∨ _))

instance decidableCovered (c : Core) (frame : Frame) (others : List Frame) :
    Decidable (Covered c frame others) :=
  match frame with
  | .closeDone _ _ _ _ => inferInstanceAs (Decidable (_ ∨ _))
  | .once => inferInstanceAs (Decidable (_ → _))
  | .drive | .turn | .redrive | .wake | .flush | .complete _ _ _ | .release _ _ | .startWrite _
  | .writeDone _ _ | .finishWrite _ _ _ | .scheduleTee _ | .tee _ | .finishTee _
  | .startClose _ _ => inferInstanceAs (Decidable True)

/-! ### Passes -/

/-- What a pass leaves: it has started an operation, or a close it has not finished waits for
what is outstanding. -/
theorem beginWork_closing (hstop : Stops c) (hlive : c.closing = true →
      c.lifecycle ≠ .none ∧ c.lifecycleCompleted = false)
    (hfails : ∀ s, c.status = some s → s.isOk = false →
      c.lifecycle = .close → c.lifecycleCompleted = true) (hclo : (beginWork c).1.closing = true) :
    (beginWork c).1.operation ≠ .none ∨ Busy (beginWork c).1 := by
  unfold beginWork at hclo ⊢
  split_ifs at hclo ⊢ with hcan habt hcl hwrite
  · exact .inl (by simp [startOperation])
  · exact .inl (by simp [startOperation])
  · exact .inl (by simp [startOperation])
  obtain ⟨hlife,hopen⟩ := hlive hclo
  refine .inr ?_
  by_contra hidle
  simp only [Busy,not_or,not_not] at hidle
  obtain ⟨hzero,htees⟩ := hidle
  cases hcycle : c.lifecycle with
  | none => exact hlife hcycle
  | cancel => exact hcan ⟨hopen,hcycle,hstop.asked (.inl hcycle),hzero⟩
  | abort => exact habt ⟨hopen,hcycle,hstop.asked (.inr hcycle),hzero,htees⟩
  | close =>
    refine hcl ⟨hopen,hcycle,?_,hzero,htees⟩
    cases hstat : c.status with
    | none => rfl
    | some s =>
      cases hok : s.isOk with
      | true => simp [hstop.closed s hstat hok] at hopen
      | false => simp [hfails s hstat hok hcycle] at hopen

theorem failCloseOfStatus_fails (c : Core) (s : Status) (hs : (failCloseOfStatus c).status = some s)
    (hok : s.isOk = false) (hcycle : (failCloseOfStatus c).lifecycle = .close) :
    (failCloseOfStatus c).lifecycleCompleted = true := by
  unfold failCloseOfStatus at hs hcycle ⊢
  cases hcase : c.status with
  | none => simp [hcase] at hs
  | some status =>
    simp only [hcase] at hs hcycle ⊢
    cases hfine : status.isOk with
    | true =>
      simp only [hfine,if_true,hcase,Option.some.injEq] at hs
      rw [← hs,hfine] at hok
      cases hok
    | false =>
      simp only [hfine,Bool.false_eq_true,if_false] at hcycle ⊢
      rw [(halts_failClose c).lifecycle] at hcycle
      unfold failClose
      split
      · rfl
      · rename_i hnot
        simpa [hcycle] using hnot

theorem releaseWaiters_watched (c : Core) (h : (releaseWaiters c).drainWaiters ≠ []) :
    releaseWaiters c = c ∧ (Busy c ∨ c.closing = true) := by
  unfold releaseWaiters at h ⊢
  split at h
  · exact absurd rfl h
  rename_i hdrain
  refine ⟨if_neg hdrain,?_⟩
  by_contra hidle
  simp only [Busy,not_or,not_not] at hidle
  exact hdrain (by simp [drained,hidle])

theorem beginWork_watched (c : Core) (h : Busy c ∨ c.closing = true) :
    (Busy (beginWork c).1 ∨ (beginWork c).1.closing = true) ∨
      c.lifecycleCompleted = false ∧ c.lifecycle = .cancel ∧ c.teesInFlight = 0 := by
  unfold beginWork
  split_ifs with hcan
  · by_cases htees : c.teesInFlight = 0
    · exact .inr ⟨hcan.1,hcan.2.1,htees⟩
    · exact .inl (.inl (.inr htees))
  all_goals exact .inl h

theorem pumped_pass (hop : c.operation = .none) (hqd : c.queued = false)
    (hdep : c.depth = (fs.map turns).sum) (hinv : Inv cfg o c fs) (hstop : Stops c)
    (hcov : c.lifecycle = .cancel → c.lifecycleCompleted = false → c.teesInFlight = 0 →
      c.drainWaiters = [] ∨ Stirring c fs) : After Pumped (pass c) fs := by
  unfold pass
  rw [if_neg (by rw [not_not,hop])]
  dsimp only
  generalize hd : failCloseOfStatus (stop c) = d
  have hdhalts : Halts c d := hd ▸ halts_stopped c
  have hdstops : Stops d := hd ▸ hstop.stop.failCloseOfStatus
  have hdinv : Inv cfg o d _ := hd ▸ hinv.stop.failCloseOfStatus
    (by rw [(halts_stop c).operation,hop]; decide)
  have hdfails : ∀ s, d.status = some s → s.isOk = false → d.lifecycle = .close →
      d.lifecycleCompleted = true := hd ▸ failCloseOfStatus_fails (stop c)
  have hwork := begins_beginWork (releaseWaiters d)
  have hkept := (hdhalts.toKept.trans (kept_releaseWaiters d)).trans hwork.toKept
  constructor
  · have hsum : ((beginWork (releaseWaiters d)).2.map turns).sum = 0 := by
      simpa [sum_eq_zero_iff] using hwork.turns
    rw [hkept.depth,hdep]
    simp [turns,hsum]
  · intro hq
    rw [hkept.queued,hqd] at hq
    cases hq
  · intro hwaits
    rw [hwork.drainWaiters] at hwaits
    obtain ⟨heq,hbusy⟩ := releaseWaiters_watched d hwaits
    rw [heq] at hwaits hkept ⊢
    rcases beginWork_watched d hbusy with hkeeps | ⟨hopen,hcan,htees⟩
    · exact hkeeps.imp_right .inl
    have hcomp : c.lifecycleCompleted = false := by
      rw [Bool.eq_false_iff]
      intro hdone
      rw [hdhalts.completed hdone] at hopen
      cases hopen
    rw [hdhalts.drainWaiters] at hwaits
    rw [hdhalts.lifecycle] at hcan
    rw [hdhalts.teesInFlight] at htees
    refine .inr (.inr (Stirring.append_left _ ?_))
    have hstirring := (hcov hcan hcomp htees).resolve_left hwaits
    unfold Stirring Owed at hstirring ⊢
    rwa [hkept.again]
  · intro hclo
    have hinv := hdinv.releaseWaiters
    have hfails : ∀ s, (releaseWaiters d).status = some s → s.isOk = false →
        (releaseWaiters d).lifecycle = .close → (releaseWaiters d).lifecycleCompleted = true := by
      unfold releaseWaiters
      split <;> exact hdfails
    exact (beginWork_closing hdstops.releaseWaiters hinv.live.mp hfails hclo).imp_right .inl

theorem Pumped.once (hinv : Inv cfg o c (.once::fs)) (hstop : Stops c)
    (hcov : Covered c .once fs) (h : Pumped c (.once::fs)) : After Pumped (driveOnce c) fs := by
  have hdep : c.depth = (fs.map turns).sum := by simpa [turns] using h.depth
  by_cases hop : c.operation = .none
  · exact pumped_pass hop rfl hdep
      ((Inv.plain [_] [] (by simp [Frame.plain]) (by simp) hinv).pump false c.again c.depth)
      { hstop with } (hcov hop)
  unfold driveOnce pass
  rw [if_pos hop]
  refine ⟨hdep,by simp,fun _ => ?_,fun _ => .inl hop⟩
  exact (busy_of_operation hinv hop).imp_right .inl

/-! ### Every section -/

theorem Pumped.finishWrite (generation : ℕ) (result : StatusOr (List UInt32)) (status : Status)
    (h : Pumped c (.finishWrite generation result status::fs)) :
    After Pumped (finishWrite c generation result status) fs := by
  have hdep : c.depth = (fs.map turns).sum := by simpa [turns] using h.depth
  unfold ChunkStoreWriter.finishWrite
  split
  · exact h.quiet _ [] rfl (by simp)
  rename_i batch hbat
  split
  · dsimp only
    generalize (status.isOk && !batch.streams.isEmpty) = teeing
    refine Pumped.redriven _ ?_ ?_ ⟨.redrive,by simp,rfl⟩
    · refine Eq.trans ?_ hdep
      have hret : Kept c (retireBatch c batch teeing) := { kept_refl c with }
      have htold := (hret.trans (kept_settle _ (c.stopStatus.isSome || !status.isOk)
        (c.stopStatus.getD status))).trans (kept_releaseWaiters _)
      split
      · exact (htold.trans (halts_failClose _).toKept).depth
      · exact htold.depth
    · cases teeing <;> simp [turns]
  · exact h.quiet _ [] rfl (by simp)

theorem Pumped.finishTee (status : Status) (h : Pumped c (.finishTee status::fs)) :
    After Pumped (finishTee c status) fs := by
  have hdep : c.depth = (fs.map turns).sum := by simpa [turns] using h.depth
  unfold ChunkStoreWriter.finishTee
  refine Pumped.redriven _ ?_ (by simp [turns]) ⟨.redrive,by simp,rfl⟩
  refine Eq.trans ?_ hdep
  dsimp only
  refine (kept_releaseWaiters _).depth.trans ?_
  split
  · exact (halts_failClose _).depth
  · rfl

theorem Pumped.closeDone (generation : ℕ) (requested tee : Status) (result : StatusOr Status)
    (hcov : Covered c (.closeDone generation requested tee result) fs)
    (h : Pumped c (.closeDone generation requested tee result::fs)) :
    After Pumped (closeDone c generation requested tee result) fs := by
  have hquiet : Pumped c ([]++fs) := h.quiet _ [] rfl (by simp)
  unfold ChunkStoreWriter.closeDone
  split
  · exact ⟨hquiet.depth,hquiet.queued,fun hwaits => .inr (.inr (hcov.resolve_left hwaits)),nofun⟩
  · exact hquiet

theorem Pumped.perform (frame : Frame) (reply : Reply) (hinv : Inv cfg o c (frame::fs))
    (hstop : Stops c) (hcov : Covered c frame fs) (h : Pumped c (frame::fs)) :
    After Pumped (perform cfg c frame reply) fs := by
  cases frame with
  | drive => exact h.drive
  | once => exact h.once hinv hstop hcov
  | turn => exact h.turn
  | redrive => exact h.redrivePump
  | wake => exact h.wake hinv
  | flush =>
    change After Pumped (flush c) fs
    unfold flush
    split
    · exact h.quiet _ [] rfl (by simp)
    · exact h.quiet _ [.drive] rfl (by simp [turns])
  | complete elements sequences status =>
    have h : Pumped c ([]++fs) := h.quiet _ [] rfl (by simp)
    exact { h with }
  | release waiters status =>
    have hdep : c.depth = (fs.map turns).sum := by simpa [turns] using h.depth
    have h := h.frames hdep (Owed.tail _ rfl (.inl (by simp))) (by simp)
    exact { h with }
  | startWrite generation =>
    change After Pumped (startWrite cfg c generation reply) fs
    unfold startWrite
    split
    · exact h.quiet _ [] rfl (by simp)
    split
    · exact h.quiet _ [.writeDone _ _] rfl (by simp [turns])
    cases reply.wrote with
    | none =>
      have h : Pumped c ([]++fs) := h.quiet _ [] rfl (by simp)
      exact { h with }
    | some answer =>
      have h : Pumped c ([.writeDone generation answer]++fs) :=
        h.quiet _ [.writeDone _ _] rfl (by simp [turns])
      exact { h with }
  | writeDone generation result =>
    change After Pumped (writeDone c generation result) fs
    unfold writeDone
    split
    · split
      · exact h.quiet _ [.finishWrite _ _ _] rfl (by simp [turns])
      · exact h.quiet _ [] rfl (by simp)
    · exact h.quiet _ [] rfl (by simp)
  | finishWrite generation result status => exact h.finishWrite generation result status
  | scheduleTee streams => exact h.quiet _ [.tee streams] rfl (by simp [turns])
  | tee streams => exact h.quiet _ [.finishTee _] rfl (by simp [turns])
  | finishTee status => exact h.finishTee status
  | startClose generation requested =>
    change After Pumped (startClose c generation requested reply) fs
    unfold startClose
    dsimp only
    split
    · exact h.quiet _ [.closeDone _ _ _ _] rfl (by simp [turns])
    · have h : Pumped c ([]++fs) := h.quiet _ [] rfl (by simp)
      exact { h with }
  | closeDone generation requested tee result =>
    exact h.closeDone generation requested tee result hcov

/-! ### Steps and runs -/

/-- The action lets no waiter be forgotten. -/
def Covers (w : World) : Action → Prop
  | .advance i _ =>
    match w.fibers[i]? with
    | some (frame::rest) => Covered w.core frame (rest++(w.fibers.set i []).flatten)
    | _ => True
  | _ => True

instance decidableCovers (w : World) : (action : Action) → Decidable (Covers w action)
  | .advance i _ =>
    match h : w.fibers[i]? with
    | some (frame::rest) => decidable_of_iff
        (Covered w.core frame (rest++(w.fibers.set i []).flatten)) (by simp [Covers,h])
    | some [] => isTrue (by simp [Covers,h])
    | none => isTrue (by simp [Covers,h])
  | .enqueue _ _ _ _ | .flush | .ensureStarted | .cancel | .drainAndClose | .abortWithStatus _
  | .waitForBufferToDrain | .attachStream _ | .detachStream _ | .wrote _ | .closed _ =>
    isTrue trivial

structure Watched (cfg : Config) (o : Options) (w : World) : Prop where
  good : Good cfg o w
  pumped : Pumped w.core w.fibers.flatten
  stops : Stops w.core
  told : Told w.core w.fibers.flatten

variable {w : World}

theorem Watched.call (good : Good cfg o (w.call d gs)) (pumped : Pumped d (gs++w.fibers.flatten))
    (stops : Stops d) (told : Told d (gs++w.fibers.flatten)) : Watched cfg o (w.call d gs) := by
  have hperm : (gs++w.fibers.flatten).Perm (w.call d gs).fibers.flatten := by
    simp only [World.call,flatten_append,flatten_cons,flatten_nil,append_nil]
    exact perm_append_comm
  exact ⟨good,pumped.perm hperm,stops,told.perm hperm⟩

variable (new : List Frame)

/-- A call that touches nothing the waiters depend on, or asks for a pass of the pump. -/
theorem Pumped.called (hnew : ∀ g ∈ new, g.turns = 0) (hdep : d.depth = c.depth)
    (hagain : d.again = c.again) (hqd : d.queued = c.queued)
    (hwatched : d.drainWaiters ≠ [] → c.drainWaiters ≠ [] ∧ (Busy c → Busy d) ∧
      (c.closing = true → d.closing = true) ∨ Busy d ∨ d.closing = true)
    (hclo : d.closing = true → c.closing = true ∧ c.operation = d.operation ∧
      (Busy c → Busy d) ∨ Stirring d (new++fs)) (h : Pumped c fs) : Pumped d (new++fs) := by
  have howed (ho : Owed c fs) : Owed d (new++fs) := by
    refine Owed.append_left new ?_
    unfold Owed at ho ⊢
    rwa [hagain]
  have hstir (hs : Stirring c fs) : Stirring d (new++fs) := hs.imp howed (mem_append_right _)
  have hsum : (new.map turns).sum = 0 := by simpa [sum_eq_zero_iff] using hnew
  constructor
  · simp [hdep,hsum,h.depth]
  · intro hq
    rw [hqd] at hq
    exact howed (h.queued hq)
  · intro hw
    rcases hwatched hw with ⟨hc,hbusy,hopen⟩ | hnow
    · exact (h.watched hc).imp hbusy (Or.imp hopen hstir)
    · exact hnow.imp_right .inl
  · intro hc
    rcases hclo hc with ⟨hold,hop,hbusy⟩ | hnow
    · rw [← hop]
      exact (h.closing hold).imp_right (Or.imp hbusy hstir)
    · exact .inr (.inr hnow)

theorem Told.called (hnew : new.flatMap releasing = [])
    (hdrain : d.drainWaiters = c.drainWaiters) (hrel : d.released = c.released)
    (hwait : d.waiters = c.waiters) (h : Told c fs) : Told d (new++fs) := by
  unfold Told at h ⊢
  simpa [hrel,hwait,hdrain,hnew] using h

theorem Watched.advance (hval : o.validate = .ok ()) (i : ℕ) (reply : Reply)
    (hcovers : Covers w (.advance i reply)) (h : Watched cfg o w) :
    Watched cfg o (step cfg w (.advance i reply)) := by
  have hgood := h.good.step hval (.advance i reply)
  simp only [step] at hgood ⊢
  simp only [Covers] at hcovers
  split at hgood
  · rename_i frame rest hfib
    obtain ⟨others,hold,hnew⟩ := exists_others w.fibers i _ hfib
    have hothers : (rest++(w.fibers.set i []).flatten).Perm (rest++others) :=
      (hnew []).append_left rest
    rw [hfib] at hcovers
    have hcov : Covered w.core frame (rest++others) := by
      cases frame with
      | closeDone generation requested tee result => exact hcovers.imp_right (Stirring.perm hothers)
      | once =>
        exact fun hop hcan hopen htees =>
          (hcovers hop hcan hopen htees).imp_right (Stirring.perm hothers)
      | _ => trivial
    have hpumped := (h.pumped.perm hold).perform frame reply (h.good.1.perm hold) h.stops hcov
    have htold : Told (perform cfg w.core frame reply).core _ :=
      (h.told.perm hold).perform frame reply
    have hperm := advanced_perm (perform cfg w.core frame reply).pushed rest
      (perform cfg w.core frame reply).spawned hnew
    exact ⟨hgood,hpumped.perm hperm,h.stops.perform frame reply,htold.perm hperm⟩
  · exact h

theorem enqueuePayload_keeps {payload : Payload} {seq : Option UInt32} {final admitted : Bool}
    (h : enqueuePayload c payload seq final = .ok (d,admitted)) :
    Kept c d ∧ d.drainWaiters = c.drainWaiters ∧ d.closing = c.closing ∧
      d.operation = c.operation ∧ d.status = c.status ∧ d.teesInFlight = c.teesInFlight ∧
      c.outstanding ≤ d.outstanding := by
  obtain ⟨-,-,n,m,k,e,-,-,-,⟨-,rfl⟩ | ⟨-,rfl⟩⟩ := enqueuePayload_ok h
  · exact ⟨{ kept_refl c with },rfl,rfl,rfl,rfl,rfl,Nat.le_succ _⟩
  · exact ⟨{ kept_refl c with },rfl,rfl,rfl,rfl,rfl,le_rfl⟩

theorem Watched.enqueue (payload : Payload) (seq : Option UInt32)
    (final ensureStarted admitted : Bool) (heq : enqueuePayload w.core payload seq final = .ok (d,admitted))
    (hgood : Good cfg o (w.call d (if (admitted && ensureStarted) = true then [.wake] else [])))
    (h : Watched cfg o w) :
    Watched cfg o (w.call d (if (admitted && ensureStarted) = true then [.wake] else [])) := by
  obtain ⟨hkept,hdrain,hclo,hop,hstat,_,_⟩ := enqueuePayload_keeps heq
  have hbusy (hb : Busy w.core) : Busy d := by
    unfold Busy at hb ⊢
    omega
  refine Watched.call hgood ?_ ?_ ?_
  · refine h.pumped.called _ ?_ hkept.depth hkept.again hkept.queued ?_ ?_
    · split <;> simp [turns]
    · intro hw
      rw [hdrain] at hw
      exact .inl ⟨hw,hbusy,fun hc => by rw [hclo,hc]⟩
    · intro hc
      rw [hclo] at hc
      exact .inl ⟨hc,hop.symm,hbusy⟩
  · exact h.stops.kept hkept fun s hs _ => by rw [← hstat,hs]
  · refine h.told.called _ ?_ hdrain hkept.released hkept.waiters
    split <;> rfl

/-- A stop is requested and the pump is asked to run. -/
theorem Watched.stopping (frame : Frame) (hturns : frame.turns = 0)
    (hrel : frame.releasing = []) (hfr : frame.drives = true ∨ frame = .wake)
    (hdep : d.depth = w.core.depth) (hagain : d.again = w.core.again)
    (hqd : d.queued = w.core.queued) (hdrain : d.drainWaiters = w.core.drainWaiters)
    (hreleased : d.released = w.core.released) (hwait : d.waiters = w.core.waiters)
    (hclo : d.closing = true) (hstop : Stops d) (hgood : Good cfg o (w.call d [frame]))
    (h : Watched cfg o w) : Watched cfg o (w.call d [frame]) := by
  refine Watched.call hgood ?_ hstop ?_
  · refine h.pumped.called _ (by simpa using hturns) hdep hagain hqd
      (fun _ => .inr (.inr hclo)) fun _ => .inr ?_
    rcases hfr with hdrives | rfl
    · exact .inl (.inl ⟨frame,by simp,hdrives⟩)
    · exact .inr (by simp)
  · exact h.told.called _ (by simp [hrel]) hdrain hreleased hwait

theorem Watched.asked (hturns : ∀ g ∈ new, g.turns = 0)
    (hrel : new.flatMap releasing = []) (hgood : Good cfg o (w.call w.core new))
    (h : Watched cfg o w) : Watched cfg o (w.call w.core new) := Watched.call hgood
    (h.pumped.called new hturns rfl rfl rfl (fun hw => .inl ⟨hw,id,id⟩)
      (fun hc => .inl ⟨hc,rfl,id⟩))
    h.stops (h.told.called new hrel rfl rfl rfl)

theorem Watched.waits (hgood : Good cfg o (w.call (waitForBufferToDrain w.core).core
      (waitForBufferToDrain w.core).pushed)) (h : Watched cfg o w) :
    Watched cfg o (w.call (waitForBufferToDrain w.core).core
      (waitForBufferToDrain w.core).pushed) := by
  have hstop := h.stops
  have hold := h.told
  rcases waitForBufferToDrain_cases w.core with ⟨_,heq⟩ | ⟨hdrain,heq⟩ <;>
    rw [heq] at hgood ⊢ <;> refine Watched.call hgood ?_ { hstop with } ?_
  · exact Pumped.called (c := w.core) [_] (by simp [turns]) rfl rfl rfl
      (fun hw => .inl ⟨hw,id,id⟩) (fun hc => .inl ⟨hc,rfl,id⟩) h.pumped
  · refine perm_iff_count.mpr fun i => ?_
    have hi := hold.count_eq i
    simp only [flatMap_append,flatMap_cons,flatMap_nil,append_nil,releasing,count_append,
      range_succ] at hi ⊢
    omega
  · refine Pumped.called (c := w.core) [] (by simp) rfl rfl rfl (fun _ => .inr ?_)
      (fun hc => .inl ⟨hc,rfl,id⟩) h.pumped
    by_contra hidle
    simp only [Busy,not_or,not_not] at hidle
    exact hdrain (by simp [drained,hidle])
  · refine perm_iff_count.mpr fun i => ?_
    have hi := hold.count_eq i
    simp only [nil_append,count_append,range_succ] at hi ⊢
    omega

theorem Watched.step (hval : o.validate = .ok ()) (action : Action)
    (hcovers : Covers w action) (h : Watched cfg o w) : Watched cfg o (step cfg w action) := by
  have hgood := h.good.step hval action
  have hstop := h.stops
  have hmay (hm : mayStop w.core = true) : w.core.status = none := by
    simp only [mayStop,Bool.and_eq_true,Option.isNone_iff_eq_none] at hm
    exact hm.2
  cases action with
  | enqueue payload seq final ensureStarted =>
    simp only [ChunkStoreWriter.step] at hgood ⊢
    split at hgood
    · exact h
    · rename_i d admitted heq
      exact h.enqueue payload seq final ensureStarted admitted heq hgood
  | flush => exact h.asked [.flush] (by simp [turns]) rfl hgood
  | ensureStarted => exact h.asked [.wake] (by simp [turns]) rfl hgood
  | cancel =>
    simp only [ChunkStoreWriter.step,cancel] at hgood ⊢
    split_ifs at hgood ⊢ with hm
    · refine h.stopping .wake rfl rfl (.inr rfl) rfl rfl rfl rfl rfl rfl rfl ?_ hgood
      exact ⟨fun _ => rfl,by rintro s ⟨rfl⟩; rfl,fun s hs => by simp [hmay hm] at hs⟩
    · exact h
  | drainAndClose =>
    simp only [ChunkStoreWriter.step,drainAndClose] at hgood ⊢
    split_ifs at hgood ⊢ with hm
    · refine h.stopping .drive rfl rfl (.inl rfl) rfl rfl rfl rfl rfl rfl rfl ?_ hgood
      exact ⟨by simp,hstop.fails,fun s hs => by simp [hmay hm] at hs⟩
    · exact h
  | abortWithStatus status =>
    simp only [ChunkStoreWriter.step,abortWithStatus] at hgood ⊢
    split_ifs at hgood ⊢ with hm
    · simp only [Bool.and_eq_true,Bool.not_eq_true',Bool.or_eq_true] at hm
      refine h.stopping .wake rfl rfl (.inr rfl) rfl rfl rfl rfl rfl rfl rfl ?_ hgood
      refine ⟨fun _ => rfl,by rintro s ⟨rfl⟩; exact hm.1,fun s hs hok => ?_⟩
      rcases hm.2 with hmay' | hretry
      · simp [hmay hmay'] at hs
      · have hs : w.core.status = some s := hs
        simp [retryFailedClose,hs,hok] at hretry
    · exact h
  | waitForBufferToDrain => exact h.waits hgood
  | attachStream stream =>
    simp only [ChunkStoreWriter.step] at hgood ⊢
    split_ifs at hgood ⊢
    · exact h
    · exact ⟨hgood,{ h.pumped with },{ hstop with },h.told⟩
  | detachStream stream =>
    exact ⟨hgood,{ h.pumped with },{ hstop with },h.told⟩
  | wrote result | closed result =>
    simp only [ChunkStoreWriter.step] at hgood ⊢
    split at hgood
    · exact h
    exact Watched.call hgood
      (Pumped.called (c := w.core) [_] (by simp [turns]) rfl rfl rfl
        (fun hw => .inl ⟨hw,id,id⟩) (fun hc => .inl ⟨hc,rfl,id⟩) h.pumped)
      { hstop with }
      (Told.called (c := w.core) [_] rfl rfl rfl rfl h.told)
  | advance i reply => exact h.advance hval i reply hcovers

theorem watched_create (h : create o = .ok c) : Watched cfg o { core := c } := by
  refine ⟨good_create h,?_,?_,?_⟩
  · obtain ⟨-,rfl⟩ := create_ok h
    constructor <;> simp
  · obtain ⟨-,rfl⟩ := create_ok h
    constructor <;> simp
  · obtain ⟨-,rfl⟩ := create_ok h
    simp [Told]

/-- No store call, tee or close is in flight, nothing is queued or outstanding, and no fiber has
anything left to do. -/
structure Quiescent (w : World) : Prop where
  operation : w.core.operation = .none
  tees : w.core.teesInFlight = 0
  queue : w.core.queue = []
  outstanding : w.core.outstanding = 0
  fibers : w.fibers.flatten = []

/-- Whoever has ever waited for the buffer to drain has been told. -/
def AllTold (w : World) : Prop :=
  w.core.drainWaiters = [] ∧ ∀ i < w.core.waiters, i ∈ w.core.released.map Prod.fst

theorem Watched.allTold (h : Watched cfg o w) (hquiet : Quiescent w) : AllTold w := by
  have hstill : ¬Stirring w.core w.fibers.flatten := by
    rw [hquiet.fibers]
    simp [Stirring,Owed]
  have hidle : ¬Busy w.core := by simp [Busy,hquiet.outstanding,hquiet.tees]
  have hopen : ¬w.core.closing = true := by
    intro hclo
    rcases h.pumped.closing hclo with hop | hbusy | hstir
    · exact hop hquiet.operation
    · exact hidle hbusy
    · exact hstill hstir
  have hnone : w.core.drainWaiters = [] := by
    by_contra hwaits
    rcases h.pumped.watched hwaits with hbusy | hclo | hstir
    · exact hidle hbusy
    · exact hopen hclo
    · exact hstill hstir
  refine ⟨hnone,fun i hi => ?_⟩
  have htold := h.told
  unfold Told at htold
  rw [hnone,hquiet.fibers,nil_append] at htold
  exact htold.mem_iff.mpr (mem_range.mpr hi)

/-- In a run that ends no close and no cancellation behind a waiter's back, every quiescent state
has told every waiter. -/
theorem waiters_told (cfg : Config) (o : Options) (c : Core) (hcreate : create o = .ok c)
    (actions : List Action) (hcovers : Runs.Along (step cfg) Covers { core := c } actions)
    (hquiet : Quiescent (run cfg c actions)) : AllTold (run cfg c actions) := by
  have hwatched : Watched cfg o (run cfg c actions) :=
    Runs.after_along (I := Watched cfg o)
      (fun _ action hw hcovers => hw.step (create_ok hcreate).1 action hcovers)
      (watched_create hcreate) hcovers
  exact hwatched.allTold hquiet

/-- A write, a waiter that is told when it has drained, and a graceful close. -/
def drainedAndClosed : List Action :=
  [.enqueue (.chunk { data := [1] }) none true true,.waitForBufferToDrain,.advance 0 {}]++
    List.replicate 20 (.advance 2 { wrote := some (.ok [0]) })++[.drainAndClose]++
    List.replicate 8 (.advance 3 { closed := some (.ok .okStatus) })

theorem waiters_told_closed : AllTold (run holdingConfig plainCore drainedAndClosed) ∧
    (run holdingConfig plainCore drainedAndClosed).core.waiters = 1 :=
  ⟨waiters_told holdingConfig {} plainCore rfl drainedAndClosed (by decide)
    ⟨rfl,rfl,rfl,rfl,rfl⟩,rfl⟩

/-- A caller waits for the buffer while the store closes. -/
def waitsWhileClosing : List Action :=
  [.drainAndClose]++List.replicate 7 (.advance 0 {})++
    [.waitForBufferToDrain,.closed (.ok .okStatus),.advance 2 {}]

/-- A caller waits for a buffer that a cancellation empties. -/
def waitsUntilCancelled : List Action :=
  [.enqueue (.chunk { data := [1] }) none true false,.waitForBufferToDrain,.cancel,.advance 2 {}]++
    List.replicate 6 (.advance 3 {})

theorem waiters_forgotten : create {} = .ok plainCore ∧
    (Quiescent (run holdingConfig plainCore waitsWhileClosing) ∧
      ¬AllTold (run holdingConfig plainCore waitsWhileClosing)) ∧
    Quiescent (run holdingConfig plainCore waitsUntilCancelled) ∧
      ¬AllTold (run holdingConfig plainCore waitsUntilCancelled) := by
  refine ⟨rfl,⟨⟨rfl,rfl,rfl,rfl,rfl⟩,fun htold => ?_⟩,⟨rfl,rfl,rfl,rfl,rfl⟩,fun htold => ?_⟩
  · exact absurd htold.1 (by decide)
  · exact absurd htold.1 (by decide)

end A11.ChunkStoreWriter
