import A11.WriterSteps

/-! Every run of the chunk store writer keeps its ledger: what is accepted is resolved once, and
reaches the store in order and at most once. -/
namespace A11.ChunkStoreWriter
open List

variable {cfg : Config} {o : Options} {c d : Core} {fs gs : List Frame}

/-! ### Writes that wait for admission -/

theorem Backlog.releaseWaiters (h : Backlog o c) : Backlog o (releaseWaiters c) := by
  unfold ChunkStoreWriter.releaseWaiters
  split <;> exact h

theorem Backlog.beginWork (h : Backlog o c) : Backlog o (beginWork c).1 := by
  unfold ChunkStoreWriter.beginWork
  split_ifs <;> exact h

theorem Backlog.pass (h : Backlog o c) : Backlog o (pass c).core := by
  unfold ChunkStoreWriter.pass
  split
  · exact h
  · exact ((halts_stopped c).backlog h).releaseWaiters.beginWork

theorem backlog_admitPending (hopt : c.options = o) : Backlog o (admitPending c) := by
  intro hne
  rw [← hopt]
  unfold admitPending at hne ⊢
  cases hn : c.options.numChunksToBuffer with
  | none => simp [hn] at hne
  | some n =>
    refine ⟨n,rfl,?_⟩
    simp only [hn,ne_eq,drop_eq_nil_iff,length_take] at hne ⊢
    omega

theorem Backlog.finishWrite (h : Backlog o c) (hopt : c.options = o) (generation : ℕ)
    (result : StatusOr (List UInt32)) (status : Status) :
    Backlog o (finishWrite c generation result status).core := by
  unfold ChunkStoreWriter.finishWrite
  split
  · exact h
  split
  · dsimp only
    have hset (failed : Bool) (r : Core) (s : Status) (hr : r.options = o) :
        Backlog o (if failed then failWriter r s else admitPending r) := by
      cases failed with
      | true => exact backlog_of_nil rfl
      | false => exact backlog_admitPending hr
    split
    · exact (halts_failClose _).backlog (hset _ (retireBatch c _ _) _ hopt).releaseWaiters
    · exact (hset _ (retireBatch c _ _) _ hopt).releaseWaiters
  · exact h

theorem Backlog.finishTee (h : Backlog o c) (status : Status) :
    Backlog o (finishTee c status).core := by
  unfold ChunkStoreWriter.finishTee
  dsimp only
  refine Backlog.releaseWaiters ?_
  split
  · exact (halts_failClose _).backlog (backlog_of_nil rfl)
  · exact h

/-- The frames that leave the queues, the waiters and the writer's end as they are. -/
def Frame.steady : Frame → Bool
  | .once | .complete .. | .release .. | .finishWrite .. | .finishTee .. | .closeDone .. => false
  | _ => true

theorem perform_steady (cfg : Config) (c : Core) {frame : Frame} (reply : Reply) (h : frame.steady = true) :
    ∃ depth again queued pendingWrites pendingCloses puts,
      (perform cfg c frame reply).core =
        { c with depth, again, queued, pendingWrites, pendingCloses, puts } ∧
      ∀ f ∈ (perform cfg c frame reply).pushed++(perform cfg c frame reply).spawned.flatten,
        ∀ waiters status, f ≠ .release waiters status := by
  cases frame with
  | once | complete | release | finishWrite | finishTee | closeDone => cases h
  | drive | turn | redrive | wake | flush | startClose generation requested =>
    simp only [perform,drive,turn,redrivePump,wake,flush,startClose]
    split <;> exact ⟨_,_,_,_,_,_,rfl,by simp⟩
  | startWrite generation =>
    simp only [perform,startWrite]
    split
    · exact ⟨_,_,_,_,_,_,rfl,by simp⟩
    · split
      · exact ⟨_,_,_,_,_,_,rfl,by simp [awaitWrite]⟩
      · cases reply.wrote <;> exact ⟨_,_,_,_,_,_,rfl,by simp [awaitWrite]⟩
  | writeDone generation result =>
    simp only [perform,writeDone]
    split
    · split <;> exact ⟨_,_,_,_,_,_,rfl,by simp⟩
    · exact ⟨_,_,_,_,_,_,rfl,by simp⟩
  | scheduleTee streams | tee streams => exact ⟨_,_,_,_,_,_,rfl,by simp [perform]⟩

theorem Backlog.perform (h : Backlog o c) (hopt : c.options = o) (frame : Frame)
    (reply : Reply) : Backlog o (perform cfg c frame reply).core := by
  by_cases hsteady : frame.steady = true
  · obtain ⟨_,_,_,_,_,_,hcore,-⟩ := perform_steady cfg c reply hsteady
    rw [hcore]
    exact h
  cases frame with
  | once =>
    have hqd : Backlog o { c with queued := false } := h
    exact hqd.pass
  | complete elements sequences status | release waiters status => exact h
  | finishWrite generation result status => exact h.finishWrite hopt generation result status
  | finishTee status => exact h.finishTee status
  | closeDone generation requested tee result =>
    change Backlog o (closeDone c generation requested tee result).core
    unfold closeDone
    split <;> exact h
  | _ => exact absurd rfl hsteady

/-! ### The calls -/

theorem Inv.numbering (n m : ℕ) (mimetype : Bytes) (h : Inv cfg o c fs) :
    Inv cfg o { c with nextOffsetSeq := n, nextStickySeq := m, currentMimetype := mimetype } fs := { h with }

section

variable (e : Element) (hid : e.id = c.accepted.length) (hstatus : c.status = none)

include e hid hstatus

/-- An accepted write joins the queue, behind everything accepted before it. -/
theorem Inv.queued (hclo : c.closing = false) (hroom : hasRoom c = true)
    (hpend : c.pendingQueue = []) (h : Inv cfg o c fs) :
    Inv cfg o { c with
      accepted := c.accepted++[e], queue := c.queue++[e], outstanding := c.outstanding+1 }
      fs := by
  refine { h with
      count := ?_, limit := ?_, stopped := ?_, closeOp := ?_, conserved := ?_, order := ?_,
      ids := ?_ }
  · have hcnt := h.count
    change c.outstanding+1 = (c.queue++[e]).length+(inFlight c).length
    rw [length_append,length_singleton]
    omega
  · intro n hn
    rw [← h.options] at hn
    simpa [hasRoom,hn] using hroom
  · intro hsome
    simp [hstatus] at hsome
  · intro hcl
    have hopen := (h.closeOp hcl).1
    simp [hclo] at hopen
  · change (c.queue++[e]++c.pendingQueue++inFlight c++fs.flatMap Frame.completing++
      c.resolved.map Prod.fst).Perm (c.accepted++[e])
    refine perm_iff_count.mpr fun x => ?_
    have hcnt := h.conserved.count_eq x
    simp only [count_append] at hcnt ⊢
    omega
  · have hord := h.order
    rw [hpend,append_nil] at hord ⊢
    rw [← append_assoc]
    exact hord.append (Sublist.refl _)
  · simp [h.ids,hid,range_succ]

/-- An accepted write waits for admission, behind everything accepted before it. -/
theorem Inv.waiting (h : Inv cfg o c fs) :
    Inv cfg o { c with accepted := c.accepted++[e], pendingQueue := c.pendingQueue++[e] }
      fs := by
  refine { h with
      stopped := ?_, conserved := ?_, order := ?_, ids := (by simp [h.ids,hid,range_succ]) }
  · intro hsome
    simp [hstatus] at hsome
  · change (c.queue++(c.pendingQueue++[e])++inFlight c++fs.flatMap Frame.completing++
      c.resolved.map Prod.fst).Perm (c.accepted++[e])
    refine perm_iff_count.mpr fun x => ?_
    have hcnt := h.conserved.count_eq x
    simp only [count_append] at hcnt ⊢
    omega
  · rw [← append_assoc]
    exact h.order.append (Sublist.refl _)

end

theorem pendingQueue_of_room (hroom : hasRoom c = true) (hopt : c.options = o)
    (h : Backlog o c) : c.pendingQueue = [] := by
  by_contra hne
  obtain ⟨n,hn,_⟩ := h hne
  rw [← hopt] at hn
  simp only [hasRoom,hn,decide_eq_true_eq] at hroom
  omega

theorem Inv.enqueuePayload (payload : Payload) (seq : Option UInt32) (final admitted : Bool)
    (hlog : Backlog o c) (h : Inv cfg o c fs)
    (heq : enqueuePayload c payload seq final = .ok (d,admitted)) :
    Inv cfg o d fs ∧ Backlog o d := by
  obtain ⟨hstatus,hclo,n,m,k,e,-,hid,-,⟨hroom,rfl⟩ | ⟨hroom,rfl⟩⟩ := enqueuePayload_ok heq
  · have hnil := pendingQueue_of_room hroom h.options hlog
    exact ⟨(h.queued e hid hstatus hclo hroom hnil).numbering n k m,backlog_of_nil hnil⟩
  · refine ⟨(h.waiting e hid hstatus).numbering n k m,fun _ => ?_⟩
    unfold hasRoom at hroom
    split at hroom
    · cases hroom
    · rename_i limit hlim
      exact ⟨limit,by rw [← h.options,hlim],by simpa using hroom⟩

theorem Inv.stopping (stopStatus : Option Status) (lifecycle : Lifecycle) (hlife : lifecycle ≠ .none)
    (hlive : c.lifecycleCompleted = false) (h : Inv cfg o c fs) :
    Inv cfg o { c with closing := true, stopStatus := stopStatus, lifecycle := lifecycle } fs := { h with
      live := (by simp [hlife,hlive]), fresh := (fun hnone => absurd hnone hlife),
      closeOp := (fun hcl => ⟨rfl,(h.closeOp hcl).2⟩) }

theorem mayStop_fresh (h : mayStop c = true) (hinv : Inv cfg o c fs) :
    c.lifecycleCompleted = false := by
  simp only [mayStop,Bool.and_eq_true,decide_eq_true_eq] at h
  exact hinv.fresh h.1

theorem Inv.abortWithStatus (status : Status) (h : Inv cfg o c fs)
    (heq : abortWithStatus c status = some d) : Inv cfg o d fs := by
  unfold ChunkStoreWriter.abortWithStatus at heq
  split at heq
  · cases heq
    exact { h with
        live := (by simp), fresh := (by simp),
        closeOp := (fun hcl => ⟨rfl,(h.closeOp hcl).2⟩) }
  · cases heq

theorem Inv.waiters (count : ℕ) (waiters : List ℕ) (h : Inv cfg o c fs) :
    Inv cfg o { c with waiters := count, drainWaiters := waiters } fs := { h with }

/-- A waiter is told at once, or registered. -/
theorem waitForBufferToDrain_cases (c : Core) :
    (∃ status, waitForBufferToDrain c =
      { core := { c with waiters := c.waiters+1 }, pushed := [.release [c.waiters] status] }) ∨
    ¬drained c = true ∧ waitForBufferToDrain c = { core := { c with
      waiters := c.waiters+1, drainWaiters := c.drainWaiters++[c.waiters] } } := by
  unfold waitForBufferToDrain
  split
  · exact .inl ⟨_,rfl⟩
  · split_ifs with hdrain
    · exact .inl ⟨_,rfl⟩
    · exact .inr ⟨hdrain,rfl⟩

theorem Inv.waitForBufferToDrain (h : Inv cfg o c fs) :
    Inv cfg o (waitForBufferToDrain c).core ((waitForBufferToDrain c).pushed++fs) := by
  rcases waitForBufferToDrain_cases c with ⟨status,heq⟩ | ⟨-,heq⟩ <;> rw [heq]
  · exact (Inv.plain [] [_] (by simp) (by simp [Frame.plain]) h).waiters _ _
  · exact h.waiters _ _

theorem Inv.attached (streams : List ℕ) (h : Inv cfg o c fs) :
    Inv cfg o { c with attachedStreams := streams } fs := { h with }

/-! ### Steps and runs -/

/-- One fiber of many, and what the others still have to do. -/
theorem exists_others {α : Type} (l : List (List α)) (i : ℕ) (x : List α) (h : l[i]? = some x) :
    ∃ others, l.flatten.Perm (x++others) ∧ ∀ y, (l.set i y).flatten.Perm (y++others) := by
  induction l generalizing i with
  | nil => simp at h
  | cons a l ih =>
    cases i with
    | zero =>
      simp only [getElem?_cons_zero,Option.some.injEq] at h
      subst h
      exact ⟨l.flatten,by simp,fun y => by simp⟩
    | succ i =>
      obtain ⟨others,hold,hnew⟩ := ih i (by simpa using h)
      refine ⟨a++others,?_,fun y => ?_⟩
      · exact (hold.append_left a).trans (perm_append_comm_assoc a x others)
      · exact ((hnew y).append_left a).trans (perm_append_comm_assoc a y others)

theorem advanced_perm {α : Type} {l : List (List α)} {i : ℕ} {others : List α}
    (pushed rest : List α) (spawned : List (List α))
    (hnew : ∀ y, (l.set i y).flatten.Perm (y++others)) :
    (pushed++(spawned.flatten++(rest++others))).Perm
      (l.set i (pushed++rest)++spawned).flatten := by
  rw [flatten_append]
  refine Perm.trans ?_ ((hnew _).append_right _).symm
  rw [append_assoc _ rest,append_assoc]
  exact Perm.append_left _ perm_append_comm

def Good (cfg : Config) (o : Options) (w : World) : Prop :=
  Inv cfg o w.core w.fibers.flatten ∧ Backlog o w.core

variable {w : World}

theorem Good.call (hinv : Inv cfg o d (fs++w.fibers.flatten)) (hlog : Backlog o d) :
    Good cfg o (w.call d fs) := by
  refine ⟨hinv.perm ?_,hlog⟩
  simp only [World.call,flatten_append,flatten_cons,flatten_nil,append_nil]
  exact perm_append_comm

theorem Good.advance (hval : o.validate = .ok ()) (h : Good cfg o w) (i : ℕ)
    (reply : Reply) : Good cfg o (step cfg w (.advance i reply)) := by
  simp only [step]
  split
  · rename_i frame rest hfib
    obtain ⟨_,hold,hnew⟩ := exists_others w.fibers i _ hfib
    have hperf := (h.1.perm hold).perform frame reply hval h.2
    exact ⟨hperf.perm (advanced_perm _ rest _ hnew),h.2.perform h.1.options frame reply⟩
  · exact h

theorem Good.step (hval : o.validate = .ok ()) (h : Good cfg o w) (action : Action) :
    Good cfg o (step cfg w action) := by
  have hplain (f : Frame) (hf : f.plain = true) (d : Core) (hd : Inv cfg o d w.fibers.flatten) :
      Inv cfg o d ([f]++w.fibers.flatten) :=
    Inv.plain [] [f] (by simp) (by simpa using hf) hd
  cases action with
  | enqueue payload seq final ensureStarted =>
    simp only [ChunkStoreWriter.step]
    split
    · exact h
    rename_i d admitted heq
    obtain ⟨hinv,hlog⟩ := h.1.enqueuePayload payload seq final admitted h.2 heq
    refine Good.call ?_ hlog
    split
    · exact hplain _ rfl d hinv
    · exact hinv
  | flush | ensureStarted => exact Good.call (hplain _ rfl _ h.1) h.2
  | cancel | drainAndClose =>
    simp only [ChunkStoreWriter.step,cancel,drainAndClose]
    split
    · rename_i d heq
      split at heq
      · rename_i hmay
        cases heq
        exact Good.call (hplain _ rfl _ (h.1.stopping _ _ (by decide) (mayStop_fresh hmay h.1))) h.2
      · cases heq
    · exact h
  | abortWithStatus status =>
    simp only [ChunkStoreWriter.step]
    split
    · rename_i d heq
      refine Good.call (hplain _ rfl _ (h.1.abortWithStatus status heq)) ?_
      unfold abortWithStatus at heq
      split at heq
      · cases heq
        exact h.2
      · cases heq
    · exact h
  | waitForBufferToDrain =>
    refine Good.call h.1.waitForBufferToDrain ?_
    rcases waitForBufferToDrain_cases w.core with ⟨status,heq⟩ | ⟨-,heq⟩ <;> rw [heq] <;> exact h.2
  | attachStream stream =>
    simp only [ChunkStoreWriter.step]
    split
    · exact h
    · exact ⟨h.1.attached _,h.2⟩
  | detachStream stream => exact ⟨h.1.attached _,h.2⟩
  | wrote result =>
    simp only [ChunkStoreWriter.step]
    split
    · exact h
    · rename_i generation rest hpend
      exact Good.call (h.1.writeAnswered generation rest result hpend) h.2
  | closed result =>
    simp only [ChunkStoreWriter.step]
    split
    · exact h
    · rename_i close rest hpend
      exact Good.call (h.1.closeAnswered close rest result hpend) h.2
  | advance i reply => exact h.advance hval i reply

theorem create_ok (h : create o = .ok c) : o.validate = .ok () ∧
    c = { options := o, nextOffsetSeq := o.offset.toNat, nextStickySeq := o.offset.toNat } := by
  unfold create at h
  cases hval : o.validate with
  | error status => simp [hval] at h
  | ok u => exact ⟨rfl,by simpa [hval,eq_comm] using h⟩

theorem good_create (h : create o = .ok c) : Good cfg o { core := c } := by
  obtain ⟨-,rfl⟩ := create_ok h
  refine ⟨?_,backlog_of_nil rfl⟩
  constructor <;> simp [inFlight,tokens,underWay,putElements,unsent]

/-- No operation is under way, nothing is queued, and no fiber still owes a result. -/
structure Settled (w : World) : Prop where
  operation : w.core.operation = .none
  queue : w.core.queue = []
  fibers : ∀ f ∈ w.fibers.flatten, f.completing = []

theorem Good.accepted_nodup (h : Good cfg o w) : w.core.accepted.Nodup := by
  refine Nodup.of_map (·.id) ?_
  rw [h.1.ids]
  exact nodup_range

theorem Good.resolved_perm (hval : o.validate = .ok ()) (h : Good cfg o w)
    (hset : Settled w) : (w.core.resolved.map Prod.fst).Perm w.core.accepted := by
  obtain ⟨-,-,hfl,-⟩ := h.1.idle hset.operation
  have hpend : w.core.pendingQueue = [] := by
    by_contra hne
    obtain ⟨n,hn,_⟩ := h.2 hne
    have hpos := (validate_positive hval).2 n hn
    have hcnt := h.1.count
    simp only [hset.queue,hfl,length_nil] at hcnt
    omega
  have hcomp : w.fibers.flatten.flatMap Frame.completing = [] :=
    flatMap_eq_nil_iff.mpr hset.fibers
  simpa [hset.queue,hpend,hfl,hcomp] using h.1.conserved

/-- A store that holds in-process values as they are. -/
def holdingConfig : Config := ⟨true,fun _ => .ok [],fun _ => []⟩

def plainCore : Core := { options := {}, nextOffsetSeq := 0, nextStickySeq := 0 }

/-- Two writes, one without a sequence and one with; the store answers both at once. -/
def twoWrites : List Action :=
  [.enqueue (.chunk { data := [1] }) none false true,
    .enqueue (.chunk { data := [2] }) (some 1) true true,.advance 0 {}]++
    List.replicate 15 (.advance 2 { wrote := some (.ok [0]) })++
    List.replicate 12 (.advance 2 { wrote := some (.ok [1]) })

end A11.ChunkStoreWriter
