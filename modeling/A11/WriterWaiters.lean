import A11.WriterRuns

/-! Waiting for the buffer of the chunk store writer to drain: who is still to run the pump, and
which waiters nobody is left to tell. -/
namespace A11.ChunkStoreWriter
open List Frame

namespace Frame

/-- The fiber is about to run the pump. -/
def drives : Frame → Bool
  | .drive | .once | .redrive => true
  | _ => false

def turns : Frame → ℕ
  | .turn => 1
  | _ => 0

/-- The waiters a fiber is about to tell. -/
def releasing : Frame → List ℕ
  | .release waiters _ => waiters
  | _ => []

/-- The frame has no part in running the pump or telling waiters. -/
def quiet : Frame → Bool
  | .drive | .once | .redrive | .turn | .wake | .release _ _ => false
  | _ => true

end Frame

/-- A pass of the pump is still to come. -/
def Owed (c : Core) (fs : List Frame) : Prop :=
  (∃ f ∈ fs, f.drives = true) ∨ c.again = true ∧ .turn ∈ fs

/-- A pass is still to come, or a fiber that asks for one. -/
def Stirring (c : Core) (fs : List Frame) : Prop := Owed c fs ∨ .wake ∈ fs

def Busy (c : Core) : Prop := c.outstanding ≠ 0 ∨ c.teesInFlight ≠ 0

structure Pumped (c : Core) (fs : List Frame) : Prop where
  depth : c.depth = (fs.map Frame.turns).sum
  queued : c.queued = true → Owed c fs
  watched : c.drainWaiters ≠ [] → Busy c ∨ c.closing = true ∨ Stirring c fs
  closing : c.closing = true → c.operation ≠ .none ∨ Busy c ∨ Stirring c fs

/-- How the writer stops. -/
structure Stops (c : Core) : Prop where
  asked : c.lifecycle = .cancel ∨ c.lifecycle = .abort → c.stopStatus.isSome = true
  fails : ∀ s, c.stopStatus = some s → s.isOk = false
  closed : ∀ s, c.status = some s → s.isOk = true → c.lifecycleCompleted = true

/-- Every waiter is registered, about to be told, or told. -/
def Told (c : Core) (fs : List Frame) : Prop :=
  (c.drainWaiters++fs.flatMap Frame.releasing++c.released.map Prod.fst).Perm
    (List.range c.waiters)

variable {cfg : Config} {o : Options} {c d : Core} {fs gs : List Frame}

/-! ### Running the pump -/

variable (new : List Frame)

theorem Owed.append_left (h : Owed c fs) : Owed c (new++fs) := by
  rcases h with ⟨f,hf,hdrives⟩ | ⟨hagain,hturn⟩
  · exact .inl ⟨f,mem_append_right _ hf,hdrives⟩
  · exact .inr ⟨hagain,mem_append_right _ hturn⟩

theorem Stirring.append_left (h : Stirring c fs) : Stirring c (new++fs) := by
  rcases h with h | h
  · exact .inl (h.append_left new)
  · exact .inr (mem_append_right _ h)

theorem Owed.perm (hperm : fs.Perm gs) (h : Owed c fs) : Owed c gs := by
  rcases h with ⟨f,hf,hdrives⟩ | ⟨hagain,hturn⟩
  · exact .inl ⟨f,hperm.mem_iff.mp hf,hdrives⟩
  · exact .inr ⟨hagain,hperm.mem_iff.mp hturn⟩

theorem Stirring.perm (hperm : fs.Perm gs) (h : Stirring c fs) : Stirring c gs := by
  rcases h with h | h
  · exact .inl (h.perm hperm)
  · exact .inr (hperm.mem_iff.mp h)

/-- A frame that does not drive leaves the rest to owe the pass. -/
theorem Owed.tail (f : Frame) (hdrives : f.drives = false)
    (hturn : f ≠ .turn ∨ c.again = false) (h : Owed c (f::fs)) : Owed c fs := by
  rcases h with ⟨g,hg,hdriven⟩ | ⟨hagain,hmem⟩
  · rcases mem_cons.mp hg with rfl | hg
    · rw [hdrives] at hdriven
      cases hdriven
    · exact .inl ⟨g,hg,hdriven⟩
  rcases mem_cons.mp hmem with heq | hmem
  · rcases hturn with hne | hnot
    · exact absurd heq.symm hne
    · rw [hagain] at hnot
      cases hnot
  · exact .inr ⟨hagain,hmem⟩

theorem Pumped.frames {n : ℕ} (hdep : n = (gs.map turns).sum)
    (howed : Owed c fs → Owed c gs) (hwake : .wake ∈ fs → .wake ∈ gs) (h : Pumped c fs) :
    Pumped { c with depth := n } gs where
  depth := hdep
  queued hq := howed (h.queued hq)
  watched hw := (h.watched hw).imp_right (Or.imp_right (Or.imp howed hwake))
  closing hc := (h.closing hc).imp_right (Or.imp_right (Or.imp howed hwake))

theorem Pumped.perm (hperm : fs.Perm gs) (h : Pumped c fs) : Pumped c gs :=
  h.frames (h.depth.trans (hperm.map _).sum_eq) (Owed.perm hperm) hperm.mem_iff.mp

theorem Owed.pumped (hdep : c.depth = (fs.map turns).sum) (h : Owed c fs) : Pumped c fs :=
  ⟨hdep,fun _ => h,fun _ => .inr (.inr (.inl h)),fun _ => .inr (.inr (.inl h))⟩

/-- A frame without a part in the pump ends, and others like it follow. -/
theorem Pumped.quiet (f : Frame) (new : List Frame) (hf : f.quiet = true)
    (hnew : ∀ g ∈ new, g.turns = 0) (h : Pumped c (f::fs)) : Pumped c (new++fs) := by
  have hdrives : f.drives = false := by cases f <;> simp_all [Frame.quiet,Frame.drives]
  have hturns : f.turns = 0 := by cases f <;> simp_all [Frame.quiet,Frame.turns]
  have hturn : f ≠ .turn := by rintro rfl; cases hf
  have hwake : f ≠ .wake := by rintro rfl; cases hf
  have hsum : (new.map Frame.turns).sum = 0 := by simpa [sum_eq_zero_iff] using hnew
  refine h.frames ?_ (fun ho => (ho.tail f hdrives (.inl hturn)).append_left new) fun hmem => ?_
  · simpa [hturns,hsum] using h.depth
  · exact mem_append_right _ ((mem_cons.mp hmem).resolve_left hwake.symm)

/-- Whatever a section did, the pump runs again. -/
theorem Pumped.redriven (hdep : d.depth = (fs.map turns).sum)
    (hturns : ∀ g ∈ new, g.turns = 0) (hdriven : ∃ g ∈ new, g.drives = true) :
    Pumped d (new++fs) := by
  have hsum : (new.map turns).sum = 0 := by simpa [sum_eq_zero_iff] using hturns
  obtain ⟨g,hg,hdrives⟩ := hdriven
  exact Owed.pumped (by simp [hdep,hsum]) (.inl ⟨g,mem_append_left _ hg,hdrives⟩)

theorem turn_mem_of_depth (h : 0 < (fs.map turns).sum) : .turn ∈ fs := by
  by_contra hno
  have hzero : (fs.map turns).sum = 0 := by
    rw [sum_eq_zero_iff]
    intro n hn
    obtain ⟨f,hf,rfl⟩ := mem_map.mp hn
    cases f <;> first | rfl | exact absurd hf hno
  omega

theorem Pumped.drive (h : Pumped c (.drive::fs)) : After Pumped (drive c) fs := by
  have hdep : c.depth = (fs.map turns).sum := by simpa [turns] using h.depth
  unfold ChunkStoreWriter.drive
  split
  · rename_i hdeep
    have hpos : 0 < c.depth := lt_of_lt_of_le (by decide) hdeep
    exact Owed.pumped hdep (.inr ⟨rfl,turn_mem_of_depth (hpos.trans_eq hdep)⟩)
  · refine Owed.pumped ?_ (.inl ⟨.once,by simp,rfl⟩)
    simp [turns,hdep,Nat.add_comm]

theorem Pumped.turn (h : Pumped c (.turn::fs)) : After Pumped (turn c) fs := by
  have hdep := h.depth
  simp only [turns,map_cons,sum_cons] at hdep
  unfold ChunkStoreWriter.turn
  split
  · exact Owed.pumped (by simp [turns,hdep]) (.inl ⟨.once,by simp,rfl⟩)
  rename_i hagain
  exact h.frames (by simp [hdep]) (Owed.tail .turn rfl (.inr (by simpa using hagain))) (by simp)

theorem Pumped.redrivePump (h : Pumped c (.redrive::fs)) : After Pumped (redrivePump c) fs := by
  have hdep : c.depth = (fs.map turns).sum := by simpa [turns] using h.depth
  unfold ChunkStoreWriter.redrivePump
  split
  · rename_i hdeep
    exact Owed.pumped hdep (.inr ⟨rfl,turn_mem_of_depth (hdeep.trans_eq hdep)⟩)
  · exact Pumped.redriven [.drive] hdep (by simp [turns]) ⟨.drive,by simp,rfl⟩

/-- An operation under way keeps the writer busy, or closing. -/
theorem busy_of_operation (hinv : Inv cfg o c gs) (hop : c.operation ≠ .none) :
    Busy c ∨ c.closing = true := by
  cases hcase : c.operation with
  | none => exact absurd hcase hop
  | write =>
    obtain ⟨batch,hbat⟩ := Option.isSome_iff_exists.mp (hinv.batch.mp hcase)
    have hne := (hinv.uniform batch hbat).1
    have hcnt := hinv.count
    rw [inFlight,hbat] at hcnt
    have hpos := length_pos_iff.mpr hne
    exact .inl (.inl (by dsimp only at hcnt; omega))
  | close => exact .inr (hinv.closeOp hcase).1

theorem Pumped.wake (hinv : Inv cfg o c gs) (h : Pumped c (.wake::fs)) :
    After Pumped (wake c) fs := by
  have hdep : c.depth = (fs.map turns).sum := by simpa [turns] using h.depth
  unfold ChunkStoreWriter.wake
  split
  · exact Pumped.redriven [.drive] hdep (by simp [turns]) ⟨.drive,by simp,rfl⟩
  rename_i hidle
  simp only [Bool.and_eq_true,Bool.not_eq_true',decide_eq_true_eq,not_and] at hidle
  have howed (hq : c.queued = true) : Owed c fs := (h.queued hq).tail .wake rfl (.inl (by simp))
  refine ⟨hdep,howed,fun hw => ?_,fun hc => ?_⟩
  · cases hq : c.queued with
    | true => exact .inr (.inr (.inl (howed hq)))
    | false => exact (busy_of_operation hinv (hidle hq)).imp_right .inl
  · cases hq : c.queued with
    | true => exact .inr (.inr (.inl (howed hq)))
    | false => exact .inl (hidle hq)

/-! ### What the parts of a section leave alone -/

theorem kept_releaseWaiters (c : Core) : Kept c (releaseWaiters c) := by
  unfold releaseWaiters
  split
  · exact { kept_refl c with }
  · exact kept_refl c

theorem kept_settle (c : Core) (failed : Bool) (status : Status) :
    Kept c (if failed then failWriter c status else admitPending c) := by
  cases failed <;> exact { kept_refl c with }

/-- Beginning work tells no waiter. -/
structure Begins (c d : Core) (work : List Frame) : Prop extends Kept c d where
  status : d.status = c.status
  drainWaiters : d.drainWaiters = c.drainWaiters
  releasing : work.flatMap Frame.releasing = []
  turns : ∀ f ∈ work, f.turns = 0

theorem begins_beginWork (c : Core) : Begins c (beginWork c).1 (beginWork c).2 := by
  unfold beginWork
  split_ifs
  · exact ⟨{ kept_refl c with completed := fun _ => rfl },rfl,rfl,rfl,by simp⟩
  all_goals exact ⟨{ kept_refl c with },rfl,rfl,rfl,by simp [turns]⟩

/-- A waiter stays registered or is told. -/
theorem releaseWaiters_releasedBy (c : Core) :
    (releaseWaiters c).drainWaiters++releasedBy c = c.drainWaiters := by
  unfold releaseWaiters releasedBy
  split <;> simp

/-! ### How the writer stops -/

section

variable (h : Stops c)

include h

theorem Stops.kept (hkept : Kept c d)
    (hstat : ∀ s, d.status = some s → s.isOk = true → c.status = some s) : Stops d where
  asked := by rw [hkept.lifecycle,hkept.stopStatus]; exact h.asked
  fails := by rw [hkept.stopStatus]; exact h.fails
  closed s hs hok := hkept.completed (h.closed s (hstat s hs hok) hok)

theorem Stops.stop : Stops (stop c) := by
  refine h.kept (halts_stop c).toKept ?_
  unfold ChunkStoreWriter.stop
  split
  · rename_i stop hstop hnone
    rintro s ⟨rfl⟩ hok
    rw [h.fails _ hstop] at hok
    cases hok
  · exact fun s hs _ => hs

theorem Stops.failClose : Stops (failClose c) := by
  refine h.kept (halts_failClose c).toKept ?_
  unfold ChunkStoreWriter.failClose
  split <;> exact fun s hs _ => hs

theorem Stops.failCloseOfStatus : Stops (failCloseOfStatus c) := by
  unfold ChunkStoreWriter.failCloseOfStatus
  split
  · split
    · exact h
    · exact h.failClose
  · exact h

theorem Stops.releaseWaiters : Stops (releaseWaiters c) := by
  refine h.kept (kept_releaseWaiters c) ?_
  unfold ChunkStoreWriter.releaseWaiters
  split <;> exact fun s hs _ => hs

theorem Stops.beginWork : Stops (beginWork c).1 :=
  h.kept (begins_beginWork c).toKept fun _ hs _ => (begins_beginWork c).status.symm.trans hs

end

variable (status : Status)

theorem Stops.failWriter (hfails : status.isOk = true → c.status = some status) (h : Stops c) :
    Stops (failWriter c status) := by
  refine h.kept { kept_refl c with } ?_
  rintro s ⟨rfl⟩ hok
  exact hfails hok

variable (generation : ℕ)

theorem Stops.finishWrite (result : StatusOr (List UInt32)) (status : Status)
    (h : Stops c) : Stops (finishWrite c generation result status).core := by
  unfold ChunkStoreWriter.finishWrite
  split
  · exact h
  rename_i batch hbat
  split
  · dsimp only
    have hret : Stops (retireBatch c batch (status.isOk && !batch.streams.isEmpty)) :=
      h.kept { kept_refl c with } fun s hs _ => hs
    have hset : Stops (if (c.stopStatus.isSome || !status.isOk) = true then
        ChunkStoreWriter.failWriter (retireBatch c batch (status.isOk && !batch.streams.isEmpty))
          (c.stopStatus.getD status)
        else admitPending (retireBatch c batch (status.isOk && !batch.streams.isEmpty))) := by
      split
      · rename_i hfail
        refine hret.failWriter _ fun hok => ?_
        cases hstop : c.stopStatus with
        | some stop =>
          rw [hstop,Option.getD_some,h.fails stop hstop] at hok
          cases hok
        | none =>
          rw [hstop,Option.getD_none] at hok
          simp [hstop,hok] at hfail
      · exact hret.kept ⟨rfl,rfl,id,rfl,rfl,rfl,rfl,rfl⟩ fun s hs _ => hs
    split
    · exact hset.releaseWaiters.failClose
    · exact hset.releaseWaiters
  · exact h

theorem Stops.finishTee (h : Stops c) : Stops (finishTee c status).core := by
  have hret : Stops { c with teesInFlight := c.teesInFlight-1 } :=
    h.kept { kept_refl c with } fun s hs _ => hs
  unfold ChunkStoreWriter.finishTee
  cases hok : status.isOk with
  | true => exact hret.releaseWaiters
  | false =>
    refine (Stops.failClose (hret.failWriter _ fun hfine => ?_)).releaseWaiters
    simp only [Bool.not_false,if_true] at hfine ⊢
    cases hstat : c.status with
    | some s => rfl
    | none =>
      rw [hstat,Option.getD_none,hok] at hfine
      cases hfine

theorem Stops.closeDone (requested tee : Status) (result : StatusOr Status)
    (h : Stops c) : Stops (closeDone c generation requested tee result).core := by
  unfold ChunkStoreWriter.closeDone
  split
  · exact ⟨h.asked,h.fails,fun _ _ _ => rfl⟩
  · exact h

theorem Stops.perform (frame : Frame) (reply : Reply) (h : Stops c) :
    Stops (perform cfg c frame reply).core := by
  by_cases hsteady : frame.steady = true
  · obtain ⟨_,_,_,_,_,_,hcore,-⟩ := perform_steady cfg c reply hsteady
    rw [hcore]
    exact { h with }
  cases frame with
  | once =>
    have hqd : Stops { c with queued := false } := { h with }
    change Stops (pass _).core
    unfold pass
    split
    · exact hqd
    · exact hqd.stop.failCloseOfStatus.releaseWaiters.beginWork
  | complete elements sequences status | release waiters status => exact { h with }
  | finishWrite generation result status => exact h.finishWrite generation result status
  | finishTee status => exact h.finishTee status
  | closeDone generation requested tee result => exact h.closeDone generation requested tee result
  | _ => exact absurd rfl hsteady

/-! ### Telling the waiters -/

theorem Told.perm (hperm : fs.Perm gs) (h : Told c fs) : Told c gs :=
  Perm.trans (((hperm.flatMap_right _).symm.append_left _).append_right _) h

theorem Told.moved (f : Frame) (new : List Frame) (hf : f.releasing = [])
    (hnew : d.drainWaiters++new.flatMap releasing = c.drainWaiters)
    (hrel : d.released = c.released) (hwait : d.waiters = c.waiters)
    (h : Told c (f::fs)) : Told d (new++fs) := by
  unfold Told at h ⊢
  rw [hrel,hwait,flatMap_append,← append_assoc,hnew]
  simpa [hf] using h

theorem Told.pass (h : Told c (.once::fs)) : After Told (pass c) fs := by
  unfold ChunkStoreWriter.pass
  split
  · exact h.moved .once [] rfl (by simp) rfl rfl
  generalize hcls : failCloseOfStatus (stop c) = d
  have hhalts : Halts c d := hcls ▸ halts_stopped c
  have hwork := begins_beginWork (releaseWaiters d)
  have hkept := hhalts.toKept.trans ((kept_releaseWaiters d).trans hwork.toKept)
  refine h.moved .once _ rfl ?_ hkept.released hkept.waiters
  simp only [flatMap_append,flatMap_cons,flatMap_nil,releasing,
    nil_append,append_nil,hwork.releasing]
  rw [hwork.drainWaiters,releaseWaiters_releasedBy,hhalts.drainWaiters]

theorem Told.finishWrite (result : StatusOr (List UInt32)) (status : Status)
    (h : Told c (.finishWrite generation result status::fs)) :
    After Told (finishWrite c generation result status) fs := by
  unfold ChunkStoreWriter.finishWrite
  split
  · exact h.moved _ [] rfl (by simp) rfl rfl
  rename_i batch hbat
  split
  · dsimp only
    generalize (status.isOk && !batch.streams.isEmpty) = teeing
    generalize hd : (if (c.stopStatus.isSome || !status.isOk) = true then
      failWriter (retireBatch c batch teeing) (c.stopStatus.getD status)
      else admitPending (retireBatch c batch teeing)) = d
    have hret : Kept c (retireBatch c batch teeing) := { kept_refl c with }
    have hkept : Kept c d := hd ▸ hret.trans (kept_settle _ _ _)
    have hdrain : d.drainWaiters = c.drainWaiters := by
      rw [← hd]
      split <;> rfl
    have htold := kept_releaseWaiters d
    have hlast : Kept d (if (c.stopStatus.isNone && !status.isOk) = true then
        failClose (releaseWaiters d) else releaseWaiters d) ∧
        (if (c.stopStatus.isNone && !status.isOk) = true then
        failClose (releaseWaiters d) else releaseWaiters d).drainWaiters =
          (releaseWaiters d).drainWaiters := by
      split
      · exact ⟨htold.trans (halts_failClose _).toKept,(halts_failClose _).drainWaiters⟩
      · exact ⟨htold,rfl⟩
    refine h.moved _ _ rfl ?_ (hkept.trans hlast.1).released (hkept.trans hlast.1).waiters
    have htee : (if teeing then [scheduleTee batch.streams] else []).flatMap
        releasing = [] := by
      cases teeing <;> rfl
    rw [hlast.2]
    simp only [flatMap_append,flatMap_cons,flatMap_nil,releasing,nil_append,append_nil,htee]
    rw [releaseWaiters_releasedBy,hdrain]
  · exact h.moved _ [] rfl (by simp) rfl rfl

theorem Told.finishTee (h : Told c (.finishTee status::fs)) :
    After Told (finishTee c status) fs := by
  unfold ChunkStoreWriter.finishTee
  dsimp only
  generalize hd : (if (!status.isOk) = true then
    failClose (failWriter { c with teesInFlight := c.teesInFlight-1 }
      (if (!status.isOk) = true then c.status.getD status else status))
    else { c with teesInFlight := c.teesInFlight-1 }) = d
  have hkept : Kept c d ∧ d.drainWaiters = c.drainWaiters := by
    rw [← hd]
    split
    · refine ⟨Kept.trans ?_ (halts_failClose _).toKept,(halts_failClose _).drainWaiters⟩
      exact { kept_refl c with }
    · exact ⟨{ kept_refl c with },rfl⟩
  have htold := hkept.1.trans (kept_releaseWaiters d)
  refine h.moved _ _ rfl ?_ htold.released htold.waiters
  simp only [flatMap_cons,flatMap_nil,releasing,nil_append,append_nil]
  rw [releaseWaiters_releasedBy,hkept.2]

theorem Told.perform (frame : Frame) (reply : Reply) (h : Told c (frame::fs)) :
    After Told (perform cfg c frame reply) fs := by
  by_cases hsteady : frame.steady = true
  · obtain ⟨_,_,_,_,_,_,hcore,hnew⟩ := perform_steady cfg c reply hsteady
    have hrel : ((ChunkStoreWriter.perform cfg c frame reply).pushed++
        (ChunkStoreWriter.perform cfg c frame reply).spawned.flatten).flatMap releasing = [] := by
      refine flatMap_eq_nil_iff.mpr fun f hf => ?_
      cases f with
      | release waiters status => exact absurd rfl (hnew _ hf waiters status)
      | _ => rfl
    unfold After
    rw [← append_assoc]
    refine h.moved _ _ ?_ ?_ (by rw [hcore]) (by rw [hcore])
    · cases frame with
      | release => cases hsteady
      | _ => rfl
    · rw [hrel,hcore,append_nil]
  cases frame with
  | once =>
    have hqd : Told { c with queued := false } (.once::fs) := h
    exact hqd.pass
  | complete elements sequences status => exact h.moved _ [] rfl (by simp) rfl rfl
  | release waiters status =>
    refine Perm.trans ?_ h
    change (c.drainWaiters++fs.flatMap releasing++
      (c.released++waiters.map fun i => (i,status)).map Prod.fst).Perm _
    have hfst : (waiters.map fun i => (i,status)).map Prod.fst = waiters := by
      simp [Function.comp_def]
    refine perm_iff_count.mpr fun i => ?_
    simp only [map_append,hfst,flatMap_cons,releasing,count_append]
    omega
  | finishWrite generation result status => exact h.finishWrite generation result status
  | finishTee status => exact h.finishTee status
  | closeDone generation requested tee result =>
    change After Told (closeDone c generation requested tee result) fs
    unfold closeDone
    split <;> exact h.moved _ [] rfl (by simp) rfl rfl
  | _ => exact absurd rfl hsteady

end A11.ChunkStoreWriter
