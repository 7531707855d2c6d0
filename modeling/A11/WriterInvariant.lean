import A11.ChunkStoreWriter

/-! What the sections of the chunk store writer keep: every accepted write is in exactly one
place, the count of outstanding writes is right, and one operation at a time is under way. -/
namespace A11.ChunkStoreWriter
open List Frame

/-! ### What fibers hold -/

namespace Frame

/-- The writes a fiber is about to resolve. -/
def completing : Frame → List Element
  | .complete elements _ _ => elements
  | _ => []

/-- A handed-over batch that has not been retired. -/
def tees : Frame → ℕ
  | .scheduleTee _ | .tee _ | .finishTee _ => 1
  | _ => 0

/-- The operation a fiber carries on. -/
def token : Frame → Option (Operation × ℕ)
  | .startWrite generation | .writeDone generation _ | .finishWrite generation _ _ =>
    some (.write,generation)
  | .startClose generation _ | .closeDone generation _ _ _ => some (.close,generation)
  | _ => none

def startsWrite : Frame → Bool
  | .startWrite _ => true
  | _ => false

/-- The frame holds nothing the ledger counts. -/
def plain : Frame → Bool
  | .drive | .once | .turn | .redrive | .wake | .flush | .release _ _ => true
  | _ => false

end Frame

def inFlight (c : Core) : List Element :=
  match c.inFlightBatch with
  | some batch => batch.elements
  | none => []

/-- The batch under way, until the store has been called for it. -/
def unsent (c : Core) (fs : List Frame) : List Element :=
  if fs.any Frame.startsWrite then inFlight c else []

def putElements (c : Core) : List Element := c.puts.flatMap (·.elements)

/-- All sequences are given, or all are left to the store. -/
def Uniform (elements : List Element) : Prop :=
  (∀ e ∈ elements, e.seq.isSome = true) ∨ ∀ e ∈ elements, e.seq = none

def tokens (c : Core) (fs : List Frame) : List (Operation × ℕ) :=
  fs.filterMap Frame.token++c.pendingWrites.map (Prod.mk .write)++
    c.pendingCloses.map fun close => (.close,close.generation)

def underWay (c : Core) : List (Operation × ℕ) :=
  if c.operation = .none then [] else [(c.operation,c.operationGeneration)]

structure Inv (cfg : Config) (o : Options) (c : Core) (fs : List Frame) : Prop where
  options : c.options = o
  count : c.outstanding = c.queue.length+(inFlight c).length
  limit : ∀ n, o.numChunksToBuffer = some n → c.outstanding ≤ n
  batch : c.operation = .write ↔ c.inFlightBatch.isSome = true
  uniform : ∀ b, c.inFlightBatch = some b → b.elements ≠ [] ∧ Uniform b.elements
  stopped : c.status.isSome = true → c.queue = [] ∧ c.pendingQueue = []
  live : c.closing = true ↔ c.lifecycle ≠ .none ∧ c.lifecycleCompleted = false
  fresh : c.lifecycle = .none → c.lifecycleCompleted = false
  closeOp : c.operation = .close → c.closing = true ∧ c.outstanding = 0 ∧ c.teesInFlight = 0
  tees : c.teesInFlight = (fs.map Frame.tees).sum
  single : (tokens c fs).Perm (underWay c)
  conserved : (c.queue++c.pendingQueue++inFlight c++fs.flatMap Frame.completing++
    c.resolved.map Prod.fst).Perm c.accepted
  order : (putElements c++unsent c fs++c.queue++c.pendingQueue).Sublist c.accepted
  puts : ∀ p ∈ c.puts, Uniform p.elements ∧
    ∃ storeId, p.elements.mapM (storeFragment cfg storeId) = .ok p.fragments
  ids : c.accepted.map (·.id) = List.range c.accepted.length

/-- What holds of the core and of everything the fibers have left to do once a section has run. -/
def After (P : Core → List Frame → Prop) (x : Effect) (fs : List Frame) : Prop :=
  P x.core (x.pushed++(x.spawned.flatten++fs))

/-- Writes wait for admission only while the buffer is full. -/
def Backlog (o : Options) (c : Core) : Prop :=
  c.pendingQueue ≠ [] → ∃ n, o.numChunksToBuffer = some n ∧ n ≤ c.outstanding

variable {cfg : Config} {o : Options} {c d : Core} {fs gs : List Frame}

theorem Inv.perm (h : Inv cfg o c fs) (hperm : fs.Perm gs) : Inv cfg o c gs := { h with
  tees := h.tees.trans (hperm.map _).sum_eq
  single := (((hperm.filterMap _).append_right _).append_right _).symm.trans h.single
  conserved := by
    refine Perm.trans ?_ h.conserved
    exact ((hperm.flatMap_right _).symm.append_left _).append_right _
  order := by
    have hany : gs.any startsWrite = fs.any startsWrite := by
      rw [Bool.eq_iff_iff]
      simp [hperm.mem_iff]
    rw [unsent,hany]
    exact h.order }

theorem plain_holds_nothing (l : List Frame) (hl : ∀ f ∈ l, f.plain = true) :
    l.flatMap completing = [] ∧ (l.map tees).sum = 0 ∧ l.filterMap token = [] ∧
      l.any startsWrite = false := by
  induction l with
  | nil => simp
  | cons f l ih =>
    cases f <;> simp_all [plain,completing,tees,token,startsWrite]

/-- Plain frames come and go freely. -/
theorem Inv.plain (old new : List Frame) (hold : ∀ f ∈ old, f.plain = true)
    (hnew : ∀ f ∈ new, f.plain = true) (h : Inv cfg o c (old++gs)) : Inv cfg o c (new++gs) := by
  obtain ⟨h1,h2,h3,h4⟩ := plain_holds_nothing old hold
  obtain ⟨g1,g2,g3,g4⟩ := plain_holds_nothing new hnew
  refine { h with tees := ?_, single := ?_, conserved := ?_, order := ?_ }
  · simpa [h2,g2] using h.tees
  · simpa [tokens,h3,g3] using h.single
  · simpa [h1,g1] using h.conserved
  · simpa [unsent,h4,g4] using h.order

/-! ### Parts of the sections -/

section

variable (h : Inv cfg o c fs)

include h

/-- What is queued passes into the hands of the fiber that rejects it. -/
theorem Inv.rejectAll (status failure : Status) :
    Inv cfg o { rejectAll c with status := some status }
      (.complete c.queue [] failure::.complete c.pendingQueue [] failure::fs) := { h with
  count := by
    have hcnt := h.count
    change c.outstanding-c.queue.length = 0+(inFlight c).length
    omega
  limit n hn := (Nat.sub_le _ _).trans (h.limit n hn)
  stopped _ := ⟨rfl,rfl⟩
  closeOp hop := by
    obtain ⟨hclo,houtstanding,htees⟩ := h.closeOp hop
    refine ⟨hclo,?_,htees⟩
    change c.outstanding-c.queue.length = 0
    omega
  tees := by
    change c.teesInFlight = _
    simpa [Frame.tees] using h.tees
  conserved := by
    change ([]++[]++inFlight c++(c.queue++(c.pendingQueue++fs.flatMap Frame.completing))++
      c.resolved.map Prod.fst).Perm c.accepted
    refine perm_iff_count.mpr fun e => ?_
    have hcnt := h.conserved.count_eq e
    simp only [count_append,count_nil] at hcnt ⊢
    omega
  order := by
    have hunsent : unsent { ChunkStoreWriter.rejectAll c with status := some status }
        (.complete c.queue [] failure::.complete c.pendingQueue [] failure::fs) = unsent c fs := by
      simp [unsent,Frame.startsWrite,inFlight,ChunkStoreWriter.rejectAll]
    rw [hunsent]
    change (putElements c++unsent c fs++[]++[]).Sublist c.accepted
    have hold := h.order
    rw [append_assoc] at hold
    simpa using (sublist_append_left _ _).trans hold }

theorem Inv.failClose (hop : c.operation ≠ .close) : Inv cfg o (failClose c) fs := by
  unfold ChunkStoreWriter.failClose
  split
  · exact { h with
      live := (by simp), fresh := (by simp_all), closeOp := (fun hcl => absurd hcl hop) }
  · exact h

theorem Inv.releaseWaiters : Inv cfg o (releaseWaiters c) fs := by
  unfold ChunkStoreWriter.releaseWaiters
  split
  · exact { h with }
  · exact h

/-- Nothing is under way between two operations. -/
theorem Inv.idle (hop : c.operation = .none) :
    tokens c fs = [] ∧ c.inFlightBatch = none ∧ inFlight c = [] ∧ fs.any startsWrite = false := by
  have hnone : c.inFlightBatch = none := by
    have hbat := h.batch
    rw [hop] at hbat
    simpa using hbat
  have htok : tokens c fs = [] := by
    have hsingle := h.single
    rw [underWay,if_pos hop] at hsingle
    exact hsingle.eq_nil
  refine ⟨htok,hnone,by rw [inFlight,hnone],?_⟩
  rw [any_eq_false]
  intro f hf hstarts
  obtain ⟨generation,rfl⟩ : ∃ generation, f = .startWrite generation := by
    cases f <;> simp_all [startsWrite]
  have hmem : (.write,generation) ∈ tokens c fs := by
    refine mem_append_left _ (mem_append_left _ ?_)
    exact mem_filterMap.mpr ⟨_,hf,rfl⟩
  rw [htok] at hmem
  simp at hmem

end

theorem nextBatch_append_drop (c : Core) :
    nextBatch c++c.queue.drop (nextBatch c).length = c.queue := by
  have hprefix : nextBatch c <+: c.queue := ( takeWhile_prefix _).trans ( take_prefix _ _)
  exact prefix_iff_eq_append.mp hprefix

theorem nextBatch_ne_nil (hque : c.queue ≠ []) (hmax : 0 < c.options.maxChunksToWriteAtOnce) :
    nextBatch c ≠ [] := by
  obtain ⟨_,_,hque⟩ := exists_cons_of_ne_nil hque
  obtain ⟨n,hn⟩ := Nat.exists_eq_succ_of_ne_zero hmax.ne'
  simp [nextBatch,hque,hn]

theorem uniform_nextBatch (c : Core) : Uniform (nextBatch c) := by
  have hall (e : Element) (he : e ∈ nextBatch c) :
      e.seq.isNone = c.queue.head?.all fun first => first.seq.isNone := by
    have hp := all_eq_true.mp all_takeWhile e he
    simpa using hp
  cases hfst : c.queue.head?.all fun first => first.seq.isNone with
  | true => exact .inr fun e he => by simpa [hfst] using hall e he
  | false =>
    refine .inl fun e he => ?_
    have hsome := hall e he
    rw [hfst] at hsome
    cases hseq : e.seq with
    | none => simp [hseq] at hsome
    | some seq => rfl

section

variable (h : Inv cfg o c fs) (hop : c.operation = .none)

include h hop

theorem Inv.startClose (requested : Status)
    (hclo : c.closing = true) (hzero : c.outstanding = 0) (htees : c.teesInFlight = 0) :
    Inv cfg o (startOperation c .close) (.startClose (c.operationGeneration+1) requested::fs) := by
  obtain ⟨htok,hbat,-⟩ := h.idle hop
  refine { h with batch := ?_, closeOp := ?_, tees := ?_, single := ?_ }
  · simp [startOperation,hbat]
  · exact fun _ => ⟨hclo,hzero,htees⟩
  · simpa [Frame.tees,startOperation] using h.tees
  · simp only [tokens] at htok
    simp [tokens,Frame.token,underWay,startOperation,htok]

theorem Inv.startWrite (hstat : c.status.isNone = true)
    (hque : c.queue ≠ []) (hmax : 0 < o.maxChunksToWriteAtOnce) :
    Inv cfg o { startOperation c .write with
      queue := c.queue.drop (nextBatch c).length
      inFlightBatch := some ⟨nextBatch c,c.attachedStreams⟩ }
      (.startWrite (c.operationGeneration+1)::fs) := by
  obtain ⟨htok,-,hfl,hstarts⟩ := h.idle hop
  have hspl := nextBatch_append_drop c
  have hlen : (nextBatch c).length+(c.queue.drop (nextBatch c).length).length =
      c.queue.length := by
    rw [← length_append,hspl]
  refine { h with
      count := ?_, batch := ?_, uniform := ?_, stopped := ?_, closeOp := ?_, tees := ?_,
      single := ?_, conserved := ?_, order := ?_ }
  · have hcnt := h.count
    rw [hfl] at hcnt
    change c.outstanding = (c.queue.drop (nextBatch c).length).length+(nextBatch c).length
    simp only [length_nil] at hcnt
    omega
  · simp [startOperation]
  · rintro b ⟨rfl⟩
    exact ⟨nextBatch_ne_nil hque (by rwa [h.options]),uniform_nextBatch c⟩
  · intro hsome
    have hsome : c.status.isSome = true := hsome
    rw [Option.isNone_iff_eq_none.mp hstat] at hsome
    cases hsome
  · intro hcl
    cases hcl
  · simpa [Frame.tees,startOperation] using h.tees
  · simp only [tokens] at htok
    simp [tokens,Frame.token,underWay,startOperation,htok]
  · change (c.queue.drop (nextBatch c).length++c.pendingQueue++nextBatch c++
      fs.flatMap Frame.completing++c.resolved.map Prod.fst).Perm c.accepted
    refine Perm.trans ?_ h.conserved
    rw [hfl]
    refine perm_iff_count.mpr fun e => ?_
    have hcnt := congrArg (List.count e) hspl
    simp only [count_append,count_nil] at hcnt ⊢
    omega
  · change (putElements c++unsent _ _++c.queue.drop (nextBatch c).length++
      c.pendingQueue).Sublist c.accepted
    have hord := h.order
    simp only [unsent,hstarts,Bool.false_eq_true,if_false,append_nil] at hord
    have hkept : putElements c++nextBatch c++c.queue.drop (nextBatch c).length++
        c.pendingQueue = putElements c++c.queue++c.pendingQueue := by
      rw [append_assoc (putElements c),hspl]
    simp only [unsent,any_cons,Frame.startsWrite,Bool.true_or,if_true,inFlight]
    rw [hkept]
    exact hord

theorem Inv.beginWork
    (hmax : 0 < o.maxChunksToWriteAtOnce) : Inv cfg o (beginWork c).1 ((beginWork c).2++fs) := by
  have hopen (hlife : c.lifecycleCompleted = false) (hcycle : c.lifecycle ≠ .none) :
      c.closing = true := h.live.mpr ⟨hcycle,hlife⟩
  unfold ChunkStoreWriter.beginWork
  split_ifs with hcan habt hcls hwrite
  · exact { h with
      live := (by simp), fresh := (by simp_all),
      closeOp := (fun hcl => by simp [hop] at hcl) }
  · exact h.startClose hop _ (hopen habt.1 (by simp [habt.2.1])) habt.2.2.2.1 habt.2.2.2.2
  · exact h.startClose hop _ (hopen hcls.1 (by simp [hcls.2.1])) hcls.2.2.2.1 hcls.2.2.2.2
  · exact h.startWrite hop hwrite.1 hwrite.2.2 hmax
  · exact h

end

theorem Inv.completeNone (h : Inv cfg o c fs) (status : Status) :
    Inv cfg o c (.complete [] [] status::fs) := { h with tees := (by simpa [Frame.tees] using h.tees) }

theorem Inv.stop (h : Inv cfg o c fs) : Inv cfg o (stop c) (.complete (rejectedBy c).1 [] (stopStatusOf c)::
    .complete (rejectedBy c).2 [] (stopStatusOf c)::fs) := by
  unfold ChunkStoreWriter.stop rejectedBy stopStatusOf
  split
  · exact h.rejectAll _ _
  · exact (h.completeNone _).completeNone _

/-! ### What the parts of a section leave alone -/

structure Kept (c d : Core) : Prop where
  lifecycle : d.lifecycle = c.lifecycle
  stopStatus : d.stopStatus = c.stopStatus
  completed : c.lifecycleCompleted = true → d.lifecycleCompleted = true
  depth : d.depth = c.depth
  again : d.again = c.again
  queued : d.queued = c.queued
  released : d.released = c.released
  waiters : d.waiters = c.waiters

theorem Kept.trans {e : Core} (h : Kept c d) (h' : Kept d e) : Kept c e :=
  ⟨h'.lifecycle.trans h.lifecycle,h'.stopStatus.trans h.stopStatus,
    fun hc => h'.completed (h.completed hc),h'.depth.trans h.depth,h'.again.trans h.again,
    h'.queued.trans h.queued,h'.released.trans h.released,h'.waiters.trans h.waiters⟩

theorem kept_refl (c : Core) : Kept c c := ⟨rfl,rfl,id,rfl,rfl,rfl,rfl,rfl⟩

theorem backlog_of_nil (hpend : d.pendingQueue = []) : Backlog o d := fun hne => absurd hpend hne

/-- The parts that stop the writer touch neither its waiters nor its operation. -/
structure Halts (c d : Core) : Prop extends Kept c d where
  drainWaiters : d.drainWaiters = c.drainWaiters
  teesInFlight : d.teesInFlight = c.teesInFlight
  operation : d.operation = c.operation
  backlog : ∀ {o : Options}, Backlog o c → Backlog o d

theorem halts_refl (c : Core) : Halts c c := ⟨kept_refl c,rfl,rfl,rfl,id⟩

theorem Halts.trans {e : Core} (h : Halts c d) (h' : Halts d e) : Halts c e :=
  ⟨h.toKept.trans h'.toKept,h'.drainWaiters.trans h.drainWaiters,
    h'.teesInFlight.trans h.teesInFlight,h'.operation.trans h.operation,
    fun hb => h'.backlog (h.backlog hb)⟩

theorem halts_stop (c : Core) : Halts c (stop c) := by
  unfold stop
  split
  · exact ⟨{ kept_refl c with },rfl,rfl,rfl,fun _ => backlog_of_nil rfl⟩
  · exact halts_refl c

theorem halts_failClose (c : Core) : Halts c (failClose c) := by
  unfold failClose
  split
  · exact ⟨{ kept_refl c with completed := fun _ => rfl },rfl,rfl,rfl,id⟩
  · exact halts_refl c

theorem halts_failCloseOfStatus (c : Core) : Halts c (failCloseOfStatus c) := by
  unfold failCloseOfStatus
  split
  · split
    · exact halts_refl c
    · exact halts_failClose c
  · exact halts_refl c

theorem halts_stopped (c : Core) : Halts c (failCloseOfStatus (stop c)) :=
  (halts_stop c).trans (halts_failCloseOfStatus _)

theorem releaseWaiters_operation (c : Core) : (releaseWaiters c).operation = c.operation := by
  unfold releaseWaiters
  split <;> rfl

theorem Inv.failCloseOfStatus (h : Inv cfg o c fs) (hop : c.operation ≠ .close) :
    Inv cfg o (failCloseOfStatus c) fs := by
  unfold ChunkStoreWriter.failCloseOfStatus
  split
  · split
    · exact h
    · exact h.failClose hop
  · exact h

/-- The frames a section hands on, in the order it runs them. -/
theorem perm_handed (a b r : Frame) (work fs : List Frame) :
    (r::(work++a::b::fs)).Perm (a::b::r::(work++fs)) :=
  calc r::(work++a::b::fs)
    _ |>.Perm (r::a::b::(work++fs)) :=
        (perm_middle.trans (perm_middle.cons a)).cons r
    _ |>.Perm (a::r::b::(work++fs)) := Perm.swap ..
    _ |>.Perm (a::b::r::(work++fs)) := (Perm.swap ..).cons a

theorem Inv.pass (h : Inv cfg o c fs) (hmax : 0 < o.maxChunksToWriteAtOnce) :
    After (Inv cfg o) (pass c) fs := by
  unfold ChunkStoreWriter.pass
  split
  · exact h
  rename_i hop
  rw [not_not] at hop
  dsimp only
  have hcls := h.stop.failCloseOfStatus (by rw [(halts_stop c).operation,hop]; decide)
  have hwork := hcls.releaseWaiters.beginWork
    (by rw [releaseWaiters_operation,(halts_stopped c).operation,hop]) hmax
  exact (Inv.plain [] [_] (by simp) (by simp [Frame.plain]) hwork).perm (perm_handed _ _ _ _ _)

end A11.ChunkStoreWriter
