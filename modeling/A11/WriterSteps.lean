import A11.WriterInvariant

/-! The sections of the chunk store writer, one after the other, keep its ledger. -/
namespace A11.ChunkStoreWriter
open List

variable {cfg : Config} {o : Options} {c : Core} {fs gs : List Frame}

theorem validate_positive (h : o.validate = .ok ()) : 0 < o.maxChunksToWriteAtOnce ∧
    ∀ n, o.numChunksToBuffer = some n → 0 < n := by
  unfold Options.validate at h
  split_ifs at h with hzero
  refine ⟨Nat.pos_of_ne_zero hzero,fun n hn => ?_⟩
  rw [hn] at h
  dsimp only at h
  split_ifs at h with hn
  exact Nat.pos_of_ne_zero hn

/-! ### The fiber that carries the operation on -/

theorem tokens_cons {f : Frame} {t : Operation × ℕ} (ht : f.token = some t) :
    tokens c (f::fs) = t::tokens c fs := by
  simp [tokens,ht]

/-- A fiber that holds the token of an operation is the only one, and the operation is under way. -/
theorem Inv.holder (f : Frame) (t : Operation × ℕ) (ht : f.token = some t)
    (h : Inv cfg o c (f::fs)) :
    c.operation = t.1 ∧ c.operationGeneration = t.2 ∧ c.operation ≠ .none ∧ tokens c fs = [] := by
  have hsingle := h.single
  rw [tokens_cons ht,underWay] at hsingle
  split at hsingle
  · exact absurd hsingle.eq_nil (by simp)
  rename_i hop
  have heq := perm_singleton.mp hsingle
  simp only [List.cons.injEq] at heq
  exact ⟨by rw [heq.1],by rw [heq.1],hop,heq.2⟩

theorem startsWrite_of_tokens (h : tokens c fs = []) : fs.any Frame.startsWrite = false := by
  rw [any_eq_false]
  intro f hf hstarts
  simp only [tokens,append_eq_nil_iff,filterMap_eq_nil_iff] at h
  have hnone := h.1.1 f hf
  cases f <;> simp_all [Frame.startsWrite,Frame.token]

/-- The token passes from one fiber's frame to the next, or to a store call. -/
theorem Inv.pass_token (f g : Frame) (t : Operation × ℕ) (hf : f.token = some t)
    (hg : g.token = some t) (hst : f.startsWrite = g.startsWrite)
    (hcomp : f.completing = g.completing) (htees : f.tees = g.tees)
    (h : Inv cfg o c (f::fs)) : Inv cfg o c (g::fs) := { h with
  tees := by simpa [htees] using h.tees
  single := by
    rw [tokens_cons hg]
    rw [← tokens_cons hf]
    exact h.single
  conserved := by simpa [hcomp] using h.conserved
  order := by simpa [unsent,hst] using h.order }

variable (generation : ℕ)

/-- A token that waits for the store is back with a fiber. -/
theorem Inv.writeAnswered (rest : List ℕ) (result : StatusOr (List UInt32))
    (hpend : c.pendingWrites = generation::rest) (h : Inv cfg o c fs) :
    Inv cfg o { c with pendingWrites := rest } (.writeDone generation result::fs) := by
  refine { h with tees := (by simpa [Frame.tees] using h.tees), single := ?_ }
  refine Perm.trans ?_ h.single
  simp only [tokens,hpend,map_cons,cons_append,append_assoc]
  exact perm_middle.symm

theorem Inv.closeAnswered (close : Closing) (rest : List Closing) (result : StatusOr Status)
    (hpend : c.pendingCloses = close::rest) (h : Inv cfg o c fs) :
    Inv cfg o { c with pendingCloses := rest }
      (.closeDone close.generation close.requested close.tee result::fs) := by
  refine { h with tees := (by simpa [Frame.tees] using h.tees), single := ?_ }
  refine Perm.trans ?_ h.single
  simp only [tokens,hpend,map_cons]
  exact perm_middle.symm

variable (result : StatusOr (List UInt32))

/-- A token waits for the store's answer to a write. -/
theorem Inv.awaitWrite (answer : Option (StatusOr (List UInt32)))
    (h : Inv cfg o c (.writeDone generation result::fs)) :
    Inv cfg o (awaitWrite c generation answer).core
      ((awaitWrite c generation answer).pushed++fs) := by
  cases answer with
  | some answer =>
    exact Inv.pass_token (.writeDone generation result) (.writeDone generation answer)
      (.write,generation) rfl rfl rfl rfl rfl h
  | none =>
    refine { h with
        tees := (by simpa [Frame.tees,ChunkStoreWriter.awaitWrite] using h.tees), single := ?_ }
    refine Perm.trans ?_ h.single
    simp only [tokens,ChunkStoreWriter.awaitWrite,Frame.token,filterMap_cons,map_append,
      map_cons,map_nil,nil_append,cons_append,append_assoc]
    rw [← append_assoc,← append_assoc]
    exact perm_middle.trans (by simp)

theorem awaitWrite_spawned (c : Core) (generation : ℕ) (answer : Option (StatusOr (List UInt32))) :
    (awaitWrite c generation answer).spawned = [] := by
  cases answer <;> rfl

/-- The store is called for the batch under way. -/
theorem Inv.sent (batch : Batch) (storeId : Bytes) (made : List NodeFragment)
    (result : StatusOr (List UInt32)) (hbat : c.inFlightBatch = some batch)
    (hmade : batch.elements.mapM (storeFragment cfg storeId) = .ok made)
    (h : Inv cfg o c (.startWrite generation::fs)) :
    Inv cfg o { c with puts := c.puts++[⟨batch.elements,made⟩] }
      (.writeDone generation result::fs) := by
  obtain ⟨-,-,-,htok⟩ := h.holder _ (.write,generation) rfl
  have hstarts := startsWrite_of_tokens htok
  refine { h with tees := (by simpa [Frame.tees] using h.tees), order := ?_, puts := ?_ }
  · have hord := h.order
    simp only [unsent,any_cons,inFlight,hbat]
      at hord
    simpa [unsent,Frame.startsWrite,hstarts,putElements] using hord
  · intro p hp
    rcases mem_append.mp hp with hp | hp
    · exact h.puts p hp
    · rw [mem_singleton.mp hp]
      exact ⟨(h.uniform batch hbat).2,storeId,hmade⟩

/-- The batch under way cannot be handed to the store. -/
theorem Inv.unsendable (h : Inv cfg o c (.startWrite generation::fs)) :
    Inv cfg o c (.writeDone generation result::fs) := by
  obtain ⟨-,-,-,htok⟩ := h.holder _ (.write,generation) rfl
  have hstarts := startsWrite_of_tokens htok
  refine { h with tees := (by simpa [Frame.tees] using h.tees), order := ?_ }
  have hord := h.order
  simp only [unsent,any_cons,append_assoc]
    at hord
  simp only [unsent,any_cons,hstarts,Bool.or_false,append_assoc]
  exact ((sublist_append_right _ _).append_left _).trans hord

/-- A batch's fragments are its elements, one by one. -/
theorem mapM_of_fragments {storeId : Bytes} {batch : Batch} {made : List NodeFragment}
    (h : fragments cfg storeId batch = .ok made) :
    batch.elements.mapM (storeFragment cfg storeId) = .ok made := by
  unfold fragments at h
  cases hmap : batch.elements.mapM (storeFragment cfg storeId) with
  | error status => simp [hmap] at h
  | ok fs =>
    simp only [hmap] at h
    split at h
    · cases hwire : fs.mapM fun f => wirePayload cfg f.data with
      | error status => simp [hwire] at h
      | ok sent => simpa [hwire] using h
    · simpa using h

theorem Inv.startWriteFrame (reply : Reply) (h : Inv cfg o c (.startWrite generation::fs)) :
    After (Inv cfg o) (ChunkStoreWriter.startWrite cfg c generation reply) fs := by
  obtain ⟨hop,-⟩ := h.holder _ (.write,generation) rfl
  unfold ChunkStoreWriter.startWrite
  split
  · rename_i hnone
    simpa [hnone] using h.batch.mp hop
  rename_i batch hbat
  split
  · exact (h.unsendable generation (.ok [])).awaitWrite _ _ _
  rename_i made hmade
  rw [After,awaitWrite_spawned]
  cases hid : reply.storeId with
  | error status => simp [hid] at hmade
  | ok storeId =>
    rw [hid] at hmade
    have hsent := h.sent generation batch storeId made (.ok []) hbat
      (mapM_of_fragments hmade)
    exact hsent.awaitWrite generation (.ok []) reply.wrote

theorem Inv.writeDoneFrame (h : Inv cfg o c (.writeDone generation result::fs)) :
    After (Inv cfg o) (writeDone c generation result) fs := by
  obtain ⟨hop,hgen,-⟩ := h.holder _ (.write,generation) rfl
  obtain ⟨_,hbat⟩ := Option.isSome_iff_exists.mp (h.batch.mp hop)
  have howns : owns c .write generation = true := by simp [owns,hop,hgen]
  unfold writeDone
  rw [hbat]
  simp only [howns]
  exact Inv.pass_token (.writeDone generation result) (.finishWrite generation result _)
    (.write,generation) rfl rfl rfl rfl rfl h

/-! ### Retiring a batch -/

theorem Inv.retireBatch (operationStatus : Status) (batch : Batch) (teeing : Bool)
    (sequences : List UInt32) (status : Status) (hbat : c.inFlightBatch = some batch)
    (h : Inv cfg o c (.finishWrite generation result operationStatus::fs)) :
    Inv cfg o (retireBatch c batch teeing)
      (.complete batch.elements sequences status::
        ((if teeing then [.scheduleTee batch.streams] else [])++fs)) := by
  obtain ⟨hop,-,-,htok⟩ := h.holder _ (.write,generation) rfl
  have hstarts := startsWrite_of_tokens htok
  have hfl : inFlight c = batch.elements := by rw [inFlight,hbat]
  have htee : (if teeing then [Frame.scheduleTee batch.streams] else []).flatMap
      Frame.completing = [] := by
    cases teeing <;> rfl
  refine { h with
      count := ?_, limit := ?_, batch := ?_, uniform := ?_, closeOp := ?_, tees := ?_, single := ?_,
      conserved := ?_, order := ?_ }
  · have hcnt := h.count
    rw [hfl] at hcnt
    change c.outstanding-batch.elements.length = c.queue.length+0
    omega
  · exact fun n hn => (Nat.sub_le _ _).trans (h.limit n hn)
  · simp [ChunkStoreWriter.retireBatch]
  · intro b hb
    cases hb
  · intro hcl
    cases hcl
  · have htees := h.tees
    cases teeing
    · simpa [Frame.tees,ChunkStoreWriter.retireBatch] using htees
    · simp only [Frame.tees,map_cons,sum_cons,ChunkStoreWriter.retireBatch,if_true,
        cons_append,nil_append] at htees ⊢
      omega
  · have hfs : tokens (ChunkStoreWriter.retireBatch c batch teeing)
        (.complete batch.elements sequences status::
          ((if teeing then [.scheduleTee batch.streams] else [])++fs)) = tokens c fs := by
      cases teeing <;> rfl
    rw [hfs,htok]
    exact Perm.refl _
  · change (c.queue++c.pendingQueue++[]++List.flatMap Frame.completing (_::(_++fs))++
      c.resolved.map Prod.fst).Perm c.accepted
    refine Perm.trans ?_ h.conserved
    refine perm_iff_count.mpr fun e => ?_
    simp only [flatMap_cons,flatMap_append,htee,hfl,Frame.completing,count_append,count_nil]
    omega
  · have hany : List.any (.complete batch.elements sequences status::
        ((if teeing then [.scheduleTee batch.streams] else [])++fs)) Frame.startsWrite =
        false := by
      cases teeing <;> simpa [Frame.startsWrite] using hstarts
    have hord := h.order
    change (putElements c++unsent _ _++c.queue++c.pendingQueue).Sublist c.accepted
    simpa [unsent,hany,Frame.startsWrite,hstarts] using hord

theorem Inv.admitPending (h : Inv cfg o c fs) (hop : c.operation ≠ .close) :
    Inv cfg o (admitPending c) fs := by
  obtain ⟨moved,left,outstanding,heq,hspl,hlen,hlim⟩ : ∃ moved left outstanding,
      ChunkStoreWriter.admitPending c = { c with
        queue := c.queue++moved, pendingQueue := left, outstanding := outstanding } ∧
      moved++left = c.pendingQueue ∧ outstanding = c.outstanding+moved.length ∧
      ∀ n, c.options.numChunksToBuffer = some n → c.outstanding ≤ n → outstanding ≤ n := by
    refine ⟨_,_,_,rfl,take_append_drop _ _,rfl,?_⟩
    intro n hn hle
    simp only [hn,length_take]
    omega
  rw [heq]
  refine { h with
      count := ?_, limit := ?_, stopped := ?_, closeOp := ?_, conserved := ?_, order := ?_ }
  · have hcnt := h.count
    change outstanding = (c.queue++moved).length+(inFlight c).length
    rw [length_append]
    omega
  · exact fun n hn => hlim n (by rwa [h.options]) (h.limit n hn)
  · intro hsome
    obtain ⟨hque,hpend⟩ := h.stopped hsome
    rw [hpend,append_eq_nil_iff] at hspl
    exact ⟨by simp [hque,hspl.1],hspl.2⟩
  · exact fun hcl => absurd hcl hop
  · refine Perm.trans ?_ h.conserved
    change (c.queue++moved++left++inFlight c++_++_).Perm _
    rw [append_assoc c.queue,hspl]
  · have hord := h.order
    change (putElements c++unsent c fs++(c.queue++moved)++left).Sublist c.accepted
    rw [← hspl] at hord
    simpa using hord

variable (status : Status)

theorem Inv.settle (failed : Bool) (hop : c.operation ≠ .close) (h : Inv cfg o c fs) :
    Inv cfg o (if failed then failWriter c status else ChunkStoreWriter.admitPending c)
      (.complete (if failed then c.queue else []) [] status::
        .complete (if failed then c.pendingQueue else []) [] status::fs) := by
  cases failed with
  | true => exact h.rejectAll status status
  | false => exact ((h.admitPending hop).completeNone status).completeNone status

theorem settle_operation (c : Core) (status : Status) (failed : Bool) :
    (if failed then failWriter c status else admitPending c).operation = c.operation := by
  cases failed <;> rfl

theorem Inv.failCloseIf (closes : Bool) (hop : c.operation ≠ .close) (h : Inv cfg o c fs) :
    Inv cfg o (if closes then ChunkStoreWriter.failClose c else c) fs := by
  split
  · exact h.failClose hop
  · exact h

theorem Inv.finishWriteFrame (operationStatus : Status)
    (h : Inv cfg o c (.finishWrite generation result operationStatus::fs)) :
    After (Inv cfg o) (finishWrite c generation result operationStatus) fs := by
  obtain ⟨hop,hgen,-⟩ := h.holder _ (.write,generation) rfl
  obtain ⟨batch,hbat⟩ := Option.isSome_iff_exists.mp (h.batch.mp hop)
  have howns : owns c .write generation = true := by simp [owns,hop,hgen]
  have hret := h.retireBatch generation result operationStatus batch
    (operationStatus.isOk && !batch.streams.isEmpty) (result.toOption.getD [])
    (c.stopStatus.getD operationStatus) hbat
  unfold finishWrite
  simp only [hbat,howns,if_true]
  generalize (operationStatus.isOk && !batch.streams.isEmpty) = teeing at hret ⊢
  have hidle : (ChunkStoreWriter.retireBatch c batch teeing).operation = .none := rfl
  generalize ChunkStoreWriter.retireBatch c batch teeing = r at hret hidle ⊢
  generalize c.stopStatus.getD operationStatus = status at hret ⊢
  have hset := hret.settle status (c.stopStatus.isSome || !operationStatus.isOk)
    (by rw [hidle]; decide)
  have hsame := settle_operation r status (c.stopStatus.isSome || !operationStatus.isOk)
  generalize (c.stopStatus.isSome || !operationStatus.isOk) = failed at hset hsame ⊢
  generalize (if failed = true then failWriter r status else ChunkStoreWriter.admitPending r) = d
    at hset hsame ⊢
  have htold := hset.releaseWaiters.failCloseIf (c.stopStatus.isNone && !operationStatus.isOk)
    (by rw [releaseWaiters_operation,hsame,hidle]; decide)
  refine (Inv.plain [] [.release (releasedBy d) status,.redrive] (by simp) (by simp [Frame.plain])
    htold).perm ?_
  classical
  refine perm_iff_count.mpr fun f => ?_
  simp only [count_append,count_cons,count_nil,flatten_nil]
  omega

/-! ### Returning from a tee -/

theorem Inv.teeReturned (h : Inv cfg o c (.finishTee status::fs)) :
    Inv cfg o { c with teesInFlight := c.teesInFlight-1 } fs ∧ c.operation ≠ .close := by
  have htees := h.tees
  simp only [Frame.tees,map_cons,sum_cons] at htees
  have hop : c.operation ≠ .close := by
    intro hcl
    have hzero := (h.closeOp hcl).2.2
    omega
  refine ⟨{ h with closeOp := (fun hcl => absurd hcl hop), tees := ?_ },hop⟩
  change c.teesInFlight-1 = _
  omega

/-- What a fiber does once it has settled the elements of a section. -/
theorem Inv.told (a b : Frame) (waiters : List ℕ) (status : Status)
    (h : Inv cfg o c (a::b::fs)) :
    Inv cfg o c ([a,b,.release waiters status,.redrive]++([]++fs)) := by
  refine (Inv.plain [] [.release waiters status,.redrive] (by simp) (by simp [Frame.plain])
    h).perm ?_
  classical
  refine perm_iff_count.mpr fun f => ?_
  simp only [count_append,count_cons,count_nil]
  omega

theorem Inv.finishTeeFrame (h : Inv cfg o c (.finishTee status::fs)) :
    After (Inv cfg o) (finishTee c status) fs := by
  obtain ⟨hret,hop⟩ := h.teeReturned
  unfold finishTee
  cases hok : status.isOk with
  | true =>
    exact ((hret.completeNone status).completeNone status).releaseWaiters.told _ _ _ _
  | false =>
    exact ((hret.rejectAll (c.status.getD status) (c.status.getD status)).failClose
      hop).releaseWaiters.told _ _ _ _

/-! ### Closing -/

theorem Inv.startCloseFrame (requested : Status) (reply : Reply)
    (h : Inv cfg o c (.startClose generation requested::fs)) :
    After (Inv cfg o) (ChunkStoreWriter.startClose c generation requested reply) fs := by
  unfold ChunkStoreWriter.startClose
  split
  · exact Inv.pass_token (.startClose generation requested) (.closeDone generation requested _ _)
      (.close,generation) rfl rfl rfl rfl rfl h
  refine { h with tees := (by simpa [Frame.tees] using h.tees), single := ?_ }
  refine Perm.trans ?_ h.single
  simp only [tokens,Frame.token,map_append,map_cons,map_nil,flatten_nil]
  rw [← append_assoc]
  exact perm_append_singleton _ _

theorem Inv.closeDoneFrame (requested tee : Status) (result : StatusOr Status)
    (hpositive : ∀ n, o.numChunksToBuffer = some n → 0 < n) (hlog : Backlog o c)
    (h : Inv cfg o c (.closeDone generation requested tee result::fs)) :
    After (Inv cfg o) (closeDone c generation requested tee result) fs := by
  obtain ⟨hop,hgen,-,htok⟩ := h.holder _ (.close,generation) rfl
  obtain ⟨hclo,_,-⟩ := h.closeOp hop
  have howns : owns c .close generation = true := by simp [owns,hop,hgen]
  have hlifecycle := (h.live.mp hclo).1
  have hbat : c.inFlightBatch = none := by
    have hbat := h.batch
    rw [hop] at hbat
    simpa using hbat
  have hque : c.queue = [] := by
    have hcnt := h.count
    exact eq_nil_of_length_eq_zero (by omega)
  have hpend : c.pendingQueue = [] := by
    by_contra hne
    obtain ⟨n,hn,_⟩ := hlog hne
    have hpos := hpositive n hn
    omega
  unfold closeDone
  simp only [howns]
  refine ⟨h.options,h.count,h.limit,by simp [hbat],h.uniform,fun _ => ⟨hque,hpend⟩,
    by simp,fun hnone => absurd hnone hlifecycle,nofun,
    by simpa [Frame.tees] using h.tees,?_,h.conserved,h.order,h.puts,h.ids⟩
  change (tokens c fs).Perm []
  rw [htok]

/-! ### Every section -/

theorem results_fst (elements : List Element) (sequences : List UInt32) (status : Status) :
    (results elements sequences status).map Prod.fst = elements := by
  unfold results
  split
  · simp [Function.comp_def]
  split
  · simp [Function.comp_def]
  rename_i hlen
  rw [not_not] at hlen
  rw [map_map]
  exact map_fst_zip hlen.ge

theorem Inv.completeFrame (elements : List Element) (sequences : List UInt32) (status : Status)
    (h : Inv cfg o c (.complete elements sequences status::fs)) :
    Inv cfg o { c with resolved := c.resolved++results elements sequences status } fs := by
  refine { h with tees := (by simpa [Frame.tees] using h.tees), conserved := ?_ }
  change (c.queue++c.pendingQueue++inFlight c++fs.flatMap Frame.completing++
    (c.resolved++results elements sequences status).map Prod.fst).Perm c.accepted
  refine Perm.trans ?_ h.conserved
  rw [map_append,results_fst]
  refine perm_iff_count.mpr fun e => ?_
  simp only [flatMap_cons,Frame.completing,count_append]
  omega

/-- A tee passes from one fiber to another. -/
theorem Inv.pass_tee (f g : Frame) (hf : f.tees = 1) (hg : g.tees = 1)
    (h : Inv cfg o c (f::fs)) : Inv cfg o c (g::fs) := by
  have hfld (f : Frame) (hf : f.tees = 1) : f.token = none ∧ f.completing = [] ∧
      f.startsWrite = false := by
    cases f <;> simp_all [Frame.tees,Frame.token,Frame.completing,Frame.startsWrite]
  obtain ⟨f1,f2,f3⟩ := hfld f hf
  obtain ⟨g1,g2,g3⟩ := hfld g hg
  exact { h with
      tees := (by simpa [hf,hg] using h.tees), single := (by simpa [tokens,f1,g1] using h.single),
      conserved := (by simpa [f2,g2] using h.conserved),
      order := (by simpa [unsent,f3,g3] using h.order) }

theorem Inv.pump (queued again : Bool) (depth : ℕ) (h : Inv cfg o c fs) :
    Inv cfg o { c with queued := queued, again := again, depth := depth } fs := { h with }

theorem Inv.perform (frame : Frame) (reply : Reply) (hval : o.validate = .ok ())
    (hlog : Backlog o c) (h : Inv cfg o c (frame::fs)) :
    After (Inv cfg o) (perform cfg c frame reply) fs := by
  have hplain (hfr : frame.plain = true) (new : List Frame) (hnew : ∀ g ∈ new, g.plain = true) :
      Inv cfg o c (new++fs) := Inv.plain [_] new (by simpa using hfr) hnew h
  cases frame with
  | once =>
    exact ((hplain rfl [] (by simp)).pump false c.again c.depth).pass
      (validate_positive hval).1
  | drive | turn | redrive | wake | flush =>
    simp only [After,ChunkStoreWriter.perform,drive,turn,redrivePump,wake,flush]
    split <;> exact (hplain rfl _ (by simp [Frame.plain])).pump _ _ _
  | complete elements sequences status => exact h.completeFrame elements sequences status
  | release waiters status =>
    have h := hplain rfl [] (by simp)
    exact { h with }
  | startWrite generation => exact h.startWriteFrame generation reply
  | writeDone generation result => exact h.writeDoneFrame generation result
  | finishWrite generation result status => exact h.finishWriteFrame generation result status
  | scheduleTee streams => exact Inv.pass_tee (.scheduleTee streams) (.tee streams) rfl rfl h
  | tee streams => exact Inv.pass_tee (.tee streams) (.finishTee reply.teeStatus) rfl rfl h
  | finishTee status => exact h.finishTeeFrame status
  | startClose generation requested => exact h.startCloseFrame generation requested reply
  | closeDone generation requested tee result =>
    exact h.closeDoneFrame generation requested tee result (validate_positive hval).2 hlog

end A11.ChunkStoreWriter
