import A11.LocalInvariant

/-! The observation of a node's completion: the watch asks the store for its write status, its
size, its final sequence and the next arrival, one after another, while others use the store. -/
namespace A11.CompletionWatch
open LocalChunkStore Runs

/-- What the watch does next, with what the store has answered it. -/
inductive Stage
  | check
  | status (status : Option Status)
  | size (count : ℕ)
  | final (count : ℕ) (final : Option UInt32)
  /-- The read of the next arrival has no answer yet, and nothing is left to do until it has. -/
  | waiting (count : ℕ)
  | arrived (result : StatusOr NodeFragment)
  | reason (reason : Status) (status : Option Status)
  | finished (result : Status)
  /-- Finished with "Node completion observation cancelled". -/
  | cancelled

/-- The answer to the read of an arrival, now or in a later section of the store. -/
def await (s : State) (count : ℕ) : Stage :=
  match lookupRead s .arrivalOrder (UInt64.ofNat count) with
  | none => .waiting count
  | some result => .arrived result

def run (s : State) : Stage → Stage
  | .check | .arrived (.ok _) => .status s.status
  | .status (some status) => .finished status
  | .status none => .size s.chunks.size
  | .size count => .final count s.finalSeq
  | .final count final =>
    if ∃ f ∈ final, f.toNat+1 ≤ count then .finished .okStatus else await s count
  | .arrived (.error reason) => .reason reason s.status
  | .reason reason status => .finished (status.getD reason)
  | stage => stage

def wake (s : State) : Stage → Stage
  | .waiting count => await s count
  | stage => stage

def cancel : Stage → Stage
  | .finished result => .finished result
  | _ => .cancelled

inductive Input
  | act (action : Action)
  | run
  | cancel

def step (w : State × Stage) : Input → State × Stage
  | .act action => (act w.1 action,wake (act w.1 action) w.2)
  | .run => (w.1,run w.1 w.2)
  | .cancel => (w.1,cancel w.2)

/-- Every sequence up to the final one is there. -/
def Complete (s : State) : Prop := ∃ final, s.finalSeq = some final ∧ ∀ seq ≤ final, seq ∈ s.chunks

/-! ### What the store keeps -/

variable {s : State}

theorem complete_iff (hs : Consistent s) :
    Complete s ↔ ∃ final, s.finalSeq = some final ∧ final.toNat+1 ≤ s.totalChunksPut := by
  refine exists_congr fun final => and_congr_right fun hfinal => ?_
  have hinj : Function.Injective UInt32.toNat := fun a b => UInt32.toNat_inj.mp
  have hcard : (s.chunks.keys.image UInt32.toNat).card = s.totalChunksPut :=
    (Finset.card_image_of_injective _ hinj).trans hs.size
  constructor
  · intro hall
    rw [← hcard,← Finset.card_range (final.toNat+1)]
    refine Finset.card_le_card fun n hn => ?_
    have hle : n ≤ final.toNat := Nat.le_of_lt_succ (Finset.mem_range.mp hn)
    have hnat : (UInt32.ofNat n).toNat = n :=
      UInt32.toNat_ofNat_of_lt' (hle.trans_lt final.toNat_lt)
    refine Finset.mem_image.mpr ⟨UInt32.ofNat n,?_,hnat⟩
    exact Finmap.mem_keys.mpr (hall _ (UInt32.le_iff_toNat_le.mpr (hnat.trans_le hle)))
  · intro hcount seq hseq
    have hsub : s.chunks.keys.image UInt32.toNat ⊆ Finset.range (final.toNat+1) := fun n hn => by
      obtain ⟨q,hq,rfl⟩ := Finset.mem_image.mp hn
      have hle := (hs.final final hfinal).2 q (Finmap.mem_keys.mp hq)
      exact Finset.mem_range.mpr (Nat.lt_succ_of_le (UInt32.le_iff_toNat_le.mp hle))
    have heq := Finset.eq_of_subset_of_card_le hsub (by rwa [hcard,Finset.card_range])
    have hmem : seq.toNat ∈ s.chunks.keys.image UInt32.toNat :=
      heq ▸ Finset.mem_range.mpr (Nat.lt_succ_of_le (UInt32.le_iff_toNat_le.mp hseq))
    obtain ⟨q,hq,hnat⟩ := Finset.mem_image.mp hmem
    exact Finmap.mem_keys.mp (hinj hnat ▸ hq)

/-- Only a put that adds chunks sets the final sequence. -/
theorem act_puts (s : State) (a : Action) : s.totalChunksPut < (act s a).totalChunksPut ∨
    (act s a).totalChunksPut = s.totalChunksPut ∧ (act s a).finalSeq = s.finalSeq := by
  cases a with
  | putMany fragments =>
    obtain ⟨status,herr⟩ | ⟨p,hp,hok⟩ := putMany_cases s fragments
    · exact .inr (by simp [act,herr])
    · exact .inl (by simpa [act,hok,publish] using hp.length_pos)
  | clearData seq =>
    obtain ⟨status,herr⟩ | ⟨c,-,hok⟩ := clearData_cases s seq
    · exact .inr (by simp [act,herr])
    · exact .inr (by simp [act,hok])
  | closeWritesWithStatus status flag =>
    obtain hsame | ⟨-,hcl⟩ := closeWritesWithStatus_cases s status flag
    · exact .inr (by simp [act,hsame])
    · exact .inr (by simp [act,hcl])
  | collectNext limit fragments => exact .inr ⟨rfl,rfl⟩

theorem complete_act (hs : Consistent s) (a : Action) (h : Complete s) : Complete (act s a) := by
  obtain ⟨hs',hgrows⟩ := act_spec s a hs
  obtain ⟨final,hfinal,_⟩ := (complete_iff hs).mp h
  have := act_puts s a
  exact (complete_iff hs').mpr ⟨final,hgrows.final final hfinal,by omega⟩

/-! ### What the watch knows -/

/-- What the answers so far say about the store as it is now. -/
def Knows (s : State) : Stage → Prop
  | .check | .arrived (.ok _) | .cancelled => True
  | .status status => ∀ st ∈ status, s.status = some st
  | .size count => count ≤ s.totalChunksPut
  | .final count final => count ≤ s.totalChunksPut ∧ (∀ f ∈ final, s.finalSeq = some f) ∧
    (count = s.totalChunksPut → s.finalSeq = final)
  | .waiting count => s.status = none ∧ count = s.totalChunksPut ∧ ∀ f ∈ s.finalSeq, count < f.toNat+1
  | .arrived (.error _) => ∃ st, s.status = some st
  | .reason _ status => ∃ st, status = some st ∧ s.status = some st
  | .finished result => s.status = some result ∨ result.isOk ∧ Complete s

theorem knows_await {count : ℕ} {final : Option UInt32} (hs : Consistent s)
    (hcount : count ≤ s.totalChunksPut) (hfinal : count = s.totalChunksPut → s.finalSeq = final)
    (hmore : ∀ f ∈ final, count < f.toNat+1) : Knows s (await s count) := by
  have hnat : (UInt64.ofNat count).toNat = count := by
    have := totalChunksPut_le hs
    exact UInt64.toNat_ofNat_of_lt' (by simp only [uint32Range,UInt64.size] at *; omega)
  unfold await lookupRead
  rw [hnat]
  cases hlook : s.arrivalOrderToSeq.lookup count with
  | none =>
    have heq : count = s.totalChunksPut := by
      have := mt (hs.arrivals count).mpr (Finmap.lookup_eq_none.mp hlook)
      omega
    cases hstatus : s.status with
    | none => exact ⟨hstatus,heq,hfinal heq ▸ hmore⟩
    | some status =>
      simp only [closedRead]
      split_ifs <;> exact ⟨status,hstatus⟩
  | some seq =>
    have hmem : seq ∈ s.chunks := (hs.stored seq).mp
      (Finmap.mem_of_lookup_eq_some ((hs.inverse count seq).mp hlook))
    obtain ⟨_,hpayload⟩ := Finmap.mem_iff.mp hmem
    simp [hpayload,Knows]

theorem Knows.act {stage : Stage} (h : Knows s stage) (hs : Consistent s) (a : Action) :
    Knows (act s a) (wake (act s a) stage) := by
  obtain ⟨hs',hgrows⟩ := act_spec s a hs
  have hputs := act_puts s a
  have hclosed : ∀ st, s.status = some st → (LocalChunkStore.act s a).status = some st :=
    fun st hst => (hgrows.closed st hst).1
  cases stage with
  | check | cancelled => trivial
  | status status => exact fun st hst => hclosed st (h st hst)
  | size count => exact h.trans (by omega)
  | final count final =>
    refine ⟨h.1.trans (by omega),fun f hf => hgrows.final f (h.2.1 f hf),fun heq => ?_⟩
    have hle := h.1
    rw [← h.2.2 (by omega)]
    exact (hputs.resolve_left (by omega)).2
  | waiting count =>
    obtain ⟨-,rfl,hmore⟩ := h
    exact knows_await hs' (by omega) (fun heq => (hputs.resolve_left (by omega)).2) hmore
  | arrived result =>
    cases result with
    | ok fragment => trivial
    | error reason => exact h.imp hclosed
  | reason reason status => exact h.imp fun st hst => ⟨hst.1,hclosed st hst.2⟩
  | finished result => exact h.imp (hclosed result) fun hok => ⟨hok.1,complete_act hs a hok.2⟩

theorem Knows.run {stage : Stage} (h : Knows s stage) (hs : Consistent s) :
    Knows s (run s stage) := by
  cases stage with
  | check => exact fun _ hst => hst
  | status status =>
    cases status with
    | none => exact hs.size.le
    | some status => exact .inl (h status rfl)
  | size count => exact ⟨h,fun _ hf => hf,fun _ => rfl⟩
  | final count final =>
    obtain ⟨hcount,hfinal,hsame⟩ := h
    simp only [CompletionWatch.run]
    split_ifs with hdone
    · obtain ⟨f,hf,hle⟩ := hdone
      exact .inr ⟨rfl,(complete_iff hs).mpr ⟨f,hfinal f hf,hle.trans hcount⟩⟩
    · exact knows_await hs hcount hsame (by simpa using hdone)
  | arrived result =>
    cases result with
    | ok fragment => exact fun _ hst => hst
    | error reason => exact h.imp fun st hst => ⟨hst,hst⟩
  | reason reason status =>
    obtain ⟨st,rfl,hst⟩ := h
    exact .inl hst
  | waiting count | finished result | cancelled => exact h

/-- The watch asks for the write status in its next step. -/
def Stage.Asks : Stage → Prop
  | .check | .arrived _ => True
  | _ => False

/-- The watch has been told that writes ended with the status. -/
def Stage.Told (st : Status) : Stage → Prop
  | .status told | .reason _ told => told = some st
  | .finished result => result = st
  | .cancelled => True
  | _ => False

theorem Stage.Asks.told {stage : Stage} (h : stage.Asks) {st : Status} (hst : s.status = some st) :
    (run s stage).Told st := by
  cases stage with
  | check => exact hst
  | arrived result => cases result <;> exact hst
  | _ => exact h.elim

theorem told_step {w : State × Stage} {st : Status} (h : w.2.Told st) (i : Input) :
    (step w i).2.Told st := by
  obtain ⟨s,stage⟩ := w
  cases stage with
  | status status =>
    obtain rfl : status = some st := h
    cases i <;> trivial
  | reason reason status =>
    obtain rfl : status = some st := h
    cases i <;> trivial
  | finished result => cases i <;> exact h
  | cancelled => cases i <;> trivial
  | _ => exact h.elim

end A11.CompletionWatch
