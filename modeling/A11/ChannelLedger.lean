import A11.SelectRuns

/-! What becomes of the items of the channels. The log of transfers is kept beside the channels:
every case appears in it at most once, namely when it is picked, and what has been accepted and
not received is in the buffer. -/
namespace A11.Fibers
open List Transfer World

variable {T : Type}

namespace Transfer

def case : Transfer T → CaseId
  | accepted _ c _ => c
  | received _ c _ => c
  | reportedClosed _ c => c

def operation : Transfer T → Operation T
  | accepted channel _ item => .write channel item
  | received channel _ _ => .read channel
  | reportedClosed channel _ => .read channel

def acceptedOn (channel : ℕ) : Transfer T → Option (CaseId × T)
  | accepted ch c item => if ch = channel then some (c,item) else none
  | received _ _ _ => none
  | reportedClosed _ _ => none

def receivedOn (channel : ℕ) : Transfer T → Option (CaseId × T)
  | accepted _ _ _ => none
  | received ch c item => if ch = channel then some (c,item) else none
  | reportedClosed _ _ => none

end Transfer

/-- The items accepted on a channel, and the cases that sent them. -/
def accepted (channel : ℕ) (log : List (Transfer T)) : List (CaseId × T) :=
  log.filterMap (Transfer.acceptedOn channel)

/-- The items received from a channel, and the cases that took them. -/
def received (channel : ℕ) (log : List (Transfer T)) : List (CaseId × T) :=
  log.filterMap (Transfer.receivedOn channel)

def Operation.Moves : Operation T → Prop
  | read _ => True
  | write _ _ => True
  | event _ => False
  | never => False
  | always => False

section

variable (channel : ℕ)

@[simp] theorem accepted_append (log log' : List (Transfer T)) :
    accepted channel (log++log') = accepted channel log++accepted channel log' :=
  filterMap_append

@[simp] theorem received_append (log log' : List (Transfer T)) :
    received channel (log++log') = received channel log++received channel log' :=
  filterMap_append

@[simp] theorem accepted_nil : accepted channel ([] : List (Transfer T)) = [] := rfl

@[simp] theorem received_nil : received channel ([] : List (Transfer T)) = [] := rfl

@[simp] theorem accepted_cons (t : Transfer T) (log : List (Transfer T)) :
    accepted channel (t::log) = (t.acceptedOn channel).toList++accepted channel log := by
  rw [accepted,filterMap_cons]
  cases t.acceptedOn channel <;> rfl

@[simp] theorem received_cons (t : Transfer T) (log : List (Transfer T)) :
    received channel (t::log) = (t.receivedOn channel).toList++received channel log := by
  rw [received,filterMap_cons]
  cases t.receivedOn channel <;> rfl

end

variable {channel : ℕ}

theorem Transfer.acceptedOn_eq_some {t : Transfer T} {p : CaseId × T} :
    t.acceptedOn channel = some p ↔ t = .accepted channel p.1 p.2 := by
  cases t <;> simp [acceptedOn,Prod.ext_iff]

theorem Transfer.receivedOn_eq_some {t : Transfer T} {p : CaseId × T} :
    t.receivedOn channel = some p ↔ t = .received channel p.1 p.2 := by
  cases t <;> simp [receivedOn,Prod.ext_iff]

theorem mem_received {log : List (Transfer T)} {c : CaseId} {item : T} :
    (c,item) ∈ received channel log ↔ .received channel c item ∈ log := by
  simp [received,receivedOn_eq_some]

namespace World

variable {w w' : World T} {c : CaseId} {q : Queue} {channel event s : ℕ} {item : T}

/-! ### Which cases appear in the log -/

/-- The log names every case that has been picked to move an item, once, and no other case. -/
structure Books (w : World T) : Prop where
  once : (w.log.map Transfer.case).Nodup
  picked : ∀ t ∈ w.log, w.picked t.case.select = some t.case.index
  operation : ∀ t ∈ w.log, w.operation t.case = some t.operation
  complete : ∀ c op, w.operation c = some op → op.Moves → w.picked c.select = some c.index →
    ∃ t ∈ w.log, t.case = c

theorem Books.append (h : w.Books) (new : List (Transfer T)) (hlog : w'.log = w.log++new)
    (hkept : ∀ s i, w.picked s = some i → w'.picked s = some i)
    (hop : ∀ c op, w.operation c = some op → w'.operation c = some op)
    (hnd : (new.map case).Nodup) (hfresh : ∀ t ∈ new, w.picked t.case.select = none)
    (hpicked : ∀ t ∈ new, w'.picked t.case.select = some t.case.index)
    (hoperation : ∀ t ∈ new, w.operation t.case = some t.operation)
    (hchosen : ∀ c op, w'.operation c = some op → op.Moves → w'.picked c.select = some c.index →
      (w.operation c = some op ∧ w.picked c.select = some c.index) ∨ ∃ t ∈ new, t.case = c) :
    w'.Books  where
  once := by
    rw [hlog,map_append,nodup_append]
    refine ⟨h.once,hnd,?_⟩
    rintro _ hold _ hnew rfl
    obtain ⟨t,ht,hcase⟩ := mem_map.mp hold
    obtain ⟨t',ht',hcase'⟩ := mem_map.mp hnew
    have hpick := h.picked t ht
    rw [hcase,← hcase',hfresh t' ht'] at hpick
    simp at hpick
  picked t ht := by
    rw [hlog] at ht
    rcases mem_append.mp ht with ht | ht
    · exact hkept _ _ (h.picked t ht)
    · exact hpicked t ht
  operation t ht := by
    rw [hlog] at ht
    rcases mem_append.mp ht with ht | ht
    · exact hop _ _ (h.operation t ht)
    · exact hop _ _ (hoperation t ht)
  complete c op hc hmov hpick := by
    rw [hlog]
    rcases hchosen c op hc hmov hpick with ⟨hc,hpick⟩ | ⟨t,ht,hcase⟩
    · obtain ⟨t,ht,hcase⟩ := h.complete c op hc hmov hpick
      exact ⟨t,mem_append_left _ ht,hcase⟩
    · exact ⟨t,mem_append_right _ ht,hcase⟩

/-! ### Where the items are -/

/-- What has been accepted has been received in this order, or is in the buffer. -/
structure Flow (capacity : ℕ → ℕ) (w : World T) : Prop where
  limit : ∀ channel, (w.channel channel).capacity = capacity channel
  balance : ∀ channel, (accepted channel w.log).map Prod.snd =
    (received channel w.log).map Prod.snd++(w.channel channel).items
  room : ∀ channel, (w.channel channel).items.length ≤ capacity channel
  drained : ∀ channel c pre post, w.log = pre++.reportedClosed channel c::post →
    (accepted channel pre).map Prod.snd = (received channel pre).map Prod.snd

/-- A reader is told of the end only when everything accepted before has been received. -/
def Drained (before log : List (Transfer T)) : Prop :=
  ∀ channel c pre post, log = pre++.reportedClosed channel c::post →
    (accepted channel (before++pre)).map Prod.snd = (received channel (before++pre)).map Prod.snd

theorem Drained.append {log new : List (Transfer T)} (h : Drained [] log) (hnew : Drained log new) :
    Drained [] (log++new) := by
  intro channel c pre post heq
  rcases append_eq_append_iff.mp heq with ⟨mid,rfl,hmid⟩ | ⟨mid,hpre,hmid⟩
  · exact hnew channel c mid post hmid
  cases mid with
  | nil =>
    subst hpre
    simpa using hnew channel c [] post (by simpa using hmid.symm)
  | cons t mid =>
    obtain ⟨rfl,-⟩ : .reportedClosed channel c = t ∧ post = mid++new := by simpa using hmid
    exact h channel c pre mid hpre

variable {capacity : ℕ → ℕ}

section

variable (h : Flow capacity w)

include h

theorem Flow.append (new : List (Transfer T)) (hlog : w'.log = w.log++new)
    (hlim : ∀ channel, (w'.channel channel).capacity = (w.channel channel).capacity)
    (hitm : ∀ channel, (w.channel channel).items++(accepted channel new).map Prod.snd =
      (received channel new).map Prod.snd++(w'.channel channel).items)
    (hroom : ∀ channel, (w'.channel channel).items.length ≤ capacity channel)
    (hdrain : Drained w.log new) : Flow capacity w' where
  limit channel := by rw [hlim,h.limit]
  balance channel := by
    rw [hlog,accepted_append,received_append,map_append,map_append,h.balance,
      append_assoc,append_assoc,hitm]
  room := hroom
  drained := by
    rw [hlog]
    exact Drained.append h.drained hdrain

theorem Flow.receiveItem {items : List T} (hitm : (w.channel channel).items = item::items) :
    Flow capacity (w.receiveItem channel c item items) := by
  have hroom := h.room channel
  rw [hitm] at hroom
  refine h.append [.received channel c item] log_receiveItem ?_ ?_ ?_ ?_
  · intro ch
    by_cases hch : ch = channel <;> simp [hch]
  · intro ch
    by_cases hch : ch = channel
    · subst hch
      simp [hitm,acceptedOn,receivedOn]
    · simp [hch,Ne.symm hch,acceptedOn,receivedOn]
  · intro ch
    by_cases hch : ch = channel
    · subst hch
      simpa using Nat.le_of_succ_le hroom
    · simpa [hch] using h.room ch
  · intro ch d pre post heq
    simp [singleton_eq_append_iff] at heq

theorem Flow.acceptItem (hroom : (w.channel channel).items.length < (w.channel channel).capacity) :
    Flow capacity (w.acceptItem channel c item) := by
  rw [h.limit] at hroom
  refine h.append [.accepted channel c item] log_acceptItem ?_ ?_ ?_ ?_
  · intro ch
    by_cases hch : ch = channel <;> simp [hch]
  · intro ch
    by_cases hch : ch = channel
    · subst hch
      simp [acceptedOn,receivedOn]
    · simp [hch,Ne.symm hch,acceptedOn,receivedOn]
  · intro ch
    by_cases hch : ch = channel
    · subst hch
      simpa using hroom
    · simpa [hch] using h.room ch
  · intro ch d pre post heq
    simp [singleton_eq_append_iff] at heq

theorem Flow.reportClosed (hitm : (w.channel channel).items = []) :
    Flow capacity (w.reportClosed channel c) := by
  refine h.append [.reportedClosed channel c] log_reportClosed (by simp) ?_ ?_ ?_
  · simp [acceptedOn,receivedOn]
  · simpa using h.room
  · intro ch d pre post heq
    obtain ⟨rfl,⟨rfl,rfl⟩,rfl⟩ : pre = [] ∧ (ch = channel ∧ d = c) ∧ post = [] := by
      simpa [singleton_eq_append_iff] using heq
    rw [append_nil,h.balance,hitm,append_nil]

theorem Flow.handOver {reader writer : CaseId}
    (hop : w.operation writer = some (.write channel item))
    (hitm : (w.channel channel).items = []) : Flow capacity (w.handOver channel reader writer) := by
  have hchannel : (w.handOver channel reader writer).channel = w.channel := by
    rw [handOver_eq hop]
    simp [record]
  refine h.append [.accepted channel writer item,.received channel reader item] ?_ ?_ ?_ ?_ ?_
  · rw [handOver_eq hop]
    simp [record]
  · simp [hchannel]
  · intro ch
    by_cases hch : ch = channel
    · subst hch
      simp [hchannel,hitm,acceptedOn,receivedOn]
    · simp [hchannel,Ne.symm hch,acceptedOn,receivedOn]
  · rw [hchannel]
    exact h.room
  · intro ch d pre post heq
    have hmem : reportedClosed ch d ∈
        [.accepted channel writer item,.received channel reader item] := by simp [heq]
    simp at hmem

/-! ### Every step -/

end

structure Ledger (capacity : ℕ → ℕ) (w : World T) : Prop where
  books : w.Books
  flow : Flow capacity w

/-- The log has grown, and what had been picked is still picked. -/
structure Extends (w w' : World T) : Prop where
  log : w.log <+: w'.log
  picked : ∀ s i, w.picked s = some i → w'.picked s = some i

theorem Extends.refl (w : World T) : Extends w w := ⟨prefix_refl _,fun _ _ h => h⟩

theorem Extends.trans {w'' : World T} (h : Extends w w') (h' : Extends w' w'') : Extends w w'' :=
  ⟨h.log.trans h'.log,fun s i hs => h'.picked s i (h.picked s i hs)⟩

/-- What holds of a world that has come from another one. -/
structure Kept (capacity : ℕ → ℕ) (w₀ w : World T) : Prop where
  ledger : Ledger capacity w
  since : Extends w₀ w

variable {w₀ : World T}

section

variable (h : Kept capacity w₀ w)

include h

/-- Nothing is moved, and no case is picked that could move an item. -/
theorem Kept.congr (hlog : w'.log = w.log)
    (hkept : ∀ s i, w.picked s = some i → w'.picked s = some i)
    (hop : ∀ c op, w.operation c = some op → w'.operation c = some op)
    (hchosen : ∀ c op, w'.operation c = some op → op.Moves → w'.picked c.select = some c.index →
      w.operation c = some op ∧ w.picked c.select = some c.index)
    (hlim : ∀ channel, (w'.channel channel).capacity = (w.channel channel).capacity)
    (hitm : ∀ channel, (w'.channel channel).items = (w.channel channel).items) :
    Kept capacity w₀ w' := by
  have hnil : w'.log = w.log++[] := by rw [hlog,append_nil]
  refine ⟨⟨h.ledger.books.append [] hnil hkept hop nodup_nil (by simp) (by simp) (by simp)
    fun c op hc hmov hpick => .inl (hchosen c op hc hmov hpick),
    h.ledger.flow.append [] hnil hlim ?_ ?_ ?_⟩,h.since.trans ⟨by rw [hlog],hkept⟩⟩
  · simp [hitm]
  · simpa [hitm] using h.ledger.flow.room
  · simp [Drained]

/-- Sections that move nothing. -/
theorem Kept.progress {new : Set CaseId} (hp : Progress new w w') (hlog : w'.log = w.log)
    (hlim : ∀ channel, (w'.channel channel).capacity = (w.channel channel).capacity)
    (hitm : ∀ channel, (w'.channel channel).items = (w.channel channel).items)
    (hchosen : ∀ c op, w.operation c = some op → op.Moves → w'.picked c.select = some c.index →
      w.picked c.select = some c.index) : Kept capacity w₀ w' := by
  have hop := operation_congr hp.frame
  refine h.congr hlog hp.kept (by simp [hop]) ?_ hlim hitm
  intro c op hc hmov hpick
  rw [hop] at hc
  exact ⟨hc,hchosen c op hc hmov hpick⟩

/-- Cases of different calls are picked, and each moves an item or learns that there will be
none. -/
theorem Kept.pickAll (new : List (Transfer T)) (hlog : w'.log = w.log++new)
    (hop : w'.operation = w.operation) (hnd : (new.map (·.case.select)).Nodup)
    (hfresh : ∀ t ∈ new, w.picked t.case.select = none)
    (hoperation : ∀ t ∈ new, w.operation t.case = some t.operation)
    (hpicked : ∀ t ∈ new, w'.picked t.case.select = some t.case.index)
    (hold : ∀ s, (∀ t ∈ new, t.case.select ≠ s) → w'.picked s = w.picked s)
    (hflow : Flow capacity w') : Kept capacity w₀ w' := by
  have hkept (s i : ℕ) (hs : w.picked s = some i) : w'.picked s = some i := by
    rw [hold s,hs]
    rintro t ht rfl
    simp [hfresh t ht] at hs
  refine ⟨⟨h.ledger.books.append new hlog hkept (by simp [hop]) ?_ hfresh hpicked hoperation ?_,
    hflow⟩,h.since.trans ⟨hlog ▸ prefix_append _ _,hkept⟩⟩
  · exact Nodup.of_map CaseId.select (by rwa [map_map])
  · intro d op hd _ hpick
    by_cases hs : ∃ t ∈ new, t.case.select = d.select
    · obtain ⟨t,ht,hsel⟩ := hs
      have hidx := hpicked t ht
      refine .inr ⟨t,ht,?_⟩
      cases hcase : t.case
      cases d
      simp_all
    · rw [hold _ fun t ht hsel => hs ⟨t,ht,hsel⟩] at hpick
      exact .inl ⟨hop ▸ hd,hpick⟩

/-- Sections that pick a case and move something. -/
theorem Kept.pick {q : Queue} (hpick : Picks w w' q c) (hc : w.picked c.select = none)
    (t : Transfer T) (hcase : t.case = c) (hop : w.operation c = some t.operation)
    (hlog : w'.log = w.log++[t]) (hflow : Flow capacity w') : Kept capacity w₀ w' := by
  refine h.pickAll [t] hlog (operation_congr hpick.frame) (by simp) ?_ ?_ ?_ ?_ hflow
  · simp [hcase,hc]
  · simp [hcase,hop]
  · simp [hcase,hpick.picked]
  · intro s hs
    rw [hpick.picked,if_neg]
    rintro rfl
    exact hs t (by simp) (by rw [hcase])

theorem Kept.acceptItem (hw : w.WellLinked) (hop : w.operation c = some (.write channel item))
    (hroom : (w.channel channel).items.length < (w.channel channel).capacity)
    (hc : w.Pickable (.writers channel) c) : Kept capacity w₀ (w.acceptItem channel c item) :=
  h.pick (picks_acceptItem hw hc item) hc.unpicked (.accepted channel c item) rfl hop
    log_acceptItem (h.ledger.flow.acceptItem hroom)

theorem Kept.reportClosed (hw : w.WellLinked)
    (hop : w.operation c = some (.read channel)) (hitm : (w.channel channel).items = [])
    (hc : w.Pickable (.readers channel) c) : Kept capacity w₀ (w.reportClosed channel c) :=
  h.pick (picks_reportClosed hw hc) hc.unpicked (.reportedClosed channel c) rfl hop
    log_reportClosed (h.ledger.flow.reportClosed hitm)

theorem Kept.outcome (hw : w.WellLinked) (hout : w.Outcome c w') : Kept capacity w₀ w' := by
  have hwaits (q : Queue) : Kept capacity w₀ (w.pushBack q c) :=
    h.progress (progress_pushBack w q c) rfl (fun _ => rfl) (fun _ => rfl) fun _ _ _ _ hpick => hpick
  cases hout with
  | idle => exact h
  | picked hread hwrite =>
    have hprog : Progress {c} w (w.tryPick c) := progress_tryPick (.inr rfl)
    refine h.progress hprog rfl (fun _ => rfl) (fun _ => rfl) ?_
    intro d op hd hmov hpick
    refine (picked_tryPick_of_ne ?_).mp hpick
    rintro rfl
    cases op with
    | read channel => exact hread channel hd
    | write channel item => exact hwrite channel item hd
    | event event => exact hmov
    | never => exact hmov
    | always => exact hmov
  | received channel item items hop hitm hc =>
    have htake := picks_receiveItem hw hc item items
    have h₁ := h.pick htake hc.unpicked (.received channel c item) rfl hop log_receiveItem
      (h.ledger.flow.receiveItem hitm)
    rcases admitWriter_cases htake.linked channel with ⟨heq,-⟩ | ⟨writer,_,hwr,hop',heq⟩
    · rw [heq]
      exact h₁
    rw [heq]
    refine h₁.acceptItem htake.linked hop' ?_ (htake.linked.pickable hwr.1 hwr.2)
    have hroom := h.ledger.flow.room channel
    rw [hitm,← h.ledger.flow.limit] at hroom
    simpa using hroom
  | handedOver channel reader writer item hrdr hwr hitm hr hw' hne hc =>
    obtain ⟨_,h₁,h₂⟩ := picks_handOver hw hwr hr hw' hne
    have hlog : (w.handOver channel reader writer).log =
        w.log++[.accepted channel writer item,.received channel reader item] := by
      rw [handOver_eq hwr]
      simp [record]
    refine h.pickAll _ hlog (operation_congr (h₂.frame.trans h₁.frame)) ?_ ?_ ?_ ?_ ?_
      (h.ledger.flow.handOver hwr hitm)
    · simpa [Transfer.case] using hne.symm
    · simp [Transfer.case,hr.unpicked,hw'.unpicked]
    · simp [Transfer.case,Transfer.operation,hrdr,hwr]
    · simp [Transfer.case,h₂.picked,h₁.picked,hne]
    · intro s hs
      simp only [mem_cons,not_mem_nil,or_false,forall_eq_or_imp,forall_eq,Transfer.case] at hs
      rw [h₂.picked,h₁.picked,if_neg hs.1.symm,if_neg hs.2.symm]
  | closed channel hop hitm hcls hc => exact h.reportClosed hw hop hitm hc
  | accepted channel item hop hroom hreaders hc => exact h.acceptItem hw hop hroom hc
  | waitsToRead channel hop hitm hcls hwriters hpick
  | waitsToWrite channel item hop hfull hreaders hpick | waitsForEvent event hop hev =>
    exact hwaits _

/-- A call that goes on takes nothing back. -/
theorem Kept.update {f : Call T → Call T} (hf : Steady f) : Kept capacity w₀ (w.update s f) := by
  have hop (c : CaseId) : (w.update s f).operation c = w.operation c :=
    operation_update fun call => (hf call).1
  refine h.congr rfl ?_ (by simp [hop]) ?_ (fun _ => rfl) fun _ => rfl
  · simp [hf.picked]
  · exact fun c op hc _ hpick => ⟨hop c ▸ hc,hf.picked c.select ▸ hpick⟩

theorem Kept.unregister (c : CaseId) : Kept capacity w₀ (w.unregister c) := by
  obtain ⟨_,_,heq⟩ := unregister_eq w c
  rw [heq]
  exact h.congr rfl (fun _ _ h => h) (fun _ _ h => h) (fun _ _ hc _ hpick => ⟨hc,hpick⟩)
    (fun _ => rfl) fun _ => rfl

theorem Kept.close (hw : w.Invariant) (channel : ℕ) : Kept capacity w₀ (w.close channel) := by
  have hcls : Kept capacity w₀ (w.markClosed channel) := by
    refine h.progress (progress_markClosed w channel) rfl ?_ ?_ fun _ _ _ _ hpick => hpick
    · intro ch
      by_cases hch : ch = channel <;> simp [markClosed,hch]
    · intro ch
      by_cases hch : ch = channel <;> simp [markClosed,hch]
  refine (close_spec hw.linked channel
    (P := fun w' => Released (w.markClosed channel) w' ∧ Kept capacity w₀ w') ?_
    ⟨.refl _,hcls⟩).2.1.2
  rintro w' reader hlink hrdr ⟨hrel,hledger⟩
  refine ⟨hrel.reportClosed hlink hrdr,hledger.reportClosed hlink
    (operation_of_queue_readers (hlink.member hrdr.1).queue) ?_
    (hlink.pickable hrdr.1 hrdr.2)⟩
  have hold : w.Unpicked (.readers channel) reader := hrel.unpicked _ _ hrdr
  rw [hrel.channel]
  simpa [markClosed] using (hw.settled.reader channel reader hold).1

theorem Kept.notifyEvent (hw : w.Invariant) (event : ℕ) :
    Kept capacity w₀ (w.notifyEvent event) := by
  have hprog : Progress ∅ w (w.markNotified event) :=
    ⟨rfl,fun _ _ h => h,fun _ h => .inl h,fun _ h => .inl h,rfl⟩
  obtain ⟨hnot,-⟩ := hw.linked.congr_data hprog rfl (fun _ => rfl) rfl rfl rfl
  refine (releaseCases_induction ?_ hnot (hw.linked.length_le (.event event))
    (h.progress hprog rfl (fun _ => rfl) (fun _ => rfl) fun _ _ _ _ hpick => hpick)).2.1
  intro w' c hlink hc hledger
  refine hledger.progress (progress_release event (hlink.member hc).enqueued) rfl (fun _ => rfl)
    (fun _ => rfl) ?_
  intro d op hd hmov hpick
  refine (picked_tryPick_of_ne ?_).mp hpick
  rintro rfl
  have hque := (hlink.member hc).queue
  rw [queueOf_eq hd] at hque
  cases op <;> simp_all [Operation.queue,Operation.Moves]

theorem Kept.start (s : ℕ) (cases : List (Operation T))
    (order : List ℕ) (needToBlock expirable : Bool) :
    Kept capacity w₀ (w.start s cases order needToBlock expirable) := by
  rw [World.start]
  split_ifs with hst
  · have hnone := hst.1
    have hcall {t : ℕ} (ht : t ≠ s) (call : Call T) : (w.enroll s call).call t = w.call t := by
      rw [call_enroll,if_neg ht]
    have hkept (call : Call T) (t i : ℕ) (ht : w.picked t = some i) :
        (w.enroll s call).picked t = some i := by
      have hne : t ≠ s := by
        rintro rfl
        simp [picked,hnone] at ht
      rw [picked,hcall hne]
      exact ht
    refine h.congr rfl (hkept _) ?_ ?_ (fun _ => rfl) fun _ => rfl
    · intro c op hc
      have hne : c.select ≠ s := by
        intro heq
        simp [operation,heq,hnone] at hc
      rw [operation,hcall hne]
      exact hc
    · intro c op hc _ hpick
      have hne : c.select ≠ s := by
        intro heq
        simp [picked,call_enroll,heq] at hpick
      rw [operation,hcall hne] at hc
      rw [picked,hcall hne] at hpick
      exact ⟨hc,hpick⟩
  · exact h

theorem Kept.expire (s : ℕ) : Kept capacity w₀ (w.expire s) := by
  rw [World.expire]
  cases hcall : w.call s with
  | none => exact h
  | some call =>
    by_cases hexpire : call.phase = .waiting ∧ call.expirable ∧ call.picked = none
    · simp only [if_pos hexpire]
      have hprog : Progress {⟨s,call.cases.length⟩} w (w.tryPick ⟨s,call.cases.length⟩) :=
        progress_tryPick (.inr rfl)
      have hpicked : Kept capacity w₀ (w.tryPick ⟨s,call.cases.length⟩) := by
        refine h.progress hprog rfl (fun _ => rfl) (fun _ => rfl) ?_
        intro d op hd _ hpick
        refine (picked_tryPick_of_ne ?_).mp hpick
        rintro rfl
        simp [operation,hcall] at hd
      exact hpicked.update (steady_enter _)
    · simp only [if_neg hexpire]
      exact h

theorem Kept.advances (hw : w.Invariant) (hadv : w.Advances s w') : Kept capacity w₀ w' := by
  cases hadv with
  | stay => exact h
  | handle call index hcall hph hidx =>
    have hfresh := hw.calls.fresh hw.events (frame_of_call hcall) hph hidx
    exact (h.outcome hw.linked (handleCase_outcome hw hfresh call.needToBlock)).update
      (steady_handled _)
  | enter call phase hcall hgone => exact h.update (steady_enter phase)
  | unregister call next index hcall hph hidx hpick hnext =>
    exact (h.update (steady_enter _)).unregister ⟨s,index⟩

theorem Kept.step (hw : w.Invariant) (a : Action T) : Kept capacity w₀ (Fibers.step w a) := by
  cases a with
  | start s cases order needToBlock expirable => exact h.start s cases order needToBlock expirable
  | advance s => exact h.advances hw (w.advances s)
  | expire s => exact h.expire s
  | close channel =>
    rw [Fibers.step]
    split_ifs
    · exact h
    · exact h.close hw channel
  | notify event =>
    rw [Fibers.step]
    split_ifs
    · exact h
    · exact h.notifyEvent hw event

end

theorem ledger_initial (capacity : ℕ → ℕ) : Ledger capacity (initial (T := T) capacity) := by
  refine ⟨⟨?_,?_,?_,?_⟩,⟨fun _ => rfl,fun _ => rfl,fun _ => Nat.zero_le _,?_⟩⟩
  · exact nodup_nil
  · intro t ht
    simp [initial] at ht
  · intro t ht
    simp [initial] at ht
  · intro c op hc
    simp [operation,initial] at hc
  · intro channel c pre post heq
    simp [initial] at heq

/-! ### Channels as queues -/

theorem map_fst_filterMap_sublist {f : Transfer T → Option (CaseId × T)}
    (hf : ∀ t p, f t = some p → p.1 = t.case) (log : List (Transfer T)) :
    ((log.filterMap f).map Prod.fst).Sublist (log.map case) := by
  induction log with
  | nil => simp
  | cons t log ih =>
    rw [filterMap_cons]
    cases ht : f t with
    | none => exact ih.cons _
    | some p =>
      simp only [map_cons,hf t p ht]
      exact ih.cons_cons _

theorem Books.nodup_filterMap (h : w.Books) {f : Transfer T → Option (CaseId × T)}
    (hf : ∀ t p, f t = some p → p.1 = t.case) : ((w.log.filterMap f).map Prod.fst).Nodup :=
  h.once.sublist (map_fst_filterMap_sublist hf w.log)

/-- An item is accepted exactly when the case that writes it is picked. -/
theorem Books.mem_accepted_iff (h : w.Books) : (c,item) ∈ accepted channel w.log ↔
    w.operation c = some (.write channel item) ∧ w.picked c.select = some c.index := by
  simp only [accepted,mem_filterMap,Transfer.acceptedOn_eq_some,exists_eq_right]
  constructor
  · intro hmem
    exact ⟨h.operation _ hmem,h.picked _ hmem⟩
  · rintro ⟨hop,hpick⟩
    obtain ⟨t,ht,rfl⟩ := h.complete c _ hop trivial hpick
    have hsame := (h.operation t ht).symm.trans hop
    cases t with
    | accepted ch d x => simp_all [Transfer.operation,Transfer.case]
    | received ch d x | reportedClosed ch d => simp [Transfer.operation] at hsame

/-- A case that reads is picked exactly when it receives an item or learns that the channel is
closed. -/
theorem Books.reads_iff (h : w.Books) :
    (∃ item, (c,item) ∈ received channel w.log) ∨ .reportedClosed channel c ∈ w.log ↔
      w.operation c = some (.read channel) ∧ w.picked c.select = some c.index := by
  constructor
  · rintro (⟨item,hmem⟩ | hmem)
    · exact ⟨h.operation _ (mem_received.mp hmem),h.picked _ (mem_received.mp hmem)⟩
    · exact ⟨h.operation _ hmem,h.picked _ hmem⟩
  · rintro ⟨hop,hpick⟩
    obtain ⟨t,ht,rfl⟩ := h.complete c _ hop trivial hpick
    have hsame := (h.operation t ht).symm.trans hop
    cases t with
    | accepted ch d x => simp [Transfer.operation] at hsame
    | received ch d x =>
      obtain rfl : ch = channel := by simpa [Transfer.operation] using hsame
      exact .inl ⟨x,mem_received.mpr ht⟩
    | reportedClosed ch d =>
      obtain rfl : ch = channel := by simpa [Transfer.operation] using hsame
      exact .inr ht

end World

theorem run_ledger (capacity : ℕ → ℕ) (actions : List (Action T)) :
    (run capacity actions).Invariant ∧ Ledger capacity (run capacity actions) :=
  Runs.after_invariant (I := fun w => w.Invariant ∧ Ledger capacity w)
    (fun w a hw => ⟨(hw.1.step a).1,(Kept.step ⟨hw.2,.refl w⟩ hw.1 a).ledger⟩)
    ⟨invariant_initial capacity,ledger_initial capacity⟩ actions

/-- A run only adds to the log and to what is picked. -/
theorem run_extends (capacity : ℕ → ℕ) (actions more : List (Action T)) :
    Extends (run capacity actions) (run capacity (actions++more)) := by
  have hrun := run_ledger capacity actions
  rw [run,run,Runs.after_append]
  exact (Runs.after_invariant (I := fun w => w.Invariant ∧ Kept capacity (run capacity actions) w)
    (fun w a hw => ⟨(hw.1.step a).1,hw.2.step hw.1 a⟩) ⟨hrun.1,hrun.2,.refl _⟩ more).2.since

/-- Channels are bounded queues. In every run of fibers that select over channels and events, what
is received from a channel is, in this order, a beginning of what has been accepted; a case sends
its item exactly when it is picked, and takes part in one transfer only; the rest is in the buffer,
which is within the capacity; a reader is told that the channel is closed only when everything
accepted has been received; and what a call has picked stays picked. -/
theorem channels_fifo (capacity : ℕ → ℕ) (actions : List (Action T)) :
    (∀ channel,
      (received channel (run capacity actions).log).map Prod.snd <+:
        (accepted channel (run capacity actions).log).map Prod.snd ∧
      ((run capacity actions).channel channel).items.length ≤ capacity channel ∧
      ((accepted channel (run capacity actions).log).map Prod.fst).Nodup ∧
      ((received channel (run capacity actions).log).map Prod.fst).Nodup ∧
      (∀ c item, (c,item) ∈ accepted channel (run capacity actions).log ↔
        (run capacity actions).operation c = some (.write channel item) ∧
          (run capacity actions).picked c.select = some c.index) ∧
      (∀ c, (∃ item, (c,item) ∈ received channel (run capacity actions).log) ∨
          .reportedClosed channel c ∈ (run capacity actions).log ↔
        (run capacity actions).operation c = some (.read channel) ∧
          (run capacity actions).picked c.select = some c.index) ∧
      ∀ c earlier later, (run capacity actions).log =
          earlier++.reportedClosed channel c::later →
        (received channel earlier).map Prod.snd = (accepted channel earlier).map Prod.snd) ∧
    ∀ more, World.Extends (run capacity actions) (run capacity (actions++more)) := by
  obtain ⟨-,hbooks,hflow⟩ := run_ledger capacity actions
  refine ⟨fun channel => ⟨?_,hflow.room channel,
    hbooks.nodup_filterMap fun t p ht => by rw [acceptedOn_eq_some.mp ht]; rfl,
    hbooks.nodup_filterMap fun t p ht => by rw [receivedOn_eq_some.mp ht]; rfl,
    fun _ _ => hbooks.mem_accepted_iff,fun _ => hbooks.reads_iff,?_⟩,run_extends capacity actions⟩
  · rw [hflow.balance]
    exact prefix_append _ _
  · intro c earlier later hlog
    exact (hflow.drained channel c earlier later hlog).symm

/-- Two items pass through a channel with room for one of them. Then it is closed. -/
def drainingRun : List (Action ℕ) :=
  [.start 0 [.write 0 5] [0] true false,.advance 0,.start 1 [.write 0 7] [0] true true,.advance 1,
    .start 2 [.read 0] [0] true false,.advance 2,.start 3 [.read 0] [0] true false,.advance 3,
    .close 0,.start 4 [.read 0] [0] true false,.advance 4]

theorem channels_fifo_drained :
    (accepted 0 (run (fun _ => 1) drainingRun).log).map Prod.snd = [5,7] ∧
    (received 0 ((run (fun _ => 1) drainingRun).log.take 4)).map Prod.snd = [5,7] := by
  have hrep : (run (fun _ => 1) drainingRun).log =
      (run (fun _ => 1) drainingRun).log.take 4++.reportedClosed 0 ⟨4,0⟩::[] := by decide
  have hdrain := ((channels_fifo (fun _ => 1) drainingRun).1 0).2.2.2.2.2.2 _ _ _ hrep
  exact ⟨by decide,hdrain.trans (by decide)⟩

/-- In every run the waiter lists are well linked, no case on them could be served, and none is on the
list of an event that was notified. -/
theorem waiting_justified (capacity : ℕ → ℕ) (actions : List (Action T)) :
    let w := run capacity actions
    w.WellLinked ∧ w.Settled ∧ ∀ event, w.notified event = true → w.waiters (.event event) = [] := by
  have h := (run_ledger capacity actions).1
  exact ⟨h.linked,h.settled,h.events.quiet⟩

end A11.Fibers
