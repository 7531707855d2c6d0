import A11.SelectInvariant

/-! The sections of the channels and of the selecting fibers one by one, and what they keep. -/
namespace A11.Fibers

open Intrusive List

variable {T : Type}

namespace World

variable {w w' : World T} {c d reader writer : CaseId} {q : Queue} {channel event s : ℕ} {item : T}
  {items : List T}

/-! ### Moving items -/

@[simp] theorem channel_notify (w : World T) (q : Queue) (c : CaseId) :
    (w.notify q c).channel = w.channel := by
  obtain ⟨_,_,h⟩ := notify_eq w q c
  rw [h]
  rfl

@[simp] theorem log_notify (w : World T) (q : Queue) (c : CaseId) : (w.notify q c).log = w.log := by
  obtain ⟨_,_,h⟩ := notify_eq w q c
  rw [h]
  rfl

theorem picks_receiveItem (h : w.WellLinked) (hc : w.Pickable (.readers channel) c) (item : T)
    (items : List T) : Picks w (w.receiveItem channel c item items) (.readers channel) c :=
  picks_notify h hc _ _

@[simp] theorem channel_receiveItem : (w.receiveItem channel c item items).channel =
    Function.update w.channel channel { w.channel channel with items } := channel_notify _ _ _

@[simp] theorem log_receiveItem : (w.receiveItem channel c item items).log =
    w.log++[.received channel c item] := log_notify _ _ _

theorem picks_acceptItem (h : w.WellLinked) (hc : w.Pickable (.writers channel) c) (item : T) :
    Picks w (w.acceptItem channel c item) (.writers channel) c := picks_notify h hc _ _

@[simp] theorem channel_acceptItem : (w.acceptItem channel c item).channel =
    Function.update w.channel channel
      { w.channel channel with items := (w.channel channel).items++[item] } := channel_notify _ _ _

@[simp] theorem log_acceptItem : (w.acceptItem channel c item).log =
    w.log++[.accepted channel c item] := log_notify _ _ _

theorem picks_reportClosed (h : w.WellLinked) (hc : w.Pickable (.readers channel) c) :
    Picks w (w.reportClosed channel c) (.readers channel) c := picks_notify h hc _ _

@[simp] theorem channel_reportClosed : (w.reportClosed channel c).channel = w.channel :=
  channel_notify _ _ _

@[simp] theorem log_reportClosed : (w.reportClosed channel c).log =
    w.log++[.reportedClosed channel c] := log_notify _ _ _

theorem item_eq (h : w.operation c = some (.write channel item)) : w.item c = some item := by
  rw [World.item,h]

theorem handOver_eq (h : w.operation writer = some (.write channel item)) :
    w.handOver channel reader writer =
      ((w.record [.accepted channel writer item,.received channel reader item]).notify
        (.readers channel) reader).notify (.writers channel) writer := by
  rw [handOver,item_eq h]

theorem picks_handOver (h : w.WellLinked) (hop : w.operation writer = some (.write channel item))
    (hrdr : w.Pickable (.readers channel) reader)
    (hwr : w.Pickable (.writers channel) writer) (hne : reader.select ≠ writer.select) :
    ∃ w₁, Picks w w₁ (.readers channel) reader ∧
      Picks w₁ (w.handOver channel reader writer) (.writers channel) writer := by
  rw [handOver_eq hop]
  have h₁ : Picks w ((w.record [.accepted channel writer item,.received channel reader item]).notify
      (.readers channel) reader) (.readers channel) reader := picks_notify h hrdr _ _
  exact ⟨_,h₁,picks_notify h₁.linked (h₁.pickable hwr hne.symm) _ _⟩

theorem operation_of_queue_writers (h : w.queueOf c = some (.writers channel)) :
    ∃ item, w.operation c = some (.write channel item) := by
  obtain ⟨op,hop,hq⟩ := Option.bind_eq_some_iff.mp h
  cases op <;> simp [Operation.queue] at hq
  subst hq
  exact ⟨_,hop⟩

theorem operation_of_queue_readers (h : w.queueOf c = some (.readers channel)) :
    w.operation c = some (.read channel) := by
  obtain ⟨op,hop,hq⟩ := Option.bind_eq_some_iff.mp h
  cases op <;> simp [Operation.queue] at hq
  subst hq
  exact hop

/-- A writer that waits is admitted, if there is one. -/
theorem admitWriter_cases (h : w.WellLinked) (channel : ℕ) :
    (w.admitWriter channel = w ∧ ∀ writer, ¬w.Unpicked (.writers channel) writer) ∨
      ∃ writer item, w.Unpicked (.writers channel) writer ∧
        w.operation writer = some (.write channel item) ∧
        w.admitWriter channel = w.acceptItem channel writer item := by
  rw [admitWriter]
  cases hfind : w.waitingWriter channel with
  | none =>
    left
    refine ⟨rfl,?_⟩
    rintro writer ⟨hmem,hpick⟩
    simpa [hpick] using find?_eq_none.mp hfind writer hmem
  | some writer =>
    right
    have hmem := mem_of_find?_eq_some hfind
    have hpick : w.picked writer.select = none := by simpa using find?_some hfind
    obtain ⟨item,hop⟩ := operation_of_queue_writers (h.member hmem).queue
    exact ⟨writer,item,⟨hmem,hpick⟩,hop,by simp [item_eq hop]⟩

theorem bothWaiting_iff : w.bothWaiting reader writer = true ↔
    reader.select ≠ writer.select ∧ w.picked reader.select = none ∧
      w.picked writer.select = none := by
  simp [bothWaiting,and_assoc]

/-! ### Handling one case -/

/-- What handling a case may do. -/
inductive Outcome (w : World T) (c : CaseId) : World T → Prop
  | idle : Outcome w c w
  | picked (hread : ∀ channel, w.operation c ≠ some (.read channel))
      (hwrite : ∀ channel item, w.operation c ≠ some (.write channel item)) :
      Outcome w c (w.tryPick c)
  | received (channel : ℕ) (item : T) (items : List T) (hop : w.operation c = some (.read channel))
      (hitems : (w.channel channel).items = item::items)
      (hc : w.Pickable (.readers channel) c) :
      Outcome w c ((w.receiveItem channel c item items).admitWriter channel)
  | handedOver (channel : ℕ) (reader writer : CaseId) (item : T)
      (hreader : w.operation reader = some (.read channel))
      (hwriter : w.operation writer = some (.write channel item))
      (hitems : (w.channel channel).items = []) (hr : w.Pickable (.readers channel) reader)
      (hw : w.Pickable (.writers channel) writer) (hne : reader.select ≠ writer.select)
      (hc : c = reader ∧ writer ∈ w.enqueued ∨ c = writer ∧ reader ∈ w.enqueued) :
      Outcome w c (w.handOver channel reader writer)
  | closed (channel : ℕ) (hop : w.operation c = some (.read channel))
      (hitems : (w.channel channel).items = []) (hclosed : (w.channel channel).closed = true)
      (hc : w.Pickable (.readers channel) c) : Outcome w c (w.reportClosed channel c)
  | accepted (channel : ℕ) (item : T) (hop : w.operation c = some (.write channel item))
      (hroom : (w.channel channel).items.length < (w.channel channel).capacity)
      (hreaders : ∀ reader, w.Unpicked (.readers channel) reader → reader.select = c.select)
      (hc : w.Pickable (.writers channel) c) : Outcome w c (w.acceptItem channel c item)
  | waitsToRead (channel : ℕ) (hop : w.operation c = some (.read channel))
      (hitems : (w.channel channel).items = []) (hclosed : (w.channel channel).closed = false)
      (hwriters : ∀ writer, w.Unpicked (.writers channel) writer → writer.select = c.select)
      (hpick : w.picked c.select = none) : Outcome w c (w.pushBack (.readers channel) c)
  | waitsToWrite (channel : ℕ) (item : T) (hop : w.operation c = some (.write channel item))
      (hfull : (w.channel channel).capacity ≤ (w.channel channel).items.length)
      (hreaders : ∀ reader, w.Unpicked (.readers channel) reader → reader.select = c.select)
      (hpick : w.picked c.select = none) : Outcome w c (w.pushBack (.writers channel) c)
  | waitsForEvent (event : ℕ) (hop : w.operation c = some (.event event))
      (hevent : w.notified event = false) : Outcome w c (w.pushBack (.event event) c)

/-- The invariant of the reachable states. -/
structure Invariant (w : World T) : Prop where
  linked : w.WellLinked
  calls : w.CallsOk
  events : w.EventsOk
  settled : w.Settled

section

variable (h : w.Invariant) (hc : w.Fresh c)

include h hc

theorem handleRead_outcome (hop : w.operation c = some (.read channel)) (enqueue : Bool) :
    w.Outcome c (w.handleRead channel c enqueue).1 := by
  have hpickable (hpick : w.picked c.select = none) : w.Pickable (.readers channel) c :=
    ⟨call_isSome_of_operation hop,hpick,.inl hc.enqueued⟩
  rw [handleRead]
  cases hitm : (w.channel channel).items with
  | cons item items =>
    by_cases hpick : w.picked c.select = none
    · simp only [if_pos hpick]
      exact .received channel item items hop hitm (hpickable hpick)
    · simp only [if_neg hpick]
      exact .idle
  | nil =>
    cases hmatch : w.matchingWriter channel c with
    | some writer =>
      have hmem := mem_of_find?_eq_some hmatch
      obtain ⟨hne,hpick,hpick'⟩ := bothWaiting_iff.mp (find?_some hmatch)
      obtain ⟨item,hwr⟩ := operation_of_queue_writers (h.linked.member hmem).queue
      exact .handedOver channel c writer item hop hwr hitm (hpickable hpick)
        (h.linked.pickable hmem hpick') hne (.inl ⟨rfl,(h.linked.member hmem).enqueued⟩)
    | none =>
      by_cases hpick : w.picked c.select = none
      · have hwriters (writer : CaseId) (hwr : w.Unpicked (.writers channel) writer) :
            writer.select = c.select := by
          have hnone := find?_eq_none.mp hmatch writer hwr.1
          rw [bothWaiting_iff] at hnone
          by_contra hne
          exact hnone ⟨Ne.symm hne,hpick,hwr.2⟩
        simp only [hpick,ne_eq,not_true_eq_false,if_false]
        split
        · next hcls => exact .closed channel hop hitm hcls (hpickable hpick)
        next hcls =>
        cases enqueue with
        | true => exact .waitsToRead channel hop hitm (by simpa using hcls) hwriters hpick
        | false => exact .idle
      · simp only [if_pos hpick]
        exact .idle

theorem handleWrite_outcome (hop : w.operation c = some (.write channel item)) (enqueue : Bool) :
    w.Outcome c (w.handleWrite channel item c enqueue).1 := by
  have hpickable (hpick : w.picked c.select = none) : w.Pickable (.writers channel) c :=
    ⟨call_isSome_of_operation hop,hpick,.inl hc.enqueued⟩
  rw [handleWrite]
  cases hmatch : w.matchingReader channel c with
  | some reader =>
    have hmem := mem_of_find?_eq_some hmatch
    have hboth := find?_some hmatch
    obtain ⟨hne,hpick,hpick'⟩ := bothWaiting_iff.mp hboth
    exact .handedOver channel reader c item
      (operation_of_queue_readers (h.linked.member hmem).queue) hop
      (h.settled.reader channel reader ⟨hmem,hpick⟩).1 (h.linked.pickable hmem hpick)
      (hpickable hpick') hne (.inr ⟨rfl,(h.linked.member hmem).enqueued⟩)
  | none =>
    by_cases hpick : w.picked c.select = none
    · have hrdr (reader : CaseId) (hreader : w.Unpicked (.readers channel) reader) :
          reader.select = c.select := by
        have hnone := find?_eq_none.mp hmatch reader hreader.1
        rw [bothWaiting_iff] at hnone
        by_contra hne
        exact hnone ⟨hne,hreader.2,hpick⟩
      simp only [hpick,ne_eq,not_true_eq_false,if_false]
      split
      · next hroom => exact .accepted channel item hop hroom hrdr (hpickable hpick)
      next hroom =>
      cases enqueue with
      | true => exact .waitsToWrite channel item hop (by omega) hrdr hpick
      | false => exact .idle
    · simp only [if_pos hpick]
      exact .idle

theorem handleCase_outcome (enqueue : Bool) : w.Outcome c (w.handleCase c enqueue).1 := by
  rw [handleCase]
  cases hop : w.operation c with
  | none => exact .idle
  | some op =>
    cases op with
    | read channel => exact handleRead_outcome h hc hop enqueue
    | write channel item => exact handleWrite_outcome h hc hop enqueue
    | event event =>
      simp only [handleEvent]
      cases hev : w.notified event with
      | true => exact .picked (by simp [hop]) (by simp [hop])
      | false =>
        cases enqueue with
        | true => exact .waitsForEvent event hop hev
        | false => exact .idle
    | never => exact .idle
    | always => exact .picked (by simp [hop]) (by simp [hop])

/-! ### What handling keeps -/

end

theorem progress_pushBack (w : World T) (q : Queue) (c : CaseId) :
    Progress {c} w (w.pushBack q c) where
  frame := rfl
  kept _ _ h := h
  chosen _ h := .inl h
  enqueued d hd := by
    rcases mem_append.mp hd with hd | hd
    · exact .inl hd
    · exact .inr (mem_singleton.mp hd)
  unregistered := rfl

theorem queueOf_eq {op : Operation T} (h : w.operation c = some op) : w.queueOf c = op.queue := by
  rw [queueOf,h]
  rfl

theorem WellLinked.pushBack_fresh (h : w.WellLinked) (hc : w.Fresh c)
    (hq : w.queueOf c = some q) : (w.pushBack q c).WellLinked ∧
      (w.pushBack q c).waiters = Function.update w.waiters q (w.waiters q++[c]) ∧
      ∀ q', w.Exact q' → (w.pushBack q c).Exact q' := h.pushBack hc.enqueued
    { hc with queue := hq, enqueued := mem_append_right _ (mem_singleton.mpr rfl) }

theorem EventsOk.pushBack (he : w.EventsOk) (h : w.WellLinked) (hc : w.Fresh c)
    (hq : w.queueOf c = some q) (hev : ∀ event, q = .event event → w.notified event = false) :
    (w.pushBack q c).EventsOk where
  released d hd := by
    obtain ⟨hmem,hrel⟩ := he.released d hd
    exact ⟨mem_append_left _ hmem,hrel⟩
  quiet event hnotified := by
    rw [(h.pushBack_fresh hc hq).2.1,Function.update_of_ne]
    · exact he.quiet event hnotified
    · rintro rfl
      have hfalse := hev event rfl
      have htrue : w.notified event = true := hnotified
      simp [hfalse] at htrue

/-- What handling the case `c` keeps: the choices made, every list that is complete, and the
rules of events. -/
structure Dealt (c : CaseId) (w w' : World T) : Prop where
  progress : Progress {c} w w'
  linked : w'.WellLinked
  exact : ∀ q, w.Exact q → w'.Exact q
  events : w.EventsOk → w'.EventsOk

theorem Dealt.trans {w₁ : World T} (h : Dealt c w w₁) (h' : Dealt c w₁ w') : Dealt c w w' where
  progress := h.progress.trans h'.progress
  linked := h'.linked
  exact q hq := h'.exact q (h.exact q hq)
  events he := h'.events (h.events he)

theorem dealt_tryPick (h : w.WellLinked) (hc : c ∉ w.enqueued) : Dealt c w (w.tryPick c) := by
  obtain ⟨h',-,hex⟩ := h.tryPick hc
  refine ⟨progress_tryPick (.inr rfl),h',hex,fun he => ⟨?_,?_⟩⟩
  · intro d hd
    rw [queueOf_congr (frame_tryPick w c)]
    exact he.released d hd
  · intro event hev
    exact he.quiet event hev

theorem Picks.dealt (h : Picks w w' q d) (hq : ∀ event, q ≠ .event event)
    (hd : d ∈ w.enqueued ∨ d = c) (hpick : w.picked d.select = none) : Dealt c w w' :=
  ⟨h.progress hd hpick,h.linked,h.exact,h.eventsOk hq⟩

section

variable (h : w.WellLinked) (hc : w.Fresh c)

include h hc

theorem dealt_pushBack (hq : w.queueOf c = some q)
    (hev : ∀ event, q = .event event → w.notified event = false) : Dealt c w (w.pushBack q c) := by
  obtain ⟨h',-,hex⟩ := h.pushBack_fresh hc hq
  exact ⟨progress_pushBack w q c,h',hex,fun he => he.pushBack h hc hq hev⟩

theorem Outcome.dealt (hout : w.Outcome c w') : Dealt c w w' := by
  cases hout with
  | idle => exact ⟨.refl _ _,h,fun _ hq => hq,id⟩
  | picked hread hwrite => exact dealt_tryPick h hc.enqueued
  | received channel item items hop hitm hc =>
    have htake := picks_receiveItem h hc item items
    have htak : Dealt c w _ := htake.dealt (by simp) (.inr rfl) hc.unpicked
    rcases admitWriter_cases htake.linked channel with ⟨heq,-⟩ | ⟨writer,item',hw,-,heq⟩
    · rw [heq]
      exact htak
    rw [heq]
    have hacc := picks_acceptItem htake.linked (htake.linked.pickable hw.1 hw.2) item'
    exact htak.trans
      (hacc.dealt (by simp) (.inl (htake.linked.member hw.1).enqueued) hw.2)
  | handedOver channel reader writer item hreader hwr hitm hr hw hne hc =>
    obtain ⟨w₁,h₁,h₂⟩ := picks_handOver h hwr hr hw hne
    have hpl : (reader ∈ w.enqueued ∨ reader = c) ∧ (writer ∈ w₁.enqueued ∨ writer = c) := by
      rw [h₁.enqueued]
      rcases hc with ⟨rfl,hmem⟩ | ⟨rfl,hmem⟩
      · exact ⟨.inr rfl,.inl hmem⟩
      · exact ⟨.inl hmem,.inr rfl⟩
    exact (h₁.dealt (by simp) hpl.1 hr.unpicked).trans
      (h₂.dealt (by simp) hpl.2 (h₁.pickable hw hne.symm).unpicked)
  | closed channel hop hitm hcls hc =>
    exact (picks_reportClosed h hc).dealt (by simp) (.inr rfl) hc.unpicked
  | accepted channel item hop hroom hrdr hc =>
    exact (picks_acceptItem h hc item).dealt (by simp) (.inr rfl) hc.unpicked
  | waitsToRead channel hop hitm hcls hwriters hpick
  | waitsToWrite channel item hop hfull hrdr hpick =>
    exact dealt_pushBack h hc (queueOf_eq hop) (by simp)
  | waitsForEvent event hop hev =>
    refine dealt_pushBack h hc (queueOf_eq hop) ?_
    rintro _ ⟨rfl⟩
    exact hev

theorem unpicked_pushBack (hq : w.queueOf c = some q)
    (q' : Queue) (d : CaseId) (hd : (w.pushBack q c).Unpicked q' d) :
    w.Unpicked q' d ∨ (q' = q ∧ d = c) := by
  obtain ⟨hmem,hpick⟩ := hd
  rw [(h.pushBack_fresh hc hq).2.1] at hmem
  by_cases hsame : q' = q
  · subst hsame
    rw [Function.update_self] at hmem
    rcases mem_append.mp hmem with hmem | hmem
    · exact .inl ⟨hmem,hpick⟩
    · exact .inr ⟨rfl,mem_singleton.mp hmem⟩
  · rw [Function.update_of_ne hsame] at hmem
    exact .inl ⟨hmem,hpick⟩

end

theorem Settled.tryPick (hs : w.Settled) : (w.tryPick c).Settled := by
  refine hs.mono rfl ?_
  rintro q d ⟨hmem,hpick⟩
  rw [picked_tryPick] at hpick
  split_ifs at hpick
  exact ⟨hmem,hpick⟩

/-- A section that changes one channel and lets no new case wait. -/
theorem Settled.change (hs : w.Settled) (channel : ℕ)
    (hoth : ∀ ch, ch ≠ channel → w'.channel ch = w.channel ch)
    (hold : ∀ {q d}, w'.Unpicked q d → w.Unpicked q d)
    (hrdr : ∀ d, w'.Unpicked (.readers channel) d →
      (w'.channel channel).items = [] ∧ (w'.channel channel).closed = false)
    (hwr : ∀ d, w'.Unpicked (.writers channel) d →
      (w'.channel channel).capacity ≤ (w'.channel channel).items.length) : w'.Settled := by
  refine ⟨?_,?_,fun ch d e hd he => hs.pair ch d e (hold hd) (hold he)⟩
  · intro ch d hd
    by_cases hch : ch = channel
    · subst hch
      exact hrdr d hd
    · rw [hoth ch hch]
      exact hs.reader ch d (hold hd)
  · intro ch d hd
    by_cases hch : ch = channel
    · subst hch
      exact hwr d hd
    · rw [hoth ch hch]
      exact hs.writer ch d (hold hd)

/-- A case that cannot be served joins its list. -/
theorem Settled.pushBack (hs : w.Settled) (h : w.WellLinked) (hc : w.Fresh c)
    (hq : w.queueOf c = some q)
    (hrdr : ∀ channel, q = .readers channel → (w.channel channel).items = [] ∧
      (w.channel channel).closed = false ∧
      ∀ writer, w.Unpicked (.writers channel) writer → writer.select = c.select)
    (hwr : ∀ channel, q = .writers channel →
      (w.channel channel).capacity ≤ (w.channel channel).items.length ∧
      ∀ reader, w.Unpicked (.readers channel) reader → reader.select = c.select) :
    (w.pushBack q c).Settled := by
  have hcs := unpicked_pushBack h hc hq
  refine ⟨?_,?_,?_⟩
  · intro ch d hd
    rcases hcs _ _ hd with hd | ⟨rfl,rfl⟩
    · exact hs.reader ch d hd
    · exact ⟨(hrdr ch rfl).1,(hrdr ch rfl).2.1⟩
  · intro ch d hd
    rcases hcs _ _ hd with hd | ⟨rfl,rfl⟩
    · exact hs.writer ch d hd
    · exact (hwr ch rfl).1
  · intro ch d e hd he
    rcases hcs _ _ hd with hd' | ⟨rfl,rfl⟩
    · rcases hcs _ _ he with he' | ⟨rfl,rfl⟩
      · exact hs.pair ch d e hd' he'
      · exact (hwr ch rfl).2 d hd'
    · rcases hcs _ _ he with he' | ⟨hq',-⟩
      · exact ((hrdr ch rfl).2.2 e he').symm
      · cases hq'

/-- Handling a case leaves no case on a list that could be served. -/
theorem Outcome.settled (h : w.WellLinked) (hs : w.Settled) (hc : w.Fresh c)
    (hout : w.Outcome c w') : w'.Settled := by
  cases hout with
  | idle => exact hs
  | picked hread hwrite => exact hs.tryPick
  | received channel item items hop hitm hc =>
    have htake := picks_receiveItem h hc item items
    -- The buffer was not empty, so that no reader waits.
    have hrdr (reader : CaseId) : ¬w.Unpicked (.readers channel) reader := by
      intro hreader
      simpa [hitm] using (hs.reader channel reader hreader).1
    rcases admitWriter_cases htake.linked channel with ⟨heq,hnone⟩ | ⟨writer,item',hw,-,heq⟩
    · rw [heq]
      refine hs.change channel (by simp +contextual) (fun hd => (htake.unpicked hd).1) ?_ ?_
      · exact fun d hd => absurd (htake.unpicked hd).1 (hrdr d)
      · exact fun d hd => absurd hd (hnone d)
    rw [heq]
    have hacc := picks_acceptItem htake.linked
      (htake.linked.pickable hw.1 hw.2) item'
    have hold {q : Queue} {d : CaseId}
        (hd : ((w.receiveItem channel c item items).acceptItem channel writer item').Unpicked q d) :
        w.Unpicked q d := (htake.unpicked (hacc.unpicked hd).1).1
    refine hs.change channel (by simp +contextual) hold ?_ ?_
    · exact fun d hd => absurd (hold hd) (hrdr d)
    · exact fun d hd => by simpa [hitm] using hs.writer channel d (hold hd)
  | handedOver channel reader writer item hreader hwr hitm hr hw hne hc =>
    obtain ⟨_,h₁,h₂⟩ := picks_handOver h hwr hr hw hne
    refine hs.mono ?_ fun q d hd => (h₁.unpicked (h₂.unpicked hd).1).1
    rw [handOver_eq hwr]
    simp [record]
  | closed channel hop hitm hcls hc =>
    exact hs.mono (by simp) fun q d hd => ((picks_reportClosed h hc).unpicked hd).1
  | accepted channel item hop hroom hrdr hc =>
    have hacc := picks_acceptItem h hc item
    refine hs.change channel (by simp +contextual) (fun hd => (hacc.unpicked hd).1) ?_ ?_
    · intro d hd
      exact absurd (hrdr d (hacc.unpicked hd).1) (hacc.unpicked hd).2
    · intro d hd
      have hfull := hs.writer channel d (hacc.unpicked hd).1
      omega
  | waitsToRead channel hop hitm hcls hwriters hpick =>
    refine hs.pushBack h hc (queueOf_eq hop) ?_ (by simp)
    rintro ch ⟨rfl⟩
    exact ⟨hitm,hcls,hwriters⟩
  | waitsToWrite channel item hop hfull hrdr hpick =>
    refine hs.pushBack h hc (queueOf_eq hop) (by simp) ?_
    rintro ch ⟨rfl⟩
    exact ⟨hfull,hrdr⟩
  | waitsForEvent event hop hev => exact hs.pushBack h hc (queueOf_eq hop) (by simp) (by simp)

end World

end A11.Fibers
