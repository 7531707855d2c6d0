import A11.SelectSteps
import Mathlib.Data.Set.Basic

/-! The invariant of the channels and of the selecting fibers along every run. -/
namespace A11.Fibers

open Intrusive List Option Call World

variable {T : Type}

namespace World

variable {w w' : World T} {c d : CaseId} {q : Queue} {channel event s : ℕ} {call : Call T}
  {f : Call T → Call T}

/-! ### How far the calls are -/

theorem frame_of_call (hcall : w.call s = some call) : w.frame s = some call.unpicked := by
  rw [frame,hcall]
  rfl

theorem frame_update_self (hcall : w.call s = some call) :
    (w.update s f).frame s = some (f call).unpicked :=
  frame_of_call (by rw [call_update,if_pos rfl,hcall]; rfl)

theorem frame_update_of_ne {t : ℕ} (h : t ≠ s) : (w.update s f).frame t = w.frame t := by
  rw [frame,call_update,if_neg h,frame]

/-- Every call has the same cases, and at least as many of them are handled and unregistered. -/
def Advanced (w w' : World T) : Prop := ∀ s call, w.frame s = some call →
  ∃ call', w'.frame s = some call' ∧ call'.cases = call.cases ∧
    call.order.take call.registered ⊆ call'.order.take call'.registered ∧
    call.order.take call.gone ⊆ call'.order.take call'.gone

theorem Advanced.of_frame_eq (h : w'.frame = w.frame) : Advanced w w' := by
  intro s call hcall
  exact ⟨call,by rw [h,hcall],rfl,Subset.refl _,Subset.refl _⟩

section

variable (h : Advanced w w')

include h

theorem Advanced.trans {w'' : World T} (h' : Advanced w' w'') : Advanced w w'' := by
  intro s call hcall
  obtain ⟨call',hcall',hcases,hhand,hgone⟩ := h s call hcall
  obtain ⟨call'',hcall'',hcs',hhand',hgone'⟩ := h' s call' hcall'
  exact ⟨call'',hcall'',hcs'.trans hcases,Subset.trans hhand hhand',
    Subset.trans hgone hgone'⟩

theorem Advanced.handled (hc : w.Handled c) : w'.Handled c := by
  obtain ⟨call,hcall,hmem⟩ := hc
  obtain ⟨call',hcall',-,hsub,-⟩ := h _ call hcall
  exact ⟨call',hcall',hsub hmem⟩

theorem Advanced.expired (hc : w.Expired c) : w'.Expired c := by
  obtain ⟨call,hcall,hlast⟩ := hc
  obtain ⟨call',hcall',hcases,-,-⟩ := h _ call hcall
  exact ⟨call',hcall',by rw [hcases,hlast]⟩

theorem Advanced.gone (hc : w.Gone c) : w'.Gone c := by
  obtain ⟨call,hcall,hmem⟩ := hc
  obtain ⟨call',hcall',-,-,hsub⟩ := h _ call hcall
  exact ⟨call',hcall',hsub hmem⟩

end

/-- Every call handles each of its cases once. -/
def Orderly (w : World T) : Prop :=
  ∀ s call, w.frame s = some call → call.order.Perm (range call.cases.length)

theorem CallsOk.advance (h : w.CallsOk) (hadv : Advanced w w')
    (hord : w'.Orderly)
    (henq : ∀ c ∈ w'.enqueued, c ∈ w.enqueued ∨ w'.Handled c)
    (hpicked : ∀ c, w'.picked c.select = some c.index →
      w.picked c.select = some c.index ∨ w'.Handled c ∨ w'.Expired c)
    (hunreg : ∀ c ∈ w'.unregistered, c ∈ w.unregistered ∨ w'.Gone c) : w'.CallsOk where
  order := hord
  enqueued c hc := by
    rcases henq c hc with hc | hc
    · exact hadv.handled (h.enqueued c hc)
    · exact hc
  picked c hc := by
    rcases hpicked c hc with hc | hc
    · exact (h.picked c hc).imp hadv.handled hadv.expired
    · exact hc
  unregistered c hc := by
    rcases hunreg c hc with hc | hc
    · exact hadv.gone (h.unregistered c hc)
    · exact hc

/-- A section that handles no case of its own. -/
theorem CallsOk.progress {new : Set CaseId} (h : w.CallsOk) (hp : Progress new w w')
    (hnew : ∀ c ∈ new, (c ∈ w'.enqueued → c ∈ w.enqueued) ∧ w'.Expired c) : w'.CallsOk := by
  have hadv := Advanced.of_frame_eq hp.frame
  refine h.advance hadv ?_ ?_ ?_ ?_
  · rw [Orderly,hp.frame]
    exact h.order
  · intro c hc
    exact .inl ((hp.enqueued c hc).elim id fun hmem => (hnew c hmem).1 hc)
  · intro c hc
    rcases hp.chosen c hc with hc | hc | hc
    · exact .inl hc
    · exact .inr (.inl (hadv.handled (h.enqueued c hc)))
    · exact .inr (.inr (hnew c hc).2)
  · intro c hc
    exact .inl (hp.unregistered ▸ hc)

theorem advanced_update (hcall : w.call s = some call) (hcases : (f call).cases = call.cases)
    (hhand : call.order.take call.registered ⊆ (f call).order.take (f call).registered)
    (hgone : call.order.take call.gone ⊆ (f call).order.take (f call).gone) :
    Advanced w (w.update s f) := by
  intro t call' hcall'
  by_cases ht : t = s
  · subst ht
    rw [frame,hcall] at hcall'
    obtain rfl := some.inj hcall'
    exact ⟨_,frame_update_self hcall,hcases,hhand,hgone⟩
  · exact ⟨call',by rw [frame_update_of_ne ht,hcall'],rfl,Subset.refl _,Subset.refl _⟩

theorem Orderly.update (h : w.Orderly) (hcall : w.call s = some call)
    (hcases : (f call).cases = call.cases) (hord : (f call).order = call.order) :
    (w.update s f).Orderly := by
  intro t call' hcall'
  by_cases ht : t = s
  · subst ht
    rw [frame_update_self hcall] at hcall'
    obtain rfl := some.inj hcall'
    have hperm : call.order.Perm (range call.cases.length) :=
      h t call.unpicked (frame_of_call hcall)
    rw [← hord,← hcases] at hperm
    exact hperm
  · rw [frame_update_of_ne ht] at hcall'
    exact h t call' hcall'

/-! ### Where a call stands -/

section Update

/-- A change of a call that leaves alone what the lists depend on. -/
def Steady (f : Call T → Call T) : Prop :=
  ∀ call, (f call).cases = call.cases ∧ (f call).picked = call.picked

theorem steady_enter (phase : Phase) : Steady (enter (T := T) phase) := fun _ => ⟨rfl,rfl⟩

theorem steady_handled (ready : Bool) : Steady fun call : Call T => call.handled ready :=
  fun _ => ⟨rfl,rfl⟩

variable (hf : Steady f)

include hf

theorem Steady.queueOf : (w.update s f).queueOf = w.queueOf := by
  funext c
  rw [World.queueOf,operation_update fun call => (hf call).1,World.queueOf]

theorem Steady.picked (t : ℕ) : (w.update s f).picked t = w.picked t := by
  rw [World.picked,World.picked,call_update]
  split_ifs with hs
  · cases w.call t <;> simp [(hf _).2]
  · rfl

theorem waiting_update : (w.update s f).Waiting q c ↔ w.Waiting q c := by
  constructor <;> rintro ⟨hq,hmem,hunreg,hrel,hpick⟩
  · exact ⟨hf.queueOf ▸ hq,hmem,hunreg,hrel,hf.picked c.select ▸ hpick⟩
  · exact ⟨hf.queueOf.symm ▸ hq,hmem,hunreg,hrel,(hf.picked c.select).symm ▸ hpick⟩

theorem WellLinked.update (h : w.WellLinked) : (w.update s f).WellLinked ∧
    (w.update s f).waiters = w.waiters ∧ ∀ q, w.Exact q → (w.update s f).Exact q :=
  h.congr_of_waiting (fun _ _ => waiting_update hf) rfl rfl rfl

theorem EventsOk.update (he : w.EventsOk) : (w.update s f).EventsOk where
  released c hc := by
    rw [hf.queueOf]
    exact he.released c hc
  quiet := he.quiet

theorem Settled.update (hs : w.Settled) : (w.update s f).Settled := by
  refine hs.mono rfl ?_
  rintro q c ⟨hmem,hpick⟩
  rw [hf.picked] at hpick
  exact ⟨hmem,hpick⟩

end Update

/-- The invariant holds afterwards, and the lists that were complete still are. -/
structure Keeps (w w' : World T) : Prop where
  invariant : w'.Invariant
  exact : ∀ q, w.Exact q → w'.Exact q

theorem Keeps.imp (h : Keeps w w') {P : Queue → Prop} :
    w'.Invariant ∧ ∀ q, P q → w.Exact q → w'.Exact q := ⟨h.invariant,fun q _ => h.exact q⟩

theorem Invariant.keeps (h : w.Invariant) : Keeps w w := ⟨h,fun _ hq => hq⟩

section

variable (h : w.Invariant) (hcall : w.call s = some call)

include h hcall

/-- A call that goes on to its next phase. -/
theorem Invariant.enter (phase : Phase)
    (hgone : call.order.take call.gone ⊆ call.order.take (call.enter phase).gone) :
    Keeps w (w.update s (enter phase)) := by
  have hf := steady_enter (T := T) phase
  obtain ⟨hlink,-,hex⟩ := h.linked.update (s := s) hf
  refine ⟨⟨hlink,?_,h.events.update hf,h.settled.update hf⟩,hex⟩
  refine h.calls.advance (advanced_update hcall rfl (Subset.refl _) hgone)
    (.update h.calls.order hcall rfl rfl) (fun c hc => .inl hc) ?_ (fun c hc => .inl hc)
  exact fun c hc => .inl (hf.picked c.select ▸ hc)

/-- The case that a call handles next. -/
theorem Invariant.handle (hph : call.phase = .handling) {index : ℕ}
    (hidx : call.order[call.registered]? = some index) (hout : w.Outcome ⟨s,index⟩ w')
    (ready : Bool) : Keeps w (w'.update s fun call => call.handled ready) := by
  have hfr := frame_of_call hcall
  have hc : w.Fresh ⟨s,index⟩ := h.calls.fresh h.events hfr hph hidx
  obtain ⟨hprog,hlink,hex,hevs⟩ := hout.dealt h.linked hc
  have hf := steady_handled (T := T) ready
  have hupd := hlink.update (s := s) hf
  refine ⟨⟨hupd.1,?_,(hevs h.events).update hf,
    (hout.settled h.linked h.settled hc).update hf⟩,fun q hq => hupd.2.2 q (hex q hq)⟩
  obtain ⟨call',hcall',hsame⟩ : ∃ call', w'.call s = some call' ∧ call'.unpicked = call.unpicked := by
    rw [← hprog.frame] at hfr
    exact map_eq_some_iff.mp hfr
  have hord : call'.order = call.order := (congrArg order hsame :)
  have hreg : call'.registered = call.registered := (congrArg registered hsame :)
  have hgone : call'.gone = 0 := by
    have heq : call'.phase = call.phase := (congrArg phase hsame :)
    rw [gone,heq,hph]
  have hperm : w'.Orderly := by
    rw [Orderly,hprog.frame]
    exact h.calls.order
  have hadv : Advanced w (w'.update s fun call => call.handled ready) := by
    refine (Advanced.of_frame_eq hprog.frame).trans (advanced_update hcall' rfl ?_ ?_)
    · exact (take_prefix_take_left (Nat.le_succ call'.registered)).subset
    · rw [hgone]
      simp
  have hdone : (w'.update s fun call => call.handled ready).Handled ⟨s,index⟩ := by
    refine ⟨_,frame_update_self hcall',?_⟩
    change index ∈ call'.order.take (call'.registered+1)
    rw [← hord,← hreg] at hidx
    simp [take_add_one,hidx]
  refine h.calls.advance hadv (hperm.update hcall' rfl rfl) ?_ ?_ ?_
  · intro d hd
    rcases hprog.enqueued d hd with hd | rfl
    · exact .inl hd
    · exact .inr hdone
  · intro d hd
    rw [hf.picked] at hd
    rcases hprog.chosen d hd with hd | hd | rfl
    · exact .inl hd
    · exact .inr (.inl (hadv.handled (h.calls.enqueued d hd)))
    · exact .inr (.inl hdone)
  · intro d hd
    exact .inl (hprog.unregistered ▸ hd)

/-! ### Unregistering -/

theorem Invariant.unregister {next index : ℕ} (hph : call.phase = .unregistering next)
    (hidx : call.order[next]? = some index) (hpick : call.picked ≠ some index) :
    ((w.update s (Call.enter (.unregistering (next+1)))).unregister ⟨s,index⟩).Invariant ∧
      ∀ q, (w.queueOf ⟨s,index⟩ = some q → ⟨s,index⟩ ∈ w.enqueued ∨ w.waiters q = []) → w.Exact q →
        ((w.update s (Call.enter (.unregistering (next+1)))).unregister ⟨s,index⟩).Exact q := by
  have hf := steady_enter (T := T) (.unregistering (next+1))
  have hgone : call.order.take call.gone ⊆
      call.order.take (call.enter (.unregistering (next+1))).gone := by
    rw [Call.gone,hph]
    exact (take_prefix_take_left (Nat.le_succ next)).subset
  have hnd : call.order.Nodup := by
    have hperm : call.order.Perm (range call.cases.length) :=
      h.calls.order s call.unpicked (frame_of_call hcall)
    exact hperm.nodup_iff.mpr nodup_range
  have hstays : (⟨s,index⟩ : CaseId) ∉ w.unregistered := by
    intro hmem
    obtain ⟨call',hcall',hmem⟩ := h.calls.unregistered _ hmem
    rw [frame,hcall] at hcall'
    obtain rfl := some.inj hcall'
    have hmem : index ∈ call.order.take call.gone := hmem
    rw [Call.gone,hph] at hmem
    exact notMem_take_of_getElem? hnd hidx hmem
  have hwait (q : Queue) (hq : w.queueOf ⟨s,index⟩ = some q)
      (hev : ∀ event, q = .event event → w.notified event = false)
      (hmem : ⟨s,index⟩ ∈ w.enqueued) : w.Waiting q ⟨s,index⟩ := by
    refine ⟨hq,hmem,hstays,?_,?_⟩
    · intro hrel
      obtain ⟨-,event,hque,hnot⟩ := h.events.released _ hrel
      rw [hq] at hque
      simp [hev event (some.inj hque)] at hnot
    · simpa [picked,hcall] using hpick
  obtain ⟨henter,hexact⟩ := h.enter hcall _ hgone
  have hwaiters := (h.linked.update (s := s) hf).2.1
  obtain ⟨hlink,hsub,hex'⟩ := henter.linked.unregister (c := ⟨s,index⟩) henter.events.quiet <| by
    intro q hq hev hmem
    rw [hf.queueOf] at hq
    exact (waiting_update hf).mpr (hwait q hq hev hmem)
  rw [hf.queueOf] at hex'
  obtain ⟨links,head,heq⟩ :=
    unregister_eq (w.update s (Call.enter (.unregistering (next+1)))) ⟨s,index⟩
  rw [heq] at hlink hsub hex' ⊢
  refine ⟨⟨hlink,?_,?_,?_⟩,fun q hq hex => hex' q hq (hexact q hex)⟩
  · have hdone : (w.update s (Call.enter (.unregistering (next+1)))).Gone ⟨s,index⟩ := by
      refine ⟨_,frame_update_self hcall,?_⟩
      change index ∈ call.order.take (next+1)
      simp [take_add_one,hidx]
    refine henter.calls.advance (Advanced.of_frame_eq rfl) henter.calls.order
      (fun c hc => .inl hc) (fun c hc => .inl hc) ?_
    intro c hc
    rcases mem_append.mp hc with hc | hc
    · exact .inl hc
    · rw [mem_singleton.mp hc]
      exact .inr hdone
  · refine ⟨henter.events.released,?_⟩
    intro event hev
    have hnil := henter.events.quiet event hev
    exact subset_nil.mp (hnil ▸ hsub (.event event))
  · refine henter.settled.mono rfl ?_
    rintro q c ⟨hmem,hunp⟩
    exact ⟨hsub q hmem,hunp⟩

/-! ### Closing a channel -/

end

variable {P : World T → Prop}

/-- The readers of a channel are visited one by one. What holds of every state between two
visits holds at the end, and then no reader is left that has not been picked. -/
theorem releaseReaders_induction
    (hP : ∀ w reader, w.WellLinked → w.Unpicked (.readers channel) reader → P w →
      P (w.reportClosed channel reader)) {n : ℕ} {kept rest : List CaseId} {reader : CaseId}
    (h : w.WellLinked) (hlist : w.waiters (.readers channel) = kept++reader::rest)
    (hn : rest.length < n) (hkept : ∀ d ∈ kept, w.picked d.select ≠ none) (hw : P w) :
    (releaseReaders channel n reader w).WellLinked ∧ P (releaseReaders channel n reader w) ∧
      ∀ d, ¬(releaseReaders channel n reader w).Unpicked (.readers channel) d := by
  induction n generalizing kept rest reader w with
  | zero => omega
  | succ n ih =>
    have hring := h.ring (.readers channel)
    have hnd := h.nodup (.readers channel)
    rw [hlist] at hring hnd
    have hhead := h.head (.readers channel)
    rw [hlist] at hhead
    have hmem : reader ∈ w.waiters (.readers channel) := by simp [hlist]
    -- After the visit the list shows the readers before this one, perhaps this one, and the rest.
    obtain ⟨w₁,kept₁,hw₁,hlinked₁,hP₁,hlist₁,hkept₁⟩ : ∃ w₁ kept₁,
        (if w.picked reader.select = none then w.reportClosed channel reader else w) = w₁ ∧
        w₁.WellLinked ∧ P w₁ ∧ w₁.waiters (.readers channel) = kept₁++rest ∧
        ∀ d ∈ kept₁, w₁.picked d.select ≠ none := by
      by_cases hpick : w.picked reader.select = none
      · have hrep := picks_reportClosed h (h.pickable hmem hpick)
        refine ⟨_,kept,if_pos hpick,hrep.linked,hP w reader h ⟨hmem,hpick⟩ hw,?_,?_⟩
        · have hnot : reader ∉ kept := by
            intro hkeep
            exact (nodup_append.mp hnd).2.2 reader hkeep reader (by simp) rfl
          rw [hrep.waiters,Function.update_self,hlist,erase_append_right _ hnot,erase_cons_head]
        · intro d hd
          rw [hrep.picked]
          split_ifs
          · simp
          · exact hkept d hd
      · refine ⟨w,kept++[reader],if_neg hpick,h,hw,by simp [hlist],?_⟩
        intro d hd
        rcases mem_append.mp hd with hd | hd
        · exact hkept d hd
        · rw [mem_singleton.mp hd]
          exact hpick
    rw [releaseReaders]
    simp only [hw₁]
    cases rest with
    | nil =>
      have hlast : some (w.links.next reader) = w.head (.readers channel) :=
        hring.next_last.trans hhead.symm
      rw [if_pos (by simpa using hlast)]
      refine ⟨hlinked₁,hP₁,?_⟩
      rintro d ⟨hd,hpick⟩
      rw [hlist₁,append_nil] at hd
      exact hkept₁ d hd hpick
    | cons next rest =>
      have hnext : w.links.next reader = next := hring.next_of_append
      have hoth : some (w.links.next reader) ≠ w.head (.readers channel) := by
        rw [hnext,hhead]
        intro hsome
        cases kept with
        | nil =>
          obtain rfl : next = reader := by simpa using hsome
          simp at hnd
        | cons first kept =>
          obtain rfl : next = first := by simpa using hsome
          simp at hnd
      rw [if_neg (by simpa using hoth),hnext]
      refine ih hlinked₁ hlist₁ ?_ hkept₁ hP₁
      simpa using hn

/-- Some cases have been picked and taken off their lists. -/
structure Released (w w' : World T) : Prop where
  progress : Progress ∅ w w'
  channel : w'.channel = w.channel
  exact : ∀ q, w.Exact q → w'.Exact q
  unpicked : ∀ q d, w'.Unpicked q d → w.Unpicked q d

theorem Released.refl (w : World T) : Released w w where
  progress := .refl ∅ w
  channel := rfl
  exact _ h := h
  unpicked _ _ h := h

theorem Released.reportClosed {w₀ : World T} (hw : Released w₀ w) (h : w.WellLinked)
    (hc : w.Unpicked (.readers channel) c) : Released w₀ (w.reportClosed channel c) := by
  have hrep := picks_reportClosed h (h.pickable hc.1 hc.2)
  refine ⟨?_,?_,?_,?_⟩
  · exact hw.progress.trans (hrep.progress (.inl (h.member hc.1).enqueued) hc.2)
  · rw [channel_reportClosed,hw.channel]
  · intro q hq
    exact hrep.exact q (hw.exact q hq)
  · intro q d hd
    exact hw.unpicked q d (hrep.unpicked hd).1

/-- The lists do not look at the channels, the log and the events. -/
theorem WellLinked.congr_data (h : w.WellLinked) (hdata : Progress ∅ w w')
    (hrel : w'.released = w.released) (hpicked : ∀ s, w'.picked s = w.picked s)
    (henq : w'.enqueued = w.enqueued) (hlnk : w'.links = w.links)
    (hhead : w'.head = w.head) : w'.WellLinked ∧ ∀ q, w.Exact q → w'.Exact q := by
  obtain ⟨h',-,hex⟩ := h.congr_of_waiting
    (fun q c => hdata.waiting_iff (q := q) (c := c) hrel hpicked henq) hlnk hhead
    henq
  exact ⟨h',hex⟩

theorem progress_markClosed (w : World T) (channel : ℕ) : Progress ∅ w (w.markClosed channel) :=
  ⟨rfl,fun _ _ h => h,fun _ h => .inl h,fun _ h => .inl h,rfl⟩

theorem WellLinked.markClosed (h : w.WellLinked) (channel : ℕ) :
    (w.markClosed channel).WellLinked ∧ ∀ q, w.Exact q → (w.markClosed channel).Exact q :=
  h.congr_data (progress_markClosed w channel) rfl (fun _ => rfl) rfl rfl rfl

/-- Closing a channel releases all the readers that wait on it. -/
theorem close_spec (h : w.WellLinked) (channel : ℕ)
    (hP : ∀ w reader, w.WellLinked → w.Unpicked (.readers channel) reader → P w →
      P (w.reportClosed channel reader)) (hw : P (w.markClosed channel)) :
    (w.close channel).WellLinked ∧ P (w.close channel) ∧
      ∀ d, ¬(w.close channel).Unpicked (.readers channel) d := by
  have hcls := (h.markClosed channel).1
  have hlen := h.length_le (.readers channel)
  have hhead := h.head (.readers channel)
  rw [close]
  cases hlist : w.waiters (.readers channel) with
  | nil =>
    rw [hlist] at hhead
    simp only [hhead]
    refine ⟨hcls,hw,?_⟩
    rintro d ⟨hd,-⟩
    have hd : d ∈ w.waiters (.readers channel) := hd
    simp [hlist] at hd
  | cons reader rest =>
    rw [hlist] at hhead hlen
    simp only [hhead]
    have hlist : (w.markClosed channel).waiters (.readers channel) = []++reader::rest := hlist
    exact releaseReaders_induction hP hcls hlist hlen (by simp) hw

theorem Invariant.close (h : w.Invariant) (channel : ℕ) : Keeps w (w.close channel) := by
  have hex := (h.linked.markClosed channel).2
  obtain ⟨hlink,⟨hrel,hevs⟩,hnone⟩ := close_spec h.linked channel
    (P := fun w' => Released (w.markClosed channel) w' ∧ w'.EventsOk)
    (fun w' reader hlink hrdr hw' => ⟨hw'.1.reportClosed hlink hrdr,
      (picks_reportClosed hlink (hlink.pickable hrdr.1 hrdr.2)).eventsOk (by simp) hw'.2⟩)
    ⟨.refl _,h.events.released,h.events.quiet⟩
  have hold {q : Queue} {d : CaseId} (hd : (w.close channel).Unpicked q d) : w.Unpicked q d :=
    hrel.unpicked q d hd
  refine ⟨⟨hlink,h.calls.progress ((progress_markClosed w channel).trans hrel.progress) (by simp),
    hevs,?_,?_,?_⟩,
    fun q hq => hrel.exact q (hex q hq)⟩
  · intro ch d hd
    by_cases hch : ch = channel
    · subst hch
      exact absurd hd (hnone d)
    · simpa [hrel.channel,markClosed,hch] using h.settled.reader ch d (hold hd)
  · intro ch d hd
    have hfull := h.settled.writer ch d (hold hd)
    by_cases hch : ch = channel
    · subst hch
      simpa [hrel.channel,markClosed] using hfull
    · simpa [hrel.channel,markClosed,hch] using hfull
  · intro ch d e hd he
    exact h.settled.pair ch d e (hold hd) (hold he)

/-! ### Notifying an event -/

theorem releaseCases_induction
    (hP : ∀ w c, w.WellLinked → c ∈ w.waiters (.event event) → P w → P (w.release event c))
    {n : ℕ} (h : w.WellLinked) (hn : (w.waiters (.event event)).length ≤ n) (hw : P w) :
    (releaseCases event n w).WellLinked ∧ P (releaseCases event n w) ∧
      (releaseCases event n w).waiters (.event event) = [] := by
  induction n generalizing w with
  | zero => exact ⟨h,hw,length_eq_zero_iff.mp (Nat.le_zero.mp hn)⟩
  | succ n ih =>
    have hhead := h.head (.event event)
    rw [releaseCases]
    cases hlist : w.waiters (.event event) with
    | nil =>
      rw [hlist] at hhead
      simp only [hhead]
      exact ⟨h,hw,hlist⟩
    | cons c rest =>
      rw [hlist] at hhead hn
      simp only [hhead]
      have hmem : c ∈ w.waiters (.event event) := by simp [hlist]
      obtain ⟨hlink,hwait,-⟩ := h.release hmem
      refine ih hlink ?_ (hP w c h hmem hw)
      rw [hwait,hlist]
      simpa using hn

theorem progress_release (event : ℕ) (hc : c ∈ w.enqueued) : Progress ∅ w (w.release event c) := by
  have hpick : Progress ∅ w (w.tryPick c) := progress_tryPick (.inl hc)
  exact { hpick with }

theorem Released.release {w₀ : World T} (hw : Released w₀ w) (h : w.WellLinked)
    (hc : c ∈ w.waiters (.event event)) : Released w₀ (w.release event c) := by
  have hprog := progress_release event (h.member hc).enqueued
  obtain ⟨-,hwait,hex⟩ := h.release hc
  refine ⟨hw.progress.trans hprog,hw.channel,fun q hq => hex q (hw.exact q hq),?_⟩
  rintro q d ⟨hmem,hpick⟩
  refine hw.unpicked q d ⟨?_,?_⟩
  · rw [hwait] at hmem
    by_cases hq : q = .event event
    · subst hq
      rw [Function.update_self] at hmem
      exact mem_of_mem_erase hmem
    · rwa [Function.update_of_ne hq] at hmem
  · cases hold : w.picked d.select with
    | none => rfl
    | some i => simp [hprog.kept d.select i hold] at hpick

/-- The cases released so far waited for an event that has been notified. -/
def ReleasedOk (w : World T) : Prop := ∀ c ∈ w.released, c ∈ w.enqueued ∧
  ∃ event, w.queueOf c = some (.event event) ∧ w.notified event = true

theorem ReleasedOk.release (hw : w.ReleasedOk) (h : w.WellLinked)
    (hev : w.notified event = true) (hc : c ∈ w.waiters (.event event)) :
    (w.release event c).ReleasedOk := by
  intro d hd
  rw [queueOf_congr (progress_release event (h.member hc).enqueued).frame]
  rcases mem_append.mp hd with hd | hd
  · exact hw d hd
  · rw [mem_singleton.mp hd]
    exact ⟨(h.member hc).enqueued,event,(h.member hc).queue,hev⟩

/-- What holds of the events while the cases of one of them are released. -/
structure Notifying (w : World T) (event : ℕ) (w' : World T) : Prop where
  released : Released (w.markNotified event) w'
  ok : w'.ReleasedOk
  notified : w'.notified = (w.markNotified event).notified
  quiet : ∀ e ≠ event, w.notified e = true → w'.waiters (.event e) = []

theorem Notifying.start (he : w.EventsOk) (event : ℕ) :
    Notifying w event (w.markNotified event) where
  released := .refl _
  ok c hc := by
    obtain ⟨hmem,e,hque,htrue⟩ := he.released c hc
    refine ⟨hmem,e,hque,?_⟩
    by_cases hev : e = event
    · simp [markNotified,hev]
    · simpa [markNotified,hev] using htrue
  notified := rfl
  quiet e _ hnotified := he.quiet e hnotified

theorem Notifying.release (hw : Notifying w event w') (h : w'.WellLinked)
    (hc : c ∈ w'.waiters (.event event)) : Notifying w event (w'.release event c) where
  released := hw.released.release h hc
  ok := hw.ok.release h (by simp [hw.notified,markNotified]) hc
  notified := hw.notified
  quiet e he hnotified := by
    rw [(h.release hc).2.1,Function.update_of_ne (by simpa using he)]
    exact hw.quiet e he hnotified

theorem Invariant.notifyEvent (h : w.Invariant) (event : ℕ) : Keeps w (w.notifyEvent event) := by
  have hprog : Progress ∅ w (w.markNotified event) :=
    ⟨rfl,fun _ _ h => h,fun _ h => .inl h,fun _ h => .inl h,rfl⟩
  obtain ⟨hnot,hex⟩ := h.linked.congr_data hprog rfl (fun _ => rfl) rfl rfl rfl
  obtain ⟨hlink,hdone,hnil⟩ := releaseCases_induction (P := Notifying w event)
    (fun _ _ hlink hc hw => hw.release hlink hc) hnot (h.linked.length_le (.event event))
    (.start h.events event)
  refine ⟨⟨hlink,h.calls.progress (hprog.trans hdone.released.progress) (by simp),⟨hdone.ok,?_⟩,
    h.settled.mono hdone.released.channel hdone.released.unpicked⟩,
    fun q hq => hdone.released.exact q (hex q hq)⟩
  intro e he
  rw [World.notifyEvent,hdone.notified] at he
  by_cases hev : e = event
  · subst hev
    exact hnil
  · exact hdone.quiet e hev (by simpa [markNotified,hev] using he)

/-! ### Starting and expiring -/

theorem call_enroll (w : World T) (s : ℕ) (call : Call T) (t : ℕ) :
    (w.enroll s call).call t = if t = s then some call else w.call t := by
  by_cases ht : t = s
  · subst ht
    simp [enroll]
  · simp [enroll,ht]

theorem Invariant.enroll (h : w.Invariant) (hnone : w.call s = none)
    (hord : call.order.Perm (range call.cases.length)) (hpick : call.picked = none) :
    Keeps w (w.enroll s call) := by
  have hfr : w.frame s = none := by rw [frame,hnone]; rfl
  have hcall {t : ℕ} (ht : t ≠ s) : (w.enroll s call).call t = w.call t := by
    rw [call_enroll,if_neg ht]
  have hque {c : CaseId} (hc : c.select ≠ s) : (w.enroll s call).queueOf c = w.queueOf c := by
    rw [queueOf,operation,hcall hc]
    rfl
  have hpicked {t : ℕ} (ht : t ≠ s) : (w.enroll s call).picked t = w.picked t := by
    rw [picked,hcall ht]
    rfl
  have hoth {c : CaseId} (hc : c ∈ w.enqueued) : c.select ≠ s := by
    obtain ⟨call',hcall',-⟩ := h.calls.enqueued c hc
    intro heq
    rw [heq,hfr] at hcall'
    simp at hcall'
  have hadv : Advanced w (w.enroll s call) := by
    intro t call' hcall'
    have ht : t ≠ s := by
      rintro rfl
      rw [hfr] at hcall'
      simp at hcall'
    refine ⟨call',?_,rfl,Subset.refl _,Subset.refl _⟩
    rw [frame,hcall ht]
    exact hcall'
  have hwaiting (q : Queue) (c : CaseId) : (w.enroll s call).Waiting q c ↔ w.Waiting q c := by
    constructor <;> rintro ⟨hq,hmem,hunreg,hrel,hpick⟩
    · exact ⟨hque (hoth hmem) ▸ hq,hmem,hunreg,hrel,hpicked (hoth hmem) ▸ hpick⟩
    · exact ⟨(hque (hoth hmem)).trans hq,hmem,hunreg,hrel,(hpicked (hoth hmem)).symm ▸ hpick⟩
  obtain ⟨hlink,hwait,hex⟩ := h.linked.congr_of_waiting hwaiting rfl rfl rfl
  refine ⟨⟨hlink,?_,⟨?_,?_⟩,?_⟩,hex⟩
  · refine h.calls.advance hadv ?_ (fun c hc => .inl hc) ?_ (fun c hc => .inl hc)
    · intro t call' hcall'
      by_cases ht : t = s
      · subst ht
        rw [frame,call_enroll,if_pos rfl] at hcall'
        obtain rfl := some.inj hcall'
        exact hord
      · rw [frame,hcall ht] at hcall'
        exact h.calls.order t call' hcall'
    · intro c hc
      by_cases hs : c.select = s
      · simp [picked,call_enroll,hs,hpick] at hc
      · exact .inl (hpicked hs ▸ hc)
  · intro c hc
    have hold := h.events.released c hc
    rw [hque (hoth hold.1)]
    exact hold
  · exact h.events.quiet
  · refine h.settled.mono rfl ?_
    rintro q c ⟨hmem,hunp⟩
    rw [hpicked (hoth (h.linked.member hmem).enqueued)] at hunp
    exact ⟨hmem,hunp⟩

theorem Invariant.start (h : w.Invariant) (s : ℕ) (cases : List (Operation T)) (order : List ℕ)
    (needToBlock expirable : Bool) : Keeps w (w.start s cases order needToBlock expirable) := by
  rw [World.start]
  split_ifs with hst
  · exact h.enroll hst.1 hst.2.2 rfl
  · exact h.keeps

/-- The deadline is picked like a case that is on no list. -/
theorem Invariant.pickDeadline (h : w.Invariant) (hcall : w.call s = some call) :
    Keeps w (w.tryPick ⟨s,call.cases.length⟩) := by
  have hfr := frame_of_call hcall
  have hperm : call.order.Perm (range call.cases.length) := h.calls.order s call.unpicked hfr
  have hnot : (⟨s,call.cases.length⟩ : CaseId) ∉ w.enqueued := by
    intro hmem
    obtain ⟨call',hcall',hmem⟩ := h.calls.enqueued _ hmem
    rw [hfr] at hcall'
    obtain rfl := some.inj hcall'
    have hrng := hperm.mem_iff.mp (mem_of_mem_take hmem)
    simp at hrng
  obtain ⟨hprog,hlink,hex,hevs⟩ := dealt_tryPick h.linked hnot
  refine ⟨⟨hlink,h.calls.progress hprog ?_,hevs h.events,h.settled.tryPick⟩,hex⟩
  rintro _ rfl
  exact ⟨id,call.unpicked,by rw [hprog.frame,hfr],rfl⟩

theorem Invariant.expire (h : w.Invariant) (s : ℕ) : Keeps w (w.expire s) := by
  rw [World.expire]
  cases hcall : w.call s with
  | none => exact h.keeps
  | some call =>
    by_cases hexpire : call.phase = .waiting ∧ call.expirable ∧ call.picked = none
    · simp only [if_pos hexpire]
      obtain ⟨hpicked,hex⟩ := h.pickDeadline hcall
      have hcall' : (w.tryPick ⟨s,call.cases.length⟩).call s =
          some (call.pick call.cases.length) := by
        rw [tryPick,call_update,if_pos rfl,hcall]
        rfl
      have hgone : (call.pick call.cases.length).gone = 0 := by
        rw [pick,if_pos hexpire.2.2,gone]
        simp [hexpire.1]
      obtain ⟨henter,hex'⟩ := hpicked.enter hcall' (.unregistering 0)
        (by rw [hgone]; simp)
      exact ⟨henter,fun q hq => hex' q (hex q hq)⟩
    · simp only [if_neg hexpire]
      exact h.keeps

/-! ### Every step -/

/-- The case that the next step of a call takes off its list. -/
def nextUnregistered (w : World T) (s : ℕ) : Option CaseId :=
  match w.call s with
  | none => none
  | some call =>
    match call.phase with
    | .unregistering next =>
      if next < call.registered then
        match call.order[next]? with
        | none => none
        | some index => if call.picked = some index then none else some ⟨s,index⟩
      else none
    | _ => none

/-- What the next step of a call may do. -/
inductive Advances (w : World T) (s : ℕ) : World T → Prop
  | stay : Advances w s w
  | handle (call : Call T) (index : ℕ) (hcall : w.call s = some call)
      (hphase : call.phase = .handling) (hindex : call.order[call.registered]? = some index) :
      Advances w s ((w.handleCase ⟨s,index⟩ call.needToBlock).1.update s fun call' =>
        call'.handled (w.handleCase ⟨s,index⟩ call.needToBlock).2)
  | enter (call : Call T) (phase : Phase) (hcall : w.call s = some call)
      (hgone : call.order.take call.gone ⊆ call.order.take (call.enter phase).gone) :
      Advances w s (w.update s (Call.enter phase))
  | unregister (call : Call T) (next index : ℕ) (hcall : w.call s = some call)
      (hphase : call.phase = .unregistering next) (hindex : call.order[next]? = some index)
      (hpick : call.picked ≠ some index) (hnext : w.nextUnregistered s = some ⟨s,index⟩) :
      Advances w s ((w.update s (Call.enter (.unregistering (next+1)))).unregister ⟨s,index⟩)

theorem advances (w : World T) (s : ℕ) : w.Advances s (w.advance s) := by
  rw [advance]
  cases hcall : w.call s with
  | none => exact .stay
  | some call =>
    dsimp only
    cases hph : call.phase with
    | handling =>
      cases hidx : call.order[call.registered]? with
      | none => exact .stay
      | some index =>
        dsimp only
        split_ifs
        · exact .stay
        · exact .handle call index hcall hph hidx
    | waiting =>
      dsimp only
      split_ifs
      · exact .stay
      · exact .enter call (.unregistering 0) hcall (by simp [gone,hph])
    | unregistering next =>
      by_cases hnext : next < call.registered
      · simp only [if_pos hnext]
        cases hidx : call.order[next]? with
        | none => exact .stay
        | some index =>
          dsimp only
          split_ifs with hpick
          · refine .enter call (.unregistering (next+1)) hcall ?_
            simp only [gone,hph]
            exact (take_prefix_take_left (Nat.le_succ next)).subset
          · refine .unregister call next index hcall hph hidx hpick ?_
            simp [nextUnregistered,hcall,hph,hnext,hidx,hpick]
      · simp only [if_neg hnext]
        refine .enter call _ hcall ?_
        simp only [gone,enter,take_length]
        exact take_subset _ _
    | returned result => exact .stay

/-- The next step of a call keeps the invariant. It keeps a list complete unless it takes a case
off the list that has never been on it. -/
theorem Invariant.advances (h : w.Invariant) (hadv : w.Advances s w') : w'.Invariant ∧
    ∀ q, (∀ c, w.nextUnregistered s = some c → w.queueOf c = some q →
      c ∈ w.enqueued ∨ w.waiters q = []) → w.Exact q → w'.Exact q := by
  cases hadv with
  | stay => exact h.keeps.imp
  | handle call index hcall hph hidx =>
    have hfresh := h.calls.fresh h.events (frame_of_call hcall) hph hidx
    exact (h.handle hcall hph hidx (handleCase_outcome h hfresh call.needToBlock)
      (w.handleCase ⟨s,index⟩ call.needToBlock).2).imp
  | enter call phase hcall hgone => exact (h.enter hcall phase hgone).imp
  | unregister call next index hcall hph hidx hpick hnext =>
    obtain ⟨h',hex⟩ := h.unregister hcall hph hidx hpick
    exact ⟨h',fun q hq => hex q (hq _ hnext)⟩

theorem invariant_initial (capacity : ℕ → ℕ) : (initial (T := T) capacity).Invariant := by
  have hwait (q : Queue) (c : CaseId) : ¬(initial (T := T) capacity).Waiting q c := by
    rintro ⟨-,hmem,-⟩
    simp [initial] at hmem
  have hlink : (initial (T := T) capacity).Linked ∅ fun _ => [] := by
    have hemp {α : Type} {P : α → Prop} (l : α) (hl : l ∈ (∅ : Set α)) : P l :=
      absurd hl (Set.notMem_empty l)
    refine ⟨⟨hemp,hemp,by simp [initial]⟩,fun q => .inl rfl,fun q => rfl,by simp,
      hemp,?_,fun c _ => ⟨rfl,rfl⟩⟩
    exact fun q c hc => absurd hc (hwait q c)
  have hnone (q : Queue) (c : CaseId) : ¬(initial (T := T) capacity).Unpicked q c := by
    rintro ⟨hmem,-⟩
    rw [hlink.waiters_eq] at hmem
    simp at hmem
  refine ⟨hlink.wellLinked,⟨?_,?_,?_,?_⟩,⟨?_,?_⟩,fun channel c hc => absurd hc (hnone _ c),
    fun channel c hc => absurd hc (hnone _ c),fun channel c d hc => absurd hc (hnone _ c)⟩
  all_goals simp [frame,picked,initial]

theorem Invariant.step (h : w.Invariant) (a : Action T) : (Fibers.step w a).Invariant ∧
    ∀ q, (∀ s c, a = .advance s → w.nextUnregistered s = some c → w.queueOf c = some q →
        c ∈ w.enqueued ∨ w.waiters q = []) → w.Exact q → (Fibers.step w a).Exact q := by
  cases a with
  | start s cases order needToBlock expirable =>
    exact (h.start s cases order needToBlock expirable).imp
  | advance s =>
    obtain ⟨h',hex⟩ := h.advances (w.advances s)
    exact ⟨h',fun q hq => hex q fun c => hq s c rfl⟩
  | expire s => exact (h.expire s).imp
  | close channel =>
    rw [Fibers.step]
    split_ifs
    · exact h.keeps.imp
    · exact (h.close channel).imp
  | notify event =>
    rw [Fibers.step]
    split_ifs
    · exact h.keeps.imp
    · exact (h.notifyEvent event).imp

end World

end A11.Fibers
