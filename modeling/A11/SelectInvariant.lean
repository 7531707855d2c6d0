import A11.SelectLists

/-! What holds in every reachable state of the channels: how far the calls have come, and that no
case on a list could be served. -/
namespace A11.Fibers

variable {T : Type}

/-- A call apart from the case it has picked. -/
def Call.unpicked (call : Call T) : Call T := { call with picked := none }

/-- How many of its cases a call has unregistered. -/
def Call.gone (call : Call T) : ℕ :=
  match call.phase with
  | .handling => 0
  | .waiting => 0
  | .unregistering next => next
  | .returned _ => call.order.length

namespace World

variable {w w' w'' : World T} {c d : CaseId} {q q' : Queue} {s channel : ℕ}

/-! ### Calls -/

def frame (w : World T) (s : ℕ) : Option (Call T) := (w.call s).map Call.unpicked

theorem operation_eq_frame (w : World T) (c : CaseId) :
    w.operation c = (w.frame c.select).bind fun call => call.cases[c.index]? := by
  rw [operation,frame]
  cases w.call c.select <;> rfl

theorem operation_congr (h : w'.frame = w.frame) : w'.operation = w.operation := by
  funext c
  rw [operation_eq_frame,operation_eq_frame,h]

theorem queueOf_congr (h : w'.frame = w.frame) : w'.queueOf = w.queueOf := by
  funext c
  rw [queueOf,queueOf,operation_congr h]

theorem call_isSome_congr (h : w'.frame = w.frame) (s : ℕ) :
    (w'.call s).isSome = (w.call s).isSome := by
  have hs := congrArg Option.isSome (congrFun h s)
  simpa [frame] using hs

def Handled (w : World T) (c : CaseId) : Prop :=
  ∃ call, w.frame c.select = some call ∧ c.index ∈ call.order.take call.registered

/-- The index stands for the deadline of the call. -/
def Expired (w : World T) (c : CaseId) : Prop :=
  ∃ call, w.frame c.select = some call ∧ c.index = call.cases.length

def Gone (w : World T) (c : CaseId) : Prop :=
  ∃ call, w.frame c.select = some call ∧ c.index ∈ call.order.take call.gone

structure CallsOk (w : World T) : Prop where
  order : ∀ s call, w.frame s = some call → call.order.Perm (List.range call.cases.length)
  enqueued : ∀ c ∈ w.enqueued, w.Handled c
  picked : ∀ c, w.picked c.select = some c.index → w.Handled c ∨ w.Expired c
  unregistered : ∀ c ∈ w.unregistered, w.Gone c

structure EventsOk (w : World T) : Prop where
  released : ∀ c ∈ w.released, c ∈ w.enqueued ∧
    ∃ event, w.queueOf c = some (.event event) ∧ w.notified event = true
  quiet : ∀ event, w.notified event = true → w.waiters (.event event) = []

/-- A case that has not been handled yet. -/
structure Fresh (w : World T) (c : CaseId) : Prop where
  enqueued : c ∉ w.enqueued
  unregistered : c ∉ w.unregistered
  released : c ∉ w.released
  picked : w.picked c.select ≠ some c.index

theorem notMem_take_of_getElem? {α : Type} {l : List α} {n : ℕ} {a : α} (hnd : l.Nodup)
    (ha : l[n]? = some a) : a ∉ l.take n := by
  obtain ⟨-,rfl⟩ := List.getElem?_eq_some_iff.mp ha
  intro hmem
  obtain ⟨m,_,heq⟩ := List.mem_take_iff_getElem.mp hmem
  have hidx := (hnd.getElem_inj_iff).mp heq
  omega

theorem CallsOk.fresh (h : w.CallsOk) (he : w.EventsOk) {call : Call T} {index : ℕ}
    (hcall : w.frame s = some call) (hph : call.phase = .handling)
    (hidx : call.order[call.registered]? = some index) : w.Fresh ⟨s,index⟩ := by
  have hperm := h.order s call hcall
  have hnot : index ∉ call.order.take call.registered :=
    notMem_take_of_getElem? (hperm.nodup_iff.mpr List.nodup_range) hidx
  have hunhandled : ¬w.Handled ⟨s,index⟩ := by
    rintro ⟨call',hcall',hmem⟩
    obtain rfl := Option.some.inj (hcall.symm.trans hcall')
    exact hnot hmem
  have henq : (⟨s,index⟩ : CaseId) ∉ w.enqueued := fun hmem => hunhandled (h.enqueued _ hmem)
  refine ⟨henq,?_,fun hmem => henq (he.released _ hmem).1,?_⟩
  · intro hmem
    obtain ⟨call',hcall',hmem⟩ := h.unregistered _ hmem
    obtain rfl := Option.some.inj (hcall.symm.trans hcall')
    simp [Call.gone,hph] at hmem
  · intro hpick
    rcases h.picked ⟨s,index⟩ hpick with hhand | ⟨call',hcall',hlast⟩
    · exact hunhandled hhand
    obtain rfl := Option.some.inj (hcall.symm.trans hcall')
    have hrng := hperm.mem_iff.mp (List.mem_of_getElem? hidx)
    rw [List.mem_range] at hrng
    simp only at hlast
    omega

/-! ### What a section may change -/

/-- Calls move on by being picked only. The cases that are picked were waiting, or are among the
given ones. -/
structure Progress (new : Set CaseId) (w w' : World T) : Prop where
  frame : w'.frame = w.frame
  kept : ∀ s i, w.picked s = some i → w'.picked s = some i
  chosen : ∀ d, w'.picked d.select = some d.index →
    w.picked d.select = some d.index ∨ d ∈ w.enqueued ∨ d ∈ new
  enqueued : ∀ d ∈ w'.enqueued, d ∈ w.enqueued ∨ d ∈ new
  unregistered : w'.unregistered = w.unregistered

theorem Progress.refl (new : Set CaseId) (w : World T) : Progress new w w where
  frame := rfl
  kept _ _ h := h
  chosen _ h := .inl h
  enqueued _ h := .inl h
  unregistered := rfl

variable {new : Set CaseId}

theorem Progress.trans (h : Progress new w w') (h' : Progress new w' w'') :
    Progress new w w'' where
  frame := h'.frame.trans h.frame
  kept s i hs := h'.kept s i (h.kept s i hs)
  chosen d hd := by
    rcases h'.chosen d hd with hd | hd | hd
    · exact h.chosen d hd
    · exact .inr (h.enqueued d hd)
    · exact .inr (.inr hd)
  enqueued d hd := by
    rcases h'.enqueued d hd with hd | hd
    · exact h.enqueued d hd
    · exact .inr hd
  unregistered := h'.unregistered.trans h.unregistered

theorem frame_tryPick (w : World T) (c : CaseId) : (w.tryPick c).frame = w.frame := by
  funext s
  rw [frame,tryPick,call_update,frame]
  split_ifs with hs
  · cases w.call s with
    | none => rfl
    | some call => by_cases hpick : call.picked = none <;> simp [Call.pick,Call.unpicked,hpick]
  · rfl

theorem progress_tryPick (hc : c ∈ w.enqueued ∨ c ∈ new) :
    Progress new w (w.tryPick c) where
  frame := frame_tryPick w c
  kept s i hs := by rw [picked_tryPick,if_neg (by simp [hs]),hs]
  chosen d hd := by
    by_cases hdc : d = c
    · exact .inr (hdc ▸ hc)
    · exact .inl ((picked_tryPick_of_ne hdc).mp hd)
  enqueued d hd := .inl hd
  unregistered := rfl

theorem Progress.waiting_iff (h : Progress new w w')
    (hrel : w'.released = w.released) (hpicked : ∀ s, w'.picked s = w.picked s)
    (henq : w'.enqueued = w.enqueued) : w'.Waiting q c ↔ w.Waiting q c := by
  have hque := congrFun (queueOf_congr h.frame) c
  constructor
  · rintro ⟨hq,hmem,hunreg,hnot,hpick⟩
    exact ⟨hque ▸ hq,henq ▸ hmem,h.unregistered ▸ hunreg,hrel ▸ hnot,hpicked c.select ▸ hpick⟩
  · rintro ⟨hq,hmem,hunreg,hnot,hpick⟩
    exact ⟨hque.trans hq,henq ▸ hmem,h.unregistered ▸ hunreg,hrel ▸ hnot,hpicked c.select ▸ hpick⟩

/-- The second state is the first one after the case has been picked and taken off its list,
whatever has been done to the channels and the log. -/
structure Picks (w w' : World T) (q : Queue) (c : CaseId) : Prop where
  linked : w'.WellLinked
  waiters : w'.waiters = Function.update w.waiters q ((w.waiters q).erase c)
  exact : ∀ q', w.Exact q' → w'.Exact q'
  picked : ∀ s, w'.picked s = if s = c.select then some c.index else w.picked s
  frame : w'.frame = w.frame
  enqueued : w'.enqueued = w.enqueued
  unregistered : w'.unregistered = w.unregistered
  released : w'.released = w.released
  notified : w'.notified = w.notified

theorem picks_notify (h : w.WellLinked) (hc : w.Pickable q c) (channel : ℕ → Channel T)
    (log : List (Transfer T)) : Picks w (notify { w with channel, log } q c) q c := by
  have hprog : Progress ∅ w { w with channel, log } :=
    ⟨rfl,fun _ _ h => h,fun _ h => .inl h,fun _ h => .inl h,rfl⟩
  obtain ⟨h₀,-,hexact₀⟩ := h.congr_of_waiting
    (fun q c => hprog.waiting_iff (q := q) (c := c) rfl (fun _ => rfl) rfl) rfl rfl rfl
  have hc₀ : Pickable { w with channel, log } q c := { hc with }
  obtain ⟨hlink,hwait,hex⟩ := h₀.notify hc₀
  obtain ⟨_,_,heq⟩ := notify_eq { w with channel, log } q c
  refine ⟨hlink,hwait,fun q' hq' => hex q' (hexact₀ q' hq'),picked_notify hc₀,?_,?_,?_,?_,?_⟩
  · rw [heq,frame_tryPick]
    rfl
  · rw [heq]
    rfl
  · rw [heq]
    rfl
  · rw [heq]
    rfl
  · rw [heq]
    rfl

section

variable (h : Picks w w' q c)

include h

theorem Picks.progress (hc : c ∈ w.enqueued ∨ c ∈ new)
    (hpick : w.picked c.select = none) : Progress new w w' where
  frame := h.frame
  kept s i hs := by
    rw [h.picked,if_neg,hs]
    rintro rfl
    simp [hpick] at hs
  chosen d hd := by
    rw [h.picked] at hd
    by_cases hs : d.select = c.select
    · obtain rfl : d = c := by
        cases c
        cases d
        simp_all
      exact .inr hc
    · rw [if_neg hs] at hd
      exact .inl hd
  enqueued d hd := .inl (h.enqueued ▸ hd)
  unregistered := h.unregistered

theorem Picks.mem_waiters (hd : d ∈ w'.waiters q') : d ∈ w.waiters q' := by
  rw [h.waiters] at hd
  by_cases hq : q' = q
  · subst hq
    rw [Function.update_self] at hd
    exact List.mem_of_mem_erase hd
  · rwa [Function.update_of_ne hq] at hd

theorem Picks.pickable (hd : w.Pickable q' d) (hne : d.select ≠ c.select) : w'.Pickable q' d  where
  call := by rw [call_isSome_congr h.frame]; exact hd.call
  unpicked := by rw [h.picked,if_neg hne]; exact hd.unpicked
  place := by
    rcases hd.place with hfresh | hlist
    · exact .inl (h.enqueued ▸ hfresh)
    right
    rw [h.waiters]
    by_cases hq : q' = q
    · subst hq
      rw [Function.update_self]
      refine (List.mem_erase_of_ne ?_).mpr hlist
      rintro rfl
      exact hne rfl
    · rwa [Function.update_of_ne hq]

theorem Picks.eventsOk (hq : ∀ event, q ≠ .event event) (he : w.EventsOk) : w'.EventsOk  where
  released d hd := by
    rw [h.enqueued,queueOf_congr h.frame,h.notified]
    exact he.released d (h.released ▸ hd)
  quiet event hevent := by
    rw [h.waiters,Function.update_of_ne (hq event).symm]
    exact he.quiet event (h.notified ▸ hevent)

/-! ### Served waiters -/

end

def Unpicked (w : World T) (q : Queue) (c : CaseId) : Prop :=
  c ∈ w.waiters q ∧ w.picked c.select = none

/-- No case on a list could be served. -/
structure Settled (w : World T) : Prop where
  reader : ∀ channel c, w.Unpicked (.readers channel) c →
    (w.channel channel).items = [] ∧ (w.channel channel).closed = false
  writer : ∀ channel c, w.Unpicked (.writers channel) c →
    (w.channel channel).capacity ≤ (w.channel channel).items.length
  pair : ∀ channel c d, w.Unpicked (.readers channel) c → w.Unpicked (.writers channel) d →
    c.select = d.select

theorem Settled.mono (h : w.Settled) (hch : w'.channel = w.channel)
    (hunp : ∀ q c, w'.Unpicked q c → w.Unpicked q c) : w'.Settled where
  reader channel c hc := by
    rw [hch]
    exact h.reader channel c (hunp _ c hc)
  writer channel c hc := by
    rw [hch]
    exact h.writer channel c (hunp _ c hc)
  pair channel c d hc hd := h.pair channel c d (hunp _ c hc) (hunp _ d hd)

theorem Picks.unpicked (h : Picks w w' q c) (hd : w'.Unpicked q' d) :
    w.Unpicked q' d ∧ d.select ≠ c.select := by
  have hpick := hd.2
  rw [h.picked] at hpick
  by_cases hs : d.select = c.select
  · simp [hs] at hpick
  · rw [if_neg hs] at hpick
    exact ⟨⟨h.mem_waiters hd.1,hpick⟩,hs⟩

end World

end A11.Fibers
