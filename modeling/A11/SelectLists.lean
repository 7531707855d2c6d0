import A11.Select

/-! What the locked sections do to the waiter lists, in every interleaving. The cases that wait
are linked in circles, and a walk from the head of a list meets one of these circles. -/
namespace A11.Fibers

open Intrusive List Function

namespace World

variable {T : Type} {w w' : World T} {c d e : CaseId} {q : Queue} {s : ℕ} {f : Call T → Call T}

/-! ### Selectors -/

theorem call_update (w : World T) (s : ℕ) (f : Call T → Call T) (t : ℕ) :
    (w.update s f).call t = if t = s then (w.call t).map f else w.call t := by
  by_cases ht : t = s
  · subst ht
    simp [update]
  · simp [update,ht]

theorem operation_update (h : ∀ call, (f call).cases = call.cases) :
    (w.update s f).operation c = w.operation c := by
  rw [operation,operation,call_update]
  split_ifs with hs
  · cases w.call c.select <;> simp [h]
  · rfl

@[simp] theorem operation_tryPick : (w.tryPick d).operation c = w.operation c :=
  operation_update fun call => by unfold Call.pick; split_ifs <;> rfl

theorem picked_tryPick (w : World T) (c : CaseId) (t : ℕ) : (w.tryPick c).picked t =
    if t = c.select ∧ (w.call t).isSome ∧ w.picked t = none then some c.index else w.picked t := by
  rw [tryPick,picked,picked,call_update]
  by_cases ht : t = c.select
  · cases hcall : w.call t with
    | none => simp [ht]
    | some call => cases hpick : call.picked <;> simp [ht,Call.pick,hpick]
  · simp [ht]

/-- Whether another case has been picked does not depend on this one. -/
theorem picked_tryPick_of_ne (h : d ≠ c) :
    (w.tryPick c).picked d.select = some d.index ↔ w.picked d.select = some d.index := by
  rw [picked_tryPick]
  split_ifs with hpick
  · have hne : c.index ≠ d.index := by
      intro hidx
      apply h
      cases c
      cases d
      simp_all
    simp [hpick.2.2,hne]
  · rfl

/-! ### Waiting cases -/

def queueOf (w : World T) (c : CaseId) : Option Queue := (w.operation c).bind Operation.queue

/-- The case has been put on the list, and has neither been picked nor taken off. -/
structure Waiting (w : World T) (q : Queue) (c : CaseId) : Prop where
  queue : w.queueOf c = some q
  enqueued : c ∈ w.enqueued
  unregistered : c ∉ w.unregistered
  released : c ∉ w.released
  picked : w.picked c.select ≠ some c.index

theorem Waiting.queue_eq {q' : Queue} (h : w.Waiting q c) (h' : w.Waiting q' c) : q' = q :=
  Option.some.inj (h'.queue.symm.trans h.queue)

theorem call_isSome_of_operation {op : Operation T} (h : w.operation c = some op) :
    (w.call c.select).isSome := by
  rw [operation] at h
  cases hcall : w.call c.select with
  | none => simp [hcall] at h
  | some call => rfl

theorem Waiting.call_isSome (h : w.Waiting q c) : (w.call c.select).isSome := by
  obtain ⟨_,hop,-⟩ := Option.bind_eq_some_iff.mp h.queue
  exact call_isSome_of_operation hop

theorem waiting_tryPick_of_ne (hne : d ≠ c) : (w.tryPick c).Waiting q d ↔ w.Waiting q d := by
  have hpicked := picked_tryPick_of_ne (w := w) hne
  have hque : (w.tryPick c).queueOf d = w.queueOf d := by rw [queueOf,operation_tryPick,queueOf]
  exact ⟨fun h => { h with queue := hque ▸ h.queue, picked := mt hpicked.mpr h.picked },
    fun h => { h with queue := hque.trans h.queue, picked := mt hpicked.mp h.picked }⟩

/-- Picking a case that is not on a list yet is seen by no case that waits. -/
theorem waiting_tryPick (hc : c ∉ w.enqueued) : (w.tryPick c).Waiting q d ↔ w.Waiting q d := by
  by_cases hne : d = c
  · subst hne
    exact iff_of_false (fun h => hc h.enqueued) fun h => hc h.enqueued
  · exact waiting_tryPick_of_ne hne

/-! ### Circles -/

/-- The waiting cases lie on circles. A list shows one of these circles, or nothing. -/
structure Linked (w : World T) (rings : Set (List CaseId)) (visible : Queue → List CaseId) :
    Prop where
  circles : Rings w.links rings
  shown : ∀ q, visible q = [] ∨ visible q ∈ rings
  head : ∀ q, w.head q = (visible q).head?
  member : ∀ q, ∀ c ∈ visible q, w.Waiting q c
  entered : ∀ l ∈ rings, ∀ c ∈ l, c ∈ w.enqueued
  linked : ∀ q c, w.Waiting q c → ∃ l ∈ rings, c ∈ l
  fresh : ∀ c ∉ w.enqueued, w.links.next c = c ∧ w.links.prev c = none

/-- A list shows the cases that a walk over it meets. -/
def WellLinked (w : World T) : Prop := ∃ rings, w.Linked rings w.waiters

section Lists

variable {rings : Set (List CaseId)} {visible : Queue → List CaseId} {l : List CaseId}

section

variable (h : w.Linked rings visible)

include h

theorem Linked.ring (q : Queue) : Ring w.links (visible q) := by
  rcases h.shown q with hnil | hmem
  · rw [hnil]
    trivial
  · exact (h.circles.ring _ hmem).2

theorem Linked.mem_rings (hc : c ∈ visible q) : visible q ∈ rings := by
  rcases h.shown q with hnil | hmem
  · simp [hnil] at hc
  · exact hmem

theorem Linked.length_le (q : Queue) : (visible q).length ≤ w.enqueued.length :=
  (h.ring q).nodup.length_le_of_subset fun c hc => (h.member q c hc).enqueued

theorem Linked.waiters_eq : w.waiters = visible := by
  funext q
  have hring := h.ring q
  have hlen := h.length_le q
  rw [waiters,h.head q]
  cases hv : visible q with
  | nil => rfl
  | cons a l =>
    rw [hv] at hring hlen
    exact walk_ring hring hlen

theorem Linked.wellLinked : w.WellLinked := ⟨rings,h.waiters_eq ▸ h⟩

/-- The lists depend on nothing else. -/
theorem Linked.congr (hwait : ∀ q c, w'.Waiting q c → w.Waiting q c)
    (hmbr : ∀ q, ∀ c ∈ visible q, w'.Waiting q c) (hlnk : w'.links = w.links)
    (hhead : w'.head = w.head) (henq : w'.enqueued = w.enqueued) : w'.Linked rings visible  where
  circles := hlnk ▸ h.circles
  shown := h.shown
  head q := by rw [hhead,h.head]
  member := hmbr
  entered l hl c hc := henq ▸ h.entered l hl c hc
  linked q c hc := h.linked q c (hwait q c hc)
  fresh c hc := hlnk ▸ h.fresh c (henq ▸ hc)

/-- A new case joins the end of its list. -/
theorem Linked.pushBack (hc : c ∉ w.enqueued) (hwait : (w.pushBack q c).Waiting q c) :
    (w.pushBack q c).Linked (extend rings (visible q) c)
      (Function.update visible q (visible q++[c])) := by
  obtain ⟨hcircles,hhead⟩ := h.circles.pushBack (h.shown q) (h.fresh c hc).2
  rw [← h.head q] at hcircles hhead
  have hoth {q' : Queue} {d : CaseId} (hd : d ≠ c) :
      (w.pushBack q c).Waiting q' d ↔ w.Waiting q' d :=
    ⟨fun h => { h with enqueued := by simpa [World.pushBack,hd] using h.enqueued },
      fun h => { h with enqueued := mem_append_left _ h.enqueued }⟩
  have hne {q' : Queue} {d : CaseId} (hd : d ∈ visible q') : d ≠ c :=
    ne_of_mem_of_not_mem (h.member q' d hd).enqueued hc
  have hmbr (q' : Queue) (d : CaseId) (hd : d ∈ visible q') : (w.pushBack q c).Waiting q' d :=
    (hoth (hne hd)).mpr (h.member q' d hd)
  refine ⟨hcircles,(forall_update_iff visible fun _ v => v = [] ∨ v ∈ _).mpr
      ⟨.inr (.inl rfl),fun q' hq => ?_⟩,
    (forall_update_iff visible fun q' v => _ = v.head?).mpr
      ⟨by simpa [World.pushBack] using hhead,fun q' hq => by
        simpa [World.pushBack,hq] using h.head q'⟩,
    (forall_update_iff visible fun q' v => ∀ d ∈ v, (w.pushBack q c).Waiting q' d).mpr
      ⟨forall_mem_append.mpr ⟨hmbr q,forall_mem_singleton.mpr hwait⟩,fun q' _ => hmbr q'⟩,?_,?_,?_⟩
  · rcases h.shown q' with hnil | hmem
    · exact .inl hnil
    refine .inr (.inr ⟨hmem,?_⟩)
    intro hsame
    obtain ⟨d,hd⟩ := exists_mem_of_ne_nil _ (h.circles.ring _ hmem).1
    exact hq ((h.member q d (hsame ▸ hd)).queue_eq (h.member q' d hd))
  · rintro m (rfl | ⟨hm,-⟩) d hd
    · rcases mem_append.mp hd with hd | hd
      · exact mem_append_left _ (h.member q d hd).enqueued
      · exact mem_append_right _ hd
    · exact mem_append_left _ (h.entered m hm d hd)
  · intro q' d hd
    by_cases hdc : d = c
    · exact ⟨_,.inl rfl,by simp [hdc]⟩
    obtain ⟨m,hm,hdm⟩ := h.linked q' d ((hoth hdc).mp hd)
    by_cases hsame : m = visible q
    · exact ⟨_,.inl rfl,mem_append_left _ (hsame ▸ hdm)⟩
    · exact ⟨m,.inr ⟨hm,hsame⟩,hdm⟩
  · intro d hd
    have hd' : d ∉ w.enqueued ∧ d ≠ c := by simpa [World.pushBack] using hd
    have hnot : d ∉ visible q++[c] := by
      intro hmem
      rcases mem_append.mp hmem with hmem | hmem
      · exact hd'.1 (h.member q d hmem).enqueued
      · exact hd'.2 (mem_singleton.mp hmem)
    have hfr := (ring_pushBack (h.ring q) fun hmem => hne hmem rfl).2.2 d hnot
    rw [← h.head q] at hfr
    obtain ⟨hnext,hprev⟩ := h.fresh d hd'.1
    exact ⟨hfr.1.trans hnext,hfr.2.trans hprev⟩

end

/-- The case is taken off the list, whether or not it is there. -/
structure Unlinks (w w' : World T) (q : Queue) (c : CaseId) : Prop where
  links : w'.links = (Intrusive.unlink w.links (w.head q) c).1
  head : w'.head = Function.update w.head q (Intrusive.unlink w.links (w.head q) c).2
  enqueued : w'.enqueued = w.enqueued

/-- A case that waits leaves its circle. If the list does not show this circle, the list stays
as it is or is cleared. -/
theorem Linked.unlink (h : w.Linked rings visible) (hc : w.Waiting q c)
    (hwait : ∀ q' d, w'.Waiting q' d ↔ w.Waiting q' d ∧ d ≠ c) (hunl : w.Unlinks w' q c) :
    ∃ rings' v, w'.Linked rings' (Function.update visible q v) ∧
      (v = (visible q).erase c ∨ (c ∉ visible q ∧ v = [])) := by
  obtain ⟨hlnk,hhead,henq⟩ := hunl
  obtain ⟨l,hl,hcl⟩ := h.linked q c hc
  obtain ⟨-,-,hfr,hheadShown,hheadHidden⟩ := ring_unlink (h.circles.ring l hl).2 hcl (w.head q)
  have hnotMem {q' : Queue} (hq : q' ≠ q) : c ∉ visible q' :=
    fun hmem => hq (hc.queue_eq (h.member q' c hmem))
  have hkeep {q' : Queue} (hmem : c ∉ visible q') :
      visible q' = [] ∨ visible q' ∈ remove rings l c := by
    rcases h.shown q' with hnil | hring
    · exact .inl hnil
    · refine .inr (.inr ⟨hring,?_⟩)
      intro hsame
      exact hmem (hsame ▸ hcl)
  have hmbr {q' : Queue} {d : CaseId} (hd : d ∈ visible q') (hdc : d ≠ c) : w'.Waiting q' d :=
    (hwait q' d).mpr ⟨h.member q' d hd,hdc⟩
  have hbuild (v : List CaseId) (hshown : v = [] ∨ v ∈ remove rings l c)
      (hfst : (Intrusive.unlink w.links (w.head q) c).2 = v.head?)
      (hsub : ∀ d ∈ v, d ∈ visible q ∧ d ≠ c) :
      w'.Linked (remove rings l c) (Function.update visible q v) := by
    refine ⟨hlnk ▸ h.circles.unlink hl hcl _,
      (forall_update_iff visible fun _ v => v = [] ∨ v ∈ _).mpr
        ⟨hshown,fun q' hq => hkeep (hnotMem hq)⟩,
      (forall_update_iff visible fun q' v => _ = v.head?).mpr
        ⟨by simpa [hhead] using hfst,fun q' hq => by simpa [hhead,hq] using h.head q'⟩,
      (forall_update_iff visible fun q' v => ∀ d ∈ v, w'.Waiting q' d).mpr
        ⟨fun d hd => hmbr (hsub d hd).1 (hsub d hd).2,
          fun q' hq d hd => hmbr hd (ne_of_mem_of_not_mem hd (hnotMem hq))⟩,?_,?_,?_⟩
    · rw [henq]
      rintro m (⟨rfl,-⟩ | ⟨hm,-⟩) d hd
      · exact h.entered l hl d (mem_of_mem_erase hd)
      · exact h.entered m hm d hd
    · intro q' d hd
      obtain ⟨hd,hdc⟩ := (hwait q' d).mp hd
      obtain ⟨m,hm,hdm⟩ := h.linked q' d hd
      by_cases hsame : m = l
      · subst hsame
        have hmem : d ∈ m.erase c := (mem_erase_of_ne hdc).mpr hdm
        exact ⟨_,.inl ⟨rfl,ne_nil_of_mem hmem⟩,hmem⟩
      · exact ⟨m,.inr ⟨hm,hsame⟩,hdm⟩
    · intro d hd
      rw [henq] at hd
      have hnot : d ∉ l := fun hmem => hd (h.entered l hl d hmem)
      rw [hlnk,(hfr d hnot).1,(hfr d hnot).2]
      exact h.fresh d hd
  by_cases hshown : c ∈ visible q
  · have hsame : visible q = l := h.circles.disjoint _ (h.mem_rings hshown) l hl c hshown hcl
    refine ⟨_,_,hbuild ((visible q).erase c) ?_ ?_ ?_,.inl rfl⟩
    · by_cases hnil : (visible q).erase c = []
      · exact .inl hnil
      · exact .inr (.inl ⟨by rw [hsame],hnil⟩)
    · rw [hheadShown (by rw [h.head q,hsame]),hsame]
    · intro d hd
      exact ⟨mem_of_mem_erase hd,((h.ring q).nodup.mem_erase_iff.mp hd).1⟩
  · have hhidden : w.head q ≠ some c := by
      rw [h.head q]
      intro hsome
      exact hshown (mem_of_mem_head? hsome)
    have hfst := hheadHidden hhidden
    by_cases hsingle : l = [c]
    · refine ⟨_,_,hbuild [] (.inl rfl) ?_ (by simp),.inr ⟨hshown,rfl⟩⟩
      rw [hfst,if_pos hsingle]
      rfl
    refine ⟨_,_,hbuild (visible q) (hkeep hshown) ?_ ?_,.inl (erase_of_not_mem hshown).symm⟩
    · rw [hfst,if_neg hsingle,h.head q]
    · intro d hd
      exact ⟨hd,ne_of_mem_of_not_mem hd hshown⟩

/-- Unlinking a case that is on no list clears the list. -/
theorem Linked.unlink_fresh (h : w.Linked rings visible) (hc : c ∉ w.enqueued)
    (hwait : ∀ q' d, w'.Waiting q' d ↔ w.Waiting q' d) (hunl : w.Unlinks w' q c) :
    w'.Linked rings (Function.update visible q []) := by
  obtain ⟨hlnk,hhead,henq⟩ := hunl
  obtain ⟨hnext,hprev⟩ := h.fresh c hc
  rw [unlink_unlisted hnext hprev] at hlnk hhead
  refine ⟨hlnk ▸ h.circles,(forall_update_iff visible fun _ v => v = [] ∨ v ∈ _).mpr
      ⟨.inl rfl,fun q' _ => h.shown q'⟩,
    (forall_update_iff visible fun q' v => _ = v.head?).mpr
      ⟨by simp [hhead],fun q' hq => by simpa [hhead,hq] using h.head q'⟩,
    (forall_update_iff visible fun q' v => ∀ d ∈ v, w'.Waiting q' d).mpr
      ⟨by simp,fun q' _ d hd => (hwait q' d).mpr (h.member q' d hd)⟩,
    henq ▸ h.entered,fun q' d hd => h.linked q' d ((hwait q' d).mp hd),?_⟩
  rw [henq,hlnk]
  exact h.fresh

end Lists

/-! ### Locked sections -/

/-- A walk over the list meets every case that waits there. -/
def Exact (w : World T) (q : Queue) : Prop := ∀ c, w.Waiting q c → c ∈ w.waiters q

section

variable (h : w.WellLinked)

include h

theorem WellLinked.member (hc : c ∈ w.waiters q) : w.Waiting q c :=
  h.elim fun _ h => h.member q c hc

theorem WellLinked.prev_eq_none (hc : c ∉ w.enqueued) : w.links.prev c = none :=
  h.elim fun _ h => (h.fresh c hc).2

theorem WellLinked.nodup (q : Queue) : (w.waiters q).Nodup :=
  h.elim fun _ h => (h.ring q).nodup

theorem WellLinked.head (q : Queue) : w.head q = (w.waiters q).head? :=
  h.elim fun _ h => h.head q

theorem WellLinked.ring (q : Queue) : Ring w.links (w.waiters q) :=
  h.elim fun _ h => h.ring q

theorem WellLinked.length_le (q : Queue) : (w.waiters q).length ≤ w.enqueued.length :=
  h.elim fun _ h => h.length_le q

theorem WellLinked.congr (hwait : ∀ q c, w'.Waiting q c → w.Waiting q c)
    (hmbr : ∀ q, ∀ c ∈ w.waiters q, w'.Waiting q c) (hlnk : w'.links = w.links)
    (hhead : w'.head = w.head) (henq : w'.enqueued = w.enqueued) :
    w'.WellLinked ∧ w'.waiters = w.waiters ∧ ∀ q, w.Exact q → w'.Exact q := by
  obtain ⟨_,h⟩ := h
  have h' := h.congr hwait hmbr hlnk hhead henq
  refine ⟨h'.wellLinked,h'.waiters_eq,?_⟩
  intro q hex c hc
  rw [h'.waiters_eq]
  exact hex c (hwait q c hc)

/-- The lists do not depend on the channels, the log, and where a call stands. -/
theorem WellLinked.congr_of_waiting (hwait : ∀ q c, w'.Waiting q c ↔ w.Waiting q c)
    (hlnk : w'.links = w.links) (hhead : w'.head = w.head) (henq : w'.enqueued = w.enqueued) :
    w'.WellLinked ∧ w'.waiters = w.waiters ∧ ∀ q, w.Exact q → w'.Exact q :=
  h.congr (fun q c => (hwait q c).mp) (fun _ _ hc => (hwait _ _).mpr (h.member hc)) hlnk
    hhead henq

theorem WellLinked.tryPick (hc : c ∉ w.enqueued) :
    (w.tryPick c).WellLinked ∧ (w.tryPick c).waiters = w.waiters ∧
      ∀ q, w.Exact q → (w.tryPick c).Exact q := h.congr_of_waiting (fun _ _ => waiting_tryPick hc) rfl rfl rfl

theorem WellLinked.pushBack (hc : c ∉ w.enqueued)
    (hwait : (w.pushBack q c).Waiting q c) : (w.pushBack q c).WellLinked ∧
      (w.pushBack q c).waiters = Function.update w.waiters q (w.waiters q++[c]) ∧
      ∀ q', w.Exact q' → (w.pushBack q c).Exact q' := by
  obtain ⟨_,h⟩ := h
  have h' := h.pushBack hc hwait
  refine ⟨h'.wellLinked,h'.waiters_eq,?_⟩
  intro q' hex d hd
  rw [h'.waiters_eq]
  by_cases hdc : d = c
  · subst hdc
    rw [hwait.queue_eq hd]
    simp
  have hmem : d ∈ w.enqueued := by simpa [World.pushBack,hdc] using hd.enqueued
  have hold : d ∈ w.waiters q' := hex d { hd with enqueued := hmem }
  by_cases hq : q' = q
  · subst hq
    simp [hold]
  · simpa [hq] using hold

/-- A case that waits leaves the list. -/
theorem WellLinked.unlink (hc : w.Waiting q c)
    (hwait : ∀ q' d, w'.Waiting q' d ↔ w.Waiting q' d ∧ d ≠ c) (hunl : w.Unlinks w' q c) :
    w'.WellLinked ∧ (∃ v, w'.waiters = Function.update w.waiters q v ∧
      (v = (w.waiters q).erase c ∨ (c ∉ w.waiters q ∧ v = []))) ∧
      ∀ q', w.Exact q' → w'.Exact q' := by
  obtain ⟨_,h⟩ := h
  obtain ⟨_,v,h',hv⟩ := h.unlink hc hwait hunl
  refine ⟨h'.wellLinked,⟨v,h'.waiters_eq,hv⟩,?_⟩
  intro q' hex d hd
  obtain ⟨hd,hdc⟩ := (hwait q' d).mp hd
  rw [h'.waiters_eq]
  by_cases hq : q' = q
  · subst hq
    rcases hv with rfl | ⟨hnot,-⟩
    · rw [update_self]
      exact (mem_erase_of_ne hdc).mpr (hex d hd)
    · exact absurd (hex c hc) hnot
  · rw [update_of_ne hq]
    exact hex d hd

/-- Taking a case off a list it has never been on clears the list. -/
theorem WellLinked.unlink_fresh (hc : c ∉ w.enqueued)
    (hwait : ∀ q' d, w'.Waiting q' d ↔ w.Waiting q' d) (hunl : w.Unlinks w' q c) :
    w'.WellLinked ∧ w'.waiters = Function.update w.waiters q [] ∧
      ∀ q', (q' = q → w.waiters q = []) → w.Exact q' → w'.Exact q' := by
  obtain ⟨_,h⟩ := h
  have h' := h.unlink_fresh hc hwait hunl
  refine ⟨h'.wellLinked,h'.waiters_eq,?_⟩
  intro q' hemp hex d hd
  have hd := hex d ((hwait q' d).mp hd)
  rw [h'.waiters_eq]
  by_cases hq : q' = q
  · subst hq
    simp [hemp rfl] at hd
  · simpa [hq] using hd

end

/-- The case may be picked now: its selector has not chosen yet, and it is on the list or on no
list at all. -/
structure Pickable (w : World T) (q : Queue) (c : CaseId) : Prop where
  call : (w.call c.select).isSome
  unpicked : w.picked c.select = none
  place : c ∉ w.enqueued ∨ c ∈ w.waiters q

theorem WellLinked.pickable (h : w.WellLinked) (hc : c ∈ w.waiters q)
    (hpick : w.picked c.select = none) : w.Pickable q c :=
  ⟨(h.member hc).call_isSome,hpick,.inr hc⟩

theorem notify_eq (w : World T) (q : Queue) (c : CaseId) :
    ∃ links head, w.notify q c = tryPick { w with links, head } c := by
  rw [notify]
  split_ifs
  · exact ⟨_,_,rfl⟩
  · exact ⟨_,_,rfl⟩

theorem picked_notify (h : w.Pickable q c) (s : ℕ) :
    (w.notify q c).picked s = if s = c.select then some c.index else w.picked s := by
  obtain ⟨_,_,hnotify⟩ := notify_eq w q c
  rw [hnotify,picked_tryPick]
  by_cases hs : s = c.select
  · subst hs
    rw [if_pos ⟨rfl,h.call,h.unpicked⟩,if_pos rfl]
  · rw [if_neg (by tauto),if_neg hs]
    rfl

/-- A picked case leaves its list. -/
theorem WellLinked.notify (h : w.WellLinked) (hc : w.Pickable q c) : (w.notify q c).WellLinked ∧
    (w.notify q c).waiters = Function.update w.waiters q ((w.waiters q).erase c) ∧
      ∀ q', w.Exact q' → (w.notify q c).Exact q' := by
  rcases hc.place with hfresh | hlist
  · have hnot : c ∉ w.waiters q := fun hmem => hfresh (h.member hmem).enqueued
    have heq : w.notify q c = w.tryPick c := by
      rw [World.notify,if_neg (by simp [h.prev_eq_none hfresh])]
    rw [erase_of_not_mem hnot,update_eq_self,heq]
    exact h.tryPick hfresh
  · obtain ⟨p,-,hp,-⟩ := (h.ring q).prev_mem hlist
    have heq : w.notify q c = (w.unlinkFromList q c).tryPick c := by
      rw [World.notify,if_pos (by simp [hp])]
    have hpicked := picked_notify hc
    rw [heq] at hpicked ⊢
    have hwait (q' : Queue) (d : CaseId) :
        ((w.unlinkFromList q c).tryPick c).Waiting q' d ↔ w.Waiting q' d ∧ d ≠ c := by
      by_cases hne : d = c
      · subst hne
        exact iff_of_false (fun h => h.picked (by rw [hpicked,if_pos rfl])) fun h => h.2 rfl
      · rw [waiting_tryPick_of_ne hne,and_iff_left hne]
        exact ⟨fun h => { h with },fun h => { h with }⟩
    obtain ⟨h',⟨v,hwaiters,hv⟩,hex⟩ := h.unlink (h.member hlist) hwait ⟨rfl,rfl,rfl⟩
    refine ⟨h',?_,hex⟩
    rcases hv with rfl | ⟨hnot,-⟩
    · exact hwaiters
    · exact absurd hlist hnot

/-! ### Leaving a list -/

theorem unregister_eq_unlink (hq : w.queueOf c = some q)
    (hev : ∀ event, q = .event event → w.notified event = false) :
    w.unregister c = { w.unlinkFromList q c with unregistered := w.unregistered++[c] } := by
  rw [queueOf] at hq
  rw [unregister,unregisterCase,hq]
  cases q with
  | readers channel => rfl
  | writers channel => rfl
  | event event => simp [hev event rfl]

/-- A case of an event that has been notified, or of no list, is not on a list any more. -/
theorem unregister_eq_self
    (h : ∀ q, w.queueOf c = some q → ∃ event, q = .event event ∧ w.notified event = true) :
    w.unregister c = { w with unregistered := w.unregistered++[c] } := by
  rw [unregister,unregisterCase]
  cases hq : (w.operation c).bind Operation.queue with
  | none => rfl
  | some q =>
    obtain ⟨event,rfl,hnot⟩ := h q hq
    simp [hnot]

theorem unregister_eq (w : World T) (c : CaseId) : ∃ links head, w.unregister c =
    { w with links, head, unregistered := w.unregistered++[c] } := by
  rw [unregister,unregisterCase]
  split
  · split_ifs
    · exact ⟨_,_,rfl⟩
    · exact ⟨_,_,rfl⟩
  · exact ⟨_,_,rfl⟩
  · exact ⟨_,_,rfl⟩

theorem waiting_unregister : (w.unregister c).Waiting q d ↔ w.Waiting q d ∧ d ≠ c := by
  obtain ⟨_,_,heq⟩ := unregister_eq w c
  rw [heq]
  constructor
  · intro h
    obtain ⟨hunreg,hne⟩ : d ∉ w.unregistered ∧ d ≠ c := by simpa using h.unregistered
    exact ⟨{ h with unregistered := hunreg },hne⟩
  · rintro ⟨h,hne⟩
    exact { h with unregistered := by simp [h.unregistered,hne] }

/-- A case that has never been on the list clears the list when it is unregistered. -/
theorem WellLinked.unregister_fresh (h : w.WellLinked) (hq : w.queueOf c = some q)
    (hev : ∀ event, q = .event event → w.notified event = false) (hc : c ∉ w.enqueued) :
    (w.unregister c).WellLinked ∧ (w.unregister c).waiters = Function.update w.waiters q [] ∧
      ∀ q', (q' = q → w.waiters q = []) → w.Exact q' → (w.unregister c).Exact q' := by
  have hwait (q' : Queue) (d : CaseId) : (w.unregister c).Waiting q' d ↔ w.Waiting q' d := by
    rw [waiting_unregister]
    exact and_iff_left_of_imp fun hd => ne_of_mem_of_not_mem hd.enqueued hc
  rw [unregister_eq_unlink hq hev] at hwait ⊢
  exact h.unlink_fresh hc hwait ⟨rfl,rfl,rfl⟩

/-- Unregistering takes no other case off its list, unless the case has never been on it. -/
theorem WellLinked.unregister (h : w.WellLinked)
    (hquiet : ∀ event, w.notified event = true → w.waiters (.event event) = [])
    (hc : ∀ q, w.queueOf c = some q → (∀ event, q = .event event → w.notified event = false) →
      c ∈ w.enqueued → w.Waiting q c) :
    (w.unregister c).WellLinked ∧ (∀ q, (w.unregister c).waiters q ⊆ w.waiters q) ∧
      ∀ q, (w.queueOf c = some q → c ∈ w.enqueued ∨ w.waiters q = []) → w.Exact q →
        (w.unregister c).Exact q := by
  by_cases hself : ∀ q, w.queueOf c = some q → ∃ event, q = .event event ∧ w.notified event = true
  · have hwait (q : Queue) (d : CaseId) := waiting_unregister (w := w) (c := c) (d := d) (q := q)
    rw [unregister_eq_self hself] at hwait ⊢
    have hoth (q : Queue) (d : CaseId) (hd : d ∈ w.waiters q) : d ≠ c := by
      rintro rfl
      obtain ⟨event,rfl,hnot⟩ := hself q (h.member hd).queue
      simp [hquiet event hnot] at hd
    obtain ⟨h',hwaiters,hex⟩ := h.congr (fun q d => And.left ∘ (hwait q d).mp)
      (fun q d hd => (hwait q d).mpr ⟨h.member hd,hoth q d hd⟩) rfl rfl rfl
    exact ⟨h',fun q => by rw [hwaiters]; exact List.Subset.refl _,fun q _ => hex q⟩
  · push Not at hself
    obtain ⟨q,hq,hev⟩ := hself
    have hev : ∀ event, q = .event event → w.notified event = false := by simpa using hev
    by_cases hmem : c ∈ w.enqueued
    · have hwait (q : Queue) (d : CaseId) := waiting_unregister (w := w) (c := c) (d := d) (q := q)
      rw [unregister_eq_unlink hq hev] at hwait ⊢
      obtain ⟨h',⟨v,hwaiters,hv⟩,hex⟩ := h.unlink (hc q hq hev hmem) hwait ⟨rfl,rfl,rfl⟩
      rw [hwaiters]
      refine ⟨h',(forall_update_iff w.waiters fun q' v => v ⊆ w.waiters q').mpr
        ⟨?_,fun q' _ => List.Subset.refl _⟩,fun q' _ => hex q'⟩
      rcases hv with rfl | ⟨-,rfl⟩
      · exact erase_subset
      · exact nil_subset _
    · obtain ⟨h',hwaiters,hex⟩ := h.unregister_fresh hq hev hmem
      rw [hwaiters]
      refine ⟨h',(forall_update_iff w.waiters fun q' v => v ⊆ w.waiters q').mpr
        ⟨nil_subset _,fun q' _ => List.Subset.refl _⟩,fun q' hemp => hex q' ?_⟩
      rintro rfl
      exact (hemp hq).resolve_left hmem

theorem WellLinked.release (h : w.WellLinked) {event : ℕ} (hc : c ∈ w.waiters (.event event)) :
    (w.release event c).WellLinked ∧ (w.release event c).waiters =
      Function.update w.waiters (.event event) ((w.waiters (.event event)).erase c) ∧
      ∀ q, w.Exact q → (w.release event c).Exact q := by
  have hwait (q' : Queue) (d : CaseId) :
      (w.release event c).Waiting q' d ↔ w.Waiting q' d ∧ d ≠ c := by
    have hrel : d ∉ (w.release event c).released ↔ d ∉ w.released ∧ d ≠ c := by
      change d ∉ w.released++[c] ↔ _
      simp
    constructor
    · intro h
      obtain ⟨hrel,hne⟩ := hrel.mp h.released
      have hpick : (w.tryPick c).Waiting q' d := { h with released := hrel }
      exact ⟨(waiting_tryPick_of_ne hne).mp hpick,hne⟩
    · rintro ⟨h,hne⟩
      have hpick := (waiting_tryPick_of_ne hne).mpr h
      exact { hpick with released := hrel.mpr ⟨h.released,hne⟩ }
  obtain ⟨h',⟨v,hwaiters,hv⟩,hex⟩ := h.unlink (h.member hc) hwait ⟨rfl,rfl,rfl⟩
  refine ⟨h',?_,hex⟩
  rcases hv with rfl | ⟨hnot,-⟩
  · exact hwaiters
  · exact absurd hc hnot

end World

end A11.Fibers
