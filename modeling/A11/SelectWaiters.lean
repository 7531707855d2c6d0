import A11.SelectRuns

/-! Whether a fiber can be left waiting on a channel that could serve it. The waiter lists are
complete until a case is taken off a list it has never been put on. -/
namespace A11.Fibers
open World

variable {T : Type}

def Queue.OfChannel : Queue → Prop
  | readers _ => True
  | writers _ => True
  | event _ => False

namespace World

variable {w : World T} {c : CaseId} {q : Queue} {s : ℕ}

/-- The lists of the channels hold exactly the cases that wait, and no case waits on a channel
that could serve it. -/
structure NoStranded (w : World T) : Prop where
  readers : ∀ channel c, c ∈ w.waiters (.readers channel) ↔ w.Waiting (.readers channel) c
  writers : ∀ channel c, c ∈ w.waiters (.writers channel) ↔ w.Waiting (.writers channel) c
  read : ∀ channel c, w.Waiting (.readers channel) c → w.picked c.select = none →
    (w.channel channel).items = [] ∧ (w.channel channel).closed = false ∧
      ∀ d, w.Waiting (.writers channel) d → w.picked d.select = none → d.select = c.select
  write : ∀ channel c, w.Waiting (.writers channel) c → w.picked c.select = none →
    (w.channel channel).capacity ≤ (w.channel channel).items.length

/-- The step takes a case off the list of a channel that it has never been put on, while other
cases wait there. -/
def Strands (w : World T) (a : Action T) : Prop := ∃ s c q, a = .advance s ∧
  w.nextUnregistered s = some c ∧ w.queueOf c = some q ∧ q.OfChannel ∧ c ∉ w.enqueued ∧
  w.waiters q ≠ []

theorem noStranded_iff (h : w.Invariant) : w.NoStranded ↔ ∀ q, q.OfChannel → w.Exact q := by
  constructor
  · intro hw q hq c hc
    cases q with
    | readers channel => exact (hw.readers channel c).mpr hc
    | writers channel => exact (hw.writers channel c).mpr hc
    | event event => exact hq.elim
  · intro hex
    have hrdr (channel : ℕ) := hex (.readers channel) trivial
    have hwriters (channel : ℕ) := hex (.writers channel) trivial
    refine ⟨?_,?_,?_,?_⟩
    · intro channel c
      exact ⟨h.linked.member,hrdr channel c⟩
    · intro channel c
      exact ⟨h.linked.member,hwriters channel c⟩
    · intro channel c hc hpick
      have hreader : w.Unpicked (.readers channel) c := ⟨hrdr channel c hc,hpick⟩
      obtain ⟨hitm,hcls⟩ := h.settled.reader channel c hreader
      refine ⟨hitm,hcls,fun d hd hd' => ?_⟩
      exact (h.settled.pair channel c d hreader ⟨hwriters channel d hd,hd'⟩).symm
    · intro channel c hc hpick
      exact h.settled.writer channel c ⟨hwriters channel c hc,hpick⟩

theorem advance_of_nextUnregistered (h : w.nextUnregistered s = some c) :
    ∃ next, w.advance s = (w.update s (Call.enter (.unregistering next))).unregister c := by
  unfold nextUnregistered at h
  unfold advance
  split at h
  · simp at h
  rename_i call hcall
  simp only [hcall]
  split at h
  · rename_i next hph
    split_ifs at h with hnext
    split at h
    · simp at h
    rename_i index hidx
    split_ifs at h with hpick
    obtain rfl := Option.some.inj h
    simp only [hph,if_pos hnext,hidx,if_neg hpick]
    exact ⟨_,rfl⟩
  · simp at h

/-- The list is cleared although another case still waits. -/
theorem Strands.not_exact {a : Action T} (h : w.Invariant) (ha : w.Strands a) :
    ∃ q, q.OfChannel ∧ ¬(step w a).Exact q := by
  obtain ⟨s,c,q,rfl,hnext,_,hq,hfresh,hne⟩ := ha
  obtain ⟨next,heq⟩ := advance_of_nextUnregistered hnext
  obtain ⟨d,hd⟩ := List.exists_mem_of_ne_nil _ hne
  have hf := steady_enter (T := T) (.unregistering next)
  obtain ⟨hlink,-,-⟩ := h.linked.update (s := s) hf
  have hque' : (w.update s (Call.enter (.unregistering next))).queueOf c = some q := by
    rwa [hf.queueOf]
  have hev : ∀ event, q = .event event → w.notified event = false := by
    rintro event rfl
    exact hq.elim
  obtain ⟨-,hwait,-⟩ := hlink.unregister_fresh hque' hev hfresh
  refine ⟨q,hq,fun hex => ?_⟩
  have hwaiting : (w.advance s).Waiting q d := by
    rw [heq,waiting_unregister,waiting_update hf]
    exact ⟨h.linked.member hd,ne_of_mem_of_not_mem (h.linked.member hd).enqueued hfresh⟩
  have hmem : d ∈ (w.advance s).waiters q := hex d hwaiting
  rw [heq,hwait] at hmem
  simp at hmem

theorem noStranded_step_iff (h : w.Invariant) (hw : w.NoStranded) (a : Action T) :
    (step w a).NoStranded ↔ ¬w.Strands a := by
  rw [noStranded_iff (h.step a).1]
  rw [noStranded_iff h] at hw
  constructor
  · intro hex ha
    obtain ⟨q,hq,hnot⟩ := ha.not_exact h
    exact hnot (hex q hq)
  · intro ha q hq
    refine (h.step a).2 q ?_ (hw q hq)
    intro s c heq hnext hque
    by_contra hcon
    rw [not_or] at hcon
    exact ha ⟨s,c,q,heq,hnext,hque,hq,hcon.1,hcon.2⟩

end World

/-- Along every run of fibers that select over channels and events, the waiter lists are exact
and no waiter is stranded, exactly as long as no case is taken off a list of other waiters
without ever having been put on it. -/
theorem noStranded_along_iff (capacity : ℕ → ℕ) (actions : List (Action T)) :
    (∀ done, done <+: actions → (run capacity done).NoStranded) ↔
      Runs.Along step (fun w a => ¬w.Strands a) (World.initial capacity) actions := by
  have hinit := invariant_initial (T := T) capacity
  have hst : (initial (T := T) capacity).NoStranded := by
    rw [noStranded_iff hinit]
    rintro q - c ⟨-,hmem,-⟩
    simp [initial] at hmem
  exact Runs.forall_after_iff_along (I := Invariant) (Q := NoStranded) (fun w a hw => (hw.step a).1)
    (fun w a hw hstranded => noStranded_step_iff hw hstranded a) hinit hst actions

/-- A fiber that waits for an item and is handed one. -/
theorem noStranded_along_iff_handedOver : ∀ done,
    done <+: [.start 0 [.read 0] [0] true false,.advance 0,
      .start 1 [.write 0 (5 : ℕ)] [0] true false,.advance 1,.advance 0,.advance 0] →
    (run (fun _ => 0) done).NoStranded := by
  have hadv {w : World ℕ} {s : ℕ} (h : w.nextUnregistered s = none) :
      ¬w.Strands (.advance s) := by
    rintro ⟨s,c,q,⟨rfl⟩,hnext,-⟩
    simp [h] at hnext
  refine (noStranded_along_iff _ _).mpr ⟨?_,hadv (by decide),?_,hadv (by decide),
    hadv (by decide),hadv (by decide),trivial⟩
  · simp [Strands]
  · simp [Strands]

/-- A fiber reads from channel 1. Another one selects over the channels 0 and 1, is handed an
item on channel 0 before it has looked at channel 1, and unregisters both cases. -/
def strandingRun : List (Action ℕ) :=
  [.start 0 [.read 1] [0] true false,.advance 0,
    .start 1 [.read 0,.read 1] [0,1] true false,.advance 1,
    .start 2 [.write 0 5] [0] true false,.advance 2,
    .advance 1,.advance 1,.advance 1,
    .start 3 [.write 1 7] [0] true false,.advance 3]

/-- The first fiber waits on, with an item in the buffer that nobody has told it about. -/
theorem strandingRun_strands : (run (fun _ => 1) strandingRun).Waiting (.readers 1) ⟨0,0⟩ ∧
    (run (fun _ => 1) strandingRun).picked 0 = none ∧
    (run (fun _ => 1) strandingRun).waiters (.readers 1) = [] ∧
    ((run (fun _ => 1) strandingRun).channel 1).items = [7] ∧
    ¬(run (fun _ => 1) strandingRun).NoStranded := by
  have hwait : (run (fun _ => 1) strandingRun).Waiting (.readers 1) ⟨0,0⟩ :=
    ⟨by decide,by decide,by decide,by decide,by decide⟩
  have hpick : (run (fun _ => 1) strandingRun).picked 0 = none := by decide
  refine ⟨hwait,hpick,by decide,by decide,fun h => ?_⟩
  have hitm := (h.read 1 ⟨0,0⟩ hwait hpick).1
  revert hitm
  decide

end A11.Fibers
