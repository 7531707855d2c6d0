import A11.InProcessStream

/-! One direction of an in-process pair, from the admission at one endpoint to the callback of
the other: everything admitted is in the receiver's hand, on its way or behind the receiver, in
admission order. -/
namespace A11.InProcess

open WireStream List WireMessage

/-! ### Sequences with an end -/

/-- Messages, and the end as the last item if there is one. -/
def Terminated (ended : Bool) : List (Option WireMessage) → Prop
  | [] => ended = false
  | none::rest => rest = [] ∧ ended = true
  | some _::rest => Terminated ended rest

variable {items : List (Option WireMessage)}

theorem Terminated.snoc_some (h : Terminated false items)
    (m : WireMessage) : Terminated false (items++[some m]) := by
  induction items with
  | nil => rfl
  | cons item items ih =>
    cases item with
    | none => simp [Terminated] at h
    | some n => exact ih h

theorem Terminated.snoc_none (h : Terminated false items) : Terminated true (items++[none]) := by
  induction items with
  | nil => exact ⟨rfl,rfl⟩
  | cons item items ih =>
    cases item with
    | none => simp [Terminated] at h
    | some n => exact ih h

theorem Terminated.after_none {ended : Bool} {before after : List (Option WireMessage)}
    (h : Terminated ended (before++none::after)) : after = [] ∧ ended = true := by
  induction before with
  | nil => exact h
  | cons item items ih =>
    cases item with
    | none => simp [Terminated] at h
    | some n => exact ih h

theorem terminated_append_congr {ended : Bool} {items' : List (Option WireMessage)}
    (hne : items ≠ []) (hne' : items' ≠ [])
    (h : Terminated ended items → Terminated ended items') (before : List (Option WireMessage)) :
    Terminated ended (before++items) → Terminated ended (before++items') := by
  induction before with
  | nil => exact h
  | cons item before ih =>
    cases item with
    | none => simp [Terminated,hne,hne']
    | some n => exact ih

def fragmentsOf (items : List (Option WireMessage)) : List NodeFragment :=
  items.flatMap fun item => (item.map WireMessage.nodeFragments).getD []

def actionsOf (items : List (Option WireMessage)) : List ActionMessage :=
  items.flatMap fun item => (item.map WireMessage.actions).getD []

@[simp] theorem fragmentsOf_append (s t : List (Option WireMessage)) :
    fragmentsOf (s++t) = fragmentsOf s++fragmentsOf t := flatMap_append

@[simp] theorem actionsOf_append (s t : List (Option WireMessage)) :
    actionsOf (s++t) = actionsOf s++actionsOf t := flatMap_append

@[simp] theorem fragmentsOf_cons (item : Option WireMessage) (items : List (Option WireMessage)) :
    fragmentsOf (item::items) =
      (item.map nodeFragments).getD []++fragmentsOf items := flatMap_cons

@[simp] theorem actionsOf_cons (item : Option WireMessage) (items : List (Option WireMessage)) :
    actionsOf (item::items) = (item.map actions).getD []++actionsOf items :=
  flatMap_cons

@[simp] theorem fragmentsOf_nil : fragmentsOf [] = [] := rfl

@[simp] theorem actionsOf_nil : actionsOf [] = [] := rfl

/-! ### One direction of the pair -/

/-- What the peer's callback gets of a queued message. -/
def item (o : Outbound) : Option WireMessage :=
  if o.ending = .none then some o.message.carried else none

/-- A queued message that can be encoded, and that is empty exactly if it ends the stream. -/
structure Sound (o : Outbound) : Prop where
  valid : o.message.validate = .ok ()
  ending : o.ending = .none ↔ isHalfCloseMessage o.message = false

/-- One direction: from the admission at the sending endpoint to the callback of the other. -/
structure Lane where
  admitted : List WireMessage
  ended : Bool
  finished : Bool
  queue : List Outbound
  flight : List Outbound
  /-- The sender is about to report a failed delivery. -/
  failing : Bool
  buffer : List Bytes
  hand : List (Option WireMessage)
  handed : List (Option WireMessage)
  listening : Bool

/-- What is on its way behind the receiver's hand, to the back of the queue. A finished sender
may have dropped the end of its queue. -/
structure OnTheWay (l : Lane) (rest : List (Option WireMessage)) (buffered : List Outbound)
    (lost : List (Option WireMessage)) : Prop where
  failing : l.failing = false
  sound : ∀ o ∈ buffered++l.flight++l.queue, Sound o
  buffer : Forall₂ (fun o payload => o.message.Encodes payload) buffered l.buffer
  rest : rest = (buffered++l.flight++l.queue).map item++lost
  lost : l.finished = false → lost = []

/-- What the receiver has seen and what is still to come, in admission order. -/
structure Ordered (l : Lane) (all : List (Option WireMessage)) : Prop where
  terminated : Terminated l.ended all
  fragments : fragmentsOf all =
    (l.admitted.flatMap WireMessage.nodeFragments).map NodeFragment.carried
  actions : actionsOf all = l.admitted.flatMap WireMessage.actions

def Flow (l : Lane) : Prop :=
  ∃ rest, Ordered l (l.handed++l.hand++rest) ∧
    (l.listening = true → ∃ buffered lost, OnTheWay l rest buffered lost)

/-- The same admissions, and the same messages in the receiver's hand or behind it. -/
structure SameEnds (l l' : Lane) : Prop where
  admitted : l'.admitted = l.admitted
  ended : l'.ended = l.ended
  seen : l'.handed++l'.hand = l.handed++l.hand

variable {l l' : Lane}

theorem Ordered.congr {all : List (Option WireMessage)} (h : Ordered l all)
    (hadm : l'.admitted = l.admitted) (hend : l'.ended = l.ended) : Ordered l' all :=
  ⟨by rw [hend]; exact h.terminated,by rw [hadm]; exact h.fragments,by rw [hadm]; exact h.actions⟩

/-- What is on its way is only passed on. -/
theorem Flow.extend (h : Flow l) (tail : List (Option WireMessage))
    (hall : ∀ all, Ordered l all → Ordered l' (all++tail))
    (hseen : l'.handed++l'.hand = l.handed++l.hand)
    (hway : l'.listening = true → l.listening = true ∧ ∀ rest buffered lost,
      OnTheWay l rest buffered lost →
        ∃ buffered' lost', OnTheWay l' (rest++tail) buffered' lost') : Flow l' := by
  obtain ⟨rest,hord,hlis⟩ := h
  refine ⟨rest++tail,?_,?_⟩
  · rw [hseen,← append_assoc]
    exact hall _ hord
  · intro hlistens
    obtain ⟨hbef,hpass⟩ := hway hlistens
    obtain ⟨buffered,lost,h⟩ := hlis hbef
    exact hpass rest buffered lost h

theorem Flow.pass (h : Flow l) (hends : SameEnds l l')
    (hway : l'.listening = true → l.listening = true ∧ ∀ rest buffered lost,
      OnTheWay l rest buffered lost → ∃ buffered' lost', OnTheWay l' rest buffered' lost') :
    Flow l' := by
  refine h.extend [] (fun all hall => ?_) hends.seen (by simpa using hway)
  rw [append_nil]
  exact hall.congr hends.admitted hends.ended

/-- The receiver gives up. -/
theorem Flow.deaf (h : Flow l) (hadm : l'.admitted = l.admitted)
    (hend : l'.ended = l.ended) (hhanded : l'.handed = l.handed)
    (hhand : l'.hand = l.hand ∨ l'.hand = []) (hdeaf : l'.listening = false) : Flow l' := by
  obtain ⟨rest,hord,-⟩ := h
  have hlis : l'.listening = true → ∃ buffered lost, OnTheWay l' (l.hand++rest) buffered lost := by
    intro hlis
    rw [hdeaf] at hlis
    cases hlis
  rcases hhand with hhand | hhand
  · refine ⟨rest,?_,fun hlis => absurd (hdeaf.symm.trans hlis) Bool.false_ne_true⟩
    rw [hhanded,hhand]
    exact hord.congr hadm hend
  · refine ⟨l.hand++rest,?_,hlis⟩
    rw [hhanded,hhand,append_nil,← append_assoc]
    exact hord.congr hadm hend

/-- A message is admitted behind everything else. -/
theorem Flow.admission (h : Flow l) (m : WireMessage) (hend : l.ended = false)
    (hend' : l'.ended = false) (hseen : l'.handed++l'.hand = l.handed++l.hand)
    (hadm : l'.admitted = l.admitted++[m])
    (hway : l'.listening = true → l.listening = true ∧ ∀ rest buffered lost,
      OnTheWay l rest buffered lost →
        ∃ buffered' lost', OnTheWay l' (rest++[some m.carried]) buffered' lost') : Flow l' := by
  refine h.extend [some m.carried] (fun all hall => ⟨?_,?_,?_⟩) hseen hway
  · have hterm := hall.terminated
    rw [hend] at hterm
    rw [hend']
    exact hterm.snoc_some _
  · rw [hadm,fragmentsOf_append,hall.fragments]
    simp [carried]
  · rw [hadm,actionsOf_append,hall.actions]
    simp [carried]

/-- The end is queued behind everything else. -/
theorem Flow.close (h : Flow l) (hend : l.ended = false)
    (hend' : l'.ended = true) (hseen : l'.handed++l'.hand = l.handed++l.hand)
    (hadm : l'.admitted = l.admitted)
    (hway : l'.listening = true → l.listening = true ∧ ∀ rest buffered lost,
      OnTheWay l rest buffered lost →
        ∃ buffered' lost', OnTheWay l' (rest++[none]) buffered' lost') : Flow l' := by
  refine h.extend [none] (fun all hall => ⟨?_,?_,?_⟩) hseen hway
  · have hterm := hall.terminated
    rw [hend] at hterm
    rw [hend']
    exact hterm.snoc_none
  · rw [hadm,fragmentsOf_append,hall.fragments]
    simp
  · rw [hadm,actionsOf_append,hall.actions]
    simp

/-- The receiver takes the next item in hand. -/
theorem Ordered.pick {given : Option WireMessage} {rest : List (Option WireMessage)}
    (h : Ordered l (l.handed++l.hand++given::rest)) (hhand : l.hand = [])
    (hhand' : l'.hand = [given]) (hadm : l'.admitted = l.admitted)
    (hend : l'.ended = l.ended) (hhanded : l'.handed = l.handed) :
    Ordered l' (l'.handed++l'.hand++rest) := by
  rw [hhand,append_nil] at h
  rw [hhanded,hhand',append_assoc]
  exact h.congr hadm hend

/-! ### Folding -/

theorem validate_append {m n : WireMessage} (hm : m.validate = .ok ()) (hn : n.validate = .ok ()) :
    (append m n).validate = .ok () := by
  have hm' := validate_eq_ok hm
  have hn' := validate_eq_ok hn
  refine StatusOr.check_bind_eq_ok.mpr ⟨checkAll_eq_ok.mpr ?_,
    StatusOr.check_bind_eq_ok.mpr ⟨checkAll_eq_ok.mpr ?_,hm'.headers⟩⟩
  · intro f hf
    exact (mem_append.mp hf).elim (hm'.fragments f) (hn'.fragments f)
  · intro a ha
    exact (mem_append.mp ha).elim (hm'.actions a) (hn'.actions a)

theorem isHalfCloseMessage_append {m : WireMessage} (h : isHalfCloseMessage m = false)
    (n : WireMessage) : isHalfCloseMessage (append m n) = false := by
  unfold isHalfCloseMessage append at *
  cases hact : m.actions <;> cases hfrag : m.nodeFragments <;> simp_all

/-- What folding does to the items of a queue: the same fragments and actions in the same
order, and the same end. -/
structure Folded (items items' : List (Option WireMessage)) : Prop where
  fragments : fragmentsOf items' = fragmentsOf items
  actions : actionsOf items' = actionsOf items
  terminated : ∀ ended before, Terminated ended (before++items) →
    Terminated ended (before++items')

theorem Folded.refl (items : List (Option WireMessage)) : Folded items items :=
  ⟨rfl,rfl,fun _ _ h => h⟩

theorem Folded.trans {items' items'' : List (Option WireMessage)} (h : Folded items items')
    (h' : Folded items' items'') : Folded items items'' :=
  ⟨h'.fragments.trans h.fragments,h'.actions.trans h.actions,
    fun ended before ht => h'.terminated ended before (h.terminated ended before ht)⟩

theorem folded_append (m n : WireMessage) (rest : List (Option WireMessage)) :
    Folded (some m.carried::some n.carried::rest) (some (append m n).carried::rest) := by
  refine ⟨by simp [append,carried],by simp [append,carried],?_⟩
  intro ended before hterm
  have hsame : Terminated ended (some m.carried::some n.carried::rest) →
      Terminated ended (some (append m n).carried::rest) := fun h => h
  exact terminated_append_congr (cons_ne_nil _ _) (cons_ne_nil _ _) hsame before hterm

/-- Part of what is on its way is folded. -/
theorem Flow.fold (h : Flow l) (hadm : l'.admitted = l.admitted)
    (hend : l'.ended = l.ended) (hhanded : l'.handed = l.handed) (hhand : l'.hand = l.hand)
    (hway : l'.listening = true → l.listening = true ∧ ∀ rest buffered lost,
      OnTheWay l rest buffered lost → ∃ front items items' buffered' lost', rest = front++items ∧
        Folded items items' ∧ OnTheWay l' (front++items') buffered' lost') : Flow l' := by
  by_cases hlis : l'.listening = true
  · obtain ⟨rest,hord,hlistening⟩ := h
    obtain ⟨hbef,hpass⟩ := hway hlis
    obtain ⟨buffered,lost,hon⟩ := hlistening hbef
    obtain ⟨front,items,items',buffered',lost',rfl,hfold,hon'⟩ := hpass rest buffered lost hon
    refine ⟨front++items',?_,fun _ => ⟨buffered',lost',hon'⟩⟩
    rw [hhanded,hhand]
    refine Ordered.congr ⟨?_,?_,?_⟩ hadm hend
    · have hterm := hord.terminated
      rw [← append_assoc] at hterm ⊢
      exact hfold.terminated _ _ hterm
    · rw [← hord.fragments]
      simp [fragmentsOf_append,hfold.fragments]
    · rw [← hord.actions]
      simp [actionsOf_append,hfold.actions]
  · exact h.deaf hadm hend hhanded (.inl hhand) (by simpa using hlis)

theorem foldQueued_spec (estimate : ChunkObject → ℕ) (approximate : ℕ) {message : WireMessage}
    {rest : List Outbound} (hval : message.validate = .ok ())
    (hdata : isHalfCloseMessage message = false) (hrest : ∀ o ∈ rest, Sound o) :
    let folded := foldQueued estimate approximate message rest
    folded.1.validate = .ok () ∧ isHalfCloseMessage folded.1 = false ∧
      (∀ o ∈ folded.2, o ∈ rest) ∧
      Folded (some message.carried::rest.map item) (some folded.1.carried::folded.2.map item) := by
  induction rest generalizing approximate message with
  | nil => exact ⟨hval,hdata,fun _ h => h,.refl _⟩
  | cons next rest ih =>
    have hstop : message.validate = .ok () ∧ isHalfCloseMessage message = false ∧
        (∀ o ∈ next::rest, o ∈ next::rest) ∧
        Folded (some message.carried::(next::rest).map item)
          (some message.carried::(next::rest).map item) := ⟨hval,hdata,fun _ h => h,.refl _⟩
    rw [foldQueued]
    by_cases hend : next.ending ≠ .none ∨ next.message.headers ≠ message.headers
    · simpa only [if_pos hend] using hstop
    by_cases hceiling : mergeCeilingBytes < approximate+next.message.approxBytes estimate
    · simpa only [if_neg hend,if_pos hceiling] using hstop
    simp only [if_neg hend,if_neg hceiling]
    have hnext := hrest next (by simp)
    have hitem : item next = some next.message.carried := if_pos (not_not.mp (not_or.mp hend).1)
    obtain ⟨hval',hdata',hmem,hfold⟩ := ih (approximate+next.message.approxBytes estimate)
      (validate_append hval hnext.valid) (isHalfCloseMessage_append hdata next.message)
      fun o ho => hrest o (by simp [ho])
    refine ⟨hval',hdata',fun o ho => mem_cons_of_mem _ (hmem o ho),?_⟩
    rw [map_cons,hitem]
    exact (folded_append message next.message _).trans hfold

theorem takeOutbound_spec (estimate : ChunkObject → ℕ) {front : Outbound} {rest : List Outbound}
    (h : ∀ o ∈ front::rest, Sound o) :
    let taken := takeOutbound estimate front rest
    Sound taken.1 ∧ (∀ o ∈ taken.2, Sound o) ∧ taken.1.ending = front.ending ∧
      Folded ((front::rest).map item) ((taken.1::taken.2).map item) := by
  have hfront := h front (by simp)
  have hrest : ∀ o ∈ rest, Sound o := fun o ho => h o (by simp [ho])
  unfold takeOutbound
  by_cases hfold : front.ending = .none ∧ front.message.approxBytes estimate < mergeCeilingBytes
  · simp only [if_pos hfold]
    obtain ⟨hval,hdata,hmem,hfolded⟩ := foldQueued_spec estimate
      (front.message.approxBytes estimate) hfront.valid (hfront.ending.mp hfold.1) hrest
    refine ⟨⟨hval,by simp [hfold.1,hdata]⟩,fun o ho => hrest o (hmem o ho),trivial,?_⟩
    simpa only [map_cons,item,if_pos hfold.1] using hfolded
  · simp only [if_neg hfold]
    exact ⟨hfront,hrest,trivial,.refl _⟩

/-! ### The claim -/

def Call.holds : Call → Bool
  | .deliver _ => true
  | .release _ _ => true
  | _ => false

def Call.flight : Call → List Outbound
  | .deliver message => [{ message }]
  | .release message false => [{ message }]
  | _ => []

def Sender.holds : Sender → Bool
  | .absent => false
  | .idle => false
  | .asleep => false
  | .returned => false
  | _ => true

def Sender.flight : Sender → List Outbound
  | .deliver o _ => [o]
  | .blocked o _ => [o]
  | _ => []

def Sender.failing : Sender → Bool
  | .forceAbort _ _ => true
  | _ => false

section

variable (s : Sender)

@[simp] theorem Sender.holds_woken : s.woken.holds = s.holds := by cases s <;> rfl
@[simp] theorem Sender.flight_woken : s.woken.flight = s.flight := by cases s <;> rfl
@[simp] theorem Sender.failing_woken : s.woken.failing = s.failing := by
  cases s <;> rfl
@[simp] theorem Sender.holds_unblocked : s.unblocked.holds = s.holds := by
  cases s <;> rfl
@[simp] theorem Sender.flight_unblocked : s.unblocked.flight = s.flight := by
  cases s <;> rfl
@[simp] theorem Sender.failing_unblocked : s.unblocked.failing = s.failing := by
  cases s <;> rfl

end

/-- Who delivers a message that is no longer in the queue. -/
inductive Holder
  | nobody
  | call (i : ℕ)
  | fiber

structure Claims (e : Endpoint) (h : Holder) : Prop where
  sending : e.sending = true ↔ h ≠ .nobody
  fiber : e.sender.holds = true ↔ h = .fiber
  call : ∀ i, (e.calls i).holds = true ↔ h = .call i

theorem Claims.congr {e e' : Endpoint} {h : Holder} (hclm : Claims e h)
    (hsend : e'.sending = e.sending) (hsnd : e'.sender.holds = e.sender.holds)
    (hcalls : ∀ i, (e'.calls i).holds = (e.calls i).holds) : Claims e' h :=
  ⟨by rw [hsend]; exact hclm.sending,by rw [hsnd]; exact hclm.fiber,
    fun i => by rw [hcalls]; exact hclm.call i⟩

def Receiver.listening : Receiver → Bool
  | .absent => true
  | .idle => true
  | .asleep => true
  | .check _ => true
  | .calling => true
  | .halfClose _ => true
  | _ => false

def Receiver.hand : Receiver → List (Option WireMessage)
  | .check message => [some message]
  | .halfClose _ => [none]
  | _ => []

@[simp] theorem Receiver.listening_woken (r : Receiver) : r.woken.listening = r.listening := by
  cases r <;> rfl
@[simp] theorem Receiver.hand_woken (r : Receiver) : r.woken.hand = r.hand := by cases r <;> rfl

def flight (e : Endpoint) : Holder → List Outbound
  | .nobody => []
  | .call i => (e.calls i).flight
  | .fiber => e.sender.flight

/-- The direction from one endpoint to the other. -/
def lane (s r : Endpoint) (h : Holder) : Lane where
  admitted := s.admitted
  ended := s.localEnd == .halfClose
  finished := s.transportFinished
  queue := s.outbound
  flight := flight s h
  failing := s.sender.failing
  buffer := r.incoming
  hand := r.receiver.hand
  handed := r.handed
  listening := !r.gone && !r.transportFinished && r.receiver.listening

end A11.InProcess
