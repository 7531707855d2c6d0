import A11.MultiplexedDelivery

/-! The sending side of the striped channel. Packets are assigned to the open members in turn, and
every member is handed its packets by one call at a time. Every locked section and every send on a
member is one step of a call in progress. -/
namespace A11.Multiplexed
open List Function

structure Member where
  isOpen : Bool := false
  pending : List Bytes := []
  flushing : Bool := false
  deriving DecidableEq

def Member.assign (packet : Bytes) (member : Member) : Member :=
  { member with pending := member.pending++[packet] }

def Member.keep (pending : List Bytes) (member : Member) : Member := { member with pending }

def Member.unclaim (member : Member) : Member := { member with flushing := false }

/-- What a call in progress does next. -/
inductive Task
  | flushPending
  | flushMember (id : ℕ)
  | sending (id : ℕ) (packet : Bytes)
  | failed (id : ℕ) (packet : Bytes)
  | dropMember (id : ℕ)
  deriving DecidableEq

structure Sender where
  targetChannels : ℕ
  /-- The members by number, those that have been dropped too, and the numbers of the others. -/
  member : ℕ → Member := fun _ => {}
  members : List ℕ := []
  nextMemberId : ℕ := 1
  roundRobin : ℕ := 0
  nextSendSeq : UInt64 := 0
  pendingOut : List Bytes := []
  sendPauses : ℕ := 0
  closed : Bool := false
  tasks : List Task := []

namespace Sender

def setMember (s : Sender) (id : ℕ) (f : Member → Member) : Sender :=
  { s with member := update s.member id (f (s.member id)) }

def schedule (s : Sender) (tasks : List Task) : Sender := { s with tasks := s.tasks++tasks }

/-! ### Assigning packets -/

/-- The next open member and the turn after it. -/
def choose (s : Sender) : Option (ℕ × ℕ) :=
  (List.range s.members.length).findSome? fun attempt =>
    match s.members[(s.roundRobin+attempt)%s.members.length]? with
    | none => none
    | some id =>
      if (s.member id).isOpen then some (id,(s.roundRobin+attempt+1)%s.members.length) else none

def assign : List Bytes → Sender → Sender
  | [], s => { s with pendingOut := [] }
  | packet::rest, s =>
    match s.choose with
    | none => { s with pendingOut := packet::rest }
    | some (id,turn) =>
      assign rest ({ s with roundRobin := turn }.setMember id (Member.assign packet))

def assignPending (s : Sender) : Sender :=
  if s.members = [] ∨ 0 < s.sendPauses then s else assign s.pendingOut s

/-- The members that have packets and nobody who hands them over. -/
def claimable (s : Sender) : List ℕ :=
  s.members.filter fun id =>
    (s.member id).isOpen && !(s.member id).flushing && decide ((s.member id).pending ≠ [])

def flushPending (s : Sender) : Sender :=
  if s.closed then s
  else
    let assigned := s.assignPending
    let claimed := assigned.claimable
    { assigned with
      member := fun id =>
        if id ∈ claimed then { assigned.member id with flushing := true } else assigned.member id
      tasks := assigned.tasks++claimed.map .flushMember }

/-- Takes the next packet of a member, or gives up the claim on it. -/
def flushMember (s : Sender) (id : ℕ) : Sender :=
  if s.closed ∨ (s.member id).isOpen = false then
    s.setMember id Member.unclaim
  else
    match (s.member id).pending with
    | [] => s.setMember id Member.unclaim
    | packet::rest => (s.setMember id (Member.keep rest)).schedule [.sending id packet]

/-- A packet that could not be sent goes back to the front of the queue. -/
def sendFailed (s : Sender) (id : ℕ) (packet : Bytes) : Sender :=
  ({ s with pendingOut := packet::s.pendingOut }.setMember id fun member =>
    { member with isOpen := false, flushing := false }).schedule [.dropMember id]

/-- The packets of a member that is lost go back to the front of the queue. -/
def dropMember (s : Sender) (id : ℕ) : Sender :=
  if id ∈ s.members then
    { s with
      members := s.members.erase id
      pendingOut := (s.member id).pending++s.pendingOut }.setMember id (Member.keep [])
  else s

/-! ### Calls -/

def send (s : Sender) (packet : Bytes) : Sender :=
  if s.closed then s
  else
    { s with
      nextSendSeq := s.nextSendSeq+1
      pendingOut := s.pendingOut++[encodeSequence s.nextSendSeq packet] }.schedule
      [.flushPending]

def onMemberOpen (s : Sender) (id : ℕ) : Sender :=
  if s.closed = false ∧ id ∈ s.members ∧ (s.member id).isOpen = false then
    (s.setMember id fun member => { member with isOpen := true }).schedule [.flushPending]
  else s

def addMember (s : Sender) : Sender :=
  if s.closed ∨ s.targetChannels ≤ s.members.length then s
  else
    { s with
      member := update s.member s.nextMemberId {}
      members := s.members++[s.nextMemberId]
      nextMemberId := s.nextMemberId+1 }

def pauseSends (s : Sender) : Sender := { s with sendPauses := s.sendPauses+1 }

def resumeSends (s : Sender) : Sender :=
  if s.sendPauses = 0 then s
  else if 0 < s.sendPauses-1 then { s with sendPauses := s.sendPauses-1 }
  else { s with sendPauses := s.sendPauses-1 }.schedule [.flushPending]

def close (s : Sender) : Sender :=
  if s.closed then s
  else
    { s with
      closed := true
      member := fun id =>
        if id ∈ s.members then (s.member id).keep [] else s.member id
      members := []
      pendingOut := [] }

/-- The next step of a call in progress. A send on a member succeeds or fails. -/
def perform (s : Sender) (succeeds : Bool) : Task → Sender
  | .flushPending => s.flushPending
  | .flushMember id => s.flushMember id
  | .sending id packet => s.schedule [if succeeds then .flushMember id else .failed id packet]
  | .failed id packet => s.sendFailed id packet
  | .dropMember id => s.dropMember id

end Sender

inductive Event
  | send (packet : Bytes)
  | memberOpen (id : ℕ)
  | memberLost (id : ℕ)
  | addMember
  | bufferedAmountLow
  | pauseSends
  | resumeSends
  | close
  | perform (task : Task) (succeeds : Bool)

def step (s : Sender) : Event → Sender
  | .send packet => s.send packet
  | .memberOpen id => s.onMemberOpen id
  | .memberLost id => s.schedule [.dropMember id]
  | .addMember => s.addMember
  | .bufferedAmountLow => s.schedule [.flushPending]
  | .pauseSends => s.pauseSends
  | .resumeSends => s.resumeSends
  | .close => s.close
  | .perform task succeeds =>
    if task ∈ s.tasks then { s with tasks := s.tasks.erase task }.perform succeeds task else s

def sentBy (targetChannels : ℕ) (events : List Event) : Sender :=
  Runs.after step { targetChannels } events

/-! ### What stays in the queue -/

variable {s : Sender} {id : ℕ}

namespace Sender

def HasOpen (s : Sender) : Prop := ∃ id ∈ s.members, (s.member id).isOpen = true

/-- The step puts packets back into the queue. -/
def Returns (s : Sender) : Event → Prop
  | .perform (.failed id packet) _ => .failed id packet ∈ s.tasks
  | .perform (.dropMember id) _ =>
    .dropMember id ∈ s.tasks ∧ id ∈ s.members ∧ (s.member id).pending ≠ []
  | _ => False

/-- The step assigns all the packets of the queue. -/
def Assigns (s : Sender) : Event → Prop
  | .perform .flushPending _ =>
    .flushPending ∈ s.tasks ∧ s.closed = false ∧ s.sendPauses = 0 ∧ s.HasOpen
  | _ => False

theorem isOpen_setMember (s : Sender) (id : ℕ) (f : Member → Member)
    (hf : ∀ member, (f member).isOpen = member.isOpen) (id' : ℕ) :
    ((s.setMember id f).member id').isOpen = (s.member id').isOpen := by
  by_cases hid : id' = id
  · subst hid
    simp [setMember,hf]
  · simp [setMember,hid]

theorem exists_turn (turn : ℕ) {count i : ℕ} (hi : i < count) :
    ∃ attempt < count, (turn+attempt)%count = i := by
  have hlt := Nat.mod_lt turn (Nat.zero_lt_of_lt hi)
  by_cases hle : turn%count ≤ i
  · refine ⟨i-turn%count,by omega,?_⟩
    rw [← Nat.mod_add_mod,Nat.add_sub_cancel' hle,Nat.mod_eq_of_lt hi]
  · refine ⟨i+count-turn%count,by omega,?_⟩
    have hsum : turn%count+(i+count-turn%count) = i+count := by omega
    rw [← Nat.mod_add_mod,hsum,Nat.add_mod_right,Nat.mod_eq_of_lt hi]

/-- An open member is found if there is one. -/
theorem choose_isSome (h : s.HasOpen) : s.choose.isSome := by
  obtain ⟨_,hmem,hopen⟩ := h
  obtain ⟨i,hi,hid⟩ := getElem_of_mem hmem
  obtain ⟨attempt,hatt,hturn⟩ := exists_turn s.roundRobin hi
  rw [choose,findSome?_isSome_iff]
  refine ⟨attempt,mem_range.mpr hatt,?_⟩
  rw [hturn,getElem?_eq_getElem hi,hid]
  simp [hopen]

theorem choose_eq_none (h : ¬s.HasOpen) : s.choose = none := by
  rw [choose,findSome?_eq_none_iff]
  intro attempt _
  cases hmbr : s.members[(s.roundRobin+attempt)%s.members.length]? with
  | none => rfl
  | some id =>
    have hcls : (s.member id).isOpen = false := by
      by_contra hopen
      exact h ⟨id,mem_of_getElem? hmbr,by simpa using hopen⟩
    simp [hcls]

/-- The same members are open, and nothing else has changed that a flush looks at. -/
structure SameMembers (s s' : Sender) : Prop where
  members : s'.members = s.members
  isOpen : ∀ id, (s'.member id).isOpen = (s.member id).isOpen
  sendPauses : s'.sendPauses = s.sendPauses
  closed : s'.closed = s.closed
  tasks : s'.tasks = s.tasks

theorem assign_spec (packets : List Bytes) (s : Sender) : SameMembers s (assign packets s) ∧
    (s.HasOpen → (assign packets s).pendingOut = []) := by
  induction packets generalizing s with
  | nil => exact ⟨⟨rfl,fun _ => rfl,rfl,rfl,rfl⟩,fun _ => rfl⟩
  | cons packet rest ih =>
    rw [assign]
    cases hchoose : s.choose with
    | none =>
      refine ⟨⟨rfl,fun _ => rfl,rfl,rfl,rfl⟩,fun hopen => ?_⟩
      have hsome := choose_isSome hopen
      simp [hchoose] at hsome
    | some chosen =>
      obtain ⟨id,turn⟩ := chosen
      obtain ⟨hsame,hemp⟩ := ih ({ s with roundRobin := turn }.setMember id (Member.assign packet))
      have hisOpen := isOpen_setMember { s with roundRobin := turn } id (Member.assign packet)
        fun _ => rfl
      refine ⟨{ hsame with isOpen := fun id' => (hsame.isOpen id').trans (hisOpen id') },fun hopen => hemp ?_⟩
      obtain ⟨id',hmem,hid'⟩ := hopen
      exact ⟨id',hmem,(hisOpen id').trans hid'⟩

theorem assign_of_not_hasOpen (h : ¬s.HasOpen) : (assign s.pendingOut s).pendingOut = s.pendingOut := by
  cases hpend : s.pendingOut with
  | nil => rfl
  | cons packet rest => simp [assign,choose_eq_none h]

/-- A flush empties the queue, unless sends are paused or no member is open. -/
theorem flushPending_spec (s : Sender) : s.flushPending.members = s.members ∧
    (∀ id, (s.flushPending.member id).isOpen = (s.member id).isOpen) ∧
    s.flushPending.sendPauses = s.sendPauses ∧ s.flushPending.closed = s.closed ∧
    (s.closed = false → s.sendPauses = 0 → s.HasOpen → s.flushPending.pendingOut = []) ∧
    (¬(s.closed = false ∧ s.sendPauses = 0 ∧ s.HasOpen) →
      s.flushPending.pendingOut = s.pendingOut) := by
  have hasgn : SameMembers s s.assignPending ∧
      (s.sendPauses = 0 → s.HasOpen → s.assignPending.pendingOut = []) ∧
      (¬(s.sendPauses = 0 ∧ s.HasOpen) → s.assignPending.pendingOut = s.pendingOut) := by
    rw [assignPending]
    split_ifs with hskip
    · refine ⟨⟨rfl,fun _ => rfl,rfl,rfl,rfl⟩,?_,fun _ => rfl⟩
      rintro hpauses ⟨id,hmem,-⟩
      rcases hskip with hnil | _
      · simp [hnil] at hmem
      · omega
    · obtain ⟨hsame,hemp⟩ := assign_spec s.pendingOut s
      refine ⟨hsame,fun _ => hemp,fun hnot => ?_⟩
      by_cases hopen : s.HasOpen
      · have hpauses : s.sendPauses = 0 := by
          omega
        exact absurd ⟨hpauses,hopen⟩ hnot
      · exact assign_of_not_hasOpen hopen
  obtain ⟨hsame,hemp,hkept⟩ := hasgn
  rw [flushPending]
  split_ifs with hcls
  · refine ⟨rfl,fun _ => rfl,rfl,rfl,fun hopen => ?_,fun _ => rfl⟩
    simp [hcls] at hopen
  refine ⟨hsame.members,fun id => ?_,hsame.sendPauses,hsame.closed,fun _ => hemp,fun hnot => ?_⟩
  · dsimp only
    split_ifs <;> exact hsame.isOpen id
  · exact hkept fun h => hnot ⟨by simpa using hcls,h⟩

/-! ### Steps -/

/-- Somebody will look at the queue, or has no reason to. -/
def Attended (s : Sender) : Prop := 0 < s.sendPauses ∨ ¬s.HasOpen ∨ .flushPending ∈ s.tasks

theorem attended_of_same {s' : Sender} (h : s.Attended) (hpauses : s'.sendPauses = s.sendPauses)
    (hopen : s'.HasOpen → s.HasOpen) (htasks : .flushPending ∈ s.tasks → .flushPending ∈ s'.tasks) :
    s'.Attended := by
  rcases h with h | h | h
  · exact .inl (hpauses ▸ h)
  · exact .inr (.inl fun h' => h (hopen h'))
  · exact .inr (.inr (htasks h))

/-- What a step can do to the queue: it adds to it, gives packets back to it, empties it, or leaves
it as it is. -/
structure QueueStep (s : Sender) (e : Event) (s' : Sender) : Prop where
  closed : s'.closed = false → s.closed = false
  returned : s.Returns e → s'.pendingOut ≠ []
  kept : s'.closed = false → s.pendingOut ≠ [] → ¬s.Assigns e → s'.pendingOut ≠ []
  attended : s'.closed = false → s'.pendingOut ≠ [] → s.Returns e ∨ s'.Attended ∨
    (s.pendingOut ≠ [] ∧ ¬s.Attended ∧ ¬s.Assigns e)

/-- Steps that do not touch the queue. -/
theorem queueStep_of_same {s' : Sender} {e : Event} (hcls : s'.closed = s.closed)
    (hpend : s'.pendingOut = s.pendingOut) (hret : ¬s.Returns e) (hasgn : ¬s.Assigns e)
    (hatt : s.Attended → s'.Attended) : QueueStep s e s' where
  closed h := hcls ▸ h
  returned h := absurd h hret
  kept _ h _ := by rwa [hpend]
  attended _ h := by
    rw [hpend] at h
    by_cases hs : s.Attended
    · exact .inr (.inl (hatt hs))
    · exact .inr (.inr ⟨h,hs,hasgn⟩)

theorem queueStep_flushPending (s : Sender) (succeeds : Bool) (htask : .flushPending ∈ s.tasks) :
    QueueStep s (.perform .flushPending succeeds)
      (flushPending { s with tasks := s.tasks.erase .flushPending }) := by
  obtain ⟨hmbr,hisOpen,hpauses,hcls,hemp,hkept⟩ :=
    flushPending_spec { s with tasks := s.tasks.erase .flushPending }
  refine ⟨fun h => hcls ▸ h,fun h => h.elim,?_,?_⟩
  · intro hc hpend hnot
    rw [hkept fun h => hnot ⟨htask,h⟩]
    exact hpend
  · intro hc hpend
    rw [hcls] at hc
    refine .inr (.inl ?_)
    by_cases hrdy : s.sendPauses = 0 ∧ s.HasOpen
    · exact absurd (hemp hc hrdy.1 hrdy.2) hpend
    rw [not_and_or] at hrdy
    rcases hrdy with hpaused | hnone
    · exact .inl (by rw [hpauses]; exact Nat.pos_of_ne_zero hpaused)
    refine .inr (.inl ?_)
    rintro ⟨id,hmem,hopen⟩
    rw [hmbr] at hmem
    rw [hisOpen] at hopen
    exact hnone ⟨id,hmem,hopen⟩

theorem queueStep_flushMember (s : Sender) (id : ℕ) (succeeds : Bool) :
    QueueStep s (.perform (.flushMember id) succeeds)
      (flushMember { s with tasks := s.tasks.erase (.flushMember id) } id) := by
  have hflush (h : .flushPending ∈ s.tasks) : .flushPending ∈ s.tasks.erase (.flushMember id) :=
    (mem_erase_of_ne (by simp)).mpr h
  have hopen (f : Member → Member) (hf : ∀ member, (f member).isOpen = member.isOpen)
      (h : (s.setMember id f).HasOpen) : s.HasOpen := by
    obtain ⟨id',hmem,hid'⟩ := h
    exact ⟨id',hmem,(isOpen_setMember s id f hf id').symm.trans hid'⟩
  rw [flushMember]
  have hstop : QueueStep s (.perform (.flushMember id) succeeds)
      (setMember { s with tasks := s.tasks.erase (.flushMember id) } id Member.unclaim) :=
    queueStep_of_same rfl rfl not_false not_false fun h =>
      attended_of_same h rfl (hopen Member.unclaim fun _ => rfl) hflush
  split_ifs
  · exact hstop
  split
  · exact hstop
  · exact queueStep_of_same rfl rfl not_false not_false
      fun h => attended_of_same h rfl (hopen (Member.keep _) fun _ => rfl)
        fun h => mem_append_left _ (hflush h)

theorem queueStep_dropMember (s : Sender) (id : ℕ) (succeeds : Bool)
    (htask : .dropMember id ∈ s.tasks) : QueueStep s (.perform (.dropMember id) succeeds)
      (dropMember { s with tasks := s.tasks.erase (.dropMember id) } id) := by
  have hflush (h : .flushPending ∈ s.tasks) : .flushPending ∈ s.tasks.erase (.dropMember id) :=
    (mem_erase_of_ne (by simp)).mpr h
  rw [dropMember]
  split_ifs with hmem
  · by_cases hpend : (s.member id).pending = []
    · refine queueStep_of_same rfl (by simp [setMember,hpend]) (fun h => h.2.2 hpend)
        (fun h => h.elim) fun h => attended_of_same h rfl ?_ hflush
      rintro ⟨id',hmem',hopen⟩
      rw [isOpen_setMember _ id (Member.keep []) fun _ => rfl] at hopen
      exact ⟨id',mem_of_mem_erase hmem',hopen⟩
    · have hne : (s.member id).pending++s.pendingOut ≠ [] := by simp [hpend]
      exact ⟨fun h => h,fun _ => hne,fun _ _ _ => hne,fun _ _ => .inl ⟨htask,hmem,hpend⟩⟩
  · exact queueStep_of_same rfl rfl (fun h => hmem h.2.1) (fun h => h.elim)
      fun h => attended_of_same h rfl (fun h => h) hflush

theorem queueStep_perform (s : Sender) (task : Task) (succeeds : Bool) (htask : task ∈ s.tasks) :
    QueueStep s (.perform task succeeds)
      ({ s with tasks := s.tasks.erase task }.perform succeeds task) := by
  cases task with
  | flushPending => exact queueStep_flushPending s succeeds htask
  | flushMember id => exact queueStep_flushMember s id succeeds
  | sending id packet =>
    refine queueStep_of_same rfl rfl not_false not_false
      fun h => attended_of_same h rfl (fun h => h) fun h => mem_append_left _ ?_
    exact (mem_erase_of_ne (by simp)).mpr h
  | failed id packet =>
    have hne : packet::s.pendingOut ≠ [] := by simp
    exact ⟨fun h => h,fun _ => hne,fun _ _ _ => hne,fun _ _ => .inl htask⟩
  | dropMember id => exact queueStep_dropMember s id succeeds htask

theorem queueStep (s : Sender) (e : Event) : QueueStep s e (step s e) := by
  have hsched {s' : Sender} {e : Event} (hcls : s'.closed = s.closed)
      (hret : ¬s.Returns e) (hkept : s.pendingOut ≠ [] → s'.pendingOut ≠ []) :
      QueueStep s e (s'.schedule [.flushPending]) :=
    ⟨fun h => hcls ▸ h,fun h => absurd h hret,fun _ h _ => hkept h,
      fun _ _ => .inr (.inl (.inr (.inr (mem_append_right _ (by simp)))))⟩
  have hself {e : Event} (hret : ¬s.Returns e) (hasgn : ¬s.Assigns e) : QueueStep s e s :=
    queueStep_of_same rfl rfl hret hasgn fun h => h
  cases e with
  | send packet =>
    rw [step,send]
    split_ifs
    · exact hself id id
    · exact hsched rfl id (by simp)
  | memberOpen id' =>
    rw [step,onMemberOpen]
    split_ifs
    · exact hsched rfl id fun h => h
    · exact hself id id
  | memberLost id' =>
    refine queueStep_of_same rfl rfl id id fun h => attended_of_same h rfl (fun h => h) fun h => ?_
    exact mem_append_left _ h
  | addMember =>
    rw [step,addMember]
    split_ifs
    · exact hself id id
    refine queueStep_of_same rfl rfl id id fun h => attended_of_same h rfl ?_ fun h => h
    rintro ⟨id',hmem,hopen⟩
    by_cases hid : id' = s.nextMemberId
    · simp [hid] at hopen
    · refine ⟨id',?_,by simpa [hid] using hopen⟩
      simpa [hid] using hmem
  | bufferedAmountLow => exact hsched rfl id fun h => h
  | pauseSends => exact queueStep_of_same rfl rfl id id fun _ => .inl (Nat.succ_pos _)
  | resumeSends =>
    rw [step,resumeSends]
    split_ifs with hzero hmore
    · exact hself id id
    · exact queueStep_of_same rfl rfl id id fun _ => .inl hmore
    · exact hsched rfl id fun h => h
  | close =>
    rw [step,close]
    split_ifs with hcls
    · exact hself id id
    refine ⟨fun h => ?_,False.elim,fun h => ?_,fun h => ?_⟩ <;> simp at h
  | perform task succeeds =>
    rw [step]
    split_ifs with htask
    · exact queueStep_perform s task succeeds htask
    · refine hself (mt ?_ htask) (mt ?_ htask) <;> cases task <;> simp_all [Returns,Assigns]

end Sender

/-- In an open channel, packets wait in the queue only until somebody looks at it, except for
packets that were put back and not assigned since. -/
theorem sentBy_queue (targetChannels : ℕ) (events : List Event)
    (hopen : (sentBy targetChannels events).closed = false) :
    (Runs.Since step Sender.Returns Sender.Assigns { targetChannels } events →
      (sentBy targetChannels events).pendingOut ≠ []) ∧
    ((sentBy targetChannels events).pendingOut ≠ [] →
      Runs.Since step Sender.Returns Sender.Assigns { targetChannels } events ∨
        (sentBy targetChannels events).Attended) := by
  induction events using List.reverseRecOn with
  | nil =>
    refine ⟨fun h => absurd h (Runs.not_since_nil _ _ _),fun h => ?_⟩
    exact absurd rfl h
  | append_singleton events e ih =>
    have hstep : sentBy targetChannels (events++[e]) = step (sentBy targetChannels events) e := by
      rw [sentBy,Runs.after_append]
      rfl
    rw [hstep] at hopen ⊢
    have hque := Sender.queueStep (sentBy targetChannels events) e
    obtain ⟨hreturned,hwait⟩ := ih (hque.closed hopen)
    rw [Runs.since_append_singleton]
    constructor
    · rintro (hret | ⟨hsince,hasgn⟩)
      · exact hque.returned hret
      · exact hque.kept hopen (hreturned hsince) hasgn
    · intro hpend
      rcases hque.attended hopen hpend with hret | hatt | ⟨hold,hnot,hasgn⟩
      · exact .inl (.inl hret)
      · exact .inr hatt
      · exact .inl (.inr ⟨(hwait hold).resolve_right hnot,hasgn⟩)

/-- When nothing is in progress on a channel that is neither closed nor paused and has an open
member, the queue is empty exactly if every packet that was put back, by a failed send or with a
lost member, has been followed by a flush that could assign it. -/
theorem queue_empty_iff (targetChannels : ℕ) (events : List Event)
    (hquiet : (sentBy targetChannels events).tasks = [])
    (hclosed : (sentBy targetChannels events).closed = false)
    (hpauses : (sentBy targetChannels events).sendPauses = 0)
    (hopen : (sentBy targetChannels events).HasOpen) :
    (sentBy targetChannels events).pendingOut = [] ↔
      ¬Runs.Since step Sender.Returns Sender.Assigns { targetChannels } events := by
  obtain ⟨hret,hwait⟩ := sentBy_queue targetChannels events hclosed
  constructor
  · intro hemp hsince
    exact hret hsince hemp
  · intro hsince
    by_contra hpend
    rcases hwait hpend with h | h | h | h
    · exact hsince h
    · omega
    · exact h hopen
    · simp [hquiet] at h

/-- Two members are open. The send on the first one fails. -/
def failedSend : List Event :=
  [.addMember,.addMember,.memberOpen 1,.memberOpen 2,.perform .flushPending true,
    .perform .flushPending true,.send [],.perform .flushPending true,
    .perform (.flushMember 1) true,.perform (.sending 1 (encodeSequence 0 [])) false,
    .perform (.failed 1 (encodeSequence 0 [])) true,.perform (.dropMember 1) true]

/-- The packet stays in the queue, although the other member is open and nothing is in progress. -/
theorem failedSend_strands : (sentBy 2 failedSend).tasks = [] ∧
    (sentBy 2 failedSend).closed = false ∧ (sentBy 2 failedSend).sendPauses = 0 ∧
    (sentBy 2 failedSend).HasOpen ∧
    (sentBy 2 failedSend).pendingOut = [encodeSequence 0 []] :=
  ⟨by decide,by decide,by decide,⟨2,by decide,by decide⟩,by decide⟩

/-- A later flush finds the packet and sends it. -/
def failedSendFlushed : List Event :=
  failedSend++[.bufferedAmountLow,.perform .flushPending true,.perform (.flushMember 2) true,
    .perform (.sending 2 (encodeSequence 0 [])) true,.perform (.flushMember 2) true]

theorem queue_empty_iff_flushed : (sentBy 2 failedSendFlushed).pendingOut = [] ∧
    ¬Runs.Since step Sender.Returns Sender.Assigns { targetChannels := 2 } failedSendFlushed := by
  have hemp : (sentBy 2 failedSendFlushed).pendingOut = [] := by decide
  exact ⟨hemp,(queue_empty_iff 2 failedSendFlushed (by decide) (by decide) (by decide)
    ⟨2,by decide,by decide⟩).mp hemp⟩

/-! ### Where the packets are -/

/-- The packet that a call in progress has in its hands. -/
def Task.hands : Task → List Bytes
  | .sending _ packet | .failed _ packet => [packet]
  | .flushPending | .flushMember _ | .dropMember _ => []

namespace Sender

def queued (s : Sender) : List Bytes := s.members.flatMap fun id => (s.member id).pending

def inHand (s : Sender) : List Bytes := s.tasks.flatMap Task.hands

/-- The packets that no member has accepted yet. -/
def held (s : Sender) : List Bytes := s.pendingOut++s.queued++s.inHand

def accepted (s : Sender) : Event → List Bytes
  | .perform (.sending id packet) true => if .sending id packet ∈ s.tasks then [packet] else []
  | _ => []

def issued (s : Sender) : Event → List Bytes
  | .send packet => if s.closed then [] else [encodeSequence s.nextSendSeq packet]
  | _ => []

/-- Only members have packets in a queue of their own. -/
structure Tidy (s : Sender) : Prop where
  nodup : s.members.Nodup
  fresh : ∀ id ∈ s.members, id < s.nextMemberId
  emptied : ∀ id ∉ s.members, (s.member id).pending = []

/-- All packets are kept, and those that are given too. -/
structure Keeps (s : Sender) (given : List Bytes) (s' : Sender) : Prop where
  tidy : s'.Tidy
  nextSendSeq : s'.nextSendSeq = s.nextSendSeq
  held : ∀ packet, s'.held.count packet = s.held.count packet+given.count packet

theorem Keeps.trans {given : List Bytes} {s₁ s₂ : Sender} (h₁ : Keeps s given s₁)
    (h₂ : Keeps s₁ [] s₂) : Keeps s given s₂ := ⟨h₂.tidy,h₂.nextSendSeq.trans h₁.nextSendSeq,
    fun packet => (h₂.held packet).trans (h₁.held packet)⟩

theorem count_held (s : Sender) (packet : Bytes) : s.held.count packet = s.pendingOut.count packet+
    (s.members.map fun id => (s.member id).pending.count packet).sum+s.inHand.count packet := by
  simp [held,queued,count_flatMap,comp_def,add_assoc]

theorem Tidy.keeps_same {s' : Sender} {given : List Bytes} (h : s.Tidy)
    (hmbr : s'.members = s.members) (hnextId : s'.nextMemberId = s.nextMemberId)
    (hpend : ∀ id, (s'.member id).pending = (s.member id).pending)
    (hnext : s'.nextSendSeq = s.nextSendSeq)
    (hrest : (s'.pendingOut++s'.inHand).Perm (s.pendingOut++s.inHand++given)) :
    Keeps s given s' := by
  refine ⟨⟨hmbr ▸ h.nodup,?_,?_⟩,hnext,fun packet => ?_⟩
  · rw [hmbr,hnextId]
    exact h.fresh
  · simpa only [hmbr,hpend] using h.emptied
  · have hcnt := hrest.count_eq packet
    simp only [count_held,hmbr,hpend,count_append] at hcnt ⊢
    omega

theorem Tidy.keeps_schedule (h : s.Tidy) (task : Task) : Keeps s task.hands (s.schedule [task]) :=
  h.keeps_same rfl rfl (fun _ => rfl) rfl (by simp [schedule,inHand])

theorem Tidy.keeps_setMember (h : s.Tidy) (id : ℕ) {f : Member → Member}
    (hf : ∀ member, (f member).pending = member.pending) : Keeps s [] (s.setMember id f) := by
  refine h.keeps_same rfl rfl (fun id' => ?_) rfl (by simp [inHand,setMember])
  by_cases hid : id' = id
  · subst hid
    simp [setMember,hf]
  · simp [setMember,hid]

theorem Tidy.setMember_spec (h : s.Tidy) (hid : id ∈ s.members) (f : Member → Member) :
    (s.setMember id f).Tidy ∧ ∀ packet,
      (s.members.map fun id' => ((s.setMember id f).member id').pending.count packet).sum+
        (s.member id).pending.count packet =
      (s.members.map fun id => (s.member id).pending.count packet).sum+
        (f (s.member id)).pending.count packet := by
  have hoth (id' : ℕ) (hne : id' ≠ id) : (s.setMember id f).member id' = s.member id' := by
    simp [setMember,hne]
  refine ⟨⟨h.nodup,h.fresh,fun id' hid' => ?_⟩,fun packet => ?_⟩
  · rw [hoth id' fun heq => hid' (heq ▸ hid)]
    exact h.emptied id' hid'
  · have hsum := sum_map_update h.nodup hid fun id' _ hne =>
      congrArg (fun member => member.pending.count packet) (hoth id' hne)
    simpa [setMember] using hsum

theorem choose_mem {turn : ℕ} (h : s.choose = some (id,turn)) : id ∈ s.members := by
  obtain ⟨_,-,hatt⟩ := exists_of_findSome?_eq_some h
  split at hatt
  · cases hatt
  · next hmbr =>
    split_ifs at hatt
    cases hatt
    exact mem_of_getElem? hmbr

theorem Tidy.keeps_assign (h : s.Tidy) (packets : List Bytes) :
    Keeps { s with pendingOut := packets } [] (assign packets s) := by
  induction packets generalizing s with
  | nil => exact ⟨{ h with },rfl,fun _ => rfl⟩
  | cons first rest ih =>
    rw [assign]
    cases hchoose : s.choose with
    | none => exact ⟨{ h with },rfl,fun _ => rfl⟩
    | some chosen =>
      obtain ⟨id,turn⟩ := chosen
      obtain ⟨hset,hqd⟩ := h.setMember_spec (choose_mem hchoose) (Member.assign first)
      obtain ⟨hasgn,hnext,hheld⟩ := @ih ({ s with roundRobin := turn }.setMember id _)
        { hset with }
      refine ⟨hasgn,hnext,fun packet => (hheld packet).trans ?_⟩
      have hpkt := hqd packet
      simp only [count_held,inHand,setMember,Member.assign,count_append,count_cons,
        count_nil] at hpkt ⊢
      omega

theorem Tidy.keeps_flushPending (h : s.Tidy) : Keeps s [] s.flushPending := by
  have hasgn : Keeps s [] s.assignPending := by
    rw [assignPending]
    split_ifs
    · exact ⟨h,rfl,fun _ => rfl⟩
    · exact h.keeps_assign s.pendingOut
  rw [flushPending]
  split_ifs
  · exact ⟨h,rfl,fun _ => rfl⟩
  refine hasgn.trans (hasgn.tidy.keeps_same rfl rfl (fun id => ?_) rfl ?_)
  · dsimp only
    split_ifs <;> rfl
  · have hclm : (s.assignPending.claimable.map Task.flushMember).flatMap Task.hands = [] := by
      simp [Task.hands]
    simp [inHand,hclm]

theorem Tidy.keeps_flushMember (h : s.Tidy) (id : ℕ) : Keeps s [] (s.flushMember id) := by
  have hstop : Keeps s [] (s.setMember id Member.unclaim) := h.keeps_setMember id fun _ => rfl
  rw [flushMember]
  split_ifs
  · exact hstop
  split
  · exact hstop
  next first rest hpend =>
    have hid : id ∈ s.members := by
      by_contra hid
      simp [h.emptied id hid] at hpend
    obtain ⟨htidy,hheld⟩ := h.setMember_spec hid (Member.keep rest)
    refine ⟨{ htidy with },rfl,fun packet => ?_⟩
    have hpkt := hheld packet
    simp [count_held,inHand,schedule,setMember,hpend,Member.keep,Task.hands,count_cons] at hpkt ⊢
    omega

theorem Tidy.keeps_dropMember (h : s.Tidy) (id : ℕ) : Keeps s [] (s.dropMember id) := by
  rw [dropMember]
  split_ifs with hid
  · obtain ⟨htidy,hqd⟩ := h.setMember_spec hid (Member.keep [])
    refine ⟨⟨h.nodup.erase id,?_,?_⟩,rfl,fun packet => ?_⟩
    · exact fun id' hid' => h.fresh id' (mem_of_mem_erase hid')
    · intro id' hid'
      by_cases heq : id' = id
      · simp [heq,setMember,Member.keep]
      · exact htidy.emptied id' fun hmem => hid' ((mem_erase_of_ne heq).mpr hmem)
    · have hpkt := hqd packet
      rw [← sum_map_erase _ hid] at hpkt
      simp [count_held,inHand,setMember,Member.keep] at hpkt ⊢
      omega
  · exact ⟨h,rfl,fun _ => rfl⟩

/-- A step only moves packets, but for the one it issues and the one that is accepted. -/
structure Moves (s : Sender) (e : Event) (s' : Sender) : Prop where
  tidy : s'.Tidy
  nextSendSeq : s'.nextSendSeq = s.nextSendSeq+UInt64.ofNat (s.issued e).length
  held : s'.closed = false → (s'.held++s.accepted e).Perm (s.held++s.issued e)

theorem Tidy.moves_perform (h : s.Tidy) {task : Task} (succeeds : Bool) (htask : task ∈ s.tasks) :
    Moves s (.perform task succeeds)
      ({ s with tasks := s.tasks.erase task }.perform succeeds task) := by
  have hleft : Tidy { s with tasks := s.tasks.erase task } := { h with }
  have hmov {given : List Bytes} {s' : Sender}
      (hkeeps : Keeps { s with tasks := s.tasks.erase task } given s')
      (hgiven : task.hands = given++s.accepted (.perform task succeeds)) :
      Moves s (.perform task succeeds) s' := by
    refine ⟨hkeeps.tidy,hkeeps.nextSendSeq.trans (UInt64.add_zero _).symm,fun _ => ?_⟩
    refine perm_iff_count.mpr fun packet => ?_
    have htak := ((perm_cons_erase htask).flatMap_right Task.hands).count_eq packet
    have hheld := hkeeps.held packet
    simp only [flatMap_cons,hgiven,count_held,inHand,issued,append_nil,count_append] at htak hheld ⊢
    omega
  cases task with
  | flushPending => exact hmov hleft.keeps_flushPending rfl
  | flushMember id => exact hmov (hleft.keeps_flushMember id) rfl
  | sending id packet =>
    cases succeeds with
    | false => exact hmov (hleft.keeps_schedule (.failed id packet)) rfl
    | true =>
      refine hmov (hleft.keeps_schedule (.flushMember id)) ?_
      simp [accepted,htask,Task.hands]
  | failed id packet =>
    have hput : Keeps _ [packet] { s with
        tasks := s.tasks.erase (.failed id packet)
        pendingOut := packet::s.pendingOut } :=
      hleft.keeps_same rfl rfl (fun _ => rfl) rfl (perm_append_singleton packet _).symm
    have hset := hput.trans (hput.tidy.keeps_setMember id
      (f := fun member => { member with isOpen := false, flushing := false }) fun _ => rfl)
    exact hmov (hset.trans (hset.tidy.keeps_schedule (.dropMember id))) rfl
  | dropMember id => exact hmov (hleft.keeps_dropMember id) rfl

theorem Tidy.moves (h : s.Tidy) (e : Event) : Moves s e (step s e) := by
  have hmov {s' : Sender} (hkeeps : Keeps s [] s') (hissued : s.issued e = [])
      (hacc : s.accepted e = []) : Moves s e s' := by
    refine ⟨hkeeps.tidy,by simp [hissued,hkeeps.nextSendSeq],fun _ => ?_⟩
    rw [hissued,hacc,append_nil,append_nil]
    exact perm_iff_count.mpr hkeeps.held
  have hself := hmov ⟨h,rfl,fun _ => rfl⟩
  cases e with
  | send packet =>
    rw [step,send]
    split_ifs with hcls
    · exact hself (by simp [issued,hcls]) rfl
    · refine ⟨{ h with },by simp [schedule,issued,hcls],fun _ => ?_⟩
      simp only [issued,hcls,accepted]
      refine perm_iff_count.mpr fun p => ?_
      simp [held,queued,inHand,schedule,Task.hands,count_cons]
      omega
  | memberOpen id =>
    rw [step,onMemberOpen]
    split_ifs
    · have hopened : Keeps s [] (s.setMember id fun member => { member with isOpen := true }) :=
        h.keeps_setMember id fun _ => rfl
      exact hmov (hopened.trans (hopened.tidy.keeps_schedule .flushPending)) rfl rfl
    · exact hself rfl rfl
  | memberLost id => exact hmov (h.keeps_schedule (.dropMember id)) rfl rfl
  | addMember =>
    rw [step,addMember]
    split_ifs
    · exact hself rfl rfl
    have hold (id : ℕ) (hid : id ∈ s.members) : id ≠ s.nextMemberId := (h.fresh id hid).ne
    refine hmov ⟨⟨?_,?_,?_⟩,rfl,fun packet => ?_⟩ rfl rfl
    · exact h.nodup.append (nodup_singleton _) (by simpa using fun hmem => hold _ hmem rfl)
    · intro id hid
      rcases mem_append.mp hid with hid | hid
      · exact Nat.lt_succ_of_lt (h.fresh id hid)
      · simp [mem_singleton.mp hid]
    · intro id hid
      by_cases heq : id = s.nextMemberId
      · simp [heq]
      · simpa [heq] using h.emptied id fun hmem => hid (mem_append_left _ hmem)
    · have hsame : s.members.flatMap (fun id =>
          (update s.member s.nextMemberId {} id).pending) = s.queued := by
        refine flatMap_congr fun id hid => ?_
        rw [update_of_ne (hold id hid)]
      simp [held,queued,hsame,inHand]
  | bufferedAmountLow => exact hmov (h.keeps_schedule .flushPending) rfl rfl
  | pauseSends => exact hmov ⟨{ h with },rfl,fun _ => rfl⟩ rfl rfl
  | resumeSends =>
    have hkeeps : Keeps s [] { s with sendPauses := s.sendPauses-1 } :=
      ⟨{ h with },rfl,fun _ => rfl⟩
    rw [step,resumeSends]
    split_ifs
    · exact hself rfl rfl
    · exact hmov hkeeps rfl rfl
    · exact hmov (hkeeps.trans (hkeeps.tidy.keeps_schedule .flushPending)) rfl rfl
  | close =>
    rw [step,close]
    split_ifs
    · exact hself rfl rfl
    refine ⟨⟨nodup_nil,by simp,fun id _ => ?_⟩,(UInt64.add_zero _).symm,
      fun hopen => by simp at hopen⟩
    dsimp only
    split_ifs with hid
    · rfl
    · exact h.emptied id hid
  | perform task succeeds =>
    rw [step]
    split_ifs with htask
    · exact h.moves_perform succeeds htask
    · refine hself rfl ?_
      rw [accepted.eq_def]
      split
      · next heq =>
        cases heq
        exact if_neg htask
      · rfl

end Sender

/-- The packets that members have accepted. -/
def handedOver (s : Sender) (events : List Event) : List Bytes :=
  (Runs.answers (fun s e => (s.accepted e,step s e)) s events).flatten

def Event.isSend : Event → Bool
  | .send _ => true
  | _ => false

theorem Sender.Tidy.run (h : s.Tidy) (events : List Event)
    (hopen : (Runs.after step s events).closed = false) :
    (((Runs.after step s events).held++handedOver s events).map decodeSequence).Perm
      (s.held.map decodeSequence++
        (List.range (events.countP Event.isSend)).map (s.nextSendSeq+UInt64.ofNat ·)) := by
  induction events generalizing s with
  | nil => simp [Runs.after,handedOver,Runs.answers]
  | cons e events ih =>
    have hmov := h.moves e
    have hstep : (step s e).closed = false := by
      by_contra hcls
      have hlast := Runs.after_invariant (I := fun s : Sender => ¬s.closed = false)
        (fun s e hs => mt (Sender.queueStep s e).closed hs) hcls events
      exact hlast hopen
    have hrest := ih hmov.tidy hopen
    have hmoved := (hmov.held hstep).map decodeSequence
    have hnumbers : (List.range ((e::events).countP Event.isSend)).map
        (s.nextSendSeq+UInt64.ofNat ·) = (s.issued e).map decodeSequence++
          (List.range (events.countP Event.isSend)).map ((step s e).nextSendSeq+UInt64.ofNat ·) := by
      rw [hmov.nextSendSeq]
      cases e with
      | send packet =>
        have hcls := (Sender.queueStep s _).closed hstep
        rw [countP_cons_of_pos rfl,range_succ_eq_map]
        simp [Sender.issued,hcls,decodeSequence_encodeSequence,comp_def,
          UInt64.add_assoc,UInt64.add_comm 1]
      | _ => simp [Event.isSend,Sender.issued]
    rw [hnumbers]
    refine perm_iff_count.mpr fun number => ?_
    have := hrest.count_eq number
    have := hmoved.count_eq number
    simp only [Runs.after,handedOver,Runs.answers,flatten_cons,map_append,count_append] at *
    omega

/-- As long as the channel is open, every number that was issued is in exactly one place: in the
queue, in the queue of a member, in the hands of a call, or with a member that accepted it. -/
theorem sentBy_conserves (targetChannels : ℕ) (events : List Event)
    (hopen : (sentBy targetChannels events).closed = false) :
    (((sentBy targetChannels events).held++handedOver { targetChannels } events).map
      decodeSequence).Perm ((List.range (events.countP Event.isSend)).map UInt64.ofNat) ∧
    (events.countP Event.isSend ≤ UInt64.size → ∀ i < events.countP Event.isSend,
      ((sentBy targetChannels events).pendingOut.map decodeSequence).count (UInt64.ofNat i)+
      ((sentBy targetChannels events).queued.map decodeSequence).count (UInt64.ofNat i)+
      ((sentBy targetChannels events).inHand.map decodeSequence).count (UInt64.ofNat i)+
      ((handedOver { targetChannels } events).map decodeSequence).count (UInt64.ofNat i) = 1) := by
  have htidy : Sender.Tidy { targetChannels } := ⟨nodup_nil,by simp,fun _ _ => rfl⟩
  have hperm := htidy.run events hopen
  simp only [UInt64.zero_add] at hperm
  refine ⟨hperm,fun hfew i hi => ?_⟩
  have hnd : ((List.range (events.countP Event.isSend)).map UInt64.ofNat).Nodup := by
    refine nodup_range.map_on fun a ha b hb heq => ?_
    rw [mem_range] at ha hb
    have hnat := congrArg UInt64.toNat heq
    rwa [UInt64.toNat_ofNat_of_lt' (by omega),UInt64.toNat_ofNat_of_lt' (by omega)] at hnat
  have hcnt := (hperm.count_eq (UInt64.ofNat i)).trans
    (count_eq_one_of_mem hnd (mem_map_of_mem (mem_range.mpr hi)))
  refine Eq.trans ?_ hcnt
  simp [Sender.held,sentBy,add_assoc]

theorem sentBy_conserves_failedSend :
    ((sentBy 2 failedSend).pendingOut.map decodeSequence).count 0+
      ((sentBy 2 failedSend).queued.map decodeSequence).count 0+
      ((sentBy 2 failedSend).inHand.map decodeSequence).count 0+
      ((handedOver { targetChannels := 2 } failedSend).map decodeSequence).count 0 = 1 :=
  (sentBy_conserves 2 failedSend (by decide)).2 (by decide) 0 (by decide)

end A11.Multiplexed
