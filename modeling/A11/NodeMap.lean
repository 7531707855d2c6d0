import A11.DataTypes
import A11.Runs

/-! The nodes of a map and the references it retains. A call takes its locked sections one at
a time, and between two of them other calls take theirs. -/
namespace A11
open Function Runs

structure NodeMap where
  nodes : Table Bytes ℕ := ∅
  retainedRefs : Table Bytes ℕ := ∅
  imported : Table (Bytes × Bytes) ℕ := ∅

namespace NodeMap

/-- What a call does in its next section. A node is named by its address. Its arguments have been
accepted, and what other maps answer comes with it. -/
inductive Call
  | get (id : Bytes)
  | create (id : Bytes)
  | getIfExists (id : Bytes)
  | resolve (id : Bytes)
  /-- The answer of the configured storage or of the resolver, if there is one. -/
  | resolveIn (storage id : Bytes) (elsewhere : Option (StatusOr ℕ))
  | insert (node : ℕ)
  /-- The source has resolved the reference to this node. -/
  | importReference (id : Bytes) (node : ℕ)
  | retain (id : Bytes) (node : ℕ)
  | importIn (storage id : Bytes) (node : ℕ)
  | discard (id : Bytes) (expected : Option ℕ)
  | done (result : StatusOr (Option ℕ))

def Call.starts : Call → Bool
  | .create _ | .retain .. | .done _ => false
  | _ => true

def find (m : NodeMap) (id : Bytes) : Option ℕ := (m.nodes.lookup id).or (m.retainedRefs.lookup id)

def insert (idOf : ℕ → StatusOr Bytes) (m : NodeMap) (node : ℕ) : StatusOr Unit × NodeMap :=
  match idOf node with
  | .error status => (.error status,m)
  | .ok id =>
    if (m.retainedRefs.lookup id).any (· ≠ node) then
      (.error (.alreadyExists "A different node has this referenced id"),m)
    else
      let nodes := m.nodes.emplace id node
      (if nodes.lookup id = some node then .ok ()
        else .error (.alreadyExists "A different node has this id"),{ m with nodes })

/-- One section of a call; `made` is what the factory has made for it. -/
def turn (idOf : ℕ → StatusOr Bytes) (m : NodeMap) (made : StatusOr ℕ) : Call → Call × NodeMap
  | .get id => (match m.find id with
      | some node => .done (.ok node)
      | none => .create id,m)
  | .create id => match made with
    | .error status => (.done (.error status),m)
    | .ok node =>
      let nodes := m.nodes.emplace id node
      (.done (.ok (nodes.lookup id)),{ m with nodes })
  | .getIfExists id => (.done (.ok (m.find id)),m)
  | .resolve id => (match m.retainedRefs.lookup id with
      | some node => .done (.ok node)
      | none => .get id,m)
  | .resolveIn storage id elsewhere => (.done (match elsewhere with
      | some answer => answer.map some
      | none => match m.imported.lookup (storage,id) with
        | some node => .ok node
        | none => .error (.notFound "Storage identity is not configured on this host")),m)
  | .insert node => (.done ((m.insert idOf node).1.map fun _ => none),(m.insert idOf node).2)
  | .importReference id node => (match (m.insert idOf node).1 with
      | .error status => .done (.error status)
      | .ok _ => .retain id node,(m.insert idOf node).2)
  | .retain id node =>
    let retainedRefs := m.retainedRefs.emplace id node
    (.done (if retainedRefs.lookup id = some node then .ok node
      else .error (.alreadyExists "A different node has this referenced id")),
      { m with retainedRefs })
  | .importIn storage id node =>
    let imported := m.imported.emplace (storage,id) node
    (.done (if imported.lookup (storage,id) = some node then .ok node
      else .error (.alreadyExists "A different node has this storage-qualified id")),
      { m with imported })
  | .discard id expected => match m.nodes.lookup id with
    | none => (.done (.ok none),m)
    | some node =>
      if expected.any (· ≠ node) then (.done (.ok none),m)
      else (.done (.ok node),{ m with nodes := m.nodes.erase id })
  | .done result => (.done result,m)

structure State where
  map : NodeMap := {}
  calls : ℕ → Call := fun _ => .done (.ok none)

/-- A caller that starts again leaves its last call where it is. -/
inductive Input
  | start (caller : ℕ) (call : Call)
  | run (caller : ℕ) (made : StatusOr ℕ)

def step (idOf : ℕ → StatusOr Bytes) (s : State) : Input → State
  | .start caller call => if call.starts then { s with calls := update s.calls caller call } else s
  | .run caller made =>
    let r := s.map.turn idOf made (s.calls caller)
    { map := r.2, calls := update s.calls caller r.1 }

/-! ### One node for an id -/

def Agree (s t : Table Bytes ℕ) : Prop :=
  ∀ id a b, s.lookup id = some a → t.lookup id = some b → a = b

/-- The second section of `Get`, where it publishes its node, finds no other node retained, and an
import, where it retains its node, finds no other node published. -/
def Guarded (s : State) : Input → Prop
  | .start _ _ => True
  | .run caller made => match s.calls caller,made with
    | .create id,.ok node => id ∉ s.map.nodes → ∀ b ∈ s.map.retainedRefs.lookup id, node = b
    | .retain id node,_ => id ∉ s.map.retainedRefs → ∀ a ∈ s.map.nodes.lookup id, node = a
    | _,_ => True

theorem Agree.symm {s t : Table Bytes ℕ} (h : Agree s t) : Agree t s :=
  fun id a b ha hb => (h id b a hb ha).symm

theorem Agree.emplace_iff {s t : Table Bytes ℕ} (h : Agree s t) (id : Bytes) (node : ℕ) :
    Agree (s.emplace id node) t ↔ (id ∉ s → ∀ b ∈ t.lookup id, node = b) := by
  constructor
  · intro hnew hid b hb
    exact hnew id node b (by simp [Table.lookup_emplace,Finmap.lookup_eq_none.mpr hid]) hb
  · intro hnode id' a b ha hb
    rw [Table.lookup_emplace,Option.or_eq_some_iff] at ha
    rcases ha with ha | ⟨hnone,ha⟩
    · exact h id' a b ha hb
    · split_ifs at ha with heq
      subst heq
      rw [← Option.some.inj ha]
      exact hnode (Finmap.lookup_eq_none.mp hnone) b hb

variable {m : NodeMap} (idOf : ℕ → StatusOr Bytes)

theorem agree_insert (h : Agree m.nodes m.retainedRefs) (node : ℕ) :
    Agree (m.insert idOf node).2.nodes (m.insert idOf node).2.retainedRefs := by
  unfold insert
  split
  · exact h
  split_ifs with hother
  · exact h
  refine (h.emplace_iff _ node).mpr fun _ b hb => ?_
  rw [Option.mem_def.mp hb] at hother
  exact (by simpa using hother : b = node).symm

theorem agree_run_iff {s : State} (h : Agree s.map.nodes s.map.retainedRefs) (caller : ℕ)
    (made : StatusOr ℕ) :
    Agree (step idOf s (.run caller made)).map.nodes (step idOf s (.run caller made)).map.retainedRefs ↔
      Guarded s (.run caller made) := by
  simp only [step,Guarded]
  cases hcall : s.calls caller with
  | create id =>
    cases made with
    | error status => exact iff_of_true h trivial
    | ok node => exact h.emplace_iff id node
  | retain id node =>
    refine ⟨fun hnew => (h.symm.emplace_iff id node).mp hnew.symm,fun hnode => ?_⟩
    exact ((h.symm.emplace_iff id node).mpr hnode).symm
  | insert node | importReference id node => exact iff_of_true (agree_insert idOf h node) trivial
  | discard id expected =>
    refine iff_of_true ?_ trivial
    simp only [turn]
    split
    · exact h
    split_ifs
    · exact h
    · intro id' a b ha hb
      rw [Table.lookup_erase] at ha
      split_ifs at ha
      exact h id' a b ha hb
  | _ => exact iff_of_true h trivial

/-- An id names one node in both tables, all along a run, exactly if every section that could
publish or retain a second node finds none. -/
theorem one_node_iff (idOf : ℕ → StatusOr Bytes) (inputs : List Input) :
    (∀ done, done <+: inputs → Agree (after (step idOf) {} done).map.nodes
        (after (step idOf) {} done).map.retainedRefs) ↔
      Along (step idOf) Guarded {} inputs := by
  refine forall_after_iff_along (I := fun _ => True)
    (Q := fun s : State => Agree s.map.nodes s.map.retainedRefs) (fun _ _ _ => trivial)
    (fun s a _ h => ?_) trivial (fun id a b ha => by simp at ha) inputs
  cases a with
  | start caller call =>
    refine iff_of_true ?_ trivial
    simp only [step]
    split_ifs <;> exact h
  | run caller made => exact agree_run_iff idOf h caller made

/-- A call misses the id, which then is imported and discarded, and publishes a second node. -/
def racingRun : List Input :=
  [.start 0 (.get [97]),.run 0 (.ok 2),.start 1 (.importReference [97] 1),.run 1 (.ok 0),
    .run 1 (.ok 0),.start 2 (.discard [97] none),.run 2 (.ok 0),.run 0 (.ok 2)]

theorem one_node_failing :
    (after (step fun _ => .ok [97]) {} racingRun).map.nodes.lookup [97] = some 2 ∧
      (after (step fun _ => .ok [97]) {} racingRun).map.retainedRefs.lookup [97] = some 1 := by
  decide

end NodeMap
end A11
