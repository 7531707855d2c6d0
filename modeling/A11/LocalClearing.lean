import A11.LocalInvariant

/-! What clearing leaves in the in-memory store. A chunk that holds only bytes becomes a
valid tombstone; a chunk that holds an in-process value keeps it next to the reference of
the tombstone, which its own check forbids. -/
namespace A11.LocalChunkStore

def create (nodeId : Bytes) : StatusOr State := do
  validateName nodeId
  return State.empty nodeId

/-- Every stored fragment, as a read returns it, passes its check. -/
def StoredValid (s : State) : Prop :=
  ∀ seq q, s.chunks.lookup seq = some q → (fragmentAt s seq q).validate = .ok ()

/-- The chunk stored under a sequence carries neither bytes nor a value. -/
def Bare (s : State) (seq : UInt32) : Prop :=
  ∃ c, s.chunks.lookup seq = some (.chunk c) ∧ c.data = [] ∧ c.object = none

/-- A clear is not made of a chunk that holds an in-process value. -/
def ClearsBytes (s : State) : Action → Prop
  | .clearData seq => ∀ q, s.chunks.lookup seq = some q → q.ObjectFree
  | _ => True

theorem Chunk.validate_tombstone {c : Chunk} (h : c.validate = .ok ()) :
    c.tombstone.validate = .ok () ↔ c.object = none := by
  obtain ⟨metadata,_,_,object⟩ := c
  cases object with
  | some value => simp [Chunk.validate,Chunk.tombstone,tombstoneReference]
  | none =>
    have hmeta := Chunk.validate_metadata h
    cases metadata with
    | none => simp [Chunk.validate,Chunk.tombstone]
    | some m => simpa [Chunk.validate,Chunk.tombstone] using hmeta m rfl

/-- The name of the store was checked when it was made, so only the payload counts. -/
theorem validate_fragmentAt {s : State} (hname : validateName s.nodeId = .ok ()) (seq : UInt32)
    (q : Payload) : (fragmentAt s seq q).validate = .ok () ↔ q.validate = .ok () := by
  constructor
  · exact NodeFragment.validate_eq_ok
  · intro hq
    unfold NodeFragment.validate
    split
    · exact StatusOr.check_bind_eq_ok.mpr ⟨hname,hq⟩
    · exact hq

theorem nodeId_act (s : State) (a : Action) : (act s a).nodeId = s.nodeId := by
  cases a with
  | putMany fragments =>
    obtain ⟨status,herr⟩ | ⟨p,-,hok⟩ := putMany_cases s fragments
    · rw [act,herr]
    · rw [act,hok]
      rfl
  | clearData seq =>
    obtain ⟨status,herr⟩ | ⟨c,-,hok⟩ := clearData_cases s seq
    · rw [act,herr]
    · rw [act,hok]
  | closeWritesWithStatus status flag =>
    obtain hsame | ⟨-,hcls⟩ := closeWritesWithStatus_cases s status flag
    · rw [act,hsame]
    · rw [act,hcls]
  | collectNext limit fragments => rfl

/-- The payloads of an accepted batch have passed their checks. -/
theorem Commits.valid {s : State} {fragments : List NodeFragment} {p : PutBatch.Plan}
    (h : Commits s fragments p) {seq : UInt32} {q : Payload}
    (hmem : (seq,q) ∈ p.assigned.zip (fragments.map fun f => f.data)) : q.validate = .ok () := by
  obtain ⟨e,hscan,-⟩ := h.accepts
  obtain ⟨f,hf,rfl⟩ := List.mem_map.mp (List.of_mem_zip hmem).2
  exact NodeFragment.validate_eq_ok ((PutBatch.scan_eq_ok.mp hscan).2.1 f hf)

theorem storedValid_congr {s t : State} (hcks : t.chunks = s.chunks)
    (hname : validateName s.nodeId = .ok ()) (hid : t.nodeId = s.nodeId) :
    StoredValid t ↔ StoredValid s := by
  have hname' : validateName t.nodeId = .ok () := by rw [hid,hname]
  simp [StoredValid,hcks,validate_fragmentAt hname,validate_fragmentAt hname']

theorem storedValid_act (s : State) (a : Action) (hname : validateName s.nodeId = .ok ())
    (hs : StoredValid s) : StoredValid (act s a) ↔ ClearsBytes s a := by
  have hid := nodeId_act s a
  have hname' : validateName (act s a).nodeId = .ok () := by rw [hid,hname]
  have hval := fun seq q h => (validate_fragmentAt hname seq q).mp (hs seq q h)
  cases a with
  | putMany fragments =>
    refine iff_of_true ?_ trivial
    intro seq q hq
    rw [validate_fragmentAt hname']
    obtain ⟨status,herr⟩ | ⟨p,hp,hok⟩ := putMany_cases s fragments
    · rw [act,herr] at hq
      exact hval seq q hq
    · rw [act,hok,hp.lookup_chunks] at hq
      exact hq.elim (hval seq q) hp.valid
  | closeWritesWithStatus status flag =>
    refine iff_of_true ((storedValid_congr ?_ hname hid).mpr hs) trivial
    obtain hsame | ⟨-,hcls⟩ := closeWritesWithStatus_cases s status flag
    · rw [act,hsame]
    · rw [act,hcls]
  | collectNext limit fragments =>
    exact iff_of_true ((storedValid_congr rfl hname hid).mpr hs) trivial
  | clearData seq =>
    simp only [StoredValid,validate_fragmentAt hname']
    rcases hlook : s.chunks.lookup seq with _ | (c | r)
    · have hact : act s (.clearData seq) = s := by simp [act,clearData,hlook]
      rw [hact]
      exact iff_of_true hval fun q hq => by simp [hlook] at hq
    · have hact : (act s (.clearData seq)).chunks = s.chunks.set seq (.chunk c.tombstone) := by
        simp [act,clearData,hlook]
      have hclears : ClearsBytes s (.clearData seq) ↔ c.object = none := by
        simp [ClearsBytes,hlook,Payload.ObjectFree]
      rw [hact,hclears,← Chunk.validate_tombstone (hval seq (.chunk c) hlook)]
      constructor
      · intro h
        exact h seq _ (by rw [Table.lookup_set,if_pos rfl])
      · intro htomb a q hq
        rw [Table.lookup_set] at hq
        split at hq
        · obtain rfl := Option.some.inj hq
          exact htomb
        · exact hval a q hq
    · have hact : act s (.clearData seq) = s := by simp [act,clearData,hlook]
      rw [hact]
      refine iff_of_true hval fun q hq => ?_
      obtain rfl := Option.some.inj (hlook.symm.trans hq)
      trivial

/-- A clear that succeeds leaves a chunk without bytes, and without a value if there was none. -/
theorem bare_clearData {s : State} {seq : UInt32} (hclears : ClearsBytes s (.clearData seq))
    {f : NodeFragment} (hok : (clearData s seq).1 = .ok f) : Bare (clearData s seq).2 seq := by
  obtain ⟨_,herr⟩ | ⟨c,hlook,hclr⟩ := clearData_cases s seq
  · rw [herr] at hok
    cases hok
  · rw [hclr]
    exact ⟨c.tombstone,by rw [Table.lookup_set,if_pos rfl],rfl,hclears _ hlook⟩

/-- Along a run of puts, clears, closes and reads, everything stored stays valid and every
clear really removes what was stored, exactly when no clear meets an in-process value. -/
theorem clearing_sound_iff {nodeId : Bytes} {s₀ : State} (hcreate : create nodeId = .ok s₀)
    (actions : List Action) :
    ((∀ done, done <+: actions → StoredValid (Runs.after act s₀ done)) ∧
      ∀ done seq later f, actions = done++.clearData seq::later →
        (clearData (Runs.after act s₀ done) seq).1 = .ok f →
        Bare (Runs.after act s₀ (done++[.clearData seq])) seq) ↔
      Runs.Along act ClearsBytes s₀ actions := by
  obtain ⟨hname,hemp⟩ := StatusOr.check_bind_eq_ok.mp hcreate
  obtain rfl := Except.ok.inj hemp
  have hkeep (s : State) (a : Action) (hs : validateName s.nodeId = .ok ()) :
      validateName (act s a).nodeId = .ok () := by rw [nodeId_act,hs]
  have hst : StoredValid (State.empty nodeId) := by
    intro seq q hq
    simp [State.empty] at hq
  have hiff := Runs.forall_after_iff_along hkeep storedValid_act (s := State.empty nodeId) hname
    hst actions
  rw [← hiff]
  refine ⟨And.left,fun hval => ⟨hval,?_⟩⟩
  intro done seq later f heq hok
  have hnext := hval (done++[.clearData seq]) ⟨later,by simp [heq]⟩
  rw [Runs.after_append] at hnext ⊢
  refine bare_clearData ((storedValid_act _ _ ?_ (hval done ⟨_,heq.symm⟩)).mp hnext) hok
  exact Runs.after_invariant hkeep (s := State.empty nodeId) hname done

def report : Bytes := [114]

def valueFragment : NodeFragment := { data := .chunk { object := some ⟨7⟩ } }
def bytesFragment : NodeFragment := { data := .chunk { data := [1] } }

theorem clearing_sound_bytes :
    create report = .ok (State.empty report) ∧
      StoredValid (Runs.after act (State.empty report) [.putMany [bytesFragment],.clearData 0]) := by
  have hcre : create report = .ok (State.empty report) := rfl
  refine ⟨hcre,((clearing_sound_iff hcre
    [.putMany [bytesFragment],.clearData 0]).mpr ?_).1 _ List.prefix_rfl⟩
  refine ⟨trivial,?_,trivial⟩
  have hlook : (act (State.empty report) (.putMany [bytesFragment])).chunks.lookup 0 =
      some bytesFragment.data := by decide
  intro q hq
  obtain rfl := Option.some.inj (hlook.symm.trans hq)
  rfl

/-- Clearing a chunk that holds a value succeeds, keeps the value, and leaves an invalid chunk. -/
theorem clearing_value_kept :
    let s := Runs.after act (State.empty report) [.putMany [valueFragment]]
    (clearData s 0).1 = .ok (fragmentAt s 0 valueFragment.data) ∧
      (clearData s 0).2.chunks.lookup 0 =
        some (.chunk { ref := tombstoneReference, object := some ⟨7⟩ }) ∧
      ¬StoredValid (clearData s 0).2 := by
  have hlook : (clearData (Runs.after act (State.empty report) [.putMany [valueFragment]])
      0).2.chunks.lookup 0 = some (.chunk { ref := tombstoneReference, object := some ⟨7⟩ }) := by
    decide
  refine ⟨by decide,hlook,fun hval => ?_⟩
  have hck := NodeFragment.validate_eq_ok (hval 0 _ hlook)
  cases hck

end A11.LocalChunkStore
