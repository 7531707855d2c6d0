import A11.Runs
import A11.SqliteRefinement

/-! A `Get` on the SQLite store beside a `ClearData` of the same fragment. The row and the blob file
are two resources: the one call selects the row and then reads the file, the other commits the
tombstone and then unlinks the file. -/
namespace A11.SqliteChunkStore
open Runs

inductive RaceStep
  | select | readBlob
  | commit | unlink
  deriving DecidableEq

/-- Both calls in progress: the row that the `Get` has selected with the final sequence of its
snapshot, its answer, and the blob that the `ClearData` has freed. -/
structure Race where
  db : Database
  selected : Option (FragmentRow × Option UInt32) := none
  answer : Option (StatusOr NodeFragment) := none
  freed : Bytes := []

def raceStep (cfg : Config) (seq : UInt32) (r : Race) : RaceStep → Race
  | .select =>
    match loadNodeState cfg r.db.sql with
    | .error status => { r with answer := some (.error status) }
    | .ok st =>
      match selectSeq r.db.sql seq with
      | some row => { r with selected := some (row,st.finalSeq) }
      | none => { r with answer :=
          if st.closed then closedRead (some (st.status.getD .okStatus)) .sequence seq.toUInt64
          else none }
  | .readBlob =>
    match r.selected with
    | some (row,finalSeq) => { r with answer := some (decodeFragment cfg r.db row finalSeq) }
    | none => r
  | .commit =>
    match clearDataBody cfg r.db seq with
    | .error _ => r
    | .ok (_,sql,freed) => { r with db := { r.db with sql }, freed }
  | .unlink => { r with db := removeBlob r.db r.freed }

/-- Undisturbed, the steps are the two calls. -/
theorem raceStep_alone (cfg : Config) (db : Database) (seq : UInt32) :
    (after (raceStep cfg seq) { db } [.select,.readBlob]).answer =
        read cfg db .sequence seq.toUInt64 ∧
      (after (raceStep cfg seq) { db } [.commit,.unlink]).db = (clearData cfg db seq).2 := by
  constructor
  · simp only [after,raceStep,read,UInt32.toUInt32_toUInt64]
    cases loadNodeState cfg db.sql with
    | error status => rfl
    | ok st => cases selectSeq db.sql seq <;> rfl
  · simp only [after,raceStep,clearData]
    cases clearDataBody cfg db seq with
    | error status => simp [removeBlob]
    | ok cleared => rfl

variable {cfg : Config} {row : FragmentRow} {db : Database} {st : NodeState} {f : NodeFragment}

/-- The fragment itself, or what a clear leaves of it. -/
def WholeOrCleared (f : NodeFragment) (answer : Option (StatusOr NodeFragment)) : Prop :=
  ∃ c, f.data = .chunk c ∧
    (answer = some (.ok f) ∨ answer = some (.ok { f with data := .chunk c.tombstone }))

theorem decodeFragment_blob {finalSeq : Option UInt32} (hblob : row.storage = .blob)
    (hf : decodeFragment cfg db row finalSeq = .ok f) :
    ∃ c, f.data = .chunk c ∧ ∀ db', decodeFragment cfg db' (clearedRow row.seq row) finalSeq =
        .ok { f with data := .chunk c.tombstone } ∧
      (db'.blobs.lookup row.ref = none → ∀ g, decodeFragment cfg db' row finalSeq ≠ .ok g) := by
  have hmeta : decodeMetadata cfg (clearedRow row.seq row) = decodeMetadata cfg row := by
    simp [decodeMetadata,clearedRow]
  simp only [decodeFragment,decodePayload,decodeChunk,hblob] at hf ⊢
  rw [hmeta]
  cases hm : decodeMetadata cfg row with
  | error status => simp [hm] at hf
  | ok metadata =>
    cases hdata : readBlob cfg db row.ref with
    | error status => simp [hm,hdata] at hf
    | ok data =>
      obtain rfl : _ = f := by simpa [hm,hdata] using hf
      refine ⟨⟨metadata,[],data,none⟩,rfl,fun db' => ⟨?_,fun hnone => ?_⟩⟩
      · simp [clearedRow,Chunk.tombstone]
      · simp [readBlob,hnone]

/-- The commit changes the row and a counter. -/
theorem clearDataBody_blob {c : Chunk} (hst : loadNodeState cfg db.sql = .ok st)
    (hrow : selectSeq db.sql row.seq = some row) (hblob : row.storage = .blob)
    (hf : decodeFragment cfg db row st.finalSeq = .ok f) (hc : f.data = .chunk c) :
    ∃ sql bytes, clearDataBody cfg db row.seq = .ok (f,sql,row.ref) ∧
      loadNodeState cfg sql = .ok { st with dataBytes := bytes } ∧
      selectSeq sql row.seq = some (clearedRow row.seq row) := by
  have hbody := clearDataBody_eq hst hrow (by simp [hblob]) hf hc
  rw [if_pos hblob] at hbody
  refine ⟨_,st.dataBytes-c.data.length,hbody,?_,?_⟩
  · rw [loadNodeState_nodeRow] at hst ⊢
    rw [nodeRow_cleared]
    change (loadStatus cfg (nodeRow db.sql)).map _ = _
    cases hstat : loadStatus cfg (nodeRow db.sql) with
    | error status => simp [hstat,Except.map] at hst
    | ok status =>
      rw [hstat] at hst
      obtain rfl := Except.ok.inj hst
      rfl
  · rw [selectSeq] at hrow ⊢
    simp [clearedSql,updateNode,clearedRow_seq,hrow]

/-- Beside a `ClearData`, a `Get` of a fragment in a blob returns the fragment or what the clear
left of it, exactly if not both steps of the `ClearData` fall between its own two. -/
theorem race_answer_iff (cfg : Config) (db : Database) (seq : UInt32) {st : NodeState}
    {row : FragmentRow} {f : NodeFragment} (hst : loadNodeState cfg db.sql = .ok st)
    (hrow : selectSeq db.sql seq = some row) (hblob : row.storage = .blob) (hname : row.ref ≠ [])
    (hf : decodeFragment cfg db row st.finalSeq = .ok f) {steps : List RaceStep}
    (hsteps : steps ∈ interleavings [.select,.readBlob] [.commit,.unlink]) :
    WholeOrCleared f (after (raceStep cfg seq) { db } steps).answer ↔
      steps ≠ [.select,.commit,.unlink,.readBlob] := by
  obtain rfl : row.seq = seq := by simpa using List.find?_some hrow
  obtain ⟨c,hc,hdec⟩ := decodeFragment_blob hblob hf
  obtain ⟨sql,_,hbody,hst',hrow'⟩ := clearDataBody_blob hst hrow hblob hf hc
  have hkept (sql : Sql) : decodeFragment cfg { db with sql } row st.finalSeq = .ok f := hf
  have hgone : (removeBlob { db with sql } row.ref).blobs.lookup row.ref = none := by
    simp [removeBlob,hname]
  have hclr (db' : Database) := (hdec db').1
  simp only [interleavings,weave,List.map_cons,List.map_nil,List.cons_append,
    List.nil_append,List.mem_cons,List.not_mem_nil,or_false] at hsteps
  rcases hsteps with rfl | rfl | rfl | rfl | rfl | rfl <;>
    simp only [after,raceStep,hst,hrow,hbody,hkept,hst',hrow',hclr,removeBlob_sql]
  · exact iff_of_true ⟨c,hc,.inl rfl⟩ (by simp)
  · exact iff_of_true ⟨c,hc,.inl rfl⟩ (by simp)
  · refine iff_of_false ?_ (by simp)
    rintro ⟨_,-,hg | hg⟩ <;> exact (hdec _).2 hgone _ (Option.some.inj hg)
  all_goals exact iff_of_true ⟨c,hc,.inr rfl⟩ (by simp)

def raceConfig : Config :=
  let failed : Status := .dataLoss "unreadable"
  ⟨[110],"blobs",0,⟨fun _ => .error failed,fun _ => .error failed,fun _ => .error failed,
    fun _ => .error failed,fun _ => .error failed,fun _ => .error failed⟩,fun _ => [98]⟩

/-- A store with one payload of one byte, kept in a blob. -/
def raceDatabase : Database := (putMany raceConfig {} [{ data := .chunk { data := [1] } }]).2

theorem race_answer_whole : WholeOrCleared
    { id := [110], seq := some 0, data := .chunk { data := [1] }, continued := false }
    (after (raceStep raceConfig 0) { db := raceDatabase }
      [.select,.commit,.readBlob,.unlink]).answer :=
  (race_answer_iff raceConfig raceDatabase 0 rfl rfl rfl (by decide) rfl
    (by decide)).mpr (by decide)

/-- The file is gone when the `Get` opens it. -/
theorem race_answer_lost : (after (raceStep raceConfig 0) { db := raceDatabase }
    [.select,.commit,.unlink,.readBlob]).answer =
      some (.error (.dataLoss "Chunk store blob b is missing from blobs/b")) := by
  decide

end A11.SqliteChunkStore
