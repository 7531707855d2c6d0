import A11.Runs
import A11.SqliteRetry

/-! A `Next` call on the SQLite store as a loop of write transactions with waits in
between. Each transaction commits the shared cursor, while the fragments of earlier
rounds are only in the memory of the call. -/
namespace A11.SqliteChunkStore

open NextScan Runs

inductive Phase
  | ready
  | waiting
  | finished (result : StatusOr (List (Option NodeFragment)))
  deriving DecidableEq

def Phase.isFinished : Phase → Bool
  | .finished _ => true
  | _ => false

/-- One `Next` call on a shared database. -/
structure Call where
  db : Database
  phase : Phase := .ready
  fragments : List (Option NodeFragment) := []
  /-- How far the transactions of this call have moved the persisted cursor. -/
  advanced : ℕ := 0

inductive CallEvent
  /-- Anything done by others: their transactions, or the loss of a file. -/
  | other (change : Database → Database)
  | round
  /-- `RunWrite` gives up on the round: the database shuts down, or stays busy, and nothing is
  committed. -/
  | refused (status : Status)
  | expired

/-- The persisted cursor. -/
def cursorOf (db : Database) : ℕ := (db.sql.node.getD {}).nextCursor

/-- One transaction of the call and what the call does after it. -/
def runRound (cfg : Config) (limit : ℕ) (s : Call) : Call :=
  let (outcome,cursor) := nextRound cfg s.db limit s.fragments []
  let s' := { s with
    db := { s.db with sql := advanceCursor s.db.sql (cursorOf s.db) cursor }
    advanced := s.advanced+(cursor-cursorOf s.db) }
  match outcome with
  | .failed status => { s' with phase := .finished (.error status) }
  | .returned fragments => { s' with phase := .finished (.ok fragments) }
  | .waiting fragments => { s' with phase := .waiting, fragments := fragments }

def callStep (cfg : Config) (limit : ℕ) (s : Call) : CallEvent → Call
  | .other change => { s with db := change s.db }
  | .round => if s.phase.isFinished then s else runRound cfg limit s
  | .refused status =>
    if s.phase.isFinished then s else { s with phase := .finished (.error status) }
  | .expired =>
    if s.phase = .waiting then
      { s with phase := .finished (if s.fragments = [] then .error (.deadlineExceeded nextExpired)
        else .ok s.fragments) }
    else s

def startCall (limit : ℕ) (db : Database) : Call :=
  if limit = 0 then
    { db := db, phase := .finished (.error (.invalidArgument "limit must be positive")) }
  else { db := db }

/-- An error means that the call has left the cursor where it was. -/
def Lossless (s : Call) : Prop := ∀ status, s.phase = .finished (.error status) → s.advanced = 0

/-- The node row is readable, and the round meets no row it cannot decode. -/
def Readable (cfg : Config) (limit : ℕ) (db : Database) (fragments : List (Option NodeFragment)) :
    Prop :=
  ∃ st, loadNodeState cfg db.sql = .ok st ∧
    ∀ items status, ¬Fails (nextSource cfg db st) limit st.nextCursor fragments items status

/-- With fragments in hand, a round is not refused and finds its rows readable. -/
def Safe (cfg : Config) (limit : ℕ) (s : Call) : CallEvent → Prop
  | .round => s.phase.isFinished = false → s.fragments ≠ [] → Readable cfg limit s.db s.fragments
  | .refused _ => s.phase.isFinished = false → s.fragments = []
  | _ => True

theorem loadNodeState_nextCursor {cfg : Config} {sql : Sql} {st : NodeState}
    (h : loadNodeState cfg sql = .ok st) : st.nextCursor = (sql.node.getD {}).nextCursor := by
  unfold loadNodeState at h
  cases hnode : sql.node with
  | none =>
    rw [hnode] at h
    obtain rfl := Except.ok.inj h
    rfl
  | some row =>
    rw [hnode] at h
    obtain ⟨_,-,hst⟩ := StatusOr.bind_eq_ok.mp h
    obtain rfl := Except.ok.inj hst
    rfl

/-- A round whose transaction runs once. -/
theorem nextRound_nil {cfg : Config} {db : Database} {st : NodeState}
    (h : loadNodeState cfg db.sql = .ok st) (limit : ℕ) (fragments : List (Option NodeFragment)) :
    nextRound cfg db limit fragments [] =
      let p := (nextSource cfg db st).collect limit st.nextCursor fragments
      match p.ending with
      | .failed status => (.failed status,cursorOf db)
      | .terminal status => (.failed status,p.cursor)
      | .done => (.returned p.fragments,p.cursor)
      | .park => (.waiting p.fragments,p.cursor) := by
  have hrun : runWrite cfg db limit fragments [] =
      lastAttempt (nextSource cfg db st) limit st.nextCursor ⟨fragments,false,none⟩ := by
    simp [runWrite,leftOver,h]
  simp only [nextRound,hrun,lastAttempt,ranThrough,Captured.record]
  cases ((nextSource cfg db st).collect limit st.nextCursor fragments).ending <;> rfl

theorem nextRound_unreadable {cfg : Config} {db : Database} {status : Status}
    (h : loadNodeState cfg db.sql = .error status) (limit : ℕ)
    (fragments : List (Option NodeFragment)) :
    nextRound cfg db limit fragments [] = (.failed status,cursorOf db) := by
  simp [nextRound,runWrite,h,cursorOf]

variable (cfg : Config)

/-- A round fails without moving the cursor, returns, or waits with the fragments it
has moved the cursor past. With fragments in hand only unreadable rows make it fail. -/
theorem nextRound_cases (db : Database) (limit : ℕ) (fragments : List (Option NodeFragment)) :
    (∃ status, nextRound cfg db limit fragments [] = (.failed status,cursorOf db) ∧
      (fragments ≠ [] → ¬Readable cfg limit db fragments)) ∨
    (∃ fragments' cursor, nextRound cfg db limit fragments [] = (.returned fragments',cursor) ∧
      Readable cfg limit db fragments) ∨
    ∃ items : List NodeFragment, nextRound cfg db limit fragments [] =
      (.waiting (fragments++items.map some),cursorOf db+items.length) ∧
        Readable cfg limit db fragments := by
  cases hload : loadNodeState cfg db.sql with
  | error status =>
    refine .inl ⟨status,nextRound_unreadable hload limit fragments,fun _ ⟨st,hst,_⟩ => ?_⟩
    simp [hload] at hst
  | ok st =>
    have hst : st.nextCursor = cursorOf db := loadNodeState_nextCursor hload
    obtain ⟨items,hwalk,hcur,hends⟩ :=
      collect_spec (nextSource cfg db st) limit st.nextCursor fragments
    have hread : (∀ status, ((nextSource cfg db st).collect limit st.nextCursor fragments).ending ≠
        .failed status) → Readable cfg limit db fragments :=
      fun hne => ⟨st,hload,fun items status hfails =>
        hne status (collect_failed_iff.mpr ⟨items,hfails⟩)⟩
    rw [nextRound_nil hload]
    generalize hp : (nextSource cfg db st).collect limit st.nextCursor fragments = p
      at hcur hends hread
    cases hend : p.ending with
    | failed status =>
      refine .inl ⟨status,by simp [hend],fun _ ⟨st',hst',hnone⟩ => ?_⟩
      obtain rfl := Except.ok.inj (hload.symm.trans hst')
      obtain ⟨items,hfails⟩ := collect_failed_iff.mp (hp ▸ hend)
      exact hnone items status hfails
    | terminal status =>
      subst hp
      obtain ⟨-,hnil,hitems⟩ := collect_terminal hend
      obtain rfl := hitems items hwalk
      simp only [hend]
      exact .inl ⟨status,by rw [hcur,hst]; rfl,fun hne => absurd hnil hne⟩
    | done => exact .inr (.inl ⟨p.fragments,p.cursor,by simp [hend],hread (by simp [hend])⟩)
    | park =>
      refine .inr (.inr ⟨items,?_,hread (by simp [hend])⟩)
      simp [hend,hends.fragments_of_park hend,hcur,hst]

@[simp] theorem advanceCursor_self (sql : Sql) (cursor : ℕ) :
    advanceCursor sql cursor cursor = sql := by
  simp [advanceCursor]

/-- A call that is left alone is the `next` of a store without other clients. -/
theorem next_eq_call (db : Database) (limit : ℕ) :
    let s := after (callStep cfg limit) (startCall limit db) [.round,.expired]
    ∃ result, s.phase = .finished result ∧ s.db = (next cfg db limit).2 ∧
      (next cfg db limit).1.result = result.map .fragments := by
  intro s
  by_cases hlimit : limit = 0
  · refine ⟨.error (.invalidArgument "limit must be positive"),?_,?_,?_⟩ <;>
      simp [s,after,callStep,startCall,next,hlimit,Phase.isFinished,Reply.now]
  cases hload : loadNodeState cfg db.sql with
  | error status =>
    have hround := nextRound_unreadable hload limit []
    refine ⟨.error status,?_,?_,?_⟩ <;>
      simp [s,after,callStep,runRound,startCall,next,hlimit,Phase.isFinished,hround,hload,Reply.now]
  | ok st =>
    have hstart : cursorOf db = st.nextCursor := (loadNodeState_nextCursor hload).symm
    have hround := nextRound_nil hload limit []
    generalize hp : (nextSource cfg db st).collect limit st.nextCursor [] = p at hround
    cases hending : p.ending with
    | failed status | terminal status =>
      refine ⟨.error status,?_,?_,?_⟩ <;>
        simp [s,after,callStep,runRound,startCall,next,hlimit,Phase.isFinished,hround,hload,
          hp,hending,hstart,Reply.now]
    | done =>
      refine ⟨.ok p.fragments,?_,?_,?_⟩ <;>
        simp [s,after,callStep,runRound,startCall,next,hlimit,Phase.isFinished,hround,hload,
          hp,hending,hstart,Reply.now]
    | park =>
      refine ⟨if p.fragments = [] then .error (.deadlineExceeded nextExpired) else .ok p.fragments,
        ?_,?_,?_⟩
      · simp [s,after,callStep,runRound,startCall,hlimit,Phase.isFinished,hround,hending]
      · simp [s,after,callStep,runRound,startCall,next,hlimit,Phase.isFinished,hround,hload,
          hp,hending,hstart]
      · simp only [next,hload,hp,hending,Reply.expired]
        split_ifs <;> rfl

/-- Fragments in hand are fragments this call has moved the cursor past. -/
def Counted (s : Call) : Prop :=
  (s.phase.isFinished = false → s.advanced = s.fragments.length) ∧ Lossless s

variable (limit : ℕ)

theorem callStep_of_finished {s : Call} (h : s.phase.isFinished) (e : CallEvent) :
    (callStep cfg limit s e).phase = s.phase ∧ (callStep cfg limit s e).advanced = s.advanced := by
  cases e with
  | other change => exact ⟨rfl,rfl⟩
  | round | refused status => simp [callStep,h]
  | expired =>
    have hne : s.phase ≠ .waiting := by
      rintro hwait
      simp [hwait,Phase.isFinished] at h
    simp [callStep,hne]

theorem after_of_finished {s : Call} (h : s.phase.isFinished) (events : List CallEvent) :
    (after (callStep cfg limit) s events).phase = s.phase ∧
      (after (callStep cfg limit) s events).advanced = s.advanced := by
  induction events generalizing s with
  | nil => exact ⟨rfl,rfl⟩
  | cons e events ih =>
    obtain ⟨hph,hadv⟩ := callStep_of_finished cfg limit h e
    obtain ⟨hph',hadv'⟩ := ih (hph ▸ h)
    exact ⟨hph'.trans hph,hadv'.trans hadv⟩

/-- An error with fragments in hand has lost them. -/
theorem Counted.finish_error {s : Call} (h : Counted s) (hfin : s.phase.isFinished = false)
    (status : Status) : let t := { s with phase := .finished (.error status) }
    t.phase.isFinished ∧ (s.fragments = [] → Counted t) ∧ (s.fragments ≠ [] → ¬Lossless t) := by
  have hcnt := h.1 hfin
  refine ⟨rfl,fun hnil => ⟨by simp [Phase.isFinished],fun _ _ => by simp [hcnt,hnil]⟩,
    fun hne hloss => hne ?_⟩
  have hzero := hloss status rfl
  rwa [hcnt,List.length_eq_zero_iff] at hzero

/-- A step keeps the count, or fails with fragments in hand. -/
theorem counted_callStep {s : Call} (h : Counted s) (e : CallEvent) :
    (Safe cfg limit s e ∧ Counted (callStep cfg limit s e)) ∨
      ¬Safe cfg limit s e ∧ (callStep cfg limit s e).phase.isFinished ∧
        ¬Lossless (callStep cfg limit s e) := by
  cases e with
  | other change => exact .inl ⟨trivial,h⟩
  | expired =>
    refine .inl ⟨trivial,?_⟩
    by_cases hwait : s.phase = .waiting
    · have hcnt := h.1 (by simp [hwait,Phase.isFinished])
      simp only [callStep,hwait]
      refine ⟨by simp [Phase.isFinished],fun status hstat => ?_⟩
      by_cases hnil : s.fragments = []
      · simp [hcnt,hnil]
      · simp [hnil] at hstat
    · simpa [callStep,hwait] using h
  | refused status =>
    by_cases hfin : s.phase.isFinished
    · exact .inl ⟨by simp [Safe,hfin],by simpa [callStep,hfin] using h⟩
    rw [Bool.not_eq_true] at hfin
    obtain ⟨hdone,hkept,hlost⟩ := h.finish_error hfin status
    simp only [callStep,Safe,hfin]
    by_cases hnil : s.fragments = []
    · exact .inl ⟨fun _ => hnil,hkept hnil⟩
    · exact .inr ⟨fun hsafe => hnil (hsafe trivial),hdone,hlost hnil⟩
  | round =>
    by_cases hfin : s.phase.isFinished
    · exact .inl ⟨by simp [Safe,hfin],by simpa [callStep,hfin] using h⟩
    rw [Bool.not_eq_true] at hfin
    simp only [callStep,Safe,hfin]
    obtain ⟨status,hround,hun⟩ | ⟨_,_,hround,hread⟩ | ⟨_,hround,hread⟩ :=
      nextRound_cases cfg s.db limit s.fragments
    · have hrun : runRound cfg limit s = { s with phase := .finished (.error status) } := by
        simp [runRound,hround]
      obtain ⟨hdone,hkept,hlost⟩ := h.finish_error hfin status
      simp only [hrun]
      by_cases hnil : s.fragments = []
      · exact .inl ⟨fun _ hne => absurd hnil hne,hkept hnil⟩
      · exact .inr ⟨fun hsafe => hun hnil (hsafe trivial hnil),hdone,hlost hnil⟩
    · refine .inl ⟨fun _ _ => hread,?_⟩
      simp [runRound,hround,Counted,Lossless,Phase.isFinished]
    · refine .inl ⟨fun _ _ => hread,?_⟩
      simp [runRound,hround,Counted,Lossless,Phase.isFinished,h.1 hfin]

/-- Under every schedule a call that returns an error has left the cursor alone,
exactly when every round that begins with fragments in hand runs and finds its rows readable. -/
theorem next_lossless_iff (cfg : Config) (limit : ℕ) (db : Database) (events : List CallEvent) :
    Lossless (after (callStep cfg limit) (startCall limit db) events) ↔
      Runs.Along (callStep cfg limit) (Safe cfg limit) (startCall limit db) events := by
  have hmain : ∀ s, Counted s → (Lossless (after (callStep cfg limit) s events) ↔
      Runs.Along (callStep cfg limit) (Safe cfg limit) s events) := by
    induction events with
    | nil => exact fun s hs => iff_of_true hs.2 trivial
    | cons e events ih =>
      intro s hs
      obtain ⟨hsafe,hcnt⟩ | ⟨hviolated,hfin,hlossy⟩ := counted_callStep cfg limit hs e
      · exact (ih _ hcnt).trans ⟨fun h => ⟨hsafe,h⟩,fun h => h.2⟩
      · refine iff_of_false ?_ fun h => hviolated h.1
        obtain ⟨hph,hadv⟩ := after_of_finished cfg limit hfin events
        simpa only [after,Lossless,hph,hadv] using hlossy
  refine hmain _ ?_
  unfold startCall
  split_ifs <;> simp [Counted,Lossless,Phase.isFinished]

/-- The call takes the only fragment and waits; a fragment whose file is lost arrives,
and the call fails with the first fragment in hand. -/
theorem next_loses_fragment :
    let stored := (putMany exampleConfig {} [{ data := .chunk { data := [1] }, continued := true }]).2
    let arrives := fun db => (putMany exampleConfig db
      [{ data := .chunk { data := List.replicate 9 2 }, continued := true }]).2
    let s := after (callStep exampleConfig 2) (startCall 2 stored)
      [.round,.other arrives,.other fun db => { db with blobs := ∅ },.round]
    s.phase = .finished (.error (.dataLoss "Chunk store blob a is missing from blobs/a")) ∧
      s.advanced = 1 ∧ cursorOf s.db = 1 ∧ ¬Lossless s := by
  intro stored arrives s
  have hphase : s.phase =
      .finished (.error (.dataLoss "Chunk store blob a is missing from blobs/a")) := by
    decide
  have hadvanced : s.advanced = 1 := by decide
  have hcursor : cursorOf s.db = 1 := by decide
  refine ⟨hphase,hadvanced,hcursor,fun hlossless => ?_⟩
  have hzero := hlossless _ hphase
  omega

end A11.SqliteChunkStore
