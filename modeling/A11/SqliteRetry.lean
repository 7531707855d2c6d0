import A11.SqliteChunkStore

/-! The write transaction of `Next` on the SQLite store and its retries. The body
captures the variables of the call by reference, and a transaction that meets a busy
error is rolled back and its body run again. -/
namespace A11.SqliteChunkStore

open NextScan List

/-! ### Attempts -/

/-- What the transaction body shares with the call around it. -/
structure Captured where
  fragments : List (Option NodeFragment)
  done : Bool := false
  terminal : Option Status := none
  deriving DecidableEq

/-- The statement at which an attempt meets a busy error. -/
inductive Abort
  | start
  | select (turn : ℕ)
  | commit
  deriving DecidableEq

/-- What the call does after a transaction. -/
inductive Round
  | failed (status : Status)
  | returned (fragments : List (Option NodeFragment))
  | waiting (fragments : List (Option NodeFragment))
  deriving DecidableEq

def Captured.record (c : Captured) (p : Pass) : Captured :=
  match p.ending with
  | .done => ⟨p.fragments,true,c.terminal⟩
  | .terminal status => ⟨p.fragments,true,some status⟩
  | .park | .failed _ => ⟨p.fragments,c.done,c.terminal⟩

def Captured.round (c : Captured) : Round :=
  match c.terminal with
  | some status => .failed status
  | none => if c.done then .returned c.fragments else .waiting c.fragments

section Attempts

variable (src : Source) (limit cursor : ℕ)

/-- The loop up to the `SELECT` of a given turn, or its end when it comes first. -/
def loopUntil : ℕ → ℕ → ℕ → List (Option NodeFragment) → List (Option NodeFragment) ⊕ Pass
  | 0, _, cursor, fragments => .inr ⟨.done,cursor,fragments++[none]⟩
  | fuel+1, turn, cursor, fragments =>
    if src.finalWasRead cursor then .inr (src.finish cursor fragments)
    else match turn with
      | 0 => .inl fragments
      | turn+1 =>
        match src.look limit cursor fragments with
        | .inl pass => .inr pass
        | .inr f => loopUntil fuel turn (cursor+1) (fragments++[some f])

/-- The body ran to its end. A failure other than a busy error is not retried. -/
def ranThrough (c : Captured) (p : Pass) : StatusOr Captured :=
  match p.ending with
  | .failed status => .error status
  | _ => .ok (c.record p)

/-- An attempt that is rolled back; what it left in the captured variables stays. -/
def abortedAttempt (c : Captured) : Abort → StatusOr Captured
  | .start => .ok c
  | .select turn =>
    match loopUntil src limit (uint32Range-cursor) turn cursor c.fragments with
    | .inl fragments => .ok { c with fragments := fragments }
    | .inr p => ranThrough c p
  | .commit => ranThrough c (src.collect limit cursor c.fragments)

def lastAttempt (c : Captured) : StatusOr (Captured × ℕ) :=
  let p := src.collect limit cursor c.fragments
  (ranThrough c p).map fun c' => (c',p.cursor)

end Attempts

variable (cfg : Config)

/-- The captured variables when the attempt that commits begins. -/
def leftOver (db : Database) (limit : ℕ) (fragments : List (Option NodeFragment))
    (aborts : List Abort) : StatusOr Captured := do
  let st ← loadNodeState cfg db.sql
  aborts.foldlM (abortedAttempt (nextSource cfg db st) limit st.nextCursor) ⟨fragments,false,none⟩

/-- The transaction, retried after each of the aborts, and the cursor it commits. -/
def runWrite (db : Database) (limit : ℕ) (fragments : List (Option NodeFragment))
    (aborts : List Abort) : StatusOr (Captured × ℕ) := do
  let st ← loadNodeState cfg db.sql
  let c ← leftOver cfg db limit fragments aborts
  lastAttempt (nextSource cfg db st) limit st.nextCursor c

/-- One round of a `Next` call and the cursor the database holds after it. -/
def nextRound (db : Database) (limit : ℕ) (fragments : List (Option NodeFragment))
    (aborts : List Abort) : Round × ℕ :=
  match runWrite cfg db limit fragments aborts with
  | .error status => (.failed status,(db.sql.node.getD {}).nextCursor)
  | .ok (c,cursor) => (c.round,cursor)

/-! ### What a retry changes -/

section Retry

variable {src : Source} {limit cursor : ℕ}

theorem loopUntil_cases (src : Source) (limit turn cursor : ℕ)
    (fragments : List (Option NodeFragment)) : (∃ items, Walk src limit cursor fragments items ∧
      items.length = turn ∧ src.finalWasRead (cursor+turn) = false ∧ cursor+turn < uint32Range ∧
      loopUntil src limit (uint32Range-cursor) turn cursor fragments =
        .inl (fragments++items.map some)) ∨
    ((src.collect limit cursor fragments).cursor < cursor+turn ∨
        src.finalWasRead (src.collect limit cursor fragments).cursor ∨
        uint32Range ≤ (src.collect limit cursor fragments).cursor) ∧
      loopUntil src limit (uint32Range-cursor) turn cursor fragments =
        .inr (src.collect limit cursor fragments) := by
  generalize hfuel : uint32Range-cursor = fuel
  induction fuel generalizing turn cursor fragments with
  | zero =>
    rw [collect_of_ge (by omega)]
    exact .inr ⟨.inr (.inr (by simp; omega)),rfl⟩
  | succ fuel ih =>
    rw [collect_of_lt (by omega)]
    by_cases hread : src.finalWasRead cursor
    · rw [look_of_over fragments (.inl hread)]
      refine .inr ⟨.inr (.inl (by simpa only [finish_cursor] using hread)),?_⟩
      cases turn <;> rw [loopUntil,if_pos hread]
    cases turn with
    | zero => exact .inl ⟨[],Walk.nil,rfl,by simpa using hread,by omega,by simp [loopUntil,hread]⟩
    | succ turn =>
      rw [loopUntil,if_neg hread]
      cases hlook : src.look limit cursor fragments with
      | inl pass => exact .inr ⟨.inl (by simp [look_inl_cursor hlook]),rfl⟩
      | inr f =>
        have hadd : cursor+1+turn = cursor+(turn+1) := by omega
        obtain ⟨items,hwalk,hlen,hunr,hlt,hloop⟩ | ⟨hend,hloop⟩ :=
          ih turn (cursor+1) (fragments++[some f]) (by omega)
        · rw [hadd] at hunr hlt
          exact .inl ⟨f::items,Walk.cons_iff.mpr ⟨by omega,hlook,hwalk⟩,by simp [hlen],hunr,hlt,
            by simpa using hloop⟩
        · exact .inr ⟨hadd ▸ hend,hloop⟩

theorem Captured.record_record (c : Captured) (p : Pass) : (c.record p).record p = c.record p := by
  unfold Captured.record
  cases p.ending <;> rfl

theorem Captured.record_fragments (c : Captured) (p : Pass) : (c.record p).fragments = p.fragments := by
  unfold Captured.record
  cases p.ending <;> rfl

theorem Captured.record_terminal (c : Captured) {p : Pass} (h : ∀ status, p.ending ≠ .terminal status) :
    (c.record p).terminal = c.terminal := by
  unfold Captured.record
  cases hend : p.ending with
  | terminal status => exact absurd hend (h status)
  | done | park | failed => rfl

theorem ranThrough_eq {c : Captured} {p : Pass} (h : ∀ status, p.ending ≠ .failed status) :
    ranThrough c p = .ok (c.record p) := by
  unfold ranThrough
  cases hend : p.ending with
  | failed status => exact absurd hend (h status)
  | done | park | terminal => rfl

/-- The aborted attempts left no trace that the attempt to come would not leave itself. -/
structure Untouched (src : Source) (limit cursor : ℕ) (fragments : List (Option NodeFragment))
    (c : Captured) : Prop where
  same : c.fragments = fragments
  record : c.record (src.collect limit cursor fragments) =
    (⟨fragments,false,none⟩ : Captured).record (src.collect limit cursor fragments)

/-- The aborted attempts left fragments behind. -/
structure Spoiled (src : Source) (limit cursor : ℕ) (fragments : List (Option NodeFragment))
    (c : Captured) : Prop where
  left : ∃ extra, extra ≠ [] ∧ c.fragments = fragments++extra
  terminal : c.terminal = none
  bounded : c.fragments.length ≤ limit ∨ Dry src cursor

variable {fragments : List (Option NodeFragment)} {c : Captured}

theorem Untouched.terminal (h : Untouched src limit cursor fragments c)
    (hend : ∀ status, (src.collect limit cursor fragments).ending ≠ .terminal status) :
    c.terminal = none := by
  have hrec := congrArg Captured.terminal h.record
  rwa [c.record_terminal hend,Captured.record_terminal _ hend] at hrec

/-- A pass adds its fragments behind those it was given. -/
theorem collect_extends (src : Source) (limit cursor : ℕ) (fragments : List (Option NodeFragment)) :
    let p := src.collect limit cursor fragments
    ∃ extra, p.fragments = fragments++extra ∧
      (Exhausted src p.cursor → cursor+extra.length = p.cursor+1) ∧
      (¬Exhausted src p.cursor → cursor+extra.length = p.cursor) := by
  intro p
  obtain ⟨items,-,hcur,hends⟩ := collect_spec src limit cursor fragments
  by_cases hexh : Exhausted src p.cursor
  · refine ⟨items.map some++[none],?_,fun _ => ?_,absurd hexh⟩
    · rw [hends.fragments_eq.1 hexh,append_assoc]
    · simp [p,hcur,Nat.add_assoc]
  · exact ⟨items.map some,hends.fragments_eq.2 hexh,fun h => absurd h hexh,by simp [p,hcur]⟩

/-- The attempt stops before its first row and before the sentinel. -/
def Abort.Early (src : Source) (cursor : ℕ) : Abort → Prop
  | .start => True
  | .select turn => turn = 0 ∧ src.finalWasRead cursor = false ∧ cursor < uint32Range
  | .commit => False

/-- There is nothing at the cursor, neither a row nor the end of a clean stream. -/
def Idle (src : Source) (cursor : ℕ) : Prop :=
  cursor < uint32Range ∧ if src.finalWasRead cursor then src.failure ≠ none
    else src.row (UInt32.ofNat cursor) = none ∧ (src.closed → src.failure ≠ none)

/-- The rows that attempts take before one of them comes to a row with `k` others before it. -/
def spent (k : ℕ) : List Abort → ℕ
  | [] => 0
  | .start::aborts => spent k aborts
  | .select turn::aborts => if turn ≤ k then turn+spent k aborts else 0
  | .commit::_ => 0

/-- Every attempt stops early or finds nothing, or a row that cannot be decoded is met with room
for the rows before it. -/
def Unharmed (src : Source) (limit cursor : ℕ) (fragments : List (Option NodeFragment))
    (aborts : List Abort) : Prop :=
  (∀ a ∈ aborts, a.Early src cursor ∨ Idle src cursor) ∨ ∃ items status,
    Fails src limit cursor fragments items status ∧
      fragments.length+spent items.length aborts+items.length < limit

theorem Idle.walk_nil (h : Idle src cursor) {items : List NodeFragment}
    (hwalk : Walk src limit cursor fragments items) : items = [] := by
  by_contra hne
  have hpos := length_pos_iff.mpr hne
  have hrow := hwalk.rows 0 _ (getElem?_eq_getElem hpos)
  have hunr := hwalk.unread 0 hpos
  rw [Nat.add_zero] at hrow hunr
  have hidle := h.2
  simp [hunr,hrow] at hidle

/-- A pass leaves the fragments alone exactly when there is nothing to take. -/
theorem collect_same_iff (hroom : fragments.length ≠ limit)
    (hfail : ∀ status, (src.collect limit cursor fragments).ending ≠ .failed status) :
    (src.collect limit cursor fragments).fragments = fragments ↔ Idle src cursor := by
  obtain ⟨extra,hfrag,hexh,hlive⟩ := collect_extends src limit cursor fragments
  obtain ⟨items,hwalk,hcur,-⟩ := collect_spec src limit cursor fragments
  have hnil : (src.collect limit cursor fragments).fragments = fragments ↔ extra = [] := by
    rw [hfrag]; simp
  rw [hnil]
  constructor
  · rintro rfl
    have hnot : ¬Exhausted src (src.collect limit cursor fragments).cursor := fun h => by
      have := hexh h
      simp at this
      omega
    have heq := (hlive hnot).symm
    rw [length_nil,Nat.add_zero] at heq
    rw [heq] at hnot
    simp only [Exhausted,not_or,not_le,not_and] at hnot
    obtain ⟨hlt,hover⟩ := hnot
    refine ⟨hlt,?_⟩
    split_ifs with hread
    · exact fun hnone => (hover hnone).1 hread
    rw [collect_of_lt hlt] at hfail heq
    cases hrow : src.row (UInt32.ofNat cursor) with
    | none => exact ⟨rfl,fun hclosed hnone => (hover hnone).2 hrow hclosed⟩
    | some row =>
      cases row with
      | error status => exact absurd (by simp [Source.look,hread,hrow,hroom]) (hfail status)
      | ok f =>
        obtain ⟨items,-,hitems,-⟩ := collect_spec src limit (cursor+1) (fragments++[some f])
        simp only [Source.look,hread,hrow,hroom] at heq
        simp at heq
        omega
  · rintro ⟨hlt,hidle⟩
    rw [hcur,Idle.walk_nil ⟨hlt,hidle⟩ hwalk,length_nil,Nat.add_zero] at hexh hlive
    by_cases hover : Exhausted src cursor
    · obtain hge | ⟨hnone,hover⟩ := hover
      · omega
      · split_ifs at hidle with hread
        · exact absurd hnone hidle
        · exact absurd hnone (hidle.2 (hover.resolve_left hread).2)
    · exact length_eq_zero_iff.mp (by have := hlive hover; omega)

/-- A pass that leaves the fragments as they are is the one a retry repeats. -/
theorem Untouched.ranThrough (h : Untouched src limit cursor fragments c)
    (hroom : fragments.length < limit)
    (hfail : ∀ status, (src.collect limit cursor fragments).ending ≠ .failed status) :
    Idle src cursor ∧
      Untouched src limit cursor fragments (c.record (src.collect limit cursor fragments)) ∨
    ¬Idle src cursor ∧
      Spoiled src limit cursor fragments (c.record (src.collect limit cursor fragments)) := by
  have hsame := collect_same_iff hroom.ne hfail
  by_cases hidle : Idle src cursor
  · exact .inl ⟨hidle,by rw [Captured.record_fragments,hsame.mpr hidle],by
      rw [Captured.record_record,h.record]⟩
  have hend : ∀ status, (src.collect limit cursor fragments).ending ≠ .terminal status :=
    fun status hterm => hidle (hsame.mp (collect_terminal hterm).1)
  obtain ⟨extra,hfrag,-⟩ := collect_extends src limit cursor fragments
  refine .inr ⟨hidle,⟨extra,fun hnil => hidle (hsame.mp (by rw [hfrag,hnil,append_nil])),?_⟩,?_,?_⟩
  · rw [Captured.record_fragments,hfrag]
  · rw [c.record_terminal hend,h.terminal hend]
  · rw [Captured.record_fragments]
    exact collect_length_le hroom.le

theorem Spoiled.ranThrough (h : Spoiled src limit cursor fragments c) :
    Spoiled src limit cursor fragments (c.record (src.collect limit cursor c.fragments)) := by
  obtain ⟨extra,hextra,hleft⟩ := h.left
  obtain ⟨more,hfrag,-⟩ := collect_extends src limit cursor c.fragments
  refine ⟨⟨extra++more,by simp [hextra],?_⟩,?_,?_⟩
  · rw [Captured.record_fragments,hfrag,hleft,append_assoc]
  · rw [c.record_terminal fun status hterm => ?_,h.terminal]
    have hnil := (collect_terminal hterm).2.1
    simp [hleft,hextra] at hnil
  · rw [Captured.record_fragments]
    exact h.bounded.elim collect_length_le .inr

variable {status : Status} {c' : Captured}

theorem ranThrough_eq_ok {p : Pass} (h : ranThrough c p = .ok c') :
    (∀ status, p.ending ≠ .failed status) ∧ c' = c.record p := by
  have hok : ∀ status, p.ending ≠ .failed status := fun status hend => by
    simp [ranThrough,hend] at h
  rw [ranThrough_eq hok] at h
  exact ⟨hok,(Except.ok.inj h).symm⟩

/-- An attempt that is rolled back stops at the `SELECT` of a turn or runs through. -/
theorem abortedAttempt_eq_ok {a : Abort} (h : abortedAttempt src limit cursor c a = .ok c') :
    (a.Early src cursor ∧ c' = c) ∨
    (∃ items turn, a = .select turn ∧ Walk src limit cursor c.fragments items ∧ items ≠ [] ∧
      items.length = turn ∧ c' = { c with fragments := c.fragments++items.map some }) ∨
    ¬a.Early src cursor ∧ ranThrough c (src.collect limit cursor c.fragments) = .ok c' := by
  cases a with
  | start => exact .inl ⟨trivial,(Except.ok.inj h).symm⟩
  | commit => exact .inr (.inr ⟨id,h⟩)
  | select turn =>
    rw [abortedAttempt] at h
    obtain ⟨items,hwalk,hlen,hunr,hlt,hloop⟩ | ⟨hend,hloop⟩ :=
      loopUntil_cases src limit turn cursor c.fragments <;> rw [hloop] at h
    · obtain rfl := Except.ok.inj h
      by_cases hnil : items = []
      · subst hnil hlen
        exact .inl ⟨⟨rfl,hunr,hlt⟩,by simp⟩
      · exact .inr (.inl ⟨items,turn,rfl,hwalk,hnil,hlen,rfl⟩)
    · refine .inr (.inr ⟨?_,h⟩)
      rintro ⟨rfl,hunr,hlt⟩
      obtain ⟨n,hn⟩ : ∃ n, uint32Range-cursor = n+1 := ⟨uint32Range-cursor-1,by omega⟩
      simp [hn,loopUntil,hunr] at hloop

theorem Untouched.aborted (h : Untouched src limit cursor fragments c)
    (hroom : fragments.length < limit) {a : Abort}
    (hok : abortedAttempt src limit cursor c a = .ok c') :
    (a.Early src cursor ∨ Idle src cursor) ∧ Untouched src limit cursor fragments c' ∨
      ¬(a.Early src cursor ∨ Idle src cursor) ∧ Spoiled src limit cursor fragments c' := by
  obtain ⟨hearly,rfl⟩ | ⟨items,turn,rfl,hwalk,hnil,hlen,rfl⟩ | ⟨hnot,hthrough⟩ :=
    abortedAttempt_eq_ok hok
  · exact .inl ⟨.inl hearly,h⟩
  · obtain rfl := h.same
    refine .inr ⟨?_,⟨items.map some,by simp [hnil],rfl⟩,h.terminal fun status hterm => ?_,?_⟩
    · rintro (⟨rfl,-⟩ | hidle)
      · exact hnil (length_eq_zero_iff.mp hlen)
      · exact hnil (hidle.walk_nil hwalk)
    · exact hnil ((collect_terminal hterm).2.2 items hwalk)
    · exact .inl (by simpa using hwalk.length_le hroom.le)
  · obtain ⟨hfail,rfl⟩ := ranThrough_eq_ok hthrough
    rw [h.same] at hfail ⊢
    simpa [hnot] using h.ranThrough hroom hfail

theorem Spoiled.aborted (h : Spoiled src limit cursor fragments c) {a : Abort}
    (hok : abortedAttempt src limit cursor c a = .ok c') :
    Spoiled src limit cursor fragments c' := by
  obtain ⟨-,rfl⟩ | ⟨items,turn,rfl,hwalk,-,-,rfl⟩ | ⟨-,hthrough⟩ := abortedAttempt_eq_ok hok
  · exact h
  · obtain ⟨extra,hextra,hleft⟩ := h.left
    refine ⟨⟨extra++items.map some,by simp [hextra],by simp [hleft]⟩,h.terminal,?_⟩
    exact h.bounded.imp_left fun hle => by simpa using hwalk.length_le hle
  · obtain ⟨-,rfl⟩ := ranThrough_eq_ok hthrough
    exact h.ranThrough

/-- What the aborted attempts leave behind. -/
def Left (src : Source) (limit cursor : ℕ) (fragments : List (Option NodeFragment))
    (c : Captured) : Prop :=
  Untouched src limit cursor fragments c ∨ Spoiled src limit cursor fragments c

theorem foldlM_aborted {aborts : List Abort} (hroom : fragments.length < limit)
    (hok : aborts.foldlM (abortedAttempt src limit cursor) c = .ok c') :
    (Untouched src limit cursor fragments c →
      (∀ a ∈ aborts, a.Early src cursor ∨ Idle src cursor) ∧
        Untouched src limit cursor fragments c' ∨
      (¬∀ a ∈ aborts, a.Early src cursor ∨ Idle src cursor) ∧
        Spoiled src limit cursor fragments c') ∧
    (Spoiled src limit cursor fragments c → Spoiled src limit cursor fragments c') := by
  induction aborts generalizing c with
  | nil =>
    obtain rfl := Except.ok.inj hok
    exact ⟨fun h => .inl ⟨by simp,h⟩,id⟩
  | cons a aborts ih =>
    rw [foldlM_cons] at hok
    obtain ⟨c₁,hstep,hok⟩ := StatusOr.bind_eq_ok.mp hok
    obtain ⟨hunt,hspoiled⟩ := ih hok
    refine ⟨fun h => ?_,fun h => hspoiled (h.aborted hstep)⟩
    rw [forall_mem_cons]
    obtain ⟨hearly,h⟩ | ⟨hnot,h⟩ := h.aborted hroom hstep
    · simpa [hearly] using hunt h
    · exact .inr ⟨fun hall => hnot hall.1,hspoiled h⟩

/-- A pass meets a row that cannot be decoded exactly when the single run meets it and there is
room for the rows before it. -/
theorem Left.fails_iff (h : Left src limit cursor fragments c) (hroom : fragments.length < limit)
    {items : List NodeFragment} : Fails src limit cursor c.fragments items status ↔
      Fails src limit cursor fragments items status ∧ c.fragments.length+items.length < limit := by
  have hle : fragments.length ≤ c.fragments.length := by
    obtain h | h := h
    · rw [h.same]
    · obtain ⟨extra,-,hleft⟩ := h.left
      simp [hleft]
  have hbounded : c.fragments.length ≤ limit ∨ Dry src cursor :=
    h.elim (fun h => .inl (h.same ▸ hroom.le)) Spoiled.bounded
  constructor
  · intro hfails
    have hlim := hbounded.resolve_right fun hdry => hdry.not_fails hfails
    obtain ⟨hwalk,hlt,hread,hrow,_⟩ := hfails
    have hlen := hwalk.length_le hlim
    refine ⟨⟨{ hwalk with room := fun i hi => ?_ },hlt,hread,hrow,?_⟩,?_⟩ <;> omega
  · rintro ⟨⟨hwalk,hlt,hread,hrow,-⟩,hlen⟩
    exact ⟨{ hwalk with room := fun i hi => by omega },hlt,hread,hrow,by omega⟩

theorem Left.aborted (h : Left src limit cursor fragments c) (hroom : fragments.length < limit)
    {a : Abort} (hok : abortedAttempt src limit cursor c a = .ok c') :
    Left src limit cursor fragments c' :=
  h.elim (fun h => (h.aborted hroom hok).imp And.right And.right) fun h => .inr (h.aborted hok)

/-- An attempt that goes on leaves as much room for the row as the count says. -/
theorem Left.room_iff (h : Left src limit cursor fragments c) (hroom : fragments.length < limit)
    {a : Abort} (hok : abortedAttempt src limit cursor c a = .ok c') {items : List NodeFragment}
    (hfails : Fails src limit cursor fragments items status) (aborts : List Abort) :
    c.fragments.length+spent items.length (a::aborts)+items.length < limit ↔
      c'.fragments.length+spent items.length aborts+items.length < limit := by
  obtain ⟨hearly,rfl⟩ | ⟨taken,turn,rfl,hwalk,-,hlen,rfl⟩ | ⟨hnot,hthrough⟩ := abortedAttempt_eq_ok hok
  · cases a with
    | start => rfl
    | select turn =>
      rw [hearly.1,spent,if_pos (Nat.zero_le _)]
      omega
    | commit => exact hearly.elim
  · have hturn : turn ≤ items.length := by
      by_contra hgt
      have hrow := hwalk.rows items.length _ (getElem?_eq_getElem (by omega))
      cases hfails.2.2.2.1.symm.trans hrow
    rw [spent,if_pos hturn,length_append,length_map]
    omega
  · obtain ⟨hend,rfl⟩ := ranThrough_eq_ok hthrough
    have hfull : ¬c.fragments.length+items.length < limit := fun hlt =>
      hend status (collect_failed_iff.mpr ⟨items,(h.fails_iff hroom).mpr ⟨hfails,hlt⟩⟩)
    obtain ⟨extra,hfrag,-⟩ := collect_extends src limit cursor c.fragments
    rw [Captured.record_fragments,hfrag,length_append]
    omega

theorem spent_of_error {a : Abort} (h : abortedAttempt src limit cursor c a = .error status)
    (aborts : List Abort) : ∃ items, Fails src limit cursor c.fragments items status ∧
      spent items.length (a::aborts) = 0 := by
  have hthrough (h : ranThrough c (src.collect limit cursor c.fragments) = .error status) :
      ∃ items, Fails src limit cursor c.fragments items status := by
    refine collect_failed_iff.mp ?_
    unfold ranThrough at h
    split at h <;> cases h
    assumption
  cases a with
  | start => cases h
  | commit =>
    obtain ⟨items,hfails⟩ := hthrough h
    exact ⟨items,hfails,rfl⟩
  | select turn =>
    rw [abortedAttempt] at h
    obtain ⟨items,-,-,-,-,hloop⟩ | ⟨hend,hloop⟩ :=
      loopUntil_cases src limit turn cursor c.fragments <;> rw [hloop] at h
    · cases h
    obtain ⟨items,hfails⟩ := hthrough h
    rw [hfails.collect_eq] at hend
    have hread := hfails.2.2.1
    have hlt := hfails.2.1
    simp only [hread,Bool.false_eq_true,false_or] at hend
    exact ⟨items,hfails,if_neg (by omega)⟩

theorem lastAttempt_eq_error : lastAttempt src limit cursor c = .error status ↔
      (src.collect limit cursor c.fragments).ending = .failed status := by
  unfold lastAttempt ranThrough
  cases hend : (src.collect limit cursor c.fragments).ending <;> simp [hend,Except.map]

/-- The transaction fails exactly when one of its attempts meets a row that cannot be decoded. -/
theorem retried_error_iff (hroom : fragments.length < limit) (aborts : List Abort)
    (h : Left src limit cursor fragments c) :
    (aborts.foldlM (abortedAttempt src limit cursor) c >>= lastAttempt src limit cursor) =
      .error status ↔ ∃ items, Fails src limit cursor fragments items status ∧
        c.fragments.length+spent items.length aborts+items.length < limit := by
  induction aborts generalizing c with
  | nil =>
    refine lastAttempt_eq_error.trans (collect_failed_iff.trans (exists_congr fun items => ?_))
    exact h.fails_iff hroom
  | cons a aborts ih =>
    rw [foldlM_cons]
    cases hatt : abortedAttempt src limit cursor c a with
    | error failed =>
      obtain ⟨items,hfails,hzero⟩ := spent_of_error hatt aborts
      constructor
      · intro herr
        obtain rfl := Except.error.inj herr
        obtain ⟨hsingle,hlen⟩ := (h.fails_iff hroom).mp hfails
        exact ⟨items,hsingle,by omega⟩
      · rintro ⟨items',hsingle,hlen⟩
        have hfails' := (h.fails_iff hroom).mpr ⟨hsingle,by omega⟩
        have heq := congrArg Pass.ending (hfails.collect_eq.symm.trans hfails'.collect_eq)
        exact congrArg Except.error (Ending.failed.inj heq)
    | ok c' =>
      refine (ih (h.aborted hroom hatt)).trans (exists_congr fun items => and_congr_right fun hfails => ?_)
      exact (h.room_iff hroom hatt hfails aborts).symm

theorem Untouched.lastAttempt (h : Untouched src limit cursor fragments c) :
    lastAttempt src limit cursor c = lastAttempt src limit cursor ⟨fragments,false,none⟩ := by
  have hthr : A11.SqliteChunkStore.ranThrough c (src.collect limit cursor fragments) =
      A11.SqliteChunkStore.ranThrough ⟨fragments,false,none⟩ (src.collect limit cursor fragments) := by
    unfold A11.SqliteChunkStore.ranThrough
    cases (src.collect limit cursor fragments).ending <;> simp [h.record]
  rw [A11.SqliteChunkStore.lastAttempt,h.same,hthr]
  rfl

theorem Captured.round_fragments {c c' : Captured} (h : c.terminal = none)
    (heq : c.round = c'.round) : c.fragments = c'.fragments := by
  unfold Captured.round at heq
  rw [h] at heq
  cases hterm : c'.terminal with
  | some status =>
    rw [hterm] at heq
    split_ifs at heq
  | none =>
    rw [hterm] at heq
    split_ifs at heq <;> simpa using heq

theorem Captured.round_ne_failed {c : Captured} (h : c.terminal = none) :
    c.round ≠ .failed status := by
  unfold Captured.round
  rw [h]
  split_ifs <;> simp

theorem lastAttempt_eq_ok {c' : Captured} {k : ℕ}
    (h : lastAttempt src limit cursor c = .ok (c',k)) :
    (∀ status, (src.collect limit cursor c.fragments).ending ≠ .failed status) ∧
      c' = c.record (src.collect limit cursor c.fragments) ∧
      k = (src.collect limit cursor c.fragments).cursor := by
  have hok : ∀ status, (src.collect limit cursor c.fragments).ending ≠ .failed status := by
    intro status hfail
    simp [lastAttempt,ranThrough,hfail,Except.map] at h
  rw [lastAttempt,ranThrough_eq hok] at h
  simp only [Except.map,Except.ok.injEq,Prod.mk.injEq] at h
  exact ⟨hok,h.1.symm,h.2.symm⟩

/-- Fragments left behind are returned on top of what the single run returns, or stop
the cursor short of where the single run moves it. -/
theorem Spoiled.lastAttempt_ne (h : Spoiled src limit cursor fragments c) {c₀ c₁ : Captured}
    {k₀ k₁ : ℕ} (hsingle : lastAttempt src limit cursor ⟨fragments,false,none⟩ = .ok (c₀,k₀))
    (hretry : lastAttempt src limit cursor c = .ok (c₁,k₁)) : (c₁.round,k₁) ≠ (c₀.round,k₀) := by
  obtain ⟨-,rfl,rfl⟩ := lastAttempt_eq_ok hsingle
  obtain ⟨-,rfl,rfl⟩ := lastAttempt_eq_ok hretry
  obtain ⟨_,hextra,hleft⟩ := h.left
  intro heq
  obtain ⟨hround,hcur⟩ := Prod.mk.injEq .. ▸ heq
  have hfrag := Captured.round_fragments h.ranThrough.terminal hround
  rw [Captured.record_fragments,Captured.record_fragments] at hfrag
  obtain ⟨_,hfrag₀,hexh₀,hlive₀⟩ := collect_extends src limit cursor fragments
  obtain ⟨_,hfrag₁,hexh₁,hlive₁⟩ := collect_extends src limit cursor c.fragments
  have hpos := length_pos_of_ne_nil hextra
  rw [hfrag₀,hfrag₁,hleft] at hfrag
  have hlen := congrArg List.length hfrag
  simp only [length_append] at hlen
  dsimp only at hcur
  rw [hcur] at hexh₁ hlive₁
  by_cases hexh : Exhausted src (src.collect limit cursor fragments).cursor
  · have h₀ := hexh₀ hexh
    have h₁ := hexh₁ hexh
    omega
  · have h₀ := hlive₀ hexh
    have h₁ := hlive₁ hexh
    omega

end Retry

variable {cfg : Config}

/-- A retried transaction has the outcome of a single run exactly when its aborts do no harm to
the state in which it begins. -/
theorem nextRound_retry_iff (db : Database) {limit : ℕ} {fragments : List (Option NodeFragment)}
    (aborts : List Abort) (hroom : fragments.length < limit) :
    nextRound cfg db limit fragments aborts = nextRound cfg db limit fragments [] ↔
      ∀ st, loadNodeState cfg db.sql = .ok st →
        Unharmed (nextSource cfg db st) limit st.nextCursor fragments aborts := by
  cases hload : loadNodeState cfg db.sql with
  | error status => simp [nextRound,runWrite,hload]
  | ok st =>
    simp only [Except.ok.injEq,forall_eq']
    generalize hsrc : nextSource cfg db st = src
    have hrun (aborts : List Abort) : runWrite cfg db limit fragments aborts = (aborts.foldlM
        (abortedAttempt src limit st.nextCursor) ⟨fragments,false,none⟩ >>=
          lastAttempt src limit st.nextCursor) := by
      simp [runWrite,leftOver,hload,hsrc]
    have hst : Untouched src limit st.nextCursor fragments ⟨fragments,false,none⟩ := ⟨rfl,rfl⟩
    have herror (aborts : List Abort) (status : Status) :
        runWrite cfg db limit fragments aborts = .error status ↔ ∃ items,
          Fails src limit st.nextCursor fragments items status ∧
            fragments.length+spent items.length aborts+items.length < limit := by
      rw [hrun]
      exact retried_error_iff hroom aborts (.inl hst)
    by_cases hfail : ∃ status, runWrite cfg db limit fragments aborts = .error status
    · obtain ⟨status,hfail⟩ := hfail
      obtain ⟨items,hfails,hlen⟩ := (herror aborts status).mp hfail
      have hsingle := (herror [] status).mpr ⟨items,hfails,by rw [spent]; omega⟩
      refine iff_of_true ?_ (.inr ⟨items,status,hfails,hlen⟩)
      simp [nextRound,hfail,hsingle]
    have hnot : ¬∃ items status, Fails src limit st.nextCursor fragments items status ∧
        fragments.length+spent items.length aborts+items.length < limit :=
      fun ⟨items,status,h⟩ => hfail ⟨status,(herror aborts status).mpr ⟨items,h⟩⟩
    rw [Unharmed,or_iff_left hnot]
    cases hretry : runWrite cfg db limit fragments aborts with
    | error status => exact absurd ⟨status,hretry⟩ hfail
    | ok result =>
      obtain ⟨c₁,k₁⟩ := result
      obtain ⟨c,hleft,hlast⟩ := StatusOr.bind_eq_ok.mp (hrun aborts ▸ hretry)
      have hsingle := hrun []
      change _ = lastAttempt src limit st.nextCursor ⟨fragments,false,none⟩ at hsingle
      obtain ⟨hall,hunt⟩ | ⟨hnall,hspoiled⟩ := (foldlM_aborted hroom hleft).1 hst
      · refine iff_of_true ?_ hall
        rw [nextRound,nextRound,hretry,hsingle,← hunt.lastAttempt,hlast]
      · refine iff_of_false (fun heq => ?_) hnall
        simp only [nextRound,hretry,hsingle] at heq
        cases hfirst : lastAttempt src limit st.nextCursor ⟨fragments,false,none⟩ with
        | error status =>
          obtain ⟨-,rfl,-⟩ := lastAttempt_eq_ok hlast
          rw [hfirst] at heq
          exact Captured.round_ne_failed hspoiled.ranThrough.terminal (Prod.mk.inj heq).1
        | ok first =>
          rw [hfirst] at heq
          exact hspoiled.lastAttempt_ne hfirst hlast heq

/-- Two stored fragments, the second one final; the encodings are never used. -/
def exampleConfig : Config where
  nodeId := [110]
  blobsDirectory := "blobs"
  inlineDataThreshold := 8
  codec := ⟨fun _ => .ok [],fun _ => .error .okStatus,fun _ => .ok [],fun _ => .error .okStatus,
    fun _ => .ok [],fun _ => .ok .okStatus⟩
  uuid k := List.replicate (k+1) 97

def exampleDatabase : Database :=
  (putMany exampleConfig {} [{ data := .chunk { data := [1] }, continued := true },
    { data := .chunk { data := [2] } }]).2

def exampleFragment (seq : UInt32) : NodeFragment :=
  ⟨[110],.chunk { data := [seq.toUInt8+1] },some seq,seq == 0⟩

/-- One busy commit: the end of the stream is returned in the middle and every
fragment twice. -/
theorem nextRound_retry_repeats :
    nextRound exampleConfig exampleDatabase 5 [] [] =
      (.returned [some (exampleFragment 0),some (exampleFragment 1),none],2) ∧
    nextRound exampleConfig exampleDatabase 5 [] [.commit] =
      (.returned [some (exampleFragment 0),some (exampleFragment 1),none,
        some (exampleFragment 0),some (exampleFragment 1),none],2) := by
  decide

/-- Attempts that are aborted before the first row change nothing. -/
theorem nextRound_retry_iff_select :
    nextRound exampleConfig exampleDatabase 5 [] [.start,.select 0] =
      nextRound exampleConfig exampleDatabase 5 [] [] :=
  (nextRound_retry_iff exampleDatabase [.start,.select 0] (by decide)).mpr fun st hst => by
    have hcur : st.nextCursor = 0 ∧ st.finalSeq = some 1 := by
      obtain rfl := Except.ok.inj hst
      decide
    refine .inl fun a ha => .inl ?_
    fin_cases ha <;> simp [Abort.Early,Source.finalWasRead,nextSource,hcur,uint32Range]

end A11.SqliteChunkStore
