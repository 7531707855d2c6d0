import A11.DataTypes

/-! The loop by which `Next` walks the shared cursor of a store. One pass runs
without waiting: it takes consecutive fragments from the cursor on and ends at the
limit, at the end of the stream, at a gap, or at a row that cannot be decoded. -/
namespace A11.NextScan
open List

/-- What one pass reads of a store. -/
structure Source where
  /-- The row of a sequence, when present, with the outcome of decoding it. -/
  row : UInt32 → Option (StatusOr NodeFragment)
  finalSeq : Option UInt32
  closed : Bool
  status : Option Status

inductive Ending
  | done
  | terminal (status : Status)
  | park
  | failed (status : Status)
  deriving DecidableEq

structure Pass where
  ending : Ending
  cursor : ℕ
  fragments : List (Option NodeFragment)
  deriving DecidableEq

namespace Source

variable (src : Source) (limit : ℕ)

def finalWasRead (cursor : ℕ) : Bool := src.finalSeq.any fun final => final.toNat < cursor

/-- The status writes failed with, if they ended in a failure. -/
def failure : Option Status := src.status.filter fun status => !status.isOk

/-- The stream is over: a failure is reported only by a call that has nothing to
return, and a clean end adds the sentinel. -/
def finish (cursor : ℕ) (fragments : List (Option NodeFragment)) : Pass :=
  match src.failure with
  | some status =>
    if fragments = [] then ⟨.terminal status,cursor,fragments⟩ else ⟨.done,cursor,fragments⟩
  | none => ⟨.done,cursor,fragments++[none]⟩

/-- One turn of the loop: the pass ends, or the next fragment is taken. -/
def look (cursor : ℕ) (fragments : List (Option NodeFragment)) : Pass ⊕ NodeFragment :=
  if src.finalWasRead cursor then .inl (src.finish cursor fragments)
  else match src.row (UInt32.ofNat cursor) with
    | none =>
      if src.closed then .inl (src.finish cursor fragments)
      else if fragments.length = limit then .inl ⟨.done,cursor,fragments⟩
      else .inl ⟨.park,cursor,fragments⟩
    | some row =>
      if fragments.length = limit then .inl ⟨.done,cursor,fragments⟩
      else match row with
        | .ok f => .inr f
        | .error status => .inl ⟨.failed status,cursor,fragments⟩

/-- The fuel is what is left of the sequence space; with none left the stream is
over whatever its status. -/
def loop : ℕ → ℕ → List (Option NodeFragment) → Pass
  | 0, cursor, fragments => ⟨.done,cursor,fragments++[none]⟩
  | fuel+1, cursor, fragments =>
    match src.look limit cursor fragments with
    | .inl pass => pass
    | .inr f => loop fuel (cursor+1) (fragments++[some f])

def collect (cursor : ℕ) (fragments : List (Option NodeFragment)) : Pass :=
  src.loop limit (uint32Range-cursor) cursor fragments

end Source

variable {src : Source} {limit cursor : ℕ} {fragments : List (Option NodeFragment)}
  {items : List NodeFragment} {p : Pass}

theorem finalWasRead_of_le {a b : ℕ} (hab : a ≤ b) (h : src.finalWasRead b = false) :
    src.finalWasRead a = false := by
  unfold Source.finalWasRead at *
  cases hfin : src.finalSeq with
  | none => rfl
  | some final =>
    simp only [hfin,Option.any_some,decide_eq_false_iff_not] at h ⊢
    omega

theorem look_eq_inr {f : NodeFragment} :
    src.look limit cursor fragments = .inr f ↔ src.finalWasRead cursor = false ∧
      src.row (UInt32.ofNat cursor) = some (.ok f) ∧ fragments.length ≠ limit := by
  unfold Source.look
  by_cases hread : src.finalWasRead cursor
  · simp [hread]
  rcases src.row (UInt32.ofNat cursor) with _ | row
  · by_cases hcls : src.closed <;> by_cases hlen : fragments.length = limit <;>
      simp [hread,hcls,hlen]
  · by_cases hlen : fragments.length = limit
    · simp [hread,hlen]
    · cases row <;> simp [hread,hlen]

theorem finish_cursor : (src.finish cursor fragments).cursor = cursor := by
  unfold Source.finish
  split
  · split_ifs <;> rfl
  · rfl

theorem finish_ne_failed (src : Source) (cursor : ℕ) (fragments : List (Option NodeFragment))
    (status : Status) : (src.finish cursor fragments).ending ≠ .failed status := by
  unfold Source.finish
  split
  · split_ifs <;> simp
  · simp

/-- Every way a turn can end the pass. -/
theorem look_inl_cases (h : src.look limit cursor fragments = .inl p) :
    (p = src.finish cursor fragments ∧ (src.finalWasRead cursor ∨
      src.row (UInt32.ofNat cursor) = none ∧ src.closed)) ∨
    (p = ⟨.done,cursor,fragments⟩ ∧ src.finalWasRead cursor = false ∧ fragments.length = limit) ∨
    (p = ⟨.park,cursor,fragments⟩ ∧ src.finalWasRead cursor = false ∧
      src.row (UInt32.ofNat cursor) = none ∧ src.closed = false ∧ fragments.length ≠ limit) ∨
    (∃ status, p = ⟨.failed status,cursor,fragments⟩ ∧ src.finalWasRead cursor = false ∧
      src.row (UInt32.ofNat cursor) = some (.error status) ∧ fragments.length ≠ limit) := by
  unfold Source.look at h
  by_cases hread : src.finalWasRead cursor
  · simp only [hread,if_true,Sum.inl.injEq] at h
    exact .inl ⟨h.symm,.inl hread⟩
  rcases hrow : src.row (UInt32.ofNat cursor) with _ | row
  · by_cases hcls : src.closed
    · simp only [hread,hrow,hcls,if_true,if_false,Bool.false_eq_true,Sum.inl.injEq] at h
      exact .inl ⟨h.symm,.inr ⟨rfl,hcls⟩⟩
    · by_cases hlen : fragments.length = limit <;>
        simp only [hread,hrow,hcls,hlen,if_true,if_false] at h <;> grind
  · by_cases hlen : fragments.length = limit
    · simp only [hread,hrow,hlen,if_true,Bool.false_eq_true,if_false,Sum.inl.injEq] at h
      exact .inr (.inl ⟨h.symm,by simpa using hread,hlen⟩)
    cases row with
    | ok f => simp [hread,hrow,hlen] at h
    | error status =>
      simp only [hread,hrow,hlen,Bool.false_eq_true,if_false,Sum.inl.injEq] at h
      exact .inr (.inr (.inr ⟨status,h.symm,by simpa using hread,rfl,hlen⟩))

theorem look_inl_cursor (h : src.look limit cursor fragments = .inl p) : p.cursor = cursor := by
  obtain ⟨rfl,-⟩ | ⟨rfl,-⟩ | ⟨rfl,-⟩ | ⟨-,rfl,-⟩ := look_inl_cases h
  · exact finish_cursor
  all_goals rfl

/-- The consecutive fragments a pass takes from `cursor` on. -/
structure Walk (src : Source) (limit cursor : ℕ) (fragments : List (Option NodeFragment))
    (items : List NodeFragment) : Prop where
  rows : ∀ i f, items[i]? = some f → src.row (UInt32.ofNat (cursor+i)) = some (.ok f)
  unread : ∀ i < items.length, src.finalWasRead (cursor+i) = false
  room : ∀ i < items.length, fragments.length+i ≠ limit
  inRange : items ≠ [] → cursor+items.length ≤ uint32Range

theorem Walk.nil : Walk src limit cursor fragments [] := by
  constructor <;> simp

theorem Walk.cons_iff {f : NodeFragment} :
    Walk src limit cursor fragments (f::items) ↔ cursor < uint32Range ∧
      src.look limit cursor fragments = .inr f ∧
      Walk src limit (cursor+1) (fragments++[some f]) items := by
  rw [look_eq_inr]
  constructor
  · intro h
    have hrng := h.inRange (by simp)
    simp only [length_cons] at hrng
    refine ⟨by omega,⟨h.unread 0 (by simp),h.rows 0 f (by simp),h.room 0 (by simp)⟩,?_⟩
    refine ⟨fun i g hg => ?_,fun i hi => ?_,fun i hi => ?_,fun _ => by omega⟩
    · have := h.rows (i+1) g (by simpa using hg)
      rwa [← Nat.add_assoc,Nat.add_right_comm] at this
    · have := h.unread (i+1) (by simpa using hi)
      rwa [← Nat.add_assoc,Nat.add_right_comm] at this
    · have := h.room (i+1) (by simpa using hi)
      simp only [length_append,length_singleton]
      omega
  · rintro ⟨hlt,⟨hunr,hrow,hroom⟩,h⟩
    refine ⟨fun i g hg => ?_,fun i hi => ?_,fun i hi => ?_,fun _ => ?_⟩
    · rcases i with _ | i
      · obtain rfl : f = g := by simpa using hg
        exact hrow
      · have := h.rows i g (by simpa using hg)
        rwa [Nat.add_assoc,Nat.add_comm 1] at this
    · rcases i with _ | i
      · exact hunr
      · have := h.unread i (by simpa using hi)
        rwa [Nat.add_assoc,Nat.add_comm 1] at this
    · rcases i with _ | i
      · simpa using hroom
      · have := h.room i (by simpa using hi)
        simp only [length_append,length_singleton] at this
        omega
    · rcases items with _ | ⟨g,items⟩
      · simpa using hlt
      · have := h.inRange (by simp)
        simp only [length_cons] at *
        omega

/-- How a pass ends at a cursor with the given fragments in hand. -/
def Ends (src : Source) (limit : ℕ) (fragments : List (Option NodeFragment)) (p : Pass) : Prop :=
  (uint32Range ≤ p.cursor ∧ p.ending = .done ∧ p.fragments = fragments++[none]) ∨
  (p.cursor < uint32Range ∧ src.look limit p.cursor fragments = .inl p)

theorem collect_of_lt (h : cursor < uint32Range) :
    src.collect limit cursor fragments = match src.look limit cursor fragments with
      | .inl pass => pass
      | .inr f => src.collect limit (cursor+1) (fragments++[some f]) := by
  obtain ⟨n,hn⟩ : ∃ n, uint32Range-cursor = n+1 := ⟨uint32Range-cursor-1,by omega⟩
  have hn' : uint32Range-(cursor+1) = n := by omega
  unfold Source.collect
  rw [hn,hn',Source.loop]

theorem collect_of_ge (h : uint32Range ≤ cursor) :
    src.collect limit cursor fragments = ⟨.done,cursor,fragments++[none]⟩ := by
  rw [Source.collect,Nat.sub_eq_zero_of_le h,Source.loop]

/-- A pass takes a walk and ends after it. -/
theorem collect_spec (src : Source) (limit cursor : ℕ) (fragments : List (Option NodeFragment)) :
    ∃ items, Walk src limit cursor fragments items ∧
      (src.collect limit cursor fragments).cursor = cursor+items.length ∧
      Ends src limit (fragments++items.map some) (src.collect limit cursor fragments) := by
  generalize hfuel : uint32Range-cursor = fuel
  induction fuel generalizing cursor fragments with
  | zero =>
    have hge : uint32Range ≤ cursor := by omega
    rw [collect_of_ge hge]
    exact ⟨[],Walk.nil,rfl,.inl ⟨hge,rfl,by simp⟩⟩
  | succ fuel ih =>
    have hlt : cursor < uint32Range := by omega
    rw [collect_of_lt hlt]
    cases hlook : src.look limit cursor fragments with
    | inl pass =>
      have hcur := look_inl_cursor hlook
      refine ⟨[],Walk.nil,hcur,.inr ⟨hcur.trans_lt hlt,?_⟩⟩
      simpa [hcur] using hlook
    | inr f =>
      obtain ⟨items,hwalk,hcur,hends⟩ := ih (cursor+1) (fragments++[some f]) (by omega)
      refine ⟨f::items,Walk.cons_iff.mpr ⟨hlt,hlook,hwalk⟩,?_,by simpa using hends⟩
      simp only [length_cons]
      omega

/-- The walk and its end determine the pass. -/
theorem collect_eq (hwalk : Walk src limit cursor fragments items)
    (hcur : p.cursor = cursor+items.length)
    (hends : Ends src limit (fragments++items.map some) p) :
    src.collect limit cursor fragments = p := by
  induction items generalizing cursor fragments with
  | nil =>
    simp only [length_nil,Nat.add_zero,map_nil,append_nil] at hcur hends
    obtain ⟨_,hend,hfrag⟩ | ⟨hlt,hlook⟩ := hends
    · rw [collect_of_ge (by omega),← hcur,← hend,← hfrag]
    · rw [collect_of_lt (by omega),← hcur,hlook]
  | cons f items ih =>
    obtain ⟨hlt,hlook,hwalk⟩ := Walk.cons_iff.mp hwalk
    rw [collect_of_lt hlt,hlook]
    refine ih hwalk ?_ (by simpa using hends)
    simp only [hcur,length_cons]
    omega

/-! ### Passes that start with different fragments in hand -/

/-- A pass that stops here adds the sentinel. -/
def Exhausted (src : Source) (cursor : ℕ) : Prop :=
  uint32Range ≤ cursor ∨ src.failure = none ∧
    (src.finalWasRead cursor ∨ src.row (UInt32.ofNat cursor) = none ∧ src.closed)

theorem look_of_over (fragments : List (Option NodeFragment))
    (h : src.finalWasRead cursor ∨ src.row (UInt32.ofNat cursor) = none ∧ src.closed) :
    src.look limit cursor fragments = .inl (src.finish cursor fragments) := by
  unfold Source.look
  by_cases hread : src.finalWasRead cursor
  · simp [hread]
  · obtain ⟨hrow,hcls⟩ := h.resolve_left hread
    simp [hread,hrow,hcls]

/-- Where a pass stops decides whether it adds the sentinel. -/
theorem Ends.fragments_eq (h : Ends src limit fragments p) :
    (Exhausted src p.cursor → p.fragments = fragments++[none]) ∧
      (¬Exhausted src p.cursor → p.fragments = fragments) := by
  obtain ⟨hge,-,hfrag⟩ | ⟨_,hlook⟩ := h
  · exact ⟨fun _ => hfrag,fun hnot => absurd (.inl hge) hnot⟩
  have hfin : ∀ cursor, (src.failure = none →
      (src.finish cursor fragments).fragments = fragments++[none]) ∧
      (src.failure ≠ none → (src.finish cursor fragments).fragments = fragments) := by
    cases hfail : src.failure with
    | none => simp [Source.finish,hfail]
    | some status => simp only [Source.finish,hfail]; split_ifs <;> simp
  constructor
  · rintro (hge | ⟨hfail,hover⟩)
    · omega
    · rw [look_of_over fragments hover,Sum.inl.injEq] at hlook
      rw [← hlook,(hfin _).1 hfail]
  · intro hnot
    obtain ⟨hp,hover⟩ | ⟨hp,-⟩ | ⟨hp,-⟩ | ⟨status,hp,-⟩ := look_inl_cases hlook
    · rw [hp]
      exact (hfin _).2 fun hfail => hnot (.inr ⟨hfail,hover⟩)
    all_goals rw [hp]

theorem Ends.fragments_of_park
    (h : Ends src limit fragments p) (hpark : p.ending = .park) : p.fragments = fragments := by
  refine h.fragments_eq.2 fun hexh => ?_
  obtain ⟨-,hdone,-⟩ | ⟨_,hlook⟩ := h
  · cases hdone.symm.trans hpark
  obtain ⟨hfail,hover⟩ := hexh.resolve_left (by omega)
  rw [look_of_over fragments hover,Sum.inl.injEq,Source.finish,hfail] at hlook
  rw [← hlook] at hpark
  cases hpark

theorem Walk.length_le (h : Walk src limit cursor fragments items)
    (hle : fragments.length ≤ limit) : fragments.length+items.length ≤ limit := by
  by_contra hgt
  exact h.room (limit-fragments.length) (by omega) (by omega)

/-- The pass reaches a row that cannot be decoded. -/
def Fails (src : Source) (limit cursor : ℕ) (fragments : List (Option NodeFragment))
    (items : List NodeFragment) (status : Status) : Prop :=
  Walk src limit cursor fragments items ∧ cursor+items.length < uint32Range ∧
    src.finalWasRead (cursor+items.length) = false ∧
    src.row (UInt32.ofNat (cursor+items.length)) = some (.error status) ∧
    fragments.length+items.length ≠ limit

variable {status : Status}

theorem Fails.collect_eq (h : Fails src limit cursor fragments items status) :
    src.collect limit cursor fragments =
      ⟨.failed status,cursor+items.length,fragments++items.map some⟩ := by
  obtain ⟨hwalk,hlt,hread,hrow,hlen⟩ := h
  refine NextScan.collect_eq hwalk rfl (.inr ⟨hlt,?_⟩)
  have hlen' : (fragments++items.map some).length ≠ limit := by simpa using hlen
  rw [Source.look,hread,hrow,if_neg Bool.false_ne_true]
  simp only [if_neg hlen']

theorem collect_failed_iff :
    (src.collect limit cursor fragments).ending = .failed status ↔
      ∃ items, Fails src limit cursor fragments items status := by
  constructor
  · intro hfail
    obtain ⟨items,hwalk,hcur,hends⟩ := collect_spec src limit cursor fragments
    obtain ⟨-,hend,-⟩ | ⟨hlt,hlook⟩ := hends
    · simp [hend] at hfail
    obtain ⟨hp,-⟩ | ⟨hp,-⟩ | ⟨hp,-⟩ | ⟨_,hp,hread,hrow,hlen⟩ := look_inl_cases hlook
    · exact absurd (hp ▸ hfail) (finish_ne_failed src _ _ status)
    · rw [hp] at hfail
      cases hfail
    · rw [hp] at hfail
      cases hfail
    · rw [hp,Ending.failed.injEq] at hfail
      rw [hcur] at hlt hread hrow
      refine ⟨items,hwalk,hlt,hread,?_,by simpa using hlen⟩
      rw [hrow,hfail]
  · rintro ⟨items,hfails⟩
    rw [hfails.collect_eq]

/-- Everything up to the end of the stored rows can be decoded. -/
def Dry (src : Source) (cursor : ℕ) : Prop :=
  ∃ m, (∀ i < m, ∃ f, src.row (UInt32.ofNat (cursor+i)) = some (.ok f)) ∧
    (uint32Range ≤ cursor+m ∨ src.finalWasRead (cursor+m) ∨
      src.row (UInt32.ofNat (cursor+m)) = none)

theorem Dry.not_fails (h : Dry src cursor) :
    ¬Fails src limit cursor fragments items status := by
  rintro ⟨hwalk,_,hread,hrow,-⟩
  obtain ⟨m,hrows,hend⟩ := h
  rcases lt_trichotomy items.length m with hless | heq | hmore
  · obtain ⟨f,hf⟩ := hrows _ hless
    cases hrow.symm.trans hf
  · subst heq
    rcases hend with hge | hfin | hmiss
    · omega
    · cases hread.symm.trans hfin
    · cases hrow.symm.trans hmiss
  · rcases hend with hge | hfin | hmiss
    · omega
    · cases (hwalk.unread m hmore).symm.trans hfin
    · cases hmiss.symm.trans (hwalk.rows m _ (getElem?_eq_getElem hmore))

/-- A pass goes over the limit only by the sentinel. -/
theorem collect_length_le (h : fragments.length ≤ limit) :
    (src.collect limit cursor fragments).fragments.length ≤ limit ∨ Dry src cursor := by
  obtain ⟨items,hwalk,hcur,hends⟩ := collect_spec src limit cursor fragments
  have hle := hwalk.length_le h
  by_cases hexh : Exhausted src (src.collect limit cursor fragments).cursor
  · right
    rw [hcur] at hexh
    refine ⟨items.length,fun i hi => ⟨_,hwalk.rows i _ (getElem?_eq_getElem hi)⟩,?_⟩
    exact hexh.imp_right fun hover => hover.2.imp_right And.left
  · left
    rw [hends.fragments_eq.2 hexh]
    simpa using hle

/-- A pass that reports the terminal status had nothing and took nothing. -/
theorem collect_terminal (h : (src.collect limit cursor fragments).ending = .terminal status) :
    (src.collect limit cursor fragments).fragments = fragments ∧ fragments = [] ∧
      ∀ items, Walk src limit cursor fragments items → items = [] := by
  obtain ⟨items,-,hcur,hends⟩ := collect_spec src limit cursor fragments
  obtain ⟨-,hend,-⟩ | ⟨-,hlook⟩ := hends
  · simp [hend] at h
  obtain ⟨hp,-⟩ | ⟨hp,-⟩ | ⟨hp,-⟩ | ⟨_,hp,-⟩ := look_inl_cases hlook
  · have hnil : fragments++items.map some = [] ∧
        (src.collect limit cursor fragments).fragments = fragments++items.map some := by
      rw [hp] at h ⊢
      unfold Source.finish at h ⊢
      split at h
      · split_ifs at h with hemp
        exact ⟨hemp,by simp [hemp]⟩
      · simp at h
    obtain ⟨hfrag,hitm⟩ := append_eq_nil_iff.mp hnil.1
    simp only [map_eq_nil_iff] at hitm
    subst hitm hfrag
    refine ⟨by simpa using hnil.2,rfl,fun items' hwalk' => ?_⟩
    cases items' with
    | nil => rfl
    | cons f items' =>
      have htak := (Walk.cons_iff.mp hwalk').2.1
      simp only [map_nil,append_nil,hcur,length_nil,Nat.add_zero,htak,reduceCtorEq] at hlook
  all_goals
    rw [hp] at h
    cases h

end A11.NextScan
