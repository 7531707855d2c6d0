import Mathlib.Data.List.SplitBy

/-! The `context` stage of a flow, without numbering and with a predicate that does not fail: one
pass over the items against the clusters of matching positions. -/
namespace A11.ContextStage
open List

variable {α : Type}

structure Context (α : Type) where
  preceding : List α := []
  group : List α := []
  remaining : ℕ := 0
  emitted : List (List α) := []

def Context.emit (s : Context α) : Context α :=
  { s with group := [], emitted := s.emitted++[s.group] }

section

variable (before after : ℕ) (matched : α → Bool)

/-- What an item does to the group. -/
def Context.collect (s : Context α) (value : α) : Context α :=
  let group := if matched value && s.group.isEmpty then s.preceding else s.group
  if matched value || !group.isEmpty then
    let s := { s with group := group++[value],
                      remaining := if matched value then after else s.remaining-1 }
    if s.remaining = 0 then s.emit else s
  else s

/-- What an item does to the items kept for the next group. -/
def Context.slide (s : Context α) (value : α) : Context α :=
  if before = 0 then s
  else
    let preceding := s.preceding++[value]
    { s with preceding := if preceding.length > before then preceding.tail else preceding }

def Context.item (s : Context α) (value : α) : Context α :=
  (s.collect after matched value).slide before value

def context (items : List α) : List (List α) :=
  let s := items.foldl (Context.item before after matched) {}
  if s.group.isEmpty then s.emitted else s.emit.emitted

/-- The positions of the items that match. -/
def positions (items : List α) : List ℕ :=
  (List.range items.length).filter fun i => items[i]?.any matched

/-- The maximal clusters of matches, consecutive ones at most `after` positions apart. -/
def clusters (items : List α) : List (List ℕ) :=
  (positions matched items).splitBy fun a b => b ≤ a+after

/-- The items from `before` in front of a cluster's first match to `after` behind its last. -/
def excerpt (items : List α) (cluster : List ℕ) : List α :=
  (items.take (cluster.getLast?.getD 0+after+1)).drop (cluster.head?.getD 0-before)

end

theorem positions_concat (matched : α → Bool) (items : List α) (value : α) :
    positions matched (items++[value]) =
      positions matched items++if matched value then [items.length] else [] := by
  unfold positions
  rw [length_append,length_singleton,range_succ,filter_append]
  congr 1
  · refine filter_congr fun i hi => ?_
    rw [List.getElem?_append_left (mem_range.mp hi)]
  · simp [filter_singleton]

theorem splitBy_extend {β : Type} {r : β → β → Bool} {l c : List β} {cs : List (List β)} {b : β}
    (h : l.splitBy r = cs++[c]) (hb : ∀ a ∈ c.getLast?, r a b) :
    (l++[b]).splitBy r = cs++[c++[b]] := by
  obtain ⟨rfl,_,hc,hcs⟩ := splitBy_eq_iff.mp h
  rw [isChain_append] at hcs
  refine splitBy_eq_iff.mpr ⟨by simp,by simp_all,fun m hm => ?_,
    isChain_append.mpr ⟨hcs.1,by simp,fun a ha x hx => ?_⟩⟩
  · rcases mem_append.mp hm with hm | hm
    · exact hc m (by simp [hm])
    · rw [mem_singleton.mp hm,isChain_append]
      exact ⟨hc c (by simp),by simp,by simpa using hb⟩
  · obtain ⟨hne,hcn,_⟩ := hcs.2.2 a ha c (by simp)
    cases hx
    exact ⟨hne,by simp,by rwa [head_append_of_ne_nil hcn]⟩

/-- The lists emitted so far are those of the clusters in `done`, which no later item changes. -/
structure Settled (before after : ℕ) (items : List α) (emitted : List (List α))
    (done : List (List ℕ)) : Prop where
  past : ∀ c ∈ done, c.getLast?.getD 0+after < items.length
  emitted : emitted = done.map (excerpt before after items)

/-- What the stage holds after the given items: no group, or that of the last cluster, whose first
and last matches are at `f` and `l`. -/
inductive Follows (before after : ℕ) (matched : α → Bool) (items : List α) (s : Context α) : Prop
  | closed (hs : Settled before after items s.emitted (clusters after matched items))
      (hl : ∀ l ∈ (positions matched items).getLast?, l+after < items.length) (hg : s.group = [])
  | opened {done : List (List ℕ)} {last : List ℕ} {f l : ℕ}
      (hs : Settled before after items s.emitted done)
      (hc : clusters after matched items = done++[last]) (hlast : last.getLast? = some l)
      (hhead : last.head? = some f) (hl : (positions matched items).getLast? = some l)
      (hf : f < items.length) (hg : s.group = items.drop (f-before))
      (hr : s.remaining+items.length = l+after+1) (hpos : 0 < s.remaining)

section

variable {before after : ℕ} {matched : α → Bool} {items : List α} {s : Context α}
  {emitted : List (List α)} {done : List (List ℕ)} {last : List ℕ} {f l : ℕ}

theorem Settled.concat (h : Settled before after items emitted done) (value : α) :
    Settled before after (items++[value]) emitted done := by
  refine ⟨fun c hc => ?_,h.emitted.trans (map_congr_left fun c hc => ?_)⟩
  · have := h.past c hc
    rw [length_append]
    omega
  · unfold excerpt
    rw [take_append_of_le_length (h.past c hc)]

theorem excerpt_all (hlast : last.getLast? = some l) (hhead : last.head? = some f)
    (h : items.length ≤ l+after+1) :
    excerpt before after items last = items.drop (f-before) := by
  rw [excerpt,hlast,hhead]
  exact congrArg _ (take_of_length_le h)

theorem item_preceding (h : s.preceding = items.drop (items.length-before)) (value : α) :
    (s.item before after matched value).preceding =
      (items++[value]).drop ((items++[value]).length-before) := by
  have hc : (s.collect after matched value).preceding = s.preceding := by
    unfold Context.collect
    dsimp only
    split_ifs <;> rfl
  unfold Context.item Context.slide
  split_ifs with hb
  · simp [hc,h,hb]
  · simp only [hc,h,← drop_append_of_le_length (Nat.sub_le items.length before),
      length_drop,length_append,length_singleton,tail_drop]
    split_ifs
    · congr 1
      omega
    · congr 1
      omega

/-- A group that has just taken the last item, emitted if it is complete. -/
theorem Follows.close {r : ℕ} (hs : Settled before after items s.emitted done)
    (hc : clusters after matched items = done++[last]) (hlast : last.getLast? = some l)
    (hhead : last.head? = some f) (hl : (positions matched items).getLast? = some l)
    (hf : f < items.length) (hr : r+items.length = l+after+1) :
    let s := { s with group := items.drop (f-before), remaining := r }
    Follows before after matched items (if s.remaining = 0 then s.emit else s) := by
  dsimp only
  split_ifs with h0
  · rw [h0,Nat.zero_add] at hr
    refine .closed (hc ▸ ⟨fun c hmem => ?_,?_⟩) (by simp [hl,hr]) rfl
    · rcases mem_append.mp hmem with hmem | hmem
      · exact hs.past c hmem
      · rw [mem_singleton.mp hmem,hr,hlast]
        exact Nat.lt_succ_self _
    · rw [map_append,← hs.emitted,map_singleton,excerpt_all hlast hhead hr.le]
      rfl
  · exact .opened hs hc hlast hhead hl hf rfl hr (Nat.pos_of_ne_zero h0)

theorem Follows.collect (h : Follows before after matched items s)
    (hp : s.preceding = items.drop (items.length-before)) (value : α) :
    Follows before after matched (items++[value]) (s.collect after matched value) := by
  have hq := positions_concat matched items value
  have hdrop : ∀ f, f ≤ items.length → items.drop (f-before)++[value] =
      (items++[value]).drop (f-before) :=
    fun f hf => (drop_append_of_le_length (by omega)).symm
  unfold Context.collect
  cases h with
  | closed hs hl hg =>
    cases hm : matched value with
    | false =>
      rw [hm,if_neg (by simp),append_nil] at hq
      simp only [hg]
      refine .closed ?_ ?_ hg
      · rw [clusters,hq]
        exact hs.concat value
      · intro l hmem
        have := hl l (hq ▸ hmem)
        rw [length_append]
        omega
    | true =>
      rw [hm,if_pos rfl] at hq
      simp only [hg,isEmpty_nil,Bool.and_true,↓reduceIte]
      have hgroup := hdrop items.length le_rfl
      rw [← hp] at hgroup
      rw [hgroup]
      have hc : clusters after matched (items++[value]) =
          clusters after matched items++[[items.length]] := by
        rw [clusters,hq,splitBy_append_cons]
        · rfl
        · intro l hmem
          simpa using hl l hmem
      exact .close (r := after) (hs.concat value) hc rfl rfl (by simp [hq]) (by simp)
        (by simp; omega)
  | opened hs hc hlast hhead hl hf hg hr hpos =>
    have hne : s.group.isEmpty = false := by
      rw [hg]
      simp
      omega
    simp only [hne,Bool.and_false,Bool.false_eq_true,↓reduceIte]
    rw [hg,hdrop _ hf.le]
    cases hm : matched value with
    | false =>
      rw [hm,if_neg (by simp),append_nil] at hq
      refine .close (hs.concat value) ?_ hlast hhead (hq ▸ hl) (by simp; omega) (by simp; omega)
      rw [clusters,hq]
      exact hc
    | true =>
      rw [hm] at hq
      refine .close (l := items.length) (hs.concat value) ?_ List.getLast?_concat
        (by rw [List.head?_append,hhead]; rfl) (by simp [hq]) (by simp; omega) (by simp; omega)
      rw [clusters,hq]
      exact splitBy_extend hc (by simp [hlast]; omega)

theorem Follows.item (h : Follows before after matched items s)
    (hp : s.preceding = items.drop (items.length-before)) (value : α) :
    Follows before after matched (items++[value]) (s.item before after matched value) := by
  unfold Context.item Context.slide
  split_ifs
  · exact h.collect hp value
  · cases h.collect hp value with
    | closed hs hl hg => exact .closed hs hl hg
    | opened hs hc hlast hhead hl hf hg hr hpos => exact .opened hs hc hlast hhead hl hf hg hr hpos

end

/-- One list is emitted for each cluster of matches, in order. -/
theorem context_eq (before after : ℕ) (matched : α → Bool) (items : List α) :
    context before after matched items =
      (clusters after matched items).map (excerpt before after items) := by
  have h : Follows before after matched items
      (items.foldl (Context.item before after matched) {}) ∧
      (items.foldl (Context.item before after matched) {}).preceding =
        items.drop (items.length-before) := by
    induction items using reverseRecOn with
    | nil => exact ⟨.closed ⟨by simp [clusters,positions],rfl⟩ (by simp [positions]) rfl,by simp⟩
    | append_singleton items value ih =>
      rw [foldl_append]
      exact ⟨ih.1.item ih.2 value,item_preceding ih.2 value⟩
  unfold context
  cases h.1 with
  | closed hs hl hg => simp [hg,hs.emitted]
  | opened hs hc hlast hhead hl hf hg hr hpos =>
    rw [hc,map_append,← hs.emitted,map_singleton,excerpt_all hlast hhead (by omega),← hg]
    refine (if_neg ?_).trans rfl
    simp [hg]
    omega

end A11.ContextStage
