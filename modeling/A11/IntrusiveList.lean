import Mathlib.Data.List.Nodup
import Mathlib.Logic.Function.Basic
import Mathlib.Tactic.Common

/-! Circular doubly linked lists whose links are kept in the elements. An element that has
never been on a list points to itself; one that is on a list has a previous element. -/
namespace A11.Intrusive
open List Function

open Function (update)

structure Links (α : Type) where
  next : α → α
  prev : α → Option α

section Operations

variable {α : Type} [DecidableEq α]

/-- Adds an element in front of the oldest one, which the head points to. -/
def pushBack (links : Links α) (head : Option α) (e : α) : Links α × Option α :=
  match head with
  | none => (⟨update links.next e e,update links.prev e (some e)⟩,some e)
  | some h =>
    match links.prev h with
    | none => (links,some h)
    | some last => (⟨update (update links.next e h) last e,
        update (update links.prev e (some last)) h (some e)⟩,some h)

/-- Takes an element off its list. An element that points to itself is taken for the only one
on the list. -/
def unlink (links : Links α) (head : Option α) (e : α) : Links α × Option α :=
  if links.next e = e then (⟨links.next,update links.prev e none⟩,none)
  else match links.prev e with
    | none => (links,head)
    | some p => (⟨update links.next p (links.next e),
        update (update links.prev (links.next e) (some p)) e none⟩,
        if head = some e then some (links.next e) else head)

/-- The elements met on the way from `x` until the way leads back to `head`. -/
def walk (next : α → α) (head : α) : ℕ → α → List α
  | 0, _ => []
  | n+1, x => x::if next x = head then [] else walk next head n (next x)

end Operations

/-! ### Circles -/

section Paths

variable {α : Type} {links links' : Links α}

/-- From `a` over the elements of the list to `b`. -/
def Path (links : Links α) : α → List α → α → Prop
  | a, [], b => links.next a = b ∧ links.prev b = some a
  | a, x::l, b => (links.next a = x ∧ links.prev x = some a) ∧ Path links x l b

/-- The elements of the list form a circle, in this order. -/
def Ring (links : Links α) : List α → Prop
  | [] => True
  | a::l => (a::l).Nodup ∧ Path links a l a

theorem path_append {a x b : α} {l m : List α} :
    Path links a (l++x::m) b ↔ Path links a l x ∧ Path links x m b := by
  induction l generalizing a with
  | nil => rfl
  | cons y l ih =>
    rw [cons_append,Path,Path,ih]
    tauto

variable {l : List α}

/-- A path reads the next element of all but its end and the previous one of all but its
start. -/
theorem Path.congr {a b : α} (h : Path links a l b)
    (hnext : ∀ y ∈ a::l, links'.next y = links.next y)
    (hprev : ∀ y ∈ l, links'.prev y = links.prev y) (hend : links'.prev b = links.prev b) :
    Path links' a l b := by
  induction l generalizing a with
  | nil => exact ⟨by rw [hnext a (by simp),h.1],by rw [hend,h.2]⟩
  | cons x l ih =>
    refine ⟨⟨by rw [hnext a (by simp),h.1.1],by rw [hprev x (by simp),h.1.2]⟩,ih h.2 ?_ ?_⟩
    · exact fun y hy => hnext y (by simp [mem_cons.mp hy])
    · exact fun y hy => hprev y (by simp [hy])

theorem Path.prev_end {a b : α} (h : Path links a l b) :
    ∃ last, links.prev b = some last ∧ links.next last = b ∧ last ∈ a::l := by
  induction l generalizing a with
  | nil => exact ⟨a,h.2,h.1,by simp⟩
  | cons x l ih =>
    obtain ⟨last,hprev,hnext,hmem⟩ := ih h.2
    exact ⟨last,hprev,hnext,mem_cons_of_mem a hmem⟩

/-- The last step of a path can be led to another end. -/
theorem Path.redirect {a b b' last : α} (h : Path links a l b)
    (hnd : (a::l).Nodup) (hlast : links.prev b = some last) (hnext' : links'.next last = b')
    (hprev' : links'.prev b' = some last)
    (hnext : ∀ y ∈ a::l, y ≠ last → links'.next y = links.next y)
    (hprev : ∀ y ∈ l, links'.prev y = links.prev y) : Path links' a l b' := by
  induction l generalizing a with
  | nil =>
    obtain rfl : a = last := by simpa [h.2] using hlast
    exact ⟨hnext',hprev'⟩
  | cons x l ih =>
    obtain ⟨z,hz,-,hmem⟩ := h.2.prev_end
    obtain rfl : z = last := by simpa [hz] using hlast
    have hne : a ≠ z := by
      rintro rfl
      exact (nodup_cons.mp hnd).1 hmem
    refine ⟨⟨by rw [hnext a (by simp) hne,h.1.1],by rw [hprev x (by simp),h.1.2]⟩,
      ih h.2 (nodup_cons.mp hnd).2 ?_ ?_⟩
    · exact fun y hy => hnext y (by simp [mem_cons.mp hy])
    · exact fun y hy => hprev y (by simp [hy])

theorem Ring.nodup (h : Ring links l) : l.Nodup := by
  cases l with
  | nil => exact nodup_nil
  | cons a l => exact h.1

/-- A circle can be read from any of its elements on. -/
theorem Ring.rotate {l m : List α} (h : Ring links (l++m)) : Ring links (m++l) := by
  cases l with
  | nil => simpa using h
  | cons a l =>
    cases m with
    | nil => simpa using h
    | cons b m =>
      obtain ⟨hfst,hsec⟩ := path_append.mp h.2
      have hnd : ((b::m)++a::l).Nodup := nodup_append_comm.mp h.1
      exact ⟨hnd,path_append.mpr ⟨hsec,hfst⟩⟩

/-- Every element of a circle has a previous one, in the circle. -/
theorem Ring.prev_mem (h : Ring links l) {x : α} (hx : x ∈ l) :
    ∃ p ∈ l, links.prev x = some p ∧ links.next p = x := by
  obtain ⟨m,n,rfl⟩ := append_of_mem hx
  have hrot : Ring links (x::(n++m)) := h.rotate
  obtain ⟨last,hprev,hnext,hmem⟩ := hrot.2.prev_end
  exact ⟨last,by simp only [mem_cons,mem_append] at hmem ⊢; tauto,hprev,hnext⟩

theorem Ring.congr (h : Ring links l)
    (hsame : ∀ x ∈ l, links'.next x = links.next x ∧ links'.prev x = links.prev x) :
    Ring links' l := by
  cases l with
  | nil => trivial
  | cons a l =>
    refine ⟨h.1,h.2.congr (fun y hy => (hsame y hy).1) (fun y hy => (hsame y (by simp [hy])).2) ?_⟩
    exact (hsame a (by simp)).2

/-- What follows an element, unless it is the last one of the list. -/
theorem Ring.next_of_append {x y : α} {l m : List α} (h : Ring links (l++x::y::m)) :
    links.next x = y :=
  h.rotate.2.1.1

/-- The last element is followed by the first. -/
theorem Ring.next_last {x : α} (h : Ring links (l++[x])) :
    some (links.next x) = (l++[x]).head? := by
  cases l with
  | nil => exact congrArg some h.2.1
  | cons a l => exact congrArg some (path_append.mp h.2).2.1

end Paths

section Edits

variable {α : Type} [DecidableEq α] {links : Links α} {l : List α} {e : α}

theorem ring_pushBack (h : Ring links l) (he : e ∉ l) :
    Ring (pushBack links l.head? e).1 (l++[e]) ∧ (pushBack links l.head? e).2 = (l++[e]).head? ∧
      ∀ x ∉ l++[e], (pushBack links l.head? e).1.next x = links.next x ∧
        (pushBack links l.head? e).1.prev x = links.prev x := by
  cases l with
  | nil => simp +contextual [pushBack,Ring,Path]
  | cons a l =>
    obtain ⟨last,hprev,-,hmem⟩ := h.2.prev_end
    have hea : e ≠ a := by
      rintro rfl
      exact he (by simp)
    have hel : e ≠ last := by
      rintro rfl
      exact he hmem
    have hpush : pushBack links (a::l).head? e =
        (⟨update (update links.next e a) last e,
          update (update links.prev e (some last)) a (some e)⟩,some a) := by
      simp [pushBack,hprev]
    rw [hpush]
    have hnd : (a::(l++[e])).Nodup := by
      rw [← cons_append,nodup_append]
      refine ⟨h.1,nodup_singleton e,?_⟩
      rintro x hx y hy rfl
      exact he (mem_singleton.mp hy ▸ hx)
    have hpath : Path ⟨update (update links.next e a) last e,
        update (update links.prev e (some last)) a (some e)⟩ a (l++[e]) a := by
      rw [path_append]
      refine ⟨h.2.redirect h.1 hprev (by simp) ?_ ?_ ?_,by simp [Path,hel]⟩
      · simp [hea]
      · intro y hy hne
        have hye : y ≠ e := fun hye => he (hye ▸ hy)
        simp [hne,hye]
      · intro y hy
        have hya : y ≠ a := fun hya => (nodup_cons.mp h.1).1 (hya ▸ hy)
        have hye : y ≠ e := fun hye => he (hye ▸ mem_cons_of_mem a hy)
        simp [hya,hye]
    refine ⟨⟨hnd,hpath⟩,rfl,?_⟩
    intro x hx
    simp only [mem_append,mem_singleton,not_or] at hx
    have hxa : x ≠ a := fun hxa => hx.1 (by simp [hxa])
    have hxl : x ≠ last := fun hxl => hx.1 (hxl ▸ hmem)
    simp [hxa,hxl,hx.2]

theorem unlink_self (hself : links.next e = e) (head : Option α) :
    unlink links head e = (⟨links.next,update links.prev e none⟩,none) := if_pos hself

/-- What unlinking does to an element between two others. -/
theorem unlink_between {p q : α} (hnext : links.next e = q) (hprev : links.prev e = some p)
    (hq : q ≠ e) (head : Option α) :
    unlink links head e = (⟨update links.next p q,
      update (update links.prev q (some p)) e none⟩,
      if head = some e then some q else head) := by
  rw [unlink,if_neg (by rwa [hnext]),hprev,hnext]

/-- An element of a circle is alone in it, or between two others that form a circle without
it. -/
theorem Ring.mem_cases (h : Ring links l) (he : e ∈ l) :
    (l = [e] ∧ links.next e = e) ∨ ∃ p q, links.next e = q ∧ links.prev e = some p ∧ q ≠ e ∧
      p ∈ l ∧ q ∈ l ∧ Ring ⟨update links.next p q,
        update (update links.prev q (some p)) e none⟩ (l.erase e) ∧
      (l.head? = some e → (l.erase e).head? = some q) := by
  obtain ⟨m,n,rfl⟩ := append_of_mem he
  have hem : e ∉ m := fun hem => (nodup_append.mp h.nodup).2.2 e hem e (by simp) rfl
  have herase : (m++e::n).erase e = m++n := by
    rw [erase_append_right _ hem,erase_cons_head]
  -- The circle read from the element on, so that it is the first one.
  have hrot : Ring links (e::(n++m)) := h.rotate
  cases hnm : n++m with
  | nil =>
    obtain ⟨rfl,rfl⟩ := append_eq_nil_iff.mp hnm
    exact .inl ⟨rfl,hrot.2.1⟩
  | cons b l =>
    right
    rw [hnm] at hrot
    obtain ⟨p,hprev,-,hmem⟩ := hrot.2.2.prev_end
    obtain ⟨hnot,hnd⟩ := nodup_cons.mp hrot.1
    have hbe : b ≠ e := fun hbe => hnot (by simp [hbe])
    have hin : ∀ y ∈ b::l, y ∈ m++e::n := by
      intro y hy
      rw [← hnm,mem_append] at hy
      simp only [mem_append]
      tauto
    refine ⟨p,b,hrot.2.1.1,hprev,hbe,hin p hmem,hin b (by simp),?_,?_⟩
    · rw [herase]
      apply Ring.rotate
      rw [hnm]
      refine ⟨hnd,hrot.2.2.redirect hnd hprev (by simp) (by simp [hbe]) ?_ ?_⟩
      · intro y _ hy
        simp [hy]
      · intro y hy
        have hye : y ≠ e := fun hye => hnot (by simp [← hye,hy])
        have hyb : y ≠ b := fun hyb => (nodup_cons.mp hnd).1 (hyb ▸ hy)
        simp [hye,hyb]
    · intro hhead
      cases m with
      | nil => simpa using congrArg List.head? hnm
      | cons a m => exact absurd (by simpa using hhead) fun hae : a = e => hem (by simp [hae])

theorem ring_unlink (h : Ring links l) (he : e ∈ l) (head : Option α) :
    Ring (unlink links head e).1 (l.erase e) ∧ (unlink links head e).1.prev e = none ∧
      (∀ x ∉ l, (unlink links head e).1.next x = links.next x ∧
        (unlink links head e).1.prev x = links.prev x) ∧
      (head = l.head? → (unlink links head e).2 = (l.erase e).head?) ∧
      (head ≠ some e → (unlink links head e).2 = if l = [e] then none else head) := by
  rcases h.mem_cases he with ⟨rfl,hself⟩ | ⟨p,q,hnext,hprev,hq,hpmem,hqmem,hring,hhead⟩
  · rw [unlink_self hself]
    refine ⟨by simp [Ring],by simp,?_,by simp,by simp⟩
    intro x hx
    simp [show x ≠ e by simpa using hx]
  rw [unlink_between hnext hprev hq]
  have hne : l ≠ [e] := by
    rintro rfl
    exact hq (by simpa using hqmem)
  refine ⟨hring,by simp,?_,?_,?_⟩
  · intro x hx
    have hxp : x ≠ p := fun hxp => hx (hxp ▸ hpmem)
    have hxq : x ≠ q := fun hxq => hx (hxq ▸ hqmem)
    have hxe : x ≠ e := fun hxe => hx (hxe ▸ he)
    simp [hxp,hxq,hxe]
  · rintro rfl
    by_cases hfst : l.head? = some e
    · rw [if_pos hfst,hhead hfst]
    rw [if_neg hfst]
    cases l with
    | nil => simp at he
    | cons a l =>
      have hae : a ≠ e := by simpa using hfst
      rw [erase_cons_tail (by simpa using hae)]
      rfl
  · intro hfst
    rw [if_neg hfst,if_neg hne]

/-- Walking around a circle meets its elements in order. -/
theorem walk_ring {a : α} (h : Ring links (a::l)) {n : ℕ} (hn : l.length < n) :
    walk links.next a n a = a::l := by
  have hpath : ∀ {x : α} {m : List α} {n : ℕ}, Path links x m a → a ∉ m → m.length < n →
      walk links.next a n x = x::m := by
    intro x m n hpath hnot hn
    induction m generalizing x n with
    | nil =>
      obtain ⟨n,rfl⟩ : ∃ k, n = k+1 := ⟨n-1,by simp only [length_nil] at hn; omega⟩
      rw [walk,if_pos hpath.1]
    | cons y m ih =>
      obtain ⟨n,rfl⟩ : ∃ k, n = k+1 := ⟨n-1,by simp only [length_cons] at hn; omega⟩
      have hya : y ≠ a := fun hya => hnot (by simp [hya])
      rw [walk,hpath.1.1,if_neg hya,ih hpath.2 (fun hmem => hnot (by simp [hmem]))
        (by simp only [length_cons] at hn; omega)]
  exact hpath h.2 (nodup_cons.mp h.1).1 hn

end Edits

/-! ### All circles together -/

/-- The linked elements lie on disjoint circles. -/
structure Rings {α : Type} (links : Links α) (rings : Set (List α)) : Prop where
  ring : ∀ l ∈ rings, l ≠ [] ∧ Ring links l
  disjoint : ∀ l ∈ rings, ∀ m ∈ rings, ∀ x, x ∈ l → x ∈ m → l = m
  linked : ∀ x, (links.prev x).isSome → ∃ l ∈ rings, x ∈ l

section Collections

variable {α : Type} [DecidableEq α] {links : Links α} {rings : Set (List α)} {l : List α} {e : α}

omit [DecidableEq α] in
/-- The circles after one of them, or a new one, has been given a further element. -/
def extend (rings : Set (List α)) (l : List α) (e : α) : Set (List α) :=
  {m | m = l++[e] ∨ (m ∈ rings ∧ m ≠ l)}

theorem Rings.pushBack (h : Rings links rings) (hl : l = [] ∨ l ∈ rings)
    (he : links.prev e = none) : Rings (pushBack links l.head? e).1 (extend rings l e) ∧
      (Intrusive.pushBack links l.head? e).2 = (l++[e]).head? := by
  have hnot : ∀ m ∈ rings, e ∉ m := by
    intro m hm hem
    obtain ⟨p,-,hp,-⟩ := (h.ring m hm).2.prev_mem hem
    simp [he] at hp
  have hring : Ring links l := by
    rcases hl with rfl | hl
    · trivial
    · exact (h.ring l hl).2
  have hel : e ∉ l := by
    rcases hl with rfl | hl
    · simp
    · exact hnot l hl
  have hfar : ∀ m ∈ rings, m ≠ l → ∀ x ∈ m, x ∉ l++[e] := by
    intro m hm hne x hx hmem
    rcases mem_append.mp hmem with hxl | hxe
    · rcases hl with rfl | hl
      · simp at hxl
      · exact hne (h.disjoint m hm l hl x hx hxl)
    · exact hnot m hm (mem_singleton.mp hxe ▸ hx)
  obtain ⟨hnew,hhead,hfr⟩ := ring_pushBack hring hel
  refine ⟨⟨?_,?_,?_⟩,hhead⟩
  · rintro m (rfl | ⟨hm,hne⟩)
    · exact ⟨by simp,hnew⟩
    · exact ⟨(h.ring m hm).1,(h.ring m hm).2.congr fun x hx => hfr x (hfar m hm hne x hx)⟩
  · rintro m (rfl | ⟨hm,hmne⟩) n (rfl | ⟨hn,hnne⟩) x hxm hxn
    · rfl
    · exact absurd hxm (hfar n hn hnne x hxn)
    · exact absurd hxn (hfar m hm hmne x hxm)
    · exact h.disjoint m hm n hn x hxm hxn
  · intro x hx
    by_cases hmem : x ∈ l++[e]
    · exact ⟨l++[e],.inl rfl,hmem⟩
    rw [(hfr x hmem).2] at hx
    obtain ⟨m,hm,hxm⟩ := h.linked x hx
    refine ⟨m,.inr ⟨hm,?_⟩,hxm⟩
    rintro rfl
    exact hmem (by simp [hxm])

/-- The circles after an element has been taken out of one of them. -/
def remove (rings : Set (List α)) (l : List α) (e : α) : Set (List α) :=
  {m | (m = l.erase e ∧ m ≠ []) ∨ (m ∈ rings ∧ m ≠ l)}

theorem Rings.unlink (h : Rings links rings) (hl : l ∈ rings) (he : e ∈ l) (head : Option α) :
    Rings (unlink links head e).1 (remove rings l e) := by
  obtain ⟨hnew,hgone,hfr,-,-⟩ := ring_unlink (h.ring l hl).2 he head
  have hfar : ∀ m ∈ rings, m ≠ l → ∀ x ∈ m, x ∉ l := by
    intro m hm hne x hx hxl
    exact hne (h.disjoint m hm l hl x hx hxl)
  refine ⟨?_,?_,?_⟩
  · rintro m (⟨rfl,hne⟩ | ⟨hm,hne⟩)
    · exact ⟨hne,hnew⟩
    · exact ⟨(h.ring m hm).1,(h.ring m hm).2.congr fun x hx => hfr x (hfar m hm hne x hx)⟩
  · rintro m (⟨rfl,-⟩ | ⟨hm,hmne⟩) n (⟨rfl,-⟩ | ⟨hn,hnne⟩) x hxm hxn
    · rfl
    · exact absurd (mem_of_mem_erase hxm) (hfar n hn hnne x hxn)
    · exact absurd (mem_of_mem_erase hxn) (hfar m hm hmne x hxm)
    · exact h.disjoint m hm n hn x hxm hxn
  · intro x hx
    have hxe : x ≠ e := by
      rintro rfl
      simp [hgone] at hx
    by_cases hxl : x ∈ l
    · have hmem : x ∈ l.erase e := (mem_erase_of_ne hxe).mpr hxl
      exact ⟨l.erase e,.inl ⟨rfl,ne_nil_of_mem hmem⟩,hmem⟩
    rw [(hfr x hxl).2] at hx
    obtain ⟨m,hm,hxm⟩ := h.linked x hx
    refine ⟨m,.inr ⟨hm,?_⟩,hxm⟩
    rintro rfl
    exact hxl hxm

/-- Unlinking an element that is on no list clears the head and nothing else. -/
theorem unlink_unlisted (hself : links.next e = e) (hprev : links.prev e = none)
    (head : Option α) : Intrusive.unlink links head e = (links,none) := by
  rw [unlink_self hself,← hprev,update_eq_self]

end Collections

end A11.Intrusive
