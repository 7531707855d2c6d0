import Mathlib.Data.List.Basic
import Mathlib.Logic.Function.Basic

/-! Sliding windows over shared blocks. A wide window is a view of at most two blocks that later
pushes go on filling, so it is read through the blocks of the moment. -/
namespace A11.SlidingWindows
open List Function

variable {α : Type}

/-- `Value::WindowList`, without the copy that its first read keeps. -/
structure WindowList where
  first : ℕ
  second : Option ℕ := none
  firstStart : ℕ := 0
  firstCount : ℕ := 0
  secondCount : ℕ := 0

def WindowList.size (window : WindowList) : ℕ := window.firstCount+window.secondCount

/-- A failed check, or a block that is not there, reads as `none`. -/
def WindowList.at (blocks : ℕ → List α) (window : WindowList) (index : ℕ) : Option α :=
  if index < window.firstCount then (blocks window.first)[window.firstStart+index]?
  else window.second.bind fun second => (blocks second)[index-window.firstCount]?

def WindowList.items (blocks : ℕ → List α) (window : WindowList) : List (Option α) :=
  (List.range window.size).map (window.at blocks)

/-- The two kinds of list that a push returns. -/
inductive Window (α : Type)
  | list (values : List α)
  | view (window : WindowList)

def Window.items (blocks : ℕ → List α) : Window α → List (Option α)
  | .list values => values.map some
  | .view window => window.items blocks

/-- `WindowBuffer` with the blocks it allocated, numbered from 0. -/
structure WindowBuffer (α : Type) where
  width : ℕ
  small : List α := []
  previous : Option ℕ := none
  current : Option ℕ := none
  seen : ℕ := 0
  blocks : ℕ → List α := fun _ => []
  allocated : ℕ := 0

namespace WindowBuffer

/-- `WindowBuffer::Push`; `none` is the failed check that there is a previous block. -/
def push (buffer : WindowBuffer α) (value : α) : Option (WindowBuffer α × Option (Window α)) :=
  if buffer.width ≤ 2 then
    let small := buffer.small++[value]
    if small.length < buffer.width then some ({ buffer with small },none)
    else
      let small := if small.length > buffer.width then small.tail else small
      some ({ buffer with small },some (.list small))
  else
    let current := buffer.current.getD buffer.allocated
    let allocated := buffer.allocated+if buffer.current.isNone then 1 else 0
    let blocks := Function.update buffer.blocks current (buffer.blocks current++[value])
    let position := (blocks current).length
    let seen := if buffer.seen < buffer.width then buffer.seen+1 else buffer.seen
    let buffer' := { buffer with blocks, allocated, seen, current := some current }
    if seen < buffer.width then some (buffer',none)
    else if position = buffer.width then
      some ({ buffer' with previous := some current, current := none },
        some (.view { first := current, firstCount := buffer.width }))
    else
      buffer.previous.map fun previous => (buffer',
        some (.view { first := previous, second := some current, firstStart := position,
                      firstCount := buffer.width-position, secondCount := position }))

/-- Successive pushes, with what each of them returned. -/
def pushAll (buffer : WindowBuffer α) : List α → Option (WindowBuffer α × List (Option (Window α)))
  | [] => some (buffer,[])
  | value::rest => do
    let (buffer,window) ← buffer.push value
    let (buffer,windows) ← buffer.pushAll rest
    pure (buffer,window::windows)

/-- What the buffer holds after `n = q * width + r` values. -/
structure Holds (buffer : WindowBuffer α) (values : List α) (q r : ℕ) : Prop where
  length : values.length = q*buffer.width+r
  lt : r < buffer.width
  blocks : ∀ b, buffer.blocks b = (values.drop (b*buffer.width)).take buffer.width
  allocated : buffer.allocated = q+if r = 0 then 0 else 1
  current : buffer.current = if r = 0 then none else some q
  previous : buffer.previous = if q = 0 then none else some (q-1)
  seen : buffer.seen = min values.length buffer.width

/-- The view that the push of the last of `q * width + p` values returns. -/
def view (width q p : ℕ) : WindowList :=
  if p = width then { first := q, firstCount := width }
  else { first := q-1, second := some q, firstStart := p, firstCount := width-p, secondCount := p }

end WindowBuffer

open WindowBuffer

section

variable {width q p : ℕ}

theorem size_view (hp : p ≤ width) : (view width q p).size = width := by
  unfold view
  split_ifs
  · rfl
  · exact Nat.sub_add_cancel hp

theorem at_view {values : List α} {blocks : ℕ → List α} {i : ℕ} (hp : p ≤ width)
    (hw : width ≤ q*width+p) (hi : i < width)
    (hb : ∀ b, blocks b = (values.drop (b*width)).take width) :
    (view width q p).at blocks i = values[q*width+p-width+i]? := by
  unfold view
  split_ifs with he
  · simp [WindowList.at,hb,hi,he]
  · obtain _ | q := q
    · omega
    simp only [WindowList.at,hb,List.getElem?_take,List.getElem?_drop,Option.bind_some,Nat.succ_mul,
      Nat.add_sub_cancel]
    split_ifs <;> first | omega | (congr 1; omega)

theorem view_items {values : List α} {blocks : ℕ → List α} (hp : p ≤ width)
    (hw : width ≤ q*width+p) (hn : q*width+p ≤ values.length)
    (hb : ∀ b, blocks b = (values.drop (b*width)).take width) :
    (view width q p).items blocks =
      ((values.take (q*width+p)).drop (q*width+p-width)).map some := by
  refine ext_getElem ?_ fun i hi hi' => ?_
  · simp [WindowList.items,size_view hp]
    omega
  · have hi : i < width := by simpa [WindowList.items,size_view hp] using hi
    simp [WindowList.items,at_view hp hw hi hb]

end

/-- What the push of the last of the given values returns. -/
inductive Returned (width : ℕ) (values : List α) : Option (Window α) → Prop
  | nothing (hn : values.length < width) : Returned width values none
  | list (hn : width ≤ values.length) :
      Returned width values (some (.list (values.drop (values.length-width))))
  | view {q p : ℕ} (hw : 2 < width) (hn : width ≤ values.length) (hp : p ≤ width)
      (hl : values.length = q*width+p) : Returned width values (some (.view (view width q p)))

section

variable {buffer : WindowBuffer α} {values : List α} {q r : ℕ}

theorem WindowBuffer.Holds.blocks_push (h : buffer.Holds values q r) (value : α) (b : ℕ) :
    update buffer.blocks q (buffer.blocks q++[value]) b =
      ((values++[value]).drop (b*buffer.width)).take buffer.width := by
  have hn := h.length
  have hr := h.lt
  rcases Nat.lt_trichotomy b q with hb | rfl | hb
  · have hle := Nat.mul_le_mul_right buffer.width hb
    rw [Nat.succ_mul] at hle
    rw [update_of_ne (Nat.ne_of_lt hb),h.blocks,drop_append_of_le_length (by omega),
      take_append_of_le_length (by rw [length_drop]; omega)]
  · rw [update_self,h.blocks,drop_append_of_le_length (by omega),
      take_of_length_le (by rw [length_drop]; omega),
      take_of_length_le (by simp; omega)]
  · have hle := Nat.mul_le_mul_right buffer.width hb
    rw [Nat.succ_mul] at hle
    rw [update_of_ne (Nat.ne_of_gt hb),h.blocks,drop_eq_nil_of_le (by omega),
      drop_eq_nil_of_le (by simp; omega)]

theorem WindowBuffer.Holds.push (h : buffer.Holds values q r) (hw : 2 < buffer.width) (value : α) :
    ∃ buffer' window q' r', buffer.push value = some (buffer',window) ∧
      Returned buffer.width (values++[value]) window ∧ buffer'.width = buffer.width ∧
      buffer'.Holds (values++[value]) q' r' := by
  have hn := h.length
  have hr := h.lt
  have hc : buffer.current.getD buffer.allocated = q := by
    rw [h.current,h.allocated]
    split_ifs <;> simp
  have ha : buffer.allocated+(if buffer.current.isNone then 1 else 0) = q+1 := by
    rw [h.current,h.allocated]
    split_ifs <;> simp_all
  have hp : (update buffer.blocks q (buffer.blocks q++[value]) q).length = r+1 := by
    rw [h.blocks]
    simp
    omega
  have hseen : (if buffer.seen < buffer.width then buffer.seen+1 else buffer.seen) =
      min (values.length+1) buffer.width := by
    rw [h.seen]
    split_ifs <;> omega
  have hl : (values++[value]).length = q*buffer.width+(r+1) := by
    simp
    omega
  simp only [WindowBuffer.push,if_neg (Nat.not_le.mpr hw),hc,ha,hp,hseen]
  split_ifs with hs he
  · exact ⟨_,_,q,r+1,rfl,.nothing (by simp; omega),rfl,hl,by dsimp only; omega,h.blocks_push value,
      rfl,rfl,h.previous,by simp⟩
  · refine ⟨_,_,q+1,0,rfl,?_,rfl,by rw [hl,he,Nat.succ_mul]; rfl,by dsimp only; omega,
      h.blocks_push value,rfl,rfl,rfl,by simp⟩
    have hv := Returned.view hw (by omega) (by omega) hl
    rwa [view,if_pos he] at hv
  · have hq : q ≠ 0 := by
      rintro rfl
      omega
    rw [h.previous,if_neg hq]
    refine ⟨_,_,q,r+1,rfl,?_,rfl,hl,by dsimp only; omega,h.blocks_push value,rfl,rfl,
      by simp [hq],by simp⟩
    have hv := Returned.view hw (by omega) (by omega) hl
    rwa [view,if_neg he] at hv

end

/-- The buffer after the given values. -/
inductive Sound (buffer : WindowBuffer α) (values : List α) : Prop
  | narrow (hw : buffer.width ≤ 2) (hs : buffer.small = values.drop (values.length-buffer.width))
  | wide {q r : ℕ} (hw : 2 < buffer.width) (hs : buffer.Holds values q r)

section

variable {buffer : WindowBuffer α} {values : List α}

theorem Sound.push (h : Sound buffer values) (hw : 1 ≤ buffer.width) (value : α) :
    ∃ buffer' window, buffer.push value = some (buffer',window) ∧
      Returned buffer.width (values++[value]) window ∧ buffer'.width = buffer.width ∧
      Sound buffer' (values++[value]) := by
  cases h with
  | narrow hn hs =>
    have happ : buffer.small++[value] =
        (values++[value]).drop (values.length-buffer.width) := by
      rw [hs,drop_append_of_le_length (Nat.sub_le _ _)]
    simp only [WindowBuffer.push,happ,length_drop,length_append,length_singleton]
    split_ifs with hl ht
    · exact ⟨_,_,rfl,.nothing (by simp; omega),rfl,.narrow hn (by dsimp only; congr 1; simp; omega)⟩
    · have hd : (values++[value]).length-buffer.width = values.length-buffer.width+1 := by
        simp
        omega
      rw [tail_drop,← hd]
      exact ⟨_,_,rfl,.list (by simp; omega),rfl,.narrow hn rfl⟩
    · have hd : (values++[value]).length-buffer.width = values.length-buffer.width := by
        simp
        omega
      rw [← hd]
      exact ⟨_,_,rfl,.list (by simp; omega),rfl,.narrow hn rfl⟩
  | wide hn hs =>
    obtain ⟨buffer',window,q,r,hp,hr,hw',hs'⟩ := hs.push hn value
    exact ⟨buffer',window,hp,hr,hw',.wide (hw' ▸ hn) hs'⟩

theorem Sound.pushAll (h : Sound buffer values) (hw : 1 ≤ buffer.width) (more : List α) :
    ∃ buffer' windows, buffer.pushAll more = some (buffer',windows) ∧
      buffer'.width = buffer.width ∧ Sound buffer' (values++more) ∧
      ∀ i < more.length, ∃ window, windows[i]? = some window ∧
        Returned buffer.width (values++more.take (i+1)) window := by
  induction more generalizing buffer values with
  | nil => exact ⟨buffer,[],rfl,rfl,by simpa using h,by simp⟩
  | cons value more ih =>
    obtain ⟨_,window,hp,hr₁,hw₁,hs₁⟩ := h.push hw value
    obtain ⟨buffer₂,windows,hp₂,hw₂,hs₂,hr₂⟩ := ih hs₁ (hw₁ ▸ hw)
    refine ⟨buffer₂,window::windows,by simp [WindowBuffer.pushAll,hp,hp₂],hw₂.trans hw₁,
      by simpa using hs₂,fun i hi => ?_⟩
    cases i with
    | zero => exact ⟨window,rfl,by simpa using hr₁⟩
    | succ i => simpa [hw₁] using hr₂ i (by simpa using hi)

end

/-- The `i`-th push returns nothing while `i < width`, and otherwise a list that reads as the last
`width` values of its moment also in the end, whatever has been pushed since. -/
theorem windows_exact (width : ℕ) (hw : 1 ≤ width) (values : List α) :
    ∃ buffer windows, WindowBuffer.pushAll { width } values = some (buffer,windows) ∧
      ∀ i, 1 ≤ i → i ≤ values.length → if i < width then windows[i-1]? = some none
        else ∃ window, windows[i-1]? = some (some window) ∧
          window.items buffer.blocks = ((values.take i).drop (i-width)).map some := by
  have hs : Sound { width } ([] : List α) := by
    rcases Nat.lt_or_ge 2 width with hn | hn
    · exact .wide hn (q := 0) (r := 0) ⟨by simp,hw,by simp,rfl,rfl,rfl,by simp⟩
    · exact .narrow hn (by simp)
  obtain ⟨buffer,windows,hp,hw',hs',hr⟩ := hs.pushAll hw values
  refine ⟨buffer,windows,hp,fun i hpos hi => ?_⟩
  obtain ⟨window,hwin,hret⟩ := hr (i-1) (by omega)
  rw [Nat.sub_add_cancel hpos,nil_append] at hret
  have hlen : (values.take i).length = i := length_take_of_le hi
  cases hret with
  | nothing hn => rwa [if_pos (hlen ▸ hn)]
  | list hn =>
    rw [if_neg (by rw [hlen] at hn; exact Nat.not_lt.mpr hn)]
    exact ⟨_,hwin,by rw [hlen]; rfl⟩
  | view hwide hn hp' hl =>
    rw [hlen] at hl hn
    rw [if_neg (Nat.not_lt.mpr hn)]
    subst hl
    cases hs' with
    | narrow hs' => exact absurd (hw' ▸ hwide) (Nat.not_lt.mpr hs')
    | wide _ hs' => exact ⟨_,hwin,view_items hp' hn hi (by simpa [hw'] using hs'.blocks)⟩

/-- Three windows of width three, the first of them read after two more pushes. -/
theorem windows_exact_three : ∃ buffer windows,
    WindowBuffer.pushAll { width := 3 } [1,2,3,4,5] = some (buffer,windows) ∧
      ∃ window, windows[2]? = some (some window) ∧
        window.items buffer.blocks = [some 1,some 2,some 3] := by
  obtain ⟨buffer,windows,hp,h⟩ := windows_exact 3 (by decide) [1,2,3,4,5]
  exact ⟨buffer,windows,hp,h 3 (by decide) (by decide)⟩

end A11.SlidingWindows
