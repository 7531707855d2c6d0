import Mathlib.Tactic

/-! A cursor shared by several holders. Each holder owns a list of positions; taking
the next positions from the cursor appends them to one holder. -/
namespace A11.SharedCursor
open List

/-- The holders share out exactly the positions below the cursor, each in order. -/
structure Shares (holders : List (List ℕ)) (cursor : ℕ) : Prop where
  perm : holders.flatten.Perm (List.range cursor)
  sorted : ∀ h ∈ holders, h.Pairwise fun a b => a < b

variable {holders : List (List ℕ)} {cursor : ℕ}

theorem Shares.empty : Shares [] 0 := ⟨by simp,by simp⟩

section

variable (h : Shares holders cursor)

include h

theorem Shares.mem_iff {n : ℕ} : (∃ l ∈ holders, n ∈ l) ↔ n < cursor := by
  rw [← mem_flatten,h.perm.mem_iff,mem_range]

/-- No position is held twice. -/
theorem Shares.unique {i j n : ℕ} {l m : List ℕ}
    (hl : holders[i]? = some l) (hm : holders[j]? = some m) (hnl : n ∈ l) (hnm : n ∈ m) :
    i = j := by
  have hnd : holders.flatten.Nodup := h.perm.nodup_iff.mpr nodup_range
  have hdisj := (List.nodup_flatten.mp hnd).2
  rw [List.pairwise_iff_getElem] at hdisj
  obtain ⟨hi,rfl⟩ := List.getElem?_eq_some_iff.mp hl
  obtain ⟨hj,rfl⟩ := List.getElem?_eq_some_iff.mp hm
  rcases Nat.lt_trichotomy i j with hlt | heq | hgt
  · exact absurd hnm (fun hnm => hdisj i j hi hj hlt hnl hnm)
  · exact heq
  · exact absurd hnl (fun hnl => hdisj j i hj hi hgt hnm hnl)

theorem Shares.newHolder : Shares (holders++[[]]) cursor where
  perm := by simpa using h.perm
  sorted l hl := by
    rcases mem_append.mp hl with hl | hl
    · exact h.sorted l hl
    · rw [mem_singleton.mp hl]
      exact Pairwise.nil

/-- Handing the next `n` positions to one holder. -/
theorem Shares.take {i n : ℕ} {l : List ℕ} (hl : holders[i]? = some l) :
    Shares (holders.set i (l++List.range' cursor n)) (cursor+n)  where
  perm := by
    obtain ⟨hi,rfl⟩ := List.getElem?_eq_some_iff.mp hl
    have hspl : holders = holders.take i++holders[i]::holders.drop (i+1) := by
      conv_lhs => rw [← List.set_getElem_self hi,List.set_eq_take_append_cons_drop,if_pos hi]
    have hold := h.perm
    rw [hspl] at hold
    rw [set_eq_take_append_cons_drop,if_pos hi,range_eq_range',← range'_append_1,
      ← range_eq_range',Nat.zero_add]
    refine Perm.trans ?_ (hold.append_right _)
    simp only [flatten_append,flatten_cons,append_assoc]
    refine (Perm.append_left _ ?_)
    exact Perm.append_left _ perm_append_comm
  sorted m hm := by
    rcases mem_or_eq_of_mem_set hm with hm | rfl
    · exact h.sorted m hm
    · have hmem := mem_of_getElem? hl
      refine pairwise_append.mpr ⟨h.sorted l hmem,pairwise_lt_range',fun a ha b hb => ?_⟩
      have hlt : a < cursor := h.mem_iff.mp ⟨l,hmem,ha⟩
      have hge := (mem_range'_1.mp hb).1
      omega

end

end A11.SharedCursor
