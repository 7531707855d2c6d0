import Mathlib.Tactic

/-! Ordered maps as lists of entries by increasing key. -/
namespace A11.Entries
open List

variable {κ ν : Type} [LT κ]

def Sorted (entries : List (κ × ν)) : Prop := entries.Pairwise fun a b => a.1 < b.1

section Updates

variable [DecidableLT κ] [DecidableEq κ]

/-- Sets the value of a key. -/
def put (key : κ) (value : ν) : List (κ × ν) → List (κ × ν)
  | [] => [(key,value)]
  | (k,v)::rest =>
    if k < key then (k,v)::put key value rest
    else if k = key then (key,value)::rest
    else (key,value)::(k,v)::rest

/-- Sets the value of a key that has none. -/
def emplace (key : κ) (value : ν) : List (κ × ν) → List (κ × ν)
  | [] => [(key,value)]
  | (k,v)::rest =>
    if k < key then (k,v)::emplace key value rest
    else if k = key then (k,v)::rest
    else (key,value)::(k,v)::rest

def find (key : κ) : List (κ × ν) → Option ν
  | [] => none
  | (k,v)::rest => if k = key then some v else find key rest

variable {entries : List (κ × ν)}

theorem put_of_lt {key : κ} (h : ∀ e ∈ entries, e.1 < key) (value : ν) :
    put key value entries = entries++[(key,value)] := by
  induction entries with
  | nil => rfl
  | cons e entries ih =>
    obtain ⟨k,v⟩ := e
    rw [put,if_pos (h (k,v) (by simp)),ih fun e he => h e (by simp [he])]
    rfl

theorem emplace_of_lt {key : κ} (h : ∀ e ∈ entries, e.1 < key)
    (value : ν) : emplace key value entries = entries++[(key,value)] := by
  induction entries with
  | nil => rfl
  | cons e entries ih =>
    obtain ⟨k,v⟩ := e
    rw [emplace,if_pos (h (k,v) (by simp)),ih fun e he => h e (by simp [he])]
    rfl

/-- Entries that come by increasing key are kept as they come. -/
theorem foldl_put_sorted {entries before : List (κ × ν)} (h : Sorted (before++entries)) :
    entries.foldl (fun all e => put e.1 e.2 all) before = before++entries := by
  induction entries generalizing before with
  | nil => simp
  | cons e entries ih =>
    have hlt : ∀ b ∈ before, b.1 < e.1 := fun b hb =>
      (pairwise_append.mp h).2.2 b hb e (by simp)
    have hnext : Sorted ((before++[e])++entries) := by simpa using h
    rw [foldl_cons,put_of_lt hlt,ih hnext]
    simp

theorem find_put_ne {key other : κ} (h : key ≠ other) (value : ν) (entries : List (κ × ν)) :
    find key (put other value entries) = find key entries := by
  induction entries with
  | nil => simp [put,find,Ne.symm h]
  | cons e entries ih =>
    rw [put]
    split_ifs with hlt heq
    · simp [find,ih]
    · subst heq
      simp [find,Ne.symm h]
    · simp [find,Ne.symm h]

theorem find_put_self [Std.Irrefl (α := κ) (· < ·)] (key : κ) (value : ν)
    (entries : List (κ × ν)) : find key (put key value entries) = some value := by
  induction entries with
  | nil => simp [put,find]
  | cons e entries ih =>
    obtain ⟨k,v⟩ := e
    rw [put]
    split_ifs with hlt heq
    · have hne : k ≠ key := by
        rintro rfl
        exact Std.Irrefl.irrefl k hlt
      rw [find,if_neg hne,ih]
    · simp [find]
    · simp [find]

theorem mem_put {key : κ} {value : ν} {e : κ × ν}
    (h : e ∈ put key value entries) : e = (key,value) ∨ e ∈ entries := by
  induction entries with
  | nil => simpa [put] using h
  | cons a entries ih =>
    rw [put] at h
    split_ifs at h with hlt heq
    · rcases mem_cons.mp h with rfl | h
      · simp
      · rcases ih h with h | h
        · exact .inl h
        · exact .inr (by simp [h])
    · rcases mem_cons.mp h with h | h
      · exact .inl h
      · exact .inr (by simp [h])
    · rcases mem_cons.mp h with h | h
      · exact .inl h
      · exact .inr h

theorem length_put_le (key : κ) (value : ν) (entries : List (κ × ν)) :
    (put key value entries).length ≤ entries.length+1 := by
  induction entries with
  | nil => simp [put]
  | cons e entries ih =>
    rw [put]
    split_ifs <;> simp only [length_cons] <;> omega

theorem sorted_put [Std.Trichotomous (α := κ) (· < ·)] [Trans (α := κ) (· < ·) (· < ·) (· < ·)]
    (h : Sorted entries) (key : κ) (value : ν) :
    Sorted (put key value entries) := by
  induction entries with
  | nil => simp [put,Sorted]
  | cons e entries ih =>
    obtain ⟨k,v⟩ := e
    obtain ⟨hfst,hrest⟩ := pairwise_cons.mp h
    rw [put]
    split_ifs with hlt heq
    · refine pairwise_cons.mpr ⟨?_,ih hrest⟩
      intro e he
      rcases mem_put he with rfl | he
      · exact hlt
      · exact hfst e he
    · subst heq
      exact pairwise_cons.mpr ⟨hfst,hrest⟩
    · have hbef : key < k := by
        by_contra hnot
        exact heq (Std.Trichotomous.trichotomous _ _ hlt hnot)
      refine pairwise_cons.mpr ⟨?_,h⟩
      intro e he
      rcases mem_cons.mp he with rfl | he
      · exact hbef
      · exact Trans.trans hbef (hfst e he)

/-- Setting a key that has no value is setting it. -/
theorem emplace_eq (key : κ) (value : ν) (entries : List (κ × ν)) :
    emplace key value entries = entries ∨ emplace key value entries = put key value entries := by
  induction entries with
  | nil => exact .inr rfl
  | cons e entries ih =>
    rw [emplace,put]
    split_ifs
    · exact ih.imp (congrArg _) (congrArg _)
    · exact .inl rfl
    · exact .inr rfl

theorem mem_emplace {key : κ} {value : ν} {e : κ × ν}
    (h : e ∈ emplace key value entries) : e = (key,value) ∨ e ∈ entries := by
  rcases emplace_eq key value entries with heq | heq <;> rw [heq] at h
  · exact .inr h
  · exact mem_put h

theorem sorted_emplace [Std.Trichotomous (α := κ) (· < ·)] [Trans (α := κ) (· < ·) (· < ·) (· < ·)]
    (h : Sorted entries) (key : κ) (value : ν) : Sorted (emplace key value entries) := by
  rcases emplace_eq key value entries with heq | heq <;> rw [heq]
  · exact h
  · exact sorted_put h key value

end Updates
end A11.Entries
