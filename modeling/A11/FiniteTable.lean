import Mathlib.Data.Finmap
import Mathlib.Tactic

/-! Finite key-value tables.
A table is a `Finmap` with a constant value type. Merging keeps the entry that
is already present, which is the behaviour of `merge` and `emplace` on the hash
maps of the stores. -/
namespace A11
open List Finmap

/-- Stands for every hash map of the sources whose iteration order is not observed. -/
abbrev Table (κ ν : Type) := Finmap fun _ : κ => ν

theorem mem_zip_swap {α β : Type} {xs : List α} {ys : List β} {a : α} {b : β} :
    (a,b) ∈ xs.zip ys ↔ (b,a) ∈ ys.zip xs := by
  rw [← zip_swap ys xs,mem_map]
  simp [and_comm]

theorem sum_map_update {α : Type} [DecidableEq α] {l : List α} {a : α} {f g : α → ℕ}
    (hl : l.Nodup) (ha : a ∈ l) (h : ∀ b ∈ l, b ≠ a → g b = f b) :
    (l.map g).sum+f a = (l.map f).sum+g a := by
  have hrest : (l.erase a).map g = (l.erase a).map f := by
    refine map_congr_left fun b hb => ?_
    exact h b (mem_of_mem_erase hb) (hl.mem_erase_iff.mp hb).1
  rw [← sum_map_erase g ha,← sum_map_erase f ha,hrest]
  omega

namespace Table

variable {κ ν : Type} [DecidableEq κ]

theorem lookup_union (s t : Table κ ν) (k : κ) :
    (s ∪ t).lookup k = (s.lookup k).or (t.lookup k) := by
  by_cases h : k ∈ s
  · obtain ⟨v,hv⟩ := mem_iff.mp h
    rw [lookup_union_left h,hv]
    rfl
  · rw [lookup_union_right h,lookup_eq_none.mpr h]
    rfl

/-- Insertion that leaves an existing entry alone. -/
def emplace (t : Table κ ν) (k : κ) (v : ν) : Table κ ν := t ∪ singleton k v

theorem lookup_singleton (k a : κ) (v : ν) :
    (singleton k v : Table κ ν).lookup a = if a = k then some v else none := by
  by_cases h : a = k
  · subst h; simp
  · rw [if_neg h]
    apply lookup_eq_none.mpr
    simpa using h

theorem lookup_emplace (t : Table κ ν) (k a : κ) (v : ν) :
    (t.emplace k v).lookup a = (t.lookup a).or (if a = k then some v else none) := by
  rw [emplace,lookup_union,lookup_singleton]

/-- Insertion that replaces an existing entry. -/
def set (t : Table κ ν) (k : κ) (v : ν) : Table κ ν := insert k v t

theorem lookup_set (t : Table κ ν) (k a : κ) (v : ν) :
    (t.set k v).lookup a = if a = k then some v else t.lookup a := by
  by_cases h : a = k
  · subst h; simp [set]
  · rw [if_neg h,set,lookup_insert_of_ne _ h]

/-- Tables built by emplacing a list of entries into an empty one. -/
def emplaceAll (t : Table κ ν) : List (κ × ν) → Table κ ν
  | [] => t
  | e::es => emplaceAll (t.emplace e.1 e.2) es

section

variable (t : Table κ ν)

@[simp] theorem emplaceAll_nil : t.emplaceAll [] = t := rfl

theorem emplaceAll_cons (e : κ × ν) (es : List (κ × ν)) :
    t.emplaceAll (e::es) = (t.emplace e.1 e.2).emplaceAll es := rfl

variable (es : List (κ × ν))

theorem lookup_emplaceAll (a : κ) :
    (t.emplaceAll es).lookup a = (t.lookup a).or ((es.find? fun e => e.1 = a).map Prod.snd) := by
  induction es generalizing t with
  | nil => simp
  | cons e es ih =>
    rw [emplaceAll_cons,ih,lookup_emplace]
    by_cases h : e.1 = a
    · simp [h]
    · simp [h,Ne.symm h]

/-- Merging a staged table equals emplacing its entries one by one. -/
theorem union_emplaceAll :
    t ∪ (∅ : Table κ ν).emplaceAll es = t.emplaceAll es := by
  apply ext_lookup
  intro a
  rw [lookup_union,lookup_emplaceAll,lookup_emplaceAll]
  simp

theorem mem_emplaceAll (a : κ) :
    a ∈ t.emplaceAll es ↔ a ∈ t ∨ a ∈ es.map Prod.fst := by
  induction es generalizing t with
  | nil => simp
  | cons e es ih =>
    rw [emplaceAll_cons,ih,emplace,Finmap.mem_union,Finmap.mem_singleton]
    simp only [map_cons,mem_cons]
    tauto

end

variable {k : κ} {t : Table κ ν}

theorem notMem_emplace {ks : List κ} (v : ν) (hk : k ∉ ks)
    (h : ∀ a ∈ ks, a ∉ t) : ∀ a ∈ ks, a ∉ t.emplace k v := by
  intro a ha hmem
  rw [emplace,Finmap.mem_union,Finmap.mem_singleton] at hmem
  rcases hmem with hmem | rfl
  · exact h a ha hmem
  · exact hk ha

/-- Emplacing entries with fresh and distinct keys adds exactly those entries. -/
theorem lookup_emplaceAll_of_fresh (t : Table κ ν) (es : List (κ × ν))
    (hnd : (es.map Prod.fst).Nodup) (h : ∀ k ∈ es.map Prod.fst, k ∉ t) (k : κ) (v : ν) :
    (t.emplaceAll es).lookup k = some v ↔ t.lookup k = some v ∨ (k,v) ∈ es := by
  induction es generalizing t with
  | nil => simp
  | cons e es ih =>
    obtain ⟨k',v'⟩ := e
    simp only [map_cons,nodup_cons,forall_mem_cons] at hnd h
    rw [emplaceAll_cons,ih _ hnd.2 (notMem_emplace v' hnd.1 h.2),lookup_emplace]
    by_cases hk : k = k'
    · subst hk
      simp [lookup_eq_none.mpr h.1,eq_comm]
    · simp [hk]

/-- The number of entries. -/
def size (t : Table κ ν) : ℕ := t.keys.card

omit [DecidableEq κ] in
@[simp] theorem size_empty : (∅ : Table κ ν).size = 0 := by simp [size]

section

variable (t : Table κ ν)

theorem size_emplace (v : ν) (h : k ∉ t) : (t.emplace k v).size = t.size+1 := by
  simp only [size,emplace,keys_union,keys_singleton]
  rw [Finset.card_union_of_disjoint]
  · simp
  · rw [Finset.disjoint_singleton_right]
    exact h

theorem size_emplaceAll (es : List (κ × ν)) (hnd : (es.map Prod.fst).Nodup)
    (h : ∀ k ∈ es.map Prod.fst, k ∉ t) : (t.emplaceAll es).size = t.size+es.length := by
  induction es generalizing t with
  | nil => simp
  | cons e es ih =>
    simp only [map_cons,nodup_cons,forall_mem_cons] at hnd h
    rw [emplaceAll_cons,ih _ hnd.2 (notMem_emplace e.2 hnd.1 h.2),size_emplace _ _ h.1]
    simp only [length_cons]
    omega

theorem mem_set (k a : κ) (v : ν) : a ∈ t.set k v ↔ a = k ∨ a ∈ t := mem_insert

theorem mem_set_of_mem (v : ν) (h : k ∈ t) (a : κ) : a ∈ t.set k v ↔ a ∈ t := by
  rw [mem_set]
  constructor
  · rintro (rfl | ha)
    · exact h
    · exact ha
  · exact .inr

theorem keys_set_of_mem (v : ν) (h : k ∈ t) : (t.set k v).keys = t.keys := by
  ext a
  rw [Finmap.mem_keys,Finmap.mem_keys,mem_set_of_mem t v h]

end

theorem set_of_lookup {v : ν} (h : t.lookup k = some v) : t.set k v = t := by
  apply ext_lookup
  intro a
  rw [lookup_set]
  split_ifs with ha
  · rw [ha,h]
  · rfl

section

variable (t : Table κ ν)

theorem keys_set (k : κ) (v : ν) : (t.set k v).keys = insert k t.keys := by
  ext a
  rw [Finmap.mem_keys,mem_set,Finset.mem_insert,Finmap.mem_keys]

theorem size_set_of_notMem (v : ν) (h : k ∉ t) : (t.set k v).size = t.size+1 := by
  rw [size,keys_set,Finset.card_insert_of_notMem (by rwa [Finmap.mem_keys]),size]

theorem size_set_of_mem (v : ν) (h : k ∈ t) : (t.set k v).size = t.size := by
  rw [size,keys_set_of_mem t v h,size]

theorem lookup_erase (k a : κ) :
    (t.erase k).lookup a = if a = k then none else t.lookup a := by
  split_ifs with h
  · subst h
    exact Finmap.lookup_erase a t
  · exact Finmap.lookup_erase_ne h

theorem size_erase_of_mem (h : k ∈ t) : size (t.erase k)+1 = t.size := by
  rw [size,Finmap.keys_erase,Finset.card_erase_add_one (by rwa [Finmap.mem_keys]),size]

end

omit [DecidableEq κ] in
theorem size_le_of_mem {μ : Type} {u : Table κ μ} (h : ∀ k ∈ t, k ∈ u) :
    t.size ≤ u.size :=
  Finset.card_le_card fun k hk => mem_keys.mpr (h k (mem_keys.mp hk))

end Table
end A11
