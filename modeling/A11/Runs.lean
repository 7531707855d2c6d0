import Mathlib.Tactic

/-! Runs of a deterministic machine over a list of inputs: invariants, relations that
only grow along a run, and lockstep simulation of one machine by another. -/
namespace A11.Runs
open List

variable {σ τ α ω ω' : Type}

/-- The state after a list of inputs. -/
def after (step : σ → α → σ) : σ → List α → σ
  | s, [] => s
  | s, a::as => after step (step s a) as

/-- The answers given on the way. -/
def answers (exec : σ → α → ω × σ) : σ → List α → List ω
  | _, [] => []
  | s, a::as => (exec s a).1::answers exec (exec s a).2 as

def weave (rest : List α → List (List α)) (a : α) (as : List α) : List α → List (List α)
  | [] => [a::as]
  | b::bs => (rest (b::bs)).map (a::·)++(weave rest a as bs).map (b::·)

/-- The lists made of the entries of two lists, those of each in their order. -/
def interleavings : List α → List α → List (List α)
  | [], bs => [bs]
  | a::as, bs => weave (interleavings as) a as bs

/-- Every step of the run is taken in a state and with an input that satisfy `P`. -/
def Along (step : σ → α → σ) (P : σ → α → Prop) : σ → List α → Prop
  | _, [] => True
  | s, a::as => P s a ∧ Along step P (step s a) as

variable (step : σ → α → σ)

theorem after_append (s : σ) (as bs : List α) :
    after step s (as++bs) = after step (after step s as) bs := by
  induction as generalizing s with
  | nil => rfl
  | cons a as ih => exact ih _

variable {step : σ → α → σ} {s : σ} {I : σ → Prop}

theorem after_invariant (hstep : ∀ s a, I s → I (step s a))
    (hs : I s) (as : List α) : I (after step s as) := by
  induction as generalizing s with
  | nil => exact hs
  | cons a as ih => exact ih (hstep s a hs)

/-- A reflexive and transitive relation that every step extends relates the start of
a run to its end. -/
theorem after_grows {R : σ → σ → Prop} (hrefl : ∀ s, R s s)
    (htrans : ∀ {s t u}, R s t → R t u → R s u) (hinv : ∀ s a, I s → I (step s a))
    (hstep : ∀ s a, I s → R s (step s a)) (hs : I s) (as : List α) : R s (after step s as) := by
  induction as generalizing s with
  | nil => exact hrefl s
  | cons a as ih => exact htrans (hstep s a hs) (ih (hinv s a hs))

variable {as : List α}

theorem along_of_forall {P : α → Prop} (h : ∀ a ∈ as, P a) : Along step (fun _ a => P a) s as := by
  induction as generalizing s with
  | nil => trivial
  | cons a as ih => exact ⟨h a (by simp),ih fun b hb => h b (by simp [hb])⟩

theorem Along.mono {P Q : σ → α → Prop} (h : ∀ s a, P s a → Q s a)
    (halong : Along step P s as) : Along step Q s as := by
  induction as generalizing s with
  | nil => trivial
  | cons a as ih => exact ⟨h s a halong.1,ih halong.2⟩

instance decidableAlong (step : σ → α → σ) (P : σ → α → Prop) [∀ s a, Decidable (P s a)] :
    (s : σ) → (as : List α) → Decidable (Along step P s as)
  | _, [] => isTrue trivial
  | s, a::as =>
    have := decidableAlong step P (step s a) as
    inferInstanceAs (Decidable (P s a ∧ Along step P (step s a) as))

variable {P : σ → α → Prop}

/-- An invariant that only `P` steps keep. -/
theorem after_along (hstep : ∀ s a, I s → P s a → I (step s a)) (hs : I s)
    (halong : Along step P s as) : I (after step s as) := by
  induction as generalizing s with
  | nil => exact hs
  | cons a as ih => exact ih (hstep s a hs halong.1) halong.2

/-- Some step of the run was a `P` step, and no `Q` step has been taken since. -/
def Since (step : σ → α → σ) (P Q : σ → α → Prop) (s : σ) (as : List α) : Prop :=
  ∃ before a later, as = before++a::later ∧ P (after step s before) a ∧
    ∀ mid b rest, later = mid++b::rest → ¬Q (after step s (before++a::mid)) b

theorem not_since_nil (P Q : σ → α → Prop) (s : σ) : ¬Since step P Q s [] := by
  rintro ⟨_,a,_,h,-⟩
  simp at h

theorem since_append_singleton (P Q : σ → α → Prop) (s : σ) (as : List α)
    (b : α) : Since step P Q s (as++[b]) ↔
      P (after step s as) b ∨ (Since step P Q s as ∧ ¬Q (after step s as) b) := by
  constructor
  · rintro ⟨before,a,later,heq,hP,hQ⟩
    rcases eq_nil_or_concat later with rfl | ⟨later,c,rfl⟩
    · obtain ⟨rfl,rfl⟩ : as = before ∧ b = a := by simpa using append_inj' heq rfl
      exact .inl hP
    rw [concat_eq_append] at heq hQ
    have hspl : as++[b] = (before++a::later)++[c] := by simpa using heq
    obtain ⟨rfl,rfl⟩ : as = before++a::later ∧ b = c := by
      simpa using append_inj' hspl rfl
    refine .inr ⟨⟨before,a,later,rfl,hP,?_⟩,hQ later b [] rfl⟩
    intro mid c rest hlat
    exact hQ mid c (rest++[b]) (by simp [hlat])
  · rintro (hP | ⟨⟨before,a,later,rfl,hP,hQ⟩,hlast⟩)
    · exact ⟨as,b,[],rfl,hP,by simp⟩
    · refine ⟨before,a,later++[b],by simp,hP,?_⟩
      intro mid c rest hlat
      rcases eq_nil_or_concat rest with rfl | ⟨rest,d,rfl⟩
      · obtain ⟨rfl,rfl⟩ : later = mid ∧ b = c := by simpa using append_inj' hlat rfl
        exact hlast
      have hspl : later++[b] = (mid++c::rest)++[d] := by simpa using hlat
      obtain ⟨rfl,-⟩ : later = mid++c::rest ∧ b = d := by
        simpa using append_inj' hspl rfl
      exact hQ mid c rest rfl

/-- If a step breaks `Q` exactly when it is not taken as `P` says, then `Q` holds all the way
exactly when every step is taken so. -/
theorem forall_after_iff_along {I Q : σ → Prop} (hinv : ∀ s a, I s → I (step s a))
    (hkeep : ∀ s a, I s → Q s → (Q (step s a) ↔ P s a)) (hI : I s) (hQ : Q s) (as : List α) :
    (∀ done, done <+: as → Q (after step s done)) ↔ Along step P s as := by
  induction as generalizing s with
  | nil =>
    refine ⟨fun _ => trivial,fun _ done hdone => ?_⟩
    rw [prefix_nil.mp hdone]
    exact hQ
  | cons a as ih =>
    constructor
    · intro h
      have hQ' : Q (step s a) := h [a] (by simp)
      refine ⟨(hkeep s a hI hQ).mp hQ',(ih (hinv s a hI) hQ').mp fun done hdone => ?_⟩
      exact h (a::done) (cons_prefix_cons.mpr ⟨rfl,hdone⟩)
    · rintro ⟨hP,halong⟩ done hdone
      have hQ' := (hkeep s a hI hQ).mpr hP
      cases done with
      | nil => exact hQ
      | cons b done =>
        obtain ⟨rfl,hrest⟩ := cons_prefix_cons.mp hdone
        exact (ih (hinv s b hI) hQ').mpr halong done hrest

/-- Two machines whose steps agree on related states, as long as `P` holds, give
related answers along the whole run. -/
theorem simulate {exec : σ → α → ω × σ} {exec' : τ → α → ω' × τ} {R : σ → τ → Prop}
    {V : ω → ω' → Prop}
    (hstep : ∀ s t a, R s t → P s a → V (exec s a).1 (exec' t a).1 ∧ R (exec s a).2 (exec' t a).2)
    {t : τ} (hst : R s t) (halong : Along (fun s a => (exec s a).2) P s as) :
    List.Forall₂ V (answers exec s as) (answers exec' t as) ∧
      R (after (fun s a => (exec s a).2) s as) (after (fun t a => (exec' t a).2) t as) := by
  induction as generalizing s t with
  | nil => exact ⟨.nil,hst⟩
  | cons a as ih =>
    obtain ⟨hP,hrest⟩ := halong
    obtain ⟨hV,hR⟩ := hstep s t a hst hP
    obtain ⟨hanswers,hafter⟩ := ih hR hrest
    exact ⟨.cons hV hanswers,hafter⟩

end A11.Runs
