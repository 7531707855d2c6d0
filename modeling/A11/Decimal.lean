import Mathlib.Tactic

/-! Natural numbers as decimal text: the canonical spelling of a number, the check that
a text is canonical and within a bound, and the round trip between the two. -/
namespace A11.Decimal
open Nat

abbrev Text := List Char

/-- The canonical spelling. -/
def text (n : ℕ) : Text := toDigits 10 n

def parse (t : Text) : ℕ := ofDigitChars 10 t 0

/-- Alphabetical order of texts. -/
def atMost : Text → Text → Bool
  | [], _ => true
  | _::_, [] => false
  | a::s, b::t => if a = b then atMost s t else decide (a.toNat < b.toNat)

/-- Digits only, no leading zero, and not above the bound. -/
def isCanonical (value maximum : Text) : Bool :=
  if value = [] ∨ value.any fun c => !c.isDigit then false
  else if 1 < value.length ∧ value.head? = some '0' then false
  else if value.length ≠ maximum.length then decide (value.length < maximum.length)
  else atMost value maximum

/-- The number a canonical text within the bound stands for. -/
def canonicalUint (value : Text) (maximum : ℕ) (maximumText : Text) : Option ℕ :=
  if !isCanonical value maximumText then none
  else if maximum < parse value then none
  else some (parse value)

@[simp] theorem parse_text (n : ℕ) : parse (text n) = n :=
  ofDigitChars_toDigits (by omega) (by omega)

theorem text_injective : Function.Injective text := by
  intro m n h
  rw [← parse_text m,h,parse_text]

variable {m n : ℕ}

@[simp] theorem text_inj : text m = text n ↔ m = n := text_injective.eq_iff

theorem text_ne_nil (n : ℕ) : text n ≠ [] := toDigits_ne_nil

theorem isDigit_of_mem_text {c : Char} (h : c ∈ text n) : c.isDigit :=
  isDigit_of_mem_toDigits (by omega) (by omega) h

theorem length_text_le (h : m ≤ n) : (text m).length ≤ (text n).length := by
  refine (length_toDigits_le_iff (by omega) (length_toDigits_pos)).mpr (h.trans_lt ?_)
  exact (length_toDigits_le_iff (by omega) (length_toDigits_pos)).mp le_rfl

/-- A spelling of more than one digit does not begin with zero. -/
theorem head_text (h : 1 < (text n).length) : (text n).head? ≠ some '0' := by
  induction n using Nat.strong_induction_on with
  | _ n ih =>
    intro hzero
    rw [text,toDigits_eq_if (by omega)] at h hzero
    split_ifs at h hzero with hlt
    · simp at h
    by_cases hten : n/10 < 10
    · rw [toDigits_of_lt_base hten] at hzero
      have hpos : 0 < n/10 := by omega
      generalize n/10 = d at hten hzero hpos
      interval_cases d <;> simp at hzero
    have hlong : 1 < (text (n/10)).length := by
      by_contra hsh
      have := (length_toDigits_le_iff (b := 10) (n := n/10) (k := 1) (by omega) (by omega)).mp
        (by simpa [text] using hsh)
      omega
    refine ih (n/10) (by omega) hlong ?_
    rwa [← text,List.head?_append_of_ne_nil _ (text_ne_nil (n/10))] at hzero

theorem digit_bounds {c : Char} (h : c.isDigit) : 48 ≤ c.toNat ∧ c.toNat ≤ 57 := by
  simp only [Char.isDigit,Bool.and_eq_true,decide_eq_true_eq] at h
  exact ⟨UInt32.le_iff_toNat_le.mp h.1,UInt32.le_iff_toNat_le.mp h.2⟩

/-- What follows a digit counts less than one unit of it. -/
theorem ofDigitChars_bounds {t : Text} (h : ∀ c ∈ t, c.isDigit) (acc : ℕ) :
    acc*10^t.length ≤ ofDigitChars 10 t acc ∧
      ofDigitChars 10 t acc < (acc+1)*10^t.length := by
  induction t generalizing acc with
  | nil => simp
  | cons c t ih =>
    obtain ⟨-,_⟩ := digit_bounds (h c (by simp))
    obtain ⟨hge,hlt⟩ := ih (fun d hd => h d (by simp [hd])) (10*acc+(c.toNat - '0'.toNat))
    have hzero : '0'.toNat = 48 := rfl
    rw [List.length_cons]
    constructor
    · calc
        acc*(10^t.length*10) = (10*acc)*10^t.length := by ring
        _ ≤ (10*acc+(c.toNat-48))*10^t.length := mul_le_mul_right _ (by omega)
        _ ≤ _ := hge
    · calc
        ofDigitChars 10 t (10*acc+(c.toNat-48)) < (10*acc+(c.toNat-48)+1)*10^t.length := hlt
        _ ≤ (10*(acc+1))*10^t.length := mul_le_mul_right _ (by omega)
        _ = (acc+1)*(10^t.length*10) := by ring

theorem atMost_of_le {s t : Text} (hs : ∀ c ∈ s, c.isDigit) (ht : ∀ c ∈ t, c.isDigit)
    (hlen : s.length = t.length) {acc : ℕ}
    (h : ofDigitChars 10 s acc ≤ ofDigitChars 10 t acc) : atMost s t := by
  induction s generalizing t acc with
  | nil => rfl
  | cons a s ih =>
    cases t with
    | nil => simp at hlen
    | cons b t =>
      have hs' : ∀ c ∈ s, c.isDigit := fun c hc => hs c (by simp [hc])
      have ht' : ∀ c ∈ t, c.isDigit := fun c hc => ht c (by simp [hc])
      simp only [List.length_cons,add_right_cancel_iff] at hlen
      simp only [ofDigitChars_cons] at h
      rw [atMost]
      split_ifs with hab
      · subst hab
        exact ih hs' ht' hlen h
      rw [decide_eq_true_eq]
      by_contra hle
      have hne : a.toNat ≠ b.toNat := fun heq => hab (Char.toNat_inj.mp heq)
      obtain ⟨_,-⟩ := digit_bounds (ht b (by simp))
      have hzero : '0'.toNat = 48 := rfl
      rw [hzero] at h
      have hsec := (ofDigitChars_bounds ht' (10*acc+(b.toNat-48))).2
      have hfst := (ofDigitChars_bounds hs' (10*acc+(a.toNat-48))).1
      have hstep : (10*acc+(b.toNat-48)+1)*10^t.length ≤ (10*acc+(a.toNat-48))*10^s.length := by
        rw [hlen]
        exact mul_le_mul_right _ (by omega)
      omega

theorem isCanonical_text (h : n ≤ m) : isCanonical (text n) (text m) := by
  have hdig : ∀ k, ∀ c ∈ text k, c.isDigit := fun k c hc => isDigit_of_mem_text hc
  have hany : ((text n).any fun c => !c.isDigit) = false := by
    simpa using hdig n
  unfold isCanonical
  rw [if_neg (by simp [text_ne_nil,hany]),if_neg fun hzero => head_text hzero.1 hzero.2]
  split_ifs with hlen
  · exact decide_eq_true (lt_of_le_of_ne (length_text_le h) hlen)
  · rw [not_not] at hlen
    have hle : parse (text n) ≤ parse (text m) := by simpa using h
    exact atMost_of_le (hdig n) (hdig m) hlen hle

/-- Reading back a number within the bound. -/
theorem canonicalUint_text (h : n ≤ m) : canonicalUint (text n) m (text m) = some n := by
  simp [canonicalUint,isCanonical_text h,not_lt.mpr h]

/-- Adding to a number held as text. -/
def increment (t : Text) (n : ℕ) : Text := text (parse t+n)

@[simp] theorem increment_text (m n : ℕ) : increment (text m) n = text (m+n) := by
  simp [increment]

end A11.Decimal
