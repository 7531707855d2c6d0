import Mathlib.Data.List.DropRight
import Mathlib.Tactic

/-! Text in bytes: case, white space, searching, cutting into fields, and the unsigned
and signed numbers that a text spells. -/
namespace A11.Ascii
open List

abbrev Text := List UInt8

def ofString (s : String) : Text := s.toList.map fun c => c.toNat.toUInt8

def lowerByte (c : UInt8) : UInt8 := if 65 ≤ c ∧ c ≤ 90 then c+32 else c
def upperByte (c : UInt8) : UInt8 := if 97 ≤ c ∧ c ≤ 122 then c-32 else c

def lower (t : Text) : Text := t.map lowerByte
def upper (t : Text) : Text := t.map upperByte

def isSpace (c : UInt8) : Bool := c == 32 || (9 ≤ c && c ≤ 13)

/-- Without the white space at both ends. -/
def strip (t : Text) : Text := (t.dropWhile isSpace).rdropWhile isSpace

/-- The first position at which the pattern stands. -/
def find (pattern : Text) : Text → Option ℕ
  | [] => if pattern = [] then some 0 else none
  | c::cs => if pattern <+: c::cs then some 0 else (find pattern cs).map (·+1)

/-- The text up to the first separator and the text behind it. -/
def cutAt (separator : UInt8) (t : Text) : Option (Text × Text) :=
  match t.idxOf? separator with
  | some i => some (t.take i,t.drop (i+1))
  | none => none

/-- The text up to the last separator and the text behind it. -/
def cutAtLast (separator : UInt8) (t : Text) : Option (Text × Text) :=
  (cutAt separator t.reverse).map fun (behind,front) => (front.reverse,behind.reverse)

/-- At most `n` cuts, from the left. -/
def splitMax (separator : UInt8) : ℕ → Text → List Text
  | 0, t => [t]
  | n+1, t => match cutAt separator t with
    | some (field,rest) => field::splitMax separator n rest
    | none => [t]

/-! ### Numbers -/

def digitValue (c : UInt8) : Option ℕ :=
  if 48 ≤ c ∧ c ≤ 57 then some (c.toNat-48)
  else if 97 ≤ c ∧ c ≤ 102 then some (c.toNat-87)
  else if 65 ≤ c ∧ c ≤ 70 then some (c.toNat-55)
  else none

/-- The digits of a number in the given base, after the digits already read. -/
def digitsFrom (base : ℕ) : ℕ → Text → Option ℕ
  | value, [] => some value
  | value, c::cs => match digitValue c with
    | some d => if d < base then digitsFrom base (value*base+d) cs else none
    | none => none

/-- The sign of a stripped text and what stands behind it. -/
def cutSign (t : Text) : Bool × Text :=
  match t with
  | 45::rest => (true,rest)
  | 43::rest => (false,rest)
  | _ => (false,t)

/-- A hexadecimal text may begin with `0x`. -/
def cutBase (base : ℕ) (t : Text) : Text :=
  match t with
  | 48::x::rest => if base = 16 ∧ (x = 120 ∨ x = 88) then rest else t
  | _ => t

/-- Sign and magnitude of a text, white space around it allowed. -/
def number (base : ℕ) (t : Text) : Option (Bool × ℕ) :=
  let (negative,rest) := cutSign (strip t)
  let digits := cutBase base rest
  if digits = [] then none else (digitsFrom base 0 digits).map fun n => (negative,n)

def unsigned64 (base : ℕ) (t : Text) : Option ℕ :=
  match number base t with
  | some (false,n) => if n < 2^64 then some n else none
  | _ => none

def unsigned32 (t : Text) : Option ℕ :=
  match number 10 t with
  | some (false,n) => if n < 2^32 then some n else none
  | _ => none

def signed32 (t : Text) : Option ℤ :=
  match number 10 t with
  | some (negative,n) =>
    let value : ℤ := if negative then -n else n
    if -2^31 ≤ value ∧ value < 2^31 then some value else none
  | none => none

/-! ### Case -/

theorem upper_upper (t : Text) : upper (upper t) = upper t := by
  have hall : ∀ n < 256, upperByte (upperByte (UInt8.ofNat n)) = upperByte (UInt8.ofNat n) := by
    decide +kernel
  have hbyte : ∀ c, upperByte (upperByte c) = upperByte c := by
    intro c
    rw [← UInt8.ofNat_toNat (x := c)]
    exact hall c.toNat c.toNat_lt
  simp [upper,hbyte]

/-! ### Stripping -/

/-- No white space at either end. -/
def Trimmed (t : Text) : Prop :=
  (∀ c ∈ t.head?, isSpace c = false) ∧ ∀ c ∈ t.getLast?, isSpace c = false

theorem dropWhile_append_of_all {p : UInt8 → Bool} {s t : Text} (h : ∀ c ∈ s, p c = true) :
    (s++t).dropWhile p = t.dropWhile p := by
  induction s with
  | nil => rfl
  | cons c s ih =>
    rw [cons_append,dropWhile_cons_of_pos (h c (by simp))]
    exact ih fun d hd => h d (by simp [hd])

variable {t : Text}

theorem dropWhile_of_head {p : UInt8 → Bool} (h : ∀ c ∈ t.head?, p c = false) :
    t.dropWhile p = t := by
  cases t with
  | nil => rfl
  | cons c t => exact dropWhile_cons_of_neg (by simp [h c (by simp)])

theorem strip_of_trimmed {lead t trail : Text} (hlead : ∀ c ∈ lead, isSpace c = true)
    (htrail : ∀ c ∈ trail, isSpace c = true) (ht : Trimmed t) : strip (lead++t++trail) = t := by
  have hright : ∀ u : Text, u.rdropWhile isSpace = (u.reverse.dropWhile isSpace).reverse :=
    fun _ => rfl
  have hreverse : ∀ c ∈ t.reverse.head?, isSpace c = false := by
    rw [head?_reverse]
    exact ht.2
  have htrailing : ∀ c ∈ trail.reverse, isSpace c = true := by simpa using htrail
  rw [strip,append_assoc,dropWhile_append_of_all hlead,hright]
  cases t with
  | nil =>
    have hall : trail.dropWhile isSpace = [] := by
      simpa using dropWhile_append_of_all (t := []) htrail
    simp [hall]
  | cons c t =>
    have hhead : ((c::t)++trail).dropWhile isSpace = (c::t)++trail :=
      dropWhile_of_head (by simpa using ht.1)
    rw [hhead,reverse_append,dropWhile_append_of_all htrailing,dropWhile_of_head hreverse,
      reverse_reverse]

/-! ### Cutting -/

variable {separator : UInt8}

theorem idxOf?_append_cons {s : Text} (t : Text) (h : separator ∉ s) :
    (s++separator::t).idxOf? separator = some s.length := by
  refine idxOf?_eq_some_iff.mpr ⟨by simp,by simp,?_⟩
  intro j hj
  rw [getElem_append_left hj]
  exact fun heq => h (heq ▸ getElem_mem hj)

theorem cutAt_append {s : Text} (t : Text) (h : separator ∉ s) :
    cutAt separator (s++separator::t) = some (s,t) := by
  rw [cutAt,idxOf?_append_cons t h]
  simp

theorem cutAt_eq_none (h : separator ∉ t) :
    cutAt separator t = none := by
  rw [cutAt,idxOf?_eq_none_iff.mpr h]

/-! ### Texts of digits -/

variable {base value n : ℕ}

theorem digitValue_of_mem (h : digitsFrom base value t = some n)
    {c : UInt8} (hc : c ∈ t) : ∃ d, digitValue c = some d := by
  induction t generalizing value with
  | nil => simp at hc
  | cons a t ih =>
    rw [digitsFrom] at h
    cases ha : digitValue a with
    | none => simp [ha] at h
    | some d =>
      rw [ha] at h
      dsimp only at h
      split_ifs at h
      rcases mem_cons.mp hc with rfl | hc
      · exact ⟨d,ha⟩
      · exact ih h hc

theorem isSpace_of_digitValue {c : UInt8} {d : ℕ} (h : digitValue c = some d) :
    isSpace c = false := by
  by_contra hspace
  have hrng : c.toNat < 48 := by
    simp only [isSpace,Bool.not_eq_false,Bool.or_eq_true,beq_iff_eq,Bool.and_eq_true,
      decide_eq_true_eq] at hspace
    rcases hspace with rfl | ⟨-,hle⟩
    · decide
    · exact hle.trans_lt (by decide)
  have hnone : digitValue c = none := by
    unfold digitValue
    have h48 : ¬ (48 : UInt8) ≤ c := by
      exact not_le.mpr hrng
    have h97 : ¬ (97 : UInt8) ≤ c := by
      exact not_le.mpr (hrng.trans (by decide))
    have h65 : ¬ (65 : UInt8) ≤ c := by
      exact not_le.mpr (hrng.trans (by decide))
    simp [h48,h97,h65]
  rw [hnone] at h
  simp at h

theorem trimmed_of_digits (h : digitsFrom base value t = some n) :
    Trimmed t := by
  constructor
  · intro c hc
    obtain ⟨d,hd⟩ := digitValue_of_mem h (mem_of_mem_head? hc)
    exact isSpace_of_digitValue hd
  · intro c hc
    obtain ⟨d,hd⟩ := digitValue_of_mem h (mem_of_getLast? hc)
    exact isSpace_of_digitValue hd

theorem notMem_of_digits (h : digitsFrom base value t = some n)
    {c : UInt8} (hc : digitValue c = none) : c ∉ t := by
  intro hmem
  obtain ⟨d,hd⟩ := digitValue_of_mem h hmem
  rw [hc] at hd
  simp at hd

/-- A text of digits is read as the number it spells. -/
theorem number_digits {base n : ℕ} (hne : t ≠ []) (h : digitsFrom base 0 t = some n) :
    number base t = some (false,n) := by
  have hstrip : strip t = t := by
    simpa using @strip_of_trimmed [] t [] (by simp) (by simp) (trimmed_of_digits h)
  have hsign : cutSign t = (false,t) := by
    unfold cutSign
    split
    · exact absurd (by simp) (notMem_of_digits h (show digitValue 45 = none by decide))
    · exact absurd (by simp) (notMem_of_digits h (show digitValue 43 = none by decide))
    · rfl
  have hbase : cutBase base t = t := by
    unfold cutBase
    split
    · rw [if_neg]
      rintro ⟨-,rfl | rfl⟩
      · exact notMem_of_digits h (show digitValue 120 = none by decide) (by simp)
      · exact notMem_of_digits h (show digitValue 88 = none by decide) (by simp)
    · rfl
  rw [number,hstrip,hsign]
  simp [hbase,if_neg hne,h]

theorem unsigned64_digits {base n : ℕ} (hne : t ≠ [])
    (h : digitsFrom base 0 t = some n) (hn : n < 2^64) : unsigned64 base t = some n := by
  rw [unsigned64,number_digits hne h]
  exact if_pos hn

theorem signed32_digits {n : ℕ} (hne : t ≠ []) (h : digitsFrom 10 0 t = some n)
    (hn : n < 2^31) : signed32 t = some (n : ℤ) := by
  rw [signed32,number_digits hne h]
  have hbounds : -2^31 ≤ (n : ℤ) ∧ (n : ℤ) < 2^31 := by omega
  exact if_pos hbounds

end A11.Ascii
