import A11.Ascii
import A11.FlowIntegers

/-! The order of Flow values: instants and durations as themselves, numbers exactly, what meets
a number as a double, and everything else as text; and the stage that sorts by it. -/
namespace A11.FlowOrder

open FlowIntegers (Parts integerParts)

/-- A double by its `frexp`: a finite one is its significand times `2^(exponent-53)`. -/
inductive Double
  | nan
  | infinite (negative : Bool)
  | finite (negative : Bool) (significand : ℕ) (exponent : ℤ)
      (normal : significand = 0 ∧ exponent = 0 ∨ 2^52 ≤ significand ∧ significand < 2^53)
deriving DecidableEq

/-- Where a double lies among the rational numbers and the two infinities. -/
def Double.position : Double → WithBot (WithTop ℚ)
  | .nan => ((0 : ℚ) : WithTop ℚ)
  | .infinite negative => if negative then ⊥ else ((⊤ : WithTop ℚ) : WithBot (WithTop ℚ))
  | .finite negative significand exponent _ =>
    (((if negative then -1 else 1)*(significand*2^(exponent-53)) : ℚ) : WithTop ℚ)

def Double.less (x y : Double) : Bool :=
  decide (x ≠ .nan ∧ y ≠ .nan ∧ x.position < y.position)

def zero : Double := .finite false 0 0 (.inl ⟨rfl,rfl⟩)
def one : Double := .finite false (2^52) 1 (.inr (by decide))

/-- A magnitude of this size in bits rounded to 53 bits, half to even. -/
def roundedSignificand (m size : ℕ) : ℕ :=
  let cut := 2^(size-53)
  if size ≤ 53 then m*2^(53-size)
  else if cut < 2*(m%cut) ∨ cut = 2*(m%cut) ∧ m/cut%2 = 1 then m/cut+1 else m/cut

def Double.ofInteger (n : ℤ) : Double :=
  let size := n.natAbs.log2+1
  let significand := roundedSignificand n.natAbs size
  if n = 0 then zero
  else if h : 2^52 ≤ significand ∧ significand < 2^53 then
    .finite (n < 0) significand size (.inr h)
  else .finite (n < 0) (2^52) (size+1) (.inr (by decide))

def threeWay {α : Type} (less : α → α → Bool) (a b : α) : ℤ :=
  if less a b then -1 else if less b a then 1 else 0

/-- The comparison of a linear order. -/
def compareLinear {α : Type} [LinearOrder α] (a b : α) : ℤ := threeWay (fun x y => decide (x < y)) a b

def compareIntegerParts (left right : Parts) : ℤ :=
  if left.negative ≠ right.negative then if left.negative then -1 else 1
  else if left.magnitude = right.magnitude then 0
  else if decide (left.magnitude < right.magnitude) ≠ left.negative then -1 else 1

def compareIntegerFloat (integer : Parts) : Double → ℤ
  | .nan => 0
  | .infinite negative => if negative then 1 else -1
  | .finite sign significand exponent _ =>
    let negative := decide (significand ≠ 0) && sign
    if 128 < exponent then if negative then 1 else -1
    else
      let shift := exponent-53
      let whole :=
        if 0 ≤ shift then significand*2^shift.toNat%2^128
        else if -64 < shift then significand/2^(-shift).toNat else 0
      let fractional :=
        if 0 ≤ shift then False
        else if -64 < shift then significand%2^(-shift).toNat ≠ 0 else significand ≠ 0
      let comparison := compareIntegerParts integer ⟨whole,negative⟩
      if comparison ≠ 0 then comparison
      else if fractional then if negative then 1 else -1
      else 0

section Values

variable (Time Duration Host : Type)

inductive Value
  | null
  | bool (b : Bool)
  | integer (v : FlowIntegers.Value)
  | float (x : Double)
  | string (text : Bytes)
  | bytes (text : Bytes)
  | time (t : Time)
  | duration (d : Duration)
  | chunk (data : Bytes)
  | host (h : Host)
  | list (items : List Value)
  | object (pairs : List (Bytes × Value))

/-- Conversions that are not the language's own. -/
structure Conversions where
  jsonText : Value Time Duration Host → Bytes
  floatText : Double → Bytes
  timeText : Time → Bytes
  durationText : Duration → Bytes
  hostText : Host → Bytes
  hostSize : Host → Option ℕ
  seconds : Duration → Double
  stamp : Time → Option Double
  strtod : Bytes → Option Double

end Values

section Order

variable {Time Duration Host : Type}

namespace Value

def isTimelike : Value Time Duration Host → Bool
  | .time _ | .duration _ => true
  | _ => false

def countsAsNumber : Value Time Duration Host → Bool
  | .integer _ | .float _ | .bool _ => true
  | _ => false

end Value

variable (o : Conversions Time Duration Host)

/-- `strtoll` of digits after an optional minus stops at the ends of the range. -/
def wholeNumber (trimmed digits : Bytes) : ℤ :=
  let n : ℤ := (Ascii.digitsFrom 10 0 digits).getD 0
  max (-2^63) (min (2^63-1) (if trimmed = digits then n else -n))

def textDouble (text : Bytes) : Double :=
  let trimmed := Ascii.strip text
  let digits := if trimmed.head? = some 45 then trimmed.tail else trimmed
  if trimmed = [] then .ofInteger 0
  else if digits ≠ [] ∧ digits.all (fun c => 48 ≤ c && c ≤ 57) then
    .ofInteger (wholeNumber trimmed digits)
  else (o.strtod trimmed).getD (.ofInteger 0)

def asDouble : Value Time Duration Host → Double
  | .null => .ofInteger 0
  | .bool b => .ofInteger (if b then 1 else 0)
  | .integer v => .ofInteger v.toInt
  | .float x => x
  | .string text | .bytes text => textDouble o text
  | .time t => (o.stamp t).getD (.ofInteger 0)
  | .duration d => o.seconds d
  | .chunk data => .ofInteger data.length
  | .host h => .ofInteger ((o.hostSize h).getD 0)
  | .list items => .ofInteger items.length
  | .object pairs => .ofInteger pairs.length

def asText : Value Time Duration Host → Bytes
  | .null => []
  | .bool b => Ascii.ofString (if b then "true" else "false")
  | .integer v => (FlowIntegers.integerText (integerParts v).magnitude
      (integerParts v).negative).map fun c => c.toNat.toUInt8
  | .float x => o.floatText x
  | .string text | .bytes text => text
  | .time t => o.timeText t
  | .duration d => o.durationText d
  | .chunk data => data
  | .host h => o.hostText h
  | .list items => o.jsonText (.list items)
  | .object pairs => o.jsonText (.object pairs)

variable [LinearOrder Time] [LinearOrder Duration]

def order : Value Time Duration Host → Value Time Duration Host → ℤ
  | .time a, .time b => compareLinear a b
  | .duration a, .duration b => compareLinear a b
  | .integer a, .integer b => compareIntegerParts (integerParts a) (integerParts b)
  | .integer a, .float y => compareIntegerFloat (integerParts a) y
  | .float x, .integer b => -compareIntegerFloat (integerParts b) x
  | left, right =>
    if left.isTimelike ∧ right.isTimelike then
      threeWay Double.less (asDouble o left) (asDouble o right)
    else if left.countsAsNumber ∨ right.countsAsNumber then
      threeWay Double.less (asDouble o left) (asDouble o right)
    else threeWay (· < ·) (asText o left) (asText o right)

/-- The `sort` stage: a stable sort of the items by their keys. -/
def sort {Item : Type} (descending : Bool) (keyed : List (Value Time Duration Host × Item)) :
    List (Value Time Duration Host × Item) :=
  keyed.mergeSort fun left right =>
    let order := order o right.1 left.1
    !(if descending then decide (0 < order) else decide (order < 0))

end Order

/-! ### Exact comparison of numbers -/

theorem threeWay_swap {α : Type} {less : α → α → Bool} (h : ∀ a b, less a b → ¬less b a) (a b : α) :
    threeWay less a b = -threeWay less b a := by
  unfold threeWay
  split_ifs <;> simp_all

theorem threeWay_nonpos {α : Type} {less : α → α → Bool} (h : ∀ a b, less a b → ¬less b a) (a b : α) :
    threeWay less a b ≤ 0 ↔ ¬less b a := by
  unfold threeWay
  split_ifs <;> simp_all

theorem textLess_asymm (s t : Bytes) (h : decide (s < t) = true) : ¬decide (t < s) = true := by
  rw [decide_eq_true_eq] at h ⊢
  exact List.lt_asymm h

section LinearOrder

variable {α : Type} [LinearOrder α]

theorem less_asymm (a b : α) (h : decide (a < b) = true) : ¬decide (b < a) = true := by
  rw [decide_eq_true_eq] at h ⊢
  exact lt_asymm h

theorem compareLinear_le {a b : α} : compareLinear a b ≤ 0 ↔ a ≤ b := by
  rw [compareLinear,threeWay_nonpos less_asymm,decide_eq_true_eq,not_lt]

theorem compareLinear_swap (a b : α) : compareLinear a b = -compareLinear b a :=
  threeWay_swap less_asymm a b

theorem compareLinear_lt {a b : α} (h : a < b) : compareLinear a b = -1 := by
  simp [compareLinear,threeWay,h]

theorem compareLinear_gt {a b : α} (h : b < a) : compareLinear a b = 1 := by
  simp [compareLinear,threeWay,h,h.not_gt]

end LinearOrder

theorem compareLinear_coe (a b : ℚ) : compareLinear ((a : WithTop ℚ) : WithBot (WithTop ℚ))
    ((b : WithTop ℚ) : WithBot (WithTop ℚ)) = compareLinear a b := by
  simp [compareLinear,threeWay]

/-- An integer compared with a whole magnitude and a fraction below one. -/
theorem compare_fraction {p : Parts} (hp : p.negative = true → p.magnitude ≠ 0) {whole : ℕ} (f : ℚ)
    {fractional : Prop} [Decidable fractional] (hf : 0 ≤ f) (hlt : f < 1)
    (hfrac : fractional ↔ f ≠ 0) {negative : Bool} (hnegative : negative = true → 0 < whole+f) :
    (if compareIntegerParts p ⟨whole,negative⟩ ≠ 0 then compareIntegerParts p ⟨whole,negative⟩
      else if fractional then if negative then 1 else -1 else 0) =
      compareLinear (p.toInt : ℚ)
        ((if negative then -1 else 1)*(whole+f)) := by
  obtain ⟨m,sign⟩ := p
  have hcast : ∀ {a b : ℕ}, a < b → (a : ℚ)+1 ≤ b := fun h => by exact_mod_cast h
  by_cases hsigns : sign = negative
  · subst hsigns
    rcases lt_trichotomy m whole with h | rfl | h
    · have := hcast h
      cases sign
      · rw [compareLinear_lt (by simp [Parts.toInt]; linarith)]
        simp [compareIntegerParts,h,h.ne]
      · rw [compareLinear_gt (by simp [Parts.toInt]; linarith)]
        simp [compareIntegerParts,h,h.ne]
    · rcases hf.eq_or_lt with rfl | hpos
      · cases sign <;> simp [compareIntegerParts,Parts.toInt,hfrac,compareLinear,threeWay]
      · have hsome : fractional := hfrac.mpr hpos.ne'
        cases sign
        · rw [compareLinear_lt (by simp [Parts.toInt,hpos])]
          simp [compareIntegerParts,hsome]
        · rw [compareLinear_gt (by simp [Parts.toInt,hpos])]
          simp [compareIntegerParts,hsome]
    · have := hcast h
      cases sign
      · rw [compareLinear_gt (by simp [Parts.toInt]; linarith)]
        simp [compareIntegerParts,h.not_gt,h.ne']
      · rw [compareLinear_lt (by simp [Parts.toInt]; linarith)]
        simp [compareIntegerParts,h.not_gt,h.ne']
  · cases sign <;> cases negative <;> simp at hsigns
    · have := hnegative rfl
      rw [compareLinear_gt (by simp [Parts.toInt]; linarith)]
      simp [compareIntegerParts]
    · have : (1 : ℚ) ≤ m := by exact_mod_cast Nat.pos_of_ne_zero (hp rfl)
      rw [compareLinear_lt (by simp [Parts.toInt]; linarith)]
      simp [compareIntegerParts]

theorem compareIntegerParts_eq {p q : Parts} (hp : p.negative = true → p.magnitude ≠ 0)
    (hq : q.negative = true → q.magnitude ≠ 0) :
    compareIntegerParts p q = compareLinear (p.toInt : ℚ) (q.toInt : ℚ) := by
  have hval : (q.toInt : ℚ) = (if q.negative then -1 else 1)*((q.magnitude : ℕ)+0) := by
    cases hs : q.negative <;> simp [Parts.toInt,hs]
  rw [hval,← compare_fraction hp 0 le_rfl one_pos (by simp : False ↔ (0 : ℚ) ≠ 0)
    (by simpa [Nat.pos_iff_ne_zero] using hq)]
  simp

/-- The significand of a double with bits below one: its whole part and its fraction. -/
theorem scaled_eq (s k : ℕ) : (s : ℚ)*2^(-(k : ℤ)) = (s/2^k : ℕ)+((s%2^k : ℕ) : ℚ)/2^k := by
  rw [zpow_neg,zpow_natCast]
  field_simp
  exact_mod_cast (Nat.div_add_mod s (2^k)).symm

/-- What is compared is the integer and the double, neither of them rounded. -/
theorem compareIntegerFloat_eq {p : Parts} (hp : p.negative = true → p.magnitude ≠ 0)
    (hrng : p.magnitude < 2^128) {x : Double} (hx : x ≠ .nan) :
    compareIntegerFloat p x = compareLinear
      (((p.toInt : ℚ) : WithTop ℚ) : WithBot (WithTop ℚ)) x.position := by
  cases x with
  | nan => exact absurd rfl hx
  | infinite negative =>
    cases negative
    · exact (compareLinear_lt (WithBot.coe_lt_coe.mpr (WithTop.coe_lt_top _))).symm
    · exact (compareLinear_gt (WithBot.bot_lt_coe _)).symm
  | finite sign significand exponent normal =>
    have hsign (y : ℚ) : (if sign then -1 else 1)*(significand*y) =
        (if decide (significand ≠ 0) && sign then -1 else 1)*(significand*y) := by
      by_cases hzero : significand = 0 <;> simp [hzero]
    have hlt : significand < 2^53 := by omega
    simp only [Double.position,compareLinear_coe,hsign,compareIntegerFloat]
    by_cases hbig : 128 < exponent
    · have hlarge : (2 : ℚ)^128 ≤ significand*2^(exponent-53) := by
        have hpower : (2 : ℚ)^(76 : ℤ) ≤ 2^(exponent-53) := zpow_le_zpow_right₀ (by norm_num) (by omega)
        have hdig : (2 : ℚ)^52 ≤ significand := by exact_mod_cast (by omega : 2^52 ≤ significand)
        calc
          (2 : ℚ)^128 = 2^52*2^(76 : ℤ) := by norm_num
          _ ≤ (significand : ℚ)*2^(exponent-53) := by gcongr
      have hmagnitude : (p.magnitude : ℚ) < 2^128 := by exact_mod_cast hrng
      rw [if_pos hbig]
      cases hneg : (decide (significand ≠ 0) && sign)
      · refine (compareLinear_lt ?_).symm
        cases hs : p.negative <;> simp [Parts.toInt,hs] <;> linarith
      · refine (compareLinear_gt ?_).symm
        cases hs : p.negative <;> simp [Parts.toInt,hs] <;> linarith
    rw [if_neg hbig]
    by_cases hshift : 0 ≤ exponent-53
    · obtain ⟨n,hn⟩ := Int.eq_ofNat_of_zero_le hshift
      have hwhole : significand*2^n%2^128 = significand*2^n := by
        refine Nat.mod_eq_of_lt ?_
        calc
          significand*2^n < 2^53*2^n := Nat.mul_lt_mul_of_pos_right hlt (by positivity)
          _ ≤ 2^53*2^75 := Nat.mul_le_mul_left _ (Nat.pow_le_pow_right (by omega) (by omega))
      simp only [hn,Int.natCast_nonneg,if_true,Int.toNat_natCast,hwhole,zpow_natCast]
      refine (compare_fraction hp 0 le_rfl one_pos (by simp) ?_).trans (by push_cast; rw [add_zero])
      intro hneg
      have hpos : 0 < significand := by simp at hneg; omega
      positivity
    · obtain ⟨k,hk⟩ : ∃ k : ℕ, exponent-53 = -(k : ℤ) := ⟨(53-exponent).toNat,by omega⟩
      have hbelow : ((significand%2^k : ℕ) : ℚ)/2^k < 1 := by
        rw [div_lt_one (by positivity)]
        exact_mod_cast Nat.mod_lt _ (by positivity)
      have hfar : ¬-64 < -(k : ℤ) → significand < 2^k := fun hfar =>
        hlt.trans_le (Nat.pow_le_pow_right (by omega) (by omega))
      have hwhole : (if -64 < -(k : ℤ) then significand/2^k else 0) = significand/2^k := by
        split_ifs with h
        · rfl
        · exact (Nat.div_eq_of_lt (hfar h)).symm
      have hfrac : (if -64 < -(k : ℤ) then significand%2^k ≠ 0 else significand ≠ 0) ↔
          ((significand%2^k : ℕ) : ℚ)/2^k ≠ 0 := by
        split_ifs with h
        · simp
        · simp [Nat.mod_eq_of_lt (hfar h)]
      simp only [hk,show ¬(0 : ℤ) ≤ -(k : ℤ) by omega,if_false,neg_neg,Int.toNat_natCast,hwhole]
      refine (compare_fraction hp _ (by positivity) hbelow hfrac ?_).trans
        (by rw [scaled_eq])
      intro hneg
      rw [← scaled_eq]
      have hpos : 0 < significand := by simp at hneg; omega
      positivity

/-! ### The order -/

section Order

variable {Time Duration Host : Type} [LinearOrder Time] [LinearOrder Duration]

theorem Double.less_asymm (x y : Double) : x.less y → ¬y.less x := by
  simp only [Double.less,decide_eq_true_eq]
  exact fun h h' => h.2.2.not_gt h'.2.2

theorem compareIntegerParts_swap (p q : Parts) :
    compareIntegerParts p q = -compareIntegerParts q p := by
  unfold compareIntegerParts
  cases p.negative <;> cases q.negative <;> simp <;> split_ifs <;> omega

variable (o : Conversions Time Duration Host)

theorem order_swap (a b : Value Time Duration Host) :
    order o a b = -order o b a := by
  have hdouble := threeWay_swap Double.less_asymm
  have htext := threeWay_swap textLess_asymm
  cases a <;> cases b <;>
    simp [order,Value.isTimelike,Value.countsAsNumber,← compareIntegerParts_swap,← hdouble,← htext,
      ← compareLinear_swap]

inductive Rule
  | number | time | duration | text
deriving DecidableEq

/-- The values that are compared with each other by one rule. A null is compared as zero with
numbers, and as the empty text with the rest. -/
def Value.follows : Rule → Value Time Duration Host → Bool
  | .number, .null => true
  | .number, v => v.countsAsNumber
  | .time, .time _ | .duration, .duration _ => true
  | .text, v => !v.countsAsNumber && !v.isTimelike
  | _, _ => false

/-- The place of a number among all numbers. -/
def Value.place : Value Time Duration Host → WithBot (WithTop ℚ)
  | .integer v => ((v.toInt : ℚ) : WithTop ℚ)
  | .float x => x.position
  | .bool b => (((if b then 1 else 0 : ℤ) : ℚ) : WithTop ℚ)
  | _ => (((0 : ℤ) : ℚ) : WithTop ℚ)

theorem threeWay_less {x y : Double} (hx : x ≠ .nan) (hy : y ≠ .nan) :
    threeWay Double.less x y = compareLinear x.position y.position := by
  simp [compareLinear,threeWay,Double.less,hx,hy]

theorem integerParts_sign (v : FlowIntegers.Value) :
    (integerParts v).negative = true → (integerParts v).magnitude ≠ 0 := by
  cases v with
  | typedInteger type parts legacy within => exact fun h => (within.sign h).2
  | integer number legacy range =>
    simp only [integerParts,decide_eq_true_eq]
    intro h
    rw [if_pos h]
    omega

theorem Double.ofInteger_ne_nan (n : ℤ) : ofInteger n ≠ .nan := by
  unfold ofInteger
  dsimp only
  split_ifs <;> nofun

/-- The double of an integer is at least the power of two that the integer has reached. -/
theorem Double.position_ofInteger {n : ℤ} (h : n ≠ 0) : ∃ m : ℚ, 2^n.natAbs.log2 ≤ m ∧
    (ofInteger n).position = (((if n < 0 then -1 else 1)*m : ℚ) : WithTop ℚ) := by
  have hle (s : ℕ) (e : ℤ) (hs : 2^52 ≤ s) (he : (n.natAbs.log2+1 : ℤ) ≤ e) :
      (2 : ℚ)^n.natAbs.log2 ≤ s*2^(e-53) := by
    have hdig : (2 : ℚ)^52 ≤ s := by exact_mod_cast hs
    have hpower : (2 : ℚ)^((n.natAbs.log2 : ℤ)-52) ≤ 2^(e-53) :=
      zpow_le_zpow_right₀ (by norm_num) (by omega)
    calc
      (2 : ℚ)^n.natAbs.log2 = 2^52*2^((n.natAbs.log2 : ℤ)-52) := by
        rw [zpow_sub₀ (by norm_num),zpow_natCast]
        norm_num
        ring
      _ ≤ s*2^(e-53) := by gcongr
  unfold ofInteger
  simp only [if_neg h]
  by_cases hkept : 2^52 ≤ roundedSignificand n.natAbs (n.natAbs.log2+1) ∧
      roundedSignificand n.natAbs (n.natAbs.log2+1) < 2^53
  · rw [dif_pos hkept]
    exact ⟨_,hle _ (n.natAbs.log2+1 : ℕ) hkept.1 (by simp),
      by simp only [position,decide_eq_true_eq]⟩
  · rw [dif_neg hkept]
    exact ⟨_,hle _ ((n.natAbs.log2+1 : ℕ)+1) le_rfl (by simp),
      by simp only [position,decide_eq_true_eq]⟩

theorem Double.position_small {k : ℤ} (h : k = 0 ∨ k = 1) :
    (ofInteger k).position = ((k : ℚ) : WithTop ℚ) := by
  rcases h with rfl | rfl
  · simp [ofInteger,position,zero]
  · rw [show ofInteger 1 = one from rfl]
    norm_num [one,position]

/-- Rounding does not take an integer across zero or one. -/
theorem compare_small (n : ℤ) {k : ℤ} (h : k = 0 ∨ k = 1) :
    compareLinear (Double.ofInteger n).position (Double.ofInteger k).position =
      compareLinear (((n : ℚ) : WithTop ℚ) : WithBot (WithTop ℚ)) ((k : ℚ) : WithTop ℚ) := by
  rw [Double.position_small h]
  by_cases hn : n = 0 ∨ n = 1
  · rw [Double.position_small hn]
  obtain ⟨m,hm,hpos⟩ := Double.position_ofInteger fun h => hn (.inl h)
  rw [hpos,compareLinear_coe,compareLinear_coe]
  have hk : (0 : ℚ) ≤ k ∧ (k : ℚ) ≤ 1 := by rcases h with rfl | rfl <;> simp
  by_cases hneg : n < 0
  · have hlt : (n : ℚ) < 0 := by exact_mod_cast hneg
    have hpow : (0 : ℚ) < 2^n.natAbs.log2 := by positivity
    rw [if_pos hneg,compareLinear_lt (by linarith),compareLinear_lt (by linarith)]
  · have hlog : 1 ≤ n.natAbs.log2 := (Nat.le_log2 (by omega)).mpr (by omega)
    have hlt : (2 : ℚ) ≤ n := by exact_mod_cast (by omega : 2 ≤ n)
    have hpow : (2 : ℚ)^1 ≤ 2^n.natAbs.log2 := pow_le_pow_right₀ (by norm_num) hlog
    rw [if_neg hneg,compareLinear_gt (by linarith),compareLinear_gt (by linarith)]

theorem order_number {a b : Value Time Duration Host}
    (ha : a.follows .number) (hb : b.follows .number) (hanan : a ≠ .float .nan)
    (hbnan : b ≠ .float .nan) : order o a b = compareLinear a.place b.place := by
  have hbool (c : Bool) : (if c then (1 : ℤ) else 0) = 0 ∨ (if c then (1 : ℤ) else 0) = 1 := by
    cases c <;> simp
  cases a <;> cases b <;> simp [Value.follows,Value.countsAsNumber] at ha hb
  case integer.integer v w =>
    have h := compareIntegerParts_eq (integerParts_sign v) (integerParts_sign w)
    rw [FlowIntegers.integerParts_toInt,FlowIntegers.integerParts_toInt] at h
    simpa [order,Value.place,compareLinear,threeWay] using h
  case integer.float v y =>
    have h := compareIntegerFloat_eq (integerParts_sign v) (FlowIntegers.integerParts_lt v)
      (x := y) (by simpa using hbnan)
    rwa [FlowIntegers.integerParts_toInt] at h
  case float.integer x w =>
    have h := compareIntegerFloat_eq (integerParts_sign w) (FlowIntegers.integerParts_lt w)
      (x := x) (by simpa using hanan)
    rw [FlowIntegers.integerParts_toInt] at h
    rw [order,h,← compareLinear_swap]
    rfl
  case null.null => simp [order,Value.isTimelike,Value.countsAsNumber,asText,threeWay,
    Value.place,compareLinear]
  -- what is left is compared as doubles
  all_goals
    simp only [ne_eq,Value.float.injEq] at hanan hbnan
    simp only [order,Value.isTimelike,Value.countsAsNumber,asDouble,Value.place,Bool.false_eq_true,
      and_self,or_true,true_or,or_self,if_true,if_false]
    rw [threeWay_less (by first | exact Double.ofInteger_ne_nan _ | assumption)
      (by first | exact Double.ofInteger_ne_nan _ | assumption)]
  case integer.bool v c => exact compare_small _ (hbool c)
  case integer.null v => exact compare_small _ (.inl rfl)
  case bool.integer c w =>
    rw [compareLinear_swap,compare_small _ (hbool c),← compareLinear_swap]
  case null.integer w =>
    rw [compareLinear_swap,compare_small _ (.inl rfl),← compareLinear_swap]
  all_goals simp only [Double.position_small (hbool _),Double.position_small (.inl rfl)]

/-- Values that are compared by one rule are compared by their places in one linear order. -/
theorem order_trans {rule : Rule} {a b c : Value Time Duration Host}
    (hra : a.follows rule) (hrb : b.follows rule) (hrc : c.follows rule) (ha : a ≠ .float .nan)
    (hb : b ≠ .float .nan) (hc : c ≠ .float .nan) (h : order o a b ≤ 0) (h' : order o b c ≤ 0) :
    order o a c ≤ 0 := by
  have htext (x y : Value Time Duration Host) (hx : x.follows .text) (hy : y.follows .text) :
      order o x y ≤ 0 ↔ asText o x ≤ asText o y := by
    have hnonpos := threeWay_nonpos textLess_asymm (asText o x) (asText o y)
    rw [decide_eq_true_eq,List.not_lt] at hnonpos
    rw [← hnonpos]
    cases x <;> cases y <;>
      simp [Value.follows,Value.isTimelike,Value.countsAsNumber] at hx hy <;>
      simp [order,Value.isTimelike,Value.countsAsNumber]
  cases rule with
  | number =>
    rw [order_number o hra hrb ha hb,compareLinear_le] at h
    rw [order_number o hrb hrc hb hc,compareLinear_le] at h'
    rw [order_number o hra hrc ha hc,compareLinear_le]
    exact h.trans h'
  | text =>
    rw [htext _ _ hra hrb] at h
    rw [htext _ _ hrb hrc] at h'
    rw [htext _ _ hra hrc]
    exact List.le_trans h h'
  | time | duration =>
    cases a <;> simp [Value.follows] at hra
    cases b <;> simp [Value.follows] at hrb
    cases c <;> simp [Value.follows] at hrc
    rw [order,compareLinear_le] at h h' ⊢
    exact h.trans h'

theorem pairwise_mergeSort_of {α : Type} (le : α → α → Bool) {P : α → Prop} {l : List α}
    (hl : ∀ x ∈ l, P x) (htrans : ∀ a b c, P a → P b → P c → le a b → le b c → le a c)
    (htotal : ∀ a b, le a b || le b a) : (l.mergeSort le).Pairwise fun a b => le a b := by
  have hsorted := @List.pairwise_mergeSort { x // P x } (fun a b => le a b)
    (fun a b c => htrans a b c a.2 b.2 c.2) (fun a b => htotal a b) (l.attachWith P hl)
  have hmap := List.map_mergeSort (f := Subtype.val) (r := fun a b : { x // P x } => le a b)
    (s := le) (l := l.attachWith P hl) fun _ _ _ _ => rfl
  rw [List.attachWith_map_subtype_val] at hmap
  rw [← hmap]
  exact hsorted.map _ fun _ _ h => h

/-- The order is antisymmetric throughout; among values compared by one rule it is transitive,
and keys compared by one rule come out of the sort stage in order. -/
theorem order_sorts (o : Conversions Time Duration Host) :
    (∀ a b, order o a b = -order o b a) ∧
    ∀ rule, (∀ a b c : Value Time Duration Host, (∀ v ∈ [a,b,c], v.follows rule ∧ v ≠ .float .nan) →
        order o a b ≤ 0 → order o b c ≤ 0 → order o a c ≤ 0) ∧
      ∀ (Item : Type) (descending : Bool) (keyed : List (Value Time Duration Host × Item)),
        (∀ e ∈ keyed, e.1.follows rule ∧ e.1 ≠ .float .nan) →
        (sort o descending keyed).Perm keyed ∧ (sort o descending keyed).Pairwise fun e e' =>
          if descending then 0 ≤ order o e.1 e'.1 else order o e.1 e'.1 ≤ 0 := by
  have htrans (rule : Rule) (a b c : Value Time Duration Host)
      (h : ∀ v ∈ [a,b,c], v.follows rule ∧ v ≠ .float .nan) :
      order o a b ≤ 0 → order o b c ≤ 0 → order o a c ≤ 0 := by
    simp only [List.mem_cons,List.not_mem_nil,or_false,forall_eq_or_imp,forall_eq] at h
    exact order_trans o h.1.1 h.2.1.1 h.2.2.1 h.1.2 h.2.1.2 h.2.2.2
  refine ⟨order_swap o,fun rule => ⟨htrans rule,fun Item descending keyed hkeys =>
    ⟨List.mergeSort_perm _ _,?_⟩⟩⟩
  have hsorted := pairwise_mergeSort_of (fun left right : Value Time Duration Host × Item =>
    !(if descending then decide (0 < order o right.1 left.1) else decide (order o right.1 left.1 < 0)))
    hkeys ?_ ?_
  · refine hsorted.imp fun {e e'} h => ?_
    have hswap := order_swap o e.1 e'.1
    cases descending <;> simp at h ⊢ <;> omega
  · intro a b c ha hb hc hab hbc
    cases descending
    · have h := htrans rule a.1 b.1 c.1 (by simp [ha,hb,hc])
      have := order_swap o a.1 b.1
      have := order_swap o b.1 c.1
      have := order_swap o a.1 c.1
      simp at hab hbc ⊢
      omega
    · have h := htrans rule c.1 b.1 a.1 (by simp [ha,hb,hc])
      simp at hab hbc ⊢
      exact h hbc hab
  · intro a b
    have := order_swap o a.1 b.1
    cases descending <;> simp <;> omega

end Order

/-! Conversions that read no number in a letter. -/

def sample : Conversions ℤ ℤ Unit where
  jsonText _ := []
  floatText _ := []
  timeText _ := []
  durationText _ := []
  hostText _ := []
  hostSize _ := none
  seconds _ := zero
  stamp _ := none
  strtod _ := none

def whole (n : ℤ) (h : -2^63 ≤ n ∧ n < 2^63) : Value ℤ ℤ Unit := .integer (.integer n false h)

/-- Two integers around a double come out of the stage in order. -/
theorem order_sorts_three :
    (sort sample false [(whole 2 (by decide),'c'),(.float one,'b'),(whole 0 (by decide),'a')]).Pairwise
      fun e e' => order sample e.1 e'.1 ≤ 0 :=
  (((order_sorts sample).2 .number).2 Char false
    [(whole 2 (by decide),'c'),(.float one,'b'),(whole 0 (by decide),'a')]
    (by simp [whole,Value.follows,Value.countsAsNumber,one])).2

/-- Two texts are compared as texts and each of them with a number as a number: `1` comes
before `a`, which equals zero, and comes after zero. -/
theorem order_not_transitive :
    order sample (.string (Ascii.ofString "1")) (.string (Ascii.ofString "a")) = -1 ∧
      order sample (.string (Ascii.ofString "a")) (whole 0 (by decide)) = 0 ∧
      order sample (.string (Ascii.ofString "1")) (whole 0 (by decide)) = 1 := by
  have hone : textDouble sample (Ascii.ofString "1") = one := rfl
  have hzero : textDouble sample (Ascii.ofString "a") = zero := rfl
  have hround : Double.ofInteger 0 = zero := rfl
  have hless : one.less zero = false ∧ zero.less one = true ∧ zero.less zero = false := by
    have hposition : one.position = ((1 : ℚ) : WithTop ℚ) := by norm_num [one,Double.position]
    have hposition' : zero.position = ((0 : ℚ) : WithTop ℚ) := by norm_num [zero,Double.position]
    simp only [Double.less,hposition,hposition']
    simp [zero,one]
  refine ⟨by decide,?_,?_⟩ <;>
    simp [order,Value.isTimelike,Value.countsAsNumber,asDouble,whole,FlowIntegers.Value.toInt,
      threeWay,hone,hzero,hround,hless]

end A11.FlowOrder
