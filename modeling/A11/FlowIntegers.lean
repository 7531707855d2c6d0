import A11.DataTypes
import A11.Decimal

/-! Integer arithmetic of Flow values: magnitudes of 128 bits with a separate sign, a check
before each operation that can overflow, and a result made from its decimal text. Sums,
differences and products of magnitudes are taken modulo `2^128`, as the machine does. -/
namespace A11.FlowIntegers

open Decimal Nat Option

structure IntegerSpec where
  bits : ℕ
  isSigned : Bool
  width : bits ∈ [8,16,32,64,128]
deriving DecidableEq

structure Parts where
  magnitude : ℕ
  negative : Bool
deriving DecidableEq

def Parts.toInt (p : Parts) : ℤ := if p.negative then -p.magnitude else p.magnitude

def maximum (type : IntegerSpec) (negative : Bool) : ℕ :=
  let magnitudeBits := type.bits-(if type.isSigned then 1 else 0)
  if negative then 2^magnitudeBits%2^128
  else if magnitudeBits = 128 then 2^128-1 else 2^magnitudeBits-1

/-- The sign and the magnitude are those of a number of the type. -/
structure Within (type : IntegerSpec) (p : Parts) : Prop where
  sign : p.negative = true → type.isSigned = true ∧ p.magnitude ≠ 0
  bound : p.magnitude ≤ maximum type p.negative

inductive Value
  | integer (number : ℤ) (legacy : Bool) (range : -2^63 ≤ number ∧ number < 2^63)
  | typedInteger (type : IntegerSpec) (parts : Parts) (legacy : Bool) (within : Within type parts)
deriving DecidableEq

def int64 : IntegerSpec := ⟨64,true,by decide⟩

namespace Value

def type : Value → IntegerSpec
  | integer .. => int64
  | typedInteger type .. => type

def isLegacyNumber : Value → Bool
  | integer _ legacy _ => legacy
  | typedInteger _ _ legacy _ => legacy

def legacyNumber : Value → Value
  | integer number _ range => .integer number true range
  | typedInteger type parts _ within => .typedInteger type parts true within

def toInt : Value → ℤ
  | integer number .. => number
  | typedInteger _ parts .. => parts.toInt

end Value

def integerParts : Value → Parts
  | .integer number .. =>
    ⟨if number < 0 then ((-(number+1)).toNat+1)%2^64 else number.toNat,decide (number < 0)⟩
  | .typedInteger _ parts .. => parts

def unsignedText (value : ℕ) : Text := Decimal.text value

def integerText (magnitude : ℕ) (negative : Bool) : Text :=
  if negative ∧ magnitude ≠ 0 then '-'::unsignedText magnitude else unsignedText magnitude

def readDigit (magnitude : ℕ) (digit : Char) : StatusOr ℕ :=
  if !digit.isDigit then .error (.invalidArgument "An integer requires decimal digits.")
  else
    let next := digit.toNat - '0'.toNat
    if (2^128-1-next)/10 < magnitude then .error (.outOfRange "An integer exceeds 128 bits.")
    else .ok ((10*magnitude+next)%2^128)

def parseInteger (text : Text) : StatusOr Parts := do
  let negative := text.head? = some '-'
  let digits := if negative ∨ text.head? = some '+' then text.tail else text
  if digits = [] then .error (.invalidArgument "An integer requires decimal digits.")
  else
    let magnitude ← digits.foldlM readDigit 0
    return ⟨magnitude,decide (negative ∧ magnitude ≠ 0)⟩

variable {p : Parts} {type : IntegerSpec}

theorem int64_range (hwide : type.bits = 64 ∧ type.isSigned = true)
    (hbound : ¬maximum type p.negative < p.magnitude) : -2^63 ≤ p.toInt ∧ p.toInt < 2^63 := by
  cases hsign : p.negative <;> simp [maximum,hwide,hsign] at hbound <;> simp [Parts.toInt,hsign] <;>
    omega

theorem within_normal (hsign : ¬(p.negative = true ∧ type.isSigned = false))
    (hbound : ¬maximum type p.negative < p.magnitude) :
    Within type ⟨p.magnitude,p.negative && p.magnitude != 0⟩ := by
  by_cases hzero : p.magnitude = 0
  · exact ⟨by simp [hzero],by simp [hzero]⟩
  have hsame : (p.negative && p.magnitude != 0) = p.negative := by simp [hzero]
  rw [hsame]
  refine ⟨fun hneg => ⟨?_,hzero⟩,not_lt.mp hbound⟩
  change p.negative = true at hneg
  simpa [hneg] using hsign

/-- `CheckedInteger` of a text. The number of a signed 64-bit type is the signed magnitude:
the least one is given by name, and every other magnitude is within the machine's range. -/
def checkedInteger (text : Text) (type : IntegerSpec) : StatusOr Value := do
  let parts ← parseInteger text
  if hsign : parts.negative = true ∧ type.isSigned = false then
    .error (.outOfRange "An unsigned integer cannot be negative.")
  else if hbound : maximum type parts.negative < parts.magnitude then
    .error (.outOfRange "An integer is outside its type's range.")
  else if hwide : type.bits = 64 ∧ type.isSigned = true then
    .ok (.integer parts.toInt false (int64_range hwide hbound))
  else .ok (.typedInteger type _ false (within_normal hsign hbound))

inductive Op
  | add | sub | mul | div | mod
deriving DecidableEq

def minus (a b : ℕ) : ℕ := (a+(2^128-b))%2^128

def overflow : Status := .outOfRange "Integer arithmetic overflow."

def sum (type : IntegerSpec) (first right : Parts) : StatusOr Parts :=
  if first.negative = right.negative then
    let most := maximum type first.negative
    if most < first.magnitude ∨ minus most first.magnitude < right.magnitude then .error overflow
    else .ok ⟨(first.magnitude+right.magnitude)%2^128,first.negative⟩
  else if right.magnitude ≤ first.magnitude then
    .ok ⟨minus first.magnitude right.magnitude,first.negative⟩
  else .ok ⟨minus right.magnitude first.magnitude,right.negative⟩

def product (type : IntegerSpec) (first second : Parts) : StatusOr Parts :=
  let negative := first.negative != second.negative
  if second.magnitude ≠ 0 ∧ maximum type negative/second.magnitude < first.magnitude then
    .error overflow
  else .ok ⟨first.magnitude*second.magnitude%2^128,negative⟩

def quotient (op : Op) (first second : Parts) : StatusOr Parts :=
  if second.magnitude = 0 then .error (.invalidArgument "Division by zero.")
  else
    let remainder := first.magnitude%second.magnitude
    if op = .div ∧ remainder ≠ 0 then
      .error (.invalidArgument "Integer division requires an exact quotient.")
    else if op = .div then
      .ok ⟨first.magnitude/second.magnitude,first.negative != second.negative⟩
    else .ok ⟨remainder,first.negative⟩

def combine (op : Op) (type : IntegerSpec) (first second : Parts) : StatusOr Parts :=
  match op with
  | .add | .sub => sum type first ⟨second.magnitude,second.negative != decide (op = .sub)⟩
  | .mul => product type first second
  | .div | .mod => quotient op first second

def wider (left right : IntegerSpec) : IntegerSpec :=
  ⟨max left.bits right.bits,left.isSigned,by
    rcases max_choice left.bits right.bits with h | h <;> rw [h]
    · exact left.width
    · exact right.width⟩

def arithmetic (op : Op) (left right : Value) : StatusOr Value :=
  if left.isLegacyNumber ≠ right.isLegacyNumber then
    .error (.invalidArgument "Arithmetic needs compatible numeric types.")
  else if left.type.isSigned ≠ right.type.isSigned then
    .error (.invalidArgument "Arithmetic needs matching signedness; convert explicitly.")
  else do
    let type := wider left.type right.type
    let ⟨magnitude,negative⟩ ← combine op type (integerParts left) (integerParts right)
    let negative := negative && magnitude != 0
    if negative = true ∧ type.isSigned = false then
      .error (.outOfRange "Unsigned arithmetic underflow.")
    else if maximum type negative < magnitude then .error overflow
    else
      let result ← checkedInteger (integerText magnitude negative) type
      return if left.isLegacyNumber then result.legacyNumber else result

/-! ### The exact operations -/

/-- The numbers of a type. -/
def IntegerSpec.Represents (type : IntegerSpec) (z : ℤ) : Prop :=
  if type.isSigned then -2^(type.bits-1) ≤ z ∧ z < 2^(type.bits-1) else 0 ≤ z ∧ z < 2^type.bits

/-- The exact result, where the operation has one. -/
def exact : Op → ℤ → ℤ → Option ℤ
  | .add, a, b => some (a+b)
  | .sub, a, b => some (a-b)
  | .mul, a, b => some (a*b)
  | .div, a, b => if b ≠ 0 ∧ b ∣ a then some (a.tdiv b) else none
  | .mod, a, b => if b ≠ 0 then some (a.tmod b) else none

theorem maximum_lt (type : IntegerSpec) (negative : Bool) : maximum type negative < 2^128 := by
  obtain ⟨-,isSigned,hwidth⟩ := type
  simp only [List.mem_cons,List.not_mem_nil,or_false] at hwidth
  rcases hwidth with rfl | rfl | rfl | rfl | rfl <;> cases isSigned <;> cases negative <;>
    norm_num [maximum]

/-- The largest magnitudes of a type are those of its extreme numbers. -/
theorem represents_iff (type : IntegerSpec) (hp : p.negative = true → p.magnitude ≠ 0) :
    type.Represents p.toInt ↔
      ¬(p.negative = true ∧ type.isSigned = false) ∧ ¬maximum type p.negative < p.magnitude := by
  obtain ⟨-,isSigned,hwidth⟩ := type
  obtain ⟨_,negative⟩ := p
  simp only [List.mem_cons,List.not_mem_nil,or_false] at hwidth
  rcases hwidth with rfl | rfl | rfl | rfl | rfl <;> cases isSigned <;> cases negative <;>
    simp [IntegerSpec.Represents,maximum,Parts.toInt] at hp ⊢ <;> omega

theorem not_represents (h : maximum type p.negative < p.magnitude) : ¬type.Represents p.toInt := by
  rw [represents_iff type fun _ => by omega]
  exact fun hin => hin.2 h

theorem integerParts_toInt (v : Value) : (integerParts v).toInt = v.toInt := by
  cases v with
  | typedInteger type parts legacy within => rfl
  | integer number legacy range =>
    by_cases hneg : number < 0 <;> simp [integerParts,Parts.toInt,Value.toInt,hneg] <;> omega

theorem integerParts_lt (v : Value) : (integerParts v).magnitude < 2^128 := by
  cases v with
  | typedInteger type parts legacy within => exact within.bound.trans_lt (maximum_lt ..)
  | integer number legacy range =>
    simp only [integerParts]
    split_ifs <;> omega

theorem minus_eq {a b : ℕ} (ha : a < 2^128) (h : b ≤ a) : minus a b = a-b := by
  unfold minus
  omega

/-! ### One operation on magnitudes -/

/-- The magnitude and sign of the number, or a refusal of a number the type does not have. -/
def Computes (type : IntegerSpec) (result : StatusOr Parts) (z : ℤ) : Prop :=
  match result with
  | .ok p => p.toInt = z ∧ p.magnitude < 2^128
  | .error _ => ¬type.Represents z

variable {first : Parts}

theorem sum_computes (type : IntegerSpec) {right : Parts} (hfst : first.magnitude < 2^128)
    (hright : right.magnitude < 2^128) :
    Computes type (sum type first right) (first.toInt+right.toInt) := by
  have hmost := maximum_lt type first.negative
  unfold sum
  by_cases hsign : first.negative = right.negative
  · have hval : first.toInt+right.toInt =
        (Parts.mk (first.magnitude+right.magnitude) first.negative).toInt := by
      cases hs : right.negative <;> simp [Parts.toInt,hsign,hs]
      omega
    rw [hval]
    dsimp only
    split_ifs with hover
    · apply not_represents
      by_cases hle : first.magnitude ≤ maximum type first.negative
      · rw [minus_eq hmost hle] at hover
        simp only
        omega
      · simp only
        omega
    · rw [not_or,not_lt] at hover
      rw [minus_eq hmost hover.1] at hover
      have hsum : first.magnitude+right.magnitude < 2^128 := by omega
      rw [mod_eq_of_lt hsum]
      exact ⟨rfl,hsum⟩
  · split_ifs with hle
    · rw [minus_eq hfst hle]
      refine ⟨?_,(sub_le _ _).trans_lt hfst⟩
      cases hf : first.negative <;> cases hs : right.negative <;> simp [hf,hs] at hsign <;>
        simp [Parts.toInt,hf,hs] <;> omega
    rw [minus_eq hright (Nat.le_of_not_le hle)]
    refine ⟨?_,(Nat.sub_le _ _).trans_lt hright⟩
    cases hf : first.negative <;> cases hs : right.negative <;> simp [hf,hs] at hsign <;>
      simp [Parts.toInt,hf,hs] <;> omega

theorem product_computes (type : IntegerSpec) (first second : Parts) :
    Computes type (product type first second) (first.toInt*second.toInt) := by
  have hmost := maximum_lt type (first.negative != second.negative)
  have hval : first.toInt*second.toInt = (Parts.mk (first.magnitude*second.magnitude)
      (first.negative != second.negative)).toInt := by
    cases hf : first.negative <;> cases hs : second.negative <;> simp [Parts.toInt,hf,hs]
  rw [hval]
  simp only [product]
  split_ifs with hover
  · exact not_represents ((div_lt_iff_lt_mul (pos_of_ne_zero hover.1)).mp hover.2)
  have hle : first.magnitude*second.magnitude ≤
      maximum type (first.negative != second.negative) := by
    by_cases hzero : second.magnitude = 0
    · simp [hzero]
    · rw [← le_div_iff_mul_le (pos_of_ne_zero hzero)]
      exact not_lt.mp fun hlt => hover ⟨hzero,hlt⟩
  rw [mod_eq_of_lt (hle.trans_lt hmost)]
  exact ⟨rfl,hle.trans_lt hmost⟩

theorem toInt_eq_zero (p : Parts) : p.toInt = 0 ↔ p.magnitude = 0 := by
  cases hs : p.negative <;> simp [Parts.toInt,hs]

theorem toInt_dvd (p q : Parts) : p.toInt ∣ q.toInt ↔ q.magnitude%p.magnitude = 0 := by
  rw [← dvd_iff_mod_eq_zero,← Int.natCast_dvd_natCast]
  cases hp : p.negative <;> cases hq : q.negative <;> simp [Parts.toInt,hp,hq]

variable {second : Parts}

theorem quotient_computes (type : IntegerSpec) {op : Op} (hop : op = .div ∨ op = .mod)
    (hfst : first.magnitude < 2^128) {z : ℤ} (hz : exact op first.toInt second.toInt = some z) :
    Computes type (quotient op first second) z := by
  unfold quotient
  rcases hop with rfl | rfl
  · simp only [exact,ne_eq,toInt_eq_zero,toInt_dvd] at hz
    split_ifs at hz with hdef
    obtain rfl := some.inj hz
    simp only [hdef.1,hdef.2,ne_eq,not_true,if_true]
    refine ⟨?_,(div_le_self _ _).trans_lt hfst⟩
    cases hf : first.negative <;> cases hs : second.negative <;> simp [Parts.toInt,hf,hs]
  · simp only [exact,ne_eq,toInt_eq_zero] at hz
    split_ifs at hz with hdef
    obtain rfl := some.inj hz
    simp only [hdef,if_false]
    refine ⟨?_,(mod_le _ _).trans_lt hfst⟩
    cases hf : first.negative <;> cases hs : second.negative <;> simp [Parts.toInt,hf,hs] <;> rfl

/-- An exact result is computed, or refused as one the type does not have. -/
theorem combine_computes (op : Op) (type : IntegerSpec) (hfst : first.magnitude < 2^128)
    (hsec : second.magnitude < 2^128) {z : ℤ} (hz : exact op first.toInt second.toInt = some z) :
    Computes type (combine op type first second) z := by
  cases op with
  | add =>
    obtain rfl := some.inj hz
    simpa [combine] using sum_computes type hfst hsec
  | sub =>
    obtain rfl := some.inj hz
    have hright : (Parts.mk second.magnitude (second.negative != true)).toInt = -second.toInt := by
      cases hs : second.negative <;> simp [Parts.toInt,hs]
    rw [Int.sub_eq_add_neg,← hright]
    exact sum_computes type hfst hsec
  | mul =>
    obtain rfl := some.inj hz
    exact product_computes type first second
  | div => exact quotient_computes type (.inl rfl) hfst hz
  | mod => exact quotient_computes type (.inr rfl) hfst hz

/-- Where there is no exact result there is no result. -/
theorem combine_undefined {op : Op} (type : IntegerSpec)
    (hnone : exact op first.toInt second.toInt = none) :
    ∃ s, combine op type first second = .error s := by
  cases op with
  | add | sub | mul => cases hnone
  | div =>
    simp only [exact,ne_eq,toInt_eq_zero,toInt_dvd] at hnone
    simp only [combine,quotient]
    split_ifs with hzero hinexact
    · exact ⟨_,rfl⟩
    · exact ⟨_,rfl⟩
    · simp_all
  | mod =>
    simp only [exact,ne_eq,toInt_eq_zero] at hnone
    have hzero : second.magnitude = 0 := by simpa using hnone
    simp only [combine,quotient,hzero]
    exact ⟨_,rfl⟩

/-! ### The decimal text of a result -/

theorem foldlM_readDigit {t : Text} (hdig : ∀ c ∈ t, c.isDigit) {acc : ℕ}
    (h : ofDigitChars 10 t acc < 2^128) :
    t.foldlM readDigit acc = .ok (ofDigitChars 10 t acc) := by
  induction t generalizing acc with
  | nil => rfl
  | cons c t ih =>
    have hrest : ∀ d ∈ t, d.isDigit := fun d hd => hdig d (by simp [hd])
    have hnext : 10*acc+(c.toNat - '0'.toNat) < 2^128 := by
      have hbelow := (ofDigitChars_bounds hrest (10*acc+(c.toNat - '0'.toNat))).1
      exact (Nat.le_mul_of_pos_right _ (by positivity)).trans_lt (hbelow.trans_lt h)
    have hread : readDigit acc c = .ok (10*acc+(c.toNat - '0'.toNat)) := by
      simp only [readDigit,hdig c (by simp),Bool.not_true,Bool.false_eq_true,if_false]
      rw [if_neg (by omega),mod_eq_of_lt hnext]
    rw [List.foldlM_cons,hread]
    exact ih hrest h

theorem parseInteger_text (p : Parts) (h : p.magnitude < 2^128) :
    parseInteger (integerText p.magnitude p.negative) =
      .ok ⟨p.magnitude,p.negative && p.magnitude != 0⟩ := by
  have hdig : ∀ c ∈ Decimal.text p.magnitude, c.isDigit := fun c hc => isDigit_of_mem_text hc
  have hfold : (Decimal.text p.magnitude).foldlM readDigit 0 = .ok p.magnitude := by
    have hval : ofDigitChars 10 (Decimal.text p.magnitude) 0 = p.magnitude := parse_text _
    rw [foldlM_readDigit hdig (hval.trans_lt h),hval]
  have hhead : ∀ c, c.isDigit = false → (Decimal.text p.magnitude).head? ≠ some c := by
    intro c hc hhead
    rw [hdig c (List.mem_of_mem_head? hhead)] at hc
    cases hc
  by_cases hneg : p.negative = true ∧ p.magnitude ≠ 0
  · simp [parseInteger,integerText,unsignedText,hneg,text_ne_nil,hfold]
  · have hsign : (p.negative && p.magnitude != 0) = false := by simpa using hneg
    rw [hsign]
    simp [parseInteger,integerText,unsignedText,hneg,text_ne_nil,hfold,hhead '-' rfl,hhead '+' rfl]

theorem checkedInteger_text (hp : p.negative = true → p.magnitude ≠ 0)
    (hlt : p.magnitude < 2^128) (hin : type.Represents p.toInt) :
    ∃ v, checkedInteger (integerText p.magnitude p.negative) type = .ok v ∧ v.toInt = p.toInt ∧
      v.type = type ∧ v.isLegacyNumber = false := by
  have hsame : (p.negative && p.magnitude != 0) = p.negative := by
    cases hneg : p.negative <;> simp [hneg] at hp ⊢
    exact hp
  obtain ⟨_,_⟩ := (represents_iff type hp).mp hin
  unfold checkedInteger
  rw [parseInteger_text p hlt,hsame]
  simp only [ok_bind]
  split_ifs with hwide
  · refine ⟨_,rfl,rfl,?_,rfl⟩
    obtain ⟨-,-,-⟩ := type
    simp only [Value.type,int64,IntegerSpec.mk.injEq]
    exact ⟨hwide.1.symm,hwide.2.symm⟩
  · refine ⟨_,rfl,?_,rfl,rfl⟩
    simp [Value.toInt,hsame]

theorem toInt_unsignedZero (p : Parts) :
    (Parts.mk p.magnitude (p.negative && p.magnitude != 0)).toInt = p.toInt := by
  by_cases hzero : p.magnitude = 0 <;> simp [Parts.toInt,hzero]

/-- Arithmetic on integers of the same signedness, both or neither of them a legacy number,
gives the exact result in the wider type when there is one and the type has it, and an
error otherwise. With one legacy number it is always an error. -/
theorem arithmetic_exact (op : Op) (left right : Value) :
    (left.isLegacyNumber = right.isLegacyNumber → left.type.isSigned = right.type.isSigned →
      (∀ z, exact op left.toInt right.toInt = some z →
        (wider left.type right.type).Represents z →
        ∃ v, arithmetic op left right = .ok v ∧ v.toInt = z ∧
          v.type = wider left.type right.type ∧ v.isLegacyNumber = left.isLegacyNumber) ∧
      ((¬∃ z, exact op left.toInt right.toInt = some z ∧
        (wider left.type right.type).Represents z) → ∃ s, arithmetic op left right = .error s)) ∧
    (left.isLegacyNumber ≠ right.isLegacyNumber → ∃ s, arithmetic op left right = .error s) := by
  refine ⟨fun hlegacy hsigned => ?_,fun hne => ⟨_,if_pos hne⟩⟩
  unfold arithmetic
  rw [if_neg (not_not.mpr hlegacy),if_neg (not_not.mpr hsigned)]
  simp only [← integerParts_toInt left,← integerParts_toInt right]
  generalize wider left.type right.type = type
  have hfst := integerParts_lt left
  have hsec := integerParts_lt right
  cases hz : exact op (integerParts left).toInt (integerParts right).toInt with
  | none =>
    obtain ⟨s,hs⟩ := combine_undefined type hz
    refine ⟨nofun,fun _ => ⟨s,?_⟩⟩
    rw [hs]
    rfl
  | some z =>
    have hcomp := combine_computes op type hfst hsec hz
    cases hcombine : combine op type (integerParts left) (integerParts right) with
    | error s =>
      rw [hcombine] at hcomp
      refine ⟨?_,fun _ => ⟨s,rfl⟩⟩
      rintro z' hz' hin
      obtain rfl := some.inj hz'
      exact absurd hin hcomp
    | ok p =>
      rw [hcombine] at hcomp
      obtain ⟨hval,hlt⟩ := hcomp
      have hnorm := (toInt_unsignedZero p).trans hval
      have hiff := represents_iff type (p := ⟨p.magnitude,p.negative && p.magnitude != 0⟩)
        (by simp)
      rw [hnorm] at hiff
      simp only [ok_bind]
      by_cases hin : type.Represents z
      · obtain ⟨hsign,hbound⟩ := hiff.mp hin
        obtain ⟨v,hv,htoInt,htype,hplain⟩ := checkedInteger_text
          (p := ⟨p.magnitude,p.negative && p.magnitude != 0⟩) (by simp) hlt (hnorm.symm ▸ hin)
        refine ⟨fun z' hz' _ => ?_,fun hnone => absurd ⟨z,rfl,hin⟩ hnone⟩
        obtain rfl := some.inj hz'
        rw [if_neg hsign,if_neg hbound,hv]
        cases hl : left.isLegacyNumber
        · exact ⟨v,rfl,htoInt.trans hnorm,htype,hplain⟩
        · refine ⟨v.legacyNumber,rfl,?_,?_,?_⟩ <;> cases v <;>
            first | rfl | exact htoInt.trans hnorm | exact htype
      · refine ⟨fun z' hz' hin' => absurd (some.inj hz' ▸ hin') hin,fun _ => ?_⟩
        split_ifs with hsign hbound hlegacy'
        · exact ⟨_,rfl⟩
        · exact ⟨_,rfl⟩
        · exact absurd (hiff.mpr ⟨hsign,hbound⟩) hin
        · exact absurd (hiff.mpr ⟨hsign,hbound⟩) hin

def minimum8 : Value := .typedInteger ⟨8,true,by decide⟩ ⟨128,true⟩ false ⟨by decide,by decide⟩
def plain (n : ℤ) (legacy : Bool) (h : -2^63 ≤ n ∧ n < 2^63) : Value := .integer n legacy h

/-- The least 8-bit number negated through a 64-bit factor. -/
theorem arithmetic_exact_minimum :
    ∃ v, arithmetic .mul minimum8 (plain (-1) false (by decide)) = .ok v ∧ v.toInt = 128 ∧
      v.type = int64 ∧ v.isLegacyNumber = false :=
  ((arithmetic_exact .mul minimum8 (plain (-1) false (by decide))).1 rfl rfl).1 128 rfl (by
    unfold IntegerSpec.Represents
    decide)

/-- A legacy number and an integer are not added, although the sum is in range. -/
theorem arithmetic_refuses_legacy :
    (plain 1 true (by decide)).type.isSigned = (plain 1 false (by decide)).type.isSigned ∧
      exact .add (plain 1 true (by decide)).toInt (plain 1 false (by decide)).toInt = some 2 ∧
      arithmetic .add (plain 1 true (by decide)) (plain 1 false (by decide)) =
        .error (.invalidArgument "Arithmetic needs compatible numeric types.") := by
  exact ⟨rfl,rfl,rfl⟩

end A11.FlowIntegers
