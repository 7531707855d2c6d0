import A11.Ascii

/-! JSON string literals as flow values render them (flow/values.cc, `AppendJsonString`), and what a
reader of RFC 8259 strings makes of them. -/

namespace A11.JsonStrings

open Ascii List

/-- What one turn of the loop takes from the text: a letter of ASCII, a number encoded in as many
bytes as its lead byte says, or a sequence that the end of the text cuts off. -/
inductive Item
  | letter (letter : UInt8)
  | point (point : ℕ)
  | tail

def items : Text → List Item
  | [] => []
  | letter::rest =>
    if letter < 0x80 then .letter letter::items rest
    else if letter < 0xC0 ∨ 0xF8 ≤ letter then .point letter.toNat::items rest
    else if letter < 0xE0 then
      match rest with
      | a::rest => .point (letter.toNat % 32 * 64 + a.toNat % 64)::items rest
      | _ => [.tail]
    else if letter < 0xF0 then
      match rest with
      | a::b::rest =>
        .point ((letter.toNat % 16 * 64 + a.toNat % 64) * 64 + b.toNat % 64)::items rest
      | _ => [.tail]
    else
      match rest with
      | a::b::c::rest =>
        .point (((letter.toNat % 8 * 64 + a.toNat % 64) * 64 + b.toNat % 64) * 64 + c.toNat % 64)
          :: items rest
      | _ => [.tail]

def hexDigit (d : ℕ) : UInt8 := if d < 10 then UInt8.ofNat (48+d) else UInt8.ofNat (87+d)

/-- `\u%04x` of a number of sixteen bits. -/
def unicode (n : ℕ) : Text :=
  [92,117,hexDigit (n/4096%16),hexDigit (n/256%16),hexDigit (n/16%16),hexDigit (n%16)]

def appendItem : Item → Text
  | .letter letter =>
    if letter = 34 ∨ letter = 92 then [92,letter]
    else if letter = 10 then [92,110]
    else if letter = 13 then [92,114]
    else if letter = 9 then [92,116]
    else if letter = 8 then [92,98]
    else if letter = 12 then [92,102]
    else if letter < 0x20 then unicode letter.toNat
    else [letter]
  | .point point =>
    if point > 0xFFFF then
      unicode (0xD800 + (point - 0x10000) / 1024)++unicode (0xDC00 + (point - 0x10000) % 1024)
    else unicode point
  | .tail => unicode 0xFFFD

def appendJsonString (text : Text) : Text := 34::(items text).flatMap appendItem++[34]

/-- The letter that a reader takes for the one behind a backslash. -/
def shortEscape (escape : UInt8) : Option ℕ :=
  [(34,34),(92,92),(47,47),(98,8),(102,12),(110,10),(114,13),(116,9)].lookup escape

/-- The UTF-16 units of a literal from behind its opening quote. -/
def readUnits : Text → Option (List ℕ)
  | [] => none
  | letter::rest =>
    if letter = 34 then if rest = [] then some [] else none
    else if letter ≠ 92 then
      if 0x20 ≤ letter ∧ letter < 0x80 then (letter.toNat::·) <$> readUnits rest else none
    else
      match rest with
      | escape::rest =>
        if escape ≠ 117 then do
          let letter ← shortEscape escape
          (letter::·) <$> readUnits rest
        else
          match rest with
          | a::b::c::d::rest => do
            let unit ← digitsFrom 16 0 [a,b,c,d]
            (unit::·) <$> readUnits rest
          | _ => none
      | [] => none

def isHigh (unit : ℕ) : Bool := decide (0xD800 ≤ unit ∧ unit < 0xDC00)
def isLow (unit : ℕ) : Bool := decide (0xDC00 ≤ unit ∧ unit < 0xE000)

/-- A low half stands behind every high half and nowhere else. -/
def paired (pending : Bool) : List ℕ → Bool
  | [] => !pending
  | unit::rest => isLow unit == pending && paired (isHigh unit) rest

/-- A conforming reader takes the text as one string. -/
def accepted (literal : Text) : Bool :=
  literal.head? = some 34 && (readUnits literal.tail).any (paired false)

def Item.scalar : Item → ℕ
  | .letter c => c.toNat
  | .point n => n
  | .tail => 0xFFFD

/-- The numbers that the text encodes lie in the Unicode range, surrogates among them in pairs. -/
def encodesUnicode (text : Text) : Bool :=
  let points := (items text).map Item.scalar
  paired false points && points.all (· ≤ 0x10FFFF)

def utf16 (point : ℕ) : List ℕ :=
  if point > 0xFFFF then [0xD800 + (point - 0x10000) / 1024,0xDC00 + (point - 0x10000) % 1024]
  else [point]

def Item.Fits : Item → Prop
  | .letter c => c < 0x80
  | .point n => n < 0x200000
  | .tail => True

theorem items_fit (text : Text) : ∀ item ∈ items text, item.Fits := by
  fun_induction items text <;> simp_all [Item.Fits]
  · rename_i letter _ _ _ _
    exact lt_trans letter.toNat_lt (by decide)
  all_goals omega

theorem digit_read : ∀ d < 16, digitValue (hexDigit d) = some d := by decide

theorem readUnits_unicode {n : ℕ} (hn : n < 0x10000) (rest : Text) :
    readUnits (unicode n++rest) = (n::·) <$> readUnits rest := by
  have hd : ∀ m, digitValue (hexDigit (m%16)) = some (m%16) :=
    fun m => digit_read _ (Nat.mod_lt _ (by decide))
  have hlt : ∀ m, m % 16 < 16 := fun m => Nat.mod_lt _ (by decide)
  have hv : ((n/4096%16*16+n/256%16)*16+n/16%16)*16+n%16 = n := by omega
  simp [unicode,readUnits,digitsFrom,hd,hlt,hv]

theorem readUnits_short {escape : UInt8} {letter : ℕ} (he : shortEscape escape = some letter)
    (hu : escape ≠ 117) (rest : Text) :
    readUnits ([92,escape]++rest) = ([letter]++·) <$> readUnits rest := by
  rw [readUnits.eq_def]
  simp [he,hu]

theorem readUnits_item {item : Item} (h : item.Fits) (rest : Text) :
    readUnits (appendItem item++rest) = (utf16 item.scalar++·) <$> readUnits rest := by
  cases item with
  | letter letter =>
    have hs : utf16 letter.toNat = [letter.toNat] := if_neg (by have := letter.toNat_lt; omega)
    simp only [appendItem,Item.scalar,hs]
    split_ifs with h1 h2 h3 h4 h5 h6 h7
    · rcases h1 with rfl | rfl <;> exact readUnits_short rfl (by decide) rest
    · exact h2 ▸ readUnits_short rfl (by decide) rest
    · exact h3 ▸ readUnits_short rfl (by decide) rest
    · exact h4 ▸ readUnits_short rfl (by decide) rest
    · exact h5 ▸ readUnits_short rfl (by decide) rest
    · exact h6 ▸ readUnits_short rfl (by decide) rest
    · exact readUnits_unicode (by have := letter.toNat_lt; omega) rest
    · rw [not_or] at h1
      rw [readUnits.eq_def]
      simp [h1,show letter < 0x80 from h,UInt8.not_lt.mp h7]
  | point point =>
    have h : point < 0x200000 := h
    simp only [appendItem,Item.scalar]
    split_ifs with hp
    · rw [append_assoc,readUnits_unicode (by omega),readUnits_unicode (by omega),utf16,if_pos hp]
      simp [Function.comp_def]
    · rw [utf16,if_neg hp]
      exact readUnits_unicode (by omega) rest
  | tail => exact readUnits_unicode (by decide) rest

theorem readUnits_items {all : List Item} (h : ∀ item ∈ all, item.Fits) :
    readUnits (all.flatMap appendItem++[34]) = some ((all.map Item.scalar).flatMap utf16) := by
  induction all with
  | nil => rfl
  | cons item all ih =>
    rw [flatMap_cons,append_assoc,readUnits_item (h item (by simp)),
      ih fun i hi => h i (by simp [hi])]
    rfl

theorem paired_utf16 (pending : Bool) {points : List ℕ} (h : ∀ p ∈ points, p < 0x200000) :
    paired pending (points.flatMap utf16) =
      (paired pending points && points.all (· ≤ 0x10FFFF)) := by
  induction points generalizing pending with
  | nil => simp
  | cons point points ih =>
    have ih := fun pending => ih pending fun p hp => h p (by simp [hp])
    rw [flatMap_cons,utf16]
    split_ifs with hbig
    · obtain ⟨high,hhigh⟩ : ∃ high, high = 0xD800 + (point - 0x10000) / 1024 := ⟨_,rfl⟩
      have hlow : isLow (0xDC00 + (point - 0x10000) % 1024) = true := decide_eq_true (by omega)
      have hend : isHigh (0xDC00 + (point - 0x10000) % 1024) = false := decide_eq_false (by omega)
      have hno : isLow point = false ∧ isHigh point = false :=
        ⟨decide_eq_false (by omega),decide_eq_false (by omega)⟩
      rw [← hhigh]
      by_cases hle : point ≤ 0x10FFFF
      · have hfirst : isHigh high = true ∧ isLow high = false :=
          ⟨decide_eq_true (by omega),decide_eq_false (by omega)⟩
        simp [paired,ih,hlow,hend,hno,hfirst,hle,Bool.and_assoc]
      · have hfirst : isHigh high = false := decide_eq_false (by omega)
        simp [paired,hlow,hfirst,hle]
    · have hle : point ≤ 0x10FFFF := by omega
      simp [paired,ih,hle,Bool.and_assoc]

/-- A conforming reader takes the literal exactly if the text encodes numbers of the Unicode range,
surrogates in pairs. -/
theorem appendJsonString_accepted (text : Text) :
    accepted (appendJsonString text) ↔ encodesUnicode text := by
  have hfit := items_fit text
  have hlt : ∀ p ∈ (items text).map Item.scalar, p < 0x200000 := by
    intro p hp
    obtain ⟨item,hmem,rfl⟩ := mem_map.mp hp
    have hf := hfit item hmem
    cases item with
    | letter letter => exact lt_trans letter.toNat_lt (by decide)
    | point => exact hf
    | tail => decide
  simp only [accepted,appendJsonString,encodesUnicode,cons_append,tail_cons,readUnits_items hfit,
    Option.any_some,paired_utf16 false hlt]
  simp

theorem appendJsonString_accepted_accented : accepted (appendJsonString [104,0xC3,0xA9]) :=
  (appendJsonString_accepted _).mpr (by decide)

/-- The three bytes of an encoded surrogate come out as half of a pair. -/
theorem surrogate_rejected : accepted (appendJsonString [0xED,0xA0,0x80]) = false := by decide

end A11.JsonStrings
