import A11.Ascii

/-! The driver of the Flow formatter: it parses the source, lays it out, and then rewrites
and rechecks the text for up to sixteen passes. What a text means and what the layout
functions do are parameters. A budget is the number of budgeted steps, parses and checks
of the loop, that succeed before it runs out; from then on every parse reports an error. -/
namespace A11.FlowFormat

open Ascii

structure Layout where
  formatter : Bool → Text → Text
  wrapStrings : Text → Text
  wrapLines : Bool → Text → Text

structure Edit where
  start : ℕ
  stop : ℕ
  text : Text
deriving DecidableEq, Repr

structure FormatResult where
  formatted : Text
  changed : Bool
  edits : List Edit
deriving DecidableEq, Repr

/-- How many symbols the texts share from their beginning. -/
def shared : Text → Text → ℕ
  | a::s, b::t => if a = b then shared s t+1 else 0
  | _, _ => 0

def sharedEnd (s t : Text) (start : ℕ) : ℕ :=
  min (shared s.reverse t.reverse) (min s.length t.length-start)

def edit (source formatted : Text) : Edit :=
  let start := shared source formatted
  let ending := sharedEnd source formatted start
  { start := start
    stop := source.length-ending
    text := (formatted.drop start).take (formatted.length-ending-start) }

def Edit.apply (e : Edit) (source : Text) : Text :=
  source.take e.start++e.text++source.drop e.stop

def check (budget : ℕ) : Bool × ℕ := (decide (0 < budget),budget-1)

section Driver

variable {Meaning : Type} [DecidableEq Meaning]

def parse (language : Text → Option Meaning) (text : Text) (budget : ℕ) : Option Meaning × ℕ :=
  (if 0 < budget then language text else none,budget-1)

variable (language : Text → Option Meaning) (layout : Layout)

/-- The string wrapper's text is taken when it keeps the meaning. -/
def takeStrings (meaning : Meaning) (formatted : Text) (budget : ℕ) : Text × ℕ :=
  let strings := layout.wrapStrings formatted
  if strings = formatted then (formatted,budget)
  else
    let (read,budget) := parse language strings budget
    (if read = some meaning then strings else formatted,budget)

/-- The grouped text is taken as it is; parsing it only yields the tokens to wrap. -/
def takeGrouped (formatted : Text) (budget : ℕ) : Text × ℕ :=
  let grouped := layout.formatter true formatted
  if grouped = formatted then (formatted,budget)
  else (grouped,(parse language grouped budget).2)

def nextLines (meaning : Meaning) (formatted : Text) (budget : ℕ) : Text × ℕ :=
  let next := layout.wrapLines true formatted
  if next = formatted then (next,budget)
  else
    let (read,budget) := parse language next budget
    (if read = some meaning then next else layout.wrapLines false formatted,budget)

def passes (source : Text) (meaning : Meaning) : ℕ → Text → ℕ → Text
  | 0, formatted, _ => formatted
  | pass+1, formatted, budget =>
    let (going,budget) := check budget
    if !going then formatted
    else
      let (tree,budget) := parse language formatted budget
      if tree ≠ some meaning then source
      else
        let (formatted,budget) := takeStrings language layout meaning formatted budget
        let (formatted,budget) := takeGrouped language layout formatted budget
        let (next,budget) := nextLines language layout meaning formatted budget
        let (tree,budget) := parse language next budget
        if tree ≠ some meaning then formatted
        else
          let next := layout.formatter true next
          if next = formatted then formatted else passes source meaning pass next budget

def format (source : Text) (budget : ℕ) : FormatResult :=
  let (parsed,budget) := parse language source budget
  match parsed with
  | none => ⟨source,false,[]⟩
  | some meaning =>
    let formatted := passes language layout source meaning 16 (layout.formatter false source) budget
    let changed := decide (formatted ≠ source)
    ⟨formatted,changed,if changed then [edit source formatted] else []⟩

end Driver

section Driver

variable {Meaning : Type} [DecidableEq Meaning] {language : Text → Option Meaning}
  {layout : Layout} {meaning : Meaning}

/-- The token formatter, grouping or not, keeps the meaning of what parses. -/
def KeepsMeaning (language : Text → Option Meaning) (formatter : Bool → Text → Text) : Prop :=
  ∀ grouped text meaning, language text = some meaning →
    language (formatter grouped text) = some meaning

omit [DecidableEq Meaning] in
theorem language_of_parse {text : Text} {budget : ℕ}
    (h : (parse language text budget).1 = some meaning) : language text = some meaning := by
  simp only [parse] at h
  split_ifs at h
  exact h

theorem takeStrings_keeps {text : Text} (budget : ℕ) (h : language text = some meaning) :
    language (takeStrings language layout meaning text budget).1 = some meaning := by
  simp only [takeStrings]
  split_ifs with hsame hread
  · exact h
  · exact language_of_parse hread
  · exact h

omit [DecidableEq Meaning] in
theorem takeGrouped_text (text : Text) (budget : ℕ) :
    (takeGrouped language layout text budget).1 = layout.formatter true text := by
  simp only [takeGrouped]
  split_ifs with hsame
  · exact hsame.symm
  · rfl

/-- One pass leaves a text that was checked or came from one by the token formatter. -/
theorem passes_keeps (hlayout : KeepsMeaning language layout.formatter) {source : Text}
    (hsrc : language source = some meaning) (pass : ℕ) {text : Text} (budget : ℕ)
    (htext : language text = some meaning) :
    language (passes language layout source meaning pass text budget) = some meaning := by
  induction pass generalizing text budget with
  | zero => exact htext
  | succ pass ih =>
    have hgrouped : ∀ budget', language (takeGrouped language layout
        (takeStrings language layout meaning text budget').1
        (takeStrings language layout meaning text budget').2).1 = some meaning := by
      intro budget'
      rw [takeGrouped_text]
      exact hlayout true _ meaning (takeStrings_keeps budget' htext)
    simp only [passes]
    split_ifs with hgoing hread hnext hsame
    · exact htext
    · exact hsrc
    · exact hgrouped _
    · exact hgrouped _
    · rw [not_not] at hnext
      exact ih _ (hlayout true _ meaning (language_of_parse hnext))

/-- When the string wrapper brings a text back, the first pass groups it, and a grouped text
of another meaning ends the passes as it is. -/
theorem passes_grouped {formatter : Bool → Text → Text} (source : Text) {text first : Text}
    (hfst : language first = some meaning) (htext : language text = some meaning)
    (hlost : language (formatter true text) ≠ some meaning) (pass : ℕ) :
    passes language ⟨formatter,fun _ => text,fun _ => id⟩ source meaning (pass+1) first 3 =
      formatter true text := by
  let layout : Layout := ⟨formatter,fun _ => text,fun _ => id⟩
  have hgoing : ¬(!(check 3).1) = true := by simp [check]
  have hread : (parse language first (check 3).2).1 = some meaning := by
    simp [parse,check,hfst]
  have hstrings : (takeStrings language layout meaning first
      (parse language first (check 3).2).2).1 = text := by
    by_cases hsame : text = first
    · simp [takeStrings,layout,hsame]
    · simp [takeStrings,layout,hsame,parse,check,htext]
  have hlines : ∀ formatted budget,
      nextLines language layout meaning formatted budget = (formatted,budget) := by
    simp [nextLines,layout]
  have hunr : ∀ budget, (parse language (formatter true text) budget).1 ≠ some meaning :=
    fun budget hread => hlost (language_of_parse hread)
  simp only [passes]
  rw [if_neg (not_not.mpr hread),hlines,takeGrouped_text,hstrings]
  exact if_pos (hunr _)

/-- Whatever the wrappers do, formatting a source that parses keeps its meaning for every
budget exactly when the token formatter keeps the meaning of every text that parses. -/
theorem format_keeps_iff (language : Text → Option Meaning) (formatter : Bool → Text → Text) :
    (∀ wrapStrings wrapLines source budget meaning, language source = some meaning →
      let result := (format language ⟨formatter,wrapStrings,wrapLines⟩ source budget).formatted
      result = source ∨ language result = some meaning) ↔
    KeepsMeaning language formatter := by
  constructor
  · intro h
    have hkept : ∀ wrapStrings wrapLines source budget meaning, language source = some meaning →
        language (format language ⟨formatter,wrapStrings,wrapLines⟩ source budget).formatted =
          some meaning := by
      intro wrapStrings wrapLines source budget meaning hsrc
      rcases h wrapStrings wrapLines source budget meaning hsrc with hsame | hkept
      · rw [hsame,hsrc]
      · exact hkept
    -- With a budget of one step nothing the token formatter returns is checked.
    have hfst : ∀ text meaning, language text = some meaning →
        language (formatter false text) = some meaning := by
      intro text meaning htext
      simpa [format,parse,htext,passes,check] using hkept id (fun _ => id) text 1 meaning htext
    intro grouped text meaning htext
    cases grouped with
    | false => exact hfst text meaning htext
    | true =>
      by_contra hlost
      have hres := hkept (fun _ => text) (fun _ => id) text 4 meaning htext
      have hformatted := passes_grouped text (hfst text meaning htext) htext hlost 15
      simp only [format,parse,Nat.zero_lt_succ,if_true,htext] at hres hformatted
      rw [hformatted] at hres
      exact hlost hres
  · intro hformatter wrapStrings wrapLines source budget meaning hsrc
    simp only [format]
    cases hpar : (parse language source budget).1 with
    | none => exact .inl rfl
    | some meaning' =>
      have hmeaning : meaning' = meaning :=
        Option.some.inj ((language_of_parse hpar).symm.trans hsrc)
      subst hmeaning
      right
      let layout : Layout := ⟨formatter,wrapStrings,wrapLines⟩
      have hkeeps : KeepsMeaning language layout.formatter := hformatter
      exact passes_keeps hkeeps hsrc 16 _ (hformatter false source meaning' hsrc)

/-- A formatter that ends every line, for a language that only asks how a text begins. -/
theorem format_keeps_first :
    KeepsMeaning (fun text : Text => text.head?) (fun _ text => text++[10]) ∧
      ∀ wrapStrings wrapLines source budget meaning, source.head? = some meaning →
        let result := (format (fun text : Text => text.head?)
          ⟨fun _ text => text++[10],wrapStrings,wrapLines⟩ source budget).formatted
        result = source ∨ result.head? = some meaning := by
  have hkeeps : KeepsMeaning (fun text : Text => text.head?) (fun _ text => text++[10]) := by
    intro grouped text meaning htext
    simp [htext]
  exact ⟨hkeeps,(format_keeps_iff _ _).mpr hkeeps⟩

/-- A grouping that drops a symbol: with nothing left to wrap, the driver finds that the
grouped text means something else and returns it. -/
theorem format_loses_meaning :
    let language : Text → Option ℕ := fun text => some text.length
    let layout : Layout :=
      ⟨fun grouped text => if grouped then text.dropLast else text,id,fun _ => id⟩
    language (ofString "a b") = some 3 ∧
      format language layout (ofString "a b") 100 = ⟨ofString "a ",true,[⟨2,3,[]⟩]⟩ ∧
      language (ofString "a ") = some 2 := by
  decide

end Driver
end A11.FlowFormat
