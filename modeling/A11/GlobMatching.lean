import A11.DataTypes

/-! Matching names against `*`/`?` patterns: of the actions that an authorization allows, and
of the entries of a directory. -/
namespace A11.GlobMatching
open List

def question : UInt8 := 63

def asterisk : UInt8 := 42

/-- What is left of the pattern and of the value, and, behind a `*`, the pattern after it and
the value where the last try began. -/
structure Scan where
  pattern : Bytes
  value : Bytes
  star : Option (Bytes × Bytes) := none

/-- The next try begins one character later. -/
def Scan.retry (s : Scan) : Option Scan :=
  s.star.map fun (pattern,retry) => ⟨pattern,retry.tail,some (pattern,retry.tail)⟩

/-- The body of the loop; `none` where it returns false. -/
def Scan.turn (s : Scan) (next : UInt8) (value : Bytes) : Option Scan :=
  match s.pattern with
  | [] => s.retry
  | c::pattern =>
    if c = question ∨ c = next then some { s with pattern, value }
    else if c = asterisk then some { s with pattern, star := some (pattern,s.value) }
    else s.retry

def scan : ℕ → Scan → Bool
  | 0, _ => false
  | fuel+1, s =>
    match s.value with
    | [] => s.pattern.dropWhile (· == asterisk) == []
    | next::value => ((s.turn next value).map (scan fuel)).getD false

/-- The turns that suffice with `left` characters to go, of the pattern and of the value. -/
def turns (left value : ℕ) : ℕ := left*(left+1)+value+1

/-- The loop of both matchers. -/
def glob (pattern value : Bytes) : Bool :=
  scan (turns (pattern.length+value.length) value.length) ⟨pattern,value,none⟩

def globMatches (pattern value : Bytes) : Bool := glob pattern value

def wildcardMatch (name pattern : Bytes) : Bool := glob pattern name

/-! ### The language of a pattern -/

/-- `?` stands for one character, `*` for any string, everything else for itself. -/
def Denotes : Bytes → Bytes → Prop
  | [], value => value = []
  | c::pattern, value =>
    if c = asterisk then ∃ rest, rest <:+ value ∧ Denotes pattern rest
    else ∃ d rest, value = d::rest ∧ (c = question ∨ c = d) ∧ Denotes pattern rest

section

variable {pattern rest value : Bytes} {c d : UInt8}

theorem denotes_star (pattern value : Bytes) : Denotes (asterisk::pattern) value ↔
    Denotes pattern value ∨ Denotes (asterisk::pattern) value.tail := by
  cases value with
  | nil => simp [Denotes]
  | cons d value =>
    simp only [Denotes,if_true,suffix_cons_iff,or_and_right,exists_or,exists_eq_left,tail_cons]

theorem denotes_cons (hc : c ≠ asterisk) :
    Denotes (c::pattern) (d::value) ↔ (c = question ∨ c = d) ∧ Denotes pattern value := by
  simp [Denotes,hc]

theorem denotes_nil_iff : Denotes pattern [] ↔ pattern.dropWhile (· == asterisk) = [] := by
  induction pattern with
  | nil => simp [Denotes]
  | cons c pattern ih =>
    by_cases hc : c = asterisk
    · simp [Denotes,hc,ih]
    · simp [Denotes,hc]

theorem Denotes.of_suffix (h : Denotes (asterisk::pattern) rest) (hs : rest <:+ value) :
    Denotes (asterisk::pattern) value := by
  simp only [Denotes,if_true] at *
  obtain ⟨w,hw,hd⟩ := h
  exact ⟨w,hw.trans hs,hd⟩

/-- Characters in front of a pattern take as many characters of the value. -/
theorem Denotes.append {lits : Bytes} (hl : asterisk ∉ lits) (h : Denotes (lits++pattern) value) :
    ∃ rest, rest <:+ value ∧ rest.length+lits.length = value.length ∧ Denotes pattern rest := by
  induction lits generalizing value with
  | nil => exact ⟨value,suffix_rfl,rfl,h⟩
  | cons c lits ih =>
    simp only [mem_cons,not_or] at hl
    rw [cons_append,Denotes,if_neg (Ne.symm hl.1)] at h
    obtain ⟨d,tail,rfl,-,h⟩ := h
    obtain ⟨rest,hr,hlen,h⟩ := ih hl.2 h
    exact ⟨rest,hr.trans (suffix_cons d tail),by simp [← hlen,Nat.add_assoc],h⟩

/-- A star before these characters leaves less to the pattern after them. -/
theorem Denotes.after {lits : Bytes} (hl : asterisk ∉ lits)
    (h : Denotes (asterisk::(lits++pattern)) value) :
    ∃ rest, rest <:+ value ∧ rest.length+lits.length ≤ value.length ∧ Denotes pattern rest := by
  simp only [Denotes,if_true] at h
  obtain ⟨w,hw,h⟩ := h
  obtain ⟨rest,hr,hlen,h⟩ := h.append hl
  exact ⟨rest,hr.trans hw,hlen ▸ hw.length_le,h⟩

end

/-! ### The number of turns -/

def Scan.left (s : Scan) : ℕ :=
  s.star.elim (s.pattern.length+s.value.length) fun x => x.1.length+x.2.length

def Scan.work (s : Scan) : ℕ := turns s.left s.value.length

/-- The try under way is at the end of the last star's pattern and of its value. -/
def Scan.Nested (s : Scan) : Prop := ∀ x ∈ s.star, s.pattern <:+ x.1 ∧ s.value <:+ x.2

theorem turns_lt {left left' value value' : ℕ}
    (h : left < left' ∧ value ≤ left ∨ left ≤ left' ∧ value < value') :
    turns left value < turns left' value' := by
  unfold turns
  rcases h with ⟨h,hv⟩ | ⟨h,hv⟩
  all_goals
    have hle := Nat.mul_le_mul h (Nat.succ_le_succ h)
    grind

section

variable {s t : Scan} {d : UInt8} {value : Bytes}

theorem Scan.Nested.retry (h : s.Nested) (hv : s.value = d::value) (ht : t ∈ s.retry) :
    t.Nested ∧ t.work < s.work := by
  obtain ⟨⟨pattern,start⟩,hs,rfl⟩ := Option.mem_map.mp ht
  have hstar : s.star = some (pattern,start) := hs
  have hlen : (d::value).length ≤ start.length := hv ▸ (h _ hs).2.length_le
  rw [length_cons] at hlen
  refine ⟨?_,turns_lt (.inl ?_)⟩
  · rintro _ ⟨rfl⟩
    exact ⟨suffix_rfl,suffix_rfl⟩
  · simp only [Scan.left,hstar,Option.elim_some,length_tail]
    omega

theorem Scan.Nested.turn (h : s.Nested) (hv : s.value = d::value) (ht : t ∈ s.turn d value) :
    t.Nested ∧ t.work < s.work := by
  unfold Scan.turn at ht
  split at ht
  · exact h.retry hv ht
  rename_i c pattern hp
  split_ifs at ht with hlit hstar
  · obtain rfl := Option.mem_some_iff.mp ht
    refine ⟨fun x hs => ?_,turns_lt (.inr ⟨?_,by simp [hv]⟩)⟩
    · obtain ⟨hpat,hval⟩ := h x hs
      rw [hp] at hpat
      rw [hv] at hval
      exact ⟨(suffix_cons c pattern).trans hpat,(suffix_cons d value).trans hval⟩
    · cases hs : s.star with
      | none => simp [Scan.left,hs,hp,hv]; omega
      | some x => simp [Scan.left,hs]
  · obtain rfl := Option.mem_some_iff.mp ht
    refine ⟨?_,turns_lt (.inl ⟨?_,Nat.le_add_left _ _⟩)⟩
    · rintro _ ⟨rfl⟩
      exact ⟨suffix_rfl,suffix_rfl⟩
    · cases hs : s.star with
      | none => simp [Scan.left,hs,hp]
      | some x =>
        obtain ⟨hpat,hval⟩ := h x hs
        have hplen := hpat.length_le
        have hvlen := hval.length_le
        rw [hp,length_cons] at hplen
        simp [Scan.left,hs]
        omega
  · exact h.retry hv ht

/-- With enough turns the verdict no longer depends on their number. -/
theorem Scan.Nested.scan_stable (h : s.Nested) {fuel : ℕ} (hf : s.work ≤ fuel) :
    scan (fuel+1) s = scan fuel s := by
  induction fuel generalizing s with
  | zero => simp [Scan.work,turns] at hf
  | succ fuel ih =>
    rw [scan,scan]
    cases hv : s.value with
    | nil => rfl
    | cons d value =>
      cases ht : s.turn d value with
      | none => simp [ht]
      | some t =>
        obtain ⟨hnested,hlt⟩ := h.turn hv ht
        simpa [ht] using ih hnested (by omega)

end

/-! ### What is accepted -/

/-- The value is in the language of what is left, now or from a later try on. -/
def Scan.Accepts (s : Scan) : Prop :=
  Denotes s.pattern s.value ∨ ∃ x ∈ s.star, Denotes (asterisk::x.1) x.2.tail

section

variable {s t : Scan} {d : UInt8} {value : Bytes}

theorem Scan.Accepts.of_retry (h : t.Accepts) (ht : t ∈ s.retry) : s.Accepts := by
  obtain ⟨⟨pattern,start⟩,hs,rfl⟩ := Option.mem_map.mp ht
  refine .inr ⟨_,hs,(denotes_star pattern start.tail).mpr ?_⟩
  simpa only [Scan.Accepts,Option.mem_some_iff,exists_eq_left'] using h

theorem Scan.Accepts.of_turn (h : t.Accepts) (hv : s.value = d::value)
    (ht : t ∈ s.turn d value) : s.Accepts := by
  unfold Scan.turn at ht
  split at ht
  · exact h.of_retry ht
  rename_i c pattern hp
  split_ifs at ht with hlit hstar
  · obtain rfl := Option.mem_some_iff.mp ht
    refine h.imp_left fun hden => ?_
    rw [hp,hv,Denotes]
    split_ifs
    · exact ⟨value,suffix_cons d value,hden⟩
    · exact ⟨d,value,rfl,hlit,hden⟩
  · obtain rfl := Option.mem_some_iff.mp ht
    left
    rw [hp,hstar,denotes_star]
    simpa only [Scan.Accepts,Option.mem_some_iff,exists_eq_left'] using h
  · exact h.of_retry ht

/-- What the loop accepts is in the language. -/
theorem accepts_of_scan {fuel : ℕ} (h : scan fuel s = true) : s.Accepts := by
  induction fuel generalizing s with
  | zero => cases h
  | succ fuel ih =>
    rw [scan] at h
    cases hv : s.value with
    | nil =>
      left
      rw [hv] at h ⊢
      exact denotes_nil_iff.mpr (beq_iff_eq.mp h)
    | cons d value =>
      rw [hv] at h
      cases ht : s.turn d value with
      | none => simp [ht] at h
      | some t => exact (ih (by simpa [ht] using h)).of_turn hv ht

end

/-! ### Values without a star -/

/-- No star is in the value, and the try under way has matched character by character. -/
structure Sound (s : Scan) : Prop where
  plain : asterisk ∉ s.value
  star : ∀ x ∈ s.star, ∃ lits taken, x = (lits++s.pattern,taken++s.value) ∧
    asterisk ∉ lits ∧ asterisk ∉ taken ∧ taken.length = lits.length

theorem Sound.nested {s : Scan} (h : Sound s) : s.Nested := by
  intro x hs
  obtain ⟨lits,taken,rfl,-⟩ := h.star x hs
  exact ⟨suffix_append lits _,suffix_append taken _⟩

/-- What one turn of the loop does. -/
def Turns (s : Scan) : Option Scan → Prop
  | none => ¬s.Accepts
  | some t => Sound t ∧ (s.Accepts → t.Accepts)

section

variable {s : Scan} {d : UInt8} {value : Bytes}

theorem Sound.retry (h : Sound s) (hv : s.value = d::value)
    (hno : ¬Denotes s.pattern s.value) : Turns s s.retry := by
  cases hs : s.star with
  | none => simp [Scan.retry,hs,Turns,Scan.Accepts,hno]
  | some x =>
    obtain ⟨lits,taken,rfl,hlits,htaken,-⟩ := h.star x hs
    obtain ⟨e,rest,he⟩ := exists_cons_of_ne_nil (l := taken++s.value) (by simp [hv])
    have hrest : asterisk ∉ rest := by
      have hplain : asterisk ∉ e::rest := by simp [← he,htaken,h.plain]
      exact fun hmem => hplain (mem_cons_of_mem e hmem)
    simp only [Scan.retry,hs,Option.map_some,he,tail_cons]
    refine ⟨⟨hrest,?_⟩,?_⟩
    · rintro _ ⟨rfl⟩
      exact ⟨[],[],rfl,by simp,by simp,rfl⟩
    · simp [Scan.Accepts,hs,hno,he,← denotes_star _ rest]

theorem Sound.turn (h : Sound s) (hv : s.value = d::value) : Turns s (s.turn d value) := by
  unfold Scan.turn
  split
  · exact h.retry hv (by simp [*,Denotes])
  rename_i c pattern hp
  have hplain := h.plain
  rw [hv,mem_cons,not_or] at hplain
  split_ifs with hlit hstar
  · have hc : c ≠ asterisk := by
      rintro rfl
      rcases hlit with hq | hd
      · exact absurd hq (by decide)
      · exact hplain.1 hd
    refine ⟨⟨hplain.2,?_⟩,?_⟩
    · intro x hs
      obtain ⟨lits,taken,rfl,hlits,htaken,hsame⟩ := h.star x hs
      exact ⟨lits++[c],taken++[d],by simp [hp,hv],by simp [hlits,Ne.symm hc],
        by simp [htaken,hplain.1],by simp [hsame]⟩
    · simp [Scan.Accepts,hp,hv,denotes_cons hc,hlit]
  · subst hstar
    refine ⟨⟨h.plain,?_⟩,?_⟩
    · rintro _ ⟨rfl⟩
      exact ⟨[],[],rfl,by simp,by simp,rfl⟩
    · -- a later try of the star before would leave less to this one
      have hold : ∀ x ∈ s.star, Denotes (asterisk::x.1) x.2.tail →
          Denotes (asterisk::pattern) s.value := by
        intro x hs hden
        obtain ⟨lits,taken,rfl,hlits,-,hsame⟩ := h.star x hs
        rw [hp] at hden
        obtain ⟨rest,hr,hlen,hden⟩ := hden.after hlits
        refine hden.of_suffix (suffix_of_suffix_length_le
          (hr.trans (tail_suffix _)) (suffix_append taken _) ?_)
        simp only [length_append,length_tail,hv,length_cons] at hlen ⊢
        omega
      simp only [Scan.Accepts,hp,Option.mem_some_iff,exists_eq_left',← denotes_star]
      exact fun h => h.elim id fun ⟨x,hs,hden⟩ => hold x hs hden
  · exact h.retry hv (by simp [hp,hv,denotes_cons hstar,hlit])

theorem Sound.accepts_end (h : Sound s) (hv : s.value = []) :
    s.Accepts ↔ Denotes s.pattern [] := by
  rw [Scan.Accepts,hv,or_iff_left_iff_imp]
  rintro ⟨x,hs,hden⟩
  obtain ⟨lits,taken,rfl,hlits,-,hsame⟩ := h.star x hs
  obtain ⟨rest,-,hlen,hden⟩ := hden.after hlits
  simp only [hv,append_nil,length_tail] at hlen
  rwa [length_eq_zero_iff.mp (by omega : rest.length = 0)] at hden

theorem Sound.scan (h : Sound s) (hacc : s.Accepts) {fuel : ℕ} (hf : s.work ≤ fuel) :
    scan fuel s = true := by
  induction fuel generalizing s with
  | zero => simp [Scan.work,turns] at hf
  | succ fuel ih =>
    rw [GlobMatching.scan]
    cases hv : s.value with
    | nil => exact beq_iff_eq.mpr (denotes_nil_iff.mp ((h.accepts_end hv).mp hacc))
    | cons d value =>
      have hturn := h.turn hv
      cases ht : s.turn d value with
      | none =>
        rw [ht] at hturn
        exact absurd hacc hturn
      | some t =>
        rw [ht] at hturn
        obtain ⟨hsound,hforward⟩ := hturn
        have hlt := (h.nested.turn hv ht).2
        simpa [ht] using ih hsound (hforward hacc) (by omega)

end

theorem denotes_of_glob {pattern value : Bytes} (h : glob pattern value = true) :
    Denotes pattern value := by
  simpa [Scan.Accepts] using accepts_of_scan h

theorem glob_of_denotes {pattern value : Bytes} (hplain : asterisk ∉ value)
    (h : Denotes pattern value) : glob pattern value = true := by
  have hsound : Sound ⟨pattern,value,none⟩ := ⟨hplain,by simp⟩
  exact hsound.scan (.inl h) le_rfl

/-! ### Stars taken for themselves -/

abbrev Spells : Bytes → Bytes → Prop := Forall₂ fun c d => c = question ∨ c = d

theorem spells_any (value : Bytes) : Spells (replicate value.length question) value := by
  induction value with
  | nil => exact .nil
  | cons d value ih => exact .cons (.inl rfl) ih

theorem spells_of_denotes {pattern value : Bytes} (hp : asterisk ∉ pattern)
    (h : Denotes pattern value) : Spells pattern value := by
  induction pattern generalizing value with
  | nil =>
    obtain rfl : value = [] := h
    exact .nil
  | cons c pattern ih =>
    simp only [mem_cons,not_or] at hp
    rw [Denotes,if_neg (Ne.symm hp.1)] at h
    obtain ⟨d,rest,rfl,hlit,h⟩ := h
    exact .cons hlit (ih hp.2 h)

section

variable {front rest pattern value : Bytes}

theorem Spells.denotes (h : Spells front rest) (hd : Denotes pattern value) :
    Denotes (front++pattern) (rest++value) := by
  induction h with
  | nil => exact hd
  | @cons c d front rest hlit _ ih =>
    rw [cons_append,cons_append,Denotes]
    split_ifs with hc
    · exact ⟨_,suffix_cons d _,ih⟩
    · exact ⟨d,_,rfl,hlit,ih⟩

theorem Spells.denotes_all (h : Spells front rest) : Denotes front rest := by
  have hnil : Denotes [] [] := rfl
  simpa using h.denotes hnil

/-- The scan takes what a pattern spells, its stars included. -/
theorem Spells.scan (h : Spells front rest) (fuel : ℕ) :
    scan (fuel+front.length) ⟨front++pattern,rest++value,none⟩ =
      GlobMatching.scan fuel ⟨pattern,value,none⟩ := by
  induction h with
  | nil => rfl
  | cons hlit _ ih =>
    rw [length_cons,← Nat.add_assoc,GlobMatching.scan]
    simpa [Scan.turn,hlit] using ih

/-- A matcher that has taken what the pattern spells goes on with the rest. -/
theorem Spells.glob (h : Spells front rest) (pattern value : Bytes) :
    ∃ fuel, glob (front++pattern) (rest++value) =
      GlobMatching.scan (fuel+1) ⟨pattern,value,none⟩ := by
  obtain ⟨fuel,hfuel⟩ : ∃ fuel, turns ((front++pattern).length+(rest++value).length)
      (rest++value).length = fuel+(1+front.length) := by
    refine Nat.exists_eq_add_of_le' ?_
    rw [turns,length_append]
    nlinarith
  refine ⟨fuel,?_⟩
  rw [GlobMatching.glob,hfuel,← Nat.add_assoc,h.scan]

end

/-- Each of the matchers accepts the value exactly if it is in the language of the pattern. -/
def Agree (pattern value : Bytes) : Prop :=
  (globMatches pattern value = true ↔ Denotes pattern value) ∧
    (wildcardMatch value pattern = true ↔ Denotes pattern value)

theorem Spells.not_agree {front rest : Bytes} (h : Spells front rest) (pattern value : Bytes)
    (hrej : ∀ fuel, GlobMatching.scan fuel ⟨pattern,value,none⟩ = false)
    (hden : Denotes (front++pattern) (rest++value)) :
    ¬Agree (front++pattern) (rest++value) := by
  rintro ⟨hglob,-⟩
  obtain ⟨fuel,hrun⟩ := h.glob pattern value
  rw [globMatches,hrun,hrej] at hglob
  exact Bool.false_ne_true (hglob.mpr hden)

theorem agree_of_plain {pattern value : Bytes} (h : asterisk ∉ value ∨ asterisk ∉ pattern) :
    Agree pattern value := by
  have hglob : glob pattern value = true ↔ Denotes pattern value := by
    refine ⟨denotes_of_glob,fun hden => h.elim (glob_of_denotes · hden) fun hp => ?_⟩
    obtain ⟨fuel,hrun⟩ := (spells_of_denotes hp hden).glob [] []
    rw [append_nil,append_nil] at hrun
    rw [hrun]
    rfl
  exact ⟨hglob,hglob⟩

/-- A star in the value: one question mark more than there are characters after it. -/
theorem exists_not_agree_of_mem {value : Bytes} (h : asterisk ∈ value) :
    ∃ pattern, ¬Agree pattern value := by
  obtain ⟨front,rest,rfl⟩ := append_of_mem h
  have hspell : Spells (replicate front.length question++asterisk::
      replicate rest.length question) (front++asterisk::rest) :=
    rel_append (spells_any front) (.cons (.inr rfl) (spells_any rest))
  have hden := (spells_any front).denotes ((denotes_star _ (asterisk::rest)).mpr
    (.inl (spells_any (asterisk::rest)).denotes_all))
  have hno := hspell.not_agree [question] []
    (fun fuel => by cases fuel <;> rfl) (by simpa [replicate_succ'] using hden)
  rw [append_nil] at hno
  exact ⟨_,hno⟩

/-- A star in the pattern: the pattern itself, and once more what follows its star. -/
theorem exists_not_agree_of_mem_pattern {pattern : Bytes} (h : asterisk ∈ pattern) :
    ∃ value, ¬Agree pattern value := by
  obtain ⟨front,rest,rfl⟩ := append_of_mem h
  have hself : ∀ text, Spells text text := fun text => forall₂_same.mpr fun _ _ => .inr rfl
  have hrest := (denotes_star rest rest).mpr (.inl (hself rest).denotes_all)
  have hsuf : rest <:+ asterisk::rest++question::rest :=
    (suffix_cons question rest).trans (suffix_append _ _)
  have hno := (hself (front++asterisk::rest)).not_agree [] (question::rest)
    (fun fuel => by cases fuel <;> rfl)
    (by simpa using (hself front).denotes (hrest.of_suffix hsuf))
  rw [append_nil] at hno
  exact ⟨_,hno⟩

end A11.GlobMatching
