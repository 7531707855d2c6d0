import A11.Http1Codec

/-! Well-formed HTTP/1.1 text: header fields, request and response heads and bodies in
the chunked coding, as they stand on the wire, with what they mean. The heads are
shown to be found and parsed to their meaning, whatever follows them. -/
namespace A11.Http1

open Ascii List

/-- Optional white space. -/
def Blank (t : Bytes) : Prop := ∀ c ∈ t, c = 32 ∨ c = 9

theorem Blank.isSpace {t : Bytes} (h : Blank t) : ∀ c ∈ t, isSpace c = true := by
  intro c hc
  rcases h c hc with rfl | rfl <;> rfl

/-- A line that can stand in a head: not empty and without line ends. -/
structure LineOk (line : Bytes) : Prop where
  ne_nil : line ≠ []
  no_lf : 10 ∉ line
  no_cr : 13 ∉ line

/-! ### Fields -/

structure Field where
  name : Bytes
  lead : Bytes := []
  value : Bytes
  trail : Bytes := []
  deriving DecidableEq

namespace Field

def line (f : Field) : Bytes := f.name++58::(f.lead++f.value++f.trail)

/-- The lower-cased name and the value without the white space around it. -/
def decoded (f : Field) : Bytes × Bytes := (lower f.name,f.value)

structure Ok (f : Field) : Prop where
  name_ne_nil : f.name ≠ []
  name_free : ∀ c ∈ f.name, c ≠ 58 ∧ c ≠ 32 ∧ c ≠ 9 ∧ c ≠ 10 ∧ c ≠ 13
  lead_blank : Blank f.lead
  trail_blank : Blank f.trail
  value_free : 10 ∉ f.value ∧ 13 ∉ f.value
  value_trimmed : Trimmed f.value

variable {f : Field}

theorem Ok.lineOk (h : f.Ok) : LineOk f.line := by
  have hblank : ∀ t : Bytes, Blank t → 10 ∉ t ∧ 13 ∉ t := by
    intro t ht
    constructor <;> intro hmem <;> rcases ht _ hmem with hc | hc <;> simp at hc
  refine ⟨by simp [line],?_,?_⟩
  · have hname : 10 ∉ f.name := fun hmem => (h.name_free 10 hmem).2.2.2.1 rfl
    simp [line,hname,(hblank _ h.lead_blank).1,(hblank _ h.trail_blank).1,h.value_free.1]
  · have hname : 13 ∉ f.name := fun hmem => (h.name_free 13 hmem).2.2.2.2 rfl
    simp [line,hname,(hblank _ h.lead_blank).2,(hblank _ h.trail_blank).2,h.value_free.2]

theorem Ok.cutAt_line (h : f.Ok) : cutAt 58 f.line = some (f.name,f.lead++f.value++f.trail) :=
  cutAt_append _ fun hmem => (h.name_free 58 hmem).1 rfl

theorem Ok.strip_value (h : f.Ok) : strip (f.lead++f.value++f.trail) = f.value :=
  strip_of_trimmed h.lead_blank.isSpace h.trail_blank.isSpace h.value_trimmed

theorem Ok.parseHeaderLine (h : f.Ok) : parseHeaderLine f.line = .ok f.decoded := by
  have hspace : ¬ (32 ∈ f.name ∨ 9 ∈ f.name) := by
    rintro (hmem | hmem)
    · exact (h.name_free 32 hmem).2.1 rfl
    · exact (h.name_free 9 hmem).2.2.1 rfl
  rw [Http1.parseHeaderLine,h.cutAt_line]
  simp only [if_neg h.name_ne_nil,if_neg hspace,h.strip_value,decoded]

end Field

theorem parseHeaderLines_fields {fields : List Field} (h : ∀ f ∈ fields, f.Ok) :
    parseHeaderLines (fields.map Field.line) = .ok (fields.map Field.decoded) := by
  induction fields with
  | nil => rfl
  | cons f fields ih =>
    rw [map_cons,parseHeaderLines,(h f (by simp)).parseHeaderLine,ih fun g hg => h g (by simp [hg])]
    rfl

/-! ### Head blocks -/

/-- The lines of a head and the blank line behind them. -/
def block (lines : List Bytes) : Bytes := lines.flatMap (·++crlf)++crlf

theorem block_cons (line : Bytes) (lines : List Bytes) :
    block (line::lines) = line++13::10::block lines := by simp [block,crlf]

theorem chomp_cr (line : Bytes) : chomp (line++[13]) = line := by simp [chomp]

theorem splitOn_line {line : Bytes} (h : 10 ∉ line) (rest : Bytes) :
    (line++10::rest).splitOn 10 = line::rest.splitOn 10 := by
  apply splitOnP_append_cons_of_forall_mem
  · intro c hc
    have hne : c ≠ 10 := fun heq => h (heq ▸ hc)
    simp [hne]
  · simp

variable {lines : List Bytes}

theorem splitOn_block (h : ∀ line ∈ lines, LineOk line) :
    (((block lines).splitOn 10).map chomp).filter (· ≠ []) = lines := by
  induction lines with
  | nil => decide
  | cons line lines ih =>
    have hline := h line (by simp)
    have hfree : 10 ∉ line++[13] := by simp [hline.no_lf]
    have hjoin : block (line::lines) = (line++[13])++10::block lines := by
      simp [block_cons]
    rw [hjoin,splitOn_line hfree,map_cons,chomp_cr,filter_cons_of_pos,
      ih fun l hl => h l (by simp [hl])]
    simpa using hline.ne_nil

theorem splitLines_block (hne : lines ≠ [])
    (h : ∀ line ∈ lines, LineOk line) : splitLines (block lines) = .ok lines := by
  unfold splitLines
  rw [splitOn_block h,if_neg hne]

/-! ### Finding the end of a head -/

theorem find_append_of_notMem {c : UInt8} {pattern s : Bytes} (h : c ∉ s) (t : Bytes) :
    find (c::pattern) (s++t) = (find (c::pattern) t).map (·+s.length) := by
  induction s with
  | nil => simp
  | cons d s ih =>
    have hne : c ≠ d := fun heq => h (by simp [heq])
    rw [cons_append,find,if_neg,ih fun hmem => h (by simp [hmem]),Option.map_map]
    · congr 1
    · rw [cons_prefix_cons]
      exact fun hh => hne hh.1

/-- No blank line begins here. -/
def NotBlank (rest : Bytes) : Prop := ¬ [13,10] <+: rest ∧ ¬ [10] <+: rest

theorem findHeaderBlockEnd_line {line rest : Bytes} (hline : LineOk line) (hrest : NotBlank rest) :
    findHeaderBlockEnd (line++13::10::rest) =
      (findHeaderBlockEnd rest).map (·+(line.length+2)) := by
  have hcr : find [13,10,13,10] (13::10::rest) = (find [13,10,13,10] rest).map (·+2) := by
    rw [find,if_neg,find,if_neg,Option.map_map]
    · rfl
    · simp
    · simpa using hrest.1
  have hlf : find [10,10] (13::10::rest) = (find [10,10] rest).map (·+2) := by
    rw [find,if_neg,find,if_neg,Option.map_map]
    · rfl
    · simpa using hrest.2
    · simp
  unfold findHeaderBlockEnd
  rw [find_append_of_notMem hline.no_cr,find_append_of_notMem hline.no_lf,hcr,hlf]
  cases find [13,10,13,10] rest <;> cases find [10,10] rest <;>
    simp only [Option.map_none,Option.map_some]
  · congr 1
  · congr 1
    omega
  · split_ifs
    · congr 1
    · omega
    · omega
    · simp only [Option.map_some]
      congr 1
      omega

theorem findHeaderBlockEnd_last {line : Bytes} (hline : LineOk line) (rest : Bytes) :
    findHeaderBlockEnd (line++13::10::13::10::rest) = some (line.length+4) := by
  have hcr : find [13,10,13,10] (13::10::13::10::rest) = some 0 := by
    rw [find]
    simp
  have hlf : ∃ j, find [10,10] (13::10::13::10::rest) = none ∨
      find [10,10] (13::10::13::10::rest) = some j := by
    cases find [10,10] (13::10::13::10::rest) with
    | none => exact ⟨0,.inl rfl⟩
    | some j => exact ⟨j,.inr rfl⟩
  unfold findHeaderBlockEnd
  rw [find_append_of_notMem hline.no_cr,find_append_of_notMem hline.no_lf,hcr]
  obtain ⟨j,hj | hj⟩ := hlf
  · simp [hj]
  rw [hj]
  simp only [Option.map_some]
  rw [if_neg (by omega)]
  congr 1
  omega

theorem notBlank_block_append {line : Bytes} (hline : LineOk line) (t : Bytes) :
    NotBlank (line++t) := by
  obtain ⟨hne,hlf,hcr⟩ := hline
  cases line with
  | nil => simp at hne
  | cons c line =>
    have hc13 : c ≠ 13 := fun h => hcr (by simp [h])
    have hc10 : c ≠ 10 := fun h => hlf (by simp [h])
    constructor
    · simp [Ne.symm hc13]
    · simp [Ne.symm hc10]

/-- The end of a head does not depend on what follows. -/
theorem findHeaderBlockEnd_block (hne : lines ≠ [])
    (h : ∀ line ∈ lines, LineOk line) (rest : Bytes) :
    findHeaderBlockEnd (block lines++rest) = some (block lines).length := by
  induction lines with
  | nil => simp at hne
  | cons line lines ih =>
    have hline := h line (by simp)
    rw [block_cons]
    cases lines with
    | nil =>
      have hlast := findHeaderBlockEnd_last hline rest
      simpa [block,crlf] using hlast
    | cons next lines =>
      have hrest := ih (by simp) fun l hl => h l (by simp [hl])
      have hnot : NotBlank (block (next::lines)++rest) := by
        rw [block_cons,append_assoc]
        exact notBlank_block_append (h next (by simp)) _
      have hjoin : (line++13::10::block (next::lines))++rest =
          line++13::10::(block (next::lines)++rest) := by simp
      rw [hjoin,findHeaderBlockEnd_line hline hnot,hrest,Option.map_some]
      congr 1
      simp only [length_append,length_cons]
      omega

theorem find_eq_none_of_length {pattern t : Bytes} (h : t.length < pattern.length) :
    find pattern t = none := by
  induction t with
  | nil =>
    have hne : pattern ≠ [] := by
      rintro rfl
      simp at h
    rw [find,if_neg hne]
  | cons c t ih =>
    have hprefix : ¬ pattern <+: c::t := fun hp => absurd hp.length_le (not_le.mpr h)
    rw [find,if_neg hprefix,ih (by simp only [length_cons] at h; omega)]
    rfl

variable {p : Bytes}

theorem findHeaderBlockEnd_eq_none (hcr : find [13,10,13,10] p = none)
    (hlf : find [10,10] p = none) : findHeaderBlockEnd p = none := by
  rw [findHeaderBlockEnd,hcr,hlf]

theorem findHeaderBlockEnd_line_part {line t : Bytes} (hlf : 10 ∉ line) (hcr : 13 ∉ line)
    (ht : t.length < 2) : findHeaderBlockEnd (line++t) = none := by
  apply findHeaderBlockEnd_eq_none
  · rw [find_append_of_notMem hcr,find_eq_none_of_length (by simpa using by omega)]
    rfl
  · rw [find_append_of_notMem hlf,find_eq_none_of_length (by simpa using ht)]
    rfl

theorem length_of_part {q : Bytes} (hp : p++q = block []) (hq : q ≠ []) : p.length < 2 := by
  have hlen := congrArg List.length hp
  have hpos : 0 < q.length := length_pos_iff.mpr hq
  simp only [block,crlf,flatMap_nil,length_append,length_cons,length_nil] at hlen
  omega

/-- A head that is still incomplete is not taken for a complete one. -/
theorem findHeaderBlockEnd_part (h : ∀ line ∈ lines, LineOk line)
    {q : Bytes} (hp : p++q = block lines) (hq : q ≠ []) : findHeaderBlockEnd p = none := by
  induction lines generalizing p with
  | nil => exact @findHeaderBlockEnd_line_part [] p (by simp) (by simp) (length_of_part hp hq)
  | cons line lines ih =>
    have hline := h line (by simp)
    have hlines : ∀ l ∈ lines, LineOk l := fun l hl => h l (by simp [hl])
    rw [block_cons] at hp
    rcases append_eq_append_iff.mp hp with ⟨a,ha,-⟩ | ⟨a,ha,hrest⟩
    · have hlf : 10 ∉ p := fun hmem => hline.no_lf (by rw [ha]; simp [hmem])
      have hcr : 13 ∉ p := fun hmem => hline.no_cr (by rw [ha]; simp [hmem])
      simpa using findHeaderBlockEnd_line_part (t := []) hlf hcr (by simp)
    subst ha
    match a, hrest with
    | [], _ => exact findHeaderBlockEnd_line_part hline.no_lf hline.no_cr (by simp)
    | [c], _ => exact findHeaderBlockEnd_line_part hline.no_lf hline.no_cr (by simp)
    | c::d::p', hrest =>
      simp only [cons_append,List.cons.injEq] at hrest
      obtain ⟨rfl,rfl,hrest⟩ := hrest
      have hnot : NotBlank p' := by
        cases lines with
        | nil =>
          refine ⟨fun hpre => ?_,fun hpre => ?_⟩
          · exact absurd hpre.length_le (not_le.mpr (length_of_part hrest.symm hq))
          · have hfst := hpre.trans (prefix_append p' q)
            rw [← hrest] at hfst
            simp [block,crlf] at hfst
        | cons next lines =>
          have hblock : NotBlank (block (next::lines)) := by
            rw [block_cons]
            exact notBlank_block_append (h next (by simp)) _
          rw [hrest] at hblock
          exact ⟨fun hpre => hblock.1 (hpre.trans (prefix_append p' q)),
            fun hpre => hblock.2 (hpre.trans (prefix_append p' q))⟩
      rw [findHeaderBlockEnd_line hline hnot,ih hlines hrest.symm]
      rfl

/-! ### Request heads -/

inductive Version
  | v11 | v10
  deriving DecidableEq

def Version.text : Version → Bytes
  | .v11 => http11
  | .v10 => http10

structure RequestText where
  method : Bytes
  target : Bytes
  version : Version
  fields : List Field
  deriving DecidableEq

/-- A word of a start line: not empty, no space, no line end. -/
structure WordOk (word : Bytes) : Prop where
  ne_nil : word ≠ []
  free : ∀ c ∈ word, c ≠ 32 ∧ c ≠ 10 ∧ c ≠ 13

namespace RequestText

def startLine (r : RequestText) : Bytes :=
  r.method++32::(r.target++32::r.version.text)

def head (r : RequestText) : Bytes := block (r.startLine::r.fields.map Field.line)

def decoded (r : RequestText) : RequestHead :=
  ⟨upper r.method,r.target,r.version.text,r.fields.map Field.decoded⟩

structure Ok (r : RequestText) : Prop where
  method : WordOk r.method
  target : WordOk r.target
  fields : ∀ f ∈ r.fields, f.Ok

variable {r : RequestText}

theorem version_free (v : Version) : 10 ∉ v.text ∧ 13 ∉ v.text ∧ 32 ∉ v.text := by
  cases v <;> decide

theorem version_known (v : Version) : ¬ (v.text ≠ http11 ∧ v.text ≠ http10) := by
  cases v <;> decide

theorem Ok.lineOk (h : r.Ok) : ∀ line ∈ r.startLine::r.fields.map Field.line, LineOk line := by
  intro line hline
  rcases mem_cons.mp hline with rfl | hline
  · obtain ⟨hlf,hcr,-⟩ := version_free r.version
    have hmeth : 10 ∉ r.method ∧ 13 ∉ r.method :=
      ⟨fun hmem => (h.method.free _ hmem).2.1 rfl,fun hmem => (h.method.free _ hmem).2.2 rfl⟩
    have htarget : 10 ∉ r.target ∧ 13 ∉ r.target :=
      ⟨fun hmem => (h.target.free _ hmem).2.1 rfl,fun hmem => (h.target.free _ hmem).2.2 rfl⟩
    refine ⟨by simp [startLine],?_,?_⟩
    · simp [startLine,hmeth.1,htarget.1,hlf]
    · simp [startLine,hmeth.2,htarget.2,hcr]
  · obtain ⟨f,hf,rfl⟩ := mem_map.mp hline
    exact (h.fields f hf).lineOk

theorem Ok.splitMax_startLine (h : r.Ok) :
    splitMax 32 2 r.startLine = [r.method,r.target,r.version.text] := by
  have hmeth : 32 ∉ r.method := fun hmem => (h.method.free _ hmem).1 rfl
  have htarget : 32 ∉ r.target := fun hmem => (h.target.free _ hmem).1 rfl
  rw [startLine,splitMax,cutAt_append _ hmeth]
  simp [splitMax,cutAt_append _ htarget]

theorem Ok.parseRequestLine (h : r.Ok) :
    parseRequestLine r.startLine = .ok (r.method,r.target,r.version.text) := by
  have hwords : ¬ (r.method = [] ∨ r.target = []) := by
    rintro (hnil | hnil)
    · exact h.method.ne_nil hnil
    · exact h.target.ne_nil hnil
  rw [Http1.parseRequestLine,h.splitMax_startLine]
  dsimp only
  rw [if_neg hwords,if_neg (version_known r.version)]

theorem Ok.parseRequestHead (h : r.Ok) : parseRequestHead r.head = .ok r.decoded := by
  rw [Http1.parseRequestHead,head,splitLines_block (by simp) h.lineOk]
  simp only [ok_bind,headD_cons,tail_cons,h.parseRequestLine,parseHeaderLines_fields h.fields]
  rfl

theorem Ok.findHeaderBlockEnd (h : r.Ok) (rest : Bytes) :
    findHeaderBlockEnd (r.head++rest) = some r.head.length :=
  findHeaderBlockEnd_block (by simp) h.lineOk rest

end RequestText

structure ResponseText where
  version : Version
  code : Bytes
  status : ℕ
  /-- The reason phrase behind the code, if there is one. -/
  reason : Option Bytes
  fields : List Field
  deriving DecidableEq

namespace ResponseText

def startLine (r : ResponseText) : Bytes :=
  r.version.text++32::(r.code++r.reason.elim [] (32::·))

def head (r : ResponseText) : Bytes := block (r.startLine::r.fields.map Field.line)

def decoded (r : ResponseText) : ResponseHead :=
  ⟨r.status,r.reason.getD [],r.version.text,r.fields.map Field.decoded⟩

structure Ok (r : ResponseText) : Prop where
  code_ne_nil : r.code ≠ []
  code : digitsFrom 10 0 r.code = some r.status
  status : 100 ≤ r.status ∧ r.status ≤ 599
  reason : ∀ reason ∈ r.reason, 10 ∉ reason ∧ 13 ∉ reason
  fields : ∀ f ∈ r.fields, f.Ok

variable {r : ResponseText}

theorem Ok.lineOk (h : r.Ok) : ∀ line ∈ r.startLine::r.fields.map Field.line, LineOk line := by
  intro line hline
  rcases mem_cons.mp hline with rfl | hline
  · have hlf : 10 ∉ r.code := notMem_of_digits h.code (by decide)
    have hcr : 13 ∉ r.code := notMem_of_digits h.code (by decide)
    obtain ⟨vlf,vcr,-⟩ := RequestText.version_free r.version
    refine ⟨by simp [startLine],?_,?_⟩
    · cases hrsn : r.reason with
      | none => simp [startLine,hrsn,hlf,vlf]
      | some reason => simp [startLine,hrsn,hlf,vlf,(h.reason reason hrsn).1]
    · cases hrsn : r.reason with
      | none => simp [startLine,hrsn,hcr,vcr]
      | some reason => simp [startLine,hrsn,hcr,vcr,(h.reason reason hrsn).2]
  · obtain ⟨f,hf,rfl⟩ := mem_map.mp hline
    exact (h.fields f hf).lineOk

theorem Ok.splitMax_startLine (h : r.Ok) :
    splitMax 32 2 r.startLine = r.version.text::r.code::r.reason.toList := by
  have hcode : 32 ∉ r.code := notMem_of_digits h.code (by decide)
  rw [startLine,splitMax,cutAt_append _ (RequestText.version_free r.version).2.2]
  cases r.reason with
  | none => simp [splitMax,cutAt_eq_none hcode]
  | some reason => simp [splitMax,cutAt_append _ hcode]

theorem Ok.parseStatusLine (h : r.Ok) :
    parseStatusLine r.startLine = .ok (r.version.text,r.status,r.reason.getD []) := by
  obtain ⟨hlow,hhigh⟩ := h.status
  have hstat : ¬ ((r.status : ℤ) < 100 ∨ 599 < (r.status : ℤ)) := by omega
  rw [Http1.parseStatusLine,h.splitMax_startLine]
  dsimp only
  rw [if_neg (RequestText.version_known r.version),signed32_digits h.code_ne_nil h.code (by omega)]
  dsimp only
  rw [if_neg hstat]
  cases r.reason <;> rfl

theorem Ok.parseResponseHead (h : r.Ok) : parseResponseHead r.head = .ok r.decoded := by
  rw [Http1.parseResponseHead,head,splitLines_block (by simp) h.lineOk]
  simp only [ok_bind,headD_cons,tail_cons,h.parseStatusLine,parseHeaderLines_fields h.fields]
  rfl

theorem Ok.findHeaderBlockEnd (h : r.Ok) (rest : Bytes) :
    findHeaderBlockEnd (r.head++rest) = some r.head.length :=
  findHeaderBlockEnd_block (by simp) h.lineOk rest

end ResponseText

/-- A head at the front of a stream has arrived, or does not end yet. -/
theorem head_arrives {head inbuf future rest : Bytes} (hstr : inbuf++future = head++rest)
    (hblock : head = block lines) (h : ∀ line ∈ lines, LineOk line) :
    (∃ t, inbuf = head++t ∧ t++future = rest) ∨
      (inbuf.length < head.length ∧ findHeaderBlockEnd inbuf = none) := by
  rcases arrived_cases hstr with ⟨_,hmore,hhead,-⟩ | harrived
  · refine .inr ⟨?_,findHeaderBlockEnd_part h (hhead.trans hblock) hmore⟩
    rw [← hhead,length_append]
    exact Nat.lt_add_of_pos_right (length_pos_iff.mpr hmore)
  · exact .inl harrived

/-! ### Bodies in the chunked coding -/

structure SizeOk (size : Bytes) (n : ℕ) : Prop where
  ne_nil : size ≠ []
  digits : digitsFrom 16 0 size = some n
  lt : n < 2^64

/-- White space and, behind a semicolon, chunk extensions. -/
structure ExtensionOk (extension : Bytes) : Prop where
  no_lf : 10 ∉ extension
  shape : ∃ blanks more, extension = blanks++more ∧ Blank blanks ∧
    (more = [] ∨ ∃ rest, more = 59::rest)

structure ChunkText where
  size : Bytes
  extension : Bytes := []
  data : Bytes
  deriving DecidableEq

def ChunkText.text (c : ChunkText) : Bytes :=
  (c.size++c.extension)++13::10::(c.data++[13,10])

structure ChunkText.Ok (c : ChunkText) : Prop where
  size : SizeOk c.size c.data.length
  extension : ExtensionOk c.extension
  data_ne_nil : c.data ≠ []

structure ChunkedText where
  chunks : List ChunkText
  lastSize : Bytes := [48]
  lastExtension : Bytes := []
  trailers : List Field := []
  deriving DecidableEq

namespace ChunkedText

def text (b : ChunkedText) : Bytes :=
  b.chunks.flatMap ChunkText.text++
    ((b.lastSize++b.lastExtension)++13::10::block (b.trailers.map Field.line))

def payload (b : ChunkedText) : Bytes := b.chunks.flatMap ChunkText.data

structure Ok (b : ChunkedText) : Prop where
  chunks : ∀ c ∈ b.chunks, c.Ok
  lastSize : SizeOk b.lastSize 0
  lastExtension : ExtensionOk b.lastExtension
  trailers : ∀ f ∈ b.trailers, f.Ok

end ChunkedText

/-- The size line without its extensions. -/
theorem strip_size {size extension : Bytes} {n : ℕ} (hsize : SizeOk size n)
    (hext : ExtensionOk extension) :
    strip (((cutAt 59 (size++extension)).map Prod.fst).getD (size++extension)) = size := by
  obtain ⟨blanks,_,rfl,hblanks,hmore⟩ := hext.shape
  have hdig : 59 ∉ size := notMem_of_digits hsize.digits (by decide)
  have hblank : 59 ∉ blanks := by
    intro hmem
    rcases hblanks _ hmem with hc | hc <;> simp at hc
  have hfree : 59 ∉ size++blanks := by simp [hdig,hblank]
  have hstrip : strip (size++blanks) = size := by
    simpa using @strip_of_trimmed [] size blanks (by simp) hblanks.isSpace
      (trimmed_of_digits hsize.digits)
  rw [← append_assoc]
  rcases hmore with rfl | ⟨rest,rfl⟩
  · rw [append_nil,cutAt_eq_none hfree]
    exact hstrip
  · rw [cutAt_append rest hfree]
    exact hstrip

/-! ### Declared bodies -/

inductive BodyText
  | none
  | sized (body : Bytes)
  | chunked (body : ChunkedText)
  deriving DecidableEq

/-- The last of the transfer codings is `chunked`. -/
def ChunkedCoding (value : Bytes) : Prop :=
  ∃ front lead coding, value = front++(lead++coding) ∧
    (front = [] ∨ ∃ codings, front = codings++[44]) ∧ Blank lead ∧
    lower coding = ofString "chunked"

namespace BodyText

def text : BodyText → Bytes
  | none => []
  | sized body => body
  | chunked body => body.text

def payload : BodyText → Bytes
  | none => []
  | sized body => body
  | chunked body => body.payload

def plan : BodyText → BodyPlan
  | none => ⟨.none,0⟩
  | sized body => ⟨.contentLength,body.length⟩
  | chunked _ => ⟨.chunked,0⟩

def isChunked : BodyText → Bool
  | chunked _ => true
  | _ => false

/-- The fields that declare the body. -/
def Declared (headers : HttpHeaders) : BodyText → Prop
  | none => getHttpHeader headers "transfer-encoding" = Option.none ∧
      getHttpHeader headers "content-length" = Option.none
  | sized body => getHttpHeader headers "transfer-encoding" = Option.none ∧
      ∃ digits, getHttpHeader headers "content-length" = some digits ∧ digits ≠ [] ∧
        digitsFrom 10 0 digits = some body.length ∧ body.length < 2^64
  | chunked body => body.Ok ∧
      ∃ value, getHttpHeader headers "transfer-encoding" = some value ∧ ChunkedCoding value

end BodyText

theorem letters_of_chunked {c : UInt8} (h : lowerByte c ∈ ofString "chunked") :
    isSpace c = false ∧ c ≠ 44 := by
  have hall : ∀ n < 256, lowerByte (UInt8.ofNat n) ∈ ofString "chunked" →
      isSpace (UInt8.ofNat n) = false ∧ UInt8.ofNat n ≠ 44 := by decide +kernel
  rw [← UInt8.ofNat_toNat (x := c)] at h ⊢
  exact hall c.toNat c.toNat_lt h

variable {headers : HttpHeaders}

theorem headerContainsToken_chunked {value : Bytes}
    (hvalue : getHttpHeader headers "transfer-encoding" = some value) (h : ChunkedCoding value) :
    headerContainsToken headers "transfer-encoding" "chunked" = true := by
  obtain ⟨_,lead,coding,hjoin,hfront,hlead,hcoding⟩ := h
  have hletters : ∀ c ∈ coding, isSpace c = false ∧ c ≠ 44 := by
    intro c hc
    apply letters_of_chunked
    rw [← hcoding]
    exact mem_map_of_mem hc
  have htrimmed : Trimmed coding := ⟨fun c hc => (hletters c (mem_of_mem_head? hc)).1,
      fun c hc => (hletters c (mem_of_getLast? hc)).1⟩
  have hstrip : strip (lead++coding) = coding := by
    simpa using @strip_of_trimmed lead coding [] hlead.isSpace (by simp) htrimmed
  have hlast : (lead++coding).splitOn 44 = [lead++coding] := by
    apply splitOnP_eq_singleton
    intro c hc
    rcases mem_append.mp hc with hc | hc
    · rcases hlead c hc with rfl | rfl <;> rfl
    · simpa using (hletters c hc).2
  have hmem : lead++coding ∈ value.splitOn 44 := by
    rcases hfront with rfl | ⟨codings,rfl⟩
    · rw [hjoin,nil_append,hlast]
      simp
    have hsplit : value.splitOn 44 = codings.splitOn 44++(lead++coding).splitOn 44 := by
      rw [hjoin,append_assoc]
      exact splitOnP_append_cons _ _ (by simp)
    rw [hsplit,hlast]
    simp
  have htoken : lower (ofString "chunked") = ofString "chunked" := by decide
  rw [headerContainsToken,hvalue]
  apply any_eq_true.mpr
  exact ⟨_,hmem,by simp [hstrip,hcoding,htoken]⟩

theorem headerContainsToken_none {name : String}
    (h : getHttpHeader headers name = none) (token : String) :
    headerContainsToken headers name token = false := by
  rw [headerContainsToken,h]

theorem planBody_declared {body : BodyText} (allowUntilClose : Bool)
    (hbody : body ≠ .none) (h : body.Declared headers) :
    planBody headers allowUntilClose = .ok body.plan := by
  unfold planBody
  cases body with
  | none => simp at hbody
  | sized body =>
    obtain ⟨hencoding,_,hlen,hne,hdig,hlt⟩ := h
    rw [headerContainsToken_none hencoding,hlen]
    simp [unsigned64_digits hne hdig hlt,BodyText.plan]
  | chunked body =>
    obtain ⟨-,_,hval,hchk⟩ := h
    rw [headerContainsToken_chunked hval hchk]
    rfl

end A11.Http1
