import A11.Http1Text

/-! The decoder of chunked bodies, byte by byte.
`Feed` takes whole lines and runs of payload; here it is shown to be the fold of a
machine that reads one byte, so that it does not matter how the bytes are cut, and a
body in the chunked coding is decoded to its payload with nothing left unread. -/
namespace A11.Http1.ChunkedDecoder

open Ascii List StatusOr Field

/-- Data is expected only while there is some. -/
def Ready (d : ChunkedDecoder) : Prop := d.state = .data → 0 < d.remaining

def stepByte (d : ChunkedDecoder) (c : UInt8) : StatusOr (ChunkedDecoder × Bytes) :=
  match d.state with
  | .complete => .ok (d,[])
  | .size =>
    if c = 10 then do return (← endSizeLine d (lineOf (d.pending++[c])),[])
    else .ok ({ d with pending := d.pending++[c] },[])
  | .trailer =>
    if c = 10 then .ok (endTrailerLine d (lineOf (d.pending++[c])),[])
    else .ok ({ d with pending := d.pending++[c] },[])
  | .data =>
    .ok ({ d with
      remaining := d.remaining-1
      state := if d.remaining-1 = 0 then .dataCrlf else .data },[c])
  | .dataCrlf =>
    if c = 10 then .ok ({ d with pending := [], state := .size },[])
    else if 2 < (d.pending++[c]).length then
      .error (.invalidArgument "Missing CRLF after chunk data")
    else .ok ({ d with pending := d.pending++[c] },[])

/-- The decoder, the payload and what stands behind the end of the body. -/
def consume : ChunkedDecoder → Bytes → StatusOr (ChunkedDecoder × Bytes × Bytes)
  | d, [] => .ok (d,[],[])
  | d, c::cs =>
    if d.state = .complete then .ok (d,[],c::cs)
    else do
      let (d,out) ← stepByte d c
      let (d,rest,unread) ← consume d cs
      return (d,out++rest,unread)

/-- Reading goes on where it stopped, unless the body has ended. -/
def resume (fed : ChunkedDecoder × Bytes × Bytes) (more : Bytes) :
    StatusOr (ChunkedDecoder × Bytes × Bytes) :=
  if fed.2.2 = [] then do
    let (d,out,unread) ← consume fed.1 more
    return (d,fed.2.1++out,unread)
  else .ok (fed.1,fed.2.1,fed.2.2++more)

variable {d d' : ChunkedDecoder} {out : Bytes}

/-- The same with the payload decoded before. -/
def prepend (out : Bytes) (fed : ChunkedDecoder × Bytes × Bytes) : ChunkedDecoder × Bytes × Bytes :=
  (fed.1,out++fed.2.1,fed.2.2)

@[simp] theorem prepend_prepend (a b : Bytes) (fed : ChunkedDecoder × Bytes × Bytes) :
    prepend a (prepend b fed) = prepend (a++b) fed := by
  simp [prepend]

theorem prepend_nil (fed : StatusOr (ChunkedDecoder × Bytes × Bytes)) : prepend [] <$> fed = fed :=
  id_map fed

theorem resume_prepend (fed : ChunkedDecoder × Bytes × Bytes) (more : Bytes) :
    resume (prepend out fed) more = prepend out <$> resume fed more := by
  by_cases hunr : fed.2.2 = []
  · simp only [resume,prepend,hunr]
    cases consume fed.1 more <;> simp [prepend]
  · simp [resume,prepend,hunr]

variable {c : UInt8} {cs : Bytes}

theorem consume_next (hst : d.state ≠ .complete) :
    consume d (c::cs) = stepByte d c >>= fun s => prepend s.2 <$> consume s.1 cs := by
  rw [consume,if_neg hst]
  rfl

theorem consume_cons (hst : d.state ≠ .complete) (h : stepByte d c = .ok (d',out)) :
    consume d (c::cs) = prepend out <$> consume d' cs := by
  rw [consume_next hst,h]
  rfl

theorem consume_append (d : ChunkedDecoder) (a b : Bytes) :
    consume d (a++b) = (do let fed ← consume d a; resume fed b) := by
  induction a generalizing d with
  | nil => exact (prepend_nil _).symm
  | cons c a ih =>
    by_cases hst : d.state = .complete
    · simp [consume,hst,resume]
    · simp only [cons_append,consume_next hst,ih,bind_assoc,map_bind,bind_map_left,resume_prepend]

theorem consume_of_ok {a : Bytes} (h : consume d a = .ok (d',out,[])) (b : Bytes) :
    consume d (a++b) = prepend out <$> consume d' b := by
  rw [consume_append,h]
  rfl

/-! ### `Feed` is the fold -/

theorem consume_unfinished (hst : d.state = .size ∨ d.state = .trailer)
    {line : Bytes} (hline : 10 ∉ line) :
    consume d line = .ok ({ d with pending := d.pending++line },[],[]) := by
  induction line generalizing d with
  | nil => simp [consume]
  | cons c line ih =>
    have hc : c ≠ 10 := fun h => hline (by simp [h])
    have hstep : stepByte d c = .ok ({ d with pending := d.pending++[c] },[]) := by
      rcases hst with h | h <;> simp [stepByte,h,hc]
    have hcomp : d.state ≠ .complete := by rcases hst with h | h <;> simp [h]
    rw [consume_cons hcomp hstep,
      @ih { d with pending := d.pending++[c] } hst fun h => hline (by simp [h])]
    simp [prepend]

theorem consume_data (hst : d.state = .data) {data : Bytes}
    (hpos : data ≠ []) (hle : data.length ≤ d.remaining) :
    consume d data = .ok ({ d with
      remaining := d.remaining-data.length
      state := if d.remaining-data.length = 0 then .dataCrlf else .data },data,[]) := by
  induction data generalizing d with
  | nil => simp at hpos
  | cons c data ih =>
    simp only [length_cons] at hle
    have hstep : stepByte d c = .ok ({ d with
        remaining := d.remaining-1
        state := if d.remaining-1 = 0 then .dataCrlf else .data },[c]) := by
      simp [stepByte,hst]
    rw [consume_cons (by simp [hst]) hstep]
    by_cases hdata : data = []
    · subst hdata
      simp [consume,prepend]
    have hlen : 0 < data.length := length_pos_iff.mpr hdata
    have hmore : ¬ d.remaining-1 = 0 := by omega
    rw [if_neg hmore,ih rfl hdata (by dsimp only; omega)]
    have hsub : d.remaining-1-data.length = d.remaining-(data.length+1) := by omega
    simp [hsub,prepend]

theorem endSizeLine_cases {line : Bytes} (h : endSizeLine d line = .ok d') :
    d'.state = .trailer ∨ d'.state = .data ∧ d'.pending = [] ∧ 0 < d'.remaining := by
  unfold endSizeLine at h
  dsimp only at h
  split_ifs at h
  split at h
  · cases h
  split_ifs at h with hzero
  · cases h
    exact .inl rfl
  · cases h
    exact .inr ⟨rfl,rfl,Nat.pos_of_ne_zero hzero⟩

theorem endTrailerLine_cases (d : ChunkedDecoder) (line : Bytes) :
    (endTrailerLine d line).state = d.state ∨ (endTrailerLine d line).state = .complete := by
  unfold endTrailerLine
  split_ifs
  · exact .inr rfl
  · split <;> exact .inl rfl

theorem stepByte_ready (h : stepByte d c = .ok (d',out)) : d'.Ready := by
  intro hdata
  rw [stepByte] at h
  cases hst : d.state with
  | complete =>
    simp only [hst] at h
    cases h
    simp [hst] at hdata
  | dataCrlf =>
    simp only [hst] at h
    split_ifs at h <;> cases h <;> simp_all
  | size =>
    simp only [hst] at h
    split_ifs at h
    · obtain ⟨_,hend,h⟩ := bind_eq_ok.mp h
      cases h
      rcases endSizeLine_cases hend with heq | hmore
      · simp [heq] at hdata
      · exact hmore.2.2
    · cases h
      cases hdata
  | trailer =>
    simp only [hst] at h
    split_ifs at h
    · cases h
      rcases endTrailerLine_cases d (lineOf (d.pending++[c])) with heq | heq <;>
        simp [heq,hst] at hdata
    · cases h
      cases hdata
  | data =>
    simp only [hst] at h
    cases h
    simp only at hdata ⊢
    split_ifs at hdata
    omega

/-- A line that ends in these bytes, read byte by byte. -/
theorem consume_line (hst : d.state = .size ∨ d.state = .trailer)
    {line rest : Bytes} (hline : 10 ∉ line) :
    consume d (line++10::rest) =
      stepByte { d with pending := d.pending++line } 10 >>= fun s =>
        prepend s.2 <$> consume s.1 rest := by
  have hcomp : d.state ≠ .complete := by rcases hst with h | h <;> simp [h]
  rw [consume_of_ok (consume_unfinished hst hline),consume_next (by exact hcomp),prepend_nil]

theorem stepByte_newline_size (hst : d.state = .size) (line : Bytes) :
    stepByte { d with pending := d.pending++line } 10 = (do
      return (← endSizeLine d (lineOf (d.pending++(line++[10]))),[])) := by
  obtain ⟨_,pending,_,_⟩ := d
  subst hst
  simp [stepByte,endSizeLine]

theorem stepByte_newline_trailer (hst : d.state = .trailer) (line : Bytes) :
    stepByte { d with pending := d.pending++line } 10 =
      .ok (endTrailerLine d (lineOf (d.pending++(line++[10]))),[]) := by
  obtain ⟨_,pending,_,_⟩ := d
  subst hst
  simp [stepByte,endTrailerLine]

theorem feedLoop_line (hst : d.state = .size ∨ d.state = .trailer) (fuel : ℕ)
    {line rest : Bytes} (hline : 10 ∉ line) :
    feedLoop (fuel+1) d (line++10::rest) out =
      stepByte { d with pending := d.pending++line } 10 >>= fun s =>
        feedLoop fuel s.1 rest (out++s.2) := by
  have htake : (line++10::rest).take (line.length+1) = line++[10] := by
    simp [take_append]
  have hdrop : (line++10::rest).drop (line.length+1) = rest := by
    simp
  rw [feedLoop,idxOf?_append_cons rest hline]
  rcases hst with hst | hst
  · rw [stepByte_newline_size hst]
    simp only [hst,htake]
    cases endSizeLine d (lineOf (d.pending++(line++[10]))) <;>
      simp
  · rw [stepByte_newline_trailer hst]
    simp [hst,htake,hdrop]

theorem feedLoop_unfinished (hst : d.state = .size ∨ d.state = .trailer) (fuel : ℕ)
    {line : Bytes} (hline : 10 ∉ line) (hne : line ≠ []) :
    feedLoop (fuel+1) d line out = .ok ({ d with pending := d.pending++line },out,[]) := by
  rw [feedLoop,if_neg hne,idxOf?_eq_none_iff.mpr hline]
  rcases hst with hst | hst <;> simp [hst]

theorem feedLoop_dataCrlf (hst : d.state = .dataCrlf) (fuel : ℕ) (c : UInt8) (rest : Bytes) :
    feedLoop (fuel+1) d (c::rest) out =
      stepByte d c >>= fun s => feedLoop fuel s.1 rest (out++s.2) := by
  rw [feedLoop,if_neg (by simp),stepByte]
  simp only [hst,headD_cons]
  split_ifs <;> simp

theorem feedLoop_eq {fuel : ℕ} {data : Bytes} (out : Bytes)
    (hrdy : d.Ready) (hfuel : data.length < fuel) :
    feedLoop fuel d data out = prepend out <$> consume d data := by
  induction fuel generalizing d data out with
  | zero => omega
  | succ fuel ih =>
    by_cases hemp : data = []
    · subst hemp
      simp [feedLoop,consume,prepend]
    have hstep (d : ChunkedDecoder) (c : UInt8) {rest : Bytes} (hrest : rest.length < fuel) :
        (stepByte d c >>= fun s => feedLoop fuel s.1 rest (out++s.2)) =
          prepend out <$> (stepByte d c >>= fun s => prepend s.2 <$> consume s.1 rest) := by
      cases hstep : stepByte d c with
      | error status => rfl
      | ok stepped => simp [ih _ (stepByte_ready hstep) hrest]
    have hlines (hst : d.state = .size ∨ d.state = .trailer) :
        feedLoop (fuel+1) d data out = prepend out <$> consume d data := by
      by_cases hline : 10 ∈ data
      · obtain ⟨_,rest,rfl,hfree⟩ := eq_append_cons_of_mem hline
        simp only [length_append,length_cons] at hfuel
        rw [feedLoop_line hst fuel hfree,consume_line hst hfree]
        exact hstep _ 10 (by omega)
      · rw [feedLoop_unfinished hst fuel hline hemp,consume_unfinished hst hline]
        simp [prepend]
    cases hst : d.state with
    | complete =>
      cases data with
      | nil => simp at hemp
      | cons c cs => simp [feedLoop,consume,hst,prepend]
    | size => exact hlines (.inl hst)
    | trailer => exact hlines (.inr hst)
    | data =>
      have hrem := hrdy hst
      have hlen : 0 < data.length := length_pos_iff.mpr hemp
      have htak : (data.take (min d.remaining data.length)).length =
          min d.remaining data.length := by simp
      have hhead : consume d (data.take (min d.remaining data.length)) = _ :=
        consume_data hst (by rw [← length_pos_iff]; omega) (by omega)
      rw [feedLoop,if_neg hemp]
      simp only [hst]
      rw [ih _ ?ready (by rw [length_drop]; omega)]
      case ready =>
        intro hmore
        dsimp only at hmore ⊢
        split_ifs at hmore with hzero
        omega
      have hspl : consume d data = consume d (data.take (min d.remaining data.length)++
          data.drop (min d.remaining data.length)) := by rw [take_append_drop]
      rw [hspl,consume_of_ok hhead]
      simp
    | dataCrlf =>
      cases data with
      | nil => simp at hemp
      | cons c cs =>
        simp only [length_cons] at hfuel
        rw [feedLoop_dataCrlf hst,consume_next (by simp [hst])]
        exact hstep d c (by omega)

/-- What `Feed` decodes. -/
theorem feed_eq (hrdy : d.Ready) (data : Bytes) :
    d.feed data = (do let (d,out,_) ← consume d data; return (d,out)) := by
  rw [feed,feedLoop_eq [] hrdy (Nat.lt_succ_self _)]
  cases consume d data <;> rfl

/-! ### Decoding a body -/

/-- The size that a line gives, in front of a semicolon. -/
def Announces (line : Bytes) (n : ℕ) : Prop :=
  let text := strip (((cutAt 59 (chomp line)).map Prod.fst).getD (chomp line))
  text ≠ [] ∧ unsigned64 16 text = some n

section

variable {line data gap : Bytes} {n : ℕ}

theorem lineOf_newline (line : Bytes) : lineOf (line++[10]) = chomp line := by simp [lineOf]

theorem endSizeLine_eq_ok : endSizeLine {} (chomp line) = .ok d ↔ ∃ n, Announces line n ∧
    d = if n = 0 then { state := .trailer } else { remaining := n, state := .data } := by
  unfold endSizeLine Announces
  dsimp only
  split_ifs with hnil
  · simp [hnil]
  split
  · next hnone => simp [hnone]
  · next size hsome =>
    have hsize : ∀ n, some size = some n ↔ n = size := fun n => by rw [Option.some.injEq,eq_comm]
    simp only [hsome,hsize,ne_eq,hnil,not_false_eq_true,true_and,exists_eq_left]
    split_ifs <;> rw [Except.ok.injEq,eq_comm]

theorem consume_announced (hline : 10 ∉ line) (hsize : Announces line n) (rest : Bytes) :
    consume {} (line++10::rest) = consume
      (if n = 0 then { state := .trailer } else { remaining := n, state := .data }) rest := by
  rw [consume_line (.inl rfl) hline,stepByte_newline_size rfl]
  simp only [nil_append]
  rw [lineOf_newline,endSizeLine_eq_ok.mpr ⟨n,hsize,rfl⟩]
  exact prepend_nil _

/-- Up to two bytes are kept between the data and its line end. -/
theorem consume_gap (kept : Bytes) (hfree : 10 ∉ gap) (hlen : kept.length+gap.length ≤ 2) :
    consume { state := .dataCrlf, pending := kept } gap =
      .ok ({ state := .dataCrlf, pending := kept++gap },[],[]) := by
  induction gap generalizing kept with
  | nil => simp [consume]
  | cons c gap ih =>
    have hc : c ≠ 10 := fun h => hfree (by simp [h])
    simp only [length_cons] at hlen
    have hstep : stepByte { state := .dataCrlf, pending := kept } c =
        .ok ({ state := .dataCrlf, pending := kept++[c] },[]) := by
      have hshort : ¬2 < (kept++[c]).length := by
        rw [length_append,length_singleton]
        omega
      simp only [stepByte,if_neg hc,if_neg hshort]
    have hrest := ih (kept++[c]) (fun h => hfree (by simp [h]))
      (by simp only [length_append,length_singleton]; omega)
    rw [consume_cons (by simp) hstep,hrest]
    simp [prepend]

theorem consume_gap_of_long (hfree : 10 ∉ gap) (hlen : 2 < gap.length) (rest : Bytes) :
    ∃ status, consume { state := .dataCrlf } (gap++rest) = .error status := by
  obtain ⟨a,b,c,gap,rfl⟩ : ∃ a b c l, gap = a::b::c::l := by
    rcases gap with _ | ⟨a,_ | ⟨b,_ | ⟨c,l⟩⟩⟩
    all_goals first | exact ⟨_,_,_,_,rfl⟩ | simp at hlen
  simp only [mem_cons,not_or] at hfree
  obtain ⟨ha,hb,hc,-⟩ := hfree
  exact ⟨_,by simp [consume,stepByte,Ne.symm ha,Ne.symm hb,Ne.symm hc]; rfl⟩

variable (hline : 10 ∉ line) (hsize : Announces line data.length) (hne : data ≠ [])

include hline hsize hne

theorem consume_announced_data (rest : Bytes) : consume {} (line++10::(data++rest)) =
    prepend data <$> consume { state := .dataCrlf } rest := by
  have hpos := length_pos_iff.mpr hne
  have hdata := consume_data (d := { remaining := data.length, state := .data }) rfl hne le_rfl
  simp only [Nat.sub_self,if_true] at hdata
  rw [consume_announced hline hsize,if_neg hpos.ne',consume_of_ok hdata]

variable (hfree : 10 ∉ gap) (hlen : gap.length ≤ 2)

include hfree hlen

theorem consume_raw (rest : Bytes) : consume {} (line++10::(data++(gap++10::rest))) =
    prepend data <$> consume {} rest := by
  have hgap := consume_gap [] hfree (by simpa using hlen)
  have hend : stepByte { state := .dataCrlf, pending := gap } 10 = .ok ({},[]) := rfl
  rw [consume_announced_data hline hsize hne,consume_of_ok hgap,nil_append,
    consume_cons (by simp) hend,prepend_nil,prepend_nil]

end

theorem lineOf_crlf (line : Bytes) : lineOf (line++[13]++[10]) = line := by
  simp [lineOf,chomp_cr]

theorem sizeLine_free {size extension : Bytes} {n : ℕ} (hsize : SizeOk size n)
    (hext : ExtensionOk extension) : 10 ∉ size++extension++[13] := by
  have hdig : 10 ∉ size := notMem_of_digits hsize.digits (by decide)
  simp [hdig,hext.no_lf]

theorem announces_sizeLine {size extension : Bytes} {n : ℕ} (hsize : SizeOk size n)
    (hext : ExtensionOk extension) : Announces (size++extension++[13]) n := by
  rw [Announces,chomp_cr,strip_size hsize hext]
  exact ⟨hsize.ne_nil,unsigned64_digits hsize.ne_nil hsize.digits hsize.lt⟩

theorem consume_chunk {c : ChunkText} (hc : c.Ok) (rest : Bytes) :
    consume {} (c.text++rest) = prepend c.data <$> consume {} rest := by
  have hcr : 10 ∉ ([13] : Bytes) := by decide
  have hraw := consume_raw (sizeLine_free hc.size hc.extension)
    (announces_sizeLine hc.size hc.extension) hc.data_ne_nil hcr (by decide) rest
  simpa [ChunkText.text] using hraw

theorem consume_trailers {fields : List Field} (h : ∀ f ∈ fields, f.Ok) (trailers : HttpHeaders)
    (rest : Bytes) :
    consume { state := .trailer, trailers } (block (fields.map line)++rest) =
      .ok ({ state := .complete, trailers := trailers++fields.map decoded },[],rest) := by
  induction fields generalizing trailers with
  | nil =>
    have hblank : consume { state := .trailer, trailers } ([13]++10::rest) =
        consume { state := .complete, trailers } rest := by
      rw [consume_line (.inr rfl) (by simp)]
      exact prepend_nil _
    have hjoin : block (([] : List Field).map line)++rest = [13]++10::rest := by
      simp [block,crlf]
    rw [hjoin,hblank]
    cases rest <;> simp [consume]
  | cons f fields ih =>
    have hf := h f (by simp)
    have hfree : 10 ∉ f.line++[13] := by simp [hf.lineOk.no_lf]
    have hjoin : block ((f::fields).map line)++rest =
        (f.line++[13])++10::(block (fields.map line)++rest) := by
      simp [block_cons]
    have hend : endTrailerLine { state := .trailer, trailers } f.line =
        { state := .trailer, trailers := trailers++[f.decoded] } := by
      rw [endTrailerLine,if_neg hf.lineOk.ne_nil,hf.cutAt_line]
      dsimp only
      rw [hf.strip_value,decoded]
    rw [hjoin,consume_line (.inr rfl) hfree,stepByte_newline_trailer rfl]
    simp only [nil_append]
    rw [lineOf_crlf,hend]
    simp only [ok_bind]
    rw [ih fun g hg => h g (by simp [hg])]
    simp [prepend]

/-- A body is decoded to its payload, and what follows it is not read. -/
theorem consume_text {b : ChunkedText} (hb : b.Ok) (rest : Bytes) : consume {} (b.text++rest) =
      .ok ({ state := .complete, trailers := b.trailers.map decoded },b.payload,rest) := by
  obtain ⟨chunks,lastSize,lastExtension,trailers⟩ := b
  obtain ⟨hcks,hlast,hext,htrail⟩ := hb
  simp only [ChunkedText.text] at *
  induction chunks with
  | nil =>
    simp only [flatMap_nil,nil_append]
    have hjoin : (lastSize++lastExtension++13::10::block (trailers.map line))++rest =
        (lastSize++lastExtension++[13])++10::(block (trailers.map line)++rest) := by
      simp
    rw [hjoin,consume_announced (sizeLine_free hlast hext) (announces_sizeLine hlast hext),
      if_pos rfl,consume_trailers htrail]
    rfl
  | cons c chunks ih =>
    have hrest := ih fun c' hc' => hcks c' (by simp [hc'])
    simp only [flatMap_cons,append_assoc] at hrest ⊢
    rw [consume_chunk (hcks c (by simp)),hrest]
    rfl

/-- A part of a body is decoded to a part of the payload and does not end it; the rest
of the body then completes it. -/
theorem consume_part {b : ChunkedText} (hb : b.Ok) {p q : Bytes} (hp : p++q = b.text)
    (hq : q ≠ []) : ∃ d out, consume {} p = .ok (d,out,[]) ∧ d.state ≠ .complete ∧
      ∃ more, consume d q =
        .ok ({ state := .complete, trailers := b.trailers.map decoded },more,[]) ∧
        out++more = b.payload := by
  have hall := consume_text hb []
  rw [append_nil,← hp,consume_append] at hall
  obtain ⟨⟨d,out,unread⟩,hpart,hall⟩ := bind_eq_ok.mp hall
  simp only [resume] at hall
  split_ifs at hall with hunr
  · subst hunr
    obtain ⟨⟨_,more,unread⟩,hmore,hall⟩ := bind_eq_ok.mp hall
    simp only [pure_eq_ok,Except.ok.injEq,Prod.mk.injEq] at hall
    obtain ⟨rfl,hout,rfl⟩ := hall
    refine ⟨d,out,hpart,fun hcomp => ?_,more,hmore,hout⟩
    cases q with
    | nil => simp at hq
    | cons c q => simp [consume,hcomp] at hmore
  · simp only [Except.ok.injEq,Prod.mk.injEq,append_eq_nil_iff] at hall
    exact absurd hall.2.2.2 hq

theorem consume_end {data unread : Bytes} (h : consume d data = .ok (d',out,unread)) :
    (d.Ready → d'.Ready) ∧ (d'.state ≠ .complete → unread = []) := by
  induction data generalizing d out with
  | nil =>
    cases h
    exact ⟨id,fun _ => rfl⟩
  | cons c data ih =>
    rw [consume] at h
    split_ifs at h with hcomp
    · cases h
      exact ⟨id,fun hst => absurd hcomp hst⟩
    obtain ⟨⟨_,_⟩,hstep,h⟩ := bind_eq_ok.mp h
    obtain ⟨⟨_,_,_⟩,hrest,h⟩ := bind_eq_ok.mp h
    cases h
    exact ⟨fun _ => (ih hrest).1 (stepByte_ready hstep),(ih hrest).2⟩

/-- What `Feed` decodes behind bytes it was fed before. -/
theorem feed_of_consume {got input all unread : Bytes} (hgot : consume {} got = .ok (d,out,[]))
    (hall : consume {} (got++input) = .ok (d',all,unread)) :
    ∃ more, feed d input = .ok (d',more) ∧ out++more = all := by
  rw [feed_eq ((consume_end hgot).1 (by simp [Ready]))]
  rw [consume_of_ok hgot] at hall
  cases hfed : consume d input with
  | error status => simp [hfed] at hall
  | ok fed =>
    rw [hfed] at hall
    cases hall
    exact ⟨fed.2.1,rfl,rfl⟩

/-! ### Between the data of a chunk and the next line -/

variable {p rest : Bytes}

/-- The decoder accepts the bytes and is then in this state. -/
def Reaches (p : Bytes) (d : ChunkedDecoder) : Prop := ∃ out, feed {} p = .ok (d,out)

theorem reaches_iff : Reaches p d ↔ ∃ out unread, consume {} p = .ok (d,out,unread) := by
  rw [Reaches,feed_eq (by simp [Ready])]
  cases consume {} p with
  | error status => simp
  | ok fed => simp [Prod.ext_iff]

/-- Behind the data of a chunk. -/
def EndsData (p : Bytes) : Prop := ∃ d, Reaches p d ∧ d.state = .dataCrlf ∧ d.pending = []

/-- The data of every chunk is followed by a line end and nothing else. -/
def TerminatorsStrict (input : Bytes) : Prop :=
  ∀ p rest, input = p++rest → EndsData p → [10] <+: rest ∨ [13,10] <+: rest

/-- The beginnings of a body that end with the data of a chunk: a size line and the data it
announces, or these, up to two bytes with a line end, and such a beginning. -/
inductive DataEnd : Bytes → Prop
  | first {line data : Bytes} : 10 ∉ line → Announces line data.length → data ≠ [] →
      DataEnd (line++10::data)
  | next {line data gap rest : Bytes} : 10 ∉ line → Announces line data.length → data ≠ [] →
      10 ∉ gap → gap.length ≤ 2 → DataEnd rest → DataEnd (line++10::(data++(gap++10::rest)))

/-- Nothing behind the last size line is data. -/
theorem consume_trailer {unread : Bytes} (hst : d.state = .trailer ∨ d.state = .complete)
    (h : consume d rest = .ok (d',out,unread)) : d'.state ≠ .dataCrlf := by
  induction rest generalizing d out with
  | nil =>
    cases h
    rcases hst with hst | hst <;> simp [hst]
  | cons c rest ih =>
    rw [consume] at h
    split_ifs at h with hcomp
    · cases h
      simp [hcomp]
    obtain ⟨⟨d₁,_⟩,hstep,h⟩ := bind_eq_ok.mp h
    obtain ⟨_,hrest,h⟩ := bind_eq_ok.mp h
    cases h
    refine ih ?_ hrest
    have htrail := hst.resolve_right hcomp
    simp only [stepByte,htrail] at hstep
    split_ifs at hstep
    · cases hstep
      rcases endTrailerLine_cases d (lineOf (d.pending++[c])) with heq | heq <;> simp [heq,htrail]
    · cases hstep
      exact .inl rfl

theorem DataEnd.endsData (h : DataEnd p) : EndsData p := by
  induction h with
  | @first line data hline hsize hne =>
    have hall := consume_announced_data hline hsize hne []
    rw [append_nil] at hall
    exact ⟨_,reaches_iff.mpr ⟨_,_,hall⟩,rfl,rfl⟩
  | @next _ _ _ rest hline hsize hne hfree hlen _ ih =>
    obtain ⟨d,hd,hst⟩ := ih
    obtain ⟨_,_,hd⟩ := reaches_iff.mp hd
    have hall := consume_raw hline hsize hne hfree hlen rest
    rw [hd] at hall
    exact ⟨d,reaches_iff.mpr ⟨_,_,hall⟩,hst⟩

/-- What the decoder has read when it waits for a terminator begins with a whole chunk. -/
theorem exists_announced_data {unread : Bytes} (h : consume {} p = .ok (d,out,unread))
    (hst : d.state = .dataCrlf) : ∃ line data rest, p = line++10::(data++rest) ∧ 10 ∉ line ∧
      Announces line data.length ∧ data ≠ [] := by
  by_cases hmem : 10 ∈ p
  swap
  · rw [consume_unfinished (.inl rfl) hmem] at h
    cases h
    cases hst
  obtain ⟨line,rest,rfl,hline⟩ := eq_append_cons_of_mem hmem
  obtain ⟨n,hsize⟩ : ∃ n, Announces line n := by
    rw [consume_line (.inl rfl) hline,stepByte_newline_size rfl,nil_append,lineOf_newline] at h
    cases hend : endSizeLine {} (chomp line) with
    | error status => simp [hend] at h
    | ok d => exact (endSizeLine_eq_ok.mp hend).imp fun _ hn => hn.1
  rw [consume_announced hline hsize] at h
  rcases Nat.eq_zero_or_pos n with rfl | hpos
  · exact absurd hst (consume_trailer (.inl rfl) h)
  rw [if_neg hpos.ne'] at h
  have hdata : n ≤ rest.length := by
    by_contra hlt
    by_cases hempty : rest = []
    · subst hempty
      cases h
      cases hst
    · rw [consume_data rfl hempty (by dsimp only; omega)] at h
      cases h
      simp only at hst
      split_ifs at hst
      omega
  have hlen : (rest.take n).length = n := length_take_of_le hdata
  refine ⟨line,rest.take n,rest.drop n,by rw [take_append_drop],hline,hlen.symm ▸ hsize,?_⟩
  exact length_pos_iff.mp (hlen.symm ▸ hpos)

/-- The decoder is behind the data of a chunk only where the grammar has it. -/
theorem dataEnd_of_consume {unread : Bytes} (h : consume {} p = .ok (d,out,unread))
    (hst : d.state = .dataCrlf) (hnil : d.pending = []) : DataEnd p := by
  induction hn : p.length using Nat.strong_induction_on generalizing p out with
  | _ n ih =>
    subst hn
    obtain ⟨line,data,rest,rfl,hline,hsize,hne⟩ := exists_announced_data h hst
    by_cases hmore : 10 ∈ rest
    · obtain ⟨gap,rest,rfl,hfree⟩ := eq_append_cons_of_mem hmore
      rcases Nat.lt_or_ge 2 gap.length with hlong | hshort
      · obtain ⟨status,herr⟩ := consume_gap_of_long hfree hlong (10::rest)
        simp [consume_announced_data hline hsize hne,herr] at h
      rw [consume_raw hline hsize hne hfree hshort] at h
      cases hrest : consume {} rest with
      | error status => simp [hrest] at h
      | ok fed =>
        rw [hrest] at h
        cases h
        exact .next hline hsize hne hfree hshort
          (ih rest.length (by simp only [length_append,length_cons]; omega) hrest rfl)
    · rw [consume_announced_data hline hsize hne] at h
      rcases Nat.lt_or_ge 2 rest.length with hlong | hshort
      · obtain ⟨status,herr⟩ := consume_gap_of_long hmore hlong []
        rw [append_nil] at herr
        simp [herr] at h
      · rw [consume_gap [] hmore (by simpa using hshort)] at h
        cases h
        obtain rfl : rest = [] := hnil
        rw [append_nil]
        exact .first hline hsize hne

def feedNext (fed : ChunkedDecoder × Bytes) (data : Bytes) : StatusOr (ChunkedDecoder × Bytes) := do
  let (d,out) ← feed fed.1 data
  return (d,fed.2++out)

theorem feed_append (a b : Bytes) : feed {} (a++b) = feed {} a >>= (feedNext · b) := by
  have hrdy : Ready {} := by simp [Ready]
  rw [feed_eq hrdy,feed_eq hrdy,consume_append]
  cases ha : consume {} a with
  | error status => rfl
  | ok fed =>
    have hend := consume_end ha
    simp only [ok_bind,pure_eq_ok,feedNext,feed_eq (hend.1 hrdy),resume]
    split_ifs with hunr
    · cases consume fed.1 b <;> rfl
    · have hcomp : fed.1.state = .complete := by_contra fun hst => hunr (hend.2 hst)
      cases b <;> simp [consume,hcomp]

/-- Fed in any pieces, the decoder ends as when it is fed everything at once: in the same state with
the same payload, or with the same error. -/
theorem feed_fragments (pieces : List Bytes) :
    pieces.foldlM feedNext ({},[]) = feed {} pieces.flatten := by
  induction pieces using List.reverseRecOn with
  | nil => rfl
  | append_singleton pieces piece ih =>
    rw [foldlM_append,ih,flatten_concat,feed_append]
    simp only [foldlM_cons,foldlM_nil,bind_pure]

end A11.Http1.ChunkedDecoder
