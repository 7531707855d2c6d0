import A11.DataTypes

/-! Pages of a retained text. A page is cut at a byte offset and shortened where the decoder finds
that its last character is cut off. -/
namespace A11.ContextPages
open List

def encode (text : List Char) : Bytes := text.flatMap String.utf8EncodeChar

structure Undecodable where
  reason : String
  start : ℕ
  stop : ℕ

/-- What a first byte gives of its character, and the ranges of the bytes that follow it. -/
def lead (b : ℕ) : Option (ℕ × List (ℕ × ℕ)) :=
  if b < 0x80 then some (b,[])
  else if b < 0xC2 then none
  else if b < 0xE0 then some (b-0xC0,[(0x80,0xBF)])
  else if b < 0xF0 then some (b-0xE0,
    [(if b = 0xE0 then 0xA0 else 0x80,if b = 0xED then 0x9F else 0xBF),(0x80,0xBF)])
  else if b < 0xF5 then some (b-0xF0,
    [(if b = 0xF0 then 0x90 else 0x80,if b = 0xF4 then 0x8F else 0xBF),(0x80,0xBF),(0x80,0xBF)])
  else none

/-- A character with no more bytes to follow stands in front of the rest. -/
def emit (value : ℕ) (ranges : List (ℕ × ℕ)) (rest : Except Undecodable (List Char)) :
    Except Undecodable (List Char) :=
  if ranges = [] then rest.map (Char.ofNat value::·) else rest

/-- Python's decoder within a character that begins at `start`: `pos` is the place of the next byte,
`value` what was read of the character, and `ranges` are those of its bytes still to follow. -/
def decodeFrom (start pos value : ℕ) :
    List (ℕ × ℕ) → Bytes → Except Undecodable (List Char)
  | [], [] => .ok []
  | _::_, [] => .error ⟨"unexpected end of data",start,pos⟩
  | [], b::bytes => match lead b.toNat with
    | none => .error ⟨"invalid start byte",pos,pos+1⟩
    | some (value,ranges) => emit value ranges (decodeFrom pos (pos+1) value ranges bytes)
  | (low,high)::ranges, b::bytes =>
    if low ≤ b.toNat ∧ b.toNat ≤ high then
      let value := value*64+b.toNat%64
      emit value ranges (decodeFrom start (pos+1) value ranges bytes)
    else .error ⟨"invalid continuation byte",start,pos⟩

def decode (bytes : Bytes) : Except Undecodable (List Char) := decodeFrom 0 0 0 [] bytes

structure Row where
  scope : Bytes
  expires : ℕ
  ready : ℤ
  digest : Bytes

structure Page where
  text : List Char
  cursor : ℕ
  nextCursor : Option ℕ
  sourceDigest : Bytes
  expiresAt : ℕ

variable (sha256 : Bytes → Bytes)

/-- The text of a page and where it ends. -/
def cut (raw : Bytes) (cursor maxBytes : ℕ) : StatusOr (List Char × ℕ) :=
  let stop := min raw.length (cursor+maxBytes)
  match decode ((raw.take stop).drop cursor) with
  | .ok text => .ok (text,stop)
  | .error e =>
    if e.reason ≠ "unexpected end of data" ∨ e.stop ≠ stop-cursor then
      .error (.invalidArgument "Page cursor is not a UTF-8 boundary")
    else if cursor+e.start = cursor then
      .error (.invalidArgument "Page cannot hold the next UTF-8 character")
    else match decode ((raw.take (cursor+e.start)).drop cursor) with
      | .ok text => .ok (text,cursor+e.start)
      | .error e => .error ⟨.unknown,e.reason⟩

/-- `retrieve` with what it finds: the row of the reference, the bytes of its node, and the key of
the caller's scope. -/
def retrieve (owner : Bytes) (row : Option Row) (data : StatusOr Bytes) (now : ℕ)
    (referenceOwner : Bytes) (scope : StatusOr Bytes) (cursor maxBytes : ℤ) : StatusOr Page := do
  let key ← scope
  if cursor < 0 ∨ maxBytes < 1 ∨ 1024*1024 < maxBytes then
    .error (.invalidArgument "Invalid context retrieval page")
  else match row with
    | none => .error (.notFound "Context reference not found in this scope")
    | some row =>
      if row.scope ≠ key ∨ referenceOwner ≠ owner then
        .error (.notFound "Context reference not found in this scope")
      else if row.expires ≤ now ∨ row.ready ≠ 1 then
        .error (.notFound "Context reference expired or unavailable")
      else do
        let raw ← data
        if sha256 raw ≠ row.digest then
          .error (.dataLoss "Retained source digest does not match")
        else if raw.length < cursor then
          .error (.outOfRange "Context cursor exceeds source size")
        else do
          let (text,stop) ← cut raw cursor.toNat maxBytes.toNat
          return ⟨text,cursor.toNat,if stop < raw.length then some stop else none,row.digest,row.expires⟩

/-- The pages from a cursor on, each read by one call after the other. -/
def pages (read : ℕ → ℕ → StatusOr Page) : ℕ → ℕ → ℕ → Option (StatusOr (List Page))
  | 0, _, _ => none
  | fuel+1, call, cursor => match read call cursor with
    | .error status => some (.error status)
    | .ok page => match page.nextCursor with
      | none => some (.ok [page])
      | some next => (pages read fuel (call+1) next).map (·.map (page::·))

/-! ### Cutting between characters -/

@[simp] theorem encode_append (xs ys : List Char) : encode (xs++ys) = encode xs++encode ys :=
  flatMap_append

theorem encode_pos {text : List Char} (h : text ≠ []) : 0 < (encode text).length := by
  cases text with
  | nil => exact absurd rfl h
  | cons c text =>
    have hpos := c.utf8Size_pos
    rw [encode,flatMap_cons,length_append,String.length_utf8EncodeChar]
    omega

/-! ### Decoding -/

abbrev InRange (b : UInt8) (range : ℕ × ℕ) : Prop := range.1 ≤ b.toNat ∧ b.toNat ≤ range.2

theorem lead_two : ∀ n < 30, lead (n+194) = some (n+2,[(0x80,0xBF)]) := by decide

theorem lead_three : ∀ n < 16, lead (n+224) = some (n,
    [(if n = 0 then 0xA0 else 0x80,if n = 13 then 0x9F else 0xBF),(0x80,0xBF)]) := by decide

theorem lead_four : ∀ n < 5, lead (n+240) = some (n,[(if n = 0 then 0x90 else 0x80,
    if n = 4 then 0x8F else 0xBF),(0x80,0xBF),(0x80,0xBF)]) := by decide

theorem toNat_byte {n : ℕ} (h : n < 256) : (UInt8.ofNat n).toNat = n :=
  Nat.mod_eq_of_lt h

/-- How a character is encoded, and what its first byte tells of that. -/
theorem exists_lead (c : Char) : ∃ b tail value ranges, String.utf8EncodeChar c = b::tail ∧
    lead b.toNat = some (value,ranges) ∧ Forall₂ InRange tail ranges ∧
    tail.foldl (fun v b => v*64+b.toNat%64) value = c.toNat := by
  have hv : c.toNat < 0xD800 ∨ 0xDFFF < c.toNat ∧ c.toNat < 0x110000 := c.valid
  have hval : c.val.toNat = c.toNat := rfl
  have hcont (n : ℕ) : (UInt8.ofNat (n%64+128)).toNat = n%64+128 := toNat_byte (by omega)
  unfold String.utf8EncodeChar
  simp only [hval]
  split_ifs with h₁ h₂ h₃
  · refine ⟨_,_,c.toNat,[],rfl,?_,.nil,rfl⟩
    rw [toNat_byte (by omega),lead,if_pos (by omega)]
  · have hb : (UInt8.ofNat (c.toNat/64%32+192)).toNat = c.toNat/64-2+194 := by
      rw [toNat_byte] <;> omega
    refine ⟨_,_,_,_,rfl,(congrArg lead hb).trans (lead_two _ (by omega)),
      .cons ?_ .nil,?_⟩
    all_goals
      simp only [InRange,foldl_cons,foldl_nil,hcont]
      omega
  · have hb : (UInt8.ofNat (c.toNat/4096%16+224)).toNat = c.toNat/4096+224 := by
      rw [toNat_byte] <;> omega
    refine ⟨_,_,_,_,rfl,(congrArg lead hb).trans (lead_three _ (by omega)),
      .cons ?_ (.cons ?_ .nil),?_⟩
    all_goals
      simp only [InRange,foldl_cons,foldl_nil,hcont]
      grind
  · have hb : (UInt8.ofNat (c.toNat/262144%8+240)).toNat = c.toNat/262144+240 := by
      rw [toNat_byte] <;> omega
    refine ⟨_,_,_,_,rfl,(congrArg lead hb).trans (lead_four _ (by omega)),
      .cons ?_ (.cons ?_ (.cons ?_ .nil)),?_⟩
    all_goals
      simp only [InRange,foldl_cons,foldl_nil,hcont]
      grind

/-- Bytes in their ranges are read into the character. -/
theorem emit_append {bytes : Bytes} {front : List (ℕ × ℕ)} (h : Forall₂ InRange bytes front)
    (start pos value : ℕ) (back : List (ℕ × ℕ)) (rest : Bytes) :
    emit value (front++back) (decodeFrom start pos value (front++back) (bytes++rest)) =
      let value := bytes.foldl (fun v b => v*64+b.toNat%64) value
      emit value back (decodeFrom start (pos+bytes.length) value back rest) := by
  induction h generalizing pos value with
  | nil => rfl
  | @cons b range bytes front hb _ ih =>
    have hin : range.1 ≤ b.toNat ∧ b.toNat ≤ range.2 := hb
    have hfirst : emit value (range::(front++back)) (decodeFrom start pos value
        (range::(front++back)) (b::(bytes++rest))) = emit (value*64+b.toNat%64) (front++back)
          (decodeFrom start (pos+1) (value*64+b.toNat%64) (front++back) (bytes++rest)) := by
      rw [emit,if_neg (cons_ne_nil _ _),decodeFrom,if_pos hin]
    simp only [cons_append,hfirst,ih,foldl_cons,length_cons]
    rw [Nat.add_right_comm,Nat.add_assoc]

/-- Between characters, what was read of the last one does not matter. -/
theorem decodeFrom_nil (start value start' value' pos : ℕ) (bytes : Bytes) :
    decodeFrom start pos value [] bytes = decodeFrom start' pos value' [] bytes := by
  cases bytes <;> rfl

theorem decodeFrom_encode (text : List Char) (start pos value : ℕ) (rest : Bytes) :
    decodeFrom start pos value [] (encode text++rest) =
      (decodeFrom start (pos+(encode text).length) value [] rest).map (text++·) := by
  induction text generalizing pos with
  | nil =>
    simp only [encode,flatMap_nil,nil_append,length_nil,Nat.add_zero]
    cases decodeFrom start pos value [] rest <;> rfl
  | cons c text ih =>
    obtain ⟨b,tail,first,ranges,hc,hlead,hin,hfold⟩ := exists_lead c
    have hbytes : encode (c::text) = b::(tail++encode text) := by simp [encode,hc]
    have hread := emit_append hin pos (pos+1) first [] (encode text++rest)
    simp only [append_nil,hfold] at hread
    rw [hbytes,cons_append,append_assoc,decodeFrom,hlead]
    dsimp only
    rw [hread,emit,if_pos rfl,Char.ofNat_toNat,decodeFrom_nil _ _ start value,ih]
    simp only [length_cons,length_append]
    rw [show pos+1+tail.length+(encode text).length = pos+(tail.length+(encode text).length+1) by
      omega]
    cases decodeFrom start (pos+(tail.length+(encode text).length+1)) value [] rest <;> rfl

theorem decode_encode (text : List Char) : decode (encode text) = .ok text := by
  have hall := decodeFrom_encode text 0 0 0 []
  rw [append_nil] at hall
  rw [decode,hall,decodeFrom,Except.map,append_nil]

/-- A final character that is cut off is reported. -/
theorem decode_cut (text : List Char) (c : Char) (head tail : Bytes)
    (hc : String.utf8EncodeChar c = head++tail) (hhead : head ≠ []) (htail : tail ≠ []) :
    decode (encode text++head) =
      .error ⟨"unexpected end of data",(encode text).length,(encode text++head).length⟩ := by
  obtain ⟨b,more,first,ranges,hmore,hlead,hin,-⟩ := exists_lead c
  obtain ⟨head,rfl,rfl⟩ : ∃ front, head = b::front ∧ more = front++tail := by
    cases head with
    | nil => exact absurd rfl hhead
    | cons b' head =>
      rw [hmore] at hc
      obtain ⟨rfl,rfl⟩ := cons.inj hc
      exact ⟨head,rfl,rfl⟩
  have hfront := (forall₂_take_append _ _ _ hin.flip).flip
  have hback := (forall₂_drop_append _ _ _ hin.flip).flip
  cases hleft : ranges.drop head.length with
  | nil =>
    rw [hleft,forall₂_nil_right_iff] at hback
    exact absurd hback htail
  | cons range back =>
    have hread := emit_append hfront (encode text).length ((encode text).length+1) first
      (ranges.drop head.length) []
    rw [take_append_drop,append_nil,hleft] at hread
    simp only [emit,reduceCtorEq,if_false,decodeFrom] at hread
    simp only [decode,decodeFrom_encode,Nat.zero_add,decodeFrom,hlead,emit,hread]
    rw [Except.map,length_append,length_cons,Nat.add_assoc,Nat.add_comm 1]

/-- A bound on the bytes ends after the text or before the last byte of one of its characters. -/
theorem exists_cut (text : List Char) (n : ℕ) : ∃ kept left, text = kept++left ∧
    (left = [] ∧ (encode kept).length ≤ n ∨ ∃ c more head tail, left = c::more ∧
      String.utf8EncodeChar c = head++tail ∧ tail ≠ [] ∧ (encode kept++head).length = n) := by
  induction text generalizing n with
  | nil => exact ⟨[],[],rfl,.inl ⟨rfl,Nat.zero_le n⟩⟩
  | cons c text ih =>
    by_cases hfits : (String.utf8EncodeChar c).length ≤ n
    · obtain ⟨kept,left,rfl,h⟩ := ih (n-(String.utf8EncodeChar c).length)
      have hlen : (encode (c::kept)).length =
        (String.utf8EncodeChar c).length+(encode kept).length := length_append
      refine ⟨c::kept,left,rfl,h.imp (fun ⟨hnil,hle⟩ => ⟨hnil,by omega⟩) ?_⟩
      rintro ⟨c',more,head,tail,hleft,hc,htail,hn⟩
      refine ⟨c',more,head,tail,hleft,hc,htail,?_⟩
      rw [length_append] at hn ⊢
      omega
    · refine ⟨[],c::text,rfl,.inr ⟨c,text,_,_,rfl,(take_append_drop n _).symm,?_,?_⟩⟩
      · rwa [ne_eq,drop_eq_nil_iff]
      · exact length_take_of_le (by omega)

/-- A page cut at a character holds the rest of the text or at least one character of it, or its
first character does not fit. -/
theorem cut_encode (done text : List Char) {maxBytes : ℕ} (hmax : 0 < maxBytes) :
    (∃ kept left, text = kept++left ∧ (left ≠ [] → kept ≠ []) ∧
      (encode kept).length ≤ maxBytes ∧
      cut (encode (done++text)) (encode done).length maxBytes =
        .ok (kept,(encode (done++kept)).length)) ∨
    ∃ c more, text = c::more ∧ maxBytes < c.utf8Size ∧
      cut (encode (done++text)) (encode done).length maxBytes =
        .error (.invalidArgument "Page cannot hold the next UTF-8 character") := by
  have hslice (slice rest : Bytes) : ((encode done++(slice++rest)).take
      ((encode done).length+slice.length)).drop (encode done).length = slice := by
    rw [take_length_add_append,drop_left,take_left]
  obtain ⟨kept,left,rfl,⟨rfl,hle⟩ | ⟨c,more,head,tail,rfl,hc,htail,rfl⟩⟩ :=
    exists_cut text maxBytes
  · have hall := hslice (encode kept) []
    refine .inl ⟨kept,[],rfl,by simp,hle,?_⟩
    simp_all [cut,decode_encode]
  · have hraw : encode (done++(kept++c::more)) =
        encode done++(encode kept++(head++(tail++encode more))) := by
      simp [encode,hc]
    have hsize : c.utf8Size = head.length+tail.length := by
      rw [← String.length_utf8EncodeChar,hc,length_append]
    have htail := length_pos_iff.mpr htail
    have hstop : min (encode (done++(kept++c::more))).length
        ((encode done).length+(encode kept++head).length) =
        (encode done).length+(encode kept++head).length := by
      simp only [hraw,length_append]
      omega
    have hpage := hslice (encode kept++head) (tail++encode more)
    have hkept := hslice (encode kept) (head++(tail++encode more))
    rw [append_assoc] at hpage
    simp only [cut,hstop]
    rw [hraw,hpage]
    by_cases hhead : head = []
    · subst hhead
      have hpos : kept ≠ [] := by
        rintro rfl
        simp [encode] at hmax
      refine .inl ⟨kept,_,rfl,fun _ => hpos,by simp,?_⟩
      simp [decode_encode]
    · rw [decode_cut kept c head tail hc hhead (length_pos_iff.mp htail)]
      by_cases hpos : kept = []
      · subst hpos
        refine .inr ⟨c,more,rfl,by simp [encode]; omega,?_⟩
        simp [encode]
      · have := encode_pos hpos
        refine .inl ⟨kept,_,rfl,fun _ => hpos,by simp,?_⟩
        have hne : encode kept ≠ [] := length_pos_iff.mp this
        simp [hkept,decode_encode,hne]

/-! ### Whole retrievals -/

variable (owner scope : Bytes) {expires : ℕ} (now : ℕ → Fin expires)

/-- The calls that page through a text `retain` has stored, each before it expires. -/
def reading (text : List Char) (maxBytes : ℤ) (call cursor : ℕ) : StatusOr Page :=
  retrieve sha256 owner (some ⟨scope,expires,1,sha256 (encode text)⟩) (.ok (encode text))
    (now call) owner (.ok scope) cursor maxBytes

/-- What the pages after `done` are to be for `text`. -/
def Exact (maxBytes : ℕ) (done text : List Char) : StatusOr (List Page) → Prop
  | .ok ps => ps.flatMap Page.text = text ∧ ∀ p ∈ ps, (encode p.text).length ≤ maxBytes ∧
      ∃ before, before <+: done++text ∧ p.cursor = (encode before).length
  | .error status => maxBytes < 4 ∧ (∃ c ∈ text, maxBytes < c.utf8Size) ∧
      status = .invalidArgument "Page cannot hold the next UTF-8 character"

theorem Exact.cons {maxBytes expiresAt : ℕ} {next : Option ℕ} {digest : Bytes}
    {done kept left : List Char} {result : StatusOr (List Page)}
    (h : Exact maxBytes (done++kept) left result)
    (hle : (encode kept).length ≤ maxBytes) : Exact maxBytes done (kept++left)
      (result.map (⟨kept,(encode done).length,next,digest,expiresAt⟩::·)) := by
  cases result with
  | ok ps =>
    obtain ⟨rfl,hps⟩ := h
    refine ⟨rfl,forall_mem_cons.mpr ⟨⟨hle,done, prefix_append ..,rfl⟩,fun p hp => ?_⟩⟩
    simpa using hps p hp
  | error status =>
    obtain ⟨hfour,⟨c,hc,hsize⟩,hstatus⟩ := h
    exact ⟨hfour,⟨c,mem_append_right kept hc,hsize⟩,hstatus⟩

theorem pages_from {maxBytes : ℕ} (hmax : 1 ≤ maxBytes ∧ maxBytes ≤ 1024*1024)
    (done text : List Char) (fuel call : ℕ) (hfuel : text.length < fuel) :
    ∃ result, pages (reading sha256 owner scope now (done++text) maxBytes) fuel call
      (encode done).length = some result ∧ Exact maxBytes done text result := by
  induction fuel generalizing done text call with
  | zero => omega
  | succ fuel ih =>
    have hread : reading sha256 owner scope now (done++text) maxBytes call
        (encode done).length = (cut (encode (done++text)) (encode done).length maxBytes).map
          fun r => ⟨r.1,(encode done).length,if r.2 < (encode (done++text)).length then
            some r.2 else none,sha256 (encode (done++text)),expires⟩ := by
      have hsize : ¬(((encode done).length : ℤ) < 0 ∨ (maxBytes : ℤ) < 1 ∨
        1024*1024 < (maxBytes : ℤ)) := by omega
      have hready : ¬expires ≤ (now call).val := by omega
      have hcursor : ¬((encode (done++text)).length : ℤ) < ((encode done).length : ℤ) := by simp
      simp only [reading,retrieve,bind,Except.bind,if_neg hsize,if_neg hready,if_neg hcursor,
        ne_eq,not_true,or_self,or_false,if_false,Int.toNat_natCast]
      cases cut (encode (done++text)) (encode done).length maxBytes <;> rfl
    rw [pages,hread]
    obtain ⟨kept,left,rfl,hleft,hle,hcut⟩ | ⟨c,_,rfl,hc,hcut⟩ :=
      cut_encode done text hmax.1
    · simp only [hcut,Except.map]
      by_cases hnil : left = []
      · subst hnil
        rw [if_neg (by simp)]
        have hend : Exact maxBytes (done++kept) [] (.ok []) := ⟨rfl,by simp⟩
        exact ⟨_,rfl,hend.cons hle⟩
      · have hlast := encode_pos hnil
        have hpos := length_pos_iff.mpr (hleft hnil)
        rw [length_append] at hfuel
        obtain ⟨result,hpages,hexact⟩ := ih (done++kept) left (call+1) (by omega)
        rw [append_assoc] at hpages
        rw [if_pos (by simpa using hlast)]
        exact ⟨_,congrArg (Option.map _) hpages,hexact.cons hle⟩
    · rw [hcut]
      have := c.utf8Size_le_four
      exact ⟨_,rfl,by omega,⟨c,by simp,hc⟩,rfl⟩

/-- Characters of one to four bytes on pages of four bytes: the first two pages are shortened. -/
example : (pages (reading id [] [] (fun _ => (0 : Fin 1)) ['a','é','€','😀','b'] 4) 6 0 0).map
    (·.map (·.map fun p => (p.text,p.cursor,p.nextCursor))) = some (.ok [(['a','é'],0,some 3),
      (['€'],3,some 6),(['😀'],6,some 10),(['b'],10,none)]) := by
  rfl

end A11.ContextPages
