import A11.ChunkStoreReader

/-! Mimetypes that the writer leaves out where they repeat, and the reader puts back. The writer
goes by the order of the writes, the reader by the order of the sequences. -/
namespace A11.StickyMimetypes
open List

open ChunkStoreWriter (Core Config Element getMimetype stickyChunk storePayload storeFragment
  materialize enqueuePayload enqueuePayload_ok applySticky explicitSequenceGap)
open ChunkStoreReader (Store Cursor expandSticky finishFragment readOne sequential endStatus)

structure Write where
  chunk : Chunk
  seq : Option UInt32 := none
  final : Bool := false

def enqueueAll : Core → List Write → StatusOr Core
  | c, [] => .ok c
  | c, w::ws => do
    let (c,_) ← enqueuePayload c (.chunk w.chunk) w.seq w.final
    enqueueAll c ws

/-! ### What the writes say -/

/-- The mimetype of the last of the writes. -/
def lastMimetype (current : Bytes) (ws : List Write) : Bytes :=
  ws.foldl (fun _ w => getMimetype w.chunk) current

/-- The sequence that would carry the writes on. -/
def followingSeq (next : ℕ) (ws : List Write) : ℕ :=
  ws.foldl (fun n w => match w.seq with | some s => s.toNat+1 | none => n+1) next

/-- The mimetype of the in-process value that the store needs as bytes. -/
def objectMimetype (cfg : Config) (c : Chunk) : Bytes :=
  if cfg.holdsObjects ∨ c.data ≠ [] then [] else (c.object.map cfg.objectMimetype).getD []

/-- The mimetype a chunk is written with: its own, or the one of its value. -/
def writtenMimetype (cfg : Config) (c : Chunk) : Bytes :=
  if getMimetype c = [] then objectMimetype cfg c else getMimetype c

/-- The chunk repeats the mimetype of the write before it, without a gap. -/
def Repeats (offset : ℕ) (before : List Write) (w : Write) : Prop :=
  getMimetype w.chunk ≠ [] ∧ getMimetype w.chunk = lastMimetype [] before ∧
    ∀ s, w.seq = some s → s.toNat = followingSeq offset before

/-- A mimetype that is left out can be put back from the one read before it. -/
def Restorable (cfg : Config) (offset : ℕ) (before : List Write) (w : Write)
    (previous : Bytes) : Prop :=
  Repeats offset before w →
    if objectMimetype cfg w.chunk = [] then getMimetype w.chunk = previous
    else getMimetype w.chunk = objectMimetype cfg w.chunk

/-- A chunk that comes without a mimetype takes over the one before it. -/
def inherit (previous written : Bytes) : Bytes := if written = [] then previous else written

/-- The mimetypes of the writes in the order of their sequences, taken over where there is none. -/
def inheritedMimetypes (cfg : Config) (ws : List Write) (order : List ℕ) : List Bytes :=
  order.foldl (fun types i => types++(ws[i]?.map fun w =>
    inherit (types.getLast?.getD []) (writtenMimetype cfg w.chunk)).toList) []

/-- Every write can be put back; `order` lists the writes by their sequences. -/
def AllRestorable (cfg : Config) (offset : ℕ) (ws : List Write) (order : List ℕ) : Prop :=
  ∀ q i w, order[q]? = some i → ws[i]? = some w →
    Restorable cfg offset (ws.take i) w
      ((inheritedMimetypes cfg ws (order.take q)).getLast?.getD [])

/-- The store holds the elements of a writer, one under every sequence from zero on. Clearing a
sequence answers with what it held. -/
structure Stored (cfg : Config) (storeId : Bytes) (elements : List Element) (order : List ℕ)
    (store : Store) : Prop where
  filled : order.Perm (List.range elements.length)
  fits : order.length ≤ uint32Range
  explicit : ∀ (q i : ℕ) (e : Element) (s : UInt32), order[q]? = some i → elements[i]? = some e →
    e.seq = some s → s.toNat = q
  last : ∀ (q i : ℕ) (e : Element), order[q]? = some i → elements[i]? = some e →
    e.continued = false → q+1 = order.length
  get : ∀ (q i : ℕ) (e : Element), order[q]? = some i → elements[i]? = some e →
    ∃ f, storeFragment cfg storeId e = .ok f ∧
      store.get q = .ok { f with seq := some (UInt32.ofNat q) } ∧
      store.clearData (UInt32.ofNat q) = .ok { f with seq := some (UInt32.ofNat q) }

def fragmentMimetype (f : NodeFragment) : Bytes :=
  match f.data with
  | .chunk c => getMimetype c
  | .nodeRef _ => []

/-! ### The writer -/

theorem getMimetype_stickyChunk (current : Bytes) (gap : Bool) (c : Chunk) :
    getMimetype (stickyChunk current gap c) =
      if gap = true ∨ getMimetype c ≠ current then getMimetype c else [] := by
  unfold stickyChunk
  by_cases h : gap = true ∨ getMimetype c ≠ current
  · rw [if_pos h,if_pos (by simpa using h)]
  rw [if_neg (by simpa using h)]
  cases hm : c.metadata with
  | none => simp [getMimetype,hm]
  | some m =>
    dsimp only
    split <;> rfl

theorem objectMimetype_stickyChunk (cfg : Config) (current : Bytes) (gap : Bool) (c : Chunk) :
    objectMimetype cfg (stickyChunk current gap c) = objectMimetype cfg c := by
  have hsame : (stickyChunk current gap c).object = c.object ∧
      (stickyChunk current gap c).data = c.data := by
    unfold stickyChunk
    split
    · exact ⟨rfl,rfl⟩
    split
    · exact ⟨rfl,rfl⟩
    · dsimp only
      split <;> exact ⟨rfl,rfl⟩
  rw [objectMimetype,objectMimetype,hsame.1,hsame.2]

theorem storePayload_mimetype {cfg : Config} {c : Chunk} {p : Payload}
    (h : storePayload cfg (.chunk c) = .ok p) :
    ∃ d, p = .chunk d ∧ getMimetype d = writtenMimetype cfg c := by
  have hown (hno : objectMimetype cfg c = []) : getMimetype c = writtenMimetype cfg c := by
    unfold writtenMimetype
    split
    · simp_all
    · rfl
  unfold storePayload at h
  dsimp only at h
  split at h
  · rename_i hholds
    cases h
    exact ⟨c,rfl,hown (by simp [objectMimetype,hholds])⟩
  rename_i hholds
  unfold materialize at h
  cases hobj : c.object with
  | none =>
    simp only [hobj] at h
    cases h
    exact ⟨c,rfl,hown (by simp [objectMimetype,hobj])⟩
  | some object =>
    simp only [hobj] at h
    by_cases hdata : c.data = []
    · rw [if_neg (by simp [hdata])] at h
      cases henc : cfg.encode object with
      | error status => simp [henc,Except.map] at h
      | ok data =>
        simp only [henc,ok_bind,Except.map,Except.ok.injEq] at h
        refine ⟨_,h.symm,?_⟩
        unfold writtenMimetype objectMimetype
        cases hm : c.metadata with
        | none => simp [getMimetype,hm,hholds,hdata,hobj]
        | some m =>
          cases hmime : m.mimetype with
          | nil => simp [getMimetype,hm,hholds,hdata,hobj,hmime]
          | cons b bs => simp [getMimetype,hm,hmime]
    · rw [if_pos hdata] at h
      exact ⟨_,(Except.ok.inj h).symm,hown (by simp [objectMimetype,hdata])⟩

/-- The chunk as the writer passes it on, after the writes before it. -/
def stuck (current : Bytes) (next : ℕ) (before : List Write) (w : Write) : Chunk :=
  stickyChunk (lastMimetype current before)
    (w.seq.any fun s => s.toNat ≠ followingSeq next before) w.chunk

theorem enqueue_sticky {c d : Core} {w : Write} {admitted : Bool}
    (hsticky : c.options.stickyMimetype = true)
    (h : enqueuePayload c (.chunk w.chunk) w.seq w.final = .ok (d,admitted)) :
    d.options = c.options ∧ d.currentMimetype = getMimetype w.chunk ∧
      d.nextStickySeq = followingSeq c.nextStickySeq [w] ∧ ∃ e, d.accepted = c.accepted++[e] ∧
        e.payload = .chunk (stuck c.currentMimetype c.nextStickySeq [] w) ∧
        e.continued = !w.final := by
  obtain ⟨-,-,n,m,k,e,hstuck,-,hcont,hd⟩ := enqueuePayload_ok h
  simp only [applySticky,hsticky,if_true,Prod.mk.injEq] at hstuck
  obtain ⟨hpay,hcore⟩ := hstuck
  have hm : getMimetype w.chunk = m := congrArg Core.currentMimetype hcore
  have hk : followingSeq c.nextStickySeq [w] = k := congrArg Core.nextStickySeq hcore
  rcases hd with ⟨-,rfl⟩ | ⟨-,rfl⟩
  · exact ⟨rfl,hm.symm,hk.symm,e,rfl,hpay.symm,hcont⟩
  · exact ⟨rfl,hm.symm,hk.symm,e,rfl,hpay.symm,hcont⟩

theorem enqueueAll_accepted {c d : Core} {ws : List Write}
    (hsticky : c.options.stickyMimetype = true) (h : enqueueAll c ws = .ok d) :
    ∃ elements : List Element, d.accepted = c.accepted++elements ∧ elements.length = ws.length ∧
      ∀ (i : ℕ) (w : Write), ws[i]? = some w → ∃ e, elements[i]? = some e ∧
        e.payload = .chunk (stuck c.currentMimetype c.nextStickySeq (ws.take i) w) ∧
        e.continued = !w.final := by
  induction ws generalizing c with
  | nil =>
    cases h
    exact ⟨[],by simp,rfl,by simp⟩
  | cons w ws ih =>
    obtain ⟨⟨_,_⟩,hfst,h⟩ := StatusOr.bind_eq_ok.mp h
    obtain ⟨hopt,hcur,hnext,e,hacc,hpay,hcont⟩ := enqueue_sticky hsticky hfst
    obtain ⟨elements,hd,hlen,hrest⟩ := ih (by rw [hopt]; exact hsticky) h
    refine ⟨e::elements,by rw [hd,hacc]; simp,by simp [hlen],?_⟩
    intro i w' hi
    cases i with
    | zero =>
      simp only [getElem?_cons_zero,Option.some.injEq] at hi
      subst hi
      exact ⟨e,rfl,hpay,hcont⟩
    | succ i =>
      obtain ⟨e',he',hpay',hcont'⟩ := hrest i w' (by simpa using hi)
      refine ⟨e',by simpa using he',?_,hcont'⟩
      rw [hpay',hcur,hnext]
      rfl

/-- The mimetype the store ends up with. -/
theorem stuck_mimetype (cfg : Config) (next : ℕ) (before : List Write) (w : Write) :
    (Repeats next before w → writtenMimetype cfg (stuck [] next before w) =
      objectMimetype cfg w.chunk) ∧
    (¬Repeats next before w → writtenMimetype cfg (stuck [] next before w) =
      writtenMimetype cfg w.chunk) := by
  unfold writtenMimetype stuck
  rw [getMimetype_stickyChunk,objectMimetype_stickyChunk]
  have hgap : (w.seq.any fun s => decide (s.toNat ≠ followingSeq next before)) = true ↔
      ¬∀ s, w.seq = some s → s.toNat = followingSeq next before := by
    cases w.seq <;> simp
  constructor
  · rintro ⟨-,hsame,hseq⟩
    have hdrop : ¬((w.seq.any fun s => decide (s.toNat ≠ followingSeq next before)) = true ∨
        getMimetype w.chunk ≠ lastMimetype [] before) := by
      rw [hgap]
      exact not_or.mpr ⟨not_not.mpr hseq,not_not.mpr hsame⟩
    simp only [hdrop,if_false,if_true]
  · intro hrepeats
    by_cases hnone : getMimetype w.chunk = []
    · rw [hnone,ite_self]
    have hkept : (w.seq.any fun s => decide (s.toNat ≠ followingSeq next before)) = true ∨
        getMimetype w.chunk ≠ lastMimetype [] before := by
      by_cases hsame : getMimetype w.chunk = lastMimetype [] before
      · exact .inl (hgap.mpr fun hseq => hrepeats ⟨hnone,hsame,hseq⟩)
      · exact .inr hsame
    rw [if_pos hkept]

/-- The mimetype that is put back is the right one exactly when it can be put back. -/
theorem restored_iff (cfg : Config) (next : ℕ) (before : List Write) (w : Write)
    (previous : Bytes) : inherit previous (writtenMimetype cfg (stuck [] next before w)) =
      inherit previous (writtenMimetype cfg w.chunk) ↔ Restorable cfg next before w previous := by
  obtain ⟨hdrop,hkept⟩ := stuck_mimetype cfg next before w
  unfold Restorable
  by_cases h : Repeats next before w
  · have hwr : writtenMimetype cfg w.chunk = getMimetype w.chunk := if_neg h.1
    rw [hdrop h,hwr,inherit,inherit,if_neg h.1]
    simp only [h,true_imp_iff]
    split
    · exact eq_comm
    · exact eq_comm
  · simp [hkept h,h]

/-! ### The reader -/

/-- An ordered reader with sticky mimetypes that starts at zero and stops before nothing. -/
structure ReadsAll (ro : ChunkStoreReader.Options) (count : ℕ) : Prop where
  ordered : ro.ordered = true
  sticky : ro.stickyMimetype = true
  offset : ro.offset = 0
  limit : ∀ n, ro.maxChunksToRead = some n → count ≤ n

variable {cfg : Config} {storeId : Bytes} {elements : List Element} {order : List ℕ}
  {store : Store} {ro : ChunkStoreReader.Options} {ws : List Write} {offset : ℕ}

theorem expandSticky_mimetype {count : ℕ} (hro : ReadsAll ro count) (current : Bytes)
    (f : NodeFragment) (c : Chunk) (hf : f.data = .chunk c) :
    fragmentMimetype (expandSticky ro current f).1 = inherit current (getMimetype c) ∧
      (expandSticky ro current f).2 = inherit current (getMimetype c) := by
  unfold expandSticky inherit
  simp only [hro.ordered,hro.sticky,Bool.and_self,if_true,hf]
  by_cases hnone : getMimetype c = []
  · rw [if_neg (by simpa using hnone),if_pos hnone]
    by_cases hcur : current = []
    · rw [if_neg (by simpa using hcur)]
      exact ⟨by rw [fragmentMimetype,hf,hcur]; exact hnone,rfl⟩
    · rw [if_pos hcur]
      exact ⟨rfl,rfl⟩
  · rw [if_pos hnone,if_neg hnone]
    exact ⟨by rw [fragmentMimetype,hf],rfl⟩

/-- What a write leaves in the store: `e` is its element, `w` the write itself. -/
structure Passed (offset : ℕ) (ws : List Write) (elements : List Element) : Prop where
  length : elements.length = ws.length
  element : ∀ (i : ℕ) (w : Write), ws[i]? = some w → ∃ e, elements[i]? = some e ∧
    e.payload = .chunk (stuck [] offset (ws.take i) w) ∧ e.continued = !w.final

theorem Stored.exists_write (hstored : Stored cfg storeId elements order store)
    (hpassed : Passed offset ws elements) {q : ℕ} (hq : q < order.length) :
    ∃ i w f c, order[q]? = some i ∧ ws[i]? = some w ∧ store.get q = .ok f ∧
      f.seq = some (UInt32.ofNat q) ∧ store.clearData (UInt32.ofNat q) = .ok f ∧
      f.data = .chunk c ∧ getMimetype c = writtenMimetype cfg (stuck [] offset (ws.take i) w) ∧
      (f.continued = false → q+1 = order.length) := by
  have hi : order[q] ∈ List.range elements.length := hstored.filled.mem_iff.mp (getElem_mem hq)
  rw [mem_range,hpassed.length] at hi
  have hord : order[q]? = some order[q] := getElem?_eq_getElem hq
  have hw : ws[order[q]]? = some ws[order[q]] := getElem?_eq_getElem hi
  obtain ⟨e,he,hpay,-⟩ := hpassed.element _ _ hw
  obtain ⟨f,hf,hget,hclear⟩ := hstored.get q _ e hord he
  obtain ⟨p,hp,hf⟩ := StatusOr.bind_eq_ok.mp hf
  obtain rfl := Except.ok.inj hf
  rw [hpay] at hp
  obtain ⟨c,rfl,hmime⟩ := storePayload_mimetype hp
  exact ⟨_,_,_,c,hord,hw,hget,rfl,hclear,rfl,hmime,hstored.last q _ e hord he⟩

structure Reading (count : ℕ) (q : ℕ) (c : Cursor) : Prop where
  position : c.position = q
  chunksRead : c.chunksRead = q
  status : q < count → c.status = none
  current : c.currentMimetype = (c.fragments.map fragmentMimetype).getLast?.getD []

section

variable (hstored : Stored cfg storeId elements order store) (hpassed : Passed offset ws elements)
  (hro : ReadsAll ro order.length)

include hstored hpassed hro

theorem readOne_reading {q : ℕ}
    (hq : q < order.length) (c : Cursor) (hc : Reading order.length q c) :
    Reading order.length (q+1) (readOne ro store c) ∧ ∃ i w, order[q]? = some i ∧ ws[i]? = some w ∧
        (readOne ro store c).fragments.map fragmentMimetype = c.fragments.map fragmentMimetype++
            [inherit c.currentMimetype (writtenMimetype cfg (stuck [] offset (ws.take i) w))] := by
  obtain ⟨i,w,f,d,hord,hw,hget,hseq,hclear,hdata,hmime,hlast⟩ := hstored.exists_write hpassed hq
  have hread : readOne ro store c = finishFragment ro c f := by
    have hzero : ro.maxChunksToRead ≠ some 0 := fun h => by
      have := hro.limit 0 h
      omega
    have hrng : ¬maxSeq < c.position := by
      have hfits := hstored.fits
      rw [hc.position]
      simp only [maxSeq,uint32Range] at hfits ⊢
      omega
    unfold readOne
    rw [hc.status hq,hc.position] at *
    simp [hzero,hget,hseq,hclear,hrng]
  obtain ⟨hexpanded,hcur⟩ := expandSticky_mimetype hro c.currentMimetype f d hdata
  rw [hmime] at hexpanded hcur
  have hmap : (finishFragment ro c f).fragments.map fragmentMimetype =
      c.fragments.map fragmentMimetype++
        [inherit c.currentMimetype (writtenMimetype cfg (stuck [] offset (ws.take i) w))] := by
    simp [finishFragment,hexpanded]
  rw [hread]
  refine ⟨⟨?_,?_,?_,?_⟩,i,w,hord,hw,hmap⟩
  · simp [finishFragment,hc.position]
  · simp [finishFragment,hc.chunksRead]
  · intro hmore
    have hlim : ro.maxChunksToRead ≠ some (q+1) := fun h => by
      have := hro.limit _ h
      omega
    have hcont : f.continued = true := by
      by_contra hnot
      have := hlast (by simpa using hnot)
      omega
    simp [finishFragment,endStatus,hc.chunksRead,hlim,hcont]
  · rw [hmap]
    simp [finishFragment,hcur]

theorem sequential_reading (q : ℕ)
    (hq : q ≤ order.length) : Reading order.length q (sequential ro store q) := by
  induction q with
  | zero => exact ⟨by simp [sequential,ChunkStoreReader.start,hro.offset],rfl,fun _ => rfl,rfl⟩
  | succ q ih => exact (readOne_reading hstored hpassed hro hq _ (ih (by omega))).1

end

theorem inheritedMimetypes_take {q i : ℕ} {w : Write} (hi : order[q]? = some i)
    (hw : ws[i]? = some w) : inheritedMimetypes cfg ws (order.take (q+1)) =
      inheritedMimetypes cfg ws (order.take q)++
        [inherit ((inheritedMimetypes cfg ws (order.take q)).getLast?.getD [])
          (writtenMimetype cfg w.chunk)] := by
  have htake : order.take (q+1) = order.take q++[i] := by
    rw [take_add_one,hi]
    rfl
  rw [htake,inheritedMimetypes,foldl_append]
  simp only [foldl_cons,foldl_nil,hw]
  rfl

/-- What has been read is right exactly when all of it could be put back. -/
theorem mimetypes_read_iff (hstored : Stored cfg storeId elements order store)
    (hpassed : Passed offset ws elements) (hro : ReadsAll ro order.length) (q : ℕ)
    (hq : q ≤ order.length) : (sequential ro store q).fragments.map fragmentMimetype =
        inheritedMimetypes cfg ws (order.take q) ↔
      ∀ p < q, ∀ i w, order[p]? = some i → ws[i]? = some w → Restorable cfg offset (ws.take i) w
          ((inheritedMimetypes cfg ws (order.take p)).getLast?.getD []) := by
  induction q with
  | zero => simp [sequential,ChunkStoreReader.start,inheritedMimetypes]
  | succ q ih =>
    have hread := sequential_reading hstored hpassed hro q (by omega)
    obtain ⟨-,i,w,hi,hw,hmap⟩ := readOne_reading hstored hpassed hro hq _ hread
    have ih := ih (by omega)
    have hrestored (previous : Bytes) := restored_iff cfg offset (ws.take i) w previous
    rw [sequential,hmap,inheritedMimetypes_take hi hw]
    constructor
    · intro heq p hp j v hj hv
      obtain ⟨hold,hnew⟩ := append_inj' heq rfl
      rcases Nat.lt_succ_iff_lt_or_eq.mp hp with hp | rfl
      · exact ih.mp hold p hp j v hj hv
      obtain rfl : i = j := Option.some.inj (hi.symm.trans hj)
      obtain rfl : w = v := Option.some.inj (hw.symm.trans hv)
      rw [← hold,← hread.current] at hnew ⊢
      exact (hrestored _).mp (singleton_inj.mp hnew)
    · intro hall
      have hold := ih.mpr fun p hp => hall p (by omega)
      have hlast := hall q (by omega) i w hi hw
      rw [← hold,← hread.current] at hlast ⊢
      rw [(hrestored _).mpr hlast]

/-- The mimetypes the writes were made with, in the order of their sequences. -/
def writtenMimetypes (cfg : Config) (ws : List Write) (order : List ℕ) : List Bytes :=
  order.filterMap fun i => ws[i]?.map fun w => writtenMimetype cfg w.chunk

/-- A store that answers with the elements it was given. -/
def storeOf (cfg : Config) (elements : List Element) (order : List ℕ) : Store where
  get := answer
  clearData seq := answer seq.toNat
where answer (q : ℕ) : StatusOr NodeFragment :=
  match order[q]?.bind (elements[·]?) with
  | some e => (storeFragment cfg [] e).map fun f => { f with seq := some (UInt32.ofNat q) }
  | none => .error (.notFound "")

theorem stored_storeOf (hfilled : order.Perm (List.range elements.length))
    (hfits : order.length ≤ uint32Range)
    (hfine : ∀ q < order.length, ∀ i ∈ order[q]?, ∀ e ∈ elements[i]?,
      (e.seq.all fun s => s.toNat = q) = true ∧ (e.continued = false → q+1 = order.length) ∧
        (storeFragment cfg [] e).isOk = true) :
    Stored cfg [] elements order (storeOf cfg elements order) := by
  have hat {q i : ℕ} {e : Element} (hi : order[q]? = some i) (he : elements[i]? = some e) :=
    hfine q (List.getElem?_eq_some_iff.mp hi).1 i hi e he
  refine ⟨hfilled,hfits,?_,fun q i e hi he => (hat hi he).2.1,?_⟩
  · intro q i e s hi he hs
    have hall := (hat hi he).1
    rw [hs] at hall
    simpa using hall
  · intro q i e hi he
    have hok := (hat hi he).2.2
    cases hf : storeFragment cfg [] e with
    | error status => simp [hf,Except.isOk,Except.toBool] at hok
    | ok f =>
      have hanswer : storeOf.answer cfg elements order q =
          .ok { f with seq := some (UInt32.ofNat q) } := by
        simp [storeOf.answer,hi,he,hf,Except.map]
      have hq : (UInt32.ofNat q).toNat = q := by
        have hlt := (List.getElem?_eq_some_iff.mp hi).1
        exact UInt32.toNat_ofNat_of_lt' (hlt.trans_le hfits)
      exact ⟨f,rfl,hanswer,by simp only [storeOf,hq,hanswer]⟩

/-- A store that needs bytes, and values of one mimetype. -/
def bytesConfig : Config := ⟨false,fun _ => .ok [9],fun _ => [111]⟩

def stickyOptions : ChunkStoreWriter.Options := { stickyMimetype := true }

def stickyCore : Core := { options := stickyOptions, nextOffsetSeq := 0, nextStickySeq := 0 }

def readerOptions : ChunkStoreReader.Options := { stickyMimetype := true }

def typed (mimetype : Bytes) : Chunk := { metadata := some ⟨mimetype,none,.empty⟩, data := [1] }

/-- What the writer accepts of a list of writes. -/
def acceptedOf (ws : List Write) : List Element :=
  match enqueueAll stickyCore ws with
  | .ok d => d.accepted
  | .error _ => []

/-- The mimetypes that are read back. -/
def readBack (ws : List Write) (order : List ℕ) : List Bytes :=
  (sequential readerOptions (storeOf bytesConfig (acceptedOf ws) order)
    ws.length).fragments.map fragmentMimetype

/-- Two chunks of one mimetype, then one of another. -/
def plainWrites : List Write := [⟨typed [97],none,false⟩,⟨typed [97],none,false⟩,⟨typed [98],none,true⟩]

def plainWriter : Core :=
  match enqueueAll stickyCore plainWrites with
  | .ok d => d
  | .error _ => stickyCore

/-- A chunk without a mimetype follows one that has it. -/
def untypedWrites : List Write := [⟨typed [97],none,false⟩,⟨{ data := [2] },none,true⟩]

/-- A write without a sequence follows one with a sequence, and the store puts it elsewhere. -/
def scatteredWrites : List Write :=
  [⟨typed [97],some 2,false⟩,⟨typed [97],none,false⟩,⟨typed [98],some 0,false⟩]

/-- A value whose chunk repeats a mimetype that is not the value's own. -/
def valueWrites : List Write :=
  [⟨typed [97],none,false⟩,
    ⟨{ metadata := some ⟨[97],none,.empty⟩, object := some ⟨1⟩ },none,true⟩]

end A11.StickyMimetypes
