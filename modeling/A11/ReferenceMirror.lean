import A11.Ascii
import A11.ChunkStoreReader
import A11.LocalBatch

/-! Mirroring a referenced node onto a stream: its fragments are sent under the mirror's id, and a
separate completion reports why the pump failed. -/
namespace A11.ReferenceMirror
open List Option StatusOr LocalChunkStore PutBatch

open ChunkStoreReader (Store Cursor readOne sequential finishFragment expandSticky endStatus)
open LocalChunkStore (batchView publish put putEach wording)

/-! ### Rewriting references -/

/-- `Rewrite`: `mirrorOf` is the mirror the registry has or starts for a reference, or why it has
none; `direct` are the storages the peer reaches on its own. -/
def rewrite (direct : List Bytes) (mirrorOf : NodeRef → StatusOr Bytes) (r : NodeRef) :
    StatusOr NodeRef := do
  r.validate
  if r.length = some 0 then return { r with storage := none }
  else if r.storage.any fun storage => direct.contains storage.id then return r
  else
    let id ← mirrorOf r
    return { r with id := id, storage := none }

/-! ### The pump -/

/-- A fragment of the source as it is sent under the mirror's id. -/
def mirrorFragment (id : Bytes) (rewrite : NodeRef → StatusOr NodeRef) (f : NodeFragment) :
    StatusOr NodeFragment := do
  let data ← match f.data with
    | .chunk c => .ok (.chunk c)
    | .nodeRef r => (rewrite r).map .nodeRef
  match f.seq with
  | none => .error (.dataLoss "Mirrored fragment has no sequence")
  | some seq =>
    if seq.toNat = maxSeq then .error (.resourceExhausted "Mirror sequence limit reached")
    else .ok { f with id := id, data := data }

def endMarker : Chunk := { metadata := some ⟨octetStream,none,.empty⟩ }

/-- One call of `Next` after the other: the fragments the source still has, and how reading it
ends. A deadline that is exceeded is taken for a read that timed out. -/
def pump (id : Bytes) (rewrite : NodeRef → StatusOr NodeRef) : ℕ → List NodeFragment → Status →
    UInt32 → Bool → List NodeFragment → Option (List NodeFragment × Status)
  | 0, _, _, _, _, _ => none
  | fuel+1, f::fs, ending, _, _, sent =>
    match mirrorFragment id rewrite f with
    | .error status => some (sent,status)
    | .ok g => pump id rewrite fuel fs ending (g.seq.getD 0+1) g.continued (sent++[g])
  | fuel+1, [], ending, nextSeq, continued, sent =>
    if ending.code = .deadlineExceeded then
      pump id rewrite fuel [] ending nextSeq continued sent
    else if !ending.isOk then some (sent,ending)
    else if continued then some (sent++[⟨id,.chunk endMarker,some nextSeq,false⟩],.okStatus)
    else some (sent,.okStatus)

def statusMimetype : Bytes := Ascii.ofString "application/x-a11-status"

def closeAttribute : Bytes := Ascii.ofString "a11-close"

/-- `MakeStatusChunk` of a status that closes the node. -/
def makeStatusChunk (packStatus : Status → StatusOr Bytes) (status : Status) : StatusOr Chunk := do
  let bytes ← packStatus status
  return { metadata := some ⟨statusMimetype,none,⟨[(closeAttribute,[49])],pairwise_singleton _ _⟩⟩,
           data := bytes }

/-- What a failed pump sends in the end. -/
def sendFailure (packStatus : Status → StatusOr Bytes) (id : Bytes) (status : Status) :
    List NodeFragment :=
  match makeStatusChunk packStatus status with
  | .error _ => []
  | .ok chunk => [⟨id,.chunk chunk,some 0,false⟩]

/-- Everything sent under the mirror's id. -/
def mirror (packStatus : Status → StatusOr Bytes) (id : Bytes)
    (rewrite : NodeRef → StatusOr NodeRef) (fuel : ℕ) (fs : List NodeFragment) (ending : Status) :
    Option (List NodeFragment) :=
  (pump id rewrite fuel fs ending 0 true []).map fun (sent,status) =>
    if status.isOk then sent else sent++sendFailure packStatus id status

def isCloseStatusChunk (c : Chunk) : Bool :=
  c.metadata.any fun m =>
    m.mimetype == statusMimetype && m.attributes.entries.any (·.1 == closeAttribute)

/-! ### What a mirror should send -/

/-- Why the mirror cannot carry the whole source, if it cannot. -/
def failure (id : Bytes) (rewrite : NodeRef → StatusOr NodeRef) (fs : List NodeFragment)
    (ending : Status) : Option Status :=
  match fs.mapM (mirrorFragment id rewrite) with
  | .error status => some status
  | .ok _ => if ending.isOk then none else some ending

/-- What follows the copies: nothing when the last of them ends the node, an end marker under the
next sequence, or the closure marker of a failure. -/
def Terminal (packStatus : Status → StatusOr Bytes) (id : Bytes) (copies : List NodeFragment)
    (terminal : List NodeFragment) : Option Status → Prop
  | none => terminal = [] ∧ (∃ last, copies.getLast? = some last ∧ last.continued = false) ∨
      (∀ g ∈ copies, g.continued = true) ∧ ∃ seq : UInt32, seq.toNat = copies.length ∧
        terminal = [⟨id,.chunk endMarker,some seq,false⟩]
  | some status => (∀ g ∈ copies, g.continued = true) ∧ ∃ chunk,
      makeStatusChunk packStatus status = .ok chunk ∧ isCloseStatusChunk chunk = true ∧
        terminal = [⟨id,.chunk chunk,some 0,false⟩]

/-- The mirror carries the source or its failure: a beginning of the source's fragments under
their own sequences and what follows it. A closure marker is applied to the receiving node, and
not stored; what is stored has increasing sequences, and a store accepts it. -/
structure Carried (packStatus : Status → StatusOr Bytes) (id : Bytes)
    (rewrite : NodeRef → StatusOr NodeRef) (fs : List NodeFragment) (ending : Status)
    (sent : List NodeFragment) : Prop where
  parts : ∃ copies terminal, sent = copies++terminal ∧
    (fs.take copies.length).mapM (mirrorFragment id rewrite) = .ok copies ∧
    Terminal packStatus id copies terminal (failure id rewrite fs ending)
  stored : let stored := if (failure id rewrite fs ending).isSome then sent.dropLast else sent
    (stored.map (·.seq)).Pairwise (fun p q => ∃ a b, p = some a ∧ q = some b ∧ a < b) ∧
    ∀ r ∈ (putEach (State.empty id) stored).1, r.isOk = true

/-! ### Receiving increasing sequences -/

variable {f : NodeFragment}

theorem put_above {s : State} {next : ℕ} {seq : UInt32}
    (hopen : s.status = none) (hfin : s.finalSeq = none)
    (hbelow : ∀ q ∈ s.chunks, q.toNat < next) (hval : f.validate = .ok ())
    (hseq : f.seq = some seq) (hnext : next ≤ seq.toNat) : put s f = (.ok seq,publish s [f]
      ⟨[seq],firstFinal none f seq⟩) := by
  refine put_ok_iff.mpr ⟨_,⟨hopen,true,?_,?_⟩,rfl⟩
  · exact scan_eq_ok.mpr ⟨by simp,by simpa using hval,by simp [hseq],by simp [hseq]⟩
  · have hfinals : Finals wording none true [(f,seq)]
        (firstFinal none f seq) :=
      finals_single.mpr ⟨rfl,fun _ => .inl rfl⟩
    refine ⟨by simp [assign,hseq],?_,?_,?_⟩
    · intro q hq
      rw [mem_singleton.mp hq]
      simp only [batchView,decide_eq_false_iff_not]
      intro hmem
      have := hbelow seq hmem
      omega
    · change Finals wording s.finalSeq true [(f,seq)] _
      rw [hfin]
      exact hfinals
    · intro final hpend
      unfold firstFinal at hpend
      split at hpend
      · cases hpend
      obtain rfl := some.inj hpend
      refine ⟨by simp,?_⟩
      simp only [batchView,decide_eq_false_iff_not]
      rintro ⟨q,hq,hlt⟩
      have hsmall := hbelow q (Finmap.mem_keys.mp hq)
      rw [UInt32.lt_iff_toNat_lt] at hlt
      omega

variable {fs : List NodeFragment}

theorem putEach_numbered {s : State} {next : ℕ}
    (hopen : s.status = none) (hfin : s.finalSeq = none)
    (hbelow : ∀ q ∈ s.chunks, q.toNat < next) (hval : ∀ f ∈ fs, f.validate = .ok ())
    (hnum : ∀ (k : ℕ) f, fs[k]? = some f → ∃ seq, f.seq = some seq ∧ seq.toNat = next+k)
    (hcont : ∀ f ∈ fs.dropLast, f.continued = true) :
    ∀ r ∈ (putEach s fs).1, r.isOk = true := by
  induction fs generalizing s next with
  | nil => simp [putEach]
  | cons f fs ih =>
    obtain ⟨seq,hseq,_⟩ := hnum 0 f rfl
    have hput := put_above hopen hfin hbelow (hval f (by simp)) hseq (by omega)
    intro r hr
    simp only [putEach,hput,mem_cons] at hr
    rcases hr with rfl | hr
    · rfl
    cases fs with
    | nil => simp [putEach] at hr
    | cons g fs =>
      have hgoes : f.continued = true := hcont f (by simp)
      have hnone : firstFinal none f seq = none := by
        simp [firstFinal,hgoes]
      rw [hnone] at hr
      have hsmall : ∀ q ∈ (publish s [f] ⟨[seq],none⟩).chunks, q.toNat < next+1 := by
        intro q hq
        rcases mem_publish_single.mp hq with hq | rfl
        · have := hbelow q hq
          omega
        · omega
      refine ih (s := publish s [f] ⟨[seq],none⟩) hopen rfl hsmall
        (fun x hx => hval x (by simp [hx])) (fun k x hx => ?_)
        (fun x hx => hcont x (mem_cons_of_mem f hx)) r hr
      obtain ⟨seq,hseq,_⟩ := hnum (k+1) x hx
      exact ⟨seq,hseq,by omega⟩

/-- The sequences are those from zero on. -/
def Numbered (fs : List NodeFragment) : Prop :=
  ∀ (k : ℕ) (f : NodeFragment), fs[k]? = some f → ∃ seq, f.seq = some seq ∧ seq.toNat = k

theorem Numbered.increasing (h : Numbered fs) :
    (fs.map (·.seq)).Pairwise fun p q => ∃ a b, p = some a ∧ q = some b ∧ a < b := by
  rw [pairwise_map,pairwise_iff_getElem]
  intro i j hi hj hij
  obtain ⟨a,ha,rfl⟩ := h i _ (getElem?_eq_getElem hi)
  obtain ⟨b,hb,rfl⟩ := h j _ (getElem?_eq_getElem hj)
  exact ⟨a,b,ha,hb,UInt32.lt_iff_toNat_lt.mpr hij⟩

theorem Numbered.concat (h : Numbered fs) {seq : UInt32} (hseq : f.seq = some seq)
    (hlen : seq.toNat = fs.length) : Numbered (fs++[f]) := by
  intro k g hg
  rcases lt_or_ge k fs.length with hk | hk
  · rw [getElem?_append_left hk] at hg
    exact h k g hg
  · rw [getElem?_append_right hk,getElem?_singleton] at hg
    split_ifs at hg with hz
    cases hg
    exact ⟨seq,hseq,by omega⟩

theorem putEach_fresh (id : Bytes) (hval : ∀ f ∈ fs, f.validate = .ok ()) (hnum : Numbered fs)
    (hcont : ∀ f ∈ fs.dropLast, f.continued = true) :
    ∀ r ∈ (putEach (State.empty id) fs).1, r.isOk = true := by
  have hbelow : ∀ q ∈ (State.empty id).chunks, q.toNat < 0 :=
    fun q hq => absurd hq Finmap.notMem_empty
  refine putEach_numbered rfl rfl hbelow hval (fun k f hf => ?_) hcont
  rw [zero_add]
  exact hnum k f hf

/-! ### Sending the fragments -/

variable {id : Bytes} {rw : NodeRef → StatusOr NodeRef} {fs : List NodeFragment} {ending : Status}
  {packStatus : Status → StatusOr Bytes}

/-- What reading a node gives: fragments under the sequences from zero on, of which only the last
may end the node, and then reading ends well. -/
structure Content (fs : List NodeFragment) (ending : Status) : Prop where
  seqs : ∀ (k : ℕ) (f : NodeFragment), fs[k]? = some f → ∃ seq, f.seq = some seq ∧ seq.toNat = k
  valid : ∀ f ∈ fs, f.data.validate = .ok ()
  continued : ∀ f ∈ fs.dropLast, f.continued = true
  closed : ∀ f, fs.getLast? = some f → f.continued = false → ending.isOk = true

variable {g : NodeFragment}

theorem mirrorFragment_eq (id : Bytes) (rw : NodeRef → StatusOr NodeRef) (f : NodeFragment) :
    mirrorFragment id rw f = (match f.data with
      | .chunk c => .ok (.chunk c)
      | .nodeRef r => (rw r).map .nodeRef : StatusOr Payload) >>= fun data => match f.seq with
      | none => .error (.dataLoss "Mirrored fragment has no sequence")
      | some seq =>
        if seq.toNat = maxSeq then .error (.resourceExhausted "Mirror sequence limit reached")
        else .ok { f with id := id, data := data } := by
  rw [mirrorFragment]
  cases f.data <;> rfl

theorem mirrorFragment_ok (h : mirrorFragment id rw f = .ok g) :
    g.id = id ∧ g.seq = f.seq ∧ g.continued = f.continued ∧
      (∃ seq, f.seq = some seq ∧ seq.toNat < maxSeq) ∧
      (g.data = f.data ∨ ∃ r r', f.data = .nodeRef r ∧ rw r = .ok r' ∧ g.data = .nodeRef r') := by
  rw [mirrorFragment_eq] at h
  obtain ⟨_,hdata,h⟩ := bind_eq_ok.mp h
  split at h
  · cases h
  rename_i seq hseq
  split_ifs at h with hmax
  cases h
  have hle := toNat_le_maxSeq seq
  refine ⟨rfl,rfl,rfl,⟨seq,hseq,by omega⟩,?_⟩
  split at hdata
  · rename_i c hchunk
    rw [hchunk]
    exact .inl (Except.ok.inj hdata).symm
  · rename_i r href
    cases hr : rw r with
    | error status => simp [hr,Except.map] at hdata
    | ok r' =>
      rw [hr] at hdata
      exact .inr ⟨r,r',href,hr,(Except.ok.inj hdata).symm⟩

theorem validate_of_data (hid : validateName g.id = .ok ()) (hdata : g.data.validate = .ok ()) :
    g.validate = .ok () := by
  unfold NodeFragment.validate
  split
  · exact check_bind_eq_ok.mpr ⟨hid,hdata⟩
  · exact hdata

theorem mirrorFragment_validate (hid : validateName id = .ok ())
    (hrw : ∀ r r', rw r = .ok r' → r'.validate = .ok ()) (hval : f.data.validate = .ok ())
    (h : mirrorFragment id rw f = .ok g) : g.validate = .ok () := by
  obtain ⟨hg,-,-,-,hdata⟩ := mirrorFragment_ok h
  refine validate_of_data (hg.symm ▸ hid) ?_
  rcases hdata with hsame | ⟨r,r',-,hr,hnew⟩
  · rw [hsame]
    exact hval
  · rw [hnew]
    exact hrw r r' hr

theorem pump_deadline (hend : ending.code = .deadlineExceeded) (fuel : ℕ) (nextSeq : UInt32)
    (continued : Bool) (sent : List NodeFragment) :
    pump id rw fuel [] ending nextSeq continued sent = none := by
  induction fuel with
  | zero => rfl
  | succ fuel ih => rw [pump,if_pos hend,ih]

variable {m : NodeFragment → StatusOr NodeFragment} {gs : List NodeFragment}

theorem mapM_cons_ok : (f::fs).mapM m = .ok gs ↔
      ∃ g gs', m f = .ok g ∧ fs.mapM m = .ok gs' ∧ gs = g::gs' := by
  rw [mapM_cons]
  cases m f with
  | error status => simp
  | ok g =>
    cases fs.mapM m with
    | error status => simp
    | ok gs' => simp [eq_comm]

variable {status : Status}

theorem mapM_error (h : fs.mapM m = .error status) : ∃ before f rest gs,
      fs = before++f::rest ∧ before.mapM m = .ok gs ∧ m f = .error status := by
  induction fs with
  | nil => cases h
  | cons f fs ih =>
    rw [mapM_cons] at h
    cases hf : m f with
    | error s =>
      rw [hf] at h
      cases h
      exact ⟨[],f,fs,[],rfl,rfl,hf⟩
    | ok g =>
      cases hfs : fs.mapM m with
      | error s =>
        rw [hf,hfs] at h
        cases h
        obtain ⟨before,f',rest,gs,rfl,hbef,hf'⟩ := ih hfs
        exact ⟨f::before,f',rest,g::gs,rfl,mapM_cons_ok.mpr ⟨g,gs,hf,hbef,rfl⟩,hf'⟩
      | ok gs =>
        rw [hf,hfs] at h
        cases h

theorem mapM_getElem (h : fs.mapM m = .ok gs) : gs.length = fs.length ∧
      ∀ (k : ℕ) (g : NodeFragment), gs[k]? = some g → ∃ f, fs[k]? = some f ∧ m f = .ok g := by
  induction fs generalizing gs with
  | nil =>
    cases h
    exact ⟨rfl,by simp⟩
  | cons f fs ih =>
    obtain ⟨g,_,hf,hfs,rfl⟩ := mapM_cons_ok.mp h
    obtain ⟨hlen,hat⟩ := ih hfs
    refine ⟨by simp [hlen],fun k x hx => ?_⟩
    cases k with
    | zero =>
      obtain rfl : g = x := by simpa using hx
      exact ⟨f,rfl,hf⟩
    | succ k => simpa using hat k x (by simpa using hx)

variable {before : List NodeFragment}

theorem pump_append (rest : List NodeFragment) (ending : Status)
    (h : before.mapM (mirrorFragment id rw) = .ok gs) (fuel : ℕ) (nextSeq : UInt32)
    (continued : Bool) (sent : List NodeFragment) :
    pump id rw (fuel+before.length) (before++rest) ending nextSeq continued sent =
      pump id rw fuel rest ending (gs.getLast?.elim nextSeq fun g => g.seq.getD 0+1)
        (gs.getLast?.elim continued (·.continued)) (sent++gs) := by
  induction before generalizing gs nextSeq continued sent with
  | nil =>
    cases h
    simp
  | cons f before ih =>
    obtain ⟨g,gs',hf,hbef,rfl⟩ := mapM_cons_ok.mp h
    rw [length_cons,← Nat.add_assoc,cons_append,pump,hf]
    dsimp only
    rw [ih hbef,append_assoc]
    cases hlast : gs'.getLast? with
    | none =>
      obtain rfl := getLast?_eq_none_iff.mp hlast
      rfl
    | some last => simp [getLast?_cons,hlast]

theorem mapM_continued (h : fs.mapM (mirrorFragment id rw) = .ok gs) :
    gs.map (·.continued) = fs.map (·.continued) := by
  induction fs generalizing gs with
  | nil =>
    cases h
    rfl
  | cons f fs ih =>
    obtain ⟨g,_,hf,hfs,rfl⟩ := mapM_cons_ok.mp h
    simp [ih hfs,(mirrorFragment_ok hf).2.2.1]

theorem mirror_of_pump {fuel : ℕ}
    (h : pump id rw fuel fs ending 0 true [] = some (gs,status)) :
    mirror packStatus id rw fuel fs ending =
      some (if status.isOk then gs else gs++sendFailure packStatus id status) := by
  rw [mirror,h,Option.map_some]

theorem sendFailure_eq (id : Bytes) {bytes : Bytes} (h : packStatus status = .ok bytes) :
    ∃ chunk, makeStatusChunk packStatus status = .ok chunk ∧ isCloseStatusChunk chunk = true ∧
      sendFailure packStatus id status = [⟨id,.chunk chunk,some 0,false⟩] := by
  have hmake : makeStatusChunk packStatus status = .ok { metadata := some ⟨statusMimetype,none,
      ⟨[(closeAttribute,[49])],pairwise_singleton _ _⟩⟩, data := bytes } := by
    rw [makeStatusChunk,h]
    rfl
  refine ⟨_,hmake,?_,by rw [sendFailure,hmake]⟩
  simp [isCloseStatusChunk]

theorem forall_of_dropLast {p : NodeFragment → Prop} (hlast : gs.getLast? = some g)
    (h : ∀ f ∈ gs.dropLast, p f) (hg : p g) : ∀ f ∈ gs, p f := by
  rw [← dropLast_append_getLast? g hlast]
  exact forall_mem_append.mpr ⟨h,forall_mem_singleton.mpr hg⟩

/-- What the copies of a beginning of the source are like. -/
structure Copied (gs : List NodeFragment) : Prop where
  numbered : Numbered gs
  valid : ∀ g ∈ gs, g.validate = .ok ()
  continued : ∀ g ∈ gs.dropLast, g.continued = true

theorem Content.copied (hc : Content fs ending) (hfs : fs = before++rest)
    (hid : validateName id = .ok ()) (hrw : ∀ r r', rw r = .ok r' → r'.validate = .ok ())
    (h : before.mapM (mirrorFragment id rw) = .ok gs) : Copied gs := by
  have hat (k : ℕ) (g : NodeFragment) (hg : gs[k]? = some g) :
      ∃ f, fs[k]? = some f ∧ mirrorFragment id rw f = .ok g := by
    obtain ⟨f,hf,hm⟩ := (mapM_getElem h).2 k g hg
    rw [hfs,getElem?_append_left (List.getElem?_eq_some_iff.mp hf).1]
    exact ⟨f,hf,hm⟩
  refine ⟨fun k g hg => ?_,fun g hg => ?_,fun g hg => ?_⟩
  · obtain ⟨f,hf,hm⟩ := hat k g hg
    rw [(mirrorFragment_ok hm).2.1]
    exact hc.seqs k f hf
  · obtain ⟨k,hk⟩ := mem_iff_getElem?.mp hg
    obtain ⟨f,hf,hm⟩ := hat k g hk
    exact mirrorFragment_validate hid hrw (hc.valid f (mem_of_getElem? hf)) hm
  · have hmem := mem_map_of_mem (f := (·.continued)) hg
    rw [map_dropLast,mapM_continued h,← map_dropLast] at hmem
    obtain ⟨f,hf,hfg⟩ := mem_map.mp hmem
    rw [← hfg]
    refine hc.continued f ?_
    rw [hfs]
    cases rest with
    | nil => simpa using hf
    | cons x rest =>
      rw [dropLast_append_cons]
      exact mem_append_left _ (mem_of_mem_dropLast hf)

theorem Copied.accepted (h : Copied gs) (id : Bytes) :
    (gs.map (·.seq)).Pairwise (fun p q => ∃ a b, p = some a ∧ q = some b ∧ a < b) ∧
      ∀ r ∈ (putEach (State.empty id) gs).1, r.isOk = true :=
  ⟨h.numbered.increasing,putEach_fresh id h.valid h.numbered h.continued⟩

/-- A mirror that fails sends the copies before the failure and a closure marker. -/
theorem carried_failure (hfs : fs = before++rest) (hcop : Copied gs)
    (h : before.mapM (mirrorFragment id rw) = .ok gs) (hall : ∀ f ∈ before, f.continued = true)
    (hpack : ∃ bytes, packStatus status = .ok bytes)
    (hfail : failure id rw fs ending = some status) :
    Carried packStatus id rw fs ending (gs++sendFailure packStatus id status) := by
  obtain ⟨bytes,hbytes⟩ := hpack
  obtain ⟨chunk,hmake,hclose,hsend⟩ := sendFailure_eq id hbytes
  have hgoes : ∀ g ∈ gs, g.continued = true := by
    intro g hg
    have hmem := mem_map_of_mem (f := (·.continued)) hg
    rw [mapM_continued h] at hmem
    obtain ⟨f,hf,hfg⟩ := mem_map.mp hmem
    rw [← hfg]
    exact hall f hf
  rw [hsend]
  refine ⟨⟨gs,_,rfl,?_,?_⟩,?_⟩
  · rw [(mapM_getElem h).1,hfs,take_left,h]
  · rw [hfail]
    exact ⟨hgoes,chunk,hmake,hclose,rfl⟩
  · rw [hfail]
    simpa using hcop.accepted id

/-- The sequence after that of the last copy. -/
theorem next_seq (hcop : Copied gs) (h : fs.mapM (mirrorFragment id rw) = .ok gs) :
    (gs.getLast?.elim 0 fun g => g.seq.getD 0+1).toNat = gs.length := by
  cases hlast : gs.getLast? with
  | none => simp [getLast?_eq_none_iff.mp hlast]
  | some last =>
    rw [getLast?_eq_getElem?] at hlast
    have hpos := (List.getElem?_eq_some_iff.mp hlast).1
    obtain ⟨seq,hseq,hk⟩ := hcop.numbered _ _ hlast
    obtain ⟨f,-,hm⟩ := (mapM_getElem h).2 _ _ hlast
    obtain ⟨-,hsame,-,⟨seq',hseq',hsmall⟩,-⟩ := mirrorFragment_ok hm
    obtain rfl : seq = seq' := by simpa [hsame,hseq'] using hseq.symm
    simp only [maxSeq] at hsmall
    rw [elim_some,hseq,getD_some,UInt32.toNat_add,UInt32.toNat_one]
    omega

/-- A source that can be read to its end is carried. -/
theorem carried_whole (packStatus : Status → StatusOr Bytes) (hid : validateName id = .ok ()) (hcop : Copied gs)
    (h : fs.mapM (mirrorFragment id rw) = .ok gs) (hend : ending.isOk = true) :
    ∃ sent, pump id rw (1+fs.length) fs ending 0 true [] = some (sent,.okStatus) ∧
      Carried packStatus id rw fs ending sent := by
  have hcopies : (fs.take gs.length).mapM (mirrorFragment id rw) = .ok gs := by
    rw [(mapM_getElem h).1,take_length,h]
  have hnone : failure id rw fs ending = none := by simp [failure,h,hend]
  have hpump := pump_append [] ending h 1 0 true []
  rw [append_nil,pump,if_neg (fun hcode => by simp [Status.isOk,hcode] at hend),
    if_neg (by simp [hend])] at hpump
  rw [hpump]
  split
  · rename_i hgoes
    have hnext := next_seq hcop h
    have hall : ∀ g ∈ gs, g.continued = true := by
      cases hlast : gs.getLast? with
      | none => simp [getLast?_eq_none_iff.mp hlast]
      | some last => exact forall_of_dropLast hlast hcop.continued (by simpa [hlast] using hgoes)
    refine ⟨_,rfl,⟨gs,_,rfl,hcopies,by rw [hnone]; exact .inr ⟨hall,_,hnext,rfl⟩⟩,?_⟩
    rw [hnone]
    refine Copied.accepted ⟨hcop.numbered.concat rfl hnext,forall_mem_append.mpr ⟨hcop.valid,?_⟩,
      by simpa using hall⟩ id
    exact forall_mem_singleton.mpr (validate_of_data hid rfl)
  · rename_i hgoes
    cases hlast : gs.getLast? with
    | none => simp [hlast] at hgoes
    | some last =>
      refine ⟨gs,rfl,⟨gs,[],by simp,hcopies,?_⟩,by rw [hnone]; exact hcop.accepted id⟩
      rw [hnone]
      exact .inl ⟨rfl,last,hlast,by simpa [hlast] using hgoes⟩

theorem mirrorFragment_error
    (hrw : ∀ r status, r.validate = .ok () → rw r = .error status → status.isOk = false)
    (hval : f.data.validate = .ok ())
    (h : mirrorFragment id rw f = .error status) : status.isOk = false := by
  rw [mirrorFragment_eq] at h
  simp only [bind,Except.bind] at h
  split at h
  · rename_i failure hfail
    cases h
    split at hfail
    · cases hfail
    rename_i r href
    rw [href] at hval
    cases hr : rw r with
    | error failure =>
      rw [hr] at hfail
      cases hfail
      exact hrw r _ hval hr
    | ok r' => simp [hr,Except.map] at hfail
  · split at h
    · cases h
      rfl
    · split at h <;> cases h
      rfl

/-- Whatever the content, and wherever reading it or mirroring it fails, the mirror carries the
source or its failure. -/
theorem carried_of_content (hc : Content fs ending) (hid : validateName id = .ok ())
    (hpack : ∀ status, ∃ bytes, packStatus status = .ok bytes)
    (hrw : ∀ r r', rw r = .ok r' → r'.validate = .ok ())
    (hfails : ∀ r status, r.validate = .ok () → rw r = .error status → status.isOk = false)
    (hdl : ending.code ≠ .deadlineExceeded) : ∃ fuel sent,
      mirror packStatus id rw fuel fs ending = some sent ∧ Carried packStatus id rw fs ending sent := by
  cases hmap : fs.mapM (mirrorFragment id rw) with
  | error status =>
    obtain ⟨before,f,rest,gs,hfs,hbef,hf⟩ := mapM_error hmap
    have hbad := mirrorFragment_error hfails (hc.valid f (by simp [hfs])) hf
    have hall : ∀ f ∈ before, f.continued = true := fun g hg =>
      hc.continued g (by rw [hfs,dropLast_append_cons]; exact mem_append_left _ hg)
    have hpump : pump id rw (1+before.length) fs ending 0 true [] = some (gs,status) := by
      rw [hfs,pump_append _ _ hbef,pump,hf]
      rfl
    refine ⟨_,_,mirror_of_pump hpump,?_⟩
    rw [if_neg (by simp [hbad])]
    exact carried_failure hfs (hc.copied hfs hid hrw hbef) hbef hall (hpack status)
      (by simp [failure,hmap])
  | ok gs =>
    have hfs := (append_nil fs).symm
    have hcop := hc.copied hfs hid hrw hmap
    by_cases hend : ending.isOk = true
    · obtain ⟨sent,hpump,hcar⟩ := carried_whole packStatus hid hcop hmap hend
      exact ⟨_,sent,mirror_of_pump hpump,hcar⟩
    have hall : ∀ f ∈ fs, f.continued = true := by
      cases hlast : fs.getLast? with
      | none => simp [getLast?_eq_none_iff.mp hlast]
      | some last =>
        refine forall_of_dropLast hlast hc.continued ?_
        by_contra hnot
        exact hend (hc.closed last hlast (by simpa using hnot))
    have hpump : pump id rw (1+fs.length) fs ending 0 true [] = some (gs,ending) := by
      have hpump := pump_append [] ending hmap 1 0 true []
      rw [append_nil,pump,if_neg hdl,if_pos (by simpa using hend)] at hpump
      exact hpump
    refine ⟨_,_,mirror_of_pump hpump,?_⟩
    rw [if_neg hend]
    exact carried_failure hfs hcop hmap hall (hpack ending) (by simp [failure,hmap,hend])

/-! ### Reading the source -/

def readerOptions : ChunkStoreReader.Options := { followNodeRefs := false, numChunksToBuffer := 8 }

/-- The store of a node answers with valid fragments, each under its own sequence. -/
def Sound (store : Store) : Prop :=
  ∀ p f, store.get p = .ok f → f.seq = some (UInt32.ofNat p) ∧ f.data.validate = .ok ()

structure ReadOff (c : Cursor) : Prop where
  position : c.position = c.fragments.length
  seqs : ∀ (k : ℕ) (f : NodeFragment), c.fragments[k]? = some f →
    ∃ seq, f.seq = some seq ∧ seq.toNat = k
  valid : ∀ f ∈ c.fragments, f.data.validate = .ok ()
  continued : ∀ f ∈ c.fragments.dropLast, f.continued = true
  closed : ∀ f, c.fragments.getLast? = some f → f.continued = false → c.status = some .okStatus

theorem ReadOff.stopped {c : Cursor} (h : ReadOff c) (hopen : c.status = none) (status : Status) :
    ReadOff { c with status := some status } := by
  refine { h with closed := fun f hf hlast => ?_ }
  have hcls := h.closed f hf hlast
  rw [hopen] at hcls
  cases hcls

variable {store : Store}

theorem ReadOff.finishFragment (hstore : Sound store) {c : Cursor} (h : ReadOff c)
    (hopen : c.status = none) (hrng : c.position ≤ maxSeq)
    (hget : store.get c.position = .ok f) : ReadOff (finishFragment readerOptions c f) := by
  obtain ⟨hseq,hval⟩ := hstore _ _ hget
  have hfrag : (ChunkStoreReader.finishFragment readerOptions c f).fragments =
      c.fragments++[f] := rfl
  have hall : ∀ g ∈ c.fragments, g.continued = true := by
    intro g hg
    cases hlast : c.fragments.getLast? with
    | none =>
      rw [getLast?_eq_none_iff.mp hlast] at hg
      cases hg
    | some last =>
      refine forall_of_dropLast hlast h.continued ?_ g hg
      by_contra hnot
      have hcls := h.closed last hlast (by simpa using hnot)
      rw [hopen] at hcls
      cases hcls
  refine ⟨?_,?_,?_,?_,?_⟩
  · rw [hfrag,length_append,← h.position]
    rfl
  · rw [hfrag]
    exact Numbered.concat h.seqs hseq (by rw [toNat_ofNat_of_le hrng,h.position])
  · intro g hg
    rw [hfrag,mem_append] at hg
    rcases hg with hg | hg
    · exact h.valid g hg
    · rw [mem_singleton.mp hg]
      exact hval
  · rw [hfrag,dropLast_concat]
    exact hall
  · intro g hg hlast
    rw [hfrag,getLast?_concat] at hg
    obtain rfl := some.inj hg
    simp [ChunkStoreReader.finishFragment,endStatus,readerOptions,hlast]

theorem readOff_sequential (hstore : Sound store) (n : ℕ) :
    ReadOff (sequential readerOptions store n) := by
  induction n with
  | zero => constructor <;> simp [sequential,ChunkStoreReader.start,readerOptions]
  | succ n ih =>
    rw [sequential,readOne]
    split
    · exact ih
    rename_i hsome
    have hopen : (sequential readerOptions store n).status = none := by simpa using hsome
    rw [if_neg (by simp [readerOptions])]
    split
    · exact ih.stopped hopen _
    rename_i hrng
    split
    · exact ih.stopped hopen _
    rename_i f hget
    obtain ⟨hseq,-⟩ := hstore _ _ hget
    rw [hseq]
    exact ih.finishFragment hstore hopen (not_lt.mp hrng) hget

theorem content_sequential (hstore : Sound store) {n : ℕ} {ending : Status}
    (hend : (sequential readerOptions store n).status = some ending) :
    Content (sequential readerOptions store n).fragments ending := by
  have h := readOff_sequential hstore n
  refine { h with closed := fun f hf hlast => ?_ }
  have hcls := h.closed f hf hlast
  rw [hend] at hcls
  rw [some.inj hcls]
  rfl

theorem rewrite_validate {direct : List Bytes} {mirrorOf : NodeRef → StatusOr Bytes}
    (hmirror : ∀ r i, mirrorOf r = .ok i → validateName i = .ok ()) {r r' : NodeRef}
    (h : rewrite direct mirrorOf r = .ok r') : r'.validate = .ok () := by
  obtain ⟨hr,h⟩ := check_bind_eq_ok.mp h
  have hid := (check_bind_eq_ok.mp hr).1
  have hbare (i : Bytes) (hi : validateName i = .ok ()) :
      ({ r with id := i, storage := none } : NodeRef).validate = .ok () := by
    refine check_bind_eq_ok.mpr ⟨hi,?_⟩
    obtain ⟨-,hrest⟩ := check_bind_eq_ok.mp hr
    cases hstor : r.storage with
    | none =>
      simp only [hstor] at hrest
      exact hrest
    | some storage =>
      simp only [hstor] at hrest
      exact (check_bind_eq_ok.mp hrest).2
  split at h
  · cases h
    exact hbare r.id hid
  split at h
  · cases h
    exact hr
  obtain ⟨i,hi,h⟩ := bind_eq_ok.mp h
  cases h
  exact hbare i (hmirror r i hi)

theorem rewrite_error {direct : List Bytes} {mirrorOf : NodeRef → StatusOr Bytes}
    (hmirror : ∀ r status, mirrorOf r = .error status → status.isOk = false) {r : NodeRef}
    (hr : r.validate = .ok ()) (h : rewrite direct mirrorOf r = .error status) :
    status.isOk = false := by
  simp only [rewrite,hr,bind,Except.bind] at h
  split at h
  · cases h
  split at h
  · cases h
  cases hi : mirrorOf r with
  | ok i => simp [hi] at h
  | error s =>
    simp only [hi,Except.error.injEq] at h
    rw [← h]
    exact hmirror r s hi

/-- One fragment, then an answer other than a fragment. -/
def oneThen (status : Status) : Store where
  get p := if p = 0 then .ok ⟨[115],.chunk { data := [7] },some 0,true⟩ else .error status
  clearData _ := .error status

theorem sound_oneThen (status : Status) : Sound (oneThen status) := by
  intro p f h
  simp only [oneThen] at h
  split at h
  · rename_i hp
    subst hp
    cases h
    exact ⟨rfl,rfl⟩
  · cases h

def packMessage (status : Status) : StatusOr Bytes := .ok (Ascii.ofString status.message)

def noMirror (_ : NodeRef) : StatusOr Bytes :=
  .error (.resourceExhausted "Active mirror limit reached")

end A11.ReferenceMirror
