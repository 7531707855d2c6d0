import A11.LocalInvariant

/-! Putting a batch equals putting its fragments one at a time. The checks of a batch
are split into those of its first fragment and those of the rest on the store that
already holds the first. -/
namespace A11
open List Option PutBatch View
namespace PutBatch

/-- The view of the store once one more sequence is in. -/
def View.add (v : View) (seq : UInt32) (final : Option UInt32) : View where
  putCount := v.putCount+1
  taken q := v.taken q || q == seq
  finalSeq := final
  hasLater f := v.hasLater f || decide (f < seq)

variable {w : Wording} {seq : UInt32}

theorem assignImplicit_one {taken : UInt32 → Bool} {candidate : ℕ} :
    assignImplicit w taken 1 candidate = .ok [seq] ↔
      nextFree taken candidate ≤ maxSeq ∧ seq = UInt32.ofNat (nextFree taken candidate) := by
  rw [assignImplicit_succ_eq_ok]
  constructor
  · rintro ⟨hmax,_,-,hcons⟩
    exact ⟨hmax,(List.cons.inj hcons).1⟩
  · rintro ⟨hmax,rfl⟩
    exact ⟨hmax,[],rfl,rfl⟩

variable {f : NodeFragment} {fragments : List NodeFragment} {e : Bool} {v : View}

theorem assign_cons_iff {seqs : List UInt32} (final : Option UInt32) (hf : f.seq.isSome = e) :
    assign w v e (f::fragments) = .ok (seq::seqs) ↔
      assign w v e [f] = .ok [seq] ∧ assign w (v.add seq final) e fragments = .ok seqs := by
  cases e with
  | true =>
    obtain ⟨q,hq⟩ := isSome_iff_exists.mp hf
    simp [assign,hq]
  | false =>
    have hshift : nextFree v.taken v.putCount ≤ maxSeq →
        seq = UInt32.ofNat (nextFree v.taken v.putCount) →
        assignImplicit w (v.add seq final).taken fragments.length (v.putCount+1) =
          assignImplicit w v.taken fragments.length (nextFree v.taken v.putCount+1) := by
      rintro hmax rfl
      have hge := nextFree_ge v.taken v.putCount
      refine assignImplicit_shift (by omega) (by simp only [maxSeq,uint32Range] at *; omega)
        (fun k hk hlt => ?_) (fun k hk hmaxk => ?_)
      · rcases Nat.lt_succ_iff_lt_or_eq.mp hlt with hlt | rfl
        · simp [add,taken_of_lt_nextFree (Nat.le_of_succ_le hk) hlt]
        · simp [add]
      · have hne : UInt32.ofNat k ≠ UInt32.ofNat (nextFree v.taken v.putCount) := by
          intro heq
          have hnat := congrArg UInt32.toNat heq
          rw [toNat_ofNat_of_le hmax,toNat_ofNat_of_le hmaxk] at hnat
          omega
        simp [add,hne]
    change assignImplicit w v.taken (fragments.length+1) v.putCount = _ ↔
      assignImplicit w v.taken 1 v.putCount = _ ∧
      assignImplicit w (v.add seq final).taken fragments.length (v.putCount+1) = _
    rw [assignImplicit_succ_eq_ok,assignImplicit_one]
    constructor
    · rintro ⟨hmax,_,hrest,hcons⟩
      obtain ⟨hseq,rfl⟩ := List.cons.inj hcons
      exact ⟨⟨hmax,hseq⟩,(hshift hmax hseq).trans hrest⟩
    · rintro ⟨⟨hmax,hseq⟩,hrest⟩
      exact ⟨hmax,seqs,(hshift hmax hseq).symm.trans hrest,by rw [hseq]⟩

variable {entries : List (NodeFragment × UInt32)}

theorem batchFinal_none_iff :
    batchFinal w e none entries = .ok none ↔ ∀ x ∈ entries, x.1.continued := by
  refine ⟨fun h => ?_,batchFinal_of_continued⟩
  induction entries with
  | nil => simp
  | cons x entries ih =>
    obtain ⟨f,q⟩ := x
    cases hf : f.continued with
    | true =>
      simp only [batchFinal,hf,if_true,isSome_none,Bool.false_and] at h
      simpa [hf] using ih h
    | false =>
      simp only [batchFinal,hf] at h
      exact absurd (batchFinal_some_eq_ok.mp h).1 (by simp)

/-- An implicit sequence assigned after a final one would lie above it. -/
theorem not_accepts_after_final {g : NodeFragment} {p : Plan} {final : Option UInt32}
    (hfst : assign w v false [f] = .ok [seq])
    (hrest : Accepts w (v.add seq final) false (g::fragments) p) : p.pendingFinal ≠ some seq := by
  intro hfin
  obtain ⟨hmax,hseq⟩ := assignImplicit_one.mp hfst
  have hasgn : assignImplicit w (v.add seq final).taken (fragments.length+1) (v.putCount+1) =
    .ok p.assigned := hrest.assigned
  obtain ⟨hmax',_,-,hcons⟩ := assignImplicit_succ_eq_ok.mp hasgn
  have hmem : UInt32.ofNat (nextFree (v.add seq final).taken (v.putCount+1)) ∈ p.assigned := by
    simp [hcons]
  have hfree := hrest.absent _ hmem
  have hle := (hrest.below seq hfin).1 _ hmem
  have hge := nextFree_ge (v.add seq final).taken (v.putCount+1)
  generalize nextFree (v.add seq final).taken (v.putCount+1) = next at *
  rw [UInt32.le_iff_toNat_le,hseq,toNat_ofNat_of_le hmax',toNat_ofNat_of_le hmax] at hle
  rcases Nat.lt_or_eq_of_le hle with hlt | heq
  · have htak := taken_of_lt_nextFree (Nat.le_of_succ_le hge) hlt
    simp [add,htak] at hfree
  · simp [add,hseq,heq] at hfree

/-- The final sequence a batch leaves behind. -/
def Finals (w : Wording) (existing : Option UInt32) (e : Bool)
    (entries : List (NodeFragment × UInt32)) (pending : Option UInt32) : Prop :=
  ∃ final, batchFinal w e none entries = .ok final ∧ pendingFinal w existing final = .ok pending

variable {existing pending : Option UInt32}

theorem finals_cons_continued (hf : f.continued) :
    Finals w existing e ((f,seq)::entries) pending ↔ Finals w existing e entries pending := by
  simp [Finals,batchFinal,hf]

theorem finals_cons_final (hf : f.continued = false) :
    Finals w existing e ((f,seq)::entries) pending ↔ pending = some seq ∧
      (existing = none ∨ existing = some seq) ∧ (∀ x ∈ entries, x.1.continued) ∧
      (e = false → entries = []) := by
  simp only [Finals,batchFinal,hf,Bool.false_eq_true,if_false,isSome_none,
    batchFinal_some_eq_ok,pendingFinal_eq_ok]
  constructor
  · rintro ⟨-,⟨rfl,hall,hlast⟩,⟨hnone,-⟩ | ⟨hpend,q,hq,hexi⟩⟩
    · simp at hnone
    · obtain rfl := some.inj hq
      exact ⟨hpend,hexi,hall,hlast⟩
  · rintro ⟨hpend,hexi,hall,hlast⟩
    exact ⟨some seq,⟨rfl,hall,hlast⟩,.inr ⟨hpend,seq,rfl,hexi⟩⟩

/-- With a final sequence in place, a batch of other sequences must mark none. -/
theorem finals_of_final (hseq : seq ∉ entries.map Prod.snd) :
    Finals w (some seq) e entries pending ↔ pending = some seq ∧ ∀ x ∈ entries, x.1.continued := by
  constructor
  · rintro ⟨_,hbat,hpend⟩
    rw [pendingFinal_eq_ok] at hpend
    obtain ⟨rfl,hpend⟩ | ⟨-,q,rfl,hq⟩ := hpend
    · exact ⟨hpend,batchFinal_none_iff.mp hbat⟩
    · simp only [reduceCtorEq,some.injEq,false_or] at hq
      exact absurd (batchFinal_mem hbat) (hq ▸ hseq)
  · rintro ⟨hpend,hall⟩
    exact ⟨none,batchFinal_none_iff.mpr hall,pendingFinal_eq_ok.mpr (.inl ⟨rfl,hpend⟩)⟩

theorem Accepts.finals {p : Plan} (h : Accepts w v e fragments p) :
    Finals w v.finalSeq e (fragments.zip p.assigned) p.pendingFinal := h.final

/-- The final sequence after the first fragment of a batch alone. -/
def firstFinal (existing : Option UInt32) (f : NodeFragment) (seq : UInt32) : Option UInt32 :=
  if f.continued then existing else some seq

theorem finals_single {final : Option UInt32} :
    Finals w existing e [(f,seq)] final ↔ final = firstFinal existing f seq ∧
      (f.continued = false → existing = none ∨ existing = some seq) := by
  cases hf : f.continued with
  | true => simp [Finals,batchFinal,pendingFinal_eq_ok,firstFinal,hf]
  | false => simp [finals_cons_final hf,firstFinal,hf]

/-- The finals of a batch split into those of its first fragment and of the rest, except
that an implicit batch may not go on after a final. -/
theorem finals_cons_iff (hseq : seq ∉ entries.map Prod.snd)
    (hlast : e = false → f.continued = false → entries = []) :
    Finals w existing e ((f,seq)::entries) pending ↔
      Finals w existing e [(f,seq)] (firstFinal existing f seq) ∧
      Finals w (firstFinal existing f seq) e entries pending := by
  rw [finals_single]
  cases hf : f.continued with
  | true => simp [finals_cons_continued hf,firstFinal,hf]
  | false =>
    rw [finals_cons_final hf,firstFinal,hf,if_neg (by simp),finals_of_final hseq]
    constructor
    · rintro ⟨hpend,hexi,hall,-⟩
      exact ⟨⟨rfl,fun _ => hexi⟩,hpend,hall⟩
    · rintro ⟨⟨-,hexi⟩,hpend,hall⟩
      exact ⟨hpend,hexi rfl,hall,fun he => hlast he hf⟩

theorem finals_existing {final : UInt32} (h : Finals w (some final) e entries pending) :
    pending = some final := by
  obtain ⟨b,-,hpend⟩ := h
  rw [pendingFinal_eq_ok] at hpend
  obtain ⟨-,hpend⟩ | ⟨hpend,q,rfl,hq⟩ := hpend
  · exact hpend
  · simp only [reduceCtorEq,false_or] at hq
    rw [hpend,hq]

/-- The checks of a batch are those of its first fragment and, with that one in,
those of the rest. -/
theorem accepts_cons_iff {seqs : List UInt32}
    (hf : f.seq.isSome = e) (hne : fragments ≠ []) (hlen : seqs.length = fragments.length) :
    seq ∉ seqs ∧ Accepts w v e (f::fragments) ⟨seq::seqs,pending⟩ ↔
      ∃ final, Accepts w v e [f] ⟨[seq],final⟩ ∧
        Accepts w (v.add seq final) e fragments ⟨seqs,pending⟩ := by
  have hsnd : (fragments.zip seqs).map Prod.snd = seqs := map_snd_zip hlen.le
  constructor
  · rintro ⟨hnotin,h⟩
    have hfinals : Finals w v.finalSeq e ((f,seq)::fragments.zip seqs) pending := h.finals
    have hlast : e = false → f.continued = false → fragments.zip seqs = [] :=
      fun he hcont => ((finals_cons_final hcont).mp hfinals).2.2.2 he
    rw [finals_cons_iff (by rwa [hsnd]) hlast] at hfinals
    obtain ⟨hfst,hrest⟩ := hfinals
    have hasgn := (assign_cons_iff (firstFinal v.finalSeq f seq) hf).mp h.assigned
    have habs := forall_mem_cons.mp h.absent
    refine ⟨firstFinal v.finalSeq f seq,⟨hasgn.1,by simpa using habs.1,hfst,?_⟩,
      ⟨hasgn.2,fun q hq => ?_,hrest,fun final hfin => ?_⟩⟩
    · intro final hfin
      change firstFinal v.finalSeq f seq = some final at hfin
      rw [hfin] at hrest
      have hpend := finals_existing hrest
      obtain ⟨hbelow,hlat⟩ := h.below final hpend
      exact ⟨by simpa using hbelow seq (by simp),hlat⟩
    · have hqseq : q ≠ seq := fun heq => hnotin (heq ▸ hq)
      simp [add,habs.2 q hq,hqseq]
    · obtain ⟨hbelow,hlat⟩ := h.below final hfin
      obtain ⟨hseq,hseqs⟩ := forall_mem_cons.mp hbelow
      exact ⟨hseqs,by simpa [add,hlat] using hseq⟩
  · rintro ⟨final,hfst,hrest⟩
    have hnotin : seq ∉ seqs := fun hmem => by simpa [add] using hrest.absent seq hmem
    obtain ⟨hfin,-⟩ := finals_single.mp hfst.finals
    subst hfin
    have hrestFinals : Finals w (firstFinal v.finalSeq f seq) e (fragments.zip seqs) pending :=
      hrest.finals
    have hlast : e = false → f.continued = false → fragments.zip seqs = [] := by
      rintro rfl hcont
      obtain ⟨g,_,rfl⟩ := exists_cons_of_ne_nil hne
      simp only [firstFinal,hcont] at hrestFinals
      exact absurd (finals_existing hrestFinals) (not_accepts_after_final hfst.assigned hrest)
    refine ⟨hnotin,⟨(assign_cons_iff _ hf).mpr ⟨hfst.assigned,hrest.assigned⟩,?_,
      (finals_cons_iff (by rwa [hsnd]) hlast).mpr ⟨hfst.finals,hrestFinals⟩,?_⟩⟩
    · refine forall_mem_cons.mpr ⟨hfst.absent seq (by simp),fun q hq => ?_⟩
      have hfree := hrest.absent q hq
      simp only [add,Bool.or_eq_false_iff] at hfree
      exact hfree.1
    · intro final hfin
      obtain ⟨hbelow,hlat⟩ := hrest.below final hfin
      simp only [add,Bool.or_eq_false_iff,decide_eq_false_iff_not,UInt32.not_lt] at hlat
      exact ⟨forall_mem_cons.mpr ⟨hlat.2,hbelow⟩,hlat.1⟩

theorem scan_cons_iff (hne : fragments ≠ []) :
    scan w (f::fragments) = .ok e ↔ scan w [f] = .ok e ∧ scan w fragments = .ok e ∧
      ∀ seq, f.seq = some seq → seq ∉ fragments.filterMap fun f => f.seq := by
  have hnd : ((f::fragments).filterMap fun f => f.seq).Nodup ↔
      (fragments.filterMap fun f => f.seq).Nodup ∧
        ∀ seq, f.seq = some seq → seq ∉ fragments.filterMap fun f => f.seq := by
    cases hf : f.seq with
    | none => simp [hf]
    | some seq => simp [hf,and_comm]
  have hsingle : ([f].filterMap fun f => f.seq).Nodup := by
    cases hf : f.seq <;> simp [hf]
  simp only [scan_eq_ok,forall_mem_cons]
  tauto

end PutBatch

namespace LocalChunkStore

def put (s : State) (f : NodeFragment) : StatusOr UInt32 × State :=
  match putMany s [f] with
  | (.error status,s') => (.error status,s')
  | (.ok [seq],s') => (.ok seq,s')
  | (.ok _,s') =>
    (.error (.dataLoss "LocalChunkStore PutMany did not return exactly one sequence"),s')

/-- Put the fragments one at a time, whatever becomes of each. -/
def putEach : State → List NodeFragment → List (StatusOr UInt32) × State
  | s, [] => ([],s)
  | s, f::fragments =>
    ((put s f).1::(putEach (put s f).2 fragments).1,(putEach (put s f).2 fragments).2)

variable {s : State}

theorem mem_publish_single {q : UInt32} {final : Option UInt32} :
    q ∈ (publish s [f] ⟨[seq],final⟩).chunks ↔ q ∈ s.chunks ∨ q = seq := by
  rw [publish_chunks,Table.mem_emplaceAll]
  simp

theorem batchView_publish_single (s : State) (f : NodeFragment) (seq : UInt32)
    (final : Option UInt32) :
    batchView (publish s [f] ⟨[seq],final⟩) = (batchView s).add seq final := by
  simp only [batchView,add,mk.injEq]
  refine ⟨rfl,?_,rfl,?_⟩
  · funext q
    simp only [mem_publish_single,Bool.decide_or]
    rfl
  · funext q
    rw [Bool.eq_iff_iff]
    simp [Finmap.mem_keys,mem_publish_single,or_and_right,exists_or]

theorem publish_cons (s : State) (f : NodeFragment) (fragments : List NodeFragment) (seq : UInt32)
    (seqs : List UInt32) (final pending : Option UInt32) :
    publish s (f::fragments) ⟨seq::seqs,pending⟩ =
      publish (publish s [f] ⟨[seq],final⟩) fragments ⟨seqs,pending⟩ := by
  have hput : (publish s [f] ⟨[seq],final⟩).totalChunksPut = s.totalChunksPut+1 := rfl
  refine State.ext rfl ?_ ?_ ?_ rfl ?_ rfl rfl
  · simp [publish_seqToArrivalOrder,hput,Table.emplaceAll_cons,range'_succ]
  · simp [publish_arrivalOrderToSeq,hput,Table.emplaceAll_cons,range'_succ]
  · simp [publish_chunks,Table.emplaceAll_cons]
  · simp only [publish,length_cons,length_nil]
    omega

theorem commits_cons_iff {seqs : List UInt32}
    (hne : fragments ≠ []) (he : ∀ g ∈ f::fragments, g.seq.isSome = e) :
    Commits s (f::fragments) ⟨seq::seqs,pending⟩ ↔ ∃ final, Commits s [f] ⟨[seq],final⟩ ∧
        Commits (publish s [f] ⟨[seq],final⟩) fragments ⟨seqs,pending⟩ := by
  have hf : f.seq.isSome = e := he f (by simp)
  have hscan : ∀ {gs e'}, (∀ g ∈ gs, g ∈ f::fragments) →
      scan wording gs = .ok e' → e' = e := by
    intro gs e' hgs h
    obtain ⟨hne',-,-,hall⟩ := scan_eq_ok.mp h
    obtain ⟨g,hg⟩ := exists_mem_of_ne_nil gs hne'
    rw [← hall g hg,he g (hgs g hg)]
  constructor
  · intro h
    obtain ⟨hopen,e',hbat,hacc⟩ := h
    obtain rfl := hscan (fun g hg => hg) hbat
    obtain ⟨hlen,hnd⟩ := assign_length_nodup hbat hacc.assigned
    obtain ⟨hfst,hrest,-⟩ := (scan_cons_iff hne).mp hbat
    obtain ⟨final,hone,hmany⟩ := (accepts_cons_iff hf hne (by simpa using hlen)).mp
      ⟨(nodup_cons.mp hnd).1,hacc⟩
    refine ⟨final,⟨hopen,e',hfst,hone⟩,⟨hopen,e',hrest,?_⟩⟩
    rwa [batchView_publish_single]
  · rintro ⟨final,⟨hopen,_,hfst,hone⟩,⟨-,_,hrest,hmany⟩⟩
    obtain rfl := hscan (by simp) hfst
    obtain rfl := hscan (fun g hg => by simp [hg]) hrest
    rw [batchView_publish_single] at hmany
    have hlen := (assign_length_nodup hrest hmany.assigned).1
    obtain ⟨hnotin,hacc⟩ := (accepts_cons_iff hf hne hlen).mpr ⟨final,hone,hmany⟩
    refine ⟨hopen,_,(scan_cons_iff hne).mpr ⟨hfst,hrest,fun q hq => ?_⟩,hacc⟩
    rw [hq] at hf
    obtain rfl : true = _ := hf
    have hasgn := hacc.assigned
    simp only [assign,hq,if_true,filterMap_cons,Except.ok.injEq,List.cons.injEq] at hasgn
    rw [hasgn.1,hasgn.2]
    exact hnotin

theorem put_ok_iff {s' : State} : put s f = (.ok seq,s') ↔
      ∃ final, Commits s [f] ⟨[seq],final⟩ ∧ s' = publish s [f] ⟨[seq],final⟩ := by
  obtain ⟨_,herr⟩ | ⟨p,hp,hok⟩ := putMany_cases s [f]
  · have hno : ∀ final, ¬ Commits s [f] ⟨[seq],final⟩ := fun final h => by
      rw [putMany_of_commits h] at herr
      simp at herr
    simp [put,herr,hno]
  obtain ⟨q,hq⟩ := length_eq_one_iff.mp hp.length_nodup.1
  obtain ⟨_,pending⟩ := p
  subst hq
  simp only [put,hok,Prod.mk.injEq,Except.ok.injEq]
  constructor
  · rintro ⟨rfl,rfl⟩
    exact ⟨pending,hp,rfl⟩
  · rintro ⟨final,hcom,rfl⟩
    have heq := (putMany_of_commits hcom).symm.trans hok
    simp only [Prod.mk.injEq,Except.ok.injEq,List.cons.injEq,and_true] at heq
    exact ⟨heq.1.symm,heq.2.symm⟩

theorem putEach_ok_iff (hne : fragments ≠ []) (he : ∀ f ∈ fragments, f.seq.isSome = e)
    {assigned : List UInt32} {s' : State} : putEach s fragments = (assigned.map .ok,s') ↔
      ∃ p, Commits s fragments p ∧ assigned = p.assigned ∧ s' = publish s fragments p := by
  induction fragments generalizing s assigned s' with
  | nil => exact absurd rfl hne
  | cons f fragments ih =>
    simp only [putEach,Prod.mk.injEq]
    by_cases hnil : fragments = []
    · subst hnil
      constructor
      · rintro ⟨hres,rfl⟩
        obtain ⟨seq,rfl,hseq⟩ := map_eq_singleton_iff.mp hres.symm
        have hput : put s f = (.ok seq,(put s f).2) := Prod.ext hseq.symm rfl
        obtain ⟨final,hcom,hs'⟩ := put_ok_iff.mp hput
        exact ⟨_,hcom,rfl,hs'⟩
      · rintro ⟨⟨seqs,final⟩,hcom,rfl,rfl⟩
        obtain ⟨seq,rfl⟩ := length_eq_one_iff.mp hcom.length_nodup.1
        rw [put_ok_iff.mpr ⟨final,hcom,rfl⟩]
        exact ⟨rfl,rfl⟩
    · have he' : ∀ g ∈ fragments, g.seq.isSome = e := fun g hg => he g (by simp [hg])
      constructor
      · rintro ⟨hres,rfl⟩
        obtain ⟨seq,seqs,rfl,hseq,hseqs⟩ := map_eq_cons_iff.mp hres.symm
        have hput : put s f = (.ok seq,(put s f).2) := Prod.ext hseq.symm rfl
        obtain ⟨final,hone,hs₁⟩ := put_ok_iff.mp hput
        have heach : putEach (put s f).2 fragments =
            (seqs.map .ok,(putEach (put s f).2 fragments).2) := Prod.ext hseqs.symm rfl
        obtain ⟨⟨seqs',pending⟩,hmany,hseqs',hs'⟩ := (ih hnil he').mp heach
        obtain rfl : seqs = seqs' := hseqs'
        rw [hs₁] at hmany hs'
        refine ⟨⟨seq::seqs,pending⟩,(commits_cons_iff hnil he).mpr ⟨final,hone,hmany⟩,rfl,?_⟩
        rw [hs₁,hs',publish_cons s f fragments seq seqs final pending]
      · rintro ⟨⟨seqs,pending⟩,hcom,rfl,rfl⟩
        obtain ⟨seq,seqs,rfl⟩ := exists_cons_of_length_eq_add_one hcom.length_nodup.1
        obtain ⟨final,hone,hmany⟩ := (commits_cons_iff hnil he).mp hcom
        have heach := (ih hnil he').mpr ⟨_,hmany,rfl,rfl⟩
        rw [put_ok_iff.mpr ⟨final,hone,rfl⟩,heach,publish_cons s f fragments seq seqs final pending]
        exact ⟨rfl,rfl⟩

/-- A batch whose sequences are all explicit or all implicit is accepted exactly when
its fragments are accepted one at a time, with the same sequences and the same store
in the end. A rejected batch leaves the store alone. -/
theorem putMany_iff_putEach (s : State) (fragments : List NodeFragment) (hne : fragments ≠ [])
    (hseqs : (∀ f ∈ fragments, f.seq.isSome) ∨ ∀ f ∈ fragments, f.seq = none) :
    (∀ assigned s', putMany s fragments = (.ok assigned,s') ↔
      putEach s fragments = (assigned.map .ok,s')) ∧
    ∀ status s', putMany s fragments = (.error status,s') → s' = s := by
  obtain ⟨e,he⟩ : ∃ e, ∀ f ∈ fragments, f.seq.isSome = e := by
    rcases hseqs with hsome | hnone
    · exact ⟨true,hsome⟩
    · exact ⟨false,fun f hf => by simp [hnone f hf]⟩
  refine ⟨fun assigned s' => ?_,fun status s' h => ?_⟩
  · rw [putMany_ok_iff,putEach_ok_iff hne he]
  · obtain ⟨_,herr⟩ | ⟨p,-,hok⟩ := putMany_cases s fragments
    · rw [herr] at h
      exact (Prod.mk.inj h).2.symm
    · simp [hok] at h

/-- An implicit batch on a store with a gap: both ways fill the gap and mark the end. -/
theorem putMany_iff_putEach_gap :
    putEach (putMany (State.empty [97]) [{ seq := some 1, continued := true }]).2
        [{ continued := true },{ continued := true },{ continued := false }] =
      ([2,3,4].map .ok,
        (putMany (putMany (State.empty [97]) [{ seq := some 1, continued := true }]).2
          [{ continued := true },{ continued := true },{ continued := false }]).2) :=
  ((putMany_iff_putEach _ _ (by simp) (.inr (by decide))).1 _ _).mp (by decide)

end LocalChunkStore
end A11
