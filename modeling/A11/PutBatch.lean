import A11.DataTypes

/-! The checks of one `PutMany` batch. They are written once over what a store
shows of itself, since the stores repeat them line by line and differ only in how
they look a sequence up and in the wording of two messages. -/
namespace A11
open List StatusOr

namespace PutBatch

/-- What the stores word differently. -/
structure Wording where
  /-- What every message ends in. -/
  stop : String
  existingExceeds : String

/-! ### Checks of the batch alone -/

structure Scan where
  anyExplicit : Bool := false
  allExplicit : Bool := true
  explicitSequences : List UInt32 := []

def scanFragment (w : Wording) (s : Scan) (f : NodeFragment) : StatusOr Scan := do
  f.validate
  match f.seq with
  | none => .ok { s with allExplicit := false }
  | some seq =>
    if seq ∈ s.explicitSequences then
      .error (.invalidArgument
        ("Explicit seq " ++ toString seq ++ " occurs more than once" ++ w.stop))
    else .ok { s with anyExplicit := true, explicitSequences := seq::s.explicitSequences }

/-- Accept the batch by itself, and say whether its sequences are explicit. -/
def scan (w : Wording) (fragments : List NodeFragment) : StatusOr Bool := do
  let s ← fragments.foldlM (scanFragment w) {}
  if s.anyExplicit ≠ s.allExplicit then
    .error (.invalidArgument
      ("Sequence numbers must be set on every fragment or none" ++ w.stop))
  else .ok s.allExplicit

variable {w : Wording}

theorem scanFragment_eq_ok {s t : Scan} {f : NodeFragment} :
    scanFragment w s f = .ok t ↔ f.validate = .ok () ∧
      (∀ seq, f.seq = some seq → seq ∉ s.explicitSequences) ∧
      t = ⟨s.anyExplicit || f.seq.isSome,s.allExplicit && f.seq.isSome,
        f.seq.toList++s.explicitSequences⟩ := by
  rw [scanFragment,check_bind_eq_ok]
  cases hseq : f.seq with
  | none => simp [eq_comm]
  | some seq => by_cases hmem : seq ∈ s.explicitSequences <;> simp [hmem,eq_comm]

variable {fragments : List NodeFragment}

theorem foldlM_scanFragment_eq_ok {s t : Scan} : fragments.foldlM (scanFragment w) s = .ok t ↔
      (∀ f ∈ fragments, f.validate = .ok ()) ∧ (fragments.filterMap fun f => f.seq).Nodup ∧
      (∀ seq ∈ fragments.filterMap fun f => f.seq, seq ∉ s.explicitSequences) ∧
      t = ⟨s.anyExplicit || fragments.any fun f => f.seq.isSome,
        s.allExplicit && fragments.all fun f => f.seq.isSome,
        (fragments.filterMap fun f => f.seq).reverse++s.explicitSequences⟩ := by
  induction fragments generalizing s with
  | nil => simp [eq_comm]
  | cons f fragments ih =>
    simp only [foldlM_cons,bind_eq_ok,scanFragment_eq_ok,ih]
    cases hseq : f.seq with
    | none => simp [hseq,and_assoc]
    | some seq =>
      grind

variable {e : Bool}

/-- A batch passes alone when it is non-empty, its fragments are valid, and its
sequences are all present and distinct or all absent. -/
theorem scan_eq_ok :
    scan w fragments = .ok e ↔ fragments ≠ [] ∧ (∀ f ∈ fragments, f.validate = .ok ()) ∧
      (fragments.filterMap fun f => f.seq).Nodup ∧ ∀ f ∈ fragments, f.seq.isSome = e := by
  simp only [scan,bind_eq_ok,foldlM_scanFragment_eq_ok]
  constructor
  · rintro ⟨t,⟨hval,hnd,-,rfl⟩,h⟩
    simp only [Bool.false_or,Bool.true_and] at h
    split_ifs at h with hne
    simp only [Decidable.not_not] at hne
    obtain rfl := Except.ok.inj h
    refine ⟨?_,hval,hnd,?_⟩
    · rintro rfl
      simp at hne
    · intro f hf
      cases hall : fragments.all fun f => f.seq.isSome with
      | true => exact all_eq_true.mp hall f hf
      | false =>
        rw [hall,any_eq_false] at hne
        simpa using hne f hf
  · rintro ⟨hne,hval,hnd,hseq⟩
    refine ⟨_,⟨hval,hnd,by simp,rfl⟩,?_⟩
    obtain ⟨f,fragments,rfl⟩ := exists_cons_of_ne_nil hne
    have hany : ((f::fragments).any fun f => f.seq.isSome) = e := by
      cases e with
      | true => exact any_eq_true.mpr ⟨f,by simp,hseq f (by simp)⟩
      | false => exact any_eq_false.mpr fun g hg => by simp [hseq g hg]
    have hall : ((f::fragments).all fun f => f.seq.isSome) = e := by
      cases e with
      | true => exact all_eq_true.mpr fun g hg => hseq g hg
      | false => exact all_eq_false.mpr ⟨f,by simp,by simp [hseq f (by simp)]⟩
    simp [hany,hall]

/-! ### Checks against the store -/

/-- What the checks read of a store. -/
structure View where
  putCount : ℕ
  taken : UInt32 → Bool
  finalSeq : Option UInt32
  /-- Some stored sequence lies above the given one. -/
  hasLater : UInt32 → Bool

/-- Skip the taken candidates. The fuel is what is left of the sequence space, so
running out of it is the test against the largest sequence. -/
def probe (taken : UInt32 → Bool) : ℕ → ℕ → ℕ
  | 0, candidate => candidate
  | fuel+1, candidate =>
    if taken (UInt32.ofNat candidate) then probe taken fuel (candidate+1) else candidate

def nextFree (taken : UInt32 → Bool) (candidate : ℕ) : ℕ :=
  probe taken (uint32Range-candidate) candidate

theorem probe_spec (taken : UInt32 → Bool) (fuel candidate : ℕ) :
    candidate ≤ probe taken fuel candidate ∧ probe taken fuel candidate ≤ candidate+fuel ∧
      (∀ k, candidate ≤ k → k < probe taken fuel candidate → taken (UInt32.ofNat k)) ∧
      (probe taken fuel candidate < candidate+fuel →
        taken (UInt32.ofNat (probe taken fuel candidate)) = false) := by
  induction fuel generalizing candidate with
  | zero => simp [probe]; omega
  | succ fuel ih =>
    unfold probe
    split_ifs with htak
    · obtain ⟨_,_,hall,hfree⟩ := ih (candidate+1)
      refine ⟨by omega,by omega,fun k hk hlt => ?_,fun hlt => hfree (by omega)⟩
      rcases Nat.eq_or_lt_of_le hk with rfl | hk
      · exact htak
      · exact hall k hk hlt
    · exact ⟨le_rfl,by omega,by omega,fun _ => by simpa using htak⟩

theorem nextFree_ge (taken : UInt32 → Bool) (candidate : ℕ) :
    candidate ≤ nextFree taken candidate := (probe_spec taken _ candidate).1

variable {candidate : ℕ} {taken : UInt32 → Bool}

theorem taken_of_lt_nextFree {k : ℕ} (hk : candidate ≤ k)
    (hlt : k < nextFree taken candidate) : taken (UInt32.ofNat k) :=
  (probe_spec taken _ candidate).2.2.1 k hk hlt

theorem not_taken_nextFree (h : nextFree taken candidate ≤ maxSeq) :
    taken (UInt32.ofNat (nextFree taken candidate)) = false := by
  refine (probe_spec taken _ candidate).2.2.2 ?_
  change nextFree taken candidate < _
  simp only [maxSeq,uint32Range] at *
  omega

theorem nextFree_le (h : candidate ≤ uint32Range) : nextFree taken candidate ≤ uint32Range := by
  have hle := (probe_spec taken (uint32Range-candidate) candidate).2.1
  change nextFree taken candidate ≤ _ at hle
  omega

/-- `nextFree` is the first free sequence from its start on. -/
theorem nextFree_eq {c : ℕ} (hle : candidate ≤ c)
    (hc : c ≤ uint32Range) (hall : ∀ k, candidate ≤ k → k < c → taken (UInt32.ofNat k))
    (hfree : c ≤ maxSeq → taken (UInt32.ofNat c) = false) : nextFree taken candidate = c := by
  have hmax : nextFree taken candidate ≤ uint32Range := nextFree_le (hle.trans hc)
  rcases Nat.lt_trichotomy (nextFree taken candidate) c with hlt | heq | hgt
  · have h := hall _ (nextFree_ge taken candidate) hlt
    have hf : taken (UInt32.ofNat (nextFree taken candidate)) = false :=
      not_taken_nextFree (by simp only [maxSeq,uint32Range] at *; omega)
    simp [hf] at h
  · exact heq
  · have h := taken_of_lt_nextFree hle hgt
    rw [hfree (by simp only [maxSeq,uint32Range] at *; omega)] at h
    exact absurd h (by simp)

/-- Probing may start further on when everything skipped is taken. -/
theorem nextFree_shift {taken' : UInt32 → Bool} {a b : ℕ} (hab : a ≤ b)
    (hb : b ≤ uint32Range) (hskip : ∀ k, a ≤ k → k < b → taken' (UInt32.ofNat k))
    (hsame : ∀ k, b ≤ k → k ≤ maxSeq → taken' (UInt32.ofNat k) = taken (UInt32.ofNat k)) :
    nextFree taken' a = nextFree taken b := by
  have hge := nextFree_ge taken b
  have hmax : nextFree taken b ≤ uint32Range := nextFree_le hb
  refine nextFree_eq (hab.trans hge) hmax (fun k hak hk => ?_) (fun hle => ?_)
  · by_cases hkb : k < b
    · exact hskip k hak hkb
    · rw [hsame k (by omega) (by simp only [maxSeq,uint32Range] at *; omega)]
      exact taken_of_lt_nextFree (by omega) hk
  · rw [hsame _ hge hle]
    exact not_taken_nextFree hle

def assignImplicit (w : Wording) (taken : UInt32 → Bool) : ℕ → ℕ → StatusOr (List UInt32)
  | 0, _ => .ok []
  | count+1, candidate =>
    let free := nextFree taken candidate
    if maxSeq < free then
      .error (.resourceExhausted ("Maximum implicit sequence number exceeded" ++ w.stop))
    else do
      let rest ← assignImplicit w taken count (free+1)
      .ok (UInt32.ofNat free::rest)

variable {assigned : List UInt32} {count : ℕ}

theorem assignImplicit_succ_eq_ok : assignImplicit w taken (count+1) candidate = .ok assigned ↔
      nextFree taken candidate ≤ maxSeq ∧ ∃ rest,
        assignImplicit w taken count (nextFree taken candidate+1) = .ok rest ∧
        assigned = UInt32.ofNat (nextFree taken candidate)::rest := by
  rw [assignImplicit]
  split_ifs with hmax
  · simp; omega
  · simp only [bind_eq_ok,Nat.not_lt.mp hmax]
    simp [eq_comm]

theorem toNat_ofNat_of_le {c : ℕ} (h : c ≤ maxSeq) : (UInt32.ofNat c).toNat = c :=
  UInt32.toNat_ofNat_of_lt' (by simp only [maxSeq] at h; simp [UInt32.size]; omega)

theorem toNat_le_maxSeq (seq : UInt32) : seq.toNat ≤ maxSeq := by
  have h := seq.toNat_lt
  simp only [maxSeq]
  omega

theorem assignImplicit_length (h : assignImplicit w taken count candidate = .ok assigned) :
    assigned.length = count := by
  induction count generalizing candidate assigned with
  | zero => simp [← Except.ok.inj h]
  | succ count ih =>
    obtain ⟨-,_,hrest,rfl⟩ := assignImplicit_succ_eq_ok.mp h
    simp [ih hrest]

variable {seq : UInt32}

section

variable (h : assignImplicit w taken count candidate = .ok assigned)

include h

theorem assignImplicit_mem (hmem : seq ∈ assigned) : candidate ≤ seq.toNat ∧ taken seq = false := by
  induction count generalizing candidate assigned with
  | zero => simp [← Except.ok.inj h] at hmem
  | succ count ih =>
    obtain ⟨hmax,_,hrest,rfl⟩ := assignImplicit_succ_eq_ok.mp h
    have hge := nextFree_ge taken candidate
    rcases mem_cons.mp hmem with rfl | hmem
    · exact ⟨by rw [toNat_ofNat_of_le hmax]; exact hge,not_taken_nextFree hmax⟩
    · obtain ⟨_,hfree⟩ := ih hrest hmem
      exact ⟨by omega,hfree⟩

theorem assignImplicit_pairwise :
    assigned.Pairwise fun a b => a < b := by
  induction count generalizing candidate assigned with
  | zero => simp [← Except.ok.inj h]
  | succ count ih =>
    obtain ⟨hmax,_,hrest,rfl⟩ := assignImplicit_succ_eq_ok.mp h
    refine pairwise_cons.mpr ⟨fun seq hseq => ?_,ih hrest⟩
    have hle := (assignImplicit_mem hrest hseq).1
    rw [UInt32.lt_iff_toNat_lt,toNat_ofNat_of_le hmax]
    omega

end

theorem assignImplicit_of_free (hfree : ∀ seq, taken seq = false)
    (hrng : candidate+count ≤ uint32Range) : assignImplicit w taken count candidate =
      .ok ((List.range' candidate count).map UInt32.ofNat) := by
  induction count generalizing candidate with
  | zero => rfl
  | succ count ih =>
    have hmax : candidate ≤ maxSeq := by
      simp only [maxSeq,uint32Range] at *
      omega
    have hnext : nextFree taken candidate = candidate :=
      nextFree_eq le_rfl (by omega) (by omega) (fun _ => hfree _)
    refine assignImplicit_succ_eq_ok.mpr ⟨by rwa [hnext],_,ih (by rw [hnext]; omega),?_⟩
    rw [hnext,range'_succ,map_cons]

theorem assignImplicit_shift {taken' : UInt32 → Bool} {a b : ℕ}
    (hab : a ≤ b) (hb : b ≤ uint32Range) (hskip : ∀ k, a ≤ k → k < b → taken' (UInt32.ofNat k))
    (hsame : ∀ k, b ≤ k → k ≤ maxSeq → taken' (UInt32.ofNat k) = taken (UInt32.ofNat k)) :
    assignImplicit w taken' count a = assignImplicit w taken count b := by
  induction count generalizing a b with
  | zero => rfl
  | succ count ih =>
    have hfree := nextFree_shift hab hb hskip hsame
    have hge := nextFree_ge taken b
    simp only [assignImplicit,hfree]
    split_ifs with hmax
    · rfl
    · rw [ih le_rfl (by simp only [maxSeq,uint32Range] at *; omega) (by omega)
        (fun k hk => hsame k (by omega))]

def assign (w : Wording) (v : View) (allExplicit : Bool) (fragments : List NodeFragment) :
    StatusOr (List UInt32) :=
  if allExplicit then .ok (fragments.filterMap fun f => f.seq)
  else assignImplicit w v.taken fragments.length v.putCount

theorem filterMap_seq_length (h : ∀ f ∈ fragments, f.seq.isSome) :
    (fragments.filterMap fun f => f.seq).length = fragments.length := by
  induction fragments with
  | nil => rfl
  | cons f fragments ih =>
    obtain ⟨_,hseq⟩ := Option.isSome_iff_exists.mp (h f (by simp))
    simp [hseq,ih fun g hg => h g (by simp [hg])]

/-- A batch that passed alone gets one sequence per fragment, and no sequence twice. -/
theorem assign_length_nodup {w' : Wording} {v : View} (hscan : scan w fragments = .ok e)
    (h : assign w' v e fragments = .ok assigned) :
    assigned.length = fragments.length ∧ assigned.Nodup := by
  obtain ⟨-,-,hnd,hseq⟩ := scan_eq_ok.mp hscan
  cases e with
  | true =>
    obtain rfl := Except.ok.inj h
    exact ⟨filterMap_seq_length hseq,hnd⟩
  | false =>
    exact ⟨assignImplicit_length h,(assignImplicit_pairwise h).imp fun hab => by
      rintro rfl; exact absurd hab (UInt32.lt_irrefl _)⟩

def checkAbsent (w : Wording) (v : View) (seq : UInt32) : StatusOr Unit :=
  if v.taken seq then
    .error (.alreadyExists ("A fragment with seq " ++ toString seq ++ " already exists" ++ w.stop))
  else .ok ()

/-- The one sequence of the batch marked final, if any. The accumulator is
`batch_final`, which is set exactly when `saw_final` is. -/
def batchFinal (w : Wording) (allExplicit : Bool) :
    Option UInt32 → List (NodeFragment × UInt32) → StatusOr (Option UInt32)
  | final, [] => .ok final
  | final, (f,seq)::rest =>
    if f.continued then
      if final.isSome && !allExplicit then
        .error (.invalidArgument ("The final implicit fragment must be last" ++ w.stop))
      else batchFinal w allExplicit final rest
    else if final.isSome then
      .error (.invalidArgument
        ("More than one fragment in the batch is marked final" ++ w.stop))
    else batchFinal w allExplicit (some seq) rest

variable {entries : List (NodeFragment × UInt32)}

theorem batchFinal_some_eq_ok {final : Option UInt32} :
    batchFinal w e (some seq) entries = .ok final ↔ final = some seq ∧
      (∀ x ∈ entries, x.1.continued) ∧ (e = false → entries = []) := by
  induction entries with
  | nil =>
    rw [batchFinal,Except.ok.injEq]
    exact ⟨fun h => ⟨h.symm,by simp⟩,fun h => h.1.symm⟩
  | cons x entries ih =>
    obtain ⟨f,q⟩ := x
    rw [batchFinal]
    cases hf : f.continued <;> cases e <;> simp [hf,ih]

theorem batchFinal_of_continued (h : ∀ x ∈ entries, x.1.continued) :
    batchFinal w e none entries = .ok none := by
  induction entries with
  | nil => rfl
  | cons x entries ih =>
    obtain ⟨f,q⟩ := x
    have hf : f.continued := h (f,q) (by simp)
    simp [batchFinal,hf,ih fun y hy => h y (by simp [hy])]

/-- A batch final is one of the batch's own sequences. -/
theorem batchFinal_mem (h : batchFinal w e none entries = .ok (some seq)) :
    seq ∈ entries.map Prod.snd := by
  induction entries with
  | nil => simp [batchFinal] at h
  | cons x entries ih =>
    obtain ⟨f,q⟩ := x
    rw [batchFinal] at h
    cases hf : f.continued with
    | true => simp [hf] at h; simp [ih h]
    | false =>
      simp only [hf] at h
      simp [Option.some.inj (batchFinal_some_eq_ok.mp h).1]

def pendingFinal (w : Wording) (existing : Option UInt32) : Option UInt32 → StatusOr (Option UInt32)
  | none => .ok existing
  | some final =>
    if existing.isSome ∧ existing ≠ some final then
      .error (.failedPrecondition
        ("The chunk store already has a different final sequence" ++ w.stop))
    else .ok (some final)

theorem pendingFinal_eq_ok {existing batch pending : Option UInt32} :
    pendingFinal w existing batch = .ok pending ↔ (batch = none ∧ pending = existing) ∨
      (pending = batch ∧ ∃ final, batch = some final ∧
        (existing = none ∨ existing = some final)) := by
  cases batch with
  | none => simp [pendingFinal,eq_comm]
  | some final =>
    rcases existing with _ | q
    · simp [pendingFinal,eq_comm]
    · by_cases hq : q = final
      · simp [pendingFinal,hq,eq_comm]
      · simp [pendingFinal,hq]

def checkBelow (w : Wording) (final seq : UInt32) : StatusOr Unit :=
  if final < seq then
    .error (.invalidArgument ("A fragment sequence exceeds the final sequence" ++ w.stop))
  else .ok ()

def checkFinal (w : Wording) (v : View) (assigned : List UInt32) : Option UInt32 → StatusOr Unit
  | none => .ok ()
  | some final => do
    checkAll (checkBelow w final) assigned
    if v.hasLater final then .error (.invalidArgument (w.existingExceeds++w.stop)) else .ok ()

/-- What a store commits for an accepted batch. -/
structure Plan where
  assigned : List UInt32
  pendingFinal : Option UInt32
  deriving DecidableEq

def plan (w : Wording) (v : View) (allExplicit : Bool) (fragments : List NodeFragment) :
    StatusOr Plan := do
  let assigned ← assign w v allExplicit fragments
  checkAll (checkAbsent w v) assigned
  let final ← batchFinal w allExplicit none (fragments.zip assigned)
  let pending ← pendingFinal w v.finalSeq final
  checkFinal w v assigned pending
  .ok ⟨assigned,pending⟩

/-- What an accepted batch has passed. -/
structure Accepts (w : Wording) (v : View) (e : Bool) (fragments : List NodeFragment)
    (p : Plan) : Prop where
  assigned : assign w v e fragments = .ok p.assigned
  absent : ∀ seq ∈ p.assigned, v.taken seq = false
  final : ∃ final, batchFinal w e none (fragments.zip p.assigned) = .ok final ∧
    A11.PutBatch.pendingFinal w v.finalSeq final = .ok p.pendingFinal
  below : ∀ final, p.pendingFinal = some final →
    (∀ seq ∈ p.assigned, seq ≤ final) ∧ v.hasLater final = false

theorem checkFinal_eq_ok {v : View} {pending : Option UInt32} :
    checkFinal w v assigned pending = .ok () ↔ ∀ final, pending = some final →
      (∀ seq ∈ assigned, seq ≤ final) ∧ v.hasLater final = false := by
  cases pending with
  | none => simp [checkFinal]
  | some final => simp [checkFinal,check_bind_eq_ok,checkAll_eq_ok,checkBelow]

theorem plan_eq_ok {v : View} {p : Plan} :
    plan w v e fragments = .ok p ↔ Accepts w v e fragments p := by
  constructor
  · intro h
    obtain ⟨_,hasgn,h⟩ := bind_eq_ok.mp h
    obtain ⟨habs,h⟩ := check_bind_eq_ok.mp h
    obtain ⟨final,hfin,h⟩ := bind_eq_ok.mp h
    obtain ⟨_,hpend,h⟩ := bind_eq_ok.mp h
    obtain ⟨hbelow,h⟩ := check_bind_eq_ok.mp h
    obtain rfl := Except.ok.inj h
    refine ⟨hasgn,fun seq hseq => ?_,⟨final,hfin,hpend⟩,checkFinal_eq_ok.mp hbelow⟩
    simpa [checkAbsent] using checkAll_eq_ok.mp habs seq hseq
  · rintro ⟨hasgn,habs,⟨final,hfin,hpend⟩,hbelow⟩
    have hall : checkAll (checkAbsent w v) p.assigned = .ok () :=
      checkAll_eq_ok.mpr fun seq hseq => by simp [checkAbsent,habs seq hseq]
    simp [plan,hasgn,hall,hfin,hpend,checkFinal_eq_ok.mpr hbelow]

end PutBatch
end A11
