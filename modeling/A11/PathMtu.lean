import A11.Runs

/-! The search for the largest packet that a path carries. Sizes are 64-bit numbers. Durations and
the counting of send failures are left out, and so is what the transport does with a size that is
applied to it: the search does not look at it. -/
namespace A11.PathMtu

structure Options where
  baseMtu : UInt64 := 1280
  minMtu : UInt64 := 512
  maxMtu : UInt64 := 8192
  granularity : UInt64 := 64
  probeOverhead : UInt64 := 108
  maxProbes : ℤ := 3
  confirmBurst : ℤ := 4

/-- What Validate asks of the sizes and counts. -/
structure Options.Valid (o : Options) : Prop where
  minMtu : 2*o.probeOverhead ≤ o.minMtu
  baseMtu : o.minMtu ≤ o.baseMtu
  maxMtu : o.baseMtu ≤ o.maxMtu
  granularity : o.granularity ≠ 0
  maxProbes : 0 < o.maxProbes
  confirmBurst : 0 < o.confirmBurst

inductive State
  | disabled
  | base
  | searching
  | searchComplete
  | error
  deriving DecidableEq

/-- What the search needs from its transport: whether it takes a size, how many probes of a burst
came back, and whether a single one did, if they could be sent. The first argument says how many
probes were sent before, so that the transport may answer one size now so and now otherwise. -/
structure Prober where
  apply : ℕ → UInt64 → Bool
  probeBurst : Option (ℕ → UInt64 → ℤ → Option ℤ)
  probe : Option (ℕ → UInt64 → Option Bool)

def Prober.answered (p : Prober) (o : Options) (sent : ℕ) (candidate : UInt64) : Option Bool :=
  let payload := candidate-o.probeOverhead
  match p.probeBurst with
  | some burst =>
    (burst sent payload o.confirmBurst).map fun returned => decide (o.confirmBurst ≤ returned)
  | none => match p.probe with
    | some probe => probe sent payload
    | none => none

structure Discovery where
  state : State := .disabled
  confirmed : UInt64 := 0
  probesSent : ℕ := 0
  stopped : Bool := false
  /-- The sizes that were acknowledged, and those reported as confirmed. -/
  acknowledged : List UInt64 := []
  reported : List UInt64 := []

def Discovery.confirm (d : Discovery) (size : UInt64) : Discovery :=
  { d with confirmed := size, reported := d.reported++[size] }

/-- Both parts of a bisected gap, also where the numbers wrap. -/
theorem toNat_midpoint_sub (low ceiling : UInt64) :
    (low+(ceiling-low)/2-low).toNat = (ceiling-low).toNat/2 := by
  have hlow := low.toNat_lt
  simp only [UInt64.toNat_sub,UInt64.toNat_add,UInt64.toNat_div,UInt64.reduceToNat]
  omega

theorem toNat_sub_midpoint (low ceiling : UInt64) :
    (ceiling-(low+(ceiling-low)/2)).toNat = (ceiling-low).toNat-(ceiling-low).toNat/2 := by
  have hlow := low.toNat_lt
  simp only [UInt64.toNat_sub,UInt64.toNat_add,UInt64.toNat_div,UInt64.reduceToNat]
  omega

theorem two_le_gap {low ceiling : UInt64} (h : ¬low+(ceiling-low)/2 ≤ low) :
    2 ≤ (ceiling-low).toNat := by
  by_contra hlt
  have hzero : (ceiling-low)/2 = 0 := by
    rw [← UInt64.toNat_inj]
    simp
    omega
  exact h (by simp [hzero])

section

variable (o : Options) (p : Prober)

/-- The attempts at one size: whether it was acknowledged, and whether nothing was learned. -/
def attempts (candidate : UInt64) : ℕ → Discovery → Bool × Bool × Discovery
  | 0, d => (false,false,d)
  | n+1, d =>
    if p.apply d.probesSent candidate then
      let sent := { d with probesSent := d.probesSent+1 }
      match p.answered o d.probesSent candidate with
      | none => (false,true,sent)
      | some true => (true,false,{ sent with acknowledged := d.acknowledged++[candidate] })
      | some false => if d.stopped then (false,false,sent) else attempts candidate n sent
    else (false,true,d)

def probeCandidate (candidate : UInt64) (d : Discovery) : Bool × Bool × Discovery :=
  attempts o p candidate o.maxProbes.toNat d

/-- The bisection between a size that answered and one that has not. -/
def bisect (low ceiling : UInt64) (d : Discovery) : Discovery :=
  if o.granularity < ceiling-low then
    if d.stopped then d
    else if _hlow : low+(ceiling-low)/2 ≤ low then d
    else match probeCandidate o p (low+(ceiling-low)/2) d with
      | (true,_,d) => bisect (low+(ceiling-low)/2) ceiling (d.confirm (low+(ceiling-low)/2))
      | (false,true,d) => d
      | (false,false,d) => bisect low (low+(ceiling-low)/2) d
  else d
termination_by (ceiling-low).toNat
decreasing_by
  · have hgap := two_le_gap _hlow
    rw [toNat_sub_midpoint]
    omega
  · have hgap := two_le_gap _hlow
    rw [toNat_midpoint_sub]
    omega

def search (d : Discovery) : UInt64 × Discovery :=
  if d.stopped ∨ d.state = .error then (d.confirmed,d)
  else match probeCandidate o p o.baseMtu { d with confirmed := 0, state := .base } with
    | (false,true,d) => (0,d)
    | (false,false,d) => (0,{ d with state := .error })
    | (true,_,d) =>
      let found := bisect o p o.baseMtu (o.maxMtu+1) { d.confirm o.baseMtu with state := .searching }
      (found.confirmed,{ found with state := .searchComplete })

end

/-- A path that carries the packets up to a size, probed in bursts or one by one. -/
def path (o : Options) (limit : UInt64) (bursts : Bool) : Prober where
  apply _ _ := true
  probeBurst :=
    if bursts then
      some fun _ payload count => some (if payload+o.probeOverhead ≤ limit then count else 0)
    else none
  probe := some fun _ payload => some (decide (payload+o.probeOverhead ≤ limit))

/-- What a search should find: the sizes reported were acknowledged, and the result is carried and
less than the granularity below the largest size. -/
structure Found (o : Options) (limit : UInt64) (sent : ℕ) (r : UInt64 × Discovery) : Prop where
  reported : ∀ size ∈ r.2.reported, size ∈ r.2.acknowledged
  sent : r.2.probesSent ≤ sent
  base : o.baseMtu.toNat ≤ r.1.toNat
  carried : r.1.toNat ≤ min limit.toNat o.maxMtu.toNat
  close : min limit.toNat o.maxMtu.toNat-r.1.toNat < o.granularity.toNat

/-- What holds between two probes: the confirmed size is carried, and the largest size is below the
end of the gap. -/
structure Bracket (o : Options) (limit low ceiling : UInt64) (d : Discovery) : Prop where
  stopped : d.stopped = false
  confirmed : d.confirmed = low
  reported : ∀ size ∈ d.reported, size ∈ d.acknowledged
  base : o.baseMtu.toNat ≤ low.toNat
  carried : low.toNat ≤ min limit.toNat o.maxMtu.toNat
  above : min limit.toNat o.maxMtu.toNat < low.toNat+(ceiling-low).toNat
  top : low.toNat+(ceiling-low).toNat ≤ o.maxMtu.toNat+1

/-- The discovery when the base has been confirmed. -/
def started (o : Options) (d : Discovery) : Discovery :=
  { d with
    state := .searching, confirmed := o.baseMtu, probesSent := d.probesSent+1
    acknowledged := d.acknowledged++[o.baseMtu], reported := d.reported++[o.baseMtu] }

section

variable {o : Options} {limit candidate low ceiling : UInt64} {b : Bool} {d : Discovery}

theorem Bracket.midpoint (h : Bracket o limit low ceiling d) :
    (low+(ceiling-low)/2).toNat = low.toNat+(ceiling-low).toNat/2 := by
  have htop := h.top
  have hcarried := h.carried
  have hmax := o.maxMtu.toNat_lt
  simp only [UInt64.toNat_add,UInt64.toNat_div,UInt64.reduceToNat]
  omega

theorem Bracket.found (h : Bracket o limit low ceiling d) {sent : ℕ}
    (hsent : d.probesSent ≤ sent) (hgap : ¬o.granularity < ceiling-low) :
    Found o limit sent (d.confirmed,d) := by
  obtain ⟨-,rfl,hreported,hbase,hcarried,_,-⟩ := h
  rw [UInt64.lt_iff_toNat_lt] at hgap
  exact ⟨hreported,hsent,hbase,hcarried,by dsimp only; omega⟩

/-- A size that is acknowledged is the new lower end. -/
theorem Bracket.raise (h : Bracket o limit low ceiling d)
    (hle : low+(ceiling-low)/2 ≤ limit) (sent : ℕ) :
    Bracket o limit (low+(ceiling-low)/2) ceiling (Discovery.confirm { d with
      probesSent := sent
      acknowledged := d.acknowledged++[low+(ceiling-low)/2] } (low+(ceiling-low)/2)) := by
  have hmid := h.midpoint
  obtain ⟨hstopped,-,hreported,_,_,_,_⟩ := h
  have hsub := toNat_sub_midpoint low ceiling
  rw [UInt64.le_iff_toNat_le] at hle
  refine ⟨hstopped,rfl,?_,by omega,by omega,by omega,by omega⟩
  simp +contextual [Discovery.confirm,or_imp,hreported]

/-- A size that is not acknowledged is the new upper end. -/
theorem Bracket.lower (h : Bracket o limit low ceiling d)
    (hle : ¬low+(ceiling-low)/2 ≤ limit) (sent : ℕ) :
    Bracket o limit low (low+(ceiling-low)/2) { d with probesSent := sent } := by
  have hmid := h.midpoint
  obtain ⟨hstopped,hconfirmed,hreported,hbase,hcarried,-,_⟩ := h
  have hsub := toNat_midpoint_sub low ceiling
  rw [UInt64.le_iff_toNat_le] at hle
  exact ⟨hstopped,hconfirmed,hreported,hbase,hcarried,by omega,by omega⟩

theorem path_answered (hburst : 0 < o.confirmBurst) (sent : ℕ) :
    (path o limit b).answered o sent candidate = some (decide (candidate ≤ limit)) := by
  cases b
  · simp [path,Prober.answered]
  · by_cases hle : candidate ≤ limit <;> simp [path,Prober.answered,hle,hburst]

@[simp] theorem path_apply (sent : ℕ) : (path o limit b).apply sent candidate = true := rfl

variable (hvalid : o.Valid)

include hvalid

theorem probeCandidate_of_le (hle : candidate ≤ limit) :
    probeCandidate o (path o limit b) candidate d =
      (true,false,{ d with
        probesSent := d.probesSent+1, acknowledged := d.acknowledged++[candidate] }) := by
  obtain ⟨n,hn⟩ : ∃ n, o.maxProbes.toNat = n+1 :=
    ⟨o.maxProbes.toNat-1,by have := hvalid.maxProbes; omega⟩
  simp [probeCandidate,hn,attempts,path_answered hvalid.confirmBurst,hle]

theorem probeCandidate_of_not_le (hle : ¬candidate ≤ limit) (hstopped : d.stopped = false) :
    probeCandidate o (path o limit b) candidate d =
      (false,false,{ d with probesSent := d.probesSent+o.maxProbes.toNat }) := by
  rw [probeCandidate]
  generalize o.maxProbes.toNat = n
  induction n generalizing d with
  | zero => rfl
  | succ n ih =>
    simp only [attempts,path_answered hvalid.confirmBurst,path_apply,hle,hstopped,decide_false]
    rw [ih rfl]
    simp [Nat.add_comm n 1,Nat.add_assoc]

theorem bisect_found (h : Bracket o limit low ceiling d) {k sent : ℕ}
    (hk : (ceiling-low).toNat ≤ 2^k) (hsent : d.probesSent+o.maxProbes.toNat*k ≤ sent) :
    Found o limit sent ((bisect o (path o limit b) low ceiling d).confirmed,
      bisect o (path o limit b) low ceiling d) := by
  have hpos : o.granularity.toNat ≠ 0 := fun h0 => hvalid.granularity (UInt64.toNat_inj.mp h0)
  have hprobes := hvalid.maxProbes
  induction k generalizing low ceiling d with
  | zero =>
    have hgap : ¬o.granularity < ceiling-low := by
      rw [UInt64.lt_iff_toNat_lt]
      omega
    rw [bisect,if_neg hgap]
    exact h.found (by omega) hgap
  | succ k ih =>
    have hmid := h.midpoint
    rw [Nat.mul_succ] at hsent
    rw [bisect]
    by_cases hgap : o.granularity < ceiling-low
    · have hlt := UInt64.lt_iff_toNat_lt.mp hgap
      have hlow : ¬low+(ceiling-low)/2 ≤ low := by
        rw [UInt64.le_iff_toNat_le]
        omega
      rw [if_pos hgap,if_neg (by simp [h.stopped]),dif_neg hlow]
      by_cases hle : low+(ceiling-low)/2 ≤ limit
      · rw [probeCandidate_of_le hvalid hle]
        exact ih (h.raise hle _) (by rw [toNat_sub_midpoint]; omega)
          (by dsimp only [Discovery.confirm]; omega)
      · rw [probeCandidate_of_not_le hvalid hle h.stopped]
        exact ih (h.lower hle _) (by rw [toNat_midpoint_sub]; omega) (by dsimp only; omega)
    · rw [if_neg hgap]
      exact h.found (by omega) hgap

theorem search_path (hbase : o.baseMtu ≤ limit) (hstopped : d.stopped = false)
    (hstate : d.state ≠ .error) :
    let found := bisect o (path o limit b) o.baseMtu (o.maxMtu+1) (started o d)
    search o (path o limit b) d =
      (found.confirmed,{ found with state := .searchComplete }) := by
  rw [search,if_neg (by simp [hstopped,hstate]),probeCandidate_of_le hvalid hbase]
  rfl

/-- For every path that carries the base size, the search ends with a size that the path carries,
less than the granularity below the largest one, after at most 65 sizes, unless the range is all of
the 64-bit numbers: its length is then taken for 0, and the search ends at the base. -/
theorem search_found_iff (hbase : o.baseMtu ≤ limit) (hstopped : d.stopped = false)
    (hstate : d.state ≠ .error) (hreported : ∀ size ∈ d.reported, size ∈ d.acknowledged) :
    Found o limit (d.probesSent+o.maxProbes.toNat*65) (search o (path o limit b) d) ↔
      ¬(o.baseMtu.toNat = 0 ∧ o.maxMtu.toNat+1 = 2^64 ∧ o.granularity ≤ limit) := by
  rw [search_path hvalid hbase hstopped hstate,UInt64.le_iff_toNat_le]
  rw [UInt64.le_iff_toNat_le] at hbase
  have hmax := UInt64.le_iff_toNat_le.mp hvalid.maxMtu
  have hlt := o.maxMtu.toNat_lt
  have hlt' := limit.toNat_lt
  have hprobes := hvalid.maxProbes
  have hstart : ∀ size ∈ (started o d).reported, size ∈ (started o d).acknowledged := by
    simp +contextual [started,or_imp,hreported]
  have hsent : (started o d).probesSent = d.probesSent+1 := rfl
  have hgap : (o.maxMtu+1-o.baseMtu).toNat = (o.maxMtu.toNat+1-o.baseMtu.toNat)%2^64 := by
    simp only [UInt64.toNat_sub,UInt64.toNat_add,UInt64.reduceToNat]
    omega
  by_cases hwrap : o.baseMtu.toNat = 0 ∧ o.maxMtu.toNat+1 = 2^64
  · have hnone : bisect o (path o limit b) o.baseMtu (o.maxMtu+1) (started o d) =
        started o d := by
      rw [bisect,if_neg]
      rw [UInt64.lt_iff_toNat_lt]
      omega
    rw [hnone]
    constructor
    · intro hfound
      have hclose : min limit.toNat o.maxMtu.toNat-o.baseMtu.toNat < o.granularity.toNat :=
        hfound.close
      omega
    · intro hsmall
      have hconfirmed : (started o d).confirmed.toNat = o.baseMtu.toNat := rfl
      exact ⟨hstart,by dsimp only; omega,le_rfl,by dsimp only; omega,by dsimp only; omega⟩
  · have hbracket : Bracket o limit o.baseMtu (o.maxMtu+1) (started o d) :=
      ⟨hstopped,rfl,hstart,le_rfl,by omega,by omega,by omega⟩
    have hfound := bisect_found (k := 64) (b := b) hvalid hbracket (UInt64.toNat_lt _).le le_rfl
    exact iff_of_true ⟨hfound.reported,hfound.sent.trans (by omega),hfound.base,hfound.carried,
      hfound.close⟩ (by omega)

end

theorem search_found_iff_default : Found {} 1500 (0+3*65) (search {} (path {} 1500 true) {}) :=
  (search_found_iff (o := {}) (d := {}) (by constructor <;> decide) (by decide) rfl (by decide)
    (by simp)).mpr (by decide)

/-- All the 64-bit numbers from 0 on: the search ends at 0. -/
theorem search_not_found_full :
    let o : Options := { baseMtu := 0, minMtu := 0, maxMtu := -1, granularity := 1, probeOverhead := 0 }
    o.Valid ∧ (search o (path o 1500 true) {}).1 = 0 := by
  refine ⟨by constructor <;> decide,?_⟩
  rw [search_path (by constructor <;> decide) (by decide) rfl (by decide),bisect]
  rfl

/-- What is confirmed or was reported has been acknowledged. -/
def Honest (d : Discovery) : Prop :=
  ∀ size ∈ d.confirmed::d.reported, size = 0 ∨ size ∈ d.acknowledged

variable {o : Options} {p : Prober} {candidate : UInt64} {d d' : Discovery}

theorem attempts_honest {n : ℕ} {b i : Bool} (hrun : attempts o p candidate n d = (b,i,d'))
    (h : Honest d) : Honest d' ∧ (b = true → Honest (d'.confirm candidate)) := by
  induction n generalizing d with
  | zero => grind [attempts]
  | succ n ih => grind [attempts,Honest,Discovery.confirm]

theorem bisect_honest (h : Honest d) (low ceiling : UInt64) : Honest (bisect o p low ceiling d) := by
  fun_induction bisect o p low ceiling d with
  | case3 _ _ _ _ _ _ _ _ hrun ih => exact ih ((attempts_honest hrun h).2 rfl)
  | case4 _ _ _ _ _ _ _ hrun => exact (attempts_honest hrun h).1
  | case5 _ _ _ _ _ _ _ hrun ih => exact ih (attempts_honest hrun h).1
  | _ => exact h

/-- Whatever the probers of any number of searches answer, also each time otherwise, a size is
confirmed only once it was acknowledged. -/
theorem searches_honest (o : Options) (probers : List Prober) :
    Honest (Runs.after (fun d p => (search o p d).2) {} probers) := by
  refine Runs.after_invariant (fun d p h => ?_) (by simp [Honest]) probers
  have hbase : Honest { d with confirmed := 0, state := .base } := by grind [Honest]
  rw [search]
  split_ifs
  · exact h
  rcases hrun : probeCandidate o p o.baseMtu { d with confirmed := 0, state := .base }
    with ⟨_ | _,i,d⟩
  all_goals have hnext := attempts_honest hrun hbase
  · cases i <;> exact hnext.1
  · exact bisect_honest (d := { d.confirm _ with state := .searching }) (hnext.2 rfl) _ _

end A11.PathMtu
