import A11.Runs

/-! Driving a pump inline. The two sections under the pump's mutex are steps; between them a call
runs one pass of the pump. Calls may be nested in each other or run at the same time. -/
namespace A11.InlinePump
open Runs

structure Pump where
  depth : ℕ := 0
  again : Bool := false
  /-- The calls that run a pass. -/
  running : List ℕ := []
  /-- The passes that have begun so far. -/
  begun : ℕ := 0

inductive Input
  | drive (call : ℕ)
  /-- A pass ends, by returning or by raising an exception. -/
  | passed (call : ℕ)

variable (maxDepth : ℕ+)

def step (s : Pump) : Input → Pump
  | .drive call =>
    if maxDepth ≤ s.depth then { s with again := true }
    else { s with depth := s.depth+1, running := call::s.running, begun := s.begun+1 }
  | .passed call =>
    if call ∈ s.running then
      if s.again then { s with again := false, begun := s.begun+1 }
      else { s with depth := s.depth-1, running := s.running.erase call }
    else s

structure Inv (s : Pump) : Prop where
  depth : s.depth = s.running.length
  capped : s.running.length ≤ maxDepth
  owed : s.again = true → s.running ≠ []

variable {maxDepth}

theorem Inv.step {s : Pump} (h : Inv maxDepth s) (input : Input) :
    Inv maxDepth (step maxDepth s input) := by
  have hpos := maxDepth.pos
  have hdepth := h.depth
  have hcapped := h.capped
  cases input with
  | drive call =>
    rw [InlinePump.step]
    split_ifs with hfull
    · refine { h with owed := fun _ hnone => ?_ }
      have hzero := hdepth.trans (List.length_eq_zero_iff.mpr hnone)
      omega
    · exact ⟨by simp [hdepth],by simp only [List.length_cons]; omega,by simp⟩
  | passed call =>
    rw [InlinePump.step]
    split_ifs with hmem hagain
    · exact { h with owed := by simp }
    · have hlen := List.length_erase_of_mem hmem
      exact ⟨by simp only [hlen,hdepth],by simp only [hlen]; omega,fun h => absurd h hagain⟩
    · exact h

theorem inv_after (inputs : List Input) : Inv maxDepth (after (step maxDepth) {} inputs) :=
  after_invariant (fun _ input h => h.step input) ⟨rfl,by simp,by simp⟩ inputs

/-- A recorded request stays recorded until a pass begins. -/
theorem again_or_begun {s : Pump} (hagain : s.again = true) (inputs : List Input) :
    (after (step maxDepth) s inputs).again = true ∨
      s.begun < (after (step maxDepth) s inputs).begun := by
  refine (after_invariant (I := fun p : Pump => s.begun ≤ p.begun ∧
    (p.again = true ∨ s.begun < p.begun)) (fun p input h => ?_) ⟨le_rfl,.inl hagain⟩ inputs).2
  obtain ⟨_,h⟩ := h
  cases input <;> rw [step] <;> split_ifs <;> simp_all <;> omega

/-- At most as many passes run at a time as the cap allows, no request is left when none runs, and
after a call was turned away a pass begins: until then the request stays recorded and a pass runs
whose end begins the next one. -/
theorem drive_kept (maxDepth : ℕ+) (before later : List Input) (call : ℕ) :
    let s := after (step maxDepth) {} before
    let e := after (step maxDepth) {} (before++.drive call::later)
    e.running.length ≤ maxDepth ∧ (e.running = [] → e.again = false) ∧
      (maxDepth ≤ s.depth → e.again = true ∧ e.running ≠ [] ∨ s.begun < e.begun) ∧
      (e.again = true → ∀ c ∈ e.running, let t := step maxDepth e (.passed c)
        t.begun = e.begun+1 ∧ t.running = e.running) := by
  intro s e
  have h : Inv maxDepth e := inv_after _
  refine ⟨h.capped,fun hnone => ?_,fun hfull => ?_,fun hagain c hc => ?_⟩
  · by_contra hagain
    exact h.owed (by simpa using hagain) hnone
  · have he : e = after (step maxDepth) { s with again := true } later := by
      simp only [e,after_append,after]
      rw [step,if_pos hfull]
    rw [he] at h ⊢
    exact (again_or_begun rfl later).imp_left fun hagain => ⟨hagain,h.owed hagain⟩
  · rw [step,if_pos hc,if_pos hagain]
    exact ⟨rfl,rfl⟩

/-- Two calls that are not turned away run at the same time. -/
theorem drive_overlaps : (after (step 4) {} [.drive 0,.drive 1]).running.length = 2 := rfl

end A11.InlinePump
