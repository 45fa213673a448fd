import Mathlib.Tactic

/-! Machines driven by a list of events: conditions met along a run, and what they keep true in
every state of it. -/
namespace Machine

variable {σ ε : Type*} (step : σ → ε → σ)

def run (s : σ) (es : List ε) : σ := es.foldl step s

/-- Each event of the run meets the condition in the state it finds. -/
def Along (C : σ → ε → Prop) : σ → List ε → Prop
  | _, [] => True
  | s, e :: es => C s e ∧ Along C (step s e) es

instance Along.decidable {C : σ → ε → Prop} [∀ s e, Decidable (C s e)] :
    ∀ (s : σ) (es : List ε), Decidable (Along step C s es)
  | _, [] => inferInstanceAs (Decidable True)
  | s, e :: es =>
      haveI := Along.decidable (C := C) (step s e) es
      inferInstanceAs (Decidable (C s e ∧ Along step C (step s e) es))

variable {step} {C D : σ → ε → Prop} {I : σ → Prop} {s : σ} {es : List ε}

@[simp] theorem run_nil (s : σ) : run step s [] = s := rfl

@[simp] theorem run_cons (s : σ) (e : ε) (es : List ε) :
    run step s (e :: es) = run step (step s e) es := rfl

theorem run_append (s : σ) (es fs : List ε) :
    run step s (es ++ fs) = run step (run step s es) fs := List.foldl_append

/-- What each step keeps under the condition holds at the end of the run. -/
theorem inv_run (hstep : ∀ s e, I s → C s e → I (step s e)) (h0 : I s)
    (h : Along step C s es) : I (run step s es) := by
  induction es generalizing s with
  | nil => exact h0
  | cons e es ih => exact ih (hstep s e h0 h.1) h.2

theorem inv_run_all (hstep : ∀ s e, I s → I (step s e)) (h0 : I s) (es : List ε) :
    I (run step s es) := by
  induction es generalizing s with
  | nil => exact h0
  | cons e es ih => exact ih (hstep s e h0)

theorem along_of_forall (h : ∀ e ∈ es, ∀ s, C s e) : Along step C s es := by
  induction es generalizing s with
  | nil => trivial
  | cons e es ih => exact ⟨h e (by simp) s, ih fun x hx => h x (List.mem_cons_of_mem _ hx)⟩

theorem along_and (hC : Along step C s es) (hD : Along step D s es) :
    Along step (fun s e => C s e ∧ D s e) s es := by
  induction es generalizing s with
  | nil => trivial
  | cons e es ih => exact ⟨⟨hC.1, hD.1⟩, ih hC.2 hD.2⟩

theorem along_append {fs : List ε} :
    Along step C s (es ++ fs) ↔ Along step C s es ∧ Along step C (run step s es) fs := by
  induction es generalizing s with
  | nil => exact iff_of_eq (true_and _).symm
  | cons e es ih => exact (and_congr_right fun _ => ih).trans and_assoc.symm

theorem along_take (h : Along step C s es) (k : ℕ) : Along step C s (es.take k) := by
  induction es generalizing s k with
  | nil =>
    rw [List.take_nil]
    trivial
  | cons e es ih =>
    cases k with
    | zero => trivial
    | succ k => exact ⟨h.1, ih h.2 k⟩

theorem inv_run_take (hstep : ∀ s e, I s → C s e → I (step s e)) (h0 : I s)
    (h : Along step C s es) (k : ℕ) : I (run step s (es.take k)) :=
  inv_run hstep h0 (along_take h k)

/-- A step property that follows from the invariant and the condition holds along the run. -/
theorem along_imp (hstep : ∀ s e, I s → C s e → I (step s e))
    (hD : ∀ s e, I s → C s e → D s e) (h0 : I s) (h : Along step C s es) :
    Along step D s es := by
  induction es generalizing s with
  | nil => trivial
  | cons e es ih => exact ⟨hD s e h0 h.1, ih (hstep s e h0 h.1) h.2⟩

/-- A run is over when it has had as many steps as a decreasing measure allows. -/
theorem measure_run {μ : σ → ℕ} (hstep : ∀ s e, I s → C s e → I (step s e))
    (hμ : ∀ s e, I s → C s e → μ (step s e) ≤ μ s - 1) (h0 : I s) (h : Along step C s es)
    (hlen : μ s ≤ es.length) : μ (run step s es) = 0 := by
  induction es generalizing s with
  | nil => simpa using hlen
  | cons e es ih =>
    apply ih (hstep s e h0 h.1) h.2
    have hdown := hμ s e h0 h.1
    rw [List.length_cons] at hlen
    omega

/-- Where every breach of the condition leads to a state that is never left again and the run does
not end in one, the condition was met throughout. -/
theorem along_of_absorbing {B : σ → Prop} (hstep : ∀ s e, I s → I (step s e))
    (hbreach : ∀ s e, I s → ¬ C s e → B (step s e)) (hkeep : ∀ s e, I s → B s → B (step s e))
    (h0 : I s) (hend : ¬ B (run step s es)) : Along step C s es := by
  induction es generalizing s with
  | nil => trivial
  | cons e es ih =>
    refine ⟨?_, ih (hstep s e h0) hend⟩
    by_contra hc
    refine hend (inv_run_all (I := fun s => I s ∧ B s) ?_
      ⟨hstep s e h0, hbreach s e h0 hc⟩ es).2
    exact fun s e hs => ⟨hstep s e hs.1, hkeep s e hs.1 hs.2⟩

/-- When a step keeps the invariant exactly under the condition, the invariant holds throughout a
run exactly if the condition is met along it. -/
theorem inv_iff_along (hstep : ∀ s e, I s → (I (step s e) ↔ C s e)) (h0 : I s) :
    (∀ k, I (run step s (es.take k))) ↔ Along step C s es := by
  constructor
  · intro h
    induction es generalizing s with
    | nil => trivial
    | cons e es ih =>
      have h1 : I (step s e) := by simpa using h 1
      exact ⟨(hstep s e h0).mp h1, ih h1 fun k => by simpa using h (k + 1)⟩
  · exact fun h => inv_run_take (fun s e hs => (hstep s e hs).mpr) h0 h

end Machine
