import PersonalCloud.Library.Machine

/-! Machines that answer each event, and what it means that one refines another: it takes the steps
of the other machine, on labels read off its own state, and gives answers the other allows. -/
namespace Machine

variable {σ ε ρ τ δ : Type*}

/-- One value for each event of a run, read off in the state the event finds. -/
def trace (step : σ → ε → σ) (out : σ → ε → ρ) : σ → List ε → List ρ
  | _, [] => []
  | s, e :: es => out s e :: trace step out (step s e) es

variable {step : σ → ε → σ} {C : σ → ε → Prop} {s : σ} {es : List ε}

@[simp] theorem trace_nil (out : σ → ε → ρ) (s : σ) : trace step out s [] = [] := rfl

@[simp] theorem trace_cons (out : σ → ε → ρ) (s : σ) (e : ε) (es : List ε) :
    trace step out s (e :: es) = out s e :: trace step out (step s e) es := rfl

/-- A machine on labels, driven by pairs of a label and the answer it was given. -/
def labelled (step' : τ → δ → τ) : τ → δ × ρ → τ := fun t x => step' t x.1

/-- Under the condition each event is a step of the abstract machine between the abstractions, and
its answer is one that machine allows. -/
structure Refines (step : σ → ε → σ) (out : σ → ε → ρ) (C : σ → ε → Prop) (step' : τ → δ → τ)
    (allows : τ → δ → ρ → Prop) (abs : σ → τ) (label : σ → ε → δ) : Prop where
  step_abs : ∀ s e, C s e → abs (step s e) = step' (abs s) (label s e)
  out_allowed : ∀ s e, C s e → allows (abs s) (label s e) (out s e)

variable {out : σ → ε → ρ} {step' : τ → δ → τ} {allows : τ → δ → ρ → Prop} {abs : σ → τ}
  {label : σ → ε → δ}

/-- A run of the concrete machine is a run of the abstract one, with allowed answers throughout. -/
theorem Refines.run (h : Refines step out C step' allows abs label) (hC : Along step C s es) :
    abs (run step s es) = Machine.run (labelled step') (abs s)
      (trace step (fun s e => (label s e, out s e)) s es) ∧
    Along (labelled step') (fun t x => allows t x.1 x.2) (abs s)
      (trace step (fun s e => (label s e, out s e)) s es) := by
  induction es generalizing s with
  | nil => exact ⟨rfl, trivial⟩
  | cons e es ih =>
    obtain ⟨hrun, halong⟩ := ih hC.2
    have hstep : labelled step' (abs s) (label s e, out s e) = abs (step s e) :=
      (h.step_abs s e hC.1).symm
    rw [trace_cons, run_cons, run_cons, hstep]
    refine ⟨hrun, h.out_allowed s e hC.1, ?_⟩
    rw [hstep]
    exact halong

end Machine
