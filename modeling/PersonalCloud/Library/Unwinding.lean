import PersonalCloud.Library.Machine

/-! Two runs of one machine, one with all events and one that passes the hidden ones by, and a
relation under which they answer the other events alike. -/
namespace Unwinding

open Machine

variable {σ ε ο : Type*} (step idle : σ → ε → σ) (answer : σ → ε → ο) (hidden : σ → ε → Bool)

/-- The step of a machine that passes hidden events by. -/
def pass (s : σ) (e : ε) : σ := if hidden s e then idle s e else step s e

def seen (next : σ → ε → σ) : σ → List ε → List ο
  | _, [] => []
  | s, e :: es =>
      if hidden s e then seen next (next s e) es else answer s e :: seen next (next s e) es

/-- A relation between the two machines: hidden events keep it, other events are answered alike and
keep it as well. -/
structure Unwinds (R : σ → σ → Prop) : Prop where
  hidden_eq : ∀ {s t} (e : ε), R s t → hidden t e = hidden s e
  answer_eq : ∀ {s t} (e : ε), R s t → hidden s e = false → answer t e = answer s e
  step_rel : ∀ {s t} (e : ε), R s t → hidden s e = false → R (step s e) (step t e)
  idle_rel : ∀ {s t} (e : ε), R s t → hidden s e = true → R (step s e) (idle t e)

variable {step idle answer hidden} {R : σ → σ → Prop} {s t : σ}

theorem Unwinds.pass_rel (h : Unwinds step idle answer hidden R) (hst : R s t) (e : ε) :
    R (step s e) (pass step idle hidden t e) := by
  unfold pass
  rw [h.hidden_eq e hst]
  split_ifs with he
  · exact h.idle_rel e hst he
  · exact h.step_rel e hst (Bool.eq_false_iff.mpr he)

theorem Unwinds.run_rel (h : Unwinds step idle answer hidden R) (hst : R s t) (es : List ε) :
    R (run step s es) (run (pass step idle hidden) t es) := by
  induction es generalizing s t with
  | nil => exact hst
  | cons e es ih => exact ih (h.pass_rel hst e)

/-- No event that is not hidden notices whether the hidden ones happen. -/
theorem Unwinds.seen_eq (h : Unwinds step idle answer hidden R) (hst : R s t) (es : List ε) :
    seen answer hidden (pass step idle hidden) t es = seen answer hidden step s es := by
  induction es generalizing s t with
  | nil => rfl
  | cons e es ih =>
    have hrest := ih (h.pass_rel hst e)
    rw [seen, seen, h.hidden_eq e hst, hrest]
    split_ifs with he
    · rfl
    · rw [h.answer_eq e hst (Bool.eq_false_iff.mpr he)]

end Unwinding
