import Mathlib.Tactic

/-! A two-of-four erasure code: two data symbols, their sum, and a second combination
`a d0 + b d1`. The arithmetic is that of a structure of characteristic two in which `a` and
`b = a + 1` can be divided by. -/

structure TwoOfFour (V : Type*) where
  add : V → V → V
  mulA : V → V
  mulB : V → V
  divA : V → V
  divB : V → V
  add_comm : ∀ x y, add x y = add y x
  add_assoc : ∀ x y z, add (add x y) z = add x (add y z)
  add_cancel : ∀ x y, add x (add x y) = y
  mulA_add : ∀ x y, mulA (add x y) = add (mulA x) (mulA y)
  mulB_eq : ∀ x, mulB x = add (mulA x) x
  divA_mulA : ∀ x, divA (mulA x) = x
  divB_mulB : ∀ x, divB (mulB x) = x

namespace TwoOfFour

variable {V : Type*} (C : TwoOfFour V)

def parity0 (d0 d1 : V) : V := C.add d0 d1

def parity1 (d0 d1 : V) : V := C.add (C.mulA d0) (C.mulB d1)

theorem add_cancel_right (x y : V) : C.add (C.add y x) x = y := by
  rw [C.add_comm, C.add_comm y x, C.add_cancel]

theorem second_of_parity0 (d0 d1 : V) : C.add d0 (C.parity0 d0 d1) = d1 := C.add_cancel d0 d1

theorem first_of_parity0 (d0 d1 : V) : C.add d1 (C.parity0 d0 d1) = d0 := by
  rw [parity0, C.add_comm d0 d1, C.add_cancel]

theorem second_of_parity1 (d0 d1 : V) :
    C.divB (C.add (C.parity1 d0 d1) (C.mulA d0)) = d1 := by
  rw [parity1, C.add_comm (C.mulA d0), C.add_cancel_right, C.divB_mulB]

theorem first_of_parity1 (d0 d1 : V) :
    C.divA (C.add (C.parity1 d0 d1) (C.mulB d1)) = d0 := by
  rw [parity1, C.add_cancel_right, C.divA_mulA]

theorem second_of_parities (d0 d1 : V) :
    C.add (C.parity1 d0 d1) (C.mulA (C.parity0 d0 d1)) = d1 := by
  have h : C.add (C.mulA d1) (C.mulB d1) = d1 := by rw [C.mulB_eq, C.add_cancel]
  calc C.add (C.parity1 d0 d1) (C.mulA (C.parity0 d0 d1))
      = C.add (C.add (C.mulA d0) (C.mulB d1)) (C.add (C.mulA d0) (C.mulA d1)) := by
        rw [parity0, parity1, C.mulA_add]
    _ = C.add (C.mulA d1) (C.mulB d1) := by
        rw [C.add_comm (C.add (C.mulA d0) (C.mulB d1)), C.add_comm (C.mulA d0) (C.mulA d1),
          C.add_assoc, C.add_cancel]
    _ = d1 := h

theorem first_of_second_parity0 (d0 d1 : V) : C.add (C.parity0 d0 d1) d1 = d0 :=
  C.add_cancel_right d1 d0

end TwoOfFour
