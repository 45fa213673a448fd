import Mathlib.Tactic

/-! Numbers as a fixed number of bytes, least significant first, by shifts and masks. -/
namespace LittleEndian

def put (w n : ℕ) : List UInt8 := (List.range w).map fun i => UInt8.ofNat (n >>> (8 * i))

def get (w : ℕ) (p : List UInt8) : ℕ :=
  (List.range w).foldl (fun v i => v ||| (p.getD i 0).toNat <<< (8 * i)) 0

@[simp] theorem put_length (w n : ℕ) : (put w n).length = w := by simp [put]

theorem get_succ (w : ℕ) (p : List UInt8) :
    get (w + 1) p = get w p ||| (p.getD w 0).toNat <<< (8 * w) := by
  simp [get, List.range_succ]

/-- Bit `j` of the number is bit `j % 8` of byte `j / 8`. -/
theorem testBit_get (w : ℕ) (p : List UInt8) (j : ℕ) :
    (get w p).testBit j = (decide (j < 8 * w) && (p.getD (j / 8) 0).toNat.testBit (j % 8)) := by
  induction w with
  | zero => simp [get]
  | succ w ih =>
    rw [get_succ, Nat.testBit_or, ih, Nat.testBit_shiftLeft]
    by_cases hlt : j < 8 * w
    · have hlt' : j < 8 * (w + 1) := by omega
      have hge : ¬ j ≥ 8 * w := by omega
      simp [hlt, hlt', hge]
    · have hge : j ≥ 8 * w := by omega
      by_cases htop : j < 8 * (w + 1)
      · have hdiv : j / 8 = w := by omega
        have hmod : j % 8 = j - 8 * w := by omega
        simp [hlt, hge, htop, hdiv, hmod]
      · have hbyte : (p.getD w 0).toNat < 2 ^ (j - 8 * w) := by
          have h8 : 2 ^ 8 ≤ 2 ^ (j - 8 * w) := Nat.pow_le_pow_right (by omega) (by omega)
          have := (p.getD w 0).toNat_lt
          omega
        simp only [hlt, htop, decide_false, Bool.false_and, Bool.false_or,
          Nat.testBit_lt_two_pow hbyte, Bool.and_false]

theorem get_lt (w : ℕ) (p : List UInt8) : get w p < 2 ^ (8 * w) := by
  refine Nat.lt_pow_two_of_testBit _ fun j hj => ?_
  rw [testBit_get, decide_eq_false (not_lt.mpr hj), Bool.false_and]

theorem testBit_put {w i : ℕ} (n : ℕ) (hi : i < w) (j : ℕ) :
    ((put w n).getD i 0).toNat.testBit j = (decide (j < 8) && n.testBit (8 * i + j)) := by
  have hget : (put w n).getD i 0 = UInt8.ofNat (n >>> (8 * i)) := by
    simp [put, List.getD_eq_getElem?_getD, hi]
  rw [hget, UInt8.toNat_ofNat', Nat.testBit_mod_two_pow, Nat.testBit_shiftRight]

theorem get_put_append {w n : ℕ} (h : n < 2 ^ (8 * w)) (rest : List UInt8) :
    get w (put w n ++ rest) = n := by
  apply Nat.eq_of_testBit_eq
  intro j
  rw [testBit_get]
  by_cases hj : j < 8 * w
  · have hi : j / 8 < w := by omega
    have hleft : (put w n ++ rest).getD (j / 8) 0 = (put w n).getD (j / 8) 0 := by
      rw [List.getD_eq_getElem?_getD, List.getD_eq_getElem?_getD,
        List.getElem?_append_left (by rwa [put_length])]
    have hsplit : 8 * (j / 8) + j % 8 = j := Nat.div_add_mod j 8
    have hmod : j % 8 < 8 := Nat.mod_lt _ (by omega)
    rw [hleft, testBit_put n hi, hsplit]
    simp [hj, hmod]
  · have hle : 2 ^ (8 * w) ≤ 2 ^ j := Nat.pow_le_pow_right (by omega) (by omega)
    simp [hj, Nat.testBit_lt_two_pow (h.trans_le hle)]

theorem get_put {w n : ℕ} (h : n < 2 ^ (8 * w)) : get w (put w n) = n := by
  simpa using get_put_append h []

end LittleEndian
