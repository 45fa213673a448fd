import Mathlib.Algebra.Order.Floor.Div
import Mathlib.Data.Int.Log
import Mathlib.Tactic

/-! Floating point numbers with a significand of 53 bits, where neither overflow nor underflow
occurs: rounding of what is not negative, to the nearest and in a tie to the even neighbour. -/
namespace Double

/-- The nearest integer, in a tie the even one. -/
def nearest (x : ℚ) : ℤ :=
  if x - ⌊x⌋ < 1 / 2 ∨ (x - ⌊x⌋ = 1 / 2 ∧ ⌊x⌋ % 2 = 0) then ⌊x⌋ else ⌊x⌋ + 1

def ulp (x : ℚ) : ℚ := 2 ^ (Int.log 2 x - 52)

def round (x : ℚ) : ℚ := if x ≤ 0 then 0 else nearest (x / ulp x) * ulp x

/-- From here on not every integer is a number of the format. -/
def limit : ℕ := 2 ^ 53

/-! Integers stay integers under rounding. -/

def ofNat (n : ℕ) : ℕ := ⌊round n⌋₊

def add (a b : ℕ) : ℕ := ⌊round (a + b)⌋₊

def ceilDiv (a b : ℕ) : ℕ := ⌈round (a / b)⌉₊

theorem nearest_intCast (z : ℤ) : nearest z = z := by
  simp [nearest]

theorem floor_le_nearest (x : ℚ) : ⌊x⌋ ≤ nearest x := by
  unfold nearest
  split_ifs <;> omega

theorem ulp_pos (x : ℚ) : 0 < ulp x := by
  unfold ulp
  positivity

theorem round_eq_self {m : ℕ} {e : ℤ} (hm : m < limit) : round (m * 2 ^ e) = m * 2 ^ e := by
  unfold round
  rcases Nat.eq_zero_or_pos m with rfl | hpos
  · simp
  · have hx : (0 : ℚ) < m * 2 ^ e := by positivity
    rw [if_neg (not_le.mpr hx)]
    -- the last bit weighs no more than the unit of `m`
    have hlog : Int.log 2 ((m : ℚ) * 2 ^ e) - 52 ≤ e := by
      have hlt : (m : ℚ) * 2 ^ e < (2 : ℕ) ^ (e + 53) := by
        have hm' : (m : ℚ) < 2 ^ 53 := by exact_mod_cast hm
        rw [Nat.cast_ofNat, zpow_add₀ (by norm_num), mul_comm ((2 : ℚ) ^ e)]
        exact mul_lt_mul_of_pos_right (by exact_mod_cast hm') (by positivity)
      have := (Int.lt_zpow_iff_log_lt (by norm_num) hx).mp hlt
      omega
    obtain ⟨k, hk⟩ := Int.eq_ofNat_of_zero_le (sub_nonneg.mpr hlog)
    have hquot : (m : ℚ) * 2 ^ e / ulp (m * 2 ^ e) = ((m * 2 ^ k : ℕ) : ℤ) := by
      rw [ulp, mul_div_assoc, ← zpow_sub₀ (by norm_num), hk]
      push_cast
      norm_num
    rw [hquot, nearest_intCast, ← hquot, div_mul_cancel₀ _ (ulp_pos _).ne']

theorem round_natCast {n : ℕ} (h : n ≤ limit) : round n = n := by
  rcases h.lt_or_eq with h | rfl
  · simpa using round_eq_self (e := 0) h
  · have hone : (1 : ℕ) < limit := by decide
    have hlimit : (limit : ℚ) = (1 : ℕ) * 2 ^ (53 : ℤ) := by norm_num [limit]
    rw [hlimit, round_eq_self hone]

theorem limit_le_round {x : ℚ} (h : (limit : ℚ) ≤ x) : (limit : ℚ) ≤ round x := by
  have hx : 0 < x := lt_of_lt_of_le (by norm_num [limit]) h
  rw [round, if_neg (not_le.mpr hx)]
  have hlog : 53 ≤ Int.log 2 x := by
    refine (Int.zpow_le_iff_le_log (by norm_num) hx).mp (le_trans (le_of_eq ?_) h)
    norm_num [limit]
  have hscale : ((2 ^ 52 : ℤ) : ℚ) ≤ x / ulp x := by
    rw [le_div_iff₀ (ulp_pos x), ulp]
    have hself := Int.zpow_log_le_self (b := 2) (by norm_num) hx
    calc ((2 ^ 52 : ℤ) : ℚ) * 2 ^ (Int.log 2 x - 52) = 2 ^ (52 + (Int.log 2 x - 52)) := by
          rw [zpow_add₀ (by norm_num)]
          norm_num
      _ = (2 : ℕ) ^ Int.log 2 x := by
          congr 1
          ring
      _ ≤ x := hself
  have hnear : (2 ^ 52 : ℤ) ≤ nearest (x / ulp x) :=
    (Int.le_floor.mpr hscale).trans (floor_le_nearest _)
  have hulp : (2 : ℚ) ≤ ulp x := by
    rw [ulp]
    calc (2 : ℚ) = 2 ^ (1 : ℤ) := by norm_num
      _ ≤ 2 ^ (Int.log 2 x - 52) := zpow_le_zpow_right₀ (by norm_num) (by omega)
  calc (limit : ℚ) = ((2 ^ 52 : ℤ) : ℚ) * 2 := by norm_num [limit]
    _ ≤ nearest (x / ulp x) * ulp x := by
      refine mul_le_mul (by exact_mod_cast hnear) hulp (by norm_num) ?_
      exact le_trans (by norm_num) (Int.cast_le.mpr hnear)

theorem ofNat_eq {n : ℕ} (h : n ≤ limit) : ofNat n = n := by
  rw [ofNat, round_natCast h, Nat.floor_natCast]

theorem add_eq {a b : ℕ} (h : a + b ≤ limit) : add a b = a + b := by
  rw [add, ← Nat.cast_add, round_natCast h, Nat.floor_natCast]

theorem limit_le_add {a b : ℕ} (h : limit ≤ a + b) : limit ≤ add a b := by
  refine Nat.le_floor (limit_le_round ?_)
  exact_mod_cast h

theorem ceilDiv_two_pow {n k : ℕ} (h : n < limit) :
    ceilDiv n (2 ^ k) = (n + 2 ^ k - 1) / 2 ^ k := by
  have hdiv : (n : ℚ) / ((2 ^ k : ℕ) : ℚ) = n * 2 ^ (-(k : ℤ)) := by
    rw [zpow_neg, zpow_natCast, ← div_eq_mul_inv, Nat.cast_pow, Nat.cast_ofNat]
  rw [ceilDiv, hdiv, round_eq_self h, ← hdiv, ← Nat.ceilDiv_eq_add_pred_div]
  refine eq_of_forall_ge_iff fun c => ?_
  rw [Nat.ceil_le, div_le_iff₀ (by positivity), ceilDiv_le_iff_le_mul (by positivity), mul_comm]
  norm_cast

end Double
