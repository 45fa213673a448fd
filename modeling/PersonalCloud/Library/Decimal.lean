import Mathlib.Tactic

/-! Decimal text of natural numbers as byte strings, and the value a digit string denotes. -/
namespace Decimal

def digitByte (d : ℕ) : UInt8 := UInt8.ofNat (48 + d)

def text (n : ℕ) : List UInt8 := (Nat.toDigits 10 n).map fun c => UInt8.ofNat c.toNat

def signedText : ℤ → List UInt8
  | .ofNat n => text n
  | .negSucc n => 45 :: text (n + 1)

def isDigit (c : UInt8) : Bool := decide (48 ≤ c) && decide (c ≤ 57)

/-- The value of a digit string read after a prefix of value `v`. -/
def valueFrom (v : ℕ) (cs : List UInt8) : ℕ := cs.foldl (fun v c => 10 * v + (c.toNat - 48)) v

def value (cs : List UInt8) : ℕ := valueFrom 0 cs

theorem digitByte_toNat {d : ℕ} (h : d < 10) : (digitByte d).toNat = 48 + d := by
  rw [digitByte, UInt8.toNat_ofNat']
  omega

theorem isDigit_iff (c : UInt8) : isDigit c = true ↔ 48 ≤ c.toNat ∧ c.toNat ≤ 57 := by
  simp [isDigit, UInt8.le_iff_toNat_le]

theorem isDigit_digitByte {d : ℕ} (h : d < 10) : isDigit (digitByte d) = true := by
  rw [isDigit_iff, digitByte_toNat h]
  omega

theorem text_of_lt {n : ℕ} (h : n < 10) : text n = [digitByte n] := by
  simp [text, Nat.toDigits_of_lt_base h, digitByte, Nat.toNat_digitChar_of_lt_ten h]

theorem text_of_le {n : ℕ} (h : 10 ≤ n) : text n = text (n / 10) ++ [digitByte (n % 10)] := by
  have hd : n % 10 < 10 := Nat.mod_lt _ (by omega)
  simp [text, Nat.toDigits_of_base_le (by omega) h, digitByte, Nat.toNat_digitChar_of_lt_ten hd]

/-- Induction along the text: a single digit, or a shorter number followed by a digit. -/
theorem text_induction {P : ℕ → Prop} (single : ∀ n, n < 10 → P n)
    (snoc : ∀ n, 10 ≤ n → P (n / 10) → P n) (n : ℕ) : P n := by
  induction n using Nat.strong_induction_on with
  | _ n ih =>
    by_cases h : n < 10
    · exact single n h
    · exact snoc n (by omega) (ih (n / 10) (by omega))

theorem text_ne_nil (n : ℕ) : text n ≠ [] := by
  by_cases h : n < 10
  · simp [text_of_lt h]
  · simp [text_of_le (by omega : 10 ≤ n)]

theorem text_digits (n : ℕ) : ∀ c ∈ text n, isDigit c = true := by
  induction n using text_induction with
  | single n h => simp [text_of_lt h, isDigit_digitByte h]
  | snoc n h ih =>
    have hd : n % 10 < 10 := Nat.mod_lt _ (by omega)
    intro c hc
    rw [text_of_le h, List.mem_append, List.mem_singleton] at hc
    rcases hc with hc | rfl
    · exact ih c hc
    · exact isDigit_digitByte hd

theorem text_head_ne {n : ℕ} (h : n ≠ 0) : (text n).head? ≠ some 48 := by
  induction n using text_induction with
  | single n hn =>
    intro hhead
    have hdigit : digitByte n = 48 := by simpa [text_of_lt hn] using hhead
    have hvalue := digitByte_toNat hn
    rw [hdigit] at hvalue
    exact h (by simpa using hvalue)
  | snoc n hn ih =>
    have hne : n / 10 ≠ 0 := by omega
    rw [text_of_le hn, List.head?_append_of_ne_nil _ (text_ne_nil _)]
    exact ih hne

theorem text_not_mem {n : ℕ} {c : UInt8} (hc : isDigit c = false) : c ∉ text n := by
  intro h
  rw [text_digits n c h] at hc
  contradiction

theorem signedText_ne_nil (z : ℤ) : signedText z ≠ [] := by
  cases z with
  | ofNat n => exact text_ne_nil n
  | negSucc n => simp [signedText]

theorem signedText_not_mem {z : ℤ} {c : UInt8} (hc : isDigit c = false) (hminus : c ≠ 45) :
    c ∉ signedText z := by
  cases z with
  | ofNat n => exact text_not_mem hc
  | negSucc n => simp [signedText, hminus, text_not_mem hc]

theorem value_text (n : ℕ) : value (text n) = n := by
  induction n using text_induction with
  | single n h => simp [text_of_lt h, value, valueFrom, digitByte_toNat h]
  | snoc n h ih =>
    have hd : n % 10 < 10 := Nat.mod_lt _ (by omega)
    simp only [value, valueFrom] at ih
    rw [text_of_le h, value, valueFrom, List.foldl_append, ih]
    simp only [List.foldl_cons, List.foldl_nil, digitByte_toNat hd]
    omega

theorem text_length_le {n k : ℕ} (hk : 0 < k) (h : n < 10 ^ k) : (text n).length ≤ k := by
  induction n using text_induction generalizing k with
  | single n hn =>
    simp only [text_of_lt hn, List.length_singleton]
    omega
  | snoc n hn ih =>
    cases k with
    | zero => omega
    | succ k =>
      have hk' : 0 < k := by
        rcases Nat.eq_zero_or_pos k with rfl | hk'
        · simp at h; omega
        · exact hk'
      have hdiv : n / 10 < 10 ^ k := by
        rw [Nat.div_lt_iff_lt_mul (by omega)]
        simpa [pow_succ] using h
      have := ih hk' hdiv
      simp only [text_of_le hn, List.length_append, List.length_singleton]
      omega

theorem le_valueFrom (v : ℕ) (cs : List UInt8) : v ≤ valueFrom v cs := by
  induction cs generalizing v with
  | nil => exact le_rfl
  | cons c cs ih =>
    have := ih (10 * v + (c.toNat - 48))
    simp only [valueFrom, List.foldl_cons] at *
    omega

end Decimal
