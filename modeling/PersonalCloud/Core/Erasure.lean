import PersonalCloud.Core.Protocol
import PersonalCloud.Library.TwoOfFour

/-! Byte arithmetic in GF(2^8) with the polynomial 0x11B and the byte-wise two-of-four
erasure code built on it. -/
namespace PersonalCloud

/-- One doubling step: shift, and reduce by x^8 + x^4 + x^3 + x + 1 on a carry. -/
def gfDouble (a : UInt8) : UInt8 :=
  if a &&& 0x80 ≠ 0 then a <<< 1 ^^^ 0x1B else a <<< 1

/-- The shift-and-add loop; `fuel` bounds the number of rounds. -/
def gfMulLoop : ℕ → UInt8 → UInt8 → UInt8 → UInt8
  | 0, result, _, _ => result
  | fuel + 1, result, a, b =>
      if b = 0 then result
      else gfMulLoop fuel (if b &&& 1 ≠ 0 then result ^^^ a else result) (gfDouble a) (b >>> 1)

/-- A byte is shifted to zero in eight rounds. -/
def gfMul (a b : UInt8) : UInt8 := gfMulLoop 8 0 a b

/-- Inverse by search over the nonzero candidates in increasing order. -/
def gfInv (x : UInt8) : UInt8 :=
  if x = 0 then 0
  else (((List.range 255).map fun i => UInt8.ofNat (i + 1)).find? fun c => gfMul x c = 1).getD 0

def xorInto (a b : Bytes) : Bytes := List.zipWith (· ^^^ ·) a b

inductive Shard where
  | d0 | d1 | p0 | p1
  deriving DecidableEq, Repr

def makeParity0 (d0 d1 : Bytes) : Bytes := xorInto d0 d1

def makeParity1 (d0 d1 : Bytes) : Bytes := List.zipWith (fun a b => gfMul a 2 ^^^ gfMul b 3) d0 d1

structure ShardPair where
  a : Shard
  b : Shard
  deriving DecidableEq, Repr

/-- Cheapest first: the plain copy, the XOR cases, then those that need an inverse. -/
def pairOrder : List ShardPair :=
  [⟨.d0, .d1⟩, ⟨.d0, .p0⟩, ⟨.d1, .p0⟩, ⟨.d0, .p1⟩, ⟨.d1, .p1⟩, ⟨.p0, .p1⟩]

def choosePair (present : Shard → Bool) : Option ShardPair :=
  pairOrder.find? fun c => present c.a && present c.b

/-- Rebuilds both data shards from the chosen pair, or fails for a pair without a rule. -/
def reconstruct (pair : ShardPair) (a b : Bytes) : Option (Bytes × Bytes) :=
  match pair.a, pair.b with
  | .d0, .d1 => some (a, b)
  | .d0, .p0 => some (a, xorInto a b)
  | .d1, .p0 => some (xorInto a b, a)
  | .d0, .p1 =>
      some (a, List.zipWith (fun x y => gfMul (y ^^^ gfMul x 2) (gfInv 3)) a b)
  | .d1, .p1 =>
      some (List.zipWith (fun x y => gfMul (y ^^^ gfMul x 3) (gfInv 2)) a b, a)
  | .p0, .p1 =>
      let d1 := List.zipWith (fun x y => y ^^^ gfMul x 2) a b
      some (xorInto a d1, d1)
  | _, _ => none

private theorem and_xor_right (a b c : UInt8) : (a ^^^ b) &&& c = (a &&& c) ^^^ (b &&& c) := by
  apply UInt8.toBitVec_inj.mp
  ext i
  simp [Bool.and_xor_distrib_right]

private theorem forall_byte {P : UInt8 → Prop} (h : ∀ n : Fin 256, P (UInt8.ofFin n)) (x : UInt8) :
    P x := by
  have hx := h x.toFin
  rwa [UInt8.ofFin_toFin] at hx

private theorem top_bit : ∀ a : UInt8, a &&& 0x80 = 0 ∨ a &&& 0x80 = 0x80 :=
  forall_byte (by decide +kernel)

theorem gfDouble_xor (a b : UInt8) : gfDouble (a ^^^ b) = gfDouble a ^^^ gfDouble b := by
  have hshift : (a ^^^ b) <<< 1 = a <<< 1 ^^^ b <<< 1 := UInt8.shiftLeft_xor
  simp only [gfDouble, and_xor_right, hshift]
  rcases top_bit a with ha | ha <;> rcases top_bit b with hb | hb <;> simp [ha, hb]
  · ac_rfl
  · ac_rfl
  · rw [UInt8.xor_comm (b <<< 1), UInt8.xor_assoc, ← UInt8.xor_assoc 27]
    simp

theorem gfMul_two (a : UInt8) : gfMul a 2 = gfDouble a := by
  have h : gfMul a 2 = 0 ^^^ gfDouble a := rfl
  rw [h, UInt8.zero_xor]

theorem gfMul_three (a : UInt8) : gfMul a 3 = gfDouble a ^^^ a := by
  have h : gfMul a 3 = 0 ^^^ a ^^^ gfDouble a := rfl
  rw [h, UInt8.zero_xor, UInt8.xor_comm]

theorem gfInv_two : gfInv 2 = 0x8D := by decide +kernel

theorem gfInv_three : gfInv 3 = 0xF6 := by decide +kernel

private theorem halve_double : ∀ x : UInt8, gfMul (gfMul x 2) 0x8D = x :=
  forall_byte (by decide +kernel)

private theorem third_triple : ∀ x : UInt8, gfMul (gfMul x 3) 0xF6 = x :=
  forall_byte (by decide +kernel)

def byteCode : TwoOfFour UInt8 where
  add := (· ^^^ ·)
  mulA x := gfMul x 2
  mulB x := gfMul x 3
  divA x := gfMul x (gfInv 2)
  divB x := gfMul x (gfInv 3)
  add_comm := UInt8.xor_comm
  add_assoc := UInt8.xor_assoc
  add_cancel x y := by rw [← UInt8.xor_assoc, UInt8.xor_self, UInt8.zero_xor]
  mulA_add x y := by simp only [gfMul_two, gfDouble_xor]
  mulB_eq x := by rw [gfMul_three, gfMul_two]
  divA_mulA x := by rw [gfInv_two, halve_double]
  divB_mulB x := by rw [gfInv_three, third_triple]

def shardOf (d0 d1 : Bytes) : Shard → Bytes
  | .d0 => d0
  | .d1 => d1
  | .p0 => makeParity0 d0 d1
  | .p1 => makeParity1 d0 d1

theorem shardOf_length {d0 d1 : Bytes} (h : d0.length = d1.length) (i : Shard) :
    (shardOf d0 d1 i).length = d0.length := by
  cases i <;> simp [shardOf, makeParity0, makeParity1, xorInto, h]

private theorem zipWith_zipWith_left {f g : UInt8 → UInt8 → UInt8} (h : ∀ x y, f x (g x y) = y)
    {xs ys : Bytes} (hl : xs.length = ys.length) :
    List.zipWith f xs (List.zipWith g xs ys) = ys := by
  induction xs generalizing ys with
  | nil => simpa using (List.eq_nil_of_length_eq_zero hl.symm).symm
  | cons x xs ih =>
    cases ys with
    | nil => simp at hl
    | cons y ys => simp [h, ih (by simpa using hl)]

private theorem zipWith_zipWith_right {f g : UInt8 → UInt8 → UInt8} (h : ∀ x y, f y (g x y) = x)
    {xs ys : Bytes} (hl : xs.length = ys.length) :
    List.zipWith f ys (List.zipWith g xs ys) = xs := by
  induction xs generalizing ys with
  | nil => simp
  | cons x xs ih =>
    cases ys with
    | nil => simp at hl
    | cons y ys => simp [h, ih (by simpa using hl)]

private theorem zipWith_parities {f g k : UInt8 → UInt8 → UInt8} {r : UInt8 → UInt8 → UInt8}
    (h : ∀ x y, k (f x y) (g x y) = r x y) (xs ys : Bytes) :
    List.zipWith k (List.zipWith f xs ys) (List.zipWith g xs ys) = List.zipWith r xs ys := by
  induction xs generalizing ys with
  | nil => simp
  | cons x xs ih =>
    cases ys with
    | nil => simp
    | cons y ys => simp [h, ih]

private theorem zipWith_second {xs ys : Bytes} (hl : xs.length = ys.length) :
    List.zipWith (fun _ y => y) xs ys = ys := by
  induction xs generalizing ys with
  | nil => simpa using (List.eq_nil_of_length_eq_zero hl.symm).symm
  | cons x xs ih =>
    cases ys with
    | nil => simp at hl
    | cons y ys => simp [ih (by simpa using hl)]

private theorem byte_d0_p0 (x y : UInt8) : x ^^^ (x ^^^ y) = y := byteCode.second_of_parity0 x y

private theorem byte_d1_p0 (x y : UInt8) : y ^^^ (x ^^^ y) = x := byteCode.first_of_parity0 x y

private theorem byte_d0_p1 (x y : UInt8) :
    gfMul ((gfMul x 2 ^^^ gfMul y 3) ^^^ gfMul x 2) (gfInv 3) = y :=
  byteCode.second_of_parity1 x y

private theorem byte_d1_p1 (x y : UInt8) :
    gfMul ((gfMul x 2 ^^^ gfMul y 3) ^^^ gfMul y 3) (gfInv 2) = x :=
  byteCode.first_of_parity1 x y

private theorem byte_p0_p1 (x y : UInt8) : (gfMul x 2 ^^^ gfMul y 3) ^^^ gfMul (x ^^^ y) 2 = y :=
  byteCode.second_of_parities x y

private theorem byte_p0_d1 (x y : UInt8) : (x ^^^ y) ^^^ y = x :=
  byteCode.first_of_second_parity0 x y

private theorem zipWith_parity0_second {xs ys : Bytes} (hl : xs.length = ys.length) :
    xorInto (makeParity0 xs ys) ys = xs := by
  induction xs generalizing ys with
  | nil => simp [makeParity0, xorInto]
  | cons x xs ih =>
    cases ys with
    | nil => simp at hl
    | cons y ys =>
      have ht : xorInto (makeParity0 xs ys) ys = xs := ih (by simpa using hl)
      simp only [makeParity0, xorInto] at ht
      simp only [makeParity0, xorInto, List.zipWith_cons_cons, byte_p0_d1, ht]

/-- Every pair the joiner may choose gives both halves back. -/
theorem reconstruct_shardOf {d0 d1 : Bytes} (h : d0.length = d1.length) {pair : ShardPair}
    (hp : pair ∈ pairOrder) :
    reconstruct pair (shardOf d0 d1 pair.a) (shardOf d0 d1 pair.b) = some (d0, d1) := by
  simp only [pairOrder, List.mem_cons, List.not_mem_nil, or_false] at hp
  rcases hp with rfl | rfl | rfl | rfl | rfl | rfl <;>
    simp only [reconstruct, shardOf, Option.some.injEq, Prod.mk.injEq, true_and, and_true]
  · exact zipWith_zipWith_left byte_d0_p0 h
  · exact zipWith_zipWith_right byte_d1_p0 h
  · exact zipWith_zipWith_left (f := fun x y => gfMul (y ^^^ gfMul x 2) (gfInv 3)) byte_d0_p1 h
  · exact zipWith_zipWith_right (f := fun x y => gfMul (y ^^^ gfMul x 3) (gfInv 2)) byte_d1_p1 h
  · have hd1 : List.zipWith (fun x y => y ^^^ gfMul x 2) (makeParity0 d0 d1)
        (makeParity1 d0 d1) = d1 :=
      (zipWith_parities (k := fun x y => y ^^^ gfMul x 2) (r := fun _ y => y) byte_p0_p1 d0 d1).trans
        (zipWith_second h)
    rw [hd1]
    exact ⟨zipWith_parity0_second h, rfl⟩

theorem choosePair_isSome {present : Shard → Bool} {i j : Shard} (hne : i ≠ j)
    (hi : present i = true) (hj : present j = true) : (choosePair present).isSome = true := by
  rw [choosePair, List.find?_isSome]
  cases i <;> cases j <;> simp_all [pairOrder]

theorem choosePair_sound {present : Shard → Bool} {pair : ShardPair}
    (h : choosePair present = some pair) :
    pair ∈ pairOrder ∧ present pair.a = true ∧ present pair.b = true := by
  have hmem := List.mem_of_find?_eq_some h
  have hp := List.find?_some h
  simp only [Bool.and_eq_true] at hp
  exact ⟨hmem, hp.1, hp.2⟩

end PersonalCloud
