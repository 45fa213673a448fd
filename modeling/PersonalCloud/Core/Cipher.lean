import PersonalCloud.Core.Protocol

/-! The cryptographic primitives the library supplies, and the wrappers around them. -/
namespace PersonalCloud

namespace Config

def kIvLen : ℕ := 12
def kTagLen : ℕ := 16
def kKeyLen : ℕ := 32
def kSaltLen : ℕ := 16

def kKdfIterations : UInt32 := 100000

/-- Fixed context strings so the two derived keys never collide. -/
def kContentKeyLabel : Bytes := ascii "pcs-content-v1"
def kDedupKeyLabel : Bytes := ascii "pcs-dedup-v1"

end Config

/-- What OpenSSL computes; `none` stands for a call that reports a failure. -/
structure Crypto where
  pbkdf2 : Bytes → Bytes → UInt32 → Option Bytes
  gcmEncrypt : Bytes → Bytes → Bytes → Bytes → Option (Bytes × Bytes)
  gcmDecrypt : Bytes → Bytes → Bytes → Bytes → Bytes → Option Bytes
  hmac : Bytes → Bytes → Bytes

namespace Crypto

variable (C : Crypto)

/-- The label is prefixed to the salt; empty when the derivation fails. -/
def deriveKey (passphrase salt label : Bytes) (iterations : UInt32) : Bytes :=
  (C.pbkdf2 passphrase (label ++ salt) iterations).getD []

/-- The tag key has a fixed salt, since tags must be reproducible across files. -/
def deriveDedupKey (passphrase : Bytes) : Bytes :=
  C.deriveKey passphrase Config.kDedupKeyLabel Config.kDedupKeyLabel Config.kKdfIterations

def aesGcmSeal (key iv aad plain : Bytes) : Option (Bytes × Bytes) :=
  if key.length ≠ Config.kKeyLen ∨ iv.length ≠ Config.kIvLen then none
  else C.gcmEncrypt key iv aad plain

def aesGcmOpen (key iv aad cipher tag : Bytes) : Option Bytes :=
  if key.length ≠ Config.kKeyLen ∨ iv.length ≠ Config.kIvLen then none
  else if tag.length ≠ Config.kTagLen then none
  else C.gcmDecrypt key iv aad cipher tag

end Crypto

def hexDigit (n : UInt8) : UInt8 := if n < 10 then 48 + n else 87 + n

def toHex (data : Bytes) : Bytes :=
  data.flatMap fun c : UInt8 => [hexDigit (c >>> 4), hexDigit (c &&& 0x0F)]

def hexValue (c : UInt8) : Option UInt8 :=
  if 48 ≤ c ∧ c ≤ 57 then some (c - 48)
  else if 97 ≤ c ∧ c ≤ 102 then some (10 + (c - 97))
  else if 65 ≤ c ∧ c ≤ 70 then some (10 + (c - 65))
  else none

/-- Fails on an odd length and on anything but hexadecimal digits. -/
def fromHex : Bytes → Option Bytes
  | [] => some []
  | [_] => none
  | hi :: lo :: rest =>
      match hexValue hi, hexValue lo, fromHex rest with
      | some h, some l, some parsed => some ((h <<< 4 ||| l) :: parsed)
      | _, _, _ => none

theorem toHex_length (data : Bytes) : (toHex data).length = 2 * data.length := by
  induction data with
  | nil => rfl
  | cons c cs ih =>
    simp only [toHex, List.flatMap_cons, List.length_append, List.length_cons, List.length_nil]
      at ih ⊢
    omega

def unhexDigit (c : UInt8) : UInt8 := if c < 97 then c - 48 else c - 87

private theorem unhexDigit_pair (n : Fin 256) :
    unhexDigit (hexDigit (UInt8.ofFin n >>> 4)) <<< 4 |||
      unhexDigit (hexDigit (UInt8.ofFin n &&& 0x0F)) = UInt8.ofFin n := by
  revert n
  decide +kernel

theorem toHex_injective : Function.Injective toHex := by
  have hback (c : UInt8) : unhexDigit (hexDigit (c >>> 4)) <<< 4 |||
      unhexDigit (hexDigit (c &&& 0x0F)) = c := by
    simpa using unhexDigit_pair c.toFin
  intro data
  induction data with
  | nil =>
    intro other h
    cases other with
    | nil => rfl
    | cons c cs => simp [toHex] at h
  | cons c cs ih =>
    intro other h
    cases other with
    | nil => simp [toHex] at h
    | cons b bs =>
      simp only [toHex, List.flatMap_cons, List.cons_append, List.nil_append, List.cons.injEq] at h
      obtain ⟨hhigh, hlow, htail⟩ := h
      rw [← hback c, ← hback b, hhigh, hlow, ih htail]

private theorem hexValue_pair (n : Fin 256) :
    hexValue (hexDigit (UInt8.ofFin n >>> 4)) = some (UInt8.ofFin n >>> 4) ∧
      hexValue (hexDigit (UInt8.ofFin n &&& 0x0F)) = some (UInt8.ofFin n &&& 0x0F) ∧
      (UInt8.ofFin n >>> 4) <<< 4 ||| UInt8.ofFin n &&& 0x0F = UInt8.ofFin n := by
  revert n
  decide +kernel

theorem fromHex_toHex (data : Bytes) : fromHex (toHex data) = some data := by
  induction data with
  | nil => rfl
  | cons c cs ih =>
    obtain ⟨hhigh, hlow, hwhole⟩ := hexValue_pair c.toFin
    have hcons : toHex (c :: cs) = hexDigit (c >>> 4) :: hexDigit (c &&& 0x0F) :: toHex cs := rfl
    rw [hcons, fromHex, ih, show c = UInt8.ofFin c.toFin from rfl, hhigh, hlow]
    exact congrArg (fun x => some (x :: cs)) hwhole

private theorem hexDigit_isLowerHex (n : Fin 16) :
    ((decide (48 ≤ hexDigit (UInt8.ofNat n)) && decide (hexDigit (UInt8.ofNat n) ≤ 57)) ||
      (decide (97 ≤ hexDigit (UInt8.ofNat n)) && decide (hexDigit (UInt8.ofNat n) ≤ 102))) =
      true := by
  revert n
  decide

theorem toHex_isLowerHex (data : Bytes) : ∀ c ∈ toHex data,
    ((decide (48 ≤ c) && decide (c ≤ 57)) || (decide (97 ≤ c) && decide (c ≤ 102))) = true := by
  have hdigit (n : UInt8) (hn : n.toNat < 16) :
      ((decide (48 ≤ hexDigit n) && decide (hexDigit n ≤ 57)) ||
        (decide (97 ≤ hexDigit n) && decide (hexDigit n ≤ 102))) = true := by
    simpa using hexDigit_isLowerHex ⟨n.toNat, hn⟩
  intro c hc
  obtain ⟨b, -, hb⟩ := List.mem_flatMap.mp hc
  rcases List.mem_pair.mp hb with rfl | rfl
  · apply hdigit
    have := b.toNat_lt
    simp only [UInt8.toNat_shiftRight, UInt8.reduceToNat, Nat.shiftRight_eq_div_pow,
      Nat.reduceMod, Nat.reducePow]
    omega
  · apply hdigit
    simp only [UInt8.toNat_and, UInt8.reduceToNat]
    exact lt_of_le_of_lt Nat.and_le_right (by omega)

theorem isSafeChunkId_toHex {data : Bytes} (h : data.length = 32) :
    isSafeChunkId (toHex data) = true := by
  unfold isSafeChunkId
  simp only [decide_eq_true_eq]
  exact ⟨by rw [toHex_length, h], List.all_eq_true.mpr (toHex_isLowerHex data)⟩

theorem toHex_not_mem {data : Bytes} {c : UInt8}
    (hc : ((decide (48 ≤ c) && decide (c ≤ 57)) || (decide (97 ≤ c) && decide (c ≤ 102))) = false) :
    c ∉ toHex data := by
  intro hmem
  rw [toHex_isLowerHex data c hmem] at hc
  exact absurd hc (by decide)

end PersonalCloud
