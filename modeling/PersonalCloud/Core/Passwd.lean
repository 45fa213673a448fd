import PersonalCloud.Core.Cipher

/-! Password verifiers. -/
namespace PersonalCloud

open Proto

def Config.kPasswordIterations : UInt32 := 600000

namespace Passwd

def kScheme : Bytes := ascii "pbkdf2-sha256"
def kSaltLen : ℕ := 16
def kHashLen : ℕ := 32

/-- A label of its own, so that a verifier never equals a file key of the same secret. -/
def kLabel : Bytes := ascii "pcs-password-v1"

def stretch (C : Crypto) (password salt : Bytes) (iterations : UInt32) : Bytes :=
  C.deriveKey password salt kLabel iterations

/-- The verifier of a password under a random salt; empty when there is no salt or the derivation
fails. -/
def hashPassword (C : Crypto) (salt password : Bytes) (iterations : UInt32) : Bytes :=
  let iterations := if iterations = 0 then Config.kPasswordIterations else iterations
  if salt.length ≠ kSaltLen then []
  else
    let hash := stretch C password salt iterations
    if hash.length ≠ kHashLen then []
    else kScheme ++ ascii "$" ++ Decimal.text iterations.toNat ++ ascii "$" ++ toHex salt ++
      ascii "$" ++ toHex hash

structure Parsed where
  iterations : UInt32
  salt : Bytes
  hash : Bytes

def parse (verifier : Bytes) : Option Parsed :=
  match verifier.splitOn 36 with
  | [scheme, iterations, salt, hash] =>
      if scheme ≠ kScheme then none
      else
        match parseSize iterations 100000000, fromHex salt, fromHex hash with
        | some iterations, some salt, some hash =>
            if iterations = 0 ∨ salt = [] ∨ hash.length ≠ kHashLen then none
            else some ⟨iterations.toUInt32, salt, hash⟩
        | _, _, _ => none
  | _ => none

def verifyPassword (C : Crypto) (password verifier : Bytes) : Bool :=
  match parse verifier with
  | none => false
  | some parsed =>
      let candidate := stretch C password parsed.salt parsed.iterations
      if candidate.length ≠ parsed.hash.length then false
      else decide (toHex candidate = toHex parsed.hash)

theorem hashPassword_not_mem (C : Crypto) (salt password : Bytes) (iterations : UInt32) {c : UInt8}
    (hc : c = 32 ∨ c = 10) : c ∉ hashPassword C salt password iterations := by
  have hscheme : c ∉ kScheme ∧ c ∉ ascii "$" := by
    rcases hc with rfl | rfl <;> decide
  have hdigit : Decimal.isDigit c = false := by
    rcases hc with rfl | rfl <;> decide
  have hhex : c ∉ toHex salt ∧ ∀ hash, c ∉ toHex hash := by
    have hnot : ((decide (48 ≤ c) && decide (c ≤ 57)) ||
        (decide (97 ≤ c) && decide (c ≤ 102))) = false := by
      rcases hc with rfl | rfl <;> decide
    exact ⟨toHex_not_mem hnot, fun hash => toHex_not_mem hnot⟩
  simp only [hashPassword]
  generalize (if iterations = 0 then Config.kPasswordIterations else iterations) = count
  split_ifs
  · exact List.not_mem_nil
  · exact List.not_mem_nil
  · simp only [List.mem_append, hscheme.1, hscheme.2, Decimal.text_not_mem hdigit, hhex.1, hhex.2,
      or_self, not_false_eq_true]

theorem isWord_hashPassword {C : Crypto} {salt password : Bytes} {iterations : UInt32}
    (h : hashPassword C salt password iterations ≠ []) :
    IsWord (hashPassword C salt password iterations) :=
  isWord_iff.mpr ⟨h, hashPassword_not_mem C salt password iterations (.inl rfl)⟩

variable {C : Crypto} {salt password : Bytes} {iterations : UInt32}

theorem hashPassword_eq (hpos : iterations ≠ 0) (h : hashPassword C salt password iterations ≠ []) :
    salt.length = kSaltLen ∧ (stretch C password salt iterations).length = kHashLen ∧
      hashPassword C salt password iterations = kScheme ++ 36 :: (Decimal.text iterations.toNat ++
        36 :: (toHex salt ++ 36 :: toHex (stretch C password salt iterations))) := by
  have hdollar : ascii "$" = [36] := rfl
  unfold hashPassword at h ⊢
  simp only [if_neg hpos] at h ⊢
  by_cases hsalt : salt.length ≠ kSaltLen
  · exact absurd (if_pos hsalt) h
  rw [if_neg hsalt] at h ⊢
  by_cases hhash : (stretch C password salt iterations).length ≠ kHashLen
  · exact absurd (if_pos hhash) h
  rw [if_neg hhash, hdollar]
  exact ⟨not_not.mp hsalt, not_not.mp hhash, by simp⟩

theorem splitOn_hashPassword (hpos : iterations ≠ 0)
    (h : hashPassword C salt password iterations ≠ []) :
    (hashPassword C salt password iterations).splitOn 36 =
      [kScheme, Decimal.text iterations.toNat, toHex salt,
        toHex (stretch C password salt iterations)] := by
  obtain ⟨-, -, heq⟩ := hashPassword_eq hpos h
  have hnot (x : Bytes) : (36 : UInt8) ∉ toHex x := toHex_not_mem (by decide)
  have hscheme : (36 : UInt8) ∉ kScheme := by decide
  have htext : (36 : UInt8) ∉ Decimal.text iterations.toNat := Decimal.text_not_mem (by decide)
  rw [heq, List.splitOn_append_cons_self_of_not_mem hscheme,
    List.splitOn_append_cons_self_of_not_mem htext,
    List.splitOn_append_cons_self_of_not_mem (hnot salt), List.splitOn_eq_singleton (hnot _)]

theorem parse_hashPassword (hpos : iterations ≠ 0) (hle : iterations.toNat ≤ 100000000)
    (h : hashPassword C salt password iterations ≠ []) :
    parse (hashPassword C salt password iterations) =
      some ⟨iterations, salt, stretch C password salt iterations⟩ := by
  obtain ⟨hsalt, hhash, -⟩ := hashPassword_eq hpos h
  have hcount := @parseSize_text iterations.toNat 100000000 hle
  have hback : (UInt64.ofNat iterations.toNat).toUInt32 = iterations := by simp
  have hpos' : UInt64.ofNat iterations.toNat ≠ 0 := by
    intro hzero
    rw [hzero] at hback
    exact hpos hback.symm
  have hne : salt ≠ [] := by
    rintro rfl
    exact absurd hsalt (by decide)
  rw [parse, splitOn_hashPassword hpos h]
  simp only [hcount, fromHex_toHex, hpos', hne, hhash, hback, ne_eq, not_true_eq_false, or_self,
    ↓reduceIte]

/-- A password is accepted that the derivation does not tell from the one the verifier is of. -/
theorem verifyPassword_hashPassword (hpos : iterations ≠ 0) (hle : iterations.toNat ≤ 100000000)
    (h : hashPassword C salt password iterations ≠ []) (other : Bytes) :
    verifyPassword C other (hashPassword C salt password iterations) = true ↔
      stretch C other salt iterations = stretch C password salt iterations := by
  simp only [verifyPassword, parse_hashPassword hpos hle h]
  split_ifs with hlength
  · refine iff_of_false not_false fun heq => hlength ?_
    rw [heq]
  · rw [decide_eq_true_iff, toHex_injective.eq_iff]

/-- The parser caps the count, so that a verifier of a greater one is never read. -/
theorem parse_hashPassword_eq_none (hgt : 100000000 < iterations.toNat)
    (h : hashPassword C salt password iterations ≠ []) :
    parse (hashPassword C salt password iterations) = none := by
  have hpos : iterations ≠ 0 := by
    rintro rfl
    exact absurd hgt (by decide)
  have hcount := @parseSize_text_eq_none iterations.toNat 100000000 hgt
  rw [parse, splitOn_hashPassword hpos h]
  simp only [hcount, ne_eq, not_true_eq_false, ↓reduceIte]

theorem hashPassword_ne_nil (hpos : iterations ≠ 0) (hsalt : salt.length = kSaltLen)
    (hhash : (stretch C password salt iterations).length = kHashLen) :
    hashPassword C salt password iterations ≠ [] := by
  have hscheme : kScheme ≠ [] := by decide
  simp [hashPassword, hpos, hsalt, hhash, hscheme]

end Passwd

end PersonalCloud
